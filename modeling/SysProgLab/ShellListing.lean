import SysProgLab.ShellForeground
import SysProgLab.Decimal

/-!
# What `jobs` prints

`listjobs` goes through the slots and prints a line, in three pieces, for every one that is
in use. `SIGCHLD` is not blocked meanwhile: the handler may clear a slot between two pieces of
its line, and print a line of its own. When it does neither, the listing can be read back: it
names the children that had been entered, except for some that are reaped before it ends, each
`Running` or `Stopped` (`jobs_listed`), as long as command lines end with their only newline.
-/

namespace SysProgLab

/-! ## Lines of a text -/

/-- The lines of a text, without their newlines. -/
def linesOf : CStr → List CStr
  | [] => []
  | b :: s =>
    if b = 10 then [] :: linesOf s
    else
      match linesOf s with
      | [] => [[b]]
      | l :: ls => (b :: l) :: ls

theorem linesOf_append {l : CStr} (h : 10 ∉ l) (s : CStr) :
    linesOf (l ++ 10 :: s) = l :: linesOf s := by
  induction l with
  | nil => exact if_pos rfl
  | cons b l ih =>
    rw [List.mem_cons, not_or] at h
    rw [List.cons_append, linesOf, if_neg (Ne.symm h.1), ih h.2]

theorem linesOf_flatten : ∀ {ls : List CStr}, (∀ l ∈ ls, 10 ∉ l) →
    linesOf (ls.map fun l => l ++ [10]).flatten = ls := by
  intro ls
  induction ls with
  | nil => exact fun _ => rfl
  | cons l ls ih =>
    intro h
    rw [List.map_cons, List.flatten_cons, List.append_assoc, List.singleton_append,
      linesOf_append (h l List.mem_cons_self), ih fun l' hl' => h l' (List.mem_cons_of_mem l hl')]

/-! ## The listing -/

/-- The word for the state of a job in slot `i`. -/
def stateText (i : ℕ) : JobState → CStr
  | .bg => ascii "Running"
  | .fg => ascii "Foreground"
  | .st => ascii "Stopped"
  | .undef => ascii "listjobs: Internal error: job[" ++ decimal i ++ ascii "].state=0"

/-- `printf("[%d] (%d) ", jobs[i].jid, jobs[i].pid)` -/
def idsText (j : Job) : CStr :=
  ascii "[" ++ decimalInt j.jid ++ ascii "] (" ++ decimalInt j.pid ++ ascii ") "

namespace Shell

/-- The program points of the loop of `listjobs`: the statement to be executed next. -/
inductive ListPc : Type where
  /-- `if (jobs[i].pid != 0)` -/
  | test
  /-- `printf("[%d] (%d) ", jobs[i].jid, jobs[i].pid)` -/
  | ids
  /-- the `switch` -/
  | state
  /-- `printf("%s", jobs[i].cmdline)` -/
  | command
  deriving DecidableEq

/-- The shell inside `listjobs`. -/
structure Listing : Type where
  /-- the shell and its children -/
  shell : State
  /-- `i` -/
  i : ℕ
  /-- the next statement for slot `i` -/
  pc : ListPc
  /-- what has been printed -/
  out : CStr

/-- The next statement of `listjobs`; `none` when `i` is behind the last slot. -/
def Listing.print (x : Listing) : Option Listing :=
  x.shell.table.jobs[x.i]?.map fun j =>
    match x.pc with
    | .test => if j.pid ≠ 0 then { x with pc := .ids } else { x with i := x.i + 1 }
    | .ids => { x with pc := .state, out := x.out ++ idsText j }
    | .state => { x with pc := .command, out := x.out ++ (stateText x.i j.state ++ ascii " ") }
    | .command => { x with i := x.i + 1, pc := .test, out := x.out ++ j.cmdline }

/-- What the handler prints about the child that `waitpid` reports. -/
def sigchldText (t : JobTable) (pid : ℤ) (status : Status) : CStr :=
  let job := ascii "Job [" ++ decimalInt (t.pid2jid pid) ++ ascii "] (" ++ decimalInt pid
  if pid ≠ 0 ∧ t.pid2jid pid ≠ 0 then
    match status with
    | .signaled => job ++ ascii ") terminated by signal 2\n"
    | .stopped _ => job ++ ascii ") stopped by signal 20\n"
    | _ => []
  else []

/-- What is printed in a step of a child or of the handler. -/
def State.printed (s : State) : Action → CStr
  | .handler (some pid) =>
    match s.children.find? fun c => decide (c.pid = pid) && c.status.reportable with
    | none => []
    | some c => sigchldText s.table pid c.status
  | _ => []

/-- A step while `listjobs` runs. -/
inductive ListStep : Type where
  /-- the next statement of `listjobs` -/
  | print
  /-- a child or the handler takes a step -/
  | shell (a : Action)

/-- One step. No command is read, and `eval` is still at this one. -/
def Listing.next (x : Listing) : ListStep → Option Listing
  | .print => x.print
  | .shell (.command _ _) => none
  | .shell a => (x.shell.next a).map fun S => { x with shell := S, out := x.out ++ x.shell.printed a }

/-- The runs of `listjobs` that start in the state `s`. -/
def listing (s : State) : Machine Listing ListStep where
  init x := x = ⟨s, 0, .test, []⟩
  step x a y := x.next a = some y

/-- **The condition**: a handler that runs while `listjobs` does reports a child that has exited,
about which it prints nothing, and not the one whose line is being printed. -/
def undisturbed (x : Listing) : ListStep → Bool
  | .shell (.handler (some pid)) =>
    x.shell.children.all (fun c => decide (c.pid = pid → c.status = .exited)) &&
      decide (x.pc ≠ .test → slotPid x.shell.table.jobs x.i ≠ pid)
  | _ => true

end Shell

/-! ## Lines are read back -/

/-- What `listjobs` prints for the job in slot `i`. -/
def jobLine (i : ℕ) (j : Job) : CStr :=
  idsText j ++ (stateText i j.state ++ ascii " ") ++ j.cmdline

/-- What a line of the listing says: the job id, the pid, the state and the command. -/
def readJob (line : CStr) : ℤ × ℤ × CStr × CStr :=
  let jid := line.drop 1
  let pid := (jid.dropWhile isDigit).drop 3
  let rest := (pid.dropWhile isDigit).drop 2
  (leadingInt jid, leadingInt pid, rest.takeWhile fun b => decide (b ≠ 32),
    (rest.dropWhile fun b => decide (b ≠ 32)).drop 1)

/-- A command line that ends with its only newline. -/
def Whole (cmdline : CStr) : Prop := ∃ l, cmdline = l ++ [10] ∧ 10 ∉ l

/-- What a line should say about a job. -/
def Job.entry (j : Job) : ℤ × ℤ × CStr × CStr :=
  (j.jid, j.pid, stateText 0 j.state, j.cmdline.dropLast)

theorem dropWhile_decimal (n : ℕ) (b : UInt8) (hb : isDigit b = false) (s : CStr) :
    (decimal n ++ b :: s).dropWhile isDigit = b :: s := by
  rw [List.dropWhile_append_of_pos fun c hc => isDigit_of_mem_decimal hc, List.dropWhile_cons,
    hb]
  rfl

/-- **A line is read back.** -/
theorem readJob_line {jid pid : ℕ} {word cmd : CStr} (hword : 32 ∉ word) :
    readJob (ascii "[" ++ decimal jid ++ ascii "] (" ++ decimal pid ++ ascii ") " ++ word ++
      ascii " " ++ cmd) = ((jid : ℤ), (pid : ℤ), word, cmd) := by
  have hne : ∀ b ∈ word, decide (b ≠ 32) = true := fun b hb =>
    decide_eq_true fun e => hword (e ▸ hb)
  have hjid : (ascii "[" ++ decimal jid ++ ascii "] (" ++ decimal pid ++ ascii ") " ++ word ++
      ascii " " ++ cmd).drop 1 =
      decimal jid ++ 93 :: (ascii " (" ++ (decimal pid ++ 41 :: 32 :: (word ++ 32 :: cmd))) := by
    simp [ascii]
  have hpid : ((decimal jid ++ 93 :: (ascii " (" ++
      (decimal pid ++ 41 :: 32 :: (word ++ 32 :: cmd)))).dropWhile isDigit).drop 3 =
      decimal pid ++ 41 :: 32 :: (word ++ 32 :: cmd) := by
    rw [dropWhile_decimal jid 93 (by decide)]
    rfl
  have hrest : ((decimal pid ++ 41 :: 32 :: (word ++ 32 :: cmd)).dropWhile isDigit).drop 2 =
      word ++ 32 :: cmd := by
    rw [dropWhile_decimal pid 41 (by decide)]
    rfl
  rw [readJob, hjid, hpid, hrest, leadingInt_decimal_append (by decide), leadingInt_decimal_append (by decide),
    List.takeWhile_append_of_pos hne, List.dropWhile_append_of_pos hne]
  simp

/-- A slot in use holds a job that can be listed. -/
def Labelled (j : Job) : Prop := j.pid ≠ 0 → j.state ≠ .undef ∧ Whole j.cmdline

/-- The jobs of the slots in use, in the order of the slots. -/
def JobTable.inUse (t : JobTable) : List Job := t.jobs.filter fun j => decide (j.pid ≠ 0)

/-- Only the message about an internal error tells where the slot is. -/
theorem jobLine_eq (i : ℕ) {j : Job} (h : j.state ≠ .undef) : jobLine i j = jobLine 0 j := by
  rw [jobLine, jobLine]
  cases hs : j.state with
  | undef => exact absurd hs h
  | fg | bg | st => rfl

/-- A line of the listing without its newline. -/
def jobText (j : Job) : CStr := idsText j ++ (stateText 0 j.state ++ ascii " ") ++ j.cmdline.dropLast

theorem jobLine_text {j : Job} (h : Whole j.cmdline) : jobLine 0 j = jobText j ++ [10] := by
  obtain ⟨l, hl, -⟩ := h
  rw [jobLine, jobText, hl, List.dropLast_concat, List.append_assoc _ l [10]]

theorem jobText_newline {j : Job} (hs : j.state ≠ .undef) (h : Whole j.cmdline)
    (hjid : 0 ≤ j.jid) (hpid : 0 ≤ j.pid) : 10 ∉ jobText j := by
  obtain ⟨l, hl, hnl⟩ := h
  obtain ⟨jid, hjid⟩ := Int.eq_ofNat_of_zero_le hjid
  obtain ⟨pid, hpid⟩ := Int.eq_ofNat_of_zero_le hpid
  have hdec : ∀ n : ℕ, (10 : UInt8) ∉ decimal n := fun n hn => by
    cases isDigit_of_mem_decimal hn
  have hstate : (10 : UInt8) ∉ stateText 0 j.state := by
    cases hst : j.state with
    | undef => exact absurd hst hs
    | fg | bg | st => decide
  have hopen : (10 : UInt8) ∉ ascii "[" := by decide
  have hmid : (10 : UInt8) ∉ ascii "] (" := by decide
  have hclose : (10 : UInt8) ∉ ascii ") " := by decide
  have hspace : (10 : UInt8) ∉ ascii " " := by decide
  simp only [jobText, idsText, hl, hjid, hpid, decimalInt_natCast, List.dropLast_concat, List.mem_append,
    hdec, hstate, hopen, hmid, hclose, hspace, hnl, or_self, not_false_eq_true]

theorem readJob_text {j : Job} (hs : j.state ≠ .undef) (hjid : 0 ≤ j.jid) (hpid : 0 ≤ j.pid) :
    readJob (jobText j) = j.entry := by
  obtain ⟨jid, hjid⟩ := Int.eq_ofNat_of_zero_le hjid
  obtain ⟨pid, hpid⟩ := Int.eq_ofNat_of_zero_le hpid
  have hword : 32 ∉ stateText 0 j.state := by
    cases hst : j.state with
    | undef => exact absurd hst hs
    | fg | bg | st => decide
  rw [jobText, idsText, Job.entry, hjid, hpid, decimalInt_natCast, decimalInt_natCast,
    ← List.append_assoc _ _ (ascii " "), readJob_line hword]

/-- A job that is listed. -/
structure Job.Listed (j : Job) : Prop where
  state : j.state ≠ .undef
  whole : Whole j.cmdline
  jid : 0 ≤ j.jid
  pid : 0 ≤ j.pid

/-- **Lines are read back.** -/
theorem lines_entries {js : List Job} (h : ∀ j ∈ js, j.Listed) :
    (linesOf (js.map (jobLine 0)).flatten).map readJob = js.map Job.entry := by
  have htext : (js.map (jobLine 0)).flatten =
      ((js.map jobText).map fun l => l ++ [10]).flatten := by
    rw [List.map_map]
    exact congrArg List.flatten (List.map_congr_left fun j hj => jobLine_text (h j hj).whole)
  rw [htext, linesOf_flatten, List.map_map]
  · exact List.map_congr_left fun j hj => readJob_text (h j hj).state (h j hj).jid (h j hj).pid
  · intro l hl
    obtain ⟨j, hj, rfl⟩ := List.mem_map.mp hl
    obtain ⟨hs, hw, hjid, hpid⟩ := h j hj
    exact jobText_newline hs hw hjid hpid

theorem JobTable.inUse_listed {t : JobTable} (h : ∀ j ∈ t.jobs, Labelled j) (hok : t.Ok)
    (hpos : ∀ p ∈ t.pids, 1 ≤ p) {j : Job} (hj : j ∈ t.inUse) : j.Listed := by
  obtain ⟨hmem, hj0⟩ := List.mem_filter.mp hj
  rw [decide_eq_true_iff] at hj0
  obtain ⟨hs, hw⟩ := h j hmem hj0
  exact ⟨hs, hw, Int.le_of_lt (hok.jid_pos j hmem hj0),
    Int.le_of_lt (hpos j.pid (mem_pids.mpr ⟨hj0, j, hmem, rfl⟩))⟩

/-! ## Runs -/

namespace Shell

/-- The command line that `eval` holds. -/
def Pc.text : Pc → Option CStr
  | .block _ cmdline | .fork _ cmdline | .add _ cmdline _ => some cmdline
  | _ => none

/-- A command line that is read ends with its only newline. -/
def wholeLine : Step → Bool
  | .shell (.command _ cmdline) =>
    decide (cmdline.getLast? = some 10) && decide (10 ∉ cmdline.dropLast)
  | _ => true

/-- Every job, and the one that is about to be added, can be listed. -/
structure Titled (S : State) : Prop where
  jobs : ∀ j ∈ S.table.jobs, Labelled j
  pc : ∀ cmdline ∈ S.pc.text, Whole cmdline

variable {S S' : State} {t : JobTable} {s s' : Session} {pid : ℤ}

theorem labelled_set {jobs : List Job} {x : Job} (i : ℕ) (h : ∀ j ∈ jobs, Labelled j)
    (hx : Labelled x) : ∀ j ∈ jobs.set i x, Labelled j := fun j hj => by
  rcases List.mem_or_eq_of_mem_set hj with hj | rfl
  · exact h j hj
  · exact hx

theorem Labelled.setState {j : Job} (h : Labelled j) {state : JobState} (hs : state ≠ .undef) :
    Labelled { j with state := state } := fun hp => ⟨hs, (h hp).2⟩

theorem labelled_addjob (h : ∀ j ∈ t.jobs, Labelled j) {bg : Bool} {cmdline : CStr}
    (hw : Whole cmdline) :
    ∀ j ∈ (t.addjob pid (if bg then .bg else .fg) cmdline).2.jobs, Labelled j := by
  rw [JobTable.addjob]
  split
  · exact h
  · split
    · exact h
    · exact labelled_set _ h fun _ => ⟨fun he => by (cases bg <;> cases he), hw⟩

theorem labelled_handler (h : ∀ j ∈ t.jobs, Labelled j) (status : Status) :
    ∀ j ∈ (sigchldHandler t pid status).jobs, Labelled j := by
  rcases sigchldHandler_slots t pid status with hsame | ⟨k, j, x, hj, -, hset, rfl | rfl⟩
  · rw [hsame]
    exact h
  · rw [hset]
    exact labelled_set k h fun h0 => absurd rfl h0
  · rw [hset]
    exact labelled_set k h (Labelled.setState (h j (List.mem_of_getElem? hj))
      fun he => by cases he)

theorem labelled_setState (h : ∀ j ∈ t.jobs, Labelled j) (i : ℕ) {state : JobState}
    (hs : state ≠ .undef) : ∀ j ∈ (t.setState i state).jobs, Labelled j := by
  intro k hk
  rw [JobTable.setState] at hk
  cases hj : t.jobs[i]? with
  | none =>
    rw [List.modify_eq_self (List.getElem?_eq_none_iff.mp hj)] at hk
    exact h k hk
  | some j =>
    rw [modify_eq_set _ hj] at hk
    exact labelled_set i h (Labelled.setState (h j (List.mem_of_getElem? hj)) hs) k hk

namespace Titled

theorem init : Titled Shell.init where
  jobs j hj := by
    obtain rfl := List.eq_of_mem_replicate hj
    exact fun h0 => absurd rfl h0
  pc _ hc := by cases hc

theorem childEvent (h : Titled S) {guard : Status → Bool} {status : Status}
    (e : S.childEvent pid guard status = some S') : Titled S' := by
  obtain ⟨-, e⟩ := Option.ite_none_right_eq_some.mp e
  cases e
  exact ⟨h.jobs, h.pc⟩

theorem handle (h : Titled S) {r : Option ℤ} (e : S.handle r = some S') : Titled S' := by
  cases r with
  | none =>
    obtain ⟨-, rfl⟩ := handle_none e
    exact ⟨h.jobs, h.pc⟩
  | some pid =>
    obtain ⟨c, -, -, ⟨-, rfl⟩ | ⟨-, rfl⟩⟩ := handle_some e
    · exact ⟨labelled_handler h.jobs _, h.pc⟩
    · exact ⟨labelled_handler h.jobs _, h.pc⟩

theorem main (h : Titled S) {forked : ℤ} (e : S.main forked = some S') : Titled S' := by
  have hpc := h.pc
  rw [State.main] at e
  cases hcase : S.pc with
  | ready =>
    rw [hcase] at e
    cases e
  | block bg cmdline =>
    rw [hcase] at e hpc
    cases e
    exact ⟨h.jobs, hpc⟩
  | fork bg cmdline =>
    rw [hcase] at e hpc
    dsimp only at e
    split at e
    · cases e
      exact ⟨h.jobs, fun _ hc => by cases hc⟩
    split at e
    · cases e
    · cases e
      exact ⟨h.jobs, hpc⟩
  | add bg cmdline pid =>
    rw [hcase] at e hpc
    cases e
    exact ⟨labelled_addjob h.jobs (hpc cmdline rfl), fun _ hc => by cases hc⟩
  | unblock bg pid =>
    rw [hcase] at e
    cases e
    refine ⟨h.jobs, fun _ hc => ?_⟩
    cases bg <;> cases hc
  | wait pid =>
    rw [hcase] at e
    dsimp only at e
    split at e
    · cases e
      exact ⟨h.jobs, fun _ hc => by cases hc⟩
    · split at e
      · cases e
        exact h
      · cases e
        exact ⟨h.jobs, fun _ hc => by cases hc⟩
  | report pid =>
    rw [hcase] at e
    dsimp only at e
    split at e
    · cases e
    · cases e
      exact ⟨h.jobs, fun _ hc => by cases hc⟩

/-- **One step** keeps the table fit to be listed. -/
theorem next (h : Titled s.shell) {a : Step} (hw : wholeLine a = true)
    (e : s.next a = some s') : Titled s'.shell := by
  rcases Session.next_cases e with ⟨act, S', rfl, hact, rfl, -⟩ | ⟨fg, arg, -, -, hshell⟩ |
    ⟨pt, -, -, hbgfg⟩
  · cases act with
    | command bg cmdline =>
      obtain ⟨-, e⟩ := Option.ite_none_right_eq_some.mp hact
      cases e
      refine ⟨h.jobs, fun c hc => ?_⟩
      cases hc
      rw [wholeLine, Bool.and_eq_true, decide_eq_true_iff, decide_eq_true_iff] at hw
      exact ⟨cmdline.dropLast, (List.dropLast_append_getLast? 10 hw.1).symm, hw.2⟩
    | main forked => exact h.main hact
    | stop pid | cont pid | exit pid | kill pid =>
      rw [State.next] at hact
      exact h.childEvent hact
    | handler r => exact h.handle (Option.ite_none_right_eq_some.mp hact).2
  · rw [hshell]
    exact h
  · rcases bgfg_cases hbgfg with ⟨b, rfl, -⟩ | ⟨fg, i, -, rfl⟩ | ⟨fg, i, S', guard, -, hcont, rfl⟩ |
      ⟨i, -, rfl⟩
    · exact h
    · exact ⟨labelled_setState h.jobs i fun he => by (cases fg <;> cases he), h.pc⟩
    · exact h.childEvent hcont
    · exact ⟨h.jobs, fun _ hc => by cases hc⟩

end Titled

/-! ## While it prints -/

/-- The jobs of some slots that are in use. -/
abbrev jobsInUse (jobs : List Job) : List Job := jobs.filter fun j => decide (j.pid ≠ 0)

theorem jobsInUse_take_succ {jobs : List Job} {i : ℕ} {j : Job} (h : jobs[i]? = some j) :
    jobsInUse (jobs.take (i + 1)) =
      jobsInUse (jobs.take i) ++ if j.pid ≠ 0 then [j] else [] := by
  rw [List.take_add_one, h, jobsInUse, List.filter_append]
  by_cases hj : j.pid = 0 <;> simp [jobsInUse, hj]

/-- Clearing a slot lists no other job. -/
theorem inUse_set_clearjob (jobs : List Job) (k : ℕ) :
    (jobsInUse (jobs.set k clearjob)).Sublist (jobsInUse jobs) := by
  induction jobs generalizing k with
  | nil => exact .slnil
  | cons j jobs ih =>
    cases k with
    | zero => exact (List.sublist_cons_self j jobs).filter _
    | succ k =>
      rw [List.set_cons_succ, jobsInUse, jobsInUse, List.filter_cons, List.filter_cons]
      split
      · exact (ih k).cons_cons j
      · exact ih k

/-- What has been printed of the line of a job. -/
def ListPc.begun (i : ℕ) (j : Job) : ListPc → CStr
  | .test | .ids => []
  | .state => idsText j
  | .command => idsText j ++ (stateText i j.state ++ ascii " ")

/-- **What holds between two statements** of `listjobs`, which was called with the slots `jobs`:
slots may have been cleared, but not the one whose line is being printed; what has been printed
are lines for jobs of the slots before it, with none left out that is still in the table. -/
structure Prints (jobs : List Job) (x : Listing) : Prop where
  tracks : Tracks x.shell
  ready : x.shell.pc = .ready
  size : x.shell.table.jobs.length = jobs.length
  slots : ∀ k : ℕ, x.shell.table.jobs[k]? = jobs[k]? ∨ x.shell.table.jobs[k]? = some clearjob
  held : x.pc ≠ .test → ∃ j, jobs[x.i]? = some j ∧ x.shell.table.jobs[x.i]? = some j ∧ j.pid ≠ 0
  out : ∃ js : List Job, js.Sublist (jobsInUse (jobs.take x.i)) ∧
    (jobsInUse (x.shell.table.jobs.take x.i)).Sublist js ∧
    x.out = (js.map (jobLine 0)).flatten ++ (jobs[x.i]?.map fun j => x.pc.begun x.i j).getD []

namespace Prints

variable {jobs : List Job} {x y : Listing}

theorem init (htracks : Tracks S) (hready : S.pc = .ready) :
    Prints S.table.jobs ⟨S, 0, .test, []⟩ where
  tracks := htracks
  ready := hready
  size := rfl
  slots _ := .inl rfl
  held h := absurd rfl h
  out := by
    refine ⟨[], .refl _, .refl _, ?_⟩
    cases S.table.jobs[0]? <;> rfl

theorem begun_test (o : Option Job) (i : ℕ) : (o.map fun j => ListPc.begun i j .test).getD [] = [] := by
  cases o <;> rfl

/-- **A statement of `listjobs`.** -/
theorem print (h : Prints jobs x) (hlabelled : ∀ j ∈ jobs, Labelled j) (e : x.print = some y) :
    Prints jobs y := by
  obtain ⟨htracks, hready, hsize, hslots, hheld, js, hstart, hnow, hout⟩ := h
  obtain ⟨j, hj, rfl⟩ := Option.map_eq_some_iff.mp e
  obtain ⟨S, i, pc, out⟩ := x
  dsimp only at htracks hready hsize hslots hheld hstart hnow hout hj ⊢
  cases pc with
  | test =>
    rw [begun_test] at hout
    dsimp only
    split
    · next hused =>
      have hat : jobs[i]? = some j := by
        rcases hslots i with hsame | hclear
        · rw [← hsame, hj]
        · rw [hj] at hclear
          obtain rfl := Option.some.inj hclear
          exact absurd rfl hused
      refine ⟨htracks, hready, hsize, hslots, fun _ => ⟨j, hat, hj, hused⟩, js, hstart, hnow, ?_⟩
      rw [hout, hat]
      rfl
    · next hfree =>
      refine ⟨htracks, hready, hsize, hslots, fun hne => absurd rfl hne, js, ?_, ?_, ?_⟩
      · exact hstart.trans ((List.take_sublist_take_left (Nat.le_succ i)).filter _)
      · dsimp only
        rw [jobsInUse_take_succ hj, if_neg hfree, List.append_nil]
        exact hnow
      · dsimp only
        rw [hout, begun_test]
  | ids =>
    obtain ⟨j', hat, hj', hused⟩ := hheld (nomatch ·)
    obtain rfl := Option.some.inj (hj.symm.trans hj')
    refine ⟨htracks, hready, hsize, hslots, fun _ => ⟨j, hat, hj, hused⟩, js, hstart, hnow, ?_⟩
    dsimp only
    rw [hout, hat]
    exact List.append_assoc ..
  | state =>
    obtain ⟨j', hat, hj', hused⟩ := hheld (nomatch ·)
    obtain rfl := Option.some.inj (hj.symm.trans hj')
    refine ⟨htracks, hready, hsize, hslots, fun _ => ⟨j, hat, hj, hused⟩, js, hstart, hnow, ?_⟩
    dsimp only
    rw [hout, hat]
    exact List.append_assoc ..
  | command =>
    obtain ⟨j', hat, hj', hused⟩ := hheld (nomatch ·)
    obtain rfl := Option.some.inj (hj.symm.trans hj')
    refine ⟨htracks, hready, hsize, hslots, fun hne => absurd rfl hne, js ++ [j], ?_, ?_, ?_⟩
    · dsimp only
      rw [jobsInUse_take_succ hat, if_pos hused]
      exact hstart.append (.refl [j])
    · dsimp only
      rw [jobsInUse_take_succ hj, if_pos hused]
      exact hnow.append (.refl [j])
    · have hline := jobLine_eq i (hlabelled j (List.mem_of_getElem? hat) hused).1
      dsimp only
      rw [hout, hat, begun_test, List.map_append, List.flatten_append, List.append_nil,
        List.append_assoc]
      exact congrArg _ (hline.trans (List.append_nil _).symm)

/-- What changes no slot and prints nothing. -/
theorem frame (h : Prints jobs x) (hsame : S.table.jobs = x.shell.table.jobs)
    (htracks : Tracks S) (hready : S.pc = .ready) : Prints jobs { x with shell := S } :=
  ⟨htracks, hready, hsame ▸ h.size, hsame ▸ h.slots, hsame ▸ h.held, hsame ▸ h.out⟩

/-- The handler clears a slot, which is not the one whose line is being printed. -/
theorem clear (h : Prints jobs x) {k : ℕ} {d : Job} (hk : x.shell.table.jobs[k]? = some d)
    (hne : x.pc ≠ .test → x.i ≠ k) (hclear : S.table.jobs = x.shell.table.jobs.set k clearjob)
    (htracks : Tracks S) (hready : S.pc = .ready) : Prints jobs { x with shell := S } where
  tracks := htracks
  ready := hready
  size := by
    dsimp only
    rw [hclear, List.length_set, h.size]
  slots l := by
    dsimp only
    rw [hclear]
    obtain rfl | hl := eq_or_ne k l
    · exact .inr (List.getElem?_set_self (List.getElem?_eq_some_iff.mp hk).1)
    · rw [List.getElem?_set_ne hl]
      exact h.slots l
  held hpc := by
    obtain ⟨j, hat, hj, hused⟩ := h.held hpc
    refine ⟨j, hat, ?_, hused⟩
    dsimp only
    rw [hclear, List.getElem?_set_ne (hne hpc).symm, hj]
  out := by
    obtain ⟨js, hstart, hnow, hout⟩ := h.out
    refine ⟨js, hstart, ?_, hout⟩
    dsimp only
    rw [hclear, List.take_set]
    exact (inUse_set_clearjob _ k).trans hnow

/-- **A run of the handler.** -/
theorem handle (h : Prints jobs x) {r : Option ℤ}
    (hquiet : undisturbed x (.shell (.handler r)) = true)
    (e : x.shell.next (.handler r) = some S) :
    x.shell.printed (.handler r) = [] ∧ Prints jobs { x with shell := S } := by
  have htracks := h.tracks.next e
  have hhandle := (Option.ite_none_right_eq_some.mp e).2
  have hready := (handle_pc hhandle).trans h.ready
  cases r with
  | none =>
    obtain ⟨-, rfl⟩ := handle_none hhandle
    exact ⟨rfl, h.frame rfl htracks hready⟩
  | some pid =>
    rw [undisturbed, Bool.and_eq_true, List.all_eq_true, decide_eq_true_iff] at hquiet
    obtain ⟨hexited, hline⟩ := hquiet
    have hstatus : ∀ c ∈ x.shell.children, c.pid = pid → c.status = .exited := fun c hc =>
      of_decide_eq_true (hexited c hc)
    constructor
    · rw [State.printed]
      split
      · rfl
      · next c hfind =>
        have hp := List.find?_some hfind
        rw [Bool.and_eq_true, decide_eq_true_iff] at hp
        rw [hstatus c (List.mem_of_find?_eq_some hfind) hp.1]
        exact ite_self _
    obtain ⟨c, hc, hp, ⟨-, rfl⟩ | ⟨hstop, -⟩⟩ := handle_some hhandle
    · rw [hstatus c hc hp] at htracks hready ⊢
      by_cases hentered : pid ≠ 0 ∧ x.shell.table.pid2jid pid ≠ 0
      · rw [sigchldHandler, if_pos hentered] at htracks hready ⊢
        rcases deletejob_slots x.shell.table pid with hsame | ⟨k, hget, hset⟩
        · exact h.frame hsame htracks hready
        · obtain ⟨-, d, hk, hd⟩ := slot_of_getjobpid hget
          refine h.clear hk (fun hpc hik => hline hpc ?_) hset htracks hready
          rw [hik, slotPid_of_getElem hk, hd]
      · rw [sigchldHandler, if_neg hentered] at htracks hready ⊢
        exact h.frame rfl htracks hready
    · cases (hstatus c hc hp).symm.trans hstop

/-- **One step** while `listjobs` runs. -/
theorem next (h : Prints jobs x) (hlabelled : ∀ j ∈ jobs, Labelled j) {a : ListStep}
    (hquiet : undisturbed x a = true) (e : x.next a = some y) : Prints jobs y := by
  cases a with
  | print => exact h.print hlabelled e
  | shell act =>
    cases act with
    | command bg cmdline => cases e
    | main forked =>
      obtain ⟨S, hS, rfl⟩ := Option.map_eq_some_iff.mp e
      rw [State.next, State.main, h.ready] at hS
      cases hS
    | stop pid | cont pid | exit pid | kill pid =>
      obtain ⟨S, hS, rfl⟩ := Option.map_eq_some_iff.mp e
      have htracks := h.tracks.next hS
      obtain ⟨-, hS⟩ := Option.ite_none_right_eq_some.mp hS
      cases hS
      rw [State.printed, List.append_nil]
      · exact h.frame rfl htracks h.ready
      all_goals exact fun _ he => by cases he
    | handler r =>
      obtain ⟨S, hS, rfl⟩ := Option.map_eq_some_iff.mp e
      obtain ⟨hprinted, h'⟩ := h.handle hquiet hS
      rw [hprinted, List.append_nil]
      exact h'

end Prints

/-- What `listjobs` prints, when no handler disturbs it. -/
theorem listing_inductive (htracks : Tracks S) (hready : S.pc = .ready)
    (hlabelled : ∀ j ∈ S.table.jobs, Labelled j) :
    (listing S).Inductive (fun x a => undisturbed x a = true) (Prints S.table.jobs) where
  init e := by
    obtain rfl := e
    exact .init htracks hready
  step h hquiet e := h.next hlabelled hquiet e

/-- **What `jobs` prints**, when it is typed at the prompt and its listing is not disturbed, is
a line for every child that has been entered and is not reaped before the listing ends, and
perhaps for some that are; each child is named once, with its job id and command, and is said to
be running or stopped; read back, the lines are jobs of the table that was there at the start. -/
theorem jobs_listed {s : Session}
    (hs : session.ReachWhen (fun s a => (occupied s a && wholeLine a) = true) s)
    (hp : s.AtPrompt) {x : Listing}
    (hx : (listing s.shell).ReachWhen (fun x a => undisturbed x a = true) x)
    (hend : x.print = none) :
    ∃ js : List Job, (linesOf x.out).map readJob = js.map Job.entry ∧
      js.Sublist s.shell.table.jobs ∧ (js.map Job.pid).Nodup ∧
      (∀ p ∈ js.map Job.pid, p ∈ registered s.shell.children) ∧
      (∀ p ∈ registered x.shell.children, p ∈ js.map Job.pid) ∧
      ∀ j ∈ js, j.state = .bg ∨ j.state = .st := by
  have hocc : session.ReachWhen (fun s a => occupied s a = true) s :=
    hs.mono fun s a h => (Bool.and_eq_true_iff.mp h).1
  have hfronted := session_inductive.holds hocc
  have htracks := hfronted.tracks
  have hinductive : session.Inductive (fun s a => (occupied s a && wholeLine a) = true)
      fun s => Titled s.shell := by
    constructor
    · rintro _ rfl
      exact .init
    · exact fun h hc e => h.next (Bool.and_eq_true_iff.mp hc).2 e
  have htitled := hinductive.holds hs
  have hprints := (listing_inductive htracks hp.1 htitled.jobs).holds hx
  obtain ⟨js, hstart, hnow, hout⟩ := hprints.out
  have hover := List.getElem?_eq_none_iff.mp (Option.map_eq_none_iff.mp hend)
  rw [List.take_of_length_le hover] at hnow
  rw [hprints.size] at hover
  rw [List.take_of_length_le hover] at hstart
  rw [List.getElem?_eq_none hover, Option.map_none, Option.getD_none, List.append_nil] at hout
  have hpids : ∀ t : JobTable, (jobsInUse t.jobs).map Job.pid = t.pids := fun t => by
    rw [JobTable.pids, List.filter_map]
    rfl
  have hpos : ∀ p ∈ s.shell.table.pids, 1 ≤ p := by
    intro p hmem
    obtain ⟨c, hc, rfl, -⟩ := mem_registered.mp ((htracks.pids p).mp hmem)
    exact htracks.pos c hc
  have hmap := hstart.map Job.pid
  rw [hpids] at hmap
  refine ⟨js, ?_, hstart.trans List.filter_sublist, hmap.nodup htracks.ok.nodup,
    fun p hp => (htracks.pids p).mp (hmap.subset hp), fun p hp => ?_, fun j hj => ?_⟩
  · rw [hout]
    exact lines_entries fun j hj => JobTable.inUse_listed htitled.jobs htracks.ok hpos
      (hstart.subset hj)
  · rw [← hprints.tracks.pids, ← hpids] at hp
    exact (hnow.map Job.pid).subset hp
  · obtain ⟨hmem, hj0⟩ := List.mem_filter.mp (hstart.subset hj)
    have hfg := hfronted.disciplined.prompt hp j hmem
    have hundef := (htitled.jobs j hmem (of_decide_eq_true hj0)).1
    cases hst : j.state with
    | undef => exact absurd hst hundef
    | fg => exact absurd hst hfg
    | bg => exact .inl rfl
    | st => exact .inr rfl

/-- Three jobs are started in the background, and the second one is stopped. -/
def threeJobs : List Step :=
  let start (pid : ℤ) (cmdline : CStr) : List Step :=
    [.shell (.command true cmdline), .shell (.main 0), .shell (.main pid), .shell (.main 0),
      .shell (.main 0), .shell (.main 0)]
  start 100 (ascii "a&\n") ++ start 101 (ascii "b&\n") ++ start 102 (ascii "c&\n") ++
    [.shell (.stop 101), .shell (.handler (some 101))]

/-- The listing of `threeJobs`; the first child exits and is reaped while the second line is
printed. -/
theorem jobs_listed_run : ∃ (s : Session) (x : Listing),
    x.out = ascii "[1] (100) Running a&\n[2] (101) Stopped b&\n[3] (102) Running c&\n" ∧
    registered x.shell.children = [102, 101] ∧
    ∃ js : List Job, (linesOf x.out).map readJob = js.map Job.entry ∧
      js.Sublist s.shell.table.jobs ∧ (js.map Job.pid).Nodup ∧
      (∀ p ∈ js.map Job.pid, p ∈ registered s.shell.children) ∧
      (∀ p ∈ registered x.shell.children, p ∈ js.map Job.pid) ∧
      ∀ j ∈ js, j.state = .bg ∨ j.state = .st := by
  have hrun : ((runSession (fun s a => occupied s a && wholeLine a) threeJobs).any fun s =>
      s.shell.pc = .ready ∧ s.point = none ∧
        ((Machine.exec (fun x a => if undisturbed x a = true then x.next a else none)
          ⟨s.shell, 0, .test, []⟩
          (List.replicate 6 .print ++ [.shell (.exit 100), .shell (.handler (some 100))] ++
            List.replicate 19 .print)).any fun x =>
          x.print.isNone ∧ registered x.shell.children = [102, 101] ∧ x.out =
            ascii "[1] (100) Running a&\n[2] (101) Stopped b&\n[3] (102) Running c&\n")) =
      true := by
    decide +kernel
  obtain ⟨s, e, hs⟩ := (Option.any_eq_true ..).mp hrun
  obtain ⟨hready, hpoint, hlisting⟩ := of_decide_eq_true hs
  obtain ⟨x, ex, hx⟩ := (Option.any_eq_true ..).mp hlisting
  obtain ⟨hend, hregistered, hout⟩ := of_decide_eq_true hx
  have hreach : (listing s.shell).ReachWhen (fun x a => undisturbed x a = true) x :=
    Machine.ReachWhen.exec (fun _ _ _ hnext => Option.ite_none_right_eq_some.mp hnext)
      (.init rfl) ex
  exact ⟨s, x, hout, hregistered, jobs_listed (runSession_reach e) ⟨hready, hpoint⟩ hreach
    (Option.isNone_iff_eq_none.mp hend)⟩

end Shell

end SysProgLab
