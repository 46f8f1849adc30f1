import SysProgLab.ShellJobs

/-!
# The foreground job

`do_bgfg` looks a job up, tests its state, stores the new state through the pointer
that the look-up returned, continues the job and waits for it, statement by
statement; `sigchld_handler` runs in between and may clear the slot behind the
pointer. As long as no state is stored into a slot that has been cleared, free
slots stay free, at most one job is in the foreground, and none is when the shell
reads a command.
-/

namespace SysProgLab

/-- The signals that the shell sends to a job. -/
inductive Signal : Type where
  | sigkill
  | sigtstp
  deriving DecidableEq

namespace JobTable

/-- The arguments of the call of `kill` in a handler of the keyboard's signals, if it
is called. -/
def forward (t : JobTable) (sig : Signal) : Option (ℤ × Signal) :=
  if t.fgpid ≠ 0 then some (-t.fgpid, sig) else none

/-- `sigint_handler` -/
def sigintHandler (t : JobTable) : Option (ℤ × Signal) := t.forward .sigkill

/-- `sigtstp_handler` -/
def sigtstpHandler (t : JobTable) : Option (ℤ × Signal) := t.forward .sigtstp

end JobTable

namespace Shell

/-- The argument of `bg` or `fg`. -/
inductive Arg : Type where
  /-- missing, or not of the right form -/
  | bad
  /-- `%n` -/
  | jid (n : ℤ)
  /-- `n` -/
  | pid (n : ℤ)
  deriving DecidableEq

/-- The program points of `do_bgfg`: the statement to be executed next, of `fg` or of
`bg`. A pointer to a job is the index of its slot. -/
inductive BgfgPc : Type where
  /-- the look-up that tells whether there is such a job -/
  | look (fg : Bool) (arg : Arg)
  /-- `stopped = getjobjid(jobs,jid)` -/
  | again (fg : Bool) (jid : ℤ)
  /-- `if(stopped->state != ST) return` or `if(stopped->state == FG) return` -/
  | test (fg : Bool) (stopped : ℕ)
  /-- `stopped->state = BG` or `stopped->state = FG` -/
  | store (fg : Bool) (stopped : ℕ)
  /-- `kill(-(stopped->pid),SIGCONT)` -/
  | kill (fg : Bool) (stopped : ℕ)
  /-- `waitfg(stopped->pid)` -/
  | wait (stopped : ℕ)
  deriving DecidableEq

/-- The shell, and where `do_bgfg` is if it has been called. -/
structure Session : Type where
  /-- the shell and its children -/
  shell : State
  /-- the next statement of `do_bgfg` -/
  point : Option BgfgPc
  deriving DecidableEq

/-- A step of the shell, of `do_bgfg` or of a child. -/
inductive Step : Type where
  /-- a step outside `do_bgfg` -/
  | shell (a : Action)
  /-- `bg` or `fg` is read -/
  | bgfg (fg : Bool) (arg : Arg)
  /-- the next statement of `do_bgfg` -/
  | statement
  deriving DecidableEq

/-- `stopped->pid` -/
def slotPid (jobs : List Job) (i : ℕ) : ℤ := (jobs[i]?.map Job.pid).getD 0

/-- The next statement of `do_bgfg`. A pid is looked up, but `jid` stays 0 and the second
look-up finds nothing; `stopped` is then followed. -/
def State.bgfg (s : State) : BgfgPc → Option Session
  | .look _ .bad => some ⟨s, none⟩
  | .look fg (.jid n) =>
    match s.table.getjobjid n with
    | none => some ⟨s, none⟩
    | some _ => some ⟨s, some (.again fg n)⟩
  | .look fg (.pid n) =>
    match s.table.getjobpid n with
    | none => some ⟨s, none⟩
    | some _ => some ⟨s, some (.again fg 0)⟩
  | .again fg jid =>
    match s.table.getjobjid jid with
    | none => none
    | some i => some ⟨s, some (.test fg i)⟩
  | .test fg i =>
    match s.table.jobs[i]? with
    | none => none
    | some j =>
      if (if fg then j.state = .fg else j.state ≠ .st) then some ⟨s, none⟩
      else some ⟨s, some (.store fg i)⟩
  | .store fg i =>
    some ⟨{ s with table := s.table.setState i (if fg then .fg else .bg) }, some (.kill fg i)⟩
  | .kill fg i =>
    let continued := s.childEvent (slotPid s.table.jobs i)
      (fun st => decide (st = .stopped true ∨ st = .stopped false)) .running
    some ⟨continued.getD s, if fg then some (.wait i) else none⟩
  | .wait i => some ⟨{ s with pc := .wait (slotPid s.table.jobs i) }, none⟩

/-- One step. While `do_bgfg` runs, so do the children and the handler. -/
def Session.next (s : Session) : Step → Option Session
  | .shell (.command bg cmdline) =>
    if s.point = none then (s.shell.next (.command bg cmdline)).map fun t => ⟨t, none⟩ else none
  | .shell (.main forked) =>
    if s.point = none then (s.shell.next (.main forked)).map fun t => ⟨t, none⟩ else none
  | .shell a => (s.shell.next a).map fun t => ⟨t, s.point⟩
  | .bgfg fg arg =>
    if s.shell.pc = .ready ∧ s.point = none then some ⟨s.shell, some (.look fg arg)⟩ else none
  | .statement => s.point.bind s.shell.bgfg

/-- The runs of the shell with `bg` and `fg`. -/
def session : Machine Session Step where
  init s := s = ⟨init, none⟩
  step s a s' := s.next a = some s'

/-- **The condition**: the slot behind the pointer still holds a job when a state is
stored into it. -/
def occupied (s : Session) : Step → Bool
  | .statement =>
    match s.point with
    | some (.store _ i) => s.shell.table.jobs[i]?.all fun j => decide (j.pid ≠ 0)
    | _ => true
  | _ => true

/-- The shell is about to read a command. -/
def Session.AtPrompt (s : Session) : Prop := s.shell.pc = .ready ∧ s.point = none

/-- **Foreground discipline**: free slots are clear, at most one slot has the state
`FG`, none when a command is read, and a foreground job is who gets the signals. -/
structure Disciplined (s : Session) : Prop where
  free : ∀ j ∈ s.shell.table.jobs, j.pid = 0 → j.jid = 0 ∧ j.state = .undef
  one : s.shell.table.jobs.countP (fun j => decide (j.state = .fg)) ≤ 1
  prompt : s.AtPrompt → ∀ j ∈ s.shell.table.jobs, j.state ≠ .fg
  fgpid : ∀ j ∈ s.shell.table.jobs, j.pid ≠ 0 → j.state = .fg →
    s.shell.table.fgpid = j.pid ∧ s.shell.table.sigintHandler = some (-j.pid, .sigkill) ∧
      s.shell.table.sigtstpHandler = some (-j.pid, .sigtstp)

/-! ## Slots -/

/-- Free slots are clear, and only the job with the pid `p` is in the foreground. -/
structure Clean (jobs : List Job) (p : ℤ) : Prop where
  free : ∀ j ∈ jobs, j.pid = 0 → j.jid = 0 ∧ j.state = .undef
  fg : ∀ j ∈ jobs, j.state = .fg → j.pid = p

variable {t : JobTable} {jobs jobs' : List Job} {p pid : ℤ} {i k : ℕ} {j x : Job}

namespace Clean

/-- If nobody is in the foreground, anybody may be next. -/
theorem of_zero (h : Clean jobs 0) (p : ℤ) : Clean jobs p := by
  refine ⟨h.free, fun j hj hfg => ?_⟩
  obtain ⟨-, hst⟩ := h.free j hj (h.fg j hj hfg)
  rw [hfg] at hst
  cases hst

theorem not_fg (h : Clean jobs 0) (hj : j ∈ jobs) : j.state ≠ .fg := by
  intro hfg
  obtain ⟨-, hst⟩ := h.free j hj (h.fg j hj hfg)
  rw [hfg] at hst
  cases hst

/-- One slot is overwritten. -/
theorem overwrite (h : Clean jobs p) (hmem : ∀ j ∈ jobs', j = x ∨ j ∈ jobs)
    (hfree : x.pid = 0 → x.jid = 0 ∧ x.state = .undef) (hfg : x.state = .fg → x.pid = p) :
    Clean jobs' p := by
  constructor
  · intro j hj hj0
    rcases hmem j hj with rfl | hj
    · exact hfree hj0
    · exact h.free j hj hj0
  · intro j hj hjfg
    rcases hmem j hj with rfl | hj
    · exact hfg hjfg
    · exact h.fg j hj hjfg

theorem set (h : Clean jobs p) (hfree : x.pid = 0 → x.jid = 0 ∧ x.state = .undef)
    (hfg : x.state = .fg → x.pid = p) : Clean (jobs.set k x) p :=
  h.overwrite (fun _ hj => (List.mem_or_eq_of_mem_set hj).symm) hfree hfg

end Clean

/-- A job in the foreground is the one that `fgpid` finds. -/
theorem Clean.fgpid_eq (h : Clean t.jobs p) (hj : j ∈ t.jobs) (hfg : j.state = .fg) :
    t.fgpid = p := by
  rw [JobTable.fgpid]
  cases hfind : t.jobs.find? fun j => decide (j.state = .fg) with
  | none =>
    have hnone := List.find?_eq_none.mp hfind j hj
    simp [hfg] at hnone
  | some k =>
    have hk : k.state = .fg := by simpa using List.find?_some hfind
    exact h.fg k (List.mem_of_find?_eq_some hfind) hk

/-- At most one slot has the state `FG`. -/
theorem Clean.countP_le_one (h : Clean t.jobs p) (hok : t.Ok) :
    t.jobs.countP (fun j => decide (j.state = .fg)) ≤ 1 := by
  rw [List.countP_eq_length_filter]
  have hpairs := hok.pairwise.sublist (List.filter_sublist (p := fun j => decide (j.state = .fg)))
  have hmem : ∀ j ∈ t.jobs.filter fun j => decide (j.state = .fg), j.pid = p ∧ j.pid ≠ 0 := by
    intro j hj
    obtain ⟨hj, hfg⟩ := List.mem_filter.mp hj
    refine ⟨h.fg j hj (of_decide_eq_true hfg), fun hj0 => ?_⟩
    obtain ⟨-, hst⟩ := h.free j hj hj0
    rw [of_decide_eq_true hfg] at hst
    cases hst
  generalize t.jobs.filter (fun j => decide (j.state = .fg)) = l at hpairs hmem
  match l, hpairs, hmem with
  | [], _, _ => exact Nat.zero_le _
  | [_], _, _ => exact le_refl _
  | x :: y :: l, hpairs, hmem =>
    obtain ⟨hx, hx0⟩ := hmem x List.mem_cons_self
    obtain ⟨hy, hy0⟩ := hmem y (List.mem_cons_of_mem x List.mem_cons_self)
    exact absurd (hx.trans hy.symm)
      (List.rel_of_pairwise_cons hpairs List.mem_cons_self hx0 hy0)

theorem modify_eq_set (f : Job → Job) (hj : jobs[i]? = some j) :
    jobs.modify i f = jobs.set i (f j) := by
  apply List.ext_getElem?
  intro l
  obtain ⟨hi, rfl⟩ := List.getElem?_eq_some_iff.mp hj
  rw [List.getElem?_modify, List.getElem?_set]
  split
  · rename_i hil
    subst hil
    simp [hi]
  · simp

/-- A pointer to the job of a child. -/
theorem slot_of_getjobpid (h : t.getjobpid pid = some k) :
    pid ≠ 0 ∧ ∃ j, t.jobs[k]? = some j ∧ j.pid = pid := by
  rw [JobTable.getjobpid] at h
  split at h
  · cases h
  · obtain ⟨hlt, hp, -⟩ := List.findIdx?_eq_some_iff_getElem.mp h
    exact ⟨by omega, _, List.getElem?_eq_getElem hlt, of_decide_eq_true hp⟩

theorem deletejob_slots (t : JobTable) (pid : ℤ) :
    (t.deletejob pid).2.jobs = t.jobs ∨
    ∃ k, t.getjobpid pid = some k ∧ (t.deletejob pid).2.jobs = t.jobs.set k clearjob := by
  rw [JobTable.deletejob, JobTable.getjobpid]
  split
  · exact .inl rfl
  cases hfind : t.jobs.findIdx? fun j => decide (j.pid = pid) with
  | none => exact .inl rfl
  | some k => exact .inr ⟨k, rfl, rfl⟩

/-- **The handler** overwrites at most one slot, that of the child it reaps or reports. -/
theorem sigchldHandler_slots (t : JobTable) (pid : ℤ) (status : Status) :
    (sigchldHandler t pid status).jobs = t.jobs ∨
    ∃ k j x, t.jobs[k]? = some j ∧ j.pid ≠ 0 ∧
      (sigchldHandler t pid status).jobs = t.jobs.set k x ∧
      (x = clearjob ∨ x = { j with state := .st }) := by
  rw [sigchldHandler.eq_def]
  split
  case isFalse => exact .inl rfl
  cases status with
  | running => exact .inl rfl
  | exited | signaled =>
    rcases deletejob_slots t pid with hsame | ⟨k, hget, hset⟩
    · exact .inl hsame
    · obtain ⟨h0, j, hj, rfl⟩ := slot_of_getjobpid hget
      exact .inr ⟨k, j, clearjob, hj, h0, hset, .inl rfl⟩
  | stopped r =>
    dsimp only
    cases hget : t.getjobpid pid with
    | none => exact .inl rfl
    | some k =>
      obtain ⟨h0, j, hj, rfl⟩ := slot_of_getjobpid hget
      exact .inr ⟨k, j, _, hj, h0, modify_eq_set _ hj, .inr rfl⟩

theorem slotPid_set (hj : jobs[k]? = some j) :
    slotPid (jobs.set k x) i = if i = k then x.pid else slotPid jobs i := by
  obtain ⟨hk, rfl⟩ := List.getElem?_eq_some_iff.mp hj
  rw [slotPid, slotPid]
  split
  · rename_i hik
    subst hik
    rw [List.getElem?_set_self hk]
    rfl
  · rename_i hik
    rw [List.getElem?_set_ne (Ne.symm hik)]

theorem slotPid_of_getElem (hj : jobs[k]? = some j) : slotPid jobs k = j.pid := by
  rw [slotPid, hj]
  rfl

/-- When the slot of the foreground job is cleared, nobody is in the foreground. -/
theorem Clean.clear (h : Clean t.jobs p) (hok : t.Ok) (hj : t.jobs[k]? = some j) (hp : j.pid = p)
    (hp0 : p ≠ 0) : Clean (t.jobs.set k clearjob) 0 := by
  have hset : Clean (t.jobs.set k clearjob) p := h.set (fun _ => ⟨rfl, rfl⟩) nofun
  refine ⟨hset.free, fun x hx hfg => absurd hfg ?_⟩
  obtain ⟨l, hl⟩ := List.mem_iff_getElem?.mp hx
  by_cases hlk : k = l
  · subst hlk
    obtain ⟨hk, -⟩ := List.getElem?_eq_some_iff.mp hj
    rw [List.getElem?_set_self hk] at hl
    cases hl
    exact nofun
  · intro hfg
    rw [List.getElem?_set_ne hlk] at hl
    have hxp : x.pid = p := h.fg x (List.mem_of_getElem? hl) hfg
    exact hlk (hok.slot_unique hj hl (hp.trans hxp.symm) (hp ▸ hp0))

/-- **The handler may run at any moment**, with a pid in hand or a pointer to a slot. -/
theorem Clean.handled (hok : t.Ok) {f : List Job → ℤ}
    (hf : (∃ p, ∀ jobs, f jobs = p) ∨ ∃ i, ∀ jobs, f jobs = slotPid jobs i)
    (h : Clean t.jobs (f t.jobs)) (pid : ℤ) (status : Status) :
    Clean (sigchldHandler t pid status).jobs (f (sigchldHandler t pid status).jobs) := by
  obtain hsame | ⟨k, j, x, hj, hj0, hset, hx⟩ := sigchldHandler_slots t pid status
  · rw [hsame]
    exact h
  have hfree : x.pid = 0 → x.jid = 0 ∧ x.state = .undef := by
    rcases hx with rfl | rfl
    · exact fun _ => ⟨rfl, rfl⟩
    · exact fun hx0 => absurd hx0 hj0
  have hfg : x.state ≠ .fg := by rcases hx with rfl | rfl <;> exact nofun
  have hclean : Clean (t.jobs.set k x) (f t.jobs) := h.set hfree fun h' => absurd h' hfg
  rw [hset]
  obtain ⟨p, hp⟩ | ⟨i, hi⟩ := hf
  · rw [hp] at hclean ⊢
    exact hclean
  · rw [hi] at h hclean
    rw [hi, slotPid_set hj]
    split
    · rename_i hik
      subst hik
      rcases hx with rfl | rfl
      · exact h.clear hok hj (slotPid_of_getElem hj).symm (slotPid_of_getElem hj ▸ hj0)
      · rw [slotPid_of_getElem hj] at hclean
        exact hclean
    · exact hclean

/-! ## The invariant -/

/-- The pid that may be in the foreground, if any: that of the job which is waited for
or about to be. -/
def foreground (pc : Pc) (point : Option BgfgPc) (jobs : List Job) : ℤ :=
  match point with
  | some (.kill true i) | some (.wait i) => slotPid jobs i
  | some _ => 0
  | none =>
    match pc with
    | .unblock false p | .wait p => p
    | _ => 0

/-- Before the handler runs, the pid is in hand or behind a pointer. -/
theorem foreground_cases (pc : Pc) (point : Option BgfgPc) :
    (∃ p, ∀ jobs, foreground pc point jobs = p) ∨
      ∃ i, ∀ jobs, foreground pc point jobs = slotPid jobs i := by
  cases point with
  | none => exact .inl ⟨_, fun _ => rfl⟩
  | some b =>
    cases b with
    | kill fg i =>
      cases fg with
      | false => exact .inl ⟨0, fun _ => rfl⟩
      | true => exact .inr ⟨i, fun _ => rfl⟩
    | wait i => exact .inr ⟨i, fun _ => rfl⟩
    | look | again | test | store => exact .inl ⟨0, fun _ => rfl⟩

theorem Tracks.setState {S : State} (h : Tracks S) (i : ℕ) (state : JobState) :
    Tracks { S with table := S.table.setState i state } := by
  refine ⟨h.ok.setState i state, fun p => ?_, h.nodup, h.pos, h.pc⟩
  rw [JobTable.pids_setState]
  exact h.pids p

/-- **What a statement of `do_bgfg` does** to the shell: nothing that concerns who is in
the foreground, a store to the state of a job, a stopped child goes on, or `waitfg` is
called. -/
theorem bgfg_cases {S : State} {pt : BgfgPc} {s' : Session} (e : S.bgfg pt = some s') :
    (∃ b, s' = ⟨S, b⟩ ∧ ∀ jobs, foreground .ready b jobs = foreground .ready (some pt) jobs) ∨
    (∃ fg i, pt = .store fg i ∧ s' = ⟨{ S with
      table := S.table.setState i (if fg then .fg else .bg) }, some (.kill fg i)⟩) ∨
    (∃ fg i S' guard, pt = .kill fg i ∧
      S.childEvent (slotPid S.table.jobs i) guard .running = some S' ∧
      s' = ⟨S', if fg then some (.wait i) else none⟩) ∨
    ∃ i, pt = .wait i ∧ s' = ⟨{ S with pc := .wait (slotPid S.table.jobs i) }, none⟩ := by
  cases pt with
  | look fg arg =>
    cases arg with
    | bad =>
      cases e
      exact .inl ⟨none, rfl, fun _ => rfl⟩
    | jid n | pid n =>
      rw [State.bgfg] at e
      split at e
      · cases e
        exact .inl ⟨none, rfl, fun _ => rfl⟩
      · cases e
        exact .inl ⟨some (.again fg _), rfl, fun _ => rfl⟩
  | again fg n =>
    rw [State.bgfg] at e
    split at e
    · cases e
    · cases e
      exact .inl ⟨some (.test fg _), rfl, fun _ => rfl⟩
  | test fg i =>
    rw [State.bgfg] at e
    split at e
    · cases e
    · obtain ⟨-, e⟩ | ⟨-, e⟩ := ite_eq_iff.mp e
      · cases e
        exact .inl ⟨none, rfl, fun _ => rfl⟩
      · cases e
        exact .inl ⟨some (.store fg i), rfl, fun _ => rfl⟩
  | store fg i =>
    cases e
    exact .inr (.inl ⟨fg, i, rfl, rfl⟩)
  | kill fg i =>
    cases e
    cases hcont : S.childEvent (slotPid S.table.jobs i)
        (fun st => decide (st = .stopped true ∨ st = .stopped false)) .running with
    | none => exact .inl ⟨_, rfl, fun _ => by cases fg <;> rfl⟩
    | some S' => exact .inr (.inr (.inl ⟨fg, i, S', _, rfl, hcont, rfl⟩))
  | wait i =>
    cases e
    exact .inr (.inr (.inr ⟨i, rfl, rfl⟩))

theorem Tracks.bgfg {S : State} {pt : BgfgPc} {s' : Session} (h : Tracks S)
    (e : S.bgfg pt = some s') : Tracks s'.shell := by
  rcases bgfg_cases e with ⟨b, rfl, -⟩ | ⟨fg, i, -, rfl⟩ | ⟨fg, i, S', guard, -, hcont, rfl⟩ |
    ⟨i, -, rfl⟩
  · exact h
  · exact h.setState i _
  · exact h.childEvent Status.noConfusion hcont
  · exact ⟨h.ok, h.pids, h.nodup, h.pos, trivial⟩

/-- `eval` does not run while `do_bgfg` does, and after it only to wait. -/
theorem bgfg_idle {S : State} {pt : BgfgPc} {s' : Session} (hready : S.pc = .ready)
    (e : S.bgfg pt = some s') :
    s'.shell.pc = .ready ∨ s'.point = none ∧ ∃ pid, s'.shell.pc = .wait pid := by
  rcases bgfg_cases e with ⟨b, rfl, -⟩ | ⟨fg, i, -, rfl⟩ | ⟨fg, i, S', guard, -, hcont, rfl⟩ |
    ⟨i, -, rfl⟩
  · exact .inl hready
  · exact .inl hready
  · obtain ⟨-, hcont⟩ := Option.ite_none_right_eq_some.mp hcont
    cases hcont
    exact .inl hready
  · exact .inr ⟨rfl, _, rfl⟩

/-- What a step of a session does: a step of the shell, which is not one of `eval` while
`do_bgfg` runs, a call of `do_bgfg`, or a statement of it. -/
theorem Session.next_cases {s s' : Session} {a : Step} (e : s.next a = some s') :
    (∃ act S', a = .shell act ∧ s.shell.next act = some S' ∧ s' = ⟨S', s.point⟩ ∧
      (s.point = none ∨ S'.pc = s.shell.pc)) ∨
    (∃ fg arg, a = .bgfg fg arg ∧ s.shell.pc = .ready ∧ s'.shell = s.shell) ∨
    ∃ pt, a = .statement ∧ s.point = some pt ∧ s.shell.bgfg pt = some s' := by
  cases a with
  | shell act =>
    left
    cases act with
    | command bg cmdline | main forked =>
      obtain ⟨hpoint, e⟩ := Option.ite_none_right_eq_some.mp e
      obtain ⟨S', hS', rfl⟩ := Option.map_eq_some_iff.mp e
      exact ⟨_, S', rfl, hS', by rw [hpoint], .inl hpoint⟩
    | stop pid | cont pid | exit pid | kill pid =>
      obtain ⟨S', hS', rfl⟩ := Option.map_eq_some_iff.mp e
      refine ⟨_, S', rfl, hS', rfl, .inr ?_⟩
      obtain ⟨-, hS'⟩ := Option.ite_none_right_eq_some.mp hS'
      cases hS'
      rfl
    | handler r =>
      obtain ⟨S', hS', rfl⟩ := Option.map_eq_some_iff.mp e
      refine ⟨_, S', rfl, hS', rfl, .inr ?_⟩
      obtain ⟨-, hS'⟩ := Option.ite_none_right_eq_some.mp hS'
      exact handle_pc hS'
  | bgfg fg arg =>
    obtain ⟨⟨hpc, -⟩, e⟩ := Option.ite_none_right_eq_some.mp e
    cases e
    exact .inr (.inl ⟨fg, arg, rfl, hpc, rfl⟩)
  | statement =>
    obtain ⟨pt, hpoint, e⟩ := Option.bind_eq_some_iff.mp e
    exact .inr (.inr ⟨pt, rfl, hpoint, e⟩)

/-- What holds between two statements. -/
structure Fronted (s : Session) : Prop where
  tracks : Tracks s.shell
  idle : s.point ≠ none → s.shell.pc = .ready
  clean : Clean s.shell.table.jobs (foreground s.shell.pc s.point s.shell.table.jobs)

namespace Fronted

variable {s s' : Session} {S S' : State} {b : Option BgfgPc} {pt : BgfgPc}

theorem init : Fronted ⟨Shell.init, none⟩ where
  tracks := .init
  idle := fun h => absurd rfl h
  clean := ⟨by decide, by decide⟩

/-- **The invariant says what is asked for.** -/
theorem disciplined (h : Fronted s) : Disciplined s := by
  refine ⟨h.clean.free, h.clean.countP_le_one h.tracks.ok, ?_, fun j hj hj0 hfg => ?_⟩
  · rintro ⟨hpc, hpoint⟩ j hj
    have hclean := h.clean
    rw [hpc, hpoint] at hclean
    exact hclean.not_fg hj
  · have hp : s.shell.table.fgpid = j.pid :=
      (h.clean.fgpid_eq hj hfg).trans (h.clean.fg j hj hfg).symm
    have hsend : ∀ sig, s.shell.table.forward sig = some (-j.pid, sig) := by
      intro sig
      rw [JobTable.forward, hp, if_pos hj0]
    exact ⟨hp, hsend _, hsend _⟩

/-- A child changes its status. -/
theorem childEvent (h : Fronted ⟨S, b⟩) {pid : ℤ} {guard : Status → Bool} {status : Status}
    (hne : status ≠ .stopped true) (e : S.childEvent pid guard status = some S') :
    Fronted ⟨S', b⟩ := by
  have htracks := h.tracks.childEvent hne e
  obtain ⟨-, e⟩ := Option.ite_none_right_eq_some.mp e
  cases e
  exact ⟨htracks, h.idle, h.clean⟩

theorem handle (h : Fronted ⟨S, b⟩) (hb : S.blocked = false) {r : Option ℤ}
    (e : S.handle r = some S') : Fronted ⟨S', b⟩ := by
  have htracks := h.tracks.handle hb e
  cases r with
  | none =>
    obtain ⟨-, rfl⟩ := handle_none e
    exact ⟨htracks, h.idle, h.clean⟩
  | some pid =>
    obtain ⟨c, -, -, ⟨-, rfl⟩ | ⟨-, rfl⟩⟩ := handle_some e
    · exact ⟨htracks, h.idle, h.clean.handled h.tracks.ok (foreground_cases S.pc b) pid _⟩
    · exact ⟨htracks, h.idle, h.clean.handled h.tracks.ok (foreground_cases S.pc b) pid _⟩

/-- `waitfg` returns when its job is not in the foreground, and then no job is. -/
theorem waited (h : Tracks S) (hclean : Clean S.table.jobs p)
    (hdone : ∀ i, S.table.getjobpid p = some i → (S.table.jobs[i]?.map Job.state) ≠ some .fg) :
    Clean S.table.jobs 0 := by
  refine ⟨hclean.free, fun j hj hfg => ?_⟩
  by_contra hj0
  have hjp : j.pid = p := hclean.fg j hj hfg
  have hmem : p ∈ S.table.pids := JobTable.mem_pids.mpr ⟨hjp ▸ hj0, j, hj, hjp⟩
  obtain ⟨c, hc, hcp, -⟩ := mem_registered.mp ((h.pids p).mp hmem)
  obtain ⟨i, hi⟩ := JobTable.getjobpid_isSome (hcp ▸ h.pos c hc) hmem
  obtain ⟨-, k, hk, hkp⟩ := slot_of_getjobpid hi
  obtain ⟨l, hl⟩ := List.mem_iff_getElem?.mp hj
  obtain rfl := h.ok.slot_unique hl hk (hjp.trans hkp.symm) hj0
  apply hdone l hi
  rw [hl, Option.map_some, hfg]

/-- `addjob` registers the child as the next job in the foreground, or in the background. -/
theorem added (h : Tracks S) {bg : Bool} {cmdline : List UInt8} (hpc : S.pc = .add bg cmdline pid)
    (hclean : Clean S.table.jobs 0) :
    Clean (S.table.addjob pid (if bg then .bg else .fg) cmdline).2.jobs
      (if bg then 0 else pid) := by
  have hpos : 1 ≤ pid := by
    have hpcok := h.pc
    rw [PcOk, hpc] at hpcok
    obtain ⟨-, c, hc, rfl, -⟩ := hpcok
    exact h.pos c hc
  have hstart : Clean S.table.jobs (if bg then 0 else pid) := hclean.of_zero _
  obtain ⟨hadd, -⟩ | ⟨l, j, r, he, -, hadd⟩ :=
    S.table.addjob_cases hpos (if bg then .bg else .fg) cmdline
  · rw [hadd]
    exact hstart
  · rw [hadd]
    refine (he ▸ hstart).overwrite (fun k hk => JobTable.mem_of_overwrite j hk) (fun h0 => ?_)
      fun hfg => ?_
    · dsimp only at h0
      omega
    · cases bg with
      | false => rfl
      | true => cases hfg

/-- A statement of `eval`. -/
theorem main (h : Fronted ⟨S, none⟩) {forked : ℤ} (e : S.main forked = some S') :
    Fronted ⟨S', none⟩ := by
  have htracks := h.tracks.main e
  have hclean := h.clean
  dsimp only at hclean
  suffices Clean S'.table.jobs (foreground S'.pc none S'.table.jobs) from
    ⟨htracks, fun hn => absurd rfl hn, this⟩
  rw [State.main] at e
  cases hpc : S.pc with
  | ready =>
    rw [hpc] at e
    cases e
  | block bg cmdline =>
    rw [hpc] at e hclean
    cases e
    exact hclean
  | fork bg cmdline =>
    rw [hpc] at e hclean
    dsimp only at e
    split at e
    · cases e
      exact hclean
    split at e
    · cases e
    · cases e
      exact hclean
  | add bg cmdline pid =>
    rw [hpc] at e hclean
    cases e
    have hadded := added h.tracks hpc hclean
    cases bg <;> exact hadded
  | unblock bg pid =>
    rw [hpc] at e hclean
    cases e
    cases bg <;> exact hclean
  | wait pid =>
    rw [hpc] at e hclean
    have hreturn := waited (p := pid) h.tracks hclean
    dsimp only at e hreturn
    split at e
    · rename_i hget
      cases e
      exact hreturn fun i hi => by rw [hget] at hi; cases hi
    · rename_i i hget
      split at e
      · cases e
        rw [hpc]
        exact hclean
      · rename_i hstate
        cases e
        refine hreturn fun k hk => ?_
        rw [hget] at hk
        cases hk
        exact hstate
  | report pid =>
    rw [hpc] at e hclean
    dsimp only at e
    split at e
    · cases e
    · cases e
      exact hclean

/-- A state is stored through the pointer to a job. -/
theorem stored (h : Clean t.jobs 0) (fg : Bool) (hj : ∀ j, t.jobs[i]? = some j → j.pid ≠ 0) :
    Clean (t.setState i (if fg then .fg else .bg)).jobs
      (if fg then slotPid (t.setState i (if fg then .fg else .bg)).jobs i else 0) := by
  cases hi : t.jobs[i]? with
  | none =>
    have hsame : (t.setState i (if fg then .fg else .bg)).jobs = t.jobs :=
      List.modify_eq_self (List.getElem?_eq_none_iff.mp hi)
    rw [hsame]
    exact h.of_zero _
  | some j =>
    have hset : (t.setState i (if fg then .fg else .bg)).jobs =
        t.jobs.set i { j with state := if fg then .fg else .bg } := modify_eq_set _ hi
    rw [hset, slotPid_set hi, if_pos rfl]
    refine (h.of_zero _).set (fun h0 => absurd h0 (hj j hi)) fun hfg => ?_
    cases fg with
    | false => cases hfg
    | true => rfl

/-- **A statement of `do_bgfg`**, if it does not store into a free slot. -/
theorem bgfg (h : Fronted ⟨S, some pt⟩) (hocc : occupied ⟨S, some pt⟩ .statement = true)
    (e : S.bgfg pt = some s') : Fronted s' := by
  have hready : S.pc = .ready := h.idle nofun
  have hclean := h.clean
  dsimp only at hclean
  rw [hready] at hclean
  -- a statement that changes nothing but where `do_bgfg` is
  have hmove : ∀ b, foreground .ready b S.table.jobs = foreground .ready (some pt) S.table.jobs →
      Fronted ⟨S, b⟩ := by
    intro b hb
    refine ⟨h.tracks, fun _ => hready, ?_⟩
    dsimp only
    rw [hready, hb]
    exact hclean
  have htracks := h.tracks.bgfg e
  rcases bgfg_cases e with ⟨b, rfl, hb⟩ | ⟨fg, i, rfl, rfl⟩ |
    ⟨fg, i, S', guard, rfl, hcont, rfl⟩ | ⟨i, rfl, rfl⟩
  · exact hmove b (hb _)
  · refine ⟨htracks, fun _ => hready, ?_⟩
    have hstored := stored hclean fg fun j hj =>
      of_decide_eq_true ((Option.all_eq_true ..).mp hocc j hj)
    cases fg <;> exact hstored
  · have hkept : Fronted ⟨S, if fg then some (.wait i) else none⟩ := by
      cases fg <;> exact hmove _ rfl
    exact hkept.childEvent Status.noConfusion hcont
  · exact ⟨htracks, fun hn => absurd rfl hn, hclean⟩

/-- **One step keeps the invariant.** -/
theorem next (h : Fronted s) {a : Step} (hocc : occupied s a = true) (e : s.next a = some s') :
    Fronted s' := by
  obtain ⟨S, b⟩ := s
  cases a with
  | shell a =>
    cases a with
    | command bg cmdline =>
      obtain ⟨hb, e⟩ := Option.ite_none_right_eq_some.mp e
      obtain ⟨S', hS', rfl⟩ := Option.map_eq_some_iff.mp e
      have htracks := h.tracks.next hS'
      obtain ⟨hpc, hS'⟩ := Option.ite_none_right_eq_some.mp hS'
      cases hS'
      have hclean := h.clean
      dsimp only at hb hclean
      rw [hpc, hb] at hclean
      exact ⟨htracks, fun hn => absurd rfl hn, hclean⟩
    | main forked =>
      obtain ⟨hb, e⟩ := Option.ite_none_right_eq_some.mp e
      obtain ⟨S', hS', rfl⟩ := Option.map_eq_some_iff.mp e
      dsimp only at hb
      subst hb
      exact h.main hS'
    | stop pid | cont pid | exit pid | kill pid =>
      obtain ⟨S', hS', rfl⟩ := Option.map_eq_some_iff.mp e
      rw [State.next] at hS'
      exact h.childEvent (by simp) hS'
    | handler r =>
      obtain ⟨S', hS', rfl⟩ := Option.map_eq_some_iff.mp e
      obtain ⟨hrun, hS'⟩ := Option.ite_none_right_eq_some.mp hS'
      exact h.handle hrun.2 hS'
  | bgfg fg arg =>
    obtain ⟨⟨hpc, hb⟩, e⟩ := Option.ite_none_right_eq_some.mp e
    cases e
    have hclean := h.clean
    dsimp only at hb hclean hpc
    rw [hpc, hb] at hclean
    refine ⟨h.tracks, fun _ => hpc, ?_⟩
    exact hclean
  | statement =>
    obtain ⟨pt, hb, e⟩ := Option.bind_eq_some_iff.mp e
    dsimp only at hb
    subst hb
    exact h.bgfg hocc e

end Fronted

/-! ## Runs -/

theorem session_inductive :
    session.Inductive (fun s a => occupied s a = true) Fronted where
  init := by
    rintro _ rfl
    exact .init
  step := fun h hocc e => h.next hocc e

/-- A state stored into a free slot stays there. -/
theorem Disciplined.occupied {s s' : Session} {a : Step} (h : Disciplined s')
    (e : s.next a = some s') : occupied s a = true := by
  cases a with
  | shell | bgfg => rfl
  | statement =>
    obtain ⟨pt, hpoint, e⟩ := Option.bind_eq_some_iff.mp e
    rw [Shell.occupied, hpoint]
    cases pt with
    | look | again | test | kill | wait => rfl
    | store fg i =>
      cases e
      refine (Option.all_eq_true ..).mpr fun j hj => decide_eq_true fun hj0 => ?_
      have hslot : { j with state := if fg then JobState.fg else .bg } ∈
          (s.shell.table.setState i (if fg then .fg else .bg)).jobs := by
        apply List.mem_of_getElem? (i := i)
        rw [JobTable.setState, List.getElem?_modify_eq, hj]
        rfl
      obtain ⟨-, hstate⟩ := h.free _ hslot hj0
      cases fg <;> cases hstate

/-- **Foreground discipline** holds in every state of the runs in which no state is
stored into a free slot, and the first such store breaks it. -/
theorem foreground_discipline {s : Session}
    (hs : session.ReachWhen (fun s a => occupied s a = true) s) :
    Disciplined s ∧ ∀ a s', session.step s a s' → (Disciplined s' ↔ occupied s a = true) := by
  have h := session_inductive.holds hs
  refine ⟨h.disciplined, fun a s' e => ⟨fun hd => hd.occupied e, fun ho => ?_⟩⟩
  exact (h.next ho e).disciplined

/-- The state after the steps `as`, all of which meet `P`. -/
def runSession (P : Session → Step → Bool) (as : List Step) : Option Session :=
  Machine.exec (fun s a => if P s a = true then s.next a else none) ⟨Shell.init, none⟩ as

theorem runSession_reach {P : Session → Step → Bool} {as : List Step} {s : Session}
    (h : runSession P as = some s) : session.ReachWhen (fun s a => P s a = true) s :=
  Machine.ReachWhen.exec (fun _ _ _ hnext => Option.ite_none_right_eq_some.mp hnext) (.init rfl) h

/-- A job is started in the foreground and stops. -/
def stoppedJob : List Step :=
  [.shell (.command false [97]), .shell (.main 0), .shell (.main 100), .shell (.main 0),
    .shell (.main 0), .shell (.stop 100), .shell (.handler (some 100)), .shell (.main 0)]

/-- It is brought back by `fg %1`. -/
theorem foreground_discipline_run : ∃ s : Session, s.shell.pc = .wait 100 ∧
    s.shell.table.fgpid = 100 ∧ Disciplined s := by
  have hrun : ((runSession occupied (stoppedJob ++ [.bgfg true (.jid 1), .statement, .statement,
      .statement, .statement, .statement, .statement])).any fun s =>
        s.shell.pc = .wait 100 ∧ s.shell.table.fgpid = 100) = true := by
    decide +kernel
  obtain ⟨s, e, hs⟩ := (Option.any_eq_true ..).mp hrun
  simp only [decide_eq_true_eq] at hs
  exact ⟨s, hs.1, hs.2, (foreground_discipline (runSession_reach e)).1⟩

/-- The job is killed and reaped between the test and the store of `fg %1`. When job 2 is
brought to the foreground later, two slots have the state `FG`, and `fgpid` returns 0. -/
theorem foreground_phantom : ¬∀ s : Session, session.Reach s → Disciplined s := by
  intro h
  have hrun : ((runSession (fun _ _ => true) (stoppedJob ++
      [.shell (.command true [98]), .shell (.main 0), .shell (.main 101), .shell (.main 0),
        .shell (.main 0), .shell (.main 0), .bgfg true (.jid 1), .statement, .statement,
        .statement, .shell (.kill 100), .shell (.handler (some 100)), .statement, .statement,
        .statement, .shell (.main 0), .bgfg true (.jid 2), .statement, .statement, .statement,
        .statement])).any fun s =>
          s.shell.table.jobs.countP (fun j => decide (j.state = .fg)) = 2 ∧
            s.shell.table.fgpid = 0 ∧ (⟨101, 2, .fg, [98]⟩ : Job) ∈ s.shell.table.jobs) = true := by
    decide +kernel
  obtain ⟨s, e, hs⟩ := (Option.any_eq_true ..).mp hrun
  simp only [decide_eq_true_eq] at hs
  obtain ⟨-, hzero, hmem⟩ := hs
  obtain ⟨hpid, -⟩ := (h s (runSession_reach e).reach).fgpid _ hmem (by decide) rfl
  rw [hzero] at hpid
  cases hpid

end Shell

end SysProgLab
