import SysProgLab.Decimal
import SysProgLab.JobIds
import SysProgLab.ShellForeground

/-!
# `bg` and `fg`

`do_bgfg` from its arguments, when nothing else touches the table. The argument is looked
up by what it is, a pid or a job id, and the job is then looked up again by `jid`, which
is 0 if the argument is a pid.
-/

namespace SysProgLab

/-- What a call of `do_bgfg` comes to. -/
structure BgfgResult : Type where
  /-- `jobs` and `nextjid` -/
  table : JobTable
  /-- what is printed -/
  printed : CStr
  /-- the first argument of `kill(-(stopped->pid),SIGCONT)`, if it is called -/
  continued : Option ℤ
  /-- the argument of `waitfg(stopped->pid)`, if it is called -/
  waited : Option ℤ
  deriving DecidableEq

namespace JobTable

/-- The tests and the first look-up of `do_bgfg`: a message, or the value of `jid`. -/
def bgfgLookup (t : JobTable) (argv0 : CStr) : Option CStr → Except CStr ℤ
  | none => .error (argv0 ++ ascii " command requires PID or %jobid argument\n")
  | some arg =>
    if isDigit (arg.headD 0) = false ∧ ¬(arg.headD 0 = 37 ∧ atoi arg.tail ≠ 0) then
      .error (argv0 ++ ascii ": argument must be a PID or %jobid\n")
    else if arg.headD 0 = 37 then
      if t.getjobjid (atoi arg.tail) = none then .error (arg ++ ascii ": No such job\n")
      else .ok (atoi arg.tail)
    else
      if t.getjobpid (atoi arg) = none then
        .error (ascii "(" ++ decimalInt (atoi arg) ++ ascii "): No such process\n")
      else .ok 0

/-- `do_bgfg`; `none` is a job that is followed through `NULL`. -/
def doBgfg (t : JobTable) (argv0 : CStr) (arg : Option CStr) : Option BgfgResult :=
  match t.bgfgLookup argv0 arg with
  | .error msg => some ⟨t, msg, none, none⟩
  | .ok jid => do
    let i ← t.getjobjid jid
    let stopped ← t.jobs[i]?
    if argv0 = ascii "bg" then
      if stopped.state ≠ .st then some ⟨t, [], none, none⟩
      else some ⟨t.setState i .bg, ascii "[" ++ decimalInt stopped.jid ++ ascii "] (" ++
        decimalInt stopped.pid ++ ascii ") " ++ stopped.cmdline, some (-stopped.pid), none⟩
    else if stopped.state = .fg then some ⟨t, [], none, none⟩
    else some ⟨t.setState i .fg, [], some (-stopped.pid), some stopped.pid⟩

end JobTable

/-! ## What is asked for -/

/-- The argument is `%` and the id of the job in decimal. -/
def NamesJid (arg : Option CStr) (j : Job) : Prop := arg = some (37 :: decimalInt j.jid)

/-- The argument is the pid of the job in decimal. -/
def NamesPid (arg : Option CStr) (j : Job) : Prop := arg = some (decimalInt j.pid)

/-- `fg` resumes every job that is not in the foreground, `bg` every job that is stopped. -/
def Job.Resumable (fg : Bool) (j : Job) : Prop := if fg then j.state ≠ .fg else j.state = .st

namespace JobTable

/-- **The job `j` in slot `i` is resumed** by `fg` or by `bg`, or left alone if there is
nothing to resume. -/
structure Resumed (t : JobTable) (fg : Bool) (i : ℕ) (j : Job) (r : BgfgResult) : Prop where
  moved : j.Resumable fg →
    r.table = t.setState i (if fg then .fg else .bg) ∧ r.continued = some (-j.pid) ∧
      r.waited = if fg then some j.pid else none
  left : ¬j.Resumable fg → r.table = t ∧ r.continued = none ∧ r.waited = none
  others : ∀ k, k ≠ i → r.table.jobs[k]? = t.jobs[k]?

/-- **`bg` and `fg` act on the job that the argument names**, and do nothing to the table
if it names none. -/
structure ActsOnNamed (t : JobTable) (argv0 : CStr) (arg : Option CStr) : Prop where
  named : ∀ i j, t.jobs[i]? = some j → j.pid ≠ 0 → NamesPid arg j ∨ NamesJid arg j →
    ∃ r, t.doBgfg argv0 arg = some r ∧ t.Resumed (decide (argv0 ≠ ascii "bg")) i j r
  unnamed : (∀ j ∈ t.jobs, j.pid ≠ 0 → ¬NamesPid arg j ∧ ¬NamesJid arg j) →
    ∃ r, t.doBgfg argv0 arg = some r ∧ r.table = t ∧ r.continued = none ∧ r.waited = none

end JobTable

/-! ## What is read -/

/-- The argument is `%` and a text that `atoi` reads as the id of the job. -/
def ReadsJid (arg : Option CStr) (j : Job) : Prop := ∃ s, arg = some (37 :: s) ∧ atoi s = j.jid

/-- The argument begins with a digit and `atoi` reads it as the pid of the job. -/
def ReadsPid (arg : Option CStr) (j : Job) : Prop :=
  ∃ b s, arg = some (b :: s) ∧ isDigit b = true ∧ atoi (b :: s) = j.pid

theorem NamesJid.reads {arg : Option CStr} {j : Job} (h : NamesJid arg j) (hpos : 0 ≤ j.jid)
    (hlt : j.jid < 2 ^ 31) : ReadsJid arg j := ⟨_, h, atoi_decimalInt hpos hlt⟩

theorem NamesPid.reads {arg : Option CStr} {j : Job} (h : NamesPid arg j) (hpos : 0 ≤ j.pid)
    (hlt : j.pid < 2 ^ 31) : ReadsPid arg j := by
  obtain ⟨b, s, hcons, hb⟩ := decimal_eq_cons j.pid.natAbs
  have hdec : decimalInt j.pid = b :: s := by
    rw [decimalInt, if_neg (Int.not_lt.mpr hpos), hcons]
  refine ⟨b, s, h.trans (congrArg some hdec), hb, ?_⟩
  rw [← hdec, atoi_decimalInt hpos hlt]

/-! ## The argument -/

/-- What the argument is. -/
def parseArg : Option CStr → Shell.Arg
  | none => .bad
  | some arg =>
    if isDigit (arg.headD 0) = false ∧ ¬(arg.headD 0 = 37 ∧ atoi arg.tail ≠ 0) then .bad
    else if arg.headD 0 = 37 then .jid (atoi arg.tail)
    else .pid (atoi arg)

variable {t : JobTable} {argv0 : CStr} {arg : Option CStr} {i k : ℕ} {j x y : Job} {n : ℤ}

theorem parseArg_jid (hn : n ≠ 0) :
    parseArg arg = .jid n ↔ ∃ s, arg = some (37 :: s) ∧ atoi s = n := by
  constructor
  · intro h
    match arg, h with
    | some [], h => cases h
    | some (b :: s), h =>
      rw [parseArg] at h
      split at h
      · cases h
      split at h
      · next hb =>
        obtain rfl : b = 37 := hb
        exact ⟨s, rfl, Shell.Arg.jid.inj h⟩
      · cases h
  · rintro ⟨s, rfl, rfl⟩
    rw [parseArg, if_neg fun h => h.2 ⟨rfl, hn⟩, if_pos (by rfl)]
    rfl

theorem parseArg_pid : parseArg arg = .pid n ↔
    ∃ b s, arg = some (b :: s) ∧ isDigit b = true ∧ atoi (b :: s) = n := by
  constructor
  · intro h
    match arg, h with
    | some [], h => cases h
    | some (b :: s), h =>
      rw [parseArg] at h
      split at h
      · cases h
      split at h
      · cases h
      · next hform hb =>
        refine ⟨b, s, rfl, ?_, Shell.Arg.pid.inj h⟩
        by_contra hdigit
        exact hform ⟨Bool.eq_false_of_not_eq_true hdigit, fun h => hb h.1⟩
  · rintro ⟨b, s, rfl, hb, rfl⟩
    have hb37 : b ≠ 37 := by
      rintro rfl
      cases hb
    have hhead : (b :: s).headD 0 ≠ 37 := hb37
    rw [parseArg, if_neg fun h => absurd (h.1.symm.trans hb) Bool.false_ne_true, if_neg hhead]

namespace JobTable

/-- The first look-up depends on what the argument is. -/
theorem bgfgLookup_eq (t : JobTable) (argv0 : CStr) (arg : Option CStr) :
    ∃ msg, t.bgfgLookup argv0 arg =
      match parseArg arg with
      | .bad => .error msg
      | .jid n => if t.getjobjid n = none then .error msg else .ok n
      | .pid n => if t.getjobpid n = none then .error msg else .ok 0 := by
  cases arg with
  | none => exact ⟨_, rfl⟩
  | some arg =>
    rw [bgfgLookup, parseArg]
    split
    · exact ⟨_, rfl⟩
    split
    · exact ⟨_, rfl⟩
    · exact ⟨_, rfl⟩

/-! ## The call -/

theorem getElem?_setState_ne (t : JobTable) (state : JobState) (hk : k ≠ i) :
    (t.setState i state).jobs[k]? = t.jobs[k]? := by
  simp [setState, hk.symm]

/-- The first look-up: the slot that the argument leads to. -/
def find (t : JobTable) : Shell.Arg → Option ℕ
  | .bad => none
  | .jid n => t.getjobjid n
  | .pid n => t.getjobpid n

/-- **After the argument `%jid`** the second look-up finds the job again. -/
theorem doBgfg_jid (h : t.bgfgLookup argv0 arg = .ok n) (hget : t.getjobjid n = some i)
    (hj : t.jobs[i]? = some j) :
    ∃ r, t.doBgfg argv0 arg = some r ∧ t.Resumed (decide (argv0 ≠ ascii "bg")) i j r := by
  rw [doBgfg, h]
  dsimp only
  rw [hget, Option.bind_eq_bind, Option.bind_some, hj, Option.bind_eq_bind, Option.bind_some]
  by_cases hbg : argv0 = ascii "bg"
  · rw [if_pos hbg, decide_eq_false fun hne => hne hbg]
    by_cases hst : j.state = .st
    · rw [if_neg fun hne => hne hst]
      exact ⟨_, rfl, fun _ => ⟨rfl, rfl, rfl⟩, fun hne => absurd hst hne,
        fun k hk => t.getElem?_setState_ne .bg hk⟩
    · rw [if_pos hst]
      exact ⟨_, rfl, fun heq => absurd heq hst, fun _ => ⟨rfl, rfl, rfl⟩, fun _ _ => rfl⟩
  · rw [if_neg hbg, decide_eq_true hbg]
    by_cases hfg : j.state = .fg
    · rw [if_pos hfg]
      exact ⟨_, rfl, fun hne => absurd hfg hne, fun _ => ⟨rfl, rfl, rfl⟩, fun _ _ => rfl⟩
    · rw [if_neg hfg]
      exact ⟨_, rfl, fun _ => ⟨rfl, rfl, rfl⟩, fun heq => absurd hfg heq,
        fun k hk => t.getElem?_setState_ne .fg hk⟩

/-- **What a call comes to**: a message, or the job is resumed, or `NULL` is followed
because the second look-up of a pid finds nothing. -/
theorem doBgfg_cases (t : JobTable) (argv0 : CStr) (arg : Option CStr) :
    (t.find (parseArg arg) = none ∧ ∃ msg, t.doBgfg argv0 arg = some ⟨t, msg, none, none⟩) ∨
    (∃ n i j, parseArg arg = .jid n ∧ t.getjobjid n = some i ∧ t.jobs[i]? = some j ∧
      ∃ r, t.doBgfg argv0 arg = some r ∧ t.Resumed (decide (argv0 ≠ ascii "bg")) i j r) ∨
    ∃ n i, parseArg arg = .pid n ∧ t.getjobpid n = some i ∧ t.doBgfg argv0 arg = none := by
  obtain ⟨msg, hlookup⟩ := t.bgfgLookup_eq argv0 arg
  have hmessage : t.bgfgLookup argv0 arg = .error msg →
      ∃ msg, t.doBgfg argv0 arg = some ⟨t, msg, none, none⟩ := by
    intro herr
    exact ⟨msg, by rw [doBgfg, herr]⟩
  cases harg : parseArg arg with
  | bad =>
    rw [harg] at hlookup
    exact .inl ⟨rfl, hmessage hlookup⟩
  | jid n =>
    rw [harg] at hlookup
    dsimp only at hlookup
    cases hget : t.getjobjid n with
    | none =>
      rw [if_pos hget] at hlookup
      exact .inl ⟨hget, hmessage hlookup⟩
    | some i =>
      rw [if_neg (by rw [hget]; nofun)] at hlookup
      obtain ⟨j, hj⟩ := slot_of_getjobjid hget
      exact .inr (.inl ⟨n, i, j, rfl, hget, hj, doBgfg_jid hlookup hget hj⟩)
  | pid n =>
    rw [harg] at hlookup
    dsimp only at hlookup
    cases hget : t.getjobpid n with
    | none =>
      rw [if_pos hget] at hlookup
      exact .inl ⟨hget, hmessage hlookup⟩
    | some i =>
      rw [if_neg (by rw [hget]; nofun)] at hlookup
      refine .inr (.inr ⟨n, i, rfl, hget, ?_⟩)
      rw [doBgfg, hlookup]
      rfl

/-- **The argument leads nowhere** exactly if it is read as the key of no job. -/
theorem DistinctKeys.find_eq_none (h : t.DistinctKeys) : t.find (parseArg arg) = none ↔
    ∀ j ∈ t.jobs, j.pid ≠ 0 → ¬ReadsPid arg j ∧ ¬ReadsJid arg j := by
  constructor
  · intro hfind j hj hj0
    refine ⟨fun hreads => ?_, fun hreads => ?_⟩
    · rw [parseArg_pid.mpr hreads] at hfind
      exact h.getjobpid_eq_none.mp hfind j hj hj0 rfl
    · have hpos := (h.pos j hj hj0).2
      rw [(parseArg_jid (by omega)).mpr hreads] at hfind
      exact h.getjobjid_eq_none.mp hfind j hj hj0 rfl
  · intro hnone
    cases harg : parseArg arg with
    | bad => rfl
    | jid n =>
      refine h.getjobjid_eq_none.mpr fun j hj hj0 he => (hnone j hj hj0).2 ?_
      have hpos := (h.pos j hj hj0).2
      obtain ⟨s, rfl, hs⟩ := (parseArg_jid (by omega)).mp harg
      exact ⟨s, rfl, hs.trans he.symm⟩
    | pid n =>
      refine h.getjobpid_eq_none.mpr fun j hj hj0 he => (hnone j hj hj0).1 ?_
      obtain ⟨b, s, rfl, hb, hs⟩ := parseArg_pid.mp harg
      exact ⟨b, s, rfl, hb, hs.trans he.symm⟩

/-- **An argument that is read as a pid**: `NULL` is followed. -/
theorem doBgfg_readsPid (h : t.DistinctKeys) (argv0 : CStr) (hj : j ∈ t.jobs) (hj0 : j.pid ≠ 0)
    (hreads : ReadsPid arg j) : t.doBgfg argv0 arg = none := by
  have harg := parseArg_pid.mpr hreads
  rcases t.doBgfg_cases argv0 arg with ⟨hfind, -⟩ | ⟨n, i, k, hjid, -⟩ | ⟨n, i, -, -, hnull⟩
  · exact absurd hreads (h.find_eq_none.mp hfind j hj hj0).1
  · rw [harg] at hjid
    cases hjid
  · exact hnull

/-- **An argument that is read as a job id**: the job is resumed. -/
theorem doBgfg_readsJid (h : t.DistinctKeys) (argv0 : CStr) (hj : t.jobs[i]? = some j)
    (hj0 : j.pid ≠ 0) (hreads : ReadsJid arg j) :
    ∃ r, t.doBgfg argv0 arg = some r ∧ t.Resumed (decide (argv0 ≠ ascii "bg")) i j r := by
  have hmem := List.mem_of_getElem? hj
  have hpos := (h.pos j hmem hj0).2
  have harg := (parseArg_jid (by omega)).mpr hreads
  rcases t.doBgfg_cases argv0 arg with ⟨hfind, -⟩ | ⟨n, k, x, hjid, hget, hx, hr⟩ | ⟨n, k, hpid, -⟩
  · exact absurd hreads (h.find_eq_none.mp hfind j hmem hj0).2
  · rw [harg] at hjid
    cases hjid
    rw [h.getjobjid_eq hj hj0] at hget
    cases hget
    rw [hj] at hx
    cases hx
    exact hr
  · rw [harg] at hpid
    cases hpid

/-- An argument that is read as the key of no job: there is a message. -/
theorem doBgfg_readsNone (h : t.DistinctKeys) (argv0 : CStr)
    (hnone : ∀ j ∈ t.jobs, j.pid ≠ 0 → ¬ReadsPid arg j ∧ ¬ReadsJid arg j) :
    ∃ msg, t.doBgfg argv0 arg = some ⟨t, msg, none, none⟩ := by
  have hfind := h.find_eq_none.mpr hnone
  rcases t.doBgfg_cases argv0 arg with ⟨-, hmsg⟩ | ⟨n, i, j, harg, hget, -⟩ | ⟨n, i, harg, hget, -⟩
  · exact hmsg
  · rw [harg, find, hget] at hfind
    cases hfind
  · rw [harg, find, hget] at hfind
    cases hfind

/-- The keys of the table are `int`s. -/
def IntKeys (t : JobTable) : Prop := ∀ j ∈ t.jobs, j.pid < 2 ^ 31 ∧ j.jid < 2 ^ 31

/-- An argument behind `%` names no job but the one it is read as. -/
theorem named_of_readsJid (h : t.DistinctKeys) (hint : t.IntKeys) (hj : j ∈ t.jobs)
    (hj0 : j.pid ≠ 0) (hreads : ReadsJid arg j) (hx : x ∈ t.jobs) (hx0 : x.pid ≠ 0)
    (hname : NamesPid arg x ∨ NamesJid arg x) : NamesJid arg j := by
  obtain ⟨s, rfl, hs⟩ := hreads
  have hxpos := h.pos x hx hx0
  rcases hname with hname | hname
  · -- a pid begins with a digit
    obtain ⟨b, s', hb, hdigit, -⟩ := hname.reads (by omega) (hint x hx).1
    cases hb
    cases hdigit
  · obtain ⟨s', hs', hjid⟩ := hname.reads (by omega) (hint x hx).2
    cases hs'
    obtain ⟨i, hi⟩ := List.mem_iff_getElem?.mp hj
    obtain ⟨k, hk⟩ := List.mem_iff_getElem?.mp hx
    obtain rfl : i = k := slot_of_key h.jids hi hk hj0 hx0 (hs.symm.trans hjid)
    obtain rfl : j = x := Option.some.inj (hi.symm.trans hk)
    exact hname

/-- **`bg` and `fg` act on the job that is named** exactly when the argument is read as
no pid of a job, and as the id of a job that would be resumed only if it names it. -/
theorem doBgfg_acts_iff (h : t.DistinctKeys) (hint : t.IntKeys) (argv0 : CStr)
    (arg : Option CStr) : t.ActsOnNamed argv0 arg ↔ ∀ j ∈ t.jobs, j.pid ≠ 0 → ¬ReadsPid arg j ∧
      (ReadsJid arg j → j.Resumable (decide (argv0 ≠ ascii "bg")) → NamesJid arg j) := by
  constructor
  · intro hacts j hj hj0
    obtain ⟨i, hi⟩ := List.mem_iff_getElem?.mp hj
    refine ⟨fun hreads => ?_, fun hreads hres => ?_⟩
    · -- the call has an effect whether a job is named or not
      have hnull := doBgfg_readsPid h argv0 hj hj0 hreads
      by_cases hnamed : ∃ x ∈ t.jobs, x.pid ≠ 0 ∧ (NamesPid arg x ∨ NamesJid arg x)
      · obtain ⟨x, hx, hx0, hname⟩ := hnamed
        obtain ⟨k, hk⟩ := List.mem_iff_getElem?.mp hx
        obtain ⟨r, hr, -⟩ := hacts.named k x hk hx0 hname
        rw [hnull] at hr
        cases hr
      · obtain ⟨r, hr, -⟩ := hacts.unnamed fun x hx hx0 =>
          not_or.mp fun hname => hnamed ⟨x, hx, hx0, hname⟩
        rw [hnull] at hr
        cases hr
    · by_contra hother
      obtain ⟨r, hr, hmoved, -, -⟩ := doBgfg_readsJid h argv0 hi hj0 hreads
      obtain ⟨r', hr', -, hquiet, -⟩ := hacts.unnamed fun x hx hx0 =>
        not_or.mp fun hname => hother (named_of_readsJid h hint hj hj0 hreads hx hx0 hname)
      obtain rfl := Option.some.inj (hr.symm.trans hr')
      rw [(hmoved hres).2.1] at hquiet
      cases hquiet
  · intro hcond
    refine ⟨fun i j hi hj0 hname => ?_, fun hnone => ?_⟩
    · have hj := List.mem_of_getElem? hi
      have hpos := h.pos j hj hj0
      rcases hname with hname | hname
      · exact absurd (hname.reads (by omega) (hint j hj).1) (hcond j hj hj0).1
      · exact doBgfg_readsJid h argv0 hi hj0 (hname.reads (by omega) (hint j hj).2)
    · by_cases hreads : ∃ j ∈ t.jobs, j.pid ≠ 0 ∧ ReadsJid arg j
      · obtain ⟨j, hj, hj0, hreads⟩ := hreads
        obtain ⟨i, hi⟩ := List.mem_iff_getElem?.mp hj
        obtain ⟨r, hr, -, hleft, -⟩ := doBgfg_readsJid h argv0 hi hj0 hreads
        exact ⟨r, hr, hleft fun hres =>
          (hnone j hj hj0).2 ((hcond j hj hj0).2 hreads hres)⟩
      · obtain ⟨msg, hr⟩ := doBgfg_readsNone h argv0 fun j hj hj0 =>
          ⟨(hcond j hj hj0).1, fun hjid => hreads ⟨j, hj, hj0, hjid⟩⟩
        exact ⟨_, hr, rfl, rfl, rfl⟩

/-- Two jobs: one is stopped, with the pid 100 and the id 1, and one runs in the
background, with the pid 200 and the id 2. -/
def twoJobs : JobTable :=
  ((initjobs.addjob 100 .st (ascii "job")).2.addjob 200 .bg (ascii "loop")).2

theorem twoJobs_distinctKeys : twoJobs.DistinctKeys where
  pids := by decide
  jids := by decide
  pos := by decide
  free := by decide

theorem twoJobs_intKeys : twoJobs.IntKeys := by
  rw [IntKeys]
  decide

/-- `fg %2` moves the second job to the foreground. -/
theorem doBgfg_acts_jid : twoJobs.ActsOnNamed (ascii "fg") (some (ascii "%2")) ∧
    twoJobs.doBgfg (ascii "fg") (some (ascii "%2")) =
      some ⟨twoJobs.setState 1 .fg, [], some (-200), some 200⟩ := by
  refine ⟨(doBgfg_acts_iff twoJobs_distinctKeys twoJobs_intKeys _ _).mpr fun j hj hj0 =>
    ⟨?_, ?_⟩, by decide +kernel⟩
  · rintro ⟨b, s, harg, hb, -⟩
    cases harg
    cases hb
  · rintro ⟨s, harg, hs⟩ -
    cases harg
    rw [NamesJid, ← hs]
    decide +kernel

/-- An argument that names no job must not make `bg` send a signal. -/
theorem not_acts_of_continued {r : BgfgResult} {pid : ℤ} (hr : t.doBgfg argv0 arg = some r)
    (hcont : r.continued = some pid)
    (hnone : ∀ j ∈ t.jobs, j.pid ≠ 0 → ¬NamesPid arg j ∧ ¬NamesJid arg j) :
    ¬t.ActsOnNamed argv0 arg := by
  intro hacts
  obtain ⟨r', hr', -, hquiet, -⟩ := hacts.unnamed hnone
  obtain rfl := Option.some.inj (hr.symm.trans hr')
  rw [hcont] at hquiet
  cases hquiet

/-- `fg 100` follows `NULL`, and `bg %1x` and `bg %4294967297` resume the first job. -/
theorem doBgfg_null : ¬twoJobs.ActsOnNamed (ascii "fg") (some (ascii "100")) ∧
    ¬twoJobs.ActsOnNamed (ascii "bg") (some (ascii "%1x")) ∧
    ¬twoJobs.ActsOnNamed (ascii "bg") (some (ascii "%4294967297")) := by
  have hresumed : ∀ arg : CStr, twoJobs.doBgfg (ascii "bg") (some arg) =
      some ⟨twoJobs.setState 0 .bg, ascii "[1] (100) job", some (-100), none⟩ →
      (∀ j ∈ twoJobs.jobs, j.pid ≠ 0 → ¬NamesPid (some arg) j ∧ ¬NamesJid (some arg) j) →
      ¬twoJobs.ActsOnNamed (ascii "bg") (some arg) := fun arg hr => not_acts_of_continued hr rfl
  refine ⟨fun hacts => ?_, hresumed _ (by decide +kernel) ?_, hresumed _ (by decide +kernel) ?_⟩
  · obtain ⟨r, hr, -⟩ := hacts.named 0 ⟨100, 1, .st, ascii "job"⟩ (by decide +kernel)
      (by decide) (.inl (by rw [NamesPid]; decide +kernel))
    have hnull : twoJobs.doBgfg (ascii "fg") (some (ascii "100")) = none := by decide +kernel
    rw [hnull] at hr
    cases hr
  · simp only [NamesPid, NamesJid]
    decide +kernel
  · simp only [NamesPid, NamesJid]
    decide +kernel

end JobTable

/-! ## Statement by statement -/

namespace Shell

variable {s : State}

/-- After `kill(-pid,SIGCONT)`. -/
def State.continued (s : State) (pid : ℤ) : State :=
  (s.childEvent pid (fun st => decide (st = .stopped true ∨ st = .stopped false)) .running).getD s

theorem continued_eq (s : State) (pid : ℤ) :
    (s.continued pid).table = s.table ∧ (s.continued pid).pc = s.pc := by
  rw [State.continued, State.childEvent]
  split <;> exact ⟨rfl, rfl⟩

theorem slotPid_setState {t : JobTable} (hj : t.jobs[i]? = some j) (state : JobState) :
    slotPid (t.setState i state).jobs i = j.pid := by
  rw [slotPid, JobTable.setState, List.getElem?_modify, hj]
  simp

/-- The next statement of a call that nothing interrupts. -/
theorem exec_statement (s : State) (pt : BgfgPc) (n : ℕ) :
    Machine.exec Session.next ⟨s, some pt⟩ (List.replicate (n + 1) .statement) =
      (s.bgfg pt).bind fun s' => Machine.exec Session.next s' (List.replicate n .statement) := rfl

/-- Where `eval` is after `do_bgfg`: waiting for the pid, if there is one. -/
def waitPc (pc : Pc) (waited : Option ℤ) : Pc := (waited.map Pc.wait).getD pc

/-- The statements from the test of the state on resume the job. -/
theorem test_statements {fg : Bool} {r : BgfgResult} (hj : s.table.jobs[i]? = some j)
    (hr : s.table.Resumed fg i j r) :
    ∃ n s', Machine.exec Session.next ⟨s, some (.test fg i)⟩ (List.replicate n .statement) =
      some ⟨s', none⟩ ∧ s'.table = r.table ∧ s'.pc = waitPc s.pc r.waited := by
  by_cases hmove : j.Resumable fg
  · obtain ⟨htable, -, hwaited⟩ := hr.moved hmove
    have htest : s.bgfg (.test fg i) = some ⟨s, some (.store fg i)⟩ := by
      cases fg <;> simp_all [State.bgfg, Job.Resumable]
    rw [htable, hwaited]
    -- the state after the store, and what `kill` makes of it
    set s₁ : State := { s with table := s.table.setState i (if fg then .fg else .bg) } with hs₁
    obtain ⟨hcont, hpc⟩ := continued_eq s₁ (slotPid s₁.table.jobs i)
    cases fg with
    | false =>
      refine ⟨3, s₁.continued (slotPid s₁.table.jobs i), ?_, hcont, hpc⟩
      rw [exec_statement, htest]
      rfl
    | true =>
      refine ⟨4, { s₁.continued (slotPid s₁.table.jobs i) with
        pc := .wait (slotPid (s₁.continued (slotPid s₁.table.jobs i)).table.jobs i) }, ?_,
        hcont, ?_⟩
      · rw [exec_statement, htest]
        rfl
      · rw [hcont]
        exact congrArg Pc.wait (slotPid_setState hj .fg)
  · obtain ⟨htable, -, hwaited⟩ := hr.left hmove
    have htest : s.bgfg (.test fg i) = some ⟨s, none⟩ := by
      cases fg <;> simp_all [State.bgfg, Job.Resumable]
    refine ⟨1, s, ?_, htable.symm, ?_⟩
    · rw [exec_statement, htest]
      rfl
    · rw [hwaited]
      rfl

theorem look_none {a : Arg} (h : s.table.find a = none) (fg : Bool) :
    s.bgfg (.look fg a) = some ⟨s, none⟩ := by
  cases a with
  | bad => rfl
  | jid n => simp only [State.bgfg, show s.table.getjobjid n = none from h]
  | pid n => simp only [State.bgfg, show s.table.getjobpid n = none from h]

/-- **A call that nothing interrupts** does what its statements do. -/
theorem doBgfg_statements {r : BgfgResult} (h : s.table.doBgfg argv0 arg = some r) :
    ∃ n s', Machine.exec Session.next
        ⟨s, some (.look (decide (argv0 ≠ ascii "bg")) (parseArg arg))⟩
        (List.replicate n .statement) = some ⟨s', none⟩ ∧
      s'.table = r.table ∧ s'.pc = waitPc s.pc r.waited := by
  rcases s.table.doBgfg_cases argv0 arg with ⟨hfind, msg, hr⟩ |
    ⟨n, i, j, harg, hget, hj, r', hr, hres⟩ | ⟨n, i, -, -, hnull⟩
  · obtain rfl := Option.some.inj (h.symm.trans hr)
    refine ⟨1, s, ?_, rfl, rfl⟩
    rw [exec_statement, look_none hfind]
    rfl
  · obtain rfl : r = r' := Option.some.inj (h.symm.trans hr)
    obtain ⟨m, s', hexec, hrest⟩ := test_statements hj hres
    refine ⟨m + 2, s', ?_, hrest⟩
    rw [harg]
    simpa only [exec_statement, State.bgfg, hget, Option.bind_some] using hexec
  · rw [hnull] at h
    cases h

/-- **A call that follows `NULL`** gets as far as the second look-up. -/
theorem doBgfg_null_statements (h : s.table.doBgfg argv0 arg = none) (fg : Bool) :
    Machine.exec Session.next ⟨s, some (.look fg (parseArg arg))⟩ [.statement] =
      some ⟨s, some (.again fg 0)⟩ ∧ s.bgfg (.again fg 0) = none := by
  rcases s.table.doBgfg_cases argv0 arg with ⟨-, msg, hr⟩ | ⟨n, i, j, -, -, -, r, hr, -⟩ |
    ⟨n, i, harg, hget, -⟩
  · rw [h] at hr
    cases hr
  · rw [h] at hr
    cases hr
  · refine ⟨?_, rfl⟩
    rw [harg, show [Step.statement] = List.replicate 1 .statement from rfl, exec_statement]
    simp only [State.bgfg, hget, Option.bind_some]
    rfl

end Shell

end SysProgLab
