import SysProgLab.ShellForeground

/-!
# Failures in `eval`

`eval` blocks `SIGCHLD`, forks a child and adds a job for it. It has no branch for a
negative pid, so it returns with the signal blocked when `fork` fails, and it ignores the
result of `addjob`, so the child runs without a job when no slot is free. As long as
neither happens, or the child of a foreground command has ended by the time `eval`
returns, the shell is as it should be at every prompt.
-/

namespace SysProgLab

namespace Shell

/-- The statement of `eval` that comes next fails: `fork` returns a negative number, or
`addjob` returns 0. -/
def State.Fails (s : State) (forked : ℤ) : Prop :=
  match s.pc with
  | .fork _ _ => forked < 0
  | .add bg cmdline pid => (s.table.addjob pid (if bg then .bg else .fg) cmdline).1 = false
  | _ => False

/-- **The shell is intact**: at the prompt `SIGCHLD` is not blocked and every child that
runs or is stopped has a job, and `eval` only goes on with background jobs in the table. -/
structure Intact (s : State) : Prop where
  unblocked : s.pc = .ready → s.blocked = false
  covered : s.pc = .ready → ∀ c ∈ s.children, c.status.terminated = false →
    c.pid ∈ s.table.pids
  added : ∀ pid, s.pc = .unblock true pid → pid ∈ s.table.pids

/-- **The condition**: `fork` does not fail, `addjob` finds a free slot for a background
job, and when `waitfg` returns its child has a job or has ended. -/
def recovers (s : State) : Step → Bool
  | .shell (.main forked) =>
    match s.pc with
    | .fork _ _ => decide (0 ≤ forked)
    | .add true _ _ => s.table.jobs.any fun j => decide (j.pid = 0)
    | .wait pid => s.children.all fun c =>
        decide (c.pid ≠ pid) || c.registered || c.status.terminated
    | _ => true
  | _ => true

/-- The child that `eval` has forked, while it may have no job. -/
def Pc.child : Pc → Option ℤ
  | .add _ _ pid | .unblock false pid | .wait pid => some pid
  | _ => none

/-- `SIGCHLD` is blocked. -/
def Pc.blocks : Pc → Bool
  | .fork _ _ | .add _ _ _ | .unblock _ _ => true
  | _ => false

/-- What holds between two statements. -/
structure Covered (S : State) : Prop where
  tracks : Tracks S
  blocked : S.blocked = S.pc.blocks
  added : ∀ pid, S.pc = .unblock true pid → pid ∈ S.table.pids
  children : ∀ c ∈ S.children, c.status.terminated = false →
    c.registered = true ∨ S.pc.child = some c.pid

variable {S S' : State} {pid forked : ℤ} {c : Child} {pt : BgfgPc} {s' : Session}

theorem Tracks.ready (h : Tracks S) : Tracks { S with pc := .ready } :=
  ⟨h.ok, h.pids, h.nodup, h.pos, trivial⟩

namespace Covered

theorem init : Covered Shell.init where
  tracks := .init
  blocked := rfl
  added := fun _ hpc => by cases hpc
  children := fun _ hc => absurd hc List.not_mem_nil

/-- A child that has a job is in the table. -/
theorem mem_pids (h : Covered S) (hc : c ∈ S.children) (hr : c.registered = true) :
    c.pid ∈ S.table.pids := (h.tracks.pids c.pid).mpr (mem_registered.mpr ⟨c, hc, rfl, hr⟩)

/-- **The invariant says what is asked for.** -/
theorem intact (h : Covered S) : Intact S where
  unblocked hpc := by rw [h.blocked, hpc]; rfl
  covered hpc c hc hrun := by
    rcases h.children c hc hrun with hr | hchild
    · exact h.mem_pids hc hr
    · rw [hpc] at hchild
      cases hchild
  added := h.added

/-- A child changes its status, and does not come back to life. -/
theorem childEvent (h : Covered S) {guard : Status → Bool} {status : Status}
    (hguard : ∀ st, guard st = true → status.terminated = false → st.terminated = false)
    (hne : status ≠ .stopped true) (e : S.childEvent pid guard status = some S') : Covered S' := by
  have htracks := h.tracks.childEvent hne e
  obtain ⟨hany, e⟩ := Option.ite_none_right_eq_some.mp e
  obtain rfl : { S with children := setStatus pid status S.children, pending := true } = S' :=
    Option.some.inj e
  refine ⟨htracks, h.blocked, h.added, fun c hc hrun => ?_⟩
  obtain ⟨d, hd, hp, hr, hst⟩ := mem_setStatus.mp hc
  rw [← hr, ← hp]
  refine h.children d hd ?_
  rw [hst] at hrun
  split at hrun
  · next hdp =>
    -- `d` is the child that the guard is about
    obtain ⟨x, hx, hxg⟩ := List.any_eq_true.mp hany
    rw [Bool.and_eq_true, decide_eq_true_eq] at hxg
    obtain rfl := List.inj_on_of_nodup_map h.tracks.nodup hx hd (hxg.1.trans hdp.symm)
    exact hguard _ hxg.2 hrun
  · exact hrun

/-- The handler reaps a child, or reports it. -/
theorem handle (h : Covered S) (hb : S.blocked = false) {r : Option ℤ}
    (e : S.handle r = some S') : Covered S' := by
  have htracks := h.tracks.handle hb e
  have hadded : ∀ {S₁ : State}, S₁.pc = S.pc → ∀ pid, S₁.pc = .unblock true pid →
      pid ∈ S₁.table.pids := by
    intro S₁ hpc pid hun
    rw [h.blocked, ← hpc, hun] at hb
    cases hb
  cases r with
  | none =>
    obtain ⟨-, rfl⟩ := handle_none e
    exact ⟨htracks, h.blocked, hadded rfl, h.children⟩
  | some pid =>
    obtain ⟨c, hc, rfl, ⟨-, rfl⟩ | ⟨hstopped, rfl⟩⟩ := handle_some e
    · exact ⟨htracks, h.blocked, hadded rfl, fun d hd => h.children d (List.mem_filter.mp hd).1⟩
    · refine ⟨htracks, h.blocked, hadded rfl, fun d hd hrun => ?_⟩
      obtain ⟨x, hx, hp, hr, hst⟩ := mem_setStatus.mp hd
      rw [← hr, ← hp]
      refine h.children x hx ?_
      by_cases hxc : x.pid = c.pid
      · obtain rfl := List.inj_on_of_nodup_map h.tracks.nodup hx hc hxc
        rw [hstopped]
        rfl
      · rwa [hst, if_neg hxc] at hrun

/-- A statement of `eval`. -/
theorem main (h : Covered S) (hcond : recovers S (.shell (.main forked)) = true)
    (e : S.main forked = some S') : Covered S' := by
  have htracks := h.tracks.main e
  have hpcok := h.tracks.pc
  rw [State.main] at e
  cases hpc : S.pc with
  | ready =>
    rw [hpc] at e
    cases e
  | block bg cmdline =>
    rw [hpc] at e
    cases e
    refine ⟨htracks, rfl, fun _ hun => Pc.noConfusion hun, fun c hc hrun => ?_⟩
    have hchild := h.children c hc hrun
    rwa [hpc] at hchild
  | fork bg cmdline =>
    rw [recovers, hpc] at hcond
    rw [hpc] at e
    dsimp only at e hcond
    rw [if_neg (not_lt.mpr (of_decide_eq_true hcond))] at e
    split at e
    · cases e
    cases e
    refine ⟨htracks, ?_, fun _ hun => Pc.noConfusion hun,
      List.forall_mem_cons.mpr ⟨fun _ => .inr rfl, fun c hc hrun => ?_⟩⟩
    · have hblocked := h.blocked
      rwa [hpc] at hblocked
    · refine .inl ((h.children c hc hrun).resolve_right fun hchild => ?_)
      rw [hpc] at hchild
      cases hchild
  | add bg cmdline pid =>
    rw [PcOk, hpc] at hpcok
    obtain ⟨hb, c, hc, rfl, -⟩ := hpcok
    rw [recovers, hpc] at hcond
    rw [hpc] at e
    cases e
    -- a background job finds a slot
    have hadded : bg = true → (S.table.addjob c.pid (if bg then .bg else .fg) cmdline).1 = true ∧
        c.pid ∈ (S.table.addjob c.pid (if bg then .bg else .fg) cmdline).2.pids := by
      rintro rfl
      obtain ⟨j, hj, hj0⟩ := List.any_eq_true.mp hcond
      obtain ⟨-, hfull⟩ | ⟨l, k, r, -, -, hadd⟩ :=
        S.table.addjob_cases (h.tracks.pos c hc) .bg cmdline
      · exact absurd (of_decide_eq_true hj0) (hfull j hj)
      · simp only [if_true, hadd]
        have hpos := h.tracks.pos c hc
        exact ⟨trivial, JobTable.mem_pids.mpr ⟨by omega, _,
          List.mem_append_right l List.mem_cons_self, rfl⟩⟩
    refine ⟨htracks, hb, fun pid hun => ?_, fun d hd hrun => ?_⟩
    · obtain ⟨rfl, rfl⟩ := Pc.unblock.inj hun
      exact (hadded rfl).2
    · obtain ⟨x, hx, hp, hst, hr⟩ := mem_setRegistered.mp hd
      split at hr
      · next hxc =>
        cases bg with
        | true => exact .inl (hr.trans (hadded rfl).1)
        | false => exact .inr (congrArg some (hxc.symm.trans hp))
      · next hxc =>
        have hchild := h.children x hx (hst ▸ hrun)
        rw [hpc] at hchild
        exact .inl (hr.trans (hchild.resolve_right fun he => hxc (Option.some.inj he).symm))
  | unblock bg pid =>
    rw [hpc] at e
    cases e
    cases bg with
    | true =>
      refine ⟨htracks, rfl, fun _ hun => Pc.noConfusion hun, fun c hc hrun => ?_⟩
      have hchild := h.children c hc hrun
      rwa [hpc] at hchild
    | false =>
      refine ⟨htracks, rfl, fun _ hun => Pc.noConfusion hun, fun c hc hrun => ?_⟩
      have hchild := h.children c hc hrun
      rwa [hpc] at hchild
  | wait pid =>
    rw [recovers, hpc] at hcond
    rw [hpc] at e
    have hblocked := h.blocked
    rw [hpc] at hblocked
    -- `waitfg` returns, or goes on waiting
    have hend : Covered { S with pc := .ready } := by
      refine ⟨h.tracks.ready, hblocked, fun _ hun => Pc.noConfusion hun, fun c hc hrun => .inl ?_⟩
      rcases h.children c hc hrun with hr | hchild
      · exact hr
      · rw [hpc] at hchild
        have hret := List.all_eq_true.mp hcond c hc
        rw [hrun, Option.some.inj hchild] at hret
        simpa using hret
    dsimp only at e
    split at e
    · cases e
      exact hend
    · split at e
      · cases e
        exact h
      · cases e
        exact hend
  | report pid =>
    rw [hpc] at e
    dsimp only at e
    split at e
    · cases e
    · cases e
      have hblocked := h.blocked
      rw [hpc] at hblocked
      refine ⟨htracks, hblocked, fun _ hun => Pc.noConfusion hun, fun c hc hrun => ?_⟩
      have hchild := h.children c hc hrun
      rwa [hpc] at hchild

/-- A step outside `do_bgfg`. -/
theorem shell (h : Covered S) {act : Action} (hcond : recovers S (.shell act) = true)
    (e : S.next act = some S') : Covered S' := by
  cases act with
  | command bg cmdline =>
    have htracks := h.tracks.next e
    obtain ⟨hpc, e⟩ := Option.ite_none_right_eq_some.mp e
    cases e
    have hblocked := h.blocked
    rw [hpc] at hblocked
    refine ⟨htracks, hblocked, fun _ hun => Pc.noConfusion hun, fun c hc hrun => ?_⟩
    have hchild := h.children c hc hrun
    rwa [hpc] at hchild
  | main forked => exact h.main hcond e
  | stop pid | exit pid | kill pid =>
    rw [State.next] at e
    exact h.childEvent (by simp [Status.terminated]) (by simp) e
  | cont pid =>
    rw [State.next] at e
    exact h.childEvent (by simp [Status.terminated]) (by simp) e
  | handler r =>
    obtain ⟨hrun, e⟩ := Option.ite_none_right_eq_some.mp e
    exact h.handle hrun.2 e

/-- `kill(-(stopped->pid),SIGCONT)` -/
theorem continued (h : Covered S) (pid : ℤ) :
    Covered ((S.childEvent pid (fun st => decide (st = .stopped true ∨ st = .stopped false))
      .running).getD S) := by
  cases hcont : S.childEvent pid (fun st => decide (st = .stopped true ∨ st = .stopped false))
      .running with
  | none => exact h
  | some S' => exact h.childEvent (by simp [Status.terminated]) (by simp) hcont

/-- A statement of `do_bgfg`. -/
theorem bgfg (h : Covered S) (hready : S.pc = .ready) (e : S.bgfg pt = some s') :
    Covered s'.shell := by
  have htracks := h.tracks.bgfg e
  rcases bgfg_cases e with ⟨b, rfl, -⟩ | ⟨fg, i, -, rfl⟩ | ⟨fg, i, S', guard, rfl, -, rfl⟩ |
    ⟨i, -, rfl⟩
  · exact h
  · refine ⟨htracks, h.blocked, fun pid hun => ?_, h.children⟩
    rw [hready] at hun
    cases hun
  · obtain ⟨rfl, -⟩ := Session.mk.inj (Option.some.inj e)
    exact h.continued _
  · refine ⟨htracks, ?_, fun _ hun => Pc.noConfusion hun, fun c hc hrun => .inl ?_⟩
    · have hblocked := h.blocked
      rwa [hready] at hblocked
    · refine (h.children c hc hrun).resolve_right fun hchild => ?_
      rw [hready] at hchild
      cases hchild

end Covered

/-- What holds of a session between two statements. -/
structure Sound (s : Session) : Prop where
  idle : s.point ≠ none → s.shell.pc = .ready
  covered : Covered s.shell

variable {s : Session} {a : Step}

/-- **One step keeps the invariant.** -/
theorem Sound.next (h : Sound s) (hcond : recovers s.shell a = true) (e : s.next a = some s') :
    Sound s' := by
  rcases Session.next_cases e with ⟨act, S', rfl, hS', rfl, hkeep⟩ | ⟨fg, arg, rfl, hpc, hshell⟩ |
    ⟨pt, rfl, hpoint, hstep⟩
  · exact ⟨fun hne => (hkeep.resolve_left hne).trans (h.idle hne), h.covered.shell hcond hS'⟩
  · exact ⟨fun _ => hshell ▸ hpc, hshell ▸ h.covered⟩
  · have hready := h.idle (by rw [hpoint]; nofun)
    refine ⟨fun hne => ?_, h.covered.bgfg hready hstep⟩
    exact (bgfg_idle hready hstep).resolve_right fun hend => hne hend.1

theorem sound_inductive : session.Inductive (fun s a => recovers s.shell a = true) Sound where
  init := by
    rintro _ rfl
    exact ⟨fun h => absurd rfl h, .init⟩
  step := fun h hcond e => h.next hcond e

/-! ## The first failure -/

/-- **A failure that is not recovered from breaks the shell.** -/
theorem Covered.recovers (h : Covered S) (e : S.main forked = some S') (hintact : Intact S') :
    Shell.recovers S (.shell (.main forked)) = true := by
  have hpcok := h.tracks.pc
  rw [Shell.recovers]
  rw [State.main] at e
  cases hpc : S.pc with
  | ready | block | unblock | report => rfl
  | fork bg cmdline =>
    refine decide_eq_true (not_lt.mp fun hneg => ?_)
    rw [hpc] at e
    dsimp only at e
    rw [if_pos hneg] at e
    cases e
    -- `SIGCHLD` stays blocked
    have hb : S.blocked = false := hintact.unblocked rfl
    rw [h.blocked, hpc] at hb
    cases hb
  | add bg cmdline pid =>
    cases bg with
    | false => rfl
    | true =>
      rw [PcOk, hpc] at hpcok
      obtain ⟨-, c, hc, rfl, hreg, -⟩ := hpcok
      rw [hpc] at e
      cases e
      obtain ⟨hrefused, -⟩ | ⟨l, j, r, he, hj0, -⟩ :=
        S.table.addjob_cases (h.tracks.pos c hc) .bg cmdline
      · have hmem := hintact.added c.pid rfl
        simp only [if_true, hrefused] at hmem
        exact absurd hmem (h.tracks.notMem_pids hc hreg)
      · rw [he]
        simp [hj0]
  | wait pid =>
    rw [hpc] at e
    -- the child has a job, be it because `waitfg` goes on waiting for it
    have hmem : ∀ c ∈ S.children, c.pid = pid → c.status.terminated = false →
        c.pid ∈ S.table.pids := by
      rintro c hc rfl hrun
      dsimp only at e
      split at e
      · cases e
        exact hintact.covered rfl c hc hrun
      · next hget =>
        obtain ⟨h0, j, hj, hjp⟩ := slot_of_getjobpid hget
        exact JobTable.mem_pids.mpr ⟨h0, j, List.mem_of_getElem? hj, hjp⟩
    refine List.all_eq_true.mpr fun c hc => ?_
    rw [Bool.or_eq_true, Bool.or_eq_true, decide_eq_true_eq]
    by_cases hcp : c.pid = pid
    · cases hrun : c.status.terminated with
      | true => exact .inr rfl
      | false =>
        refine .inl (.inr (Bool.not_eq_false _ ▸ fun hreg => ?_))
        exact h.tracks.notMem_pids hc hreg (hmem c hc hcp hrun)
    · exact .inl (.inl hcp)

/-- Only an `addjob` that succeeds changes the table. -/
theorem Covered.table_eq (h : Covered S) (e : S.main forked = some S') : S'.table = S.table ∨
    ∃ bg cmdline pid, S.pc = .add bg cmdline pid ∧ ¬S.Fails forked := by
  have hpcok := h.tracks.pc
  rcases main_cases e with ⟨b, pc, rfl, -⟩ | ⟨bg, cmdline, -, -, -, rfl⟩ |
    ⟨bg, cmdline, pid, hpc, rfl⟩
  · exact .inl rfl
  · exact .inl rfl
  · rw [PcOk, hpc] at hpcok
    obtain ⟨-, c, hc, rfl, -⟩ := hpcok
    obtain ⟨hadd, -⟩ | ⟨l, j, r, -, -, hadd⟩ :=
      S.table.addjob_cases (h.tracks.pos c hc) (if bg then .bg else .fg) cmdline
    · exact .inl (congrArg Prod.snd hadd)
    · refine .inr ⟨bg, cmdline, c.pid, hpc, ?_⟩
      rw [State.Fails, hpc]
      simp only [hadd, Bool.true_eq_false, not_false_eq_true]

/-! ## Runs -/

/-- **The shell is intact at every prompt** of the runs in which every failure of `eval` is
recovered from, and the first that is not breaks it. What fails leaves the table alone. -/
theorem failures_leave_intact {s : Session}
    (hs : session.ReachWhen (fun s a => recovers s.shell a = true) s) :
    Intact s.shell ∧
      (∀ a s', session.step s a s' → (Intact s'.shell ↔ recovers s.shell a = true)) ∧
      ∀ forked s', session.step s (.shell (.main forked)) s' →
        s'.shell.table = s.shell.table ∨
          ∃ bg cmdline pid, s.shell.pc = .add bg cmdline pid ∧ ¬s.shell.Fails forked := by
  have h := sound_inductive.holds hs
  refine ⟨h.covered.intact, fun a s' e => ⟨fun hintact => ?_, fun hcond => ?_⟩, ?_⟩
  · rcases Session.next_cases e with ⟨act, S', rfl, hS', rfl, -⟩ | ⟨fg, arg, rfl, -⟩ | ⟨pt, rfl, -⟩
    · cases act with
      | command | stop | cont | exit | kill | handler => rfl
      | main forked => exact h.covered.recovers hS' hintact
    · rfl
    · rfl
  · exact (h.next hcond e).covered.intact
  · rintro forked s' e
    obtain ⟨-, e⟩ := Option.ite_none_right_eq_some.mp e
    obtain ⟨S', hS', rfl⟩ := Option.map_eq_some_iff.mp e
    exact h.covered.table_eq hS'

/-- Sixteen background jobs fill the table; then a command is run in the foreground. -/
def fullTable : List Step :=
  ((List.range maxJobs).flatMap fun i =>
    [.shell (.command true [97]), .shell (.main 0), .shell (.main (100 + (i : ℕ))), .shell (.main 0),
      .shell (.main 0), .shell (.main 0)]) ++
    [.shell (.command false [98]), .shell (.main 0), .shell (.main 200)]

/-- Its child ends before `waitfg` returns. -/
def endedChild : List Step :=
  [.shell (.main 0), .shell (.main 0), .shell (.exit 200), .shell (.handler (some 200)),
    .shell (.main 0)]

/-- `addjob` fails for the foreground command. -/
theorem failures_leave_intact_run : ∃ s s' : Session, s.shell.Fails 0 ∧
    Machine.exec Session.next s endedChild = some s' ∧ s'.AtPrompt ∧
    s'.shell.table.pids.length = maxJobs ∧ Intact s'.shell := by
  have hrun : ((runSession (fun s a => recovers s.shell a) fullTable).any fun s =>
      s.shell.pc = .add false [98] 200 ∧ (s.shell.table.addjob 200 .fg [98]).1 = false ∧
        ((Machine.exec (fun s a => if recovers s.shell a = true then s.next a else none) s
          endedChild).any fun s' => Machine.exec Session.next s endedChild = some s' ∧
            s'.shell.pc = .ready ∧ s'.point = none ∧
              s'.shell.table.pids.length = maxJobs) = true) = true := by
    decide +kernel
  obtain ⟨s, e, hs⟩ := (Option.any_eq_true ..).mp hrun
  obtain ⟨hpc, hfull, hend⟩ := of_decide_eq_true hs
  obtain ⟨s', e', hs'⟩ := (Option.any_eq_true ..).mp hend
  obtain ⟨hexec, hready, hpoint, hpids⟩ := of_decide_eq_true hs'
  have hreach : session.ReachWhen (fun s a => recovers s.shell a = true) s' :=
    Machine.ReachWhen.exec (fun _ _ _ hnext => Option.ite_none_right_eq_some.mp hnext)
      (runSession_reach e) e'
  refine ⟨s, s', ?_, hexec, ⟨hready, hpoint⟩, hpids, (failures_leave_intact hreach).1⟩
  rw [State.Fails, hpc]
  exact hfull

/-- `fork` fails, and `SIGCHLD` stays blocked. -/
theorem blocked_at_prompt : ¬∀ s : Session, session.Reach s → Intact s.shell := by
  intro h
  have hrun : ((runSession (fun _ _ => true) [.shell (.command true [97]), .shell (.main 0),
      .shell (.main (-1))]).any fun s => s.shell.pc = .ready ∧ s.shell.blocked = true) = true := by
    decide +kernel
  obtain ⟨s, e, hs⟩ := (Option.any_eq_true ..).mp hrun
  simp only [decide_eq_true_eq] at hs
  have hb := (h s (runSession_reach e).reach).unblocked hs.1
  rw [hs.2] at hb
  cases hb

end Shell

end SysProgLab
