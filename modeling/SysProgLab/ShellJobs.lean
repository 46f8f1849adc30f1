import SysProgLab.Shell

/-!
# The job table tracks the children

In every reachable state the pids in the table are those of the children that
have been registered and not reaped, because `SIGCHLD` is blocked from `fork` to
`addjob`: a child cannot be reaped before it is registered.
-/

namespace SysProgLab

namespace Shell

/-! ## Children -/

/-- The pids of the registered children. -/
def registered (cs : List Child) : List ℤ :=
  (cs.filter Child.registered).map Child.pid

variable {cs : List Child} {c : Child} {pid p : ℤ} {f : Child → Child}

theorem mem_registered : p ∈ registered cs ↔ ∃ c ∈ cs, c.pid = p ∧ c.registered = true := by
  constructor
  · intro h
    obtain ⟨c, hc, hp⟩ := List.mem_map.mp h
    obtain ⟨hc, hr⟩ := List.mem_filter.mp hc
    exact ⟨c, hc, hp, hr⟩
  · rintro ⟨c, hc, hp, hr⟩
    exact List.mem_map.mpr ⟨c, List.mem_filter.mpr ⟨hc, hr⟩, hp⟩

theorem mem_update : c ∈ update pid f cs ↔ ∃ d ∈ cs, (if d.pid = pid then f d else d) = c :=
  List.mem_map

theorem map_pid_update (hf : ∀ d, (f d).pid = d.pid) :
    (update pid f cs).map Child.pid = cs.map Child.pid := by
  rw [update, List.map_map]
  refine List.map_congr_left fun d _ => ?_
  rw [Function.comp_apply]
  split
  · exact hf d
  · rfl

/-- The child `pid` changes its status. -/
def setStatus (pid : ℤ) (status : Status) (cs : List Child) : List Child :=
  update pid (fun c => { c with status := status }) cs

theorem map_pid_setStatus (status : Status) :
    (setStatus pid status cs).map Child.pid = cs.map Child.pid :=
  map_pid_update fun _ => rfl

/-- A change of status registers no child. -/
theorem registered_setStatus (status : Status) :
    registered (setStatus pid status cs) = registered cs := by
  induction cs with
  | nil => rfl
  | cons d cs ih =>
    have hd : ∀ e : Child, e.pid = d.pid → e.registered = d.registered →
        registered (e :: setStatus pid status cs) = registered (d :: cs) := by
      intro e he her
      rw [registered, registered, List.filter_cons, List.filter_cons, her]
      split
      · rw [List.map_cons, List.map_cons, he]
        exact congrArg _ ih
      · exact ih
    rw [setStatus, update, List.map_cons]
    split
    · exact hd _ rfl rfl
    · exact hd _ rfl rfl

theorem mem_setStatus {status : Status} :
    c ∈ setStatus pid status cs ↔
      ∃ d ∈ cs, d.pid = c.pid ∧ d.registered = c.registered ∧
        c.status = if d.pid = pid then status else d.status := by
  rw [setStatus, mem_update]
  constructor
  · rintro ⟨d, hd, rfl⟩
    refine ⟨d, hd, ?_⟩
    split <;> exact ⟨rfl, rfl, rfl⟩
  · rintro ⟨d, hd, hp, hr, hs⟩
    refine ⟨d, hd, ?_⟩
    obtain ⟨cp, cst, cr⟩ := c
    dsimp only at hp hr hs
    subst hp hr hs
    split <;> rfl

/-- A child is reaped. -/
theorem mem_registered_filter :
    p ∈ registered (cs.filter fun c => decide (c.pid ≠ pid)) ↔ p ∈ registered cs ∧ p ≠ pid := by
  rw [mem_registered, mem_registered]
  constructor
  · rintro ⟨c, hc, rfl, hr⟩
    obtain ⟨hc, hne⟩ := List.mem_filter.mp hc
    exact ⟨⟨c, hc, rfl, hr⟩, of_decide_eq_true hne⟩
  · rintro ⟨⟨c, hc, rfl, hr⟩, hne⟩
    exact ⟨c, List.mem_filter.mpr ⟨hc, decide_eq_true hne⟩, rfl, hr⟩

/-- What `addjob` returned for the child `pid` is recorded. -/
def setRegistered (pid : ℤ) (b : Bool) (cs : List Child) : List Child :=
  update pid (fun c => { c with registered := b }) cs

theorem mem_setRegistered {b : Bool} :
    c ∈ setRegistered pid b cs ↔
      ∃ d ∈ cs, d.pid = c.pid ∧ d.status = c.status ∧
        c.registered = if d.pid = pid then b else d.registered := by
  rw [setRegistered, mem_update]
  constructor
  · rintro ⟨d, hd, rfl⟩
    refine ⟨d, hd, ?_⟩
    split <;> exact ⟨rfl, rfl, rfl⟩
  · rintro ⟨d, hd, hp, hs, hr⟩
    refine ⟨d, hd, ?_⟩
    obtain ⟨cp, cst, cr⟩ := c
    dsimp only at hp hr hs
    subst hp hs hr
    split <;> rfl

theorem mem_registered_setRegistered {b : Bool} (hmem : ∃ c ∈ cs, c.pid = pid) :
    p ∈ registered (setRegistered pid b cs) ↔
      if p = pid then b = true else p ∈ registered cs := by
  rw [mem_registered]
  split
  · rename_i hp
    subst hp
    constructor
    · rintro ⟨c, hc, hcp, hr⟩
      obtain ⟨d, -, hd, -, he⟩ := mem_setRegistered.mp hc
      rw [if_pos (hd.trans hcp), hr] at he
      exact he.symm
    · rintro rfl
      obtain ⟨c, hc, hcp⟩ := hmem
      exact ⟨⟨c.pid, c.status, true⟩,
        mem_setRegistered.mpr ⟨c, hc, rfl, rfl, (if_pos hcp).symm⟩, hcp, rfl⟩
  · rename_i hp
    rw [mem_registered]
    constructor
    · rintro ⟨c, hc, hcp, hr⟩
      obtain ⟨d, hd, hdp, -, he⟩ := mem_setRegistered.mp hc
      rw [if_neg fun he => hp (hcp.symm.trans (hdp.symm.trans he)), hr] at he
      exact ⟨d, hd, hdp.trans hcp, he.symm⟩
    · rintro ⟨c, hc, hcp, hr⟩
      refine ⟨c, mem_setRegistered.mpr ⟨c, hc, rfl, rfl, ?_⟩, hcp, hr⟩
      rw [if_neg fun he => hp (hcp.symm.trans he)]

/-! ## The handler -/

/-- A pid without a job is left alone. -/
theorem sigchldHandler_of_notMem {t : JobTable} (h : t.Ok) (hpos : 1 ≤ pid)
    (hmem : pid ∉ t.pids) (status : Status) : sigchldHandler t pid status = t := by
  have hjid : t.pid2jid pid = 0 := by
    by_contra hne
    exact hmem ((JobTable.pid2jid_ne_zero h hpos).mp hne)
  exact if_neg fun hc => hc.2 hjid

/-- **`sigchld_handler`** on a child that has terminated. -/
theorem sigchldHandler_terminated {t : JobTable} (h : t.Ok) (hpos : 1 ≤ pid) {status : Status}
    (hst : status.terminated = true) :
    (sigchldHandler t pid status).Ok ∧
      (∀ p, p ∈ (sigchldHandler t pid status).pids ↔ p ∈ t.pids ∧ p ≠ pid) ∧
      ∀ j ∈ t.jobs, j.pid ≠ pid → j ∈ (sigchldHandler t pid status).jobs := by
  by_cases hmem : pid ∈ t.pids
  · have hjid := (JobTable.pid2jid_ne_zero h hpos).mpr hmem
    obtain ⟨t', e, hok, hperm, hkeep⟩ := JobTable.deletejob_spec h hpos hmem
    have heq : sigchldHandler t pid status = t' := by
      refine (if_pos ⟨by omega, hjid⟩).trans ?_
      have hdel : (t.deletejob pid).2 = t' := by rw [e]
      cases status with
      | exited | signaled => exact hdel
      | running | stopped => cases hst
    rw [heq]
    refine ⟨hok, fun p => ?_, hkeep⟩
    rw [hperm.mem_iff, h.nodup.mem_erase_iff, and_comm]
  · rw [sigchldHandler_of_notMem h hpos hmem]
    refine ⟨h, fun p => ⟨fun hp => ⟨hp, ?_⟩, fun hp => hp.1⟩, fun j hj _ => hj⟩
    rintro rfl
    exact hmem hp

/-- **`sigchld_handler`** on a child that has stopped. -/
theorem sigchldHandler_stopped {t : JobTable} (h : t.Ok) (hpos : 1 ≤ pid) (r : Bool) :
    (sigchldHandler t pid (.stopped r)).Ok ∧
      (sigchldHandler t pid (.stopped r)).pids = t.pids ∧
      (pid ∈ t.pids → ∃ j ∈ (sigchldHandler t pid (.stopped r)).jobs, j.pid = pid ∧ j.state = .st) ∧
      ∀ j ∈ t.jobs, j.pid ≠ pid → j ∈ (sigchldHandler t pid (.stopped r)).jobs := by
  by_cases hmem : pid ∈ t.pids
  · have hjid := (JobTable.pid2jid_ne_zero h hpos).mpr hmem
    obtain ⟨i, hi⟩ := JobTable.getjobpid_isSome hpos hmem
    have heq : sigchldHandler t pid (.stopped r) = t.setState i .st := by
      refine (if_pos ⟨by omega, hjid⟩).trans ?_
      rw [hi]
    rw [heq]
    obtain ⟨hok, hpids, hstate, hkeep⟩ := JobTable.setState_spec h hi .st
    exact ⟨hok, hpids, fun _ => hstate, hkeep⟩
  · rw [sigchldHandler_of_notMem h hpos hmem]
    exact ⟨h, rfl, fun hp => absurd hp hmem, fun j hj _ => hj⟩

/-! ## The invariant -/

/-- What `eval` relies on between `fork` and `addjob`. -/
def PcOk (s : State) : Prop :=
  match s.pc with
  | .fork _ _ => s.blocked = true
  | .add _ _ pid => s.blocked = true ∧
      ∃ c ∈ s.children, c.pid = pid ∧ c.registered = false ∧ c.status ≠ .stopped true
  | _ => True

/-- What a run of the handler that reports nobody does. -/
theorem handle_none {s s' : State} (e : s.handle none = some s') :
    (∀ c ∈ s.children, c.status.reportable = false) ∧ s' = { s with pending := false } := by
  rw [State.handle] at e
  split at e
  · cases e
  · next hnone => exact ⟨by simpa using hnone, (Option.some.inj e).symm⟩

/-- What a run of the handler that reports the child `pid` does. -/
theorem handle_some {s s' : State} (e : s.handle (some pid) = some s') :
    ∃ c ∈ s.children, c.pid = pid ∧
      (c.status.terminated = true ∧
          s' = { s with
            pending := false
            table := sigchldHandler s.table pid c.status
            children := s.children.filter fun d => decide (d.pid ≠ pid) } ∨
        c.status = .stopped false ∧
          s' = { s with
            pending := false
            table := sigchldHandler s.table pid (.stopped false)
            children := setStatus pid (.stopped true) s.children }) := by
  rw [State.handle] at e
  cases hfind : s.children.find? fun c => decide (c.pid = pid) && c.status.reportable with
  | none =>
    rw [hfind] at e
    cases e
  | some c =>
    rw [hfind] at e
    have hc := List.find?_some hfind
    simp only [Bool.and_eq_true, decide_eq_true_eq] at hc
    refine ⟨c, List.mem_of_find?_eq_some hfind, hc.1, ?_⟩
    dsimp only at e
    cases hst : c.status with
    | exited | signaled =>
      rw [hst] at e
      exact .inl ⟨rfl, (Option.some.inj e).symm⟩
    | running =>
      rw [hst] at hc
      cases hc.2
    | stopped r =>
      rw [hst] at hc e
      cases r with
      | false => exact .inr ⟨rfl, (Option.some.inj e).symm⟩
      | true => cases hc.2

/-- The handler does not touch `eval`. -/
theorem handle_pc {s s' : State} {r : Option ℤ} (e : s.handle r = some s') : s'.pc = s.pc := by
  cases r with
  | none =>
    obtain ⟨-, rfl⟩ := handle_none e
    rfl
  | some pid =>
    obtain ⟨c, -, -, ⟨-, rfl⟩ | ⟨-, rfl⟩⟩ := handle_some e
    · rfl
    · rfl

/-- What a statement of `eval` does: it forks a child, registers it, or leaves the
table and the children alone. -/
theorem main_cases {s s' : State} {forked : ℤ} (e : s.main forked = some s') :
    (∃ b pc, s' = { s with blocked := b, pc := pc } ∧ (PcOk s → PcOk s')) ∨
    (∃ bg cmdline, s.pc = .fork bg cmdline ∧ 1 ≤ forked ∧ (∀ c ∈ s.children, c.pid ≠ forked) ∧
      s' = { s with
        children := ⟨forked, .running, false⟩ :: s.children
        pc := .add bg cmdline forked }) ∨
    ∃ bg cmdline pid, s.pc = .add bg cmdline pid ∧
      s' = { s with
        table := (s.table.addjob pid (if bg then .bg else .fg) cmdline).2
        children := setRegistered pid (s.table.addjob pid (if bg then .bg else .fg) cmdline).1
          s.children
        pc := .unblock bg pid } := by
  rw [State.main] at e
  cases hcase : s.pc with
  | ready =>
    rw [hcase] at e
    cases e
  | block bg cmdline =>
    rw [hcase] at e
    cases e
    exact .inl ⟨true, _, rfl, fun _ => rfl⟩
  | fork bg cmdline =>
    rw [hcase] at e
    dsimp only at e
    split at e
    · cases e
      exact .inl ⟨s.blocked, _, rfl, fun _ => trivial⟩
    split at e
    · cases e
    · rename_i hneg hfresh
      cases e
      simp only [not_or, List.any_eq_true, decide_eq_true_eq, not_exists, not_and] at hfresh
      exact .inr (.inl ⟨bg, cmdline, rfl, by omega, hfresh.2, rfl⟩)
  | add bg cmdline pid =>
    rw [hcase] at e
    cases e
    exact .inr (.inr ⟨bg, cmdline, pid, rfl, rfl⟩)
  | unblock bg pid =>
    rw [hcase] at e
    cases e
    refine .inl ⟨false, _, rfl, fun _ => ?_⟩
    cases bg <;> trivial
  | wait pid =>
    rw [hcase] at e
    dsimp only at e
    split at e
    · cases e
      exact .inl ⟨s.blocked, _, rfl, fun _ => trivial⟩
    · split at e
      · cases e
        exact .inl ⟨s.blocked, s.pc, rfl, id⟩
      · cases e
        exact .inl ⟨s.blocked, _, rfl, fun _ => trivial⟩
  | report pid =>
    rw [hcase] at e
    dsimp only at e
    split at e
    · cases e
    · cases e
      exact .inl ⟨s.blocked, _, rfl, fun _ => trivial⟩

/-- The table tracks the children. -/
structure Tracks (s : State) : Prop where
  ok : s.table.Ok
  pids : ∀ p, p ∈ s.table.pids ↔ p ∈ registered s.children
  nodup : (s.children.map Child.pid).Nodup
  pos : ∀ c ∈ s.children, 1 ≤ c.pid
  pc : PcOk s

namespace Tracks

variable {s s' : State}

theorem init : Tracks Shell.init where
  ok := JobTable.initjobs_ok
  pids := fun p => by
    have hnil : Shell.init.table.pids = [] := by decide
    rw [hnil]
    rfl
  nodup := List.nodup_nil
  pos := fun _ hc => absurd hc List.not_mem_nil
  pc := trivial

/-- A child may change its status at any moment. -/
theorem childEvent (h : Tracks s) {guard : Status → Bool} {status : Status}
    (hne : status ≠ .stopped true) (e : s.childEvent pid guard status = some s') : Tracks s' := by
  obtain ⟨-, e⟩ := Option.ite_none_right_eq_some.mp e
  obtain rfl : { s with children := setStatus pid status s.children, pending := true } = s' :=
    Option.some.inj e
  refine ⟨h.ok, fun p => ?_, ?_, ?_, ?_⟩
  · rw [registered_setStatus]
    exact h.pids p
  · rw [map_pid_setStatus]
    exact h.nodup
  · intro c hc
    obtain ⟨d, hd, hp, -⟩ := mem_setStatus.mp hc
    exact hp ▸ h.pos d hd
  · have hpc := h.pc
    rw [PcOk] at hpc ⊢
    dsimp only at hpc ⊢
    cases hcase : s.pc with
    | add bg cmdline q =>
      rw [hcase] at hpc
      obtain ⟨hb, d, hd, hp, hr, hs⟩ := hpc
      refine ⟨hb, ⟨d.pid, if d.pid = pid then status else d.status, d.registered⟩,
        mem_setStatus.mpr ⟨d, hd, rfl, rfl, rfl⟩, hp, hr, ?_⟩
      dsimp only
      split
      · exact hne
      · exact hs
    | _ => rw [hcase] at hpc; exact hpc

/-- The handler removes from the table whom it reaps. -/
theorem handle (h : Tracks s) (hb : s.blocked = false) {r : Option ℤ}
    (e : s.handle r = some s') : Tracks s' := by
  -- `eval` is not between `fork` and `addjob`
  have hpc : ∀ s₁ : State, s₁.pc = s.pc → PcOk s₁ := by
    intro s₁ heq
    have hpc := h.pc
    rw [PcOk] at hpc ⊢
    rw [heq]
    cases hcase : s.pc with
    | fork bg cmdline =>
      rw [hcase, hb] at hpc
      cases hpc
    | add bg cmdline q =>
      rw [hcase, hb] at hpc
      cases hpc.1
    | _ => trivial
  cases r with
  | none =>
    obtain ⟨-, rfl⟩ := handle_none e
    exact ⟨h.ok, h.pids, h.nodup, h.pos, hpc _ rfl⟩
  | some pid =>
    obtain ⟨c, hc, rfl, ⟨hterm, rfl⟩ | ⟨-, rfl⟩⟩ := handle_some e
    · obtain ⟨hok, hpids, -⟩ := sigchldHandler_terminated h.ok (h.pos c hc) hterm
      refine ⟨hok, fun p => ?_, h.nodup.sublist (List.filter_sublist.map _), fun d hd => ?_,
        hpc _ rfl⟩
      · rw [hpids p, h.pids p, mem_registered_filter]
      · exact h.pos d (List.mem_filter.mp hd).1
    · obtain ⟨hok, hpids, -⟩ := sigchldHandler_stopped h.ok (h.pos c hc) false
      refine ⟨hok, fun p => ?_, ?_, fun d hd => ?_, hpc _ rfl⟩
      · rw [hpids, registered_setStatus]
        exact h.pids p
      · rw [map_pid_setStatus]
        exact h.nodup
      · obtain ⟨d', hd', hp, -⟩ := mem_setStatus.mp hd
        exact hp ▸ h.pos d' hd'

/-- The pid of a child that is not registered is not in the table. -/
theorem notMem_pids (h : Tracks s) {c : Child} (hc : c ∈ s.children)
    (hr : c.registered = false) : c.pid ∉ s.table.pids := by
  rw [h.pids, mem_registered]
  rintro ⟨d, hd, hp, hdr⟩
  obtain rfl := List.inj_on_of_nodup_map h.nodup hd hc hp
  rw [hr] at hdr
  cases hdr

/-- `eval` registers the child that it has forked. -/
theorem main (h : Tracks s) {forked : ℤ} (e : s.main forked = some s') : Tracks s' := by
  have hpc := h.pc
  rw [PcOk] at hpc
  obtain ⟨b, pc, rfl, hok⟩ | ⟨bg, cmdline, hcase, hpos, hfresh, rfl⟩ |
    ⟨bg, cmdline, pid, hcase, rfl⟩ := main_cases e
  · exact ⟨h.ok, h.pids, h.nodup, h.pos, hok h.pc⟩
  · rw [hcase] at hpc
    have hnew : forked ∉ s.children.map Child.pid := by
      intro hm
      obtain ⟨c, hc, hp⟩ := List.mem_map.mp hm
      exact hfresh c hc hp
    refine ⟨h.ok, h.pids, List.nodup_cons.mpr ⟨hnew, h.nodup⟩, fun c hc => ?_, hpc, _,
      List.mem_cons_self .., rfl, rfl, Status.noConfusion⟩
    rcases List.mem_cons.mp hc with rfl | hc
    · exact hpos
    · exact h.pos c hc
  · rw [hcase] at hpc
    obtain ⟨hb, c, hc, rfl, hr, hs⟩ := hpc
    have hnew := h.notMem_pids hc hr
    have hpids : ∀ b p, p ∈ registered (setRegistered c.pid b s.children) ↔
        if p = c.pid then b = true else p ∈ registered s.children :=
      fun b p => mem_registered_setRegistered ⟨c, hc, rfl⟩
    have hmap : ∀ b, (setRegistered c.pid b s.children).map Child.pid =
        s.children.map Child.pid := fun b => map_pid_update fun _ => rfl
    have hpos : ∀ b, ∀ d ∈ setRegistered c.pid b s.children, 1 ≤ d.pid := by
      intro b d hd
      obtain ⟨d', hd', hp, -⟩ := mem_setRegistered.mp hd
      exact hp ▸ h.pos d' hd'
    rcases JobTable.addjob_spec h.ok (h.pos c hc) hnew (if bg then .bg else .fg) cmdline with
      hadd | ⟨t', hadd, hok, hperm, -⟩
    · rw [hadd]
      refine ⟨h.ok, fun p => ?_, (congrArg List.Nodup (hmap false)).mpr h.nodup, hpos false,
        trivial⟩
      refine Iff.trans ?_ (hpids false p).symm
      split
      · rename_i hp
        exact iff_of_false (hp ▸ hnew) (by decide)
      · exact h.pids p
    · rw [hadd]
      refine ⟨hok, fun p => ?_, (congrArg List.Nodup (hmap true)).mpr h.nodup, hpos true, trivial⟩
      refine Iff.trans ?_ (hpids true p).symm
      rw [hperm.mem_iff, List.mem_cons, h.pids p]
      split
      · rename_i hp
        exact iff_of_true (.inl hp) rfl
      · rename_i hp
        exact ⟨fun hor => hor.resolve_left hp, .inr⟩

/-- **One step keeps the table in accord with the children.** -/
theorem next (h : Tracks s) {a : Action} (e : s.next a = some s') : Tracks s' := by
  cases a with
  | command bg cmdline =>
    obtain ⟨-, e⟩ := Option.ite_none_right_eq_some.mp e
    cases e
    exact ⟨h.ok, h.pids, h.nodup, h.pos, trivial⟩
  | main forked => exact h.main e
  | stop pid | cont pid | exit pid | kill pid =>
    rw [State.next] at e
    exact h.childEvent (by simp) e
  | handler r =>
    obtain ⟨hrun, e⟩ := Option.ite_none_right_eq_some.mp e
    exact h.handle hrun.2 e

end Tracks

theorem machine_inductive : machine.Inductive (fun _ _ => True) Tracks where
  init := by
    rintro _ rfl
    exact .init
  step := fun h _ e => h.next e

/-- **The pids in the job table are those of the registered children that have not
been reaped**, each of them once. -/
theorem table_tracks_children {s : State} (hs : machine.Reach s) :
    s.table.pids.Nodup ∧
      ∀ pid, pid ∈ s.table.pids ↔ ∃ c ∈ s.children, c.pid = pid ∧ c.registered = true := by
  have h := machine_inductive.holds hs
  exact ⟨h.ok.nodup, fun pid => (h.pids pid).trans mem_registered⟩

/-- The state after the actions `as`, all of which meet `P`. -/
def run (P : State → Action → Bool) (as : List Action) : Option State :=
  Machine.exec (fun s a => if P s a = true then s.next a else none) Shell.init as

theorem run_reach {P : State → Action → Bool} {as : List Action} {s : State}
    (h : run P as = some s) : machine.ReachWhen (fun s a => P s a = true) s :=
  Machine.ReachWhen.exec (fun _ _ _ hnext => Option.ite_none_right_eq_some.mp hnext) (.init rfl) h

/-- A child exits before `addjob`; its entry stays until the handler has run. -/
theorem table_tracks_children_run : ∃ s : State, s.table.pids = [100] ∧
    ∃ c ∈ s.children, c.pid = 100 ∧ c.registered = true := by
  have hrun : ((run (fun _ _ => true)
      [.command true [97], .main 0, .main 100, .exit 100, .main 0, .main 0]).any fun s =>
        s.table.pids = [100]) = true := by
    decide +kernel
  obtain ⟨s, e, hs⟩ := (Option.any_eq_true ..).mp hrun
  have hs : s.table.pids = [100] := by simpa using hs
  exact ⟨s, hs, ((table_tracks_children (run_reach e).reach).2 100).mp (by rw [hs]; simp)⟩

end Shell

end SysProgLab
