import SysProgLab.ShellJobs

/-!
# Child events and the one pending bit

`sigchld_handler` calls `waitpid` once, but one pending `SIGCHLD` may stand for
the events of several children. No event is lost in the runs in which a child
stops or terminates only while no other child has an event to be reported.
-/

namespace SysProgLab

namespace Shell

/-- A child stops or terminates only while no other child can be reported. -/
def oneAtATime (s : State) : Action → Bool
  | .stop pid | .exit pid | .kill pid =>
    s.children.all fun c => decide (c.pid = pid) || !c.status.reportable
  | _ => true

/-- No event of a registered child is outstanding: who has terminated is reaped
and out of the table, and who has stopped has the state `ST`. -/
structure Settled (s : State) : Prop where
  reaped : ∀ c ∈ s.children, c.registered = true → c.status.terminated = false
  removed : ∀ pid, pid ∈ s.table.pids → ∃ c ∈ s.children, c.pid = pid ∧ c.registered = true
  stopped : ∀ c ∈ s.children, c.registered = true → ∀ r, c.status = .stopped r →
    ∃ j ∈ s.table.jobs, j.pid = c.pid ∧ j.state = .st

/-- A reported stop is in the table. -/
def StopsShown (t : JobTable) (cs : List Child) : Prop :=
  ∀ c ∈ cs, c.registered = true → c.status = .stopped true →
    ∃ j ∈ t.jobs, j.pid = c.pid ∧ j.state = .st

/-- At most one child has an event to be reported, and then `SIGCHLD` is pending. -/
structure Prompt (s : State) : Prop where
  tracks : Tracks s
  one : ∀ c ∈ s.children, ∀ d ∈ s.children,
    c.status.reportable = true → d.status.reportable = true → c.pid = d.pid
  pending : ∀ c ∈ s.children, c.status.reportable = true → s.pending = true
  shown : StopsShown s.table s.children

namespace Prompt

variable {s s' : State}

/-- **What is not pending is settled.** -/
theorem settled (h : Prompt s) (hp : s.pending = false) : Settled s := by
  have hnone : ∀ c ∈ s.children, c.status.reportable = false := by
    intro c hc
    cases hr : c.status.reportable with
    | false => rfl
    | true =>
      rw [h.pending c hc hr] at hp
      cases hp
  refine ⟨fun c hc _ => ?_, fun pid hpid => mem_registered.mp ((h.tracks.pids pid).mp hpid),
    fun c hc hr r hst => ?_⟩
  · have hrep := hnone c hc
    cases hst : c.status with
    | exited | signaled =>
      rw [hst] at hrep
      cases hrep
    | running | stopped => rfl
  · have hrep := hnone c hc
    cases r with
    | false =>
      rw [hst] at hrep
      cases hrep
    | true => exact h.shown c hc hr hst

/-- Nobody can be reported. -/
theorem of_none (h : Tracks s) (hnone : ∀ c ∈ s.children, c.status.reportable = false)
    (hshown : StopsShown s.table s.children) : Prompt s := by
  refine ⟨h, fun c hc _ _ hr _ => ?_, fun c hc hr => ?_, hshown⟩
  · rw [hnone c hc] at hr
    cases hr
  · rw [hnone c hc] at hr
    cases hr

theorem childEvent (h : Prompt s) {pid : ℤ} {guard : Status → Bool} {status : Status}
    (hne : status ≠ .stopped true)
    (halone : status.reportable = true →
      ∀ c ∈ s.children, c.status.reportable = true → c.pid = pid)
    (e : s.childEvent pid guard status = some s') : Prompt s' := by
  have htracks := h.tracks.childEvent hne e
  obtain ⟨-, e⟩ := Option.ite_none_right_eq_some.mp e
  obtain rfl : { s with children := setStatus pid status s.children, pending := true } = s' :=
    Option.some.inj e
  -- who can be reported afterwards could be before, or is `pid`
  have hrep : ∀ c ∈ setStatus pid status s.children, c.status.reportable = true →
      c.pid = pid ∧ status.reportable = true ∨
        ∃ d ∈ s.children, d.pid = c.pid ∧ d.status.reportable = true := by
    intro c hc hr
    obtain ⟨d, hd, hp, -, hs⟩ := mem_setStatus.mp hc
    rw [hs] at hr
    split at hr
    · rename_i hdp
      exact .inl ⟨hp.symm.trans hdp, hr⟩
    · exact .inr ⟨d, hd, hp, hr⟩
  refine ⟨htracks, fun c hc d hd hcr hdr => ?_, fun _ _ _ => rfl, fun c hc hr hst => ?_⟩
  · rcases hrep c hc hcr with ⟨hcp, hs⟩ | ⟨c', hc', hcp, hcr'⟩ <;>
      rcases hrep d hd hdr with ⟨hdp, hs'⟩ | ⟨d', hd', hdp, hdr'⟩
    · exact hcp.trans hdp.symm
    · exact hcp.trans ((halone hs d' hd' hdr').symm.trans hdp)
    · exact hcp.symm.trans ((halone hs' c' hc' hcr').trans hdp.symm)
    · exact hcp.symm.trans ((h.one c' hc' d' hd' hcr' hdr').trans hdp)
  · obtain ⟨d, hd, hp, hdr, hs⟩ := mem_setStatus.mp hc
    rw [hst] at hs
    split at hs
    · exact absurd hs.symm hne
    · obtain ⟨j, hj, hjp, hjs⟩ := h.shown d hd (hdr.trans hr) hs.symm
      exact ⟨j, hj, hjp.trans hp, hjs⟩

/-- **The one `waitpid` reports the one event.** -/
theorem handle (h : Prompt s) (hb : s.blocked = false) {r : Option ℤ}
    (e : s.handle r = some s') : Prompt s' := by
  have htracks := h.tracks.handle hb e
  cases r with
  | none =>
    obtain ⟨hnone, rfl⟩ := handle_none e
    refine ⟨htracks, h.one, fun c hc hr => ?_, h.shown⟩
    rw [hnone c hc] at hr
    cases hr
  | some pid =>
    have hpids := h.tracks.pids
    obtain ⟨c, hc, rfl, hcases⟩ := handle_some e
    have hcr : c.status.reportable = true := by
      rcases hcases with ⟨hterm, -⟩ | ⟨hst, -⟩
      · cases hst : c.status with
        | exited | signaled => rfl
        | running | stopped =>
          rw [hst] at hterm
          cases hterm
      · rw [hst]
        rfl
    -- nobody else can be reported
    have hothers : ∀ d ∈ s.children, d.pid ≠ c.pid → d.status.reportable = false := by
      intro d hd hne
      cases hdr : d.status.reportable with
      | false => rfl
      | true => exact absurd (h.one d hd c hc hdr hcr) hne
    obtain ⟨hterm, rfl⟩ | ⟨-, rfl⟩ := hcases
    · obtain ⟨-, -, hkeep⟩ := sigchldHandler_terminated h.tracks.ok (h.tracks.pos c hc) hterm
      have hnone : ∀ d ∈ s.children.filter fun d => decide (d.pid ≠ c.pid),
          d.status.reportable = false := by
        intro d hd
        obtain ⟨hd, hne⟩ := List.mem_filter.mp hd
        exact hothers d hd (of_decide_eq_true hne)
      refine of_none htracks hnone fun d hd hr hst => ?_
      obtain ⟨hd, hne⟩ := List.mem_filter.mp hd
      obtain ⟨j, hj, hjp, hjs⟩ := h.shown d hd hr hst
      exact ⟨j, hkeep j hj (hjp ▸ of_decide_eq_true hne), hjp, hjs⟩
    · obtain ⟨-, -, hst, hkeep⟩ :=
        sigchldHandler_stopped h.tracks.ok (h.tracks.pos c hc) false
      have hnone : ∀ d ∈ setStatus c.pid (.stopped true) s.children,
          d.status.reportable = false := by
        intro d hd
        obtain ⟨d', hd', hp, -, hs⟩ := mem_setStatus.mp hd
        rw [hs]
        split
        · rfl
        · rename_i hne
          exact hothers d' hd' hne
      refine of_none htracks hnone fun d hd hr hs => ?_
      obtain ⟨d', hd', hp, hdr, hs'⟩ := mem_setStatus.mp hd
      by_cases hpid : d'.pid = c.pid
      · have hmem : c.pid ∈ s.table.pids :=
          (hpids c.pid).mpr (mem_registered.mpr ⟨d', hd', hpid, hdr.trans hr⟩)
        obtain ⟨j, hj, hjp, hjs⟩ := hst hmem
        exact ⟨j, hj, hjp.trans (hpid.symm.trans hp), hjs⟩
      · rw [if_neg hpid, hs] at hs'
        obtain ⟨j, hj, hjp, hjs⟩ := h.shown d' hd' (hdr.trans hr) hs'.symm
        exact ⟨j, hkeep j hj (hjp ▸ hpid), hjp.trans hp, hjs⟩

theorem main (h : Prompt s) {forked : ℤ} (e : s.main forked = some s') : Prompt s' := by
  have htracks := h.tracks.main e
  have hpc := h.tracks.pc
  rw [PcOk] at hpc
  obtain ⟨b, pc, rfl, -⟩ | ⟨bg, cmdline, -, -, -, rfl⟩ | ⟨bg, cmdline, pid, hcase, rfl⟩ :=
    main_cases e
  · exact ⟨htracks, h.one, h.pending, h.shown⟩
  · refine ⟨htracks, fun c hc d hd hcr hdr => ?_, fun c hc hr => ?_, fun c hc hr hst => ?_⟩
    · rcases List.mem_cons.mp hc with rfl | hc
      · cases hcr
      rcases List.mem_cons.mp hd with rfl | hd
      · cases hdr
      exact h.one c hc d hd hcr hdr
    · rcases List.mem_cons.mp hc with rfl | hc
      · cases hr
      · exact h.pending c hc hr
    · rcases List.mem_cons.mp hc with rfl | hc
      · cases hst
      · exact h.shown c hc hr hst
  · rw [hcase] at hpc
    obtain ⟨hb, c₀, hc₀, rfl, hr₀, hs₀⟩ := hpc
    refine ⟨htracks, fun c hc d hd hcr hdr => ?_, fun c hc hr => ?_, fun c hc hr hst => ?_⟩
    · obtain ⟨c', hc', hcp, hcs, -⟩ := mem_setRegistered.mp hc
      obtain ⟨d', hd', hdp, hds, -⟩ := mem_setRegistered.mp hd
      exact hcp.symm.trans ((h.one c' hc' d' hd' (hcs ▸ hcr) (hds ▸ hdr)).trans hdp)
    · obtain ⟨c', hc', -, hcs, -⟩ := mem_setRegistered.mp hc
      exact h.pending c' hc' (hcs ▸ hr)
    · obtain ⟨d, hd, hp, hs, hdr⟩ := mem_setRegistered.mp hc
      have hne : d.pid ≠ c₀.pid := by
        intro he
        obtain rfl := List.inj_on_of_nodup_map h.tracks.nodup hd hc₀ he
        exact hs₀ (hs.trans hst)
      rw [if_neg hne, hr] at hdr
      obtain ⟨j, hj, hjp, hjs⟩ := h.shown d hd hdr.symm (hs.trans hst)
      refine ⟨j, ?_, hjp.trans hp, hjs⟩
      have hj0 : j.pid ≠ 0 := by
        have := h.tracks.pos d hd
        omega
      rcases JobTable.addjob_spec h.tracks.ok (h.tracks.pos c₀ hc₀) (h.tracks.notMem_pids hc₀ hr₀)
        (if bg then .bg else .fg) cmdline with hadd | ⟨t', hadd, -, -, hkeep⟩
      · rw [hadd]
        exact hj
      · rw [hadd]
        exact hkeep j hj hj0

/-- **One step keeps the events in order**, as long as they come one at a time. -/
theorem next (h : Prompt s) {a : Action} (hone : oneAtATime s a = true)
    (e : s.next a = some s') : Prompt s' := by
  have halone : ∀ pid : ℤ, (s.children.all fun c => decide (c.pid = pid) || !c.status.reportable)
      = true → ∀ c ∈ s.children, c.status.reportable = true → c.pid = pid := by
    intro pid hall c hc hr
    have := List.all_eq_true.mp hall c hc
    simpa [hr] using this
  cases a with
  | command bg cmdline =>
    have htracks := h.tracks.next e
    obtain ⟨-, e⟩ := Option.ite_none_right_eq_some.mp e
    cases e
    exact ⟨htracks, h.one, h.pending, h.shown⟩
  | main forked => exact h.main e
  | stop pid | exit pid | kill pid =>
    rw [State.next] at e
    exact h.childEvent (by simp) (fun _ => halone pid hone) e
  | cont pid =>
    rw [State.next] at e
    exact h.childEvent (by simp) (fun hr => absurd hr (by decide)) e
  | handler r =>
    obtain ⟨hrun, e⟩ := Option.ite_none_right_eq_some.mp e
    exact h.handle hrun.2 e

end Prompt

theorem prompt_inductive : machine.Inductive (fun s a => oneAtATime s a = true) Prompt where
  init := by
    rintro _ rfl
    exact ⟨.init, nofun, nofun, nofun⟩
  step := fun h hone e => h.next hone e

/-- **No child event is lost** in the runs in which the events come one at a time:
whenever `SIGCHLD` is not pending, every event has been handled. -/
theorem events_handled {s : State}
    (hs : machine.ReachWhen (fun s a => oneAtATime s a = true) s) (hp : s.pending = false) :
    Settled s :=
  (prompt_inductive.holds hs).settled hp

/-- A command runs in the background. -/
def startBackground (pid : ℤ) : List Action :=
  [.command true [97], .main 0, .main pid, .main 0, .main 0, .main 0]

/-- The last of four children stops before its `addjob`; then another one exits, one stops and
goes on, and one is killed. -/
theorem events_handled_run : ∃ s : State,
    s.children = [⟨103, .stopped true, true⟩, ⟨100, .running, true⟩] ∧
      s.table.pids = [100, 103] ∧ Settled s := by
  have hrun : ((run oneAtATime
      (startBackground 100 ++ startBackground 101 ++ startBackground 102 ++
        [.command true [98], .main 0, .main 103, .stop 103, .main 0, .main 0,
          .handler (some 103), .main 0, .exit 101, .handler (some 101), .stop 100,
          .handler (some 100), .cont 100, .handler none, .kill 102,
          .handler (some 102)])).any fun s =>
          s.children = [⟨103, .stopped true, true⟩, ⟨100, .running, true⟩] ∧
            s.table.pids = [100, 103] ∧ s.pending = false) = true := by
    decide +kernel
  obtain ⟨s, e, hs⟩ := (Option.any_eq_true ..).mp hrun
  obtain ⟨hchildren, hpids, hpending⟩ := of_decide_eq_true hs
  exact ⟨s, hchildren, hpids, events_handled (run_reach e) hpending⟩

/-- Two background jobs exit before the handler runs: it reaps one of them, and the
signal is no longer pending. -/
theorem events_merged : ¬∀ s : State, machine.Reach s → s.pending = false →
    s.blocked = false → Settled s := by
  intro h
  have hrun : ((run (fun _ _ => true) (startBackground 100 ++ startBackground 101 ++
      [.exit 100, .exit 101, .handler (some 100)])).any fun s =>
        s.children = [⟨101, .exited, true⟩] ∧ s.pending = false ∧ s.blocked = false) = true := by
    decide +kernel
  obtain ⟨s, e, hs⟩ := (Option.any_eq_true ..).mp hrun
  simp only [decide_eq_true_eq] at hs
  have hsettled := h s (run_reach e).reach hs.2.1 hs.2.2
  have hreaped := hsettled.reaped ⟨101, .exited, true⟩ (by simp [hs.1]) rfl
  cases hreaped

end Shell

end SysProgLab
