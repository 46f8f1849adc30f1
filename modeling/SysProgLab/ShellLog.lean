import SysProgLab.JobIds
import SysProgLab.ShellForeground

/-!
# The log message of a background job

`eval` looks the new job up again for its message, after `SIGCHLD` has been unblocked. The
message is the pair that `addjob` assigned as long as `addjob` found a free slot and
`sigchld_handler` does not reap the child before the message is printed. What `addjob`
assigned is remembered beside the shell.
-/

namespace SysProgLab

/-- The job id and the pid in `printf("[%d] (%d) %s",getjobpid(jobs,pid)->jid,pid,cmdline)`;
`none` is a job that is followed through `NULL`. -/
def JobTable.logPair (t : JobTable) (pid : ℤ) : Option (ℤ × ℤ) := do
  let i ← t.getjobpid pid
  let job ← t.jobs[i]?
  some (job.jid, pid)

namespace Shell

/-- The shell, and the job id that the last `addjob` of `eval` assigned. -/
structure Logging : Type where
  /-- the shell with `bg` and `fg` -/
  session : Session
  /-- `jobs[i].jid = nextjid++`, if there was a free slot -/
  assigned : Option ℤ
  deriving DecidableEq

/-- What `addjob` assigns if it is called in the step. -/
def Logging.assign (s : Logging) : Step → Option ℤ
  | .shell (.main _) =>
    match s.session.shell.pc with
    | .add bg cmdline pid =>
      if (s.session.shell.table.addjob pid (if bg then .bg else .fg) cmdline).1 then
        some s.session.shell.table.nextjid
      else none
    | _ => s.assigned
  | _ => s.assigned

/-- One step. -/
def Logging.next (s : Logging) (a : Step) : Option Logging :=
  (s.session.next a).map fun t => ⟨t, s.assign a⟩

/-- The runs of the shell with what `addjob` assigned. -/
def logging : Machine Logging Step where
  init s := s = ⟨⟨init, none⟩, none⟩
  step s a s' := s.next a = some s'

/-- The background job that `eval` has added and is about to report. -/
def Pc.started : Pc → Option ℤ
  | .unblock true pid | .report pid => some pid
  | _ => none

/-- **The job can be reported**: from `addjob` to the log message, the look-up of the
message finds the job and its pair is the one that `addjob` assigned. -/
def Logging.Reports (s : Logging) : Prop :=
  ∀ pid, s.session.shell.pc.started = some pid →
    ∃ jid, s.assigned = some jid ∧ s.session.shell.table.logPair pid = some (jid, pid)

/-- **The condition**: `addjob` of a background job finds a free slot, and the handler
does not reap the job that is to be reported. -/
def reportable (s : Session) : Step → Bool
  | .shell (.main _) =>
    match s.shell.pc with
    | .add true _ _ => s.shell.table.jobs.any fun j => decide (j.pid = 0)
    | _ => true
  | .shell (.handler (some p)) =>
    decide (s.shell.pc.started ≠ some p) ||
      !s.shell.children.any fun c => decide (c.pid = p) && c.status.terminated
  | _ => true

/-! ## The look-up of the message -/

variable {t : JobTable} {p pid jid : ℤ} {j : Job} {S S' : State} {s s' : Logging}

theorem logPair_of_mem (h : t.Ok) (hpos : 1 ≤ pid) (hj : j ∈ t.jobs) (hjp : j.pid = pid) :
    t.logPair pid = some (j.jid, pid) := by
  have hmem : pid ∈ t.pids := JobTable.mem_pids.mpr ⟨by omega, j, hj, hjp⟩
  obtain ⟨i, hi⟩ := JobTable.getjobpid_isSome hpos hmem
  obtain ⟨-, k, hk, hkp⟩ := slot_of_getjobpid hi
  obtain ⟨l, hl⟩ := List.mem_iff_getElem?.mp hj
  obtain rfl := h.slot_unique hl hk (hjp.trans hkp.symm) (by omega)
  rw [JobTable.logPair, hi, Option.bind_eq_bind, Option.bind_some, hl]
  rfl

theorem mem_of_logPair {r : ℤ × ℤ} (h : t.logPair pid = some r) : pid ∈ t.pids := by
  obtain ⟨i, hi, -⟩ := Option.bind_eq_some_iff.mp h
  obtain ⟨h0, j, hj, hjp⟩ := slot_of_getjobpid hi
  exact JobTable.mem_pids.mpr ⟨h0, j, List.mem_of_getElem? hj, hjp⟩

/-- A child that has not terminated keeps its entry when the handler reports it. -/
theorem sigchldHandler_jids (t : JobTable) (p : ℤ) (r : Bool) :
    (sigchldHandler t p (.stopped r)).jobs.map (fun j => (j.pid, j.jid)) =
      t.jobs.map fun j => (j.pid, j.jid) := by
  rw [sigchldHandler]
  split
  · split
    · rfl
    · exact JobTable.map_setState (fun _ _ => rfl) t _ .st
  · rfl

/-! ## The invariant -/

/-- The entry of the job that `eval` is about to report, and `SIGCHLD` is blocked until the
message is next. -/
structure Entry (S : State) (assigned : Option ℤ) : Prop where
  blocked : ∀ pid, S.pc = .unblock true pid → S.blocked = true
  entry : ∀ pid, S.pc.started = some pid →
    1 ≤ pid ∧ ∃ j ∈ S.table.jobs, j.pid = pid ∧ assigned = some j.jid

namespace Entry

variable {g : Option ℤ}

/-- There is no such job. -/
theorem of_none (h : S.pc.started = none) (g : Option ℤ) : Entry S g where
  blocked := fun pid hpc => by
    rw [hpc] at h
    cases h
  entry := fun pid hpid => by
    rw [h] at hpid
    cases hpid

/-- A step that keeps the pids and the ids. -/
theorem of_map (h : Entry S g) (hpc : S'.pc = S.pc) (hblocked : S'.blocked = S.blocked)
    (hmap : S'.table.jobs.map (fun j => (j.pid, j.jid)) =
      S.table.jobs.map fun j => (j.pid, j.jid)) : Entry S' g := by
  refine ⟨?_, fun pid hpid => ?_⟩
  · rw [hpc, hblocked]
    exact h.blocked
  · rw [hpc] at hpid
    obtain ⟨hpos, j, hj, hjp, hg⟩ := h.entry pid hpid
    have hmem := List.mem_map_of_mem (f := fun j : Job => (j.pid, j.jid)) hj
    rw [← hmap] at hmem
    obtain ⟨k, hk, he⟩ := List.mem_map.mp hmem
    obtain ⟨hkp, hkj⟩ := Prod.mk.inj he
    exact ⟨hpos, k, hk, hkp.trans hjp, hkj ▸ hg⟩

/-- The handler runs, and does not reap the job. -/
theorem handle (h : Entry S g) (htracks : Tracks S) {r : Option ℤ} (hb : S.blocked = false)
    (hcond : reportable ⟨S, none⟩ (.shell (.handler r)) = true) (e : S.handle r = some S') :
    Entry S' g := by
  cases r with
  | none =>
    obtain ⟨-, rfl⟩ := handle_none e
    exact h.of_map rfl rfl rfl
  | some p =>
    obtain ⟨c, hc, rfl, ⟨hterm, rfl⟩ | ⟨-, rfl⟩⟩ := handle_some e
    · refine ⟨fun pid hpc => ?_, fun pid hpid => ?_⟩
      · have := h.blocked pid hpc
        rw [hb] at this
        cases this
      · obtain ⟨hpos, j, hj, hjp, hg⟩ := h.entry pid hpid
        have hne : c.pid ≠ pid := by
          rintro rfl
          have hreaps : (S.children.any fun d => decide (d.pid = c.pid) && d.status.terminated) =
              true := List.any_eq_true.mpr ⟨c, hc, by simp [hterm]⟩
          rw [reportable, hreaps] at hcond
          dsimp only at hpid hcond
          rw [hpid] at hcond
          simp at hcond
        obtain ⟨-, -, hkeep⟩ := sigchldHandler_terminated htracks.ok (htracks.pos c hc) hterm
        exact ⟨hpos, j, hkeep j hj (hjp ▸ hne.symm), hjp, hg⟩
    · exact h.of_map rfl rfl (sigchldHandler_jids S.table c.pid false)

/-- A statement of `eval`: `addjob` makes the entry. -/
theorem main (h : Entry S g) (htracks : Tracks S) {b : Option BgfgPc} {forked : ℤ}
    (hcond : reportable ⟨S, b⟩ (.shell (.main forked)) = true) (e : S.main forked = some S') :
    Entry S' ((Logging.mk ⟨S, b⟩ g).assign (.shell (.main forked))) := by
  rw [State.main] at e
  cases hpc : S.pc with
  | ready =>
    rw [hpc] at e
    cases e
  | block bg cmdline =>
    rw [hpc] at e
    cases e
    exact .of_none rfl _
  | fork bg cmdline =>
    rw [hpc] at e
    dsimp only at e
    split at e
    · cases e
      exact .of_none rfl _
    split at e
    · cases e
    · cases e
      exact .of_none rfl _
  | add bg cmdline pid =>
    have hadd := htracks.pc
    rw [PcOk, hpc] at hadd
    obtain ⟨hblocked, c, hc, hcp, -⟩ := hadd
    have hpos : 1 ≤ pid := hcp ▸ htracks.pos c hc
    rw [hpc] at e
    cases e
    cases bg with
    | false => exact .of_none rfl _
    | true =>
      refine ⟨fun _ _ => hblocked, fun p hp => ?_⟩
      obtain rfl : pid = p := Option.some.inj hp
      have hfree : ∃ j ∈ S.table.jobs, j.pid = 0 := by
        rw [reportable, hpc] at hcond
        simpa using hcond
      simp only [Logging.assign, hpc]
      obtain ⟨-, hfull⟩ | ⟨l, j, r, -, -, hadd⟩ := S.table.addjob_cases hpos .bg cmdline
      · obtain ⟨j, hj, hj0⟩ := hfree
        exact absurd hj0 (hfull j hj)
      · simp only [if_true, hadd]
        exact ⟨hpos, _, List.mem_append_right l List.mem_cons_self, rfl, rfl⟩
  | unblock bg pid =>
    rw [hpc] at e
    cases e
    cases bg with
    | false => exact .of_none rfl _
    | true =>
      have hentry := h.entry pid (by rw [hpc]; rfl)
      refine ⟨fun _ hun => Pc.noConfusion hun, fun p hp => ?_⟩
      obtain rfl : pid = p := Option.some.inj hp
      simp only [Logging.assign, hpc]
      exact hentry
  | wait pid =>
    rw [hpc] at e
    dsimp only at e
    split at e
    · cases e
      exact .of_none rfl _
    split at e
    · cases e
      exact .of_none (by rw [hpc]; rfl) _
    · cases e
      exact .of_none rfl _
  | report pid =>
    rw [hpc] at e
    dsimp only at e
    split at e
    · cases e
    · cases e
      exact .of_none rfl _

end Entry

/-- What holds between two statements. -/
structure Announced (s : Logging) : Prop where
  tracks : Tracks s.session.shell
  idle : s.session.point ≠ none → s.session.shell.pc = .ready
  entry : Entry s.session.shell s.assigned

namespace Announced

theorem init : Announced ⟨⟨Shell.init, none⟩, none⟩ where
  tracks := .init
  idle := fun h => absurd rfl h
  entry := .of_none rfl _

/-- **The invariant says what is asked for.** -/
theorem reports (h : Announced s) : s.Reports := by
  intro pid hpid
  obtain ⟨hpos, j, hj, hjp, hg⟩ := h.entry.entry pid hpid
  exact ⟨j.jid, hg, logPair_of_mem h.tracks.ok hpos hj hjp⟩

/-- A step of the shell. -/
theorem shell {b : Option BgfgPc} {g : Option ℤ} (h : Announced ⟨⟨S, b⟩, g⟩) {act : Action}
    (hcond : reportable ⟨S, b⟩ (.shell act) = true) (e : S.next act = some S') :
    Entry S' ((Logging.mk ⟨S, b⟩ g).assign (.shell act)) := by
  cases act with
  | command bg cmdline =>
    obtain ⟨-, e⟩ := Option.ite_none_right_eq_some.mp e
    cases e
    exact .of_none rfl _
  | main forked => exact h.entry.main h.tracks hcond e
  | stop pid | cont pid | exit pid | kill pid =>
    obtain ⟨-, e⟩ := Option.ite_none_right_eq_some.mp e
    cases e
    exact h.entry.of_map rfl rfl rfl
  | handler r =>
    obtain ⟨⟨-, hb⟩, e⟩ := Option.ite_none_right_eq_some.mp e
    exact h.entry.handle h.tracks hb hcond e

/-- **One step keeps the invariant.** -/
theorem next (h : Announced s) {a : Step} (hcond : reportable s.session a = true)
    (e : s.next a = some s') : Announced s' := by
  obtain ⟨⟨S, b⟩, g⟩ := s
  obtain ⟨t, ht, rfl⟩ := Option.map_eq_some_iff.mp e
  rcases Session.next_cases ht with ⟨act, S', rfl, hS', rfl, hkeep⟩ | ⟨fg, arg, rfl, hpc, hshell⟩ |
    ⟨pt, rfl, hpoint, hstep⟩
  · refine ⟨h.tracks.next hS', fun hne => ?_, h.shell hcond hS'⟩
    exact (hkeep.resolve_left hne).trans (h.idle hne)
  · have hnone : t.shell.pc.started = none := by
      rw [hshell]
      dsimp only at hpc ⊢
      rw [hpc]
      rfl
    refine ⟨?_, fun _ => ?_, .of_none hnone _⟩
    · dsimp only
      rw [hshell]
      exact h.tracks
    · dsimp only
      rw [hshell]
      exact hpc
  · have hready : S.pc = .ready := h.idle (by rw [hpoint]; nofun)
    have hpc := bgfg_idle hready hstep
    refine ⟨h.tracks.bgfg hstep, fun hne => hpc.resolve_right fun hend => hne hend.1,
      .of_none ?_ _⟩
    rcases hpc with hready' | ⟨-, pid, hwait⟩
    · exact congrArg Pc.started hready'
    · exact congrArg Pc.started hwait

end Announced

/-! ## Runs -/

theorem logging_inductive :
    logging.Inductive (fun s a => reportable s.session a = true) Announced where
  init := by
    rintro _ rfl
    exact .init
  step := fun h hcond e => h.next hcond e

/-- A job that `addjob` has refused cannot be reported. -/
theorem Announced.free_slot {b : Option BgfgPc} {g g' : Option ℤ} (h : Announced ⟨⟨S, b⟩, g⟩)
    {cmdline : List UInt8} (hpc : S.pc = .add true cmdline pid) {forked : ℤ}
    (e : S.main forked = some S') (hreports : Logging.Reports ⟨⟨S', b⟩, g'⟩) :
    ∃ j ∈ S.table.jobs, j.pid = 0 := by
  have hadd := h.tracks.pc
  rw [PcOk, hpc] at hadd
  obtain ⟨-, c, hc, rfl, hreg, -⟩ := hadd
  rw [State.main, hpc] at e
  cases e
  obtain ⟨hrefused, -⟩ | ⟨l, j, r, he, hj0, -⟩ :=
    S.table.addjob_cases (h.tracks.pos c hc) .bg cmdline
  · obtain ⟨jid, -, hpair⟩ := hreports c.pid rfl
    simp only [if_true, hrefused] at hpair
    exact absurd (mem_of_logPair hpair) (h.tracks.notMem_pids hc hreg)
  · exact ⟨j, he ▸ List.mem_append_right l List.mem_cons_self, hj0⟩

/-- A job that has been reaped cannot be reported. -/
theorem Announced.not_reaped {b : Option BgfgPc} {g g' : Option ℤ} (h : Announced ⟨⟨S, b⟩, g⟩)
    (hstarted : S.pc.started = some p) (e : S.handle (some p) = some S')
    (hreports : Logging.Reports ⟨⟨S', b⟩, g'⟩) :
    ∀ c ∈ S.children, c.pid = p → c.status.terminated = false := by
  intro c hc hcp
  obtain ⟨jid, -, hpair⟩ := hreports p ((congrArg Pc.started (handle_pc e)).trans hstarted)
  obtain ⟨d, hd, hdp, ⟨hterm, rfl⟩ | ⟨hstopped, -⟩⟩ := handle_some e
  · obtain ⟨-, hpids, -⟩ :=
      sigchldHandler_terminated h.tracks.ok (hdp ▸ h.tracks.pos d hd) hterm
    exact absurd rfl ((hpids p).mp (mem_of_logPair hpair)).2
  · obtain rfl := List.inj_on_of_nodup_map h.tracks.nodup hc hd (hcp.trans hdp.symm)
    rw [hstopped]
    rfl

/-- **Only such a step leaves a job that can be reported.** -/
theorem Announced.reportable (h : Announced s) {a : Step} (e : s.next a = some s')
    (hreports : s'.Reports) : Shell.reportable s.session a = true := by
  obtain ⟨⟨S, b⟩, g⟩ := s
  obtain ⟨t, ht, rfl⟩ := Option.map_eq_some_iff.mp e
  rcases Session.next_cases ht with ⟨act, S', rfl, hS', rfl, -⟩ | ⟨fg, arg, rfl, -⟩ | ⟨pt, rfl, -⟩
  · cases act with
    | command | stop | cont | exit | kill => rfl
    | main forked =>
      rw [Shell.reportable]
      cases hpc : S.pc with
      | add bg cmdline pid =>
        cases bg with
        | false => rfl
        | true => simpa using h.free_slot hpc hS' hreports
      | _ => rfl
    | handler r =>
      cases r with
      | none => rfl
      | some p =>
        obtain ⟨-, hS'⟩ := Option.ite_none_right_eq_some.mp hS'
        rw [Shell.reportable, Bool.or_eq_true, decide_eq_true_eq]
        by_cases hstarted : S.pc.started = some p
        · right
          simpa using h.not_reaped hstarted hS' hreports
        · exact .inl hstarted
  · rfl
  · rfl

/-- **Every background job is reported as `addjob` made it** in the runs in which `addjob`
finds a free slot and the handler does not reap the job before the message, and the first
step of another kind leaves a job that cannot be reported. -/
theorem log_message {s : Logging}
    (hs : logging.ReachWhen (fun s a => reportable s.session a = true) s) :
    s.Reports ∧ ∀ a s', logging.step s a s' → (s'.Reports ↔ reportable s.session a = true) := by
  have h := logging_inductive.holds hs
  refine ⟨h.reports, fun a s' e => ⟨fun hr => h.reportable e hr, fun hcond => ?_⟩⟩
  exact (h.next hcond e).reports

/-- The state after the steps `as`, all of which meet `P`. -/
def runLogging (P : Session → Step → Bool) (as : List Step) : Option Logging :=
  Machine.exec (fun s a => if P s.session a = true then s.next a else none)
    ⟨⟨Shell.init, none⟩, none⟩ as

theorem runLogging_reach {P : Session → Step → Bool} {as : List Step} {s : Logging}
    (h : runLogging P as = some s) : logging.ReachWhen (fun s a => P s.session a = true) s :=
  Machine.ReachWhen.exec (fun _ _ _ hnext => Option.ite_none_right_eq_some.mp hnext) (.init rfl) h

/-- A command is started in the background, up to `addjob`. -/
def startJob : List Step :=
  [.shell (.command true [97]), .shell (.main 0), .shell (.main 100), .shell (.main 0)]

/-- It is reported as job 1. -/
theorem log_message_run : ∃ s : Logging, s.session.shell.pc = .report 100 ∧
    s.session.shell.table.logPair 100 = some (1, 100) ∧ s.Reports := by
  have hrun : ((runLogging reportable (startJob ++ [.shell (.main 0)])).any fun s =>
      s.session.shell.pc = .report 100 ∧ s.session.shell.table.logPair 100 = some (1, 100)) =
        true := by
    decide +kernel
  obtain ⟨s, e, hs⟩ := (Option.any_eq_true ..).mp hrun
  simp only [decide_eq_true_eq] at hs
  exact ⟨s, hs.1, hs.2, (log_message (runLogging_reach e)).1⟩

/-- The child exits before `SIGCHLD` is unblocked, and the handler reaps it before the
message. -/
theorem log_message_null : ¬∀ s : Logging, logging.Reach s → s.Reports := by
  intro h
  have hrun : ((runLogging (fun _ _ => true) (startJob ++
      [.shell (.exit 100), .shell (.main 0), .shell (.handler (some 100))])).any fun s =>
        s.session.shell.pc = .report 100 ∧ s.session.shell.table.logPair 100 = none) = true := by
    decide +kernel
  obtain ⟨s, e, hs⟩ := (Option.any_eq_true ..).mp hrun
  simp only [decide_eq_true_eq] at hs
  obtain ⟨hpc, hnone⟩ := hs
  obtain ⟨jid, -, hpair⟩ := h s (runLogging_reach e).reach 100 (congrArg Pc.started hpc)
  rw [hnone] at hpair
  cases hpair

end Shell

end SysProgLab
