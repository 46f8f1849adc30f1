import SysProgLab.JobTable
import SysProgLab.Machine

/-!
# Job ids

`addjob` takes the next job id from `nextjid`, which wraps to 1 once it is above
`MAXJOBS`; `deletejob` sets it to one more than the largest id in use. After a
wrap `nextjid` may be the id of a job that is still in the table. Calls of
`addjob` that avoid this are exactly the ones that keep the ids unique.
-/

namespace SysProgLab

/-- `INT_MAX` -/
abbrev intMax : ℤ := 2147483647

/-- A call on the table. -/
inductive TableOp : Type where
  | addjob (pid : ℤ) (state : JobState) (cmdline : List UInt8)
  | deletejob (pid : ℤ)

namespace JobTable

variable {t t' : JobTable} {pid : ℤ}

/-- The occupied slots. -/
def occupied (t : JobTable) : List Job := t.jobs.filter fun j => decide (j.pid ≠ 0)

/-- The job ids of the occupied slots, slot by slot. -/
def jids (t : JobTable) : List ℤ := t.occupied.map Job.jid

/-- The table after a call. -/
def call (t : JobTable) : TableOp → JobTable
  | .addjob pid state cmdline => (t.addjob pid state cmdline).2
  | .deletejob pid => (t.deletejob pid).2

/-- The pid of a new job is not in the table. -/
def NewPid (t : JobTable) : TableOp → Prop
  | .addjob pid _ _ => pid ∉ t.pids
  | .deletejob _ => True

/-- **The condition**: an `addjob` that finds a free slot is made when `nextjid` is
not the id of a job, and `nextjid++` does not overflow. -/
def FreshJid (t : JobTable) : TableOp → Prop
  | .addjob pid _ _ =>
    1 ≤ pid → (∃ j ∈ t.jobs, j.pid = 0) → t.nextjid ∉ t.jids ∧ t.nextjid < intMax
  | .deletejob _ => True

/-- No two occupied slots have the same job id, job ids are positive, and a job is
found in the same slot by its job id and by its pid. -/
structure UniqueJids (t : JobTable) : Prop where
  nodup : t.jids.Nodup
  pos : ∀ j ∈ t.jobs, j.pid ≠ 0 → 1 ≤ j.jid
  same_slot : ∀ j ∈ t.jobs, j.pid ≠ 0 →
    ∃ i, t.getjobjid j.jid = some i ∧ t.getjobpid j.pid = some i

/-- `nextjid` and every `maxjid + 1` fit in an `int`. -/
structure FitsInt (t : JobTable) : Prop where
  jids : ∀ j ∈ t.jobs, j.jid < intMax
  next : t.nextjid ≤ intMax

end JobTable

/-- **The job table**, from `initjobs`, under any calls of `addjob` with a pid that
is not in the table and any calls of `deletejob`. -/
def jobTable : Machine JobTable TableOp where
  init t := t = JobTable.initjobs
  step t op t' := t.NewPid op ∧ t' = t.call op

namespace JobTable

variable {t t' : JobTable} {pid : ℤ}

/-! ## Keys -/

theorem mem_occupied {j : Job} : j ∈ t.occupied ↔ j ∈ t.jobs ∧ j.pid ≠ 0 := by
  simp [occupied]

theorem mem_jids {jid : ℤ} : jid ∈ t.jids ↔ ∃ j ∈ t.jobs, j.pid ≠ 0 ∧ j.jid = jid := by
  simp [jids, mem_occupied, and_assoc]

theorem pids_eq_map (t : JobTable) : t.pids = t.occupied.map Job.pid := by
  rw [pids, occupied, List.filter_map]
  rfl

/-- As long as `nextjid` is above every id it is fresh. -/
theorem fresh_of_maxjid_lt (h : maxjid t.jobs < t.nextjid) : t.nextjid ∉ t.jids := by
  intro hmem
  obtain ⟨j, hj, -, hjid⟩ := mem_jids.mp hmem
  have := le_maxjid hj
  omega

/-- **After `deletejob` has cleared a slot, the next id is fresh.** -/
theorem deletejob_fresh (hpos : 1 ≤ pid) (hmem : pid ∈ t.pids) :
    (t.deletejob pid).2.nextjid ∉ (t.deletejob pid).2.jids := by
  obtain ⟨-, hnot⟩ | ⟨a, j, b, -, -, hdel⟩ := t.deletejob_cases hpos
  · exact absurd hmem hnot
  · rw [hdel]
    exact fresh_of_maxjid_lt (Int.lt_succ _)

/-! ## Look-ups -/

section

variable {i k : ℕ} {j x y : Job} {n : ℤ}

/-- The pids and the job ids are different from each other, and free slots are clear. -/
structure DistinctKeys (t : JobTable) : Prop where
  pids : t.pids.Nodup
  jids : t.jids.Nodup
  pos : ∀ j ∈ t.jobs, j.pid ≠ 0 → 1 ≤ j.pid ∧ 1 ≤ j.jid
  free : ∀ j ∈ t.jobs, j.pid = 0 → j.jid = 0

/-- A key of the occupied slots determines the slot. -/
theorem slot_of_key {f : Job → ℤ} (h : (t.occupied.map f).Nodup) (hx : t.jobs[i]? = some x)
    (hy : t.jobs[k]? = some y) (hx0 : x.pid ≠ 0) (hy0 : y.pid ≠ 0) (he : f x = f y) : i = k := by
  rw [occupied, List.Nodup, List.pairwise_map, List.pairwise_filter] at h
  have hpairs := List.pairwise_iff_getElem.mp h
  obtain ⟨hi, rfl⟩ := List.getElem?_eq_some_iff.mp hx
  obtain ⟨hk, rfl⟩ := List.getElem?_eq_some_iff.mp hy
  rcases lt_trichotomy i k with hlt | heq | hlt
  · exact absurd he (hpairs i k hi hk hlt (by simpa using hx0) (by simpa using hy0))
  · exact heq
  · exact absurd he.symm (hpairs k i hk hi hlt (by simpa using hy0) (by simpa using hx0))

/-- A search finds the only slot that fits. -/
theorem findIdx_of_unique {p : Job → Bool} (hj : t.jobs[i]? = some j) (hp : p j = true)
    (hunique : ∀ k x, t.jobs[k]? = some x → p x = true → k = i) :
    t.jobs.findIdx? p = some i := by
  obtain ⟨hi, rfl⟩ := List.getElem?_eq_some_iff.mp hj
  refine List.findIdx?_eq_some_iff_getElem.mpr ⟨hi, hp, fun k hk hpk => ?_⟩
  exact Nat.ne_of_lt hk (hunique k _ (List.getElem?_eq_getElem (hk.trans hi)) hpk)

theorem slot_of_getjobjid (h : t.getjobjid n = some i) : ∃ j, t.jobs[i]? = some j := by
  rw [getjobjid] at h
  split at h
  · cases h
  · obtain ⟨hi, -⟩ := List.findIdx?_eq_some_iff_getElem.mp h
    exact ⟨_, List.getElem?_eq_getElem hi⟩

namespace DistinctKeys

theorem getjobjid_eq (h : t.DistinctKeys) (hj : t.jobs[i]? = some j) (hj0 : j.pid ≠ 0) :
    t.getjobjid j.jid = some i := by
  have hpos := (h.pos j (List.mem_of_getElem? hj) hj0).2
  rw [getjobjid, if_neg (by omega)]
  refine findIdx_of_unique hj (decide_eq_true rfl) fun k x hx he => ?_
  have he : x.jid = j.jid := of_decide_eq_true he
  have hx0 : x.pid ≠ 0 := by
    intro hx0
    have := h.free x (List.mem_of_getElem? hx) hx0
    omega
  exact slot_of_key h.jids hx hj hx0 hj0 he

theorem getjobpid_eq (h : t.DistinctKeys) (hj : t.jobs[i]? = some j) (hj0 : j.pid ≠ 0) :
    t.getjobpid j.pid = some i := by
  have hpos := (h.pos j (List.mem_of_getElem? hj) hj0).1
  have hnodup := t.pids_eq_map ▸ h.pids
  rw [getjobpid, if_neg (by omega)]
  refine findIdx_of_unique hj (decide_eq_true rfl) fun k x hx he => ?_
  have he : x.pid = j.pid := of_decide_eq_true he
  exact slot_of_key hnodup hx hj (by omega) hj0 he

theorem getjobjid_eq_none (h : t.DistinctKeys) :
    t.getjobjid n = none ↔ ∀ j ∈ t.jobs, j.pid ≠ 0 → j.jid ≠ n := by
  rw [getjobjid]
  split
  · refine iff_of_true rfl fun j hj hj0 he => ?_
    have := (h.pos j hj hj0).2
    omega
  · simp only [List.findIdx?_eq_none_iff, decide_eq_false_iff_not]
    refine forall₂_congr fun j hj => ⟨fun hne _ => hne, fun hne he => ?_⟩
    refine hne (fun hj0 => ?_) he
    have := h.free j hj hj0
    omega

theorem getjobpid_eq_none (h : t.DistinctKeys) :
    t.getjobpid n = none ↔ ∀ j ∈ t.jobs, j.pid ≠ 0 → j.pid ≠ n := by
  rw [getjobpid]
  split
  · refine iff_of_true rfl fun j hj hj0 he => ?_
    have := (h.pos j hj hj0).1
    omega
  · simp only [List.findIdx?_eq_none_iff, decide_eq_false_iff_not]
    refine forall₂_congr fun j hj => ⟨fun hne _ => hne, fun hne he => ?_⟩
    exact hne (fun hj0 => by omega) he

end DistinctKeys

end

/-! ## What the calls keep -/

/-- The pids and the ids of the occupied slots are keys, and a free slot has no id. -/
structure Keyed (t : JobTable) : Prop where
  ok : t.Ok
  pid_pos : ∀ j ∈ t.jobs, j.pid ≠ 0 → 1 ≤ j.pid
  free : ∀ j ∈ t.jobs, j.pid = 0 → j.jid = 0
  nodup : t.jids.Nodup
  fits : t.FitsInt

theorem initjobs_keyed : initjobs.Keyed where
  ok := initjobs_ok
  pid_pos := by decide
  free := by decide
  nodup := by decide
  fits := ⟨by decide, by decide⟩

theorem Keyed.distinctKeys (h : t.Keyed) : t.DistinctKeys where
  pids := h.ok.nodup
  jids := h.nodup
  pos := fun j hj hj0 => ⟨h.pid_pos j hj hj0, h.ok.jid_pos j hj hj0⟩
  free := h.free

/-- **Unique ids select the slot of the pid.** -/
theorem Keyed.uniqueJids (h : t.Keyed) : t.UniqueJids := by
  refine ⟨h.nodup, h.ok.jid_pos, fun j hj hj0 => ?_⟩
  obtain ⟨i, hi⟩ := List.mem_iff_getElem?.mp hj
  exact ⟨i, h.distinctKeys.getjobjid_eq hi hj0, h.distinctKeys.getjobpid_eq hi hj0⟩

/-- After `addjob` fills a slot, `nextjid` is one more id in use. -/
theorem jids_addjob {a b : List Job} {j : Job} {state : JobState} {cmdline : List UInt8}
    {next : ℤ} (he : t.jobs = a ++ j :: b) (hj0 : j.pid = 0) (hpos : 1 ≤ pid) :
    (jids ⟨a ++ ⟨pid, t.nextjid, state, cmdline⟩ :: b, next⟩).Perm (t.nextjid :: t.jids) := by
  have hpid0 : pid ≠ 0 := by omega
  simp [jids, occupied, he, hj0, hpid0]

theorem Keyed.addjob (h : t.Keyed) (hpos : 1 ≤ pid) (hnew : pid ∉ t.pids) {state : JobState}
    {cmdline : List UInt8} (hfresh : (∃ j ∈ t.jobs, j.pid = 0) →
      t.nextjid ∉ t.jids ∧ t.nextjid < intMax) : (t.addjob pid state cmdline).2.Keyed := by
  have hok : (t.addjob pid state cmdline).2.Ok := by
    rcases addjob_spec h.ok hpos hnew state cmdline with hadd | ⟨t', hadd, hok, -⟩
    · rw [hadd]
      exact h.ok
    · rw [hadd]
      exact hok
  obtain ⟨hadd, -⟩ | ⟨a, j, b, he, hj0, hadd⟩ := t.addjob_cases hpos state cmdline
  · rw [hadd]
    exact h
  rw [hadd] at hok ⊢
  obtain ⟨hnot, hlt⟩ := hfresh ⟨j, by simp [he], hj0⟩
  refine ⟨hok, fun k hk hk0 => ?_, fun k hk hk0 => ?_, ?_, fun k hk => ?_, ?_⟩
  · rcases mem_of_overwrite j hk with rfl | hk
    · exact hpos
    · exact h.pid_pos k (he ▸ hk) hk0
  · rcases mem_of_overwrite j hk with rfl | hk
    · exact absurd hk0 (show pid ≠ 0 by omega)
    · exact h.free k (he ▸ hk) hk0
  · exact (jids_addjob he hj0 hpos).nodup_iff.mpr (List.nodup_cons.mpr ⟨hnot, h.nodup⟩)
  · rcases mem_of_overwrite j hk with rfl | hk
    · exact hlt
    · exact h.fits.jids k (he ▸ hk)
  · dsimp only
    split <;> omega

/-- **A new job takes `nextjid`**, so ids that are unique afterwards were fresh before. -/
theorem fresh_of_addjob (hpos : 1 ≤ pid) {state : JobState} {cmdline : List UInt8}
    (hu : (t.addjob pid state cmdline).2.UniqueJids)
    (hf : (t.addjob pid state cmdline).2.FitsInt) (hfree : ∃ j ∈ t.jobs, j.pid = 0) :
    t.nextjid ∉ t.jids ∧ t.nextjid < intMax := by
  obtain ⟨-, hfull⟩ | ⟨a, j, b, he, hj0, hadd⟩ := t.addjob_cases hpos state cmdline
  · obtain ⟨j, hj, hj0⟩ := hfree
    exact absurd hj0 (hfull j hj)
  rw [hadd] at hu hf
  have hnodup := (jids_addjob he hj0 hpos).nodup_iff.mp hu.nodup
  exact ⟨(List.nodup_cons.mp hnodup).1, hf.jids ⟨pid, t.nextjid, state, cmdline⟩ (by simp)⟩

theorem Keyed.deletejob (h : t.Keyed) (pid : ℤ) : (t.deletejob pid).2.Keyed := by
  by_cases hpos : 1 ≤ pid
  case neg =>
    rw [JobTable.deletejob, if_pos (by omega)]
    exact h
  obtain ⟨hdel, -⟩ | ⟨a, j, b, he, hjp, hdel⟩ := t.deletejob_cases hpos
  · rw [hdel]
    exact h
  have hmem : pid ∈ t.pids := mem_pids.mpr ⟨by omega, j, by simp [he], hjp⟩
  obtain ⟨t', ht', hok, -⟩ := deletejob_spec h.ok hpos hmem
  obtain rfl : t' = _ := congrArg Prod.snd (ht'.symm.trans hdel)
  rw [hdel]
  have hjids : ∀ k ∈ a ++ clearjob :: b, k.jid < intMax := by
    intro k hk
    rcases mem_of_overwrite j hk with rfl | hk
    · decide
    · exact h.fits.jids k (he ▸ hk)
  refine ⟨hok, fun k hk hk0 => ?_, fun k hk hk0 => ?_, ?_, hjids, ?_⟩
  · rcases mem_of_overwrite j hk with rfl | hk
    · exact absurd rfl hk0
    · exact h.pid_pos k (he ▸ hk) hk0
  · rcases mem_of_overwrite j hk with rfl | hk
    · rfl
    · exact h.free k (he ▸ hk) hk0
  · refine h.nodup.sublist ?_
    rw [jids, jids, occupied, occupied, he]
    simp only [List.filter_append, List.map_append]
    refine (List.Sublist.refl _).append (List.Sublist.map _ ?_)
    rw [List.filter_cons_of_neg (by decide)]
    exact (List.sublist_cons_self j b).filter _
  · have := maxjid_lt (by decide) hjids
    dsimp only
    omega

/-- **One call**: the table stays keyed if the call meets the condition, and its ids
are unique only if it does. -/
theorem Keyed.call (h : t.Keyed) {op : TableOp} (hnew : t.NewPid op) :
    (t.FreshJid op → (t.call op).Keyed) ∧
    ((t.call op).UniqueJids ∧ (t.call op).FitsInt ↔ t.FreshJid op) := by
  have hkeyed : t.FreshJid op → (t.call op).Keyed := by
    intro hfresh
    cases op with
    | deletejob pid => exact h.deletejob pid
    | addjob pid state cmdline =>
      by_cases hpos : 1 ≤ pid
      · exact h.addjob hpos hnew (hfresh hpos)
      · rw [JobTable.call, JobTable.addjob, if_pos (by omega)]
        exact h
  refine ⟨hkeyed, fun hkeys => ?_,
    fun hfresh => ⟨(hkeyed hfresh).uniqueJids, (hkeyed hfresh).fits⟩⟩
  obtain ⟨hu, hf⟩ := hkeys
  cases op with
  | deletejob pid => trivial
  | addjob pid state cmdline => exact fun hpos hfree => fresh_of_addjob hpos hu hf hfree

/-! ## Runs -/

theorem keyed_inductive : jobTable.Inductive FreshJid Keyed where
  init := by
    rintro _ rfl
    exact initjobs_keyed
  step := by
    rintro t op _ h hfresh ⟨hnew, rfl⟩
    exact (h.call hnew).1 hfresh

/-- `jobTable` as a function. -/
def callStep (t : JobTable) (op : TableOp) : Option JobTable :=
  match op with
  | .addjob pid _ _ => if pid ∉ t.pids then some (t.call op) else none
  | .deletejob _ => some (t.call op)

theorem callStep_sound (t : JobTable) (op : TableOp) (t' : JobTable)
    (h : t.callStep op = some t') : jobTable.step t op t' := by
  cases op with
  | addjob pid state cmdline =>
    obtain ⟨hnew, e⟩ := Option.ite_none_right_eq_some.mp h
    exact ⟨hnew, (Option.some.inj e).symm⟩
  | deletejob pid => exact ⟨trivial, (Option.some.inj h).symm⟩

instance (t : JobTable) : DecidablePred t.FreshJid
  | .addjob _ _ _ => inferInstanceAs (Decidable (_ → _ → _))
  | .deletejob _ => .isTrue trivial

/-- **Job ids are unique** in every table reached by calls that meet the condition,
and a further call keeps them so exactly if it meets it. -/
theorem unique_jids_run (h : jobTable.ReachWhen FreshJid t) :
    (t.UniqueJids ∧ t.FitsInt) ∧
    ∀ op t', jobTable.step t op t' → (t'.UniqueJids ∧ t'.FitsInt ↔ t.FreshJid op) := by
  have hkeyed := keyed_inductive.holds h
  refine ⟨⟨hkeyed.uniqueJids, hkeyed.fits⟩, ?_⟩
  rintro op _ ⟨hnew, rfl⟩
  exact (hkeyed.call hnew).2

/-- Sixteen jobs fill the table, and two are deleted, the first job of all among them. The next
two jobs get the ids 17 and, after the wrap, 1. -/
def reuseRun : List TableOp :=
  (List.range 16).map (fun i => .addjob (100 + i) .bg []) ++
    [.deletejob 100, .deletejob 101, .addjob 116 .bg [], .addjob 117 .bg []]

theorem unique_jids_reuse : ∃ t : JobTable, t.UniqueJids ∧
    t.jids = [17, 1, 3, 4, 5, 6, 7, 8, 9, 10, 11, 12, 13, 14, 15, 16] ∧ t.nextjid = 2 := by
  have hrun : (Machine.exec (fun t op => if t.FreshJid op then t.callStep op else none) initjobs
      reuseRun).any (fun t => decide
        (t.jids = [17, 1, 3, 4, 5, 6, 7, 8, 9, 10, 11, 12, 13, 14, 15, 16] ∧ t.nextjid = 2)) =
      true := by
    decide +kernel
  obtain ⟨t, ht, hs⟩ := (Option.any_eq_true _ _).mp hrun
  have hreach : jobTable.ReachWhen FreshJid t := by
    refine Machine.ReachWhen.exec (fun t op t' hnext => ?_) (.init rfl) ht
    obtain ⟨hfresh, hcall⟩ := Option.ite_none_right_eq_some.mp hnext
    exact ⟨hfresh, callStep_sound t op t' hcall⟩
  exact ⟨t, (unique_jids_run hreach).1.1, of_decide_eq_true hs⟩

/-! ## A wrap -/

/-- Sixteen jobs fill the table, two are deleted, and two are added: the first gets
id 17, the second gets id 1, which the first job of all still has. -/
def wrapRun : List TableOp :=
  (List.range 16).map (fun i => .addjob (100 + i) .bg []) ++
    [.deletejob 101, .deletejob 102, .addjob 116 .bg [], .addjob 117 .bg []]

theorem jids_not_unique :
    ∃ t, jobTable.Reach t ∧ ¬ t.jids.Nodup ∧
      ∃ j ∈ t.jobs, j.pid ≠ 0 ∧ t.getjobjid j.jid ≠ t.getjobpid j.pid := by
  have hrun : (Machine.exec callStep initjobs wrapRun).any (fun t =>
      decide (¬ t.jids.Nodup ∧ ∃ j ∈ t.jobs, j.pid ≠ 0 ∧ t.getjobjid j.jid ≠ t.getjobpid j.pid)) =
        true := by decide +kernel
  obtain ⟨t, ht, hs⟩ := (Option.any_eq_true _ _).mp hrun
  refine ⟨t, ?_, of_decide_eq_true hs⟩
  exact Machine.ReachWhen.exec (fun s a s' e => ⟨trivial, callStep_sound s a s' e⟩) (.init rfl) ht

end JobTable

end SysProgLab
