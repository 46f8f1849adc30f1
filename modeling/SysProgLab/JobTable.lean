import Mathlib.Algebra.Order.Group.Int
import Mathlib.Data.List.Nodup

/-!
# The job table of `tsh.c`

`jobs` is an array of `MAXJOBS` slots; a slot whose `pid` is 0 is free. A pointer
to a job is the index of its slot. What the helper routines do is said once for
each of them, in terms of the pids in the table.
-/

namespace SysProgLab

/-- `MAXJOBS` -/
abbrev maxJobs : ℕ := 16

/-- `UNDEF`, `FG`, `BG` and `ST` -/
inductive JobState : Type where
  | undef
  | fg
  | bg
  | st
  deriving DecidableEq

/-- `struct job_t` -/
structure Job : Type where
  /-- `pid` -/
  pid : ℤ
  /-- `jid` -/
  jid : ℤ
  /-- `state` -/
  state : JobState
  /-- `cmdline` -/
  cmdline : List UInt8
  deriving DecidableEq

/-- `jobs` and `nextjid` -/
structure JobTable : Type where
  /-- `jobs` -/
  jobs : List Job
  /-- `nextjid` -/
  nextjid : ℤ
  deriving DecidableEq

/-- The slot that `clearjob` leaves. -/
def clearjob : Job := ⟨0, 0, .undef, []⟩

namespace JobTable

/-- `initjobs` -/
def initjobs : JobTable := ⟨List.replicate maxJobs clearjob, 1⟩

/-- `maxjid` -/
def maxjid (jobs : List Job) : ℤ :=
  jobs.foldl (fun max j => if max < j.jid then j.jid else max) 0

/-- `addjob`; the first component is the result. -/
def addjob (t : JobTable) (pid : ℤ) (state : JobState) (cmdline : List UInt8) : Bool × JobTable :=
  if pid < 1 then (false, t)
  else
    match t.jobs.findIdx? fun j => decide (j.pid = 0) with
    | none => (false, t)
    | some i =>
      (true, ⟨t.jobs.set i ⟨pid, t.nextjid, state, cmdline⟩,
        if (maxJobs : ℤ) < t.nextjid + 1 then 1 else t.nextjid + 1⟩)

/-- `deletejob`; the first component is the result. -/
def deletejob (t : JobTable) (pid : ℤ) : Bool × JobTable :=
  if pid < 1 then (false, t)
  else
    match t.jobs.findIdx? fun j => decide (j.pid = pid) with
    | none => (false, t)
    | some i => (true, ⟨t.jobs.set i clearjob, maxjid (t.jobs.set i clearjob) + 1⟩)

/-- `fgpid` -/
def fgpid (t : JobTable) : ℤ :=
  match t.jobs.find? fun j => decide (j.state = .fg) with
  | none => 0
  | some j => j.pid

/-- `getjobpid` -/
def getjobpid (t : JobTable) (pid : ℤ) : Option ℕ :=
  if pid < 1 then none else t.jobs.findIdx? fun j => decide (j.pid = pid)

/-- `getjobjid` -/
def getjobjid (t : JobTable) (jid : ℤ) : Option ℕ :=
  if jid < 1 then none else t.jobs.findIdx? fun j => decide (j.jid = jid)

/-- `pid2jid` -/
def pid2jid (t : JobTable) (pid : ℤ) : ℤ :=
  if pid < 1 then 0
  else
    match t.jobs.find? fun j => decide (j.pid = pid) with
    | none => 0
    | some j => j.jid

/-- `job->state = state` for the job at index `i`. -/
def setState (t : JobTable) (i : ℕ) (state : JobState) : JobTable :=
  { t with jobs := t.jobs.modify i fun j => { j with state := state } }

/-! ## The pids of a table -/

/-- The non-zero pids, slot by slot. -/
def pids (t : JobTable) : List ℤ := (t.jobs.map Job.pid).filter fun p => decide (p ≠ 0)

/-- No pid occurs twice, and job ids are positive. -/
structure Ok (t : JobTable) : Prop where
  nodup : t.pids.Nodup
  jid_pos : ∀ j ∈ t.jobs, j.pid ≠ 0 → 1 ≤ j.jid
  next_pos : 1 ≤ t.nextjid

variable {t : JobTable} {pid : ℤ}

theorem mem_pids : pid ∈ t.pids ↔ pid ≠ 0 ∧ ∃ j ∈ t.jobs, j.pid = pid := by
  simp [pids, and_comm]

theorem initjobs_ok : initjobs.Ok where
  nodup := by decide
  jid_pos := by decide
  next_pos := by decide

/-- The index that a search returns splits the array. -/
theorem split_of_findIdx {jobs : List Job} {p : Job → Bool} {i : ℕ}
    (h : jobs.findIdx? p = some i) :
    ∃ a j b, jobs = a ++ j :: b ∧ p j = true ∧ (∀ x, jobs.set i x = a ++ x :: b) ∧
      ∀ f, jobs.modify i f = a ++ f j :: b := by
  obtain ⟨hi, hp, -⟩ := List.findIdx?_eq_some_iff_getElem.mp h
  refine ⟨jobs.take i, jobs[i], jobs.drop (i + 1), ?_, hp, fun x => ?_, fun f => ?_⟩
  · rw [← List.drop_eq_getElem_cons hi, List.take_append_drop]
  · rw [List.set_eq_take_append_cons_drop, if_pos hi]
  · rw [List.modify_eq_take_cons_drop hi]

/-- The running maximum is at least its start and every id, and is one of them. -/
theorem foldl_jid_spec (jobs : List Job) (m : ℤ) :
    (m ≤ jobs.foldl (fun max j => if max < j.jid then j.jid else max) m ∧
      ∀ j ∈ jobs, j.jid ≤ jobs.foldl (fun max j => if max < j.jid then j.jid else max) m) ∧
    (jobs.foldl (fun max j => if max < j.jid then j.jid else max) m = m ∨
      ∃ j ∈ jobs, jobs.foldl (fun max j => if max < j.jid then j.jid else max) m = j.jid) := by
  induction jobs generalizing m with
  | nil => exact ⟨⟨le_rfl, fun j hj => absurd hj List.not_mem_nil⟩, .inl rfl⟩
  | cons k jobs ih =>
    obtain ⟨⟨hm, hall⟩, hone⟩ := ih (if m < k.jid then k.jid else m)
    have hstart : m ≤ (if m < k.jid then k.jid else m) ∧
        k.jid ≤ (if m < k.jid then k.jid else m) := by split <;> omega
    refine ⟨⟨hstart.1.trans hm, fun j hj => ?_⟩, ?_⟩
    · rcases List.mem_cons.mp hj with rfl | hj
      · exact hstart.2.trans hm
      · exact hall j hj
    · rcases hone with hone | ⟨j, hj, hone⟩
      · rw [List.foldl_cons, hone]
        split
        · exact .inr ⟨k, List.mem_cons_self, rfl⟩
        · exact .inl rfl
      · exact .inr ⟨j, List.mem_cons_of_mem k hj, hone⟩

theorem maxjid_nonneg (jobs : List Job) : 0 ≤ maxjid jobs := (foldl_jid_spec jobs 0).1.1

theorem le_maxjid {jobs : List Job} {j : Job} (hj : j ∈ jobs) : j.jid ≤ maxjid jobs :=
  (foldl_jid_spec jobs 0).1.2 j hj

theorem maxjid_lt {jobs : List Job} {n : ℤ} (hn : 0 < n) (h : ∀ j ∈ jobs, j.jid < n) :
    maxjid jobs < n := by
  rcases (foldl_jid_spec jobs 0).2 with hzero | ⟨j, hj, hmax⟩
  · exact hzero.trans_lt hn
  · exact hmax.trans_lt (h j hj)

/-- After one slot is overwritten, a job is the new one or was there before. -/
theorem mem_of_overwrite {a b : List Job} {x k : Job} (y : Job) (h : k ∈ a ++ x :: b) :
    k = x ∨ k ∈ a ++ y :: b := by
  rcases List.mem_append.mp h with h | h
  · exact .inr (List.mem_append.mpr (.inl h))
  · rcases List.mem_cons.mp h with h | h
    · exact .inl h
    · exact .inr (List.mem_append.mpr (.inr (List.mem_cons_of_mem _ h)))

/-- What `addjob` does: nothing when no slot is free, else it fills a free slot. -/
theorem addjob_cases (t : JobTable) (hpos : 1 ≤ pid) (state : JobState) (cmdline : List UInt8) :
    (t.addjob pid state cmdline = (false, t) ∧ ∀ j ∈ t.jobs, j.pid ≠ 0) ∨
    ∃ a j b, t.jobs = a ++ j :: b ∧ j.pid = 0 ∧ t.addjob pid state cmdline =
      (true, ⟨a ++ ⟨pid, t.nextjid, state, cmdline⟩ :: b,
        if (maxJobs : ℤ) < t.nextjid + 1 then 1 else t.nextjid + 1⟩) := by
  rw [addjob, if_neg (by omega)]
  cases hfind : t.jobs.findIdx? fun j => decide (j.pid = 0) with
  | none => exact .inl ⟨rfl, by simpa using hfind⟩
  | some i =>
    obtain ⟨a, j, b, he, hj, hset, -⟩ := split_of_findIdx hfind
    exact .inr ⟨a, j, b, he, of_decide_eq_true hj, by simp only [hset]⟩

/-- What `deletejob` does: nothing when the pid has no slot, else it clears that slot. -/
theorem deletejob_cases (t : JobTable) (hpos : 1 ≤ pid) :
    (t.deletejob pid = (false, t) ∧ pid ∉ t.pids) ∨
    ∃ a j b, t.jobs = a ++ j :: b ∧ j.pid = pid ∧
      t.deletejob pid = (true, ⟨a ++ clearjob :: b, maxjid (a ++ clearjob :: b) + 1⟩) := by
  rw [deletejob, if_neg (by omega)]
  cases hfind : t.jobs.findIdx? fun j => decide (j.pid = pid) with
  | none =>
    have hnone : ∀ j ∈ t.jobs, j.pid ≠ pid := by simpa using hfind
    refine .inl ⟨rfl, fun hmem => ?_⟩
    obtain ⟨-, j, hj, hjp⟩ := mem_pids.mp hmem
    exact hnone j hj hjp
  | some i =>
    obtain ⟨a, j, b, he, hj, hset, -⟩ := split_of_findIdx hfind
    exact .inr ⟨a, j, b, he, of_decide_eq_true hj, by simp only [hset]⟩

/-- **`addjob`** adds the pid, or finds no free slot and changes nothing. -/
theorem addjob_spec (h : t.Ok) (hpos : 1 ≤ pid) (hnew : pid ∉ t.pids) (state : JobState)
    (cmdline : List UInt8) :
    t.addjob pid state cmdline = (false, t) ∨
    ∃ t', t.addjob pid state cmdline = (true, t') ∧ t'.Ok ∧ t'.pids.Perm (pid :: t.pids) ∧
      ∀ j ∈ t.jobs, j.pid ≠ 0 → j ∈ t'.jobs := by
  obtain ⟨hadd, -⟩ | ⟨a, j, b, he, hj0, hadd⟩ := t.addjob_cases hpos state cmdline
  · exact .inl hadd
  have hpid0 : pid ≠ 0 := by omega
  have hperm : (pids ⟨a ++ ⟨pid, t.nextjid, state, cmdline⟩ :: b,
      if (maxJobs : ℤ) < t.nextjid + 1 then 1 else t.nextjid + 1⟩).Perm (pid :: t.pids) := by
    simp [pids, he, hj0, hpid0]
  refine .inr ⟨_, hadd, ⟨?_, ?_, ?_⟩, hperm, ?_⟩
  · exact hperm.nodup_iff.mpr (List.nodup_cons.mpr ⟨hnew, h.nodup⟩)
  · intro k hk hk0
    rcases mem_of_overwrite j hk with rfl | hk
    · exact h.next_pos
    · exact h.jid_pos k (he ▸ hk) hk0
  · have := h.next_pos
    dsimp only
    split <;> omega
  · intro k hk hk0
    rcases mem_of_overwrite _ (he ▸ hk) with rfl | hk
    · exact absurd hj0 hk0
    · exact hk

/-- **`deletejob`** removes the pid and leaves the other jobs alone. -/
theorem deletejob_spec (h : t.Ok) (hpos : 1 ≤ pid) (hmem : pid ∈ t.pids) :
    ∃ t', t.deletejob pid = (true, t') ∧ t'.Ok ∧ t'.pids.Perm (t.pids.erase pid) ∧
      ∀ j ∈ t.jobs, j.pid ≠ pid → j ∈ t'.jobs := by
  obtain ⟨-, hnot⟩ | ⟨a, j, b, he, hjp, hdel⟩ := t.deletejob_cases hpos
  · exact absurd hmem hnot
  have hpid0 : pid ≠ 0 := by omega
  have hpids : t.pids.Perm (pid :: pids ⟨a ++ clearjob :: b, maxjid (a ++ clearjob :: b) + 1⟩) := by
    simp [pids, he, hjp, hpid0, clearjob]
  have herase := (hpids.erase pid).symm
  rw [List.erase_cons_head] at herase
  refine ⟨_, hdel, ⟨?_, ?_, ?_⟩, herase, ?_⟩
  · exact herase.nodup_iff.mpr (h.nodup.erase pid)
  · intro k hk hk0
    rcases mem_of_overwrite j hk with rfl | hk
    · exact absurd rfl hk0
    · exact h.jid_pos k (he ▸ hk) hk0
  · have := maxjid_nonneg (a ++ clearjob :: b)
    dsimp only
    omega
  · intro k hk hkp
    rcases mem_of_overwrite _ (he ▸ hk) with rfl | hk
    · exact absurd hjp hkp
    · exact hk

/-- A store through any pointer keeps the pid and the id of every slot. -/
theorem map_setState {α : Type} {f : Job → α} (hf : ∀ j state, f { j with state := state } = f j)
    (t : JobTable) (i : ℕ) (state : JobState) :
    (t.setState i state).jobs.map f = t.jobs.map f := by
  apply List.ext_getElem?
  intro l
  rw [List.getElem?_map, List.getElem?_map, setState, List.getElem?_modify]
  cases t.jobs[l]? with
  | none => rfl
  | some j =>
    simp only [Option.map_eq_map, Option.map_some]
    split
    · rw [hf]
    · rfl

theorem pids_setState (t : JobTable) (i : ℕ) (state : JobState) :
    (t.setState i state).pids = t.pids :=
  congrArg (List.filter fun p => decide (p ≠ 0)) (map_setState (fun _ _ => rfl) t i state)

theorem Ok.setState (h : t.Ok) (i : ℕ) (state : JobState) : (t.setState i state).Ok where
  nodup := by
    rw [pids_setState]
    exact h.nodup
  jid_pos := by
    intro k hk hk0
    have hmem := List.mem_map_of_mem (f := fun j : Job => (j.pid, j.jid)) hk
    rw [map_setState (fun _ _ => rfl)] at hmem
    obtain ⟨j, hj, he⟩ := List.mem_map.mp hmem
    obtain ⟨hp, hjid⟩ := Prod.mk.inj he
    exact hjid ▸ h.jid_pos j hj (hp ▸ hk0)
  next_pos := h.next_pos

/-- **A store to the state of a job** leaves the pids and the other jobs alone. -/
theorem setState_spec (h : t.Ok) {i : ℕ} (hi : t.getjobpid pid = some i) (state : JobState) :
    (t.setState i state).Ok ∧ (t.setState i state).pids = t.pids ∧
      (∃ j ∈ (t.setState i state).jobs, j.pid = pid ∧ j.state = state) ∧
      ∀ j ∈ t.jobs, j.pid ≠ pid → j ∈ (t.setState i state).jobs := by
  rw [getjobpid] at hi
  split at hi
  · cases hi
  obtain ⟨a, j, b, he, hj, -, hmodify⟩ := split_of_findIdx hi
  have hjp : j.pid = pid := of_decide_eq_true hj
  have hjobs : (t.setState i state).jobs = a ++ { j with state := state } :: b := hmodify _
  refine ⟨h.setState i state, t.pids_setState i state, ?_, ?_⟩
  · exact ⟨{ j with state := state }, by simp [hjobs], hjp, rfl⟩
  · intro k hk hkp
    rw [hjobs]
    rcases mem_of_overwrite _ (he ▸ hk) with rfl | hk
    · exact absurd hjp hkp
    · exact hk

theorem Ok.pairwise (h : t.Ok) :
    t.jobs.Pairwise fun x y => x.pid ≠ 0 → y.pid ≠ 0 → x.pid ≠ y.pid := by
  have hnodup := h.nodup
  rw [pids, List.Nodup, List.pairwise_filter, List.pairwise_map] at hnodup
  simpa using hnodup

/-- **Two occupied slots have different pids.** -/
theorem Ok.slot_unique (h : t.Ok) {k l : ℕ} {x y : Job} (hk : t.jobs[k]? = some x)
    (hl : t.jobs[l]? = some y) (he : x.pid = y.pid) (h0 : x.pid ≠ 0) : k = l := by
  have hpairs := List.pairwise_iff_getElem.mp h.pairwise
  obtain ⟨hk', rfl⟩ := List.getElem?_eq_some_iff.mp hk
  obtain ⟨hl', rfl⟩ := List.getElem?_eq_some_iff.mp hl
  rcases lt_trichotomy k l with hlt | heq | hlt
  · exact absurd he (hpairs k l hk' hl' hlt h0 (he ▸ h0))
  · exact heq
  · exact absurd he.symm (hpairs l k hl' hk' hlt (he ▸ h0) h0)

/-- A pid of the table has a job id. -/
theorem pid2jid_ne_zero (h : t.Ok) (hpos : 1 ≤ pid) : t.pid2jid pid ≠ 0 ↔ pid ∈ t.pids := by
  rw [pid2jid, if_neg (by omega), mem_pids]
  cases hfind : t.jobs.find? fun j => decide (j.pid = pid) with
  | none =>
    have hnone : ∀ j ∈ t.jobs, j.pid ≠ pid := by simpa using hfind
    refine iff_of_false (by simp) ?_
    rintro ⟨-, j, hj, hjp⟩
    exact hnone j hj hjp
  | some j =>
    have hj := List.mem_of_find?_eq_some hfind
    have hjp : j.pid = pid := by simpa using List.find?_some hfind
    have hjid := h.jid_pos j hj (by omega)
    refine iff_of_true (by dsimp only; omega) ⟨by omega, j, hj, hjp⟩

theorem getjobpid_isSome (hpos : 1 ≤ pid) (hmem : pid ∈ t.pids) :
    ∃ i, t.getjobpid pid = some i := by
  rw [getjobpid, if_neg (by omega)]
  cases hfind : t.jobs.findIdx? fun j => decide (j.pid = pid) with
  | none =>
    obtain ⟨-, j, hj, hjp⟩ := mem_pids.mp hmem
    simpa [hjp] using List.findIdx?_eq_none_iff.mp hfind j hj
  | some i => exact ⟨i, rfl⟩

end JobTable

end SysProgLab
