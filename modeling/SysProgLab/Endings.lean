import SysProgLab.ReadersWriter

/-!
# The protocol comes to an end

Each step of a thread brings it nearer to its end, so no run is longer than the sum of what
the threads have to do. With the absence of deadlocks it follows that, whichever thread runs
when, all of them get to their end, and leave the semaphores and the counter as they were
(`requests_end`). The steps are those of the protocol: what a thread does between two
semaphore operations is a step that is taken when it returns. It need not return at all,
since `parse_header` waits for a blank line (`parseHeader_hangs`).
-/

namespace SysProgLab

/-! ## Steps that lower a measure -/

namespace Machine

universe u v

variable {σ : Type u} {α : Type v} {next : σ → α → Option σ} {m : σ → ℕ}

/-- **Runs are no longer than the measure.** -/
theorem length_add_le (hm : ∀ s a s', next s a = some s' → m s' < m s) :
    ∀ {as : List α} {s s' : σ}, exec next s as = some s' → as.length + m s' ≤ m s := by
  intro as
  induction as with
  | nil =>
    intro s s' h
    cases h
    exact (Nat.zero_add _).le
  | cons a as ih =>
    intro s s' h
    obtain ⟨s₁, h₁, h⟩ := Option.bind_eq_some_iff.mp h
    have hstep := hm s a s₁ h₁
    have hrest := ih h
    rw [List.length_cons]
    omega

/-- **Runs can be continued to a state without a step.** -/
theorem exists_stuck (hm : ∀ s a s', next s a = some s' → m s' < m s) (s : σ) :
    ∃ as s', exec next s as = some s' ∧ ∀ a, next s' a = none := by
  induction hn : m s using Nat.strong_induction_on generalizing s with
  | _ n ih =>
    by_cases hstuck : ∀ a, next s a = none
    · exact ⟨[], s, rfl, hstuck⟩
    · obtain ⟨a, ha⟩ := not_forall.mp hstuck
      obtain ⟨s₁, h₁⟩ := Option.ne_none_iff_exists'.mp ha
      obtain ⟨as, s', h, hend⟩ := ih (m s₁) (hn ▸ hm s a s₁ h₁) s₁ rfl
      refine ⟨a :: as, s', ?_, hend⟩
      rw [exec, h₁, Option.bind_some, h]

end Machine

namespace Proxy

/-! ## What is left to do -/

/-- A bound for the steps that a thread has yet to take. -/
def Pc.ahead : Pc → ℕ
  | .enter => 17
  | .inc => 16
  | .testFirst => 15
  | .lock => 14
  | .entered => 13
  | .lookup => 12
  | .moving _ => 11
  | .serve _ => 10
  | .leave _ => 9
  | .dec _ => 8
  | .testLast _ => 7
  | .unlock _ => 6
  | .left _ => 5
  | .fetch => 4
  | .writerLock => 3
  | .insert => 2
  | .writerUnlock => 1
  | .done => 0

/-- **Every step leads on.** -/
theorem Pc.ahead_step {v v' : Shared} {p x : Pc} {e : Event} (h : p.step v e = some (v', x)) :
    x.ahead < p.ahead := by
  cases p
  case enter | leave | lock | writerLock =>
    obtain ⟨-, h⟩ := Option.ite_none_right_eq_some.mp h
    cases h
    simp [ahead]
  case testFirst | testLast | left =>
    cases h
    split <;> simp [ahead]
  case lookup | fetch => cases e <;> cases h <;> simp [ahead]
  case done => cases h
  all_goals
    cases h
    simp [ahead]

variable {ι : Type} [Fintype ι]

/-- The steps that all threads have yet to take. -/
def State.ahead (s : State ι) : ℕ := ∑ t, (s.pc t).ahead

variable [DecidableEq ι]

theorem State.ahead_next {s s' : State ι} {t : ι} {e : Event} (h : s.next t e = some s') :
    s'.ahead < s.ahead := by
  obtain ⟨⟨v, x⟩, hstep, rfl⟩ := Option.map_eq_some_iff.mp h
  have hrest : ∀ u ≠ t, (Function.update s.pc t x u).ahead = (s.pc u).ahead := fun u hu => by
    rw [Function.update_of_ne hu]
  refine Finset.sum_lt_sum (fun u _ => ?_) ⟨t, Finset.mem_univ t, ?_⟩
  · by_cases hu : u = t
    · rw [hu]
      dsimp only
      rw [Function.update_self]
      exact (Pc.ahead_step hstep).le
    · exact (hrest u hu).le
  · dsimp only
    rw [Function.update_self]
    exact Pc.ahead_step hstep

/-- **Where no thread can take a step**, all are at their end, and nothing is held. -/
theorem Balanced.ended {s : State ι} (h : Balanced s.shared (census s.pc))
    (hstuck : ∀ a : ι × Event, s.next a.1 a.2 = none) :
    (∀ t, s.pc t = .done) ∧ s.shared.mutex = 1 ∧ s.shared.w = 1 ∧ s.shared.readcnt = 0 := by
  have hdone : ∀ t, s.pc t = .done := by
    intro t
    by_contra ht
    obtain ⟨u, e, s', hs⟩ := h.progress ht
    rw [hstuck (u, e)] at hs
    cases hs
  -- at their end the threads are of no kind
  have hzero : ∀ p : Pc → Bool, p .done = false → threads p s.pc = 0 := fun p hp =>
    threads_eq_zero fun t => by rw [hdone t, hp]
  have hcensus : census s.pc = ⟨0, 0, 0, 0, 0, 0, 0⟩ := by
    rw [census, hzero _ rfl, hzero _ rfl, hzero _ rfl, hzero _ rfl, hzero _ rfl, hzero _ rfl,
      hzero _ rfl]
  rw [hcensus] at h
  exact ⟨hdone, h.mutex, h.free (by simp [ReadersHold]), h.readcnt⟩

/-- The state after some steps. -/
def State.run (s : State ι) (as : List (ι × Event)) : Option (State ι) :=
  Machine.exec (fun s a => s.next a.1 a.2) s as

/-- The state in which all threads have been created. -/
def State.start (ι : Type) : State ι := ⟨⟨1, 1, 0⟩, fun _ => .enter⟩

theorem State.balanced_run {as : List (ι × Event)} {s : State ι}
    (h : (State.start ι).run as = some s) : Balanced s.shared (census s.pc) := by
  have hreach : (protocol ι).Reach s :=
    Machine.ReachWhen.exec (fun _ _ _ hs => ⟨trivial, hs⟩) (.init rfl) h
  exact protocol_inductive.holds hreach

/-- **The protocol comes to an end** where the fetch, the look-up and the insertion return: a run
of `n` threads takes at most `17 * n` of its steps; when no thread can take a step, all threads
are at their end, and `mutex`, `w` and `readcnt` have the values of `cache_init`; and every run
can be continued until this is so. -/
theorem requests_end {as : List (ι × Event)} {s : State ι}
    (h : (State.start ι).run as = some s) :
    as.length ≤ 17 * Fintype.card ι ∧
      ((∀ a : ι × Event, s.next a.1 a.2 = none) → (∀ t, s.pc t = .done) ∧
        s.shared.mutex = 1 ∧ s.shared.w = 1 ∧ s.shared.readcnt = 0) ∧
      ∃ bs s', s.run bs = some s' ∧ (∀ t, s'.pc t = .done) ∧
        s'.shared.mutex = 1 ∧ s'.shared.w = 1 ∧ s'.shared.readcnt = 0 := by
  have hm : ∀ (s : State ι) (a : ι × Event) (s' : State ι), s.next a.1 a.2 = some s' →
      s'.ahead < s.ahead := fun _ _ _ => State.ahead_next
  refine ⟨?_, (State.balanced_run h).ended, ?_⟩
  · have hlength := Machine.length_add_le hm h
    have hstart : (State.start ι).ahead = 17 * Fintype.card ι :=
      (Finset.sum_const_nat fun _ _ => rfl).trans (Nat.mul_comm ..)
    rw [hstart] at hlength
    exact (Nat.le_add_right ..).trans hlength
  · obtain ⟨bs, s', hbs, hstuck⟩ := Machine.exists_stuck hm s
    have hrun : (State.start ι).run (as ++ bs) = some s' := by
      rw [State.run, Machine.exec_append]
      exact (congrArg (Option.bind · _) h).trans hbs
    exact ⟨bs, s', hbs, (State.balanced_run hrun).ended hstuck⟩

/-- One reader is in its look-up, and another one is created. -/
theorem requests_end_two : ∃ s : State (Fin 2), s.pc 0 = .lookup ∧
    ∃ bs s', s.run bs = some s' ∧ (∀ t, s'.pc t = .done) ∧
      s'.shared.mutex = 1 ∧ s'.shared.w = 1 ∧ s'.shared.readcnt = 0 := by
  have hrun : (((State.start (Fin 2)).run (List.replicate 5 (0, .go))).any
      fun s => s.pc 0 = .lookup) = true := by
    decide
  obtain ⟨s, e, hs⟩ := (Option.any_eq_true ..).mp hrun
  exact ⟨s, by simpa using hs, (requests_end e).2.2⟩

end Proxy

end SysProgLab
