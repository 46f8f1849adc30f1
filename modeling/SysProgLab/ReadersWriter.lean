import SysProgLab.Machine
import SysProgLab.ThreadCount
import Mathlib.Tactic.MkIffOfInductiveProp

/-!
# Readers and writers: the locks of `proxy.c`

Any number of threads run `handle_client`, each at a program point of
`get_from_cache` or of the writer section of `get_from_server`, and share the
semaphores `mutex` and `w` and the counter `readcnt`. What a look-up finds is left
open here: a look-up may end in any way.
-/

namespace SysProgLab

namespace Proxy

/-- The program points of `handle_client`: what the thread executes next. -/
inductive Pc : Type where
  /-- `P(&mutex)` before `readcnt++` -/
  | enter
  /-- `readcnt++` -/
  | inc
  /-- `if(readcnt==1)` -/
  | testFirst
  /-- `P(&w)` of the first reader -/
  | lock
  /-- `V(&mutex)` before the look-up -/
  | entered
  /-- `find_cache`, up to the call of `move_to_end` or the end -/
  | lookup
  /-- the stores of `move_to_end` on the item `c` -/
  | moving (c : ℕ)
  /-- `Rio_writen(connfd,c->data,c->size)` -/
  | serve (c : ℕ)
  /-- `P(&mutex)` before `readcnt--` -/
  | leave (found : Bool)
  /-- `readcnt--` -/
  | dec (found : Bool)
  /-- `if(readcnt == 0)` -/
  | testLast (found : Bool)
  /-- `V(&w)` of the last reader -/
  | unlock (found : Bool)
  /-- `V(&mutex)` before the end of `get_from_cache` -/
  | left (found : Bool)
  /-- `get_from_server` before its writer section -/
  | fetch
  /-- `P(&w)` of the writer -/
  | writerLock
  /-- `create_CI` and `insert_cache` -/
  | insert
  /-- `V(&w)` of the writer -/
  | writerUnlock
  /-- the end of the thread -/
  | done
  deriving DecidableEq

/-- What a step depends on besides the state. -/
inductive Event : Type where
  /-- nothing -/
  | go
  /-- the look-up finds nothing -/
  | miss
  /-- the look-up finds the last item, `c`, which stays in its place -/
  | hitLast (c : ℕ)
  /-- the look-up finds the item `c`, which has to move to the end -/
  | hitMove (c : ℕ)
  /-- the origin server cannot be reached -/
  | refused
  /-- the array holds `data`, and `Malloc` gives the node `c` with some links -/
  | create (data : List UInt8) (c prev next : ℕ)
  deriving DecidableEq

/-- The variables that synchronise the threads. -/
structure Shared : Type where
  /-- `mutex` -/
  mutex : ℕ
  /-- `w` -/
  w : ℕ
  /-- `readcnt` -/
  readcnt : ℤ

/-- The step of one thread. `P` waits for a positive value. -/
def Pc.step (v : Shared) : Pc → Event → Option (Shared × Pc)
  | .enter, _ => if 0 < v.mutex then some ({ v with mutex := v.mutex - 1 }, .inc) else none
  | .inc, _ => some ({ v with readcnt := v.readcnt + 1 }, .testFirst)
  | .testFirst, _ => some (v, if v.readcnt = 1 then .lock else .entered)
  | .lock, _ => if 0 < v.w then some ({ v with w := v.w - 1 }, .entered) else none
  | .entered, _ => some ({ v with mutex := v.mutex + 1 }, .lookup)
  | .lookup, .miss => some (v, .leave false)
  | .lookup, .hitLast c => some (v, .serve c)
  | .lookup, .hitMove c => some (v, .moving c)
  | .lookup, _ => none
  | .moving c, _ => some (v, .serve c)
  | .serve _, _ => some (v, .leave true)
  | .leave b, _ => if 0 < v.mutex then some ({ v with mutex := v.mutex - 1 }, .dec b) else none
  | .dec b, _ => some ({ v with readcnt := v.readcnt - 1 }, .testLast b)
  | .testLast b, _ => some (v, if v.readcnt = 0 then .unlock b else .left b)
  | .unlock b, _ => some ({ v with w := v.w + 1 }, .left b)
  | .left b, _ => some ({ v with mutex := v.mutex + 1 }, if b then .done else .fetch)
  | .fetch, .refused => some (v, .done)
  | .fetch, _ => some (v, .writerLock)
  | .writerLock, _ => if 0 < v.w then some ({ v with w := v.w - 1 }, .insert) else none
  | .insert, _ => some (v, .writerUnlock)
  | .writerUnlock, _ => some ({ v with w := v.w + 1 }, .done)
  | .done, _ => none

/-- The threads and what they share. -/
structure State (ι : Type) : Type where
  /-- the shared variables -/
  shared : Shared
  /-- where each thread is -/
  pc : ι → Pc

variable {ι : Type} [DecidableEq ι]

/-- One thread takes a step. -/
def State.next (s : State ι) (t : ι) (e : Event) : Option (State ι) :=
  ((s.pc t).step s.shared e).map fun r => ⟨r.1, Function.update s.pc t r.2⟩

/-- The locking protocol, from `cache_init` on. -/
def protocol (ι : Type) [DecidableEq ι] : Machine (State ι) (ι × Event) where
  init s := s = ⟨⟨1, 1, 0⟩, fun _ => .enter⟩
  step s a s' := s.next a.1 a.2 = some s'

/-! ## Kinds of program points -/

namespace Pc

/-- Holds `mutex`. -/
def holdsMutex : Pc → Bool
  | .inc | .testFirst | .lock | .entered | .dec _ | .testLast _ | .unlock _ | .left _ => true
  | _ => false

/-- Between its increment and its decrement of `readcnt`. -/
def counted : Pc → Bool
  | .testFirst | .lock | .entered | .lookup | .moving _ | .serve _ | .leave _ | .dec _ => true
  | _ => false

/-- Tests whether it is the first reader. -/
def first : Pc → Bool
  | .testFirst => true
  | _ => false

/-- The first reader, waiting for `w`. -/
def locking : Pc → Bool
  | .lock => true
  | _ => false

/-- Counted, and sure that the readers hold `w`. -/
def inside : Pc → Bool
  | .entered | .lookup | .moving _ | .serve _ | .leave _ | .dec _ => true
  | _ => false

/-- In `find_cache`. -/
def finding : Pc → Bool
  | .lookup | .moving _ => true
  | _ => false

/-- A writer that holds `w`. -/
def writing : Pc → Bool
  | .insert | .writerUnlock => true
  | _ => false

/-- Tests whether it was the last reader. -/
def testing : Pc → Bool
  | .testLast _ => true
  | _ => false

/-- The last reader, about to post `w`. -/
def unlocking : Pc → Bool
  | .unlock _ => true
  | _ => false

/-- At one of the other points where it holds `mutex`. -/
def passing : Pc → Bool
  | .inc | .entered | .dec _ | .left _ => true
  | _ => false

end Pc

/-! ## The invariant -/

/-- How many threads there are of each kind. -/
structure Census : Type where
  first : ℕ
  locking : ℕ
  inside : ℕ
  testing : ℕ
  unlocking : ℕ
  passing : ℕ
  writing : ℕ

/-- The readers as a group own `w`. -/
def ReadersHold (v : Shared) (n : Census) : Prop :=
  0 < n.inside ∨ 0 < n.unlocking ∨ (0 < n.testing ∧ v.readcnt = 0)

/-- Who holds what: `mutex` is free or held by one thread, and `w` is free, held
by one writer or held by the readers. -/
@[mk_iff] structure Balanced (v : Shared) (n : Census) : Prop where
  mutex : v.mutex + (n.first + n.locking + n.testing + n.unlocking + n.passing) = 1
  readcnt : v.readcnt = n.first + n.locking + n.inside
  locking : 0 < n.locking → v.readcnt = 1
  unlocking : 0 < n.unlocking → v.readcnt = 0
  held : ReadersHold v n → v.w + n.writing = 0
  free : ¬ReadersHold v n → v.w + n.writing = 1

/-- The census after one thread has moved from `p` to `x`. -/
structure Moves (p x : Pc) (n n' : Census) : Prop where
  first : n'.first + p.first.toNat = n.first + x.first.toNat
  locking : n'.locking + p.locking.toNat = n.locking + x.locking.toNat
  inside : n'.inside + p.inside.toNat = n.inside + x.inside.toNat
  testing : n'.testing + p.testing.toNat = n.testing + x.testing.toNat
  unlocking : n'.unlocking + p.unlocking.toNat = n.unlocking + x.unlocking.toNat
  passing : n'.passing + p.passing.toNat = n.passing + x.passing.toNat
  writing : n'.writing + p.writing.toNat = n.writing + x.writing.toNat

attribute [simp] Pc.first Pc.locking Pc.inside Pc.testing Pc.unlocking Pc.passing Pc.writing

/-- **One step of a thread keeps the balance.** -/
theorem Balanced.step {v v' : Shared} {p x : Pc} {e : Event} {n n' : Census} (h : Balanced v n)
    (hstep : p.step v e = some (v', x)) (hmoves : Moves p x n n') : Balanced v' n' := by
  obtain ⟨d₁, d₂, d₃, d₄, d₅, d₆, d₇⟩ := hmoves
  rw [balanced_iff, ReadersHold] at h ⊢
  cases p <;> simp only [Pc.step, Option.ite_none_right_eq_some, Option.some.injEq,
    Prod.mk.injEq] at hstep
  case enter | leave | lock | writerLock =>
    obtain ⟨hpos, rfl, rfl⟩ := hstep
    simp at d₁ d₂ d₃ d₄ d₅ d₆ d₇
    dsimp -failIfUnchanged only
    omega
  case inc | entered | moving | serve | dec | unlock | insert | writerUnlock =>
    obtain ⟨rfl, rfl⟩ := hstep
    simp at d₁ d₂ d₃ d₄ d₅ d₆ d₇
    dsimp -failIfUnchanged only
    omega
  case testFirst | testLast | left =>
    obtain ⟨rfl, rfl⟩ := hstep
    split at d₁ <;> rename_i hif <;> simp [hif] at d₁ d₂ d₃ d₄ d₅ d₆ d₇ <;>
      dsimp -failIfUnchanged only <;> omega
  case lookup | fetch =>
    cases e <;> cases hstep <;> simp at d₁ d₂ d₃ d₄ d₅ d₆ d₇ <;> omega
  case done => cases hstep

section

variable {ι : Type} [Fintype ι]

/-- The census of the threads. -/
def census (pc : ι → Pc) : Census where
  first := threads Pc.first pc
  locking := threads Pc.locking pc
  inside := threads Pc.inside pc
  testing := threads Pc.testing pc
  unlocking := threads Pc.unlocking pc
  passing := threads Pc.passing pc
  writing := threads Pc.writing pc

theorem census_moves [DecidableEq ι] (pc : ι → Pc) (t : ι) (x : Pc) :
    Moves (pc t) x (census pc) (census (Function.update pc t x)) where
  first := threads_update _ pc t x
  locking := threads_update _ pc t x
  inside := threads_update _ pc t x
  testing := threads_update _ pc t x
  unlocking := threads_update _ pc t x
  passing := threads_update _ pc t x
  writing := threads_update _ pc t x

/-- The number of threads that hold `mutex`. -/
theorem threads_holdsMutex (pc : ι → Pc) :
    threads Pc.holdsMutex pc = (census pc).first + (census pc).locking + (census pc).testing +
      (census pc).unlocking + (census pc).passing := by
  simp only [census, threads, ← Finset.sum_add_distrib]
  exact Finset.sum_congr rfl fun t _ => by cases pc t <;> rfl

/-- The number of readers between increment and decrement. -/
theorem threads_counted (pc : ι → Pc) :
    threads Pc.counted pc = (census pc).first + (census pc).locking + (census pc).inside := by
  simp only [census, threads, ← Finset.sum_add_distrib]
  exact Finset.sum_congr rfl fun t _ => by cases pc t <;> rfl

end

variable [Fintype ι]

/-- **The balance holds in every reachable state.** -/
theorem protocol_inductive :
    (protocol ι).Inductive (fun _ _ => True) fun s => Balanced s.shared (census s.pc) where
  init := by
    rintro s rfl
    have hzero : ∀ p : Pc → Bool, p .enter = false → threads p (fun _ : ι => Pc.enter) = 0 :=
      fun p hp => threads_eq_zero fun _ => hp
    have hcensus : census (fun _ : ι => Pc.enter) = ⟨0, 0, 0, 0, 0, 0, 0⟩ := by
      rw [census, hzero _ rfl, hzero _ rfl, hzero _ rfl, hzero _ rfl, hzero _ rfl, hzero _ rfl,
        hzero _ rfl]
    rw [balanced_iff, ReadersHold]
    simp [hcensus]
  step := by
    rintro s ⟨t, e⟩ s' h - hs
    obtain ⟨⟨v, x⟩, hstep, rfl⟩ := Option.map_eq_some_iff.mp hs
    exact h.step hstep (census_moves s.pc t x)

/-! ## What the protocol guarantees -/

theorem inside_of_finding {p : Pc} (h : p.finding = true) : p.inside = true := by
  cases p <;> first | rfl | cases h

/-- **One thread at a time holds `mutex`.** -/
theorem Balanced.mutex_exclusion {s : State ι} (h : Balanced s.shared (census s.pc)) {t u : ι}
    (hne : t ≠ u) (ht : (s.pc t).holdsMutex = true) : (s.pc u).holdsMutex = false := by
  cases hu : (s.pc u).holdsMutex with
  | false => rfl
  | true =>
    have htwo : 2 ≤ threads Pc.holdsMutex s.pc := two_le_threads hne ht hu
    have hmutex := h.mutex
    rw [threads_holdsMutex] at htwo
    omega

/-- **A writer excludes look-ups and other writers.** -/
theorem Balanced.exclusion {s : State ι} (h : Balanced s.shared (census s.pc)) {t u : ι}
    (hne : t ≠ u) (ht : s.pc t = .insert) :
    s.pc u ≠ .insert ∧ (s.pc u).finding = false := by
  rw [balanced_iff, ReadersHold] at h
  have hw : 0 < (census s.pc).writing := threads_pos (t := t) (by rw [ht]; rfl)
  refine ⟨fun hu => ?_, ?_⟩
  · have htwo : 2 ≤ (census s.pc).writing :=
      two_le_threads hne (by rw [ht]; rfl) (by rw [hu]; rfl)
    omega
  · cases hu : (s.pc u).finding with
    | false => rfl
    | true =>
      have hin : 0 < (census s.pc).inside := threads_pos (inside_of_finding hu)
      omega

/-- A thread that cannot step waits for `mutex` or for `w`. -/
theorem Pc.step_or_waits (v : Shared) {p : Pc} (hp : p ≠ .done) :
    (∃ e r, p.step v e = some r) ∨
      v.mutex = 0 ∧ (p = .enter ∨ ∃ b, p = .leave b) ∨ v.w = 0 ∧ (p = .lock ∨ p = .writerLock) := by
  cases p with
  | enter =>
    by_cases hm : 0 < v.mutex
    · exact .inl ⟨.go, _, if_pos hm⟩
    · exact .inr (.inl ⟨by omega, .inl rfl⟩)
  | leave b =>
    by_cases hm : 0 < v.mutex
    · exact .inl ⟨.go, _, if_pos hm⟩
    · exact .inr (.inl ⟨by omega, .inr ⟨b, rfl⟩⟩)
  | lock =>
    by_cases hw : 0 < v.w
    · exact .inl ⟨.go, _, if_pos hw⟩
    · exact .inr (.inr ⟨by omega, .inl rfl⟩)
  | writerLock =>
    by_cases hw : 0 < v.w
    · exact .inl ⟨.go, _, if_pos hw⟩
    · exact .inr (.inr ⟨by omega, .inr rfl⟩)
  | lookup => exact .inl ⟨.miss, _, rfl⟩
  | done => exact absurd rfl hp
  | _ => exact .inl ⟨.go, _, rfl⟩

/-- **No deadlock**: if a thread is not at its end, some thread can take a step. -/
theorem Balanced.progress {s : State ι} (h : Balanced s.shared (census s.pc)) {t : ι}
    (ht : s.pc t ≠ .done) : ∃ u e s', s.next u e = some s' := by
  by_contra hstuck
  have hwaits : ∀ u, s.pc u ≠ .done →
      s.shared.mutex = 0 ∧ (s.pc u = .enter ∨ ∃ b, s.pc u = .leave b) ∨
        s.shared.w = 0 ∧ (s.pc u = .lock ∨ s.pc u = .writerLock) := by
    intro u hu
    refine (Pc.step_or_waits s.shared hu).resolve_left ?_
    rintro ⟨e, r, hr⟩
    exact hstuck ⟨u, e, _, by rw [State.next, hr]; rfl⟩
  -- every thread waits, so most kinds are empty
  have hnone : ∀ k : Pc → Bool, k .done = false → k .enter = false → (∀ b, k (.leave b) = false) →
      k .lock = false → k .writerLock = false → threads k s.pc = 0 := by
    intro k h₁ h₂ h₃ h₄ h₅
    refine threads_eq_zero fun u => ?_
    by_cases hu : s.pc u = .done
    · rw [hu, h₁]
    · rcases hwaits u hu with ⟨-, hu | ⟨b, hu⟩⟩ | ⟨-, hu | hu⟩ <;> simp [hu, h₂, h₃, h₄, h₅]
  have hfirst : (census s.pc).first = 0 := hnone _ rfl rfl (fun _ => rfl) rfl rfl
  have htesting : (census s.pc).testing = 0 := hnone _ rfl rfl (fun _ => rfl) rfl rfl
  have hunlocking : (census s.pc).unlocking = 0 := hnone _ rfl rfl (fun _ => rfl) rfl rfl
  have hpassing : (census s.pc).passing = 0 := hnone _ rfl rfl (fun _ => rfl) rfl rfl
  have hwriting : (census s.pc).writing = 0 := hnone _ rfl rfl (fun _ => rfl) rfl rfl
  have hinside : 0 < (census s.pc).inside → s.shared.mutex = 0 := by
    intro hpos
    obtain ⟨u, hu⟩ := exists_of_threads_pos hpos
    have hdone : s.pc u ≠ .done := fun hd => by simp [hd] at hu
    rcases hwaits u hdone with ⟨hm, -⟩ | ⟨-, hl | hl⟩
    · exact hm
    · simp [hl] at hu
    · simp [hl] at hu
  have hlocking : 0 < (census s.pc).locking → s.shared.w = 0 := by
    intro hpos
    obtain ⟨u, hu⟩ := exists_of_threads_pos hpos
    have hdone : s.pc u ≠ .done := fun hd => by simp [hd] at hu
    rcases hwaits u hdone with ⟨-, hl | ⟨b, hl⟩⟩ | ⟨hw, -⟩
    · simp [hl] at hu
    · simp [hl] at hu
    · exact hw
  rw [balanced_iff, ReadersHold] at h
  rcases hwaits t ht with ⟨hm, -⟩ | ⟨hw, -⟩ <;> omega

/-- **The readers-writer protocol**: a writer excludes look-ups and other writers,
`w` is at most 1, `readcnt` counts the readers, and no state is stuck. -/
theorem readers_writer {s : State ι} (hs : (protocol ι).Reach s) :
    (∀ t u, t ≠ u → s.pc t = .insert → s.pc u ≠ .insert ∧ (s.pc u).finding = false) ∧
      s.shared.w ≤ 1 ∧ s.shared.readcnt = threads Pc.counted s.pc ∧
      ∀ t, s.pc t ≠ .done → ∃ u e s', s.next u e = some s' := by
  have h := protocol_inductive.holds hs
  refine ⟨fun t u hne ht => h.exclusion hne ht, ?_, ?_, fun t ht => h.progress ht⟩
  · rw [balanced_iff, ReadersHold] at h
    omega
  · rw [threads_counted]
    exact h.readcnt.trans (by push_cast; rfl)

/-- A thread has missed and inserts, while another one holds `mutex` and waits for
`w`. -/
theorem readers_writer_run : ∃ s : State (Fin 2), s.pc 0 = .insert ∧ s.pc 1 = .lock ∧
    s.shared.w ≤ 1 ∧ ∃ u e s', s.next u e = some s' := by
  have hrun : ((Machine.exec (fun s a => State.next s a.1 a.2) (⟨⟨1, 1, 0⟩, fun _ => .enter⟩)
      (List.replicate 5 ((0 : Fin 2), Event.go) ++ [(0, .miss)] ++ List.replicate 7 (0, .go) ++
        List.replicate 3 (1, .go))).any fun s => s.pc 0 = .insert ∧ s.pc 1 = .lock) = true := by
    decide +kernel
  obtain ⟨s, e, hs⟩ := (Option.any_eq_true ..).mp hrun
  simp only [decide_eq_true_eq] at hs
  have hreach : (protocol (Fin 2)).Reach s :=
    Machine.ReachWhen.exec (fun _ _ _ h => ⟨trivial, h⟩) (.init rfl) e
  have h := readers_writer hreach
  exact ⟨s, hs.1, hs.2, h.2.1, h.2.2.2 0 (by simp [hs.1])⟩

end Proxy

end SysProgLab
