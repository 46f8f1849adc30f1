import Mathlib.Algebra.Order.Ring.Int
import SysProgLab.Smallest
import SysProgLab.Stopping

/-!
# The K-best sampler: `fcyc`

`fcyc` runs a function over and over and keeps the `kbest` smallest measurements in an
array, sorted by insertion. It stops as soon as they have converged, or after
`maxsamples` runs, and answers with the least measurement (`fcyc_least`). What is
measured, and when two measurements are close enough, is left open.
-/

namespace SysProgLab

universe u

/-- `values` and `samplecount`. -/
structure Sampler (α : Type u) : Type u where
  /-- `values` -/
  values : List α
  /-- `samplecount` -/
  samplecount : ℕ

namespace Sampler

variable {α : Type u} [LinearOrder α]

/-- `init_sampler` -/
def initSampler [Zero α] (kbest : ℕ) : Sampler α := ⟨List.replicate kbest 0, 0⟩

/-- `values[pos] = val`; `none` outside the array. -/
def store {α : Type u} (values : List α) (pos : ℕ) (val : α) : Option (List α) :=
  if pos < values.length then some (values.set pos val) else none

/-- The insertion sort of `add_sample`: the value at `pos` moves down past the greater ones;
`none` is an access outside the array. -/
def sift : ℕ → List α → Option (List α)
  | 0, values => some values
  | pos + 1, values => do
    let temp ← values[pos]?
    let v ← values[pos + 1]?
    if v < temp then do
      let values ← store values pos v
      let values ← store values (pos + 1) temp
      sift pos values
    else some values

/-- The first part of `add_sample`: `pos`, and the array with the value in its place. -/
def placeSample (kbest : ℕ) (s : Sampler α) (val : α) : Option (ℕ × List α) :=
  if s.samplecount < kbest then do
    let values ← store s.values s.samplecount val
    some (s.samplecount, values)
  else do
    let last ← s.values[kbest - 1]?
    if val < last then do
      let values ← store s.values (kbest - 1) val
      some (kbest - 1, values)
    else some (0, s.values)

/-- `add_sample`; `none` is an access outside the array. -/
def addSample (kbest : ℕ) (s : Sampler α) (val : α) : Option (Sampler α) := do
  let (pos, values) ← s.placeSample kbest val
  let values ← sift pos values
  some ⟨values, s.samplecount + 1⟩

/-- `has_converged`; `close a b` is `(1 + epsilon)*a >= b`, and `none` is an access outside the
array. -/
def hasConverged (close : α → α → Bool) (kbest : ℕ) (s : Sampler α) : Option Bool :=
  if kbest ≤ s.samplecount then
    s.values[0]?.bind fun a => s.values[kbest - 1]?.map fun b => close a b
  else some false

/-- The loop of `fcyc`, whose `k`-th run is measured as `cyc k`. -/
def sampleLoop (close : α → α → Bool) (kbest : ℕ) (maxsamples : ℤ) (cyc : ℕ → α) :
    ℕ → Sampler α → Option (Sampler α)
  | 0, _ => none
  | fuel + 1, s =>
    (s.addSample kbest (cyc s.samplecount)).bind fun s =>
      (s.hasConverged close kbest).bind fun converged =>
        if converged = false ∧ s.samplecount < maxsamples then
          sampleLoop close kbest maxsamples cyc fuel s
        else some s

/-- `fcyc`: the result and the number of runs. -/
def fcyc [Zero α] (close : α → α → Bool) (kbest : ℕ) (maxsamples : ℤ) (cyc : ℕ → α) :
    Option (α × ℕ) := do
  let s ← sampleLoop close kbest maxsamples cyc (maxsamples.toNat + 1) (initSampler kbest)
  let result ← s.values[0]?
  some (result, s.samplecount)

/-! ## The array -/

variable {vs : List α} {kbest : ℕ} {s : Sampler α} {cyc : ℕ → α}

/-- A store inside the array. -/
theorem store_append {α : Type u} (pre post : List α) (a val : α) :
    store (pre ++ a :: post) pre.length val = some (pre ++ val :: post) := by
  rw [store, if_pos (by simp), List.set_append_right _ _ le_rfl, Nat.sub_self]
  rfl

/-- **Insertion** stays inside the array and puts the value in its place among the sorted ones
before it. -/
theorem sift_spec (v : α) : ∀ {pos : ℕ} {pre : List α} (post : List α), pre.length = pos →
    pre.Pairwise (· ≤ ·) → ∃ q, sift pos (pre ++ v :: post) = some (q ++ post) ∧
      q.Pairwise (· ≤ ·) ∧ q.Perm (v :: pre) := by
  intro pos
  induction pos with
  | zero =>
    intro pre _ hlen _
    obtain rfl := List.length_eq_zero_iff.mp hlen
    exact ⟨[v], rfl, List.pairwise_singleton .., .refl _⟩
  | succ pos ih =>
    intro pre post hlen hsorted
    obtain rfl | ⟨pre, a, rfl⟩ := List.eq_nil_or_concat' pre
    · cases hlen
    rw [List.length_append, List.length_singleton, Nat.add_right_cancel_iff] at hlen
    obtain ⟨hpre, -, hle⟩ := List.pairwise_append.mp hsorted
    have hat : (pre ++ [a] ++ v :: post)[pos]? = some a := by
      rw [← hlen, List.append_assoc, List.singleton_append, List.getElem?_append_right le_rfl,
        Nat.sub_self]
      rfl
    have hnext : (pre ++ [a] ++ v :: post)[pos + 1]? = some v := by
      have hlen' : (pre ++ [a]).length = pos + 1 := by rw [List.length_append, hlen]; rfl
      rw [← hlen', List.getElem?_append_right le_rfl, Nat.sub_self]
      rfl
    rw [sift, hat, Option.bind_eq_bind, Option.bind_some, hnext, Option.bind_eq_bind,
      Option.bind_some]
    split
    · next hva =>
      -- the two stores exchange the value and the one before it
      have hfirst : store (pre ++ [a] ++ v :: post) pos v = some (pre ++ [v] ++ v :: post) := by
        rw [List.append_assoc, List.singleton_append, ← hlen, store_append, List.append_assoc,
          List.singleton_append]
      have hsecond : store (pre ++ [v] ++ v :: post) (pos + 1) a =
          some (pre ++ v :: a :: post) := by
        have hlen' : pos + 1 = (pre ++ [v]).length := by rw [List.length_append, hlen]; rfl
        rw [hlen', store_append, List.append_assoc, List.singleton_append]
      obtain ⟨q, hsift, hq, hperm⟩ := ih (a :: post) hlen hpre
      refine ⟨q ++ [a], ?_, ?_, ?_⟩
      · rw [hfirst, Option.bind_some, hsecond, Option.bind_some, hsift, List.append_assoc,
          List.singleton_append]
      · refine List.pairwise_append.mpr ⟨hq, List.pairwise_singleton .., fun b hb c hc => ?_⟩
        obtain rfl := List.mem_singleton.mp hc
        rcases List.mem_cons.mp (hperm.mem_iff.mp hb) with rfl | hb
        · exact hva.le
        · exact hle b hb c hc
      · exact hperm.append_right [a]
    · next hva =>
      have hav := not_lt.mp hva
      refine ⟨pre ++ [a] ++ [v], by simp, ?_, List.perm_append_singleton ..⟩
      refine List.pairwise_append.mpr ⟨hsorted, List.pairwise_singleton .., fun b hb c hc => ?_⟩
      obtain rfl := List.mem_singleton.mp hc
      rcases List.mem_append.mp hb with hb | hb
      · exact (hle b hb a (List.mem_singleton_self a)).trans hav
      · exact (List.mem_singleton.mp hb).trans_le hav

/-- **The array holds the smallest measurements** of `vs`, and then what was in it before. -/
structure Keeps (kbest : ℕ) (vs : List α) (s : Sampler α) : Prop where
  count : s.samplecount = vs.length
  size : s.values.length = kbest
  best : ∃ l old, s.values = l ++ old ∧ Smallest kbest vs l

theorem initSampler_keeps [Zero α] (kbest : ℕ) : Keeps kbest ([] : List α) (initSampler kbest) :=
  ⟨rfl, List.length_replicate, [], _, rfl, .nil kbest⟩

/-- **One measurement** is taken in. -/
theorem Keeps.addSample (h : Keeps kbest vs s) (hk : 0 < kbest) (val : α) :
    ∃ s', s.addSample kbest val = some s' ∧ Keeps kbest (val :: vs) s' := by
  obtain ⟨l, old, hvalues, hbest⟩ := h.best
  have hcount := h.count
  have hsize := h.size
  have hlen := hbest.length
  rw [hvalues, List.length_append] at hsize
  rw [Sampler.addSample, placeSample]
  split
  · next hroom =>
    obtain ⟨x, old, rfl⟩ := List.exists_cons_of_length_pos (by omega : 0 < old.length)
    obtain ⟨q, hsift, hq, hperm⟩ := sift_spec val old rfl hbest.sorted
    have hpos : s.samplecount = l.length := by omega
    refine ⟨⟨q ++ old, s.samplecount + 1⟩, ?_, ⟨by rw [h.count]; rfl, ?_, q, old, rfl,
      hbest.room (by omega) hq hperm⟩⟩
    · rw [hvalues, hpos, store_append]
      simp only [Option.bind_eq_bind, Option.bind_some, hsift]
    · rw [List.length_append, hperm.length_eq]
      rw [List.length_cons] at hsize ⊢
      omega
  · next hfull =>
    obtain rfl : old = [] := List.length_eq_zero_iff.mp (by omega)
    rw [List.append_nil] at hvalues
    obtain rfl | ⟨l, a, rfl⟩ := List.eq_nil_or_concat' l
    · rw [List.length_nil] at hlen
      omega
    rw [List.length_append, List.length_singleton] at hlen
    have hpos : kbest - 1 = l.length := by omega
    have hlast : s.values[kbest - 1]? = some a := by
      rw [hvalues, hpos, List.getElem?_append_right le_rfl, Nat.sub_self]
      rfl
    simp only [hlast, Option.bind_eq_bind, Option.bind_some]
    split
    · next hlt =>
      obtain ⟨q, hsift, hq, hperm⟩ := sift_spec val [] rfl
        (List.pairwise_append.mp hbest.sorted).1
      refine ⟨⟨q, s.samplecount + 1⟩, ?_, ⟨by rw [h.count]; rfl, ?_, q, [],
        (List.append_nil q).symm, hbest.better (by omega) hlt.le hq hperm⟩⟩
      · rw [hvalues, hpos, store_append]
        simp only [Option.bind_some, hsift, List.append_nil]
      · rw [hperm.length_eq, List.length_cons]
        omega
    · next hlt =>
      refine ⟨⟨s.values, s.samplecount + 1⟩, ?_, ⟨by rw [h.count]; rfl, h.size, l ++ [a], [],
        by rw [List.append_nil]; exact hvalues, hbest.worse (by omega) (not_lt.mp hlt)⟩⟩
      simp only [Option.bind_some, sift]

/-! ## The runs -/

/-- The first `n` measurements, the last one first. -/
def measured {α : Type u} (cyc : ℕ → α) : ℕ → List α
  | 0 => []
  | n + 1 => cyc n :: measured cyc n

/-- **The first `n` measurements have converged**: the least and the `kbest`-th smallest are
close. -/
def Converged (close : α → α → Bool) (kbest : ℕ) (cyc : ℕ → α) (n : ℕ) : Prop :=
  kbest ≤ n ∧ ∃ a b, (measured cyc n).mergeSort[0]? = some a ∧
    (measured cyc n).mergeSort[kbest - 1]? = some b ∧ close a b = true

theorem length_measured {α : Type u} (cyc : ℕ → α) (n : ℕ) : (measured cyc n).length = n := by
  induction n with
  | zero => rfl
  | succ n ih => rw [measured, List.length_cons, ih]

theorem mem_measured {α : Type u} {cyc : ℕ → α} {n : ℕ} {x : α} :
    x ∈ measured cyc n ↔ ∃ i < n, cyc i = x := by
  induction n with
  | zero => simp [measured]
  | succ n ih =>
    rw [measured, List.mem_cons, ih, Nat.exists_lt_succ_right, or_comm, eq_comm]

/-- What stands in the array in a place that is in use. -/
theorem Keeps.getElem? (h : Keeps kbest vs s) {i : ℕ} (hi : i < kbest) (hn : i < vs.length) :
    s.values[i]? = vs.mergeSort[i]? := by
  obtain ⟨l, old, hvalues, hbest⟩ := h.best
  have hlen := hbest.length
  rw [hvalues, List.getElem?_append_left (by omega), hbest.eq_take, List.getElem?_take_of_lt hi]

/-- **The test** stays inside the array and tells whether the measurements have converged. -/
theorem Keeps.hasConverged (close : α → α → Bool) {n : ℕ} (h : Keeps kbest (measured cyc n) s)
    (hk : 0 < kbest) :
    ∃ c, s.hasConverged close kbest = some c ∧ (c = true ↔ Converged close kbest cyc n) := by
  have hcount := h.count
  rw [length_measured] at hcount
  rw [Sampler.hasConverged, Converged, hcount]
  split
  · next hn =>
    have hlen : (measured cyc n).mergeSort.length = n := by
      rw [List.length_mergeSort, length_measured]
    have hfirst := List.getElem?_eq_getElem (l := (measured cyc n).mergeSort) (i := 0) (by omega)
    have hlast := List.getElem?_eq_getElem (l := (measured cyc n).mergeSort) (i := kbest - 1)
      (by omega)
    rw [h.getElem? hk (by rw [length_measured]; omega),
      h.getElem? (i := kbest - 1) (by omega) (by rw [length_measured]; omega), hfirst, hlast]
    refine ⟨_, rfl, fun hclose => ⟨hn, _, _, rfl, rfl, hclose⟩, ?_⟩
    rintro ⟨-, a, b, ha, hb, hclose⟩
    rwa [Option.some.inj ha, Option.some.inj hb]
  · next hn => exact ⟨false, rfl, (nomatch ·), fun h => absurd h.1 hn⟩

/-- **The loop** goes on until the measurements have converged or there are enough. -/
theorem sampleLoop_spec (close : α → α → Bool) (maxsamples : ℤ) (hk : 0 < kbest) :
    ∀ {fuel n : ℕ} {s : Sampler α},
    Keeps kbest (measured cyc n) s → maxsamples.toNat < n + fuel → 0 < fuel →
    ∃ m s', sampleLoop close kbest maxsamples cyc fuel s = some s' ∧ n < m ∧
      Keeps kbest (measured cyc m) s' ∧ (m = n + 1 ∨ m ≤ maxsamples) ∧
      (Converged close kbest cyc m ∨ maxsamples ≤ m) ∧
      ∀ i, n < i → i < m → ¬Converged close kbest cyc i := by
  intro fuel
  induction fuel with
  | zero => exact fun _ _ h => absurd h (Nat.lt_irrefl 0)
  | succ fuel ih =>
    intro n s h hfuel _
    have hcount := h.count
    rw [length_measured] at hcount
    obtain ⟨s₁, hadd, h₁⟩ := h.addSample hk (cyc s.samplecount)
    rw [hcount] at h₁
    change Keeps kbest (measured cyc (n + 1)) s₁ at h₁
    have hcount₁ := h₁.count
    rw [length_measured] at hcount₁
    obtain ⟨c, htest, hconv⟩ := h₁.hasConverged close hk
    rw [sampleLoop, hadd, Option.bind_some, htest, Option.bind_some]
    split
    · next hgo =>
      rw [← Bool.not_eq_true, hconv, hcount₁] at hgo
      obtain ⟨m, s', hloop, hm, hkeeps, hmax, hstop, hbefore⟩ := ih h₁ (by omega) (by omega)
      refine ⟨m, s', hloop, by omega, hkeeps, .inr ?_, hstop, fun i hi him => ?_⟩
      · rcases hmax with rfl | hmax <;> omega
      · rcases Nat.lt_or_eq_of_le (Nat.succ_le_of_lt hi) with hi | rfl
        · exact hbefore i hi him
        · exact hgo.1
    · next hstop =>
      refine ⟨n + 1, s₁, rfl, Nat.lt_succ_self n, h₁, .inl rfl, ?_, fun i hi him => by omega⟩
      rw [← Bool.not_eq_true, hconv, hcount₁] at hstop
      rcases not_and_or.mp hstop with hstop | hstop
      · exact .inl (not_not.mp hstop)
      · exact .inr (not_lt.mp hstop)

/-- **`fcyc`** runs the function until, for the first time, the measurements have converged or
there are `maxsamples` of them, and answers with the least one. -/
theorem fcyc_least [Zero α] (close : α → α → Bool) (maxsamples : ℤ) (cyc : ℕ → α) (hk : 0 < kbest) :
    ∃ result n, fcyc close kbest maxsamples cyc = some (result, n) ∧
      IsLeast {x | ∃ i < n, cyc i = x} result ∧ 0 < n ∧ (n = 1 ∨ n ≤ maxsamples) ∧
      (Converged close kbest cyc n ∨ maxsamples ≤ n) ∧
      ∀ i, 0 < i → i < n → ¬Converged close kbest cyc i := by
  obtain ⟨n, s, hloop, hn, hkeeps, hmax, hstop, hbefore⟩ :=
    sampleLoop_spec close maxsamples hk (n := 0) (initSampler_keeps kbest)
      (by omega : maxsamples.toNat < 0 + (maxsamples.toNat + 1)) (Nat.succ_pos _)
  obtain ⟨l, old, hvalues, hbest⟩ := hkeeps.best
  have hlen := hbest.length
  rw [length_measured] at hlen
  obtain ⟨a, l, rfl⟩ := List.exists_cons_of_length_pos (by omega : 0 < l.length)
  have hcount := hkeeps.count
  rw [length_measured] at hcount
  refine ⟨a, n, ?_, ?_, hn, hmax.imp_left fun h => by omega, hstop, hbefore⟩
  · rw [fcyc, hloop, Option.bind_eq_bind, Option.bind_some, hvalues, hcount]
    rfl
  · have hleast := hbest.isLeast
    simpa only [mem_measured] using hleast

/-- The settings of `init_fsecs`, where every third run is slower than the others. -/
theorem fcyc_least_fsecs :
    ∃ result n, fcyc (fun a b => decide (100 * b ≤ 101 * a)) 3 20
        (fun i => if i % 3 = 0 then (900 : ℤ) else 700) = some (result, n) ∧
      IsLeast {x | ∃ i < n, (if i % 3 = 0 then (900 : ℤ) else 700) = x} result ∧ 0 < n ∧
      (n = 1 ∨ (n : ℤ) ≤ 20) ∧
      (Converged (fun a b => decide (100 * b ≤ 101 * a)) 3
        (fun i => if i % 3 = 0 then (900 : ℤ) else 700) n ∨ 20 ≤ (n : ℤ)) ∧
      ∀ i, 0 < i → i < n → ¬Converged (fun a b => decide (100 * b ≤ 101 * a)) 3
        (fun i => if i % 3 = 0 then (900 : ℤ) else 700) i :=
  fcyc_least _ 20 _ (by decide)

example : fcyc (fun a b => decide (100 * b ≤ 101 * a)) 3 20
    (fun i => if i % 3 = 0 then (900 : ℤ) else 700) = some (700, 5) := by decide +kernel

end Sampler

end SysProgLab
