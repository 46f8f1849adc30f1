import SysProgLab.Contract
import Mathlib.Order.Monotone.Defs

/-!
# `mm_malloc` is best-fit

A search through segregated lists, from the class of the request up, stops at an
element of minimal size when the classes grow with the sizes and every list
ascends. `find_fit` is such a search, and `mm_malloc` cuts what it returns, or what
`extend_heap` adds when it returns nothing.
-/

namespace SysProgLab

/-! ## Segregated search -/

section Search

variable {α : Type*} {segs : ℕ → List α} {size : α → ℕ} {cls : ℕ → ℕ} {n : ℕ} {b c : α}

/-- The first element of an ascending list that is large enough is the smallest. -/
theorem find?_le {l : List α} (hsorted : l.Pairwise fun b c => size b ≤ size c)
    (h : l.find? (fun b => n ≤ size b) = some b) (hc : c ∈ l) (hle : n ≤ size c) :
    size b ≤ size c := by
  obtain ⟨-, l₁, l₂, rfl, hsmall⟩ := List.find?_eq_some_iff_append.mp h
  rcases List.mem_append.mp hc with hc | hc
  · exact absurd hle (by simpa using hsmall c hc)
  rcases List.mem_cons.mp hc with rfl | hc
  · exact le_refl _
  · exact (List.pairwise_cons.mp (List.pairwise_append.mp hsorted).2.1).1 c hc

/-- **The search returns an element of minimal size**, over all lists from its first
one up. -/
theorem findSome?_le (hcls : Monotone cls) (hlisted : ∀ i, ∀ b ∈ segs i, cls (size b) = i)
    (hsorted : ∀ i, (segs i).Pairwise fun b c => size b ≤ size c)
    (hc : c ∈ segs (cls (size c))) (hle : n ≤ size c) : ∀ {k start : ℕ},
    (List.range' start k).findSome? (fun i => (segs i).find? fun b => n ≤ size b) = some b →
    start ≤ cls (size c) → size b ≤ size c := by
  intro k
  induction k with
  | zero =>
    intro start h
    cases h
  | succ k ih =>
    intro start h hstart
    rw [List.range'_succ, List.findSome?_cons] at h
    cases hf : (segs start).find? fun b => n ≤ size b with
    | none =>
      rw [hf] at h
      have hne : cls (size c) ≠ start := by
        intro he
        exact absurd hle (by simpa using List.find?_eq_none.mp hf c (he ▸ hc))
      exact ih h (by omega)
    | some b' =>
      rw [hf] at h
      obtain rfl : b' = b := Option.some.inj h
      rcases hstart.eq_or_lt with heq | hlt
      · exact find?_le (hsorted start) hf (heq ▸ hc) hle
      · -- a smaller element would be of no higher class
        by_contra hbc
        have hb := hlisted start b' (List.mem_of_find?_eq_some hf)
        have hmono := hcls (not_le.mp hbc).le
        omega

/-- A search that returns nothing met every element of its lists. -/
theorem findSome?_none {k start i : ℕ}
    (h : (List.range' start k).findSome? (fun i => (segs i).find? fun b => n ≤ size b) = none)
    (hi : start ≤ i) (hik : i < start + k) (hc : c ∈ segs i) : size c < n := by
  have hnone := List.findSome?_eq_none_iff.mp h i (List.mem_range'_1.mpr ⟨hi, hik⟩)
  simpa using List.find?_eq_none.mp hnone c hc

end Search

/-- One step of the comparisons of `get_seg_level`. -/
theorem ite_le_ite {a b i k x y : ℕ} (hab : a ≤ b) (hi : i ≤ y) (hx : x ≤ y) :
    (if a ≤ k then i else x) ≤ if b ≤ k then i else y := by
  split
  · split
    · exact le_refl _
    · exact hi
  · rw [if_neg (by omega)]
    exact hx

theorem le_ite {b i j k y : ℕ} (hj : i ≤ j) (hy : i ≤ y) : i ≤ if b ≤ k then j else y := by
  split
  · exact hj
  · exact hy

/-- Larger blocks are of higher classes. -/
theorem getSegLevel_mono : Monotone getSegLevel := by
  intro a b hab
  have hdiv : a / dsize ≤ b / dsize := Nat.div_le_div_right hab
  simp only [getSegLevel]
  repeat' first
    | exact le_refl _
    | decide
    | apply ite_le_ite hdiv
    | apply le_ite

/-! ## The layout -/

namespace Layout

variable {L : Layout} {m : Mem} {b c : Block} {size asize : ℕ}

/-- **The fit is minimal** among all free blocks that are large enough. -/
theorem RepBy.fit_le (h : L.RepBy m) (hf : L.fit size = some b) (hc : c ∈ L.blocks)
    (hfree : c.alloc = false) (hle : size ≤ c.size) : b.size ≤ c.size :=
  findSome?_le getSegLevel_mono (fun i b hb => (h.rep.listed i b hb).2.2)
    (fun i => h.rep.sorted i) (h.ok.full c hc hfree) hle hf (getSegLevel_mono hle)

/-- **No fit is found only if there is none.** -/
theorem RepBy.fit_none (h : L.RepBy m) (hf : L.fit size = none) (hc : c ∈ L.blocks)
    (hfree : c.alloc = false) : c.size < size := by
  by_contra hle
  have hmono := getSegLevel_mono (not_lt.mp hle)
  have hlt := getSegLevel_lt c.size
  exact hle (findSome?_none hf hmono (by omega) (h.ok.full c hc hfree))

/-- A free block of at least `n` bytes. -/
def Fits (L : Layout) (n : ℕ) (b : Block) : Prop :=
  b ∈ L.blocks ∧ b.alloc = false ∧ n ≤ b.size

/-- **A fit is found exactly if there is one.** -/
theorem RepBy.fit_eq_none_iff {n : ℕ} (h : L.RepBy m) : L.fit n = none ↔ ¬∃ c, L.Fits n c := by
  constructor
  · rintro hf ⟨c, hc, hfree, hle⟩
    exact absurd (h.fit_none hf hc hfree) (not_lt.mpr hle)
  · intro hfit
    cases hf : L.fit n with
    | none => rfl
    | some c => exact absurd ⟨c, h.fit_spec hf⟩ hfit

end Layout

/-! ## The code -/

/-- When `extend_heap` returns a block, `mem_sbrk` granted it. -/
theorem extendHeap_sbrk {h h' : Heap} {n bp : ℕ} (h8 : 8 ∣ n) (hn : n < 2 ^ 32)
    (e : extendHeap h (n / wsize) = some (bp, h')) (hbp : bp ≠ 0) :
    n < 2 ^ 31 ∧ h'.memBrk = h.arith.add h.memBrk n ∧ h'.memStartBrk = h.memStartBrk := by
  rw [extendHeap, extendHeap_size h8 hn] at e
  cases hs : memSbrk h (toInt32 n) with
  | none =>
    rw [hs] at e
    cases e
    exact absurd rfl hbp
  | some r =>
    obtain ⟨p, h₁⟩ := r
    rw [hs] at e
    obtain ⟨m₁, -, e⟩ := Option.bind_eq_some_iff.mp e
    obtain ⟨⟨bp', m₂⟩, -, e⟩ := Option.bind_eq_some_iff.mp e
    cases e
    rw [memSbrk] at hs
    split at hs
    · cases hs
    · rename_i hok
      obtain ⟨rfl, rfl⟩ : h.memBrk = p ∧ _ = h₁ := by simpa using hs
      have hlt : n < 2 ^ 31 := by
        by_contra hge
        exact hok (.inl (toInt32_neg (not_lt.mp hge) hn))
      refine ⟨hlt, ?_, rfl⟩
      dsimp only
      rw [toInt32_of_lt hlt, Int.toNat_natCast]

/-- When `mm_malloc` returns a block without a fit, `mem_sbrk` granted it. -/
theorem mmMalloc_sbrk {h h' : Heap} {size q : ℕ} (h0 : size ≠ 0) (hsize : size + 15 < 2 ^ 32)
    (hfit : findFit h.heapListp h.mem (adjust size) = some 0)
    (e : mmMalloc h size = some (q, h')) (hq : q ≠ 0) :
    max (adjust size) chunksize < 2 ^ 31 ∧
      h'.memBrk = h.arith.add h.memBrk (max (adjust size) chunksize) ∧
      h'.memStartBrk = h.memStartBrk := by
  obtain ⟨h8, -, -, hle⟩ := adjust_spec hsize
  have h8' := dvd_max_chunksize h8
  have hn : max (adjust size) chunksize < 2 ^ 32 := Nat.max_lt.mpr ⟨by omega, by decide⟩
  rw [mmMalloc, if_neg h0] at e
  dsimp only at e
  rw [hfit, Option.bind_eq_bind, Option.bind_some, if_neg (not_not.mpr rfl)] at e
  obtain ⟨⟨bp, h₁⟩, e₁, e⟩ := Option.bind_eq_some_iff.mp e
  split at e
  · cases e
    exact absurd rfl hq
  · rename_i hbp
    obtain ⟨m', -, e⟩ := Option.bind_eq_some_iff.mp e
    cases e
    obtain ⟨hlt, hgrown⟩ := extendHeap_sbrk h8' hn e₁ hbp
    exact ⟨hlt, hgrown⟩

namespace Heap.Models

variable {h : Heap} {L : Layout} {size : ℕ}

/-- When a free block fits, `find_fit` returns the smallest that does, and
`mm_malloc` returns it without moving `mem_brk`. -/
theorem malloc_fit (hL : h.Models L) (h0 : size ≠ 0) (hsize : size + 15 < 2 ^ 32)
    (hfit : ∃ c, L.Fits (adjust size) c) :
    ∃ b, L.Fits (adjust size) b ∧ (∀ c, L.Fits (adjust size) c → b.size ≤ c.size) ∧
      findFit h.heapListp h.mem (adjust size) = some b.addr ∧
      ∃ h', SysProgLab.mmMalloc h size = some (b.addr, h') ∧ h'.memBrk = h.memBrk := by
  cases hf : L.fit (adjust size) with
  | none => exact absurd hfit (hL.repBy.fit_eq_none_iff.mp hf)
  | some b =>
    have hm := hL.mmMalloc h0 hsize fun hnone => absurd (hnone.symm.trans hf) (by simp)
    rw [Layout.malloc, hf] at hm
    obtain ⟨m', e, -⟩ := hm
    refine ⟨b, hL.repBy.fit_spec hf, fun c hc => hL.repBy.fit_le hf hc.1 hc.2.1 hc.2.2, ?_, _, e, ?_⟩
    · rw [hL.listp, hL.repBy.findFit, hf]
      rfl
    · exact (Layout.place_brk ..).trans hL.brk.symm

end Heap.Models

end SysProgLab
