import Mathlib.Data.List.Perm.Basic
import Mathlib.Data.List.Sort
import Mathlib.Order.Bounds.Basic
import Mathlib.Order.MinMax

/-!
# The smallest values seen so far

An accumulator that keeps the `k` smallest values of a stream in order: what it holds is
determined by what has been seen (`Smallest.eq_take`), its head is the least value
(`Smallest.isLeast`), and there are three ways in which a new value is taken in.
-/

namespace SysProgLab

universe u

variable {α : Type u} [LinearOrder α]

/-- **`l` holds the `k` smallest values of `vs`**, or all if there are fewer, in order. -/
structure Smallest (k : ℕ) (vs l : List α) : Prop where
  sorted : l.Pairwise (· ≤ ·)
  length : l.length = min k vs.length
  /-- the others are no smaller -/
  others : ∃ rest, vs.Perm (l ++ rest) ∧ ∀ a ∈ l, ∀ b ∈ rest, a ≤ b

namespace Smallest

variable {k : ℕ} {vs vs' l l' q : List α} {a v : α}

theorem nil (k : ℕ) : Smallest k ([] : List α) [] :=
  ⟨.nil, (Nat.min_zero k).symm, [], .nil, fun _ h => by cases h⟩

/-- The order of arrival does not matter. -/
theorem perm (h : Smallest k vs l) (hp : vs.Perm vs') : Smallest k vs' l := by
  obtain ⟨rest, hrest, hle⟩ := h.others
  exact ⟨h.sorted, by rw [h.length, hp.length_eq], rest, hp.symm.trans hrest, hle⟩

/-- While there is room, a value goes among the others. -/
theorem room (h : Smallest k vs l) (hroom : l.length < k) (hq : q.Pairwise (· ≤ ·))
    (hperm : q.Perm (v :: l)) : Smallest k (v :: vs) q := by
  obtain ⟨rest, hrest, -⟩ := h.others
  have hlen := h.length
  have hrestlen := hrest.length_eq
  rw [List.length_append] at hrestlen
  obtain rfl : rest = [] := List.length_eq_zero_iff.mp (by omega)
  rw [List.append_nil] at hrest
  refine ⟨hq, ?_, [], ?_, fun _ _ _ h => by cases h⟩
  · rw [hperm.length_eq, List.length_cons, List.length_cons]
    omega
  · rw [List.append_nil]
    exact (hrest.cons v).trans hperm.symm

/-- A value below the greatest one takes its place. -/
theorem better (h : Smallest k vs (l ++ [a])) (hfull : l.length + 1 = k) (hv : v ≤ a) (hq : q.Pairwise (· ≤ ·))
    (hperm : q.Perm (v :: l)) : Smallest k (v :: vs) q := by
  obtain ⟨rest, hrest, hle⟩ := h.others
  have hlen := h.length
  have hle' : ∀ b ∈ l, b ≤ a := fun b hb =>
    (List.pairwise_append.mp h.sorted).2.2 b hb a (List.mem_singleton_self a)
  refine ⟨hq, ?_, a :: rest, ?_, fun b hb c hc => ?_⟩
  · rw [List.length_append, List.length_singleton] at hlen
    rw [hperm.length_eq, List.length_cons, List.length_cons]
    omega
  · have hmove : (l ++ [a] ++ rest).Perm (l ++ a :: rest) := by
      rw [List.append_assoc, List.singleton_append]
    exact ((hrest.trans hmove).cons v).trans (hperm.symm.append_right (a :: rest))
  · have hba : b ≤ a := by
      rcases List.mem_cons.mp (hperm.mem_iff.mp hb) with rfl | hb
      · exact hv
      · exact hle' b hb
    rcases List.mem_cons.mp hc with rfl | hc
    · exact hba
    · exact hba.trans (hle a (by simp) c hc)

/-- Any other value is passed over. -/
theorem worse (h : Smallest k vs (l ++ [a])) (hfull : l.length + 1 = k) (hv : a ≤ v) :
    Smallest k (v :: vs) (l ++ [a]) := by
  obtain ⟨rest, hrest, hle⟩ := h.others
  have hlen := h.length
  refine ⟨h.sorted, ?_, v :: rest, (hrest.cons v).trans List.perm_middle.symm, fun b hb c hc => ?_⟩
  · rw [List.length_append, List.length_singleton, List.length_cons] at *
    omega
  · rcases List.mem_cons.mp hc with rfl | hc
    · rcases List.mem_append.mp hb with hb | hb
      · exact ((List.pairwise_append.mp h.sorted).2.2 b hb a (List.mem_singleton_self a)).trans hv
      · exact (List.mem_singleton.mp hb).trans_le hv
    · exact hle b hb c hc

/-- **The head is the least value.** -/
theorem isLeast (h : Smallest k vs (a :: l)) : IsLeast {x | x ∈ vs} a := by
  obtain ⟨rest, hrest, hle⟩ := h.others
  refine ⟨hrest.mem_iff.mpr (by simp), fun x hx => ?_⟩
  rcases List.mem_append.mp (hrest.mem_iff.mp hx) with hx | hx
  · rcases List.mem_cons.mp hx with rfl | hx
    · exact le_rfl
    · exact List.rel_of_pairwise_cons h.sorted hx
  · exact hle a List.mem_cons_self x hx

/-- **They are the front of the sorted list**, so they are determined. -/
theorem eq_take (h : Smallest k vs l) : l = vs.mergeSort.take k := by
  obtain ⟨rest, hrest, hle⟩ := h.others
  have hsort : ∀ xs : List α, xs.mergeSort.Pairwise (· ≤ ·) :=
    List.pairwise_mergeSort' (· ≤ ·)
  have hwhole : vs.mergeSort = l ++ rest.mergeSort := by
    refine List.Perm.eq_of_pairwise (fun _ _ _ _ => le_antisymm) (hsort vs) ?_ ?_
    · exact List.pairwise_append.mpr ⟨h.sorted, hsort rest, fun a ha b hb =>
        hle a ha b (List.mem_mergeSort.mp hb)⟩
    · exact (List.mergeSort_perm vs _).trans (hrest.trans
        ((List.mergeSort_perm rest _).symm.append_left l))
  have hlen := h.length
  have hsum := hrest.length_eq
  rw [List.length_append] at hsum
  rcases Nat.le_total k vs.length with hk | hk
  · rw [hwhole, List.take_append_of_le_length (by omega), List.take_of_length_le (by omega)]
  · obtain rfl : rest = [] := List.length_eq_zero_iff.mp (by omega)
    rw [hwhole, List.mergeSort_nil, List.append_nil, List.take_of_length_le (by omega)]

end Smallest

end SysProgLab
