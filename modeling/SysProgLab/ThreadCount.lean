import Mathlib.Data.Finset.Card
import Mathlib.Data.Fintype.Basic
import Mathlib.Algebra.BigOperators.Group.Finset.Basic
import Mathlib.Algebra.Order.BigOperators.Group.Finset

/-!
# Counting threads

Finitely many threads, each at a program point. `threads p pc` is the number of
threads at a point that satisfies `p`; when one thread moves, it changes by what
that thread adds and takes away (`threads_update`), so that the invariants of a
protocol become linear arithmetic over such numbers.
-/

namespace SysProgLab

universe u v

variable {ι : Type u} {κ : Type v} [Fintype ι] {p : κ → Bool} {pc : ι → κ} {t t' : ι}

/-- The number of threads at a program point that satisfies `p`. -/
def threads (p : κ → Bool) (pc : ι → κ) : ℕ := ∑ t, (p (pc t)).toNat

/-- **One thread moves.** -/
theorem threads_update [DecidableEq ι] (p : κ → Bool) (pc : ι → κ) (t : ι) (x : κ) :
    threads p (Function.update pc t x) + (p (pc t)).toNat = threads p pc + (p x).toNat := by
  have hrest : ∑ u ∈ Finset.univ.erase t, (p (Function.update pc t x u)).toNat =
      ∑ u ∈ Finset.univ.erase t, (p (pc u)).toNat :=
    Finset.sum_congr rfl fun u hu => by rw [Function.update_of_ne (Finset.ne_of_mem_erase hu)]
  rw [threads, threads, ← Finset.add_sum_erase _ _ (Finset.mem_univ t),
    ← Finset.add_sum_erase _ (fun u => (p (pc u)).toNat) (Finset.mem_univ t), hrest,
    Function.update_self]
  omega

theorem threads_pos (h : p (pc t) = true) : 0 < threads p pc := by
  refine Finset.sum_pos' (fun _ _ => Nat.zero_le _) ⟨t, Finset.mem_univ t, ?_⟩
  rw [h]
  decide

theorem threads_eq_zero (h : ∀ t, p (pc t) = false) : threads p pc = 0 :=
  Finset.sum_eq_zero fun t _ => by rw [h t]; rfl

theorem exists_of_threads_pos (h : 0 < threads p pc) : ∃ t, p (pc t) = true := by
  by_contra hnone
  refine h.ne' (threads_eq_zero fun t => ?_)
  simpa using fun ht => hnone ⟨t, ht⟩

/-- Two threads of one kind. -/
theorem two_le_threads [DecidableEq ι] (hne : t ≠ t') (h : p (pc t) = true)
    (h' : p (pc t') = true) : 2 ≤ threads p pc := by
  have hpair : ∑ u ∈ {t, t'}, (p (pc u)).toNat ≤ threads p pc :=
    Finset.sum_le_sum_of_subset (Finset.subset_univ _)
  rw [Finset.sum_pair hne, h, h'] at hpair
  exact hpair

end SysProgLab
