import SysProgLab.LinkChain

/-!
# Memories reached by stores

`Stores P m m'` says that `m'` results from `m` by word stores all of which `P` allows: a
store of `v` at `p` if `P p v`. What every such store leaves alone, a run of them leaves
alone (`Stores.get_eq`), and the edits of a chain are such runs as soon as the addresses
and the values that they store are allowed.
-/

namespace SysProgLab

/-- `m'` results from `m` by stores that `P` allows. -/
inductive Stores (P : ℕ → ℕ → Prop) (m : Mem) : Mem → Prop where
  | refl : Stores P m m
  | put {m' : Mem} {p v : ℕ} : Stores P m m' → P p v → Stores P m (m'.put p v)

namespace Stores

variable {P Q : ℕ → ℕ → Prop} {m m' m'' : Mem} {p v pv nx q : ℕ}

theorem single (h : P p v) : Stores P m (m.put p v) := .put .refl h

theorem trans (h : Stores P m m') (h' : Stores P m' m'') : Stores P m m'' := by
  induction h' with
  | refl => exact h
  | put _ hp ih => exact .put ih hp

theorem mono (h : Stores P m m') (hPQ : ∀ p v, P p v → Q p v) : Stores Q m m' := by
  induction h with
  | refl => exact .refl
  | put _ hp ih => exact .put ih (hPQ _ _ hp)

/-- **What each store preserves a run of stores preserves.** -/
theorem preserves {I : Mem → Prop} (h : Stores P m m') (hI : I m)
    (hput : ∀ m p v, P p v → I m → I (m.put p v)) : I m' := by
  induction h with
  | refl => exact hI
  | put _ hp ih => exact hput _ _ _ hp ih

/-- A word that no store meets is as it was. -/
theorem get_eq (h : Stores P m m') (hq : ∀ p v, P p v → q + 4 ≤ p ∨ p + 4 ≤ q) :
    m'.get q = m.get q :=
  h.preserves (I := fun m' => m'.get q = m.get q) rfl fun _ p v hp hI =>
    (Mem.get_put_disjoint _ (hq p v hp)).trans hI

/-- Linking in a node. -/
theorem link (m : Mem) (hpv : P pv p) (hback : P (p + 4) pv) (hnext : P p nx)
    (hnx : nx ≠ 0 → P (nx + 4) p) : Stores P m (link m p pv nx) := by
  have h : Stores P m (((m.put pv p).put (p + 4) pv).put p nx) := ((single hpv).put hback).put hnext
  rw [SysProgLab.link]
  split
  · next h0 => exact h.put (hnx h0)
  · exact h

/-- Unlinking a node. -/
theorem unlink (hpv : P (m.get (p + 4)) (m.get p))
    (hnx : m.get p ≠ 0 → P (m.get p + 4) (m.get (p + 4))) : Stores P m (unlink m p) := by
  rw [SysProgLab.unlink]
  split
  · next h0 => exact (single hpv).put (hnx h0)
  · exact single hpv

end Stores

end SysProgLab
