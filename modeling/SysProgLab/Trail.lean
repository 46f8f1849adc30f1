import Mathlib.Data.Finset.Card
import Mathlib.Data.List.Nodup

/-!
# Walks that end

A walk that follows a function, which may stop, never meets a place twice if it ends: from
one place there is only one way on. So in a finite space a walk that ends is short.
-/

namespace SysProgLab

universe u

/-- From `a` the function `f` leads through the places `as` in order, and stops. -/
def Trail {α : Type u} (f : α → Option α) : α → List α → Prop
  | a, [] => f a = none
  | a, b :: bs => f a = some b ∧ Trail f b bs

namespace Trail

variable {α : Type u} {f : α → Option α} {a b : α} {as bs : List α}

/-- There is one way on. -/
theorem unique : ∀ {as bs : List α} {a : α}, Trail f a as → Trail f a bs → as = bs
  | [], [], _, _, _ => rfl
  | [], _ :: _, _, h, h' => by
    have hnone : f _ = none := h
    rw [h'.1] at hnone
    cases hnone
  | _ :: _, [], _, h, h' => by
    have hnone : f _ = none := h'
    rw [h.1] at hnone
    cases hnone
  | b :: as, c :: bs, a, h, h' => by
    obtain rfl : b = c := Option.some.inj (h.1.symm.trans h'.1)
    rw [unique h.2 h'.2]

/-- The rest of a walk is a walk. -/
theorem suffix : ∀ {as : List α} {a : α}, Trail f a (as ++ b :: bs) → Trail f b bs
  | [], _, h => h.2
  | _ :: _, _, h => suffix h.2

/-- **No place is met twice.** -/
theorem nodup : ∀ {as : List α} {a : α}, Trail f a as → (a :: as).Nodup := by
  intro as
  induction as with
  | nil => exact fun _ => List.nodup_singleton _
  | cons b as ih =>
    intro a h
    refine List.nodup_cons.mpr ⟨fun ha => ?_, ih h.2⟩
    -- from the second time on the walk is shorter
    obtain ⟨xs, ys, he⟩ := List.append_of_mem ha
    have hlong := h
    rw [he] at hlong
    have hlen := congrArg List.length (unique h hlong.suffix)
    rw [he, List.length_append, List.length_cons] at hlen
    omega

/-- A walk in a finite set has fewer steps than the set has places. -/
theorem length_lt [DecidableEq α] (h : Trail f a as) {s : Finset α} (hs : ∀ x ∈ a :: as, x ∈ s) :
    as.length < s.card := by
  have hcard := Finset.card_le_card fun x hx => hs x (List.mem_toFinset.mp hx)
  rw [List.toFinset_card_of_nodup h.nodup, List.length_cons] at hcard
  exact hcard

end Trail

end SysProgLab
