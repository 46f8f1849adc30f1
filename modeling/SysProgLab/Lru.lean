import Mathlib.Algebra.Order.Ring.Int
import Mathlib.Algebra.BigOperators.Group.List.Basic
import Mathlib.Algebra.Order.BigOperators.Group.List
import Mathlib.Data.List.Basic

/-!
# Least recently used caches

A cache as a list, least recently used first. `Lru.evict` drops items from the
front exactly until a new item fits; `Lru.touch` looks an item up from the back
and makes it the most recent.
-/

namespace SysProgLab

universe u

namespace Lru

variable {β : Type u}

/-- The total size of a cache. -/
def total (size : β → ℤ) (l : List β) : ℤ := (l.map size).sum

/-- Drop items from the front until an item of size `need` fits: the items
dropped and the items left. -/
def evict (size : β → ℤ) (max need : ℤ) : List β → List β × List β
  | [] => ([], [])
  | x :: l =>
    if total size (x :: l) + need ≤ max then ([], x :: l)
    else ((x :: (evict size max need l).1), (evict size max need l).2)

/-- Evict, then append the new item as the most recent. -/
def insert (size : β → ℤ) (max : ℤ) (l : List β) (x : β) : List β × List β :=
  ((evict size max (size x) l).1, (evict size max (size x) l).2 ++ [x])

/-- The most recent item that satisfies `p`, and the cache with it at the end. -/
def touch [DecidableEq β] (p : β → Bool) (l : List β) : Option β × List β :=
  match l.reverse.find? p with
  | none => (none, l)
  | some x => (some x, l.erase x ++ [x])

@[simp] theorem total_nil (size : β → ℤ) : total size [] = 0 := rfl

@[simp] theorem total_cons (size : β → ℤ) (x : β) (l : List β) :
    total size (x :: l) = size x + total size l := List.sum_cons

theorem total_append (size : β → ℤ) (l r : List β) :
    total size (l ++ r) = total size l + total size r := by
  simp [total]

theorem total_perm (size : β → ℤ) {l r : List β} (h : l.Perm r) : total size l = total size r :=
  (h.map size).sum_eq

theorem total_nonneg {size : β → ℤ} {l : List β} (h : ∀ x ∈ l, 0 < size x) : 0 ≤ total size l := by
  refine List.sum_nonneg fun y hy => ?_
  obtain ⟨x, hx, rfl⟩ := List.mem_map.mp hy
  exact (h x hx).le

/-- Eviction splits the cache. -/
theorem evict_append (size : β → ℤ) (max need : ℤ) (l : List β) :
    (evict size max need l).1 ++ (evict size max need l).2 = l := by
  induction l with
  | nil => rfl
  | cons x l ih =>
    rw [evict]
    split
    · rfl
    · rw [List.cons_append, ih]

/-- **Eviction drops the shortest prefix that makes room.** -/
theorem evict_shortest (size : β → ℤ) {max need : ℤ} (h : need ≤ max) (l : List β) :
    ∃ k ≤ l.length, evict size max need l = (l.take k, l.drop k) ∧
      total size (l.drop k) + need ≤ max ∧ ∀ j < k, max < total size (l.drop j) + need := by
  induction l with
  | nil => exact ⟨0, le_refl _, rfl, by simpa using h, by simp⟩
  | cons x l ih =>
    rw [evict]
    split
    · next hroom => exact ⟨0, Nat.zero_le _, rfl, hroom, by simp⟩
    · next hroom =>
      obtain ⟨k, hk, e, hfit, hmin⟩ := ih
      refine ⟨k + 1, Nat.succ_le_succ hk, by rw [e]; rfl, hfit, fun j hj => ?_⟩
      cases j with
      | zero => exact not_le.mp hroom
      | succ j => exact hmin j (Nat.lt_of_succ_lt_succ hj)

/-- With sizes of at least 1 there are no more items than their total. -/
theorem length_le_total {size : β → ℤ} {l : List β} (h : ∀ x ∈ l, 0 < size x) :
    (l.length : ℤ) ≤ total size l := by
  induction l with
  | nil => simp
  | cons x l ih =>
    have hx := h x (List.mem_cons_self ..)
    have hl := ih fun y hy => h y (List.mem_cons_of_mem _ hy)
    rw [total_cons, List.length_cons]
    push_cast
    omega

/-! ## Look-ups -/

theorem touch_none [DecidableEq β] {p : β → Bool} {l : List β} (h : l.reverse.find? p = none) :
    touch p l = (none, l) := by
  rw [touch, h]

/-- A look-up finds the last match and moves it to the end. -/
theorem touch_some [DecidableEq β] {p : β → Bool} {l : List β} {x : β} (hnd : l.Nodup)
    (h : l.reverse.find? p = some x) :
    ∃ a b, l = a ++ x :: b ∧ p x = true ∧ (∀ y ∈ b, p y = false) ∧
      touch p l = (some x, a ++ b ++ [x]) := by
  obtain ⟨hp, as, bs, he, hall⟩ := List.find?_eq_some_iff_append.mp h
  have hl : l = bs.reverse ++ x :: as.reverse := by
    rw [← List.reverse_reverse l, he, List.reverse_append, List.reverse_cons]
    simp
  have hx : x ∉ bs.reverse := by
    rw [hl] at hnd
    intro hx
    exact (List.nodup_append.mp hnd).2.2 x hx x (List.mem_cons_self ..) rfl
  refine ⟨bs.reverse, as.reverse, hl, hp, fun y hy => ?_, ?_⟩
  · simpa using hall y (List.mem_reverse.mp hy)
  · simp only [touch, h]
    rw [hl, List.erase_append_right _ hx, List.erase_cons_head]

end Lru

end SysProgLab
