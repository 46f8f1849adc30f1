import Mathlib.Data.List.Induction
import Mathlib.Data.List.Nodup
import Mathlib.Logic.Function.Basic

/-!
# Doubly linked lists in a store of nodes

A store maps addresses to nodes; `0` is the null address. `Seg n p l q` says
that the nodes of `l` are linked in both directions, with `p` before the first
and `q` after the last. A segment splits at any point (`Seg.append`), depends on
its own nodes only (`Seg.congr`), and each of its ends is changed by one store
(`Seg.setNext`, `Seg.setPrev`).
-/

namespace SysProgLab

universe u

/-- A node of a doubly linked list. -/
structure DNode (α : Type u) where
  /-- the contents -/
  val : α
  /-- the address of the previous node -/
  prev : ℕ
  /-- the address of the next node -/
  next : ℕ

/-- A store of nodes. -/
abbrev Nodes (α : Type u) := ℕ → Option (DNode α)

variable {α : Type u}

namespace Nodes

/-- The node behind a pointer; `none` when the pointer is null or dangling. -/
def deref (n : Nodes α) (p : ℕ) : Option (DNode α) := if p = 0 then none else n p

/-- A store through a pointer. -/
def modify (n : Nodes α) (p : ℕ) (f : DNode α → DNode α) : Option (Nodes α) :=
  (n.deref p).map fun x => Function.update n p (some (f x))

/-- The contents of the nodes. -/
def vals (n : Nodes α) : ℕ → Option α := fun p => (n p).map DNode.val

/-- The addresses met from `p` along `next`, at most `fuel` of them. -/
def walkNext (n : Nodes α) : ℕ → ℕ → List ℕ
  | 0, _ => []
  | fuel + 1, p =>
    match n.deref p with
    | none => []
    | some x => p :: walkNext n fuel x.next

/-- The addresses met from `p` along `prev`, at most `fuel` of them. -/
def walkPrev (n : Nodes α) : ℕ → ℕ → List ℕ
  | 0, _ => []
  | fuel + 1, p =>
    match n.deref p with
    | none => []
    | some x => p :: walkPrev n fuel x.prev

theorem deref_of_some {n : Nodes α} {p : ℕ} {x : DNode α} (h0 : p ≠ 0) (h : n p = some x) :
    n.deref p = some x := by
  rw [deref, if_neg h0, h]

@[simp] theorem deref_zero (n : Nodes α) : n.deref 0 = none := if_pos rfl

theorem modify_of_some {n : Nodes α} {p : ℕ} {x : DNode α} (f : DNode α → DNode α) (h0 : p ≠ 0)
    (h : n p = some x) : n.modify p f = some (Function.update n p (some (f x))) := by
  rw [modify, deref_of_some h0 h, Option.map_some]

theorem deref_eq_some {n : Nodes α} {p : ℕ} {x : DNode α} (h : n.deref p = some x) :
    p ≠ 0 ∧ n p = some x := by
  rw [deref] at h
  split at h
  · cases h
  · exact ⟨by assumption, h⟩

/-- A store to a link keeps all contents. -/
theorem modify_vals {n n' : Nodes α} {p : ℕ} {f : DNode α → DNode α}
    (h : n.modify p f = some n') (hf : ∀ x, (f x).val = x.val) : n'.vals = n.vals := by
  obtain ⟨x, hx, rfl⟩ := Option.map_eq_some_iff.mp h
  funext a
  rw [vals, vals]
  by_cases ha : a = p
  · rw [ha, Function.update_self, (deref_eq_some hx).2, Option.map_some, Option.map_some, hf]
  · rw [Function.update_of_ne ha]

/-- A store through a valid pointer leaves every valid pointer valid. -/
theorem modify_valid {n : Nodes α} {p : ℕ} (f : DNode α → DNode α) (h : (n.deref p).isSome) :
    ∃ n', n.modify p f = some n' ∧ ∀ q, (n.deref q).isSome → (n'.deref q).isSome := by
  obtain ⟨x, hx⟩ := Option.isSome_iff_exists.mp h
  refine ⟨Function.update n p (some (f x)), by rw [modify, hx, Option.map_some], fun q hq => ?_⟩
  by_cases hqp : q = p
  · subst hqp
    have h0 : q ≠ 0 := by
      rintro rfl
      simp at hx
    simp [deref, h0]
  · rwa [deref, Function.update_of_ne hqp, ← deref]

end Nodes

/-- The first address of a list of nodes, `q` when there is none. -/
def headAddr : List (ℕ × α) → ℕ → ℕ
  | [], q => q
  | x :: _, _ => x.1

/-- The last address of a list of nodes, `p` when there is none. -/
def lastAddr : List (ℕ × α) → ℕ → ℕ
  | [], p => p
  | x :: l, _ => lastAddr l x.1

@[simp] theorem headAddr_cons (x : ℕ × α) (l : List (ℕ × α)) (q : ℕ) :
    headAddr (x :: l) q = x.1 := rfl

theorem headAddr_append (l r : List (ℕ × α)) (q : ℕ) :
    headAddr (l ++ r) q = headAddr l (headAddr r q) := by
  cases l <;> rfl

theorem lastAddr_append (r : List (ℕ × α)) : ∀ (l : List (ℕ × α)) (p : ℕ),
    lastAddr (l ++ r) p = lastAddr r (lastAddr l p) := by
  intro l
  induction l with
  | nil => exact fun _ => rfl
  | cons x l ih => exact fun _ => ih x.1

@[simp] theorem lastAddr_concat (l : List (ℕ × α)) (x : ℕ × α) (p : ℕ) :
    lastAddr (l ++ [x]) p = x.1 := lastAddr_append [x] l p

/-- The nodes `l` are linked in both directions, between `p` and `q`. -/
def Seg (n : Nodes α) : ℕ → List (ℕ × α) → ℕ → Prop
  | _, [], _ => True
  | p, x :: l, q => n x.1 = some ⟨x.2, p, headAddr l q⟩ ∧ Seg n x.1 l q

namespace Seg

variable {n n' : Nodes α} {p q v : ℕ} {l r : List (ℕ × α)} {x : ℕ × α}

theorem append : ∀ {l : List (ℕ × α)} {p : ℕ},
    Seg n p (l ++ r) q ↔ Seg n p l (headAddr r q) ∧ Seg n (lastAddr l p) r q := by
  intro l
  induction l with
  | nil => intro p; simp [Seg, lastAddr]
  | cons x l ih =>
    intro p
    simp only [List.cons_append, Seg, lastAddr, ih, headAddr_append, and_assoc]

/-- A segment depends on its own nodes only. -/
theorem congr (hn : ∀ x ∈ l, n' x.1 = n x.1) (h : Seg n p l q) : Seg n' p l q := by
  induction l generalizing p with
  | nil => trivial
  | cons x l ih =>
    exact ⟨(hn x (List.mem_cons_self ..)).trans h.1,
      ih (fun y hy => hn y (List.mem_cons_of_mem _ hy)) h.2⟩

/-- The node in focus. -/
theorem focus (h : Seg n p (l ++ x :: r) q) :
    n x.1 = some ⟨x.2, lastAddr l p, headAddr r q⟩ := (append.mp h).2.1

theorem val_of_mem (h : Seg n p l q) (hx : x ∈ l) : ∃ y, n x.1 = some y ∧ y.val = x.2 := by
  obtain ⟨a, b, rfl⟩ := List.append_of_mem hx
  exact ⟨_, h.focus, rfl⟩

/-- The links determine the list that begins at an address. -/
theorem unique {l' : List (ℕ × α)} (h : Seg n p l 0) (h' : Seg n p l' 0)
    (hl : ∀ x ∈ l, x.1 ≠ 0) (hl' : ∀ x ∈ l', x.1 ≠ 0) (hhead : headAddr l 0 = headAddr l' 0) :
    l = l' := by
  induction l generalizing p l' with
  | nil =>
    cases l' with
    | nil => rfl
    | cons y l' => exact absurd hhead.symm (hl' y List.mem_cons_self)
  | cons x l ih =>
    cases l' with
    | nil => exact absurd hhead (hl x List.mem_cons_self)
    | cons y l' =>
      have haddr : x.1 = y.1 := hhead
      have hnode := h.1.symm.trans (haddr ▸ h'.1)
      obtain ⟨hval, -, hnext⟩ := DNode.mk.inj (Option.some.inj hnode)
      rw [Prod.ext haddr hval, ih h.2 (haddr ▸ h'.2) (fun z hz => hl z (List.mem_cons_of_mem x hz))
        (fun z hz => hl' z (List.mem_cons_of_mem y hz)) hnext]

/-- One store changes what follows the last node. -/
theorem setNext (h : Seg n p (l ++ [x]) q) (hx : ∀ y ∈ l, y.1 ≠ x.1) :
    Seg (Function.update n x.1 (some ⟨x.2, lastAddr l p, v⟩)) p (l ++ [x]) v := by
  obtain ⟨h₁, -⟩ := append.mp h
  refine append.mpr ⟨h₁.congr fun y hy => Function.update_of_ne (hx y hy) _ _, ?_, trivial⟩
  exact Function.update_self ..

/-- One store changes what precedes the first node. -/
theorem setPrev (h : Seg n p (x :: l) q) (hx : ∀ y ∈ l, y.1 ≠ x.1) :
    Seg (Function.update n x.1 (some ⟨x.2, v, headAddr l q⟩)) v (x :: l) q :=
  ⟨Function.update_self .., h.2.congr fun y hy => Function.update_of_ne (hx y hy) _ _⟩

/-- The addresses of a list without repetitions differ from that in focus. -/
theorem addr_ne {a b : List (ℕ × α)} (hnd : ((a ++ x :: b).map Prod.fst).Nodup) :
    ∀ y ∈ a ++ b, y.1 ≠ x.1 := by
  rw [List.map_append, List.map_cons] at hnd
  have hnot := (List.nodup_cons.mp (List.nodup_middle.mp hnd)).1
  rintro y hy he
  refine hnot (he ▸ ?_)
  rw [← List.map_append]
  exact List.mem_map_of_mem hy

/-- **Appending a node**: three stores link the node at `c` in at the end. -/
theorem pushBack {c : ℕ} {y : DNode α} (h : Seg n p (l ++ [x]) 0)
    (hnd : ((l ++ [x]).map Prod.fst).Nodup) (hx0 : x.1 ≠ 0) (hc0 : c ≠ 0)
    (hc : c ∉ (l ++ [x]).map Prod.fst) (hy : n c = some y) :
    ∃ n₁ n₂ n₃, n.modify c (fun z => { z with prev := x.1 }) = some n₁ ∧
      n₁.modify x.1 (fun z => { z with next := c }) = some n₂ ∧
      n₂.modify c (fun z => { z with next := 0 }) = some n₃ ∧
      Seg n₃ p (l ++ [x] ++ [(c, y.val)]) 0 ∧
      ∀ a, a ≠ c → a ∉ (l ++ [x]).map Prod.fst → n₃ a = n a := by
  have hcl : ∀ z ∈ l ++ [x], z.1 ≠ c := by
    rintro z hz rfl
    exact hc (List.mem_map_of_mem hz)
  have hcx : x.1 ≠ c := hcl x (by simp)
  have hxl : ∀ z ∈ l, z.1 ≠ x.1 := fun z hz => addr_ne hnd z (by simpa using hz)
  have e₁ := Nodes.modify_of_some (fun z : DNode α => { z with prev := x.1 }) hc0 hy
  set n₁ := Function.update n c (some { y with prev := x.1 }) with hn₁
  have hx₁ : n₁ x.1 = some ⟨x.2, lastAddr l p, 0⟩ := by
    rw [hn₁, Function.update_of_ne hcx]
    exact h.focus
  have e₂ := Nodes.modify_of_some (fun z : DNode α => { z with next := c }) hx0 hx₁
  set n₂ := Function.update n₁ x.1 (some ⟨x.2, lastAddr l p, c⟩) with hn₂
  have hc₂ : n₂ c = some { y with prev := x.1 } := by
    rw [hn₂, Function.update_of_ne hcx.symm, hn₁, Function.update_self]
  have e₃ := Nodes.modify_of_some (fun z : DNode α => { z with next := 0 }) hc0 hc₂
  refine ⟨_, _, _, e₁, e₂, e₃, ?_, fun a hac ha => ?_⟩
  · have h₁ : Seg n₁ p (l ++ [x]) 0 :=
      h.congr fun z hz => Function.update_of_ne (hcl z hz) _ _
    have h₂ := h₁.setNext (v := c) hxl
    refine append.mpr ⟨h₂.congr fun z hz => Function.update_of_ne (hcl z hz) _ _, ?_, trivial⟩
    rw [Function.update_self, lastAddr_concat]
    rfl
  · have hax : a ≠ x.1 := by
      rintro rfl
      simp at ha
    rw [Function.update_of_ne hac, hn₂, Function.update_of_ne hax, hn₁, Function.update_of_ne hac]

/-- **Unlinking a node** from between two others takes two stores; the node
itself is not changed. -/
theorem unlink {a b : List (ℕ × α)} {w y : ℕ × α} (h : Seg n p (a ++ w :: x :: y :: b) q)
    (hnd : ((a ++ w :: x :: y :: b).map Prod.fst).Nodup) (hw0 : w.1 ≠ 0) (hy0 : y.1 ≠ 0) :
    n x.1 = some ⟨x.2, w.1, y.1⟩ ∧
    ∃ n₁ n₂, n.modify y.1 (fun z => { z with prev := w.1 }) = some n₁ ∧
      n₁.modify w.1 (fun z => { z with next := y.1 }) = some n₂ ∧
      Seg n₂ p (a ++ w :: y :: b) q ∧ n₂ x.1 = n x.1 := by
  have hwne := addr_ne hnd
  have hnd' : ((a ++ [w, x] ++ y :: b).map Prod.fst).Nodup := by simpa using hnd
  have hyne := addr_ne hnd'
  have hwx : x.1 ≠ w.1 := hwne x (by simp)
  have hwy : y.1 ≠ w.1 := hwne y (by simp)
  have hyx : x.1 ≠ y.1 := hyne x (by simp)
  obtain ⟨ha, hw, hx, hy, hb⟩ := append.mp h
  have e₁ := Nodes.modify_of_some (fun z : DNode α => { z with prev := w.1 }) hy0 hy
  set n₁ := Function.update n y.1 (some ⟨y.2, w.1, headAddr b q⟩) with hn₁
  have hw₁ : n₁ w.1 = some ⟨w.2, lastAddr a p, x.1⟩ := by
    rw [hn₁, Function.update_of_ne hwy.symm]
    exact hw
  have e₂ := Nodes.modify_of_some (fun z : DNode α => { z with next := y.1 }) hw0 hw₁
  refine ⟨hx, _, _, e₁, e₂, append.mpr ⟨?_, Function.update_self .., ?_, ?_⟩, ?_⟩
  · refine ha.congr fun z hz => ?_
    rw [Function.update_of_ne (hwne z (by simp [hz])), hn₁,
      Function.update_of_ne (hyne z (by simp [hz]))]
  · rw [Function.update_of_ne hwy, hn₁, Function.update_self]
  · refine hb.congr fun z hz => ?_
    rw [Function.update_of_ne (hwne z (by simp [hz])), hn₁,
      Function.update_of_ne (hyne z (by simp [hz]))]
  · rw [Function.update_of_ne hwx, hn₁, Function.update_of_ne hyx]

/-- The walk along `next` meets the nodes in order. -/
theorem walkNext : ∀ {l : List (ℕ × α)} {p fuel : ℕ}, Seg n p l 0 → (∀ y ∈ l, y.1 ≠ 0) →
    l.length < fuel → n.walkNext fuel (headAddr l 0) = l.map Prod.fst := by
  intro l
  induction l with
  | nil =>
    intro p fuel _ _ hf
    obtain ⟨k, rfl⟩ : ∃ k, fuel = k + 1 := ⟨fuel - 1, by simp at hf; omega⟩
    simp [Nodes.walkNext, headAddr]
  | cons x l ih =>
    intro p fuel h h0 hf
    obtain ⟨k, rfl⟩ : ∃ k, fuel = k + 1 := ⟨fuel - 1, by simp at hf; omega⟩
    rw [show headAddr (x :: l) 0 = x.1 from rfl, Nodes.walkNext,
      Nodes.deref_of_some (h0 x (List.mem_cons_self ..)) h.1]
    simp only [List.map_cons, List.cons.injEq, true_and]
    exact ih h.2 (fun y hy => h0 y (List.mem_cons_of_mem _ hy)) (by simp at hf; omega)

/-- The walk along `prev` meets the nodes in reverse order. -/
theorem walkPrev : ∀ {l : List (ℕ × α)} {q fuel : ℕ}, Seg n 0 l q → (∀ y ∈ l, y.1 ≠ 0) →
    l.length < fuel → n.walkPrev fuel (lastAddr l 0) = (l.map Prod.fst).reverse := by
  intro l
  induction l using List.reverseRecOn with
  | nil =>
    intro q fuel _ _ hf
    obtain ⟨k, rfl⟩ : ∃ k, fuel = k + 1 := ⟨fuel - 1, by simp at hf; omega⟩
    simp [Nodes.walkPrev, lastAddr]
  | append_singleton l x ih =>
    intro q fuel h h0 hf
    obtain ⟨k, rfl⟩ : ∃ k, fuel = k + 1 := ⟨fuel - 1, by simp at hf; omega⟩
    rw [lastAddr_concat, Nodes.walkPrev, Nodes.deref_of_some (h0 x (by simp)) h.focus]
    simp only [List.map_append, List.map_cons, List.map_nil, List.reverse_append,
      List.reverse_cons, List.reverse_nil, List.nil_append, List.singleton_append,
      List.cons.injEq, true_and]
    exact ih (append.mp h).1 (fun y hy => h0 y (by simp [hy])) (by simp at hf; omega)

end Seg

end SysProgLab
