import Mathlib.Data.BitVec
import Mathlib.Data.List.Sort

/-!
# The list of blocks: `memlist.c`

The items after the dummy element, in ascending order of their pointers. On such
a list `find`, which stops at the first larger pointer, looks up every item, and
`alloc` and `dealloc` change the item of one pointer only.
-/

namespace SysProgLab

/-- `size_t` and `unsigned long` of the traced program. -/
abbrev Size := BitVec 64

/-- What `get_callinfo` stores, when it succeeds. -/
abbrev CallInfo := Option (List UInt8 × ℕ)

/-- `item`, without its link -/
structure Item : Type where
  /-- `ptr` -/
  ptr : ℕ
  /-- `size` -/
  size : Size
  /-- `cnt` -/
  cnt : ℤ
  /-- `fname` -/
  fname : List UInt8
  /-- `ofs` -/
  ofs : ℕ
  deriving DecidableEq

namespace MemList

/-- The item that `alloc` builds. -/
def newItem (ptr : ℕ) (size : Size) : CallInfo → Item
  | none => ⟨ptr, size, 1, [63, 63, 63], 0⟩
  | some (fname, ofs) => ⟨ptr, size, 1, fname, ofs⟩

section NewItem

variable {ptr : ℕ} {size : Size} {info : CallInfo}

@[simp] theorem newItem_ptr : (newItem ptr size info).ptr = ptr := by
  cases info <;> rfl

@[simp] theorem newItem_size : (newItem ptr size info).size = size := by
  cases info <;> rfl

@[simp] theorem newItem_cnt : (newItem ptr size info).cnt = 1 := by
  cases info <;> rfl

end NewItem

/-- The search and the update of `alloc`, for the new item `i`. -/
def insert (i : Item) : List Item → List Item
  | [] => [i]
  | cur :: l =>
    if cur.ptr < i.ptr then cur :: insert i l
    else if cur.ptr = i.ptr then { cur with size := i.size, cnt := cur.cnt + 1 } :: l
    else i :: cur :: l

/-- `alloc` -/
def alloc (l : List Item) (ptr : ℕ) (size : Size) (info : CallInfo) : List Item :=
  insert (newItem ptr size info) l

/-- `dealloc`; the first component is the item, `none` when there is none. -/
def dealloc : List Item → ℕ → Option Item × List Item
  | [], _ => (none, [])
  | cur :: l, ptr =>
    if cur.ptr ≠ ptr then ((dealloc l ptr).1, cur :: (dealloc l ptr).2)
    else (some { cur with cnt := cur.cnt - 1 }, { cur with cnt := cur.cnt - 1 } :: l)

/-- `find` -/
def find : List Item → ℕ → Option Item
  | [], _ => none
  | cur :: l, ptr =>
    if cur.ptr < ptr then find l ptr
    else if cur.ptr = ptr then some cur
    else none

/-! ## Sorted lists -/

/-- The pointers ascend. -/
def Sorted (l : List Item) : Prop := l.Pairwise fun i j => i.ptr < j.ptr

/-- `find` reads the pointer it looks for. -/
theorem ptr_of_find {l : List Item} {ptr : ℕ} {i : Item} (h : find l ptr = some i) :
    i.ptr = ptr := by
  induction l with
  | nil => cases h
  | cons cur l ih =>
    rw [find] at h
    split at h
    · exact ih h
    split at h
    · cases h
      assumption
    · cases h

theorem mem_of_find {l : List Item} {ptr : ℕ} {i : Item} (h : find l ptr = some i) : i ∈ l := by
  induction l with
  | nil => cases h
  | cons cur l ih =>
    rw [find] at h
    split at h
    · exact List.mem_cons_of_mem _ (ih h)
    split at h
    · cases h
      exact List.mem_cons_self ..
    · cases h

variable {l : List Item} {ptr q : ℕ} {i : Item}

theorem find_of_mem (hl : Sorted l) (hi : i ∈ l) : find l i.ptr = some i := by
  induction l with
  | nil => cases hi
  | cons cur l ih =>
    obtain ⟨hcur, hl⟩ := List.pairwise_cons.mp hl
    rw [find]
    rcases List.mem_cons.mp hi with rfl | hi
    · rw [if_neg (lt_irrefl _), if_pos rfl]
    · rw [if_pos (hcur i hi)]
      exact ih hl hi

/-- **The early exit of `find` misses nothing.** -/
theorem find_eq_some (hl : Sorted l) : find l ptr = some i ↔ i ∈ l ∧ i.ptr = ptr :=
  ⟨fun h => ⟨mem_of_find h, ptr_of_find h⟩, fun h => h.2 ▸ find_of_mem hl h.1⟩

/-! ## `alloc` -/

theorem mem_insert_ptr {j : Item} (hj : j ∈ insert i l) :
    j.ptr = i.ptr ∨ j ∈ l := by
  induction l with
  | nil => exact .inl (congrArg Item.ptr (List.mem_singleton.mp hj))
  | cons cur l ih =>
    rw [insert] at hj
    split at hj
    · rcases List.mem_cons.mp hj with rfl | hj
      · exact .inr (List.mem_cons_self ..)
      · exact (ih hj).imp_right (List.mem_cons_of_mem _)
    split at hj
    · rename_i heq
      rcases List.mem_cons.mp hj with rfl | hj
      · exact .inl heq
      · exact .inr (List.mem_cons_of_mem _ hj)
    · rcases List.mem_cons.mp hj with rfl | hj
      · exact .inl rfl
      · exact .inr hj

theorem Sorted.insert (hl : Sorted l) (i : Item) : Sorted (insert i l) := by
  induction l with
  | nil => exact List.pairwise_singleton ..
  | cons cur l ih =>
    obtain ⟨hcur, htail⟩ := List.pairwise_cons.mp hl
    rw [MemList.insert]
    split
    · rename_i hlt
      refine List.pairwise_cons.mpr ⟨fun j hj => ?_, ih htail⟩
      rcases mem_insert_ptr hj with hj | hj
      · exact hj ▸ hlt
      · exact hcur j hj
    split
    · exact List.pairwise_cons.mpr ⟨hcur, htail⟩
    · rename_i hle hne
      have hlt : i.ptr < cur.ptr := by omega
      refine List.pairwise_cons.mpr ⟨fun j hj => ?_, hl⟩
      rcases List.mem_cons.mp hj with rfl | hj
      · exact hlt
      · exact hlt.trans (hcur j hj)

/-- The item after `alloc`: a new one, or the old one resized and counted up. -/
def allocated (i : Item) : Option Item → Item
  | none => i
  | some cur => { cur with size := i.size, cnt := cur.cnt + 1 }

/-- **`alloc`** changes the item of its pointer only. -/
theorem find_insert (hl : Sorted l) (i : Item) :
    find (insert i l) q = if q = i.ptr then some (allocated i (find l q)) else find l q := by
  induction l with
  | nil =>
    by_cases hq : q = i.ptr
    · simp [MemList.insert, find, hq, allocated]
    · simp [MemList.insert, find, hq, Ne.symm hq]
  | cons cur l ih =>
    obtain ⟨hcur, htail⟩ := List.pairwise_cons.mp hl
    rcases lt_trichotomy cur.ptr i.ptr with hlt | heq | hgt
    · rw [MemList.insert, if_pos hlt]
      by_cases hq : q = i.ptr
      · have hcq : cur.ptr < q := hq ▸ hlt
        simp only [find, if_pos hcq, ih htail]
      · simp only [find, ih htail, if_neg hq]
    · rw [MemList.insert, if_neg heq.not_lt, if_pos heq]
      by_cases hq : q = i.ptr
      · simp [find, heq, hq, allocated]
      · have hne : cur.ptr ≠ q := fun he => hq (he.symm.trans heq)
        simp only [find, if_neg hq, if_neg hne]
    · rw [MemList.insert, if_neg hgt.not_gt, if_neg hgt.ne']
      by_cases hq : q = i.ptr
      · have hnone : find (cur :: l) q = none := by
          rw [find, if_neg (by omega), if_neg (by omega)]
        rw [if_pos hq, hnone, find, if_neg (by omega), if_pos hq.symm]
        rfl
      · rw [if_neg hq, find]
        split
        · rfl
        · rw [if_neg (Ne.symm hq), find, if_neg (by omega), if_neg (by omega)]

/-! ## `dealloc` -/

theorem map_ptr_dealloc : (dealloc l ptr).2.map Item.ptr = l.map Item.ptr := by
  induction l with
  | nil => rfl
  | cons cur l ih =>
    rw [dealloc]
    split
    · rw [List.map_cons, List.map_cons, ih]
    · rfl

theorem Sorted.dealloc (hl : Sorted l) : Sorted (dealloc l ptr).2 := by
  have hmap : ∀ l : List Item, Sorted l ↔ (l.map Item.ptr).Pairwise (· < ·) := fun l =>
    List.pairwise_map.symm
  rw [hmap, map_ptr_dealloc, ← hmap]
  exact hl

/-- **`dealloc`** counts the item of its pointer down, and returns it. -/
theorem find_dealloc (hl : Sorted l) :
    find (MemList.dealloc l ptr).2 q =
      if q = ptr then (find l q).map fun i => { i with cnt := i.cnt - 1 } else find l q := by
  induction l with
  | nil => simp [MemList.dealloc, find]
  | cons cur l ih =>
    obtain ⟨hcur, htail⟩ := List.pairwise_cons.mp hl
    rw [MemList.dealloc]
    by_cases hp : cur.ptr = ptr
    · rw [if_neg (not_not.mpr hp)]
      by_cases hq : q = ptr
      · simp [find, hp, hq]
      · have hne : cur.ptr ≠ q := fun he => hq (he.symm.trans hp)
        simp only [find, if_neg hq, if_neg hne]
    · rw [if_pos hp]
      by_cases hq : q = ptr
      · have hne : cur.ptr ≠ q := fun he => hp (he.trans hq)
        simp only [find, ih htail, if_pos hq, if_neg hne]
        split <;> rfl
      · simp only [find, ih htail, if_neg hq]

/-- The linear search of `dealloc` reaches the item that `find` returns. -/
theorem dealloc_fst (hl : Sorted l) :
    (MemList.dealloc l ptr).1 = (find l ptr).map fun i => { i with cnt := i.cnt - 1 } := by
  induction l with
  | nil => rfl
  | cons cur l ih =>
    obtain ⟨hcur, htail⟩ := List.pairwise_cons.mp hl
    rw [MemList.dealloc, find]
    by_cases hp : cur.ptr = ptr
    · rw [if_neg (not_not.mpr hp), if_neg hp.not_lt, if_pos hp]
      rfl
    · rw [if_pos hp]
      dsimp only
      rw [ih htail]
      split
      · rfl
      · rename_i hlt
        -- all later pointers are larger
        cases hfind : find l ptr with
        | none => rfl
        | some i =>
          have hi := hcur i (mem_of_find hfind)
          rw [ptr_of_find hfind] at hi
          exact absurd hi hlt

end MemList

end SysProgLab
