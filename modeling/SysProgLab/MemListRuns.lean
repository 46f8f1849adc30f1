import SysProgLab.MemList
import SysProgLab.Machine
import Mathlib.Data.List.TakeWhile

/-!
# Runs of the list of blocks

Any calls of `alloc` and `dealloc`, on a list from `new_list`. Beside the list
stands what the calls say about a pointer: the size it was last allocated with, and
by how much it was allocated more often than deallocated. The list holds exactly
that, until a count no longer fits into the `int` that holds it.
-/

namespace SysProgLab

/-- A call of `alloc` or of `dealloc`. -/
inductive ListCall : Type where
  | alloc (ptr : ℕ) (size : Size) (info : CallInfo)
  | dealloc (ptr : ℕ)
  deriving DecidableEq

namespace ListCall

/-- The call is an `alloc` of the pointer `p`. -/
def allocs (p : ℕ) : ListCall → Bool
  | .alloc ptr _ _ => decide (ptr = p)
  | .dealloc _ => false

/-- The call is a `dealloc` of the pointer `p`. -/
def deallocs (p : ℕ) : ListCall → Bool
  | .alloc _ _ _ => false
  | .dealloc ptr => decide (ptr = p)

/-- The size that the call allocates the pointer `p` with. -/
def sizeOf (p : ℕ) : ListCall → Option Size
  | .alloc ptr size _ => if ptr = p then some size else none
  | .dealloc _ => none

end ListCall

namespace MemList

/-- The number is one of an `int`. -/
def IsInt (n : ℤ) : Prop := -2 ^ 31 ≤ n ∧ n < 2 ^ 31

instance (n : ℤ) : Decidable (IsInt n) :=
  inferInstanceAs (Decidable (_ ∧ _))

/-- The fields `cnt` are `int`s; `none` is their overflow. -/
def ofInts (l : List Item) : Option (List Item) :=
  if ∀ i ∈ l, IsInt i.cnt then some l else none

/-- The list after a call. -/
def next (l : List Item) : ListCall → Option (List Item)
  | .alloc ptr size info => ofInts (alloc l ptr size info)
  | .dealloc ptr => ofInts (dealloc l ptr).2

/-! ## What the calls say -/

/-- The calls from the first `alloc` of `ptr` on. -/
def since (ptr : ℕ) (cs : List ListCall) : List ListCall := cs.dropWhile fun c => !c.allocs ptr

/-- The number of `alloc`s less the number of `dealloc`s of `ptr`, since its first `alloc`. -/
def balance (ptr : ℕ) (cs : List ListCall) : ℤ :=
  (since ptr cs).countP (ListCall.allocs ptr) - (since ptr cs).countP (ListCall.deallocs ptr)

/-- The size of the last `alloc` of `ptr`. -/
def lastSize (ptr : ℕ) (cs : List ListCall) : Option Size :=
  (cs.filterMap (ListCall.sizeOf ptr)).getLast?

/-- **What the list should be** after the calls `cs`: a map of the pointers allocated
so far, which both searches look up. -/
structure CountedMap (l : List Item) (cs : List ListCall) : Prop where
  ascending : Sorted l
  ptrs : ∀ ptr, ptr ∈ l.map Item.ptr ↔ ∃ size info, .alloc ptr size info ∈ cs
  sizes : ∀ i ∈ l, lastSize i.ptr cs = some i.size
  counts : ∀ i ∈ l, i.cnt = balance i.ptr cs
  missing : ∀ ptr, ptr ∉ l.map Item.ptr → dealloc l ptr = (none, l)
  searches : ∀ ptr, find l ptr = l.find? (fun i => decide (i.ptr = ptr)) ∧
    (dealloc l ptr).1 = (find l ptr).map fun i => { i with cnt := i.cnt - 1 }

section Calls

variable {p ptr : ℕ} {size : Size} {info : CallInfo} {cs : List ListCall} {c : ListCall}

theorem since_eq_nil_iff : since ptr cs = [] ↔ ∀ c ∈ cs, c.allocs ptr = false := by
  simp [since, List.dropWhile_eq_nil_iff]

theorem since_concat_alloc : since ptr (cs ++ [.alloc ptr size info]) =
    since ptr cs ++ [.alloc ptr size info] := by
  rw [since, List.dropWhile_append]
  split
  · rename_i hnil
    rw [since, List.isEmpty_iff.mp hnil]
    simp [ListCall.allocs]
  · rfl

theorem since_concat (h : since ptr cs ≠ []) : since ptr (cs ++ [c]) = since ptr cs ++ [c] := by
  rw [since, List.dropWhile_append]
  exact if_neg (mt List.isEmpty_iff.mp h)

theorem since_concat_nil (h : since ptr cs = []) (hc : c.allocs ptr = false) :
    since ptr (cs ++ [c]) = [] := by
  rw [since_eq_nil_iff] at h ⊢
  intro d hd
  rcases List.mem_append.mp hd with hd | hd
  · exact h d hd
  · exact List.mem_singleton.mp hd ▸ hc

theorem balance_of_nil (h : since ptr cs = []) : balance ptr cs = 0 := by
  rw [balance, h]
  rfl

theorem balance_alloc : balance ptr (cs ++ [.alloc ptr size info]) = balance ptr cs + 1 := by
  rw [balance, balance, since_concat_alloc, List.countP_append, List.countP_append]
  simp [ListCall.allocs, ListCall.deallocs]
  omega

theorem balance_dealloc (h : since ptr cs ≠ []) :
    balance ptr (cs ++ [.dealloc ptr]) = balance ptr cs - 1 := by
  rw [balance, balance, since_concat h, List.countP_append, List.countP_append]
  simp [ListCall.allocs, ListCall.deallocs]
  omega

theorem balance_other (hal : c.allocs ptr = false) (hde : c.deallocs ptr = false) :
    balance ptr (cs ++ [c]) = balance ptr cs := by
  by_cases h : since ptr cs = []
  · rw [balance_of_nil h, balance_of_nil (since_concat_nil h hal)]
  · rw [balance, balance, since_concat h, List.countP_append, List.countP_append]
    simp [hal, hde]

theorem lastSize_alloc : lastSize ptr (cs ++ [.alloc ptr size info]) = some size := by
  rw [lastSize, List.filterMap_append]
  simp [ListCall.sizeOf]

theorem lastSize_other (hal : c.allocs ptr = false) :
    lastSize ptr (cs ++ [c]) = lastSize ptr cs := by
  have hnone : c.sizeOf ptr = none := by
    cases c with
    | alloc p size info => exact if_neg (of_decide_eq_false hal)
    | dealloc p => rfl
  rw [lastSize, List.filterMap_append]
  simp [hnone, lastSize]

theorem lastSize_eq_none_iff : lastSize ptr cs = none ↔ since ptr cs = [] := by
  rw [since_eq_nil_iff, lastSize, List.getLast?_eq_none_iff, List.filterMap_eq_nil_iff]
  refine forall₂_congr fun c _ => ?_
  cases c <;> simp [ListCall.allocs, ListCall.sizeOf]

end Calls

/-! ## The item of a pointer -/

/-- What the calls say about `ptr`: its last size and its balance. -/
def entry (ptr : ℕ) (cs : List ListCall) : Option (Size × ℤ) :=
  (lastSize ptr cs).map fun size => (size, balance ptr cs)

/-- The list says what the calls say. -/
structure Recorded (l : List Item) (cs : List ListCall) : Prop where
  sorted : Sorted l
  entries : ∀ ptr, (find l ptr).map (fun i => (i.size, i.cnt)) = entry ptr cs

namespace Recorded

variable {l : List Item} {cs : List ListCall} {c : ListCall} {p ptr : ℕ} {i : Item}

theorem nil : Recorded [] [] := ⟨List.Pairwise.nil, fun _ => rfl⟩

theorem entry_other (cs : List ListCall) (hal : c.allocs p = false) (hde : c.deallocs p = false) :
    entry p (cs ++ [c]) = entry p cs := by
  rw [entry, entry, lastSize_other hal, balance_other hal hde]

/-- `alloc` on a list that says what the calls say. -/
theorem alloc (h : Recorded l cs) (ptr : ℕ) (size : Size) (info : CallInfo) :
    Recorded (MemList.alloc l ptr size info) (cs ++ [.alloc ptr size info]) := by
  refine ⟨h.sorted.insert _, fun p => ?_⟩
  rw [MemList.alloc, find_insert h.sorted, newItem_ptr]
  by_cases hp : p = ptr
  · subst hp
    rw [if_pos rfl, entry, lastSize_alloc, balance_alloc]
    have hold := h.entries p
    cases hfind : find l p with
    | none =>
      rw [hfind, entry] at hold
      have hnil := lastSize_eq_none_iff.mp (Option.map_eq_none_iff.mp hold.symm)
      simp [allocated, balance_of_nil hnil]
    | some i =>
      rw [hfind, entry] at hold
      obtain ⟨old, -, heq⟩ := Option.map_eq_some_iff.mp hold.symm
      have hcnt : balance p cs = i.cnt := congrArg Prod.snd heq
      simp [allocated, hcnt]
  · have hal : (ListCall.alloc ptr size info).allocs p = false := decide_eq_false (Ne.symm hp)
    rw [if_neg hp, entry_other cs hal rfl]
    exact h.entries p

/-- `dealloc` on a list that says what the calls say. -/
theorem dealloc (h : Recorded l cs) (ptr : ℕ) :
    Recorded (MemList.dealloc l ptr).2 (cs ++ [.dealloc ptr]) := by
  refine ⟨h.sorted.dealloc, fun p => ?_⟩
  rw [find_dealloc h.sorted]
  by_cases hp : p = ptr
  · subst hp
    rw [if_pos rfl, entry, lastSize_other rfl]
    have hold := h.entries p
    rw [entry] at hold
    cases hsize : lastSize p cs with
    | none =>
      rw [hsize] at hold
      rw [Option.map_eq_none_iff.mp hold]
      rfl
    | some size =>
      have hnot : since p cs ≠ [] := by
        rw [Ne, ← lastSize_eq_none_iff, hsize]
        exact Option.some_ne_none size
      rw [hsize] at hold
      obtain ⟨i, hi, heq⟩ := Option.map_eq_some_iff.mp hold
      obtain ⟨rfl, hcnt⟩ := Prod.mk.inj heq
      simp [hi, hcnt, balance_dealloc hnot]
  · have hde : (ListCall.dealloc ptr).deallocs p = false := decide_eq_false (Ne.symm hp)
    rw [if_neg hp, entry_other cs rfl hde]
    exact h.entries p

/-- The item of a pointer. -/
theorem of_mem (h : Recorded l cs) (hi : i ∈ l) :
    lastSize i.ptr cs = some i.size ∧ i.cnt = balance i.ptr cs := by
  have hentry := h.entries i.ptr
  rw [find_of_mem h.sorted hi] at hentry
  obtain ⟨size, hsize, heq⟩ := Option.map_eq_some_iff.mp hentry.symm
  obtain ⟨rfl, hcnt⟩ := Prod.mk.inj heq
  exact ⟨hsize, hcnt.symm⟩

/-- The pointers of the list are those that were allocated. -/
theorem mem_ptrs (h : Recorded l cs) : ptr ∈ l.map Item.ptr ↔ since ptr cs ≠ [] := by
  have hentry := h.entries ptr
  rw [Ne, ← lastSize_eq_none_iff, List.mem_map]
  constructor
  · rintro ⟨i, hi, rfl⟩ hnone
    cases (h.of_mem hi).1.symm.trans hnone
  · intro hsome
    cases hfind : find l ptr with
    | none =>
      rw [hfind, entry] at hentry
      exact absurd (Option.map_eq_none_iff.mp hentry.symm) hsome
    | some i => exact ⟨i, mem_of_find hfind, ptr_of_find hfind⟩

/-- The counts of the items fit if all balances do. -/
theorem isInt_iff (h : Recorded l cs) :
    (∀ i ∈ l, IsInt i.cnt) ↔ ∀ ptr, IsInt (balance ptr cs) := by
  constructor
  · intro hl ptr
    by_cases hnil : since ptr cs = []
    · rw [balance_of_nil hnil]
      decide
    · obtain ⟨i, hi, rfl⟩ := List.mem_map.mp (h.mem_ptrs.mpr hnil)
      exact (h.of_mem hi).2 ▸ hl i hi
  · intro hb i hi
    exact (h.of_mem hi).2 ▸ hb i.ptr

end Recorded

/-! ## The two searches -/

section Searches

variable {l : List Item} {ptr : ℕ}

/-- A `dealloc` that finds nothing changes nothing. -/
theorem dealloc_of_missing (h : ptr ∉ l.map Item.ptr) : dealloc l ptr = (none, l) := by
  induction l with
  | nil => rfl
  | cons cur l ih =>
    rw [List.map_cons, List.mem_cons, not_or] at h
    rw [dealloc, if_pos (Ne.symm h.1), ih h.2]

/-- **The early exit of `find`** does not matter: it reads what a search of the whole
list reads. -/
theorem find_eq_find? (hl : Sorted l) : find l ptr = l.find? fun i => decide (i.ptr = ptr) := by
  induction l with
  | nil => rfl
  | cons cur l ih =>
    obtain ⟨hcur, htail⟩ := List.pairwise_cons.mp hl
    rw [find, List.find?_cons]
    rcases lt_trichotomy cur.ptr ptr with hlt | heq | hgt
    · rw [if_pos hlt, decide_eq_false hlt.ne, ih htail]
    · rw [if_neg heq.not_lt, if_pos heq, decide_eq_true heq]
    · rw [if_neg hgt.not_gt, if_neg hgt.ne', decide_eq_false hgt.ne']
      -- all later pointers are larger
      refine (List.find?_eq_none.mpr fun i hi => ?_).symm
      rw [decide_eq_true_eq]
      exact (hgt.trans (hcur i hi)).ne'

end Searches

theorem Recorded.countedMap {l : List Item} {cs : List ListCall} (h : Recorded l cs) :
    CountedMap l cs where
  ascending := h.sorted
  ptrs ptr := by
    rw [h.mem_ptrs, Ne, since_eq_nil_iff]
    push Not
    constructor
    · rintro ⟨c, hc, hal⟩
      cases c with
      | alloc p size info =>
        obtain rfl : p = ptr := by simpa [ListCall.allocs] using hal
        exact ⟨size, info, hc⟩
      | dealloc p => exact absurd rfl hal
    · rintro ⟨size, info, hc⟩
      exact ⟨_, hc, by simp [ListCall.allocs]⟩
  sizes i hi := (h.of_mem hi).1
  counts i hi := (h.of_mem hi).2
  missing ptr := dealloc_of_missing
  searches ptr := ⟨find_eq_find? h.sorted, dealloc_fst h.sorted⟩

/-! ## Runs -/

section Runs

variable {l l' : List Item} {cs : List ListCall} {c : ListCall}

theorem ofInts_eq_some : ofInts l = some l' ↔ l = l' ∧ ∀ i ∈ l, IsInt i.cnt := by
  rw [ofInts, Option.ite_none_right_eq_some, Option.some.injEq, and_comm]

/-- **One call** goes through exactly when all balances fit afterwards. -/
theorem Recorded.next (h : Recorded l cs) (c : ListCall) :
    ∃ l', Recorded l' (cs ++ [c]) ∧ ∀ l'', MemList.next l c = some l'' ↔
      l' = l'' ∧ ∀ ptr, IsInt (balance ptr (cs ++ [c])) := by
  cases c with
  | alloc ptr size info =>
    have h' := h.alloc ptr size info
    exact ⟨_, h', fun l'' => ofInts_eq_some.trans (and_congr_right fun _ => h'.isInt_iff)⟩
  | dealloc ptr =>
    have h' := h.dealloc ptr
    exact ⟨_, h', fun l'' => ofInts_eq_some.trans (and_congr_right fun _ => h'.isInt_iff)⟩

/-- All balances fit, at any time. -/
def Fit (cs : List ListCall) : Prop := ∀ pre, pre <+: cs → ∀ ptr, IsInt (balance ptr pre)

theorem fit_concat : Fit (cs ++ [c]) ↔ Fit cs ∧ ∀ ptr, IsInt (balance ptr (cs ++ [c])) := by
  simp only [Fit, List.prefix_concat_iff, forall_eq_or_imp, and_comm]

/-- **A run** says what the calls say, and it gets through exactly when all balances
fit at any time. -/
theorem exec_next (cs : List ListCall) :
    ((∃ l, Machine.exec next [] cs = some l) ↔ Fit cs) ∧
    ∀ l, Machine.exec next [] cs = some l → Recorded l cs := by
  induction cs using List.reverseRecOn with
  | nil =>
    refine ⟨iff_of_true ⟨[], rfl⟩ fun pre hpre ptr => ?_, ?_⟩
    · rw [List.prefix_nil.mp hpre, balance_of_nil rfl]
      decide
    · rintro l h
      cases h
      exact .nil
  | append_singleton cs c ih =>
    obtain ⟨hrun, hrec⟩ := ih
    have hexec : ∀ l', Machine.exec next [] (cs ++ [c]) = some l' ↔
        ∃ l, Machine.exec next [] cs = some l ∧ next l c = some l' := by
      intro l'
      rw [Machine.exec_append, Option.bind_eq_some_iff]
      refine exists_congr fun l => and_congr_right fun _ => ?_
      rw [Machine.exec, Option.bind_eq_some_iff]
      simp [Machine.exec]
    refine ⟨?_, fun l' h => ?_⟩
    · simp only [hexec]
      rw [fit_concat, ← hrun]
      constructor
      · rintro ⟨l', l, hl, hstep⟩
        obtain ⟨l₁, -, hnext⟩ := (hrec l hl).next c
        exact ⟨⟨l, hl⟩, ((hnext l').mp hstep).2⟩
      · rintro ⟨⟨l, hl⟩, hfit⟩
        obtain ⟨l₁, -, hnext⟩ := (hrec l hl).next c
        exact ⟨l₁, l, hl, (hnext l₁).mpr ⟨rfl, hfit⟩⟩
    · obtain ⟨l, hl, hstep⟩ := (hexec l').mp h
      obtain ⟨l₁, hrec₁, hnext⟩ := (hrec l hl).next c
      exact ((hnext l').mp hstep).1 ▸ hrec₁

/-- **The list is a counted map** after any calls, exactly if no count leaves the
`int` that holds it. -/
theorem counted_map_iff (cs : List ListCall) :
    (∃ l, Machine.exec next [] cs = some l ∧ CountedMap l cs) ↔ Fit cs := by
  obtain ⟨hrun, hrec⟩ := exec_next cs
  rw [← hrun]
  exact exists_congr fun l => ⟨And.left, fun h => ⟨h, (hrec l h).countedMap⟩⟩

/-! ### `2 ^ 31` calls -/

theorem balance_replicate (n : ℕ) (ptr : ℕ) (size : Size) (info : CallInfo) :
    balance ptr (List.replicate n (.alloc ptr size info)) = n := by
  induction n with
  | zero => rfl
  | succ n ih =>
    rw [List.replicate_succ', balance_alloc, ih]
    push_cast
    rfl

/-- **The count of a pointer overflows** when it is allocated `2 ^ 31` times. -/
theorem count_overflows : ¬∃ l,
    Machine.exec next [] (List.replicate (2 ^ 31) (.alloc 16 8 none)) = some l ∧
      CountedMap l (List.replicate (2 ^ 31) (.alloc 16 8 none)) := by
  rintro ⟨l, hrun, -⟩
  have hfit := (exec_next _).1.mp ⟨l, hrun⟩ _ (List.prefix_refl _) 16
  rw [balance_replicate] at hfit
  exact absurd hfit.2 (by decide)

end Runs

end MemList

end SysProgLab
