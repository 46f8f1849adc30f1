import SysProgLab.InPlace

/-!
# Running out of memory

`mm_malloc` returns `NULL` when no free block fits and `mem_sbrk` refuses, and then
nothing has been written. `mm_realloc` returns `NULL` for a request of at least one
byte only from the call of `mm_malloc` in case 2.4: the branches that write return the
block or a neighbour of it.
-/

namespace SysProgLab

/-- A branch that ends in `return q` returns `q`. -/
theorem fst_eq_of_bind {α : Type} {x : Option α} {q v : ℕ} {g : α → Heap} {h : Heap}
    (e : (x.bind fun y => some (q, g y)) = some (v, h)) : v = q := by
  obtain ⟨y, -, e⟩ := Option.bind_eq_some_iff.mp e
  cases e
  rfl

/-- When `mm_realloc` returns `NULL` for a request of at least one byte, it has done
nothing but the `mm_malloc` that returned `NULL`. -/
theorem mmRealloc_null {h h' : Heap} {ptr size : ℕ} (h0 : size ≠ 0)
    (e : mmRealloc h ptr size = some (0, h')) : mmMalloc h size = some (0, h') := by
  rw [mmRealloc, if_neg h0] at e
  split at e
  · exact e
  rename_i hptr
  dsimp only at e
  -- case 1
  split at e
  · split at e
    · cases e
      exact absurd rfl hptr
    · obtain ⟨m₁, -, e⟩ := Option.bind_eq_some_iff.mp e
      exact absurd (fst_eq_of_bind e).symm hptr
  -- cases 2.1.1 and 2.1.2
  split at e
  · obtain ⟨m₁, -, e⟩ := Option.bind_eq_some_iff.mp e
    exact absurd (fst_eq_of_bind e).symm hptr
  split at e
  · cases e
    exact absurd rfl hptr
  -- cases 2.2.1 to 2.3.2
  split at e
  · next hg => exact absurd (fst_eq_of_bind e).symm hg.1.1
  split at e
  · next hg =>
    have hq := congrArg Prod.fst (Option.some.inj e)
    exact absurd hq hg.1.1
  split at e
  · next hg => exact absurd (fst_eq_of_bind e).symm hg.1.1
  split at e
  · next hg =>
    have hq := congrArg Prod.fst (Option.some.inj e)
    exact absurd hq hg.1.1
  -- case 2.4
  obtain ⟨⟨q, h₁⟩, e₁, e⟩ := Option.bind_eq_some_iff.mp e
  split at e
  · next hq =>
    obtain rfl : q = 0 := hq
    cases e
    exact e₁
  · next hq => exact absurd (fst_eq_of_bind e).symm hq

namespace Heap.Models

variable {h : Heap} {L : Layout} {size : ℕ}

/-- What `mm_malloc` asks `mem_sbrk` for is refused when it is no `int` or exceeds the
limit. -/
theorem memSbrk_none_iff (hL : h.Models L) (ha : h.arith = .exact) {n : ℕ} (hn : n < 2 ^ 32) :
    memSbrk h (toInt32 n) = none ↔ ¬(n < 2 ^ 31 ∧ L.brk + n ≤ h.memMaxAddr) := by
  rw [← hL.brk]
  constructor
  · rintro hnone ⟨hlt, hle⟩
    rw [memSbrk_grant hlt (.of_exact ha n) hle] at hnone
    cases hnone
  · exact memSbrk_refuse hn fun _ => .of_exact ha n

/-- **`mm_malloc` returns**; when it returns `NULL` nothing has changed, and it does when
there is nothing to allocate or no room for it. -/
theorem malloc_null_iff (hL : h.Models L) (ha : h.arith = .exact) (hsize : size + 15 < 2 ^ 32) :
    ∃ q h', SysProgLab.mmMalloc h size = some (q, h') ∧ (q = 0 → h' = h) ∧
      (q = 0 ↔ size = 0 ∨ (¬∃ c, L.Fits (adjust size) c) ∧
        memSbrk h (toInt32 (max (adjust size) chunksize)) = none) := by
  by_cases h0 : size = 0
  · exact ⟨0, h, by rw [SysProgLab.mmMalloc, if_pos h0], fun _ => rfl, by simp [h0]⟩
  obtain ⟨-, -, -, hlt⟩ := adjust_spec hsize
  have hn : max (adjust size) chunksize < 2 ^ 32 := Nat.max_lt.mpr ⟨hlt, by decide⟩
  have hm := hL.mmMalloc h0 hsize fun _ _ => .of_exact ha _
  rw [← hL.repBy.fit_eq_none_iff, hL.memSbrk_none_iff ha hn]
  simp only [h0, false_or]
  cases hmal : L.malloc h.memMaxAddr (adjust size) with
  | none =>
    rw [hmal] at hm
    refine ⟨0, h, hm, fun _ => rfl, iff_of_true rfl ?_⟩
    rw [Layout.malloc] at hmal
    cases hf : L.fit (adjust size) with
    | none =>
      rw [hf] at hmal
      refine ⟨rfl, fun hok => ?_⟩
      dsimp only at hmal
      rw [if_pos hok] at hmal
      cases hmal
    | some b =>
      rw [hf] at hmal
      cases hmal
  | some x =>
    rw [hmal] at hm
    obtain ⟨m', e, hL', -, hadds, -⟩ := hm
    have hb := hL'.repBy.rep.bounds ((hadds.mem _ hadds.alloc).mpr (.inr rfl))
    rw [carved_addr] at hb
    have hne : x.1.addr ≠ 0 := by omega
    refine ⟨x.1.addr, _, e, fun hq => absurd hq hne, iff_of_false hne ?_⟩
    rintro ⟨hf, hno⟩
    rw [Layout.malloc, hf] at hmal
    exact hno (Option.ite_none_right_eq_some.mp hmal).1

end Heap.Models

/-- **Running out of memory changes nothing.** On every heap that represents a layout,
with exact pointer addition: `mm_malloc` returns, it returns `NULL` exactly when the
request is empty or no free block fits and `mem_sbrk` refuses, and whenever it or
`mm_realloc` of at least one byte returns `NULL`, the heap is what it was. -/
theorem out_of_memory {h : Heap} {L : Layout} (hL : h.Models L) (ha : h.arith = .exact)
    {size : ℕ} (hsize : size < 2 ^ 31) :
    (∃ q h', mmMalloc h size = some (q, h') ∧
      (q = 0 ↔ size = 0 ∨ (¬∃ c, L.Fits (adjust size) c) ∧
        memSbrk h (toInt32 (max (adjust size) chunksize)) = none)) ∧
    (∀ h', mmMalloc h size = some (0, h') → h' = h) ∧
    ∀ ptr h', 0 < size → mmRealloc h ptr size = some (0, h') → h' = h := by
  obtain ⟨q, h₁, e₁, hsame, hiff⟩ := hL.malloc_null_iff ha (by omega : size + 15 < 2 ^ 32)
  have hmalloc : ∀ h', mmMalloc h size = some (0, h') → h' = h := by
    intro h' e
    cases e₁.symm.trans e
    exact hsame rfl
  exact ⟨⟨q, h₁, e₁, hiff⟩, hmalloc,
    fun ptr h' h0 e => hmalloc h' (mmRealloc_null (Nat.pos_iff_ne_zero.mp h0) e)⟩

/-- A heap of 20 MiB has no room for 30. -/
theorem out_of_memory_run : ∃ h : Heap, mmMalloc h 31457280 = some (0, h) ∧
    ∀ ptr h', mmRealloc h ptr 31457280 = some (0, h') → h' = h := by
  obtain ⟨h, L, hL, ha, hmax, hbrk, hblocks⟩ := first_block_models
  obtain ⟨⟨q, h', e, hnull⟩, hmalloc, hrealloc⟩ :=
    out_of_memory hL ha (by decide : 31457280 < 2 ^ 31)
  have hsbrk := (hL.memSbrk_none_iff ha (by decide : max (adjust 31457280) chunksize < 2 ^ 32)).mpr
  rw [hbrk, hmax] at hsbrk
  have hfit : ¬∃ c, L.Fits (adjust 31457280) c := by
    rintro ⟨c, hc, hfree, hle⟩
    rw [hblocks] at hc
    rcases List.mem_pair.mp hc with rfl | rfl
    · cases hfree
    · exact absurd hle (by decide)
  obtain rfl := hnull.mpr (.inr ⟨hfit, hsbrk (by decide)⟩)
  obtain rfl := hmalloc h' e
  exact ⟨h', e, fun ptr h'' => hrealloc ptr h'' (by decide)⟩

end SysProgLab
