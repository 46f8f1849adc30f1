import SysProgLab.BestFit

/-!
# Requests of any size

`size_t` requests up to `2 ^ 32 - 1`. The rounding of a size wraps around for the
last fifteen of them, to a block size of 0 or 8; `mem_brk + incr` wraps when the
storage is high in the address space. A block is large enough and in place exactly
when neither happens on the way to it.
-/

namespace SysProgLab

/-- **What a returned block must be**: the rounding did not wrap, the block has room
for the request and its tags and lies below `mem_brk`, which is in bounds, and the
heap represents a layout again. -/
structure Fulfils (h : Heap) (q size : ℕ) : Prop where
  rounds : size + dsize + (dsize - 1) < 2 ^ 32
  room : size + 8 ≤ h.mem.getSize (hdrp q)
  below : q + h.mem.getSize (hdrp q) ≤ h.memBrk
  bounded : h.memBrk ≤ h.memMaxAddr
  models : ∃ L, h.Models L

/-- `mm_malloc(size)` does not wrap around. -/
def MallocOk (h : Heap) (size : ℕ) : Prop :=
  size + dsize + (dsize - 1) < 2 ^ 32 ∧ Client.ExtendsOk h size

/-- `mm_realloc(ptr, size)` does not wrap around. -/
def ReallocFits (h : Heap) (ptr size : ℕ) : Prop :=
  size + dsize + (dsize - 1) < 2 ^ 32 ∧ ReallocOk h.mem ptr size ∧
    (ReallocMoves h.mem ptr size → Client.ExtendsOk h size)

namespace Heap.Models

variable {h h' : Heap} {L L' : Layout} {a b : Block} {size q : ℕ}

/-- An allocated block with room for the request fulfils it. -/
theorem fulfils (hL : h.Models L) (hb : b ∈ L.blocks) (hsize : size + 15 < 2 ^ 32)
    (hle : adjust size ≤ b.size) : Fulfils h b.addr size := by
  obtain ⟨-, -, hroom, -⟩ := adjust_spec hsize
  have hbb := hL.repBy.rep.bounds hb
  refine ⟨hsize, ?_, ?_, ?_, L, hL⟩
  · rw [hL.repBy.rep.getSize_hdrp hb]
    exact hroom.trans hle
  · rw [hL.repBy.rep.getSize_hdrp hb, hL.brk]
    exact hbb.2.1
  · rw [hL.brk]
    exact hL.le_max

/-- **`mm_malloc` that does not wrap** returns what was asked for. -/
theorem malloc_fulfils (hL : h.Models L) (h0 : size ≠ 0) (hok : MallocOk h size)
    (e : SysProgLab.mmMalloc h size = some (q, h')) (hq : q ≠ 0) : Fulfils h' q size := by
  obtain ⟨hsize, hext⟩ := hok
  have hm := hL.mmMalloc h0 hsize (Client.ExtendsOk.noWrap hL hext)
  cases hmal : L.malloc h.memMaxAddr (adjust size) with
  | none =>
    rw [hmal] at hm
    cases e.symm.trans hm
    exact absurd rfl hq
  | some x =>
    rw [hmal] at hm
    obtain ⟨m', e', hL', -, hadds, hle⟩ := hm
    cases e.symm.trans e'
    have hmem := (hadds.mem _ hadds.alloc).mpr (.inr rfl)
    have hf := hL'.fulfils hmem hsize (le_carved_size (Nat.add_le_add_left hle x.1.addr))
    rwa [carved_addr] at hf

/-- **`mm_realloc` that does not wrap** returns what was asked for. -/
theorem realloc_fulfils (hL : h.Models L) (hb : b ∈ L.blocks) (hba : b.alloc = true)
    (h0 : size ≠ 0) (hok : ReallocFits h b.addr size)
    (e : SysProgLab.mmRealloc h b.addr size = some (q, h')) (hq : q ≠ 0) : Fulfils h' q size := by
  obtain ⟨hsize, hfits, hext⟩ := hok
  rcases hL.mmRealloc hb hba h0 hsize hfits fun hmove =>
    Client.ExtendsOk.noWrap hL (hext hmove) with e' | ⟨m', L', a, e', hL', hres, hle⟩
  · cases e.symm.trans e'
    exact absurd rfl hq
  · cases e.symm.trans e'
    exact hL'.fulfils ((hres.mem a hres.alloc).mpr (.inr rfl)) hsize hle

/-- What `mm_malloc` returns after a sum that wrapped is not in place. -/
theorem mallocOk_of_fulfils (hL : h.Models L) (hlimit : h.memMaxAddr = h.memStartBrk + maxHeap)
    (h0 : size ≠ 0) (e : SysProgLab.mmMalloc h size = some (q, h')) (hq : q ≠ 0)
    (hf : Fulfils h' q size) : MallocOk h size := by
  refine ⟨hf.rounds, fun hnull hlt => ?_⟩
  obtain ⟨-, hbrk, hstart⟩ := mmMalloc_sbrk h0 hf.rounds hnull e hq
  obtain ⟨L', hL'⟩ := hf.models
  -- the new `mem_brk` is above the start of the storage
  have hle := hL'.repBy.rep.tiles.le
  rw [← hL'.brk, ← hL'.start, hbrk, hstart] at hle
  have hmax := hL.max_lt
  have hold := hL.le_max
  rw [← hL.brk] at hold
  have hmaxHeap : maxHeap < 2 ^ 31 := by decide
  rw [Heap.NoWrap]
  cases ha : h.arith with
  | exact => rfl
  | wrap32 =>
    rw [ha, PtrArith.add] at hle
    rw [PtrArith.add]
    omega

end Heap.Models

/-- **No block is undersized unless a sum wraps around.** On every heap that
represents a layout, what `mm_malloc` returns fulfils the request if and only if
neither the rounding nor `mem_brk + incr` wraps; what `mm_realloc` returns for an
allocated block does when, besides, none of its guards is met by a difference that
wraps; `mm_realloc(NULL, size)` is `mm_malloc(size)`. -/
theorem fulfils_iff {h : Heap} {L : Layout} (hL : h.Models L)
    (hlimit : h.memMaxAddr = h.memStartBrk + maxHeap) {size : ℕ} (h0 : size ≠ 0) :
    (∀ q h', mmMalloc h size = some (q, h') → q ≠ 0 → (Fulfils h' q size ↔ MallocOk h size)) ∧
    (∀ b ∈ L.blocks, b.alloc = true → ReallocFits h b.addr size →
      ∀ q h', mmRealloc h b.addr size = some (q, h') → q ≠ 0 → Fulfils h' q size) ∧
    mmRealloc h 0 size = mmMalloc h size := by
  refine ⟨fun q h' e hq => ⟨hL.mallocOk_of_fulfils hlimit h0 e hq,
    fun hok => hL.malloc_fulfils h0 hok e hq⟩,
    fun b hb hba hok q h' e hq => hL.realloc_fulfils hb hba h0 hok e hq, ?_⟩
  rw [mmRealloc, if_neg h0, if_pos rfl]

theorem fulfils_iff_run : ∃ h h' : Heap, mmInit (memInit .wrap32 1024 fun _ => 0) = some (0, h) ∧
    mmMalloc h 5000 = some (1136, h') ∧ Fulfils h' 1136 5000 := by
  obtain ⟨h, e, hL, hlimit, -⟩ := mmInit_eq .wrap32 (fun _ => 0) (⟨128, rfl⟩ : 8 ∣ 1024)
    (by decide)
  have hrun : (mmInit (memInit .wrap32 1024 fun _ => 0)).any (fun r =>
      decide (Client.ExtendsOk r.2 5000) &&
        (mmMalloc r.2 5000).any fun x => decide (x.1 = 1136)) = true := by
    decide +kernel
  rw [e, Option.any_some, Bool.and_eq_true] at hrun
  obtain ⟨⟨q, h'⟩, e', hq⟩ := (Option.any_eq_true ..).mp hrun.2
  obtain rfl : q = 1136 := of_decide_eq_true hq
  have hstart : h.memMaxAddr = h.memStartBrk + maxHeap := by
    rw [hlimit, hL.start]
    rfl
  obtain ⟨hmalloc, -⟩ := fulfils_iff hL hstart (by decide : 5000 ≠ 0)
  exact ⟨h, h', e, e', (hmalloc 1136 h' e' (by decide)).mpr
    ⟨by decide, of_decide_eq_true hrun.1⟩⟩

/-- `mm_malloc(2 ^ 32 - 1)` returns a block of 8 bytes. -/
theorem fulfils_wrap : ∃ (h h' : Heap) (L : Layout), h.Models L ∧
    mmMalloc h (2 ^ 32 - 1) = some (1136, h') ∧ h'.mem.getSize (hdrp 1136) = 8 ∧
    ¬Fulfils h' 1136 (2 ^ 32 - 1) := by
  obtain ⟨h, e, hL, -, -⟩ := mmInit_eq .wrap32 (fun _ => 0) (⟨128, rfl⟩ : 8 ∣ 1024) (by decide)
  have hrun : (mmInit (memInit .wrap32 1024 fun _ => 0)).any (fun r =>
      (mmMalloc r.2 (2 ^ 32 - 1)).any fun x =>
        decide (x.1 = 1136 ∧ x.2.mem.getSize (hdrp 1136) = 8)) = true := by
    decide +kernel
  rw [e, Option.any_some] at hrun
  obtain ⟨⟨q, h'⟩, e', hq⟩ := (Option.any_eq_true ..).mp hrun
  obtain ⟨rfl, hsize⟩ := of_decide_eq_true hq
  exact ⟨h, h', _, hL, e', hsize, fun hf => absurd hf.rounds (by decide)⟩

end SysProgLab
