import SysProgLab.Realloc

/-!
# What the representation means for the words of the heap

`WellFormed h bs segs` is the heap invariant in the terms of the code: what the
walk along `NEXT_BLKP` from `blk_start` meets, what the tag words hold, what the
links of the free lists point to. `Heap.Models.wellFormed` derives it from the
layout that the heap represents.
-/

namespace SysProgLab

/-- The block that the header before `bp` describes. -/
def Mem.blockAt (m : Mem) (bp : ℕ) : Block :=
  ⟨bp, m.getSize (hdrp bp), decide (m.getAlloc (hdrp bp) ≠ 0)⟩

/-- The loop of `printblocks`: from `p` along `NEXT_BLKP` until the header is
that of the epilogue meets the blocks `bs` and stops at `e`. -/
def Walk (m : Mem) : ℕ → List Block → ℕ → Prop
  | p, [], e => p = e ∧ m.get (hdrp p) = pack 0 1
  | p, b :: bs, e => m.get (hdrp p) ≠ pack 0 1 ∧ b = m.blockAt p ∧ Walk m (m.nextBlkp p) bs e

/-- The heap invariant. -/
structure WellFormed (h : Heap) (bs : List Block) (segs : ℕ → List Block) : Prop where
  /-- the walk from `blk_start` meets `bs` and stops at the epilogue, at `mem_brk` -/
  walk : Walk h.mem h.blkStart bs h.memBrk
  /-- the blocks tile the heap -/
  tiles : Tiles Block.addr Block.size h.blkStart bs h.memBrk
  /-- sizes are multiples of 8 and at least 16 -/
  sizes : ∀ b ∈ bs, 8 ∣ b.size ∧ 16 ≤ b.size
  /-- header and footer are equal -/
  tags : ∀ b ∈ bs, h.mem.get (hdrp b.addr) = h.mem.get (h.mem.ftrp b.addr)
  /-- the prologue header and footer -/
  prologue : h.mem.get (h.heapListp + 100) = pack dsize 1 ∧
    h.mem.get (h.heapListp + 104) = pack dsize 1
  /-- no two adjacent blocks are both free -/
  noAdj : bs.IsChain fun b c => b.alloc = true ∨ c.alloc = true
  /-- the listed blocks are the free blocks, on the list of their class -/
  listed : ∀ i < nSeglist, ∀ b, b ∈ segs i ↔ b ∈ bs ∧ b.alloc = false ∧ getSegLevel b.size = i
  /-- no block is listed twice -/
  nodup : ∀ i < nSeglist, (segs i).Nodup
  /-- lists are ascending in size -/
  sorted : ∀ i < nSeglist, (segs i).Pairwise fun b c => b.size ≤ c.size
  /-- each list is a chain off its root, with back pointers and a `NULL` end -/
  chain : ∀ i < nSeglist, Chain h.mem (h.heapListp + dsize + i * dsize) ((segs i).map Block.addr)

theorem blockAt_of_tag {m : Mem} {b : Block} (h8 : 8 ∣ b.size)
    (h : m.get (hdrp b.addr) = b.tag) : m.blockAt b.addr = b := by
  rw [Mem.blockAt, getSize_of_tag h8 h, getAlloc_of_tag h8 h]
  cases b with
  | mk addr size alloc => cases alloc <;> rfl

/-- The header of a block is not that of the epilogue. -/
theorem Block.Valid.tag_ne {b : Block} (h : b.Valid) : b.tag ≠ pack 0 1 := by
  have hle := h.le
  rw [Block.tag_eq h.dvd, pack_eq ⟨0, rfl⟩ (by decide)]
  omega

theorem Rep.walk {hl brk : ℕ} {m : Mem} {segs : ℕ → List Block} : ∀ {r l : List Block} {p : ℕ},
    Rep hl brk m (l ++ r) segs → Tiles Block.addr Block.size p r brk → Walk m p r brk := by
  intro r
  induction r with
  | nil =>
    intro l p h ht
    obtain rfl : p = brk := ht
    exact ⟨rfl, h.epi⟩
  | cons b r ih =>
    intro l p h ht
    obtain ⟨rfl, ht⟩ := ht
    have hv := h.valid b Rep.focus_mem
    have hhdr := h.header Rep.focus_mem
    refine ⟨?_, (blockAt_of_tag hv.dvd hhdr).symm, ?_⟩
    · rw [hhdr]
      exact hv.tag_ne
    · rw [h.nextBlkp_focus, h.next.1]
      rw [← List.singleton_append, ← List.append_assoc] at h
      exact ih h ht

theorem Rep.mem_segs {hl brk : ℕ} {m : Mem} {bs : List Block} {segs : ℕ → List Block}
    (h : Rep hl brk m bs segs) (hfull : Full bs segs) {i : ℕ} {b : Block} :
    b ∈ segs i ↔ b ∈ bs ∧ b.alloc = false ∧ getSegLevel b.size = i := by
  constructor
  · exact h.listed i b
  · rintro ⟨hb, hfree, rfl⟩
    exact hfull b hb hfree

/-- **A heap that represents a layout is well formed.** -/
theorem Heap.Models.wellFormed {h : Heap} {L : Layout} (hL : h.Models L) :
    WellFormed h L.blocks L.segs := by
  have hrep := hL.repBy.rep
  have hbrk := hL.brk
  have hblk := hL.blk
  have hlistp := hL.listp
  refine ⟨?_, ?_, fun b hb => ?_, fun b hb => ?_, ?_, hL.repBy.ok.noAdj,
    fun i _ b => hrep.mem_segs hL.repBy.ok.full, fun i _ => hrep.nodup i,
    fun i _ => hrep.sorted i, fun i hi => ?_⟩
  · rw [hblk, hbrk]
    exact Rep.walk (l := []) hrep hrep.tiles
  · rw [hblk, hbrk]
    exact hrep.tiles
  · exact ⟨(hrep.valid b hb).dvd, (hrep.valid b hb).le⟩
  · have hb' := hrep.bounds hb
    rw [ftrp_eq (hrep.valid b hb).dvd (hrep.header hb) (by simp only [Block.stop]; omega)
      (hrep.addr_lt hb), (hrep.tags b hb).1, (hrep.tags b hb).2]
  · rw [hlistp]
    exact hrep.pro
  · rw [hlistp]
    exact hrep.chain i hi

end SysProgLab
