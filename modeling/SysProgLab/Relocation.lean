import SysProgLab.Layout

/-!
# Moving a layout

A layout depends on the address of the storage only by an offset: every
operation on the layout moved by `d` gives what it gives on the layout itself,
moved by `d`.
-/

namespace SysProgLab

/-- The block `d` bytes further up. -/
def Block.move (d : ℕ) (b : Block) : Block := { b with addr := b.addr + d }

@[simp] theorem Block.move_addr (d : ℕ) (b : Block) : (b.move d).addr = b.addr + d := rfl

@[simp] theorem Block.move_size (d : ℕ) (b : Block) : (b.move d).size = b.size := rfl

@[simp] theorem Block.move_alloc (d : ℕ) (b : Block) : (b.move d).alloc = b.alloc := rfl

theorem Block.move_stop (d : ℕ) (b : Block) : (b.move d).stop = b.stop + d :=
  Nat.add_right_comm ..

theorem Block.move_level (d : ℕ) (b : Block) : (b.move d).level = b.level := rfl

theorem Block.move_injective (d : ℕ) : Function.Injective (Block.move d) := by
  rintro ⟨a, s, f⟩ ⟨a', s', f'⟩ h
  obtain ⟨ha, rfl, rfl⟩ := Block.mk.inj h
  obtain rfl := Nat.add_right_cancel ha
  rfl

/-- All free lists moved. -/
def moveSegs (d : ℕ) (segs : ℕ → List Block) : ℕ → List Block :=
  fun i => (segs i).map (Block.move d)

variable (d hl brk : ℕ) (l r bs : List Block) (b : Block) (segs : ℕ → List Block)

/-! ## Merging -/

theorem prevOf_move : prevOf (hl + d) (l.map (Block.move d)) = (prevOf hl l).move d := by
  have hpro : prologue (hl + d) = (prologue hl).move d := by
    simp only [prologue, Block.move, Block.mk.injEq, and_true]
    omega
  rcases List.eq_nil_or_concat l with rfl | ⟨l', p, rfl⟩
  · exact hpro
  · simp [prevOf]

theorem nextOf_move : nextOf (brk + d) (r.map (Block.move d)) = (nextOf brk r).move d := by
  cases r <;> rfl

theorem mergeStart_move :
    mergeStart (hl + d) (l.map (Block.move d)) (b.move d) = mergeStart hl l b + d := by
  rw [mergeStart, mergeStart, prevOf_move, Block.move_alloc]
  split <;> rfl

theorem mergeStop_move :
    mergeStop (brk + d) (b.move d) (r.map (Block.move d)) = mergeStop brk b r + d := by
  rw [mergeStop, mergeStop, nextOf_move, Block.move_alloc]
  split <;> exact Block.move_stop ..

theorem mergedBlock_move :
    mergedBlock (hl + d) (brk + d) (l.map (Block.move d)) (b.move d) (r.map (Block.move d)) =
      (mergedBlock hl brk l b r).move d := by
  rw [mergedBlock, mergedBlock, mergeStart_move, mergeStop_move, Nat.add_sub_add_right]
  rfl

theorem restL_move : restL (hl + d) (l.map (Block.move d)) = (restL hl l).map (Block.move d) := by
  rw [restL, restL, prevOf_move, Block.move_alloc, ← List.map_dropLast]
  split <;> rfl

theorem restR_move : restR (brk + d) (r.map (Block.move d)) = (restR brk r).map (Block.move d) := by
  rw [restR, restR, nextOf_move, Block.move_alloc, ← List.map_tail]
  split <;> rfl

theorem mergedBlocks_move :
    mergedBlocks (hl + d) (brk + d) (l.map (Block.move d)) (b.move d) (r.map (Block.move d)) =
      (mergedBlocks hl brk l b r).map (Block.move d) := by
  rw [mergedBlocks, mergedBlocks, restL_move, restR_move, mergedBlock_move, List.map_append,
    List.map_cons]

/-! ## Free lists -/

theorem moveSegs_update (i : ℕ) :
    moveSegs d (Function.update segs i l) =
      Function.update (moveSegs d segs) i (l.map (Block.move d)) := by
  funext j
  by_cases hj : j = i
  · subst hj
    simp [moveSegs]
  · simp [moveSegs, Function.update_of_ne hj]

theorem delSeg_move : delSeg (moveSegs d segs) (b.move d) = moveSegs d (delSeg segs b) := by
  rw [delSeg, delSeg, moveSegs_update, List.map_erase (Block.move_injective d), Block.move_level]
  rfl

theorem insSeg_move : insSeg (moveSegs d segs) (b.move d) = moveSegs d (insSeg segs b) := by
  rw [insSeg, insSeg, moveSegs_update,
    List.map_orderedInsert Block.SizeLe Block.SizeLe (Block.move d) (segs b.level) b
      (fun _ _ => Iff.rfl) fun _ _ => Iff.rfl]
  rfl

theorem mergedSegs_move :
    mergedSegs (hl + d) (brk + d) (l.map (Block.move d)) (b.move d) (r.map (Block.move d))
      (moveSegs d segs) = moveSegs d (mergedSegs hl brk l b r segs) := by
  rw [mergedSegs, mergedSegs, prevOf_move, nextOf_move, mergedBlock_move, delSeg_move, delSeg_move,
    delSeg_move, insSeg_move, Block.move_alloc, Block.move_alloc]
  split <;> rfl

/-! ## Operations -/

theorem before_move : before (bs.map (Block.move d)) (b.move d) = (before bs b).map (Block.move d) := by
  rw [before, before, List.takeWhile_map]
  congr 2
  funext c
  simp [(Block.move_injective d).eq_iff]

theorem after_move : after (bs.map (Block.move d)) (b.move d) = (after bs b).map (Block.move d) := by
  rw [after, after, List.dropWhile_map, List.map_tail]
  congr 3
  funext c
  simp [(Block.move_injective d).eq_iff]

theorem carved_move (s t asize : ℕ) : carved (s + d) (t + d) asize = (carved s t asize).move d := by
  rw [carved, carved, Nat.add_sub_add_right]
  split <;> rfl

namespace Layout

variable (L : Layout) (s t asize n : ℕ)

/-- The layout `d` bytes further up. -/
def move (d : ℕ) (L : Layout) : Layout where
  hl := L.hl + d
  brk := L.brk + d
  blocks := L.blocks.map (Block.move d)
  segs := moveSegs d L.segs

theorem settle_move :
    (L.move d).settle (l.map (Block.move d)) (b.move d) (r.map (Block.move d)) (moveSegs d segs) =
      (L.settle l b r segs).move d := by
  rw [settle, insSeg_move]
  exact congrArg₂ (Layout.mk (L.hl + d) (L.brk + d)) (mergedBlocks_move ..) (mergedSegs_move ..)

theorem carve_move :
    (L.move d).carve (l.map (Block.move d)) (r.map (Block.move d)) (moveSegs d segs) (s + d) (t + d)
      asize = (L.carve l r segs s t asize).move d := by
  rw [carve, carve, carved_move, Nat.add_sub_add_right]
  split
  · rw [← settle_move, List.map_append, Block.move, Nat.add_right_comm]
    rfl
  · simp [move]

theorem free_move : (L.move d).free (b.move d) = (L.free b).move d := by
  rw [free, free, ← settle_move, ← before_move, ← after_move]
  rfl

theorem fit_move (size : ℕ) : (L.move d).fit size = (L.fit size).map (Block.move d) := by
  rw [fit, fit, List.map_findSome?]
  congr 1
  funext i
  exact List.find?_map

theorem place_move : (L.move d).place (b.move d) asize = (L.place b asize).move d := by
  rw [place, place, ← carve_move, ← before_move, ← after_move, ← delSeg_move, ← Block.move_stop]
  rfl

theorem grown_move : (L.move d).grown n = (L.grown n).move d := by
  rw [grown, grown, ← mergedBlock_move, Nat.add_right_comm]
  simp only [move, Block.move, List.map_nil]

theorem grow_move : (L.move d).grow n = (L.grow n).move d := by
  rw [grow, grow, ← settle_move]
  simp only [move, Block.move, List.map_nil, Nat.add_right_comm]

/-- **`Layout.malloc` does not depend on where the storage is.** -/
theorem malloc_move (limit : ℕ) :
    (L.move d).malloc (limit + d) asize =
      (L.malloc limit asize).map fun x => (x.1.move d, x.2.move d) := by
  rw [malloc, malloc, fit_move]
  cases L.fit asize with
  | some b => simp only [Option.map_some, place_move]
  | none =>
    have hroom : (L.move d).brk + max asize chunksize ≤ limit + d ↔
        L.brk + max asize chunksize ≤ limit := by
      rw [move, Nat.add_right_comm]
      exact Nat.add_le_add_iff_right
    simp only [Option.map_none, hroom, grown_move, grow_move, place_move]
    split <;> rfl

end Layout

end SysProgLab
