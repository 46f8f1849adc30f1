import SysProgLab.WordMem
import Mathlib.Data.Int.Notation

/-!
# The allocator: `mm.c` over `memlib.c`

The functions of `mm.c` as the 32-bit build computes them. The simulated
memory is a `Mem`; sizes are `size_t`, so arithmetic on them is modulo
`2 ^ 32` wherever it can wrap, and a pointer moved by a size read from memory
wraps with it. `PUT_ADDR` stores a 32-bit word like `PUT`.

The functions that only touch memory take the global `heap_listp` and a `Mem`;
those that reach `mem_sbrk` take the whole `Heap`. A `while` loop over a
free list is a recursion on fuel. Between two iterations such a loop remembers
32-bit pointers only and memory does not change, so a walk of more than
`2 ^ 32` steps has met the same pointer twice and never ends: `none` is
divergence.
-/

namespace SysProgLab

/-! ## Constants and macros -/

/-- `WSIZE` -/
abbrev wsize : ℕ := 4

/-- `DSIZE` -/
abbrev dsize : ℕ := 8

/-- `CHUNKSIZE` -/
abbrev chunksize : ℕ := 2 ^ 12

/-- `N_SEGLIST` -/
abbrev nSeglist : ℕ := 11

/-- `MIN_BLK_SIZE` -/
abbrev minBlkSize : ℕ := 2 * dsize

/-- `MAX_HEAP` of `config.h` -/
abbrev maxHeap : ℕ := 20 * 2 ^ 20

/-- `PACK` -/
def pack (size alloc : ℕ) : ℕ := size ||| alloc

/-- `HDRP` -/
def hdrp (bp : ℕ) : ℕ := bp - wsize

namespace Mem

/-- `GET_SIZE`: the word with its low three bits cleared. -/
def getSize (m : Mem) (p : ℕ) : ℕ := m.get p / 8 * 8

/-- `GET_ALLOC`: the low bit of the word. -/
def getAlloc (m : Mem) (p : ℕ) : ℕ := m.get p % 2

/-- `FTRP`; reads the size from the block's header. -/
def ftrp (m : Mem) (bp : ℕ) : ℕ := (bp + m.getSize (hdrp bp) + 2 ^ 32 - dsize) % 2 ^ 32

/-- `NEXT_BLKP` -/
def nextBlkp (m : Mem) (bp : ℕ) : ℕ := (bp + m.getSize (bp - wsize)) % 2 ^ 32

/-- `PREV_BLKP`; reads the size from the footer before the block. -/
def prevBlkp (m : Mem) (bp : ℕ) : ℕ := (bp + 2 ^ 32 - m.getSize (bp - dsize)) % 2 ^ 32

/-- `NEXT_FREE_BLKP` -/
def nextFreeBlkp (m : Mem) (bp : ℕ) : ℕ := m.get bp

/-- `PREV_FREE_BLKP` -/
def prevFreeBlkp (m : Mem) (bp : ℕ) : ℕ := m.get (bp + wsize)

end Mem

/-- Unsigned 32-bit subtraction. -/
def sub32 (x y : ℕ) : ℕ := (x + 2 ^ 32 - y) % 2 ^ 32

/-! ## The simulated memory system -/

/-- How the pointer sum `mem_brk + incr` is computed: exactly, or in the 32
bits of the `-m32` build. -/
inductive PtrArith : Type where
  /-- the mathematical sum -/
  | exact : PtrArith
  /-- the sum modulo `2 ^ 32` -/
  | wrap32 : PtrArith
  deriving DecidableEq

/-- `p + incr` on pointers. -/
def PtrArith.add : PtrArith → ℕ → ℕ → ℕ
  | .exact, p, incr => p + incr
  | .wrap32, p, incr => (p + incr) % 2 ^ 32

/-- The private variables of `memlib.c`, the globals of `mm.c`, and the memory
they point into. -/
structure Heap where
  /-- the memory -/
  mem : Mem
  /-- `mem_start_brk` -/
  memStartBrk : ℕ
  /-- `mem_brk` -/
  memBrk : ℕ
  /-- `mem_max_addr` -/
  memMaxAddr : ℕ
  /-- `heap_listp` -/
  heapListp : ℕ
  /-- `blk_start` -/
  blkStart : ℕ
  /-- the pointer arithmetic of the build -/
  arith : PtrArith

/-- `mem_init` with the storage at `base` and whatever contents `malloc`
returned. -/
def memInit (arith : PtrArith) (base : ℕ) (mem : Mem) : Heap where
  mem := mem
  memStartBrk := base
  memBrk := base
  memMaxAddr := base + maxHeap
  heapListp := 0
  blkStart := 0
  arith := arith

/-- `mem_reset_brk` -/
def memResetBrk (h : Heap) : Heap := { h with memBrk := h.memStartBrk }

/-- The `size_t` argument as the `int` parameter of `mem_sbrk`. -/
def toInt32 (n : ℕ) : ℤ :=
  if n % 2 ^ 32 < 2 ^ 31 then ((n % 2 ^ 32 : ℕ) : ℤ) else ((n % 2 ^ 32 : ℕ) : ℤ) - 2 ^ 32

/-- `mem_sbrk`; `none` is `(void *)-1`. -/
def memSbrk (h : Heap) (incr : ℤ) : Option (ℕ × Heap) :=
  if incr < 0 ∨ h.memMaxAddr < h.arith.add h.memBrk incr.toNat then none
  else some (h.memBrk, { h with memBrk := h.arith.add h.memBrk incr.toNat })

/-! ## The segregated free lists -/

/-- Fuel of a free-list walk: more steps than there are 32-bit pointers. -/
def walkFuel : ℕ := 2 ^ 32

/-- `get_seg_level` -/
def getSegLevel (size : ℕ) : ℕ :=
  let nBlock := size / dsize
  if nBlock ≤ 2 then 0
  else if nBlock ≤ 4 then 1
  else if nBlock ≤ 8 then 2
  else if nBlock ≤ 16 then 3
  else if nBlock ≤ 32 then 4
  else if nBlock ≤ 64 then 5
  else if nBlock ≤ 128 then 6
  else if nBlock ≤ 256 then 7
  else if nBlock ≤ 512 then 8
  else if nBlock ≤ 1024 then 9
  else 10

/-- `get_freeblk_root` -/
def getFreeblkRoot (heapListp size : ℕ) : ℕ := heapListp + dsize + getSegLevel size * dsize

/-- The loop of `insert_free_block`: the last node smaller than `size` (or the
root) and the node after it (or `NULL`). -/
def insertWalk (m : Mem) (size : ℕ) : ℕ → ℕ → ℕ → Option (ℕ × ℕ)
  | 0, _, _ => none
  | n + 1, prevp, p =>
    if p ≠ 0 ∧ m.getSize (hdrp p) < size then insertWalk m size n p (m.nextFreeBlkp p)
    else some (prevp, p)

/-- `insert_free_block` -/
def insertFreeBlock (heapListp : ℕ) (m : Mem) (bp : ℕ) : Option Mem :=
  let size := m.getSize (hdrp bp)
  let root := getFreeblkRoot heapListp size
  if m.get root = 0 then
    let m := m.put root bp
    let m := m.put (bp + wsize) root
    some (m.put bp 0)
  else do
    let (prevp, p) ← insertWalk m size walkFuel root (m.get root)
    let m := m.put prevp bp
    let m := m.put (bp + wsize) prevp
    let m := m.put bp p
    some (if p ≠ 0 then m.put (p + wsize) bp else m)

/-- `delete_free_block` -/
def deleteFreeBlock (m : Mem) (bp : ℕ) : Mem :=
  let nextFree := m.nextFreeBlkp bp
  let prevFree := m.prevFreeBlkp bp
  let m := m.put prevFree nextFree
  if nextFree ≠ 0 then m.put (nextFree + wsize) prevFree else m

/-- The inner loop of `find_fit`: the first node of the list at `p` that is not
smaller than `size`, or `NULL`. -/
def fitWalk (m : Mem) (size : ℕ) : ℕ → ℕ → Option ℕ
  | 0, _ => none
  | n + 1, p =>
    if p ≠ 0 ∧ m.getSize (hdrp p) < size then fitWalk m size n (m.nextFreeBlkp p) else some p

/-- The outer loop of `find_fit`, over the roots from `root` up. -/
def fitRoots (heapListp : ℕ) (m : Mem) (size : ℕ) : ℕ → ℕ → Option ℕ
  | 0, _ => none
  | n + 1, root =>
    if root ≤ heapListp + dsize * nSeglist then do
      let p2 ← fitWalk m size walkFuel (m.get root)
      if p2 ≠ 0 then some p2 else fitRoots heapListp m size n (root + dsize)
    else some 0

/-- `find_fit`; `some 0` is `NULL`. -/
def findFit (heapListp : ℕ) (m : Mem) (size : ℕ) : Option ℕ :=
  fitRoots heapListp m size (nSeglist + 1) (getFreeblkRoot heapListp size)

/-! ## Blocks -/

/-- `PUT(HDRP(bp), PACK(size, alloc)); PUT(FTRP(bp), PACK(size, alloc));`, the
pair of stores by which every function sets the tags of a block. `FTRP` reads
the header just written. -/
def setTags (m : Mem) (bp size alloc : ℕ) : Mem :=
  let m := m.put (hdrp bp) (pack size alloc)
  m.put (m.ftrp bp) (pack size alloc)

/-- `coalesce`; the result is the merged block. -/
def coalesce (heapListp : ℕ) (m : Mem) (bp : ℕ) : Option (ℕ × Mem) :=
  let prevAlloc := m.getAlloc (m.ftrp (m.prevBlkp bp))
  let nextAlloc := m.getAlloc (hdrp (m.nextBlkp bp))
  let size := m.getSize (hdrp bp)
  if prevAlloc ≠ 0 ∧ nextAlloc ≠ 0 then some (bp, m)
  else if prevAlloc ≠ 0 ∧ nextAlloc = 0 then do
    let m := deleteFreeBlock m (m.nextBlkp bp)
    let m := deleteFreeBlock m bp
    let size := (size + m.getSize (hdrp (m.nextBlkp bp))) % 2 ^ 32
    let m := setTags m bp size 0
    let m ← insertFreeBlock heapListp m bp
    some (bp, m)
  else if prevAlloc = 0 ∧ nextAlloc ≠ 0 then do
    let m := deleteFreeBlock m (m.prevBlkp bp)
    let m := deleteFreeBlock m bp
    let size := (size + m.getSize (hdrp (m.prevBlkp bp))) % 2 ^ 32
    let m := m.put (m.ftrp bp) (pack size 0)
    let m := m.put (hdrp (m.prevBlkp bp)) (pack size 0)
    let bp := m.prevBlkp bp
    let m ← insertFreeBlock heapListp m bp
    some (bp, m)
  else do
    let m := deleteFreeBlock m (m.prevBlkp bp)
    let m := deleteFreeBlock m (m.nextBlkp bp)
    let m := deleteFreeBlock m bp
    let size := (size + (m.getSize (hdrp (m.prevBlkp bp)) +
      m.getSize (m.ftrp (m.nextBlkp bp)))) % 2 ^ 32
    let m := m.put (hdrp (m.prevBlkp bp)) (pack size 0)
    let m := m.put (m.ftrp (m.nextBlkp bp)) (pack size 0)
    let bp := m.prevBlkp bp
    let m ← insertFreeBlock heapListp m bp
    some (bp, m)

/-- `extend_heap`; the result `0` is `NULL`. -/
def extendHeap (h : Heap) (words : ℕ) : Option (ℕ × Heap) :=
  let size := if words % 2 ≠ 0 then (words + 1) * wsize % 2 ^ 32 else words * wsize % 2 ^ 32
  match memSbrk h (toInt32 size) with
  | none => some (0, h)
  | some (bp, h) => do
    let m := setTags h.mem bp size 0
    let m := m.put (hdrp (m.nextBlkp bp)) (pack 0 1)
    let m ← insertFreeBlock h.heapListp m bp
    let (bp, m) ← coalesce h.heapListp m bp
    some (bp, { h with mem := m })

/-- The five lines by which `place` and `mm_realloc` cut a block: the first
`asize` bytes at `bp` are tagged allocated, the `remaining` bytes after them
free. The result is `NEXT_BLKP(bp)`. -/
def splitTags (m : Mem) (bp asize remaining : ℕ) : ℕ × Mem :=
  let m := setTags m bp asize 1
  let newFreed := m.nextBlkp bp
  (newFreed, setTags m newFreed remaining 0)

/-- `place` -/
def place (heapListp : ℕ) (m : Mem) (bp asize : ℕ) : Option Mem :=
  let isRealloc := m.getAlloc (hdrp bp)
  let startSize := m.getSize (hdrp bp)
  let remainingSize := sub32 startSize asize
  let m := if isRealloc = 0 then deleteFreeBlock m bp else m
  if minBlkSize ≤ remainingSize then do
    let (remainingBlkp, m) := splitTags m bp asize remainingSize
    let m ← insertFreeBlock heapListp m remainingBlkp
    let (_, m) ← coalesce heapListp m remainingBlkp
    some m
  else some (setTags m bp startSize 1)

/-! ## The interface -/

/-- `mm_init`; the result is its return code. -/
def mmInit (h : Heap) : Option (ℤ × Heap) :=
  match memSbrk h (toInt32 (3 * dsize + nSeglist * dsize)) with
  | none => some (-1, { h with heapListp := 2 ^ 32 - 1 })
  | some (heapListp, h) => do
    let m := h.mem.put heapListp 0
    let m := (List.range nSeglist).foldl (fun m i => m.put (heapListp + (i + 1) * dsize) 0) m
    let m := m.put (heapListp + dsize + nSeglist * dsize + wsize) (pack dsize 1)
    let m := m.put (heapListp + 2 * dsize + nSeglist * dsize) (pack dsize 1)
    let m := m.put (heapListp + 2 * dsize + nSeglist * dsize + wsize) (pack 0 1)
    let (bp, h) ← extendHeap { h with mem := m, heapListp := heapListp } (chunksize / wsize)
    if bp = 0 then some (-1, h)
    else some (0, { h with blkStart := heapListp + (nSeglist + 3) * dsize })

/-- The rounding of a request to a block size in `mm_malloc` and `mm_realloc`. -/
def adjust (size : ℕ) : ℕ :=
  if size ≤ dsize then 2 * dsize else dsize * ((size + dsize + (dsize - 1)) % 2 ^ 32 / dsize)

/-- `mm_malloc`; the result `0` is `NULL`. -/
def mmMalloc (h : Heap) (size : ℕ) : Option (ℕ × Heap) :=
  if size = 0 then some (0, h)
  else do
    let asize := adjust size
    let bp ← findFit h.heapListp h.mem asize
    if bp ≠ 0 then do
      let m ← place h.heapListp h.mem bp asize
      some (bp, { h with mem := m })
    else do
      let extendsize := max asize chunksize
      let (bp, h) ← extendHeap h (extendsize / wsize)
      if bp = 0 then some (0, h)
      else do
        let m ← place h.heapListp h.mem bp asize
        some (bp, { h with mem := m })

/-- `mm_free` -/
def mmFree (h : Heap) (ptr : ℕ) : Option Heap :=
  if ptr = 0 ∨ h.mem.getAlloc (hdrp ptr) = 0 then some h
  else do
    let size := h.mem.getSize (hdrp ptr)
    let m := setTags h.mem ptr size 0
    let m ← insertFreeBlock h.heapListp m ptr
    let (_, m) ← coalesce h.heapListp m ptr
    some { h with mem := m }

/-- The number of bytes `mm_realloc` moves:
`copySize-DSIZE>size?size:copySize-DSIZE`. -/
def copyLen (copySize size : ℕ) : ℕ :=
  if size < sub32 copySize dsize then size else sub32 copySize dsize

/-- `mm_realloc`; the result `0` is `NULL`. -/
def mmRealloc (h : Heap) (ptr size : ℕ) : Option (ℕ × Heap) :=
  if size = 0 then do
    let h ← mmFree h ptr
    some (0, h)
  else if ptr = 0 then mmMalloc h size
  else
    let m := h.mem
    let copySize := m.getSize (hdrp ptr)
    let asize := adjust size
    if asize ≤ copySize then
      -- Case 1
      if sub32 copySize asize < minBlkSize then some (ptr, h)
      else do
        let (newFreed, m) := splitTags m ptr asize (sub32 copySize asize)
        let m ← insertFreeBlock h.heapListp m newFreed
        let (_, m) ← coalesce h.heapListp m newFreed
        some (ptr, { h with mem := m })
    else
      let prevptr := m.prevBlkp ptr
      let nextptr := m.nextBlkp ptr
      let nextFree := nextptr ≠ 0 ∧ m.getAlloc (hdrp nextptr) = 0
      let prevFree := prevptr ≠ 0 ∧ m.getAlloc (hdrp prevptr) = 0
      let nextFreesize := m.getSize (hdrp nextptr)
      let prevFreesize := m.getSize (hdrp prevptr)
      let nextRest := sub32 (copySize + nextFreesize) asize
      let prevRest := sub32 (copySize + prevFreesize) asize
      let bothRest := sub32 (copySize + prevFreesize + nextFreesize) asize
      if nextFree ∧ minBlkSize ≤ nextRest then do
        -- Case 2.1.1
        let m := deleteFreeBlock m nextptr
        let (newFreed, m) := splitTags m ptr asize nextRest
        let m ← insertFreeBlock h.heapListp m newFreed
        let (_, m) ← coalesce h.heapListp m newFreed
        some (ptr, { h with mem := m })
      else if nextFree ∧ 0 < nextRest then
        -- Case 2.1.2
        let m := deleteFreeBlock m nextptr
        let m := setTags m ptr ((copySize + nextFreesize) % 2 ^ 32) 1
        some (ptr, { h with mem := m })
      else if prevFree ∧ minBlkSize ≤ prevRest then do
        -- Case 2.2.1
        let m := deleteFreeBlock m prevptr
        let m := m.memmove prevptr ptr (copyLen copySize size)
        let (newFreed, m) := splitTags m prevptr asize prevRest
        let m ← insertFreeBlock h.heapListp m newFreed
        some (prevptr, { h with mem := m })
      else if prevFree ∧ 0 < prevRest then
        -- Case 2.2.2
        let m := deleteFreeBlock m prevptr
        let m := m.memmove prevptr ptr (copyLen copySize size)
        let m := setTags m prevptr ((copySize + prevFreesize) % 2 ^ 32) 1
        some (prevptr, { h with mem := m })
      else if prevFree ∧ nextFree ∧ minBlkSize ≤ bothRest then do
        -- Case 2.3.1
        let m := deleteFreeBlock m prevptr
        let m := deleteFreeBlock m nextptr
        let m := m.memmove prevptr ptr (copyLen copySize size)
        let (newFreed, m) := splitTags m prevptr asize bothRest
        let m ← insertFreeBlock h.heapListp m newFreed
        some (prevptr, { h with mem := m })
      else if prevFree ∧ nextFree ∧ 0 < bothRest then
        -- Case 2.3.2: the size of the next block is left out
        let m := deleteFreeBlock m prevptr
        let m := deleteFreeBlock m nextptr
        let m := m.memmove prevptr ptr (copyLen copySize size)
        let m := setTags m prevptr ((copySize + prevFreesize) % 2 ^ 32) 1
        some (prevptr, { h with mem := m })
      else do
        -- Case 2.4
        let (newptr, h) ← mmMalloc h size
        if newptr = 0 then some (0, h)
        else do
          let m := h.mem.memmove newptr ptr (copyLen copySize size)
          let h ← mmFree { h with mem := m } ptr
          some (newptr, h)

end SysProgLab
