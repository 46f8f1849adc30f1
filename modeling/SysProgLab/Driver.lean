import SysProgLab.Malloc
import SysProgLab.Stopping

/-!
# The driver of a malloc package: `mdriver.c`

`eval_mm_valid` runs a trace through a package and checks every payload that the package
hands out; `eval_mm_util` and `eval_mm_speed` run it again, to measure it. The package is
a parameter (`Package`), as it is for the driver, which only knows `mm.h` and `memlib.h`;
`mm` is the one of `mm.c`.

The payloads that have been handed out are kept as a list of ranges, the youngest first.
-/

namespace SysProgLab

namespace Driver

/-! ## Traces -/

/-- The type of a request. -/
inductive OpType : Type where
  | alloc
  | free
  | realloc
  deriving DecidableEq

/-- `traceop_t` -/
structure Op : Type where
  /-- the type of request -/
  type : OpType
  /-- which block -/
  index : ℤ
  /-- the byte size of an alloc or realloc request -/
  size : ℤ
  deriving DecidableEq

/-- `trace_t`; `malloc` leaves what it likes in the arrays `blocks` and `block_sizes`. -/
structure Trace : Type where
  /-- `sugg_heapsize` -/
  suggHeapsize : ℤ
  /-- `num_ids` -/
  numIds : ℤ
  /-- `num_ops` -/
  numOps : ℤ
  /-- `weight` -/
  weight : ℤ
  /-- the requests -/
  ops : List Op
  /-- the pointers returned -/
  blocks : List ℕ
  /-- the payload sizes -/
  blockSizes : List ℕ

/-! ## Packages -/

/-- A malloc package and the memory it works on; `none` when a function does not return. -/
structure Package where
  /-- the variables of the package and of `memlib.c` -/
  State : Type
  /-- the simulated memory -/
  mem : State → Mem
  /-- the driver stores into memory -/
  store : State → Mem → State
  /-- `mem_heap_lo` -/
  heapLo : State → ℕ
  /-- `mem_brk`, one more than `mem_heap_hi` -/
  brk : State → ℕ
  /-- `mem_reset_brk` -/
  resetBrk : State → State
  /-- `mm_init` -/
  init : State → Option (ℤ × State)
  /-- `mm_malloc` -/
  malloc : State → ℕ → Option (ℕ × State)
  /-- `mm_free` -/
  free : State → ℕ → Option State
  /-- `mm_realloc` -/
  realloc : State → ℕ → ℕ → Option (ℕ × State)
  /-- the driver's stores do not move the ends of the heap -/
  heapLo_store : ∀ s m, heapLo (store s m) = heapLo s
  brk_store : ∀ s m, brk (store s m) = brk s

/-- The package `mm.c` over `memlib.c`. -/
def mm : Package where
  State := Heap
  mem := Heap.mem
  store h m := { h with mem := m }
  heapLo := Heap.memStartBrk
  brk := Heap.memBrk
  resetBrk := memResetBrk
  init := mmInit
  malloc := mmMalloc
  free := mmFree
  realloc := mmRealloc
  heapLo_store := fun _ _ => rfl
  brk_store := fun _ _ => rfl

/-- An `int` as a `size_t`. -/
def toSize (n : ℤ) : ℕ := (n % 2 ^ 32).toNat

/-- `index & 0xFF` -/
def lowByte (index : ℤ) : ℤ := index % 256

/-- A `char` as an `int`: the `char` of the x86 build is signed. -/
def schar (b : UInt8) : ℤ := if b.toNat < 128 then b.toNat else b.toNat - 256

/-- `memset` -/
def fill (m : Mem) (p n : ℕ) (v : UInt8) : Mem := fun a => if p ≤ a ∧ a < p + n then v else m a

/-! ## Range lists -/

/-- `range_t`: the first and the last address of a payload. -/
structure Range : Type where
  /-- low payload address -/
  lo : ℕ
  /-- high payload address -/
  hi : ℕ
  deriving DecidableEq

/-- What is wrong with a package. -/
inductive Message : Type where
  /-- `mm_init failed.` -/
  | initFailed
  /-- `mm_malloc failed.` -/
  | mallocFailed
  /-- `mm_realloc failed.` -/
  | reallocFailed
  /-- `Payload address (%p) not aligned to %d bytes` -/
  | notAligned (lo : ℕ)
  /-- `Payload (%p:%p) lies outside heap (%p:%p)` -/
  | outsideHeap (payload heap : Range)
  /-- `Payload (%p:%p) overlaps another payload (%p:%p)` -/
  | overlaps (payload other : Range)
  /-- `mm_realloc did not preserve the data from old block` -/
  | notPreserved
  deriving DecidableEq

/-- Why an evaluation ends before the trace does. -/
inductive Failure : Type where
  /-- `malloc_error` at the request `opnum`, and the result is 0 -/
  | error (opnum : ℕ) (msg : Message)
  /-- `assert(size > 0)` fails -/
  | assertion
  /-- `app_error` -/
  | appError
  /-- an access outside `blocks` or `block_sizes` -/
  | fault
  /-- a request of the trace file is of no type -/
  | bogus (type : UInt8)
  /-- a function of the package does not return -/
  | hang
  deriving DecidableEq

/-- `ALIGNMENT` -/
abbrev alignment : ℕ := 8

/-- `add_range`, on the heap from `heapLo` to `brk`. -/
def addRange (heapLo brk : ℕ) (ranges : List Range) (lo : ℕ) (size : ℤ) (opnum : ℕ) :
    Except Failure (List Range) := do
  ensure (0 < size) .assertion
  let hi := lo + size.toNat - 1
  ensure (lo % alignment = 0) (.error opnum (.notAligned lo))
  -- `lo > mem_heap_hi()` is `brk ≤ lo`
  ensure (¬(lo < heapLo ∨ brk ≤ lo ∨ hi < heapLo ∨ brk ≤ hi))
    (.error opnum (.outsideHeap ⟨lo, hi⟩ ⟨heapLo, brk - 1⟩))
  match ranges.find? fun p => decide (p.lo ≤ lo ∧ lo ≤ p.hi ∨ p.lo ≤ hi ∧ hi ≤ p.hi) with
  | some p => .error (.error opnum (.overlaps ⟨lo, hi⟩ p))
  | none => .ok (⟨lo, hi⟩ :: ranges)

/-- `remove_range` -/
def removeRange (ranges : List Range) (lo : ℕ) : List Range :=
  ranges.eraseP fun p => decide (p.lo = lo)

/-! ## Evaluation -/

/-- What an evaluation keeps between two requests. -/
structure Eval (P : Package) where
  /-- the package -/
  state : P.State
  /-- the payloads that have been handed out -/
  ranges : List Range
  /-- `trace->blocks` -/
  blocks : List ℕ
  /-- `trace->block_sizes` -/
  blockSizes : List ℕ

/-- `array[index]` -/
def load (array : List ℕ) (index : ℤ) : Except Failure ℕ :=
  if 0 ≤ index then orStop array[index.toNat]? .fault else .error .fault

/-- `array[index] = v` -/
def store (array : List ℕ) (index : ℤ) (v : ℕ) : Except Failure (List ℕ) := do
  ensure (0 ≤ index ∧ index.toNat < array.length) .fault
  pure (array.set index.toNat v)

section

variable {P : Package}

/-- The loop that looks for the old data: `oldsize` bytes at `newp` are all the low byte
of the index. -/
def preserved (m : Mem) (newp : ℕ) (oldsize index : ℤ) : Bool :=
  (List.range oldsize.toNat).all fun j => decide (schar (m (newp + j)) = lowByte index)

/-- Check the payload at `p`, fill it, and remember it. -/
def Eval.remember (e : Eval P) (opnum : ℕ) (op : Op) (p : ℕ) (check : Except Failure PUnit) :
    Except Failure (Eval P) := do
  let ranges ← addRange (P.heapLo e.state) (P.brk e.state) e.ranges p op.size opnum
  check
  let m := fill (P.mem e.state) p op.size.toNat (UInt8.ofNat (lowByte op.index).toNat)
  let blocks ← store e.blocks op.index p
  let blockSizes ← store e.blockSizes op.index (toSize op.size)
  pure ⟨P.store e.state m, ranges, blocks, blockSizes⟩

/-- A request of `eval_mm_valid`. -/
def validStep (opnum : ℕ) (e : Eval P) (op : Op) : Except Failure (Eval P) :=
  match op.type with
  | .alloc => do
    let r ← orStop (P.malloc e.state (toSize op.size)) .hang
    ensure (r.1 ≠ 0) (.error opnum .mallocFailed)
    Eval.remember { e with state := r.2 } opnum op r.1 (pure ⟨⟩)
  | .realloc => do
    let oldp ← load e.blocks op.index
    let r ← orStop (P.realloc e.state oldp (toSize op.size)) .hang
    ensure (r.1 ≠ 0) (.error opnum .reallocFailed)
    Eval.remember { e with state := r.2, ranges := removeRange e.ranges oldp } opnum op r.1 do
      let oldsize ← load e.blockSizes op.index
      ensure (preserved (P.mem r.2) r.1 (min op.size (toInt32 oldsize)) op.index = true)
        (.error opnum .notPreserved)
  | .free => do
    let p ← load e.blocks op.index
    let s ← orStop (P.free e.state p) .hang
    pure { e with state := s, ranges := removeRange e.ranges p }

/-- The requests `ops`, of which the first has the number `opnum`. -/
def validLoop : ℕ → Eval P → List Op → Except Failure (Eval P)
  | _, e, [] => .ok e
  | opnum, e, op :: ops => do
    let e ← validStep opnum e op
    validLoop (opnum + 1) e ops

/-- `mem_reset_brk` and `mm_init`, on which every evaluation starts; `clear_ranges`. -/
def start (t : Trace) (s : P.State) (failed : Failure) : Except Failure (Eval P) := do
  let r ← orStop (P.init (P.resetBrk s)) .hang
  ensure (0 ≤ r.1) failed
  pure ⟨r.2, [], t.blocks, t.blockSizes⟩

/-- `eval_mm_valid`; `ok` is the result 1. -/
def evalMmValid (t : Trace) (s : P.State) : Except Failure (Eval P) := do
  let e ← start t s (.error 0 .initFailed)
  validLoop 0 e t.ops

/-! ## Measuring -/

/-- A request of `eval_mm_speed`. -/
def speedStep (e : Eval P) (op : Op) : Except Failure (Eval P) :=
  match op.type with
  | .alloc => do
    let r ← orStop (P.malloc e.state (toSize op.size)) .hang
    ensure (r.1 ≠ 0) .appError
    let blocks ← store e.blocks op.index r.1
    pure { e with state := r.2, blocks := blocks }
  | .realloc => do
    let oldp ← load e.blocks op.index
    let r ← orStop (P.realloc e.state oldp (toSize op.size)) .hang
    ensure (r.1 ≠ 0) .appError
    let blocks ← store e.blocks op.index r.1
    pure { e with state := r.2, blocks := blocks }
  | .free => do
    let block ← load e.blocks op.index
    let s ← orStop (P.free e.state block) .hang
    pure { e with state := s }

/-- `eval_mm_speed` -/
def evalMmSpeed (t : Trace) (s : P.State) : Except Failure (Eval P) := do
  let e ← start t s .appError
  t.ops.foldlM speedStep e

/-- The variables of `eval_mm_util`. -/
structure Util (P : Package) where
  /-- the package and the arrays of the trace -/
  eval : Eval P
  /-- `total_size` -/
  totalSize : ℤ
  /-- `max_total_size` -/
  maxTotalSize : ℤ

/-- `total_size += n`; a sum that is not an `int` is undefined. -/
def Util.grow (u : Util P) (n : ℤ) : Except Failure (Util P) := do
  let total := u.totalSize + n
  ensure (-2 ^ 31 ≤ total ∧ total < 2 ^ 31) .fault
  pure { u with totalSize := total }

/-- `max_total_size` is brought up to date. -/
def Util.raise (u : Util P) : Util P :=
  { u with maxTotalSize := if u.totalSize > u.maxTotalSize then u.totalSize else u.maxTotalSize }

/-- A request of `eval_mm_util`: that of `eval_mm_speed`, and the sizes are counted. -/
def utilStep (u : Util P) (op : Op) : Except Failure (Util P) :=
  match op.type with
  | .alloc => do
    let e ← speedStep u.eval op
    let sizes ← store e.blockSizes op.index (toSize op.size)
    let u ← Util.grow { u with eval := { e with blockSizes := sizes } } op.size
    pure u.raise
  | .realloc => do
    let oldsize ← load u.eval.blockSizes op.index
    let e ← speedStep u.eval op
    let sizes ← store e.blockSizes op.index (toSize op.size)
    let u ← Util.grow { u with eval := { e with blockSizes := sizes } } (op.size - toInt32 oldsize)
    pure u.raise
  | .free => do
    let size ← load u.eval.blockSizes op.index
    let e ← speedStep u.eval op
    Util.grow { u with eval := e } (-toInt32 size)

/-- `eval_mm_util`, up to the division: the variables in the end and `mem_heapsize()`. -/
def evalMmUtil (t : Trace) (s : P.State) : Except Failure (Util P × ℕ) := do
  let e ← start t s .appError
  let u ← t.ops.foldlM utilStep ⟨e, 0, 0⟩
  pure (u, P.brk u.eval.state - P.heapLo u.eval.state)

end

end Driver

end SysProgLab
