import SysProgLab.MemList

/-!
# The memory tracer: `memtrace.c`

The wrappers of `malloc`, `calloc`, `realloc` and `free`, in the versions of
`part3` and `bonus`, and `fini`. Each call of a wrapper comes with what the
underlying functions return. The state a wrapper leaves, the underlying calls it
makes and the lines it logs are its results; `none` is a null dereference, a read
of an uninitialised variable, or a division by zero.
-/

namespace SysProgLab

/-- The calls of the underlying functions. -/
inductive Sys : Type where
  | malloc (size : Size)
  | calloc (nmemb size : Size)
  | realloc (ptr : ℕ) (size : Size)
  | free (ptr : ℕ)
  deriving DecidableEq

/-- The lines of the log. -/
inductive Log : Type where
  /-- `LOG_MALLOC` -/
  | malloc (size : Size) (res : ℕ)
  /-- `LOG_CALLOC` -/
  | calloc (nmemb size : Size) (res : ℕ)
  /-- `LOG_REALLOC` -/
  | realloc (ptr : ℕ) (size : Size) (res : ℕ)
  /-- `LOG_FREE` -/
  | free (ptr : ℕ)
  /-- `LOG_DOUBLE_FREE` -/
  | doubleFree
  /-- `LOG_ILL_FREE` -/
  | illFree
  /-- `LOG_STATISTICS` -/
  | statistics (total avg freed : Size)
  /-- `LOG_NONFREED_START` -/
  | nonfreedStart
  /-- `LOG_BLOCK` -/
  | block (ptr : ℕ) (size : Size) (cnt : ℤ) (fname : List UInt8) (ofs : ℕ)
  /-- `LOG_STOP` -/
  | stop
  deriving DecidableEq

/-- What the environment answers during a call. -/
structure Env : Type where
  /-- the result of the underlying `malloc`, `calloc` or `realloc`; 0 is `NULL` -/
  res : ℕ
  /-- the result of `get_callinfo` in `alloc` -/
  info : CallInfo
  /-- `alloc` gets memory for its item -/
  item : Bool

/-- The globals of `memtrace.c`. -/
structure Tracer : Type where
  /-- `list`, after the dummy element -/
  list : List Item
  /-- `n_malloc` -/
  nMalloc : Size
  /-- `n_calloc` -/
  nCalloc : Size
  /-- `n_realloc` -/
  nRealloc : Size
  /-- `n_allocb` -/
  nAllocb : Size
  /-- `n_freeb` -/
  nFreeb : Size

/-- What a wrapper does besides changing the globals. -/
structure Effect : Type where
  /-- the underlying calls -/
  sys : List Sys
  /-- the lines logged -/
  log : List Log
  /-- the pointer returned, 0 for `free` -/
  ret : ℕ

/-- A call of the traced program. -/
inductive Call : Type where
  | malloc (size : Size)
  | calloc (nmemb size : Size)
  | realloc (ptr : ℕ) (size : Size)
  | free (ptr : ℕ)
  deriving DecidableEq

/-- The two versions of `memtrace.c`. -/
inductive Version : Type where
  | part3
  | bonus
  deriving DecidableEq

namespace Tracer

/-- The globals after `init`. -/
def init : Tracer := ⟨[], 0, 0, 0, 0, 0⟩

/-- `alloc(list, res, size)` on a list. -/
def alloc (l : List Item) (size : Size) (env : Env) : Option (List Item) :=
  if env.item = true then some (MemList.alloc l env.res size env.info) else none

/-- `malloc`, the same in both versions. -/
def malloc (t : Tracer) (size : Size) (env : Env) : Option (Tracer × Effect) := do
  let l ← alloc t.list size env
  some ({ t with list := l, nMalloc := t.nMalloc + 1, nAllocb := t.nAllocb + size },
    ⟨[.malloc size], [.malloc size env.res], env.res⟩)

/-- `calloc`, the same in both versions. -/
def calloc (t : Tracer) (nmemb size : Size) (env : Env) : Option (Tracer × Effect) := do
  let l ← alloc t.list (nmemb * size) env
  some ({ t with list := l, nCalloc := t.nCalloc + 1, nAllocb := t.nAllocb + nmemb * size },
    ⟨[.calloc nmemb size], [.calloc nmemb size env.res], env.res⟩)

/-- What every path of `realloc` does in the end. -/
def endRealloc (t : Tracer) (size : Size) (l : List Item) (freed : Size) : Tracer :=
  { t with
    list := l
    nRealloc := t.nRealloc + 1
    nAllocb := t.nAllocb + size
    nFreeb := t.nFreeb + freed }

/-- `realloc` of `part3`. -/
def reallocPart3 (t : Tracer) (ptr : ℕ) (size : Size) (env : Env) : Option (Tracer × Effect) := do
  let freed : Size :=
    match MemList.find t.list ptr with
    | none => 0
    | some i => if 0 < i.cnt then i.size else 0
  let l ← alloc (MemList.dealloc t.list ptr).2 size env
  some (t.endRealloc size l freed, ⟨[.realloc ptr size], [.realloc ptr size env.res], env.res⟩)

/-- `realloc` of `bonus`. -/
def reallocBonus (t : Tracer) (ptr : ℕ) (size : Size) (env : Env) : Option (Tracer × Effect) :=
  match MemList.find t.list ptr with
  | some i =>
    if 0 < i.cnt then do
      let l ← alloc (MemList.dealloc t.list ptr).2 size env
      some (t.endRealloc size l i.size,
        ⟨[.realloc ptr size], [.realloc ptr size env.res], env.res⟩)
    else if i.cnt = 0 then do
      let l ← alloc t.list size env
      some (t.endRealloc size l 0,
        ⟨[.realloc 0 size], [.realloc ptr size env.res, .doubleFree], env.res⟩)
    else none
  | none => do
    let l ← alloc t.list size env
    some (t.endRealloc size l 0,
      ⟨[.realloc 0 size], [.realloc ptr size env.res, .illFree], env.res⟩)

/-- `free` of `part3`. -/
def freePart3 (t : Tracer) (ptr : ℕ) : Option (Tracer × Effect) := do
  let freed ← (MemList.dealloc t.list ptr).1
  some ({ t with
      list := (MemList.dealloc t.list ptr).2
      nFreeb := t.nFreeb + freed.size },
    ⟨[.free ptr], [.free ptr], 0⟩)

/-- `free` of `bonus`. -/
def freeBonus (t : Tracer) (ptr : ℕ) : Option (Tracer × Effect) :=
  match MemList.find t.list ptr with
  | none => some (t, ⟨[], [.free ptr, .illFree], 0⟩)
  | some i =>
    if i.cnt = 0 then some (t, ⟨[], [.free ptr, .doubleFree], 0⟩)
    else do
      let freed ← (MemList.dealloc t.list ptr).1
      some ({ t with
          list := (MemList.dealloc t.list ptr).2
          nFreeb := t.nFreeb + freed.size },
        ⟨[.free ptr], [.free ptr], 0⟩)

/-- A call of the traced program. -/
def call (v : Version) (t : Tracer) (c : Call) (env : Env) : Option (Tracer × Effect) :=
  match v, c with
  | _, .malloc size => t.malloc size env
  | _, .calloc nmemb size => t.calloc nmemb size env
  | .part3, .realloc ptr size => t.reallocPart3 ptr size env
  | .bonus, .realloc ptr size => t.reallocBonus ptr size env
  | .part3, .free ptr => t.freePart3 ptr
  | .bonus, .free ptr => t.freeBonus ptr

/-- The blocks that `fini` reports. -/
def blocks (l : List Item) : List Log :=
  (l.filter fun i => decide (i.cnt ≠ 0)).map fun i => .block i.ptr i.size i.cnt i.fname i.ofs

/-- The number of allocating calls, by which `fini` divides. -/
def allocCalls (t : Tracer) : Size := t.nMalloc + t.nCalloc + t.nRealloc

/-- `fini`, the same in both versions. -/
def fini (t : Tracer) : Option (List Log) :=
  if t.allocCalls = 0 then none
  else
    some (.statistics t.nAllocb (t.nAllocb / t.allocCalls) t.nFreeb ::
      ((if t.list.any fun i => decide (i.cnt ≠ 0) then .nonfreedStart :: blocks t.list else []) ++
        [.stop]))

end Tracer

end SysProgLab
