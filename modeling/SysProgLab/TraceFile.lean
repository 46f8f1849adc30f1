import SysProgLab.Decimal
import SysProgLab.Verdict

/-!
# Trace files: `read_trace`

A trace file is four numbers and then one request a line. `read_trace` takes it in with
`fscanf`, which does not mind how the white space falls, and checks two things in the end:
the largest id that was allocated and the number of requests are those of the header.

What is written comes back (`readTrace_render`), and what is accepted has a cell in the
arrays for every id that is allocated (`readTrace_inBounds`), as long as `num_ids` times
the size of a pointer does not wrap.
-/

namespace SysProgLab

namespace Driver

/-! ## `fscanf` -/

/-- The digits at the front, and what follows; `none` if there are none. -/
def scanDigits (s : List UInt8) : Option ℤ × List UInt8 :=
  if s.takeWhile isDigit = [] then (none, s) else (some (atoiDigits 0 s), s.dropWhile isDigit)

/-- A number, after white space and with an optional sign; what follows it. -/
def scanNumber (s : List UInt8) : Option ℤ × List UInt8 :=
  match s.dropWhile isSpace with
  | 45 :: s => (scanDigits s).map (Option.map Neg.neg) id
  | 43 :: s => scanDigits s
  | s => scanDigits s

/-- `%d`; a number that is not an `int` is undefined. -/
def scanInt (s : List UInt8) : Except Failure (Option ℤ × List UInt8) := do
  let r := scanNumber s
  ensure (∀ n ∈ r.1, -2 ^ 31 ≤ n ∧ n < 2 ^ 31) .fault
  pure r

/-- `%u`; a number with a minus sign is negated in `unsigned`. -/
def scanUInt (s : List UInt8) : Except Failure (Option ℕ × List UInt8) := do
  let r := scanNumber s
  ensure (∀ n ∈ r.1, n.natAbs < 2 ^ 32) .fault
  pure (r.1.map fun n => (n % 2 ^ 32).toNat, r.2)

/-- `%s`: the next word, and what follows it; `none` at the end of the file. -/
def scanWord (s : List UInt8) : Option (List UInt8 × List UInt8) :=
  match s.dropWhile isSpace with
  | [] => none
  | b :: s => some (b :: s.takeWhile (!isSpace ·), s.dropWhile (!isSpace ·))

/-! ## `read_trace` -/

/-- `MAXLINE` -/
abbrev maxline : ℕ := 1024

/-- What the storage holds before it is assigned. -/
structure Raw : Type where
  /-- the record `*trace` -/
  trace : Trace
  /-- the variable `size` -/
  size : ℕ
  /-- the cells of `trace->blocks` and `trace->block_sizes` -/
  cell : ℕ → ℕ

/-- The cells that `malloc(n * size)` gets; the product is a `size_t`. -/
def cells (n : ℤ) (size : ℕ) : ℕ := (n * size % 2 ^ 32).toNat / size

/-- `sizeof(traceop_t)` -/
abbrev sizeofTraceop : ℕ := 12

/-- `sizeof(char *)` and `sizeof(size_t)` -/
abbrev sizeofWord : ℕ := 4

/-- The variables of the loop. -/
structure Reader : Type where
  /-- what is left of the file -/
  input : List UInt8
  /-- `trace->ops` up to `op_index` -/
  ops : List Op
  /-- `index` -/
  index : ℕ
  /-- `size` -/
  size : ℕ
  /-- `max_index` -/
  maxIndex : ℕ

/-- `fscanf(tracefile, "%u %u", &index, &size)` -/
def Reader.scanPair (r : Reader) : Except Failure Reader := do
  let (index, s) ← scanUInt r.input
  match index with
  | none => pure { r with input := s }
  | some index =>
    let (size, s) ← scanUInt s
    pure { r with input := s, index := index, size := size.getD r.size }

/-- `fscanf(tracefile, "%ud", &index)`: the `d` is an ordinary character. -/
def Reader.scanIndex (r : Reader) : Except Failure Reader := do
  let (index, s) ← scanUInt r.input
  match index with
  | none => pure { r with input := s }
  | some index => pure { r with input := if s.head? = some 100 then s.tail else s, index := index }

/-- Assign `trace->ops[op_index]`, of `capacity` cells. -/
def Reader.push (r : Reader) (capacity : ℕ) (op : Op) : Except Failure Reader := do
  ensure (r.ops.length < capacity) .fault
  pure { r with ops := r.ops ++ [op] }

/-- The cases of the type character. The size of a `FREE` request is not assigned, nor
ever read. -/
def Reader.request (r : Reader) (capacity : ℕ) (type : UInt8) : Except Failure Reader :=
  if type = 97 then do
    let r ← r.scanPair
    let r ← r.push capacity ⟨.alloc, toInt32 r.index, toInt32 r.size⟩
    pure { r with maxIndex := max r.index r.maxIndex }
  else if type = 114 then do
    let r ← r.scanPair
    let r ← r.push capacity ⟨.realloc, toInt32 r.index, toInt32 r.size⟩
    pure { r with maxIndex := max r.index r.maxIndex }
  else if type = 102 then do
    let r ← r.scanIndex
    r.push capacity ⟨.free, toInt32 r.index, 0⟩
  else .error (.bogus type)

/-- The loop over the requests; every round reads a word. -/
def readOps (capacity : ℕ) : ℕ → Reader → Except Failure Reader
  | 0, _ => .error .hang
  | fuel + 1, r =>
    match scanWord r.input with
    | none => .ok r
    | some (word, s) => do
      ensure (word.length < maxline) .fault
      let r ← Reader.request { r with input := s } capacity (word.headD 0)
      readOps capacity fuel r

/-- The four numbers at the top of the file, into the record, and the rest of the file. -/
def readHeader (trace : Trace) (file : List UInt8) : Except Failure (Trace × List UInt8) := do
  let r ← scanInt file
  let trace := { trace with suggHeapsize := r.1.getD trace.suggHeapsize }
  let r ← scanInt r.2
  let trace := { trace with numIds := r.1.getD trace.numIds }
  let r ← scanInt r.2
  let trace := { trace with numOps := r.1.getD trace.numOps }
  let r ← scanInt r.2
  pure ({ trace with weight := r.1.getD trace.weight }, r.2)

/-- `read_trace`, on the contents of the file; `malloc` does not fail. -/
def readTrace (raw : Raw) (file : List UInt8) : Except Failure Trace := do
  let h ← readHeader raw.trace file
  let array := (List.range (cells h.1.numIds sizeofWord)).map raw.cell
  let r ← readOps (cells h.1.numOps sizeofTraceop) (h.2.length + 1) ⟨h.2, [], 0, raw.size, 0⟩
  ensure ((r.maxIndex : ℤ) = (h.1.numIds - 1) % 2 ^ 32) .assertion
  ensure (h.1.numOps % 2 ^ 32 = r.ops.length) .assertion
  pure { h.1 with ops := r.ops, blocks := array, blockSizes := array }

/-! ## Reading back -/

section

variable {n : ℤ} {s : List UInt8} {b : UInt8}

theorem scanDigits_decimal (hb : isDigit b = false) (m : ℕ) (s : List UInt8) :
    scanDigits (decimal m ++ b :: s) = (some (m : ℤ), b :: s) := by
  have hdigits : ∀ d ∈ decimal m, isDigit d = true := fun d hd => isDigit_of_mem_decimal hd
  have hne : decimal m ≠ [] := by
    obtain ⟨d, t, hcons, -⟩ := decimal_eq_cons m
    rw [hcons]
    exact List.cons_ne_nil d t
  rw [scanDigits, List.takeWhile_append_of_pos hdigits, List.dropWhile_append_of_pos hdigits,
    List.takeWhile_cons_of_neg (by simp [hb]), List.dropWhile_cons_of_neg (by simp [hb]),
    List.append_nil, if_neg hne, atoiDigits_append hb, atoiDigits_decimal]

/-- **A number is scanned back**, up to the byte that ends it. -/
theorem scanNumber_decimalInt (hb : isDigit b = false) (n : ℤ) (s : List UInt8) :
    scanNumber (decimalInt n ++ b :: s) = (some n, b :: s) := by
  rw [decimalInt]
  split
  · next hneg =>
    rw [List.cons_append, scanNumber, List.dropWhile_cons_of_neg (by decide)]
    change Prod.map _ _ (scanDigits (decimal n.natAbs ++ b :: s)) = _
    rw [scanDigits_decimal hb, Prod.map_apply, Option.map_some, id_eq]
    congr 2
    omega
  · next hneg =>
    obtain ⟨d, t, hcons, hd⟩ := decimal_eq_cons n.natAbs
    have hspace := isSpace_of_isDigit hd
    have hscan : scanNumber (decimal n.natAbs ++ b :: s) = scanDigits (decimal n.natAbs ++ b :: s) := by
      rw [hcons, List.cons_append, scanNumber, List.dropWhile_cons_of_neg (by simp [hspace])]
      split
      · next heq =>
        obtain ⟨rfl, -⟩ := List.cons.inj heq
        cases hd
      · next heq =>
        obtain ⟨rfl, -⟩ := List.cons.inj heq
        cases hd
      · rfl
    rw [hscan, scanDigits_decimal hb, Int.natAbs_of_nonneg (by omega)]

theorem scanNumber_space (hb : isSpace b = true) (s : List UInt8) :
    scanNumber (b :: s) = scanNumber s := by
  rw [scanNumber, scanNumber, List.dropWhile_cons_of_pos hb]

theorem scanInt_decimalInt (hb : isDigit b = false) (hn : -2 ^ 31 ≤ n ∧ n < 2 ^ 31) :
    scanInt (decimalInt n ++ b :: s) = .ok (some n, b :: s) := by
  rw [scanInt, scanNumber_decimalInt hb]
  exact bind_eq_ok.mpr ⟨⟨⟩, ensure_eq_ok.mpr (by rintro m ⟨⟩; exact hn), rfl⟩

theorem scanUInt_decimalInt (hb : isDigit b = false) (hn : 0 ≤ n ∧ n < 2 ^ 31) :
    scanUInt (decimalInt n ++ b :: s) = .ok (some n.toNat, b :: s) := by
  rw [scanUInt, scanNumber_decimalInt hb]
  refine bind_eq_ok.mpr ⟨⟨⟩, ensure_eq_ok.mpr (by rintro m ⟨⟩; omega), ?_⟩
  rw [Option.map_some, Int.emod_eq_of_lt hn.1 (by omega)]
  rfl

theorem scanInt_space (hb : isSpace b = true) : scanInt (b :: s) = scanInt s := by
  rw [scanInt, scanInt, scanNumber_space hb]

theorem scanUInt_space (hb : isSpace b = true) : scanUInt (b :: s) = scanUInt s := by
  rw [scanUInt, scanUInt, scanNumber_space hb]

end

/-- A request as a line of a trace file, without the newline. -/
def Op.render (op : Op) : List UInt8 :=
  match op.type with
  | .alloc => ascii "a " ++ (decimalInt op.index ++ ascii " " ++ decimalInt op.size)
  | .realloc => ascii "r " ++ (decimalInt op.index ++ ascii " " ++ decimalInt op.size)
  | .free => ascii "f " ++ decimalInt op.index

/-- The lines of a trace file that hold the requests. -/
def renderOps (ops : List Op) : List UInt8 := ops.flatMap fun op => op.render ++ ascii "\n"

/-- A trace as a trace file. -/
def Trace.render (t : Trace) : List UInt8 :=
  [t.suggHeapsize, t.numIds, t.numOps, t.weight].flatMap (fun n => decimalInt n ++ ascii "\n") ++
    renderOps t.ops

/-- The numbers of the request can be written in a trace file. -/
def Op.Writable (op : Op) : Prop :=
  (0 ≤ op.index ∧ op.index < 2 ^ 31) ∧ (0 ≤ op.size ∧ op.size < 2 ^ 31) ∧
    (op.type = .free → op.size = 0)

instance : DecidablePred Op.Writable := fun op => by
  unfold Op.Writable
  infer_instance

/-- `max_index` after a request. -/
def Op.maxIndex (m : ℕ) (op : Op) : ℕ := if op.type = .free then m else max op.index.toNat m

section

variable {op : Op} {acc : List Op} {s : List UInt8} {capacity fuel i size m : ℕ}

theorem toInt32_toNat {n : ℤ} (hn : 0 ≤ n ∧ n < 2 ^ 31) : toInt32 n.toNat = n := by
  rw [toInt32, Nat.mod_eq_of_lt (by omega), if_pos (by omega), Int.toNat_of_nonneg hn.1]

theorem scanWord_letter {c : UInt8} (hc : isSpace c = false) :
    scanWord (10 :: c :: 32 :: s) = some ([c], 32 :: s) := by
  have h : (10 :: c :: 32 :: s).dropWhile isSpace = c :: 32 :: s := by
    rw [List.dropWhile_cons_of_pos (by decide), List.dropWhile_cons_of_neg (by simp [hc])]
  rw [scanWord, h]
  rfl

/-- The two numbers of an `a` or `r` line. -/
theorem scanPair_render (hw : op.Writable) :
    Reader.scanPair ⟨32 :: (decimalInt op.index ++ ascii " " ++ decimalInt op.size ++ 10 :: s), acc,
        i, size, m⟩ =
      .ok ⟨10 :: s, acc, op.index.toNat, op.size.toNat, m⟩ := by
  obtain ⟨hindex, hsize, -⟩ := hw
  have hinput : decimalInt op.index ++ ascii " " ++ decimalInt op.size ++ 10 :: s =
      decimalInt op.index ++ 32 :: (decimalInt op.size ++ 10 :: s) := by
    rw [List.append_assoc, List.append_assoc]
    rfl
  rw [hinput]
  refine bind_eq_ok.mpr ⟨(some op.index.toNat, 32 :: (decimalInt op.size ++ 10 :: s)), ?_,
    bind_eq_ok.mpr ⟨(some op.size.toNat, 10 :: s), ?_, rfl⟩⟩
  · rw [scanUInt_space (by decide), scanUInt_decimalInt (by decide) hindex]
  · rw [scanUInt_space (by decide), scanUInt_decimalInt (by decide) hsize]

/-- The number of an `f` line. -/
theorem scanIndex_render (hw : op.Writable) :
    Reader.scanIndex ⟨32 :: (decimalInt op.index ++ 10 :: s), acc, i, size, m⟩ =
      .ok ⟨10 :: s, acc, op.index.toNat, size, m⟩ := by
  refine bind_eq_ok.mpr ⟨(some op.index.toNat, 10 :: s), ?_, rfl⟩
  rw [scanUInt_space (by decide), scanUInt_decimalInt (by decide) hw.1]

/-- A round of the loop over the requests. -/
theorem readOps_letter {c : UInt8} (hc : isSpace c = false) {r : Reader}
    (hr : Reader.request ⟨32 :: s, acc, i, size, m⟩ capacity c = .ok r) :
    readOps capacity (fuel + 1) ⟨10 :: c :: 32 :: s, acc, i, size, m⟩ =
      readOps capacity fuel r := by
  rw [readOps, scanWord_letter hc]
  change (ensure _ _ >>= fun _ => Reader.request _ capacity c >>= _) = _
  rw [hr]
  rfl

/-- **One line is read back.** -/
theorem readOps_line (fuel i size m : ℕ) (hw : op.Writable) (hcap : acc.length < capacity) :
    ∃ i' size', readOps capacity (fuel + 1) ⟨10 :: (op.render ++ 10 :: s), acc, i, size, m⟩ =
      readOps capacity fuel ⟨10 :: s, acc ++ [op], i', size', op.maxIndex m⟩ := by
  have hindex := toInt32_toNat hw.1
  have hsize := toInt32_toNat hw.2.1
  have hpush : ∀ {r : Reader} {o : Op}, r.ops = acc →
      r.push capacity o = .ok { r with ops := acc ++ [o] } := by
    rintro r o rfl
    exact bind_eq_ok.mpr ⟨⟨⟩, ensure_eq_ok.mpr hcap, rfl⟩
  obtain ⟨type, index, sz⟩ := op
  cases type with
  | alloc =>
    refine ⟨index.toNat, sz.toNat, readOps_letter (c := 97) (by decide) ?_⟩
    refine bind_eq_ok.mpr ⟨_, scanPair_render hw, bind_eq_ok.mpr ⟨_, hpush rfl, ?_⟩⟩
    dsimp only at hindex hsize ⊢
    rw [hindex, hsize]
    rfl
  | realloc =>
    refine ⟨index.toNat, sz.toNat, readOps_letter (c := 114) (by decide) ?_⟩
    refine bind_eq_ok.mpr ⟨_, scanPair_render hw, bind_eq_ok.mpr ⟨_, hpush rfl, ?_⟩⟩
    dsimp only at hindex hsize ⊢
    rw [hindex, hsize]
    rfl
  | free =>
    refine ⟨index.toNat, size, readOps_letter (c := 102) (by decide) ?_⟩
    refine bind_eq_ok.mpr ⟨_, scanIndex_render hw, ?_⟩
    have h0 : sz = 0 := hw.2.2 rfl
    dsimp only at hindex
    rw [hpush rfl, hindex, h0]
    rfl

/-- **All lines are read back.** -/
theorem readOps_render : ∀ {ops acc : List Op} (i size m : ℕ) {fuel : ℕ}, ops.length < fuel →
    (∀ op ∈ ops, op.Writable) → acc.length + ops.length ≤ capacity →
    ∃ i' size', readOps capacity fuel ⟨10 :: renderOps ops, acc, i, size, m⟩ =
      .ok ⟨[10], acc ++ ops, i', size', ops.foldl Op.maxIndex m⟩ := by
  intro ops
  induction ops with
  | nil =>
    intro acc i size m fuel hfuel _ _
    obtain ⟨fuel, rfl⟩ := Nat.exists_eq_add_one.mpr (Nat.zero_lt_of_lt hfuel)
    exact ⟨i, size, by rw [List.append_nil]; rfl⟩
  | cons op ops ih =>
    intro acc i size m fuel hfuel hw hcap
    obtain ⟨hw₀, hw⟩ := List.forall_mem_cons.mp hw
    obtain ⟨fuel, rfl⟩ := Nat.exists_eq_add_one.mpr (Nat.zero_lt_of_lt hfuel)
    simp only [List.length_cons] at hfuel hcap
    have hrender : renderOps (op :: ops) = op.render ++ 10 :: renderOps ops := by
      rw [renderOps, List.flatMap_cons, List.append_assoc]
      rfl
    have hcap₀ : acc.length < capacity := by omega
    have hcap₁ : (acc ++ [op]).length + ops.length ≤ capacity := by
      rw [List.length_append, List.length_singleton]
      omega
    obtain ⟨i₁, size₁, hline⟩ :=
      readOps_line fuel i size m (s := renderOps ops) hw₀ hcap₀
    obtain ⟨i', size', hrest⟩ := ih i₁ size₁ (op.maxIndex m) (Nat.lt_of_succ_lt_succ hfuel) hw hcap₁
    refine ⟨i', size', ?_⟩
    rw [hrender, hline, hrest, List.append_assoc, List.singleton_append, List.foldl_cons]

end

/-- **A trace that can be written**: its numbers fit, and its header agrees with its
requests. -/
structure Trace.Writable (t : Trace) : Prop where
  header : ∀ n ∈ [t.suggHeapsize, t.numIds, t.numOps, t.weight], -2 ^ 31 ≤ n ∧ n < 2 ^ 31
  ops : ∀ op ∈ t.ops, op.Writable
  numIds : t.numIds = (t.ops.foldl Op.maxIndex 0 : ℕ) + 1
  numOps : t.numOps = t.ops.length
  fits : t.numOps * sizeofTraceop < 2 ^ 32

theorem cells_natCast {n size : ℕ} (hpos : 0 < size) (hlt : (n : ℤ) * size < 2 ^ 32) :
    cells n size = n := by
  have hnat : ((n : ℤ) * size % 2 ^ 32).toNat = n * size := by
    rw [Int.emod_eq_of_lt (by positivity) hlt, ← Nat.cast_mul, Int.toNat_natCast]
  rw [cells, hnat, Nat.mul_div_cancel _ hpos]

/-- What `malloc` leaves in the arrays. -/
def Raw.array (raw : Raw) (numIds : ℤ) : List ℕ :=
  (List.range (cells numIds sizeofWord)).map raw.cell

/-- The header is read back. -/
theorem readHeader_render {t trace : Trace} (ht : t.Writable) :
    readHeader trace t.render = .ok ({ trace with
      suggHeapsize := t.suggHeapsize
      numIds := t.numIds
      numOps := t.numOps
      weight := t.weight }, 10 :: renderOps t.ops) := by
  obtain ⟨hsugg, hids, hnum, hweight, -⟩ : (-2 ^ 31 ≤ t.suggHeapsize ∧ t.suggHeapsize < 2 ^ 31) ∧
      (-2 ^ 31 ≤ t.numIds ∧ t.numIds < 2 ^ 31) ∧ (-2 ^ 31 ≤ t.numOps ∧ t.numOps < 2 ^ 31) ∧
      (-2 ^ 31 ≤ t.weight ∧ t.weight < 2 ^ 31) ∧ True := by
    simpa using ht.header
  have hrender : t.render = decimalInt t.suggHeapsize ++ 10 :: (decimalInt t.numIds ++
      10 :: (decimalInt t.numOps ++ 10 :: (decimalInt t.weight ++ 10 :: renderOps t.ops))) := by
    simp [Trace.render, ascii]
  have h10 : isDigit 10 = false := rfl
  have hspace : isSpace 10 = true := rfl
  rw [hrender, readHeader, scanInt_decimalInt h10 hsugg]
  refine bind_eq_ok.mpr ⟨_, rfl, ?_⟩
  dsimp only
  rw [scanInt_space hspace, scanInt_decimalInt h10 hids]
  refine bind_eq_ok.mpr ⟨_, rfl, ?_⟩
  dsimp only
  rw [scanInt_space hspace, scanInt_decimalInt h10 hnum]
  refine bind_eq_ok.mpr ⟨_, rfl, ?_⟩
  dsimp only
  rw [scanInt_space hspace, scanInt_decimalInt h10 hweight]
  rfl

theorem length_le_renderOps (ops : List Op) : ops.length ≤ (renderOps ops).length := by
  induction ops with
  | nil => exact Nat.zero_le _
  | cons op ops ih =>
    rw [renderOps, List.flatMap_cons, ← renderOps, List.length_append, List.length_append,
      List.length_cons]
    have hnl : (ascii "\n").length = 1 := rfl
    omega

/-- **`read_trace` reads back what is written**: the header and all requests, in order. -/
theorem readTrace_render {t : Trace} (ht : t.Writable) (raw : Raw) :
    readTrace raw t.render =
      .ok { t with blocks := raw.array t.numIds, blockSizes := raw.array t.numIds } := by
  have hcells : cells t.numOps sizeofTraceop = t.ops.length := by
    rw [ht.numOps]
    exact cells_natCast (by decide) (ht.numOps ▸ ht.fits)
  have hfuel : t.ops.length < (10 :: renderOps t.ops).length + 1 := by
    have hle := length_le_renderOps t.ops
    rw [List.length_cons]
    omega
  have hcap : ([] : List Op).length + t.ops.length ≤ t.ops.length :=
    Nat.le_of_eq (Nat.zero_add _)
  obtain ⟨i, size, hops⟩ := readOps_render 0 raw.size 0 hfuel ht.ops hcap
  have hmax : ((t.ops.foldl Op.maxIndex 0 : ℕ) : ℤ) = (t.numIds - 1) % 2 ^ 32 := by
    have hint := (ht.header t.numIds (by simp)).2
    have hnumIds := ht.numIds
    omega
  have hlen : t.numOps % 2 ^ 32 = t.ops.length := by
    have hint := (ht.header t.numOps (by simp)).2
    have hnumOps := ht.numOps
    omega
  refine bind_eq_ok.mpr ⟨_, readHeader_render ht, ?_⟩
  dsimp only
  rw [hcells]
  exact bind_eq_ok.mpr ⟨_, hops, bind_eq_ok.mpr ⟨⟨⟩, ensure_eq_ok.mpr hmax,
    bind_eq_ok.mpr ⟨⟨⟩, ensure_eq_ok.mpr hlen, rfl⟩⟩⟩

theorem readTrace_render_balanced :
    readTrace ⟨balancedTrace, 0, fun _ => 7⟩ balancedTrace.render =
      .ok { balancedTrace with blocks := [7, 7], blockSizes := [7, 7] } :=
  readTrace_render (t := balancedTrace) ⟨by decide, by decide, by decide, by decide, by decide⟩
    ⟨balancedTrace, 0, fun _ => 7⟩

/-! ## What is accepted -/

/-- The ids that are allocated are no larger than `max_index`. -/
def Reader.Bounded (r : Reader) : Prop :=
  ∀ op ∈ r.ops, op.type ≠ .free → ∃ k ≤ r.maxIndex, op.index = toInt32 k

section

variable {r r' : Reader} {capacity : ℕ} {type : UInt8}

theorem scanPair_keeps (h : r.scanPair = .ok r') : r'.ops = r.ops ∧ r'.maxIndex = r.maxIndex := by
  obtain ⟨⟨index, s⟩, -, h⟩ := bind_eq_ok.mp h
  cases index with
  | none =>
    cases h
    exact ⟨rfl, rfl⟩
  | some index =>
    obtain ⟨⟨size, s'⟩, -, h⟩ := bind_eq_ok.mp h
    cases h
    exact ⟨rfl, rfl⟩

theorem scanIndex_keeps (h : r.scanIndex = .ok r') :
    r'.ops = r.ops ∧ r'.maxIndex = r.maxIndex := by
  obtain ⟨⟨index, s⟩, -, h⟩ := bind_eq_ok.mp h
  cases index <;> cases h <;> exact ⟨rfl, rfl⟩

theorem Reader.push_eq_ok {op : Op} (h : r.push capacity op = .ok r') :
    r' = { r with ops := r.ops ++ [op] } := by
  obtain ⟨-, -, h⟩ := bind_eq_ok.mp h
  exact (pure_eq_ok.mp h).symm

/-- A request that carries an index, at or below the new `max_index`. -/
theorem Reader.Bounded.append (h : r.Bounded) {op : Op} {k m : ℕ} (hk : op.index = toInt32 k)
    (hr' : r'.ops = r.ops ++ [op]) (hkm : k ≤ m) (hm : r.maxIndex ≤ m) (hm' : r'.maxIndex = m) :
    r'.Bounded := by
  intro o ho hne
  rw [hr'] at ho
  rw [hm']
  rcases List.mem_append.mp ho with ho | ho
  · obtain ⟨k, hk, he⟩ := h o ho hne
    exact ⟨k, hk.trans hm, he⟩
  · rw [List.mem_singleton.mp ho]
    exact ⟨k, hkm, hk⟩

theorem Reader.Bounded.request (h : r.Bounded) (hr : r.request capacity type = .ok r') :
    r'.Bounded := by
  rw [Reader.request] at hr
  split_ifs at hr with ha hr' hf
  · obtain ⟨r₁, h₁, hr⟩ := bind_eq_ok.mp hr
    obtain ⟨r₂, h₂, hr⟩ := bind_eq_ok.mp hr
    obtain ⟨hops, hmax⟩ := scanPair_keeps h₁
    obtain rfl := Reader.push_eq_ok h₂
    cases hr
    exact h.append rfl (by rw [hops]) (le_max_left _ _) (hmax ▸ le_max_right _ _) rfl
  · obtain ⟨r₁, h₁, hr⟩ := bind_eq_ok.mp hr
    obtain ⟨r₂, h₂, hr⟩ := bind_eq_ok.mp hr
    obtain ⟨hops, hmax⟩ := scanPair_keeps h₁
    obtain rfl := Reader.push_eq_ok h₂
    cases hr
    exact h.append rfl (by rw [hops]) (le_max_left _ _) (hmax ▸ le_max_right _ _) rfl
  · obtain ⟨r₁, h₁, hr⟩ := bind_eq_ok.mp hr
    obtain ⟨hops, hmax⟩ := scanIndex_keeps h₁
    obtain rfl := Reader.push_eq_ok hr
    intro o ho hne
    rw [hops] at ho
    rw [hmax]
    rcases List.mem_append.mp ho with ho | ho
    · exact h o ho hne
    · rw [List.mem_singleton.mp ho] at hne
      exact absurd rfl hne

theorem Reader.Bounded.readOps : ∀ {fuel : ℕ} {r r' : Reader}, r.Bounded →
    readOps capacity fuel r = .ok r' → r'.Bounded := by
  intro fuel
  induction fuel with
  | zero => exact fun _ h => by cases h
  | succ fuel ih =>
    intro r r' hb h
    rw [Driver.readOps] at h
    split at h
    · cases h
      exact hb
    · next word s _ =>
      obtain ⟨-, -, h⟩ := bind_eq_ok.mp h
      obtain ⟨r₁, h₁, h⟩ := bind_eq_ok.mp h
      have hb' : Reader.Bounded { r with input := s } := hb
      exact ih (hb'.request h₁) h

end

/-! ## Every round reads a word -/

section

variable {r r' : Reader} {capacity : ℕ} {type : UInt8} {s s' word : List UInt8}

theorem scanDigits_length : (scanDigits s).2.length ≤ s.length := by
  rw [scanDigits]
  split
  · exact le_refl _
  · exact (List.dropWhile_sublist _).length_le

theorem scanNumber_length : (scanNumber s).2.length ≤ s.length := by
  have hdrop : (s.dropWhile isSpace).length ≤ s.length := (List.dropWhile_sublist _).length_le
  rw [scanNumber]
  split
  · next s' hs =>
    rw [hs] at hdrop
    exact scanDigits_length.trans ((Nat.le_succ _).trans hdrop)
  · next s' hs =>
    rw [hs] at hdrop
    exact scanDigits_length.trans ((Nat.le_succ _).trans hdrop)
  · exact scanDigits_length.trans hdrop

theorem scanUInt_length {i : Option ℕ} (h : scanUInt s = .ok (i, s')) : s'.length ≤ s.length := by
  obtain ⟨-, -, h⟩ := bind_eq_ok.mp h
  obtain ⟨-, rfl⟩ := Prod.mk.inj (pure_eq_ok.mp h)
  exact scanNumber_length

theorem scanWord_length (h : scanWord s = some (word, s')) : s'.length < s.length := by
  have hdrop : (s.dropWhile isSpace).length ≤ s.length := (List.dropWhile_sublist _).length_le
  rw [scanWord] at h
  split at h
  · cases h
  · next b rest hrest =>
    obtain ⟨-, rfl⟩ := Prod.mk.inj (Option.some.inj h)
    have hword : (rest.dropWhile (!isSpace ·)).length ≤ rest.length :=
      (List.dropWhile_sublist _).length_le
    rw [hrest, List.length_cons] at hdrop
    omega

theorem scanUInt_ne_hang : scanUInt s ≠ .error .hang := by
  intro h
  rcases bind_eq_error.mp h with h | ⟨-, -, h⟩
  · cases (ensure_eq_error.mp h).2
  · cases h

theorem scanPair_length (h : r.scanPair = .ok r') : r'.input.length ≤ r.input.length := by
  obtain ⟨⟨index, s⟩, hs, h⟩ := bind_eq_ok.mp h
  have hle := scanUInt_length hs
  cases index with
  | none =>
    cases h
    exact hle
  | some index =>
    obtain ⟨⟨size, s'⟩, hs', h⟩ := bind_eq_ok.mp h
    cases h
    exact (scanUInt_length hs').trans hle

theorem scanIndex_length (h : r.scanIndex = .ok r') : r'.input.length ≤ r.input.length := by
  obtain ⟨⟨index, s⟩, hs, h⟩ := bind_eq_ok.mp h
  have hle := scanUInt_length hs
  cases index with
  | none =>
    cases h
    exact hle
  | some index =>
    cases h
    dsimp only
    split
    · rw [List.length_tail]
      omega
    · exact hle

theorem scanPair_ne_hang : r.scanPair ≠ .error .hang := by
  intro h
  rcases bind_eq_error.mp h with h | ⟨⟨index, s⟩, -, h⟩
  · exact scanUInt_ne_hang h
  · cases index with
    | none => cases h
    | some index =>
      rcases bind_eq_error.mp h with h | ⟨⟨size, s'⟩, -, h⟩
      · exact scanUInt_ne_hang h
      · cases h

theorem scanIndex_ne_hang : r.scanIndex ≠ .error .hang := by
  intro h
  rcases bind_eq_error.mp h with h | ⟨⟨index, s⟩, -, h⟩
  · exact scanUInt_ne_hang h
  · cases index <;> cases h

theorem push_ne_hang {op : Op} : r.push capacity op ≠ .error .hang := by
  intro h
  rcases bind_eq_error.mp h with h | ⟨-, -, h⟩
  · cases (ensure_eq_error.mp h).2
  · cases h

theorem request_length (h : r.request capacity type = .ok r') :
    r'.input.length ≤ r.input.length := by
  rw [Reader.request] at h
  split_ifs at h with ha hr hf
  · obtain ⟨r₁, h₁, h⟩ := bind_eq_ok.mp h
    obtain ⟨r₂, h₂, h⟩ := bind_eq_ok.mp h
    obtain rfl := Reader.push_eq_ok h₂
    cases h
    have hle := scanPair_length h₁
    exact hle
  · obtain ⟨r₁, h₁, h⟩ := bind_eq_ok.mp h
    obtain ⟨r₂, h₂, h⟩ := bind_eq_ok.mp h
    obtain rfl := Reader.push_eq_ok h₂
    cases h
    have hle := scanPair_length h₁
    exact hle
  · obtain ⟨r₁, h₁, h⟩ := bind_eq_ok.mp h
    obtain rfl := Reader.push_eq_ok h
    have hle := scanIndex_length h₁
    exact hle

theorem request_ne_hang : r.request capacity type ≠ .error .hang := by
  intro h
  rw [Reader.request] at h
  split_ifs at h with ha hr hf
  · rcases bind_eq_error.mp h with h | ⟨_, -, h⟩
    · exact scanPair_ne_hang h
    · rcases bind_eq_error.mp h with h | ⟨_, -, h⟩
      · exact push_ne_hang h
      · cases h
  · rcases bind_eq_error.mp h with h | ⟨_, -, h⟩
    · exact scanPair_ne_hang h
    · rcases bind_eq_error.mp h with h | ⟨_, -, h⟩
      · exact push_ne_hang h
      · cases h
  · rcases bind_eq_error.mp h with h | ⟨_, -, h⟩
    · exact scanIndex_ne_hang h
    · exact push_ne_hang h
  · cases h

/-- **The loop ends** within as many rounds as there are bytes. -/
theorem readOps_ne_hang : ∀ {fuel : ℕ} {r : Reader}, r.input.length < fuel →
    readOps capacity fuel r ≠ .error .hang := by
  intro fuel
  induction fuel with
  | zero => exact fun h => absurd h (Nat.not_lt_zero _)
  | succ fuel ih =>
    intro r hlt h
    rw [readOps] at h
    split at h
    · cases h
    · next word s hword =>
      have hlt' := scanWord_length hword
      rcases bind_eq_error.mp h with h | ⟨-, -, h⟩
      · cases (ensure_eq_error.mp h).2
      · rcases bind_eq_error.mp h with h | ⟨r₁, h₁, h⟩
        · exact request_ne_hang h
        · have hle := request_length h₁
          exact ih (by dsimp only at hle; omega) h

theorem scanInt_ne_hang : scanInt s ≠ .error .hang := by
  intro h
  rcases bind_eq_error.mp h with h | ⟨-, -, h⟩
  · cases (ensure_eq_error.mp h).2
  · cases h

theorem readHeader_ne_hang {trace : Trace} {file : List UInt8} :
    readHeader trace file ≠ .error .hang := by
  intro h
  rcases bind_eq_error.mp h with h | ⟨_, -, h⟩
  · exact scanInt_ne_hang h
  rcases bind_eq_error.mp h with h | ⟨_, -, h⟩
  · exact scanInt_ne_hang h
  rcases bind_eq_error.mp h with h | ⟨_, -, h⟩
  · exact scanInt_ne_hang h
  rcases bind_eq_error.mp h with h | ⟨_, -, h⟩
  · exact scanInt_ne_hang h
  · cases h

/-- **`read_trace` comes to an end** on every file. -/
theorem readTrace_ne_hang {raw : Raw} {file : List UInt8} : readTrace raw file ≠ .error .hang := by
  intro h
  rcases bind_eq_error.mp h with h | ⟨⟨trace, s⟩, -, h⟩
  · exact readHeader_ne_hang h
  rcases bind_eq_error.mp h with h | ⟨_, -, h⟩
  · exact readOps_ne_hang (Nat.lt_succ_self _) h
  rcases bind_eq_error.mp h with h | ⟨-, -, h⟩
  · cases (ensure_eq_error.mp h).2
  rcases bind_eq_error.mp h with h | ⟨-, -, h⟩
  · cases (ensure_eq_error.mp h).2
  · cases h

end

section

variable {t : Trace} {raw : Raw} {file : List UInt8}

/-- **What `read_trace` accepts** has a cell for every id that is allocated, as long as the
size of the arrays does not wrap. -/
theorem readTrace_inBounds (h : readTrace raw file = .ok t) (hpos : 0 < t.numIds)
    (hlt : t.numIds < 2 ^ 30) :
    t.blocks.length = t.numIds.toNat ∧ t.blockSizes.length = t.numIds.toNat ∧
      t.numOps % 2 ^ 32 = t.ops.length ∧
      ∀ op ∈ t.ops, op.type ≠ .free → 0 ≤ op.index ∧ op.index.toNat < t.numIds.toNat := by
  obtain ⟨⟨trace, s⟩, -, h⟩ := bind_eq_ok.mp h
  obtain ⟨r, hr, h⟩ := bind_eq_ok.mp h
  obtain ⟨_, hmax, h⟩ := bind_eq_ok.mp h
  obtain ⟨_, hlen, h⟩ := bind_eq_ok.mp h
  obtain rfl := pure_eq_ok.mp h
  dsimp only at hpos hlt hmax hlen hr ⊢
  have hcells : cells trace.numIds sizeofWord = trace.numIds.toNat := by
    obtain ⟨n, hn⟩ := Int.eq_ofNat_of_zero_le hpos.le
    rw [hn] at hlt ⊢
    exact cells_natCast (by decide) (by simp only [sizeofWord]; omega)
  have hbounded : r.Bounded :=
    Reader.Bounded.readOps (fun op hop => absurd hop List.not_mem_nil) hr
  refine ⟨by simp [hcells], by simp [hcells], ensure_eq_ok.mp hlen, fun op hop hne => ?_⟩
  obtain ⟨k, hk, hindex⟩ := hbounded op hop hne
  have hmax := ensure_eq_ok.mp hmax
  rw [Int.emod_eq_of_lt (by omega) (by omega)] at hmax
  rw [hindex, toInt32, Nat.mod_eq_of_lt (by omega), if_pos (by omega)]
  omega

/-- In a legal trace the ids that are freed are among those that are allocated. -/
theorem LegalOps.forall_index {p : ℤ → Prop} {ops : List Op} : ∀ {live : List ℤ},
    LegalOps live ops → (∀ id ∈ live, p id) → (∀ op ∈ ops, op.type ≠ .free → p op.index) →
    ∀ op ∈ ops, p op.index := by
  induction ops with
  | nil => exact fun _ _ _ op hop => absurd hop List.not_mem_nil
  | cons op ops ih =>
    intro live hlegal hlive hops
    obtain ⟨hop, hops⟩ := List.forall_mem_cons.mp hops
    obtain ⟨⟨-, hlegal₀⟩, hlegal⟩ := hlegal
    have hp : p op.index := by
      cases htype : op.type with
      | alloc => exact hop (by simp [htype])
      | realloc => exact hop (by simp [htype])
      | free =>
        simp only [htype] at hlegal₀
        exact hlive _ hlegal₀
    have hafter : ∀ id ∈ op.after live, p id := by
      intro id hid
      rw [Op.after] at hid
      split at hid
      · rcases List.mem_cons.mp hid with rfl | hid
        · exact hp
        · exact hlive id hid
      · rcases List.mem_cons.mp hid with rfl | hid
        · exact hp
        · exact hlive id (List.mem_of_mem_erase hid)
      · exact hlive id (List.mem_of_mem_erase hid)
    exact List.forall_mem_cons.mpr ⟨hp, ih hlegal hafter hops⟩

/-- **A legal trace that `read_trace` accepts is proper**: the evaluations stay inside its
arrays. -/
theorem readTrace_proper (h : readTrace raw file = .ok t) (hpos : 0 < t.numIds)
    (hlt : t.numIds < 2 ^ 30) (hlegal : LegalOps [] t.ops)
    (hsize : ∀ op ∈ t.ops, op.type ≠ .free → 0 < op.size) : t.Proper := by
  obtain ⟨hblocks, hsizes, -, hindex⟩ := readTrace_inBounds h hpos hlt
  have hall := hlegal.forall_index (p := fun id => 0 ≤ id ∧ id.toNat < t.numIds.toNat)
    (fun id hid => absurd hid List.not_mem_nil) hindex
  exact ⟨hblocks, hsizes, fun op hop => ⟨hall op hop, hsize op hop⟩, hlegal⟩

theorem readTrace_proper_example :
    ∃ t, readTrace ⟨balancedTrace, 0, fun _ => 0⟩ (ascii "0 2 4 1\na 0 5000\na 1 100 f 0d\nf 1") =
        .ok t ∧ t.Proper := by
  have h : readTrace ⟨balancedTrace, 0, fun _ => 0⟩
      (ascii "0 2 4 1\na 0 5000\na 1 100 f 0d\nf 1") = .ok balancedTrace := by rfl
  exact ⟨_, h, readTrace_proper h (by decide) (by decide) (by decide) (by decide)⟩

end

end Driver

end SysProgLab
