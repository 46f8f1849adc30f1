import SysProgLab.Contract
import SysProgLab.Relocation

/-!
# Replaying a trace

A trace of requests says nothing of addresses: a block is named by its place among
the live ones. Two runs of one trace may start from any two memories, at two
places in the address space, and their clients may write different bytes into
the payloads. A `Plan` is what both runs compute: a layout and the live blocks,
as offsets from the start of the storage. No word of memory is in it.
-/

namespace SysProgLab

/-- A request of a trace. -/
inductive TraceOp : Type where
  /-- `mm_malloc(size)` -/
  | malloc (size : ℕ)
  /-- `mm_free` of the `k`-th live block, the youngest first -/
  | free (k : ℕ)
  /-- `mm_free(NULL)` -/
  | freeNull

/-- What is done next: a request in both runs, or a write in one of them. -/
inductive ReplayStep : Type where
  /-- both runs serve the request -/
  | op (o : TraceOp)
  /-- the client of the first run writes -/
  | writeFst (a : ℕ) (v : UInt8)
  /-- the client of the second run writes -/
  | writeSnd (a : ℕ) (v : UInt8)

/-- The request that stands for the trace's in a run. -/
def Client.request (s : Client) : TraceOp → Option Request
  | .malloc size => some (.malloc size)
  | .free k => s.live[k]?.map fun x => .free x.1
  | .freeNull => some (.free 0)

/-- Two runs of one trace, each after `mem_reset_brk` and `mm_init` on a heap that
may hold anything, with the storage at `base₁` and `base₂`. -/
def replay (arith : PtrArith) (base₁ base₂ : ℕ) : Machine (Client × Client) ReplayStep where
  init s := Started base₁ s.1 ∧ Started base₂ s.2
  step s l s' :=
    match l with
    | .op o => ∃ r₁ r₂, s.1.request o = some r₁ ∧ s.2.request o = some r₂ ∧
        (allocator arith base₁).step s.1 r₁ s'.1 ∧ (allocator arith base₂).step s.2 r₂ s'.2
    | .writeFst a v => (allocator arith base₁).step s.1 (.write a v) s'.1 ∧ s'.2 = s.2
    | .writeSnd a v => s'.1 = s.1 ∧ (allocator arith base₂).step s.2 (.write a v) s'.2
where
  /-- The client after `mm_init`. -/
  Started (base : ℕ) (s : Client) : Prop :=
    ∃ h₀ h : Heap, h₀.memStartBrk = base ∧ h₀.memMaxAddr = base + maxHeap ∧ h₀.arith = arith ∧
      mmInit (memResetBrk h₀) = some (0, h) ∧ s = Client.start h

/-- No `mem_brk + incr` wraps, in either run. -/
def ReplayStep.Sound (s : Client × Client) : ReplayStep → Prop
  | .op (.malloc size) => s.1.Sound (.malloc size) ∧ s.2.Sound (.malloc size)
  | _ => True

/-! ## The plan -/

/-- The layout and the live blocks, as if the storage were at address 0. -/
structure Plan : Type where
  /-- the layout -/
  layout : Layout
  /-- the offsets of the live payloads and the sizes asked for -/
  live : List (ℕ × ℕ)

namespace Plan

/-- After `mm_init`. -/
def init : Plan := ⟨initLayout 0, []⟩

/-- `mm_malloc`; the offset returned, `none` for `NULL`. -/
def malloc (P : Plan) (size : ℕ) : Option ℕ × Plan :=
  if size = 0 then (none, P)
  else
    match P.layout.malloc maxHeap (adjust size) with
    | none => (none, P)
    | some (b, L) => (some b.addr, ⟨L, (b.addr, size) :: P.live⟩)

/-- `mm_free` of the block at the offset `p`. -/
def free (P : Plan) (p : ℕ) : Plan :=
  match P.layout.blocks.find? fun b => b.addr = p with
  | none => P
  | some b => ⟨P.layout.free b, P.live.filter fun x => x.1 ≠ p⟩

/-- What a request of the trace makes of the plan. -/
def perform (P : Plan) : TraceOp → Plan
  | .malloc size => (P.malloc size).2
  | .free k => P.live[k]?.elim P fun x => P.free x.1
  | .freeNull => P

end Plan

/-- The offset `o` as a pointer. -/
def pointer (base : ℕ) (o : Option ℕ) : ℕ := o.elim 0 (· + base)

/-- The run at `base` is where the plan says. -/
structure Follows (base : ℕ) (s : Client) (P : Plan) : Prop where
  good : s.Good (P.layout.move base)
  live : s.live = P.live.map fun x => (x.1 + base, x.2)
  limit : s.heap.memMaxAddr = maxHeap + base

namespace Follows

variable {base : ℕ} {s : Client} {P : Plan} {size : ℕ}

/-- **`mm_malloc` follows the plan.** -/
theorem malloc (hf : Follows base s P) (hsize : size < 2 ^ 31)
    (hsound : s.Sound (.malloc size)) :
    ∃ h', mmMalloc s.heap size = some (pointer base (P.malloc size).1, h') ∧
      Follows base (s.gain size (pointer base (P.malloc size).1) h') (P.malloc size).2 := by
  by_cases h0 : size = 0
  · rw [Plan.malloc, if_pos h0]
    exact ⟨s.heap, if_pos h0, hf⟩
  have hm := hf.good.malloc h0 hsize hsound
  rw [hf.limit, Layout.malloc_move] at hm
  rw [Plan.malloc, if_neg h0]
  cases hL : P.layout.malloc maxHeap (adjust size) with
  | none =>
    rw [hL] at hm
    exact ⟨s.heap, hm, hf⟩
  | some x =>
    rw [hL] at hm
    obtain ⟨h', e, hg, hne, -, hlimit⟩ := hm
    refine ⟨h', e, hg, ?_, ?_⟩
    · exact (congrArg Client.live (if_neg hne)).trans (congrArg (List.cons _) hf.live)
    · exact (congrArg (fun c : Client => c.heap.memMaxAddr) (if_neg hne)).trans hlimit

/-- **`mm_free` follows the plan.** -/
theorem free (hf : Follows base s P) {x : ℕ × ℕ} (hx : x ∈ P.live) :
    ∃ h', mmFree s.heap (x.1 + base) = some h' ∧
      Follows base (s.drop (x.1 + base) h') (P.free x.1) := by
  have hxs : (x.1 + base, x.2) ∈ s.live := by
    rw [hf.live]
    exact List.mem_map_of_mem hx
  obtain ⟨b', hb', hba, hbx, -⟩ := hf.good.live _ hxs
  obtain ⟨b, hb, rfl⟩ := List.mem_map.mp hb'
  have hbx : b.addr = x.1 := Nat.add_right_cancel hbx
  have hfind : P.layout.blocks.find? (fun b => b.addr = x.1) = some b := by
    have hsome : (P.layout.blocks.find? fun b => b.addr = x.1).isSome :=
      List.find?_isSome.mpr ⟨b, hb, decide_eq_true hbx⟩
    obtain ⟨c, hc⟩ := Option.isSome_iff_exists.mp hsome
    have hcx : c.addr = x.1 := by simpa using List.find?_some hc
    -- blocks are told apart by their addresses
    have hcb : c.move base = b.move base :=
      hf.good.models.repBy.rep.eq_of_addr_eq (List.mem_map_of_mem (List.mem_of_find?_eq_some hc))
        hb' (congrArg (· + base) (hcx.trans hbx.symm))
    rw [hc, Block.move_injective base hcb]
  obtain ⟨h', e, hg, -, hlimit⟩ := hf.good.free hb' hba
  rw [Plan.free, hfind, ← hbx]
  refine ⟨h', e, Layout.free_move base b P.layout ▸ hg, ?_, hlimit.trans hf.limit⟩
  change s.live.filter (fun y => decide (y.1 ≠ b.addr + base)) = _
  rw [hf.live, List.filter_map]
  congr 2
  funext y
  simp

/-- `mm_free(NULL)` changes nothing. -/
theorem freeNull (hf : Follows base s P) : Follows base (s.drop 0 s.heap) P := by
  refine ⟨hf.good.free_null, ?_, hf.limit⟩
  rw [← hf.live]
  refine List.filter_eq_self.mpr fun x hx => decide_eq_true ?_
  obtain ⟨b, hb, -, hbx, -⟩ := hf.good.live x hx
  have hbb := hf.good.models.repBy.rep.bounds hb
  omega

theorem write (hf : Follows base s P) {a : ℕ} {v : UInt8} (hlegal : s.Legal (.write a v)) :
    Follows base (s.store a v) P := by
  obtain ⟨x, hx, h₁, h₂⟩ := hlegal
  exact ⟨hf.good.store hx h₁ h₂ v, hf.live, hf.limit⟩

end Follows

theorem initLayout_move (base : ℕ) : initLayout base = (initLayout 0).move base := by
  rw [initLayout, initLayout, ← Layout.grow_move]
  have hempty : emptyLayout base = (emptyLayout 0).move base := by
    simp only [emptyLayout, Layout.move, List.map_nil, Nat.zero_add, Nat.add_comm]
    rfl
  rw [← hempty]

/-- **Every run starts as the plan does**, whatever the heap held before. -/
theorem replay.Started.follows {arith : PtrArith} {base : ℕ} {s : Client}
    (hs : replay.Started arith base s) (hbase : 8 ∣ base) (hmax : base + maxHeap < 2 ^ 32) :
    Follows base s .init := by
  obtain ⟨h₀, h, hstart, hlimit, -, e, rfl⟩ := hs
  obtain ⟨h', e', hM, hlimit', -⟩ := mmInit_reset hstart hlimit hbase hmax
  obtain rfl : h' = h := by simpa using e'.symm.trans e
  refine ⟨⟨initLayout_move base ▸ hM, fun x hx => absurd hx List.not_mem_nil, List.Pairwise.nil,
    fun x hx => absurd hx List.not_mem_nil⟩, rfl, ?_⟩
  exact hlimit'.trans (Nat.add_comm ..)

/-- **A request of the trace follows the plan.** -/
theorem Follows.op {base : ℕ} {s : Client} {P : Plan} {o : TraceOp} {r : Request}
    (hf : Follows base s P) (hr : s.request o = some r) (hlegal : s.Legal r) (hsound : s.Sound r) :
    ∃ s', s.perform r = some s' ∧ Follows base s' (P.perform o) := by
  cases o with
  | malloc size =>
    obtain rfl : Request.malloc size = r := Option.some.inj hr
    obtain ⟨h', e, hf'⟩ := hf.malloc hlegal hsound
    exact ⟨_, by rw [Client.perform, e, Option.map_some], hf'⟩
  | free k =>
    obtain ⟨y, hy, rfl⟩ := Option.map_eq_some_iff.mp hr
    rw [hf.live, List.getElem?_map] at hy
    obtain ⟨x, hx, rfl⟩ := Option.map_eq_some_iff.mp hy
    obtain ⟨h', e, hf'⟩ := hf.free (List.mem_of_getElem? hx)
    refine ⟨_, by rw [Client.perform, e, Option.map_some], ?_⟩
    rw [Plan.perform, hx]
    exact hf'
  | freeNull =>
    obtain rfl : Request.free 0 = r := Option.some.inj hr
    exact ⟨_, by rw [Client.perform, Heap.Models.mmFree_null, Option.map_some], hf.freeNull⟩

/-! ## Two runs -/

theorem sound_of_request {s₁ s₂ : Client} {o : TraceOp} {r₁ r₂ : Request}
    (hr₁ : s₁.request o = some r₁) (hr₂ : s₂.request o = some r₂)
    (hsound : ReplayStep.Sound (s₁, s₂) (.op o)) : s₁.Sound r₁ ∧ s₂.Sound r₂ := by
  cases o with
  | malloc size =>
    cases hr₁
    cases hr₂
    exact hsound
  | free k =>
    obtain ⟨x₁, -, rfl⟩ := Option.map_eq_some_iff.mp hr₁
    obtain ⟨x₂, -, rfl⟩ := Option.map_eq_some_iff.mp hr₂
    exact ⟨trivial, trivial⟩
  | freeNull =>
    cases hr₁
    cases hr₂
    exact ⟨trivial, trivial⟩

/-- **Both runs follow one plan.** -/
theorem replay_inductive (arith : PtrArith) {base₁ base₂ : ℕ} (hbase₁ : 8 ∣ base₁)
    (hmax₁ : base₁ + maxHeap < 2 ^ 32) (hbase₂ : 8 ∣ base₂) (hmax₂ : base₂ + maxHeap < 2 ^ 32) :
    (replay arith base₁ base₂).Inductive (fun s l => l.Sound s)
      fun s => ∃ P, Follows base₁ s.1 P ∧ Follows base₂ s.2 P where
  init := by
    rintro ⟨s₁, s₂⟩ ⟨h₁, h₂⟩
    exact ⟨.init, h₁.follows hbase₁ hmax₁, h₂.follows hbase₂ hmax₂⟩
  step := by
    rintro ⟨s₁, s₂⟩ l ⟨s₁', s₂'⟩ ⟨P, hf₁, hf₂⟩ hsound hstep
    cases l with
    | op o =>
      obtain ⟨r₁, r₂, hr₁, hr₂, ⟨hlegal₁, e₁⟩, hlegal₂, e₂⟩ := hstep
      obtain ⟨hsound₁, hsound₂⟩ := sound_of_request hr₁ hr₂ hsound
      obtain ⟨t₁, e₁', hf₁'⟩ := hf₁.op hr₁ hlegal₁ hsound₁
      obtain ⟨t₂, e₂', hf₂'⟩ := hf₂.op hr₂ hlegal₂ hsound₂
      cases e₁'.symm.trans e₁
      cases e₂'.symm.trans e₂
      exact ⟨_, hf₁', hf₂'⟩
    | writeFst a v =>
      obtain ⟨⟨hlegal, e⟩, he⟩ := hstep
      obtain rfl : s₁.store a v = s₁' := Option.some.inj e
      obtain rfl : s₂' = s₂ := he
      exact ⟨P, hf₁.write hlegal, hf₂⟩
    | writeSnd a v =>
      obtain ⟨he, hlegal, e⟩ := hstep
      obtain rfl : s₂.store a v = s₂' := Option.some.inj e
      obtain rfl : s₁' = s₁ := he
      exact ⟨P, hf₁, hf₂.write hlegal⟩

/-- **The two runs look the same** from the start of their storage: they hold blocks
at the same offsets for the same requests, `mem_brk` is at the same offset, and the
blocks of the heap and the free lists are the same. -/
def SameHeap (base₁ base₂ : ℕ) (s₁ s₂ : Client) : Prop :=
  (∃ live : List (ℕ × ℕ), s₁.live = live.map (fun x => (x.1 + base₁, x.2)) ∧
    s₂.live = live.map (fun x => (x.1 + base₂, x.2))) ∧
  (∃ brk, s₁.heap.memBrk = brk + base₁ ∧ s₂.heap.memBrk = brk + base₂) ∧
  ∃ (bs : List Block) (segs : ℕ → List Block),
    WellFormed s₁.heap (bs.map (Block.move base₁)) (moveSegs base₁ segs) ∧
    WellFormed s₂.heap (bs.map (Block.move base₂)) (moveSegs base₂ segs)

/-- Every request of the trace is served in both runs, and `mm_malloc` returns the
same offset. -/
def SameAnswers (base₁ base₂ : ℕ) (s₁ s₂ : Client) : Prop :=
  (∀ o r₁ r₂, s₁.request o = some r₁ → s₂.request o = some r₂ → s₁.Legal r₁ → s₂.Legal r₂ →
    ReplayStep.Sound (s₁, s₂) (.op o) →
      (s₁.perform r₁).isSome = true ∧ (s₂.perform r₂).isSome = true) ∧
  ∀ size < 2 ^ 31, ReplayStep.Sound (s₁, s₂) (.op (.malloc size)) →
    ∃ o : Option ℕ, (mmMalloc s₁.heap size).map Prod.fst = some (pointer base₁ o) ∧
      (mmMalloc s₂.heap size).map Prod.fst = some (pointer base₂ o)

/-- **What the memory holds does not matter**: in every replay in which no
`mem_brk + incr` wraps, the two heaps and the answers to the requests are the same,
whatever was in the memory before and whatever the clients write. -/
theorem replay_same (arith : PtrArith) {base₁ base₂ : ℕ} (hbase₁ : 8 ∣ base₁)
    (hmax₁ : base₁ + maxHeap < 2 ^ 32) (hbase₂ : 8 ∣ base₂) (hmax₂ : base₂ + maxHeap < 2 ^ 32)
    {s₁ s₂ : Client} (hs : (replay arith base₁ base₂).ReachWhen (fun s l => l.Sound s) (s₁, s₂)) :
    SameHeap base₁ base₂ s₁ s₂ ∧ SameAnswers base₁ base₂ s₁ s₂ := by
  obtain ⟨P, hf₁, hf₂⟩ := (replay_inductive arith hbase₁ hmax₁ hbase₂ hmax₂).holds hs
  refine ⟨⟨⟨P.live, hf₁.live, hf₂.live⟩, ⟨P.layout.brk, hf₁.good.models.brk,
    hf₂.good.models.brk⟩, _, _, hf₁.good.models.wellFormed, hf₂.good.models.wellFormed⟩, ?_, ?_⟩
  · intro o r₁ r₂ hr₁ hr₂ hlegal₁ hlegal₂ hsound
    obtain ⟨hsound₁, hsound₂⟩ := sound_of_request hr₁ hr₂ hsound
    obtain ⟨t₁, e₁, -⟩ := hf₁.op hr₁ hlegal₁ hsound₁
    obtain ⟨t₂, e₂, -⟩ := hf₂.op hr₂ hlegal₂ hsound₂
    exact ⟨e₁ ▸ rfl, e₂ ▸ rfl⟩
  · intro size hsize hsound
    obtain ⟨h₁, e₁, -⟩ := hf₁.malloc hsize hsound.1
    obtain ⟨h₂, e₂, -⟩ := hf₂.malloc hsize hsound.2
    exact ⟨(P.malloc size).1, by rw [e₁, Option.map_some], by rw [e₂, Option.map_some]⟩

/-! ### Examples of replays -/

instance (s : Client × Client) : DecidablePred (ReplayStep.Sound s) := fun l => by
  cases l with
  | op o => cases o <;> unfold ReplayStep.Sound <;> infer_instance
  | _ => exact inferInstanceAs (Decidable True)

/-- A legal step of a replay that meets `P`, as a function. -/
def replayNext (P : Client × Client → ReplayStep → Prop) [∀ s l, Decidable (P s l)]
    (s : Client × Client) (l : ReplayStep) : Option (Client × Client) :=
  if P s l then
    match l with
    | .op o => (s.1.request o).bind fun r₁ => (s.2.request o).bind fun r₂ =>
        if s.1.Legal r₁ ∧ s.2.Legal r₂ then
          (s.1.perform r₁).bind fun t₁ => (s.2.perform r₂).bind fun t₂ => some (t₁, t₂)
        else none
    | .writeFst a v => if s.1.Legal (.write a v) then some (s.1.store a v, s.2) else none
    | .writeSnd a v => if s.2.Legal (.write a v) then some (s.1, s.2.store a v) else none
  else none

theorem replayNext_spec {P : Client × Client → ReplayStep → Prop} [∀ s l, Decidable (P s l)]
    {arith : PtrArith} {base₁ base₂ : ℕ} (s : Client × Client) (l : ReplayStep)
    (s' : Client × Client) (h : replayNext P s l = some s') :
    P s l ∧ (replay arith base₁ base₂).step s l s' := by
  obtain ⟨hP, h⟩ := Option.ite_none_right_eq_some.mp h
  refine ⟨hP, ?_⟩
  cases l with
  | op o =>
    obtain ⟨r₁, hr₁, h⟩ := Option.bind_eq_some_iff.mp h
    obtain ⟨r₂, hr₂, h⟩ := Option.bind_eq_some_iff.mp h
    obtain ⟨hlegal, h⟩ := Option.ite_none_right_eq_some.mp h
    obtain ⟨t₁, e₁, h⟩ := Option.bind_eq_some_iff.mp h
    obtain ⟨t₂, e₂, h⟩ := Option.bind_eq_some_iff.mp h
    cases h
    exact ⟨r₁, r₂, hr₁, hr₂, ⟨hlegal.1, e₁⟩, hlegal.2, e₂⟩
  | writeFst a v =>
    obtain ⟨hlegal, h⟩ := Option.ite_none_right_eq_some.mp h
    cases h
    exact ⟨⟨hlegal, rfl⟩, rfl⟩
  | writeSnd a v =>
    obtain ⟨hlegal, h⟩ := Option.ite_none_right_eq_some.mp h
    cases h
    exact ⟨rfl, hlegal, rfl⟩

/-- The client after `mm_init` on the memory `mem`. -/
def startAt (arith : PtrArith) (base : ℕ) (mem : Mem) : Option Client :=
  (mmInit (memInit arith base mem)).bind fun r => if r.1 = 0 then some (.start r.2) else none

theorem startAt_started {arith : PtrArith} {base : ℕ} {mem : Mem} {s : Client}
    (h : startAt arith base mem = some s) : replay.Started arith base s := by
  obtain ⟨⟨c, h₁⟩, e, h⟩ := Option.bind_eq_some_iff.mp h
  obtain ⟨hc, h⟩ := Option.ite_none_right_eq_some.mp h
  obtain rfl : c = 0 := hc
  exact ⟨memInit arith base mem, h₁, rfl, rfl, rfl, e, (Option.some.inj h).symm⟩

/-- The two clients after a replay, the first on zeroed memory and the second on
memory that is filled with `v`. -/
def replayFrom (P : Client × Client → ReplayStep → Prop) [∀ s l, Decidable (P s l)]
    (arith : PtrArith) (base₁ base₂ : ℕ) (v : UInt8) (ls : List ReplayStep) :
    Option (Client × Client) :=
  (startAt arith base₁ fun _ => 0).bind fun s₁ => (startAt arith base₂ fun _ => v).bind fun s₂ =>
    Machine.exec (replayNext P) (s₁, s₂) ls

theorem replayFrom_reach {P : Client × Client → ReplayStep → Prop} [∀ s l, Decidable (P s l)]
    {arith : PtrArith} {base₁ base₂ : ℕ} {v : UInt8} {ls : List ReplayStep} {s : Client × Client}
    (h : replayFrom P arith base₁ base₂ v ls = some s) :
    (replay arith base₁ base₂).ReachWhen P s := by
  obtain ⟨s₁, e₁, h⟩ := Option.bind_eq_some_iff.mp h
  obtain ⟨s₂, e₂, h⟩ := Option.bind_eq_some_iff.mp h
  exact .exec replayNext_spec (.init ⟨startAt_started e₁, startAt_started e₂⟩) h

/-- Blocks come and go at the same offsets in two storages. -/
theorem replay_same_run : ∃ s₁ s₂ : Client, s₁.live = [(1152, 100)] ∧ s₂.live = [(2176, 100)] ∧
    SameHeap 1024 2048 s₁ s₂ ∧ SameAnswers 1024 2048 s₁ s₂ := by
  have hrun : ((replayFrom (fun s l => l.Sound s) .wrap32 1024 2048 255
      [.op (.malloc 8), .op (.malloc 100), .writeFst 1160 7, .op (.free 1), .op .freeNull]).any
      fun s => s.1.live = [(1152, 100)] ∧ s.2.live = [(2176, 100)]) = true := by
    decide +kernel
  obtain ⟨⟨s₁, s₂⟩, e, hlive⟩ := (Option.any_eq_true ..).mp hrun
  simp only [decide_eq_true_eq] at hlive
  obtain ⟨hheap, hans⟩ := replay_same .wrap32 (⟨128, rfl⟩ : 8 ∣ 1024) (by decide)
    (⟨256, rfl⟩ : 8 ∣ 2048) (by decide) (replayFrom_reach e)
  exact ⟨s₁, s₂, hlive.1, hlive.2, hheap, hans⟩

/-- With the storage high in the address space `mem_brk` wraps around and the heap grows
over its own start. Both runs start on zeroed memory. The second client writes into its
live payload what reads as a free block of 16 bytes at `0xF4000100` with its links, and
the root of a free list, which lies in that payload too. -/
theorem replay_wrap : ∃ s₁ s₂ : Client,
    (replay .wrap32 0xF6000000 0xF6000000).Reach (s₁, s₂) ∧
    (mmMalloc s₁.heap 8).map Prod.fst = some 0xF6000090 ∧
    (mmMalloc s₂.heap 8).map Prod.fst = some 0xF4000100 := by
  have hrun : ((replayFrom (fun _ _ => True) .wrap32 0xF6000000 0xF6000000 0
      [.op (.malloc 0x0A000000), .op (.malloc 0x7A000000), .op (.malloc 0x7A000000),
        .op (.malloc 0x02000000), .writeSnd 0xF40000FC 16, .writeSnd 0xF4000104 8,
        .writeSnd 0xF4000107 0xF6, .writeSnd 0xF6000009 1, .writeSnd 0xF600000B 0xF4]).any fun s =>
        (mmMalloc s.1.heap 8).map Prod.fst = some 0xF6000090 ∧
          (mmMalloc s.2.heap 8).map Prod.fst = some 0xF4000100) = true := by
    decide +kernel
  obtain ⟨⟨s₁, s₂⟩, e, hs⟩ := (Option.any_eq_true ..).mp hrun
  simp only [decide_eq_true_eq] at hs
  exact ⟨s₁, s₂, replayFrom_reach e, hs.1, hs.2⟩

end SysProgLab
