import SysProgLab.HeapInvariant
import SysProgLab.Machine

/-!
# Runs of a client of the allocator

The client asks for blocks, gives them back and writes into the payloads it
holds. Its state remembers what it may rely on: the live payloads with the sizes
it asked for, and the byte it last wrote at each address. `allocator` is the
machine of all such runs from `mm_init`, on memory with any contents and
storage at any address.
-/

namespace SysProgLab

/-- What a client does next. -/
inductive Request : Type where
  /-- `mm_malloc(size)` -/
  | malloc (size : ℕ) : Request
  /-- `mm_free(ptr)` -/
  | free (ptr : ℕ) : Request
  /-- `mm_realloc(ptr, size)` -/
  | realloc (ptr size : ℕ) : Request
  /-- store the byte `v` at `a` -/
  | write (a : ℕ) (v : UInt8) : Request

/-- A heap and what its client knows of it. -/
structure Client where
  /-- the heap -/
  heap : Heap
  /-- the live payloads: address and requested size -/
  live : List (ℕ × ℕ)
  /-- the byte last written at an address of a live payload -/
  last : ℕ → Option UInt8

namespace Client

/-- What a client may ask for: sizes below `2 ^ 31`, pointers that are live (or
`NULL`, to `mm_free`), stores inside live payloads. -/
def Legal (s : Client) : Request → Prop
  | .malloc size => size < 2 ^ 31
  | .free ptr => ptr = 0 ∨ ∃ x ∈ s.live, x.1 = ptr
  | .realloc ptr size => size ≠ 0 ∧ size < 2 ^ 31 ∧ ∃ x ∈ s.live, x.1 = ptr
  | .write a _ => ∃ x ∈ s.live, x.1 ≤ a ∧ a < x.1 + x.2

instance (s : Client) : DecidablePred s.Legal := fun r => by
  cases r <;> unfold Legal <;> infer_instance

/-- The size that was asked for at `ptr`. -/
def sizeAt (s : Client) (ptr : ℕ) : ℕ := (s.live.lookup ptr).getD 0

/-- `mm_malloc(size)` returned `p`. -/
def gain (s : Client) (size : ℕ) (p : ℕ) (h : Heap) : Client :=
  if p = 0 then { s with heap := h }
  else
    { heap := h
      live := (p, size) :: s.live
      last := fun a => if p ≤ a ∧ a < p + size then none else s.last a }

/-- `mm_free(ptr)` returned. -/
def drop (s : Client) (ptr : ℕ) (h : Heap) : Client :=
  { s with heap := h, live := s.live.filter fun x => x.1 ≠ ptr }

/-- `mm_realloc(ptr, size)` returned `q`. What was written at `ptr` is expected
at `q`, up to the smaller of the two sizes. -/
def move (s : Client) (ptr size : ℕ) (q : ℕ) (h : Heap) : Client :=
  if q = 0 then { s with heap := h }
  else
    { heap := h
      live := (q, size) :: s.live.filter fun x => x.1 ≠ ptr
      last := fun a =>
        if q ≤ a ∧ a < q + size then
          if a - q < s.sizeAt ptr then s.last (ptr + (a - q)) else none
        else s.last a }

/-- The client stores the byte `v` at `a`. -/
def store (s : Client) (a : ℕ) (v : UInt8) : Client :=
  { s with
    heap := { s.heap with mem := Function.update s.heap.mem a v }
    last := Function.update s.last a (some v) }

/-- Serve a request; `none` when the code does not return. -/
def perform (s : Client) : Request → Option Client
  | .malloc size => (mmMalloc s.heap size).map fun r => s.gain size r.1 r.2
  | .free ptr => (mmFree s.heap ptr).map fun h => s.drop ptr h
  | .realloc ptr size => (mmRealloc s.heap ptr size).map fun r => s.move ptr size r.1 r.2
  | .write a v => some (s.store a v)

/-- The request does not reach `mem_sbrk` with a sum that leaves the 32-bit
address space: a fit is found, or the extension is negative as an `int`, or
`mem_brk` plus the extension does not wrap. -/
def ExtendsOk (h : Heap) (size : ℕ) : Prop :=
  findFit h.heapListp h.mem (adjust size) = some 0 → max (adjust size) chunksize < 2 ^ 31 →
    h.NoWrap (max (adjust size) chunksize)

instance (h : Heap) (size : ℕ) : Decidable (ExtendsOk h size) := by
  unfold ExtendsOk
  infer_instance

/-- The condition under which a request is served as specified. -/
def Sound (s : Client) : Request → Prop
  | .malloc size => ExtendsOk s.heap size
  | .free _ => True
  | .realloc ptr size => ReallocOk s.heap.mem ptr size ∧
      (ReallocMoves s.heap.mem ptr size → ExtendsOk s.heap size)
  | .write _ _ => True

instance (s : Client) : DecidablePred s.Sound := fun r => by
  cases r <;> unfold Sound <;> infer_instance

/-- What the client relies on: the heap represents the layout `L`, each live
payload is that of an allocated block with room for it, and each byte is the
one last written. -/
structure Good (s : Client) (L : Layout) : Prop where
  models : s.heap.Models L
  live : ∀ x ∈ s.live, ∃ b ∈ L.blocks, b.alloc = true ∧ b.addr = x.1 ∧ x.2 + 8 ≤ b.size
  nodup : s.live.Pairwise fun x y => x.1 ≠ y.1
  last : ∀ x ∈ s.live, ∀ a, x.1 ≤ a → a < x.1 + x.2 → ∀ v, s.last a = some v → s.heap.mem a = v

theorem ExtendsOk.noWrap {h : Heap} {L : Layout} {size : ℕ} (hL : h.Models L)
    (hok : ExtendsOk h size) (hf : L.fit (adjust size) = none)
    (hlt : max (adjust size) chunksize < 2 ^ 31) : h.NoWrap (max (adjust size) chunksize) := by
  refine hok ?_ hlt
  rw [hL.listp, hL.repBy.findFit, hf]
  rfl

namespace Good

variable {s s' : Client} {L : Layout} {size ptr : ℕ}

/-- Every byte of a live payload lies in the payload of its block. -/
theorem keeps_last (h : s.Good L) {m' : Mem} {x : ℕ × ℕ} (hx : x ∈ s.live)
    (k : ∀ b ∈ L.blocks, b.alloc = true → b.addr = x.1 →
      ∀ a, b.addr ≤ a → a < b.stop - 8 → m' a = s.heap.mem a)
    {a : ℕ} (h₁ : x.1 ≤ a) (h₂ : a < x.1 + x.2) : m' a = s.heap.mem a := by
  obtain ⟨b, hb, hba, hbx, hbs⟩ := h.live x hx
  refine k b hb hba hbx a (by omega) ?_
  simp only [Block.stop]
  omega

/-- A fresh block joins the live ones. -/
theorem gain (h : s.Good L) {h' : Heap} {L' : Layout} {a : Block} (hM : h'.Models L')
    (hadds : L.Adds L' a) (hsize : size + 8 ≤ a.size) (k : Keeps L.blocks s.heap.mem h'.mem) :
    (s.gain size a.addr h').Good L' := by
  have ham : a ∈ L'.blocks := (hadds.mem a hadds.alloc).mpr (.inr rfl)
  have hne : a.addr ≠ 0 := by
    have := hM.repBy.rep.bounds ham
    omega
  rw [Client.gain, if_neg hne]
  refine ⟨hM, fun x hx => ?_, List.pairwise_cons.mpr ⟨fun x hx => ?_, h.nodup⟩,
    fun x hx c h₁ h₂ v hv => ?_⟩
  · rcases List.mem_cons.mp hx with rfl | hx
    · exact ⟨a, ham, hadds.alloc, rfl, hsize⟩
    · obtain ⟨b, hb, hba, hbx⟩ := h.live x hx
      exact ⟨b, (hadds.mem b hba).mpr (.inl hb), hba, hbx⟩
  · obtain ⟨b, hb, hba, hbx, -⟩ := h.live x hx
    rw [← hbx]
    exact (hadds.fresh b hb hba).symm
  · dsimp only at hv
    split at hv
    · cases hv
    · next hout =>
      rcases List.mem_cons.mp hx with rfl | hx
      · exact absurd ⟨h₁, h₂⟩ hout
      · exact (h.keeps_last hx (fun b hb hba _ => k b hb hba) h₁ h₂).trans
          (h.last x hx c h₁ h₂ v hv)

/-- Who stays live when the payload at `b.addr` is dropped has another block. -/
theorem stays (h : s.Good L) {b : Block} {x : ℕ × ℕ}
    (hx : x ∈ s.live.filter fun x => x.1 ≠ b.addr) :
    x ∈ s.live ∧ ∃ c ∈ L.blocks, c.alloc = true ∧ c.addr = x.1 ∧ x.2 + 8 ≤ c.size ∧ c ≠ b := by
  obtain ⟨hx, hxb⟩ : x ∈ s.live ∧ x.1 ≠ b.addr := by simpa using hx
  obtain ⟨c, hc, hca, hcx, hcs⟩ := h.live x hx
  refine ⟨hx, c, hc, hca, hcx, hcs, ?_⟩
  rintro rfl
  exact hxb hcx.symm

theorem keeps_stays (h : s.Good L) {m' : Mem} {b : Block} {x : ℕ × ℕ}
    (hx : x ∈ s.live.filter fun x => x.1 ≠ b.addr)
    (k : ∀ c ∈ L.blocks, c.alloc = true → c ≠ b →
      ∀ a, c.addr ≤ a → a < c.stop - 8 → m' a = s.heap.mem a)
    {a : ℕ} (h₁ : x.1 ≤ a) (h₂ : a < x.1 + x.2) : m' a = s.heap.mem a := by
  obtain ⟨-, c, hc, hca, hcx, hcs, hcb⟩ := h.stays hx
  refine k c hc hca hcb a (by omega) ?_
  simp only [Block.stop]
  omega

/-- A block leaves the live ones. -/
theorem drop (h : s.Good L) {h' : Heap} {L' : Layout} {b : Block} (hM : h'.Models L')
    (hmem : ∀ c : Block, c.alloc = true → (c ∈ L'.blocks ↔ c ∈ L.blocks ∧ c ≠ b))
    (k : ∀ c ∈ L.blocks, c.alloc = true → c ≠ b → ∀ a, c.addr ≤ a → a < c.stop - 8 →
      h'.mem a = s.heap.mem a) :
    (s.drop b.addr h').Good L' := by
  refine ⟨hM, fun x hx => ?_, h.nodup.sublist List.filter_sublist, fun x hx a h₁ h₂ v hv => ?_⟩
  · obtain ⟨-, c, hc, hca, hcx, hcs, hcb⟩ := h.stays hx
    exact ⟨c, (hmem c hca).mpr ⟨hc, hcb⟩, hca, hcx, hcs⟩
  · exact (h.keeps_stays hx k h₁ h₂).trans (h.last x (h.stays hx).1 a h₁ h₂ v hv)

theorem sizeAt_eq (h : s.Good L) {n : ℕ} (hp : (ptr, n) ∈ s.live) : s.sizeAt ptr = n := by
  have hl : ∀ {l : List (ℕ × ℕ)}, l.Pairwise (fun x y => x.1 ≠ y.1) → (ptr, n) ∈ l →
      l.lookup ptr = some n := by
    intro l
    induction l with
    | nil => exact fun _ hm => absurd hm List.not_mem_nil
    | cons x l ih =>
      intro hpw hm
      obtain ⟨hx, hpw⟩ := List.pairwise_cons.mp hpw
      rcases List.mem_cons.mp hm with rfl | hm
      · simp
      · have hne : (ptr == x.1) = false := by simpa using (hx _ hm).symm
        rw [List.lookup_cons, hne]
        exact ih hpw hm
  rw [sizeAt, hl h.nodup hp]
  rfl

/-- A live block is resized. -/
theorem move (h : s.Good L) {h' : Heap} {L' : Layout} {a b : Block} {n : ℕ} (hM : h'.Models L')
    (hp : (b.addr, n) ∈ s.live) (hbs : n + 8 ≤ b.size)
    (hres : L.Resized L' s.heap.mem h'.mem b a (min (b.size - 8) size))
    (hsize : size + 8 ≤ a.size) : (s.move b.addr size a.addr h').Good L' := by
  have ham : a ∈ L'.blocks := (hres.mem a hres.alloc).mpr (.inr rfl)
  have hne0 : a.addr ≠ 0 := by
    have := hM.repBy.rep.bounds ham
    omega
  rw [Client.move, if_neg hne0]
  refine ⟨hM, fun x hx => ?_, List.pairwise_cons.mpr ⟨fun x hx => ?_,
    h.nodup.sublist List.filter_sublist⟩, fun x hx c h₁ h₂ v hv => ?_⟩
  · rcases List.mem_cons.mp hx with rfl | hx
    · exact ⟨a, ham, hres.alloc, rfl, hsize⟩
    · obtain ⟨-, c, hc, hca, hcx, hcs, hcb⟩ := h.stays hx
      exact ⟨c, (hres.mem c hca).mpr (.inl ⟨hc, hcb⟩), hca, hcx, hcs⟩
  · obtain ⟨-, c, hc, hca, hcx, -, hcb⟩ := h.stays hx
    rw [← hcx]
    exact (hres.fresh c hc hca hcb).symm
  · dsimp only at hv
    split at hv
    · next hin =>
      -- a byte of the new payload is the byte of the old one at the same offset
      rw [h.sizeAt_eq hp] at hv
      split at hv
      · next hlt =>
        have hcopy := hres.copy (c - a.addr) (by omega)
        rw [show a.addr + (c - a.addr) = c by omega] at hcopy
        exact hcopy.trans (h.last _ hp _ (by omega) (by omega) v hv)
      · cases hv
    · next hout =>
      rcases List.mem_cons.mp hx with rfl | hx
      · exact absurd ⟨h₁, h₂⟩ hout
      · exact (h.keeps_stays hx (fun c hc hca hcb => hres.keeps c hc hca hcb) h₁ h₂).trans
          (h.last x (h.stays hx).1 c h₁ h₂ v hv)

/-- A store inside a live payload. -/
theorem store (h : s.Good L) {x : ℕ × ℕ} (hx : x ∈ s.live) {a : ℕ} (h₁ : x.1 ≤ a)
    (h₂ : a < x.1 + x.2) (v : UInt8) : (s.store a v).Good L := by
  obtain ⟨b, hb, hba, hbx, hbs⟩ := h.live x hx
  have hM := h.models
  have hag : Mem.AgreeOff b.addr (b.stop - 8) s.heap.mem (Function.update s.heap.mem a v) := by
    intro c hc
    refine Function.update_of_ne ?_ _ _
    rintro rfl
    simp only [Block.stop] at hc
    omega
  refine ⟨{ hM with repBy := hM.repBy.payload hb hba hag }, h.live, h.nodup,
    fun y hy c h₃ h₄ w hw => ?_⟩
  by_cases hca : c = a
  · subst hca
    simp only [Client.store, Function.update_self, Option.some.injEq] at hw ⊢
    exact hw
  · simp only [Client.store, Function.update_of_ne hca] at hw ⊢
    exact h.last y hy c h₃ h₄ w hw

/-- **`mm_malloc`** serves the client as the layout does. -/
theorem malloc (h : s.Good L) (h0 : size ≠ 0) (hsize : size < 2 ^ 31)
    (hsound : ExtendsOk s.heap size) :
    match L.malloc s.heap.memMaxAddr (adjust size) with
    | none => mmMalloc s.heap size = some (0, s.heap)
    | some (b, L') => ∃ h', mmMalloc s.heap size = some (b.addr, h') ∧
        (s.gain size b.addr h').Good L' ∧ b.addr ≠ 0 ∧
        h'.arith = s.heap.arith ∧ h'.memMaxAddr = s.heap.memMaxAddr := by
  have hM := h.models
  have hround : size + 15 < 2 ^ 32 := by omega
  have hm := hM.mmMalloc h0 hround (ExtendsOk.noWrap hM hsound)
  cases hmal : L.malloc s.heap.memMaxAddr (adjust size) with
  | none =>
    rw [hmal] at hm
    exact hm
  | some x =>
    rw [hmal] at hm
    obtain ⟨m', e, h', k, hadds, hle⟩ := hm
    obtain ⟨-, -, hroom, -⟩ := adjust_spec hround
    have hcs := le_carved_size (Nat.add_le_add_left hle x.1.addr)
    have hg := h.gain h' hadds (hroom.trans hcs) k
    rw [carved_addr] at hg
    have ham := (hadds.mem _ hadds.alloc).mpr (.inr rfl)
    have hb := h'.repBy.rep.bounds ham
    rw [carved_addr] at hb
    exact ⟨_, e, hg, by omega, rfl, rfl⟩

/-- **`mm_free`** of a live pointer frees its block. -/
theorem free (h : s.Good L) {b : Block} (hb : b ∈ L.blocks) (hba : b.alloc = true) :
    ∃ h', mmFree s.heap b.addr = some h' ∧ (s.drop b.addr h').Good (L.free b) ∧
      h'.arith = s.heap.arith ∧ h'.memMaxAddr = s.heap.memMaxAddr := by
  have hM := h.models
  obtain ⟨m', e, h', k⟩ := hM.mmFree hb hba
  refine ⟨_, e, h.drop h' (fun c hc => hM.repBy.mem_free hb hc) fun c hc hca hcb => k c ?_ hca,
    rfl, rfl⟩
  rw [← before_append_after hb] at hc
  simpa [hcb] using hc

/-- `mm_free(NULL)` changes nothing. -/
theorem free_null (h : s.Good L) : (s.drop 0 s.heap).Good L :=
  ⟨h.models, fun x hx => h.live x (List.mem_of_mem_filter hx),
    h.nodup.sublist List.filter_sublist, fun x hx => h.last x (List.mem_of_mem_filter hx)⟩

/-- **Every legal, sound request is served**, and leaves the client with what it
relies on. -/
theorem serve (h : s.Good L) {r : Request} (hlegal : s.Legal r) (hsound : s.Sound r) :
    ∃ s' L', s.perform r = some s' ∧ s'.Good L' ∧ s'.heap.arith = s.heap.arith := by
  have hM := h.models
  cases r with
  | malloc size =>
    by_cases h0 : size = 0
    · subst h0
      exact ⟨s, L, by simp [perform, mmMalloc, Client.gain], h, rfl⟩
    have hm := h.malloc h0 hlegal hsound
    cases hmal : L.malloc s.heap.memMaxAddr (adjust size) with
    | none =>
      rw [hmal] at hm
      exact ⟨s, L, by simp [perform, hm, Client.gain], h, rfl⟩
    | some x =>
      rw [hmal] at hm
      obtain ⟨h', e, hg, hne, ha, -⟩ := hm
      refine ⟨_, x.2, by rw [perform, e, Option.map_some], hg, ?_⟩
      rw [Client.gain, if_neg hne]
      exact ha
  | free ptr =>
    rcases hlegal with rfl | ⟨⟨p, n⟩, hx, rfl⟩
    · exact ⟨_, L, by rw [perform, Heap.Models.mmFree_null, Option.map_some], h.free_null, rfl⟩
    · obtain ⟨b, hb, hba, rfl, -⟩ := h.live _ hx
      obtain ⟨h', e, hg, ha, -⟩ := h.free hb hba
      exact ⟨_, _, by rw [perform, e, Option.map_some], hg, ha⟩
  | realloc ptr size =>
    obtain ⟨h0, hsize, ⟨p, n⟩, hx, rfl⟩ := hlegal
    obtain ⟨b, hb, hba, rfl, hbs⟩ := h.live _ hx
    have hround : size + 15 < 2 ^ 32 := by omega
    obtain ⟨-, -, hroom, -⟩ := adjust_spec hround
    rcases hM.mmRealloc hb hba h0 hround hsound.1
      fun hmove => ExtendsOk.noWrap hM (hsound.2 hmove) with e | ⟨m', L', a, e, h', hres, hle⟩
    · exact ⟨s, L, by simp [perform, e, Client.move], h, rfl⟩
    · refine ⟨_, L', by rw [perform, e, Option.map_some],
        h.move h' hx hbs hres (hroom.trans hle), ?_⟩
      simp only [Client.move]
      split <;> rfl
  | write a v =>
    obtain ⟨x, hx, h₁, h₂⟩ := hlegal
    exact ⟨_, L, rfl, h.store hx h₁ h₂ v, rfl⟩

end Good

/-- The client after `mm_init`. -/
def start (h : Heap) : Client := ⟨h, [], fun _ => none⟩

end Client

/-- The runs of a client from `mm_init`, with the storage at `base`. -/
def allocator (arith : PtrArith) (base : ℕ) : Machine Client Request where
  init s := ∃ mem h, mmInit (memInit arith base mem) = some (0, h) ∧ s = Client.start h
  step s r s' := s.Legal r ∧ s.perform r = some s'

/-- The request does not call `mm_realloc`. -/
def Request.NoRealloc : Request → Prop
  | .realloc _ _ => False
  | _ => True

instance : DecidablePred Request.NoRealloc := fun r => by
  cases r <;> unfold Request.NoRealloc <;> infer_instance

/-- **The invariant of all sound runs.** -/
theorem allocator_inductive (arith : PtrArith) {base : ℕ} (hbase : 8 ∣ base)
    (hmax : base + maxHeap < 2 ^ 32) :
    (allocator arith base).Inductive (fun s r => s.Sound r)
      fun s => ∃ L, s.Good L ∧ s.heap.arith = arith where
  init := by
    rintro s ⟨mem, h, e, rfl⟩
    obtain ⟨h', e', hM, -, harith⟩ := mmInit_eq arith mem hbase hmax
    obtain rfl : h' = h := by
      rw [e'] at e
      simpa using e
    exact ⟨_, ⟨hM, fun x hx => absurd hx List.not_mem_nil, List.Pairwise.nil,
      fun x hx => absurd hx List.not_mem_nil⟩, harith⟩
  step := by
    rintro s r s' ⟨L, hg, ha⟩ hsound ⟨hlegal, e⟩
    obtain ⟨s₁, L', e', hg', ha'⟩ := hg.serve hlegal hsound
    obtain rfl : s₁ = s' := by
      rw [e'] at e
      simpa using e
    exact ⟨L', hg', ha'.trans ha⟩

/-- With exact addition a request other than `mm_realloc` is always sound. -/
theorem Client.sound_of_exact {s : Client} {r : Request} (ha : s.heap.arith = .exact)
    (hr : r.NoRealloc) : s.Sound r := by
  cases r with
  | malloc size => exact fun _ _ => .of_exact ha _
  | free ptr => trivial
  | realloc ptr size => cases hr
  | write a v => trivial

end SysProgLab
