import SysProgLab.Contract
import SysProgLab.Verdict

/-!
# `mm.c` under the driver

The driver is a client of the allocator: what it asks for, what it remembers in its
arrays and what it fills the payloads with is what a `Client` may rely on (`Drives`). So
`eval_mm_valid` judges `mm.c` valid on every trace whose requests are all sound, unless the
memory runs out (`mm_accepted`).
-/

namespace SysProgLab

/-- A payload is filled with one byte. -/
def Client.fill (s : Client) (p n : ℕ) (v : UInt8) : Client :=
  { s with
    heap := { s.heap with mem := Driver.fill s.heap.mem p n v }
    last := fun a => if p ≤ a ∧ a < p + n then some v else s.last a }

theorem Client.Good.fill {s : Client} {L : Layout} (h : s.Good L) {p n : ℕ} (hx : (p, n) ∈ s.live)
    (v : UInt8) : (s.fill p n v).Good L := by
  obtain ⟨b, hb, hba, hbx, hbs⟩ := h.live _ hx
  have hM := h.models
  have hag : Mem.AgreeOff b.addr (b.stop - 8) s.heap.mem (Driver.fill s.heap.mem p n v) := by
    intro c hc
    refine if_neg fun hin => ?_
    simp only [Block.stop] at hc
    omega
  refine ⟨{ hM with repBy := hM.repBy.payload hb hba hag }, h.live, h.nodup,
    fun y hy c h₁ h₂ w hw => ?_⟩
  simp only [Client.fill, Driver.fill] at hw ⊢
  split at hw
  · next hin =>
    rw [if_pos hin]
    exact Option.some.inj hw
  · next hout =>
    rw [if_neg hout]
    exact h.last y hy c h₁ h₂ w hw

/-- The most that `mm_malloc(size)` extends the heap by. -/
def extension (size : ℕ) : ℕ := max (adjust size) chunksize

namespace Layout

variable {L L' : Layout} {b : Block} {limit n : ℕ}

theorem malloc_brk_le (h : L.malloc limit n = some (b, L')) :
    L'.brk ≤ L.brk + max n chunksize := by
  rw [malloc] at h
  split at h
  · cases h
    rw [place_brk]
    omega
  · dsimp only at h
    split at h
    · cases h
      rw [place_brk, grow_brk]
    · cases h

theorem le_malloc_brk (h : L.malloc limit n = some (b, L')) : L.brk ≤ L'.brk := by
  rw [malloc] at h
  split at h
  · cases h
    rw [place_brk]
  · dsimp only at h
    split at h
    · cases h
      rw [place_brk, grow_brk]
      omega
    · cases h

theorem malloc_hl (h : L.malloc limit n = some (b, L')) : L'.hl = L.hl := by
  rw [malloc] at h
  split at h
  · cases h
    rw [place_hl]
  · dsimp only at h
    split at h
    · cases h
      rw [place_hl, grow_hl]
    · cases h

theorem malloc_eq_none (h : L.malloc limit n = none) :
    2 ^ 31 ≤ max n chunksize ∨ limit < L.brk + max n chunksize := by
  rw [malloc] at h
  split at h
  · cases h
  · dsimp only at h
    split at h
    · cases h
    · omega

end Layout

/-- **`mm_malloc`** refuses only if the extended heap would not fit. -/
theorem Client.Good.malloc_cases {s : Client} {L : Layout} {size : ℕ} (h : s.Good L)
    (h0 : size ≠ 0) (hsize : size < 2 ^ 31) (hsound : ExtendsOk s.heap size) :
    (mmMalloc s.heap size = some (0, s.heap) ∧
        (2 ^ 31 ≤ extension size ∨ s.heap.memMaxAddr < s.heap.memBrk + extension size)) ∨
      ∃ p h' L', mmMalloc s.heap size = some (p, h') ∧ p ≠ 0 ∧ (s.gain size p h').Good L' ∧
        h'.memBrk ≤ s.heap.memBrk + extension size ∧ h'.memMaxAddr = s.heap.memMaxAddr ∧
        h'.memStartBrk = s.heap.memStartBrk ∧ h'.arith = s.heap.arith := by
  have hm := h.malloc h0 hsize hsound
  rw [h.models.brk, extension]
  cases hmal : L.malloc s.heap.memMaxAddr (adjust size) with
  | none =>
    rw [hmal] at hm
    exact .inl ⟨hm, Layout.malloc_eq_none hmal⟩
  | some x =>
    rw [hmal] at hm
    obtain ⟨h', e, hg, hne, ha, hlimit⟩ := hm
    have hbrk : h'.memBrk = x.2.brk := by
      have hb := hg.models.brk
      rwa [Client.gain, if_neg hne] at hb
    have hstart : h'.memStartBrk = x.2.hl := by
      have hs := hg.models.start
      rwa [Client.gain, if_neg hne] at hs
    refine .inr ⟨x.1.addr, h', x.2, e, hne, hg, ?_, hlimit, ?_, ha⟩
    · rw [hbrk]
      exact Layout.malloc_brk_le hmal
    · rw [hstart, h.models.start]
      exact Layout.malloc_hl hmal

namespace Driver

/-- The byte that the payload of the block `id` is filled with. -/
def fillByte (id : ℤ) : UInt8 := UInt8.ofNat (lowByte id).toNat

/-- **The driver as a client**: the client holds the payloads that the driver remembers,
with the sizes that it asked for, filled as the driver has filled them. -/
structure Drives (e : Eval mm) (ids : List ℤ) (c : Client) (L : Layout) : Prop where
  good : c.Good L
  heap : c.heap = e.state
  live : c.live = ids.map fun id => (e.block id, e.blockSize id)
  filled : ∀ id ∈ ids, ∀ a, e.block id ≤ a → a < e.block id + e.blockSize id →
    c.last a = some (fillByte id)
  certified : Certified e ids

/-- The request is one that `mm.c` serves as specified: no sum with `mem_brk` wraps, and
`mm_realloc` meets its condition, with an index that passes the check. -/
def Sound (e : Eval mm) (op : Op) : Prop :=
  match op.type with
  | .alloc => Client.ExtendsOk e.state (toSize op.size)
  | .realloc => lowByte op.index < 128 ∧
      ReallocOk (mm.mem e.state) (e.block op.index) (toSize op.size) ∧
      (ReallocMoves (mm.mem e.state) (e.block op.index) (toSize op.size) →
        Client.ExtendsOk e.state (toSize op.size))
  | .free => True

instance (e : Eval mm) : DecidablePred (Sound e) := fun op =>
  let decAlloc (h : Heap) (n : ℕ) : Decidable (Client.ExtendsOk h n) := inferInstance
  match op with
  | ⟨.alloc, _, size⟩ => decAlloc e.state (toSize size)
  | ⟨.realloc, index, size⟩ =>
    have := decAlloc e.state (toSize size)
    inferInstanceAs (Decidable (lowByte index < 128 ∧
      ReallocOk (mm.mem e.state) (e.block index) (toSize size) ∧
      (ReallocMoves (mm.mem e.state) (e.block index) (toSize size) →
        Client.ExtendsOk e.state (toSize size))))
  | ⟨.free, _, _⟩ => isTrue trivial

/-- The evaluation ends at the request `op`, for which there is no memory left. -/
def OutOfMemory (opnum : ℕ) (op : Op) (r : Except Failure (Eval mm)) : Prop :=
  op.type = .alloc ∧ r = .error (.error opnum .mallocFailed) ∨
    op.type = .realloc ∧ r = .error (.error opnum .reallocFailed)

theorem OutOfMemory.bind {opnum : ℕ} {op : Op} {r : Except Failure (Eval mm)}
    {f : Eval mm → Except Failure (Eval mm)} (h : OutOfMemory opnum op r) :
    OutOfMemory opnum op (r >>= f) := by
  obtain ⟨htype, rfl⟩ | ⟨htype, rfl⟩ := h
  · exact .inl ⟨htype, rfl⟩
  · exact .inr ⟨htype, rfl⟩

/-- Every request is sound when it is made. -/
def SoundRun : ℕ → Eval mm → List Op → Prop
  | _, _, [] => True
  | opnum, e, op :: ops =>
    Sound e op ∧ match validStep opnum e op with
      | .ok e' => SoundRun (opnum + 1) e' ops
      | .error _ => True

instance : ∀ opnum e ops, Decidable (SoundRun opnum e ops)
  | _, _, [] => isTrue trivial
  | opnum, e, op :: ops => by
    rw [SoundRun]
    have := fun e' => instDecidableSoundRun (opnum + 1) e' ops
    cases validStep opnum e op <;> infer_instance

/-- Every request of the trace is sound when it is made. -/
def Trace.Sound (t : Trace) (s : Heap) : Prop :=
  match start (P := mm) t s (.error 0 .initFailed) with
  | .ok e => SoundRun 0 e t.ops
  | .error _ => True

instance (t : Trace) (s : Heap) : Decidable (t.Sound s) := by
  unfold Trace.Sound
  cases start (P := mm) t s (.error 0 .initFailed) <;> infer_instance

/-- What the request may extend the heap by. -/
def Op.demand (op : Op) : ℕ := if op.type = .alloc then extension (toSize op.size) else 0

/-- What the requests may extend the heap by. -/
def demand (ops : List Op) : ℕ := (ops.map Op.demand).sum

theorem demand_cons (op : Op) (ops : List Op) : demand (op :: ops) = op.demand + demand ops :=
  List.sum_cons

theorem Op.demand_alloc (op : Op) (h : op.type = .alloc) :
    op.demand = extension (toSize op.size) := if_pos h

namespace Drives

variable {e : Eval mm} {ids : List ℤ} {c c' : Client} {L L' : Layout} {id : ℤ} {op : Op}
  {p n k : ℕ}

/-- A payload that the client has just gained joins the ranges. -/
theorem joins (h : c.Good L) (hcert : Certified e ids) (hheap : c.heap = e.state)
    (hlive : c.live = (p, op.size.toNat) :: ids.map fun id => (e.block id, e.blockSize id))
    (hpos : 0 < op.size) : Joins (mm.heapLo e.state) (mm.brk e.state) e.ranges p op.size := by
  have hc := h.contract
  have hmem : (p, op.size.toNat) ∈ c.live := hlive ▸ List.mem_cons_self ..
  obtain ⟨hlo, hhi⟩ := hc.within _ hmem
  have hstart : c.heap.memStartBrk ≤ p := by
    have hs := h.models.start
    have hb := h.models.blk
    dsimp only at hlo
    omega
  rw [hheap] at hhi hstart
  refine ⟨hpos, hc.aligned _ hmem, ⟨hstart, hhi⟩, fun r hr => ?_⟩
  rw [hcert.ranges] at hr
  obtain ⟨x, hx, rfl⟩ := List.mem_map.mp hr
  have hdisj := hc.disjoint
  rw [hlive] at hdisj
  have hx' := (List.pairwise_cons.mp hdisj).1 _ (List.mem_map_of_mem hx)
  have hx0 := (hcert.sized x hx).1
  simp only [Range.Apart, Eval.payload]
  omega

/-- **The driver remembers what the client has gained.** -/
theorem remember {check : Except Failure PUnit} (h : c.Good L) (hcert : Certified e ids)
    (hheap : c.heap = e.state)
    (hlive : c.live = (p, op.size.toNat) :: ids.map fun id => (e.block id, e.blockSize id))
    (hfilled : ∀ id ∈ ids, ∀ a, e.block id ≤ a → a < e.block id + e.blockSize id →
      ¬(p ≤ a ∧ a < p + op.size.toNat) → c.last a = some (fillByte id))
    (hpos : 0 < op.size) (hint : op.size < 2 ^ 31) (hnew : op.index ∉ ids)
    (hbounds : 0 ≤ op.index ∧ op.index.toNat < e.blocks.length ∧
      op.index.toNat < e.blockSizes.length) (hcheck : check = .ok ⟨⟩) :
    ∃ e', e.remember k op p check = .ok e' ∧
      Drives e' (op.index :: ids) (c.fill p op.size.toNat (fillByte op.index)) L := by
  have hj := joins h hcert hheap hlive hpos
  obtain ⟨e', he'⟩ : ∃ e', e.remember k op p check = .ok e' :=
    ⟨_, (remember_eq_ok hcert.ranges_ne).mpr ⟨hj, hcheck, hbounds, rfl⟩⟩
  obtain ⟨hcert', hp, hsize, hold⟩ := hcert.remember hnew hint he'
  obtain ⟨-, -, -, heq⟩ := (remember_eq_ok hcert.ranges_ne).mp he'
  have hmem : (p, op.size.toNat) ∈ c.live := hlive ▸ List.mem_cons_self ..
  refine ⟨e', he', h.fill hmem _, ?_, ?_, ?_, hcert'⟩
  · rw [heq, Client.fill, hheap]
    rfl
  · rw [List.map_cons, hp, hsize]
    refine hlive.trans (congrArg _ (List.map_congr_left fun x hx => ?_))
    rw [(hold x hx).1, (hold x hx).2]
  · refine List.forall_mem_cons.mpr ⟨fun a h₁ h₂ => ?_, fun x hx a h₁ h₂ => ?_⟩
    · rw [hp] at h₁ h₂
      rw [hsize] at h₂
      exact if_pos ⟨h₁, h₂⟩
    · rw [(hold x hx).1] at h₁ h₂
      rw [(hold x hx).2] at h₂
      -- the payloads are disjoint
      have hdisj := h.contract.disjoint
      rw [hlive] at hdisj
      have hx' := (List.pairwise_cons.mp hdisj).1 _ (List.mem_map_of_mem hx)
      have hout : ¬(p ≤ a ∧ a < p + op.size.toNat) := by
        dsimp only at hx'
        omega
      exact (if_neg hout).trans (hfilled x hx a h₁ h₂ hout)

/-- The client after a `mm_malloc` that did not fail. -/
theorem gain_eq {n : ℕ} {s : Heap} (h0 : p ≠ 0) :
    (c.gain n p s).heap = s ∧ (c.gain n p s).live = (p, n) :: c.live ∧
      ∀ a, ¬(p ≤ a ∧ a < p + n) → (c.gain n p s).last a = c.last a := by
  rw [Client.gain, if_neg h0]
  exact ⟨rfl, rfl, fun a ha => if_neg ha⟩

/-- The payloads that stay live when the block `id` is given back. -/
theorem live_drop (h : Drives e ids c L) (hid : id ∈ ids) :
    (c.live.filter fun x => x.1 ≠ e.block id) =
      (ids.erase id).map fun id => (e.block id, e.blockSize id) := by
  rw [h.live, List.filter_map, h.certified.nodup.erase_eq_filter]
  congr 1
  refine List.filter_congr fun x hx => ?_
  simp only [Function.comp_apply, decide_not, bne, Bool.not_eq_eq_eq_not, Bool.not_not]
  rw [Bool.eq_iff_iff, decide_eq_true_eq, beq_iff_eq]
  exact ⟨h.certified.block_inj hx hid, fun hx => by rw [hx]⟩

/-- The client after a `mm_realloc` that did not fail. -/
theorem move_eq {q n : ℕ} {s : Heap} (h0 : q ≠ 0) :
    (c.move p n q s).heap = s ∧ (c.move p n q s).live = (q, n) :: c.live.filter (·.1 ≠ p) ∧
      (∀ j < min n (c.sizeAt p), (c.move p n q s).last (q + j) = c.last (p + j)) ∧
      ∀ a, ¬(q ≤ a ∧ a < q + n) → (c.move p n q s).last a = c.last a := by
  rw [Client.move, if_neg h0]
  refine ⟨rfl, rfl, fun j hj => ?_, fun a ha => if_neg ha⟩
  dsimp only
  rw [if_pos (by omega), if_pos (by omega), Nat.add_sub_cancel_left]

/-- `mm_malloc` for the driver. -/
theorem alloc (h : Drives e ids c L) (htype : op.type = .alloc) (hlegal : op.Legal ids)
    (hin : op.InBounds n) (hn : e.blocks.length = n ∧ e.blockSizes.length = n)
    (hsound : Client.ExtendsOk c.heap (toSize op.size)) :
    (∃ e' c' L', validStep k e op = .ok e' ∧ Drives e' (op.index :: ids) c' L' ∧
        c'.heap.memBrk ≤ c.heap.memBrk + extension (toSize op.size) ∧
        c'.heap.memMaxAddr = c.heap.memMaxAddr ∧ c'.heap.arith = c.heap.arith) ∨
      validStep k e op = .error (.error k .mallocFailed) ∧
        (2 ^ 31 ≤ extension (toSize op.size) ∨
          c.heap.memMaxAddr < c.heap.memBrk + extension (toSize op.size)) := by
  obtain ⟨hint, hnew⟩ := hlegal
  obtain ⟨hbounds, hpos⟩ := hin
  simp only [htype] at hnew
  have hpos := hpos (by simp [htype])
  have hsize := toSize_eq hpos hint
  rcases h.good.malloc_cases (by omega) (by omega) hsound with
    ⟨hm, hfull⟩ | ⟨p, s, L', hm, h0, hg, hbrk, hlimit, -, harith⟩
  · right
    rw [h.heap] at hm
    refine ⟨?_, hfull⟩
    simp only [validStep, htype, bind_eq_error, ensure_eq_error, orStop_eq_ok]
    exact .inr ⟨(0, _), hm, .inl ⟨fun h => h rfl, trivial⟩⟩
  · left
    rw [h.heap] at hm
    let e₁ : Eval mm := { e with state := s }
    obtain ⟨hheap, hlive, hlast⟩ := gain_eq (c := c) (s := s) (n := toSize op.size) h0
    rw [hsize] at hlive hlast hheap hg
    obtain ⟨hnd, hk, hs, ha, hp, hr⟩ := h.certified
    obtain ⟨e', he', hd⟩ := remember (e := e₁) (k := k) hg ⟨hnd, hk, hs, ha, hp, hr⟩ hheap
      (hlive.trans (congrArg _ h.live))
      (fun x hx a h₁ h₂ hout => (hlast a hout).trans (h.filled x hx a h₁ h₂))
      hpos hint hnew ⟨hbounds.1, hn.1 ▸ hbounds.2, hn.2 ▸ hbounds.2⟩ rfl
    refine ⟨e', _, L', ?_, hd, ?_⟩
    · simp only [validStep, htype, bind_eq_ok, ensure_eq_ok, exists_const, orStop_eq_ok]
      exact ⟨(p, s), hm, h0, he'⟩
    · simp only [Client.fill, hheap]
      exact ⟨hbrk, hlimit, harith⟩

/-- `mm_free` for the driver. -/
theorem free (h : Drives e ids c L) (htype : op.type = .free) (hlegal : op.Legal ids) :
    ∃ e' c' L', validStep k e op = .ok e' ∧ Drives e' (ids.erase op.index) c' L' ∧
      c'.heap.memBrk = c.heap.memBrk ∧ c'.heap.memMaxAddr = c.heap.memMaxAddr ∧
      c'.heap.arith = c.heap.arith := by
  obtain ⟨-, hid⟩ := hlegal
  simp only [htype] at hid
  have hcert := h.certified
  have hx : (e.block op.index, e.blockSize op.index) ∈ c.live :=
    h.live ▸ List.mem_map_of_mem hid
  obtain ⟨b, hb, hba, hbx, -⟩ := h.good.live _ hx
  dsimp only at hbx
  obtain ⟨s, hm, hg, harith, hlimit⟩ := h.good.free hb hba
  rw [h.heap] at hm
  rw [hbx] at hm hg
  have hbrk : s.memBrk = L.brk := hg.models.brk
  refine ⟨{ e with state := s, ranges := removeRange e.ranges (e.block op.index) }, _, _, ?_,
    ⟨hg, rfl, h.live_drop hid, fun x hx => h.filled x (List.mem_of_mem_erase hx),
      hcert.drop hid s⟩, hbrk.trans h.good.models.brk.symm, hlimit, harith⟩
  simp only [validStep, htype, bind_eq_ok, orStop_eq_ok, pure_eq_ok]
  exact ⟨_, (load_of_known hcert hid).1, s, hm, rfl⟩

/-- `mm_realloc` for the driver. -/
theorem realloc (h : Drives e ids c L) (htype : op.type = .realloc) (hlegal : op.Legal ids)
    (hin : op.InBounds n) (hn : e.blocks.length = n ∧ e.blockSizes.length = n) (hsound : Sound e op) :
    (∃ e' c' L', validStep k e op = .ok e' ∧
        Drives e' (op.index :: ids.erase op.index) c' L') ∨
      validStep k e op = .error (.error k .reallocFailed) := by
  obtain ⟨hint, hid⟩ := hlegal
  obtain ⟨hbounds, hpos⟩ := hin
  simp only [htype] at hid
  simp only [Sound, htype, ← h.heap] at hsound
  obtain ⟨hlow, hsound⟩ := hsound
  have hpos := hpos (by simp [htype])
  have hsize := toSize_eq hpos hint
  have hcert := h.certified
  have hload := load_of_known hcert hid
  have hx : (e.block op.index, e.blockSize op.index) ∈ c.live :=
    h.live ▸ List.mem_map_of_mem hid
  obtain ⟨c', L', hp, hg, -⟩ := h.good.serve
    (r := .realloc (e.block op.index) (toSize op.size))
    ⟨by omega, by omega, _, hx, rfl⟩ hsound
  obtain ⟨⟨q, s⟩, hm, rfl⟩ := Option.map_eq_some_iff.mp hp
  have hm' : mm.realloc e.state (e.block op.index) (toSize op.size) = some (q, s) := h.heap ▸ hm
  by_cases h0 : q = 0
  · right
    simp only [validStep, htype, bind_eq_error, ensure_eq_error, orStop_eq_ok]
    exact .inr ⟨_, hload.1, .inr ⟨(q, s), hm', .inl ⟨fun h => h h0, trivial⟩⟩⟩
  · left
    let e₁ : Eval mm :=
      { e with state := s, ranges := removeRange e.ranges (e.block op.index) }
    obtain ⟨hheap, hlive, hmoved, hout⟩ :=
      move_eq (c := c) (p := e.block op.index) (s := s) (n := toSize op.size) h0
    dsimp only at hg
    rw [hsize] at hlive hmoved hout hheap hg
    have hcheck : (do
        let oldsize ← load e.blockSizes op.index
        ensure (preserved (mm.mem s) q (min op.size (toInt32 oldsize)) op.index = true)
          (Failure.error k .notPreserved)) = .ok ⟨⟩ := by
      refine bind_eq_ok.mpr ⟨_, hload.2, ensure_eq_ok.mpr (preserved_iff.mpr fun j hj => ?_)⟩
      rw [toInt32_blockSize hcert hid] at hj
      have hlast : c.last (e.block op.index + j) = some (fillByte op.index) :=
        h.filled _ hid _ (by omega) (by omega)
      rw [← hmoved j (by rw [h.good.sizeAt_eq hx]; omega)] at hlast
      have hmem : (q, op.size.toNat) ∈ (c.move (e.block op.index) op.size.toNat q s).live :=
        hlive ▸ List.mem_cons_self ..
      exact ⟨hlow, hheap ▸ hg.last _ hmem _ (by omega) (by dsimp only; omega) _ hlast⟩
    obtain ⟨e', he', hd⟩ := remember (e := e₁) (k := k) hg (hcert.drop hid s) hheap
      (hlive.trans (congrArg _ (h.live_drop hid)))
      (fun x hx a h₁ h₂ ha => (hout a ha).trans (h.filled x (List.mem_of_mem_erase hx) a h₁ h₂))
      hpos hint hcert.nodup.not_mem_erase
      ⟨hbounds.1, hn.1 ▸ hbounds.2, hn.2 ▸ hbounds.2⟩ hcheck
    refine ⟨e', _, L', ?_, hd⟩
    simp only [validStep, htype, bind_eq_ok, ensure_eq_ok, exists_const, orStop_eq_ok]
    exact ⟨_, hload.1, (q, s), hm', h0, he'⟩

/-- **One sound request** is accepted, unless the memory runs out. -/
theorem step (h : Drives e ids c L) (hlegal : op.Legal ids) (hin : op.InBounds n)
    (hn : e.blocks.length = n ∧ e.blockSizes.length = n) (hsound : Sound e op) :
    (∃ e' c' L', validStep k e op = .ok e' ∧ Drives e' (op.after ids) c' L') ∨
      OutOfMemory k op (validStep k e op) := by
  cases htype : op.type with
  | alloc =>
    simp only [Sound, htype, ← h.heap] at hsound
    simp only [Op.after, htype]
    rcases h.alloc htype hlegal hin hn hsound with ⟨e', c', L', hs, hd, -⟩ | ⟨hs, -⟩
    · exact .inl ⟨e', c', L', hs, hd⟩
    · exact .inr (.inl ⟨htype, hs⟩)
  | realloc =>
    simp only [Op.after, htype]
    rcases h.realloc htype hlegal hin hn hsound with hd | hs
    · exact .inl hd
    · exact .inr (.inr ⟨htype, hs⟩)
  | free =>
    simp only [Op.after, htype]
    obtain ⟨e', c', L', hs, hd, -⟩ := h.free (k := k) htype hlegal
    exact .inl ⟨e', c', L', hs, hd⟩

/-- **The sound requests** are accepted, unless the memory runs out. -/
theorem loop {ops : List Op} : ∀ {k : ℕ} {e : Eval mm} {ids : List ℤ} {c : Client} {L : Layout},
    Drives e ids c L → LegalOps ids ops → (∀ op ∈ ops, op.InBounds n) →
    e.blocks.length = n ∧ e.blockSizes.length = n → SoundRun k e ops →
    (∃ e', validLoop k e ops = .ok e') ∨
      ∃ j op, ops[j]? = some op ∧ OutOfMemory (k + j) op (validLoop k e ops) := by
  induction ops with
  | nil => exact fun {_ e _ _ _} _ _ _ _ _ => .inl ⟨e, rfl⟩
  | cons op ops ih =>
    intro k e ids c L h hlegal hin hn hsound
    rcases h.step (k := k) hlegal.1 (hin op (List.mem_cons_self ..)) hn hsound.1 with
      ⟨e₁, c₁, L₁, hs, hd⟩ | hfail
    · have hlen := validStep_length hs
      have hrest := hsound.2
      rw [hs] at hrest
      have hloop : validLoop k e (op :: ops) = validLoop (k + 1) e₁ ops := by
        rw [validLoop, hs]
        rfl
      rw [hloop]
      rcases ih hd hlegal.2 (fun o ho => hin o (List.mem_cons_of_mem _ ho))
        ⟨hlen.1.trans hn.1, hlen.2.trans hn.2⟩ hrest with hok | ⟨j, o, ho, hfail⟩
      · exact .inl hok
      · refine .inr ⟨j + 1, o, ho, ?_⟩
        rwa [Nat.add_assoc, Nat.add_comm 1] at hfail
    · refine .inr ⟨0, op, rfl, ?_⟩
      rw [validLoop]
      exact hfail.bind

/-- **The requests that the memory suffices for** are accepted, whatever the pointer
arithmetic. -/
theorem fits {ops : List Op} : ∀ {k : ℕ} {e : Eval mm} {ids : List ℤ} {c : Client} {L : Layout},
    Drives e ids c L → LegalOps ids ops → (∀ op ∈ ops, op.InBounds n ∧ op.type ≠ .realloc) →
    e.blocks.length = n ∧ e.blockSizes.length = n → demand ops < 2 ^ 31 →
    c.heap.memBrk + demand ops ≤ c.heap.memMaxAddr → ∃ e', validLoop k e ops = .ok e' := by
  induction ops with
  | nil => exact fun {_ e _ _ _} _ _ _ _ _ _ => ⟨e, rfl⟩
  | cons op ops ih =>
    intro k e ids c L h hlegal hin hn hlt hroom
    obtain ⟨hin₀, hin⟩ := List.forall_mem_cons.mp hin
    have hmax := h.good.models.max_lt
    rw [demand_cons] at hlt hroom
    have hgo : ∀ {e₁ : Eval mm} {c₁ : Client} {L₁ : Layout}, validStep k e op = .ok e₁ →
        Drives e₁ (op.after ids) c₁ L₁ → c₁.heap.memBrk + demand ops ≤ c₁.heap.memMaxAddr →
        ∃ e', validLoop k e (op :: ops) = .ok e' := by
      intro e₁ c₁ L₁ hs hd hroom₁
      have hlen := validStep_length hs
      obtain ⟨e', he'⟩ := ih (k := k + 1) hd hlegal.2 hin
        ⟨hlen.1.trans hn.1, hlen.2.trans hn.2⟩ (by omega) hroom₁
      exact ⟨e', bind_eq_ok.mpr ⟨e₁, hs, he'⟩⟩
    cases htype : op.type with
    | alloc =>
      rw [op.demand_alloc htype] at hlt hroom
      have hsound : Client.ExtendsOk c.heap (toSize op.size) :=
        fun _ _ => .of_lt (by rw [← extension]; omega)
      rcases h.alloc (k := k) htype hlegal.1 hin₀.1 hn hsound with
        ⟨e₁, c₁, L₁, hs, hd, hbrk, hlimit, -⟩ | ⟨-, hfull⟩
      · refine hgo hs (by simpa only [Op.after, htype] using hd) ?_
        omega
      · omega
    | realloc => exact absurd htype hin₀.2
    | free =>
      obtain ⟨e₁, c₁, L₁, hs, hd, hbrk, hlimit, -⟩ := h.free (k := k) htype hlegal.1
      refine hgo hs (by simpa only [Op.after, htype] using hd) ?_
      omega

end Drives

section

variable {t : Trace} {s : Heap} {base : ℕ}

/-- The driver starts on the initial layout, whatever the heap held before. -/
theorem mm_start (hstart : s.memStartBrk = base) (hlimit : s.memMaxAddr = base + maxHeap)
    (hbase : 8 ∣ base) (hmax : base + maxHeap < 2 ^ 32) (failed : Failure) :
    ∃ h, start (P := mm) t s failed = .ok ⟨h, [], t.blocks, t.blockSizes⟩ ∧
      Drives ⟨h, [], t.blocks, t.blockSizes⟩ [] (Client.start h) (initLayout base) ∧
      h.memBrk = base + 112 + chunksize ∧ h.memMaxAddr = base + maxHeap := by
  obtain ⟨h, e, hM, hlim, -⟩ := mmInit_reset hstart hlimit hbase hmax
  have hok : start (P := mm) t s failed = .ok ⟨h, [], t.blocks, t.blockSizes⟩ := by
    simp only [start, bind_eq_ok, orStop_eq_ok, ensure_eq_ok, exists_const, pure_eq_ok]
    exact ⟨(0, h), e, le_refl _, rfl⟩
  have hnil : ∀ {x : ℤ}, x ∉ ([] : List ℤ) := List.not_mem_nil
  refine ⟨h, hok, ⟨⟨hM, fun x hx => absurd hx List.not_mem_nil, List.Pairwise.nil,
    fun x hx => absurd hx List.not_mem_nil⟩, rfl, rfl, fun id hid => absurd hid hnil,
    start_certified hok⟩, ?_, hlim⟩
  rw [hM.brk, initLayout, Layout.grow_brk]
  rfl

/-- **`mm.c` under `eval_mm_valid`**: a proper trace whose requests are all sound is judged
valid, or ends at a request for which there is no memory left; it is never found
misaligned, out of the heap, overlapping or not preserved. -/
theorem mm_accepted (hstart : s.memStartBrk = base) (hlimit : s.memMaxAddr = base + maxHeap)
    (hbase : 8 ∣ base) (hmax : base + maxHeap < 2 ^ 32) (ht : t.Proper)
    (hsound : t.Sound s) :
    (∃ e, evalMmValid (P := mm) t s = .ok e) ∨
      ∃ k op, t.ops[k]? = some op ∧ OutOfMemory k op (evalMmValid t s) := by
  obtain ⟨h, hok, hd, -⟩ :=
    mm_start (t := t) hstart hlimit hbase hmax (.error 0 .initFailed)
  have heval : evalMmValid (P := mm) t s = validLoop 0 ⟨h, [], t.blocks, t.blockSizes⟩ t.ops :=
    congrArg (· >>= fun e => validLoop 0 e t.ops) hok
  rw [heval]
  rw [Trace.Sound, hok] at hsound
  have hloop := hd.loop ht.legal ht.inBounds ⟨ht.blocks, ht.blockSizes⟩ hsound
  simpa only [Nat.zero_add] using hloop

/-- The block 0 grows in place into the rest of the heap, and then has to move. -/
def movingTrace : Trace where
  suggHeapsize := 0
  numIds := 2
  numOps := 5
  weight := 1
  ops := [⟨.alloc, 0, 100⟩, ⟨.realloc, 0, 200⟩, ⟨.alloc, 1, 8⟩, ⟨.realloc, 0, 400⟩, ⟨.free, 1, 0⟩]
  blocks := [0, 0]
  blockSizes := [0, 0]

theorem mm_accepted_moving :
    (∃ e, evalMmValid (P := mm) movingTrace (memInit .wrap32 1024 fun _ => 0) = .ok e) ∨
      ∃ k op, movingTrace.ops[k]? = some op ∧
        OutOfMemory k op (evalMmValid movingTrace (memInit .wrap32 1024 fun _ => 0)) :=
  mm_accepted rfl rfl (by decide) (by decide) ⟨rfl, rfl, by decide, by decide⟩ (by decide +kernel)

/-- **A trace that the memory suffices for** is judged valid: it only allocates and frees,
and the heap could grow at every allocation. -/
theorem mm_valid (hstart : s.memStartBrk = base) (hlimit : s.memMaxAddr = base + maxHeap)
    (hbase : 8 ∣ base) (hmax : base + maxHeap < 2 ^ 32) (ht : t.Proper)
    (hno : ∀ op ∈ t.ops, op.type ≠ .realloc)
    (hroom : 112 + chunksize + demand t.ops ≤ maxHeap) : ∃ e, evalMmValid (P := mm) t s = .ok e := by
  obtain ⟨h, hok, hd, hbrk, hlim⟩ :=
    mm_start (t := t) hstart hlimit hbase hmax (.error 0 .initFailed)
  have hlt : maxHeap < 2 ^ 31 := by decide
  obtain ⟨e, he⟩ := hd.fits (k := 0) ht.legal (fun op hop => ⟨ht.inBounds op hop, hno op hop⟩)
    ⟨ht.blocks, ht.blockSizes⟩ (by omega) (by simp only [Client.start]; omega)
  exact ⟨e, bind_eq_ok.mpr ⟨_, hok, he⟩⟩

theorem mm_valid_balanced :
    ∃ e, evalMmValid (P := mm) balancedTrace (memInit .wrap32 0xF6000000 fun _ => 7) = .ok e :=
  mm_valid rfl rfl (by decide) (by decide) ⟨rfl, rfl, by decide, by decide⟩ (by decide) (by decide)

end

end Driver

end SysProgLab
