import SysProgLab.Contract
import SysProgLab.HeapStores
import SysProgLab.MmCheck

/-!
# What `mm_check` says of the heaps that the allocator makes

The words that `mm_check` takes for the headers of the roots are never stored, by `mm_init`
or later, so they hold what the memory held at first. If all of them are even, `mm_check`
is exact, on the heaps that the allocator makes and on those with other allocation bits
or links. If one of them is odd it returns -1 whatever the heap.
-/

namespace SysProgLab

/-- The runs of a client from `mm_init` on memory that holds `mem` at first. -/
def allocatorOn (base : ℕ) (mem : Mem) : Machine Client Request where
  init s := ∃ h, mmInit (memInit .exact base mem) = some (0, h) ∧ s = Client.start h
  step := (allocator .exact base).step

/-- The block list ends and meets `bs`, and the free lists end and link `segs`. -/
structure Lists (h : Heap) (m : Mem) (bs : List Block) (segs : ℕ → List ℕ) : Prop where
  blocks : ∃ e, Walk m h.blkStart bs e
  segs : ∀ i < nSeglist, Linked m (rootAddr h.heapListp i) (segs i)

/-- The memory `m` differs from that of the heap with the blocks `bs` in allocation bits, in
links, or not at all: sizes are as they were, and so are the words before the roots, which
are neither tags nor links. -/
structure Altered (h : Heap) (bs : List Block) (m : Mem) : Prop where
  sizes : ∀ b ∈ bs ++ [epilogue h.memBrk], m.getSize (hdrp b.addr) = b.size
  roots : ∀ i < nSeglist,
    m.get (hdrp (rootAddr h.heapListp i)) = h.mem.get (hdrp (rootAddr h.heapListp i))

variable {h h' : Heap} {L : Layout} {m : Mem} {b : Block} {bs : List Block} {segs : ℕ → List ℕ}
  {base p q size : ℕ}

/-! ## Altered heaps -/

namespace Heap.Models

/-- Blocks and the epilogue are aligned and lie behind the roots. -/
theorem dvd_addr (hL : h.Models L) (hb : b ∈ L.blocks ++ [epilogue h.memBrk]) :
    8 ∣ b.addr ∧ L.hl + 112 ≤ b.addr ∧ b.stop < 2 ^ 32 ∧ 8 ∣ b.size := by
  have hrep := hL.repBy.rep
  rcases List.mem_append.mp hb with hb | hb
  · exact ⟨hrep.dvd_addr hb, (hrep.bounds hb).1, hrep.addr_lt hb, (hrep.valid b hb).dvd⟩
  · obtain rfl := List.mem_singleton.mp hb
    rw [hL.brk]
    exact ⟨hrep.tiles.dvd_end (Nat.dvd_add hrep.base_dvd (by decide)) fun c hc =>
      (hrep.valid c hc).dvd, hrep.tiles.le, hrep.brk_lt, ⟨0, rfl⟩⟩

/-- Behind a block there is a block or the epilogue. -/
theorem stop_mem (hL : h.Models L) (hb : b ∈ L.blocks ++ [epilogue h.memBrk]) :
    ∃ c ∈ L.blocks ++ [epilogue h.memBrk], c.addr = b.stop := by
  rcases List.mem_append.mp hb with hb | hb
  · obtain ⟨l, r, hbs⟩ := List.append_of_mem hb
    have hrep := hL.repBy.rep
    rw [hbs] at hrep ⊢
    rw [hL.brk]
    refine ⟨nextOf L.brk r, ?_, hrep.next.1⟩
    cases r with
    | nil => exact List.mem_append_right _ (List.mem_singleton_self _)
    | cons c r => simp [nextOf]
  · refine ⟨b, List.mem_append_right _ hb, ?_⟩
    obtain rfl := List.mem_singleton.mp hb
    rfl

/-- The first block, or the epilogue. -/
theorem start_mem (hL : h.Models L) :
    ∃ c ∈ L.blocks ++ [epilogue h.memBrk], c.addr = h.blkStart := by
  have htiles := hL.repBy.rep.tiles
  rw [hL.blk, hL.brk]
  cases hbs : L.blocks with
  | nil =>
    rw [hbs] at htiles
    exact ⟨epilogue L.brk, List.mem_singleton_self _, htiles.symm⟩
  | cons b bs =>
    rw [hbs] at htiles
    exact ⟨b, List.mem_cons_self, htiles.1⟩

end Heap.Models

namespace Altered

theorem refl (hL : h.Models L) : Altered h L.blocks h.mem where
  sizes b hb := by
    rcases List.mem_append.mp hb with hb | hb
    · exact hL.repBy.rep.getSize_hdrp hb
    · obtain rfl := List.mem_singleton.mp hb
      rw [hL.brk]
      exact getSize_of_tag ⟨0, rfl⟩ hL.repBy.rep.epi
  roots := fun _ _ => rfl

/-- The allocation bit in the header of a block or of the epilogue is changed. -/
theorem put_tag (hL : h.Models L) (ha : Altered h L.blocks m)
    (hb : b ∈ L.blocks ++ [epilogue h.memBrk]) (alloc : Bool) :
    Altered h L.blocks (m.put (hdrp b.addr) (pack b.size alloc.toNat)) := by
  obtain ⟨hb8, hbge, hblt, hbs⟩ := hL.dvd_addr hb
  refine ⟨fun c hc => ?_, fun i hi => ?_⟩
  · by_cases hcb : c.addr = b.addr
    · have hsize := ha.sizes c hc
      rw [hcb, ha.sizes b hb] at hsize
      have halloc : alloc.toNat < 8 := by cases alloc <;> decide
      rw [hcb, Mem.getSize, Mem.get_put_self, pack_eq hbs halloc, ← hsize]
      simp only [Block.stop] at hblt
      omega
    · obtain ⟨hc8, hcge, -⟩ := hL.dvd_addr hc
      rw [Mem.getSize, Mem.get_put_disjoint _ (by simp only [hdrp, wsize]; omega)]
      exact ha.sizes c hc
  · rw [Mem.get_put_disjoint _ ?_]
    · exact ha.roots i hi
    · rw [hL.listp]
      simp only [hdrp, wsize, rootAddr, dsize, nSeglist] at *
      omega

/-- A word is stored that is no header and not before a root: a footer or a link. -/
theorem put_link (ha : Altered h L.blocks m) (v : ℕ)
    (hhdr : ∀ b ∈ L.blocks ++ [epilogue h.memBrk], hdrp b.addr + 4 ≤ p ∨ p + 4 ≤ hdrp b.addr)
    (hroot : ∀ i < nSeglist, hdrp (rootAddr h.heapListp i) + 4 ≤ p ∨
      p + 4 ≤ hdrp (rootAddr h.heapListp i)) : Altered h L.blocks (m.put p v) where
  sizes b hb := by
    rw [Mem.getSize, Mem.get_put_disjoint _ (hhdr b hb)]
    exact ha.sizes b hb
  roots i hi := by
    rw [Mem.get_put_disjoint _ (hroot i hi)]
    exact ha.roots i hi

/-- A block is unlinked, the links of which lead to roots and blocks. -/
theorem unlink (hL : h.Models L) (ha : Altered h L.blocks m)
    (hpv : (∃ i < nSeglist, rootAddr h.heapListp i = m.get (p + 4)) ∨
      ∃ c ∈ L.blocks, c.addr = m.get (p + 4))
    (hnx : m.get p ≠ 0 → ∃ c ∈ L.blocks, c.addr = m.get p) :
    Altered h L.blocks (deleteFreeBlock m p) := by
  have hrep := hL.repBy.rep
  have h8 : 8 ∣ h.heapListp := hL.listp ▸ hrep.base_dvd
  have hpv8 : 8 ∣ m.get (p + 4) := by
    rcases hpv with ⟨i, -, hi⟩ | ⟨c, hc, hcp⟩
    · rw [← hi]
      simp only [rootAddr, dsize]
      omega
    · exact hcp ▸ hrep.dvd_addr hc
  have hprev := ha.put_link (p := m.get (p + 4)) (m.get p)
    (fun b hb => by
      obtain ⟨hb8, hbge, -⟩ := hL.dvd_addr hb
      simp only [hdrp, wsize]
      omega)
    (fun i _ => by
      simp only [hdrp, wsize, rootAddr, dsize]
      omega)
  change Altered h L.blocks (SysProgLab.unlink m p)
  rw [SysProgLab.unlink]
  split
  · next h0 =>
    obtain ⟨c, hc, hcp⟩ := hnx h0
    have hcb := hrep.bounds hc
    have hlistp := hL.listp
    rw [← hcp] at hprev ⊢
    refine hprev.put_link _ (fun b hb => ?_) fun i hi => ?_
    · -- a block is too long for its second link to be the next header
      simp only [hdrp, wsize, Block.stop] at *
      rcases List.mem_append.mp hb with hb | hb
      · by_cases hbc : b = c
        · subst hbc
          omega
        · have hdis := hrep.disjoint hb hc hbc
          simp only [Block.stop] at hdis
          omega
      · have hbrk := hL.brk
        obtain rfl := List.mem_singleton.mp hb
        simp only [epilogue]
        omega
    · simp only [hdrp, wsize, rootAddr, dsize, nSeglist] at *
      omega
  · exact hprev

/-- The walk along the blocks of an altered heap meets them where they were. -/
theorem addr_mem (hL : h.Models L) (ha : Altered h L.blocks m) (hl : Lists h m bs segs) :
    ∀ b ∈ bs, ∃ c ∈ L.blocks ++ [epilogue h.memBrk], c.addr = b.addr := by
  obtain ⟨e, hwalk⟩ := hl.blocks
  refine (hwalk.closed (S := fun p => ∃ c ∈ L.blocks ++ [epilogue h.memBrk], c.addr = p) ?_
    ?_).1
  · exact hL.start_mem
  · rintro _ ⟨c, hc, rfl⟩
    obtain ⟨-, -, hlt, -⟩ := hL.dvd_addr hc
    have hnext : m.nextBlkp c.addr = c.stop := by
      rw [Mem.nextBlkp, show c.addr - wsize = hdrp c.addr from rfl, ha.sizes c hc]
      exact Nat.mod_eq_of_lt hlt
    rw [hnext]
    exact hL.stop_mem hc

end Altered

/-- **`mm_check` of an altered heap.** -/
theorem mmCheck_altered (hL : h.Models L) (ha : Altered h L.blocks m) (hl : Lists h m bs segs) :
    ∃ r, mmCheck { h with mem := m } = some r ∧ (r = 0 ∨ r = -1) ∧ (r = -1 ↔ Flawed m bs segs ∨
      ∃ i < nSeglist, h.mem.getAlloc (hdrp (rootAddr h.heapListp i)) ≠ 0) := by
  obtain ⟨e, hwalk⟩ := hl.blocks
  have hbrk := hL.repBy.rep.brk_lt
  have hle := hL.repBy.rep.tiles.le
  have hlistp := hL.listp
  have hblk := hL.blk
  have hbs : ∀ b ∈ bs, b.addr ≠ 0 ∧ ∀ i < nSeglist, b.addr ≠ rootAddr h.heapListp i := by
    intro b hb
    obtain ⟨c, hc, hcb⟩ := ha.addr_mem hL hl b hb
    obtain ⟨-, hge, -⟩ := hL.dvd_addr hc
    refine ⟨by omega, fun i hi => ?_⟩
    simp only [rootAddr, dsize, nSeglist] at *
    omega
  obtain ⟨r, hr, hret, hiff⟩ := mmCheck_eq (h := { h with mem := m }) (by dsimp only; omega)
    (by dsimp only; omega) hwalk hbs hl.segs
  refine ⟨r, hr, hret, hiff.trans (or_congr_right ?_)⟩
  refine exists_congr fun i => and_congr_right fun hi => ?_
  simp only [Mem.getAlloc, ha.roots i hi]

/-- A heap that represents a layout has lists that end, and nothing is wrong with them. -/
theorem Heap.Models.lists (hL : h.Models L) :
    Lists h h.mem L.blocks (fun i => (L.segs i).map Block.addr) ∧
      ¬Flawed h.mem L.blocks (fun i => (L.segs i).map Block.addr) := by
  have hrep := hL.repBy.rep
  refine ⟨⟨⟨_, hL.wellFormed.walk⟩, fun i hi => ?_⟩, ?_⟩
  · rw [hL.listp]
    refine (hrep.chain i hi).linked fun q hq => ?_
    obtain ⟨c, hc, rfl⟩ := List.mem_map.mp hq
    exact (hrep.node_size c hc).1
  · rintro (⟨b, hb, hfree, hnot⟩ | hadj | ⟨i, p, hi, hp, halloc⟩)
    · exact hnot (List.mem_map_of_mem (hL.repBy.ok.full b hb hfree))
    · exact hadj hL.repBy.ok.noAdj
    · obtain ⟨c, hc, rfl⟩ := List.mem_map.mp hp
      obtain ⟨hcb, hfree, -⟩ := hrep.listed i c hc
      rw [hrep.getAlloc_hdrp hcb, hfree] at halloc
      exact halloc rfl

/-! ## Runs -/

theorem extendHeap_listp {words : ℕ} (e : extendHeap h words = some (q, h')) :
    h'.heapListp = h.heapListp := by
  rw [extendHeap] at e
  dsimp only at e
  split at e
  · cases e
    rfl
  · next hsbrk =>
    obtain ⟨m₁, -, e⟩ := Option.bind_eq_some_iff.mp e
    obtain ⟨x, -, e⟩ := Option.bind_eq_some_iff.mp e
    cases e
    obtain ⟨-, hsbrk⟩ := Option.ite_none_left_eq_some.mp hsbrk
    cases hsbrk
    rfl

/-- `mm_malloc` leaves `heap_listp` alone. -/
theorem mmMalloc_listp (e : mmMalloc h size = some (q, h')) : h'.heapListp = h.heapListp := by
  rw [mmMalloc] at e
  split at e
  · cases e
    rfl
  obtain ⟨bp, -, e⟩ := Option.bind_eq_some_iff.mp e
  split at e
  · obtain ⟨m₁, -, e⟩ := Option.bind_eq_some_iff.mp e
    cases e
    rfl
  · obtain ⟨⟨bp, h₁⟩, e₁, e⟩ := Option.bind_eq_some_iff.mp e
    dsimp only at e
    split at e
    · cases e
      exact extendHeap_listp e₁
    · obtain ⟨m₁, -, e⟩ := Option.bind_eq_some_iff.mp e
      cases e
      exact (extendHeap_listp e₁ : h₁.heapListp = h.heapListp)

/-- `mm_free` leaves `heap_listp` alone. -/
theorem mmFree_listp (e : mmFree h p = some h') : h'.heapListp = h.heapListp := by
  rw [mmFree] at e
  split at e
  · cases e
    rfl
  · obtain ⟨m₁, -, e⟩ := Option.bind_eq_some_iff.mp e
    obtain ⟨x, -, e⟩ := Option.bind_eq_some_iff.mp e
    cases e
    rfl

/-- What holds in every state: the words before the roots are those of the memory at
first. -/
structure Pristine (base : ℕ) (mem : Mem) (s : Client) : Prop where
  good : ∃ L, s.Good L
  exact : s.heap.arith = .exact
  listp : s.heap.heapListp = base
  roots : ∀ i < nSeglist,
    s.heap.mem.get (hdrp (rootAddr base i)) = mem.get (hdrp (rootAddr base i))

namespace Pristine

variable {mem : Mem} {s s' : Client}

/-- A run of stores of the allocator. -/
theorem stores (hs : Pristine base mem s) (h8 : 8 ∣ base) {m : Mem}
    (hm : Stores (fun p _ => OffRoots base p) s.heap.mem m) :
    ∀ i < nSeglist, m.get (hdrp (rootAddr base i)) = mem.get (hdrp (rootAddr base i)) :=
  fun i hi => (hm.get_root h8 hi).trans (hs.roots i hi)

/-- **One request keeps the words before the roots.** -/
theorem step (hs : Pristine base mem s) {r : Request} (hr : r.NoRealloc) (hlegal : s.Legal r)
    (e : s.perform r = some s') : Pristine base mem s' := by
  obtain ⟨L, hg⟩ := hs.good
  have hM := hg.models
  have hbase : L.hl = base := hM.listp.symm.trans hs.listp
  have h8 : 8 ∣ base := hbase ▸ hM.repBy.rep.base_dvd
  obtain ⟨s₁, L', e', hg', harith⟩ := hg.serve hlegal (Client.sound_of_exact hs.exact hr)
  obtain rfl : s₁ = s' := Option.some.inj (e'.symm.trans e)
  suffices s₁.heap.heapListp = base ∧ ∀ i < nSeglist,
      s₁.heap.mem.get (hdrp (rootAddr base i)) = mem.get (hdrp (rootAddr base i)) from
    ⟨⟨L', hg'⟩, harith.trans hs.exact, this.1, this.2⟩
  cases r with
  | malloc size =>
    obtain ⟨⟨q, h'⟩, e₁, rfl⟩ := Option.map_eq_some_iff.mp e
    have hlt : size < 2 ^ 31 := hlegal
    have hheap : (s.gain size q h').heap = h' := by
      rw [Client.gain]
      split <;> rfl
    have hstores := hM.mmMalloc_stores hs.exact (by omega) e₁
    rw [hbase] at hstores
    rw [hheap]
    exact ⟨(mmMalloc_listp e₁).trans hs.listp, hs.stores h8 hstores⟩
  | free ptr =>
    obtain ⟨h', e₁, rfl⟩ := Option.map_eq_some_iff.mp e
    refine ⟨(mmFree_listp e₁).trans hs.listp, ?_⟩
    rcases hlegal with rfl | ⟨⟨p, n⟩, hx, rfl⟩
    · rw [Heap.Models.mmFree_null] at e₁
      obtain rfl := Option.some.inj e₁
      exact hs.roots
    · obtain ⟨b, hb, hba, rfl, -⟩ := hg.live _ hx
      have hstores := (hM.mmFree_stores hb hba e₁).mono fun _ _ => Clearing.offRoots
      rw [hbase] at hstores
      exact hs.stores h8 hstores
  | realloc ptr size => cases hr
  | write a v =>
    obtain rfl := Option.some.inj e
    refine ⟨hs.listp, fun i hi => ?_⟩
    obtain ⟨x, hx, h₁, h₂⟩ := hlegal
    obtain ⟨b, hb, -, hbx, -⟩ := hg.live x hx
    have hge := (hM.repBy.rep.bounds hb).1
    rw [← hs.roots i hi]
    -- the payload is behind the roots
    refine Mem.get_congr fun c _ hc => Function.update_of_ne ?_ _ _
    simp only [hdrp, wsize, rootAddr, dsize, nSeglist] at *
    omega

end Pristine

theorem allocatorOn_inductive {mem : Mem} (hbase : 8 ∣ base) (hmax : base + maxHeap < 2 ^ 32) :
    (allocatorOn base mem).Inductive (fun _ r => r.NoRealloc) (Pristine base mem) where
  init := by
    rintro s ⟨h, e, rfl⟩
    obtain ⟨h', e', hM, -, harith⟩ := mmInit_eq .exact mem hbase hmax
    obtain rfl : h' = h := (Prod.mk.inj (Option.some.inj (e'.symm.trans e))).2
    exact ⟨⟨_, hM, fun x hx => absurd hx List.not_mem_nil, List.Pairwise.nil,
      fun x hx => absurd hx List.not_mem_nil⟩, harith, hM.listp,
      fun i hi => (mmInit_stores hbase hmax e).get_root hbase hi⟩
  step := fun hs hr e => hs.step hr e.1 e.2

/-- **`mm_check` is exact if the words before the roots are even.** In every run of
`mm_malloc` and `mm_free` on memory that holds `mem` at first: nothing is wrong with the
heap, and on it and on every heap altered from it whose lists end, `mm_check` returns, and
what it returns is right if and only if something is wrong or those words are even in
`mem`. -/
theorem mm_check_exact (hbase : 8 ∣ base) (hmax : base + maxHeap < 2 ^ 32) {mem : Mem}
    {s : Client} (hs : (allocatorOn base mem).ReachWhen (fun _ r => r.NoRealloc) s) :
    ∃ bs, (∃ segs, Lists s.heap s.heap.mem bs segs ∧ ¬Flawed s.heap.mem bs segs) ∧
      (mmCheck s.heap = some 0 ↔ ∀ i < nSeglist, mem.getAlloc (hdrp (rootAddr base i)) = 0) ∧
      ∀ m, Altered s.heap bs m → ∀ bs' segs, Lists s.heap m bs' segs →
        ∃ r, mmCheck { s.heap with mem := m } = some r ∧ (r = 0 ∨ r = -1) ∧
          ((r = -1 ↔ Flawed m bs' segs) ↔
            Flawed m bs' segs ∨ ∀ i < nSeglist, mem.getAlloc (hdrp (rootAddr base i)) = 0) := by
  have hprist := (allocatorOn_inductive hbase hmax).holds hs
  obtain ⟨L, hg⟩ := hprist.good
  have hM := hg.models
  have hodd : (∃ i < nSeglist, s.heap.mem.getAlloc (hdrp (rootAddr s.heap.heapListp i)) ≠ 0) ↔
      ¬∀ i < nSeglist, mem.getAlloc (hdrp (rootAddr base i)) = 0 := by
    rw [hprist.listp]
    simp only [not_forall, exists_prop]
    refine exists_congr fun i => and_congr_right fun hi => ?_
    rw [Mem.getAlloc, hprist.roots i hi]
    rfl
  obtain ⟨hlists, hright⟩ := hM.lists
  refine ⟨L.blocks, ⟨_, hlists, hright⟩, ?_, fun m ha bs' segs hl => ?_⟩
  · obtain ⟨r, hr, hret, hiff⟩ := mmCheck_altered hM (Altered.refl hM) hlists
    rw [hodd, or_iff_right hright] at hiff
    have hr : mmCheck s.heap = some r := hr
    rw [hr, Option.some.injEq]
    rcases hret with rfl | rfl
    · simpa using hiff
    · simpa using hiff
  · obtain ⟨r, hr, hret, hiff⟩ := mmCheck_altered hM ha hl
    rw [hodd] at hiff
    refine ⟨r, hr, hret, ?_⟩
    rw [hiff]
    tauto

/-- The client after `mm_init` on memory that holds `mem` and the requests `rs`. -/
def runOn (base : ℕ) (mem : Mem) (rs : List Request) : Option Client :=
  (mmInit (memInit .exact base mem)).bind fun r =>
    if r.1 = 0 then Machine.exec (Client.next fun _ r => r.NoRealloc) (Client.start r.2) rs
    else none

theorem runOn_reach {mem : Mem} {rs : List Request} {s : Client}
    (h : runOn base mem rs = some s) :
    (allocatorOn base mem).ReachWhen (fun _ r => r.NoRealloc) s := by
  obtain ⟨⟨c, h₀⟩, e, h⟩ := Option.bind_eq_some_iff.mp h
  split at h
  · next hc =>
    obtain rfl : c = 0 := hc
    have hinit : (allocatorOn base mem).init (Client.start h₀) := ⟨h₀, e, rfl⟩
    have hstep : ∀ s r s', Client.next (fun _ r => r.NoRealloc) s r = some s' →
        r.NoRealloc ∧ (allocatorOn base mem).step s r s' :=
      @Client.next_spec _ _ .exact base
    exact .exec hstep (.init hinit) h
  · cases h

/-- On memory that is zero at first. -/
theorem mm_check_exact_run : ∃ s : Client, s.live = [(1152, 100)] ∧ mmCheck s.heap = some 0 := by
  have hrun : ((runOn 1024 (fun _ => 0) [.malloc 8, .malloc 100, .free 1136]).any fun s =>
      s.live = [(1152, 100)]) = true := by
    decide +kernel
  obtain ⟨s, e, hlive⟩ := (Option.any_eq_true ..).mp hrun
  obtain ⟨bs, -, hcheck, -⟩ := mm_check_exact ⟨128, rfl⟩ (by decide) (runOn_reach e)
  exact ⟨s, by simpa using hlive, hcheck.mpr fun i _ => rfl⟩

/-- With a 1 in the word before the first root `mm_check` returns -1 right after
`mm_init`. -/
theorem mm_check_unwritten : ¬∀ base, 8 ∣ base → base + maxHeap < 2 ^ 32 → ∀ (mem : Mem)
    (s : Client), (allocatorOn base mem).ReachWhen (fun _ r => r.NoRealloc) s →
      ∀ bs segs, Lists s.heap s.heap.mem bs segs →
        (mmCheck s.heap = some (-1) ↔ Flawed s.heap.mem bs segs) := by
  intro h
  have hrun : ((runOn 1024 (fun a => if a = 1028 then 1 else 0) []).any fun s =>
      mmCheck s.heap = some (-1)) = true := by
    decide +kernel
  obtain ⟨s, e, hcheck⟩ := (Option.any_eq_true ..).mp hrun
  have hs := runOn_reach e
  obtain ⟨L, hg⟩ := ((allocatorOn_inductive ⟨128, rfl⟩ (by decide)).holds hs).good
  obtain ⟨hlists, hright⟩ := hg.models.lists
  exact hright ((h 1024 ⟨128, rfl⟩ (by decide) _ s hs _ _ hlists).mp (by simpa using hcheck))

end SysProgLab
