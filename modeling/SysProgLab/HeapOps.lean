import SysProgLab.Carve

/-!
# The allocator refines its layout

Each function of `mm.c` that leaves the heap in order is described by what it
does to the layout: `h.Models L` says that the heap `h` represents the layout
`L`, and the specification of a function takes `L` to the layout that the
abstract operation gives. None of the specifications mentions a word of
memory, so the proofs about runs never do either.
-/

namespace SysProgLab

/-- The heap `h` represents the layout `L`. -/
structure Heap.Models (h : Heap) (L : Layout) : Prop where
  repBy : L.RepBy h.mem
  start : h.memStartBrk = L.hl
  listp : h.heapListp = L.hl
  blk : h.blkStart = L.hl + 112
  brk : h.memBrk = L.brk
  le_max : L.brk ≤ h.memMaxAddr
  max_lt : h.memMaxAddr < 2 ^ 32

theorem sub32_eq {x y : ℕ} (h : y ≤ x) (hx : x < 2 ^ 32) : sub32 x y = x - y := by
  rw [sub32]
  omega

/-! ## Finding a fit -/

theorem fitWalk_eq {m : Mem} {size : ℕ} : ∀ {l : List Block} {prev n : ℕ},
    Chain m prev (l.map Block.addr) →
    (∀ c ∈ l, c.addr ≠ 0 ∧ m.getSize (hdrp c.addr) = c.size) → l.length < n →
    fitWalk m size n (m.get prev) =
      some ((l.find? fun b => size ≤ b.size).elim 0 Block.addr) := by
  intro l
  induction l with
  | nil =>
    intro prev n hc _ hn
    obtain ⟨k, rfl⟩ : ∃ k, n = k + 1 := ⟨n - 1, by simp at hn; omega⟩
    have h0 : m.get prev = 0 := hc
    simp [fitWalk, h0]
  | cons c l ih =>
    intro prev n hc hl hn
    obtain ⟨k, rfl⟩ : ∃ k, n = k + 1 := ⟨n - 1, by simp at hn; omega⟩
    obtain ⟨h₁, -, h₃⟩ := hc
    obtain ⟨hne, hsize⟩ := hl c (List.mem_cons_self ..)
    rw [fitWalk, h₁, hsize]
    by_cases hlt : c.size < size
    · rw [if_pos ⟨hne, hlt⟩, Mem.nextFreeBlkp,
        ih h₃ (fun d hd => hl d (List.mem_cons_of_mem _ hd)) (by simp at hn; omega),
        List.find?_cons_of_neg (by simpa using hlt)]
    · rw [if_neg fun hh => hlt hh.2, List.find?_cons_of_pos (by simpa using hlt)]
      rfl

theorem fitRoots_eq {hl brk : ℕ} {m : Mem} {bs : List Block} {segs : ℕ → List Block}
    (h : Rep hl brk m bs segs) (size : ℕ) : ∀ {n i : ℕ}, i ≤ nSeglist → nSeglist < n + i →
    fitRoots hl m size n (rootAddr hl i) =
      some (((List.range' i (nSeglist - i)).findSome? fun i =>
        (segs i).find? fun b => size ≤ b.size).elim 0 Block.addr) := by
  intro n
  induction n with
  | zero => intro i h₁ h₂; omega
  | succ n ih =>
    intro i h₁ h₂
    rw [fitRoots]
    by_cases hi : i < nSeglist
    · have hroot : rootAddr hl i ≤ hl + dsize * nSeglist := by
        simp only [rootAddr, dsize, nSeglist] at *
        omega
      have hnext : rootAddr hl i + dsize = rootAddr hl (i + 1) := by
        simp only [rootAddr, dsize]
        omega
      rw [if_pos hroot, fitWalk_eq (h.chain i hi) h.node_size (h.length_lt i),
        show nSeglist - i = nSeglist - (i + 1) + 1 by omega, List.range'_succ, List.findSome?_cons]
      cases hf : (segs i).find? fun b => size ≤ b.size with
      | none => simpa [hnext] using ih hi (by omega)
      | some b => simp [(h.node_size b (List.mem_of_find?_eq_some hf)).1]
    · have hroot : ¬rootAddr hl i ≤ hl + dsize * nSeglist := by
        simp only [rootAddr, dsize, nSeglist] at *
        omega
      rw [if_neg hroot, show nSeglist - i = 0 by omega]
      rfl

namespace Layout

variable {L : Layout} {m m₁ : Mem} {b : Block} {size asize n : ℕ}

/-- **`find_fit`** returns the first listed block that is large enough. -/
theorem RepBy.findFit (h : L.RepBy m) (size : ℕ) :
    findFit L.hl m size = some ((L.fit size).elim 0 Block.addr) := by
  have hlt := getSegLevel_lt size
  exact fitRoots_eq h.rep size hlt.le (by omega)

theorem fit_mem (h : L.fit size = some b) :
    ∃ i, getSegLevel size ≤ i ∧ b ∈ L.segs i ∧ size ≤ b.size := by
  obtain ⟨i, hi, hf⟩ := List.exists_of_findSome?_eq_some h
  refine ⟨i, (List.mem_range'_1.mp hi).1, List.mem_of_find?_eq_some hf, ?_⟩
  simpa using List.find?_some hf

/-- The fit is a listed free block that is large enough. -/
theorem RepBy.fit_spec (h : L.RepBy m) (hf : L.fit size = some b) :
    b ∈ L.blocks ∧ b.alloc = false ∧ size ≤ b.size := by
  obtain ⟨i, -, hb, hle⟩ := fit_mem hf
  obtain ⟨h₁, h₂, -⟩ := h.rep.listed i b hb
  exact ⟨h₁, h₂, hle⟩

/-! ## Placing and freeing -/

/-- `L'` has the allocated blocks of `L` and one more. -/
structure Adds (L L' : Layout) (a : Block) : Prop where
  alloc : a.alloc = true
  mem : ∀ c : Block, c.alloc = true → (c ∈ L'.blocks ↔ c ∈ L.blocks ∨ c = a)
  fresh : ∀ c ∈ L.blocks, c.alloc = true → c.addr ≠ a.addr

/-- Placing adds the block that is cut from the free one. -/
theorem RepBy.place_adds (h : L.RepBy m) (hb : b ∈ L.blocks) (hfree : b.alloc = false)
    (asize : ℕ) :
    L.Adds (L.place b asize) (carved b.addr b.stop asize) := by
  refine ⟨carved_alloc .., fun c hc => ?_, fun c hc hca he => ?_⟩
  · have hne : c ≠ b := by
      rintro rfl
      rw [hfree] at hc
      cases hc
    have hbs : c ∈ L.blocks ↔ c ∈ before L.blocks b ∨ c ∈ after L.blocks b := by
      rw [← before_append_after hb, List.mem_append, List.mem_cons, before_append_after hb]
      tauto
    rw [place, mem_carve hc, hbs]
    tauto
  · rw [carved_addr] at he
    obtain rfl := h.rep.eq_of_addr_eq hc hb he
    rw [hfree] at hca
    cases hca

/-- Freeing removes the block. -/
theorem RepBy.mem_free {c : Block} (h : L.RepBy m) (hb : b ∈ L.blocks) (hc : c.alloc = true) :
    c ∈ (L.free b).blocks ↔ c ∈ L.blocks ∧ c ≠ b := by
  have hnd := h.rep.blocks_nodup
  have hbs := before_append_after hb
  rw [← hbs] at hnd
  have hnot := (List.nodup_cons.mp (List.nodup_middle.mp hnd)).1
  rw [free, mem_settle hc]
  generalize before L.blocks b = l, after L.blocks b = r at *
  rw [← hbs]
  simp only [List.mem_append, List.mem_cons, not_or] at hnot ⊢
  constructor
  · rintro (hl | hr)
    · exact ⟨.inl hl, fun he => hnot.1 (he ▸ hl)⟩
    · exact ⟨.inr (.inr hr), fun he => hnot.2 (he ▸ hr)⟩
  · rintro ⟨hl | rfl | hr, hne⟩
    · exact .inl hl
    · exact absurd rfl hne
    · exact .inr hr

/-- Growing the heap leaves the allocated blocks alone. -/
theorem mem_grow {c : Block} (hc : c.alloc = true) : c ∈ (L.grow n).blocks ↔ c ∈ L.blocks := by
  rw [grow, mem_settle hc]
  simp

/-- The free block `b` is ready to be cut once it is deleted from its list. -/
theorem RepBy.ready_place (h : L.RepBy m) (hb : b ∈ L.blocks) (hfree : b.alloc = false)
    (hd : 8 ∣ asize) (h16 : 16 ≤ asize) (hle : asize ≤ b.size) :
    Ready L (deleteFreeBlock m b.addr) (deleteFreeBlock m b.addr) (before L.blocks b) [b]
        (after L.blocks b) (delSeg L.segs b) b.addr b.stop asize ∧
      Keeps L.blocks m (deleteFreeBlock m b.addr) := by
  have hbs : L.blocks = before L.blocks b ++ ([b] ++ after L.blocks b) :=
    (before_append_after hb).symm
  have ht := h.rep.tiles
  rw [hbs] at ht
  exact h.ready hbs [b] (List.nodup_singleton b)
    (fun d => by
      rw [List.mem_singleton]
      exact ⟨fun hd => ⟨hd, hd ▸ hfree⟩, fun hd => hd.1⟩)
    ht.focus.1 ht.focus.2 (h.rep.dvd_stop hb) hd h16 (Nat.add_le_add_left hle _)
    (Mem.AgreeOff.refl _ _ _)

/-- **`place`** allocates the front of a free block. -/
theorem RepBy.place (h : L.RepBy m) (hb : b ∈ L.blocks) (hfree : b.alloc = false)
    (hd : 8 ∣ asize) (h16 : 16 ≤ asize) (hle : asize ≤ b.size) :
    ∃ m', SysProgLab.place L.hl m b.addr asize = some m' ∧ (L.place b asize).RepBy m' ∧
      Keeps L.blocks m m' := by
  obtain ⟨hready, k₁⟩ := h.ready_place hb hfree hd h16 hle
  have hlt := h.rep.addr_lt hb
  have hsub : sub32 b.size asize = b.stop - b.addr - asize := by
    rw [sub32_eq hle (by simp only [Block.stop] at hlt; omega)]
    simp only [Block.stop]
    omega
  have hside : ∀ c ∈ L.blocks, c.alloc = true → c ∈ before L.blocks b ++ after L.blocks b := by
    intro c hc hca
    have hne : c ≠ b := by
      rintro rfl
      rw [hfree] at hca
      cases hca
    rw [← before_append_after hb] at hc
    simpa [hne] using hc
  simp only [SysProgLab.place, h.rep.getAlloc_hdrp hb, h.rep.getSize_hdrp hb, hfree, hsub,
    Bool.toNat_false, if_true]
  by_cases hbig : minBlkSize ≤ b.stop - b.addr - asize
  · obtain ⟨e₁, m₂, m', bp, e₂, e₃, h', k, -⟩ := hready.carve_split hbig
    refine ⟨m', ?_, h', k₁.trans (k.mono hside)⟩
    simp [hbig, e₁, e₂, e₃]
  · obtain ⟨h', k, -⟩ := hready.carve_whole hbig
    refine ⟨_, ?_, h', k₁.trans (k.mono hside)⟩
    rw [if_neg hbig, show b.stop - b.addr = b.size by simp only [Block.stop]; omega]

/-- The allocated block `b` is ready to be cut as it stands. -/
theorem RepBy.ready_alloc (h : L.RepBy m) (hb : b ∈ L.blocks) (ha : b.alloc = true)
    (hd : 8 ∣ asize) (h16 : 16 ≤ asize) (hle : asize ≤ b.size) :
    Ready L m m (before L.blocks b) [b] (after L.blocks b) L.segs b.addr b.stop asize := by
  have hbs : L.blocks = before L.blocks b ++ ([b] ++ after L.blocks b) :=
    (before_append_after hb).symm
  have ht := h.rep.tiles
  rw [hbs] at ht
  refine (h.ready hbs [] List.nodup_nil (fun d => ?_) ht.focus.1 ht.focus.2 (h.rep.dvd_stop hb)
    hd h16 (Nat.add_le_add_left hle _) (Mem.AgreeOff.refl _ _ _)).1
  refine ⟨fun hd => absurd hd List.not_mem_nil, fun hd => ?_⟩
  obtain rfl := List.mem_singleton.mp hd.1
  rw [ha] at hd
  cases hd.2

/-- The two tag stores of `mm_free` make the block a free one that is not listed. -/
theorem RepBy.untag (h : L.RepBy m) (hb : b ∈ L.blocks) (ha : b.alloc = true) :
    setTags m b.addr b.size 0 = putTags m { b with alloc := false } ∧
      Rep L.hl L.brk (putTags m { b with alloc := false })
        (before L.blocks b ++ { b with alloc := false } :: after L.blocks b) L.segs ∧
      (∀ i, { b with alloc := false } ∉ L.segs i) ∧
      Keeps (before L.blocks b ++ after L.blocks b) m (putTags m { b with alloc := false }) := by
  have hv := h.rep.valid b hb
  have hlt := h.rep.addr_lt hb
  have hbb := h.rep.bounds hb
  have hready := h.ready_alloc hb ha hv.dvd hv.le (le_refl _)
  set c : Block := { b with alloc := false } with hc
  have hvc : c.Valid := ⟨hv.dvd, hv.le⟩
  have hcge : 4 ≤ c.addr := by
    simp only [hc]
    omega
  have hset := setTags_eq m hvc hlt
  simp only [hc, Bool.toNat_false] at hset
  have hag : Mem.AgreeOff (b.addr - 4) (b.stop - 4) m (putTags m c) :=
    agreeOff_putTags (b := c) m hvc hcge
  have hv' : ∀ d ∈ [c], d.Valid := fun d hd => by
    obtain rfl := List.mem_singleton.mp hd
    exact hvc
  have htag : ∀ d ∈ [c], Tagged (putTags m c) d := fun d hd => by
    obtain rfl := List.mem_singleton.mp hd
    exact tagged_putTags m hvc hcge hlt
  have htiles : Tiles Block.addr Block.size b.addr [c] b.stop := Tiles.singleton.mpr ⟨rfl, rfl⟩
  obtain ⟨h₁, k₁⟩ := hready.rep.retag hready.left htiles hready.right
    hready.unlisted hv' hag htag
  refine ⟨hset, h₁, fun i hi => ?_, k₁⟩
  -- the block in the place of `c` was allocated
  have hcb := h.rep.eq_of_addr_eq (h.rep.listed i c hi).1 hb rfl
  rw [← hcb] at ha
  cases ha

/-- What `mm_free` does to the memory frees the block. -/
theorem RepBy.free (h : L.RepBy m) (hb : b ∈ L.blocks) (ha : b.alloc = true) :
    ∃ m₁ bp m', insertFreeBlock L.hl (setTags m b.addr b.size 0) b.addr = some m₁ ∧
      coalesce L.hl m₁ b.addr = some (bp, m') ∧ (L.free b).RepBy m' ∧
      Keeps (before L.blocks b ++ after L.blocks b) m m' := by
  have hv := h.rep.valid b hb
  have hready := h.ready_alloc hb ha hv.dvd hv.le (le_refl _)
  obtain ⟨hset, h₀, hnew, k₀⟩ := h.untag hb ha
  obtain ⟨m₁, e₁, h₁, k₁⟩ := h₀.insert Rep.focus_mem rfl (hnew _)
  obtain ⟨m', e₂, h₂, k₂⟩ := settle_repBy h₁ rfl hready.full hready.noAdj_left hready.noAdj_right
  refine ⟨m₁, _, m', ?_, e₂, h₂, (k₀.trans (k₁.mono fun d hd _ => ?_)).trans k₂⟩
  · rw [hset]
    exact e₁
  · simp only [List.mem_append, List.mem_cons] at hd ⊢
    tauto

/-! ## Growing the heap -/

/-- The new free block at the end of the heap is a free block of `n` bytes at
least. -/
theorem RepBy.grown_spec (h : L.RepBy m) (h16 : 16 ≤ n) :
    L.grown n ∈ (L.grow n).blocks ∧ (L.grown n).alloc = false ∧ n ≤ (L.grown n).size := by
  refine ⟨List.mem_append_right _ (List.mem_cons_self ..), rfl, ?_⟩
  have hstart : mergeStart L.hl L.blocks ⟨L.brk, n, false⟩ ≤ L.brk := by
    rw [mergeStart]
    split
    · exact le_refl _
    · next hp =>
      have hmem := h.rep.bounds (prevOf_mem (by simpa using hp))
      simp only [Block.stop] at hmem
      omega
  change n ≤ L.brk + n - mergeStart L.hl L.blocks ⟨L.brk, n, false⟩
  omega

/-- The tags of the new free block and the new epilogue, before the block is listed. -/
theorem RepBy.grow_tags (h : L.RepBy m) (hd : 8 ∣ n) (h16 : 16 ≤ n) (hlt : L.brk + n < 2 ^ 32) :
    (setTags m L.brk n 0).put (hdrp ((setTags m L.brk n 0).nextBlkp L.brk)) (pack 0 1) =
        (putTags m ⟨L.brk, n, false⟩).put (hdrp (L.brk + n)) (pack 0 1) ∧
      Rep L.hl (L.brk + n) ((putTags m ⟨L.brk, n, false⟩).put (hdrp (L.brk + n)) (pack 0 1))
        (L.blocks ++ [⟨L.brk, n, false⟩]) L.segs ∧
      Keeps L.blocks m ((putTags m ⟨L.brk, n, false⟩).put (hdrp (L.brk + n)) (pack 0 1)) ∧
      ⟨L.brk, n, false⟩ ∉ L.blocks := by
  set c : Block := ⟨L.brk, n, false⟩ with hc
  have hvc : c.Valid := ⟨hd, h16⟩
  have hle := h.rep.tiles.le
  have hcge : 4 ≤ c.addr := by
    simp only [hc]
    omega
  have hstop : c.stop = L.brk + n := rfl
  have hset := setTags_eq m hvc hlt
  simp only [hc, Bool.toNat_false] at hset
  have htag := tagged_putTags m hvc hcge hlt
  have hnext : (putTags m c).nextBlkp L.brk = L.brk + n := nextBlkp_eq hvc.dvd htag.1 hlt
  have hepi : hdrp (L.brk + n) = L.brk + n - 4 := rfl
  have hhdr : hdrp c.addr = L.brk - 4 := rfl
  have haddr : c.addr = L.brk := rfl
  -- the epilogue header is stored behind the footer
  have hag : Mem.AgreeOff (L.brk - 4) (L.brk + n) m
      ((putTags m c).put (hdrp (L.brk + n)) (pack 0 1)) := by
    refine ((agreeOff_putTags m hvc hcge).mono (le_refl _) ?_).trans (Mem.AgreeOff.put _ _ ?_ ?_)
    · rw [hstop]
      omega
    · rw [hepi]
      omega
    · rw [hepi]
      omega
  have htag' : Tagged ((putTags m c).put (hdrp (L.brk + n)) (pack 0 1)) c := by
    refine htag.congr (Mem.get_put_disjoint _ (.inl ?_)) (Mem.get_put_disjoint _ (.inl ?_))
    · rw [hhdr, hepi]
      omega
    · rw [hstop, hepi]
      omega
  have hepi' : ((putTags m c).put (hdrp (L.brk + n)) (pack 0 1)).get (hdrp (L.brk + n)) =
      (epilogue (L.brk + n)).tag := by
    rw [Mem.get_put_self]
    change pack 0 1 % 2 ^ 32 = pack 0 1
    decide
  obtain ⟨h₁, k₁⟩ := h.rep.extend rfl hvc hstop hlt hag htag' hepi'
  refine ⟨?_, h₁, k₁, fun hm => ?_⟩
  · rw [hset, hnext]
  · have := h.rep.bounds hm
    simp only [hc, Block.stop] at this
    omega

/-- What `extend_heap` does to the memory after `mem_sbrk` grows the heap. -/
theorem RepBy.grow (h : L.RepBy m) (hd : 8 ∣ n) (h16 : 16 ≤ n) (hlt : L.brk + n < 2 ^ 32) :
    ∃ m₁ m', insertFreeBlock L.hl
        ((setTags m L.brk n 0).put (hdrp ((setTags m L.brk n 0).nextBlkp L.brk)) (pack 0 1))
        L.brk = some m₁ ∧
      coalesce L.hl m₁ L.brk = some ((L.grown n).addr, m') ∧ (L.grow n).RepBy m' ∧
      Keeps L.blocks m m' := by
  obtain ⟨hset, h₁, k₁, hnew⟩ := h.grow_tags hd h16 hlt
  obtain ⟨m₁, e₁, h₂, k₂⟩ := h₁.insert (List.mem_append_right _ (List.mem_singleton_self _)) rfl
    fun hm => hnew (h.rep.listed _ _ hm).1
  obtain ⟨m', e₂, h₃, k₃⟩ := settle_repBy (L := { L with brk := L.brk + n }) h₂ rfl
    (by rw [List.append_nil]; exact h.ok.full) h.ok.noAdj List.isChain_nil
  refine ⟨m₁, m', ?_, e₂, h₃, k₁.trans ((k₂.mono fun b hb _ => ?_).trans (k₃.mono fun b hb _ => ?_))⟩
  · rw [hset]
    exact e₁
  · exact List.mem_append_left _ hb
  · exact List.mem_append_left _ hb

end Layout

/-! ## The interface -/

/-- What `adjust` guarantees: room for the payload and two tags, rounded up to
a multiple of 8. -/
theorem adjust_spec {size : ℕ} (h : size + 15 < 2 ^ 32) :
    8 ∣ adjust size ∧ 16 ≤ adjust size ∧ size + 8 ≤ adjust size ∧ adjust size < 2 ^ 32 := by
  rw [adjust]
  split <;> simp only [dsize] at * <;> omega

theorem toInt32_of_lt {n : ℕ} (h : n < 2 ^ 31) : toInt32 n = n := by
  rw [toInt32, Nat.mod_eq_of_lt (by omega), if_pos h]

theorem toInt32_neg {n : ℕ} (h : 2 ^ 31 ≤ n) (h' : n < 2 ^ 32) : toInt32 n < 0 := by
  rw [toInt32, Nat.mod_eq_of_lt h', if_neg (by omega)]
  omega

/-- `mem_sbrk` from here by `n` bytes does not wrap around the address space. -/
def Heap.NoWrap (h : Heap) (n : ℕ) : Prop := h.arith.add h.memBrk n = h.memBrk + n

instance (h : Heap) (n : ℕ) : Decidable (h.NoWrap n) :=
  inferInstanceAs (Decidable (_ = _))

theorem Heap.NoWrap.of_exact {h : Heap} (ha : h.arith = .exact) (n : ℕ) : h.NoWrap n := by
  rw [Heap.NoWrap, ha]
  rfl

theorem Heap.NoWrap.of_lt {h : Heap} {n : ℕ} (hlt : h.memBrk + n < 2 ^ 32) : h.NoWrap n := by
  rw [Heap.NoWrap]
  cases h.arith with
  | exact => rfl
  | wrap32 => exact Nat.mod_eq_of_lt hlt

theorem memSbrk_refuse {h : Heap} {n : ℕ} (hn : n < 2 ^ 32) (hw : n < 2 ^ 31 → h.NoWrap n)
    (hno : ¬(n < 2 ^ 31 ∧ h.memBrk + n ≤ h.memMaxAddr)) : memSbrk h (toInt32 n) = none := by
  by_cases hlt : n < 2 ^ 31
  · refine if_pos (.inr ?_)
    rw [toInt32_of_lt hlt, Int.toNat_natCast, hw hlt]
    omega
  · exact if_pos (.inl (toInt32_neg (by omega) hn))

theorem memSbrk_grant {h : Heap} {n : ℕ} (hn : n < 2 ^ 31) (hw : h.NoWrap n)
    (hle : h.memBrk + n ≤ h.memMaxAddr) :
    memSbrk h (toInt32 n) = some (h.memBrk, { h with memBrk := h.memBrk + n }) := by
  rw [memSbrk, toInt32_of_lt hn, Int.toNat_natCast, hw, if_neg (by omega)]

/-- What `mm_malloc` asks for is even in words, so nothing is rounded. -/
theorem extendHeap_size {n : ℕ} (h8 : 8 ∣ n) (hn : n < 2 ^ 32) :
    (if n / wsize % 2 ≠ 0 then (n / wsize + 1) * wsize % 2 ^ 32 else n / wsize * wsize % 2 ^ 32) =
      n := by
  simp only [wsize]
  rw [if_neg (by omega)]
  omega

theorem dvd_max_chunksize {n : ℕ} (h8 : 8 ∣ n) : 8 ∣ max n chunksize := by
  rcases max_choice n chunksize with hm | hm <;> rw [hm]
  · exact h8
  · exact ⟨512, rfl⟩

/-- **`extend_heap`** when `mem_sbrk` refuses. -/
theorem extendHeap_refuse {h : Heap} {n : ℕ} (h8 : 8 ∣ n) (hn : n < 2 ^ 32)
    (hw : n < 2 ^ 31 → h.NoWrap n) (hno : ¬(n < 2 ^ 31 ∧ h.memBrk + n ≤ h.memMaxAddr)) :
    extendHeap h (n / wsize) = some (0, h) := by
  simp only [extendHeap, extendHeap_size h8 hn, memSbrk_refuse hn hw hno]

/-- **`extend_heap`** grows the heap. -/
theorem extendHeap_grant {h : Heap} {L : Layout} {n : ℕ} (hL : L.RepBy h.mem)
    (hl : h.heapListp = L.hl) (hbrk : h.memBrk = L.brk) (h8 : 8 ∣ n) (h16 : 16 ≤ n)
    (hn : n < 2 ^ 31) (hw : h.NoWrap n) (hle : L.brk + n ≤ h.memMaxAddr)
    (hmax : h.memMaxAddr < 2 ^ 32) :
    ∃ m', extendHeap h (n / wsize) =
        some ((L.grown n).addr, { h with mem := m', memBrk := L.brk + n }) ∧
      (L.grow n).RepBy m' ∧ Keeps L.blocks h.mem m' := by
  obtain ⟨m₁, m', e₁, e₂, h', k⟩ := hL.grow h8 h16 (by omega)
  refine ⟨m', ?_, h', k⟩
  rw [← hbrk] at hle
  simp only [extendHeap, extendHeap_size h8 (by omega), memSbrk_grant hn hw hle, hl, hbrk, e₁, e₂,
    Option.bind_eq_bind, Option.bind_some]

namespace Heap.Models

variable {h : Heap} {L L' : Layout} {b : Block} {size : ℕ}

/-- **`mm_free`** frees an allocated block. -/
theorem mmFree (hL : h.Models L) (hb : b ∈ L.blocks) (ha : b.alloc = true) :
    ∃ m', mmFree h b.addr = some { h with mem := m' } ∧
      Heap.Models { h with mem := m' } (L.free b) ∧
      Keeps (before L.blocks b ++ after L.blocks b) h.mem m' := by
  obtain ⟨m₁, bp, m', e₁, e₂, h', k⟩ := hL.repBy.free hb ha
  refine ⟨m', ?_, ⟨h', hL.start, hL.listp, hL.blk, hL.brk, hL.le_max, hL.max_lt⟩, k⟩
  have hne : b.addr ≠ 0 := by
    have := hL.repBy.rep.bounds hb
    omega
  simp only [SysProgLab.mmFree, hne, hL.repBy.rep.getAlloc_hdrp hb, hL.repBy.rep.getSize_hdrp hb,
    ha, Bool.toNat_true, one_ne_zero, or_self, if_false, hL.listp, e₁, e₂, Option.bind_eq_bind,
    Option.bind_some]

/-- `mm_free(NULL)` does nothing. -/
theorem mmFree_null (h : Heap) : SysProgLab.mmFree h 0 = some h := by
  simp [SysProgLab.mmFree]

/-- **`mm_malloc`** computes `Layout.malloc`, or refuses and changes nothing. -/
theorem mmMalloc (hL : h.Models L) (h0 : size ≠ 0) (hsize : size + 15 < 2 ^ 32)
    (hw : L.fit (adjust size) = none → max (adjust size) chunksize < 2 ^ 31 →
      h.NoWrap (max (adjust size) chunksize)) :
    match L.malloc h.memMaxAddr (adjust size) with
    | none => mmMalloc h size = some (0, h)
    | some (b, L') => ∃ m', mmMalloc h size = some (b.addr, { h with mem := m', memBrk := L'.brk }) ∧
        Heap.Models { h with mem := m', memBrk := L'.brk } L' ∧ Keeps L.blocks h.mem m' ∧
        L.Adds L' (carved b.addr b.stop (adjust size)) ∧ adjust size ≤ b.size := by
  obtain ⟨h8, h16, -, hle⟩ := adjust_spec hsize
  have hfit := hL.repBy.findFit (adjust size)
  rw [← hL.listp] at hfit
  rw [Layout.malloc]
  cases hf : L.fit (adjust size) with
  | some b =>
    obtain ⟨hb, hfree, hble⟩ := hL.repBy.fit_spec hf
    obtain ⟨m', e, h', k⟩ := hL.repBy.place hb hfree h8 h16 hble
    have hne : b.addr ≠ 0 := by
      have := hL.repBy.rep.bounds hb
      omega
    refine ⟨m', ?_, ⟨h', ?_, ?_, ?_, rfl, ?_, hL.max_lt⟩, k, hL.repBy.place_adds hb hfree _, hble⟩
    · rw [hf, Option.elim_some] at hfit
      rw [← hL.listp] at e
      simp [SysProgLab.mmMalloc, h0, hfit, hne, e, ← hL.brk]
    · simpa using hL.start
    · simpa using hL.listp
    · simpa using hL.blk
    · simpa using hL.le_max
  | none =>
    rw [hf, Option.elim_none] at hfit
    have h8' := dvd_max_chunksize h8
    have h16' : 16 ≤ max (adjust size) chunksize := le_max_of_le_left h16
    have hn : max (adjust size) chunksize < 2 ^ 32 := by
      refine Nat.max_lt.mpr ⟨by omega, by decide⟩
    have hble' : adjust size ≤ max (adjust size) chunksize := le_max_left _ _
    have hw' := hw hf
    obtain ⟨n, hmax⟩ : ∃ n, max (adjust size) chunksize = n := ⟨_, rfl⟩
    simp only [hmax] at h8' h16' hn hble' hw' ⊢
    by_cases hok : n < 2 ^ 31 ∧ L.brk + n ≤ h.memMaxAddr
    · obtain ⟨m₁, e₁, h₁, k₁⟩ := extendHeap_grant hL.repBy hL.listp hL.brk h8' h16' hok.1
        (hw' hok.1) hok.2 hL.max_lt
      obtain ⟨hb, hfree, hble⟩ := hL.repBy.grown_spec h16'
      obtain ⟨m', e, h', k⟩ := h₁.place hb hfree h8 h16 (hble'.trans hble)
      have hne : (L.grown n).addr ≠ 0 := by
        have := h₁.rep.bounds hb
        omega
      simp only [hok, and_self, if_true]
      have hadds := h₁.place_adds hb hfree (adjust size)
      refine ⟨m', ?_, ⟨h', ?_, ?_, ?_, rfl, ?_, hL.max_lt⟩, k₁.trans (k.mono fun c hc hca => ?_),
        ⟨hadds.alloc, fun c hc => (hadds.mem c hc).trans (or_congr_left (Layout.mem_grow hc)),
          fun c hc hca => hadds.fresh c ((Layout.mem_grow hca).mpr hc) hca⟩, hble'.trans hble⟩
      · rw [Layout.grow_hl, ← hL.listp] at e
        simp [SysProgLab.mmMalloc, h0, hfit, hmax, e₁, hne, e]
      · simpa using hL.start
      · simpa using hL.listp
      · simpa using hL.blk
      · simpa using hok.2
      · exact (Layout.mem_grow hca).mpr hc
    · simp only [hok, if_false]
      rw [← hL.brk] at hok
      simp [SysProgLab.mmMalloc, h0, hfit, hmax, extendHeap_refuse h8' hn hw' hok]

end Heap.Models

/-! ## Initialisation -/

/-- The layout before the first `extend_heap`: no blocks. -/
def emptyLayout (base : ℕ) : Layout := ⟨base, base + 112, [], fun _ => []⟩

/-- The layout of a new heap: one free block of `CHUNKSIZE` bytes. -/
def initLayout (base : ℕ) : Layout := (emptyLayout base).grow chunksize

/-- The stores of `mm_init`. -/
def initMem (hl : ℕ) (m : Mem) : Mem :=
  ((((List.range nSeglist).foldl (fun m i => m.put (hl + (i + 1) * dsize) 0) (m.put hl 0)).put
    (hl + 100) (pack dsize 1)).put (hl + 104) (pack dsize 1)).put (hl + 108) (pack 0 1)

/-- The loop of `mm_init` empties every free list. -/
theorem get_root_init (m : Mem) (hl : ℕ) : ∀ {n i : ℕ}, i < n →
    ((List.range n).foldl (fun m i => m.put (hl + (i + 1) * dsize) 0) m).get (rootAddr hl i) = 0 := by
  intro n
  induction n with
  | zero => intro i hi; omega
  | succ n ih =>
    intro i hi
    rw [List.range_succ, List.foldl_append, List.foldl_cons, List.foldl_nil]
    by_cases hin : i = n
    · subst hin
      rw [show rootAddr hl i = hl + (i + 1) * dsize by simp only [rootAddr, dsize]; omega,
        Mem.get_put_self, Nat.zero_mod]
    · rw [Mem.get_put_disjoint _ (by simp only [rootAddr, dsize]; omega)]
      exact ih (by omega)

theorem emptyLayout_repBy {base : ℕ} (m : Mem) (hbase : 8 ∣ base) (hlt : base + 112 < 2 ^ 32) :
    (emptyLayout base).RepBy (initMem base m) := by
  have hpro : (prologue base).tag = 9 := by
    change pack 8 1 = 9
    decide
  have hepi : (epilogue (base + 112)).tag = 1 := by
    change pack 0 1 = 1
    decide
  have hchain : ∀ i < nSeglist, (initMem base m).get (rootAddr base i) = 0 := by
    intro i hi
    have hroot : rootAddr base i + 4 ≤ base + 100 := by
      simp only [rootAddr, dsize, nSeglist] at *
      omega
    rw [initMem, Mem.get_put_disjoint _ (.inl (by omega)), Mem.get_put_disjoint _ (.inl (by omega)),
      Mem.get_put_disjoint _ (.inl hroot)]
    exact get_root_init _ _ hi
  refine ⟨⟨hbase, hlt, rfl, by simp [emptyLayout], by simp [emptyLayout], ⟨?_, ?_⟩, ?_, hchain,
    by simp [emptyLayout], fun _ => List.nodup_nil, fun _ => List.Pairwise.nil⟩,
    ⟨by simp [Full, emptyLayout], List.isChain_nil⟩⟩
  · rw [show (emptyLayout base).hl = base from rfl, hpro,
      show hdrp (prologue base).addr = base + 100 from rfl, initMem,
      Mem.get_put_disjoint _ (.inl (by omega)), Mem.get_put_disjoint _ (.inl (by omega)),
      Mem.get_put_self]
    decide
  · rw [show (emptyLayout base).hl = base from rfl, hpro,
      show (prologue base).stop - 8 = base + 104 from rfl, initMem,
      Mem.get_put_disjoint _ (.inl (by omega)), Mem.get_put_self]
    decide
  · rw [show (emptyLayout base).brk = base + 112 from rfl, hepi,
      show hdrp (base + 112) = base + 108 from rfl, initMem, Mem.get_put_self]
    decide

/-- `mm_init` once `mem_sbrk` has granted the first bytes. -/
theorem mmInit_of_sbrk {h h' : Heap} {hl : ℕ}
    (e : memSbrk h (toInt32 (3 * dsize + nSeglist * dsize)) = some (hl, h')) :
    mmInit h = (extendHeap { h' with mem := initMem hl h'.mem, heapListp := hl }
      (chunksize / wsize)).bind fun r =>
        if r.1 = 0 then some (-1, r.2) else some (0, { r.2 with blkStart := hl + 112 }) := by
  unfold mmInit
  rw [e]
  rfl

/-- **`mm_init`** after `mem_reset_brk` sets up the initial layout, whatever the heap
held before. -/
theorem mmInit_reset {base : ℕ} {h : Heap} (hstart : h.memStartBrk = base)
    (hlimit : h.memMaxAddr = base + maxHeap) (hbase : 8 ∣ base) (hmax : base + maxHeap < 2 ^ 32) :
    ∃ h', mmInit (memResetBrk h) = some (0, h') ∧ h'.Models (initLayout base) ∧
      h'.memMaxAddr = base + maxHeap ∧ h'.arith = h.arith := by
  obtain ⟨mem, start, brk, limit, listp, blk, arith⟩ := h
  dsimp only at hstart hlimit
  subst hstart hlimit
  have hroom : start + 112 + chunksize ≤ start + maxHeap := by
    simp only [chunksize, maxHeap]
    omega
  have hsbrk := memSbrk_grant
    (h := memResetBrk ⟨mem, start, brk, start + maxHeap, listp, blk, arith⟩)
    (n := 3 * dsize + nSeglist * dsize) (by decide)
    (Heap.NoWrap.of_lt (by simp only [memResetBrk, dsize, nSeglist]; omega))
    (by simp only [memResetBrk, dsize, nSeglist]; omega)
  have hrep := emptyLayout_repBy mem hbase (by omega)
  rw [mmInit_of_sbrk hsbrk]
  simp only [memResetBrk]
  obtain ⟨m', e, h', -⟩ := extendHeap_grant (n := chunksize)
    (h := ⟨initMem start mem, start, start + 112, start + maxHeap, start, blk, arith⟩) hrep rfl rfl
    (by decide) (by decide) (by decide) (Heap.NoWrap.of_lt (by dsimp only; omega)) hroom hmax
  have hne : ((emptyLayout start).grown chunksize).addr ≠ 0 := by
    have := h'.rep.bounds (hrep.grown_spec (by decide)).1
    omega
  refine ⟨⟨m', start, start + 112 + chunksize, start + maxHeap, start, start + 112, arith⟩, ?_,
    ⟨h', rfl, rfl, rfl, ?_, ?_, hmax⟩, rfl, rfl⟩
  · rw [show start + (3 * dsize + nSeglist * dsize) = start + 112 from rfl, e, Option.bind_some,
      if_neg hne]
    simp only [emptyLayout]
  · simp only [initLayout, Layout.grow_brk, emptyLayout]
  · simpa only [initLayout, Layout.grow_brk, emptyLayout] using hroom

/-- `mm_init` after `mem_init`. -/
theorem mmInit_eq {base : ℕ} (arith : PtrArith) (mem : Mem) (hbase : 8 ∣ base)
    (hmax : base + maxHeap < 2 ^ 32) :
    ∃ h, mmInit (memInit arith base mem) = some (0, h) ∧ h.Models (initLayout base) ∧
      h.memMaxAddr = base + maxHeap ∧ h.arith = arith :=
  mmInit_reset (h := memInit arith base mem) rfl rfl hbase hmax

end SysProgLab
