import SysProgLab.HeapRep

/-!
# Neighbours and merging

The macros find a block's neighbours by the tags around it: the footer before
it and the header after it. At the two ends of the heap these are the prologue
and the epilogue, both allocated, so `coalesce` needs no special case. Here the
neighbours are read off the list of blocks (`prevOf`, `nextOf`), and
`Rep.coalesce` says in one formula what the four cases of `coalesce` do.
-/

namespace SysProgLab

/-- The block before one that follows `l`. -/
def prevOf (hl : ℕ) (l : List Block) : Block := l.getLastD (prologue hl)

/-- The block after one that precedes `r`. -/
def nextOf (brk : ℕ) (r : List Block) : Block := r.headD (epilogue brk)

/-- A free block before the focus is a block of the heap. -/
theorem eq_append_prevOf {hl : ℕ} {l : List Block} (h : (prevOf hl l).alloc = false) :
    l = l.dropLast ++ [prevOf hl l] := by
  rcases List.eq_nil_or_concat l with rfl | ⟨l', p, rfl⟩
  · cases h
  · simp [prevOf]

/-- A free block after the focus is a block of the heap. -/
theorem eq_cons_nextOf {brk : ℕ} {r : List Block} (h : (nextOf brk r).alloc = false) :
    r = nextOf brk r :: r.tail := by
  cases r with
  | nil => cases h
  | cons n r => rfl

/-- `PREV_BLKP` from the footer before the block. -/
theorem prevBlkp_eq {m : Mem} {b p : Block} (h8 : 8 ∣ p.size) (h : m.get (b.addr - 8) = p.tag)
    (hp : p.stop = b.addr) (hlt : b.addr < 2 ^ 32) : m.prevBlkp b.addr = p.addr := by
  rw [Mem.prevBlkp, show b.addr - dsize = b.addr - 8 from rfl, getSize_of_tag h8 h]
  simp only [Block.stop] at hp
  omega

namespace Rep

variable {hl brk : ℕ} {m m' : Mem} {bs l r : List Block} {segs : ℕ → List Block} {b c : Block}

/-- The block before the focus ends where it starts and carries its tags. -/
theorem prev (h : Rep hl brk m (l ++ b :: r) segs) :
    (prevOf hl l).stop = b.addr ∧ 8 ∣ (prevOf hl l).size ∧ 8 ≤ (prevOf hl l).size ∧
      hl + 104 ≤ (prevOf hl l).addr ∧ Tagged m (prevOf hl l) := by
  have ht := h.tiles.focus.1
  rcases List.eq_nil_or_concat l with rfl | ⟨l', p, rfl⟩
  · have : hl + 112 = b.addr := ht
    refine ⟨?_, ⟨1, rfl⟩, le_refl 8, le_refl _, h.pro⟩
    simp only [prevOf, List.getLastD_nil, prologue, Block.stop]
    omega
  · have hp : prevOf hl (l'.concat p) = p := by simp [prevOf]
    have hmem : p ∈ l'.concat p ++ b :: r := by simp
    rw [List.concat_eq_append] at ht
    have hv := h.valid p hmem
    have hb := h.bounds hmem
    rw [hp]
    exact ⟨ht.focus.2, hv.dvd, by omega, by omega, h.tags p hmem⟩

/-- The block after the focus starts where it ends and carries its header. -/
theorem next (h : Rep hl brk m (l ++ b :: r) segs) :
    (nextOf brk r).addr = b.stop ∧ 8 ∣ (nextOf brk r).size ∧
      m.get (hdrp (nextOf brk r).addr) = (nextOf brk r).tag ∧ (nextOf brk r).stop ≤ brk := by
  have ht := h.tiles.focus.2
  cases r with
  | nil =>
    have : b.addr + b.size = brk := ht
    exact ⟨this.symm, ⟨0, rfl⟩, h.epi, le_refl _⟩
  | cons n r =>
    have hmem : n ∈ l ++ b :: n :: r := by simp
    exact ⟨ht.1, (h.valid n hmem).dvd, h.header hmem, (h.bounds hmem).2.1⟩

theorem focus_mem : b ∈ l ++ b :: r := List.mem_append_right _ (List.mem_cons_self ..)

theorem addr_lt (h : Rep hl brk m bs segs) (hb : b ∈ bs) : b.stop < 2 ^ 32 := by
  have := h.bounds hb
  have := h.brk_lt
  omega

theorem prevBlkp_focus (h : Rep hl brk m (l ++ b :: r) segs) :
    m.prevBlkp b.addr = (prevOf hl l).addr := by
  obtain ⟨h₁, h₂, -, -, -, h₃⟩ := h.prev
  have := h.addr_lt focus_mem
  rw [h₁] at h₃
  exact prevBlkp_eq h₂ h₃ h₁ (by simp only [Block.stop] at this; omega)

theorem nextBlkp_focus (h : Rep hl brk m (l ++ b :: r) segs) :
    m.nextBlkp b.addr = (nextOf brk r).addr := by
  rw [h.next.1]
  exact nextBlkp_eq (h.valid b focus_mem).dvd (h.header focus_mem) (h.addr_lt focus_mem)

theorem ftrp_focus (h : Rep hl brk m (l ++ b :: r) segs) : m.ftrp b.addr = b.stop - 8 := by
  have := h.bounds focus_mem
  exact ftrp_eq (h.valid b focus_mem).dvd (h.header focus_mem)
    (by simp only [Block.stop]; omega) (h.addr_lt focus_mem)

/-- The allocated bit that `coalesce` reads in the footer before the block. -/
theorem prevAlloc_focus (h : Rep hl brk m (l ++ b :: r) segs) :
    m.getAlloc (m.ftrp (m.prevBlkp b.addr)) = (prevOf hl l).alloc.toNat := by
  obtain ⟨h₁, h₂, h₃, -, h₅, h₆⟩ := h.prev
  have := h.addr_lt focus_mem
  rw [h.prevBlkp_focus, ftrp_eq h₂ h₅ (by simp only [Block.stop]; omega)
    (by rw [h₁]; simp only [Block.stop] at this; omega)]
  exact getAlloc_of_tag h₂ h₆

/-- The allocated bit that `coalesce` reads in the header after the block. -/
theorem nextAlloc_focus (h : Rep hl brk m (l ++ b :: r) segs) :
    m.getAlloc (hdrp (m.nextBlkp b.addr)) = (nextOf brk r).alloc.toNat := by
  rw [h.nextBlkp_focus]
  exact getAlloc_of_tag h.next.2.1 h.next.2.2.1

/-- A run of blocks becomes one that ends in a free block, which is listed. -/
theorem retag_insert {mid : List Block} (mid' : List Block) {s t : ℕ}
    (h : Rep hl brk m (l ++ (mid ++ r)) segs)
    (hl₁ : Tiles Block.addr Block.size (hl + 112) l s)
    (hmid : Tiles Block.addr Block.size s (mid' ++ [b]) t)
    (hr : Tiles Block.addr Block.size t r brk) (hfree : b.alloc = false)
    (hsegs : ∀ i, ∀ c ∈ segs i, c ∈ l ++ r) (hv : ∀ c ∈ mid' ++ [b], c.Valid)
    (hag : Mem.AgreeOff (s - 4) (t - 4) m m') (htag : ∀ c ∈ mid' ++ [b], Tagged m' c) :
    ∃ m'', insertFreeBlock hl m' b.addr = some m'' ∧
      Rep hl brk m'' (l ++ (mid' ++ b :: r)) (insSeg segs b) ∧ Keeps (l ++ r) m m'' ∧
      Keeps mid' m' m'' := by
  obtain ⟨h₁, k₁⟩ := h.retag hl₁ hmid hr hsegs hv hag htag
  have hb : b ∈ l ++ (mid' ++ [b] ++ r) := by simp
  -- the listed blocks are among the others, and blocks are distinct
  have hnew : b ∉ segs b.level := by
    intro hbs
    have hnd := h₁.blocks_nodup
    have hmem := hsegs _ b hbs
    rw [List.append_assoc, List.singleton_append, ← List.append_assoc] at hnd
    have hnot := (List.nodup_cons.mp (List.nodup_middle.mp hnd)).1
    simp only [List.mem_append] at hmem hnot
    tauto
  obtain ⟨m'', e, h₂, k₂⟩ := h₁.insert hb hfree hnew
  refine ⟨m'', e, ?_, k₁.trans (k₂.mono fun c hc _ => ?_), k₂.mono fun c hc _ => ?_⟩
  · rwa [List.append_assoc, List.singleton_append] at h₂
  · simp only [List.mem_append] at hc ⊢
    tauto
  · simp only [List.mem_append]
    exact .inr (.inl (.inl hc))

end Rep

/-! ## Coalescing -/

/-- Where the merged block starts. -/
def mergeStart (hl : ℕ) (l : List Block) (b : Block) : ℕ :=
  if (prevOf hl l).alloc then b.addr else (prevOf hl l).addr

/-- Where the merged block ends. -/
def mergeStop (brk : ℕ) (b : Block) (r : List Block) : ℕ :=
  if (nextOf brk r).alloc then b.stop else (nextOf brk r).stop

/-- `b` merged with its free neighbours. -/
def mergedBlock (hl brk : ℕ) (l : List Block) (b : Block) (r : List Block) : Block :=
  ⟨mergeStart hl l b, mergeStop brk b r - mergeStart hl l b, false⟩

/-- What is left before the merged block. -/
def restL (hl : ℕ) (l : List Block) : List Block :=
  if (prevOf hl l).alloc then l else l.dropLast

/-- What is left after the merged block. -/
def restR (brk : ℕ) (r : List Block) : List Block :=
  if (nextOf brk r).alloc then r else r.tail

/-- The blocks after coalescing. -/
def mergedBlocks (hl brk : ℕ) (l : List Block) (b : Block) (r : List Block) : List Block :=
  restL hl l ++ mergedBlock hl brk l b r :: restR brk r

/-- The free lists after coalescing. -/
def mergedSegs (hl brk : ℕ) (l : List Block) (b : Block) (r : List Block)
    (segs : ℕ → List Block) : ℕ → List Block :=
  if (prevOf hl l).alloc ∧ (nextOf brk r).alloc then segs
  else insSeg (delSeg (delSeg (delSeg segs (prevOf hl l)) (nextOf brk r)) b)
    (mergedBlock hl brk l b r)

theorem mem_of_mem_delSegs : ∀ {ds : List Block} {segs : ℕ → List Block} {i : ℕ} {c : Block},
    c ∈ ds.foldl delSeg segs i → c ∈ segs i := by
  intro ds
  induction ds with
  | nil => exact fun hc => hc
  | cons d ds ih => exact fun hc => mem_of_mem_delSeg (ih hc)

namespace Rep

variable {hl brk : ℕ} {m m' : Mem} {bs l r : List Block} {segs : ℕ → List Block} {b c : Block}

/-- `delete_free_block` on several listed blocks. -/
theorem deletes : ∀ {ds : List Block} {m : Mem} {segs : ℕ → List Block},
    Rep hl brk m bs segs → ds.Nodup → (∀ d ∈ ds, d ∈ segs d.level) →
    Rep hl brk (ds.foldl (fun m d => deleteFreeBlock m d.addr) m) bs (ds.foldl delSeg segs) ∧
      Keeps bs m (ds.foldl (fun m d => deleteFreeBlock m d.addr) m) ∧
      ∀ i, ∀ c ∈ ds.foldl delSeg segs i, c ∈ bs ∧ c ∉ ds := by
  intro ds
  induction ds with
  | nil =>
    intro m segs h _ _
    exact ⟨h, Keeps.refl _ _, fun i c hc => ⟨(h.listed i c hc).1, List.not_mem_nil⟩⟩
  | cons d ds ih =>
    intro m segs h hnd hmem
    obtain ⟨hd, hnd'⟩ := List.nodup_cons.mp hnd
    obtain ⟨h₁, k₁⟩ := h.delete (hmem d (List.mem_cons_self ..))
    obtain ⟨h₂, k₂, hrest⟩ := ih h₁ hnd' fun e he =>
      mem_delSeg_of_ne (fun hed => hd (hed ▸ he)) (hmem e (List.mem_cons_of_mem _ he))
    refine ⟨h₂, k₁.trans k₂, fun i c hc => ⟨(hrest i c hc).1, fun hcd => ?_⟩⟩
    rcases List.mem_cons.mp hcd with rfl | hcd
    · exact h.ne_of_mem_delSeg (mem_of_mem_delSegs hc) rfl
    · exact (hrest i c hc).2 hcd

/-- The run `mid` is ready to become the free block `c` once the listed blocks `ds`,
all of `mid` among them, are unlisted. -/
structure Mergeable (hl brk : ℕ) (m : Mem) (l mid r ds : List Block) (segs : ℕ → List Block)
    (c : Block) : Prop where
  rep : Rep hl brk m (l ++ (mid ++ r)) segs
  nodup : ds.Nodup
  listed : ∀ d ∈ ds, d ∈ segs d.level
  mid_sub : ∀ d ∈ mid, d ∈ ds
  free : c.alloc = false
  valid : c.Valid
  left : Tiles Block.addr Block.size (hl + 112) l c.addr
  right : Tiles Block.addr Block.size c.stop r brk

namespace Mergeable

variable {mid ds : List Block}

theorem addr_ge (h : Mergeable hl brk m l mid r ds segs b) : 8 ≤ b.addr := by
  have := h.left.le
  omega

theorem stop_lt (h : Mergeable hl brk m l mid r ds segs b) : b.stop < 2 ^ 32 := by
  have := h.right.le
  have := h.rep.brk_lt
  omega

/-- What is still listed lies outside the run. -/
theorem segs_sub (h : Mergeable hl brk m l mid r ds segs b) :
    ∀ i, ∀ c ∈ ds.foldl delSeg segs i, c ∈ l ++ r := by
  intro i c hc
  obtain ⟨-, -, hrest⟩ := h.rep.deletes h.nodup h.listed
  obtain ⟨hc₁, hc₂⟩ := hrest i c hc
  have hc₃ : c ∉ mid := fun hm => hc₂ (h.mid_sub c hm)
  simp only [List.mem_append] at hc₁ ⊢
  tauto

/-- **Merging a run of free blocks**: they are unlisted, one pair of tags is
written around them, and the block they form is listed. -/
theorem merge (h : Mergeable hl brk m l mid r ds segs b) :
    ∃ m', insertFreeBlock hl
        (putTags (ds.foldl (fun m d => deleteFreeBlock m d.addr) m) b) b.addr = some m' ∧
      Rep hl brk m' (l ++ b :: r) (insSeg (ds.foldl delSeg segs) b) ∧ Keeps (l ++ r) m m' := by
  obtain ⟨h₁, k₁, -⟩ := h.rep.deletes h.nodup h.listed
  have hge : 4 ≤ b.addr := Nat.le_trans (by decide) h.addr_ge
  obtain ⟨m', e, h₂, k₂, -⟩ := Rep.retag_insert [] h₁ h.left
    (Tiles.singleton.mpr ⟨rfl, rfl⟩) h.right h.free h.segs_sub
    (fun c hc => by rw [List.mem_singleton.mp hc]; exact h.valid)
    (agreeOff_putTags _ h.valid hge)
    (fun c hc => by rw [List.mem_singleton.mp hc]; exact tagged_putTags _ h.valid hge h.stop_lt)
  refine ⟨m', e, h₂, (k₁.mono fun c hc _ => ?_).trans k₂⟩
  simp only [List.mem_append] at hc ⊢
  tauto

end Mergeable

/-- Case 1 of `coalesce`: both neighbours allocated. -/
theorem coalesce_none (h : Rep hl brk m (l ++ b :: r) segs)
    (hp : (prevOf hl l).alloc = true) (hn : (nextOf brk r).alloc = true) :
    coalesce hl m b.addr = some (b.addr, m) := by
  simp [coalesce, h.prevAlloc_focus, h.nextAlloc_focus, hp, hn]

/-- Case 2 of `coalesce`: the stores it makes. -/
theorem coalesce_next_eq {n : Block} (h : Rep hl brk m (l ++ b :: n :: r) segs)
    (hb : b ∈ segs b.level) (hns : n ∈ segs n.level)
    (hp : (prevOf hl l).alloc = true) (hn : n.alloc = false) :
    Mergeable hl brk m l [b, n] r [n, b] segs ⟨b.addr, b.size + n.size, false⟩ ∧
      coalesce hl m b.addr = (insertFreeBlock hl
        (putTags ([n, b].foldl (fun m d => deleteFreeBlock m d.addr) m)
          ⟨b.addr, b.size + n.size, false⟩) b.addr).map fun m => (b.addr, m) := by
  have hbm : b ∈ l ++ b :: n :: r := focus_mem
  have hnm : n ∈ l ++ b :: n :: r := by simp
  have hnd : [n, b].Nodup := by
    have := (List.nodup_append.mp h.blocks_nodup).2.1
    simp only [List.nodup_cons, List.mem_cons, not_or] at this
    simp [Ne.symm this.1.1]
  have hds : ∀ d ∈ [n, b], d ∈ segs d.level := by simp [hb, hns]
  have hna : n.addr = b.stop := h.next.1
  have hvb := h.valid b hbm
  have hvn := h.valid n hnm
  have hnlt := h.addr_lt hnm
  have hbb := h.bounds hbm
  have hstop : b.addr + (b.size + n.size) = n.stop := by
    simp only [Block.stop] at *
    omega
  have hv : Block.Valid ⟨b.addr, b.size + n.size, false⟩ :=
    ⟨Nat.dvd_add hvb.dvd hvn.dvd, Nat.le_add_right_of_le hvb.le⟩
  obtain ⟨h₂, -, -⟩ := h.deletes hnd hds
  refine ⟨⟨h, hnd, hds, by simp, rfl, hv, h.tiles.focus.1,
    by rw [Block.stop, ← Nat.add_assoc]; exact h.tiles.focus.2.2⟩, ?_⟩
  have hsize : (b.size + n.size) % 2 ^ 32 = b.size + n.size := by
    refine Nat.mod_eq_of_lt ?_
    simp only [Block.stop] at hstop hnlt
    omega
  simp only [List.foldl_cons, List.foldl_nil] at h₂ ⊢
  have htags := setTags_eq (deleteFreeBlock (deleteFreeBlock m n.addr) b.addr) hv
    (by rw [Block.stop, hstop]; exact hnlt)
  simp only [Bool.toNat_false] at htags
  simp only [coalesce, h.prevAlloc_focus, h.nextAlloc_focus, hp,
    show nextOf brk (n :: r) = n from rfl, hn, Bool.toNat_true, Bool.toNat_false, ne_eq,
    one_ne_zero, not_false_eq_true, not_true_eq_false, and_true, and_false, if_true, if_false]
  simp only [h.nextBlkp_focus, show nextOf brk (n :: r) = n from rfl, h.getSize_hdrp hbm]
  simp only [h₂.nextBlkp_focus, show nextOf brk (n :: r) = n from rfl, h₂.getSize_hdrp hnm, hsize,
    htags]
  rw [Option.map_eq_bind]
  rfl

/-- Case 2 of `coalesce`: the next block is free. -/
theorem coalesce_next {n : Block} (h : Rep hl brk m (l ++ b :: n :: r) segs)
    (hb : b ∈ segs b.level) (hns : n ∈ segs n.level)
    (hp : (prevOf hl l).alloc = true) (hn : n.alloc = false) :
    ∃ m', coalesce hl m b.addr = some (b.addr, m') ∧
      Rep hl brk m' (l ++ ⟨b.addr, b.size + n.size, false⟩ :: r)
        (insSeg (delSeg (delSeg segs n) b) ⟨b.addr, b.size + n.size, false⟩) ∧
      Keeps (l ++ r) m m' := by
  obtain ⟨hm, e⟩ := h.coalesce_next_eq hb hns hp hn
  obtain ⟨m', e', h₃, k₃⟩ := hm.merge
  exact ⟨m', by rw [e, e', Option.map_some], h₃, k₃⟩

/-- `PREV_BLKP(bp)` still finds the previous block `p` after a store off its
footer. -/
theorem prevBlkp_put {p : Block} {q v : ℕ} (h : Rep hl brk m (l ++ b :: r) segs)
    (hp : prevOf hl l = p) (hq : q + 4 ≤ b.addr - 8 ∨ b.addr - 4 ≤ q) :
    (m.put q v).prevBlkp b.addr = p.addr := by
  obtain ⟨h₁, h₂, h₃, h₄, -, h₅⟩ := h.prev
  have hb := h.bounds focus_mem
  have hlt := h.addr_lt focus_mem
  subst hp
  rw [h₁] at h₅
  exact prevBlkp_eq h₂ (by rw [Mem.get_put_disjoint _ (by omega), h₅]) h₁
    (by simp only [Block.stop] at hlt; omega)

/-- Case 3 of `coalesce`: the stores it makes. -/
theorem coalesce_prev_eq {p : Block} (h : Rep hl brk m (l ++ p :: b :: r) segs)
    (hb : b ∈ segs b.level) (hps : p ∈ segs p.level)
    (hp : p.alloc = false) (hn : (nextOf brk r).alloc = true) :
    Mergeable hl brk m l [p, b] r [p, b] segs ⟨p.addr, p.size + b.size, false⟩ ∧
      coalesce hl m b.addr = (insertFreeBlock hl
        (putTags ([p, b].foldl (fun m d => deleteFreeBlock m d.addr) m)
          ⟨p.addr, p.size + b.size, false⟩) p.addr).map fun m => (p.addr, m) := by
  have hbm : b ∈ l ++ p :: b :: r := by simp
  have hpm : p ∈ l ++ p :: b :: r := focus_mem
  have hnd : [p, b].Nodup := by
    have := (List.nodup_append.mp h.blocks_nodup).2.1
    simp only [List.nodup_cons, List.mem_cons, not_or] at this
    simp [this.1.1]
  have hds : ∀ d ∈ [p, b], d ∈ segs d.level := by simp [hb, hps]
  have hb' : b.addr = p.stop := h.next.1
  have hvb := h.valid b hbm
  have hvp := h.valid p hpm
  have hlt := h.addr_lt hbm
  have hbb := h.bounds hpm
  have hassoc : l ++ p :: b :: r = (l ++ [p]) ++ b :: r := by simp
  have hprev : prevOf hl (l ++ [p]) = p := by simp [prevOf]
  have hstop : p.addr + (p.size + b.size) = b.stop := by
    simp only [Block.stop] at *
    omega
  set new : Block := ⟨p.addr, p.size + b.size, false⟩ with hnew
  have hv : new.Valid := ⟨Nat.dvd_add hvp.dvd hvb.dvd, Nat.le_add_right_of_le hvp.le⟩
  have hna : new.addr = p.addr := rfl
  have hge : 4 ≤ new.addr := by omega
  have h₀ := h
  rw [hassoc] at h₀
  obtain ⟨h₂, -, -⟩ := h.deletes hnd hds
  refine ⟨⟨h, hnd, hds, by simp, rfl, hv, h.tiles.focus.1,
    by rw [Block.stop, ← Nat.add_assoc]; exact h.tiles.focus.2.2⟩, ?_⟩
  have hsize : (b.size + p.size) % 2 ^ 32 = p.size + b.size := by
    rw [Nat.add_comm]
    refine Nat.mod_eq_of_lt ?_
    simp only [Block.stop] at hstop hlt
    omega
  rw [hassoc] at h₂
  simp only [List.foldl_cons, List.foldl_nil] at h₂ ⊢
  simp only [coalesce, h₀.prevAlloc_focus, h₀.nextAlloc_focus, hprev, hp, hn, Bool.toNat_true,
    Bool.toNat_false, ne_eq, one_ne_zero, not_false_eq_true, not_true_eq_false, and_true,
    and_false, if_true, if_false]
  simp only [h₀.prevBlkp_focus, hprev, h₀.getSize_hdrp focus_mem]
  generalize deleteFreeBlock (deleteFreeBlock m p.addr) b.addr = m₂ at h₂ ⊢
  have htag : pack (p.size + b.size) 0 = new.tag := rfl
  have hstop' : new.stop = b.stop := hstop
  have hle := hvb.le
  have hle' := hvp.le
  -- the footer is stored first, then the header through `PREV_BLKP`
  have hprev₁ : ∀ v, (m₂.put (b.stop - 8) v).prevBlkp b.addr = p.addr := fun v =>
    h₂.prevBlkp_put hprev (.inr (by simp only [Block.stop]; omega))
  have hcomm := putTags_comm m₂ hv hge
  have hprev₂ : (putTags m₂ new).prevBlkp b.addr = p.addr := by
    have hf := h₂.prev.2.2.2.2.2
    rw [hprev, ← hb'] at hf
    refine prevBlkp_eq hvp.dvd ?_ hb'.symm (by simp only [Block.stop] at hlt; omega)
    rw [putTags, hstop', hna, Mem.get_put_disjoint _ (by simp only [Block.stop] at *; omega),
      Mem.get_put_disjoint _ (by simp only [Block.stop, hdrp, wsize] at *; omega), hf]
  rw [hstop'] at hcomm
  simp only [h₂.prevBlkp_focus, hprev, h₂.getSize_hdrp (by simp : p ∈ l ++ [p] ++ b :: r), hsize,
    h₂.ftrp_focus, htag, hprev₁]
  rw [show hdrp p.addr = hdrp new.addr from rfl, hcomm, hprev₂]
  rw [Option.map_eq_bind]
  rfl

/-- Case 3 of `coalesce`: the previous block is free. -/
theorem coalesce_prev {p : Block} (h : Rep hl brk m (l ++ p :: b :: r) segs)
    (hb : b ∈ segs b.level) (hps : p ∈ segs p.level)
    (hp : p.alloc = false) (hn : (nextOf brk r).alloc = true) :
    ∃ m', coalesce hl m b.addr = some (p.addr, m') ∧
      Rep hl brk m' (l ++ ⟨p.addr, p.size + b.size, false⟩ :: r)
        (insSeg (delSeg (delSeg segs p) b) ⟨p.addr, p.size + b.size, false⟩) ∧
      Keeps (l ++ r) m m' := by
  obtain ⟨hm, e⟩ := h.coalesce_prev_eq hb hps hp hn
  obtain ⟨m', e', h₃, k₃⟩ := hm.merge
  exact ⟨m', by rw [e, e', Option.map_some], h₃, k₃⟩

/-- Case 4 of `coalesce`: the stores it makes. -/
theorem coalesce_both_eq {p n : Block} (h : Rep hl brk m (l ++ p :: b :: n :: r) segs)
    (hb : b ∈ segs b.level) (hps : p ∈ segs p.level) (hns : n ∈ segs n.level)
    (hp : p.alloc = false) (hn : n.alloc = false) :
    Mergeable hl brk m l [p, b, n] r [p, n, b] segs
        ⟨p.addr, p.size + b.size + n.size, false⟩ ∧
      coalesce hl m b.addr = (insertFreeBlock hl
        (putTags ([p, n, b].foldl (fun m d => deleteFreeBlock m d.addr) m)
          ⟨p.addr, p.size + b.size + n.size, false⟩) p.addr).map fun m => (p.addr, m) := by
  have hpm : p ∈ l ++ p :: b :: n :: r := focus_mem
  have hbm : b ∈ l ++ p :: b :: n :: r := by simp
  have hnm : n ∈ l ++ p :: b :: n :: r := by simp
  have hdist := (List.nodup_append.mp h.blocks_nodup).2.1
  simp only [List.nodup_cons, List.mem_cons, not_or] at hdist
  have hnd : [p, n, b].Nodup := by simp [hdist.1.1, hdist.1.2.1, Ne.symm hdist.2.1.1]
  have hds : ∀ d ∈ [p, n, b], d ∈ segs d.level := by simp [hb, hps, hns]
  have hassoc : l ++ p :: b :: n :: r = (l ++ [p]) ++ b :: n :: r := by simp
  have hassoc' : l ++ p :: b :: n :: r = (l ++ [p, b]) ++ n :: r := by simp
  have hprev : prevOf hl (l ++ [p]) = p := by simp [prevOf]
  have hnext : nextOf brk (n :: r) = n := rfl
  have h₀ := h
  rw [hassoc] at h₀
  have hb' : b.addr = p.stop := h.next.1
  have hn' : n.addr = b.stop := h₀.next.1
  have hvp := h.valid p hpm
  have hvb := h.valid b hbm
  have hvn := h.valid n hnm
  have hlt := h.addr_lt hnm
  have hbb := h.bounds hpm
  have hle := hvb.le
  have hle' := hvp.le
  have hle'' := hvn.le
  have hstop : p.addr + (p.size + b.size + n.size) = n.stop := by
    simp only [Block.stop] at *
    omega
  set new : Block := ⟨p.addr, p.size + b.size + n.size, false⟩ with hnew
  have hv : new.Valid :=
    ⟨Nat.dvd_add (Nat.dvd_add hvp.dvd hvb.dvd) hvn.dvd,
      Nat.le_add_right_of_le (Nat.le_add_right_of_le hvp.le)⟩
  have hna : new.addr = p.addr := rfl
  have hge : 4 ≤ new.addr := by omega
  obtain ⟨h₁, -⟩ := h.delete hps
  obtain ⟨h₂, -, -⟩ := h.deletes hnd hds
  refine ⟨⟨h, hnd, hds, by simp, rfl, hv, h.tiles.focus.1, by
    rw [Block.stop, show new.addr + new.size = p.addr + p.size + b.size + n.size by
      simp only [hnew]; omega]
    exact h.tiles.focus.2.2.2⟩, ?_⟩
  have hsize : (b.size + (p.size + n.size)) % 2 ^ 32 = p.size + b.size + n.size := by
    rw [show b.size + (p.size + n.size) = p.size + b.size + n.size by omega]
    refine Nat.mod_eq_of_lt ?_
    simp only [Block.stop] at hstop hlt
    omega
  have h₄ := h₂
  rw [hassoc] at h₁ h₂
  rw [hassoc'] at h₄
  simp only [List.foldl_cons, List.foldl_nil] at h₂ h₄ ⊢
  simp only [coalesce, h₀.prevAlloc_focus, h₀.nextAlloc_focus, hprev, hnext, hp, hn,
    Bool.toNat_false, ne_eq, not_true_eq_false, and_true, and_false, if_false]
  simp only [h₀.prevBlkp_focus, hprev, h₀.getSize_hdrp focus_mem, h₁.nextBlkp_focus, hnext]
  generalize deleteFreeBlock (deleteFreeBlock (deleteFreeBlock m p.addr) n.addr) b.addr = m₃
    at h₂ h₄ ⊢
  have htag : pack (p.size + b.size + n.size) 0 = new.tag := rfl
  have hstop' : new.stop = n.stop := hstop
  -- the header is stored first, then the footer of the next block
  have hnext₁ : ∀ v, (m₃.put (hdrp p.addr) v).nextBlkp b.addr = n.addr := fun v => by
    rw [hn']
    refine nextBlkp_eq hvb.dvd ?_ (h₂.addr_lt focus_mem)
    rw [Mem.get_put_disjoint _ (by simp only [Block.stop, hdrp, wsize] at *; omega)]
    exact h₂.header focus_mem
  have hftr₁ : ∀ v, (m₃.put (hdrp p.addr) v).ftrp n.addr = n.stop - 8 := fun v => by
    refine ftrp_eq hvn.dvd ?_ (by simp only [Block.stop]; omega) hlt
    rw [Mem.get_put_disjoint _ (by simp only [Block.stop, hdrp, wsize] at *; omega)]
    exact h₄.header focus_mem
  have hprev₂ : (putTags m₃ new).prevBlkp b.addr = p.addr := by
    have hf := h₂.prev.2.2.2.2.2
    rw [hprev, ← hb'] at hf
    refine prevBlkp_eq hvp.dvd ?_ hb'.symm (by simp only [Block.stop] at *; omega)
    rw [putTags, hstop', hna, Mem.get_put_disjoint _ (by simp only [Block.stop] at *; omega),
      Mem.get_put_disjoint _ (by simp only [Block.stop, hdrp, wsize] at *; omega), hf]
  have hfoot : m₃.getSize (n.stop - 8) = n.size :=
    getSize_of_tag hvn.dvd (h₄.tags n focus_mem).2
  have hput : (m₃.put (hdrp p.addr) new.tag).put (n.stop - 8) new.tag = putTags m₃ new := by
    rw [putTags, hstop', hna]
  simp only [h₂.prevBlkp_focus, hprev, h₂.getSize_hdrp (by simp : p ∈ l ++ [p] ++ b :: n :: r),
    h₂.nextBlkp_focus, hnext, h₄.ftrp_focus, hfoot, hsize, htag, hnext₁, hftr₁, hput, hprev₂]
  rw [Option.map_eq_bind]
  rfl

/-- Case 4 of `coalesce`: both neighbours are free. -/
theorem coalesce_both {p n : Block} (h : Rep hl brk m (l ++ p :: b :: n :: r) segs)
    (hb : b ∈ segs b.level) (hps : p ∈ segs p.level) (hns : n ∈ segs n.level)
    (hp : p.alloc = false) (hn : n.alloc = false) :
    ∃ m', coalesce hl m b.addr = some (p.addr, m') ∧
      Rep hl brk m' (l ++ ⟨p.addr, p.size + b.size + n.size, false⟩ :: r)
        (insSeg (delSeg (delSeg (delSeg segs p) n) b)
          ⟨p.addr, p.size + b.size + n.size, false⟩) ∧
      Keeps (l ++ r) m m' := by
  obtain ⟨hm, e⟩ := h.coalesce_both_eq hb hps hns hp hn
  obtain ⟨m', e', h₃, k₃⟩ := hm.merge
  exact ⟨m', by rw [e, e', Option.map_some], h₃, k₃⟩

/-- **`coalesce`** merges a free block with its free neighbours, whichever
there are. -/
theorem coalesce (h : Rep hl brk m (l ++ b :: r) segs) (hfree : b.alloc = false)
    (hb : b ∈ segs b.level)
    (hps : (prevOf hl l).alloc = false → prevOf hl l ∈ segs (prevOf hl l).level)
    (hns : (nextOf brk r).alloc = false → nextOf brk r ∈ segs (nextOf brk r).level) :
    ∃ m', SysProgLab.coalesce hl m b.addr = some ((mergedBlock hl brk l b r).addr, m') ∧
      Rep hl brk m' (mergedBlocks hl brk l b r) (mergedSegs hl brk l b r segs) ∧
      Keeps (l ++ r) m m' := by
  have hp' := h.prev.1
  have hn' := h.next.1
  -- an allocated neighbour is on no list, so deleting it changes nothing
  have hdel : ∀ x : Block, x.alloc = true → delSeg segs x = segs := fun x hx =>
    delSeg_of_not_mem fun hm => by
      have := (h.listed _ x hm).2.1
      rw [hx] at this
      cases this
  have hdel' : ∀ x y : Block, x.alloc = true → delSeg (delSeg segs y) x = delSeg segs y :=
    fun x y hx => delSeg_of_not_mem fun hm => by
      have := (h.listed _ x (mem_of_mem_delSeg hm)).2.1
      rw [hx] at this
      cases this
  simp only [mergedBlocks, mergedSegs, mergedBlock, mergeStart, mergeStop, restL, restR]
  cases hp : (prevOf hl l).alloc with
  | true =>
    cases hn : (nextOf brk r).alloc with
    | true =>
      refine ⟨m, h.coalesce_none hp hn, ?_, Keeps.refl _ _⟩
      have hbb : (⟨b.addr, b.stop - b.addr, false⟩ : Block) = b := by
        rw [Block.stop, Nat.add_sub_cancel_left, ← hfree]
      simpa [hbb] using h
    | false =>
      have hr := eq_cons_nextOf hn
      have hns' := hns hn
      generalize nextOf brk r = n at *
      generalize r.tail = r' at *
      subst hr
      obtain ⟨m', e, h₁, k₁⟩ := h.coalesce_next hb hns' hp hn
      have hsz : n.stop - b.addr = b.size + n.size := by
        simp only [Block.stop] at *
        omega
      refine ⟨m', by simpa using e, by simpa [hsz, hdel _ hp] using h₁, k₁.mono ?_⟩
      intro c hc hca
      have hcn : c ≠ n := by rintro rfl; simp [hn] at hca
      simpa [hcn] using hc
  | false =>
    have hl' := eq_append_prevOf hp
    have hps' := hps hp
    cases hn : (nextOf brk r).alloc with
    | true =>
      generalize prevOf hl l = p at *
      generalize l.dropLast = l' at *
      subst hl'
      rw [List.append_assoc, List.singleton_append] at h
      obtain ⟨m', e, h₁, k₁⟩ := h.coalesce_prev hb hps' hp hn
      have hsz : b.stop - p.addr = p.size + b.size := by
        simp only [Block.stop] at *
        omega
      refine ⟨m', by simpa using e, by simpa [hsz, hdel' _ _ hn] using h₁, k₁.mono ?_⟩
      intro c hc hca
      have hcp : c ≠ p := by rintro rfl; simp [hp] at hca
      simpa [hcp] using hc
    | false =>
      have hr := eq_cons_nextOf hn
      have hns' := hns hn
      generalize prevOf hl l = p at *
      generalize l.dropLast = l' at *
      generalize nextOf brk r = n at *
      generalize r.tail = r' at *
      subst hl'
      subst hr
      rw [List.append_assoc, List.singleton_append] at h
      obtain ⟨m', e, h₁, k₁⟩ := h.coalesce_both hb hps' hns' hp hn
      have hsz : n.stop - p.addr = p.size + b.size + n.size := by
        simp only [Block.stop] at *
        omega
      refine ⟨m', by simpa using e, by simpa [hsz] using h₁, k₁.mono ?_⟩
      intro c hc hca
      have hcn : c ≠ n := by rintro rfl; simp [hn] at hca
      have hcp : c ≠ p := by rintro rfl; simp [hp] at hca
      simpa [hcn, hcp] using hc

end Rep

end SysProgLab
