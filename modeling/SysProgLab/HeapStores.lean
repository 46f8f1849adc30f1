import SysProgLab.HeapOps
import SysProgLab.Stores

/-!
# The words that the allocator stores

Whatever the allocator stores is a tag of a block, a link of a block or a link of a root,
so the second word of a root, which stands before the next root, is never stored. Without
`mm_malloc` there are only tags of free blocks, links and `NULL`s, all of them even
numbers at aligned addresses.
-/

namespace SysProgLab

/-- The word at `p` is not the second word of a root. -/
def OffRoots (hl p : ℕ) : Prop := 8 ∣ p ∨ hl + 96 ≤ p

/-- A store of an even number at an aligned address, off the second words of the roots. -/
def Clearing (hl p v : ℕ) : Prop := 4 ∣ p ∧ 2 ∣ v ∧ OffRoots hl p

theorem Clearing.offRoots {hl p v : ℕ} (h : Clearing hl p v) : OffRoots hl p := h.2.2

/-- The address of a link of a block. -/
theorem clearing_link {hl p v x : ℕ} (hx : 8 ∣ x) (hge : hl + 112 ≤ x) (hp : p = x ∨ p = x + 4)
    (hv : 8 ∣ v) : Clearing hl p v := by
  exact ⟨by omega, by omega, .inr (by omega)⟩

/-- The second word of a root is as it was. -/
theorem Stores.get_root {hl i : ℕ} {m m' : Mem} (h : Stores (fun p _ => OffRoots hl p) m m')
    (hbase : 8 ∣ hl) (hi : i < nSeglist) :
    m'.get (hdrp (rootAddr hl i)) = m.get (hdrp (rootAddr hl i)) := by
  refine h.get_eq fun p v hp => ?_
  simp only [hdrp, wsize, rootAddr, dsize, nSeglist] at *
  rcases hp with hp | hp <;> omega

/-! ## Tags -/

/-- The tags of a free block. -/
theorem putTags_clearing {hl : ℕ} {c : Block} (m : Mem) (hv : c.Valid) (hfree : c.alloc = false)
    (hc : 8 ∣ c.addr) (hge : hl + 112 ≤ c.addr) : Stores (Clearing hl) m (putTags m c) := by
  have h8 := hv.dvd
  have h16 := hv.le
  have htag : c.tag = c.size := by
    rw [Block.tag_eq h8, hfree]
    rfl
  rw [putTags, htag]
  refine (Stores.single ⟨?_, by omega, .inr ?_⟩).put ⟨?_, by omega, .inr ?_⟩ <;>
    simp only [hdrp, wsize, Block.stop] <;> omega

/-- The tags of any block. -/
theorem putTags_offRoots {hl : ℕ} {c : Block} (m : Mem) (hv : c.Valid) (hge : hl + 112 ≤ c.addr) :
    Stores (fun p _ => OffRoots hl p) m (putTags m c) := by
  have h16 := hv.le
  rw [putTags]
  refine (Stores.single (.inr ?_)).put (.inr ?_) <;> simp only [hdrp, wsize, Block.stop] <;> omega

/-! ## Links -/

namespace Rep

variable {hl brk : ℕ} {m m' : Mem} {bs l r : List Block} {segs : ℕ → List Block} {b c : Block}

/-- Nodes are aligned and lie behind the roots. -/
theorem node_ge (h : Rep hl brk m bs segs) {i x : ℕ} (hx : x ∈ (segs i).map Block.addr) :
    8 ∣ x ∧ hl + 112 ≤ x := by
  obtain ⟨c, hc, rfl⟩ := List.mem_map.mp hx
  have hcb := (h.listed i c hc).1
  exact ⟨h.dvd_addr hcb, (h.bounds hcb).1⟩

/-- Roots and nodes are aligned. -/
theorem dvd_node (h : Rep hl brk m bs segs) {i x : ℕ}
    (hx : x ∈ rootAddr hl i :: (segs i).map Block.addr) : 8 ∣ x := by
  rcases List.mem_cons.mp hx with rfl | hx
  · have := h.base_dvd
    simp only [rootAddr, dsize]
    omega
  · exact (h.node_ge hx).1

theorem headD_dvd {xs : List ℕ} (h : ∀ x ∈ xs, 8 ∣ x) : 8 ∣ xs.headD 0 := by
  cases xs with
  | nil => exact ⟨0, rfl⟩
  | cons x xs => exact h x (List.mem_cons_self ..)

/-- `delete_free_block` stores links. -/
theorem delete_stores (h : Rep hl brk m bs segs) (hb : b ∈ segs b.level) :
    Stores (Clearing hl) m (deleteFreeBlock m b.addr) := by
  have hi : b.level < nSeglist := getSegLevel_lt _
  obtain ⟨xs, ys, hsplit⟩ := List.append_of_mem hb
  have hchain := h.chain _ hi
  have hnode : ∀ x ∈ rootAddr hl b.level :: (segs b.level).map Block.addr, 8 ∣ x :=
    fun x hx => h.dvd_node hx
  have hge : ∀ x ∈ (segs b.level).map Block.addr, hl + 112 ≤ x := fun x hx => (h.node_ge hx).2
  rw [hsplit, List.map_append, List.map_cons] at hchain hnode hge
  have hnx : 8 ∣ m.get b.addr := by
    rw [hchain.next_eq]
    exact headD_dvd fun x hx => hnode x (by simp [hx])
  have hpv : 8 ∣ m.get (b.addr + 4) := by
    rw [hchain.back_eq]
    exact hnode _ (List.mem_append_left (_ :: _) (getLastD_mem_cons _ _))
  refine Stores.unlink ⟨by omega, by omega, .inl hpv⟩ fun h0 => ?_
  refine clearing_link hnx ?_ (.inr rfl) hpv
  rw [hchain.next_eq] at h0 ⊢
  exact hge _ (List.mem_append_right _ (List.mem_cons_of_mem _ (headD_mem_of_ne_zero h0)))

theorem deletes_stores : ∀ {ds : List Block} {m : Mem} {segs : ℕ → List Block},
    Rep hl brk m bs segs → ds.Nodup → (∀ d ∈ ds, d ∈ segs d.level) →
    Stores (Clearing hl) m (ds.foldl (fun m d => deleteFreeBlock m d.addr) m) := by
  intro ds
  induction ds with
  | nil => exact fun _ _ _ => .refl
  | cons d ds ih =>
    intro m segs h hnd hmem
    obtain ⟨hd, hnd'⟩ := List.nodup_cons.mp hnd
    have hdm := hmem d (List.mem_cons_self ..)
    refine (h.delete_stores hdm).trans (ih (h.delete hdm).1 hnd' fun e he => ?_)
    exact mem_delSeg_of_ne (fun hed => hd (hed ▸ he)) (hmem e (List.mem_cons_of_mem _ he))

/-- `insert_free_block` stores links. -/
theorem insert_stores (h : Rep hl brk m bs segs) (hb : b ∈ bs)
    (e : insertFreeBlock hl m b.addr = some m') : Stores (Clearing hl) m m' := by
  have hi : b.level < nSeglist := getSegLevel_lt _
  rw [insertFreeBlock_eq (h.getSize_hdrp hb) (h.chain _ hi) h.node_size (h.length_lt _)] at e
  obtain rfl := Option.some.inj e
  have hsub : ∀ {xs : List Block}, xs.Sublist (segs b.level) → ∀ x ∈ xs.map Block.addr,
      x ∈ (segs b.level).map Block.addr := fun hs x hx => (hs.map _).mem hx
  have h8 := h.dvd_addr hb
  have hge := (h.bounds hb).1
  have hpv : ∀ {xs : List Block}, xs.Sublist (segs b.level) →
      8 ∣ (xs.map Block.addr).getLastD (rootAddr hl b.level) := by
    intro xs hs
    rcases List.mem_cons.mp (getLastD_mem_cons (xs.map Block.addr) (rootAddr hl b.level)) with
      he | hm
    · rw [he]
      exact h.dvd_node (List.mem_cons_self ..)
    · exact (h.node_ge (hsub hs _ hm)).1
  have hnx : ∀ {ys : List Block}, ys.Sublist (segs b.level) → 8 ∣ (ys.map Block.addr).headD 0 :=
    fun hs => headD_dvd fun x hx => (h.node_ge (hsub hs x hx)).1
  have hpv' := hpv (List.takeWhile_sublist fun c : Block => decide (c.size < b.size))
  have hnx' := hnx (List.dropWhile_sublist fun c : Block => decide (c.size < b.size))
  refine Stores.link m ⟨by omega, by omega, .inl hpv'⟩ (clearing_link h8 hge (.inr rfl) hpv')
    (clearing_link h8 hge (.inl rfl) hnx') fun h0 => clearing_link hnx' ?_ (.inr rfl) h8
  exact (h.node_ge (hsub (List.dropWhile_sublist _) _ (headD_mem_of_ne_zero h0))).2

/-- A merge stores tags of a free block and links. -/
theorem Mergeable.stores {mid ds : List Block} (h : Mergeable hl brk m l mid r ds segs b)
    (e : insertFreeBlock hl
      (putTags (ds.foldl (fun m d => deleteFreeBlock m d.addr) m) b) b.addr = some m') :
    Stores (Clearing hl) m m' := by
  obtain ⟨h₁, -, -⟩ := h.rep.deletes h.nodup h.listed
  have hge : 4 ≤ b.addr := Nat.le_trans (by decide) h.addr_ge
  obtain ⟨h₂, -⟩ := h₁.retag h.left (Tiles.singleton.mpr ⟨rfl, rfl⟩) h.right h.segs_sub
    (fun c hc => by rw [List.mem_singleton.mp hc]; exact h.valid)
    (agreeOff_putTags _ h.valid hge)
    (fun c hc => by rw [List.mem_singleton.mp hc]; exact tagged_putTags _ h.valid hge h.stop_lt)
  have hb : b ∈ l ++ ([b] ++ r) := by simp
  exact (h.rep.deletes_stores h.nodup h.listed).trans ((putTags_clearing _ h.valid h.free
    (h₂.dvd_addr hb) (h₂.bounds hb).1).trans (h₂.insert_stores hb e))

/-- `coalesce` stores tags of a free block and links. -/
theorem coalesce_stores (h : Rep hl brk m (l ++ b :: r) segs) (hb : b ∈ segs b.level)
    (hps : (prevOf hl l).alloc = false → prevOf hl l ∈ segs (prevOf hl l).level)
    (hns : (nextOf brk r).alloc = false → nextOf brk r ∈ segs (nextOf brk r).level) {bp : ℕ}
    (e : SysProgLab.coalesce hl m b.addr = some (bp, m')) : Stores (Clearing hl) m m' := by
  have hmerge : ∀ {mid ds l' r' : List Block} {c : Block},
      Mergeable hl brk m l' mid r' ds segs c ∧ SysProgLab.coalesce hl m b.addr =
        (insertFreeBlock hl (putTags (ds.foldl (fun m d => deleteFreeBlock m d.addr) m) c)
          c.addr).map (fun m => (c.addr, m)) → Stores (Clearing hl) m m' := by
    rintro mid ds l' r' c ⟨hm, e'⟩
    rw [e'] at e
    obtain ⟨m₁, e₁, he⟩ := Option.map_eq_some_iff.mp e
    cases he
    exact hm.stores e₁
  cases hp : (prevOf hl l).alloc with
  | true =>
    cases hn : (nextOf brk r).alloc with
    | true =>
      rw [h.coalesce_none hp hn] at e
      cases e
      exact .refl
    | false =>
      have hns' := hns hn
      rw [eq_cons_nextOf hn] at h
      exact hmerge (h.coalesce_next_eq hb hns' hp hn)
  | false =>
    have hps' := hps hp
    rw [eq_append_prevOf hp, List.append_assoc, List.singleton_append] at h
    cases hn : (nextOf brk r).alloc with
    | true => exact hmerge (h.coalesce_prev_eq hb hps' hp hn)
    | false =>
      have hns' := hns hn
      rw [eq_cons_nextOf hn] at h
      exact hmerge (h.coalesce_both_eq hb hps' hns' hp hn)

/-- A free block is listed and merged with its free neighbours. -/
theorem settle_stores {m₁ : Mem} {bp : ℕ} (h : Rep hl brk m (l ++ c :: r) segs)
    (hc : c.alloc = false) (hnew : c ∉ segs c.level) (hfull : Full (l ++ r) segs)
    (e₁ : insertFreeBlock hl m c.addr = some m₁)
    (e₂ : SysProgLab.coalesce hl m₁ c.addr = some (bp, m')) : Stores (Clearing hl) m m' := by
  have hlist : ∀ d ∈ l ++ r, d.alloc = false → d ∈ insSeg segs c d.level :=
    fun d hd hfree => mem_insSeg.mpr (.inl (hfull d hd hfree))
  obtain ⟨m₂, e₁', h₁, -⟩ := h.insert focus_mem hc hnew
  obtain rfl : m₁ = m₂ := Option.some.inj (e₁.symm.trans e₁')
  exact (h.insert_stores focus_mem e₁).trans (h₁.coalesce_stores (mem_insSeg.mpr (.inr ⟨rfl, rfl⟩))
    (fun hp => hlist _ (List.mem_append_left _ (prevOf_mem hp)) hp)
    (fun hn => hlist _ (List.mem_append_right _ (nextOf_mem hn)) hn) e₂)

end Rep

/-! ## The interface -/

/-- What a split stores, the free part of which is listed and merged. -/
theorem Ready.split_stores {L : Layout} {m m₁ m' : Mem} {l mid r : List Block}
    {segs : ℕ → List Block} {s t asize : ℕ} (h : Ready L m m₁ l mid r segs s t asize)
    (hbig : minBlkSize ≤ t - s - asize)
    (e : ((insertFreeBlock L.hl (splitTags m₁ s asize (t - s - asize)).2
        (splitTags m₁ s asize (t - s - asize)).1).bind fun m =>
      (coalesce L.hl m (splitTags m₁ s asize (t - s - asize)).1).bind fun x => some x.2) =
        some m') : Stores (fun p _ => OffRoots L.hl p) m₁ m' := by
  have hge := h.left.le
  obtain ⟨hsplit, htiles, hv, hag, htag, -⟩ :=
    h.rep.split_tags h.left h.right h.dvd h.asize_dvd h.le_asize hbig h.agree
  obtain ⟨h₁, -⟩ := h.rep.retag h.left htiles h.right h.unlisted hv hag htag
  rw [hsplit] at h₁ e
  obtain ⟨m₂, e₁, e⟩ := Option.bind_eq_some_iff.mp e
  obtain ⟨⟨bp, m₃⟩, e₂, e⟩ := Option.bind_eq_some_iff.mp e
  obtain rfl : m₃ = m' := Option.some.inj e
  have hassoc : l ++ ([⟨s, asize, true⟩] ++ [⟨s + asize, t - s - asize, false⟩] ++ r) =
      (l ++ [⟨s, asize, true⟩]) ++ (⟨s + asize, t - s - asize, false⟩ : Block) :: r := by simp
  rw [hassoc] at h₁
  have hnew : ∀ i, (⟨s + asize, t - s - asize, false⟩ : Block) ∉ segs i := by
    intro i hi
    have hnot := (List.nodup_cons.mp (List.nodup_middle.mp h₁.blocks_nodup)).1
    have hmem := h.unlisted i _ hi
    simp only [List.mem_append] at hmem hnot
    tauto
  have hfull : Full (l ++ [⟨s, asize, true⟩] ++ r) segs := by
    intro c hc hfree
    refine h.full c ?_ hfree
    have hne : c ≠ ⟨s, asize, true⟩ := by
      rintro rfl
      cases hfree
    simpa [hne] using hc
  have htags : Stores (fun p _ => OffRoots L.hl p) m₁
      (putTags (putTags m₁ ⟨s, asize, true⟩) ⟨s + asize, t - s - asize, false⟩) :=
    (putTags_offRoots m₁ (hv _ (by simp)) hge).trans
      (putTags_offRoots _ (hv _ (by simp)) (Nat.le_add_right_of_le hge))
  exact htags.trans ((h₁.settle_stores rfl (hnew _) hfull e₁ e₂).mono fun _ _ => Clearing.offRoots)

namespace Layout

variable {L : Layout} {m m' : Mem} {b : Block} {asize n : ℕ}

/-- What `mm_free` stores: the tags of the block first. -/
theorem RepBy.free_stores {m₁ : Mem} {bp : ℕ} (h : L.RepBy m) (hb : b ∈ L.blocks)
    (ha : b.alloc = true) (e₁ : insertFreeBlock L.hl (setTags m b.addr b.size 0) b.addr = some m₁)
    (e₂ : coalesce L.hl m₁ b.addr = some (bp, m')) :
    Stores (Clearing L.hl) m (putTags m { b with alloc := false }) ∧
      Stores (Clearing L.hl) (putTags m { b with alloc := false }) m' := by
  have hv := h.rep.valid b hb
  have h8 := h.rep.dvd_addr hb
  have hge := (h.rep.bounds hb).1
  have hready := h.ready_alloc hb ha hv.dvd hv.le (le_refl _)
  obtain ⟨hset, h₀, hnew, -⟩ := h.untag hb ha
  rw [hset] at e₁
  exact ⟨putTags_clearing m ⟨hv.dvd, hv.le⟩ rfl h8 hge,
    h₀.settle_stores rfl (hnew _) hready.full e₁ e₂⟩

/-- What `place` stores. -/
theorem RepBy.place_stores (h : L.RepBy m) (hb : b ∈ L.blocks) (hfree : b.alloc = false)
    (hd : 8 ∣ asize) (h16 : 16 ≤ asize) (hle : asize ≤ b.size)
    (e : SysProgLab.place L.hl m b.addr asize = some m') :
    Stores (fun p _ => OffRoots L.hl p) m m' := by
  obtain ⟨hready, -⟩ := h.ready_place hb hfree hd h16 hle
  have hlt := h.rep.addr_lt hb
  have hge := (h.rep.bounds hb).1
  have hdel := (h.rep.delete_stores (h.ok.full b hb hfree)).mono fun _ _ => Clearing.offRoots
  have hsub : sub32 b.size asize = b.stop - b.addr - asize := by
    rw [sub32_eq hle (by simp only [Block.stop] at hlt; omega)]
    simp only [Block.stop]
    omega
  simp only [SysProgLab.place, h.rep.getAlloc_hdrp hb, h.rep.getSize_hdrp hb, hfree, hsub,
    Bool.toNat_false, if_true] at e
  refine hdel.trans ?_
  by_cases hbig : minBlkSize ≤ b.stop - b.addr - asize
  · rw [if_pos hbig] at e
    exact hready.split_stores hbig e
  · rw [if_neg hbig] at e
    have hset := setTags_eq (b := ⟨b.addr, b.size, true⟩) (deleteFreeBlock m b.addr)
      ⟨(h.rep.valid b hb).dvd, (h.rep.valid b hb).le⟩ hlt
    obtain rfl := Option.some.inj (hset ▸ e)
    exact putTags_offRoots _ ⟨(h.rep.valid b hb).dvd, (h.rep.valid b hb).le⟩ hge

/-- What `extend_heap` stores after `mem_sbrk` grows the heap. -/
theorem RepBy.grow_stores {m₁ : Mem} {bp : ℕ} (h : L.RepBy m) (hd : 8 ∣ n) (h16 : 16 ≤ n)
    (hlt : L.brk + n < 2 ^ 32)
    (e₁ : insertFreeBlock L.hl
      ((setTags m L.brk n 0).put (hdrp ((setTags m L.brk n 0).nextBlkp L.brk)) (pack 0 1))
      L.brk = some m₁)
    (e₂ : coalesce L.hl m₁ L.brk = some (bp, m')) :
    Stores (fun p _ => OffRoots L.hl p) m m' := by
  obtain ⟨hset, h₁, -, hnew⟩ := h.grow_tags hd h16 hlt
  have hle := h.rep.tiles.le
  rw [hset] at e₁
  have hsettle := h₁.settle_stores rfl (fun hm => hnew (h.rep.listed _ _ hm).1)
    (by rw [List.append_nil]; exact h.ok.full) e₁ e₂
  refine ((putTags_offRoots m ⟨hd, h16⟩ hle).put (.inr ?_)).trans
    (hsettle.mono fun _ _ => Clearing.offRoots)
  simp only [hdrp, wsize]
  omega

end Layout

/-- What `extend_heap` stores. -/
theorem extendHeap_stores {h h' : Heap} {L : Layout} {n q : ℕ} (hL : L.RepBy h.mem)
    (hl : h.heapListp = L.hl) (hbrk : h.memBrk = L.brk) (h8 : 8 ∣ n) (h16 : 16 ≤ n)
    (hn : n < 2 ^ 31) (hw : h.NoWrap n) (hle : L.brk + n ≤ h.memMaxAddr)
    (hmax : h.memMaxAddr < 2 ^ 32) (e : extendHeap h (n / wsize) = some (q, h')) :
    Stores (fun p _ => OffRoots L.hl p) h.mem h'.mem := by
  rw [← hbrk] at hle
  simp only [extendHeap, extendHeap_size h8 (by omega), memSbrk_grant hn hw hle, hl, hbrk,
    Option.bind_eq_bind] at e
  obtain ⟨m₁, e₁, e⟩ := Option.bind_eq_some_iff.mp e
  obtain ⟨x, e₂, e⟩ := Option.bind_eq_some_iff.mp e
  cases e
  exact hL.grow_stores h8 h16 (by omega) e₁ e₂

namespace Heap.Models

variable {h h' : Heap} {L : Layout} {b : Block} {size q : ℕ}

/-- **What `mm_free` stores.** -/
theorem mmFree_stores (hL : h.Models L) (hb : b ∈ L.blocks) (ha : b.alloc = true)
    (e : SysProgLab.mmFree h b.addr = some h') : Stores (Clearing L.hl) h.mem h'.mem := by
  have hbb := hL.repBy.rep.bounds hb
  rw [SysProgLab.mmFree, hL.repBy.rep.getAlloc_hdrp hb, hL.repBy.rep.getSize_hdrp hb, ha, hL.listp,
    if_neg (by simp; omega)] at e
  obtain ⟨m₁, e₁, e⟩ := Option.bind_eq_some_iff.mp e
  obtain ⟨x, e₂, e⟩ := Option.bind_eq_some_iff.mp e
  cases e
  obtain ⟨k₁, k₂⟩ := hL.repBy.free_stores hb ha e₁ e₂
  exact k₁.trans k₂

/-- **What `mm_malloc` stores.** -/
theorem mmMalloc_stores (hL : h.Models L) (ha : h.arith = .exact) (hsize : size + 15 < 2 ^ 32)
    (e : SysProgLab.mmMalloc h size = some (q, h')) :
    Stores (fun p _ => OffRoots L.hl p) h.mem h'.mem := by
  obtain ⟨h8, h16, -, hlt⟩ := adjust_spec hsize
  have hfit := hL.repBy.findFit (adjust size)
  rw [← hL.listp] at hfit
  rw [SysProgLab.mmMalloc] at e
  split at e
  · cases e
    exact .refl
  simp only [hfit, Option.bind_eq_bind, Option.bind_some] at e
  cases hf : L.fit (adjust size) with
  | some b =>
    obtain ⟨hb, hfree, hble⟩ := hL.repBy.fit_spec hf
    have hne : b.addr ≠ 0 := by
      have := hL.repBy.rep.bounds hb
      omega
    rw [hf, Option.elim_some, if_pos hne] at e
    obtain ⟨m', e₁, e⟩ := Option.bind_eq_some_iff.mp e
    cases e
    rw [hL.listp] at e₁
    exact hL.repBy.place_stores hb hfree h8 h16 hble e₁
  | none =>
    rw [hf, Option.elim_none, if_neg (by simp)] at e
    obtain ⟨n, hmax⟩ : ∃ n, max (adjust size) chunksize = n := ⟨_, rfl⟩
    have h8' : 8 ∣ n := hmax ▸ dvd_max_chunksize h8
    have h16' : 16 ≤ n := hmax ▸ le_max_of_le_left h16
    have hn : n < 2 ^ 32 := hmax ▸ Nat.max_lt.mpr ⟨hlt, by decide⟩
    have hble : adjust size ≤ n := hmax ▸ le_max_left _ _
    rw [hmax] at e
    obtain ⟨⟨bp, h₁⟩, e₁, e⟩ := Option.bind_eq_some_iff.mp e
    by_cases hok : n < 2 ^ 31 ∧ L.brk + n ≤ h.memMaxAddr
    · have hstores := extendHeap_stores hL.repBy hL.listp hL.brk h8' h16' hok.1 (.of_exact ha n)
        hok.2 hL.max_lt e₁
      obtain ⟨m₁, e₁', hrep, -⟩ := extendHeap_grant hL.repBy hL.listp hL.brk h8' h16' hok.1
        (.of_exact ha n) hok.2 hL.max_lt
      obtain ⟨hb, hfree, hgrown⟩ := hL.repBy.grown_spec h16'
      rw [e₁'] at e₁
      cases e₁
      have hne : (L.grown n).addr ≠ 0 := by
        have := hrep.rep.bounds hb
        omega
      rw [if_neg hne] at e
      obtain ⟨m', e₂, e⟩ := Option.bind_eq_some_iff.mp e
      cases e
      dsimp only at e₂
      rw [hL.listp, ← Layout.grow_hl L n] at e₂
      exact hstores.trans (hrep.place_stores hb hfree h8 h16 (hble.trans hgrown) e₂)
    · rw [← hL.brk] at hok
      rw [extendHeap_refuse h8' hn (fun _ => .of_exact ha n) hok] at e₁
      cases e₁
      cases e
      exact .refl

end Heap.Models

/-! ## Initialisation -/

/-- What `mm_init` stores before the first `extend_heap`. -/
theorem initMem_stores {base : ℕ} (m : Mem) (hbase : 8 ∣ base) :
    Stores (fun p _ => OffRoots base p) m (initMem base m) := by
  have hroots : ∀ n, Stores (fun p _ => OffRoots base p) m
      ((List.range n).foldl (fun m i => m.put (base + (i + 1) * dsize) 0) (m.put base 0)) := by
    intro n
    induction n with
    | zero => exact .single (.inl hbase)
    | succ n ih =>
      rw [List.range_succ, List.foldl_append, List.foldl_cons, List.foldl_nil]
      refine ih.put (.inl ?_)
      simp only [dsize]
      omega
  exact (((hroots nSeglist).put (.inr (by omega))).put (.inr (by omega))).put (.inr (by omega))

/-- **What `mm_init` stores** after `mem_init`. -/
theorem mmInit_stores {base : ℕ} {arith : PtrArith} {mem : Mem} {h : Heap} (hbase : 8 ∣ base)
    (hmax : base + maxHeap < 2 ^ 32) (e : mmInit (memInit arith base mem) = some (0, h)) :
    Stores (fun p _ => OffRoots base p) mem h.mem := by
  have hroom : base + 112 + chunksize ≤ base + maxHeap := by
    simp only [chunksize, maxHeap]
    omega
  have hsbrk := memSbrk_grant (h := memInit arith base mem)
    (n := 3 * dsize + nSeglist * dsize) (by decide)
    (Heap.NoWrap.of_lt (by simp only [memInit, dsize, nSeglist]; omega))
    (by simp only [memInit, dsize, nSeglist]; omega)
  have hrep := emptyLayout_repBy mem hbase (by omega)
  rw [mmInit_of_sbrk hsbrk] at e
  obtain ⟨⟨bp, h₁⟩, e₁, e⟩ := Option.bind_eq_some_iff.mp e
  have hgrow := extendHeap_stores (n := chunksize) hrep rfl rfl (by decide) (by decide) (by decide)
    (Heap.NoWrap.of_lt (by simp only [memInit, dsize, nSeglist]; omega)) hroom hmax e₁
  dsimp only at e
  split at e
  · cases e
  · cases e
    exact (initMem_stores mem hbase).trans hgrow

end SysProgLab
