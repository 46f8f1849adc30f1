import SysProgLab.HeapOps

/-!
# Reallocation

`mm_realloc` has four ways to serve a request: cut the block where it stands
(case 1), spread into the next block (2.1), slide into the previous block (2.2
and 2.3), or move to a new block (2.4). Each is a `Ready` run that is carved, or
a `malloc` followed by a `free`, and all four end in `Resized`: one allocated
block is replaced by another, the other payloads are untouched and the old
contents are at the new address.

The guards of cases 2.1 to 2.3 subtract before they compare. `ReallocOk` is the
condition on the two neighbours under which the guards mean what the comments
above them say.
-/

namespace SysProgLab

namespace Layout

variable {L : Layout} {m m' : Mem} {b c : Block}

/-- Stores inside the payload of an allocated block change nothing of what the
memory represents. -/
theorem RepBy.payload (h : L.RepBy m) (hb : b ∈ L.blocks) (ha : b.alloc = true)
    (hag : Mem.AgreeOff b.addr (b.stop - 8) m m') : L.RepBy m' := by
  have hv := h.rep.valid b hb
  have hbb := h.rep.bounds hb
  have hready := h.ready_alloc hb ha hv.dvd hv.le (le_refl _)
  have hbs : L.blocks = before L.blocks b ++ ([b] ++ after L.blocks b) :=
    (before_append_after hb).symm
  have htag : Tagged m' b := by
    refine (h.rep.tags b hb).congr (hag.get_eq (.inl ?_)) (hag.get_eq (.inr (le_refl _)))
    simp only [hdrp, wsize]
    omega
  have hstop : b.stop - 8 ≤ b.stop - 4 := by omega
  obtain ⟨h₁, -⟩ := hready.rep.retag hready.left (Tiles.singleton.mpr ⟨rfl, rfl⟩) hready.right
    hready.unlisted (fun d hd => by rw [List.mem_singleton.mp hd]; exact hv)
    (hag.mono (Nat.sub_le _ _) hstop) (fun d hd => by rw [List.mem_singleton.mp hd]; exact htag)
  rw [← hbs] at h₁
  exact ⟨h₁, h.ok⟩

/-- From `L` and `m` to `L'` and `m'` the allocated block `b` is replaced by the
allocated block `a`; the first `n` bytes of its payload are kept, and so are
the payloads of all other allocated blocks. -/
structure Resized (L L' : Layout) (m m' : Mem) (b a : Block) (n : ℕ) : Prop where
  alloc : a.alloc = true
  mem : ∀ c : Block, c.alloc = true → (c ∈ L'.blocks ↔ (c ∈ L.blocks ∧ c ≠ b) ∨ c = a)
  fresh : ∀ c ∈ L.blocks, c.alloc = true → c ≠ b → c.addr ≠ a.addr
  keeps : ∀ c ∈ L.blocks, c.alloc = true → c ≠ b → ∀ x, c.addr ≤ x → x < c.stop - 8 → m' x = m x
  copy : ∀ i < n, m' (a.addr + i) = m (b.addr + i)

end Layout

theorem copyLen_eq {copySize : ℕ} (size : ℕ) (h : 8 ≤ copySize) (hlt : copySize < 2 ^ 32) :
    copyLen copySize size = min (copySize - 8) size := by
  rw [copyLen, sub32_eq h hlt]
  split <;> omega

/-- Carving a run with the single allocated block `b` resizes it. -/
theorem Ready.resized {L : Layout} {m m₀ m₁ : Mem} (m' : Mem) {l mid r : List Block}
    {segs : ℕ → List Block} {s t asize n : ℕ} {b : Block} (h : Ready L m₀ m₁ l mid r segs s t asize)
    (hbs : L.blocks = l ++ (mid ++ r)) (hb : b ∈ mid) (hmid : ∀ c ∈ mid, c.alloc = true → c = b)
    (hn : n + 8 ≤ asize) (k₀ : Keeps L.blocks m m₀) (k : Keeps (l ++ r) m₀ m')
    (k' : Keeps [carved s t asize] m₁ m') (hcopy : ∀ i < n, m₁ (s + i) = m (b.addr + i)) :
    L.Resized (L.carve l r segs s t asize) m m' b (carved s t asize) n := by
  have hnd := h.rep.blocks_nodup
  have hne : ∀ c, c ∈ l ++ r → c ≠ b := by
    rintro c hc rfl
    have hdl := (List.nodup_append.mp hnd).2.2
    have hdr := (List.nodup_append.mp (List.nodup_append.mp hnd).2.1).2.2
    rcases List.mem_append.mp hc with hc | hc
    · exact hdl _ hc _ (List.mem_append_left _ hb) rfl
    · exact hdr _ hb _ hc rfl
  have hside : ∀ c : Block, c.alloc = true → (c ∈ L.blocks ∧ c ≠ b ↔ c ∈ l ++ r) := by
    intro c hca
    rw [hbs]
    constructor
    · rintro ⟨hc, hcb⟩
      have hcm : c ∉ mid := fun hm => hcb (hmid c hm hca)
      simp only [List.mem_append] at hc ⊢
      tauto
    · intro hc
      refine ⟨?_, hne c hc⟩
      simp only [List.mem_append] at hc ⊢
      tauto
  refine ⟨carved_alloc .., fun c hca => ?_, fun c hc hca hcb => ?_, fun c hc hca hcb x h₁ h₂ => ?_,
    fun i hi => ?_⟩
  · rw [Layout.mem_carve hca, hside c hca, List.mem_append]
    tauto
  · rw [carved_addr]
    have hfits := h.fits
    have h16 := h.le_asize
    rcases List.mem_append.mp ((hside c hca).mp ⟨hc, hcb⟩) with hc | hc
    · have hb := h.left.mem_bounds c hc
      have := (h.rep.valid c (List.mem_append_left _ hc)).le
      omega
    · have hb := h.right.mem_bounds c hc
      omega
  · rw [k c ((hside c hca).mp ⟨hc, hcb⟩) hca x h₁ h₂]
    exact k₀ c hc hca x h₁ h₂
  · have hle := le_carved_size h.fits
    rw [← hcopy i hi, carved_addr]
    refine k' _ (List.mem_singleton_self _) (carved_alloc ..) _ ?_ ?_ <;>
      simp only [Block.stop, carved_addr] <;> omega

/-- What `mm_realloc` reads of the two neighbours. -/
theorem Rep.neighbours {hl brk : ℕ} {m : Mem} {l r : List Block} {b : Block}
    {segs : ℕ → List Block} (h : Rep hl brk m (l ++ b :: r) segs) :
    (m.prevBlkp b.addr = (prevOf hl l).addr ∧ (prevOf hl l).addr ≠ 0 ∧
      m.getAlloc (hdrp (prevOf hl l).addr) = (prevOf hl l).alloc.toNat ∧
      m.getSize (hdrp (prevOf hl l).addr) = (prevOf hl l).size) ∧
    m.nextBlkp b.addr = (nextOf brk r).addr ∧ (nextOf brk r).addr ≠ 0 ∧
      m.getAlloc (hdrp (nextOf brk r).addr) = (nextOf brk r).alloc.toNat ∧
      m.getSize (hdrp (nextOf brk r).addr) = (nextOf brk r).size := by
  obtain ⟨-, h₂, -, h₃, h₄⟩ := h.prev
  obtain ⟨h₅, h₆, h₇, -⟩ := h.next
  have hb := h.bounds focus_mem
  refine ⟨⟨h.prevBlkp_focus, by omega, getAlloc_of_tag h₂ h₄.1, getSize_of_tag h₂ h₄.1⟩,
    h.nextBlkp_focus, ?_, getAlloc_of_tag h₆ h₇, getSize_of_tag h₆ h₇⟩
  rw [h₅]
  simp only [Block.stop]
  omega

namespace Heap.Models

variable {h : Heap} {L : Layout} {b p n : Block} {l r : List Block} {size : ℕ}

/-- Case 1: the block is large enough. -/
theorem realloc_shrink (hL : h.Models L) (hb : b ∈ L.blocks) (ha : b.alloc = true)
    (h0 : size ≠ 0) (hsize : size + 15 < 2 ^ 32) (hle : adjust size ≤ b.size) :
    ∃ m', mmRealloc h b.addr size = some (b.addr, { h with mem := m' }) ∧
      (L.carve (before L.blocks b) (after L.blocks b) L.segs b.addr b.stop (adjust size)).RepBy m' ∧
      L.Resized (L.carve (before L.blocks b) (after L.blocks b) L.segs b.addr b.stop (adjust size))
        h.mem m' b (carved b.addr b.stop (adjust size)) (min (b.size - 8) size) := by
  obtain ⟨h8, h16, hroom, -⟩ := adjust_spec hsize
  have hready := hL.repBy.ready_alloc hb ha h8 h16 hle
  have hbs : L.blocks = before L.blocks b ++ ([b] ++ after L.blocks b) :=
    (before_append_after hb).symm
  have hlt := hL.repBy.rep.addr_lt hb
  have hne : b.addr ≠ 0 := by
    have := hL.repBy.rep.bounds hb
    omega
  have hsub : sub32 b.size (adjust size) = b.stop - b.addr - adjust size := by
    rw [sub32_eq hle (by simp only [Block.stop] at hlt; omega)]
    simp only [Block.stop]
    omega
  have hres : ∀ m', Keeps (before L.blocks b ++ after L.blocks b) h.mem m' →
      Keeps [carved b.addr b.stop (adjust size)] h.mem m' → L.Resized _ h.mem m' b _ _ :=
    fun m' k k' => hready.resized m' hbs (List.mem_singleton_self b)
      (fun c hc _ => List.mem_singleton.mp hc) (by omega : min (b.size - 8) size + 8 ≤ _)
      (Keeps.refl _ _) k k' fun _ _ => rfl
  simp only [mmRealloc, h0, hne, hL.repBy.rep.getSize_hdrp hb, hle, hsub, if_true, if_false]
  by_cases hbig : minBlkSize ≤ b.stop - b.addr - adjust size
  · obtain ⟨e₁, m₂, m', bp, e₂, e₃, h', k, k'⟩ := hready.carve_split hbig
    refine ⟨m', ?_, h', hres m' k k'⟩
    rw [if_neg (by omega)]
    simp [e₁, e₂, e₃, hL.listp]
  · refine ⟨h.mem, if_pos (by omega), ?_, hres _ (Keeps.refl _ _) (Keeps.refl _ _)⟩
    have hcarved : carved b.addr b.stop (adjust size) = b := by
      rw [carved_whole hbig, Block.stop, Nat.add_sub_cancel_left, ← ha]
    rw [Layout.carve, if_neg hbig, hcarved, before_append_after hb]
    exact hL.repBy

/-- Case 2.1: the next block is free and there is room to spare. -/
theorem realloc_next (hL : h.Models L) (hbs : L.blocks = l ++ b :: n :: r) (ha : b.alloc = true)
    (hn : n.alloc = false) (h0 : size ≠ 0) (hsize : size + 15 < 2 ^ 32) (hgt : b.size < adjust size)
    (hfit : adjust size < b.size + n.size) :
    ∃ m', mmRealloc h b.addr size = some (b.addr, { h with mem := m' }) ∧
      (L.carve l r (delSeg L.segs n) b.addr n.stop (adjust size)).RepBy m' ∧
      L.Resized (L.carve l r (delSeg L.segs n) b.addr n.stop (adjust size)) h.mem m' b
        (carved b.addr n.stop (adjust size)) (min (b.size - 8) size) := by
  obtain ⟨h8, h16, hroom, -⟩ := adjust_spec hsize
  have hrep := hL.repBy.rep
  rw [hbs] at hrep
  have hbs' : L.blocks = l ++ ([b, n] ++ r) := hbs
  have hbm : b ∈ l ++ b :: n :: r := Rep.focus_mem
  have hnm : n ∈ l ++ b :: n :: r := by simp
  have ht := hrep.tiles.focus
  have hna : n.addr = b.stop := hrep.next.1
  have hr : Tiles Block.addr Block.size n.stop r L.brk := by
    rw [Block.stop, hna]
    exact ht.2.2
  have hlt := hrep.addr_lt hnm
  have hbb := hrep.bounds hbm
  have hne : b.addr ≠ 0 := by omega
  have hds : ∀ d, d ∈ [n] ↔ d ∈ [b, n] ∧ d.alloc = false := by
    intro d
    rw [List.mem_singleton, List.mem_pair]
    constructor
    · rintro rfl
      exact ⟨.inr rfl, hn⟩
    · rintro ⟨rfl | rfl, hd⟩
      · rw [ha] at hd
        cases hd
      · rfl
  have hstop : n.stop - b.addr = b.size + n.size := by
    simp only [Block.stop] at *
    omega
  obtain ⟨hready, k₀⟩ := hL.repBy.ready hbs' [n] (List.nodup_singleton n) hds ht.1 hr
    (hrep.dvd_stop hnm) h8 h16 (by omega) (Mem.AgreeOff.refl _ _ _)
  simp only [List.foldl_cons, List.foldl_nil] at hready k₀
  have hsub : sub32 (b.size + n.size) (adjust size) = n.stop - b.addr - adjust size := by
    rw [hstop]
    exact sub32_eq (by omega) (by simp only [Block.stop] at *; omega)
  have hmod : (b.size + n.size) % 2 ^ 32 = n.stop - b.addr := by
    rw [hstop]
    exact Nat.mod_eq_of_lt (by simp only [Block.stop] at *; omega)
  have hcopy : ∀ i < min (b.size - 8) size,
      deleteFreeBlock h.mem n.addr (b.addr + i) = h.mem (b.addr + i) := by
    intro i hi
    refine k₀ b (by rw [hbs]; exact hbm) ha _ (by omega) ?_
    simp only [Block.stop]
    omega
  have hres : ∀ m', Keeps (l ++ r) (deleteFreeBlock h.mem n.addr) m' →
      Keeps [carved b.addr n.stop (adjust size)] (deleteFreeBlock h.mem n.addr) m' →
      L.Resized _ h.mem m' b _ _ := fun m' k k' =>
    hready.resized _ hbs' (List.mem_cons_self ..) (fun c hc hca => by
      rcases List.mem_pair.mp hc with rfl | rfl
      · rfl
      · rw [hn] at hca
        cases hca) (by omega : min (b.size - 8) size + 8 ≤ _) k₀ k k' hcopy
  obtain ⟨-, e₁, e₂, e₃, e₄⟩ := hrep.neighbours
  simp only [show nextOf L.brk (n :: r) = n from rfl] at e₁ e₂ e₃ e₄
  simp only [mmRealloc, h0, hne, hrep.getSize_hdrp hbm, e₁, e₂, e₃, e₄, hn, hsub, hmod,
    Nat.not_le.mpr hgt, Bool.toNat_false, ne_eq, not_false_eq_true, true_and, if_false]
  by_cases hbig : minBlkSize ≤ n.stop - b.addr - adjust size
  · obtain ⟨e₁, m₂, m', bp, e₂, e₃, h', k, k'⟩ := hready.carve_split hbig
    refine ⟨m', ?_, h', hres m' k k'⟩
    simp [hbig, e₁, e₂, e₃, hL.listp]
  · obtain ⟨h', k, k'⟩ := hready.carve_whole hbig
    refine ⟨_, ?_, h', hres _ k k'⟩
    rw [if_neg hbig, if_pos (by omega)]

/-- A neighbour that is allocated, or leaves nothing to spare, fails its guards. -/
theorem guard_fails {n : Block} {s asize k : ℕ} (h : n.alloc = true ∨ s + n.size = asize)
    (hlt : asize < 2 ^ 32) (hk : 0 < k) :
    ¬(n.alloc = false ∧ k ≤ sub32 (s + n.size) asize) := by
  rintro ⟨hn, hle⟩
  rcases h with ha | he
  · rw [hn] at ha
    cases ha
  · rw [he, sub32_eq (le_refl _) hlt] at hle
    omega

/-- Case 2.2: the previous block is free and there is room to spare. -/
theorem realloc_prev (hL : h.Models L) (hbs : L.blocks = l ++ p :: b :: r) (ha : b.alloc = true)
    (hp : p.alloc = false) (h0 : size ≠ 0) (hsize : size + 15 < 2 ^ 32) (hgt : b.size < adjust size)
    (hskip : (nextOf L.brk r).alloc = true ∨ b.size + (nextOf L.brk r).size = adjust size)
    (hfit : adjust size < b.size + p.size)
    (hlast : adjust size + minBlkSize ≤ b.size + p.size → (nextOf L.brk r).alloc = true) :
    ∃ m', mmRealloc h b.addr size = some (p.addr, { h with mem := m' }) ∧
      (L.carve l r (delSeg L.segs p) p.addr b.stop (adjust size)).RepBy m' ∧
      L.Resized (L.carve l r (delSeg L.segs p) p.addr b.stop (adjust size)) h.mem m' b
        (carved p.addr b.stop (adjust size)) (min (b.size - 8) size) := by
  obtain ⟨h8, h16, hroom, hmax⟩ := adjust_spec hsize
  have hrep := hL.repBy.rep
  rw [hbs] at hrep
  have hbs' : L.blocks = l ++ ([p, b] ++ r) := hbs
  have hassoc : l ++ p :: b :: r = (l ++ [p]) ++ b :: r := by simp
  have hrep' := hrep
  rw [hassoc] at hrep'
  have hpm : p ∈ l ++ p :: b :: r := Rep.focus_mem
  have hbm : b ∈ l ++ p :: b :: r := by simp
  have hba : b.addr = p.stop := hrep.next.1
  have hlt := hrep.addr_lt hbm
  have hpb := hrep.bounds hpm
  have hbb := hrep.bounds hbm
  have hne : b.addr ≠ 0 := by omega
  have hds : ∀ d, d ∈ [p] ↔ d ∈ [p, b] ∧ d.alloc = false := by
    intro d
    rw [List.mem_singleton, List.mem_pair]
    constructor
    · rintro rfl
      exact ⟨.inl rfl, hp⟩
    · rintro ⟨rfl | rfl, hd⟩
      · rfl
      · rw [ha] at hd
        cases hd
  have hr : Tiles Block.addr Block.size b.stop r L.brk := hrep'.tiles.focus.2
  have hbstop : b.stop = p.addr + p.size + b.size := by rw [Block.stop, hba, Block.stop]
  have hstop : b.stop - p.addr = b.size + p.size := by omega
  have hsz : b.size < 2 ^ 32 := by
    simp only [Block.stop] at hlt
    omega
  have hlen := copyLen_eq size (by omega : 8 ≤ b.size) hsz
  have hmove : Mem.AgreeOff (p.addr - 4) (b.stop - 4) (deleteFreeBlock h.mem p.addr)
      ((deleteFreeBlock h.mem p.addr).memmove p.addr b.addr (min (b.size - 8) size)) :=
    Mem.AgreeOff.memmove _ _ (by omega) (by omega)
  obtain ⟨hready, k₀⟩ := hL.repBy.ready hbs' [p] (List.nodup_singleton p) hds hrep.tiles.focus.1
    hr (hrep.dvd_stop hbm) h8 h16 (by omega) hmove
  simp only [List.foldl_cons, List.foldl_nil] at hready k₀
  have hsub : sub32 (b.size + p.size) (adjust size) = b.stop - p.addr - adjust size := by
    rw [hstop]
    exact sub32_eq (by omega) (by simp only [Block.stop] at *; omega)
  have hmod : (b.size + p.size) % 2 ^ 32 = b.stop - p.addr := by
    rw [hstop]
    exact Nat.mod_eq_of_lt (by simp only [Block.stop] at *; omega)
  have hcopy : ∀ i < min (b.size - 8) size,
      (deleteFreeBlock h.mem p.addr).memmove p.addr b.addr (min (b.size - 8) size) (p.addr + i) =
        h.mem (b.addr + i) := by
    exact fun i hi => k₀.copy (by rw [hbs]; exact hbm) ha (by omega) _ hi
  have hres := fun m' k k' =>
    hready.resized (m := h.mem) m' hbs' (List.mem_cons_of_mem _ (List.mem_singleton_self b))
      (fun c hc hca => by
        rcases List.mem_pair.mp hc with rfl | rfl
        · rw [hp] at hca
          cases hca
        · rfl) (by omega : min (b.size - 8) size + 8 ≤ _) k₀ k k' hcopy
  obtain ⟨⟨e₁, e₂, e₃, e₄⟩, e₅, e₆, e₇, e₈⟩ := hrep'.neighbours
  rw [show prevOf L.hl (l ++ [p]) = p by simp [prevOf]] at e₁ e₂ e₃ e₄
  -- the guards of case 2.1 fail
  have hnext : ¬((nextOf L.brk r).alloc = false ∧
      0 < sub32 (b.size + (nextOf L.brk r).size) (adjust size)) :=
    guard_fails hskip hmax Nat.one_pos
  have hnext' : ¬((nextOf L.brk r).alloc = false ∧
      minBlkSize ≤ sub32 (b.size + (nextOf L.brk r).size) (adjust size)) :=
    guard_fails hskip hmax (by decide)
  simp only [mmRealloc, h0, hne, hrep.getSize_hdrp hbm, e₁, e₂, e₃, e₄, e₅, e₆, e₇, e₈, hp, hsub,
    hmod, hlen, Nat.not_le.mpr hgt, Bool.toNat_false, Bool.toNat_eq_zero, ne_eq, not_false_eq_true,
    true_and, if_false, hnext, hnext']
  by_cases hbig : minBlkSize ≤ b.stop - p.addr - adjust size
  · obtain ⟨e₁, m', e₂, h', k, k'⟩ := hready.carve_split_last hbig (hlast (by omega))
    refine ⟨m', ?_, h', hres m' k k'⟩
    simp [hbig, e₁, e₂, hL.listp]
  · obtain ⟨h', k, k'⟩ := hready.carve_whole hbig
    refine ⟨_, ?_, h', hres _ k k'⟩
    rw [if_neg hbig, if_pos (by omega)]

/-- Case 2.3: either neighbour alone leaves nothing to spare. -/
theorem realloc_both (hL : h.Models L) (hbs : L.blocks = l ++ p :: b :: n :: r)
    (ha : b.alloc = true) (hp : p.alloc = false) (hn : n.alloc = false) (h0 : size ≠ 0)
    (hsize : size + 15 < 2 ^ 32) (hgt : b.size < adjust size) (hfitn : b.size + n.size = adjust size)
    (hfitp : b.size + p.size = adjust size) :
    ∃ m', mmRealloc h b.addr size = some (p.addr, { h with mem := m' }) ∧
      (L.carve l r (delSeg (delSeg L.segs p) n) p.addr n.stop (adjust size)).RepBy m' ∧
      L.Resized (L.carve l r (delSeg (delSeg L.segs p) n) p.addr n.stop (adjust size)) h.mem m' b
        (carved p.addr n.stop (adjust size)) (min (b.size - 8) size) := by
  obtain ⟨h8, h16, hroom, -⟩ := adjust_spec hsize
  have hrep := hL.repBy.rep
  have hna := hL.repBy.ok.noAdj
  rw [hbs] at hrep hna
  have hbs' : L.blocks = l ++ ([p, b, n] ++ r) := hbs
  have hassoc : l ++ p :: b :: n :: r = (l ++ [p]) ++ b :: n :: r := by simp
  have hassoc' : l ++ p :: b :: n :: r = (l ++ [p, b]) ++ n :: r := by simp
  have hrep' := hrep
  rw [hassoc] at hrep'
  have hrep'' := hrep
  rw [hassoc'] at hrep'' hna
  have hlast : (nextOf L.brk r).alloc = true :=
    ((NoAdj.append_cons_free L.hl L.brk hn).mp hna).2.2.2
  have hpm : p ∈ l ++ p :: b :: n :: r := Rep.focus_mem
  have hbm : b ∈ l ++ p :: b :: n :: r := by simp
  have hnm : n ∈ l ++ p :: b :: n :: r := by simp
  have hba : b.addr = p.stop := hrep.next.1
  have hna : n.addr = b.stop := hrep'.next.1
  have hlt := hrep.addr_lt hnm
  have hpb := hrep.bounds hpm
  have hbb := hrep.bounds hbm
  have hnb := hrep.bounds hnm
  have hne : b.addr ≠ 0 := by omega
  have hpn : p ≠ n := by
    rintro rfl
    simp only [Block.stop] at *
    omega
  have hds : ∀ d, d ∈ [p, n] ↔ d ∈ [p, b, n] ∧ d.alloc = false := by
    intro d
    simp only [List.mem_cons, List.not_mem_nil, or_false]
    constructor
    · rintro (rfl | rfl)
      · exact ⟨.inl rfl, hp⟩
      · exact ⟨.inr (.inr rfl), hn⟩
    · rintro ⟨rfl | rfl | rfl, hd⟩
      · exact .inl rfl
      · rw [ha] at hd
        cases hd
      · exact .inr rfl
  have hr : Tiles Block.addr Block.size n.stop r L.brk := hrep''.tiles.focus.2
  have hnstop : n.stop = p.addr + p.size + b.size + n.size := by
    rw [Block.stop, hna, Block.stop, hba, Block.stop]
  have hbstop : b.stop = p.addr + p.size + b.size := by rw [Block.stop, hba, Block.stop]
  have hsz : b.size < 2 ^ 32 := by omega
  have hlen := copyLen_eq size (by omega : 8 ≤ b.size) hsz
  have hmove : Mem.AgreeOff (p.addr - 4) (n.stop - 4)
      (deleteFreeBlock (deleteFreeBlock h.mem p.addr) n.addr)
      ((deleteFreeBlock (deleteFreeBlock h.mem p.addr) n.addr).memmove p.addr b.addr
        (min (b.size - 8) size)) :=
    Mem.AgreeOff.memmove _ _ (by omega) (by omega)
  obtain ⟨hready, k₀⟩ := hL.repBy.ready hbs' [p, n] (by simp [hpn]) hds
    hrep.tiles.focus.1 hr (hrep.dvd_stop hnm) h8 h16 (by omega) hmove
  simp only [List.foldl_cons, List.foldl_nil] at hready k₀
  have hsub : sub32 (adjust size + n.size) (adjust size) = n.stop - p.addr - adjust size := by
    rw [show n.stop - p.addr = adjust size + n.size by omega]
    exact sub32_eq (by omega) (by omega)
  have hsub0 : sub32 (adjust size) (adjust size) = 0 := by
    rw [sub32_eq (le_refl _) (by omega), Nat.sub_self]
  have hcopy : ∀ i < min (b.size - 8) size,
      (deleteFreeBlock (deleteFreeBlock h.mem p.addr) n.addr).memmove p.addr b.addr
        (min (b.size - 8) size) (p.addr + i) = h.mem (b.addr + i) := by
    exact fun i hi => k₀.copy (by rw [hbs]; exact hbm) ha (by omega) _ hi
  have hbig : minBlkSize ≤ n.stop - p.addr - adjust size := by
    simp only [minBlkSize, dsize]
    omega
  have hres := fun m' k k' =>
    hready.resized (m := h.mem) m' hbs' (List.mem_cons_of_mem _ (List.mem_cons_self ..))
      (fun c hc hca => by
        simp only [List.mem_cons, List.not_mem_nil, or_false] at hc
        rcases hc with rfl | rfl | rfl
        · rw [hp] at hca
          cases hca
        · rfl
        · rw [hn] at hca
          cases hca) (by omega : min (b.size - 8) size + 8 ≤ _) k₀ k k' hcopy
  obtain ⟨⟨e₁, e₂, e₃, e₄⟩, e₅, e₆, e₇, e₈⟩ := hrep'.neighbours
  rw [show prevOf L.hl (l ++ [p]) = p by simp [prevOf]] at e₁ e₂ e₃ e₄
  simp only [show nextOf L.brk (n :: r) = n from rfl] at e₅ e₆ e₇ e₈
  obtain ⟨e₁', m', e₂', h', k, k'⟩ := hready.carve_split_last hbig hlast
  refine ⟨m', ?_, h', hres m' k k'⟩
  simp [mmRealloc, h0, hne, hrep.getSize_hdrp hbm, e₁, e₂, e₃, e₄, e₅, e₆, e₇, e₈, hp, hn, hfitn,
    hfitp, hsub0, hsub, hlen, Nat.not_le.mpr hgt, hbig, e₁', e₂', hL.listp]

/-- When all six guards fail the code is that of case 2.4. -/
theorem realloc_code_move (hL : h.Models L) (hbs : L.blocks = l ++ b :: r) (h0 : size ≠ 0)
    (hsize : size + 15 < 2 ^ 32) (hgt : b.size < adjust size)
    (hn : (nextOf L.brk r).alloc = true ∨ b.size + (nextOf L.brk r).size = adjust size)
    (hp : (prevOf L.hl l).alloc = true ∨ b.size + (prevOf L.hl l).size = adjust size)
    (hpn : (prevOf L.hl l).alloc = true ∨ (nextOf L.brk r).alloc = true) :
    mmRealloc h b.addr size = (SysProgLab.mmMalloc h size).bind fun x =>
      if x.1 = 0 then some (0, x.2)
      else (SysProgLab.mmFree { x.2 with mem := x.2.mem.memmove x.1 b.addr (min (b.size - 8) size) }
        b.addr).bind fun h => some (x.1, h) := by
  obtain ⟨-, -, -, hmax⟩ := adjust_spec hsize
  have hrep := hL.repBy.rep
  rw [hbs] at hrep
  have hbm : b ∈ L.blocks := by
    rw [hbs]
    exact Rep.focus_mem
  have hbb := hL.repBy.rep.bounds hbm
  have hlt := hL.repBy.rep.addr_lt hbm
  have hne : b.addr ≠ 0 := by omega
  have hlen := copyLen_eq size (by omega : 8 ≤ b.size)
    (by simp only [Block.stop] at hlt; omega)
  obtain ⟨⟨e₁, e₂, e₃, e₄⟩, e₅, e₆, e₇, e₈⟩ := hrep.neighbours
  have hgn : ¬((nextOf L.brk r).alloc = false ∧
      0 < sub32 (b.size + (nextOf L.brk r).size) (adjust size)) := guard_fails hn hmax Nat.one_pos
  have hgn' : ¬((nextOf L.brk r).alloc = false ∧
      minBlkSize ≤ sub32 (b.size + (nextOf L.brk r).size) (adjust size)) :=
    guard_fails hn hmax (by decide)
  have hgp : ¬((prevOf L.hl l).alloc = false ∧
      0 < sub32 (b.size + (prevOf L.hl l).size) (adjust size)) := guard_fails hp hmax Nat.one_pos
  have hgp' : ¬((prevOf L.hl l).alloc = false ∧
      minBlkSize ≤ sub32 (b.size + (prevOf L.hl l).size) (adjust size)) :=
    guard_fails hp hmax (by decide)
  have hgb : ∀ P : Prop, ¬((prevOf L.hl l).alloc = false ∧ (nextOf L.brk r).alloc = false ∧ P) := by
    intro P
    rcases hpn with hpn | hpn <;> simp [hpn]
  simp only [mmRealloc, h0, hne, hL.repBy.rep.getSize_hdrp hbm, e₁, e₂, e₃, e₄, e₅, e₆, e₇, e₈,
    hlen, Nat.not_le.mpr hgt, Bool.toNat_eq_zero, ne_eq, not_false_eq_true, true_and, if_false,
    hgn, hgn', hgp, hgp', hgb, Option.bind_eq_bind]

/-- Case 2.4: neither neighbour helps, so the contents move to a new block. -/
theorem realloc_move (hL : h.Models L) (hbs : L.blocks = l ++ b :: r) (ha : b.alloc = true)
    (h0 : size ≠ 0) (hsize : size + 15 < 2 ^ 32) (hgt : b.size < adjust size)
    (hn : (nextOf L.brk r).alloc = true ∨ b.size + (nextOf L.brk r).size = adjust size)
    (hp : (prevOf L.hl l).alloc = true ∨ b.size + (prevOf L.hl l).size = adjust size)
    (hpn : (prevOf L.hl l).alloc = true ∨ (nextOf L.brk r).alloc = true)
    (hw : L.fit (adjust size) = none → max (adjust size) chunksize < 2 ^ 31 →
      h.NoWrap (max (adjust size) chunksize)) :
    match L.malloc h.memMaxAddr (adjust size) with
    | none => mmRealloc h b.addr size = some (0, h)
    | some (f, L₁) => ∃ m', mmRealloc h b.addr size =
          some (f.addr, { h with mem := m', memBrk := L₁.brk }) ∧
        Heap.Models { h with mem := m', memBrk := L₁.brk } (L₁.free b) ∧
        L.Resized (L₁.free b) h.mem m' b (carved f.addr f.stop (adjust size))
          (min (b.size - 8) size) ∧ adjust size ≤ f.size := by
  obtain ⟨-, -, hroom, -⟩ := adjust_spec hsize
  have hbm : b ∈ L.blocks := by
    rw [hbs]
    exact Rep.focus_mem
  have hbb := hL.repBy.rep.bounds hbm
  rw [hL.realloc_code_move hbs h0 hsize hgt hn hp hpn]
  have hmalloc := hL.mmMalloc h0 hsize hw
  cases hm : L.malloc h.memMaxAddr (adjust size) with
  | none =>
    rw [hm] at hmalloc
    rw [hmalloc]
    rfl
  | some x =>
    obtain ⟨f, L₁⟩ := x
    rw [hm] at hmalloc
    obtain ⟨m₁, e₁, h₁, k₁, hadds, hle⟩ := hmalloc
    set a := carved f.addr f.stop (adjust size) with hadef
    have haa : a.alloc = true := carved_alloc ..
    have haaddr : a.addr = f.addr := carved_addr ..
    have hasz : adjust size ≤ a.size := le_carved_size (Nat.add_le_add_left hle _)
    have ham : a ∈ L₁.blocks := (hadds.mem a haa).mpr (.inr rfl)
    have hbm₁ : b ∈ L₁.blocks := (hadds.mem b ha).mpr (.inl hbm)
    have hba : b ≠ a := fun he => hadds.fresh b hbm ha (by rw [he])
    have hfne : f.addr ≠ 0 := by
      have := h₁.repBy.rep.bounds ham
      omega
    -- the copy is a store inside the new payload
    have h₂ : Heap.Models { h with
        mem := m₁.memmove f.addr b.addr (min (b.size - 8) size), memBrk := L₁.brk } L₁ := by
      refine { h₁ with repBy := h₁.repBy.payload ham haa (Mem.AgreeOff.memmove _ _ ?_ ?_) }
      · exact haaddr.le
      · simp only [Block.stop]
        omega
    obtain ⟨m', e₂, h₃, k₂⟩ := h₂.mmFree hbm₁ ha
    have hside : ∀ c ∈ L₁.blocks, c ≠ b → c ∈ before L₁.blocks b ++ after L₁.blocks b := by
      intro c hc hcb
      rw [← before_append_after hbm₁] at hc
      simpa [hcb] using hc
    refine ⟨m', ?_, h₃, ⟨haa, fun c hc => ?_, fun c hc hca _ => hadds.fresh c hc hca,
      fun c hc hca hcb x hx₁ hx₂ => ?_, fun i hi => ?_⟩, hle⟩
    · simp only [e₁, Option.bind_some, hfne, if_false, e₂]
    · rw [h₁.repBy.mem_free hbm₁ hc, hadds.mem c hc]
      constructor
      · rintro ⟨hcL | rfl, hcb⟩
        · exact .inl ⟨hcL, hcb⟩
        · exact .inr rfl
      · rintro (⟨hcL, hcb⟩ | rfl)
        · exact ⟨.inl hcL, hcb⟩
        · exact ⟨.inr rfl, hba.symm⟩
    · have hc₁ : c ∈ L₁.blocks := (hadds.mem c hca).mpr (.inl hc)
      have hdis := h₁.repBy.rep.disjoint hc₁ ham fun he => hadds.fresh c hc hca (by rw [he])
      rw [k₂ c (hside c hc₁ hcb) hca x hx₁ hx₂]
      simp only [Block.stop] at hdis hx₂
      exact (Mem.memmove_apply_off _ (by omega)).trans (k₁ c hc hca x hx₁ hx₂)
    · have hin : a.addr + i < a.stop - 8 := by
        simp only [Block.stop]
        omega
      rw [k₂ a (hside a ham hba.symm) haa _ (by omega) hin, haaddr]
      refine (Mem.memmove_apply _ hi).trans (k₁ b hbm ha _ (by omega) ?_)
      simp only [Block.stop]
      omega

end Heap.Models

/-- When no block is too small for what its guard lets through: the guards of
cases 2.1 and 2.2 are not satisfied by a difference that wraps, and case 2.2
leaves no free block beside another. -/
def ReallocOk (m : Mem) (ptr size : ℕ) : Prop :=
  let asize := adjust size
  let copySize := m.getSize (hdrp ptr)
  let nextFreesize := m.getSize (hdrp (m.nextBlkp ptr))
  let prevFreesize := m.getSize (hdrp (m.prevBlkp ptr))
  let nextFree := m.getAlloc (hdrp (m.nextBlkp ptr)) = 0
  let prevFree := m.getAlloc (hdrp (m.prevBlkp ptr)) = 0
  asize ≤ copySize ∨
    (nextFree → asize ≤ copySize + nextFreesize) ∧
    (¬nextFree ∨ copySize + nextFreesize = asize → prevFree →
      asize ≤ copySize + prevFreesize) ∧
    (nextFree → copySize + nextFreesize = asize → prevFree →
      copySize + prevFreesize < asize + minBlkSize)

/-- When `mm_realloc` reaches case 2.4. -/
def ReallocMoves (m : Mem) (ptr size : ℕ) : Prop :=
  let asize := adjust size
  let copySize := m.getSize (hdrp ptr)
  let nextFreesize := m.getSize (hdrp (m.nextBlkp ptr))
  let prevFreesize := m.getSize (hdrp (m.prevBlkp ptr))
  let nextFree := m.getAlloc (hdrp (m.nextBlkp ptr)) = 0
  let prevFree := m.getAlloc (hdrp (m.prevBlkp ptr)) = 0
  copySize < asize ∧ (¬nextFree ∨ copySize + nextFreesize = asize) ∧
    (¬prevFree ∨ copySize + prevFreesize = asize) ∧ (¬prevFree ∨ ¬nextFree)

instance (m : Mem) (ptr size : ℕ) : Decidable (ReallocOk m ptr size) := by
  unfold ReallocOk
  infer_instance

instance (m : Mem) (ptr size : ℕ) : Decidable (ReallocMoves m ptr size) := by
  unfold ReallocMoves
  infer_instance

namespace Heap.Models

variable {h : Heap} {L : Layout} {b : Block} {size : ℕ}

/-- A carved layout is represented with the break where it was. -/
theorem carve {m' : Mem} {l r : List Block} {segs : ℕ → List Block} {s t asize : ℕ}
    (hL : h.Models L) (h' : (L.carve l r segs s t asize).RepBy m') :
    ({ h with mem := m' } : Heap) =
        { h with mem := m', memBrk := (L.carve l r segs s t asize).brk } ∧
      Heap.Models { h with mem := m', memBrk := (L.carve l r segs s t asize).brk }
        (L.carve l r segs s t asize) := by
  rw [Layout.carve_brk, ← hL.brk]
  refine ⟨rfl, h', ?_, ?_, ?_, ?_, ?_, hL.max_lt⟩
  · simpa using hL.start
  · simpa using hL.listp
  · simpa using hL.blk
  · simpa using hL.brk
  · simpa using hL.le_max

/-- **`mm_realloc`** either refuses and changes nothing or resizes the block. -/
theorem mmRealloc (hL : h.Models L) (hb : b ∈ L.blocks) (ha : b.alloc = true) (h0 : size ≠ 0)
    (hsize : size + 15 < 2 ^ 32) (hok : ReallocOk h.mem b.addr size)
    (hw : ReallocMoves h.mem b.addr size → L.fit (adjust size) = none →
      max (adjust size) chunksize < 2 ^ 31 → h.NoWrap (max (adjust size) chunksize)) :
    SysProgLab.mmRealloc h b.addr size = some (0, h) ∨
    ∃ m' L' a, SysProgLab.mmRealloc h b.addr size =
        some (a.addr, { h with mem := m', memBrk := L'.brk }) ∧
      Heap.Models { h with mem := m', memBrk := L'.brk } L' ∧
      L.Resized L' h.mem m' b a (min (b.size - 8) size) ∧ adjust size ≤ a.size := by
  have hbs : L.blocks = before L.blocks b ++ b :: after L.blocks b := (before_append_after hb).symm
  have hrep := hL.repBy.rep
  rw [hbs] at hrep
  obtain ⟨⟨e₁, -, e₃, e₄⟩, e₅, -, e₇, e₈⟩ := hrep.neighbours
  simp only [ReallocOk, ReallocMoves, e₁, e₃, e₄, e₅, e₇, e₈, hL.repBy.rep.getSize_hdrp hb,
    Bool.toNat_eq_zero] at hok hw
  have hcarve : ∀ {m' : Mem} {l r : List Block} {segs : ℕ → List Block} {s t : ℕ},
      SysProgLab.mmRealloc h b.addr size = some (s, { h with mem := m' }) →
      (L.carve l r segs s t (adjust size)).RepBy m' →
      L.Resized (L.carve l r segs s t (adjust size)) h.mem m' b (carved s t (adjust size))
        (min (b.size - 8) size) → s + adjust size ≤ t →
      ∃ m' L' a, SysProgLab.mmRealloc h b.addr size =
          some (a.addr, { h with mem := m', memBrk := L'.brk }) ∧
        Heap.Models { h with mem := m', memBrk := L'.brk } L' ∧
        L.Resized L' h.mem m' b a (min (b.size - 8) size) ∧ adjust size ≤ a.size := by
    intro m' l r segs s t e h' hres hle
    refine ⟨m', _, _, ?_, (hL.carve h').2, hres, le_carved_size hle⟩
    rw [carved_addr, e, (hL.carve h').1]
  by_cases hle : adjust size ≤ b.size
  · obtain ⟨m', e, h', hres⟩ := hL.realloc_shrink hb ha h0 hsize hle
    exact .inr (hcarve e h' hres (Nat.add_le_add_left hle _))
  obtain ⟨hok₁, hok₂, hok₃⟩ := hok.resolve_left hle
  rw [Nat.not_le] at hle
  generalize before L.blocks b = l, after L.blocks b = r at *
  have hpb := hrep.prev.1
  have hnb := hrep.next.1
  -- either case 2.4 is reached or a neighbour is free and leaves room to spare
  by_cases hmove : b.size < adjust size ∧
      (¬(nextOf L.brk r).alloc = false ∨ b.size + (nextOf L.brk r).size = adjust size) ∧
      (¬(prevOf L.hl l).alloc = false ∨ b.size + (prevOf L.hl l).size = adjust size) ∧
      (¬(prevOf L.hl l).alloc = false ∨ ¬(nextOf L.brk r).alloc = false)
  · have hm := hL.realloc_move hbs ha h0 hsize hle (by simpa using hmove.2.1)
      (by simpa using hmove.2.2.1) (by simpa using hmove.2.2.2) (hw hmove)
    cases hmal : L.malloc h.memMaxAddr (adjust size) with
    | none =>
      rw [hmal] at hm
      exact .inl hm
    | some x =>
      obtain ⟨f, L₁⟩ := x
      rw [hmal] at hm
      obtain ⟨m', e, h', hres, hfle⟩ := hm
      refine .inr ⟨m', L₁.free b, _, ?_, h', hres, le_carved_size (Nat.add_le_add_left hfle _)⟩
      rw [carved_addr, e]
      rfl
  · right
    simp only [hle, true_and] at hmove
    by_cases hnf : (nextOf L.brk r).alloc = false ∧ b.size + (nextOf L.brk r).size ≠ adjust size
    · -- case 2.1
      have hr := eq_cons_nextOf hnf.1
      rw [hr] at hbs
      have hfit := hok₁ hnf.1
      obtain ⟨m', e, h', hres⟩ := hL.realloc_next hbs ha hnf.1 h0 hsize hle (by omega)
      refine hcarve e h' hres ?_
      simp only [Block.stop] at *
      omega
    · have hskip' : ¬(nextOf L.brk r).alloc = false ∨
          b.size + (nextOf L.brk r).size = adjust size := by
        by_cases hn : (nextOf L.brk r).alloc = false
        · exact .inr (by_contra fun he => hnf ⟨hn, he⟩)
        · exact .inl hn
      have hskip : (nextOf L.brk r).alloc = true ∨
          b.size + (nextOf L.brk r).size = adjust size := by simpa using hskip'
      have hpf : (prevOf L.hl l).alloc = false := by
        by_contra hp
        exact hmove ⟨hskip', .inl hp, .inl hp⟩
      have hl := eq_append_prevOf hpf
      have hfit := hok₂ hskip' hpf
      by_cases hpe : b.size + (prevOf L.hl l).size = adjust size
      · -- case 2.3
        have hnf' : (nextOf L.brk r).alloc = false := by
          by_contra hn
          exact hmove ⟨.inl hn, .inr hpe, .inr hn⟩
        have hne : b.size + (nextOf L.brk r).size = adjust size := by
          rcases hskip with hn | hn
          · rw [hnf'] at hn
            cases hn
          · exact hn
        have hr := eq_cons_nextOf hnf'
        rw [hl, hr, List.append_assoc, List.singleton_append] at hbs
        obtain ⟨m', e, h', hres⟩ := hL.realloc_both hbs ha hpf hnf' h0 hsize hle hne hpe
        refine hcarve e h' hres ?_
        simp only [Block.stop] at *
        omega
      · -- case 2.2
        rw [hl, List.append_assoc, List.singleton_append] at hbs
        have hlast : adjust size + minBlkSize ≤ b.size + (prevOf L.hl l).size →
            (nextOf L.brk r).alloc = true := by
          intro hbig
          by_contra hn
          rw [Bool.not_eq_true] at hn
          have := hok₃ hn (by_contra fun he => hnf ⟨hn, he⟩) hpf
          omega
        obtain ⟨m', e, h', hres⟩ := hL.realloc_prev hbs ha hpf h0 hsize hle hskip (by omega) hlast
        refine hcarve e h' hres ?_
        simp only [Block.stop] at *
        omega

end Heap.Models

end SysProgLab
