import SysProgLab.HeapStores
import SysProgLab.OutOfMemory

/-!
# Sequences of frees

Until something is allocated again, `mm_free` may be called on anything that was live:
the first call for a block frees it, every later one reads a clear allocated bit and
does nothing. This is so although the header that is read may by then be a stale word
inside a larger free block: frees and the merges they cause store tags of free blocks,
links and `NULL`s, all of them even numbers at aligned addresses, so no bit is set
again (`KeepsClear`).

The order of the frees does not matter either. A layout has no two adjacent free
blocks, so its allocated blocks determine the others, whichever order they were merged
in.
-/

namespace SysProgLab

/-- `mm_free` on each pointer in order. -/
def freeAll (h : Heap) (ps : List ℕ) : Option Heap := ps.foldlM mmFree h

theorem freeAll_cons (h : Heap) (p : ℕ) (ps : List ℕ) :
    freeAll h (p :: ps) = (mmFree h p).bind fun h => freeAll h ps := List.foldlM_cons

/-! ## Allocated bits that stay clear -/

/-- No aligned word with a clear allocated bit gets it set. -/
def KeepsClear (m m' : Mem) : Prop := ∀ p, 4 ∣ p → m.getAlloc p = 0 → m'.getAlloc p = 0

namespace KeepsClear

variable {m m' m'' : Mem} {p v : ℕ}

theorem refl (m : Mem) : KeepsClear m m := fun _ _ h => h

theorem trans (h : KeepsClear m m') (h' : KeepsClear m' m'') : KeepsClear m m'' :=
  fun p hp h₀ => h' p hp (h p hp h₀)

/-- An even number stored at an aligned address sets no bit. -/
theorem put (m : Mem) (hp : 4 ∣ p) (hv : 2 ∣ v) : KeepsClear m (m.put p v) := by
  intro q hq h
  rw [Mem.getAlloc] at h ⊢
  by_cases hqp : q = p
  · rw [hqp, Mem.get_put_self]
    omega
  · rw [Mem.get_put_disjoint _ (by omega), h]

end KeepsClear

theorem Stores.keepsClear {hl : ℕ} {m m' : Mem} (h : Stores (Clearing hl) m m') :
    KeepsClear m m' :=
  h.preserves (KeepsClear.refl m) fun m _ _ hp hI => hI.trans (KeepsClear.put m hp.1 hp.2.1)

/-- **`mm_free` sets no allocated bit** and clears that of the block. -/
theorem Heap.Models.mmFree_clear {h h' : Heap} {L : Layout} {b : Block} (hL : h.Models L)
    (hb : b ∈ L.blocks) (ha : b.alloc = true) (e : SysProgLab.mmFree h b.addr = some h') :
    KeepsClear h.mem h'.mem ∧ h'.mem.getAlloc (hdrp b.addr) = 0 := by
  have hbb := hL.repBy.rep.bounds hb
  have h8 := hL.repBy.rep.dvd_addr hb
  rw [SysProgLab.mmFree, hL.repBy.rep.getAlloc_hdrp hb, hL.repBy.rep.getSize_hdrp hb, ha, hL.listp,
    if_neg (by simp; omega)] at e
  obtain ⟨m₁, e₁, e⟩ := Option.bind_eq_some_iff.mp e
  obtain ⟨x, e₂, e⟩ := Option.bind_eq_some_iff.mp e
  cases e
  obtain ⟨k₁, k₂⟩ := hL.repBy.free_stores hb ha e₁ e₂
  obtain ⟨-, h₀, -⟩ := hL.repBy.untag hb ha
  refine ⟨(k₁.trans k₂).keepsClear, k₂.keepsClear _ ?_ (h₀.getAlloc_hdrp Rep.focus_mem)⟩
  simp only [hdrp, wsize]
  omega

/-! ## Repeated frees -/

/-- While the blocks `live` are being freed: each is allocated still, or its old header
says that it is free. -/
structure Freeing (h : Heap) (L : Layout) (live : List Block) : Prop where
  models : h.Models L
  blocks : ∀ b ∈ live, b.alloc = true ∧ b.addr ≠ 0 ∧ 8 ∣ b.addr ∧
    (b ∈ L.blocks ∨ h.mem.getAlloc (hdrp b.addr) = 0)

/-- `mm_free` of a pointer whose header says that it is free does nothing. -/
theorem mmFree_clear_bit {h : Heap} {p : ℕ} (hp : p = 0 ∨ h.mem.getAlloc (hdrp p) = 0) :
    mmFree h p = some h := if_pos hp

namespace Freeing

variable {h h' : Heap} {L : Layout} {live : List Block} {b : Block} {ps D : List ℕ}

theorem start (hL : h.Models L) (hlive : ∀ b ∈ live, b ∈ L.blocks ∧ b.alloc = true) :
    Freeing h L live := by
  refine ⟨hL, fun b hb => ?_⟩
  obtain ⟨hbm, ha⟩ := hlive b hb
  have hbb := hL.repBy.rep.bounds hbm
  exact ⟨ha, by omega, hL.repBy.rep.dvd_addr hbm, .inl hbm⟩

/-- **One `mm_free`**, of any of the blocks. -/
theorem step (hf : Freeing h L live) (hb : b ∈ live) :
    ∃ h' L', mmFree h b.addr = some h' ∧ Freeing h' L' live ∧ KeepsClear h.mem h'.mem ∧
      h'.mem.getAlloc (hdrp b.addr) = 0 := by
  obtain ⟨ha, -, -, hbm | hclear⟩ := hf.blocks b hb
  · obtain ⟨m', e, hL', -⟩ := hf.models.mmFree hbm ha
    obtain ⟨k, hbit⟩ := hf.models.mmFree_clear hbm ha e
    refine ⟨_, _, e, ⟨hL', fun c hc => ?_⟩, k, hbit⟩
    obtain ⟨hca, hc0, h8, hcm | hcc⟩ := hf.blocks c hc
    · refine ⟨hca, hc0, h8, ?_⟩
      by_cases hcb : c = b
      · exact .inr (hcb ▸ hbit)
      · exact .inl ((hf.models.repBy.mem_free hbm hca).mpr ⟨hcm, hcb⟩)
    · exact ⟨hca, hc0, h8, .inr (k _ (by simp only [hdrp, wsize]; omega) hcc)⟩
  · exact ⟨h, L, mmFree_clear_bit (.inr hclear), hf, KeepsClear.refl _, hclear⟩

/-- **Every pointer that has been freed is recognised**: those in `D` may be skipped. -/
theorem skip : ∀ {ps D : List ℕ} {h : Heap} {L : Layout}, Freeing h L live →
    (∀ p ∈ ps, p = 0 ∨ ∃ b ∈ live, b.addr = p) →
    (∀ p ∈ D, 4 ∣ hdrp p ∧ h.mem.getAlloc (hdrp p) = 0) →
    freeAll h ps = freeAll h (ps.filter fun p => p ≠ 0 ∧ p ∉ D).eraseDups := by
  intro ps
  induction ps with
  | nil => exact fun _ _ _ => rfl
  | cons p ps ih =>
    intro D h L hf hps hD
    have hps' : ∀ q ∈ ps, q = 0 ∨ ∃ b ∈ live, b.addr = q :=
      fun q hq => hps q (List.mem_cons_of_mem _ hq)
    rw [freeAll_cons]
    by_cases hskip : p ≠ 0 ∧ p ∉ D
    · obtain hp0 | ⟨b, hb, rfl⟩ := hps p (List.mem_cons_self ..)
      · exact absurd hp0 hskip.1
      obtain ⟨h', L', e, hf', k, hbit⟩ := hf.step hb
      have hD' : ∀ q ∈ b.addr :: D, 4 ∣ hdrp q ∧ h'.mem.getAlloc (hdrp q) = 0 := by
        intro q hq
        rcases List.mem_cons.mp hq with rfl | hq
        · obtain ⟨-, -, h8, -⟩ := hf'.blocks b hb
          exact ⟨by simp only [hdrp, wsize]; omega, hbit⟩
        · exact ⟨(hD q hq).1, k _ (hD q hq).1 (hD q hq).2⟩
      rw [List.filter_cons_of_pos (by simpa using hskip), List.eraseDups_cons, freeAll_cons, e,
        Option.bind_some, Option.bind_some, List.filter_filter, ih hf' hps' hD']
      congr 2
      refine List.filter_congr fun q _ => ?_
      by_cases hq : q = b.addr <;> simp [hq]
    · rw [List.filter_cons_of_neg (by simpa using hskip), mmFree_clear_bit ?_, Option.bind_some]
      · exact ih hf hps' hD
      · by_cases hp0 : p = 0
        · exact .inl hp0
        · exact .inr (hD p (by_contra fun hpD => hskip ⟨hp0, hpD⟩)).2

/-- A sequence of frees returns, and whatever it was called on says that it is free. -/
theorem run : ∀ {ps : List ℕ} {h : Heap} {L : Layout}, Freeing h L live →
    (∀ p ∈ ps, p = 0 ∨ ∃ b ∈ live, b.addr = p) →
    ∃ h' L', freeAll h ps = some h' ∧ Freeing h' L' live ∧ KeepsClear h.mem h'.mem ∧
      ∀ p ∈ ps, mmFree h' p = some h' := by
  intro ps
  induction ps with
  | nil => exact fun {h L} hf _ => ⟨h, L, rfl, hf, KeepsClear.refl _, by simp⟩
  | cons p ps ih =>
    intro h L hf hps
    obtain ⟨h₁, L₁, e₁, hf₁, k₁, hp⟩ : ∃ h₁ L₁, mmFree h p = some h₁ ∧ Freeing h₁ L₁ live ∧
        KeepsClear h.mem h₁.mem ∧ (p = 0 ∨ 4 ∣ hdrp p ∧ h₁.mem.getAlloc (hdrp p) = 0) := by
      obtain rfl | ⟨b, hb, rfl⟩ := hps p (List.mem_cons_self ..)
      · exact ⟨h, L, mmFree_clear_bit (.inl rfl), hf, KeepsClear.refl _, .inl rfl⟩
      · obtain ⟨h₁, L₁, e₁, hf₁, k₁, hbit⟩ := hf.step hb
        obtain ⟨-, -, h8, -⟩ := hf.blocks b hb
        exact ⟨h₁, L₁, e₁, hf₁, k₁, .inr ⟨by simp only [hdrp, wsize]; omega, hbit⟩⟩
    obtain ⟨h', L', e, hf', k, hall⟩ := ih hf₁ fun q hq => hps q (List.mem_cons_of_mem _ hq)
    refine ⟨h', L', ?_, hf', k₁.trans k, fun q hq => ?_⟩
    · rw [freeAll_cons, e₁, Option.bind_some, e]
    · rcases List.mem_cons.mp hq with rfl | hq
      · exact mmFree_clear_bit (hp.imp_right fun hq => k _ hq.1 hq.2)
      · exact hall q hq

end Freeing

/-- **Repeated frees are harmless until memory is reused.** On every heap that
represents a layout, `mm_free` on a list of pointers, each `NULL` or live at the start,
leaves the same heap as `mm_free` on the first occurrence of each that is not `NULL`;
afterwards `mm_free` of any of them does nothing. -/
theorem free_repeated {h : Heap} {L : Layout} (hL : h.Models L) {ps : List ℕ}
    (hps : ∀ p ∈ ps, p = 0 ∨ ∃ b ∈ L.blocks, b.alloc = true ∧ b.addr = p) :
    ∃ h', freeAll h ps = some h' ∧ freeAll h (ps.filter (· ≠ 0)).eraseDups = some h' ∧
      ∀ p ∈ ps, mmFree h' p = some h' := by
  have hlive : ∀ b ∈ L.blocks.filter Block.alloc, b ∈ L.blocks ∧ b.alloc = true :=
    fun b hb => List.mem_filter.mp hb
  have hps' : ∀ p ∈ ps, p = 0 ∨ ∃ b ∈ L.blocks.filter Block.alloc, b.addr = p := by
    intro p hp
    refine (hps p hp).imp_right ?_
    rintro ⟨b, hb, ha, hbp⟩
    exact ⟨b, List.mem_filter.mpr ⟨hb, ha⟩, hbp⟩
  have hf := Freeing.start hL hlive
  obtain ⟨h', -, e, -, -, hall⟩ := hf.run hps'
  refine ⟨h', e, ?_, hall⟩
  rw [hf.skip (D := []) hps' (by simp)] at e
  simpa using e

/-- A new heap after three calls of `mm_malloc(8)`. -/
theorem three_blocks_models : ∃ (h : Heap) (L : Layout), h.Models L ∧
    L.blocks = [⟨1136, 16, true⟩, ⟨1152, 16, true⟩, ⟨1168, 16, true⟩, ⟨1184, 4048, false⟩] := by
  obtain ⟨h₀, -, hL₀, -, -⟩ := mmInit_eq .wrap32 (fun _ => 0) (⟨128, rfl⟩ : 8 ∣ 1024) (by decide)
  have h8 : 8 ≠ 0 := by decide
  have hround : 8 + 15 < 2 ^ 32 := by decide
  obtain ⟨h₁, -, hL₁, -⟩ := hL₀.malloc_place (b := ⟨1136, 4096, false⟩) h8 hround (by decide)
  obtain ⟨h₂, -, hL₂, -⟩ := hL₁.malloc_place (b := ⟨1152, 4080, false⟩) h8 hround (by decide)
  obtain ⟨h₃, -, hL₃, -⟩ := hL₂.malloc_place (b := ⟨1168, 4064, false⟩) h8 hround (by decide)
  exact ⟨h₃, _, hL₃, by decide⟩

/-- The middle block, `NULL`, the first one, the middle one again, merged by then, and
the last two. -/
theorem free_repeated_run : ∃ h h' : Heap, freeAll h [1152, 0, 1136, 1152, 1168, 1136] = some h' ∧
    freeAll h [1152, 1136, 1168] = some h' := by
  obtain ⟨h, L, hL, hblocks⟩ := three_blocks_models
  have hlive : ∀ p ∈ [1152, 0, 1136, 1152, 1168, 1136],
      p = 0 ∨ ∃ b ∈ L.blocks, b.alloc = true ∧ b.addr = p := by
    rw [hblocks]
    decide
  obtain ⟨h', e, e', -⟩ := free_repeated hL hlive
  exact ⟨h, h', e, e'⟩

/-! ## The order of frees -/

namespace Layout

variable {L L₁ L₂ : Layout} {m₁ m₂ : Mem}

/-- **The allocated blocks determine the layout**, up to the order of free blocks of the
same size. -/
theorem RepBy.blocks_eq (h₁ : L₁.RepBy m₁) (h₂ : L₂.RepBy m₂) (hhl : L₁.hl = L₂.hl)
    (hbrk : L₁.brk = L₂.brk)
    (hmem : ∀ c : Block, c.alloc = true → (c ∈ L₁.blocks ↔ c ∈ L₂.blocks)) :
    L₁.blocks = L₂.blocks := by
  have ht := h₂.rep.tiles
  rw [← hhl, ← hbrk] at ht
  refine Tiles.ext_of_occupied (P := fun b : Block => b.alloc = true) (fun b c hb hc ha hs => ?_)
    h₁.rep.tiles ht h₁.rep.pos h₂.rep.pos h₁.ok.noAdj h₂.ok.noAdj hmem
  obtain ⟨ba, bs, _⟩ := b
  obtain ⟨ca, cs, _⟩ := c
  simp_all

theorem RepBy.sizes_eq (h₁ : L₁.RepBy m₁) (h₂ : L₂.RepBy m₂) (hblocks : L₁.blocks = L₂.blocks)
    (i : ℕ) : (L₁.segs i).map Block.size = (L₂.segs i).map Block.size := by
  have hperm : (L₁.segs i).Perm (L₂.segs i) := by
    refine (List.perm_ext_iff_of_nodup (h₁.rep.nodup i) (h₂.rep.nodup i)).mpr fun b => ?_
    rw [h₁.rep.mem_segs h₁.ok.full, h₂.rep.mem_segs h₂.ok.full, hblocks]
  refine (hperm.map Block.size).eq_of_pairwise' (r := (· ≤ ·)) ?_ ?_
  · exact List.pairwise_map.mpr (h₁.rep.sorted i)
  · exact List.pairwise_map.mpr (h₂.rep.sorted i)

end Layout

/-- Freeing distinct live pointers removes their blocks from the allocated ones. -/
theorem Heap.Models.freeAll : ∀ {ps : List ℕ} {h : Heap} {L : Layout}, h.Models L → ps.Nodup →
    (∀ p ∈ ps, ∃ b ∈ L.blocks, b.alloc = true ∧ b.addr = p) →
    ∃ h' L', SysProgLab.freeAll h ps = some h' ∧ h'.Models L' ∧ h'.memBrk = h.memBrk ∧
      L'.hl = L.hl ∧
      ∀ c : Block, c.alloc = true → (c ∈ L'.blocks ↔ c ∈ L.blocks ∧ c.addr ∉ ps) := by
  intro ps
  induction ps with
  | nil => exact fun {h L} hL _ _ => ⟨h, L, rfl, hL, rfl, rfl, by simp⟩
  | cons p ps ih =>
    intro h L hL hnd hlive
    obtain ⟨hp, hnd'⟩ := List.nodup_cons.mp hnd
    obtain ⟨b, hb, ha, rfl⟩ := hlive p (List.mem_cons_self ..)
    obtain ⟨m', e₁, hL₁, -⟩ := hL.mmFree hb ha
    have haddr : ∀ c ∈ L.blocks, c ≠ b ↔ c.addr ≠ b.addr := fun c hc =>
      not_congr ⟨fun he => congrArg _ he, hL.repBy.rep.eq_of_addr_eq hc hb⟩
    have hlive₁ : ∀ q ∈ ps, ∃ c ∈ (L.free b).blocks, c.alloc = true ∧ c.addr = q := by
      intro q hq
      obtain ⟨c, hc, hca, rfl⟩ := hlive q (List.mem_cons_of_mem _ hq)
      have hne : c.addr ≠ b.addr := fun he => hp (he ▸ hq)
      exact ⟨c, (hL.repBy.mem_free hb hca).mpr ⟨hc, (haddr c hc).mpr hne⟩, hca, rfl⟩
    obtain ⟨h', L', e, hL', hbrk, hhl, hmem⟩ := ih hL₁ hnd' hlive₁
    refine ⟨h', L', ?_, hL', hbrk, hhl, fun c hc => ?_⟩
    · rw [freeAll_cons, e₁, Option.bind_some, e]
    · rw [hmem c hc, hL.repBy.mem_free hb hc, List.mem_cons, not_or, and_assoc]
      refine and_congr_right fun hcL => and_congr_left fun _ => haddr c hcL

/-- **Freeing is order-independent.** On every heap that represents a layout, freeing
distinct live pointers in either of two orders leaves the same blocks, the same
`mem_brk` and, in every free list, the same sequence of sizes. -/
theorem free_order {h : Heap} {L : Layout} (hL : h.Models L) {ps qs : List ℕ}
    (hlive : ∀ p ∈ ps, ∃ b ∈ L.blocks, b.alloc = true ∧ b.addr = p) (hnd : ps.Nodup)
    (hperm : ps.Perm qs) :
    ∃ h₁ h₂ bs segs₁ segs₂, freeAll h ps = some h₁ ∧ freeAll h qs = some h₂ ∧
      WellFormed h₁ bs segs₁ ∧ WellFormed h₂ bs segs₂ ∧ h₁.memBrk = h₂.memBrk ∧
      ∀ i, (segs₁ i).map Block.size = (segs₂ i).map Block.size := by
  obtain ⟨h₁, L₁, e₁, hL₁, hbrk₁, hhl₁, hmem₁⟩ := hL.freeAll hnd hlive
  obtain ⟨h₂, L₂, e₂, hL₂, hbrk₂, hhl₂, hmem₂⟩ := hL.freeAll (hperm.nodup_iff.mp hnd)
    fun q hq => hlive q (hperm.mem_iff.mpr hq)
  have hbrk : h₁.memBrk = h₂.memBrk := hbrk₁.trans hbrk₂.symm
  have hblocks : L₁.blocks = L₂.blocks := by
    refine hL₁.repBy.blocks_eq hL₂.repBy (hhl₁.trans hhl₂.symm)
      (hL₁.brk.symm.trans (hbrk.trans hL₂.brk)) fun c hc => ?_
    rw [hmem₁ c hc, hmem₂ c hc, hperm.mem_iff]
  refine ⟨h₁, h₂, L₁.blocks, L₁.segs, L₂.segs, e₁, e₂, hL₁.wellFormed, ?_, hbrk,
    hL₁.repBy.sizes_eq hL₂.repBy hblocks⟩
  rw [hblocks]
  exact hL₂.wellFormed

theorem free_order_run : ∃ (h h₁ h₂ : Heap) (bs : List Block) (segs₁ segs₂ : ℕ → List Block),
    freeAll h [1136, 1168, 1152] = some h₁ ∧ freeAll h [1152, 1136, 1168] = some h₂ ∧
    WellFormed h₁ bs segs₁ ∧ WellFormed h₂ bs segs₂ := by
  obtain ⟨h, L, hL, hblocks⟩ := three_blocks_models
  have hlive : ∀ p ∈ [1136, 1168, 1152], ∃ b ∈ L.blocks, b.alloc = true ∧ b.addr = p := by
    rw [hblocks]
    decide
  have hperm : [1136, 1168, 1152].Perm [1152, 1136, 1168] := by decide
  obtain ⟨h₁, h₂, bs, segs₁, segs₂, e₁, e₂, hw₁, hw₂, -⟩ := free_order hL hlive (by decide) hperm
  exact ⟨h, h₁, h₂, bs, segs₁, segs₂, e₁, e₂, hw₁, hw₂⟩

end SysProgLab
