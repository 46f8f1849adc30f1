import SysProgLab.Layout

/-!
# Cutting a run of blocks

`place` and most branches of `mm_realloc` do the same thing: a run of blocks,
none of them listed any more, becomes an allocated block and, if enough is
left, a free one behind it. `Ready` is the state just before that, and
`Ready.carve_split`, `Ready.carve_split_last` and `Ready.carve_whole` take it to
`Layout.carve` along the three ways the code is written.
-/

namespace SysProgLab

/-- The memory `m` represents the layout `L`, which is in order. -/
structure Layout.RepBy (L : Layout) (m : Mem) : Prop where
  rep : Rep L.hl L.brk m L.blocks L.segs
  ok : L.Ok

/-! ## Cutting a block -/

theorem putTags_payload (m : Mem) {b : Block} {a : ℕ} (hge : 4 ≤ b.addr) (h₁ : b.addr ≤ a)
    (h₂ : a < b.stop - 8) :
    putTags m b a = m a := by
  rw [putTags, Mem.put_apply_off _ (.inl h₂), Mem.put_apply_off _ (.inr ?_)]
  simp only [hdrp, wsize]
  omega

theorem carved_split {s t asize : ℕ} (h : minBlkSize ≤ t - s - asize) :
    carved s t asize = ⟨s, asize, true⟩ := if_pos h

theorem carved_whole {s t asize : ℕ} (h : ¬minBlkSize ≤ t - s - asize) :
    carved s t asize = ⟨s, t - s, true⟩ := if_neg h

namespace Rep

variable {hl brk : ℕ} {m m₁ : Mem} {bs l mid r : List Block} {segs : ℕ → List Block}
  {b c : Block} {s t asize : ℕ}

theorem dvd_stop (h : Rep hl brk m bs segs) (hb : b ∈ bs) : 8 ∣ b.stop :=
  Nat.dvd_add (h.dvd_addr hb) (h.valid b hb).dvd

/-- A run of blocks starts at an aligned address. -/
theorem dvd_run (h : Rep hl brk m (l ++ (mid ++ r)) segs)
    (hl₁ : Tiles Block.addr Block.size (hl + 112) l s) : 8 ∣ s :=
  hl₁.dvd_end (Nat.dvd_add h.base_dvd (by decide)) fun c hc =>
    (h.valid c (List.mem_append_left _ hc)).dvd

/-- The four tags of a split, before the free block is listed. -/
theorem split_tags (h : Rep hl brk m (l ++ (mid ++ r)) segs)
    (hl₁ : Tiles Block.addr Block.size (hl + 112) l s) (hr : Tiles Block.addr Block.size t r brk)
    (ht : 8 ∣ t) (hd : 8 ∣ asize) (h16 : 16 ≤ asize)
    (hbig : minBlkSize ≤ t - s - asize) (hag : Mem.AgreeOff (s - 4) (t - 4) m m₁) :
    splitTags m₁ s asize (t - s - asize) = (s + asize,
        putTags (putTags m₁ ⟨s, asize, true⟩) ⟨s + asize, t - s - asize, false⟩) ∧
      Tiles Block.addr Block.size s
        ([⟨s, asize, true⟩] ++ [⟨s + asize, t - s - asize, false⟩]) t ∧
      (∀ d ∈ [(⟨s, asize, true⟩ : Block)] ++ [⟨s + asize, t - s - asize, false⟩], d.Valid) ∧
      Mem.AgreeOff (s - 4) (t - 4) m
        (splitTags m₁ s asize (t - s - asize)).2 ∧
      (∀ d ∈ [(⟨s, asize, true⟩ : Block)] ++ [⟨s + asize, t - s - asize, false⟩],
        Tagged (splitTags m₁ s asize (t - s - asize)).2 d) ∧
      Keeps [⟨s, asize, true⟩] m₁ (splitTags m₁ s asize (t - s - asize)).2 := by
  have hs := h.dvd_run hl₁
  have hls := hl₁.le
  have htb := hr.le
  have hlt := h.brk_lt
  simp only [minBlkSize, dsize] at hbig
  set a : Block := ⟨s, asize, true⟩ with ha
  set c : Block := ⟨s + asize, t - s - asize, false⟩ with hc
  have hva : a.Valid := ⟨hd, h16⟩
  have hvc : c.Valid := ⟨Nat.dvd_sub (Nat.dvd_sub ht hs) hd, hbig⟩
  have hastop : a.stop = s + asize := rfl
  have hcstop : c.stop = t := by
    simp only [hc, Block.stop]
    omega
  have hage : 4 ≤ a.addr := by
    simp only [ha]
    omega
  have hcge : 4 ≤ c.addr := by
    simp only [hc]
    omega
  have halt : a.stop < 2 ^ 32 := by omega
  have hclt : c.stop < 2 ^ 32 := by omega
  have hta := tagged_putTags m₁ hva hage halt
  have hoff := agreeOff_putTags (putTags m₁ a) hvc hcge
  have hsplit : splitTags m₁ s asize (t - s - asize) =
      (s + asize, putTags (putTags m₁ a) c) := by
    have h₁ := setTags_eq m₁ hva halt
    have h₂ := setTags_eq (putTags m₁ a) hvc hclt
    have h₃ := nextBlkp_eq hva.dvd hta.1 halt
    simp only [ha, hc, Bool.toNat_true, Bool.toNat_false] at h₁ h₂ h₃ ⊢
    rw [splitTags, h₁, h₃]
    simp only [Block.stop]
    rw [h₂]
  rw [hsplit]
  refine ⟨rfl, ⟨rfl, rfl, hcstop⟩, fun d hd' => ?_, ?_, fun d hd' => ?_, fun d hd' hda x h₁ h₂ => ?_⟩
  · rcases List.mem_pair.mp hd' with rfl | rfl
    · exact hva
    · exact hvc
  · refine hag.trans (((agreeOff_putTags m₁ hva hage).mono (le_refl _) ?_).trans
      (hoff.mono ?_ ?_)) <;> simp only [ha, hc, Block.stop] at * <;> omega
  · rcases List.mem_pair.mp hd' with rfl | rfl
    · refine hta.congr (hoff.get_eq (.inl ?_)) (hoff.get_eq (.inl ?_)) <;>
        simp only [ha, hc, Block.stop, hdrp, wsize] at * <;> omega
    · exact tagged_putTags _ hvc hcge hclt
  · obtain rfl := List.mem_singleton.mp hd'
    have hxc : x < c.addr - 4 := by
      simp only [ha, hc, Block.stop] at *
      omega
    exact (hoff x (.inl hxc)).trans (putTags_payload _ hage h₁ h₂)

/-- **The five lines of a split**: the run `mid`, none of whose blocks is listed
any more, becomes an allocated block and a free one, which is listed. The
payload at the front keeps what `m₁` holds there. -/
theorem split (h : Rep hl brk m (l ++ (mid ++ r)) segs)
    (hl₁ : Tiles Block.addr Block.size (hl + 112) l s) (hr : Tiles Block.addr Block.size t r brk)
    (hsegs : ∀ i, ∀ c ∈ segs i, c ∈ l ++ r) (ht : 8 ∣ t) (hd : 8 ∣ asize) (h16 : 16 ≤ asize)
    (hbig : minBlkSize ≤ t - s - asize) (hag : Mem.AgreeOff (s - 4) (t - 4) m m₁) :
    (splitTags m₁ s asize (t - s - asize)).1 = s + asize ∧
    ∃ m', insertFreeBlock hl (splitTags m₁ s asize (t - s - asize)).2 (s + asize) = some m' ∧
      Rep hl brk m' (l ++ [carved s t asize] ++ ⟨s + asize, t - s - asize, false⟩ :: r)
        (insSeg segs ⟨s + asize, t - s - asize, false⟩) ∧
      Keeps (l ++ r) m m' ∧ Keeps [carved s t asize] m₁ m' := by
  rw [carved_split hbig]
  obtain ⟨hsplit, htiles, hv, hag', htag, k⟩ := h.split_tags hl₁ hr ht hd h16 hbig hag
  refine ⟨congrArg Prod.fst hsplit, ?_⟩
  obtain ⟨m', e, h₁, k₁, k₂⟩ := h.retag_insert [_] hl₁ htiles hr rfl hsegs hv hag' htag
  exact ⟨m', e, by simpa using h₁, k₁, k.trans k₂⟩

/-- The run `mid` becomes one allocated block. -/
theorem whole (h : Rep hl brk m (l ++ (mid ++ r)) segs)
    (hl₁ : Tiles Block.addr Block.size (hl + 112) l s) (hr : Tiles Block.addr Block.size t r brk)
    (hsegs : ∀ i, ∀ c ∈ segs i, c ∈ l ++ r) (ht : 8 ∣ t) (h16 : 16 ≤ t - s)
    (hag : Mem.AgreeOff (s - 4) (t - 4) m m₁) :
    Rep hl brk (setTags m₁ s (t - s) 1) (l ++ ⟨s, t - s, true⟩ :: r) segs ∧
      Keeps (l ++ r) m (setTags m₁ s (t - s) 1) ∧
      Keeps [⟨s, t - s, true⟩] m₁ (setTags m₁ s (t - s) 1) := by
  have hs := h.dvd_run hl₁
  have hls := hl₁.le
  have htb := hr.le
  have hlt := h.brk_lt
  set a : Block := ⟨s, t - s, true⟩ with ha
  have hva : a.Valid := ⟨Nat.dvd_sub ht hs, h16⟩
  have hastop : a.stop = t := by
    simp only [ha, Block.stop]
    omega
  have hage : 4 ≤ a.addr := by
    simp only [ha]
    omega
  have halt : a.stop < 2 ^ 32 := by omega
  have hset := setTags_eq m₁ hva halt
  simp only [ha, Bool.toNat_true] at hset
  rw [hset]
  have hv : ∀ d ∈ [a], d.Valid := fun d hd' => by
    obtain rfl := List.mem_singleton.mp hd'
    exact hva
  have htag : ∀ d ∈ [a], Tagged (putTags m₁ a) d := fun d hd' => by
    obtain rfl := List.mem_singleton.mp hd'
    exact tagged_putTags _ hva hage halt
  have hoff := agreeOff_putTags m₁ hva hage
  rw [hastop] at hoff
  obtain ⟨h₁, k₁⟩ := h.retag hl₁ (Tiles.singleton.mpr ⟨rfl, hastop⟩) hr hsegs hv
    (hag.trans hoff) htag
  refine ⟨h₁, k₁, fun d hd' hda x h₁ h₂ => ?_⟩
  obtain rfl := List.mem_singleton.mp hd'
  exact putTags_payload _ hage h₁ h₂

end Rep

theorem mem_delSegs_of_not_mem : ∀ {ds : List Block} {segs : ℕ → List Block} {i : ℕ} {c : Block},
    c ∉ ds → c ∈ segs i → c ∈ ds.foldl delSeg segs i := by
  intro ds
  induction ds with
  | nil => exact fun _ hc => hc
  | cons d ds ih =>
    intro segs i c hnot hc
    rw [List.mem_cons, not_or] at hnot
    exact ih hnot.2 (mem_delSeg_of_ne hnot.1 hc)

/-- The interval from `s` to `t`, now the blocks `mid`, is ready to be cut into
a block of `asize` bytes and a rest: no block of it is listed, everything
around it is in order, and `m₁` differs from the represented memory `m` inside
it only. -/
structure Ready (L : Layout) (m m₁ : Mem) (l mid r : List Block) (segs : ℕ → List Block)
    (s t asize : ℕ) : Prop where
  rep : Rep L.hl L.brk m (l ++ (mid ++ r)) segs
  left : Tiles Block.addr Block.size (L.hl + 112) l s
  right : Tiles Block.addr Block.size t r L.brk
  unlisted : ∀ i, ∀ c ∈ segs i, c ∈ l ++ r
  dvd : 8 ∣ t
  asize_dvd : 8 ∣ asize
  le_asize : 16 ≤ asize
  fits : s + asize ≤ t
  agree : Mem.AgreeOff (s - 4) (t - 4) m m₁
  full : Full (l ++ r) segs
  noAdj_left : NoAdj l
  noAdj_right : NoAdj r

/-- A represented layout is ready to be cut once the free blocks of `mid` are
deleted from their lists. -/
theorem Layout.RepBy.ready {L : Layout} {m m₁ : Mem} {l mid r : List Block} {s t asize : ℕ}
    (h : L.RepBy m) (hbs : L.blocks = l ++ (mid ++ r)) (ds : List Block) (hnd : ds.Nodup)
    (hds : ∀ d, d ∈ ds ↔ d ∈ mid ∧ d.alloc = false)
    (hl₁ : Tiles Block.addr Block.size (L.hl + 112) l s)
    (hr : Tiles Block.addr Block.size t r L.brk) (ht : 8 ∣ t) (hd : 8 ∣ asize) (h16 : 16 ≤ asize)
    (hfits : s + asize ≤ t)
    (hag : Mem.AgreeOff (s - 4) (t - 4) (ds.foldl (fun m d => deleteFreeBlock m d.addr) m) m₁) :
    Ready L (ds.foldl (fun m d => deleteFreeBlock m d.addr) m) m₁ l mid r
        (ds.foldl delSeg L.segs) s t asize ∧
      Keeps L.blocks m (ds.foldl (fun m d => deleteFreeBlock m d.addr) m) := by
  have hmid : ∀ d ∈ mid, d ∈ L.blocks := fun d hd => by
    rw [hbs]
    exact List.mem_append_right _ (List.mem_append_left _ hd)
  obtain ⟨h₁, k₁, hrest⟩ := h.rep.deletes hnd fun d hd' =>
    h.ok.full d (hmid d ((hds d).mp hd').1) ((hds d).mp hd').2
  have hside : ∀ c ∈ l ++ r, c ∈ L.blocks ∧ c ∉ mid := by
    intro c hc
    have hnd := h.rep.blocks_nodup
    rw [hbs] at hnd ⊢
    have hdl := (List.nodup_append.mp hnd).2.2
    have hdr := (List.nodup_append.mp (List.nodup_append.mp hnd).2.1).2.2
    rcases List.mem_append.mp hc with hc | hc
    · exact ⟨List.mem_append_left _ hc,
        fun hm => hdl c hc c (List.mem_append_left _ hm) rfl⟩
    · exact ⟨List.mem_append_right _ (List.mem_append_right _ hc), fun hm => hdr c hm c hc rfl⟩
  have hna := h.ok.noAdj
  rw [hbs] at h₁ hna
  refine ⟨⟨h₁, hl₁, hr, fun i c hc => ?_, ht, hd, h16, hfits, hag, fun c hc hfree => ?_,
    hna.sides.1, hna.sides.2⟩, k₁⟩
  · obtain ⟨hcb, hcd⟩ := hrest i c hc
    have hfree := (h₁.listed i c hc).2.1
    have hcm : c ∉ mid := fun hm => hcd ((hds c).mpr ⟨hm, hfree⟩)
    rw [hbs] at hcb
    simp only [List.mem_append] at hcb ⊢
    tauto
  · obtain ⟨hcb, hcm⟩ := hside c hc
    exact mem_delSegs_of_not_mem (fun hm => hcm ((hds c).mp hm).1) (h.ok.full c hcb hfree)

namespace Layout

variable {L : Layout} {m m₁ : Mem} {l mid r : List Block} {c : Block} {segs : ℕ → List Block}
  {s t asize : ℕ}

/-- `coalesce` on a block just listed settles it. -/
theorem settle_repBy (h : Rep L.hl L.brk m (l ++ c :: r) (insSeg segs c)) (hc : c.alloc = false)
    (hfull : Full (l ++ r) segs) (h₁ : NoAdj l) (h₂ : NoAdj r) :
    ∃ m', coalesce L.hl m c.addr = some ((mergedBlock L.hl L.brk l c r).addr, m') ∧
      (L.settle l c r segs).RepBy m' ∧ Keeps (l ++ r) m m' := by
  have hlist : ∀ d ∈ l ++ r, d.alloc = false → d ∈ insSeg segs c d.level := fun d hd hfree =>
    mem_insSeg.mpr (.inl (hfull d hd hfree))
  obtain ⟨m', e, h₃, k⟩ := h.coalesce hc (mem_insSeg.mpr (.inr ⟨rfl, rfl⟩))
    (fun hp => hlist _ (List.mem_append_left _ (prevOf_mem hp)) hp)
    (fun hn => hlist _ (List.mem_append_right _ (nextOf_mem hn)) hn)
  exact ⟨m', e, ⟨h₃, settle_ok h.blocks_nodup hc hfull h₁ h₂⟩, k⟩

end Layout

namespace Ready

variable {L : Layout} {m m₁ : Mem} {l mid r : List Block} {segs : ℕ → List Block} {s t asize : ℕ}

/-- What is left is large enough: split, list the rest and merge it. -/
theorem carve_split (h : Ready L m m₁ l mid r segs s t asize)
    (hbig : minBlkSize ≤ t - s - asize) :
    (splitTags m₁ s asize (t - s - asize)).1 = s + asize ∧
    ∃ m₂ m' bp, insertFreeBlock L.hl (splitTags m₁ s asize (t - s - asize)).2 (s + asize) = some m₂ ∧
      coalesce L.hl m₂ (s + asize) = some (bp, m') ∧
      (L.carve l r segs s t asize).RepBy m' ∧ Keeps (l ++ r) m m' ∧
      Keeps [carved s t asize] m₁ m' := by
  obtain ⟨e₁, m₂, e₂, h₂, k₂, k₂'⟩ := h.rep.split h.left h.right h.unlisted h.dvd h.asize_dvd
    h.le_asize hbig h.agree
  have hca := carved_alloc s t asize
  obtain ⟨m', e₃, h₃, k₃⟩ := Layout.settle_repBy h₂ rfl (fun b hb hfree => h.full b (by
      have hne : b ≠ carved s t asize := by
        rintro rfl
        rw [hca] at hfree
        cases hfree
      simpa [hne] using hb) hfree)
    ((NoAdj.append_cons_alloc hca).mpr ⟨h.noAdj_left, List.isChain_nil⟩) h.noAdj_right
  refine ⟨e₁, m₂, m', _, e₂, e₃, ?_, k₂.trans (k₃.mono fun b hb _ => ?_),
    k₂'.trans (k₃.mono fun b hb _ => ?_)⟩
  · rw [Layout.carve, if_pos hbig]
    exact h₃
  · rcases List.mem_append.mp hb with hb | hb
    · exact List.mem_append_left _ (List.mem_append_left _ hb)
    · exact List.mem_append_right _ hb
  · exact List.mem_append_left _ (List.mem_append_right _ hb)

/-- With an allocated block after the rest there is nothing to merge. -/
theorem carve_split_last (h : Ready L m m₁ l mid r segs s t asize)
    (hbig : minBlkSize ≤ t - s - asize) (hn : (nextOf L.brk r).alloc = true) :
    (splitTags m₁ s asize (t - s - asize)).1 = s + asize ∧
    ∃ m', insertFreeBlock L.hl (splitTags m₁ s asize (t - s - asize)).2 (s + asize) = some m' ∧
      (L.carve l r segs s t asize).RepBy m' ∧ Keeps (l ++ r) m m' ∧
      Keeps [carved s t asize] m₁ m' := by
  obtain ⟨e₁, m₂, e₂, h₂, k₂, k₂'⟩ := h.rep.split h.left h.right h.unlisted h.dvd h.asize_dvd
    h.le_asize hbig h.agree
  have hp : (prevOf L.hl (l ++ [carved s t asize])).alloc = true := by
    simpa [prevOf] using carved_alloc s t asize
  have hok := Layout.carve_ok (L := L) (fun _ => h₂.blocks_nodup) h.full h.noAdj_left h.noAdj_right
  refine ⟨e₁, m₂, e₂, ⟨?_, hok⟩, k₂, k₂'⟩
  rw [Layout.carve, if_pos hbig]
  simp only [Layout.settle, mergedBlocks_none hp hn, mergedSegs_none hp hn]
  exact h₂

/-- What is left is too small: the whole interval is allocated. -/
theorem carve_whole (h : Ready L m m₁ l mid r segs s t asize)
    (hsmall : ¬minBlkSize ≤ t - s - asize) :
    (L.carve l r segs s t asize).RepBy (setTags m₁ s (t - s) 1) ∧
      Keeps (l ++ r) m (setTags m₁ s (t - s) 1) ∧
      Keeps [carved s t asize] m₁ (setTags m₁ s (t - s) 1) := by
  have h16 := h.le_asize
  have hfits := h.fits
  obtain ⟨h₂, k₂, k₂'⟩ := h.rep.whole h.left h.right h.unlisted h.dvd (by omega) h.agree
  have hok := Layout.carve_ok (L := L) (fun hbig => absurd hbig hsmall) h.full h.noAdj_left
    h.noAdj_right
  rw [carved_whole hsmall]
  refine ⟨⟨?_, hok⟩, k₂, k₂'⟩
  rw [Layout.carve, if_neg hsmall, carved_whole hsmall]
  exact h₂

end Ready

end SysProgLab
