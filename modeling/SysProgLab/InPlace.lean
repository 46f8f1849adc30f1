import SysProgLab.BestFit

/-!
# Reallocation in place

Cases 1, 2.1 and 2.2 of `mm_realloc` cut a run of bytes around the block: the block
itself, the block and the free one behind it, or the free one before it and the
block. When the guard of the case does not wrap, the cut leaves the result at the
front of the run, and what is left over free, listed, and merged with a free block
behind the run.

The comments above the cases promise more: that free neighbours with enough room
between them are used whenever there are any. The last section says when they are.
-/

namespace SysProgLab

/-- Where the free room behind a run of blocks that ends at `t` ends. -/
def freeEnd (brk : ℕ) (r : List Block) (t : ℕ) : ℕ :=
  if (nextOf brk r).alloc then t else (nextOf brk r).stop

namespace Layout

variable {L L' : Layout} {m m' : Mem} {l r : List Block} {segs : ℕ → List Block} {a b c : Block}
  {s t e asize n : ℕ}

/-- **What a cut leaves behind**: `asize` bytes at the front of the interval from `s`
to `t` and a listed free block up to `e`, or, when less than a block would be left
over, the whole interval. -/
structure Leaves (L' : Layout) (s t e asize : ℕ) : Prop where
  split : s + asize + minBlkSize ≤ t → ⟨s, asize, true⟩ ∈ L'.blocks ∧
    ⟨s + asize, e - (s + asize), false⟩ ∈ L'.blocks ∧
    ⟨s + asize, e - (s + asize), false⟩ ∈ L'.segs (getSegLevel (e - (s + asize)))
  whole : t < s + asize + minBlkSize → ⟨s, t - s, true⟩ ∈ L'.blocks

theorem carve_leaves (hok : (L.carve l r segs s t asize).Ok) (hfits : s + asize ≤ t) :
    (L.carve l r segs s t asize).Leaves s t (freeEnd L.brk r t) asize := by
  refine ⟨fun hle => ?_, fun hlt => ?_⟩
  · have hbig : minBlkSize ≤ t - s - asize := by omega
    have hcarve : (L.carve l r segs s t asize).blocks =
        (l ++ [⟨s, asize, true⟩]) ++ ⟨s + asize, freeEnd L.brk r t - (s + asize), false⟩ ::
          restR L.brk r := by
      have hstop : s + asize + (t - s - asize) = t := by omega
      rw [carve, if_pos hbig, carved, if_pos hbig]
      simp [settle, mergedBlocks, mergedBlock, mergeStart, mergeStop, restL, prevOf, freeEnd,
        Block.stop, hstop]
    have hrest : ⟨s + asize, freeEnd L.brk r t - (s + asize), false⟩ ∈
        (L.carve l r segs s t asize).blocks := by
      rw [hcarve]
      simp
    refine ⟨?_, hrest, hok.full _ hrest rfl⟩
    rw [hcarve]
    simp
  · have hsmall : ¬minBlkSize ≤ t - s - asize := by omega
    rw [carve, if_neg hsmall, carved, if_neg hsmall]
    simp

end Layout

/-! ## Cases 1, 2.1 and 2.2 -/

/-- **The call cuts the run from `s` to `t`**: it returns `s`, writes nothing but
memory, replaces the block by the one at the front of the run with the same contents,
and leaves what is left over free. -/
def Reuses (h : Heap) (L : Layout) (b : Block) (size s t e : ℕ) : Prop :=
  ∃ m' L', mmRealloc h b.addr size = some (s, { h with mem := m' }) ∧
    Heap.Models { h with mem := m' } L' ∧
    L.Resized L' h.mem m' b (carved s t (adjust size)) (min (b.size - 8) size) ∧
    L'.Leaves s t e (adjust size)

namespace Heap.Models

variable {h : Heap} {L : Layout} {l r : List Block} {b : Block} {size s t : ℕ}

/-- When there is a fit, `mm_malloc` places the request in it. -/
theorem malloc_place (hL : h.Models L) (h0 : size ≠ 0) (hsize : size + 15 < 2 ^ 32)
    (hf : L.fit (adjust size) = some b) :
    ∃ h', SysProgLab.mmMalloc h size = some (b.addr, h') ∧ h'.Models (L.place b (adjust size)) ∧
      h'.memBrk = h.memBrk ∧ h'.memMaxAddr = h.memMaxAddr ∧ h'.arith = h.arith := by
  have hm := hL.mmMalloc h0 hsize fun hnone => absurd (hnone.symm.trans hf) (by simp)
  rw [Layout.malloc, hf] at hm
  obtain ⟨m', e, h', -⟩ := hm
  exact ⟨_, e, h', (Layout.place_brk ..).trans hL.brk.symm, rfl, rfl⟩

theorem reuses_carve {m' : Mem} {segs : ℕ → List Block} {l' r' : List Block} (hL : h.Models L)
    (e : SysProgLab.mmRealloc h b.addr size = some (s, { h with mem := m' }))
    (h' : (L.carve l' r' segs s t (adjust size)).RepBy m')
    (hres : L.Resized (L.carve l' r' segs s t (adjust size)) h.mem m' b
      (carved s t (adjust size)) (min (b.size - 8) size)) (hfits : s + adjust size ≤ t) :
    Reuses h L b size s t (freeEnd L.brk r' t) := by
  refine ⟨m', _, e, ?_, hres, Layout.carve_leaves h'.ok hfits⟩
  rw [(hL.carve h').1]
  exact (hL.carve h').2

end Heap.Models

/-- **The reuse paths of `mm_realloc` that do not wrap are correct**: a block that is
large enough, a free successor with room to spare, and, behind an allocated
successor, a free predecessor with room to spare. -/
theorem mmRealloc_reuses {h : Heap} {L : Layout} {l r : List Block} {b : Block} {size : ℕ}
    (hL : h.Models L) (hbs : L.blocks = l ++ b :: r) (ha : b.alloc = true) (h0 : size ≠ 0)
    (hsize : size < 2 ^ 31) :
    (adjust size ≤ b.size → Reuses h L b size b.addr b.stop (freeEnd L.brk r b.stop)) ∧
    (b.size < adjust size → (nextOf L.brk r).alloc = false →
      adjust size < b.size + (nextOf L.brk r).size →
      Reuses h L b size b.addr (nextOf L.brk r).stop (nextOf L.brk r).stop) ∧
    (b.size < adjust size → (nextOf L.brk r).alloc = true → (prevOf L.hl l).alloc = false →
      adjust size < b.size + (prevOf L.hl l).size →
      Reuses h L b size (prevOf L.hl l).addr b.stop b.stop) := by
  have hround : size + 15 < 2 ^ 32 := by omega
  have hbm : b ∈ L.blocks := by
    rw [hbs]
    exact Rep.focus_mem
  have hrep := hL.repBy.rep
  have hok := hL.repBy.ok.noAdj
  refine ⟨fun hle => ?_, fun hgt hn hfit => ?_, fun hgt hn hp hfit => ?_⟩
  · obtain ⟨m', e, h', hres⟩ := hL.realloc_shrink hbm ha h0 hround hle
    obtain ⟨rfl, rfl⟩ := before_after_eq hrep.blocks_nodup hbs
    exact hL.reuses_carve e h' hres (Nat.add_le_add_left hle _)
  · -- the block behind the free one is allocated
    have hr := eq_cons_nextOf hn
    have hafter : (nextOf L.brk r.tail).alloc = true := by
      rw [hbs, hr, List.append_cons] at hok
      exact ((NoAdj.append_cons_free L.hl L.brk hn).mp hok).2.2.2
    have hnext := hrep
    rw [hbs] at hnext
    have hna := hnext.next.1
    generalize nextOf L.brk r = n at *
    generalize r.tail = r' at *
    subst hr
    obtain ⟨m', e, h', hres⟩ := hL.realloc_next hbs ha hn h0 hround hgt hfit
    have hreuse := hL.reuses_carve e h' hres (by simp only [Block.stop] at *; omega)
    rwa [freeEnd, if_pos hafter] at hreuse
  · have hl := eq_append_prevOf hp
    rw [hl, List.append_assoc, List.singleton_append] at hbs
    have hprev := hrep
    rw [hbs] at hprev
    have hba := hprev.next.1
    obtain ⟨m', e, h', hres⟩ := hL.realloc_prev hbs ha hp h0 hround hgt (.inl hn) hfit fun _ => hn
    have hreuse := hL.reuses_carve e h' hres (by
      simp only [nextOf, List.headD_cons, Block.stop] at *
      omega)
    rwa [freeEnd, if_pos hn] at hreuse

/-- A new heap after `mm_malloc(8)`. -/
theorem first_block_models : ∃ (h : Heap) (L : Layout), h.Models L ∧ h.arith = .exact ∧
    h.memMaxAddr = 1024 + maxHeap ∧ L.brk = 5232 ∧
    L.blocks = [⟨1136, 16, true⟩, ⟨1152, 4080, false⟩] := by
  obtain ⟨h₀, -, hL₀, hmax, ha⟩ := mmInit_eq .exact (fun _ => 0) (⟨128, rfl⟩ : 8 ∣ 1024) (by decide)
  have hf : (initLayout 1024).fit (adjust 8) = some ⟨1136, 4096, false⟩ := by decide
  obtain ⟨h, -, hL, -, hmax', ha'⟩ := hL₀.malloc_place (by decide : 8 ≠ 0) (by decide) hf
  exact ⟨h, _, hL, ha'.trans ha, hmax'.trans hmax, rfl, by decide⟩

/-- The first block of a new heap grows into the free one behind it. -/
theorem mmRealloc_reuses_run : ∃ (h : Heap) (L : Layout), h.Models L ∧
    Reuses h L ⟨1136, 16, true⟩ 1000 1136 5232 5232 := by
  obtain ⟨h, L, hL, -, -, hbrk, hblocks⟩ := first_block_models
  obtain ⟨-, hnext, -⟩ :=
    mmRealloc_reuses hL (l := []) hblocks rfl (by decide : 1000 ≠ 0) (by decide)
  exact ⟨h, L, hL, hnext (by decide) rfl (by decide : adjust 1000 < 16 + 4080)⟩

/-! ## Growing into free neighbours -/

/-- The block and its free neighbours have `asize` bytes between them. -/
def Room (L : Layout) (l : List Block) (b : Block) (r : List Block) (asize : ℕ) : Prop :=
  let p := prevOf L.hl l
  let n := nextOf L.brk r
  n.alloc = false ∧ asize ≤ b.size + n.size ∨ p.alloc = false ∧ asize ≤ b.size + p.size ∨
    p.alloc = false ∧ n.alloc = false ∧ asize ≤ b.size + p.size + n.size

/-- **What cases 2.1 to 2.3 promise**: the call returns a block with room for the
request, `mem_brk` is where it was, the whole old payload is at the new address, the
other allocated blocks are as they were, and the heap represents a layout again. The
block stays where it is if the next block alone is large enough. -/
def Grows (h : Heap) (L : Layout) (b : Block) (r : List Block) (size : ℕ) : Prop :=
  ∃ h' L' a, mmRealloc h b.addr size = some (a.addr, h') ∧ a.addr ≠ 0 ∧ h'.memBrk = h.memBrk ∧
    h'.Models L' ∧ L.Resized L' h.mem h'.mem b a (b.size - 8) ∧ adjust size ≤ a.size ∧
    ((nextOf L.brk r).alloc = false → adjust size ≤ b.size + (nextOf L.brk r).size →
      a.addr = b.addr)

/-- A free next block has room to spare by itself; behind an allocated one, either the
previous block has room to spare or some free block is large enough. -/
def GrowsOk (L : Layout) (l : List Block) (b : Block) (r : List Block) (asize : ℕ) : Prop :=
  ((nextOf L.brk r).alloc = false → asize < b.size + (nextOf L.brk r).size) ∧
    ((nextOf L.brk r).alloc = true → asize < b.size + (prevOf L.hl l).size ∨
      ∃ c, L.Fits asize c)

/-- A request for a larger block is for more than the old payload. -/
theorem payload_lt_of_lt_adjust {size n : ℕ} (h8 : 8 ∣ n) (h16 : 16 ≤ n)
    (hgt : n < adjust size) : n - 8 < size := by
  rw [adjust] at hgt
  split at hgt <;> simp only [dsize] at * <;> omega

theorem Reuses.grows {h : Heap} {L : Layout} {r : List Block} {b : Block} {size s t e : ℕ}
    (hre : Reuses h L b size s t e)
    (hcopy : min (b.size - 8) size = b.size - 8) (hfits : s + adjust size ≤ t)
    (hs : (nextOf L.brk r).alloc = false → adjust size ≤ b.size + (nextOf L.brk r).size →
      s = b.addr) : Grows h L b r size := by
  obtain ⟨m', L', e, hL', hres, -⟩ := hre
  have haddr : (carved s t (adjust size)).addr = s := carved_addr ..
  have hmem : carved s t (adjust size) ∈ L'.blocks := (hres.mem _ hres.alloc).mpr (.inr rfl)
  have hbounds := hL'.repBy.rep.bounds hmem
  rw [hcopy] at hres
  refine ⟨{ h with mem := m' }, L', carved s t (adjust size), ?_, by omega, rfl, hL', hres,
    le_carved_size hfits, ?_⟩
  · rw [haddr]
    exact e
  · rw [haddr]
    exact hs

theorem mmFree_memBrk {h h' : Heap} {ptr : ℕ} (e : mmFree h ptr = some h') :
    h'.memBrk = h.memBrk := by
  rw [mmFree] at e
  split at e
  · cases e
    rfl
  · obtain ⟨m₁, -, e⟩ := Option.bind_eq_some_iff.mp e
    obtain ⟨x, -, e⟩ := Option.bind_eq_some_iff.mp e
    cases e
    rfl

/-- Less than the whole address space away is somewhere else. -/
theorem PtrArith.add_ne {p n : ℕ} (arith : PtrArith) (h0 : 0 < n)
    (hn : n < 2 ^ 32) : arith.add p n ≠ p := by
  cases arith <;> simp only [PtrArith.add] <;> omega

namespace Heap.Models

variable {h h' : Heap} {L L' : Layout} {l r : List Block} {b p n : Block} {size q : ℕ}

/-- Without a neighbour to grow into, a call that finds a fit moves there. -/
theorem grows_move (hL : h.Models L) (hbs : L.blocks = l ++ b :: r) (ha : b.alloc = true)
    (h0 : size ≠ 0) (hsize : size + 15 < 2 ^ 32) (hgt : b.size < adjust size)
    (hn : (nextOf L.brk r).alloc = true) (hp : b.size + (prevOf L.hl l).size = adjust size)
    (hcopy : min (b.size - 8) size = b.size - 8) (hfit : ∃ c, L.Fits (adjust size) c) :
    Grows h L b r size := by
  have hbrk := hL.brk
  cases hf : L.fit (adjust size) with
  | none => exact absurd hfit (hL.repBy.fit_eq_none_iff.mp hf)
  | some f =>
    have hm := hL.realloc_move hbs ha h0 hsize hgt (.inl hn) (.inr hp) (.inr hn)
      fun hnone => absurd (hnone.symm.trans hf) (by simp)
    rw [Layout.malloc, hf] at hm
    obtain ⟨m', e, hL', hres, hle⟩ := hm
    have hmem := (hres.mem _ hres.alloc).mpr (.inr rfl)
    have hbounds := hL'.repBy.rep.bounds hmem
    rw [hcopy] at hres
    refine ⟨_, _, _, ?_, by omega, ?_, hL', hres, ?_, fun hfree => ?_⟩
    · rw [carved_addr]
      exact e
    · exact (Layout.place_brk ..).trans hbrk.symm
    · exact le_carved_size (Nat.add_le_add_left hle _)
    · rw [hn] at hfree
      cases hfree

/-- Where case 2.1.1 is taken, the result is the block's own address. -/
theorem realloc_next_addr (hL : h.Models L) (hbs : L.blocks = l ++ b :: r) (h0 : size ≠ 0)
    (hgt : b.size < adjust size) (hn : (nextOf L.brk r).alloc = false)
    (hguard : minBlkSize ≤ sub32 (b.size + (nextOf L.brk r).size) (adjust size))
    (e : SysProgLab.mmRealloc h b.addr size = some (q, h')) : q = b.addr := by
  have hrep := hL.repBy.rep
  rw [hbs] at hrep
  have hbm : b ∈ l ++ b :: r := Rep.focus_mem
  have hbb := hrep.bounds hbm
  have hne : b.addr ≠ 0 := by omega
  obtain ⟨-, e₅, e₆, e₇, e₈⟩ := hrep.neighbours
  simp only [SysProgLab.mmRealloc, h0, hne, hrep.getSize_hdrp hbm, e₅, e₆, e₇, e₈, hn, hguard,
    Nat.not_le.mpr hgt, Bool.toNat_false, ne_eq, not_false_eq_true, and_self, if_true, if_false] at e
  obtain ⟨m₁, -, e⟩ := Option.bind_eq_some_iff.mp e
  obtain ⟨x, -, e⟩ := Option.bind_eq_some_iff.mp e
  cases e
  rfl

/-- Where the next block fits exactly and the previous one is free, the result is the
previous block: one of cases 2.2.1, 2.2.2 and 2.3.1 is taken. -/
theorem realloc_prev_addr (hL : h.Models L) (hbs : L.blocks = l ++ b :: r) (h0 : size ≠ 0)
    (hgt : b.size < adjust size) (hn : (nextOf L.brk r).alloc = false)
    (hexact : b.size + (nextOf L.brk r).size = adjust size) (hp : (prevOf L.hl l).alloc = false)
    (e : SysProgLab.mmRealloc h b.addr size = some (q, h')) : q = (prevOf L.hl l).addr := by
  have hrep := hL.repBy.rep
  rw [hbs] at hrep
  have hbm : b ∈ l ++ b :: r := Rep.focus_mem
  have hpm : prevOf L.hl l ∈ l ++ b :: r := List.mem_append_left _ (prevOf_mem hp)
  have hnm : nextOf L.brk r ∈ l ++ b :: r :=
    List.mem_append_right _ (List.mem_cons_of_mem _ (nextOf_mem hn))
  have hbb := hrep.bounds hbm
  have hpb := hrep.bounds hpm
  have hlt := hrep.addr_lt hnm
  have hplt := hrep.addr_lt hpm
  have hne : b.addr ≠ 0 := by omega
  obtain ⟨⟨e₁, e₂, e₃, e₄⟩, e₅, e₆, e₇, e₈⟩ := hrep.neighbours
  have hna := hrep.next.1
  have hsub0 : sub32 (adjust size) (adjust size) = 0 := by
    rw [sub32_eq (le_refl _) (by simp only [Block.stop] at *; omega), Nat.sub_self]
  have hboth : minBlkSize ≤
      sub32 (b.size + (prevOf L.hl l).size + (nextOf L.brk r).size) (adjust size) := by
    have hmin : minBlkSize = 16 := rfl
    rw [← hexact, sub32]
    simp only [Block.stop] at *
    omega
  simp only [SysProgLab.mmRealloc, h0, hne, hrep.getSize_hdrp hbm, e₁, e₂, e₃, e₄, e₅, e₆, e₇, e₈,
    hn, hp, hexact, hsub0, hboth, Nat.not_le.mpr hgt, Bool.toNat_false, ne_eq, not_false_eq_true,
    true_and, and_self, if_true, if_false, lt_irrefl, (by decide : ¬minBlkSize ≤ 0)] at e
  split at e
  · obtain ⟨m₁, -, e⟩ := Option.bind_eq_some_iff.mp e
    cases e
    rfl
  · split at e
    · cases e
      rfl
    · obtain ⟨m₁, -, e⟩ := Option.bind_eq_some_iff.mp e
      cases e
      rfl

/-- A block of a later layout does not reach over the next allocated block or over the
end of the heap. -/
theorem stop_le_next {a : Block} (hL' : h'.Models L') (ha : a ∈ L'.blocks) (hbrk : L'.brk = L.brk)
    (hkeep : ∀ c ∈ r, c.alloc = true → c ∈ L'.blocks) (hn : (nextOf L.brk r).alloc = true)
    (hlt : a.addr < (nextOf L.brk r).addr) : a.stop ≤ (nextOf L.brk r).addr := by
  cases r with
  | nil =>
    have hb := (hL'.repBy.rep.bounds ha).2.1
    rw [hbrk] at hb
    exact hb
  | cons c r =>
    have hc : c ∈ L'.blocks := hkeep c (List.mem_cons_self ..) hn
    change a.addr < c.addr at hlt
    have hne : a ≠ c := fun he => by simp [he] at hlt
    rcases hL'.repBy.rep.disjoint ha hc hne with hd | hd
    · exact hd
    · simp only [Block.stop] at hd
      omega

/-- A free next block that is too small wraps the guard of case 2.1.1, whatever the
previous block is. -/
theorem not_grows_small (hL : h.Models L) (hbs : L.blocks = l ++ b :: r) (h0 : size ≠ 0)
    (hsize : size + 15 < 2 ^ 32) (hgt : b.size < adjust size) (hn : (nextOf L.brk r).alloc = false)
    (hsmall : b.size + (nextOf L.brk r).size < adjust size) : ¬Grows h L b r size := by
  rintro ⟨h', L', a, e, -, hbrk, hL', hres, hle, -⟩
  obtain ⟨-, -, -, hmax⟩ := adjust_spec hsize
  have hrep := hL.repBy.rep
  have hok := hL.repBy.ok.noAdj
  have hnd := hL.repBy.rep.blocks_nodup
  have hr := eq_cons_nextOf hn
  rw [hbs] at hrep hok hnd
  have hbb := hrep.bounds Rep.focus_mem
  have hguard : minBlkSize ≤ sub32 (b.size + (nextOf L.brk r).size) (adjust size) := by
    have hmin : minBlkSize = 16 := rfl
    rw [sub32]
    omega
  have haddr := hL.realloc_next_addr hbs h0 hgt hn hguard e
  have hna := hrep.next.1
  generalize nextOf L.brk r = n at *
  generalize r.tail = r' at *
  subst hr
  -- the block behind the free one is allocated and still there
  rw [List.append_cons] at hok hrep
  have hafter := ((NoAdj.append_cons_free L.hl L.brk hn).mp hok).2.2.2
  have hkeep : ∀ c ∈ r', c.alloc = true → c ∈ L'.blocks := by
    intro c hc hca
    have hcb : c ≠ b := by
      rintro rfl
      have hnot := (List.nodup_cons.mp (List.nodup_append.mp hnd).2.1).1
      exact hnot (List.mem_cons_of_mem _ hc)
    refine (hres.mem c hca).mpr (.inl ⟨?_, hcb⟩)
    rw [hbs]
    simp [hc]
  have ham : a ∈ L'.blocks := (hres.mem a hres.alloc).mpr (.inr rfl)
  have hnext := hrep.next.1
  simp only [Block.stop] at hna hnext
  have hstop :=
    stop_le_next hL' ham (hL'.brk.symm.trans (hbrk.trans hL.brk)) hkeep hafter (by omega)
  simp only [Block.stop] at hstop
  omega

/-- In case 2.4 the result is what `mm_malloc` returns, and `mem_brk` is where it put
it. -/
theorem realloc_move_malloc (hL : h.Models L) (hbs : L.blocks = l ++ b :: r) (h0 : size ≠ 0)
    (hsize : size + 15 < 2 ^ 32) (hgt : b.size < adjust size)
    (hn : (nextOf L.brk r).alloc = true ∨ b.size + (nextOf L.brk r).size = adjust size)
    (hp : (prevOf L.hl l).alloc = true ∨ b.size + (prevOf L.hl l).size = adjust size)
    (hpn : (prevOf L.hl l).alloc = true ∨ (nextOf L.brk r).alloc = true)
    (e : SysProgLab.mmRealloc h b.addr size = some (q, h')) (hq : q ≠ 0) :
    ∃ h₁, SysProgLab.mmMalloc h size = some (q, h₁) ∧ h'.memBrk = h₁.memBrk := by
  rw [hL.realloc_code_move hbs h0 hsize hgt hn hp hpn] at e
  obtain ⟨⟨q₁, h₁⟩, e₁, e⟩ := Option.bind_eq_some_iff.mp e
  split at e
  · cases e
    exact absurd rfl hq
  · obtain ⟨h₂, e₂, e⟩ := Option.bind_eq_some_iff.mp e
    cases e
    have hfree := mmFree_memBrk e₂
    exact ⟨h₁, e₁, hfree⟩

/-- `mm_malloc` without a fit moves `mem_brk`. -/
theorem malloc_memBrk_ne (hL : h.Models L) (h0 : size ≠ 0) (hsize : size + 15 < 2 ^ 32)
    (hfit : ¬∃ c, L.Fits (adjust size) c) (e : SysProgLab.mmMalloc h size = some (q, h'))
    (hq : q ≠ 0) : h'.memBrk ≠ h.memBrk := by
  have hnull : findFit h.heapListp h.mem (adjust size) = some 0 := by
    rw [hL.listp, hL.repBy.findFit, hL.repBy.fit_eq_none_iff.mpr hfit]
    rfl
  obtain ⟨hlt, hbrk, -⟩ := mmMalloc_sbrk h0 hsize hnull e hq
  have hpos : chunksize ≤ max (adjust size) chunksize := le_max_right _ _
  rw [hbrk]
  exact PtrArith.add_ne _ (lt_of_lt_of_le (by decide) hpos) (by omega)

/-- Where the next block fits exactly, the block moves. -/
theorem not_grows_exact (hL : h.Models L) (hbs : L.blocks = l ++ b :: r) (ha : b.alloc = true)
    (h0 : size ≠ 0) (hsize : size + 15 < 2 ^ 32) (hgt : b.size < adjust size)
    (hn : (nextOf L.brk r).alloc = false)
    (hexact : b.size + (nextOf L.brk r).size = adjust size) : ¬Grows h L b r size := by
  rintro ⟨h', L', a, e, ha0, hbrk, hL', hres, hle, hstay⟩
  have haddr := hstay hn hexact.ge
  rw [haddr] at e
  have hrep := hL.repBy.rep
  rw [hbs] at hrep
  by_cases hp : (prevOf L.hl l).alloc = true
  · obtain ⟨h₁, e₁, hbrk₁⟩ := hL.realloc_move_malloc hbs h0 hsize hgt (.inr hexact) (.inl hp)
      (.inl hp) e (haddr ▸ ha0)
    by_cases hfit : ∃ c, L.Fits (adjust size) c
    · -- a free block is not where the allocated one is
      obtain ⟨f, ⟨hf, hfree, -⟩, -, -, h₂, e₂, -⟩ := hL.malloc_fit h0 hsize hfit
      rw [e₁] at e₂
      have heq : b.addr = f.addr := congrArg Prod.fst (Option.some.inj e₂)
      obtain rfl := hL.repBy.rep.eq_of_addr_eq (hbs ▸ Rep.focus_mem) hf heq
      rw [ha] at hfree
      cases hfree
    · exact hL.malloc_memBrk_ne h0 hsize hfit e₁ (haddr ▸ ha0) (hbrk₁.symm.trans hbrk)
  · rw [Bool.not_eq_true] at hp
    have hq := hL.realloc_prev_addr hbs h0 hgt hn hexact hp e
    have hstop := hrep.prev.1
    have hsize := hrep.prev.2.2.1
    simp only [Block.stop] at hstop
    omega

/-- Where only the previous block would fit, exactly, and no free block does, the heap
has to grow. -/
theorem not_grows_nofit (hL : h.Models L) (hbs : L.blocks = l ++ b :: r) (h0 : size ≠ 0)
    (hsize : size + 15 < 2 ^ 32) (hgt : b.size < adjust size) (hn : (nextOf L.brk r).alloc = true)
    (hp : b.size + (prevOf L.hl l).size = adjust size) (hfit : ¬∃ c, L.Fits (adjust size) c) :
    ¬Grows h L b r size := by
  rintro ⟨h', L', a, e, ha0, hbrk, -⟩
  obtain ⟨h₁, e₁, hbrk₁⟩ := hL.realloc_move_malloc hbs h0 hsize hgt (.inl hn) (.inr hp) (.inr hn)
    e ha0
  exact hL.malloc_memBrk_ne h0 hsize hfit e₁ ha0 (hbrk₁.symm.trans hbrk)

end Heap.Models

/-- **When `mm_realloc` grows into free neighbours**: of the requests for which there
is room in and around the block, exactly those are served as the comments say for which
a free next block has room to spare by itself, or, behind an allocated one, the previous
block has or some free block is large enough. -/
theorem mmRealloc_grows_iff {h : Heap} {L : Layout} {l r : List Block} {b : Block} {size : ℕ}
    (hL : h.Models L) (hbs : L.blocks = l ++ b :: r) (ha : b.alloc = true) (h0 : size ≠ 0)
    (hsize : size < 2 ^ 31) (hgt : b.size < adjust size) (hroom : Room L l b r (adjust size)) :
    Grows h L b r size ↔ GrowsOk L l b r (adjust size) := by
  have hround : size + 15 < 2 ^ 32 := by omega
  have hbm : b ∈ L.blocks := hbs ▸ Rep.focus_mem
  have hv := hL.repBy.rep.valid b hbm
  have hcopy : min (b.size - 8) size = b.size - 8 :=
    min_eq_left (payload_lt_of_lt_adjust hv.dvd hv.le hgt).le
  obtain ⟨-, hnext, hprev⟩ := mmRealloc_reuses hL hbs ha h0 hsize
  have hrep := hL.repBy.rep
  rw [hbs] at hrep
  have hna := hrep.next.1
  have hpa := hrep.prev.1
  simp only [Block.stop] at hna hpa
  cases hn : (nextOf L.brk r).alloc with
  | false =>
    have hok : GrowsOk L l b r (adjust size) ↔ adjust size < b.size + (nextOf L.brk r).size := by
      simp [GrowsOk, hn]
    rw [hok]
    refine ⟨fun hgrows => ?_, fun hlt => ?_⟩
    · by_contra hle
      rcases (not_lt.mp hle).lt_or_eq with hsmall | hexact
      · exact hL.not_grows_small hbs h0 hround hgt hn hsmall hgrows
      · exact hL.not_grows_exact hbs ha h0 hround hgt hn hexact hgrows
    · exact (hnext hgt hn hlt).grows hcopy (by simp only [Block.stop]; omega) fun _ _ => rfl
  | true =>
    have hok : GrowsOk L l b r (adjust size) ↔ adjust size < b.size + (prevOf L.hl l).size ∨
        ∃ c, L.Fits (adjust size) c := by
      simp [GrowsOk, hn]
    obtain ⟨hp, hle⟩ : (prevOf L.hl l).alloc = false ∧
        adjust size ≤ b.size + (prevOf L.hl l).size := by
      simpa [Room, hn] using hroom
    rw [hok]
    refine ⟨fun hgrows => ?_, fun hcond => ?_⟩
    · by_contra hnot
      rw [not_or, not_lt] at hnot
      exact hL.not_grows_nofit hbs h0 hround hgt hn (le_antisymm hnot.1 hle) hnot.2 hgrows
    · rcases hle.lt_or_eq with hlt | hexact
      · refine (hprev hgt hn hp hlt).grows hcopy (by simp only [Block.stop]; omega) fun hfree => ?_
        rw [hn] at hfree
        cases hfree
      · exact hL.grows_move hbs ha h0 hround hgt hn hexact.symm hcopy
          (hcond.resolve_left (by omega))

theorem mmRealloc_grows_iff_run : ∃ (h : Heap) (L : Layout), h.Models L ∧
    Grows h L ⟨1136, 16, true⟩ [⟨1152, 4080, false⟩] 4000 := by
  obtain ⟨h, L, hL, -, -, hbrk, hblocks⟩ := first_block_models
  have hlt : adjust 4000 < 16 + 4080 := by decide
  exact ⟨h, L, hL, (mmRealloc_grows_iff hL (l := []) hblocks rfl (by decide) (by decide) (by decide)
    (.inl ⟨rfl, hlt.le⟩)).mpr ⟨fun _ => hlt, fun hn => by cases hn⟩⟩

/-- The free block behind the first one would fit exactly. -/
theorem mmRealloc_grows_exact : ¬∀ (h : Heap) (L : Layout) (l r : List Block) (b : Block)
    (size : ℕ), h.Models L → L.blocks = l ++ b :: r → b.alloc = true → size ≠ 0 → size < 2 ^ 31 →
    b.size < adjust size → Room L l b r (adjust size) → Grows h L b r size := by
  intro hall
  obtain ⟨h, L, hL, -, -, hbrk, hblocks⟩ := first_block_models
  have heq : 16 + 4080 = adjust 4088 := by decide
  exact hL.not_grows_exact (l := []) hblocks rfl (by decide) (by decide) (by decide) rfl heq
    (hall h L [] _ _ 4088 hL hblocks rfl (by decide) (by decide) (by decide) (.inl ⟨rfl, heq.ge⟩))

end SysProgLab
