import SysProgLab.Coalesce

/-!
# The abstract allocator

A `Layout` is what a heap amounts to once the words are forgotten: the blocks
from the prologue to the epilogue and the eleven free lists. The operations of
the allocator are functions of the layout alone:

* `Layout.free` — flip a block to free, list it, merge it with its free
  neighbours;
* `Layout.fit` — the first listed block that is large enough, in the order of
  the lists;
* `Layout.place` — allocate the front of a free block, list the rest;
* `Layout.malloc` — fit, or grow the heap, then place.

A layout is `Ok` when every free block is listed and no two free blocks are
adjacent. Both hold again after every operation; the intermediate layouts,
in which they may fail, never leave an operation.
-/

namespace SysProgLab

/-- Every free block is on the list of its size class. -/
def Full (bs : List Block) (segs : ℕ → List Block) : Prop :=
  ∀ b ∈ bs, b.alloc = false → b ∈ segs b.level

/-- No two adjacent blocks are both free. -/
def NoAdj (bs : List Block) : Prop := bs.IsChain fun b c => b.alloc = true ∨ c.alloc = true

theorem NoAdj.sides {l mid r : List Block} (h : NoAdj (l ++ (mid ++ r))) : NoAdj l ∧ NoAdj r :=
  ⟨h.left_of_append, h.right_of_append.right_of_append⟩

theorem NoAdj.append_cons_alloc {l r : List Block} {b : Block} (hb : b.alloc = true) :
    NoAdj (l ++ b :: r) ↔ NoAdj l ∧ NoAdj r := by
  simp only [NoAdj, List.isChain_append, List.isChain_cons, hb]
  simp [hb]

theorem NoAdj.append_cons_free {l r : List Block} {b : Block} (hl brk : ℕ) (hb : b.alloc = false) :
    NoAdj (l ++ b :: r) ↔
      NoAdj l ∧ NoAdj r ∧ (prevOf hl l).alloc = true ∧ (nextOf brk r).alloc = true := by
  have hp : (prevOf hl l).alloc = true ↔ ∀ x ∈ l.getLast?, x.alloc = true := by
    rcases List.eq_nil_or_concat l with rfl | ⟨l', p, rfl⟩
    · simp [prevOf, prologue]
    · simp [prevOf]
  have hn : (nextOf brk r).alloc = true ↔ ∀ x ∈ r.head?, x.alloc = true := by
    cases r with
    | nil => simp [nextOf, epilogue]
    | cons n r => simp [nextOf]
  rw [hp, hn]
  simp only [NoAdj, List.isChain_append, List.isChain_cons, hb]
  simp [hb]
  tauto

/-! ## Merging -/

section Merge

variable {hl brk : ℕ} {l r : List Block} {b : Block} {segs : ℕ → List Block}

theorem prevOf_mem (h : (prevOf hl l).alloc = false) : prevOf hl l ∈ l := by
  rcases List.eq_nil_or_concat l with rfl | ⟨l', p, rfl⟩
  · cases h
  · simp [prevOf]

theorem nextOf_mem (h : (nextOf brk r).alloc = false) : nextOf brk r ∈ r := by
  cases r with
  | nil => cases h
  | cons n r => exact List.mem_cons_self ..

theorem mem_restL {c : Block} (h : c ∈ restL hl l) : c ∈ l := by
  rw [restL] at h
  split at h
  · exact h
  · exact List.mem_of_mem_dropLast h

theorem mem_restR {c : Block} (h : c ∈ restR brk r) : c ∈ r := by
  rw [restR] at h
  split at h
  · exact h
  · exact List.mem_of_mem_tail h

/-- Between allocated blocks nothing is merged. -/
theorem mergedBlocks_none (hp : (prevOf hl l).alloc = true) (hn : (nextOf brk r).alloc = true)
    (hb : b.alloc = false) : mergedBlocks hl brk l b r = l ++ b :: r := by
  simp [mergedBlocks, mergedBlock, mergeStart, mergeStop, restL, restR, hp, hn, Block.stop, ← hb]

theorem mergedSegs_none (hp : (prevOf hl l).alloc = true) (hn : (nextOf brk r).alloc = true) :
    mergedSegs hl brk l b r segs = segs := if_pos ⟨hp, hn⟩

/-- Merging touches free blocks only. -/
theorem mem_mergedBlocks_alloc {c : Block} (hc : c.alloc = true) :
    c ∈ mergedBlocks hl brk l b r ↔ c ∈ l ∨ c ∈ r := by
  have hm : c ≠ mergedBlock hl brk l b r := by
    rintro rfl
    cases hc
  have hL : c ∈ restL hl l ↔ c ∈ l := by
    cases hp : (prevOf hl l).alloc with
    | true => simp [restL, hp]
    | false =>
      refine ⟨mem_restL, fun h => ?_⟩
      rw [eq_append_prevOf hp] at h
      rcases List.mem_append.mp h with h | h
      · simpa [restL, hp] using h
      · rw [List.mem_singleton.mp h, hp] at hc
        cases hc
  have hR : c ∈ restR brk r ↔ c ∈ r := by
    cases hn : (nextOf brk r).alloc with
    | true => simp [restR, hn]
    | false =>
      refine ⟨mem_restR, fun h => ?_⟩
      rw [eq_cons_nextOf hn] at h
      rcases List.mem_cons.mp h with h | h
      · rw [h, hn] at hc
        cases hc
      · simpa [restR, hn] using h
  simp [mergedBlocks, hm, hL, hR]

theorem noAdj_mergedBlocks (h₁ : NoAdj l) (h₂ : NoAdj r) :
    NoAdj (mergedBlocks hl brk l b r) := by
  refine (NoAdj.append_cons_free hl brk rfl).mpr ?_
  have hL : NoAdj (restL hl l) ∧ (prevOf hl (restL hl l)).alloc = true := by
    cases hp : (prevOf hl l).alloc with
    | true => simpa [restL, hp] using h₁
    | false =>
      rw [eq_append_prevOf hp] at h₁
      have := (NoAdj.append_cons_free hl brk hp).mp h₁
      simpa [restL, hp] using ⟨this.1, this.2.2.1⟩
  have hR : NoAdj (restR brk r) ∧ (nextOf brk (restR brk r)).alloc = true := by
    cases hn : (nextOf brk r).alloc with
    | true => simpa [restR, hn] using h₂
    | false =>
      rw [eq_cons_nextOf hn] at h₂
      have := (NoAdj.append_cons_free hl brk (l := []) hn).mp h₂
      simpa [restR, hn] using ⟨this.2.1, this.2.2.2⟩
  exact ⟨hL.1, hR.1, hL.2, hR.2⟩

theorem full_mergedBlocks (hnd : (l ++ b :: r).Nodup) (h : Full (l ++ b :: r) segs)
    (hb : b.alloc = false) :
    Full (mergedBlocks hl brk l b r) (mergedSegs hl brk l b r segs) := by
  intro c hc hfree
  obtain ⟨-, hndr, hdisj⟩ := List.nodup_append.mp hnd
  obtain ⟨hbr, hndr'⟩ := List.nodup_cons.mp hndr
  rw [mergedSegs]
  split
  · next hpn =>
    rw [mergedBlocks_none hpn.1 hpn.2 hb] at hc
    exact h c hc hfree
  · rcases List.mem_append.mp hc with hcl | hcr
    · -- before the merged block
      have hcl' := mem_restL hcl
      have hne : c ≠ b ∧ c ≠ nextOf brk r := by
        refine ⟨hdisj c hcl' b (List.mem_cons_self ..), ?_⟩
        rintro rfl
        exact hdisj _ hcl' _ (List.mem_cons_of_mem _ (nextOf_mem hfree)) rfl
      have hnp : c ≠ prevOf hl l := by
        rintro rfl
        have he := eq_append_prevOf hfree
        have hnl := (List.nodup_append.mp hnd).1
        rw [he] at hnl
        simp only [restL, hfree, Bool.false_eq_true, if_false] at hcl
        exact (List.nodup_append.mp hnl).2.2 _ hcl _ (List.mem_singleton_self _) rfl
      exact mem_insSeg.mpr (.inl (mem_delSeg_of_ne hne.1 (mem_delSeg_of_ne hne.2
        (mem_delSeg_of_ne hnp (h c (List.mem_append_left _ hcl') hfree)))))
    · rcases List.mem_cons.mp hcr with rfl | hcr
      · exact mem_insSeg.mpr (.inr ⟨rfl, rfl⟩)
      · -- after the merged block
        have hcr' := mem_restR hcr
        have hne : c ≠ b := fun he => hbr (he ▸ hcr')
        have hnn : c ≠ nextOf brk r := by
          rintro rfl
          have he := eq_cons_nextOf hfree
          rw [he] at hndr'
          simp only [restR, hfree, Bool.false_eq_true, if_false] at hcr
          exact (List.nodup_cons.mp hndr').1 hcr
        have hnp : c ≠ prevOf hl l := by
          rintro rfl
          exact hdisj _ (prevOf_mem hfree) _ (List.mem_cons_of_mem _ hcr') rfl
        exact mem_insSeg.mpr (.inl (mem_delSeg_of_ne hne (mem_delSeg_of_ne hnn
          (mem_delSeg_of_ne hnp
            (h c (List.mem_append_right _ (List.mem_cons_of_mem _ hcr')) hfree)))))

end Merge

/-! ## Layouts -/

/-- The blocks before `b`. -/
def before (bs : List Block) (b : Block) : List Block := bs.takeWhile (· ≠ b)

/-- The blocks after `b`. -/
def after (bs : List Block) (b : Block) : List Block := (bs.dropWhile (· ≠ b)).tail

theorem before_append_after {bs : List Block} {b : Block} (h : b ∈ bs) :
    before bs b ++ b :: after bs b = bs := by
  induction bs with
  | nil => cases h
  | cons c bs ih =>
    by_cases hcb : c = b
    · subst hcb
      simp [before, after]
    · have hb : b ∈ bs := by
        rcases List.mem_cons.mp h with rfl | hb
        · exact absurd rfl hcb
        · exact hb
      have ih := ih hb
      simp only [before, after, List.takeWhile_cons, List.dropWhile_cons, ne_eq, hcb,
        not_false_eq_true, decide_true, if_true, List.cons_append, List.cons.injEq, true_and]
      exact ih

/-- In a list without repetitions the two sides are determined. -/
theorem before_after_eq {bs l r : List Block} {b : Block} (hnd : bs.Nodup) (h : bs = l ++ b :: r) :
    before bs b = l ∧ after bs b = r := by
  subst h
  have hl : ∀ c ∈ l, decide (c ≠ b) = true := fun c hc => by
    have hne := (List.nodup_append.mp hnd).2.2 c hc b (List.mem_cons_self ..)
    simpa using hne
  rw [before, after, List.takeWhile_append_of_pos hl, List.dropWhile_append_of_pos hl]
  simp

/-- What a heap amounts to: its bounds, its blocks and its free lists. -/
structure Layout where
  /-- `heap_listp` -/
  hl : ℕ
  /-- `mem_brk` -/
  brk : ℕ
  /-- the blocks, in address order -/
  blocks : List Block
  /-- the free lists -/
  segs : ℕ → List Block

/-- The block cut from the front of the interval from `s` to `t` for `asize`
bytes: all of it when what is left is too small for a block. -/
def carved (s t asize : ℕ) : Block :=
  if minBlkSize ≤ t - s - asize then ⟨s, asize, true⟩ else ⟨s, t - s, true⟩

theorem carved_alloc (s t asize : ℕ) : (carved s t asize).alloc = true := by
  rw [carved]
  split <;> rfl

theorem carved_addr (s t asize : ℕ) : (carved s t asize).addr = s := by
  rw [carved]
  split <;> rfl

theorem le_carved_size {s t asize : ℕ} (h : s + asize ≤ t) : asize ≤ (carved s t asize).size := by
  rw [carved]
  split
  · exact le_refl _
  · change asize ≤ t - s
    omega

namespace Layout

/-- Between operations every free block is listed and none are adjacent. -/
structure Ok (L : Layout) : Prop where
  full : Full L.blocks L.segs
  noAdj : NoAdj L.blocks

/-- List the free block `c` that stands between `l` and `r`, and merge it with
its free neighbours. -/
def settle (L : Layout) (l : List Block) (c : Block) (r : List Block)
    (segs : ℕ → List Block) : Layout :=
  { L with
    blocks := mergedBlocks L.hl L.brk l c r
    segs := mergedSegs L.hl L.brk l c r (insSeg segs c) }

/-- Turn the interval from `s` to `t`, which stands between `l` and `r`, into an
allocated block and, if enough is left, a free one. -/
def carve (L : Layout) (l r : List Block) (segs : ℕ → List Block) (s t asize : ℕ) : Layout :=
  if minBlkSize ≤ t - s - asize then
    L.settle (l ++ [carved s t asize]) ⟨s + asize, t - s - asize, false⟩ r segs
  else { L with blocks := l ++ carved s t asize :: r, segs := segs }

/-- Free the block `b`. -/
def free (L : Layout) (b : Block) : Layout :=
  L.settle (before L.blocks b) { b with alloc := false } (after L.blocks b) L.segs

/-- The first listed block of at least `size` bytes, from the list of its class
up. -/
def fit (L : Layout) (size : ℕ) : Option Block :=
  (List.range' (getSegLevel size) (nSeglist - getSegLevel size)).findSome? fun i =>
    (L.segs i).find? fun b => size ≤ b.size

/-- Allocate `asize` bytes at the front of the free block `b`. -/
def place (L : Layout) (b : Block) (asize : ℕ) : Layout :=
  L.carve (before L.blocks b) (after L.blocks b) (delSeg L.segs b) b.addr b.stop asize

/-- The free block at the end of the heap after it has grown by `n` bytes. -/
def grown (L : Layout) (n : ℕ) : Block :=
  mergedBlock L.hl (L.brk + n) L.blocks ⟨L.brk, n, false⟩ []

/-- Grow the heap by `n` bytes. -/
def grow (L : Layout) (n : ℕ) : Layout :=
  settle { L with brk := L.brk + n } L.blocks ⟨L.brk, n, false⟩ [] L.segs

/-- Allocate a block of at least `asize` bytes in a heap that may grow up to
`limit`; also returns the free block that is cut. -/
def malloc (L : Layout) (limit asize : ℕ) : Option (Block × Layout) :=
  match L.fit asize with
  | some b => some (b, L.place b asize)
  | none =>
    let n := max asize chunksize
    if n < 2 ^ 31 ∧ L.brk + n ≤ limit then some (L.grown n, (L.grow n).place (L.grown n) asize)
    else none

section Bounds

variable (L : Layout) (l r : List Block) (segs : ℕ → List Block) (b : Block) (s t asize : ℕ)

@[simp] theorem carve_hl : (L.carve l r segs s t asize).hl = L.hl := by
  rw [carve]
  split <;> rfl

@[simp] theorem carve_brk : (L.carve l r segs s t asize).brk = L.brk := by
  rw [carve]
  split <;> rfl

@[simp] theorem place_hl : (L.place b asize).hl = L.hl := carve_hl ..

@[simp] theorem place_brk : (L.place b asize).brk = L.brk := carve_brk ..

@[simp] theorem grow_hl (n : ℕ) : (L.grow n).hl = L.hl := rfl

@[simp] theorem grow_brk (n : ℕ) : (L.grow n).brk = L.brk + n := rfl

end Bounds

section Settle

variable {L : Layout} {l r : List Block} {b c : Block} {segs : ℕ → List Block} {s t asize : ℕ}

theorem settle_ok (hnd : (l ++ c :: r).Nodup) (hc : c.alloc = false) (hfull : Full (l ++ r) segs)
    (h₁ : NoAdj l) (h₂ : NoAdj r) : (L.settle l c r segs).Ok := by
  refine ⟨full_mergedBlocks hnd (fun d hd hfree => mem_insSeg.mpr ?_) hc, noAdj_mergedBlocks h₁ h₂⟩
  by_cases hdc : d = c
  · exact .inr ⟨hdc, by rw [hdc]⟩
  · refine .inl (hfull d ?_ hfree)
    simp only [List.mem_append, List.mem_cons] at hd ⊢
    tauto

theorem mem_settle (hb : b.alloc = true) :
    b ∈ (L.settle l c r segs).blocks ↔ b ∈ l ∨ b ∈ r := mem_mergedBlocks_alloc hb

theorem carve_ok (hnd : minBlkSize ≤ t - s - asize →
      (l ++ [carved s t asize] ++ ⟨s + asize, t - s - asize, false⟩ :: r).Nodup)
    (hfull : Full (l ++ r) segs) (h₁ : NoAdj l) (h₂ : NoAdj r) :
    (L.carve l r segs s t asize).Ok := by
  have hc := carved_alloc s t asize
  have hmem : ∀ b ∈ l ++ carved s t asize :: r, b.alloc = false → b ∈ l ++ r := by
    intro b hb hfree
    have hne : b ≠ carved s t asize := by
      rintro rfl
      rw [hc] at hfree
      cases hfree
    simp only [List.mem_append, List.mem_cons] at hb ⊢
    tauto
  rw [carve]
  split
  · next hbig =>
    refine settle_ok (hnd hbig) rfl (fun b hb hfree => hfull b (hmem b ?_ hfree) hfree)
      ((NoAdj.append_cons_alloc hc).mpr ⟨h₁, List.isChain_nil⟩) h₂
    simpa using hb
  · exact ⟨fun b hb hfree => hfull b (hmem b hb hfree) hfree,
      (NoAdj.append_cons_alloc hc).mpr ⟨h₁, h₂⟩⟩

theorem mem_carve (hb : b.alloc = true) :
    b ∈ (L.carve l r segs s t asize).blocks ↔ b ∈ l ∨ b = carved s t asize ∨ b ∈ r := by
  rw [carve]
  split
  · rw [mem_settle hb]
    simp [or_assoc]
  · simp

end Settle

end Layout

end SysProgLab
