import SysProgLab.LinkChain
import SysProgLab.Tiling
import SysProgLab.Malloc
import Mathlib.Data.List.Sort
import Mathlib.Data.List.Chain
import Mathlib.Logic.Function.Basic
import Mathlib.Order.Interval.Finset.Nat

/-!
# The representation of the heap

`Rep hl brk m bs segs` says what the words of the memory `m` mean: between the
prologue and the epilogue the blocks `bs` tile the heap, each carrying its tag
in a header and a footer, and each free list `segs i` is a doubly linked chain
through the payloads of free blocks of its size class.

`Rep` is what holds *between any two stores that matter*: it does not say that
every free block is listed, nor that adjacent free blocks are merged. The four
edits the allocator is made of each preserve it:

* `Rep.delete`, `Rep.insert` — a free-list splice;
* `Rep.retag` — a run of blocks, none of them listed, is cut up differently;
* `Rep.extend` — a block is added at the end of the heap.

Each comes with the frame fact `Keeps`: no payload of an allocated block
changes.
-/

namespace SysProgLab

/-! ## Blocks and tags -/

/-- A block of the heap: payload address, size including both tags, and the
allocated bit. -/
structure Block : Type where
  /-- the address `bp` of the payload -/
  addr : ℕ
  /-- the size in the tags -/
  size : ℕ
  /-- the allocated bit -/
  alloc : Bool
  deriving DecidableEq

namespace Block

/-- The word stored in the header and the footer. -/
def tag (b : Block) : ℕ := pack b.size b.alloc.toNat

/-- Block sizes are multiples of 8 and at least 16. -/
structure Valid (b : Block) : Prop where
  dvd : 8 ∣ b.size
  le : 16 ≤ b.size

/-- The free list of the block's size class. -/
def level (b : Block) : ℕ := getSegLevel b.size

/-- The order of the free lists. -/
def SizeLe (b c : Block) : Prop := b.size ≤ c.size

instance : DecidableRel SizeLe := fun b c => inferInstanceAs (Decidable (b.size ≤ c.size))

instance : Std.Total SizeLe := ⟨fun b c => Nat.le_total b.size c.size⟩

instance : IsTrans Block SizeLe := ⟨fun _ _ _ => Nat.le_trans⟩

/-- The end of the block, where the next payload starts. -/
def stop (b : Block) : ℕ := b.addr + b.size

end Block

theorem pack_eq {size a : ℕ} (h : 8 ∣ size) (ha : a < 8) : pack size a = size + a := by
  obtain ⟨k, rfl⟩ := h
  exact (Nat.two_pow_add_eq_or_of_lt (i := 3) ha k).symm

theorem ite_lt {p : Prop} [Decidable p] {a b n : ℕ} (ha : a < n) (hb : b < n) :
    (if p then a else b) < n := by
  split <;> assumption

theorem getSegLevel_lt (size : ℕ) : getSegLevel size < nSeglist := by
  rw [getSegLevel]
  repeat' apply ite_lt
  all_goals decide

theorem Block.tag_eq {b : Block} (h : 8 ∣ b.size) : b.tag = b.size + b.alloc.toNat :=
  pack_eq h (by cases b.alloc <;> decide)

theorem getSize_of_tag {m : Mem} {b : Block} {p : ℕ} (h8 : 8 ∣ b.size) (h : m.get p = b.tag) :
    m.getSize p = b.size := by
  rw [Mem.getSize, h, Block.tag_eq h8]
  cases b.alloc <;> simp <;> omega

theorem getAlloc_of_tag {m : Mem} {b : Block} {p : ℕ} (h8 : 8 ∣ b.size) (h : m.get p = b.tag) :
    m.getAlloc p = b.alloc.toNat := by
  rw [Mem.getAlloc, h, Block.tag_eq h8]
  cases b.alloc <;> simp <;> omega

/-- Both tag words of the block are in place. -/
def Tagged (m : Mem) (b : Block) : Prop :=
  m.get (hdrp b.addr) = b.tag ∧ m.get (b.stop - 8) = b.tag

theorem Tagged.congr {m m' : Mem} {b : Block} (h : Tagged m b)
    (h₁ : m'.get (hdrp b.addr) = m.get (hdrp b.addr))
    (h₂ : m'.get (b.stop - 8) = m.get (b.stop - 8)) : Tagged m' b :=
  ⟨h₁.trans h.1, h₂.trans h.2⟩

/-- With the header in place `FTRP` is the footer. -/
theorem ftrp_eq {m : Mem} {b : Block} (h8 : 8 ∣ b.size) (h : m.get (hdrp b.addr) = b.tag)
    (hge : 8 ≤ b.stop) (hlt : b.stop < 2 ^ 32) : m.ftrp b.addr = b.stop - 8 := by
  rw [Mem.ftrp, getSize_of_tag h8 h]
  simp only [Block.stop, dsize] at *
  omega

theorem nextBlkp_eq {m : Mem} {b : Block} (h8 : 8 ∣ b.size) (h : m.get (hdrp b.addr) = b.tag)
    (hlt : b.stop < 2 ^ 32) : m.nextBlkp b.addr = b.stop := by
  rw [Mem.nextBlkp, show b.addr - wsize = hdrp b.addr from rfl, getSize_of_tag h8 h]
  exact Nat.mod_eq_of_lt hlt

theorem Block.Valid.tag_lt {b : Block} (hv : b.Valid) (hlt : b.stop < 2 ^ 32) :
    b.tag < 2 ^ 32 := by
  rw [Block.tag_eq hv.dvd]
  have := hv.dvd
  have hle : b.alloc.toNat ≤ 1 := by cases b.alloc <;> decide
  simp only [Block.stop] at hlt
  omega

/-- Store both tags of `b`. -/
def putTags (m : Mem) (b : Block) : Mem := (m.put (hdrp b.addr) b.tag).put (b.stop - 8) b.tag

/-- `FTRP` after the header store is the footer, so `setTags` stores both
tags. -/
theorem setTags_eq (m : Mem) {b : Block} (hv : b.Valid) (hlt : b.stop < 2 ^ 32) :
    setTags m b.addr b.size b.alloc.toNat = putTags m b := by
  have htag := hv.tag_lt hlt
  have hget : (m.put (hdrp b.addr) b.tag).get (hdrp b.addr) = b.tag := by
    rw [Mem.get_put_self, Nat.mod_eq_of_lt htag]
  have hle := hv.le
  simp only [setTags, show pack b.size b.alloc.toNat = b.tag from rfl]
  rw [ftrp_eq hv.dvd hget (by simp only [Block.stop]; omega) hlt]
  rfl

theorem tagged_putTags (m : Mem) {b : Block} (hv : b.Valid) (hge : 4 ≤ b.addr)
    (hlt : b.stop < 2 ^ 32) : Tagged (putTags m b) b := by
  have hle := hv.le
  have htag := hv.tag_lt hlt
  constructor
  · rw [putTags, Mem.get_put_disjoint _ (by simp only [Block.stop, hdrp, wsize]; omega),
      Mem.get_put_self, Nat.mod_eq_of_lt htag]
  · rw [putTags, Mem.get_put_self, Nat.mod_eq_of_lt htag]

theorem agreeOff_putTags (m : Mem) {b : Block} (hv : b.Valid) (hge : 4 ≤ b.addr) :
    Mem.AgreeOff (b.addr - 4) (b.stop - 4) m (putTags m b) := by
  have hle := hv.le
  refine (Mem.AgreeOff.put m _ ?_ ?_).trans (Mem.AgreeOff.put _ _ ?_ ?_) <;>
    simp only [Block.stop, hdrp, wsize] <;> omega

/-- The two tag stores may be made in either order. -/
theorem putTags_comm (m : Mem) {b : Block} (hv : b.Valid) (hge : 4 ≤ b.addr) :
    (m.put (b.stop - 8) b.tag).put (hdrp b.addr) b.tag = putTags m b := by
  have hle := hv.le
  exact Mem.put_comm m (by simp only [Block.stop, hdrp, wsize]; omega)

/-! ## The representation -/

/-- The root word of free list `i`. -/
def rootAddr (hl i : ℕ) : ℕ := hl + dsize + i * dsize

/-- The prologue, as a block before the first one. -/
def prologue (hl : ℕ) : Block := ⟨hl + 104, 8, true⟩

/-- The epilogue header, as a block of size 0 after the last one. -/
def epilogue (brk : ℕ) : Block := ⟨brk, 0, true⟩

/-- No payload byte of an allocated block changes. -/
def Keeps (bs : List Block) (m m' : Mem) : Prop :=
  ∀ c ∈ bs, c.alloc = true → ∀ a, c.addr ≤ a → a < c.stop - 8 → m' a = m a

namespace Keeps

variable {bs bs' : List Block} {m m' m'' : Mem}

theorem refl (bs : List Block) (m : Mem) : Keeps bs m m := fun _ _ _ _ _ _ => rfl

/-- A copy out of a payload that was kept is a copy of what was there before. -/
theorem copy {b : Block} {n : ℕ} (k : Keeps bs m m') (hb : b ∈ bs) (ha : b.alloc = true)
    (hn : n + 8 ≤ b.size) (dst : ℕ) {i : ℕ} (hi : i < n) :
    m'.memmove dst b.addr n (dst + i) = m (b.addr + i) := by
  rw [Mem.memmove_apply _ hi]
  refine k b hb ha _ (by omega) ?_
  simp only [Block.stop]
  omega

theorem trans (h : Keeps bs m m') (h' : Keeps bs m' m'') : Keeps bs m m'' :=
  fun c hc ha a h₁ h₂ => (h' c hc ha a h₁ h₂).trans (h c hc ha a h₁ h₂)

theorem mono (h : Keeps bs m m') (hs : ∀ c ∈ bs', c.alloc = true → c ∈ bs) : Keeps bs' m m' :=
  fun c hc ha => h c (hs c hc ha) ha

end Keeps

/-- The words of `m` represent the blocks `bs` and the free lists `segs`. -/
structure Rep (hl brk : ℕ) (m : Mem) (bs : List Block) (segs : ℕ → List Block) : Prop where
  /-- the heap base is aligned -/
  base_dvd : 8 ∣ hl
  /-- the heap lies in the 32-bit address space -/
  brk_lt : brk < 2 ^ 32
  /-- the blocks follow one another from `blk_start` to `mem_brk` -/
  tiles : Tiles Block.addr Block.size (hl + 112) bs brk
  /-- sizes are multiples of 8 and at least 16 -/
  valid : ∀ b ∈ bs, b.Valid
  /-- headers and footers are in place -/
  tags : ∀ b ∈ bs, Tagged m b
  /-- the prologue words are in place -/
  pro : Tagged m (prologue hl)
  /-- the epilogue header is in place -/
  epi : m.get (hdrp brk) = (epilogue brk).tag
  /-- each free list is a chain off its root -/
  chain : ∀ i < nSeglist, Chain m (rootAddr hl i) ((segs i).map Block.addr)
  /-- a listed block is a free block of the list's size class -/
  listed : ∀ i, ∀ b ∈ segs i, b ∈ bs ∧ b.alloc = false ∧ b.level = i
  /-- no block is listed twice -/
  nodup : ∀ i, (segs i).Nodup
  /-- lists are ascending in size -/
  sorted : ∀ i, (segs i).Pairwise Block.SizeLe

namespace Rep

variable {hl brk : ℕ} {m m' : Mem} {bs l r : List Block} {segs : ℕ → List Block} {b c : Block}

theorem bounds (h : Rep hl brk m bs segs) (hb : b ∈ bs) :
    hl + 112 ≤ b.addr ∧ b.stop ≤ brk ∧ 16 ≤ b.size :=
  ⟨(h.tiles.mem_bounds b hb).1, (h.tiles.mem_bounds b hb).2, (h.valid b hb).le⟩

theorem dvd_addr (h : Rep hl brk m bs segs) (hb : b ∈ bs) : 8 ∣ b.addr :=
  h.tiles.dvd (Nat.dvd_add h.base_dvd (by decide)) (fun c hc => (h.valid c hc).dvd) b hb

theorem disjoint (h : Rep hl brk m bs segs) (hb : b ∈ bs) (hc : c ∈ bs) (hne : b ≠ c) :
    b.stop ≤ c.addr ∨ c.stop ≤ b.addr :=
  h.tiles.disjoint hb hc hne

theorem pos (h : Rep hl brk m bs segs) : ∀ b ∈ bs, 0 < b.size := fun b hb => by
  have := (h.valid b hb).le
  omega

theorem eq_of_addr_eq (h : Rep hl brk m bs segs) (hb : b ∈ bs) (hc : c ∈ bs)
    (he : b.addr = c.addr) : b = c :=
  h.tiles.eq_of_lo_eq h.pos hb hc he

theorem blocks_nodup (h : Rep hl brk m bs segs) : bs.Nodup := h.tiles.nodup h.pos

theorem header (h : Rep hl brk m bs segs) (hb : b ∈ bs) : m.get (hdrp b.addr) = b.tag :=
  (h.tags b hb).1

theorem getSize_hdrp (h : Rep hl brk m bs segs) (hb : b ∈ bs) :
    m.getSize (hdrp b.addr) = b.size :=
  getSize_of_tag (h.valid b hb).dvd (h.header hb)

theorem getAlloc_hdrp (h : Rep hl brk m bs segs) (hb : b ∈ bs) :
    m.getAlloc (hdrp b.addr) = b.alloc.toNat :=
  getAlloc_of_tag (h.valid b hb).dvd (h.header hb)

/-- The nodes of a free list and its root have disjoint footprints. -/
theorem apart (h : Rep hl brk m bs segs) {i : ℕ} (hi : i < nSeglist) {ns : List Block}
    (hns : ∀ c ∈ ns, c ∈ bs) (hnd : ns.Nodup) :
    Apart (rootAddr hl i :: ns.map Block.addr) := by
  refine List.pairwise_cons.mpr ⟨?_, ?_⟩
  · intro x hx
    obtain ⟨c, hc, rfl⟩ := List.mem_map.mp hx
    have := h.bounds (hns c hc)
    simp only [rootAddr, dsize, nSeglist] at *
    omega
  · refine List.pairwise_map.mpr (hnd.imp_of_mem fun {c d} hc hd hne => ?_)
    have h₁ := h.bounds (hns c hc)
    have h₂ := h.bounds (hns d hd)
    have h₃ := h.disjoint (hns c hc) (hns d hd) hne
    simp only [Block.stop] at *
    omega

theorem root_lt (h : Rep hl brk m bs segs) {i : ℕ} (hi : i < nSeglist) :
    rootAddr hl i < 2 ^ 32 := by
  have h₁ := h.tiles.le
  have h₂ := h.brk_lt
  simp only [rootAddr, dsize, nSeglist] at *
  omega

/-- The address `a` is off the root of list `i` and off the link words of the
free blocks of its class. -/
def OffClass (hl : ℕ) (bs : List Block) (i a : ℕ) : Prop :=
  (a < rootAddr hl i ∨ rootAddr hl i + 8 ≤ a) ∧
    ∀ c ∈ bs, c.alloc = false → c.level = i → a < c.addr ∨ c.addr + 8 ≤ a

/-- Addresses below the blocks are off every class but for the root. -/
theorem offClass_low (h : Rep hl brk m bs segs) {i a : ℕ} (ha : a < hl + 112)
    (hroot : a < rootAddr hl i ∨ rootAddr hl i + 8 ≤ a) : OffClass hl bs i a := by
  refine ⟨hroot, fun d hd _ _ => ?_⟩
  have := h.bounds hd
  omega

/-- Addresses at or above `mem_brk - 8` are off every class. -/
theorem offClass_high (h : Rep hl brk m bs segs) {i a : ℕ} (hi : i < nSeglist)
    (ha : brk ≤ a + 8) (ha' : hl + 104 ≤ a) : OffClass hl bs i a := by
  refine ⟨.inr ?_, fun d hd _ _ => ?_⟩
  · simp only [rootAddr, dsize, nSeglist] at *
    omega
  · have hb := h.bounds hd
    simp only [Block.stop] at hb
    omega

/-- Inside a block, only its own link words may belong to a class. -/
theorem offClass_block (h : Rep hl brk m bs segs) {i a : ℕ} (hi : i < nSeglist) (hc : c ∈ bs)
    (h₁ : c.addr ≤ a + 4) (h₂ : a < c.stop)
    (hown : c.alloc = false → c.level = i → a < c.addr ∨ c.addr + 8 ≤ a) :
    OffClass hl bs i a := by
  have hbc := h.bounds hc
  refine ⟨.inr ?_, fun d hd hda hdl => ?_⟩
  · simp only [rootAddr, dsize, nSeglist] at *
    omega
  · by_cases hcd : c = d
    · subst hcd
      exact hown hda hdl
    · have hbd := h.bounds hd
      have := h.disjoint hc hd hcd
      simp only [Block.stop] at *
      omega

/-- **A splice of one free list.** If the memory changes in the footprints of
one root and of the free blocks of its class only, everything but the chain of
that class is as it was. -/
theorem relink (h : Rep hl brk m bs segs) {i : ℕ} (hi : i < nSeglist) {ns : List Block}
    (hoff : ∀ a, OffClass hl bs i a → m' a = m a)
    (hchain : Chain m' (rootAddr hl i) (ns.map Block.addr))
    (hns : ∀ c ∈ ns, c ∈ bs ∧ c.alloc = false ∧ c.level = i) (hnd : ns.Nodup)
    (hsort : ns.Pairwise Block.SizeLe) :
    Rep hl brk m' bs (Function.update segs i ns) ∧ Keeps bs m m' := by
  have hword : ∀ p, (∀ a, p ≤ a → a < p + 4 → OffClass hl bs i a) → m'.get p = m.get p :=
    fun p hp => Mem.get_congr fun a h₁ h₂ => hoff a (hp a h₁ h₂)
  have htag : ∀ c ∈ bs, Tagged m' c := by
    intro c hc
    have hbc := h.bounds hc
    refine (h.tags c hc).congr (hword _ fun a h₁ h₂ => ?_) (hword _ fun a h₁ h₂ => ?_) <;>
      refine h.offClass_block hi hc ?_ ?_ fun _ _ => ?_ <;>
      simp only [Block.stop, hdrp, wsize] at * <;> omega
  have hpro : ∀ p, hl + 100 ≤ p → p + 4 ≤ hl + 112 → m'.get p = m.get p := by
    refine fun p h₀ h₀' => hword p fun a h₁ h₂ => h.offClass_low (by omega) (.inr ?_)
    simp only [rootAddr, dsize, nSeglist] at *
    omega
  have hother : ∀ j < nSeglist, j ≠ i → Chain m' (rootAddr hl j) ((segs j).map Block.addr) := by
    intro j hj hji
    have hnode : ∀ x ∈ (segs j).map Block.addr, ∀ a, x ≤ a → a < x + 8 → OffClass hl bs i a := by
      intro x hx a h₁ h₂
      obtain ⟨c, hc, rfl⟩ := List.mem_map.mp hx
      obtain ⟨hcb, -, hcl⟩ := h.listed j c hc
      have hbc := h.bounds hcb
      refine h.offClass_block hi hcb (by omega) (by simp only [Block.stop]; omega) fun _ hl' => ?_
      exact absurd (hcl.symm.trans hl') hji
    refine (h.chain j hj).congr (fun x hx => ?_) (fun x hx => ?_)
    · rcases List.mem_cons.mp hx with rfl | hx
      · refine hword _ fun a h₁ h₂ => h.offClass_low ?_ ?_ <;>
          simp only [rootAddr, dsize, nSeglist] at * <;> omega
      · exact hword _ fun a h₁ h₂ => hnode x hx a (by omega) (by omega)
    · exact hword _ fun a h₁ h₂ => hnode x hx a (by omega) (by omega)
  refine ⟨⟨h.base_dvd, h.brk_lt, h.tiles, h.valid, htag, ?_, ?_, ?_, ?_, ?_, ?_⟩, ?_⟩
  · refine h.pro.congr (hpro _ ?_ ?_) (hpro _ ?_ ?_) <;>
      simp only [prologue, hdrp, wsize, Block.stop] <;> omega
  · have hle := h.tiles.le
    rw [← h.epi]
    refine hword _ fun a h₁ h₂ => h.offClass_high hi ?_ ?_ <;>
      simp only [hdrp, wsize] at * <;> omega
  · intro j hj
    by_cases hji : j = i
    · subst hji
      rw [Function.update_self]
      exact hchain
    · rw [Function.update_of_ne hji]
      exact hother j hj hji
  · intro j c hc
    by_cases hji : j = i
    · subst hji
      rw [Function.update_self] at hc
      exact hns c hc
    · rw [Function.update_of_ne hji] at hc
      exact h.listed j c hc
  · intro j
    by_cases hji : j = i
    · subst hji
      rw [Function.update_self]
      exact hnd
    · rw [Function.update_of_ne hji]
      exact h.nodup j
  · intro j
    by_cases hji : j = i
    · subst hji
      rw [Function.update_self]
      exact hsort
    · rw [Function.update_of_ne hji]
      exact h.sorted j
  · intro c hc hca a h₁ h₂
    refine hoff a (h.offClass_block hi hc (by omega) (by omega) fun hf => ?_)
    rw [hca] at hf
    cases hf

end Rep

/-! ## Free-list splices -/

/-- The free lists without `b`. -/
def delSeg (segs : ℕ → List Block) (b : Block) : ℕ → List Block :=
  Function.update segs b.level ((segs b.level).erase b)

/-- The free lists with `b` before the first block of its class that is not
smaller. -/
def insSeg (segs : ℕ → List Block) (b : Block) : ℕ → List Block :=
  Function.update segs b.level ((segs b.level).orderedInsert Block.SizeLe b)

theorem mem_insSeg {segs : ℕ → List Block} {b c : Block} {i : ℕ} :
    c ∈ insSeg segs b i ↔ c ∈ segs i ∨ (c = b ∧ i = b.level) := by
  by_cases hi : i = b.level
  · subst hi
    rw [insSeg, Function.update_self, List.mem_orderedInsert]
    tauto
  · rw [insSeg, Function.update_of_ne hi]
    tauto

theorem mem_of_mem_delSeg {segs : ℕ → List Block} {b c : Block} {i : ℕ}
    (h : c ∈ delSeg segs b i) : c ∈ segs i := by
  by_cases hi : i = b.level
  · subst hi
    rw [delSeg, Function.update_self] at h
    exact List.mem_of_mem_erase h
  · rwa [delSeg, Function.update_of_ne hi] at h

theorem mem_delSeg_of_ne {segs : ℕ → List Block} {b c : Block} {i : ℕ} (hne : c ≠ b)
    (h : c ∈ segs i) : c ∈ delSeg segs b i := by
  by_cases hi : i = b.level
  · subst hi
    rw [delSeg, Function.update_self]
    exact (List.mem_erase_of_ne hne).mpr h
  · rwa [delSeg, Function.update_of_ne hi]

/-- Deleting an unlisted block changes nothing. -/
theorem delSeg_of_not_mem {segs : ℕ → List Block} {b : Block} (h : b ∉ segs b.level) :
    delSeg segs b = segs := by
  rw [delSeg, List.erase_of_not_mem h, Function.update_eq_self]

/-- The walk of `insert_free_block` stops between the smaller nodes and the
others. -/
theorem insertWalk_eq {m : Mem} {size : ℕ} : ∀ {l : List Block} {prev n : ℕ},
    Chain m prev (l.map Block.addr) →
    (∀ c ∈ l, c.addr ≠ 0 ∧ m.getSize (hdrp c.addr) = c.size) → l.length < n →
    insertWalk m size n prev (m.get prev) =
      some (((l.takeWhile fun c => c.size < size).map Block.addr).getLastD prev,
        ((l.dropWhile fun c => c.size < size).map Block.addr).headD 0) := by
  intro l
  induction l with
  | nil =>
    intro prev n hc _ hn
    obtain ⟨k, rfl⟩ : ∃ k, n = k + 1 := ⟨n - 1, by simp at hn; omega⟩
    have h0 : m.get prev = 0 := hc
    simp [insertWalk, h0]
  | cons c l ih =>
    intro prev n hc hl hn
    obtain ⟨k, rfl⟩ : ∃ k, n = k + 1 := ⟨n - 1, by simp at hn; omega⟩
    obtain ⟨h₁, -, h₃⟩ := hc
    obtain ⟨hne, hsize⟩ := hl c (List.mem_cons_self ..)
    rw [insertWalk, h₁, hsize]
    by_cases hlt : c.size < size
    · rw [if_pos ⟨hne, hlt⟩, Mem.nextFreeBlkp,
        ih h₃ (fun d hd => hl d (List.mem_cons_of_mem _ hd)) (by simp at hn; omega)]
      simp only [List.takeWhile_cons, List.dropWhile_cons, hlt, decide_true, if_true,
        List.map_cons, List.getLastD_cons]
    · rw [if_neg fun hh => hlt hh.2]
      simp [hlt]

/-- `insert_free_block` links the block in after the smaller nodes. -/
theorem insertFreeBlock_eq {hl : ℕ} {m : Mem} {b : Block} {l : List Block}
    (hb : m.getSize (hdrp b.addr) = b.size) (hc : Chain m (rootAddr hl b.level) (l.map Block.addr))
    (hl' : ∀ c ∈ l, c.addr ≠ 0 ∧ m.getSize (hdrp c.addr) = c.size) (hn : l.length < walkFuel) :
    insertFreeBlock hl m b.addr =
      some (link m b.addr
        (((l.takeWhile fun c => c.size < b.size).map Block.addr).getLastD (rootAddr hl b.level))
        (((l.dropWhile fun c => c.size < b.size).map Block.addr).headD 0)) := by
  have hroot : getFreeblkRoot hl b.size = rootAddr hl b.level := rfl
  simp only [insertFreeBlock, hb, hroot]
  by_cases h0 : m.get (rootAddr hl b.level) = 0
  · have hnil : l = [] := by
      cases l with
      | nil => rfl
      | cons c l => exact absurd (hc.1.symm.trans h0) (hl' c (List.mem_cons_self ..)).1
    subst hnil
    simp [h0, link]
  · rw [if_neg h0, insertWalk_eq hc hl' hn]
    rfl

namespace Rep

variable {hl brk : ℕ} {m m' : Mem} {bs l r : List Block} {segs : ℕ → List Block} {b c : Block}

theorem offClass_node (h : Rep hl brk m bs segs) {i a : ℕ} (ha : OffClass hl bs i a)
    {x : ℕ} (hx : x ∈ rootAddr hl i :: (segs i).map Block.addr) : a < x ∨ x + 8 ≤ a := by
  rcases List.mem_cons.mp hx with rfl | hx
  · exact ha.1
  · obtain ⟨c, hc, rfl⟩ := List.mem_map.mp hx
    obtain ⟨h₁, h₂, h₃⟩ := h.listed i c hc
    exact ha.2 c h₁ h₂ h₃

theorem node_lt (h : Rep hl brk m bs segs) {i x : ℕ} (hi : i < nSeglist)
    (hx : x ∈ rootAddr hl i :: (segs i).map Block.addr) : x < 2 ^ 32 := by
  rcases List.mem_cons.mp hx with rfl | hx
  · exact h.root_lt hi
  · obtain ⟨c, hc, rfl⟩ := List.mem_map.mp hx
    have h₁ := h.bounds (h.listed i c hc).1
    have h₂ := h.brk_lt
    simp only [Block.stop] at h₁
    omega

/-- **`delete_free_block`** unlinks a listed block. -/
theorem delete (h : Rep hl brk m bs segs) (hb : b ∈ segs b.level) :
    Rep hl brk (deleteFreeBlock m b.addr) bs (delSeg segs b) ∧
      Keeps bs m (deleteFreeBlock m b.addr) := by
  have hi : b.level < nSeglist := getSegLevel_lt _
  obtain ⟨xs, ys, hsplit⟩ := List.append_of_mem hb
  have hnd := h.nodup b.level
  have herase : (segs b.level).erase b = xs ++ ys := by
    rw [hsplit] at hnd ⊢
    have hnot : b ∉ xs := fun hx => by
      have := (List.nodup_append.mp hnd).2.2 b hx b (List.mem_cons_self ..)
      exact this rfl
    rw [List.erase_append_right _ hnot, List.erase_cons_head]
  have hsub : (xs ++ ys).Sublist (segs b.level) := by
    rw [hsplit]
    exact (List.sublist_cons_self b ys).append_left xs
  have hmem : ∀ c ∈ segs b.level, c ∈ bs := fun c hc => (h.listed _ c hc).1
  have hchain := h.chain _ hi
  have hap := h.apart hi hmem hnd
  have hlt : ∀ x ∈ rootAddr hl b.level :: (segs b.level).map Block.addr, x < 2 ^ 32 :=
    fun x hx => h.node_lt hi hx
  have hoff : ∀ a, OffClass hl bs b.level a →
      ∀ x ∈ rootAddr hl b.level :: (segs b.level).map Block.addr, a < x ∨ x + 8 ≤ a :=
    fun a ha x hx => h.offClass_node ha hx
  rw [hsplit, List.map_append, List.map_cons] at hchain hap hlt hoff
  rw [delSeg, herase]
  refine h.relink hi (fun a ha => ?_) ?_ (fun c hc => h.listed _ c (hsub.mem hc))
    (hnd.sublist hsub) ((h.sorted _).sublist hsub)
  · refine hchain.unlink_off fun x hx => hoff a ha x ?_
    simp only [List.mem_cons, List.mem_append] at hx ⊢
    tauto
  · rw [List.map_append]
    refine Chain.unlink (fun y hy => ?_) hchain hap hlt
    obtain ⟨c, hc, rfl⟩ := List.mem_map.mp hy
    have := h.bounds (hmem c (by rw [hsplit]; simp [hc]))
    omega

theorem ne_of_mem_delSeg (h : Rep hl brk m bs segs) {i : ℕ} (hc : c ∈ delSeg segs b i) :
    c ≠ b := by
  rintro rfl
  have hci := mem_of_mem_delSeg hc
  obtain rfl := (h.listed i c hci).2.2
  rw [delSeg, Function.update_self] at hc
  exact ((h.nodup _).mem_erase_iff.mp hc).1 rfl

/-- A free list is shorter than the fuel of a walk: its nodes are distinct
nonzero 32-bit addresses. -/
theorem length_lt (h : Rep hl brk m bs segs) (i : ℕ) : (segs i).length < walkFuel := by
  have hnd : ((segs i).map Block.addr).Nodup := by
    refine List.Nodup.map_on (fun c hc d hd he => ?_) (h.nodup i)
    exact h.eq_of_addr_eq (h.listed i c hc).1 (h.listed i d hd).1 he
  have hsub : ((segs i).map Block.addr).toFinset ⊆ Finset.Ioo 0 (2 ^ 32) := by
    intro x hx
    obtain ⟨c, hc, rfl⟩ := List.mem_map.mp (List.mem_toFinset.mp hx)
    have h₁ := h.bounds (h.listed i c hc).1
    have h₂ := h.brk_lt
    simp only [Block.stop] at h₁
    exact Finset.mem_Ioo.mpr (by omega)
  have hcard := Finset.card_le_card hsub
  rw [List.toFinset_card_of_nodup hnd, List.length_map, Nat.card_Ioo] at hcard
  simp only [walkFuel]
  omega

theorem node_size (h : Rep hl brk m bs segs) {i : ℕ} :
    ∀ c ∈ segs i, c.addr ≠ 0 ∧ m.getSize (hdrp c.addr) = c.size := by
  intro c hc
  have hcb := (h.listed i c hc).1
  have := h.bounds hcb
  exact ⟨by omega, h.getSize_hdrp hcb⟩

/-- **`insert_free_block`** links an unlisted free block in. -/
theorem insert (h : Rep hl brk m bs segs) (hb : b ∈ bs) (hfree : b.alloc = false)
    (hnew : b ∉ segs b.level) :
    ∃ m', insertFreeBlock hl m b.addr = some m' ∧ Rep hl brk m' bs (insSeg segs b) ∧
      Keeps bs m m' := by
  have hi : b.level < nSeglist := getSegLevel_lt _
  have hins := List.orderedInsert_eq_take_drop Block.SizeLe b (segs b.level)
  have hpred : (fun c => decide ¬Block.SizeLe b c) = fun c : Block => decide (c.size < b.size) := by
    funext c
    simp [Block.SizeLe]
  rw [hpred] at hins
  have hsplit := List.takeWhile_append_dropWhile (p := fun c : Block => decide (c.size < b.size))
    (l := segs b.level)
  refine ⟨_, insertFreeBlock_eq (h.getSize_hdrp hb) (h.chain _ hi) h.node_size (h.length_lt _), ?_⟩
  generalize (segs b.level).takeWhile (fun c : Block => decide (c.size < b.size)) = xs at *
  generalize (segs b.level).dropWhile (fun c : Block => decide (c.size < b.size)) = ys at *
  have hmem : ∀ c ∈ b :: segs b.level, c ∈ bs := fun c hc => by
    rcases List.mem_cons.mp hc with rfl | hc
    · exact hb
    · exact (h.listed _ c hc).1
  have hnd : (b :: segs b.level).Nodup := List.nodup_cons.mpr ⟨hnew, h.nodup _⟩
  have hchain := h.chain _ hi
  have hlt : ∀ x ∈ rootAddr hl b.level :: (segs b.level).map Block.addr, x < 2 ^ 32 :=
    fun x hx => h.node_lt hi hx
  have hap := h.apart hi hmem hnd
  have hoff : ∀ a, OffClass hl bs b.level a →
      ∀ x ∈ rootAddr hl b.level :: (segs b.level).map Block.addr, a < x ∨ x + 8 ≤ a :=
    fun a ha x hx => h.offClass_node ha hx
  rw [← hsplit, List.map_append] at hchain hlt hoff
  rw [← hsplit, List.map_cons, List.map_append] at hap
  have hbb := h.bounds hb
  have hbrk := h.brk_lt
  rw [insSeg]
  refine h.relink hi (fun a ha => ?_) ?_ (fun c hc => ?_) ?_ ?_
  · refine link_off fun x hx => ?_
    rcases List.mem_cons.mp hx with rfl | hx
    · exact ha.2 b hb hfree rfl
    · exact hoff a ha x hx
  · rw [hins, List.map_append, List.map_cons]
    refine Chain.link (fun y hy => ?_) hchain ?_ ?_
    · obtain ⟨c, hc, rfl⟩ := List.mem_map.mp hy
      have := h.bounds (hmem c (by rw [← hsplit]; simp [hc]))
      omega
    · exact hap.swap
    · intro x hx
      rcases List.mem_cons.mp hx with rfl | hx
      · simp only [Block.stop] at hbb
        omega
      · exact hlt x hx
  · rcases (List.mem_orderedInsert _).mp hc with rfl | hc
    · exact ⟨hb, hfree, rfl⟩
    · exact h.listed _ c hc
  · exact (List.perm_orderedInsert _ b _).nodup_iff.mpr hnd
  · exact (h.sorted _).orderedInsert b _

/-! ## Retagging -/

theorem pro_off (h : Rep hl brk m bs segs) {lo hi : ℕ} (hag : Mem.AgreeOff lo hi m m')
    (hlo : hl + 108 ≤ lo) : Tagged m' (prologue hl) := by
  refine h.pro.congr (hag.get_eq (.inl ?_)) (hag.get_eq (.inl ?_)) <;>
    simp only [prologue, hdrp, wsize, Block.stop] <;> omega

/-- A change above the prologue and off the listed blocks leaves the lists alone. -/
theorem chain_off (h : Rep hl brk m bs segs) {i lo hi : ℕ} (hlt : i < nSeglist)
    (hag : Mem.AgreeOff lo hi m m') (hlo : hl + 108 ≤ lo)
    (hnode : ∀ c ∈ segs i, c.addr + 8 ≤ lo ∨ hi ≤ c.addr) :
    Chain m' (rootAddr hl i) ((segs i).map Block.addr) := by
  have hlink : ∀ x ∈ (segs i).map Block.addr, x + 8 ≤ lo ∨ hi ≤ x := by
    intro x hx
    obtain ⟨c, hc, rfl⟩ := List.mem_map.mp hx
    exact hnode c hc
  refine (h.chain i hlt).congr (fun x hx => ?_) (fun x hx => ?_)
  · rcases List.mem_cons.mp hx with rfl | hx
    · refine hag.get_eq (.inl ?_)
      simp only [rootAddr, dsize, nSeglist] at *
      omega
    · have := hlink x hx
      exact hag.get_eq (by omega)
  · have := hlink x hx
    exact hag.get_eq (by omega)

/-- **Cutting up a run of blocks differently.** The run `mid`, none of whose
blocks is listed, is replaced by `mid'`, which tiles the same interval; the
memory changes between the first header and the last footer only. -/
theorem retag {mid mid' : List Block} {s t : ℕ} (h : Rep hl brk m (l ++ (mid ++ r)) segs)
    (hl₁ : Tiles Block.addr Block.size (hl + 112) l s)
    (hmid : Tiles Block.addr Block.size s mid' t) (hr : Tiles Block.addr Block.size t r brk)
    (hsegs : ∀ i, ∀ c ∈ segs i, c ∈ l ++ r) (hv : ∀ c ∈ mid', c.Valid)
    (hag : Mem.AgreeOff (s - 4) (t - 4) m m') (htag : ∀ c ∈ mid', Tagged m' c) :
    Rep hl brk m' (l ++ (mid' ++ r)) segs ∧ Keeps (l ++ r) m m' := by
  have hmemL : ∀ c ∈ l, c ∈ l ++ (mid ++ r) := fun c hc => List.mem_append_left _ hc
  have hmemR : ∀ c ∈ r, c ∈ l ++ (mid ++ r) :=
    fun c hc => List.mem_append_right _ (List.mem_append_right _ hc)
  have hst := hmid.le
  have hsl := hl₁.le
  have hte := hr.le
  -- blocks outside the run lie wholly before or wholly after it
  have hside : ∀ c ∈ l ++ r, c ∈ l ++ (mid ++ r) ∧ (c.stop ≤ s ∨ t ≤ c.addr) := by
    intro c hc
    rcases List.mem_append.mp hc with hc | hc
    · exact ⟨hmemL c hc, .inl (hl₁.mem_bounds c hc).2⟩
    · exact ⟨hmemR c hc, .inr (hr.mem_bounds c hc).1⟩
  have hmem' : ∀ c ∈ l ++ (mid' ++ r), c ∈ l ++ r ∨ c ∈ mid' := by
    intro c hc
    simp only [List.mem_append] at hc ⊢
    tauto
  refine ⟨⟨h.base_dvd, h.brk_lt, Tiles.replace hl₁ hmid hr, ?_, ?_, ?_, ?_, ?_, ?_, h.nodup,
    h.sorted⟩, ?_⟩
  · intro c hc
    rcases hmem' c hc with hc | hc
    · exact h.valid c (hside c hc).1
    · exact hv c hc
  · intro c hc
    rcases hmem' c hc with hc | hc
    · obtain ⟨hcb, hcs⟩ := hside c hc
      have hb := h.bounds hcb
      refine (h.tags c hcb).congr (hag.get_eq ?_) (hag.get_eq ?_) <;>
        simp only [Block.stop, hdrp, wsize] at * <;> omega
    · exact htag c hc
  · exact h.pro_off hag (by omega)
  · rw [← h.epi]
    exact hag.get_eq (by simp only [hdrp, wsize]; omega)
  · intro i hi
    refine h.chain_off hi hag (by omega) fun c hc => ?_
    obtain ⟨hcb, hcs⟩ := hside c (hsegs i c hc)
    have hb := h.bounds hcb
    simp only [Block.stop] at *
    omega
  · intro i c hc
    have hcs := h.listed i c hc
    refine ⟨?_, hcs.2⟩
    have := hsegs i c hc
    simp only [List.mem_append] at this ⊢
    tauto
  · intro c hc _ a h₁ h₂
    obtain ⟨hcb, hcs⟩ := hside c hc
    have hb := h.bounds hcb
    refine hag a ?_
    simp only [Block.stop] at *
    omega

/-! ## Extension -/

/-- **A new block at the end of the heap.** -/
theorem extend {brk' : ℕ} (h : Rep hl brk m bs segs) (hb : b.addr = brk) (hv : b.Valid)
    (hstop : b.stop = brk') (hlt : brk' < 2 ^ 32) (hag : Mem.AgreeOff (brk - 4) brk' m m')
    (htag : Tagged m' b) (hepi : m'.get (hdrp brk') = (epilogue brk').tag) :
    Rep hl brk' m' (bs ++ [b]) segs ∧ Keeps bs m m' := by
  have hle := h.tiles.le
  have hb16 := hv.le
  refine ⟨⟨h.base_dvd, hlt, ?_, ?_, ?_, ?_, hepi, ?_, ?_, h.nodup, h.sorted⟩, ?_⟩
  · exact Tiles.append.mpr ⟨brk, h.tiles, Tiles.singleton.mpr ⟨hb, by
      simp only [Block.stop] at hstop
      omega⟩⟩
  · intro c hc
    rcases List.mem_append.mp hc with hc | hc
    · exact h.valid c hc
    · rw [List.mem_singleton.mp hc]
      exact hv
  · intro c hc
    rcases List.mem_append.mp hc with hc | hc
    · have := h.bounds hc
      refine (h.tags c hc).congr (hag.get_eq (.inl ?_)) (hag.get_eq (.inl ?_)) <;>
        simp only [Block.stop, hdrp, wsize] at * <;> omega
    · rw [List.mem_singleton.mp hc]
      exact htag
  · exact h.pro_off hag (by omega)
  · intro i hi
    refine h.chain_off hi hag (by omega) fun c hc => .inl ?_
    have := h.bounds (h.listed i c hc).1
    simp only [Block.stop] at this
    omega
  · intro i c hc
    have := h.listed i c hc
    exact ⟨List.mem_append_left _ this.1, this.2⟩
  · intro c hc _ a h₁ h₂
    have := h.bounds hc
    exact hag a (by simp only [Block.stop] at *; omega)

end Rep

end SysProgLab
