import SysProgLab.HeapInvariant
import SysProgLab.Trail

/-!
# The heap checker: `mm_check`

`mm_check` walks along the blocks and searches each free one in the list of its size
class, looks whether the block behind it is free too, and then walks along the lists and
looks at the header of whatever they link. Each list walk starts at the root, so it also
reads the word before the root as if it were a header.
-/

namespace SysProgLab

/-- The search of `mm_check` for the block `p` in the list at `q`. -/
def isInSeglist (m : Mem) (p : ℕ) : ℕ → ℕ → Option Bool
  | 0, _ => none
  | n + 1, q =>
    if q = 0 then some false
    else if q = p then some true
    else isInSeglist m p n (m.nextFreeBlkp q)

/-- The loop of `mm_check` over the blocks; the flag is `isErrorExists`. -/
def checkBlocks (heapListp : ℕ) (m : Mem) : ℕ → ℕ → Bool → Option Bool
  | 0, _, _ => none
  | n + 1, p, isErrorExists =>
    if m.get (hdrp p) = pack 0 1 then some isErrorExists
    else do
      let isErrorExists ←
        if m.getAlloc (hdrp p) = 0 then do
          let found ← isInSeglist m p walkFuel (getFreeblkRoot heapListp (m.getSize (hdrp p)))
          let isErrorExists := if found then isErrorExists else true
          some (if m.nextBlkp p ≠ 0 ∧ m.getAlloc (hdrp (m.nextBlkp p)) = 0 then true
            else isErrorExists)
        else some isErrorExists
      let isErrorExists := if p = 0 then true else isErrorExists
      checkBlocks heapListp m n (m.nextBlkp p) isErrorExists

/-- The loop of `mm_check` over the list at `p`. -/
def checkSeglist (m : Mem) : ℕ → ℕ → Bool → Option Bool
  | 0, _, _ => none
  | n + 1, p, isErrorExists =>
    if p = 0 then some isErrorExists
    else checkSeglist m n (m.get p) (if m.getAlloc (hdrp p) ≠ 0 then true else isErrorExists)

/-- `mm_check`; what it prints is left out. -/
def mmCheck (h : Heap) : Option ℤ := do
  let isErrorExists ← checkBlocks h.heapListp h.mem walkFuel h.blkStart false
  let isErrorExists ← (List.range nSeglist).foldlM
    (fun isErrorExists i =>
      checkSeglist h.mem walkFuel (h.heapListp + dsize + i * dsize) isErrorExists) isErrorExists
  some (if isErrorExists then -1 else 0)

/-- Where the link at a node or a root leads. -/
def Mem.next (m : Mem) (p : ℕ) : Option ℕ := if m.get p = 0 then none else some (m.get p)

/-- The free list at `p` ends, and `ps` are its nodes. -/
def Linked (m : Mem) (p : ℕ) (ps : List ℕ) : Prop := Trail m.next p ps

/-- **What `mm_check` is there to find**, in the blocks `bs` and the free lists `segs`. -/
inductive Flawed (m : Mem) (bs : List Block) (segs : ℕ → List ℕ) : Prop where
  /-- a free block is not on the list of its size class -/
  | missing (b : Block) (hb : b ∈ bs) (hfree : b.alloc = false) (hnot : b.addr ∉ segs b.level)
  /-- two adjacent blocks are free -/
  | adjacent (h : ¬NoAdj bs)
  /-- a block on a list is marked allocated -/
  | allocated (i p : ℕ) (hi : i < nSeglist) (hp : p ∈ segs i) (h : m.getAlloc (hdrp p) ≠ 0)

/-- The loop ends, and the flag is set at the end iff `P`. -/
def Reports (r : Option Bool) (P : Prop) : Prop := ∃ e, r = some e ∧ (e = true ↔ P)

variable {m : Mem} {hl p q e n : ℕ} {ps : List ℕ} {bs : List Block} {b : Block}

theorem Reports.congr {r : Option Bool} {P Q : Prop} (h : Reports r P) (hPQ : P ↔ Q) :
    Reports r Q := by
  obtain ⟨e, he, hiff⟩ := h
  exact ⟨e, he, hiff.trans hPQ⟩

/-! ## Walks along a list -/

theorem Linked.nil_iff : Linked m p [] ↔ m.get p = 0 := by
  rw [Linked, Trail, Mem.next, ite_eq_left_iff]
  simp

theorem Linked.cons_iff : Linked m p (q :: ps) ↔ q ≠ 0 ∧ m.get p = q ∧ Linked m q ps := by
  rw [Linked, Trail, Mem.next, Option.ite_none_left_eq_some, Option.some.injEq]
  constructor
  · rintro ⟨⟨h0, rfl⟩, h⟩
    exact ⟨h0, rfl, h⟩
  · rintro ⟨h0, rfl, h⟩
    exact ⟨⟨h0, rfl⟩, h⟩

theorem Linked.node (h : Linked m p ps) : ∀ q ∈ ps, q ≠ 0 ∧ q < 2 ^ 32 := by
  induction ps generalizing p with
  | nil => exact fun _ hq => absurd hq List.not_mem_nil
  | cons x ps ih =>
    obtain ⟨h0, hx, h⟩ := Linked.cons_iff.mp h
    refine List.forall_mem_cons.mpr ⟨⟨h0, ?_⟩, ih h⟩
    rw [← hx]
    exact Mem.get_lt m p

/-- A doubly linked chain ends. -/
theorem Chain.linked (h : Chain m p ps) (h0 : ∀ q ∈ ps, q ≠ 0) : Linked m p ps := by
  induction ps generalizing p with
  | nil => exact Linked.nil_iff.mpr h
  | cons x ps ih =>
    obtain ⟨hx, -, h⟩ := h
    obtain ⟨hx0, h0⟩ := List.forall_mem_cons.mp h0
    exact Linked.cons_iff.mpr ⟨hx0, hx, ih h h0⟩

/-- A list that ends is no longer than there are pointers. -/
theorem Linked.length_lt (h : Linked m p ps) (h0 : p ≠ 0) (hlt : p < 2 ^ 32) :
    ps.length + 1 < walkFuel := by
  have hcard := Trail.length_lt h (s := Finset.Ioo 0 (2 ^ 32)) fun x hx => by
    rcases List.mem_cons.mp hx with rfl | hx
    · exact Finset.mem_Ioo.mpr ⟨by omega, hlt⟩
    · obtain ⟨hx0, hxlt⟩ := h.node x hx
      exact Finset.mem_Ioo.mpr ⟨by omega, hxlt⟩
  rw [Nat.card_Ioo] at hcard
  rw [walkFuel]
  omega

/-- The search finds what the list links, and the root itself. -/
theorem isInSeglist_reports (h : Linked m q ps) (h0 : q ≠ 0) (hn : ps.length + 1 < n) :
    Reports (isInSeglist m p n q) (p ∈ q :: ps) := by
  induction ps generalizing q n with
  | nil =>
    obtain ⟨k, rfl⟩ : ∃ k, n = k + 2 := ⟨n - 2, by simp at hn; omega⟩
    rw [isInSeglist, isInSeglist, if_neg h0, Mem.nextFreeBlkp, Linked.nil_iff.mp h, if_pos rfl]
    split
    · next hqp => exact ⟨true, rfl, by simp [hqp]⟩
    · next hqp => exact ⟨false, rfl, by simp [Ne.symm hqp]⟩
  | cons x ps ih =>
    obtain ⟨k, rfl⟩ : ∃ k, n = k + 1 := ⟨n - 1, by simp at hn; omega⟩
    obtain ⟨hx0, hx, h⟩ := Linked.cons_iff.mp h
    rw [isInSeglist, if_neg h0, Mem.nextFreeBlkp, hx]
    split
    · next hqp => exact ⟨true, rfl, by simp [hqp]⟩
    · next hqp =>
      refine (ih h hx0 (by simp at hn; omega)).congr ?_
      rw [List.mem_cons (a := p) (b := q), or_iff_right (Ne.symm hqp)]

/-- The walk along a list looks at the header of every node, and of the root. -/
theorem checkSeglist_reports (h : Linked m p ps) (h0 : p ≠ 0) (hn : ps.length + 1 < n) (e : Bool) :
    Reports (checkSeglist m n p e)
      (e = true ∨ ∃ x ∈ p :: ps, m.getAlloc (hdrp x) ≠ 0) := by
  induction ps generalizing p n e with
  | nil =>
    obtain ⟨k, rfl⟩ : ∃ k, n = k + 2 := ⟨n - 2, by simp at hn; omega⟩
    rw [checkSeglist, checkSeglist, if_neg h0, Linked.nil_iff.mp h, if_pos rfl]
    refine ⟨_, rfl, ?_⟩
    split
    · next hodd => simp [hodd]
    · next heven => simp [not_not.mp heven]
  | cons x ps ih =>
    obtain ⟨k, rfl⟩ : ∃ k, n = k + 1 := ⟨n - 1, by simp at hn; omega⟩
    obtain ⟨hx0, hx, h⟩ := Linked.cons_iff.mp h
    rw [checkSeglist, if_neg h0, hx]
    refine (ih h hx0 (by simp at hn; omega) _).congr ?_
    rw [List.exists_mem_cons_iff _ p]
    split
    · next hodd => simp [hodd]
    · next heven => simp [not_not.mp heven]

/-- The last loop of `mm_check` looks at the header of every listed block, and at the word
before every root. -/
theorem checkSeglists_reports {segs : ℕ → List ℕ} (hl0 : hl + 112 < 2 ^ 32)
    (h : ∀ i < nSeglist, Linked m (rootAddr hl i) (segs i)) (e : Bool) : ∀ {k : ℕ}, k ≤ nSeglist →
    Reports ((List.range k).foldlM
        (fun e i => checkSeglist m walkFuel (hl + dsize + i * dsize) e) e)
      (e = true ∨ ∃ i < k, ∃ x ∈ rootAddr hl i :: segs i, m.getAlloc (hdrp x) ≠ 0) := by
  intro k
  induction k with
  | zero => exact fun _ => ⟨e, rfl, by simp⟩
  | succ k ih =>
    intro hk
    obtain ⟨e₁, he₁, hiff⟩ := ih (by omega)
    rw [List.range_succ, List.foldlM_append, he₁]
    have hroot : rootAddr hl k ≠ 0 ∧ rootAddr hl k < 2 ^ 32 := by
      simp only [rootAddr, dsize, nSeglist] at *
      omega
    have hlist := h k (by omega)
    obtain ⟨e₂, he₂, hiff₂⟩ := checkSeglist_reports hlist hroot.1 (hlist.length_lt hroot.1 hroot.2) e₁
    refine ⟨e₂, by simpa [rootAddr] using he₂, ?_⟩
    rw [hiff₂, hiff, or_assoc]
    refine or_congr_right ⟨?_, ?_⟩
    · rintro (⟨i, hi, hx⟩ | hx)
      · exact ⟨i, by omega, hx⟩
      · exact ⟨k, by omega, hx⟩
    · rintro ⟨i, hi, hx⟩
      obtain hik | rfl : i < k ∨ i = k := by omega
      · exact .inl ⟨i, hik, hx⟩
      · exact .inr hx

/-! ## The walk along the blocks -/

/-- The way from one block to the next. -/
def Mem.nextBlk (m : Mem) (p : ℕ) : Option ℕ :=
  if m.get (hdrp p) = pack 0 1 then none else some (m.nextBlkp p)

theorem Walk.trail (h : Walk m p bs e) :
    ∃ as, Trail m.nextBlk p as ∧ p :: as = bs.map Block.addr ++ [e] := by
  induction bs generalizing p with
  | nil =>
    obtain ⟨rfl, hhdr⟩ := h
    exact ⟨[], if_pos hhdr, rfl⟩
  | cons b bs ih =>
    obtain ⟨hhdr, rfl, h⟩ := h
    obtain ⟨as, has, he⟩ := ih h
    exact ⟨m.nextBlkp p :: as, ⟨if_neg hhdr, has⟩, congrArg (p :: ·) he⟩

/-- Where a walk starts and every step stays, it stays. -/
theorem Walk.closed {S : ℕ → Prop} (h : Walk m p bs e) (hp : S p)
    (hnext : ∀ q, S q → S (m.nextBlkp q)) : (∀ b ∈ bs, S b.addr) ∧ S e := by
  induction bs generalizing p with
  | nil =>
    obtain ⟨rfl, -⟩ := h
    exact ⟨fun _ hb => absurd hb List.not_mem_nil, hp⟩
  | cons b bs ih =>
    obtain ⟨-, rfl, h⟩ := h
    obtain ⟨hbs, he⟩ := ih h (hnext p hp)
    exact ⟨List.forall_mem_cons.mpr ⟨hp, hbs⟩, he⟩

/-- A walk that ends meets fewer blocks than there are pointers. -/
theorem Walk.length_lt (h : Walk m p bs e) (hlt : p < 2 ^ 32) : bs.length < walkFuel := by
  obtain ⟨as, has, hbs⟩ := h.trail
  obtain ⟨hblocks, he⟩ := h.closed (S := (· < 2 ^ 32)) hlt fun _ _ => Nat.mod_lt _ (by decide)
  have hcard := has.length_lt (s := Finset.range (2 ^ 32)) fun x hx => by
    rw [hbs, List.mem_append, List.mem_map, List.mem_singleton] at hx
    rw [Finset.mem_range]
    rcases hx with ⟨b, hb, rfl⟩ | rfl
    · exact hblocks b hb
    · exact he
  have hlen := congrArg List.length hbs
  simp only [List.length_cons, List.length_append, List.length_map, List.length_nil] at hlen
  rw [Finset.card_range] at hcard
  rw [walkFuel]
  omega

/-- What the second check of `mm_check` reads behind a block. -/
theorem Walk.head_free (h : Walk m p bs e) (hbs : ∀ b ∈ bs, b.addr ≠ 0) :
    (p ≠ 0 ∧ m.getAlloc (hdrp p) = 0) ↔ ∃ c ∈ bs.head?, c.alloc = false := by
  cases bs with
  | nil =>
    obtain ⟨rfl, hhdr⟩ := h
    have hone : m.getAlloc (hdrp p) = 1 := by
      rw [Mem.getAlloc, hhdr]
      rfl
    simp [hone]
  | cons b bs =>
    obtain ⟨-, rfl, -⟩ := h
    have hp : p ≠ 0 := hbs (m.blockAt p) List.mem_cons_self
    simp [Mem.blockAt, hp]

theorem noAdj_cons {b : Block} {bs : List Block} :
    NoAdj (b :: bs) ↔ ¬(b.alloc = false ∧ ∃ c ∈ bs.head?, c.alloc = false) ∧ NoAdj bs := by
  rw [NoAdj, List.isChain_cons, NoAdj]
  refine and_congr_left' ?_
  cases bs with
  | nil => simp
  | cons c bs => cases b.alloc <;> simp

/-- The loop over the blocks finds what is wrong with a free one. -/
theorem checkBlocks_reports {segs : ℕ → List ℕ} (hl0 : hl + 112 < 2 ^ 32)
    (hlists : ∀ i < nSeglist, Linked m (rootAddr hl i) (segs i)) :
    ∀ {bs : List Block} {p n : ℕ} (err : Bool), Walk m p bs e →
      (∀ b ∈ bs, b.addr ≠ 0 ∧ ∀ i < nSeglist, b.addr ≠ rootAddr hl i) → bs.length < n →
      Reports (checkBlocks hl m n p err) (err = true ∨
        (∃ b ∈ bs, b.alloc = false ∧ b.addr ∉ segs b.level) ∨ ¬NoAdj bs) := by
  intro bs
  induction bs with
  | nil =>
    intro p n err h _ hn
    obtain ⟨k, rfl⟩ : ∃ k, n = k + 1 := ⟨n - 1, by simp at hn; omega⟩
    obtain ⟨rfl, hhdr⟩ := h
    refine ⟨err, if_pos hhdr, ?_⟩
    simp [NoAdj]
  | cons b bs ih =>
    intro p n err h hbs hn
    obtain ⟨k, rfl⟩ : ∃ k, n = k + 1 := ⟨n - 1, by simp at hn; omega⟩
    obtain ⟨hhdr, rfl, h⟩ := h
    obtain ⟨⟨hp0, hroot⟩, hbs⟩ := List.forall_mem_cons.mp hbs
    replace hp0 : p ≠ 0 := hp0
    replace hroot : ∀ i < nSeglist, p ≠ rootAddr hl i := hroot
    have hnext := h.head_free fun c hc => (hbs c hc).1
    have hi : getSegLevel (m.getSize (hdrp p)) < nSeglist := getSegLevel_lt _
    have hlist := hlists _ hi
    have hr : rootAddr hl (getSegLevel (m.getSize (hdrp p))) ≠ 0 ∧
        rootAddr hl (getSegLevel (m.getSize (hdrp p))) < 2 ^ 32 := by
      simp only [rootAddr, dsize, nSeglist] at *
      omega
    obtain ⟨found, hsearch, hfound⟩ :=
      isInSeglist_reports (p := p) hlist hr.1 (hlist.length_lt hr.1 hr.2)
    rw [List.mem_cons, or_iff_right (hroot _ hi)] at hfound
    rw [checkBlocks, if_neg hhdr, noAdj_cons, List.exists_mem_cons_iff]
    by_cases hfree : m.getAlloc (hdrp p) = 0
    · have hb : (m.blockAt p).alloc = false := by simp [Mem.blockAt, hfree]
      have hsearch' : isInSeglist m p walkFuel (getFreeblkRoot hl (m.getSize (hdrp p))) =
          some found := hsearch
      simp only [hfree, if_true, hsearch', Option.bind_eq_bind, Option.bind_some, if_neg hp0]
      refine (ih _ h hbs (by simp at hn; omega)).congr ?_
      have hmissing : (m.blockAt p).addr ∉ segs (m.blockAt p).level ↔ found = false := by
        rw [← Bool.not_eq_true, hfound]
        rfl
      rw [hmissing, hb]
      -- the rest is propositional
      generalize (∃ c ∈ bs, c.alloc = false ∧ c.addr ∉ segs c.level) = M, NoAdj bs = N,
        (∃ c ∈ bs.head?, c.alloc = false) = A at hnext ⊢
      split
      · next hadj => simp [hnext.mp hadj]
      · next hadj =>
        have hnone := mt hnext.mpr hadj
        cases found <;> simp [hnone]
    · have hb : (m.blockAt p).alloc = true := by simp [Mem.blockAt, hfree]
      simp only [hfree, if_false, Option.bind_eq_bind, Option.bind_some, if_neg hp0]
      refine (ih _ h hbs (by simp at hn; omega)).congr ?_
      simp [hb]

/-! ## The checker -/

theorem flawed_iff {segs : ℕ → List ℕ} : Flawed m bs segs ↔
    ((∃ b ∈ bs, b.alloc = false ∧ b.addr ∉ segs b.level) ∨ ¬NoAdj bs) ∨
      ∃ i < nSeglist, ∃ p ∈ segs i, m.getAlloc (hdrp p) ≠ 0 := by
  constructor
  · rintro (⟨b, hb, hfree, hnot⟩ | hadj | ⟨i, p, hi, hp, halloc⟩)
    · exact .inl (.inl ⟨b, hb, hfree, hnot⟩)
    · exact .inl (.inr hadj)
    · exact .inr ⟨i, hi, p, hp, halloc⟩
  · rintro ((⟨b, hb, hfree, hnot⟩ | hadj) | ⟨i, hi, p, hp, halloc⟩)
    · exact .missing b hb hfree hnot
    · exact .adjacent hadj
    · exact .allocated i p hi hp halloc

/-- **What `mm_check` returns** when its walks end: -1 if it finds what it is there to find,
or if the word before a root is odd. -/
theorem mmCheck_eq {h : Heap} {segs : ℕ → List ℕ} (hl0 : h.heapListp + 112 < 2 ^ 32)
    (hstart : h.blkStart < 2 ^ 32) (hwalk : Walk h.mem h.blkStart bs e)
    (hbs : ∀ b ∈ bs, b.addr ≠ 0 ∧ ∀ i < nSeglist, b.addr ≠ rootAddr h.heapListp i)
    (hlists : ∀ i < nSeglist, Linked h.mem (rootAddr h.heapListp i) (segs i)) :
    ∃ r, mmCheck h = some r ∧ (r = 0 ∨ r = -1) ∧ (r = -1 ↔ Flawed h.mem bs segs ∨
      ∃ i < nSeglist, h.mem.getAlloc (hdrp (rootAddr h.heapListp i)) ≠ 0) := by
  obtain ⟨e₁, he₁, hiff₁⟩ :=
    checkBlocks_reports hl0 hlists false hwalk hbs (hwalk.length_lt hstart)
  obtain ⟨e₂, he₂, hiff₂⟩ := checkSeglists_reports hl0 hlists e₁ (le_refl nSeglist)
  refine ⟨if e₂ then -1 else 0, ?_, ?_, ?_⟩
  · simp only [mmCheck, he₁, he₂, Option.bind_eq_bind, Option.bind_some]
  · cases e₂ <;> simp
  · have hret : (if e₂ then -1 else 0 : ℤ) = -1 ↔ e₂ = true := by cases e₂ <;> simp
    rw [hret, hiff₂, hiff₁, flawed_iff, or_iff_right Bool.false_ne_true]
    refine (or_congr_right ?_).trans or_assoc.symm
    simp only [List.exists_mem_cons_iff]
    constructor
    · rintro ⟨i, hi, hroot | hnode⟩
      · exact .inr ⟨i, hi, hroot⟩
      · exact .inl ⟨i, hi, hnode⟩
    · rintro (⟨i, hi, hnode⟩ | ⟨i, hi, hroot⟩)
      · exact ⟨i, hi, .inr hnode⟩
      · exact ⟨i, hi, .inl hroot⟩

end SysProgLab
