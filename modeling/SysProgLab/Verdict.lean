import SysProgLab.Driver
import Mathlib.Data.List.Nodup

/-!
# What a valid verdict says

`eval_mm_valid` is used to tell right packages from wrong ones, so its verdict is studied
here for any package whatever. A valid verdict certifies that every payload was handed
out aligned and inside the heap, and that no two live payloads overlap, with one
exception: `add_range` looks for the two ends of the new payload in the old ones only, so
a payload that encloses an older one goes through (`Range.Apart`).

The check of `mm_realloc` compares a `char`, which is signed, with `index & 0xFF`: for an
index whose low byte is 128 or more no package passes (`realloc_rejected`).
-/

namespace SysProgLab

namespace Driver

/-! ## Arrays and ranges -/

section

variable {array array' : List ℕ} {index : ℤ} {v lo heapLo brk opnum : ℕ} {size : ℤ}
  {ranges ranges' : List Range}

theorem load_eq_ok : load array index = .ok v ↔ 0 ≤ index ∧ array[index.toNat]? = some v := by
  rw [load]
  split
  · next h => simp [orStop_eq_ok, h]
  · next h => simp [h]

theorem store_eq_ok :
    store array index v = .ok array' ↔
      (0 ≤ index ∧ index.toNat < array.length) ∧ array.set index.toNat v = array' := by
  simp only [store, bind_eq_ok, ensure_eq_ok, pure_eq_ok, exists_const]

/-- **The new payload is told apart from an old one**: they are disjoint, or the new one
strictly encloses the old one. -/
def Range.Apart (new old : Range) : Prop :=
  new.hi < old.lo ∨ old.hi < new.lo ∨ new.lo < old.lo ∧ old.hi < new.hi

/-- The payload at `lo` of `size` bytes may join the ranges. -/
structure Joins (heapLo brk : ℕ) (ranges : List Range) (lo : ℕ) (size : ℤ) : Prop where
  pos : 0 < size
  aligned : 8 ∣ lo
  within : heapLo ≤ lo ∧ lo + size.toNat ≤ brk
  apart : ∀ old ∈ ranges, Range.Apart ⟨lo, lo + size.toNat - 1⟩ old

/-- **`add_range` lets a payload join** exactly if it is aligned, in the heap and apart
from the payloads there are. -/
theorem addRange_eq_ok (hne : ∀ r ∈ ranges, r.lo ≤ r.hi) :
    addRange heapLo brk ranges lo size opnum = .ok ranges' ↔
      Joins heapLo brk ranges lo size ∧ ⟨lo, lo + size.toNat - 1⟩ :: ranges = ranges' := by
  have hfree : (ranges.find? fun p => decide (p.lo ≤ lo ∧ lo ≤ p.hi ∨
      p.lo ≤ lo + size.toNat - 1 ∧ lo + size.toNat - 1 ≤ p.hi)) = none ↔
      ∀ p ∈ ranges, ¬(p.lo ≤ lo ∧ lo ≤ p.hi ∨
        p.lo ≤ lo + size.toNat - 1 ∧ lo + size.toNat - 1 ≤ p.hi) := by
    simp [List.find?_eq_none]
  simp only [addRange, bind_eq_ok, ensure_eq_ok, exists_const, alignment]
  constructor
  · rintro ⟨hpos, h8, hin, h⟩
    split at h
    · cases h
    · next hnone =>
      cases h
      refine ⟨⟨hpos, Nat.dvd_of_mod_eq_zero h8, by omega, fun old hold => ?_⟩, rfl⟩
      have hends := hfree.mp hnone old hold
      have hold' := hne old hold
      simp only [Range.Apart]
      omega
  · rintro ⟨⟨hpos, h8, hin, hapart⟩, rfl⟩
    refine ⟨hpos, Nat.mod_eq_zero_of_dvd h8, by omega, ?_⟩
    rw [hfree.mpr fun p hp => ?_]
    have hp' := hapart p hp
    have hne' := hne p hp
    simp only [Range.Apart] at hp'
    omega

end

/-! ## Legal traces -/

/-- The request names an id as a trace should: an alloc one that is not live, a realloc
or a free one that is. The size is an `int`. -/
def Op.Legal (live : List ℤ) (op : Op) : Prop :=
  op.size < 2 ^ 31 ∧
    match op.type with
    | .alloc => op.index ∉ live
    | .realloc | .free => op.index ∈ live

instance (live : List ℤ) : DecidablePred (Op.Legal live) := fun op => by
  unfold Op.Legal
  cases op.type <;> infer_instance

/-- The ids that are live after the request, the youngest payload first. -/
def Op.after (live : List ℤ) (op : Op) : List ℤ :=
  match op.type with
  | .alloc => op.index :: live
  | .realloc => op.index :: live.erase op.index
  | .free => live.erase op.index

/-- Every request is legal. -/
def LegalOps : List ℤ → List Op → Prop
  | _, [] => True
  | live, op :: ops => op.Legal live ∧ LegalOps (op.after live) ops

/-- The ids that are live after the requests. -/
def liveAfter (live : List ℤ) (ops : List Op) : List ℤ := ops.foldl Op.after live

theorem LegalOps.append {ops₁ ops₂ : List Op} : ∀ {live : List ℤ},
    LegalOps live (ops₁ ++ ops₂) ↔
      LegalOps live ops₁ ∧ LegalOps (liveAfter live ops₁) ops₂ := by
  induction ops₁ with
  | nil => exact fun {_} => iff_of_eq (true_and _).symm
  | cons op ops ih => exact fun {live} => (and_congr_right fun _ => ih).trans and_assoc.symm

/-- The index names one of `n` ids, and the size is positive. -/
def Op.InBounds (n : ℕ) (op : Op) : Prop :=
  (0 ≤ op.index ∧ op.index.toNat < n) ∧ (op.type ≠ .free → 0 < op.size)

instance (n : ℕ) : DecidablePred (Op.InBounds n) := fun op => by
  unfold Op.InBounds
  infer_instance

instance : ∀ (live : List ℤ) (ops : List Op), Decidable (LegalOps live ops)
  | _, [] => isTrue trivial
  | live, op :: ops =>
    have := instDecidableLegalOps (op.after live) ops
    inferInstanceAs (Decidable (op.Legal live ∧ LegalOps (op.after live) ops))

/-- **A proper trace**: the arrays have a cell for every id, and every request is legal
and in bounds. -/
structure Trace.Proper (t : Trace) : Prop where
  blocks : t.blocks.length = t.numIds.toNat
  blockSizes : t.blockSizes.length = t.numIds.toNat
  inBounds : ∀ op ∈ t.ops, op.InBounds t.numIds.toNat
  legal : LegalOps [] t.ops

/-! ## The certificate -/

/-- Deleting the first element that passes a test which only `a` passes. -/
theorem eraseP_eq_erase {α : Type} [DecidableEq α] {p : α → Bool} {a : α} {l : List α}
    (h : ∀ x ∈ l, p x = true ↔ x = a) : l.eraseP p = l.erase a := by
  induction l with
  | nil => rfl
  | cons x l ih =>
    have ih' := ih fun y hy => h y (List.mem_cons_of_mem _ hy)
    by_cases hx : x = a
    · rw [List.eraseP_cons_of_pos ((h x (List.mem_cons_self ..)).mpr hx), hx,
        List.erase_cons_head]
    · rw [List.eraseP_cons_of_neg fun hp => hx ((h x (List.mem_cons_self ..)).mp hp), ih',
        List.erase_cons_tail (by simpa using hx)]

section

variable {P : Package} {e e' : Eval P} {live : List ℤ} {id : ℤ} {p opnum : ℕ} {op : Op}

/-- The pointer that is remembered for the block `id`. -/
def Eval.block (e : Eval P) (id : ℤ) : ℕ := e.blocks[id.toNat]?.getD 0

/-- The size that is remembered for the block `id`. -/
def Eval.blockSize (e : Eval P) (id : ℤ) : ℕ := e.blockSizes[id.toNat]?.getD 0

/-- The payload of the block `id`. -/
def Eval.payload (e : Eval P) (id : ℤ) : Range := ⟨e.block id, e.block id + e.blockSize id - 1⟩

/-- **What the driver knows of the live payloads**: each is aligned and not empty, each
younger one is apart from the older ones, and the ranges are just these payloads. -/
structure Certified (e : Eval P) (live : List ℤ) : Prop where
  nodup : live.Nodup
  known : ∀ id ∈ live, 0 ≤ id ∧ id.toNat < e.blocks.length ∧ id.toNat < e.blockSizes.length
  sized : ∀ id ∈ live, 0 < e.blockSize id ∧ e.blockSize id < 2 ^ 31
  aligned : ∀ id ∈ live, 8 ∣ (e.payload id).lo
  apart : live.Pairwise fun new old => (e.payload new).Apart (e.payload old)
  ranges : e.ranges = live.map e.payload

theorem load_block (h : load e.blocks id = .ok p) : e.block id = p := by
  rw [Eval.block, (load_eq_ok.mp h).2, Option.getD_some]

theorem load_blockSize (h : load e.blockSizes id = .ok p) : e.blockSize id = p := by
  rw [Eval.blockSize, (load_eq_ok.mp h).2, Option.getD_some]

theorem load_of_known (h : Certified e live) (hid : id ∈ live) :
    load e.blocks id = .ok (e.block id) ∧ load e.blockSizes id = .ok (e.blockSize id) := by
  obtain ⟨h0, h₁, h₂⟩ := h.known id hid
  simp [load_eq_ok, h0, Eval.block, Eval.blockSize, h₁, h₂]

namespace Certified

theorem lo_le_hi (h : Certified e live) (hid : id ∈ live) :
    (e.payload id).lo ≤ (e.payload id).hi := by
  have hpos := (h.sized id hid).1
  simp only [Eval.payload]
  omega

theorem ranges_ne (h : Certified e live) : ∀ r ∈ e.ranges, r.lo ≤ r.hi := by
  intro r hr
  rw [h.ranges] at hr
  obtain ⟨id, hid, rfl⟩ := List.mem_map.mp hr
  exact h.lo_le_hi hid

/-- Payloads are told apart by where they start. -/
theorem block_inj (h : Certified e live) {id' : ℤ} (hid : id ∈ live) (hid' : id' ∈ live)
    (he : e.block id = e.block id') : id = id' := by
  by_contra hne
  have hapart : ∀ {a b : ℤ}, a ∈ live → b ∈ live → (e.payload a).Apart (e.payload b) →
      e.block a ≠ e.block b := by
    intro a b ha hb hab heq
    have hla := h.lo_le_hi ha
    have hlb := h.lo_le_hi hb
    simp only [Range.Apart, Eval.payload] at hab hla hlb
    omega
  have hpair := h.apart.imp_of_mem fun ha hb hab => hapart ha hb hab
  exact hne (List.inj_on_of_nodup_map (List.pairwise_map.mpr hpair) hid hid' he)

/-- **`remove_range` removes the payload** of the block. -/
theorem removeRange_eq (h : Certified e live) (hid : id ∈ live) :
    removeRange e.ranges (e.block id) = (live.erase id).map e.payload := by
  rw [removeRange, h.ranges, List.eraseP_map, eraseP_eq_erase fun x hx => ?_]
  rw [Function.comp_apply, decide_eq_true_eq]
  exact ⟨h.block_inj hx hid, fun hx => by rw [hx]; rfl⟩

/-- A block is given back. -/
theorem drop (h : Certified e live) (hid : id ∈ live) (s : P.State) :
    Certified { e with state := s, ranges := removeRange e.ranges (e.block id) }
      (live.erase id) := by
  have hsub : ∀ {x : ℤ}, x ∈ live.erase id → x ∈ live := List.mem_of_mem_erase
  exact ⟨h.nodup.erase id, fun x hx => h.known x (hsub hx), fun x hx => h.sized x (hsub hx),
    fun x hx => h.aligned x (hsub hx), h.apart.sublist List.erase_sublist, h.removeRange_eq hid⟩

end Certified

theorem toSize_eq {n : ℤ} (h0 : 0 < n) (hlt : n < 2 ^ 31) : toSize n = n.toNat := by
  rw [toSize, Int.emod_eq_of_lt h0.le (by omega)]

/-- What `remember` does. -/
theorem remember_eq_ok {check : Except Failure PUnit} (hne : ∀ r ∈ e.ranges, r.lo ≤ r.hi) :
    e.remember opnum op p check = .ok e' ↔
      Joins (P.heapLo e.state) (P.brk e.state) e.ranges p op.size ∧ check = .ok ⟨⟩ ∧
      (0 ≤ op.index ∧ op.index.toNat < e.blocks.length ∧
        op.index.toNat < e.blockSizes.length) ∧
      e' = ⟨P.store e.state (fill (P.mem e.state) p op.size.toNat
          (UInt8.ofNat (lowByte op.index).toNat)), ⟨p, p + op.size.toNat - 1⟩ :: e.ranges,
        e.blocks.set op.index.toNat p, e.blockSizes.set op.index.toNat (toSize op.size)⟩ := by
  simp only [Eval.remember, bind_eq_ok, addRange_eq_ok hne, store_eq_ok, pure_eq_ok]
  constructor
  · rintro ⟨_, ⟨hj, rfl⟩, ⟨⟩, hcheck, _, ⟨⟨h0, h₁⟩, rfl⟩, _, ⟨⟨-, h₂⟩, rfl⟩, rfl⟩
    exact ⟨hj, hcheck, ⟨h0, h₁, h₂⟩, rfl⟩
  · rintro ⟨hj, hcheck, ⟨h0, h₁, h₂⟩, rfl⟩
    exact ⟨_, ⟨hj, rfl⟩, ⟨⟩, hcheck, _, ⟨⟨h0, h₁⟩, rfl⟩, _, ⟨⟨h0, h₂⟩, rfl⟩, rfl⟩

/-- A payload that was looked for in the arrays after a store to them. -/
theorem getD_set {array : List ℕ} {v : ℕ} {a b : ℤ} (ha : 0 ≤ a) (hb : 0 ≤ b)
    (hlt : b.toNat < array.length) :
    (array.set b.toNat v)[a.toNat]?.getD 0 = if a = b then v else array[a.toNat]?.getD 0 := by
  by_cases hab : a = b
  · rw [if_pos hab, hab, List.getElem?_set_self hlt, Option.getD_some]
  · rw [if_neg hab, List.getElem?_set_ne fun he => hab (by omega)]

theorem payload_congr (hb : e'.block id = e.block id) (hs : e'.blockSize id = e.blockSize id) :
    e'.payload id = e.payload id := by
  rw [Eval.payload, Eval.payload, hb, hs]

/-- One more block, with the others as they were. -/
theorem Certified.cons (h : Certified e live) (hnew : id ∉ live)
    (hold : ∀ x ∈ live, e'.block x = e.block x ∧ e'.blockSize x = e.blockSize x)
    (hblocks : e'.blocks.length = e.blocks.length)
    (hsizes : e'.blockSizes.length = e.blockSizes.length)
    (hknown : 0 ≤ id ∧ id.toNat < e.blocks.length ∧ id.toNat < e.blockSizes.length)
    (hsized : 0 < e'.blockSize id ∧ e'.blockSize id < 2 ^ 31) (haligned : 8 ∣ (e'.payload id).lo)
    (hapart : ∀ r ∈ e.ranges, (e'.payload id).Apart r)
    (hranges : e'.ranges = e'.payload id :: e.ranges) : Certified e' (id :: live) := by
  have hpayload : ∀ x ∈ live, e'.payload x = e.payload x :=
    fun x hx => payload_congr (hold x hx).1 (hold x hx).2
  refine ⟨List.nodup_cons.mpr ⟨hnew, h.nodup⟩, List.forall_mem_cons.mpr ⟨?_, fun x hx => ?_⟩,
    List.forall_mem_cons.mpr ⟨hsized, fun x hx => ?_⟩,
    List.forall_mem_cons.mpr ⟨haligned, fun x hx => ?_⟩,
    List.pairwise_cons.mpr ⟨fun x hx => ?_, ?_⟩, ?_⟩
  · rwa [hblocks, hsizes]
  · rw [hblocks, hsizes]
    exact h.known x hx
  · rw [(hold x hx).2]
    exact h.sized x hx
  · rw [hpayload x hx]
    exact h.aligned x hx
  · rw [hpayload x hx]
    exact hapart _ (h.ranges ▸ List.mem_map_of_mem hx)
  · refine h.apart.imp_of_mem fun {a b} ha hb hab => ?_
    rwa [hpayload a ha, hpayload b hb]
  · rw [hranges, h.ranges, List.map_cons, List.map_congr_left hpayload]

/-- **A payload that joins** is certified with the others. -/
theorem Certified.remember {check : Except Failure PUnit} (h : Certified e live)
    (hnew : op.index ∉ live) (hint : op.size < 2 ^ 31)
    (hr : e.remember opnum op p check = .ok e') :
    Certified e' (op.index :: live) ∧ e'.block op.index = p ∧
      e'.blockSize op.index = op.size.toNat ∧
      ∀ id ∈ live, e'.block id = e.block id ∧ e'.blockSize id = e.blockSize id := by
  obtain ⟨hj, -, ⟨h0, h₁, h₂⟩, he'⟩ := (remember_eq_ok h.ranges_ne).mp hr
  have hpos := hj.pos
  have hself : e'.block op.index = p := by
    rw [Eval.block, he', getD_set h0 h0 h₁, if_pos rfl]
  have hsize : e'.blockSize op.index = op.size.toNat := by
    rw [Eval.blockSize, he', getD_set h0 h0 h₂, if_pos rfl, toSize_eq hpos hint]
  have hpayload : e'.payload op.index = ⟨p, p + op.size.toNat - 1⟩ := by
    rw [Eval.payload, hself, hsize]
  have hold : ∀ id ∈ live, e'.block id = e.block id ∧ e'.blockSize id = e.blockSize id := by
    intro id hid
    have hne : id ≠ op.index := fun he => hnew (he ▸ hid)
    have hid0 := (h.known id hid).1
    rw [Eval.block, Eval.blockSize, he', getD_set hid0 h0 h₁, getD_set hid0 h0 h₂, if_neg hne,
      if_neg hne]
    exact ⟨rfl, rfl⟩
  refine ⟨h.cons hnew hold ?_ ?_ ⟨h0, h₁, h₂⟩ (by omega) ?_ ?_ ?_, hself, hsize, hold⟩
  · rw [he', List.length_set]
  · rw [he', List.length_set]
  · rw [hpayload]
    exact hj.aligned
  · rw [hpayload]
    exact hj.apart
  · rw [hpayload, he']

/-- The payload that the request hands out lies in the heap. -/
def Within (e : Eval P) (op : Op) : Prop :=
  op.type ≠ .free → P.heapLo e.state ≤ (e.payload op.index).lo ∧
    (e.payload op.index).hi < P.brk e.state

theorem within_of_remember {check : Except Failure PUnit} (h : Certified e live)
    (hnew : op.index ∉ live) (hint : op.size < 2 ^ 31)
    (hr : e.remember opnum op p check = .ok e') : Within e' op := by
  obtain ⟨-, hp, hsize, -⟩ := h.remember hnew hint hr
  obtain ⟨hj, -, -, he'⟩ := (remember_eq_ok h.ranges_ne).mp hr
  have hin := hj.within
  have hpos := hj.pos
  intro _
  rw [Eval.payload, hp, hsize, he']
  simp only [P.heapLo_store, P.brk_store]
  omega

/-- **One request that passes** leaves the payloads certified. -/
theorem Certified.step (h : Certified e live) (hlegal : op.Legal live)
    (hs : validStep opnum e op = .ok e') : Certified e' (op.after live) ∧ Within e' op := by
  obtain ⟨type, index, size⟩ := op
  obtain ⟨hint, hlegal⟩ := hlegal
  cases type with
  | alloc =>
    simp only [validStep, bind_eq_ok, ensure_eq_ok, exists_const] at hs
    obtain ⟨⟨p, s⟩, -, -, hr⟩ := hs
    have h' : Certified { e with state := s } live := ⟨h.1, h.2, h.3, h.4, h.5, h.6⟩
    exact ⟨(h'.remember hlegal hint hr).1, within_of_remember h' hlegal hint hr⟩
  | realloc =>
    simp only [validStep, bind_eq_ok, ensure_eq_ok, exists_const] at hs
    obtain ⟨oldp, hload, ⟨p, s⟩, -, -, hr⟩ := hs
    have h' := h.drop hlegal s
    rw [load_block hload] at h'
    have hnew : index ∉ live.erase index := h.nodup.not_mem_erase
    exact ⟨(h'.remember hnew hint hr).1, within_of_remember h' hnew hint hr⟩
  | free =>
    simp only [validStep, bind_eq_ok, pure_eq_ok] at hs
    obtain ⟨p, hload, s, -, rfl⟩ := hs
    have h' := h.drop hlegal s
    rw [load_block hload] at h'
    exact ⟨h', fun hne => absurd rfl hne⟩

theorem remember_length {check : Except Failure PUnit}
    (hr : e.remember opnum op p check = .ok e') :
    e'.blocks.length = e.blocks.length ∧ e'.blockSizes.length = e.blockSizes.length := by
  simp only [Eval.remember, bind_eq_ok, store_eq_ok, pure_eq_ok] at hr
  obtain ⟨_, -, _, -, _, ⟨-, rfl⟩, _, ⟨-, rfl⟩, rfl⟩ := hr
  exact ⟨List.length_set, List.length_set⟩

/-- A request leaves the arrays as long as they are. -/
theorem validStep_length (hs : validStep opnum e op = .ok e') :
    e'.blocks.length = e.blocks.length ∧ e'.blockSizes.length = e.blockSizes.length := by
  cases htype : op.type with
  | alloc =>
    simp only [validStep, htype, bind_eq_ok] at hs
    obtain ⟨⟨q, s⟩, -, -, -, hr⟩ := hs
    exact remember_length (e := { e with state := s }) hr
  | realloc =>
    simp only [validStep, htype, bind_eq_ok] at hs
    obtain ⟨oldp, -, ⟨q, s⟩, -, -, -, hr⟩ := hs
    exact remember_length (e := { e with state := s, ranges := removeRange e.ranges oldp }) hr
  | free =>
    simp only [validStep, htype, bind_eq_ok, pure_eq_ok] at hs
    obtain ⟨_, -, _, -, rfl⟩ := hs
    exact ⟨rfl, rfl⟩

theorem validLoop_append {ops₁ ops₂ : List Op} : ∀ {opnum : ℕ} {e : Eval P},
    validLoop opnum e (ops₁ ++ ops₂) =
      validLoop opnum e ops₁ >>= fun e' => validLoop (opnum + ops₁.length) e' ops₂ := by
  induction ops₁ with
  | nil => exact fun {_ _} => rfl
  | cons op ops ih =>
    intro opnum e
    rw [List.cons_append, validLoop, validLoop, bind_assoc, List.length_cons]
    refine bind_congr fun e₁ => ?_
    rw [ih, Nat.add_right_comm, Nat.add_assoc]

/-- **The requests that pass** leave the payloads certified. -/
theorem Certified.loop {ops : List Op} : ∀ {opnum : ℕ} {e e' : Eval P} {live : List ℤ},
    Certified e live → LegalOps live ops → validLoop opnum e ops = .ok e' →
    Certified e' (liveAfter live ops) := by
  induction ops with
  | nil =>
    intro _ e e' live h _ hv
    cases hv
    exact h
  | cons op ops ih =>
    intro opnum e e' live h hlegal hv
    obtain ⟨e₁, h₁, hv⟩ := bind_eq_ok.mp hv
    exact ih (h.step hlegal.1 h₁).1 hlegal.2 hv

end

section

variable {P : Package} {t : Trace} {s : P.State} {e e₀ : Eval P} {failed : Failure}

theorem start_certified (h : start t s failed = .ok e) : Certified e [] := by
  simp only [start, bind_eq_ok, ensure_eq_ok, exists_const, pure_eq_ok] at h
  obtain ⟨r, -, -, rfl⟩ := h
  exact ⟨List.nodup_nil, nofun, nofun, nofun, List.Pairwise.nil, rfl⟩

/-- The evaluation of the first requests of a trace that passes. -/
theorem evalMmValid_append {ops₁ ops₂ : List Op} (hops : t.ops = ops₁ ++ ops₂)
    (h : evalMmValid t s = .ok e) :
    ∃ e₁, evalMmValid { t with ops := ops₁ } s = .ok e₁ ∧
      validLoop ops₁.length e₁ ops₂ = .ok e := by
  obtain ⟨e₀, h₀, h⟩ := bind_eq_ok.mp h
  rw [hops, validLoop_append] at h
  obtain ⟨e₁, h₁, h⟩ := bind_eq_ok.mp h
  rw [Nat.zero_add] at h
  exact ⟨e₁, bind_eq_ok.mpr ⟨e₀, h₀, h₁⟩, h⟩

theorem evalMmValid_certified (hlegal : LegalOps [] t.ops) (h : evalMmValid t s = .ok e) :
    Certified e (liveAfter [] t.ops) := by
  obtain ⟨e₀, h₀, h⟩ := bind_eq_ok.mp h
  exact (start_certified h₀).loop hlegal h

/-- **What a valid verdict certifies**, for every package and every legal trace: after
each of its requests the payloads of the live blocks were aligned and not empty, the one
that the request handed out lay in the heap, and each younger payload was disjoint from
the older ones or enclosed them. -/
theorem valid_certifies (hlegal : LegalOps [] t.ops) (h : evalMmValid t s = .ok e)
    {ops₁ ops₂ : List Op} {op : Op} (hops : t.ops = ops₁ ++ op :: ops₂) :
    ∃ e₁, evalMmValid { t with ops := ops₁ ++ [op] } s = .ok e₁ ∧
      Certified e₁ (liveAfter [] (ops₁ ++ [op])) ∧ Within e₁ op := by
  obtain ⟨e₁, h₁, h₂⟩ := evalMmValid_append hops h
  obtain ⟨e₂, hs, -⟩ := bind_eq_ok.mp h₂
  rw [hops] at hlegal
  obtain ⟨hlegal₁, hlegal₂⟩ := LegalOps.append.mp hlegal
  have hc := evalMmValid_certified hlegal₁ h₁
  obtain ⟨hc', hw⟩ := hc.step hlegal₂.1 hs
  obtain ⟨e₀, h₀, hv⟩ := bind_eq_ok.mp h₁
  refine ⟨e₂, bind_eq_ok.mpr ⟨e₀, h₀, ?_⟩, ?_, hw⟩
  · rw [validLoop_append, hv, Nat.zero_add]
    exact bind_eq_ok.mpr ⟨e₁, rfl, bind_eq_ok.mpr ⟨e₂, hs, rfl⟩⟩
  · rw [liveAfter, List.foldl_append]
    exact hc'

/-- Two blocks, given back in the order in which they were allocated. -/
def balancedTrace : Trace where
  suggHeapsize := 0
  numIds := 2
  numOps := 4
  weight := 1
  ops := [⟨.alloc, 0, 5000⟩, ⟨.alloc, 1, 100⟩, ⟨.free, 0, 0⟩, ⟨.free, 1, 0⟩]
  blocks := [0, 0]
  blockSizes := [0, 0]

theorem valid_certifies_balanced : ∃ e₁,
    evalMmValid (P := mm) { balancedTrace with ops := [⟨.alloc, 0, 5000⟩, ⟨.alloc, 1, 100⟩] }
        (memInit .wrap32 1024 fun _ => 0) = .ok e₁ ∧
      Certified e₁ [1, 0] ∧ Within e₁ ⟨.alloc, 1, 100⟩ := by
  have hvalid : (evalMmValid (P := mm) balancedTrace (memInit .wrap32 1024 fun _ => 0)).isOk =
      true := by decide +kernel
  cases hok : evalMmValid (P := mm) balancedTrace (memInit .wrap32 1024 fun _ => 0) with
  | error f =>
    rw [hok] at hvalid
    cases hvalid
  | ok e =>
    have hops : balancedTrace.ops =
        [⟨.alloc, 0, 5000⟩] ++ ⟨.alloc, 1, 100⟩ :: [⟨.free, 0, 0⟩, ⟨.free, 1, 0⟩] := rfl
    obtain ⟨e₁, h₁, hcert, hin⟩ := valid_certifies (t := balancedTrace) (by decide) hok hops
    exact ⟨e₁, h₁, hcert, hin⟩

/-! ## The check of `mm_realloc` -/

/-- A `char` is the low byte of an index only if that is below 128. -/
theorem schar_eq_lowByte {b : UInt8} {index : ℤ} :
    schar b = lowByte index ↔ lowByte index < 128 ∧ b = UInt8.ofNat (lowByte index).toNat := by
  have hlow : 0 ≤ lowByte index ∧ lowByte index < 256 := by
    rw [lowByte]
    omega
  have hb := b.toNat_lt
  have hbyte : b = UInt8.ofNat (lowByte index).toNat ↔ b.toNat = (lowByte index).toNat := by
    have hlt : (lowByte index).toNat < UInt8.size := by
      change (lowByte index).toNat < 256
      omega
    rw [← UInt8.toNat_inj, UInt8.toNat_ofNat_of_lt' hlt]
  rw [hbyte, schar]
  split <;> omega

theorem preserved_iff {m : Mem} {newp : ℕ} {oldsize index : ℤ} :
    preserved m newp oldsize index = true ↔ ∀ j < oldsize.toNat, lowByte index < 128 ∧
      m (newp + j) = UInt8.ofNat (lowByte index).toNat := by
  simp only [preserved, List.all_eq_true, List.mem_range, decide_eq_true_eq, schar_eq_lowByte]

theorem toInt32_blockSize {live : List ℤ} {id : ℤ} (h : Certified e live) (hid : id ∈ live) :
    toInt32 (e.blockSize id) = e.blockSize id := by
  have hlt := (h.sized id hid).2
  rw [toInt32, Nat.mod_eq_of_lt (by omega), if_pos hlt]

/-- **No package passes the check of `mm_realloc`** when the low byte of the index is 128
or more: a trace with such a request is never judged valid. -/
theorem realloc_rejected (hlegal : LegalOps [] t.ops) {op : Op} (hop : op ∈ t.ops)
    (htype : op.type = .realloc) (hlow : 128 ≤ lowByte op.index) :
    ¬∃ e, evalMmValid t s = .ok e := by
  rintro ⟨e, h⟩
  obtain ⟨ops₁, ops₂, hops⟩ := List.append_of_mem hop
  obtain ⟨e₁, h₁, h₂⟩ := evalMmValid_append hops h
  obtain ⟨e₂, hs, -⟩ := bind_eq_ok.mp h₂
  rw [hops] at hlegal
  obtain ⟨hlegal₁, ⟨hint, hlive⟩, -⟩ := LegalOps.append.mp hlegal
  rw [htype] at hlive
  have hc := evalMmValid_certified hlegal₁ h₁
  simp only [validStep, htype, bind_eq_ok, ensure_eq_ok, exists_const] at hs
  obtain ⟨oldp, hload, ⟨p, s'⟩, -, -, hr⟩ := hs
  have hc' := hc.drop hlive s'
  rw [load_block hload] at hc'
  -- both sizes are positive, so the loop looks at the first byte
  obtain ⟨hj, hcheck, -, -⟩ := (remember_eq_ok hc'.ranges_ne).mp hr
  obtain ⟨oldsize, hold, hcheck⟩ := bind_eq_ok.mp hcheck
  obtain rfl := load_blockSize hold
  have hpos := (hc.sized _ hlive).1
  have hsize := hj.pos
  have hbyte := preserved_iff.mp (ensure_eq_ok.mp hcheck) 0 ?_
  · omega
  · rw [toInt32_blockSize hc hlive]
    omega

theorem realloc_rejected_128 : ¬∃ e, evalMmValid (P := mm)
    ⟨0, 129, 2, 0, [⟨.alloc, 128, 1⟩, ⟨.realloc, 128, 1⟩], List.replicate 129 0,
      List.replicate 129 0⟩ (memInit .wrap32 1024 fun _ => 0) = .ok e :=
  realloc_rejected (by decide) (List.mem_cons_of_mem _ (List.mem_singleton_self _)) rfl (by decide)

end

end Driver

end SysProgLab
