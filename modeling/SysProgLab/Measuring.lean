import SysProgLab.Accepted
import SysProgLab.Replay
import Mathlib.Algebra.BigOperators.Ring.Finset
import Mathlib.Order.Interval.Finset.Nat

/-!
# Measuring what has been validated

`eval_mm_util` and `eval_mm_speed` run a trace that `eval_mm_valid` has judged valid, on
the heap that the last evaluation has left behind, and without filling the payloads. If
the package refused a request now, `app_error` would end the driver. All three evaluations
of a trace that only allocates and frees follow one plan (`Planned`), so `mm.c` hands out
the same payloads every time.
-/

namespace SysProgLab

theorem Follows.fill {base : ℕ} {s : Client} {P : Plan} (hf : Follows base s P) {p n : ℕ}
    (hx : (p, n) ∈ s.live) (v : UInt8) : Follows base (s.fill p n v) P :=
  ⟨hf.good.fill hx v, hf.live, hf.limit⟩

/-- `mem_brk` plus an extension does not wrap, wherever the break is. -/
def Roomy (s : Heap) : Prop := s.arith = .exact ∨ s.memMaxAddr + 2 ^ 31 ≤ 2 ^ 32

theorem Roomy.extendsOk {s : Heap} {L : Layout} {size : ℕ} (h : Roomy s) (hM : s.Models L) :
    Client.ExtendsOk s size := by
  intro _ hlt
  rcases h with ha | hlow
  · exact .of_exact ha _
  · have hle := hM.le_max
    rw [← hM.brk] at hle
    exact .of_lt (by omega)

/-- A live payload is given back: the ids that stay name the payloads that stay. -/
theorem map_erase_eq {slot : ℤ → Option (ℕ × ℕ)} {id : ℤ} {x : ℕ × ℕ} : ∀ {ids : List ℤ}
    {live : List (ℕ × ℕ)}, ids.map slot = live.map some → live.Pairwise (fun x y => x.1 ≠ y.1) →
    id ∈ ids → slot id = some x →
    (ids.erase id).map slot = (live.filter fun y => y.1 ≠ x.1).map some := by
  intro ids
  induction ids with
  | nil => exact fun {_} _ _ hid _ => absurd hid List.not_mem_nil
  | cons i ids ih =>
    intro live hmap hpw hid hslot
    obtain ⟨y, live, rfl⟩ := List.exists_cons_of_ne_nil (l := live) (by rintro rfl; cases hmap)
    rw [List.map_cons, List.map_cons, List.cons.injEq] at hmap
    obtain ⟨hy, hpw⟩ := List.pairwise_cons.mp hpw
    by_cases hi : i = id
    · subst hi
      obtain rfl : y = x := Option.some.inj (hmap.1.symm.trans hslot)
      rw [List.erase_cons_head, List.filter_cons_of_neg (by simp), hmap.2]
      exact congrArg _ (List.filter_eq_self.mpr fun z hz => decide_eq_true (hy z hz).symm).symm
    · have hid := (List.mem_cons.mp hid).resolve_left (Ne.symm hi)
      have hx : x ∈ live := by
        have hsome : some x ∈ ids.map slot := List.mem_map.mpr ⟨id, hid, hslot⟩
        rw [hmap.2] at hsome
        simpa using hsome
      rw [List.erase_cons_tail (by simpa using hi), List.filter_cons_of_pos (by simpa using hy x hx),
        List.map_cons, List.map_cons, ih hmap.2 hpw hid hslot, hmap.1]

theorem Plan.live_of_malloc {P P' : Plan} {size o : ℕ} (h : P.malloc size = (some o, P')) :
    P'.live = (o, size) :: P.live := by
  rw [Plan.malloc] at h
  split at h
  · cases h
  · split at h
    · cases h
    · cases h
      rfl

theorem Plan.brk_le_of_malloc {P P' : Plan} {size o : ℕ} (h : P.malloc size = (some o, P')) :
    P.layout.brk ≤ P'.layout.brk := by
  rw [Plan.malloc] at h
  split at h
  · cases h
  · split at h
    · cases h
    · next hL =>
      cases h
      exact Layout.le_malloc_brk hL

/-- Disjoint intervals are together no larger than a set that covers them. -/
theorem sum_le_card_of_disjoint {l : List (ℕ × ℕ)}
    (hdisj : l.Pairwise fun x y => x.1 + x.2 ≤ y.1 ∨ y.1 + y.2 ≤ x.1) : ∀ {S : Finset ℕ},
    (∀ x ∈ l, Finset.Ico x.1 (x.1 + x.2) ⊆ S) → (l.map Prod.snd).sum ≤ S.card := by
  induction l with
  | nil => exact fun {_} _ => Nat.zero_le _
  | cons x l ih =>
    intro S hS
    obtain ⟨hx, hdisj⟩ := List.pairwise_cons.mp hdisj
    obtain ⟨hxS, hS⟩ := List.forall_mem_cons.mp hS
    have hrest : (l.map Prod.snd).sum ≤ (S \ Finset.Ico x.1 (x.1 + x.2)).card := by
      refine ih hdisj fun y hy a ha => Finset.mem_sdiff.mpr ⟨hS y hy ha, fun ha' => ?_⟩
      have hxy := hx y hy
      rw [Finset.mem_Ico] at ha ha'
      omega
    have hcard := Finset.card_sdiff_add_card_eq_card hxS
    rw [Nat.card_Ico, Nat.add_sub_cancel_left] at hcard
    rw [List.map_cons, List.sum_cons]
    omega

namespace Driver

/-! ## The plan of a trace -/

/-- What every evaluation of a trace computes: a plan, and the offset and the size that
were last handed out for an id. -/
structure Planned : Type where
  /-- the layout and the live blocks -/
  plan : Plan
  /-- the last block of an id -/
  slot : ℤ → Option (ℕ × ℕ)

namespace Planned

/-- After `mm_init`. -/
def init : Planned := ⟨.init, fun _ => none⟩

/-- A request; `none` if it is refused. -/
def step (Q : Planned) (op : Op) : Option Planned :=
  match op.type with
  | .alloc =>
    match Q.plan.malloc (toSize op.size) with
    | (none, _) => none
    | (some o, P) => some ⟨P, Function.update Q.slot op.index (some (o, toSize op.size))⟩
  | .realloc => none
  | .free => (Q.slot op.index).map fun x => { Q with plan := Q.plan.free x.1 }

/-- The heap is where the plan says, with the storage at `base`, and the ids name its
live blocks. -/
structure Holds (base : ℕ) (Q : Planned) (ids : List ℤ) (s : Heap) : Prop where
  follows : ∃ c, Follows base c Q.plan ∧ c.heap = s
  slots : ids.map Q.slot = Q.plan.live.map some
  start : s.memStartBrk = base
  roomy : Roomy s

variable {base : ℕ} {Q Q' : Planned} {ids : List ℤ} {s : Heap} {op : Op} {id : ℤ}

theorem Holds.slot_of_mem (h : Q.Holds base ids s) (hid : id ∈ ids) :
    ∃ x ∈ Q.plan.live, Q.slot id = some x := by
  have hmem : Q.slot id ∈ Q.plan.live.map some := h.slots ▸ List.mem_map_of_mem hid
  obtain ⟨x, hx, he⟩ := List.mem_map.mp hmem
  exact ⟨x, hx, he.symm⟩

theorem Holds.brk (h : Q.Holds base ids s) : s.memBrk = Q.plan.layout.brk + base := by
  obtain ⟨⟨c, hf, rfl⟩, -⟩ := h
  exact hf.good.models.brk

/-- The heap never shrinks. -/
theorem brk_le_of_step (h : Q.step op = some Q') :
    Q.plan.layout.brk ≤ Q'.plan.layout.brk := by
  cases htype : op.type with
  | alloc =>
    simp only [step, htype] at h
    split at h
    · cases h
    · next P hP =>
      cases h
      exact Plan.brk_le_of_malloc hP
  | realloc =>
    simp only [step, htype] at h
    cases h
  | free =>
    simp only [step, htype] at h
    obtain ⟨x, -, rfl⟩ := Option.map_eq_some_iff.mp h
    simp only [Plan.free]
    split <;> exact le_refl _

theorem brk_le_of_run {ops : List Op} : ∀ {Q Q' : Planned}, ops.foldlM step Q = some Q' →
    Q.plan.layout.brk ≤ Q'.plan.layout.brk := by
  induction ops with
  | nil =>
    intro Q Q' h
    cases h
    exact le_refl _
  | cons op ops ih =>
    intro Q Q' h
    rw [List.foldlM_cons] at h
    obtain ⟨Q₁, hstep, h⟩ := Option.bind_eq_some_iff.mp h
    exact (brk_le_of_step hstep).trans (ih h)

/-- **`mm_malloc`** does as the plan says. -/
theorem Holds.alloc (h : Q.Holds base ids s) (htype : op.type = .alloc) (hnew : op.index ∉ ids)
    (hpos : 0 < op.size) (hint : op.size < 2 ^ 31) :
    (Q.step op = none ∧ mmMalloc s (toSize op.size) = some (0, s)) ∨
      ∃ o s' Q', mmMalloc s (toSize op.size) = some (o + base, s') ∧ o + base ≠ 0 ∧
        Q.step op = some Q' ∧
        Q'.slot = Function.update Q.slot op.index (some (o, toSize op.size)) ∧
        Q'.Holds base (op.index :: ids) s' := by
  obtain ⟨⟨c, hf, rfl⟩, hslots, hstart, hroomy⟩ := h
  have hsize := toSize_eq hpos hint
  have hlt : toSize op.size < 2 ^ 31 := by omega
  have hsound : Client.ExtendsOk c.heap (toSize op.size) := hroomy.extendsOk hf.good.models
  obtain ⟨s', hm, hf'⟩ := hf.malloc hlt hsound
  obtain ⟨o, P, hP⟩ : ∃ o P, Q.plan.malloc (toSize op.size) = (o, P) := ⟨_, _, rfl⟩
  simp only [step, htype, hP] at hm hf' ⊢
  have hpair : mmMalloc c.heap (toSize op.size) = some (pointer base o, s') := hm
  rcases hf.good.malloc_cases (by omega) (by omega) hsound with
    ⟨hm', -⟩ | ⟨p, s'', -, hm', hne, -, -, hlimit, hstart', harith⟩
  · -- the plan is refused only where the code is
    obtain ⟨hp, -⟩ := Prod.mk.inj (Option.some.inj (hpair.symm.trans hm'))
    cases o with
    | none => exact .inl ⟨rfl, hm'⟩
    | some o =>
      have hlen := congrArg List.length hf'.live
      have hlen₀ := congrArg List.length hf.live
      rw [hp, Client.gain, if_pos rfl, Plan.live_of_malloc hP] at hlen
      simp only [List.length_map, List.length_cons] at hlen hlen₀
      omega
  · obtain ⟨hp, rfl⟩ := Prod.mk.inj (Option.some.inj (hpair.symm.trans hm'))
    cases o with
    | none => exact absurd hp.symm hne
    | some o =>
      have hpne : pointer base (some o) ≠ 0 := hp ▸ hne
      have hgain : c.gain (toSize op.size) (pointer base (some o)) s' = _ := if_neg hpne
      refine .inr ⟨o, s', _, hpair, hpne, rfl, rfl, ⟨_, hf', by rw [hgain]⟩, ?_,
        hstart'.trans hstart, ?_⟩
      · rw [Plan.live_of_malloc hP, List.map_cons, List.map_cons, ← hslots]
        refine congrArg₂ _ (Function.update_self ..) (List.map_congr_left fun id hid => ?_)
        exact Function.update_of_ne (fun he => hnew (by rwa [← he])) _ _
      · rwa [Roomy, harith, hlimit]

/-- **`mm_free`** does as the plan says. -/
theorem Holds.free (h : Q.Holds base ids s) (htype : op.type = .free) (hid : op.index ∈ ids) :
    ∃ x s' Q', Q.slot op.index = some x ∧ mmFree s (x.1 + base) = some s' ∧ Q.step op = some Q' ∧
      Q'.slot = Q.slot ∧ Q'.Holds base (ids.erase op.index) s' := by
  obtain ⟨x, hx, hslot⟩ := h.slot_of_mem hid
  obtain ⟨⟨c, hf, rfl⟩, hslots, hstart, hroomy⟩ := h
  obtain ⟨s', hm, hf'⟩ := hf.free hx
  have hpw : Q.plan.live.Pairwise fun x y => x.1 ≠ y.1 := by
    have hnd := hf.good.nodup
    rw [hf.live, List.pairwise_map] at hnd
    exact hnd.imp fun hne he => hne (congrArg (· + base) he)
  have hxc : (x.1 + base, x.2) ∈ c.live := by
    rw [hf.live]
    exact List.mem_map_of_mem hx
  obtain ⟨b, hb, hba, hbx, -⟩ := hf.good.live _ hxc
  obtain ⟨s'', hm', hg, harith, hlimit⟩ := hf.good.free hb hba
  obtain rfl : s' = s'' := by
    rw [hbx, hm] at hm'
    exact Option.some.inj hm'
  have hlive : (Q.plan.free x.1).live = Q.plan.live.filter fun y => y.1 ≠ x.1 := by
    have hmap : Function.Injective fun y : ℕ × ℕ => (y.1 + base, y.2) := by
      intro y z hyz
      simp only [Prod.mk.injEq, Nat.add_right_cancel_iff] at hyz
      exact Prod.ext hyz.1 hyz.2
    refine List.map_injective_iff.mpr hmap (hf'.live.symm.trans ?_)
    change c.live.filter (fun y => decide (y.1 ≠ x.1 + base)) = _
    rw [hf.live, List.filter_map]
    congr 2
    funext y
    simp
  have hstart' : s'.memStartBrk = c.heap.memStartBrk := hg.models.start.trans hf.good.models.start.symm
  refine ⟨x, s', { Q with plan := Q.plan.free x.1 }, hslot, hm, ?_, rfl, ⟨_, hf', rfl⟩, ?_,
    hstart'.trans hstart, ?_⟩
  · simp only [step, htype, hslot, Option.map_some]
  · rw [hlive]
    exact map_erase_eq hslots hpw hid hslot
  · rwa [Roomy, harith, hlimit]

/-- The driver fills a live payload. -/
theorem Holds.fill (h : Q.Holds base ids s) {x : ℕ × ℕ} (hx : x ∈ Q.plan.live) (v : UInt8) :
    Q.Holds base ids { s with mem := Driver.fill s.mem (x.1 + base) x.2 v } := by
  obtain ⟨⟨c, hf, rfl⟩, hslots, hstart, hroomy⟩ := h
  have hxc : (x.1 + base, x.2) ∈ c.live := by
    rw [hf.live]
    exact List.mem_map_of_mem hx
  exact ⟨⟨_, hf.fill hxc v, rfl⟩, hslots, hstart, hroomy⟩

/-- **The live payloads fit into the heap** behind the prologue. -/
theorem Holds.bytes_le (h : Q.Holds base ids s) :
    base + 112 + (Q.plan.live.map Prod.snd).sum ≤ s.memBrk ∧ s.memBrk ≤ base + maxHeap := by
  obtain ⟨⟨c, hf, rfl⟩, -, hstart, -⟩ := h
  have hc := hf.good.contract
  have hM := hf.good.models
  have hblk : c.heap.blkStart = base + 112 := by rw [hM.blk, ← hM.start, hstart]
  have hlimit := hM.le_max
  rw [← hM.brk, hf.limit] at hlimit
  have hle : c.heap.blkStart ≤ c.heap.memBrk := by
    rw [hM.blk, hM.brk]
    exact hM.repBy.rep.tiles.le
  have hsum := sum_le_card_of_disjoint hc.disjoint
    (S := Finset.Ico c.heap.blkStart c.heap.memBrk) fun x hx a ha => by
      have hin := hc.within x hx
      rw [Finset.mem_Ico] at ha ⊢
      omega
  have hmap : c.live.map Prod.snd = Q.plan.live.map Prod.snd := by
    rw [hf.live, List.map_map]
    rfl
  rw [Nat.card_Ico, hblk, hmap] at hsum
  omega

end Planned

/-- The array holds, for every id, what `f` makes of its last block. -/
def Stored (f : ℕ × ℕ → ℕ) (slot : ℤ → Option (ℕ × ℕ)) (array : List ℕ) : Prop :=
  ∀ id x, slot id = some x → load array id = .ok (f x)

theorem Stored.set {f : ℕ × ℕ → ℕ} {slot : ℤ → Option (ℕ × ℕ)} {array : List ℕ}
    (h : Stored f slot array) {id : ℤ} (h0 : 0 ≤ id) (hlt : id.toNat < array.length)
    (x : ℕ × ℕ) : Stored f (Function.update slot id (some x)) (array.set id.toNat (f x)) := by
  intro id' y hy
  by_cases he : id' = id
  · subst he
    rw [Function.update_self, Option.some.injEq] at hy
    subst hy
    exact load_eq_ok.mpr ⟨h0, List.getElem?_set_self hlt⟩
  · rw [Function.update_of_ne he] at hy
    obtain ⟨h0', hget⟩ := load_eq_ok.mp (h id' y hy)
    refine load_eq_ok.mpr ⟨h0', ?_⟩
    rwa [List.getElem?_set_ne fun hi => he (by omega)]

/-- **The evaluation is where the plan says.** -/
structure Agrees (base n : ℕ) (Q : Planned) (ids : List ℤ) (e : Eval mm) : Prop where
  holds : Q.Holds base ids e.state
  points : Stored (fun x => x.1 + base) Q.slot e.blocks
  length : e.blocks.length = n

section

variable {base n opnum : ℕ} {Q Q' : Planned} {ids : List ℤ} {e e' : Eval mm} {op : Op}

/-- **`eval_mm_valid` follows the plan**: what it lets pass, the plan serves. -/
theorem Agrees.validStep (h : Agrees base n Q ids e) (hlegal : op.Legal ids) (hin : op.InBounds n)
    (hno : op.type ≠ .realloc) (hok : validStep opnum e op = .ok e') :
    ∃ Q', Q.step op = some Q' ∧ Agrees base n Q' (op.after ids) e' := by
  obtain ⟨hint, hlegal⟩ := hlegal
  obtain ⟨hbounds, hpos⟩ := hin
  cases htype : op.type with
  | alloc =>
    simp only [htype] at hlegal hpos
    have hpos := hpos (by simp)
    simp only [Driver.validStep, htype, Eval.remember, bind_eq_ok, ensure_eq_ok, exists_const,
      orStop_eq_ok, store_eq_ok, pure_eq_ok] at hok
    obtain ⟨⟨p, s⟩, hm, hne, _, -, -, _, ⟨-, rfl⟩, _, ⟨-, rfl⟩, rfl⟩ := hok
    rcases h.holds.alloc htype hlegal hpos hint with
      ⟨-, hm'⟩ | ⟨o, s', Q', hm', -, hstep, hslot, hholds⟩
    · exact absurd (congrArg Prod.fst (Option.some.inj (hm.symm.trans hm'))) hne
    · obtain ⟨rfl, rfl⟩ := Prod.mk.inj (Option.some.inj (hm.symm.trans hm'))
      obtain ⟨x, hx, hxs⟩ := hholds.slot_of_mem (List.mem_cons_self ..)
      rw [hslot, Function.update_self, Option.some.injEq] at hxs
      subst hxs
      refine ⟨Q', hstep, ?_, ?_, ?_⟩
      · simp only [Op.after, htype]
        rw [← toSize_eq hpos hint]
        exact hholds.fill hx _
      · rw [hslot]
        exact h.points.set hbounds.1 (h.length ▸ hbounds.2) _
      · rw [List.length_set, h.length]
  | realloc => exact absurd htype hno
  | free =>
    simp only [htype] at hlegal
    simp only [Driver.validStep, htype, bind_eq_ok, orStop_eq_ok, pure_eq_ok] at hok
    obtain ⟨p, hload, s, hm, rfl⟩ := hok
    obtain ⟨x, s', Q', hx, hm', hstep, hslot, hholds⟩ := h.holds.free htype hlegal
    obtain rfl : p = x.1 + base := by
      have hload' := h.points _ _ hx
      rw [hload, Except.ok.injEq] at hload'
      exact hload'
    obtain rfl : s = s' := Option.some.inj (hm.symm.trans hm')
    refine ⟨Q', hstep, ?_, hslot ▸ h.points, h.length⟩
    simpa only [Op.after, htype] using hholds

/-- **`eval_mm_speed` follows the plan**: what the plan serves, it serves. -/
theorem Agrees.speedStep (h : Agrees base n Q ids e) (hlegal : op.Legal ids)
    (hin : op.InBounds n) (hstep : Q.step op = some Q') :
    ∃ e', speedStep e op = .ok e' ∧ Agrees base n Q' (op.after ids) e' ∧
      e'.blockSizes = e.blockSizes := by
  obtain ⟨hint, hlegal⟩ := hlegal
  obtain ⟨hbounds, hpos⟩ := hin
  cases htype : op.type with
  | alloc =>
    simp only [htype] at hlegal hpos
    rcases h.holds.alloc htype hlegal (hpos (by simp)) hint with
      ⟨hnone, -⟩ | ⟨o, s, Q₁, hm, hne, hstep₁, hslot, hholds⟩
    · rw [hstep] at hnone
      cases hnone
    · obtain rfl : Q' = Q₁ := Option.some.inj (hstep.symm.trans hstep₁)
      refine ⟨{ e with state := s, blocks := e.blocks.set op.index.toNat (o + base) }, ?_,
        ⟨?_, ?_, ?_⟩, rfl⟩
      · simp only [Driver.speedStep, htype, bind_eq_ok, ensure_eq_ok, exists_const, orStop_eq_ok,
          store_eq_ok, pure_eq_ok]
        exact ⟨_, hm, hne, _, ⟨⟨hbounds.1, h.length ▸ hbounds.2⟩, rfl⟩, rfl⟩
      · simpa only [Op.after, htype] using hholds
      · rw [hslot]
        exact h.points.set hbounds.1 (h.length ▸ hbounds.2) _
      · rw [List.length_set, h.length]
  | realloc =>
    simp only [Planned.step, htype] at hstep
    cases hstep
  | free =>
    simp only [htype] at hlegal
    obtain ⟨x, s, Q₁, hx, hm, hstep₁, hslot, hholds⟩ := h.holds.free htype hlegal
    obtain rfl : Q' = Q₁ := Option.some.inj (hstep.symm.trans hstep₁)
    refine ⟨{ e with state := s }, ?_, ⟨?_, hslot ▸ h.points, h.length⟩, rfl⟩
    · simp only [Driver.speedStep, htype, bind_eq_ok, orStop_eq_ok, pure_eq_ok]
      exact ⟨_, h.points _ _ hx, s, hm, rfl⟩
    · simpa only [Op.after, htype] using hholds

/-- `eval_mm_valid` follows the plan through the whole trace. -/
theorem Agrees.validLoop {ops : List Op} : ∀ {opnum : ℕ} {Q : Planned} {ids : List ℤ}
    {e e' : Eval mm}, Agrees base n Q ids e → LegalOps ids ops →
    (∀ op ∈ ops, op.InBounds n ∧ op.type ≠ .realloc) → validLoop opnum e ops = .ok e' →
    ∃ Q', ops.foldlM Planned.step Q = some Q' ∧ Agrees base n Q' (liveAfter ids ops) e' := by
  induction ops with
  | nil =>
    intro _ Q _ _ _ h _ _ hok
    cases hok
    exact ⟨Q, rfl, h⟩
  | cons op ops ih =>
    intro opnum Q ids e e' h hlegal hin hok
    obtain ⟨hin₀, hin⟩ := List.forall_mem_cons.mp hin
    obtain ⟨e₁, hs, hok⟩ := bind_eq_ok.mp hok
    obtain ⟨Q₁, hstep, h₁⟩ := h.validStep hlegal.1 hin₀.1 hin₀.2 hs
    obtain ⟨Q', hrun, h'⟩ := ih h₁ hlegal.2 hin hok
    exact ⟨Q', by rw [List.foldlM_cons, hstep]; exact hrun, h'⟩

/-- `eval_mm_speed` follows the plan through the whole trace. -/
theorem Agrees.speedLoop {ops : List Op} : ∀ {Q Q' : Planned} {ids : List ℤ} {e : Eval mm},
    Agrees base n Q ids e → LegalOps ids ops → (∀ op ∈ ops, op.InBounds n) →
    ops.foldlM Planned.step Q = some Q' →
    ∃ e', ops.foldlM Driver.speedStep e = .ok e' ∧ Agrees base n Q' (liveAfter ids ops) e' := by
  induction ops with
  | nil =>
    intro Q Q' _ e h _ _ hrun
    cases hrun
    exact ⟨e, rfl, h⟩
  | cons op ops ih =>
    intro Q Q' ids e h hlegal hin hrun
    obtain ⟨hin₀, hin⟩ := List.forall_mem_cons.mp hin
    rw [List.foldlM_cons] at hrun
    obtain ⟨Q₁, hstep, hrun⟩ := Option.bind_eq_some_iff.mp hrun
    obtain ⟨e₁, hs, h₁, -⟩ := h.speedStep hlegal.1 hin₀ hstep
    obtain ⟨e', hok, h'⟩ := ih h₁ hlegal.2 hin hrun
    exact ⟨e', by rw [List.foldlM_cons]; exact bind_eq_ok.mpr ⟨e₁, hs, hok⟩, h'⟩

/-! ## Utilization -/

/-- The ids that are live after the request, with the sizes that were asked for. -/
def Op.hold (held : List (ℤ × ℤ)) (op : Op) : List (ℤ × ℤ) :=
  match op.type with
  | .alloc => (op.index, op.size) :: held
  | .realloc => (op.index, op.size) :: held.filter fun y => y.1 ≠ op.index
  | .free => held.filter fun y => y.1 ≠ op.index

/-- The bytes of the live payloads. -/
def bytes (held : List (ℤ × ℤ)) : ℤ := (held.map Prod.snd).sum

/-- The most bytes that are live at once. -/
def peak : List (ℤ × ℤ) → List Op → ℤ
  | held, [] => bytes held
  | held, op :: ops => max (bytes held) (peak (op.hold held) ops)

/-- The ids and the sizes that are held are those of the plan. -/
structure Named (Q : Planned) (ids : List ℤ) (held : List (ℤ × ℤ)) : Prop where
  names : held.map Prod.fst = ids
  nodup : ids.Nodup
  slot : ∀ y ∈ held, (0 < y.2 ∧ y.2 < 2 ^ 31) ∧ ∃ o, Q.slot y.1 = some (o, y.2.toNat)

/-- What `eval_mm_util` keeps count of. -/
structure Counts (n : ℕ) (Q : Planned) (held : List (ℤ × ℤ)) (u : Util mm) : Prop where
  sizes : Stored Prod.snd Q.slot u.eval.blockSizes
  length : u.eval.blockSizes.length = n
  total : u.totalSize = bytes held
  max : bytes held ≤ u.maxTotalSize

variable {u : Util mm} {held : List (ℤ × ℤ)} {id size : ℤ} {s : Heap}

/-- **The bytes that are counted fit into the heap.** -/
theorem Named.bytes_le (hn : Named Q ids held) (h : Q.Holds base ids s) :
    0 ≤ bytes held ∧ base + 112 + bytes held ≤ s.memBrk ∧ bytes held < 2 ^ 31 := by
  have hslots := h.slots
  rw [← hn.names, List.map_map] at hslots
  have hmap := congrArg (List.map fun o : Option (ℕ × ℕ) => ((o.map Prod.snd).getD 0 : ℤ)) hslots
  have hheld : (held.map (Q.slot ∘ Prod.fst)).map
      (fun o : Option (ℕ × ℕ) => ((o.map Prod.snd).getD 0 : ℤ)) = held.map Prod.snd := by
    rw [List.map_map]
    refine List.map_congr_left fun y hy => ?_
    obtain ⟨⟨hpos, -⟩, o, ho⟩ := hn.slot y hy
    simp only [Function.comp_apply, ho, Option.map_some, Option.getD_some]
    omega
  have hbytes : bytes held = ((Q.plan.live.map Prod.snd).sum : ℕ) := by
    rw [bytes, ← hheld, hmap, List.map_map, Nat.cast_list_sum, List.map_map]
    rfl
  have hle := h.bytes_le
  have hmax : maxHeap < 2 ^ 31 := by decide
  rw [hbytes]
  omega

theorem Named.alloc (hn : Named Q ids held) (hnew : id ∉ ids) (hsize : 0 < size ∧ size < 2 ^ 31)
    {o : ℕ} (hslot : Q'.slot = Function.update Q.slot id (some (o, size.toNat))) :
    Named Q' (id :: ids) ((id, size) :: held) := by
  refine ⟨by rw [List.map_cons, hn.names], List.nodup_cons.mpr ⟨hnew, hn.nodup⟩,
    List.forall_mem_cons.mpr ⟨⟨hsize, o, by rw [hslot, Function.update_self]⟩, fun y hy => ?_⟩⟩
  have hne : y.1 ≠ id := fun he => hnew (he ▸ hn.names ▸ List.mem_map_of_mem hy)
  rw [hslot, Function.update_of_ne hne]
  exact hn.slot y hy

theorem Named.free (hn : Named Q ids held) (hslot : Q'.slot = Q.slot) :
    Named Q' (ids.erase id) (held.filter fun y => y.1 ≠ id) := by
  refine ⟨?_, hn.nodup.erase id, fun y hy => hslot ▸ hn.slot y (List.mem_of_mem_filter hy)⟩
  rw [hn.nodup.erase_eq_filter, ← hn.names, List.filter_map]
  congr 1
  refine List.filter_congr fun y _ => ?_
  simp [bne, Bool.beq_eq_decide_eq]

/-- The bytes that are left when a block is given back. -/
theorem bytes_filter : ∀ {held : List (ℤ × ℤ)}, (held.map Prod.fst).Nodup → (id, size) ∈ held →
    bytes (held.filter fun y => y.1 ≠ id) = bytes held - size := by
  intro held
  induction held with
  | nil => exact fun _ hm => absurd hm List.not_mem_nil
  | cons y held ih =>
    intro hnd hmem
    obtain ⟨hy, hnd⟩ := List.nodup_cons.mp hnd
    by_cases hid : y.1 = id
    · obtain rfl : (id, size) = y := by
        rcases List.mem_cons.mp hmem with he | hm
        · exact he
        · exact absurd (List.mem_map_of_mem (f := Prod.fst) hm) (by rwa [hid] at hy)
      have hrest : held.filter (fun y => y.1 ≠ id) = held :=
        List.filter_eq_self.mpr fun z hz => decide_eq_true fun he =>
          hy (List.mem_map.mpr ⟨z, hz, he⟩)
      rw [List.filter_cons_of_neg (by simp), hrest, bytes, bytes, List.map_cons, List.sum_cons]
      omega
    · have hm : (id, size) ∈ held := (List.mem_cons.mp hmem).resolve_left fun he => hid (he ▸ rfl)
      have ih := ih hnd hm
      rw [List.filter_cons_of_pos (by simpa using hid), bytes, List.map_cons, List.sum_cons,
        ← bytes, ih, bytes, bytes, List.map_cons, List.sum_cons]
      omega

/-- A sum that is an `int`. -/
theorem grow_eq {n : ℤ} (h : -2 ^ 31 ≤ u.totalSize + n ∧ u.totalSize + n < 2 ^ 31) :
    u.grow n = .ok { u with totalSize := u.totalSize + n } := by
  rw [Util.grow]
  exact bind_eq_ok.mpr ⟨⟨⟩, ensure_eq_ok.mpr h, rfl⟩

theorem raise_max : u.raise.maxTotalSize = max u.maxTotalSize u.totalSize := by
  simp only [Util.raise]
  split <;> omega

theorem Planned.slot_of_free (htype : op.type = .free) (hstep : Q.step op = some Q') :
    Q'.slot = Q.slot := by
  simp only [Planned.step, htype] at hstep
  obtain ⟨x, -, rfl⟩ := Option.map_eq_some_iff.mp hstep
  rfl

theorem Planned.slot_of_alloc (htype : op.type = .alloc) (hstep : Q.step op = some Q') :
    ∃ o, Q'.slot = Function.update Q.slot op.index (some (o, toSize op.size)) := by
  simp only [Planned.step, htype] at hstep
  split at hstep
  · cases hstep
  · cases hstep
    exact ⟨_, rfl⟩

/-- **`eval_mm_util` follows the plan**, and counts the bytes that are held. -/
theorem Agrees.utilStep (h : Agrees base n Q ids u.eval) (hc : Counts n Q held u)
    (hn : Named Q ids held) (hlegal : op.Legal ids) (hin : op.InBounds n)
    (hstep : Q.step op = some Q') :
    ∃ u', utilStep u op = .ok u' ∧ Agrees base n Q' (op.after ids) u'.eval ∧
      Counts n Q' (op.hold held) u' ∧ Named Q' (op.after ids) (op.hold held) ∧
      u'.maxTotalSize = max u.maxTotalSize (bytes (op.hold held)) := by
  obtain ⟨e', hs, h', hsizes⟩ := h.speedStep hlegal hin hstep
  obtain ⟨hint, hlegal⟩ := hlegal
  obtain ⟨hbounds, hpos⟩ := hin
  cases htype : op.type with
  | alloc =>
    simp only [htype] at hlegal hpos
    have hpos := hpos (by simp)
    obtain ⟨o, hslot⟩ := Planned.slot_of_alloc htype hstep
    simp only [Op.after, Op.hold, htype] at h' ⊢
    have hn' : Named Q' (op.index :: ids) ((op.index, op.size) :: held) :=
      hn.alloc hlegal ⟨hpos, hint⟩ (toSize_eq hpos hint ▸ hslot)
    have hbytes : bytes ((op.index, op.size) :: held) = op.size + bytes held := by
      rw [bytes, List.map_cons, List.sum_cons, bytes]
    obtain ⟨h0, -, hlt⟩ := hn'.bytes_le h'.holds
    have hlen : op.index.toNat < e'.blockSizes.length := by
      rw [hsizes, hc.length]
      exact hbounds.2
    let u₁ : Util mm := { u with
      eval := { e' with blockSizes := e'.blockSizes.set op.index.toNat (toSize op.size) } }
    have htotal : u₁.totalSize + op.size = bytes ((op.index, op.size) :: held) := by
      rw [hbytes, Int.add_comm]
      exact congrArg _ hc.total
    refine ⟨Util.raise { u₁ with totalSize := u₁.totalSize + op.size }, ?_,
      ⟨h'.holds, h'.points, h'.length⟩, ⟨?_, ?_, htotal, ?_⟩, hn', ?_⟩
    · simp only [Driver.utilStep, htype, bind_eq_ok, store_eq_ok]
      exact ⟨e', hs, _, ⟨⟨hbounds.1, hlen⟩, rfl⟩, _, grow_eq (by rw [htotal]; omega), rfl⟩
    · rw [hslot]
      exact (hsizes ▸ hc.sizes).set hbounds.1 hlen (o, toSize op.size)
    · exact List.length_set.trans (hsizes ▸ hc.length)
    · rw [raise_max, ← htotal]
      exact le_max_right _ _
    · rw [raise_max, ← htotal]
  | realloc =>
    simp only [Planned.step, htype] at hstep
    cases hstep
  | free =>
    simp only [htype] at hlegal
    have hslot := Planned.slot_of_free htype hstep
    simp only [Op.after, Op.hold, htype] at h' ⊢
    have hn' : Named Q' (ids.erase op.index) (held.filter fun y => y.1 ≠ op.index) := hn.free hslot
    obtain ⟨y, hy, hyi⟩ : ∃ y ∈ held, y.1 = op.index := by
      rw [← hn.names] at hlegal
      exact List.mem_map.mp hlegal
    obtain ⟨⟨hpos, hlt⟩, o, ho⟩ := hn.slot y hy
    have hbytes := bytes_filter (hn.names ▸ hn.nodup) (hyi ▸ hy : (op.index, y.2) ∈ held)
    have hload := hc.sizes _ _ (hyi ▸ ho)
    have hint : toInt32 y.2.toNat = y.2 := by
      rw [toInt32_of_lt (by omega)]
      omega
    obtain ⟨h0, -, hlt'⟩ := hn'.bytes_le h'.holds
    have htotal : u.totalSize + -toInt32 y.2.toNat =
        bytes (held.filter fun y => y.1 ≠ op.index) := by
      rw [hbytes, hint, hc.total]
      rfl
    refine ⟨{ u with eval := e', totalSize := u.totalSize + -toInt32 y.2.toNat }, ?_, h',
      ⟨hslot ▸ hsizes ▸ hc.sizes, hsizes ▸ hc.length, htotal, ?_⟩, hn', ?_⟩
    · simp only [Driver.utilStep, htype, bind_eq_ok]
      exact ⟨_, hload, e', hs, grow_eq (u := { u with eval := e' }) (by
        rw [show Util.totalSize _ = u.totalSize from rfl, htotal]
        omega)⟩
    · have hmax := hc.max
      dsimp only
      omega
    · have hmax := hc.max
      exact (max_eq_left (by dsimp only at *; omega)).symm

/-- `eval_mm_util` follows the plan through the whole trace. -/
theorem Agrees.utilLoop {ops : List Op} : ∀ {Q Q' : Planned} {ids : List ℤ}
    {held : List (ℤ × ℤ)} {u : Util mm}, Agrees base n Q ids u.eval → Counts n Q held u →
    Named Q ids held → LegalOps ids ops → (∀ op ∈ ops, op.InBounds n) →
    ops.foldlM Planned.step Q = some Q' →
    ∃ u', ops.foldlM Driver.utilStep u = .ok u' ∧
      Agrees base n Q' (liveAfter ids ops) u'.eval ∧
      u'.totalSize = bytes (ops.foldl Op.hold held) ∧
      u'.maxTotalSize = max u.maxTotalSize (peak held ops) ∧
      112 + peak held ops ≤ Q'.plan.layout.brk := by
  induction ops with
  | nil =>
    intro Q Q' ids held u h hc hn _ _ hrun
    cases hrun
    have hle := (hn.bytes_le h.holds).2.1
    rw [h.holds.brk] at hle
    exact ⟨u, rfl, h, hc.total, (max_eq_left hc.max).symm, by rw [peak]; omega⟩
  | cons op ops ih =>
    intro Q Q' ids held u h hc hn hlegal hin hrun
    obtain ⟨hin₀, hin⟩ := List.forall_mem_cons.mp hin
    have hgrows := Planned.brk_le_of_run hrun
    rw [List.foldlM_cons] at hrun
    obtain ⟨Q₁, hstep, hrun⟩ := Option.bind_eq_some_iff.mp hrun
    obtain ⟨u₁, hs, h₁, hc₁, hn₁, hmax₁⟩ := h.utilStep hc hn hlegal.1 hin₀ hstep
    obtain ⟨u', hok, h', htotal, hmax, hpeak⟩ := ih h₁ hc₁ hn₁ hlegal.2 hin hrun
    have hle := (hn.bytes_le h.holds).2.1
    rw [h.holds.brk] at hle
    refine ⟨u', by rw [List.foldlM_cons]; exact bind_eq_ok.mpr ⟨u₁, hs, hok⟩, h', htotal, ?_, ?_⟩
    · -- what was live before is below the maximum already
      have hheld : bytes (op.hold held) ≤ peak (op.hold held) ops := by
        cases ops <;> rw [peak]
        exact le_max_left _ _
      have hmaxu := hc.max
      rw [hmax, hmax₁, peak]
      omega
    · rw [peak]
      omega

end

/-! ## The three evaluations -/

section

variable {t : Trace} {s s' : Heap} {base : ℕ} {e : Eval mm}

/-- What holds of the heap between two evaluations. -/
structure Ready (base : ℕ) (s : Heap) : Prop where
  startBrk : s.memStartBrk = base
  limit : s.memMaxAddr = base + maxHeap
  roomy : Roomy s

/-- Every evaluation starts as the plan does. -/
theorem Ready.start_agrees (h : Ready base s) (hbase : 8 ∣ base) (hmax : base + maxHeap < 2 ^ 32)
    (t : Trace) (failed : Failure) :
    ∃ e, start (P := mm) t s failed = .ok e ∧
      Agrees base t.blocks.length .init [] e ∧ e.blockSizes = t.blockSizes := by
  obtain ⟨h₀, e, hM, hlim, harith⟩ := mmInit_reset h.startBrk h.limit hbase hmax
  have hf : Follows base (Client.start h₀) .init :=
    replay.Started.follows ⟨s, h₀, h.startBrk, h.limit, rfl, e, rfl⟩ hbase hmax
  refine ⟨⟨h₀, [], t.blocks, t.blockSizes⟩, ?_, ⟨⟨⟨_, hf, rfl⟩, rfl, ?_, ?_⟩, ?_, rfl⟩, rfl⟩
  · simp only [start, bind_eq_ok, orStop_eq_ok, ensure_eq_ok, exists_const, pure_eq_ok]
    exact ⟨(0, h₀), e, le_refl _, rfl⟩
  · rw [hM.start, initLayout, Layout.grow_hl]
    rfl
  · have hroomy := h.roomy
    rwa [Roomy, h.limit, ← hlim, ← harith] at hroomy
  · intro id x hx
    cases hx

/-- What a valid verdict says of the plan of the trace. -/
theorem plan_of_valid (hs : Ready base s) (hbase : 8 ∣ base) (hmax : base + maxHeap < 2 ^ 32)
    (ht : t.Proper) (hno : ∀ op ∈ t.ops, op.type ≠ .realloc)
    (hok : evalMmValid (P := mm) t s = .ok e) :
    ∃ Q, t.ops.foldlM Planned.step .init = some Q ∧
      Agrees base t.numIds.toNat Q (liveAfter [] t.ops) e := by
  obtain ⟨e₀, h₀, hok⟩ := bind_eq_ok.mp hok
  obtain ⟨e₁, h₁, hagrees, -⟩ := hs.start_agrees hbase hmax t (.error 0 .initFailed)
  obtain rfl : e₀ = e₁ := Except.ok.inj (h₀.symm.trans h₁)
  rw [ht.blocks] at hagrees
  exact hagrees.validLoop ht.legal (fun op hop => ⟨ht.inBounds op hop, hno op hop⟩) hok

/-- Every block of the trace has got a slot. -/
theorem Planned.slot_of_run {ops : List Op} : ∀ {Q Q' : Planned}, ops.foldlM step Q = some Q' →
    ∀ id, (Q.slot id).isSome ∨ (∃ op ∈ ops, op.type = .alloc ∧ op.index = id) →
      (Q'.slot id).isSome := by
  induction ops with
  | nil =>
    intro Q Q' h id hid
    cases h
    rcases hid with hid | ⟨op, hop, -⟩
    · exact hid
    · exact absurd hop List.not_mem_nil
  | cons op ops ih =>
    intro Q Q' h id hid
    rw [List.foldlM_cons] at h
    obtain ⟨Q₁, hstep, h⟩ := Option.bind_eq_some_iff.mp h
    refine ih h id ?_
    cases htype : op.type with
    | alloc =>
      obtain ⟨o, hslot⟩ := slot_of_alloc htype hstep
      by_cases hi : id = op.index
      · subst hi
        rw [hslot, Function.update_self]
        exact .inl rfl
      · rw [hslot, Function.update_of_ne hi]
        refine hid.imp_right ?_
        rintro ⟨o', ho', ha, he⟩
        rcases List.mem_cons.mp ho' with rfl | ho'
        · exact absurd he.symm hi
        · exact ⟨o', ho', ha, he⟩
    | realloc =>
      simp only [step, htype] at hstep
      cases hstep
    | free =>
      rw [slot_of_free htype hstep]
      refine hid.imp_right ?_
      rintro ⟨o', ho', ha, he⟩
      rcases List.mem_cons.mp ho' with rfl | ho'
      · rw [htype] at ha
        cases ha
      · exact ⟨o', ho', ha, he⟩

/-- Evaluations that agree with one plan have got the same pointers. -/
theorem Agrees.same_pointers {base n n' : ℕ} {Q : Planned} {ids : List ℤ} {e e' : Eval mm}
    {ops : List Op} (hrun : ops.foldlM Planned.step .init = some Q) (h : Agrees base n Q ids e)
    (h' : Agrees base n' Q ids e') {op : Op} (hop : op ∈ ops) (ha : op.type = .alloc) :
    load e'.blocks op.index = load e.blocks op.index := by
  obtain ⟨x, hx⟩ := Option.isSome_iff_exists.mp
    (Planned.slot_of_run hrun op.index (.inr ⟨op, hop, ha, rfl⟩))
  rw [h.points _ _ hx, h'.points _ _ hx]

/-- **`eval_mm_speed` after `eval_mm_valid`** never meets `app_error` where nothing is
reallocated and no extension can wrap (`Roomy`): on a heap that holds anything, and with
anything in the arrays of the trace, it gets the pointers that were validated, and the heap
grows as far. -/
theorem speed_of_valid (hs : Ready base s) (hs' : Ready base s') (hbase : 8 ∣ base)
    (hmax : base + maxHeap < 2 ^ 32) (ht : t.Proper) (hno : ∀ op ∈ t.ops, op.type ≠ .realloc)
    (hok : evalMmValid (P := mm) t s = .ok e) {blocks sizes : List ℕ}
    (hblocks : blocks.length = t.blocks.length) :
    ∃ e', evalMmSpeed (P := mm) { t with blocks := blocks, blockSizes := sizes } s' = .ok e' ∧
      mm.brk e'.state = mm.brk e.state ∧
      ∀ op ∈ t.ops, op.type = .alloc → load e'.blocks op.index = load e.blocks op.index := by
  obtain ⟨Q, hrun, h⟩ := plan_of_valid hs hbase hmax ht hno hok
  obtain ⟨e₁, h₁, hagrees, -⟩ := hs'.start_agrees hbase hmax
    { t with blocks := blocks, blockSizes := sizes } .appError
  rw [hblocks, ht.blocks] at hagrees
  obtain ⟨e', he', h'⟩ := hagrees.speedLoop ht.legal ht.inBounds hrun
  exact ⟨e', bind_eq_ok.mpr ⟨e₁, h₁, he'⟩, h'.holds.brk.trans h.holds.brk.symm,
    fun op hop ha => h.same_pointers hrun h' hop ha⟩

/-- The heap as `mem_init` leaves it is ready. -/
theorem ready_memInit {arith : PtrArith} (mem : Mem)
    (h : arith = .exact ∨ base + maxHeap + 2 ^ 31 ≤ 2 ^ 32) :
    Ready base (memInit arith base mem) := ⟨rfl, rfl, h⟩

theorem speed_of_valid_balanced : ∃ e e',
    evalMmValid (P := mm) balancedTrace (memInit .wrap32 1024 fun _ => 0) = .ok e ∧
      evalMmSpeed (P := mm) { balancedTrace with blocks := [3, 4], blockSizes := [] }
        (memInit .wrap32 1024 fun _ => 7) = .ok e' ∧
      load e'.blocks 1 = load e.blocks 1 := by
  have hvalid : (evalMmValid (P := mm) balancedTrace (memInit .wrap32 1024 fun _ => 0)).isOk =
      true := by decide +kernel
  cases hok : evalMmValid (P := mm) balancedTrace (memInit .wrap32 1024 fun _ => 0) with
  | error f =>
    rw [hok] at hvalid
    cases hvalid
  | ok e =>
    have hlen : [3, 4].length = balancedTrace.blocks.length := rfl
    obtain ⟨e', he', -, hload⟩ := speed_of_valid (ready_memInit _ (.inr (by decide)))
      (ready_memInit (fun _ => 7) (.inr (by decide))) (by decide) (by decide)
      ⟨rfl, rfl, by decide, by decide⟩ (by decide) hok hlen
    exact ⟨e, e', rfl, he', hload ⟨.alloc, 1, 100⟩ (by decide) rfl⟩

/-- **`eval_mm_util` after `eval_mm_valid`** never meets `app_error` and no sum overflows, where
nothing is reallocated and no extension can wrap (`Roomy`): `max_total_size` is the most bytes that are live at once, and they fit into the heap next
to the prologue, so the utilization is below 1. -/
theorem util_of_valid (hs : Ready base s) (hs' : Ready base s') (hbase : 8 ∣ base)
    (hmax : base + maxHeap < 2 ^ 32) (ht : t.Proper) (hno : ∀ op ∈ t.ops, op.type ≠ .realloc)
    (hok : evalMmValid (P := mm) t s = .ok e) {blocks sizes : List ℕ}
    (hblocks : blocks.length = t.blocks.length) (hsizes : sizes.length = t.blockSizes.length) :
    ∃ u heapsize, evalMmUtil (P := mm) { t with blocks := blocks, blockSizes := sizes } s' =
        .ok (u, heapsize) ∧
      u.totalSize = bytes (t.ops.foldl Op.hold []) ∧ u.maxTotalSize = peak [] t.ops ∧
      heapsize = mm.brk e.state - base ∧ 112 + u.maxTotalSize ≤ heapsize ∧
      ∀ op ∈ t.ops, op.type = .alloc → load u.eval.blocks op.index = load e.blocks op.index := by
  obtain ⟨Q, hrun, h⟩ := plan_of_valid hs hbase hmax ht hno hok
  obtain ⟨e₁, h₁, hagrees, hsizes₁⟩ := hs'.start_agrees hbase hmax
    { t with blocks := blocks, blockSizes := sizes } .appError
  rw [hblocks, ht.blocks] at hagrees
  have hcounts : Counts t.numIds.toNat .init [] ⟨e₁, 0, 0⟩ := by
    refine ⟨fun id x hx => ?_, ?_, rfl, le_refl _⟩
    · cases hx
    · rw [hsizes₁]
      exact hsizes.trans ht.blockSizes
  have hnamed : Named .init [] [] := ⟨rfl, List.nodup_nil, fun y hy => absurd hy List.not_mem_nil⟩
  obtain ⟨u, hu, h', htotal, hpeak, hle⟩ :=
    hagrees.utilLoop hcounts hnamed ht.legal ht.inBounds hrun
  have hpos : (0 : ℤ) ≤ peak [] t.ops := by
    cases t.ops <;> rw [peak]
    · exact le_refl _
    · exact le_max_left _ _
  refine ⟨u, _, bind_eq_ok.mpr ⟨e₁, h₁, bind_eq_ok.mpr ⟨u, hu, rfl⟩⟩, htotal,
    hpeak.trans (max_eq_right hpos), ?_, ?_, fun op hop ha => h.same_pointers hrun h' hop ha⟩
  · have hstart : mm.heapLo u.eval.state = base := h'.holds.start
    have hbrk : mm.brk u.eval.state = mm.brk e.state := h'.holds.brk.trans h.holds.brk.symm
    rw [hstart, hbrk]
  · have hstart : mm.heapLo u.eval.state = base := h'.holds.start
    have hbrk : mm.brk u.eval.state = Q.plan.layout.brk + base := h'.holds.brk
    rw [hpeak, max_eq_right hpos, hstart, hbrk, Nat.add_sub_cancel]
    exact hle

theorem util_of_valid_balanced : ∃ e u heapsize,
    evalMmValid (P := mm) balancedTrace (memInit .wrap32 1024 fun _ => 0) = .ok e ∧
      evalMmUtil (P := mm) { balancedTrace with blocks := [3, 4], blockSizes := [5, 6] }
        (memInit .wrap32 1024 fun _ => 7) = .ok (u, heapsize) ∧
      u.maxTotalSize = 5100 ∧ 5212 ≤ heapsize := by
  have hvalid : (evalMmValid (P := mm) balancedTrace (memInit .wrap32 1024 fun _ => 0)).isOk =
      true := by decide +kernel
  cases hok : evalMmValid (P := mm) balancedTrace (memInit .wrap32 1024 fun _ => 0) with
  | error f =>
    rw [hok] at hvalid
    cases hvalid
  | ok e =>
    have hlen : [3, 4].length = balancedTrace.blocks.length := rfl
    have hlen' : [5, 6].length = balancedTrace.blockSizes.length := rfl
    obtain ⟨u, heapsize, hu, -, hpeak, -, hle, -⟩ :=
      util_of_valid (ready_memInit _ (.inr (by decide)))
        (ready_memInit (fun _ => 7) (.inr (by decide))) (by decide) (by decide)
        ⟨rfl, rfl, by decide, by decide⟩ (by decide) hok hlen hlen'
    have hmax : u.maxTotalSize = 5100 := hpeak.trans (by decide)
    exact ⟨e, u, heapsize, rfl, hu, hmax, by omega⟩

end

end Driver

end SysProgLab
