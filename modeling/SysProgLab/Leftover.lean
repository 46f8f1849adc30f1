import SysProgLab.Measuring

/-!
# What a trace leaves behind

The allocated blocks of the heap are those of the live ids, and no others: nothing leaks
(`leftover`). So a trace that frees all that it has allocated leaves one free block, which
fills the heap, whatever the order of its requests.
-/

namespace SysProgLab

/-- Every allocated block is the one of a live payload. -/
def Plan.Covered (P : Plan) : Prop :=
  ∀ b ∈ P.layout.blocks, b.alloc = true → ∃ x ∈ P.live, x.1 = b.addr

theorem Layout.mem_move {L : Layout} {base : ℕ} {b : Block} :
    b.move base ∈ (L.move base).blocks ↔ b ∈ L.blocks :=
  List.mem_map_of_injective (Block.move_injective base)

namespace Follows

variable {base : ℕ} {s : Client} {P P' : Plan} {size o p : ℕ}

/-- `mm_malloc` allocates the block of the payload that it returns. -/
theorem covered_malloc (hf : Follows base s P) (hsize : size < 2 ^ 31)
    (hsound : Client.ExtendsOk s.heap size) (hP : P.malloc size = (some o, P'))
    (hc : P.Covered) : P'.Covered := by
  rw [Plan.malloc] at hP
  split at hP
  · cases hP
  next h0 =>
  split at hP
  · cases hP
  next b L hL =>
  cases hP
  have hM := hf.good.models
  have hm := hM.mmMalloc h0 (by omega) (Client.ExtendsOk.noWrap hM hsound)
  rw [hf.limit, Layout.malloc_move, hL] at hm
  obtain ⟨_, -, -, -, hadds, -⟩ := hm
  intro c hcm hca
  rcases (hadds.mem (c.move base) hca).mp (Layout.mem_move.mpr hcm) with hold | hnew
  · obtain ⟨x, hx, hxc⟩ := hc c (Layout.mem_move.mp hold) hca
    exact ⟨x, List.mem_cons_of_mem _ hx, hxc⟩
  · have haddr := congrArg Block.addr hnew
    rw [carved_addr] at haddr
    exact ⟨(b.addr, size), List.mem_cons_self .., (Nat.add_right_cancel haddr).symm⟩

/-- `mm_free` frees the block of the payload that it is given. -/
theorem covered_free (hf : Follows base s P) (x : ℕ × ℕ) (hc : P.Covered) :
    (P.free x.1).Covered := by
  have hrep := hf.good.models.repBy
  rw [Plan.free]
  split
  · exact hc
  next b hb =>
  obtain hbx : b.addr = x.1 := by simpa using List.find?_some hb
  have hbm : b.move base ∈ (P.layout.move base).blocks :=
    Layout.mem_move.mpr (List.mem_of_find?_eq_some hb)
  intro c hcm hca
  have hcm' : c.move base ∈ ((P.layout.free b).move base).blocks := Layout.mem_move.mpr hcm
  rw [← Layout.free_move, hrep.mem_free (c := c.move base) hbm hca] at hcm'
  obtain ⟨y, hy, hyc⟩ := hc c (Layout.mem_move.mp hcm'.1) hca
  refine ⟨y, List.mem_filter.mpr ⟨hy, decide_eq_true fun he => hcm'.2 ?_⟩, hyc⟩
  exact hrep.rep.eq_of_addr_eq hcm'.1 hbm (by simp only [Block.move_addr]; omega)

end Follows

/-- Where no two free blocks are adjacent and all are free, there is one block. -/
theorem NoAdj.eq_singleton {bs : List Block} (h : NoAdj bs) (hfree : ∀ b ∈ bs, b.alloc = false)
    (hne : bs ≠ []) : ∃ b, bs = [b] := by
  match bs with
  | [] => exact absurd rfl hne
  | [b] => exact ⟨b, rfl⟩
  | b :: c :: bs =>
    have hb := hfree b (List.mem_cons_self ..)
    have hc := hfree c (List.mem_cons_of_mem _ (List.mem_cons_self ..))
    rcases (List.isChain_cons_cons.mp h).1 with ha | ha
    · rw [hb] at ha
      cases ha
    · rw [hc] at ha
      cases ha

namespace Driver

section

variable {base n : ℕ} {Q Q' : Planned} {ids : List ℤ} {s : Heap} {op : Op}

theorem Planned.Holds.covered (h : Q.Holds base ids s) (hlegal : op.Legal ids)
    (hin : op.InBounds n) (hstep : Q.step op = some Q') (hc : Q.plan.Covered) :
    Q'.plan.Covered := by
  obtain ⟨hint, hlegal⟩ := hlegal
  cases htype : op.type with
  | alloc =>
    have hpos := hin.2 (by simp [htype])
    have hsize := toSize_eq hpos hint
    obtain ⟨⟨c, hf, rfl⟩, -, -, hroomy⟩ := h
    simp only [Planned.step, htype] at hstep
    split at hstep
    · cases hstep
    next hP =>
    cases hstep
    exact hf.covered_malloc (by omega) (hroomy.extendsOk hf.good.models) hP hc
  | realloc =>
    simp only [Planned.step, htype] at hstep
    cases hstep
  | free =>
    simp only [htype] at hlegal
    obtain ⟨x, hx, hslot⟩ := h.slot_of_mem hlegal
    obtain ⟨⟨c, hf, rfl⟩, -⟩ := h
    simp only [Planned.step, htype, hslot, Option.map_some, Option.some.injEq] at hstep
    subst hstep
    exact hf.covered_free _ hc

theorem Agrees.covered {ops : List Op} : ∀ {opnum : ℕ} {Q Q' : Planned} {ids : List ℤ}
    {e e' : Eval mm}, Agrees base n Q ids e → LegalOps ids ops →
    (∀ op ∈ ops, op.InBounds n ∧ op.type ≠ .realloc) → Driver.validLoop opnum e ops = .ok e' →
    ops.foldlM Planned.step Q = some Q' → Q.plan.Covered → Q'.plan.Covered := by
  induction ops with
  | nil =>
    intro _ Q Q' _ _ _ _ _ _ _ hrun hc
    cases hrun
    exact hc
  | cons op ops ih =>
    intro opnum Q Q' ids e e' h hlegal hin hok hrun hc
    obtain ⟨hin₀, hin⟩ := List.forall_mem_cons.mp hin
    obtain ⟨e₁, hs, hok⟩ := bind_eq_ok.mp hok
    obtain ⟨Q₁, hstep, h₁⟩ := h.validStep hlegal.1 hin₀.1 hin₀.2 hs
    rw [List.foldlM_cons, hstep] at hrun
    exact ih h₁ hlegal.2 hin hok hrun (h.holds.covered hlegal.1 hin₀.1 hstep hc)

end

theorem init_covered : Planned.init.plan.Covered := by
  intro b hb ha
  have hmem := (Layout.mem_grow ha).mp hb
  exact absurd hmem List.not_mem_nil

section

variable {t : Trace} {s : Heap} {base : ℕ} {e : Eval mm}

/-- **Nothing leaks** where nothing is reallocated and no extension can wrap (`Roomy`): after a
trace that is judged valid, a block of the heap is allocated
exactly if it is the one of a live id; where none is live, the heap is one free block. -/
theorem leftover (hs : Ready base s) (hbase : 8 ∣ base) (hmax : base + maxHeap < 2 ^ 32)
    (ht : t.Proper) (hno : ∀ op ∈ t.ops, op.type ≠ .realloc)
    (hok : evalMmValid (P := mm) t s = .ok e) :
    ∃ bs segs, WellFormed e.state bs segs ∧
      (∀ b ∈ bs, b.alloc = true ↔ ∃ id ∈ liveAfter [] t.ops, load e.blocks id = .ok b.addr) ∧
      (liveAfter [] t.ops = [] →
        bs = [⟨base + 112, mm.brk e.state - (base + 112), false⟩]) := by
  obtain ⟨Q, hrun, h⟩ := plan_of_valid hs hbase hmax ht hno hok
  have hin : ∀ op ∈ t.ops, op.InBounds t.numIds.toNat ∧ op.type ≠ .realloc :=
    fun op hop => ⟨ht.inBounds op hop, hno op hop⟩
  have hcov : Q.plan.Covered := by
    obtain ⟨e₀, h₀, hloop⟩ := bind_eq_ok.mp hok
    obtain ⟨e₁, h₁, hagrees, -⟩ := hs.start_agrees hbase hmax t (.error 0 .initFailed)
    obtain rfl : e₀ = e₁ := Except.ok.inj (h₀.symm.trans h₁)
    rw [ht.blocks] at hagrees
    exact hagrees.covered ht.legal hin hloop hrun init_covered
  obtain ⟨c, hf, hheap⟩ := h.holds.follows
  have hM := hf.good.models
  have hlive : ∀ b ∈ (Q.plan.layout.move base).blocks, b.alloc = true ↔
      ∃ id ∈ liveAfter [] t.ops, load e.blocks id = .ok b.addr := by
    intro b hb
    constructor
    · intro ha
      obtain ⟨b', hb', rfl⟩ := List.mem_map.mp hb
      obtain ⟨x, hx, hxb⟩ := hcov b' hb' ha
      have hmem : some x ∈ (liveAfter [] t.ops).map Q.slot := h.holds.slots ▸ List.mem_map_of_mem hx
      obtain ⟨id, hid, hslot⟩ := List.mem_map.mp hmem
      exact ⟨id, hid, (h.points _ _ hslot).trans (congrArg (fun a => Except.ok (a + base)) hxb)⟩
    · rintro ⟨id, hid, hload⟩
      obtain ⟨x, hx, hslot⟩ := h.holds.slot_of_mem hid
      have hxc : (x.1 + base, x.2) ∈ c.live := by
        rw [hf.live]
        exact List.mem_map_of_mem hx
      obtain ⟨b', hb', hba', hbx', -⟩ := hf.good.live _ hxc
      have haddr : b.addr = x.1 + base :=
        Except.ok.inj (hload.symm.trans (h.points _ _ hslot))
      rwa [hM.repBy.rep.eq_of_addr_eq hb hb' (haddr.trans hbx'.symm)]
  refine ⟨_, _, hheap ▸ hM.wellFormed, hlive, fun hdone => ?_⟩
  have hfree : ∀ b ∈ (Q.plan.layout.move base).blocks, b.alloc = false := by
    intro b hb
    by_contra ha
    obtain ⟨id, hid, -⟩ := (hlive b hb).mp (by simpa using ha)
    rw [hdone] at hid
    exact List.not_mem_nil hid
  -- the heap has been grown in `mm_init`, so it is not empty
  have hgrown : 112 + chunksize ≤ Q.plan.layout.brk := Planned.brk_le_of_run hrun
  have htiles := hM.wellFormed.tiles
  have hblk : c.heap.blkStart = base + 112 := by
    rw [hM.blk, ← hM.start, hheap, h.holds.start]
  have hbrk : c.heap.memBrk = Q.plan.layout.brk + base := hheap ▸ h.holds.brk
  rw [hblk, hbrk] at htiles
  have hne : (Q.plan.layout.move base).blocks ≠ [] := by
    intro hnil
    rw [hnil] at htiles
    have heq : base + 112 = Q.plan.layout.brk + base := htiles
    simp only [chunksize] at hgrown
    omega
  obtain ⟨b, hb⟩ := hM.repBy.ok.noAdj.eq_singleton hfree hne
  rw [hb] at htiles hfree ⊢
  obtain ⟨haddr, hsize⟩ := Tiles.singleton.mp htiles
  have hfree := hfree b (List.mem_singleton_self b)
  have hbrk' : mm.brk e.state = Q.plan.layout.brk + base := h.holds.brk
  rw [List.cons.injEq]
  refine ⟨?_, rfl⟩
  obtain ⟨addr, size, alloc⟩ := b
  dsimp only at haddr hsize hfree
  rw [Block.mk.injEq, hbrk']
  exact ⟨haddr, by omega, hfree⟩

theorem leftover_balanced : ∃ e segs,
    evalMmValid (P := mm) balancedTrace (memInit .wrap32 1024 fun _ => 0) = .ok e ∧
      WellFormed e.state [⟨1136, mm.brk e.state - 1136, false⟩] segs := by
  have hvalid : (evalMmValid (P := mm) balancedTrace (memInit .wrap32 1024 fun _ => 0)).isOk =
      true := by decide +kernel
  cases hok : evalMmValid (P := mm) balancedTrace (memInit .wrap32 1024 fun _ => 0) with
  | error f =>
    rw [hok] at hvalid
    cases hvalid
  | ok e =>
    obtain ⟨bs, segs, hw, -, hone⟩ := leftover (ready_memInit _ (.inr (by decide))) (by decide)
      (by decide) ⟨rfl, rfl, by decide, by decide⟩ (by decide) hok
    exact ⟨e, segs, rfl, hone (by decide) ▸ hw⟩

end

end Driver

end SysProgLab
