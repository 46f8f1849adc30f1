import SysProgLab.Client

/-!
# What the allocator guarantees

Three guarantees over whole runs: the heap stays well formed, live payloads are
aligned, in bounds, disjoint and never written by the allocator, and
`mm_realloc` hands over the old contents without harm to anything else. The
last two hold in every run whose requests are all `Client.Sound`; a run with
one request that is not shows that the condition is needed.
-/

namespace SysProgLab

namespace Client

/-- The contract of live payloads: aligned, within the blocks of the heap,
pairwise disjoint, and holding what the client last wrote. -/
structure Contract (s : Client) : Prop where
  aligned : ∀ x ∈ s.live, 8 ∣ x.1
  within : ∀ x ∈ s.live, s.heap.blkStart ≤ x.1 ∧ x.1 + x.2 ≤ s.heap.memBrk
  disjoint : s.live.Pairwise fun x y => x.1 + x.2 ≤ y.1 ∨ y.1 + y.2 ≤ x.1
  kept : ∀ x ∈ s.live, ∀ a, x.1 ≤ a → a < x.1 + x.2 → ∀ v, s.last a = some v → s.heap.mem a = v

/-- The contract of `mm_realloc(ptr, size)`: it returns, and unless it returns
`NULL` the result is aligned, inside the heap and large enough, holds the old
contents, is disjoint from the other live payloads, which are unchanged, and
the heap is well formed. -/
def ReallocContract (s : Client) (ptr size : ℕ) : Prop :=
  ∃ q h', mmRealloc s.heap ptr size = some (q, h') ∧ (q ≠ 0 →
    8 ∣ q ∧ s.heap.memStartBrk ≤ q ∧ q + size ≤ h'.memBrk ∧
    size + 8 ≤ h'.mem.getSize (hdrp q) ∧
    (∀ n, (ptr, n) ∈ s.live → ∀ i < min n size, h'.mem (q + i) = s.heap.mem (ptr + i)) ∧
    (∀ x ∈ s.live, x.1 ≠ ptr → (q + size ≤ x.1 ∨ x.1 + x.2 ≤ q) ∧
      ∀ a, x.1 ≤ a → a < x.1 + x.2 → h'.mem a = s.heap.mem a) ∧
    ∃ bs segs, WellFormed h' bs segs)

namespace Good

variable {s : Client} {L : Layout}

theorem contract (h : s.Good L) : s.Contract := by
  have hrep := h.models.repBy.rep
  refine ⟨fun x hx => ?_, fun x hx => ?_, ?_, h.last⟩
  · obtain ⟨b, hb, -, hbx, -⟩ := h.live x hx
    rw [← hbx]
    exact hrep.dvd_addr hb
  · obtain ⟨b, hb, -, hbx, hbs⟩ := h.live x hx
    have hbb := hrep.bounds hb
    rw [h.models.blk, h.models.brk]
    simp only [Block.stop] at hbb
    omega
  · refine h.nodup.imp_of_mem fun {x y} hx hy hne => ?_
    obtain ⟨b, hb, -, hbx, hbs⟩ := h.live x hx
    obtain ⟨c, hc, -, hcy, hcs⟩ := h.live y hy
    have hdis := hrep.disjoint hb hc fun he => hne (by rw [← hbx, he, hcy])
    simp only [Block.stop] at hdis
    omega

theorem reallocContract (h : s.Good L) {ptr size : ℕ} (hlegal : s.Legal (.realloc ptr size))
    (hsound : s.Sound (.realloc ptr size)) : s.ReallocContract ptr size := by
  have hM := h.models
  obtain ⟨h0, hsize, ⟨p, n⟩, hx, rfl⟩ := hlegal
  obtain ⟨b, hb, hba, rfl, hbs⟩ := h.live _ hx
  have hround : size + 15 < 2 ^ 32 := by omega
  obtain ⟨-, -, hroom, -⟩ := adjust_spec hround
  rcases hM.mmRealloc hb hba h0 hround hsound.1
    fun hmove => ExtendsOk.noWrap hM (hsound.2 hmove) with e | ⟨m', L', a, e, h', hres, hle⟩
  · exact ⟨0, s.heap, e, fun hq => absurd rfl hq⟩
  have hrep := h'.repBy.rep
  have ham : a ∈ L'.blocks := (hres.mem a hres.alloc).mpr (.inr rfl)
  have hab := hrep.bounds ham
  refine ⟨a.addr, _, e, fun _ => ⟨hrep.dvd_addr ham, ?_, ?_, ?_, fun n' hn i hi => ?_,
    fun x hxl hne => ?_, _, _, h'.wellFormed⟩⟩
  · rw [show s.heap.memStartBrk = L'.hl from h'.start]
    omega
  · simp only [Block.stop] at hab
    dsimp only
    omega
  · dsimp only
    rw [hrep.getSize_hdrp ham]
    omega
  · rw [← h.sizeAt_eq hn, h.sizeAt_eq hx] at hi
    exact hres.copy i (by omega)
  · obtain ⟨c, hc, hca, hcx, hcs⟩ := h.live x hxl
    have hcb : c ≠ b := by
      rintro rfl
      exact hne hcx.symm
    have hc' : c ∈ L'.blocks := (hres.mem c hca).mpr (.inl ⟨hc, hcb⟩)
    have hdis := hrep.disjoint ham hc' fun he => hres.fresh c hc hca hcb (by rw [he])
    simp only [Block.stop] at hdis
    refine ⟨by omega, fun a h₁ h₂ => hres.keeps c hc hca hcb a (by omega) ?_⟩
    simp only [Block.stop]
    omega

end Good

/-- Serve a request that is legal and meets `P`. -/
def next (P : Client → Request → Prop) [∀ s r, Decidable (P s r)] (s : Client) (r : Request) :
    Option Client :=
  if s.Legal r ∧ P s r then s.perform r else none

theorem next_spec {P : Client → Request → Prop} [∀ s r, Decidable (P s r)] {arith : PtrArith}
    {base : ℕ} (s : Client) (r : Request) (s' : Client) (h : s.next P r = some s') :
    P s r ∧ (allocator arith base).step s r s' := by
  rw [next] at h
  split at h
  · next hok => exact ⟨hok.2, hok.1, h⟩
  · cases h

/-- The client after `mm_init` on zeroed memory and the requests `rs`. -/
def runFrom (P : Client → Request → Prop) [∀ s r, Decidable (P s r)] (arith : PtrArith)
    (base : ℕ) (rs : List Request) : Option Client :=
  (mmInit (memInit arith base fun _ => 0)).bind fun r =>
    if r.1 = 0 then Machine.exec (next P) (start r.2) rs else none

theorem runFrom_reach {P : Client → Request → Prop} [∀ s r, Decidable (P s r)] {arith : PtrArith}
    {base : ℕ} {rs : List Request} {s : Client} (h : runFrom P arith base rs = some s) :
    (allocator arith base).ReachWhen P s := by
  obtain ⟨⟨c, h₀⟩, e, h⟩ := Option.bind_eq_some_iff.mp h
  split at h
  · next hc =>
    obtain rfl : c = 0 := hc
    exact .exec next_spec (.init ⟨_, h₀, e, rfl⟩) h
  · cases h

end Client

/-! ## The heap invariant -/

/-- **In every run of `mm_malloc` and `mm_free` the heap stays well formed, and
every call returns.** Pointer addition is exact; the memory may hold anything at
first, and the client may write into its payloads. -/
theorem heap_wellFormed {base : ℕ} (hbase : 8 ∣ base) (hmax : base + maxHeap < 2 ^ 32)
    {s : Client} (hs : (allocator .exact base).ReachWhen (fun _ r => r.NoRealloc) s) :
    (∃ bs segs, WellFormed s.heap bs segs) ∧
      ∀ r : Request, r.NoRealloc → s.Legal r → ∃ s', s.perform r = some s' := by
  have hinv := allocator_inductive .exact hbase hmax
  -- with exact addition the condition on the requests is always met
  have hinv' : (allocator .exact base).Inductive (fun _ r => r.NoRealloc)
      fun s => ∃ L, s.Good L ∧ s.heap.arith = .exact :=
    ⟨hinv.init, fun h hr hstep => hinv.step h (by
      obtain ⟨L, -, ha⟩ := h
      exact Client.sound_of_exact ha hr) hstep⟩
  obtain ⟨L, hg, ha⟩ := hinv'.holds hs
  refine ⟨⟨_, _, hg.models.wellFormed⟩, fun r hr hlegal => ?_⟩
  obtain ⟨s', -, e, -⟩ := hg.serve hlegal (Client.sound_of_exact ha hr)
  exact ⟨s', e⟩

/-- A run in which two blocks are allocated and the first is freed. -/
theorem heap_wellFormed_run : ∃ s : Client, s.live = [(1152, 100)] ∧
    ∃ bs segs, WellFormed s.heap bs segs := by
  have hrun : ((Client.runFrom (fun _ r => r.NoRealloc) .exact 1024
      [.malloc 8, .malloc 100, .free 1136]).any fun s => s.live = [(1152, 100)]) = true := by
    decide +kernel
  obtain ⟨s, e, hlive⟩ := (Option.any_eq_true ..).mp hrun
  exact ⟨s, by simpa using hlive,
    (heap_wellFormed ⟨128, rfl⟩ (by decide) (Client.runFrom_reach e)).1⟩

/-! ## The contract of live payloads -/

/-- **In every run of `mm_malloc` and `mm_free` in which no sum `mem_brk + incr`
wraps, the contract of live payloads holds**, whatever the pointer arithmetic of
the build. -/
theorem payload_contract (arith : PtrArith) {base : ℕ} (hbase : 8 ∣ base)
    (hmax : base + maxHeap < 2 ^ 32) {s : Client}
    (hs : (allocator arith base).ReachWhen (fun s r => r.NoRealloc ∧ s.Sound r) s) :
    s.Contract := by
  obtain ⟨L, hg, -⟩ := (allocator_inductive arith hbase hmax).holds (hs.mono fun _ _ h => h.2)
  exact hg.contract

theorem payload_contract_run : ∃ s : Client, s.live = [(1152, 100)] ∧
    s.last 1160 = some 7 ∧ s.Contract := by
  have hrun : ((Client.runFrom (fun s r => r.NoRealloc ∧ s.Sound r) .wrap32 1024
      [.malloc 8, .malloc 100, .write 1160 7, .free 1136]).any fun s =>
        s.live = [(1152, 100)] ∧ s.last 1160 = some 7) = true := by
    decide +kernel
  obtain ⟨s, e, hlive⟩ := (Option.any_eq_true ..).mp hrun
  simp only [decide_eq_true_eq] at hlive
  exact ⟨s, hlive.1, hlive.2,
    payload_contract .wrap32 ⟨128, rfl⟩ (by decide) (Client.runFrom_reach e)⟩

/-- With the storage high in the address space, `mem_brk + incr` wraps, the test
against `mem_max_addr` passes, and the payload returned is not below `mem_brk`. -/
theorem payload_contract_wrap : ¬∀ base, 8 ∣ base → base + maxHeap < 2 ^ 32 → ∀ s : Client,
    (allocator .wrap32 base).ReachWhen (fun _ r => r.NoRealloc) s → s.Contract := by
  intro h
  have hrun : ((Client.runFrom (fun _ r => r.NoRealloc) .wrap32 0xF6000000
      [.malloc 0x0A000000]).any fun s => s.live = [(0xF6000070, 0x0A000000)] ∧
        s.heap.memBrk = 0x1078) = true := by
    decide +kernel
  obtain ⟨s, e, hs⟩ := (Option.any_eq_true ..).mp hrun
  simp only [decide_eq_true_eq] at hs
  have hin := (h 0xF6000000 (by decide) (by decide) s (Client.runFrom_reach e)).within
    (0xF6000070, 0x0A000000) (by simp [hs.1])
  rw [hs.2] at hin
  omega

/-! ## The contract of `mm_realloc` -/

/-- **In every run all of whose requests are sound, the heap is well formed and
every sound `mm_realloc` meets its contract.** -/
theorem realloc_contract (arith : PtrArith) {base : ℕ} (hbase : 8 ∣ base)
    (hmax : base + maxHeap < 2 ^ 32) {s : Client}
    (hs : (allocator arith base).ReachWhen (fun s r => s.Sound r) s) :
    (∃ bs segs, WellFormed s.heap bs segs) ∧ s.Contract ∧
      ∀ ptr size, s.Legal (.realloc ptr size) → s.Sound (.realloc ptr size) →
        s.ReallocContract ptr size := by
  obtain ⟨L, hg, -⟩ := (allocator_inductive arith hbase hmax).holds hs
  exact ⟨⟨_, _, hg.models.wellFormed⟩, hg.contract, fun ptr size => hg.reallocContract⟩

/-- A payload grows into the free block behind it, and then has to move. -/
theorem realloc_contract_run : ∃ s : Client, s.live = [(2144, 8), (1136, 1000)] ∧
    s.ReallocContract 1136 2000 := by
  have hrun : ((Client.runFrom (fun s r => s.Sound r) .wrap32 1024
      [.malloc 8, .realloc 1136 1000, .malloc 8]).any fun s =>
        s.live = [(2144, 8), (1136, 1000)] ∧ s.Legal (.realloc 1136 2000) ∧
          s.Sound (.realloc 1136 2000)) = true := by
    decide +kernel
  obtain ⟨s, e, hs⟩ := (Option.any_eq_true ..).mp hrun
  simp only [decide_eq_true_eq] at hs
  exact ⟨s, hs.1, (realloc_contract .wrap32 ⟨128, rfl⟩ (by decide)
    (Client.runFrom_reach e)).2.2 1136 2000 hs.2.1 hs.2.2⟩

/-- The block after the live one is free but too small; the guard of case 2.1.1
wraps, and the result reaches beyond `mem_brk`. -/
theorem realloc_contract_wrap : ¬∀ base, 8 ∣ base → base + maxHeap < 2 ^ 32 → ∀ s : Client,
    (allocator .wrap32 base).Reach s → ∀ ptr size, s.Legal (.realloc ptr size) →
      s.ReallocContract ptr size := by
  intro h
  have hrun : ((Client.runFrom (fun _ _ => True) .wrap32 1024 [.malloc 8]).any fun s =>
      s.Legal (.realloc 1136 5000) ∧ (mmRealloc s.heap 1136 5000).any fun r =>
        r.1 = 1136 ∧ r.2.memBrk = 5232) = true := by
    decide +kernel
  obtain ⟨s, e, hs⟩ := (Option.any_eq_true ..).mp hrun
  simp only [decide_eq_true_eq] at hs
  obtain ⟨q, h', e', hq⟩ := h 1024 (by decide) (by decide) s (Client.runFrom_reach e) 1136 5000 hs.1
  have hr := hs.2
  rw [e'] at hr
  simp only [Option.any_some, decide_eq_true_eq] at hr
  have hin := (hq (by omega)).2.2.1
  omega

end SysProgLab
