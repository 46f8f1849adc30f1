import SysProgLab.CacheSerial

/-!
# The memory of the cache

Which items are allocated, in the interleavings of `SysProgLab.CacheSerial`. An item is
allocated by `create_CI` and freed by `remove_LRU` alone. `insert_cache` returns at once when
the item is too large, so that nothing leads to it any more; it is never freed. All other
items that have not been evicted are in the list (`memory_accounted`).
-/

namespace SysProgLab

namespace Nodes

universe u

variable {α : Type u} {n n' n'' : Nodes α} {e e' : List ℕ} {a l l' : List (ℕ × α)}

/-- **The allocated nodes** are those of `l`, each once, with these contents. -/
structure Allocated (n : Nodes α) (l : List (ℕ × α)) : Prop where
  nodup : (l.map Prod.fst).Nodup
  mem_iff : ∀ c o, n.vals c = some o ↔ (c, o) ∈ l

/-- The nodes at the addresses `e` are freed, and the others keep their contents. -/
def Freed (e : List ℕ) (n n' : Nodes α) : Prop :=
  ∀ c, n'.vals c = if c ∈ e then none else n.vals c

theorem Freed.of_vals (h : n'.vals = n.vals) : Freed [] n n' := fun c => by
  rw [h, if_neg List.not_mem_nil]

theorem Freed.trans (h : Freed e n n') (h' : Freed e' n' n'') : Freed (e ++ e') n n'' := by
  intro c
  rw [h', h]
  by_cases he : c ∈ e <;> by_cases he' : c ∈ e' <;> simp [he, he']

theorem Freed.free (n : Nodes α) (c : ℕ) : Freed [c] n (Function.update n c none) := by
  intro b
  rw [vals, vals]
  by_cases hb : b = c
  · rw [hb, Function.update_self, if_pos (List.mem_singleton_self c), Option.map_none]
  · rw [Function.update_of_ne hb, if_neg fun h => hb (List.mem_singleton.mp h)]

namespace Allocated

theorem perm (h : n.Allocated l) (hl : l.Perm l') : n.Allocated l' where
  nodup := (hl.map Prod.fst).nodup_iff.mp h.nodup
  mem_iff := fun c o => (h.mem_iff c o).trans hl.mem_iff

theorem of_vals (h : n.Allocated l) (hv : n'.vals = n.vals) : n'.Allocated l where
  nodup := h.nodup
  mem_iff := by
    rw [hv]
    exact h.mem_iff

/-- A node is allocated at an address that is free. -/
theorem add (h : n.Allocated l) {c : ℕ} (hc : n c = none) (y : DNode α) :
    Allocated (Function.update n c (some y)) (l ++ [(c, y.val)]) := by
  have hnot : c ∉ l.map Prod.fst := by
    intro hmem
    obtain ⟨⟨c', o⟩, hx, rfl⟩ := List.mem_map.mp hmem
    have hv := (h.mem_iff c' o).mpr hx
    rw [vals, hc] at hv
    cases hv
  refine ⟨?_, fun b o => ?_⟩
  · rw [List.map_append]
    refine List.nodup_append.mpr ⟨h.nodup, List.nodup_singleton _, fun b hb b' hb' => ?_⟩
    obtain rfl := List.mem_singleton.mp hb'
    rintro rfl
    exact hnot hb
  rw [List.mem_append, List.mem_singleton, vals]
  by_cases hb : b = c
  · subst hb
    have hl : (b, o) ∉ l := fun hx => hnot (List.mem_map_of_mem hx)
    rw [Function.update_self, Option.map_some, Option.some_inj]
    constructor
    · rintro rfl
      exact .inr rfl
    · rintro (hx | hx)
      · exact absurd hx hl
      · exact (Prod.mk.inj hx).2.symm
  · rw [Function.update_of_ne hb]
    constructor
    · exact fun hv => .inl ((h.mem_iff b o).mp hv)
    · rintro (hx | hx)
      · exact (h.mem_iff b o).mpr hx
      · exact absurd (Prod.mk.inj hx).1 hb

/-- The nodes at the front of the list are freed. -/
theorem free (h : n.Allocated (a ++ l)) (hf : Freed (a.map Prod.fst) n n') : n'.Allocated l := by
  have hnd := h.nodup
  rw [List.map_append] at hnd
  obtain ⟨-, hnd', hapart⟩ := List.nodup_append.mp hnd
  refine ⟨hnd', fun c o => ?_⟩
  rw [hf]
  split
  · next hc =>
    refine iff_of_false (fun hv => by cases hv) fun hx => ?_
    exact hapart c hc c (List.mem_map_of_mem hx) rfl
  · next hc =>
    rw [h.mem_iff, List.mem_append, or_iff_right]
    exact fun hx => hc (List.mem_map_of_mem hx)

end Allocated

end Nodes

/-! ## What a call frees -/

namespace Cache

theorem removeLRU_freed {s s' : Cache} {e : List ℕ} (h : s.removeLRU = some (e, s')) :
    Nodes.Freed e s.nodes s'.nodes := by
  rw [removeLRU] at h
  split at h
  · cases h
    exact .of_vals rfl
  dsimp only at h
  split at h
  · rw [Option.bind_eq_bind, Option.bind_some] at h
    obtain ⟨x, -, h⟩ := Option.bind_eq_some_iff.mp h
    cases h
    exact .free s.nodes s.head
  · obtain ⟨y, -, h⟩ := Option.bind_eq_some_iff.mp h
    obtain ⟨n, hn, h⟩ := Option.bind_eq_some_iff.mp h
    rw [Option.bind_eq_bind, Option.bind_some] at h
    obtain ⟨x, -, h⟩ := Option.bind_eq_some_iff.mp h
    cases h
    exact (Nodes.Freed.of_vals (Nodes.modify_vals hn fun _ => rfl)).trans (.free n s.head)

theorem evictLoop_freed {size : ℤ} : ∀ {fuel : ℕ} {s s' : Cache} {e : List ℕ},
    evictLoop size fuel s = some (e, s') → Nodes.Freed e s.nodes s'.nodes := by
  intro fuel
  induction fuel with
  | zero =>
    intro s s' e h
    cases h
  | succ fuel ih =>
    intro s s' e h
    rw [evictLoop] at h
    split at h
    · obtain ⟨⟨e₁, s₁⟩, h₁, h⟩ := Option.bind_eq_some_iff.mp h
      obtain ⟨⟨e₂, s₂⟩, h₂, h⟩ := Option.bind_eq_some_iff.mp h
      cases h
      exact (removeLRU_freed h₁).trans (ih h₂)
    · cases h
      exact .of_vals rfl

/-- **`insert_cache` frees what it evicts**, and changes the contents of no other item. -/
theorem insertCache_freed {s s' : Cache} {c : ℕ} {e : List ℕ}
    (h : s.insertCache c = some (e, s')) : Nodes.Freed e s.nodes s'.nodes := by
  obtain ⟨x, -, h⟩ := Option.bind_eq_some_iff.mp h
  split at h
  · cases h
    exact .of_vals rfl
  obtain ⟨⟨e₁, s₁⟩, h₁, h⟩ := Option.bind_eq_some_iff.mp h
  have linked : ∀ {n : Nodes Object}, n.vals = s₁.nodes.vals → Nodes.Freed e₁ s.nodes n := by
    intro n hn
    rw [← List.append_nil e₁]
    exact (evictLoop_freed h₁).trans (.of_vals hn)
  dsimp only at h
  split at h
  · obtain ⟨n, hn, h⟩ := Option.bind_eq_some_iff.mp h
    cases h
    exact linked (Nodes.modify_vals hn fun _ => rfl)
  · obtain ⟨n₁, m₁, h⟩ := Option.bind_eq_some_iff.mp h
    obtain ⟨n₂, m₂, h⟩ := Option.bind_eq_some_iff.mp h
    obtain ⟨n₃, m₃, h⟩ := Option.bind_eq_some_iff.mp h
    cases h
    refine linked ?_
    rw [Nodes.modify_vals m₃ fun _ => rfl, Nodes.modify_vals m₂ fun _ => rfl,
      Nodes.modify_vals m₁ fun _ => rfl]

/-- The item that an insertion leaves out of the list for its size. -/
def stray : Call → Option (ℕ × Object)
  | .insert c x => if (maxObjectSize : ℤ) < x.val.size then some (c, x.val) else none
  | .find _ _ _ => none

/-- The items that the insertions of a history have left out. -/
def strays {ι : Type} (hist : List (ι × Call × ℕ)) : List (ℕ × Object) :=
  hist.filterMap fun x => stray x.2.1

section Calls

variable {ι : Type} {hist : List (ι × Call × ℕ)} {k k' : Cache} {l l' : List (ℕ × Object)}
variable {op : Call} {c r : ℕ}

theorem strays_concat (hist : List (ι × Call × ℕ)) (t : ι) (op : Call) (r : ℕ) :
    strays (hist ++ [(t, op, r)]) = strays hist ++ (stray op).toList := by
  rw [strays, List.filterMap_append, ← strays]
  cases h : stray op with
  | none => simp [h]
  | some x => simp [h]

/-- **An insertion**: what is allocated after it are the items of the list and the strays, the
new item among them if it is too large. -/
theorem Represents.insert_allocated {o : Object} {prev next : ℕ} {e : List ℕ}
    {out : List (ℕ × Object)} (h : k.Represents l) (ha : k.nodes.Allocated (l ++ out))
    (hc0 : c ≠ 0) (hfresh : k.nodes c = none) (hpos : 0 < o.size)
    (hins : Cache.insertCache { k with nodes := Function.update k.nodes c (some ⟨o, prev, next⟩) } c =
      some (e, k')) :
    k'.nodes.Allocated (recency l (.insert c ⟨o, prev, next⟩) ++
      (out ++ (stray (.insert c ⟨o, prev, next⟩)).toList)) := by
  have hadd := ha.add hfresh ⟨o, prev, next⟩
  rw [recency, stray]
  by_cases hbig : (maxObjectSize : ℤ) < o.size
  · -- the call returns at once
    rw [if_pos hbig, if_pos hbig, Option.toList_some, ← List.append_assoc]
    rw [Cache.insertCache, Nodes.deref_of_some hc0 (Function.update_self ..)] at hins
    cases (if_pos hbig).symm.trans hins
    exact hadd
  · rw [if_neg hbig, if_neg hbig, Option.toList_none, List.append_nil]
    obtain ⟨s', hs', -⟩ := h.perform_insert (y := ⟨o, prev, next⟩)
      ⟨hc0, hfresh, hpos, not_lt.mp hbig⟩
    rw [Cache.perform, hins, Option.map_some] at hs'
    obtain ⟨he, -⟩ := Prod.mk.inj (Option.some.inj hs')
    have hfreed := insertCache_freed hins
    rw [show e = _ from Reply.evicted.inj he] at hfreed
    refine Nodes.Allocated.free (hadd.perm ?_) hfreed
    rw [lruPerform, Lru.insert]
    dsimp only
    rw [← List.append_assoc, ← List.append_assoc, Lru.evict_append, List.append_assoc,
      List.append_assoc]
    exact List.Perm.append_left l List.perm_append_comm

/-- **What an insertion frees** are items of the list, each once. -/
theorem Represents.insert_evicts {y : CachedItem} (h : k.Represents l)
    (hnew : (Call.insert c y).Created k) :
    ∃ evicted k', k.perform (.insert c y) = some (.evicted evicted, k') ∧ evicted.Nodup ∧
      ∀ a ∈ evicted, a ∈ l.map Prod.fst := by
  obtain ⟨hc0, hfresh, hpos⟩ := hnew
  by_cases hbig : (maxObjectSize : ℤ) < y.val.size
  · refine ⟨[], { k with nodes := Function.update k.nodes c (some y) }, ?_, List.nodup_nil,
      fun a ha => absurd ha List.not_mem_nil⟩
    rw [Cache.perform, Cache.insertCache, Nodes.deref_of_some hc0 (Function.update_self ..)]
    exact congrArg _ (if_pos hbig)
  · obtain ⟨k', hk', -⟩ := h.perform_insert (y := y) ⟨hc0, hfresh, hpos, not_lt.mp hbig⟩
    have hsub : ((Lru.insert itemSize maxCacheSize l (c, y.val)).1.map Prod.fst).Sublist
        (l.map Prod.fst) := by
      refine List.Sublist.map Prod.fst ?_
      conv_rhs => rw [← Lru.evict_append itemSize maxCacheSize (itemSize (c, y.val)) l]
      exact List.sublist_append_left _ _
    exact ⟨_, k', hk', h.nodup.sublist hsub, fun a ha => hsub.subset ha⟩

/-- Every stray was inserted by a call of the history. -/
theorem inserted_of_stray {x : ℕ × Object} (hx : x ∈ strays hist) :
    ∃ t y r, (t, .insert x.1 y, r) ∈ hist ∧ y.val = x.2 := by
  obtain ⟨⟨t, op, r⟩, hmem, hstray⟩ := List.mem_filterMap.mp hx
  cases op with
  | insert c y =>
    obtain ⟨-, hx⟩ := Option.ite_none_right_eq_some.mp hstray
    cases hx
    exact ⟨t, y, r, hmem, rfl⟩
  | find => cases hstray

end Calls

end Cache

/-! ## Runs -/

namespace Proxy

variable {ι : Type} [Fintype ι] [DecidableEq ι] {req : ι → Request} {st st' : Recorded ι}
variable {t : ι} {e : Event} {l : List (ℕ × Object)}

/-- The cache holds a list that explains the history; its items and the strays are what is
allocated. -/
structure Accounted (req : ι → Request) (st : Recorded ι) (l : List (ℕ × Object)) : Prop where
  explained : Explained req st l
  allocated : st.1.2.nodes.Allocated (l ++ Cache.strays st.2)

omit [DecidableEq ι] in
/-- An address at which nothing is allocated. -/
theorem Accounted.nodes_none (h : Accounted req st l) {c : ℕ}
    (hc : ∀ x ∈ l ++ Cache.strays st.2, x.1 ≠ c) : st.1.2.nodes c = none := by
  cases hn : st.1.2.nodes c with
  | none => rfl
  | some y =>
    have hv : st.1.2.nodes.vals c = some y.val := by rw [Nodes.vals, hn, Option.map_some]
    exact absurd rfl (hc _ ((h.allocated.mem_iff c y.val).mp hv))

/-- **One step** of a thread. -/
theorem Accounted.next (h : Accounted req st l) (ho : Orderly st.1 (t, e))
    (hs : (recorded req).step st (t, e) st') : ∃ l', Accounted req st' l' := by
  obtain ⟨l', h'⟩ := h.explained.next ho hs
  refine ⟨l', h', ?_⟩
  obtain ⟨v, x, -, hstep, hcache, -, hhist⟩ := recorded_step hs
  have hexp := h'.explains
  rw [← hhist] at hexp ⊢
  have hrest := hexp.rest h.explained.explains
  have hrep := h.explained.represents
  have kept : (st.1.1.pc t).completes (req t) e = none → st'.1.2 = st.1.2 →
      st'.1.2.nodes.Allocated (l' ++ Cache.strays (st.2 ++
        (((st.1.1.pc t).completes (req t) e).toList.map fun x => (t, x)))) := by
    intro hnone hk
    rw [hnone] at hrest ⊢
    obtain rfl : l = l' := hrest
    rw [hk, Option.toList_none, List.map_nil, List.append_nil]
    exact h.allocated
  -- a look-up leaves the same items
  have found : ∀ {r}, (st.1.1.pc t).completes (req t) e = some ((req t).find, r) →
      st'.1.2.nodes.vals = st.1.2.nodes.vals → st'.1.2.nodes.Allocated (l' ++ Cache.strays (st.2 ++
        (((st.1.1.pc t).completes (req t) e).toList.map fun x => (t, x)))) := by
    intro r hdone hvals
    rw [hdone, Option.toList_some, List.map_singleton] at hrest ⊢
    rw [Cache.strays_concat, ← hrest.2]
    refine (h.allocated.of_vals hvals).perm (List.Perm.append ?_ ?_)
    · exact (Cache.recency_find_perm l _ _ _).symm
    · rw [show Cache.stray (req t).find = none from rfl, Option.toList_none, List.append_nil]
  rcases Pc.cacheStep_cases hstep hcache with ⟨hnone, hk, -⟩ | ⟨c, -, -, hnone, hk, -⟩ |
    ⟨r, -, hk, -, hdone, -⟩ | ⟨c, -, hmove, -, hdone⟩ |
    ⟨data, c, o, prev, next, evicted, -, hc0, hfresh, hcreate, hins, -, hdone⟩
  · exact kept hnone hk
  · exact kept hnone hk
  · exact found hdone (by rw [hk])
  · exact found hdone (Cache.moveToEnd_vals hmove)
  · -- the new item is linked or left out
    rw [hdone, Option.toList_some, List.map_singleton] at hrest ⊢
    rw [Cache.strays_concat, ← hrest.2]
    exact hrep.insert_allocated h.allocated hc0 hfresh (Cache.createCI_pos hcreate) hins

theorem accounted_inductive (req : ι → Request) :
    (recorded req).Inductive (fun st a => Orderly st.1 a) fun st => ∃ l, Accounted req st l where
  init := by
    rintro _ rfl
    obtain ⟨l, hl⟩ := (recorded_inductive req).init rfl
    obtain rfl : [] = l := hl.explains
    exact ⟨[], hl, List.nodup_nil, fun c o => iff_of_false (fun hv => by cases hv) List.not_mem_nil⟩
  step := by
    rintro st ⟨t, e⟩ st' ⟨l, h⟩ ho hs
    exact h.next ho hs

/-- **The memory of the cache is accounted for**: what is allocated are the items of the list,
which have at most `MAX_CACHE_SIZE` bytes between them, and the items that were too large to be
inserted, each at an address of its own and with the contents that it was created with; and the
next insertion goes through and frees items of the list only, each once. -/
theorem memory_accounted (req : ι → Request)
    (h : (recorded req).ReachWhen (fun st a => Orderly st.1 a) st) :
    ∃ l, st.1.2.Represents l ∧ Lru.total Cache.itemSize l ≤ maxCacheSize ∧
      ((l ++ Cache.strays st.2).map Prod.fst).Nodup ∧
      (∀ c o, st.1.2.nodes.vals c = some o ↔ (c, o) ∈ l ++ Cache.strays st.2) ∧
      (∀ x ∈ l ++ Cache.strays st.2, ∃ t y r data, (t, .insert x.1 y, r) ∈ st.2 ∧ y.val = x.2 ∧
        Cache.createCI (req t).hostname (req t).port (req t).pathname data = some x.2) ∧
      ∀ c y, (Cache.Call.insert c y).Created st.1.2 →
        ∃ evicted k, st.1.2.perform (.insert c y) = some (.evicted evicted, k) ∧
          evicted.Nodup ∧ ∀ a ∈ evicted, a ∈ l.map Prod.fst := by
  obtain ⟨l, hl⟩ := (accounted_inductive req).holds h
  have hrep := hl.explained.represents
  refine ⟨l, hrep, hrep.total ▸ hrep.le_max, hl.allocated.nodup, hl.allocated.mem_iff,
    fun x hx => ?_, fun c y hnew => hrep.insert_evicts hnew⟩
  obtain ⟨t, y, r, hmem, hy⟩ : ∃ t y r, (t, .insert x.1 y, r) ∈ st.2 ∧ y.val = x.2 := by
    rcases List.mem_append.mp hx with hx | hx
    · rcases hl.explained.explains.inserted hx with hnil | hins
      · cases hnil
      · exact hins
    · exact Cache.inserted_of_stray hx
  obtain ⟨data, hdata⟩ := hl.explained.created t x.1 y r hmem
  exact ⟨t, y, r, data, hmem, hy, hy ▸ hdata⟩

/-! ## Clients that come one by one -/

/-- A point at which the cache is left alone. -/
def Pc.outside : Pc → Bool
  | .lookup | .moving _ | .insert => false
  | _ => true

theorem Pc.outside_go {p : Pc} (h : p.outside = true) (req : Request) (k : Cache) :
    p.cacheStep req k .go = some k ∧ p.completes req .go = none ∧ p.inMove = false ∧
      p.entersMove .go = false := by
  cases p <;> first | exact ⟨rfl, rfl, rfl, rfl⟩ | cases h

/-- Steps of a thread that leave the cache alone. -/
def Pc.goes : ℕ → Shared × Pc → Option (Shared × Pc)
  | 0, r => some r
  | n + 1, r => if r.2.outside = true then do
      let r ← r.2.step r.1 .go
      Pc.goes n r
    else none

/-- The state is reached while nobody relinks beside another. -/
abbrev InOrder (req : ι → Request) (st : Recorded ι) : Prop :=
  (recorded req).ReachWhen (fun st a => Orderly st.1 a) st

section Alone

variable {v v' : Shared} {pc : ι → Pc} {p x : Pc} {k k' : Cache}
variable {hist : List (ι × Cache.Call × ℕ)}

omit [Fintype ι] in
theorem orderly_alone (hrest : ∀ u, u ≠ t → (pc u).inMove = false) (hin : p.inMove = false)
    (hmove : p.entersMove e = false) : Orderly (⟨v, Function.update pc t p⟩, k) (t, e) := by
  have hnot : ((Function.update pc t p) t).entersMove e ≠ true := by
    rw [Function.update_self, hmove]
    exact Bool.false_ne_true
  refine ⟨fun he => absurd he hnot, fun _ u => ?_, fun he => absurd he hnot⟩
  dsimp only
  by_cases hu : u = t
  · rw [hu, Function.update_self, hin]
  · rw [Function.update_of_ne hu, hrest u hu]

omit [Fintype ι] in
/-- **A step of the thread**, while no other one relinks the list. -/
theorem InOrder.advance (hrest : ∀ u, u ≠ t → (pc u).inMove = false)
    (h : InOrder req ((⟨v, Function.update pc t p⟩, k), hist)) (hin : p.inMove = false)
    (hmove : p.entersMove e = false) (hstep : p.step v e = some (v', x))
    (hcache : p.cacheStep (req t) k e = some k') :
    InOrder req ((⟨v', Function.update pc t x⟩, k'),
      hist ++ ((p.completes (req t) e).toList.map fun y => (t, y))) := by
  have hpc : (Function.update pc t p) t = p := Function.update_self ..
  have hstate : State.next ⟨v, Function.update pc t p⟩ t e =
      some ⟨v', Function.update pc t x⟩ := by
    rw [State.next]
    dsimp only
    rw [hpc, hstep, Option.map_some, Function.update_idem]
  have hnext : Proxy.next req (⟨v, Function.update pc t p⟩, k) (t, e) =
      some (⟨v', Function.update pc t x⟩, k') := by
    rw [Proxy.next, hstate]
    dsimp only
    rw [hpc, hcache]
    rfl
  refine .step h (orderly_alone hrest hin hmove) (a := (t, e)) ?_
  refine Option.map_eq_some_iff.mpr ⟨_, hnext, ?_⟩
  dsimp only
  rw [hpc]

omit [Fintype ι] in
theorem InOrder.goes (hrest : ∀ u, u ≠ t → (pc u).inMove = false) : ∀ {n : ℕ} {v v' : Shared}
    {p x : Pc}, InOrder req ((⟨v, Function.update pc t p⟩, k), hist) →
    Pc.goes n (v, p) = some (v', x) → InOrder req ((⟨v', Function.update pc t x⟩, k), hist) := by
  intro n
  induction n with
  | zero =>
    intro v v' p x h hgo
    cases hgo
    exact h
  | succ n ih =>
    intro v v' p x h hgo
    obtain ⟨hout, hgo⟩ := Option.ite_none_right_eq_some.mp hgo
    obtain ⟨⟨v₁, x₁⟩, hstep, hgo⟩ := Option.bind_eq_some_iff.mp hgo
    obtain ⟨hcache, hnone, hin, hmove⟩ := Pc.outside_go hout (req t) k
    have h₁ := h.advance hrest hin hmove hstep hcache
    rw [hnone, Option.toList_none, List.map_nil, List.append_nil] at h₁
    exact ih h₁ hgo

/-- **A client that comes alone**, whose page is not in the cache: it is created, and linked or
left out. -/
theorem InOrder.store (hrest : ∀ u, u ≠ t → (pc u).inMove = false) (henter : pc t = .enter)
    (h : InOrder req ((⟨⟨1, 1, 0⟩, pc⟩, k), hist)) (hl : Accounted req ((⟨⟨1, 1, 0⟩, pc⟩, k), hist) l)
    (hmiss : ∀ x ∈ l, (req t).accepts x = false) {c : ℕ} (hc0 : c ≠ 0)
    (hfresh : ∀ x ∈ l ++ Cache.strays hist, x.1 ≠ c) {data : List UInt8} {o : Object}
    (ho : Cache.createCI (req t).hostname (req t).port (req t).pathname data = some o) :
    ∃ k' hist', InOrder req ((⟨⟨1, 1, 0⟩, Function.update pc t .done⟩, k'), hist') ∧
      Accounted req ((⟨⟨1, 1, 0⟩, Function.update pc t .done⟩, k'), hist')
        (Cache.recency l (.insert c ⟨o, 0, 0⟩)) ∧
      Cache.strays hist' = Cache.strays hist ++ (Cache.stray (.insert c ⟨o, 0, 0⟩)).toList := by
  have hnone : k.nodes c = none := hl.nodes_none hfresh
  obtain ⟨evicted, k', hins, -⟩ := hl.explained.represents.insert_evicts (y := ⟨o, 0, 0⟩)
    ⟨hc0, hnone, Cache.createCI_pos ho⟩
  obtain ⟨⟨e, k₁⟩, hins, he⟩ := Option.map_eq_some_iff.mp hins
  obtain rfl : k' = k₁ := (congrArg Prod.snd he).symm
  rw [← Function.update_eq_self t pc, henter] at h
  -- the look-up finds nothing
  have h₁ : InOrder req ((⟨⟨1, 0, 1⟩, Function.update pc t .lookup⟩, k), hist) :=
    h.goes (n := 5) hrest rfl
  have h₂ : InOrder req ((⟨⟨1, 0, 1⟩, Function.update pc t (.leave false)⟩, k),
      hist ++ [(t, (req t).find, 0)]) :=
    h₁.advance (e := .miss) hrest rfl rfl rfl
      (if_pos (lookupEvent_miss hl.explained.represents hmiss))
  -- the writer section
  have h₃ : InOrder req ((⟨⟨1, 0, 0⟩, Function.update pc t .insert⟩, k),
      hist ++ [(t, (req t).find, 0)]) := h₂.goes (n := 7) hrest rfl
  have hcache : Pc.cacheStep (req t) k .insert (.create data c 0 0) = some k' := by
    rw [Pc.cacheStep, if_pos ⟨hc0, Option.isNone_iff_eq_none.mpr hnone⟩]
    exact Option.bind_eq_some_iff.mpr ⟨o, ho, Option.bind_eq_some_iff.mpr ⟨_, hins, rfl⟩⟩
  have h₄ : InOrder req ((⟨⟨1, 0, 0⟩, Function.update pc t .writerUnlock⟩, k'), _) :=
    h₃.advance (e := .create data c 0 0) hrest rfl rfl rfl hcache
  have hdone : (Pc.insert).completes (req t) (.create data c 0 0) =
      some (.insert c ⟨o, 0, 0⟩, 0) := by
    rw [Pc.completes, ho]
    rfl
  rw [hdone, Option.toList_some, List.map_singleton] at h₄
  have h₅ : InOrder req ((⟨⟨1, 1, 0⟩, Function.update pc t .done⟩, k'), _) :=
    h₄.goes (n := 1) hrest rfl
  refine ⟨k', _, h₅, ?_, ?_⟩
  · obtain ⟨l', hl'⟩ := (accounted_inductive req).holds h₅
    obtain ⟨hanswer, hrec⟩ := answer_miss hmiss
    have hexp : Cache.Explains [] _ (Cache.recency _ (.insert c ⟨o, 0, 0⟩)) :=
      (hl.explained.explains.concat t hanswer).concat t rfl
    rw [hrec] at hexp
    exact hl'.explained.explains.unique hexp ▸ hl'
  · have hfind : Cache.strays (hist ++ [(t, (req t).find, 0)]) = Cache.strays hist ++ [] :=
      Cache.strays_concat ..
    rw [Cache.strays_concat, hfind, List.append_nil]

/-- **A page for every client**, at an address of its own. -/
structure Pages (req : ι → Request) : Type _ where
  /-- what `Malloc` returns -/
  addr : ι → ℕ
  /-- the array that `create_CI` copies -/
  data : ι → List UInt8
  /-- what it makes of it -/
  obj : ι → Object
  addr_ne : ∀ t, addr t ≠ 0
  addr_inj : addr.Injective
  created : ∀ t, Cache.createCI (req t).hostname (req t).port (req t).pathname (data t) =
    some (obj t)
  apart : ∀ t u, u ≠ t → (req t).accepts (addr u, obj u) = false

/-- What the thread inserts. -/
def Pages.link (P : Pages req) (t : ι) : Cache.Call := .insert (P.addr t) ⟨P.obj t, 0, 0⟩

/-- **Clients that come one by one**, each for its own page. -/
theorem InOrder.stores (P : Pages req) : ∀ {ts : List ι} {pc : ι → Pc} {k : Cache}
    {hist : List (ι × Cache.Call × ℕ)} {l : List (ℕ × Object)}, ts.Nodup →
    (∀ t ∈ ts, pc t = .enter) → (∀ u, (pc u).inMove = false) →
    InOrder req ((⟨⟨1, 1, 0⟩, pc⟩, k), hist) → Accounted req ((⟨⟨1, 1, 0⟩, pc⟩, k), hist) l →
    (∀ x ∈ l ++ Cache.strays hist, ∃ u, u ∉ ts ∧ x = (P.addr u, P.obj u)) →
    ∃ st, InOrder req st ∧
      Accounted req st (ts.foldl (fun l t => Cache.recency l (P.link t)) l) ∧
      Cache.strays st.2 = Cache.strays hist ++ ts.filterMap fun t => Cache.stray (P.link t) := by
  intro ts
  induction ts with
  | nil => exact fun _ _ _ h hl _ => ⟨_, h, hl, (List.append_nil _).symm⟩
  | cons t ts ih =>
    intro pc k hist l hnd henter hrest h hl hold
    obtain ⟨ht, hnd⟩ := List.nodup_cons.mp hnd
    have hmiss : ∀ x ∈ l, (req t).accepts x = false := by
      intro x hx
      obtain ⟨u, hu, rfl⟩ := hold x (List.mem_append_left _ hx)
      exact P.apart t u fun e => hu (e ▸ List.mem_cons_self)
    have hfresh : ∀ x ∈ l ++ Cache.strays hist, x.1 ≠ P.addr t := by
      intro x hx e
      obtain ⟨u, hu, rfl⟩ := hold x hx
      exact hu (P.addr_inj e ▸ List.mem_cons_self)
    obtain ⟨k', hist', h', hl', hstrays⟩ := h.store (fun u _ => hrest u)
      (henter t List.mem_cons_self) hl hmiss (P.addr_ne t) hfresh (P.created t)
    have hnew : ∀ x ∈ l ++ Cache.strays hist, ∃ u, u ∉ ts ∧ x = (P.addr u, P.obj u) := by
      intro x hx
      obtain ⟨u, hu, rfl⟩ := hold x hx
      exact ⟨u, fun hmem => hu (List.mem_cons_of_mem t hmem), rfl⟩
    have hold' : ∀ x ∈ Cache.recency l (P.link t) ++ Cache.strays hist',
        ∃ u, u ∉ ts ∧ x = (P.addr u, P.obj u) := by
      intro x hx
      rw [hstrays, ← List.append_assoc] at hx
      rcases List.mem_append.mp hx with hx | hx
      · rcases List.mem_append.mp hx with hx | hx
        · rcases Cache.mem_recency hx with hx | ⟨y, hop, hy⟩
          · exact hnew x (List.mem_append_left _ hx)
          · obtain ⟨hc, rfl⟩ := Cache.Call.insert.inj hop
            exact ⟨t, ht, Prod.ext hc.symm hy.symm⟩
        · exact hnew x (List.mem_append_right _ hx)
      · obtain ⟨-, hx⟩ := Option.ite_none_right_eq_some.mp (Option.mem_toList.mp hx)
        exact ⟨t, ht, (Option.some.inj hx).symm⟩
    have henter' : ∀ u ∈ ts, Function.update pc t .done u = .enter := by
      intro u hu
      rw [Function.update_of_ne (ne_of_mem_of_not_mem hu ht)]
      exact henter u (List.mem_cons_of_mem t hu)
    have hrest' : ∀ u, (Function.update pc t .done u).inMove = false := by
      intro u
      by_cases hu : u = t
      · rw [hu, Function.update_self]
        rfl
      · rw [Function.update_of_ne hu, hrest u]
    obtain ⟨st, hst, hacc, hst'⟩ := ih hnd henter' hrest' h' hl' hold'
    refine ⟨st, hst, hacc, ?_⟩
    rw [hst', show Cache.strays hist' = Cache.strays hist ++ (Cache.stray (P.link t)).toList from
      hstrays, List.append_assoc, List.filterMap_cons]
    cases Cache.stray (P.link t) <;> rfl

end Alone

/-- The clients of a run ask for a page each. -/
def twelvePages (t : Fin 12) : Request := ⟨[104], [48 + t.val.toUInt8], [56, 48]⟩

/-- The length of a page. That of the sixth client is too large. -/
def pageLength (t : Fin 12) : ℕ := if t.val = 5 then 102400 else 102399

/-- The text of a page. -/
def pageBytes (t : Fin 12) : List UInt8 := List.replicate (pageLength t) 65 ++ [0]

/-- What becomes of it. -/
def pageObject (t : Fin 12) : Object :=
  ⟨[104], [48 + t.val.toUInt8], pageBytes t, pageLength t + 1, 80⟩

theorem createCI_page (t : Fin 12) : Cache.createCI (twelvePages t).hostname (twelvePages t).port
    (twelvePages t).pathname (pageBytes t) = some (pageObject t) := by
  have hnot : 0 ∉ List.replicate (pageLength t) (65 : UInt8) := fun h =>
    absurd (List.eq_of_mem_replicate h) (by decide)
  rw [pageBytes, Cache.createCI, Cache.cString_append hnot, Option.map_some,
    List.length_replicate]
  rfl

theorem accepts_page : ∀ t u : Fin 12, u ≠ t →
    (twelvePages t).accepts (8 * (u.val + 1), pageObject u) = false := by decide +kernel

theorem page_addr_inj : Function.Injective fun t : Fin 12 => 8 * (t.val + 1) := by
  intro t u h
  have he : 8 * (t.val + 1) = 8 * (u.val + 1) := h
  exact Fin.ext (by omega)

/-- The pages of the run. -/
def twelve : Pages twelvePages where
  addr t := 8 * (t.val + 1)
  data := pageBytes
  obj := pageObject
  addr_ne t := Nat.mul_ne_zero (by decide) t.val.succ_ne_zero
  addr_inj := page_addr_inj
  created := createCI_page
  apart := accepts_page

theorem recency_twelve :
    ((List.finRange 12).foldl (fun l t => Cache.recency l (twelve.link t)) []).map Prod.fst =
      [16, 24, 32, 40, 56, 64, 72, 80, 88, 96] := by decide +kernel

theorem strays_twelve :
    ((List.finRange 12).filterMap fun t => Cache.stray (twelve.link t)).map Prod.fst = [48] := by
  decide +kernel

/-- **Twelve clients, one by one**: the first page has been evicted and freed, and that of the
sixth client is allocated and in no list. -/
theorem memory_accounted_run : ∃ (st : Recorded (Fin 12)) (l : List (ℕ × Object)),
    st.1.2.Represents l ∧ l.map Prod.fst = [16, 24, 32, 40, 56, 64, 72, 80, 88, 96] ∧
      (Cache.strays st.2).map Prod.fst = [48] ∧
      ∀ c, (st.1.2.nodes.vals c).isSome ↔ c ∈ [16, 24, 32, 40, 56, 64, 72, 80, 88, 96, 48] := by
  obtain ⟨l₀, h₀⟩ := (accounted_inductive twelvePages).init rfl
  obtain rfl : [] = l₀ := h₀.explained.explains
  obtain ⟨st, hst, hacc, hstrays⟩ := InOrder.stores twelve (List.nodup_finRange 12)
    (fun _ _ => rfl) (fun _ => rfl) (.init rfl) h₀ fun x hx => absurd hx List.not_mem_nil
  obtain ⟨l, hrep, -, -, hmem, -⟩ := memory_accounted twelvePages hst
  have hl : l.map Prod.fst = [16, 24, 32, 40, 56, 64, 72, 80, 88, 96] := by
    rw [hrep.unique hacc.explained.represents, recency_twelve]
  have hout : (Cache.strays st.2).map Prod.fst = [48] := by
    rw [hstrays]
    exact strays_twelve
  refine ⟨st, l, hrep, hl, hout, fun c => ?_⟩
  have hall : (l ++ Cache.strays st.2).map Prod.fst =
      [16, 24, 32, 40, 56, 64, 72, 80, 88, 96, 48] := by
    rw [List.map_append, hl, hout]
    rfl
  rw [← hall, Option.isSome_iff_exists, List.mem_map]
  constructor
  · rintro ⟨o, ho⟩
    exact ⟨(c, o), (hmem c o).mp ho, rfl⟩
  · rintro ⟨⟨c, o⟩, hx, rfl⟩
    exact ⟨o, (hmem c o).mpr hx⟩

end Proxy

end SysProgLab
