import SysProgLab.CacheKeys
import SysProgLab.CacheThreads

/-!
# Concurrent look-ups, one after another

The steps of the threads of `SysProgLab.CacheThreads` that complete a call of the cache,
with what the call returned, are its history. As long as nobody walks the list while
another thread relinks it, and no look-up moves the first of several items, the history
is one of the abstract cache taking the same calls one after another, and an item that is
being sent to a client is still in the list (`served_in_order`).
-/

namespace SysProgLab

namespace Lru

variable {β : Type} [DecidableEq β] {p : β → Bool} {l a b : List β} {x : β}

/-- A look-up of the last match. -/
theorem touch_split (hnd : (a ++ x :: b).Nodup) (hx : p x = true)
    (hb : ∀ y ∈ b, p y = false) : touch p (a ++ x :: b) = (some x, a ++ b ++ [x]) := by
  have hfind : (a ++ x :: b).reverse.find? p = some x := by
    rw [List.reverse_append, List.reverse_cons, List.append_assoc, List.find?_append,
      List.find?_eq_none.mpr fun y hy => by
        rw [hb y (List.mem_reverse.mp hy)]
        exact Bool.false_ne_true,
      Option.none_or, List.singleton_append, List.find?_cons_of_pos hx]
  rw [touch, hfind]
  dsimp only
  have hnot : x ∉ a := fun hmem =>
    (List.nodup_append.mp hnd).2.2 x hmem x List.mem_cons_self rfl
  rw [List.erase_append_right _ hnot, List.erase_cons_head]

/-- A look-up moves an item, or none. -/
theorem touch_perm (p : β → Bool) (l : List β) : (touch p l).2.Perm l := by
  rw [touch]
  split
  · exact List.Perm.refl l
  · next y hy =>
    have hmem : y ∈ l := List.mem_reverse.mp (List.mem_of_find?_eq_some hy)
    exact (List.perm_append_singleton y _).trans (List.perm_cons_erase hmem).symm

end Lru

namespace Cache

variable {l l' : List (ℕ × Object)}

/-- What the abstract cache returns for a call. -/
def answer (l : List (ℕ × Object)) : Call → ℕ
  | .insert _ _ => 0
  | .find hostname port pathname =>
    (Lru.touch (fun x => isSame x.2 hostname port pathname) l).1.elim 0 Prod.fst

/-- The abstract cache goes from `l` to `l'` by the calls of a history, and returns what
they returned. -/
def Explains {ι : Type} (l : List (ℕ × Object)) :
    List (ι × Call × ℕ) → List (ℕ × Object) → Prop
  | [], l' => l = l'
  | x :: hist, l' => answer l x.2.1 = x.2.2 ∧ Explains (recency l x.2.1) hist l'

variable {ι : Type} {hist : List (ι × Call × ℕ)} {t : ι} {op : Call} {r : ℕ}

theorem Explains.concat (h : Explains l hist l') (t : ι) (hr : answer l' op = r) :
    Explains l (hist ++ [(t, op, r)]) (recency l' op) := by
  induction hist generalizing l with
  | nil =>
    obtain rfl : l = l' := h
    exact ⟨hr, rfl⟩
  | cons x hist ih => exact ⟨h.1, ih h.2⟩

/-- What a longer history leads to is what its end leads to from the list before. -/
theorem Explains.rest {more : List (ι × Call × ℕ)} {l₀ : List (ℕ × Object)}
    (h : Explains l₀ (hist ++ more) l') (hl : Explains l₀ hist l) : Explains l more l' := by
  induction hist generalizing l₀ with
  | nil =>
    obtain rfl : l₀ = l := hl
    exact h
  | cons x hist ih => exact ih h.2 hl.2

theorem Explains.unique {a b : List (ℕ × Object)} (h : Explains l hist a)
    (h' : Explains l hist b) : a = b := by
  rw [← List.append_nil hist] at h'
  exact h'.rest h

/-- **A look-up** neither loses nor duplicates an item of the abstract cache. -/
theorem recency_find_perm (l : List (ℕ × Object)) (hostname : CStr) (port : ℤ) (pathname : CStr) :
    (recency l (.find hostname port pathname)).Perm l := Lru.touch_perm _ l

/-- What is in the abstract cache was there before the call, or is inserted by it. -/
theorem mem_recency {x : ℕ × Object} (h : x ∈ recency l op) :
    x ∈ l ∨ ∃ y, op = .insert x.1 y ∧ y.val = x.2 := by
  cases op with
  | insert c y =>
    rw [recency] at h
    split at h
    · exact .inl h
    rcases List.mem_append.mp h with h | h
    · refine .inl ?_
      rw [← Lru.evict_append itemSize maxCacheSize y.val.size l]
      exact List.mem_append_right _ h
    · obtain rfl := List.mem_singleton.mp h
      exact .inr ⟨y, rfl, rfl⟩
  | find hostname port pathname => exact .inl ((Lru.touch_perm _ l).mem_iff.mp h)

/-- **Every item was inserted** by a call of the history. -/
theorem Explains.inserted (h : Explains l hist l') {x : ℕ × Object} (hx : x ∈ l') :
    x ∈ l ∨ ∃ t y r, (t, .insert x.1 y, r) ∈ hist ∧ y.val = x.2 := by
  induction hist generalizing l with
  | nil =>
    obtain rfl : l = l' := h
    exact .inl hx
  | cons z hist ih =>
    rcases ih h.2 with hx | ⟨t, y, r, hmem, hy⟩
    · rcases mem_recency hx with hx | ⟨y, hop, hy⟩
      · exact .inl hx
      · exact .inr ⟨z.1, y, z.2.2, by rw [← hop]; exact List.mem_cons_self, hy⟩
    · exact .inr ⟨t, y, r, List.mem_cons_of_mem z hmem, hy⟩

end Cache

namespace Proxy

/-! ## The history -/

/-- The look-up for a request. -/
def Request.find (req : Request) : Cache.Call :=
  .find req.hostname (atoi req.port) req.pathname

/-- `find_cache` accepts the item for the request. -/
def Request.accepts (req : Request) (x : ℕ × Object) : Bool :=
  Cache.isSame x.2 req.hostname (atoi req.port) req.pathname

/-- The call of the cache that a step completes, and what it returns. -/
def Pc.completes (req : Request) : Pc → Event → Option (Cache.Call × ℕ)
  | .lookup, .miss => some (req.find, 0)
  | .lookup, .hitLast c => some (req.find, c)
  | .moving c, _ => some (req.find, c)
  | .insert, .create data c prev next =>
    (Cache.createCI req.hostname req.port req.pathname data).map fun o =>
      (.insert c ⟨o, prev, next⟩, 0)
  | _, _ => none

/-- The threads, the cache and the history. -/
abbrev Recorded (ι : Type) : Type := (State ι × Cache) × List (ι × Cache.Call × ℕ)

/-- A step of `server`, which adds what it completes to the history. -/
def recordedNext {ι : Type} [DecidableEq ι] (req : ι → Request) (st : Recorded ι)
    (a : ι × Event) : Option (Recorded ι) :=
  (next req st.1 a).map fun s =>
    (s, st.2 ++ (((st.1.1.pc a.1).completes (req a.1) a.2).toList.map fun x => (a.1, x)))

/-- The threads of `server`, whose history is kept. -/
def recorded {ι : Type} [DecidableEq ι] (req : ι → Request) :
    Machine (Recorded ι) (ι × Event) where
  init st := st = ((⟨⟨1, 1, 0⟩, fun _ => .enter⟩, cacheInit), [])
  step st a st' := recordedNext req st a = some st'

/-- **Nobody relinks beside another**: a thread enters `move_to_end` only when no other one
is in `find_cache`, and `find_cache` only when none is in `move_to_end`; and the item that
it moves is not the first. -/
structure Orderly {ι : Type} (st : State ι × Cache) (a : ι × Event) : Prop where
  move : (st.1.pc a.1).entersMove a.2 = true → ∀ u, u ≠ a.1 → (st.1.pc u).finding = false
  walk : st.1.pc a.1 = .entered → ∀ u, (st.1.pc u).inMove = false
  first : (st.1.pc a.1).entersMove a.2 = true → a.2 ≠ .hitMove st.2.head

/-! ## Look-ups -/

section LookUps

variable {k : Cache} {l : List (ℕ × Object)} {req : Request} {e : Event}

/-- **How a look-up ends**: without a match, at the last item, or at another one. -/
theorem lookupEvent_cases (h : k.Represents l) (he : lookupEvent k req = some e) :
    (e = .miss ∧ ∀ x ∈ l, req.accepts x = false) ∨
      ∃ a x b, l = a ++ x :: b ∧ req.accepts x = true ∧ (∀ y ∈ b, req.accepts y = false) ∧
        e = if b = [] then .hitLast x.1 else .hitMove x.1 := by
  have hloop := Cache.Represents.findLoop req.hostname (atoi req.port) req.pathname
    h.seg h.ne_zero (Nat.lt_succ_self _)
  rw [← h.tail, ← h.num] at hloop
  rw [lookupEvent, hloop, Option.bind_eq_bind, Option.bind_some] at he
  cases hfind : l.reverse.find? fun x => req.accepts x with
  | none =>
    rw [show (l.reverse.find? fun x => Cache.isSame x.2 req.hostname (atoi req.port)
      req.pathname) = none from hfind] at he
    refine .inl ⟨(Option.some.inj he).symm, fun x hx => ?_⟩
    rw [List.find?_eq_none] at hfind
    exact Bool.not_eq_true _ ▸ hfind x (List.mem_reverse.mpr hx)
  | some x =>
    rw [show (l.reverse.find? fun x => Cache.isSame x.2 req.hostname (atoi req.port)
      req.pathname) = some x from hfind, Option.elim_some] at he
    obtain ⟨a, b, rfl, hx, hb, -⟩ := Lru.touch_some h.nodup.of_map hfind
    refine .inr ⟨a, x, b, rfl, hx, hb, ?_⟩
    have hx0 := h.ne_zero x (List.mem_append_right _ List.mem_cons_self)
    rw [if_neg hx0, Nodes.deref_of_some hx0 h.seg.focus, Option.bind_eq_bind,
      Option.bind_some] at he
    cases b with
    | nil => exact (Option.some.inj he).symm
    | cons y b =>
      have hy0 := h.ne_zero y (List.mem_append_right _ (List.mem_cons_of_mem _ List.mem_cons_self))
      rw [if_neg (List.cons_ne_nil _ _)]
      rw [show headAddr (y :: b) 0 = y.1 from rfl, if_neg hy0] at he
      exact (Option.some.inj he).symm

theorem find_none (h : ∀ x ∈ l, req.accepts x = false) :
    (l.reverse.find? fun x => Cache.isSame x.2 req.hostname (atoi req.port) req.pathname) =
      none :=
  List.find?_eq_none.mpr fun x hx => ne_true_of_eq_false (h x (List.mem_reverse.mp hx))

/-- Without a match the look-up finds nothing. -/
theorem lookupEvent_miss (h : k.Represents l) (hl : ∀ x ∈ l, req.accepts x = false) :
    lookupEvent k req = some .miss := by
  have hloop := Cache.Represents.findLoop req.hostname (atoi req.port) req.pathname
    h.seg h.ne_zero (Nat.lt_succ_self _)
  rw [← h.tail, ← h.num, find_none hl] at hloop
  rw [lookupEvent, hloop]
  rfl

theorem answer_miss (h : ∀ x ∈ l, req.accepts x = false) :
    Cache.answer l req.find = 0 ∧ Cache.recency l req.find = l := by
  rw [Request.find, Cache.answer, Cache.recency, Cache.lruPerform, Lru.touch_none (find_none h)]
  exact ⟨rfl, rfl⟩

theorem answer_hit {a b : List (ℕ × Object)} {x : ℕ × Object} (hnd : (a ++ x :: b).Nodup)
    (hx : req.accepts x = true) (hb : ∀ y ∈ b, req.accepts y = false) :
    Cache.answer (a ++ x :: b) req.find = x.1 ∧
      Cache.recency (a ++ x :: b) req.find = a ++ b ++ [x] := by
  have htouch : Lru.touch (fun x => Cache.isSame x.2 req.hostname (atoi req.port) req.pathname)
      (a ++ x :: b) = (some x, a ++ b ++ [x]) := Lru.touch_split hnd hx hb
  rw [Request.find, Cache.answer, Cache.recency, Cache.lruPerform, htouch]
  exact ⟨rfl, rfl⟩

end LookUps

/-! ## One step -/

namespace Pc

/-- At a point where the thread has found an item. -/
def holding : Pc → Bool
  | .moving _ | .serve _ => true
  | _ => false

theorem inside_of_holding {p : Pc} (h : p.holding = true) : p.inside = true := by
  cases p <;> first | rfl | cases h

/-- **What a step does to the cache**: nothing, if it does not complete a call. -/
theorem cacheStep_cases {req : Request} {k k' : Cache} {v v' : Shared} {p x : Pc} {e : Event}
    (hp : p.step v e = some (v', x)) (hk : p.cacheStep req k e = some k') :
    (p.completes req e = none ∧ k' = k ∧ x.holding = false) ∨
      (∃ c, p = .lookup ∧ e = .hitMove c ∧ p.completes req e = none ∧ k' = k ∧ x = .moving c ∧
        lookupEvent k req = some e) ∨
      (∃ r, p = .lookup ∧ k' = k ∧ lookupEvent k req = some e ∧
        p.completes req e = some (req.find, r) ∧
        (e = .miss ∧ r = 0 ∧ x = .leave false ∨ e = .hitLast r ∧ x = .serve r)) ∨
      (∃ c, p = .moving c ∧ k.moveToEnd c = some k' ∧ x = .serve c ∧
        p.completes req e = some (req.find, c)) ∨
      ∃ data c o prev next evicted, p = .insert ∧ c ≠ 0 ∧ k.nodes c = none ∧
        Cache.createCI req.hostname req.port req.pathname data = some o ∧
        Cache.insertCache { k with nodes := Function.update k.nodes c (some ⟨o, prev, next⟩) } c =
          some (evicted, k') ∧ x = .writerUnlock ∧
        p.completes req e = some (.insert c ⟨o, prev, next⟩, 0) := by
  cases p
  case lookup =>
    obtain ⟨he, hk⟩ := Option.ite_none_right_eq_some.mp hk
    obtain rfl := Option.some.inj hk
    cases e with
    | miss =>
      cases hp
      exact .inr (.inr (.inl ⟨0, rfl, rfl, he, rfl, .inl ⟨rfl, rfl, rfl⟩⟩))
    | hitLast c =>
      cases hp
      exact .inr (.inr (.inl ⟨c, rfl, rfl, he, rfl, .inr ⟨rfl, rfl⟩⟩))
    | hitMove c =>
      cases hp
      exact .inr (.inl ⟨c, rfl, rfl, rfl, rfl, rfl, he⟩)
    | go | refused | create => cases hp
  case moving c =>
    cases hp
    exact .inr (.inr (.inr (.inl ⟨c, rfl, hk, rfl, rfl⟩)))
  case insert =>
    cases hp
    cases e with
    | create data c prev next =>
      obtain ⟨⟨hc0, hfresh⟩, hk⟩ := Option.ite_none_right_eq_some.mp hk
      obtain ⟨o, ho, hk⟩ := Option.bind_eq_some_iff.mp hk
      obtain ⟨⟨evicted, k₁⟩, hins, hk⟩ := Option.bind_eq_some_iff.mp hk
      cases hk
      refine .inr (.inr (.inr (.inr ⟨data, c, o, prev, next, evicted, rfl, hc0,
        Option.isNone_iff_eq_none.mp hfresh, ho, hins, rfl, ?_⟩)))
      rw [completes, ho]
      rfl
    | go | miss | hitLast | hitMove | refused => cases hk
  case enter | leave | lock | writerLock =>
    obtain ⟨-, hp⟩ := Option.ite_none_right_eq_some.mp hp
    cases hp
    cases hk
    exact .inl ⟨rfl, rfl, rfl⟩
  case testFirst | testLast | left =>
    cases hp
    cases hk
    refine .inl ⟨rfl, rfl, ?_⟩
    split <;> rfl
  case fetch =>
    cases hk
    cases e <;> cases hp <;> exact .inl ⟨rfl, rfl, rfl⟩
  case done => cases hp
  all_goals
    cases hp
    cases hk
    exact .inl ⟨rfl, rfl, rfl⟩

end Pc

variable {ι : Type} [Fintype ι]

/-- While a thread inserts, no other one holds an item. -/
theorem Balanced.none_holding {s : State ι} (h : Balanced s.shared (census s.pc)) {t u : ι}
    (ht : s.pc t = .insert) : (s.pc u).holding = false := by
  cases hu : (s.pc u).holding with
  | false => rfl
  | true =>
    have hin : 0 < (census s.pc).inside := threads_pos (Pc.inside_of_holding hu)
    have hw : 0 < (census s.pc).writing := threads_pos (t := t) (by rw [ht]; rfl)
    have hheld := h.held (.inl hin)
    omega

/-! ## Runs -/

theorem Orderly.alone {ι : Type} {st : State ι × Cache} {a : ι × Event} (h : Orderly st a) :
    AloneInMove st a := by
  intro henters u
  by_cases hu : u = a.1
  · rw [hu]
    cases hp : st.1.pc a.1 with
    | moving c =>
      rw [hp] at henters
      cases henters
    | _ => rfl
  · have hfinding := h.move henters u hu
    cases hp : (st.1.pc u).inMove with
    | false => rfl
    | true =>
      rw [Pc.finding_of_inMove hp] at hfinding
      cases hfinding

/-- What a thread has found for its request is in the list; an item that it moves is the last
that matches, and neither first nor last of all. -/
def Pc.Backed (req : Request) (l : List (ℕ × Object)) : Pc → Prop
  | .moving c => ∃ a w x y b, l = a ++ w :: x :: y :: b ∧ x.1 = c ∧ req.accepts x = true ∧
      ∀ z ∈ y :: b, req.accepts z = false
  | .serve c => ∃ x ∈ l, x.1 = c ∧ req.accepts x = true
  | _ => True

theorem Pc.Backed.of_holding {p : Pc} (h : p.holding = false) (req : Request)
    (l : List (ℕ × Object)) : p.Backed req l := by
  cases p with
  | moving | serve => cases h
  | _ => exact trivial

theorem Pc.relinking_of_inMove {p : Pc} (h : p.inMove = true) : p.relinking = true := by
  cases p <;> first | rfl | cases h

theorem Pc.Backed.mono {req : Request} {l l' : List (ℕ × Object)} {p : Pc} (h : p.Backed req l)
    (hp : p.inMove = false) (hsub : ∀ x ∈ l, x ∈ l') : p.Backed req l' := by
  cases p with
  | moving => cases hp
  | serve c =>
    obtain ⟨x, hx, hc, haccepts⟩ := h
    exact ⟨x, hsub x hx, hc, haccepts⟩
  | _ => exact trivial

section Ends

variable {k k' : Cache} {l : List (ℕ × Object)} {req : Request} {c : ℕ}

/-- The look-up goes on in `move_to_end`. -/
theorem backed_of_hitMove (h : k.Represents l) (hlook : lookupEvent k req = some (.hitMove c))
    (hfirst : c ≠ k.head) : (Pc.moving c).Backed req l := by
  rcases lookupEvent_cases h hlook with ⟨he, -⟩ | ⟨a, x, b, rfl, hx, hb, he⟩
  · cases he
  cases b with
  | nil =>
    rw [if_pos rfl] at he
    cases he
  | cons y b =>
    rw [if_neg (List.cons_ne_nil _ _)] at he
    obtain rfl := Event.hitMove.inj he
    rcases List.eq_nil_or_concat a with rfl | ⟨a, w, rfl⟩
    · exact absurd h.head.symm hfirst
    · rw [List.concat_eq_append, List.append_assoc, List.singleton_append]
      exact ⟨a, w, x, y, b, rfl, rfl, hx, hb⟩

/-- The look-up finds nothing. -/
theorem answer_of_miss (h : k.Represents l) (hlook : lookupEvent k req = some .miss) :
    Cache.answer l req.find = 0 ∧ Cache.recency l req.find = l := by
  rcases lookupEvent_cases h hlook with ⟨-, hnone⟩ | ⟨a, x, b, -, -, -, he⟩
  · exact answer_miss hnone
  · split at he <;> cases he

/-- The look-up finds the last item. -/
theorem answer_of_hitLast (h : k.Represents l) (hlook : lookupEvent k req = some (.hitLast c)) :
    Cache.answer l req.find = c ∧ Cache.recency l req.find = l ∧ (Pc.serve c).Backed req l := by
  rcases lookupEvent_cases h hlook with ⟨he, -⟩ | ⟨a, x, b, rfl, hx, hb, he⟩
  · cases he
  cases b with
  | cons y b =>
    rw [if_neg (List.cons_ne_nil _ _)] at he
    cases he
  | nil =>
    rw [if_pos rfl] at he
    obtain rfl := Event.hitLast.inj he
    obtain ⟨hanswer, hrec⟩ := answer_hit h.nodup.of_map hx hb
    rw [List.append_nil] at hrec
    exact ⟨hanswer, hrec, x, List.mem_append_right _ List.mem_cons_self, rfl, hx⟩

/-- **`move_to_end` ends the look-up** as the abstract cache does. -/
theorem answer_of_moving (h : k.Represents l) (hb : (Pc.moving c).Backed req l)
    (hmove : k.moveToEnd c = some k') :
    Cache.answer l req.find = c ∧ k'.Represents (Cache.recency l req.find) ∧
      (Pc.serve c).Backed req (Cache.recency l req.find) ∧
      ∀ x ∈ l, x ∈ Cache.recency l req.find := by
  obtain ⟨a, w, x, y, b, rfl, rfl, hx, hb⟩ := hb
  obtain ⟨k₁, e, h'⟩ := h.moveToEnd_inner
  cases hmove.symm.trans e
  have hsplit : a ++ w :: x :: y :: b = (a ++ [w]) ++ x :: y :: b := by
    rw [List.append_assoc, List.singleton_append]
  have hnd := h.nodup.of_map
  rw [hsplit] at hnd
  obtain ⟨hanswer, hrec⟩ := answer_hit hnd hx hb
  rw [← hsplit] at hanswer hrec
  rw [List.append_assoc a [w], List.singleton_append] at hrec
  rw [hrec]
  refine ⟨hanswer, h', ⟨x, List.mem_append_right _ List.mem_cons_self, rfl, hx⟩, fun z hz => ?_⟩
  rw [hsplit] at hz
  rcases List.mem_append.mp hz with hz | hz
  · rcases List.mem_append.mp hz with hz | hz
    · exact List.mem_append_left _ (List.mem_append_left _ hz)
    · obtain rfl := List.mem_singleton.mp hz
      exact List.mem_append_left _ (List.mem_append_right _ List.mem_cons_self)
  · rcases List.mem_cons.mp hz with rfl | hz
    · exact List.mem_append_right _ List.mem_cons_self
    · exact List.mem_append_left _ (List.mem_append_right _ (List.mem_cons_of_mem w hz))

/-- `insert_cache` inserts as the abstract cache does. -/
theorem represents_of_insert {o : Object} {data : List UInt8} {prev next : ℕ} {evicted : List ℕ}
    (h : k.Represents l) (hc0 : c ≠ 0) (hfresh : k.nodes c = none)
    (ho : Cache.createCI req.hostname req.port req.pathname data = some o)
    (hins : Cache.insertCache { k with nodes := Function.update k.nodes c (some ⟨o, prev, next⟩) } c
      = some (evicted, k')) :
    k'.Represents (Cache.recency l (.insert c ⟨o, prev, next⟩)) := by
  have hpos : 0 < o.size := Cache.createCI_pos ho
  have hstep : Cache.keyed.step (k, l) (.insert c ⟨o, prev, next⟩)
      (k', Cache.recency l (.insert c ⟨o, prev, next⟩)) :=
    ⟨⟨hc0, hfresh, hpos⟩, ⟨_, by rw [Cache.perform, hins, Option.map_some]⟩, rfl⟩
  have hhead : Cache.hitsHead l (.insert c ⟨o, prev, next⟩) = false := by
    cases l with
    | nil => rfl
    | cons x l => cases l <;> rfl
  exact Cache.keyed_inductive.step (s := (k, l)) h hhead hstep

end Ends

theorem backed_update {ι : Type} [DecidableEq ι] {req : ι → Request} {pc : ι → Pc}
    {l : List (ℕ × Object)} {t : ι} {x : Pc} (hx : x.Backed (req t) l) (hrest : ∀ u, u ≠ t → (pc u).Backed (req u) l) :
    ∀ u, (Function.update pc t x u).Backed (req u) l := by
  intro u
  by_cases hu : u = t
  · rw [hu, Function.update_self]
    exact hx
  · rw [Function.update_of_ne hu]
    exact hrest u hu

variable [DecidableEq ι] {req : ι → Request}

/-- The insertions of a history have created their objects from some data. -/
def Created (req : ι → Request) (hist : List (ι × Cache.Call × ℕ)) : Prop :=
  ∀ t c y r, (t, .insert c y, r) ∈ hist →
    ∃ data, Cache.createCI (req t).hostname (req t).port (req t).pathname data = some y.val

/-- The cache holds a list that explains the history, and what the threads have found is in
it. -/
structure Explained (req : ι → Request) (st : Recorded ι) (l : List (ℕ × Object)) : Prop where
  serialised : Serialised st.1.1
  represents : st.1.2.Represents l
  explains : Cache.Explains [] st.2 l
  created : Created req st.2
  backed : ∀ t, (st.1.1.pc t).Backed (req t) l

omit [Fintype ι] [DecidableEq ι] in
theorem created_concat {hist : List (ι × Cache.Call × ℕ)} (h : Created req hist) {t : ι}
    {op : Cache.Call} {r : ℕ} (hop : ∀ c y, op = .insert c y →
      ∃ data, Cache.createCI (req t).hostname (req t).port (req t).pathname data = some y.val) :
    Created req (hist ++ [(t, op, r)]) := by
  intro u c y r' hmem
  rcases List.mem_append.mp hmem with hmem | hmem
  · exact h u c y r' hmem
  · cases List.mem_singleton.mp hmem
    exact hop c y rfl

theorem find_created {P : ℕ → CachedItem → Prop} (req : Request) :
    ∀ c y, req.find = .insert c y → P c y := fun _ _ he => by cases he

variable {st st' : Recorded ι} {l : List (ℕ × Object)} {t : ι} {e : Event}

omit [Fintype ι] in
/-- A step of a thread, in its parts. -/
theorem recorded_step (hs : (recorded req).step st (t, e) st') : ∃ v x,
    Proxy.next req st.1 (t, e) = some st'.1 ∧
      (st.1.1.pc t).step st.1.1.shared e = some (v, x) ∧
      (st.1.1.pc t).cacheStep (req t) st.1.2 e = some st'.1.2 ∧
      st'.1.1 = ⟨v, Function.update st.1.1.pc t x⟩ ∧
      st.2 ++ (((st.1.1.pc t).completes (req t) e).toList.map fun x => (t, x)) = st'.2 := by
  obtain ⟨sk, hnext, rfl⟩ := Option.map_eq_some_iff.mp hs
  obtain ⟨s', hs', hk⟩ := Option.bind_eq_some_iff.mp hnext
  obtain ⟨k', hcache, hk⟩ := Option.bind_eq_some_iff.mp hk
  cases hk
  obtain ⟨⟨v, x⟩, hstep, rfl⟩ := Option.map_eq_some_iff.mp hs'
  exact ⟨v, x, hnext, hstep, hcache, rfl, rfl⟩

/-- **One step** of a thread. -/
theorem Explained.next (h : Explained req st l) (ho : Orderly st.1 (t, e))
    (hs : (recorded req).step st (t, e) st') : ∃ l', Explained req st' l' := by
  obtain ⟨⟨s, k⟩, hist⟩ := st
  obtain ⟨⟨s', k'⟩, hist'⟩ := st'
  obtain ⟨v, x, hnext, hstep, hcache, hmoved, hhist⟩ := recorded_step hs
  obtain rfl : s' = _ := hmoved
  have hserialised := (server_inductive req).step h.serialised ho.alone hnext
  dsimp only at hhist hserialised hcache hstep
  have hrep := h.represents
  have hexp := h.explains
  have hback := h.backed
  dsimp only at hrep hexp hback
  rcases Pc.cacheStep_cases hstep hcache with ⟨hnone, rfl, hx⟩ |
    ⟨c, hp, rfl, hnone, rfl, rfl, hlook⟩ | ⟨r, hp, rfl, hlook, hdone, hend⟩ |
    ⟨c, hp, hmove, rfl, hdone⟩ |
    ⟨data, c, o, prev, next, evicted, hp, hc0, hfresh, ho', hins, rfl, hdone⟩
  · -- the step completes nothing
    rw [hnone, Option.toList_none, List.map_nil, List.append_nil] at hhist
    rw [← hhist]
    exact ⟨l, hserialised, hrep, hexp, h.created,
      backed_update (.of_holding hx _ _) fun u _ => hback u⟩
  · -- the look-up goes on in `move_to_end`
    rw [hnone, Option.toList_none, List.map_nil, List.append_nil] at hhist
    rw [← hhist]
    have hfirst : c ≠ k'.head := fun hc =>
      ho.first (by rw [hp]; rfl) (congrArg Event.hitMove hc)
    exact ⟨l, hserialised, hrep, hexp, h.created,
      backed_update (backed_of_hitMove hrep hlook hfirst) fun u _ => hback u⟩
  · -- the look-up is at its end
    rw [hdone, Option.toList_some, List.map_singleton] at hhist
    rw [← hhist]
    have hcreated := created_concat h.created (t := t) (r := r) (find_created (req t))
    rcases hend with ⟨rfl, rfl, rfl⟩ | ⟨rfl, rfl⟩
    · obtain ⟨hanswer, hrec⟩ := answer_of_miss hrep hlook
      refine ⟨l, hserialised, hrep, ?_, hcreated, backed_update trivial fun u _ => hback u⟩
      exact hrec ▸ hexp.concat t hanswer
    · obtain ⟨hanswer, hrec, hserve⟩ := answer_of_hitLast hrep hlook
      refine ⟨l, hserialised, hrep, ?_, hcreated, backed_update hserve fun u _ => hback u⟩
      exact hrec ▸ hexp.concat t hanswer
  · -- the item is moved, and no other thread is in `move_to_end`
    rw [hdone, Option.toList_some, List.map_singleton] at hhist
    rw [← hhist]
    have hmoving := hback t
    rw [hp] at hmoving
    obtain ⟨hanswer, hrep', hserve, hsub⟩ := answer_of_moving hrep hmoving hmove
    refine ⟨_, hserialised, hrep', hexp.concat t hanswer,
      created_concat h.created (find_created (req t)), backed_update hserve fun u hu => ?_⟩
    have ht : (s.pc t).relinking = true := by rw [hp]; rfl
    have hnot : (s.pc u).inMove = false := by
      cases hin : (s.pc u).inMove with
      | false => rfl
      | true => exact (h.serialised.disjoint hu.symm ⟨ht, Pc.relinking_of_inMove hin⟩).elim
    exact (hback u).mono hnot hsub
  · -- the writer inserts, and nobody holds an item
    rw [hdone, Option.toList_some, List.map_singleton] at hhist
    rw [← hhist]
    refine ⟨_, hserialised, represents_of_insert hrep hc0 hfresh ho' hins, hexp.concat t rfl,
      created_concat h.created fun c' y he => ?_, backed_update trivial fun u _ => ?_⟩
    · cases he
      exact ⟨data, ho'⟩
    · exact .of_holding (h.serialised.balanced.none_holding hp) _ _

theorem recorded_inductive (req : ι → Request) :
    (recorded req).Inductive (fun st a => Orderly st.1 a) fun st => ∃ l, Explained req st l where
  init := by
    rintro _ rfl
    have hserialised := (server_inductive req).init rfl
    exact ⟨[], hserialised, Cache.Represents.init, rfl,
      fun _ _ _ _ h => absurd h List.not_mem_nil, fun _ => trivial⟩
  step := by
    rintro st ⟨t, e⟩ st' ⟨l, h⟩ ho hs
    exact h.next ho hs

/-- **The look-ups and insertions of all threads** are those of the abstract cache, one after
another in the order in which they end; the list is what the abstract cache holds, and what is
sent to a client is an item of the list, which a thread has created for a request with the
same host and path up to letter case. -/
theorem served_in_order (req : ι → Request)
    (h : (recorded req).ReachWhen (fun st a => Orderly st.1 a) st) :
    ∃ l, Cache.Explains [] st.2 l ∧ st.1.2.Represents l ∧
      ∀ t c, st.1.1.pc t = .serve c → ∃ x ∈ l, x.1 = c ∧
        (∃ y, st.1.2.nodes.deref c = some y ∧ y.val = x.2) ∧
        ∃ u y r data, (u, .insert c y, r) ∈ st.2 ∧ y.val = x.2 ∧
          Cache.createCI (req u).hostname (req u).port (req u).pathname data = some x.2 ∧
          strcaseEq (req u).hostname (req t).hostname = true ∧
          strcaseEq (req u).pathname (req t).pathname = true := by
  obtain ⟨l, hl⟩ := (recorded_inductive req).holds h
  refine ⟨l, hl.explains, hl.represents, fun t c hpc => ?_⟩
  have hback := hl.backed t
  rw [hpc] at hback
  obtain ⟨x, hx, rfl, haccepts⟩ := hback
  refine ⟨x, hx, rfl, hl.represents.deref hx, ?_⟩
  rcases hl.explains.inserted hx with hnil | ⟨u, y, r, hmem, hy⟩
  · cases hnil
  obtain ⟨data, hdata⟩ := hl.created u x.1 y r hmem
  rw [hy] at hdata
  refine ⟨u, y, r, data, hmem, hy, hdata, ?_⟩
  obtain ⟨str, -, ho⟩ := Option.map_eq_some_iff.mp hdata
  rw [Request.accepts, Cache.isSame, Bool.and_eq_true, ← ho] at haccepts
  exact haccepts

instance (st : State ι × Cache) (a : ι × Event) : Decidable (Orderly st a) :=
  decidable_of_iff
    (((st.1.pc a.1).entersMove a.2 = true → ∀ u, u ≠ a.1 → (st.1.pc u).finding = false) ∧
      (st.1.pc a.1 = .entered → ∀ u, (st.1.pc u).inMove = false) ∧
      ((st.1.pc a.1).entersMove a.2 = true → a.2 ≠ .hitMove st.2.head))
    ⟨fun h => ⟨h.1, h.2.1, h.2.2⟩, fun h => ⟨h.move, h.walk, h.first⟩⟩

/-- A request that misses, is answered by the server and leaves the item `c`. -/
def missRun (t : Fin 4) (c : ℕ) : List (Fin 4 × Event) :=
  List.replicate 5 (t, .go) ++ [(t, .miss)] ++ List.replicate 7 (t, .go) ++
    [(t, .create [0] c 0 0), (t, .go)]

/-- The last thread asks for the page of the second one. -/
def threePages (t : Fin 4) : Request :=
  ⟨[104], if t.val = 0 then [97] else if t.val = 2 then [99] else [98], [56, 48]⟩

/-- Three pages are stored, the last while a reader waits for the writer; its look-up moves the
second of them. -/
theorem served_in_order_run : ∃ (st : Recorded (Fin 4)) (l : List (ℕ × Object)),
    st.1.1.pc 3 = .serve 16 ∧ Cache.Explains [] st.2 l ∧ ∃ x ∈ l, x.1 = 16 := by
  have hrun : ((Machine.exec
      (fun st a => if Orderly st.1 a then recordedNext threePages st a else none)
      ((⟨⟨1, 1, 0⟩, fun _ => .enter⟩, cacheInit), [])
      (missRun 0 8 ++ missRun 1 16 ++ (missRun 2 24).take 13 ++ List.replicate 3 (3, .go) ++
        (missRun 2 24).drop 13 ++ [(3, .go), (3, .go), (3, .hitMove 16), (3, .go)])).any fun st =>
      st.1.1.pc 3 = .serve 16) = true := by
    decide +kernel
  obtain ⟨st, e, hst⟩ := (Option.any_eq_true ..).mp hrun
  have hst : st.1.1.pc 3 = .serve 16 := by simpa using hst
  have hreach : (recorded threePages).ReachWhen (fun st a => Orderly st.1 a) st :=
    Machine.ReachWhen.exec (fun _ _ _ hnext => Option.ite_none_right_eq_some.mp hnext)
      (.init rfl) e
  obtain ⟨l, hexp, -, hserve⟩ := served_in_order threePages hreach
  obtain ⟨x, hx, hc, -⟩ := hserve 3 16 hst
  exact ⟨st, l, hst, hexp, x, hx, hc⟩

end Proxy

end SysProgLab
