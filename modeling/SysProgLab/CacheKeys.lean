import SysProgLab.CacheRuns

/-!
# The keys of the cache

An item is created for a host name, a port and a path. `find_cache` looks for a
host name and a path that agree up to case, and for no port, so that it may return
an item of another key. It returns what the key asks for exactly when no item of
another key that it accepts has been used since the last item of the key.
-/

namespace SysProgLab

namespace Cache

/-- What `find_cache` is asked for. -/
structure Key : Type where
  /-- `hostname` -/
  hostname : CStr
  /-- `port` -/
  port : ℤ
  /-- `pathname` -/
  pathname : CStr

namespace Key

variable (k : Key)

/-- The object was created for the key: the same host up to case, the same port and
the same path. -/
def Of (o : Object) : Prop :=
  strcaseEq o.hostname k.hostname = true ∧ o.port = k.port ∧ o.pathname = k.pathname

instance : DecidablePred k.Of := fun _ =>
  inferInstanceAs (Decidable (_ ∧ _ ∧ _))

/-- `find_cache` accepts the object. -/
def accepts (o : Object) : Bool := isSame o k.hostname k.port k.pathname

/-- `find_cache` accepts every object of the key. -/
theorem Of.accepts {k : Key} {o : Object} (h : k.Of o) : k.accepts o = true := by
  rw [Key.accepts, isSame, h.1, h.2.2]
  simp [strcaseEq]

/-- **What `find_cache` should return**, in a cache of the items `l`: an item of the
key only, and the most recent one when there is one. -/
def Found (s : Cache) (l : List (ℕ × Object)) : Prop :=
  ∃ c s', s.findCache k.hostname k.port k.pathname = some (c, s') ∧
    (c ≠ 0 → ∃ x, s.nodes c = some x ∧ k.Of x.val) ∧
    ∀ a x b, l = a ++ x :: b → k.Of x.2 → (∀ y ∈ b, ¬k.Of y.2) → c = x.1

/-- **When it does**: after every item of another key that `find_cache` accepts comes
an item of the key. -/
def Unmistaken (l : List (ℕ × Object)) : Prop :=
  ∀ a x b, l = a ++ x :: b → k.accepts x.2 = true → ¬k.Of x.2 → ∃ y ∈ b, k.Of y.2

end Key

/-- Two places in a list are the same, or one is before the other. -/
theorem eq_or_mem_of_split {α : Type*} {a a' b b' : List α} {x y : α}
    (h : a ++ x :: b = a' ++ y :: b') : x = y ∨ x ∈ b' ∨ y ∈ b := by
  rcases List.append_eq_append_iff.mp h with ⟨c, -, h⟩ | ⟨c, -, h⟩
  · cases c with
    | nil => exact .inl (List.cons.inj h).1
    | cons z c =>
      obtain ⟨-, rfl⟩ := List.cons.inj h
      exact .inr (.inr (List.mem_append_right _ (List.mem_cons_self ..)))
  · cases c with
    | nil => exact .inl (List.cons.inj h).1.symm
    | cons z c =>
      obtain ⟨-, rfl⟩ := List.cons.inj h
      exact .inr (.inl (List.mem_append_right _ (List.mem_cons_self ..)))

section Search

variable {s : Cache} {l : List (ℕ × Object)} {k : Key}

/-- `find_cache` returns the last item it accepts. -/
theorem Represents.findCache_eq (h : s.Represents l) :
    (∃ s', s.findCache k.hostname k.port k.pathname = some (0, s') ∧
      ∀ x ∈ l, k.accepts x.2 = false) ∨
    ∃ s' a x b, s.findCache k.hostname k.port k.pathname = some (x.1, s') ∧ l = a ++ x :: b ∧
      k.accepts x.2 = true ∧ ∀ y ∈ b, k.accepts y.2 = false := by
  obtain ⟨s', e, -⟩ := h.perform_find k.hostname k.port k.pathname
  obtain ⟨⟨c, s₁⟩, hfind, heq⟩ := Option.map_eq_some_iff.mp e
  have hc : c = (Lru.touch (fun x : ℕ × Object => k.accepts x.2) l).1.elim 0 Prod.fst :=
    Reply.found.inj (congrArg Prod.fst heq)
  cases hlast : l.reverse.find? fun x => k.accepts x.2 with
  | none =>
    rw [Lru.touch_none hlast] at hc
    obtain rfl : c = 0 := hc
    refine .inl ⟨s₁, hfind, fun x hx => ?_⟩
    simpa using List.find?_eq_none.mp hlast x (List.mem_reverse.mpr hx)
  | some x =>
    obtain ⟨a, b, hl, hx, hb, htouch⟩ := Lru.touch_some h.nodup.of_map hlast
    rw [htouch] at hc
    obtain rfl : c = x.1 := hc
    exact .inr ⟨s₁, a, x, b, hfind, hl, hx, hb⟩

/-- **`find_cache` returns what the key asks for exactly when it is not mistaken.** -/
theorem Represents.lookup_iff (h : s.Represents l) : k.Found s l ↔ k.Unmistaken l := by
  rcases h.findCache_eq (k := k) with ⟨s', e, hnone⟩ | ⟨s', a, x, b, e, rfl, hx, hb⟩
  · -- no item is accepted, so none is of the key
    refine iff_of_true ⟨0, s', e, fun hne => absurd rfl hne, ?_⟩ ?_
    · rintro a x b rfl hof -
      have hx := hnone x (List.mem_append_right _ (List.mem_cons_self ..))
      rw [hof.accepts] at hx
      cases hx
    · rintro a x b rfl hacc -
      have hx := hnone x (List.mem_append_right _ (List.mem_cons_self ..))
      rw [hacc] at hx
      cases hx
  have hmem : x ∈ a ++ x :: b := List.mem_append_right _ (List.mem_cons_self ..)
  obtain ⟨v, hv, hval⟩ := h.seg.val_of_mem hmem
  constructor
  · -- the item returned is of the key, and no later one is accepted
    rintro ⟨c, s₁, e₁, hof, -⟩ a' y b' hl hacc hnot
    obtain ⟨rfl, -⟩ : x.1 = c ∧ s' = s₁ := by simpa using e.symm.trans e₁
    obtain ⟨w, hw, hkey⟩ := hof (h.ne_zero x hmem)
    obtain rfl : v = w := Option.some.inj (hv.symm.trans hw)
    rw [hval] at hkey
    rcases eq_or_mem_of_split hl with rfl | hxb | hyb
    · exact absurd hkey hnot
    · exact ⟨x, hxb, hkey⟩
    · rw [hb y hyb] at hacc
      cases hacc
  · intro hun
    have hkey : k.Of x.2 := by
      by_contra hnot
      obtain ⟨y, hy, hof⟩ := hun a x b rfl hx hnot
      have hacc := hb y hy
      rw [hof.accepts] at hacc
      cases hacc
    refine ⟨x.1, s', e, fun _ => ⟨v, hv, hval ▸ hkey⟩, fun a' y b' hl hof hlast => ?_⟩
    rcases eq_or_mem_of_split hl with rfl | hxb | hyb
    · rfl
    · exact absurd hkey (hlast x hxb)
    · have hacc := hb y hyb
      rw [hof.accepts] at hacc
      cases hacc

end Search

/-! ## Runs -/

/-- A new node is not among the allocated ones; its data may be of any size. -/
def Call.Created (s : Cache) : Call → Prop
  | .insert c x => c ≠ 0 ∧ s.nodes c = none ∧ 0 < x.val.size
  | .find _ _ _ => True

/-- The items after a call, the most recent last; an item that is too large is not
cached. -/
def recency (l : List (ℕ × Object)) : Call → List (ℕ × Object)
  | .insert c x => if (maxObjectSize : ℤ) < x.val.size then l else (lruPerform l (.insert c x)).2
  | .find hostname port pathname => (lruPerform l (.find hostname port pathname)).2

/-- Calls with items of any key and any size, from `cache_init`. -/
def keyed : Machine (Cache × List (ℕ × Object)) Call where
  init st := st = (cacheInit, [])
  step st op st' :=
    op.Created st.1 ∧ (∃ out, st.1.perform op = some (out, st'.1)) ∧ st'.2 = recency st.2 op

theorem keyed_inductive :
    keyed.Inductive (fun st op => hitsHead st.2 op = false) fun st => st.1.Represents st.2 where
  init := by
    rintro _ rfl
    exact Represents.init
  step := by
    rintro ⟨s, l⟩ op ⟨s', l'⟩ h hne ⟨hcreated, ⟨out, e⟩, rfl⟩
    cases op with
    | insert c x =>
      obtain ⟨hc0, hfresh, hpos⟩ := hcreated
      by_cases hbig : (maxObjectSize : ℤ) < x.val.size
      · rw [recency, if_pos hbig]
        obtain ⟨r, hr, heq⟩ := Option.map_eq_some_iff.mp e
        rw [insertCache, Nodes.deref_of_some hc0 (Function.update_self ..)] at hr
        cases (if_pos hbig).symm.trans hr
        cases heq
        exact h.addNode hfresh x
      · rw [recency, if_neg hbig]
        obtain ⟨s₁, e₁, h₁⟩ := h.perform_insert ⟨hc0, hfresh, hpos, not_lt.mp hbig⟩
        cases e₁.symm.trans e
        exact h₁
    | find hostname port pathname =>
      obtain ⟨s₁, e₁, h₁⟩ := h.perform_find hostname port pathname
      cases e₁.symm.trans e
      exact h₁ hne

instance (s : Cache) (op : Call) : Decidable (op.Created s) :=
  match op with
  | .insert c x =>
    decidable_of_iff (c ≠ 0 ∧ (s.nodes c).isNone = true ∧ 0 < x.val.size) (by simp [Call.Created])
  | .find _ _ _ => .isTrue trivial

/-- A call that does not move the first of several items, as a function. -/
def keyedNext (st : Cache × List (ℕ × Object)) (op : Call) : Option (Cache × List (ℕ × Object)) :=
  if op.Created st.1 ∧ hitsHead st.2 op = false then
    (st.1.perform op).map fun r => (r.2, recency st.2 op)
  else none

/-- The state after the calls. -/
def keyedRun (ops : List Call) : Option (Cache × List (ℕ × Object)) :=
  Machine.exec keyedNext (cacheInit, []) ops

theorem keyedRun_reach {ops : List Call} {st : Cache × List (ℕ × Object)}
    (h : keyedRun ops = some st) : keyed.ReachWhen (fun st op => hitsHead st.2 op = false) st := by
  refine Machine.ReachWhen.exec (fun st op st' hnext => ?_) (.init rfl) h
  obtain ⟨⟨hcreated, hne⟩, hmap⟩ := Option.ite_none_right_eq_some.mp hnext
  obtain ⟨⟨out, s'⟩, e, rfl⟩ := Option.map_eq_some_iff.mp hmap
  exact ⟨hne, hcreated, ⟨out, e⟩, rfl⟩

/-- **A hit is for the resource asked for** in every run that never moves the first
of several items, exactly when no item of another key that is accepted has been
used since the last item of the key. -/
theorem found_iff {s : Cache} {l : List (ℕ × Object)}
    (h : keyed.ReachWhen (fun st op => hitsHead st.2 op = false) (s, l)) (k : Key) :
    k.Found s l ↔ k.Unmistaken l :=
  (keyed_inductive.holds h).lookup_iff

/-- An object for the host `h`. -/
def resource (port : ℤ) (pathname : CStr) : CachedItem :=
  ⟨⟨[104], pathname, [1], 2, port⟩, 0, 0⟩

/-- The two objects are of different keys in every respect. -/
theorem found_iff_run : ∃ s l, l.map Prod.fst = [8, 16] ∧
    (⟨[72], 80, [1]⟩ : Key).Found s l := by
  have hrun : (keyedRun [.insert 8 (resource 80 [1]), .insert 16 (resource 8080 [2])]).any
      (fun st => decide (st.2 = [(8, (resource 80 [1]).val), (16, (resource 8080 [2]).val)])) =
        true := by
    decide +kernel
  obtain ⟨⟨s, l⟩, e, hl⟩ := (Option.any_eq_true ..).mp hrun
  obtain rfl := of_decide_eq_true hl
  refine ⟨s, _, rfl, (found_iff (keyedRun_reach e) _).mpr fun a x b hab hacc hnot => ?_⟩
  have hx : x ∈ [(8, (resource 80 [1]).val), (16, (resource 8080 [2]).val)] := by
    rw [hab]
    exact List.mem_append_right _ (List.mem_cons_self ..)
  have hall : ∀ x ∈ [(8, (resource 80 [1]).val), (16, (resource 8080 [2]).val)],
      (⟨[72], 80, [1]⟩ : Key).accepts x.2 = true → (⟨[72], 80, [1]⟩ : Key).Of x.2 := by
    decide
  exact absurd (hall x hx hacc) hnot

/-- The object of port 80 is returned for port 8080. -/
theorem found_other_port : ∃ s l, keyed.Reach (s, l) ∧
    (s.findCache [104] 8080 [1]).map Prod.fst = some 8 ∧
    ¬(⟨[104], 8080, [1]⟩ : Key).Found s l := by
  have hrun : (keyedRun [.insert 8 (resource 80 [1])]).any (fun st =>
      decide ((st.1.findCache [104] 8080 [1]).map Prod.fst = some 8 ∧
        (st.1.nodes 8).map DNode.val = some (resource 80 [1]).val)) = true := by
    decide +kernel
  obtain ⟨⟨s, l⟩, e, hs⟩ := (Option.any_eq_true ..).mp hrun
  obtain ⟨hfind, hval⟩ := of_decide_eq_true hs
  refine ⟨s, l, (keyedRun_reach e).reach, hfind, ?_⟩
  rintro ⟨c, s', e', hof, -⟩
  rw [e', Option.map_some] at hfind
  obtain rfl : c = 8 := Option.some.inj hfind
  obtain ⟨x, hx, hkey⟩ := hof (by decide)
  rw [hx, Option.map_some] at hval
  rw [Option.some.inj hval] at hkey
  exact absurd hkey (by decide)

end Cache

end SysProgLab
