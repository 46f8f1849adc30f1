import SysProgLab.Cache
import SysProgLab.Machine

/-!
# Runs of the cache

Calls of `insert_cache` and `find_cache`, one at a time, beside an abstract least
recently used cache. `move_to_end` leaves `head` where it is when it moves the
first of several items, so the two agree in the runs that never do so.
-/

namespace SysProgLab

namespace Cache

/-- A call of the cache. -/
inductive Call : Type where
  /-- `insert_cache(c)`, where `c` is a new node -/
  | insert (c : ℕ) (x : CachedItem)
  /-- `find_cache(hostname, port, pathname)` -/
  | find (hostname : CStr) (port : ℤ) (pathname : CStr)

/-- What a call does or returns. -/
inductive Reply : Type where
  /-- the items that `insert_cache` frees -/
  | evicted (items : List ℕ)
  /-- the result of `find_cache` -/
  | found (c : ℕ)
  deriving DecidableEq

/-- A new node is not among the allocated ones, and its size is in bounds. -/
def Call.Legal (s : Cache) : Call → Prop
  | .insert c x => c ≠ 0 ∧ s.nodes c = none ∧ 0 < x.val.size ∧ x.val.size ≤ maxObjectSize
  | .find _ _ _ => True

instance (s : Cache) (op : Call) : Decidable (op.Legal s) :=
  match op with
  | .insert c x =>
    decidable_of_iff (c ≠ 0 ∧ (s.nodes c).isNone = true ∧ 0 < x.val.size ∧
      x.val.size ≤ maxObjectSize) (by simp [Call.Legal])
  | .find _ _ _ => .isTrue trivial

/-- A call on the C list. -/
def perform (s : Cache) : Call → Option (Reply × Cache)
  | .insert c x =>
    (insertCache { s with nodes := Function.update s.nodes c (some x) } c).map
      fun r => (.evicted r.1, r.2)
  | .find hostname port pathname =>
    (s.findCache hostname port pathname).map fun r => (.found r.1, r.2)

/-- A call on the abstract cache. -/
def lruPerform (l : List (ℕ × Object)) : Call → Reply × List (ℕ × Object)
  | .insert c x =>
    (.evicted ((Lru.insert itemSize maxCacheSize l (c, x.val)).1.map Prod.fst),
      (Lru.insert itemSize maxCacheSize l (c, x.val)).2)
  | .find hostname port pathname =>
    (.found ((Lru.touch (fun x => isSame x.2 hostname port pathname) l).1.elim 0 Prod.fst),
      (Lru.touch (fun x => isSame x.2 hostname port pathname) l).2)

/-- The call finds the least recent of several items. -/
def hitsHead : List (ℕ × Object) → Call → Bool
  | x :: y :: l, .find hostname port pathname =>
    isSame x.2 hostname port pathname &&
      !(y :: l).any fun z => isSame z.2 hostname port pathname
  | _, _ => false

namespace Represents

variable {s s' : Cache} {l a b : List (ℕ × Object)} {x : ℕ × Object}

/-- A new node is no item of the list. -/
theorem fresh (h : s.Represents l) {c : ℕ} (hfresh : s.nodes c = none) : ∀ z ∈ l, z.1 ≠ c := by
  rintro z hz rfl
  obtain ⟨v, hv, -⟩ := h.seg.val_of_mem hz
  rw [hfresh] at hv
  cases hv

/-- A new node leaves the list alone. -/
theorem addNode (h : s.Represents l) {c : ℕ} (hfresh : s.nodes c = none) (y : CachedItem) :
    Represents { s with nodes := Function.update s.nodes c (some y) } l :=
  { h with seg := h.seg.congr fun z hz => Function.update_of_ne (h.fresh hfresh z hz) _ _ }

/-- `insert_cache` on a new node. -/
theorem perform_insert (h : s.Represents l) {c : ℕ} {y : CachedItem}
    (hlegal : (Call.insert c y).Legal s) :
    ∃ s', s.perform (.insert c y) = some ((lruPerform l (.insert c y)).1, s') ∧
      s'.Represents (lruPerform l (.insert c y)).2 := by
  obtain ⟨hc0, hfresh, hpos, hle⟩ := hlegal
  have hc : c ∉ l.map Prod.fst := by
    intro hm
    obtain ⟨z, hz, he⟩ := List.mem_map.mp hm
    exact h.fresh hfresh z hz he
  obtain ⟨s', e, hs'⟩ :=
    (h.addNode hfresh y).insertCache hc0 hc (Function.update_self ..) hpos hle
  refine ⟨s', ?_, hs'⟩
  rw [perform, e]
  rfl

/-- `move_to_end` on the first of several items follows no invalid pointer. -/
theorem moveToEnd_head {y : ℕ × Object} (h : s.Represents (x :: y :: b)) :
    ∃ s', s.moveToEnd x.1 = some s' := by
  have valid : ∀ z ∈ x :: y :: b, (s.nodes.deref z.1).isSome := by
    intro z hz
    obtain ⟨v, hv, -⟩ := h.deref hz
    rw [hv]
    rfl
  have hd := Nodes.deref_of_some (h.ne_zero x (by simp)) h.seg.1
  have hy0 := h.ne_zero y (by simp)
  have htail : (s.nodes.deref s.tail).isSome := by
    rw [h.tail]
    rcases List.eq_nil_or_concat (x :: y :: b) with hnil | ⟨l, z, hz⟩
    · simp at hnil
    · rw [hz, List.concat_eq_append, lastAddr_concat]
      exact valid z (by simp [hz])
  obtain ⟨n₁, m₁, v₁⟩ :=
    Nodes.modify_valid (fun z : CachedItem => { z with prev := 0 }) (valid y (by simp))
  obtain ⟨n₂, m₂, v₂⟩ :=
    Nodes.modify_valid (fun z : CachedItem => { z with prev := s.tail })
      (v₁ x.1 (valid x (by simp)))
  obtain ⟨n₃, m₃, v₃⟩ :=
    Nodes.modify_valid (fun z : CachedItem => { z with next := x.1 }) (v₂ _ (v₁ _ htail))
  obtain ⟨n₄, m₄, -⟩ :=
    Nodes.modify_valid (fun z : CachedItem => { z with next := 0 })
      (v₃ x.1 (v₂ _ (v₁ _ (valid x (by simp)))))
  refine ⟨{ s with nodes := n₄, tail := x.1 }, ?_⟩
  have hhead : x.1 = s.head := h.head.symm
  simp [Cache.moveToEnd, hd, hy0, ← hhead, m₁, m₂, m₃, m₄]

/-- **`find_cache`** finds what the abstract cache finds, and leaves what it
leaves unless it moves the first of several items. -/
theorem perform_find (h : s.Represents l) (hostname : CStr) (port : ℤ) (pathname : CStr) :
    ∃ s', s.perform (.find hostname port pathname) =
        some ((lruPerform l (.find hostname port pathname)).1, s') ∧
      (hitsHead l (.find hostname port pathname) = false →
        s'.Represents (lruPerform l (.find hostname port pathname)).2) := by
  have hloop := findLoop hostname port pathname
    h.seg h.ne_zero (Nat.lt_succ_self _)
  rw [← h.tail, ← h.num] at hloop
  cases hfind : l.reverse.find? fun x => isSame x.2 hostname port pathname with
  | none =>
    rw [hfind, Option.elim_none] at hloop
    refine ⟨s, ?_, fun _ => ?_⟩
    · simp [Cache.perform, findCache, hloop, lruPerform, Lru.touch_none hfind]
    · simpa [lruPerform, Lru.touch_none hfind] using h
  | some x =>
    obtain ⟨a, b, rfl, hx, hb, htouch⟩ := Lru.touch_some h.nodup.of_map hfind
    have hx0 := h.ne_zero x (by simp)
    rw [hfind, Option.elim_some] at hloop
    simp only [lruPerform, htouch, Option.elim_some]
    -- it is enough to move the item
    suffices hmove : ∃ s', s.moveToEnd x.1 = some s' ∧
        (hitsHead (a ++ x :: b) (.find hostname port pathname) = false →
          s'.Represents (a ++ b ++ [x])) by
      obtain ⟨s', e, hs'⟩ := hmove
      refine ⟨s', ?_, hs'⟩
      simp [Cache.perform, findCache, hloop, hx0, e]
    cases b with
    | nil =>
      refine ⟨s, h.moveToEnd_last, fun _ => ?_⟩
      rwa [List.append_nil]
    | cons y b =>
      rcases List.eq_nil_or_concat a with rfl | ⟨a, w, rfl⟩
      · obtain ⟨s', e⟩ := moveToEnd_head h
        refine ⟨s', e, fun hne => ?_⟩
        have hany : ((y :: b).any fun z => isSame z.2 hostname port pathname) = false := by
          rw [List.any_eq_false]
          intro z hz
          simp [hb z hz]
        rw [List.nil_append, hitsHead, hx, hany] at hne
        cases hne
      · rw [List.concat_eq_append] at *
        obtain ⟨s', e, hs'⟩ := moveToEnd_inner (a := a) (w := w) (by simpa using h)
        refine ⟨s', e, fun _ => ?_⟩
        simpa using hs'

theorem findCache_nil (h : s.Represents []) (hostname : CStr) (port : ℤ) (pathname : CStr) :
    s.findCache hostname port pathname = some (0, s) := by
  have hloop := findLoop hostname port pathname
    h.seg h.ne_zero (Nat.lt_succ_self _)
  rw [← h.tail, ← h.num] at hloop
  simp [findCache, hloop]

/-- The last item is found at once and stays where it is. -/
theorem findCache_last {hostname pathname : CStr} {port : ℤ} (h : s.Represents (a ++ [x]))
    (hs : isSame x.2 hostname port pathname = true) :
    s.findCache hostname port pathname = some (x.1, s) := by
  have hloop := findLoop hostname port pathname
    h.seg h.ne_zero (Nat.lt_succ_self _)
  rw [← h.tail, ← h.num] at hloop
  have hx0 := h.ne_zero x (by simp)
  simp [findCache, hloop, hs, hx0, h.moveToEnd_last]

/-- **One call** replies as the abstract cache does. -/
theorem perform (h : s.Represents l) {op : Call} (hlegal : op.Legal s) :
    ∃ s', s.perform op = some ((lruPerform l op).1, s') ∧
      (hitsHead l op = false → s'.Represents (lruPerform l op).2) := by
  cases op with
  | insert c y =>
    obtain ⟨s', e, hs'⟩ := h.perform_insert hlegal
    exact ⟨s', e, fun _ => hs'⟩
  | find hostname port pathname => exact h.perform_find hostname port pathname

end Represents

/-! ## Contents -/

/-- Some nodes may have been freed, and the others keep their contents. -/
def Keeps (n n' : Nodes Object) : Prop := ∀ a, n'.vals a = none ∨ n'.vals a = n.vals a

namespace Keeps

variable {n n' n'' : Nodes Object}

theorem of_vals (h : n'.vals = n.vals) : Keeps n n' := fun a => .inr (congrFun h a)

theorem trans (h : Keeps n n') (h' : Keeps n' n'') : Keeps n n'' := by
  intro a
  rcases h' a with h₁ | h₁
  · exact .inl h₁
  · rw [h₁]
    exact h a

theorem free (n : Nodes Object) (c : ℕ) : Keeps n (Function.update n c none) := by
  intro a
  rw [Nodes.vals, Nodes.vals]
  by_cases ha : a = c
  · exact .inl (by rw [ha, Function.update_self, Option.map_none])
  · exact .inr (by rw [Function.update_of_ne ha])

end Keeps

theorem removeLRU_keeps {s s' : Cache} {e : List ℕ} (h : s.removeLRU = some (e, s')) :
    Keeps s.nodes s'.nodes := by
  rw [removeLRU] at h
  split at h
  · cases h
    exact .of_vals rfl
  dsimp only at h
  split at h
  · rw [Option.bind_eq_bind, Option.bind_some] at h
    obtain ⟨x, -, h⟩ := Option.bind_eq_some_iff.mp h
    cases h
    exact .free s.nodes s.head
  · obtain ⟨y, -, h⟩ := Option.bind_eq_some_iff.mp h
    obtain ⟨n, hn, h⟩ := Option.bind_eq_some_iff.mp h
    rw [Option.bind_eq_bind, Option.bind_some] at h
    obtain ⟨x, -, h⟩ := Option.bind_eq_some_iff.mp h
    cases h
    exact (Keeps.of_vals (Nodes.modify_vals hn fun _ => rfl)).trans (.free n s.head)

theorem evictLoop_keeps {size : ℤ} : ∀ {fuel : ℕ} {s s' : Cache} {e : List ℕ},
    evictLoop size fuel s = some (e, s') → Keeps s.nodes s'.nodes := by
  intro fuel
  induction fuel with
  | zero =>
    intro s s' e h
    cases h
  | succ fuel ih =>
    intro s s' e h
    rw [evictLoop] at h
    split at h
    · obtain ⟨⟨e₁, s₁⟩, h₁, h⟩ := Option.bind_eq_some_iff.mp h
      obtain ⟨⟨e₂, s₂⟩, h₂, h⟩ := Option.bind_eq_some_iff.mp h
      cases h
      exact (removeLRU_keeps h₁).trans (ih h₂)
    · cases h
      exact .of_vals rfl

theorem insertCache_keeps {s s' : Cache} {c : ℕ} {e : List ℕ}
    (h : s.insertCache c = some (e, s')) : Keeps s.nodes s'.nodes := by
  obtain ⟨x, -, h⟩ := Option.bind_eq_some_iff.mp h
  split at h
  · cases h
    exact .of_vals rfl
  obtain ⟨⟨e₁, s₁⟩, h₁, h⟩ := Option.bind_eq_some_iff.mp h
  refine (evictLoop_keeps h₁).trans (.of_vals ?_)
  dsimp only at h
  split at h
  · obtain ⟨n, hn, h⟩ := Option.bind_eq_some_iff.mp h
    cases h
    exact Nodes.modify_vals hn fun _ => rfl
  · obtain ⟨n₁, m₁, h⟩ := Option.bind_eq_some_iff.mp h
    obtain ⟨n₂, m₂, h⟩ := Option.bind_eq_some_iff.mp h
    obtain ⟨n₃, m₃, h⟩ := Option.bind_eq_some_iff.mp h
    cases h
    rw [Nodes.modify_vals m₃ fun _ => rfl, Nodes.modify_vals m₂ fun _ => rfl,
      Nodes.modify_vals m₁ fun _ => rfl]

theorem moveToEnd_vals {s s' : Cache} {c : ℕ} (h : s.moveToEnd c = some s') :
    s'.nodes.vals = s.nodes.vals := by
  obtain ⟨x, -, h⟩ := Option.bind_eq_some_iff.mp h
  split at h
  · cases h
    rfl
  split at h
  · obtain ⟨n₁, m₁, h⟩ := Option.bind_eq_some_iff.mp h
    obtain ⟨n₂, m₂, h⟩ := Option.bind_eq_some_iff.mp h
    obtain ⟨n₃, m₃, h⟩ := Option.bind_eq_some_iff.mp h
    obtain ⟨n₄, m₄, h⟩ := Option.bind_eq_some_iff.mp h
    cases h
    rw [Nodes.modify_vals m₄ fun _ => rfl, Nodes.modify_vals m₃ fun _ => rfl,
      Nodes.modify_vals m₂ fun _ => rfl, Nodes.modify_vals m₁ fun _ => rfl]
  · obtain ⟨n₁, m₁, h⟩ := Option.bind_eq_some_iff.mp h
    obtain ⟨n₂, m₂, h⟩ := Option.bind_eq_some_iff.mp h
    obtain ⟨n₃, m₃, h⟩ := Option.bind_eq_some_iff.mp h
    obtain ⟨n₄, m₄, h⟩ := Option.bind_eq_some_iff.mp h
    obtain ⟨n₅, m₅, h⟩ := Option.bind_eq_some_iff.mp h
    cases h
    rw [Nodes.modify_vals m₅ fun _ => rfl, Nodes.modify_vals m₄ fun _ => rfl,
      Nodes.modify_vals m₃ fun _ => rfl, Nodes.modify_vals m₂ fun _ => rfl,
      Nodes.modify_vals m₁ fun _ => rfl]

theorem findCache_vals {s s' : Cache} {c : ℕ} {hostname pathname : CStr} {port : ℤ}
    (h : s.findCache hostname port pathname = some (c, s')) : s'.nodes.vals = s.nodes.vals := by
  obtain ⟨curr, -, h⟩ := Option.bind_eq_some_iff.mp h
  split at h
  · cases h
    rfl
  · obtain ⟨s₁, h₁, h⟩ := Option.bind_eq_some_iff.mp h
    cases h
    exact moveToEnd_vals h₁

/-- **No call changes the contents of an item**: while it is not freed, it keeps
them. -/
theorem perform_keeps {s s' : Cache} {op : Call} {out : Reply} {c : ℕ} (hc : s.nodes c ≠ none)
    (hlegal : op.Legal s) (h : s.perform op = some (out, s')) :
    s'.nodes.vals c = none ∨ s'.nodes.vals c = s.nodes.vals c := by
  cases op with
  | insert c' x =>
    obtain ⟨⟨e, s₁⟩, h₁, h⟩ := Option.map_eq_some_iff.mp h
    cases h
    have hne : c ≠ c' := by
      rintro rfl
      exact hc hlegal.2.1
    have hk := insertCache_keeps h₁ c
    dsimp only at hk
    rwa [Nodes.vals, Nodes.vals, Function.update_of_ne hne] at hk
  | find hostname port pathname =>
    obtain ⟨⟨c', s₁⟩, h₁, h⟩ := Option.map_eq_some_iff.mp h
    cases h
    exact .inr (congrFun (findCache_vals h₁) c)

/-! ## Runs -/

/-- The C list and the abstract cache, taking the same calls from `cache_init`. -/
def pair : Machine (Cache × List (ℕ × Object)) Call where
  init st := st = (cacheInit, [])
  step st op st' :=
    op.Legal st.1 ∧ (∃ out, st.1.perform op = some (out, st'.1)) ∧
      st'.2 = (lruPerform st.2 op).2

/-- The C list agrees with the abstract cache, and the next call will too. -/
structure Refines (s : Cache) (l : List (ℕ × Object)) : Prop where
  next_chain : s.nodes.walkNext (s.numCachedItem + 1) s.head = l.map Prod.fst
  prev_chain : s.nodes.walkPrev (s.numCachedItem + 1) s.tail = (l.map Prod.fst).reverse
  num : s.numCachedItem = l.length
  reply : ∀ op : Call, op.Legal s → ∃ s', s.perform op = some ((lruPerform l op).1, s')

theorem Represents.refines {s : Cache} {l : List (ℕ × Object)} (h : s.Represents l) :
    s.Refines l where
  next_chain := by
    rw [h.head, h.num]
    exact h.seg.walkNext h.ne_zero (Nat.lt_succ_self _)
  prev_chain := by
    rw [h.tail, h.num]
    exact h.seg.walkPrev h.ne_zero (Nat.lt_succ_self _)
  num := h.num
  reply := fun _ hlegal =>
    let ⟨s', e, _⟩ := h.perform hlegal
    ⟨s', e⟩

theorem pair_inductive :
    pair.Inductive (fun st op => hitsHead st.2 op = false) fun st => st.1.Represents st.2 where
  init := by
    rintro _ rfl
    exact Represents.init
  step := by
    rintro ⟨s, l⟩ op ⟨s', l'⟩ h hne ⟨hlegal, ⟨out, e⟩, rfl⟩
    obtain ⟨s₁, e₁, h₁⟩ := Represents.perform h hlegal
    obtain rfl : s' = s₁ := congrArg Prod.snd (Option.some.inj (e.symm.trans e₁))
    exact h₁ hne

/-- The step of `pair` on a call, when it meets `P`. -/
def pairNext (P : Cache × List (ℕ × Object) → Call → Bool) (st : Cache × List (ℕ × Object))
    (op : Call) : Option (Cache × List (ℕ × Object)) :=
  (st.1.perform op).bind fun r =>
    if P st op = true ∧ op.Legal st.1 then some (r.2, (lruPerform st.2 op).2) else none

/-- The state after the calls, all of which meet `P`. -/
def pairRun (P : Cache × List (ℕ × Object) → Call → Bool) :
    List Call → Option (Cache × List (ℕ × Object)) :=
  Machine.exec (pairNext P) (cacheInit, [])

theorem pairRun_reach {P : Cache × List (ℕ × Object) → Call → Bool} {ops : List Call}
    {st : Cache × List (ℕ × Object)} (h : pairRun P ops = some st) :
    pair.ReachWhen (fun st op => P st op = true) st := by
  refine Machine.ReachWhen.exec ?_ (.init rfl) h
  intro st op st' hnext
  obtain ⟨⟨out, s'⟩, e, hif⟩ := Option.bind_eq_some_iff.mp hnext
  split at hif
  · rename_i hc
    obtain rfl := Option.some.inj hif
    exact ⟨hc.1, hc.2, ⟨out, e⟩, rfl⟩
  · cases hif

/-- **The cache refines an LRU list** in every run that never moves the first of
several items. -/
theorem refines_lru {s : Cache} {l : List (ℕ × Object)}
    (h : pair.ReachWhen (fun st op => hitsHead st.2 op = false) (s, l)) : s.Refines l :=
  (pair_inductive.holds h).refines

/-- An object of one page. -/
def page (b : UInt8) (size : ℤ) : CachedItem := ⟨⟨[104], [b], [b], size, 80⟩, 0, 0⟩

/-- The second of three items becomes the most recent. -/
theorem refines_lru_run : ∃ (s : Cache) (l : List (ℕ × Object)),
    l.map Prod.fst = [8, 24, 16] ∧ s.Refines l := by
  have hrun : ((pairRun (fun st op => !hitsHead st.2 op)
      [.insert 8 (page 1 10), .insert 16 (page 2 10), .insert 24 (page 3 10),
        .find [72] 80 [2]]).any fun st => st.2.map Prod.fst = [8, 24, 16]) = true := by
    decide +kernel
  obtain ⟨⟨s, l⟩, e, hl⟩ := (Option.any_eq_true ..).mp hrun
  refine ⟨s, l, by simpa using hl, refines_lru ?_⟩
  exact (pairRun_reach e).mono fun st op h => by simpa using h

/-- Ten objects fill the cache and a look-up hits the first of them: `head` stays
on it, no item follows it any more, and the next insertion dereferences `NULL`. -/
theorem refines_lru_head : ¬∀ (s : Cache) (l : List (ℕ × Object)),
    pair.Reach (s, l) → s.Refines l := by
  intro h
  have hrun : ((pairRun (fun _ _ => true)
      (((List.range 10).map fun i => .insert (8 * (i + 1)) (page i.toUInt8 102400)) ++
        [.find [104] 80 [0]])).any fun st =>
      (Call.insert 88 (page 10 102400)).Legal st.1 ∧
        (st.1.perform (.insert 88 (page 10 102400))).isNone = true) = true := by
    decide +kernel
  obtain ⟨⟨s, l⟩, e, hl⟩ := (Option.any_eq_true ..).mp hrun
  simp only [decide_eq_true_eq] at hl
  obtain ⟨hlegal, hnone⟩ := hl
  obtain ⟨s', hs'⟩ := (h s l (pairRun_reach e).reach).reply _ hlegal
  rw [hs'] at hnone
  cases hnone

end Cache

end SysProgLab
