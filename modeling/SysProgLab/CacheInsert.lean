import SysProgLab.CacheRuns

/-!
# One insertion

`insert_cache` on a cache in order: the loop removes the shortest prefix that makes
room and comes to an end, and every `int` it forms on the way is in range. The loop
passes through the states `evictStates`; each represents what is left of the list, so
its byte count is a sum of positive sizes within the bound.
-/

namespace SysProgLab

namespace Cache

/-- The states in which the loop of `insert_cache` makes its test. -/
def evictStates (size : ℤ) : ℕ → Cache → List Cache
  | 0, _ => []
  | fuel + 1, s =>
    s :: if maxCacheSize < s.totalSize + size then
      match s.removeLRU with
      | none => []
      | some (_, s) => evictStates size fuel s
    else []

/-- The loop comes to an end in the last of them. -/
theorem evictLoop_last {size : ℤ} : ∀ {fuel : ℕ} {s t : Cache} {e : List ℕ},
    evictLoop size fuel s = some (e, t) → (evictStates size fuel s).getLast? = some t := by
  intro fuel
  induction fuel with
  | zero => intro s t e h; cases h
  | succ fuel ih =>
    intro s t e h
    rw [evictLoop] at h
    rw [evictStates]
    split at h
    · next hfull =>
      obtain ⟨⟨lru, s₁⟩, e₁, h⟩ := Option.bind_eq_some_iff.mp h
      obtain ⟨⟨rest, s₂⟩, e₂, h⟩ := Option.bind_eq_some_iff.mp h
      cases h
      have hlast := ih e₂
      rw [if_pos hfull, e₁, List.getLast?_cons, hlast]
      rfl
    · next hfull =>
      cases h
      rw [if_neg hfull]
      rfl

/-- No `int` that is formed in the state overflows when an item of `size` bytes is
inserted: `total_size`, the sum that is compared and stored, and the new count. -/
structure InRange (s : Cache) (size : ℤ) : Prop where
  total_nonneg : 0 ≤ s.totalSize
  sum_lt : s.totalSize + size < 2 ^ 31
  num_lt : s.numCachedItem + 1 < 2 ^ 31

namespace Represents

variable {s : Cache} {l : List (ℕ × Object)} {size : ℤ}

theorem inRange (h : s.Represents l) (hle : size ≤ maxObjectSize) : s.InRange size := by
  have hnonneg := Lru.total_nonneg h.pos
  have hlen := Lru.length_le_total h.pos
  have hmax := h.le_max
  rw [← h.total] at hnonneg hlen
  rw [← h.num] at hlen
  refine ⟨hnonneg, ?_, ?_⟩ <;> simp only [maxObjectSize, maxCacheSize] at * <;> omega

/-- **Every state the loop passes through** represents a rest of the list. -/
theorem evictStates : ∀ {fuel : ℕ} {s : Cache} {l : List (ℕ × Object)}, s.Represents l →
    ∀ t ∈ Cache.evictStates size fuel s, ∃ j, t.Represents (l.drop j) := by
  intro fuel
  induction fuel with
  | zero => exact fun _ t ht => absurd ht List.not_mem_nil
  | succ fuel ih =>
    intro s l h t ht
    rw [Cache.evictStates] at ht
    rcases List.mem_cons.mp ht with rfl | ht
    · exact ⟨0, h⟩
    split at ht
    · cases l with
      | nil =>
        -- `remove_LRU` leaves an empty cache as it is
        have hnum : s.numCachedItem = 0 := h.num
        rw [show s.removeLRU = some ([], s) from if_pos hnum] at ht
        obtain ⟨j, hj⟩ := ih h t ht
        exact ⟨j, hj⟩
      | cons x l =>
        obtain ⟨s', e, h', -⟩ := h.removeLRU
        rw [e] at ht
        obtain ⟨j, hj⟩ := ih h' t ht
        exact ⟨j + 1, hj⟩
    · cases ht

end Represents

/-- **`insert_cache` keeps the cache in order and bounded**: an item that is too large
changes nothing; for any other the call returns, frees the shortest prefix that makes
room, appends the item, and no `int` on the way overflows or is negative. -/
theorem insertCache_bounded {s : Cache} {l : List (ℕ × Object)} (h : s.Represents l) {c : ℕ}
    {y : CachedItem} (hc0 : c ≠ 0) (hc : c ∉ l.map Prod.fst) (hy : s.nodes c = some y)
    (hpos : 0 < y.val.size) :
    ((maxObjectSize : ℤ) < y.val.size → s.insertCache c = some ([], s)) ∧
    (y.val.size ≤ maxObjectSize → ∃ k ≤ l.length, ∃ s',
      s.insertCache c = some ((l.take k).map Prod.fst, s') ∧
      s'.Represents (l.drop k ++ [(c, y.val)]) ∧
      Lru.total itemSize (l.drop k) + y.val.size ≤ maxCacheSize ∧
      (∀ j < k, maxCacheSize < Lru.total itemSize (l.drop j) + y.val.size) ∧
      0 ≤ s'.totalSize ∧ s'.totalSize ≤ maxCacheSize ∧
      ∀ t ∈ evictStates y.val.size (s.numCachedItem + 1) s, t.InRange y.val.size) := by
  refine ⟨fun hbig => ?_, fun hle => ?_⟩
  · rw [insertCache, Nodes.deref_of_some hc0 hy, Option.bind_eq_bind, Option.bind_some, if_pos hbig]
  have hmax : y.val.size ≤ maxCacheSize := hle.trans (by decide)
  obtain ⟨k, hk, hevict, hfit, hmin⟩ := Lru.evict_shortest itemSize hmax l
  obtain ⟨s', e, h'⟩ := h.insertCache hc0 hc hy hpos hle
  rw [Lru.insert, show itemSize (c, y.val) = y.val.size from rfl, hevict] at e h'
  have hnonneg := Lru.total_nonneg h'.pos
  rw [← h'.total] at hnonneg
  refine ⟨k, hk, s', e, h', hfit, hmin, hnonneg, h'.le_max, fun t ht => ?_⟩
  obtain ⟨j, hj⟩ := h.evictStates t ht
  exact hj.inRange hle

/-- The item `i` of a full cache: the first two are smaller than the others. -/
def fullItem (i : ℕ) : CachedItem :=
  page i.toUInt8 (if i = 0 then 20000 else if i = 1 then 30000 else 102400)

/-- The first two of eleven items are evicted for another one. -/
theorem insertCache_bounded_run : ∃ (s s' : Cache) (l : List (ℕ × Object)),
    s.Represents l ∧ l.length = 11 ∧ s.insertCache 96 = some ([8, 16], s') ∧
      s'.Represents (l.drop 2 ++ [(96, (fullItem 11).val)]) := by
  have hrun : ((pairRun (fun st op => !hitsHead st.2 op)
      ((List.range 11).map fun i => .insert (8 * (i + 1)) (fullItem i))).any fun st =>
        (st.1.nodes 96).isNone = true ∧
          st.2 = (List.range 11).map fun i => (8 * (i + 1), (fullItem i).val)) = true := by
    decide +kernel
  obtain ⟨⟨s₀, l⟩, e, hl⟩ := (Option.any_eq_true ..).mp hrun
  simp only [decide_eq_true_eq, Option.isNone_iff_eq_none] at hl
  obtain ⟨hfresh, hl⟩ := hl
  have hrep : s₀.Represents l :=
    pair_inductive.holds ((pairRun_reach e).mono fun st op h => by simpa using h)
  have h := hrep.addNode hfresh (fullItem 11)
  have hnot : 96 ∉ l.map Prod.fst := by
    rw [hl]
    decide
  have hnode : Function.update s₀.nodes 96 (some (fullItem 11)) 96 = some (fullItem 11) :=
    Function.update_self ..
  obtain ⟨-, hinsert⟩ := insertCache_bounded h (by decide) hnot hnode (by decide)
  obtain ⟨k, -, s', hins, h', hfit, hmin, -⟩ := hinsert (by decide)
  -- with one item less evicted there is no room
  have hk : k = 2 := by
    have htotal : Lru.total itemSize (l.drop 2) + 102400 ≤ maxCacheSize ∧
        maxCacheSize < Lru.total itemSize (l.drop 1) + 102400 ∧
        maxCacheSize < Lru.total itemSize (l.drop 0) + 102400 := by
      rw [hl]
      decide
    obtain ⟨h₂, h₁, h₀⟩ := htotal
    have hsize : (fullItem 11).val.size = 102400 := rfl
    rw [hsize] at hfit hmin
    rcases lt_trichotomy k 2 with hlt | heq | hgt
    · obtain rfl | rfl : k = 0 ∨ k = 1 := by omega
      · exact absurd hfit (not_le.mpr h₀)
      · exact absurd hfit (not_le.mpr h₁)
    · exact heq
    · exact absurd h₂ (not_le.mpr (hmin 2 hgt))
  subst hk
  refine ⟨_, s', l, h, by rw [hl]; rfl, ?_, h'⟩
  rw [hins, hl]
  rfl

end Cache

end SysProgLab
