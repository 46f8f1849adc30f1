import SysProgLab.DList
import SysProgLab.Decimal
import SysProgLab.Lru
import Mathlib.Data.List.Nodup

/-!
# The proxy's cache: `cache.c`

The cached items form a doubly linked list between `head` (least recently used)
and `tail`. A pointer that is `NULL` or dangling makes a function fail when it
is followed: `none` is an invalid dereference, or a loop that never ends.
-/

namespace SysProgLab

/-- `MAX_CACHE_SIZE` -/
abbrev maxCacheSize : ℤ := 1049000

/-- `MAX_OBJECT_SIZE` -/
abbrev maxObjectSize : ℕ := 102400

/-- `tolower` in the C locale. -/
def toLower (b : UInt8) : UInt8 := if 65 ≤ b ∧ b ≤ 90 then b + 32 else b

/-- `strcasecmp(s, t) == 0` -/
def strcaseEq (s t : CStr) : Bool := s.map toLower = t.map toLower

/-- The fields of `CachedItem` other than its links. -/
structure Object : Type where
  /-- `hostname` -/
  hostname : CStr
  /-- `pathname` -/
  pathname : CStr
  /-- the bytes at `data` -/
  data : List UInt8
  /-- `size` -/
  size : ℤ
  /-- `port` -/
  port : ℤ
  deriving DecidableEq

/-- `CachedItem` -/
abbrev CachedItem := DNode Object

/-- The globals of `cache.c` and the items they reach. -/
structure Cache where
  /-- the allocated items -/
  nodes : Nodes Object
  /-- `head` -/
  head : ℕ
  /-- `tail` -/
  tail : ℕ
  /-- `total_size` -/
  totalSize : ℤ
  /-- `num_CachedItem` -/
  numCachedItem : ℕ

/-- `cache_init` -/
def cacheInit : Cache := ⟨fun _ => none, 0, 0, 0, 0⟩

namespace Cache

/-- `remove_LRU`; also returns the items it frees. -/
def removeLRU (s : Cache) : Option (List ℕ × Cache) :=
  if s.numCachedItem = 0 then some ([], s)
  else do
    let lru := s.head
    let s ←
      if s.numCachedItem = 1 then some { s with head := 0, tail := 0 }
      else do
        let x ← s.nodes.deref lru
        let n ← s.nodes.modify x.next fun y => { y with prev := 0 }
        some { s with nodes := n, head := x.next }
    let x ← s.nodes.deref lru
    some ([lru],
      { s with
        totalSize := s.totalSize - x.val.size
        numCachedItem := s.numCachedItem - 1
        nodes := Function.update s.nodes lru none })

/-- The loop of `insert_cache`. A cache of `num_CachedItem` items is empty after
as many rounds, and `remove_LRU` does nothing from then on. -/
def evictLoop (size : ℤ) : ℕ → Cache → Option (List ℕ × Cache)
  | 0, _ => none
  | fuel + 1, s =>
    if maxCacheSize < s.totalSize + size then do
      let (lru, s) ← s.removeLRU
      let (rest, s) ← evictLoop size fuel s
      some (lru ++ rest, s)
    else some ([], s)

/-- `insert_cache`; also returns the items it frees. -/
def insertCache (s : Cache) (c : ℕ) : Option (List ℕ × Cache) := do
  let x ← s.nodes.deref c
  if maxObjectSize < x.val.size then some ([], s)
  else do
    let (evicted, s) ← evictLoop x.val.size (s.numCachedItem + 1) s
    let s ←
      if s.numCachedItem = 0 then do
        let n ← s.nodes.modify c fun y => { y with prev := 0, next := 0 }
        some { s with nodes := n, head := c, tail := c }
      else do
        let n ← s.nodes.modify c fun y => { y with prev := s.tail }
        let n ← n.modify s.tail fun y => { y with next := c }
        let n ← n.modify c fun y => { y with next := 0 }
        some { s with nodes := n, tail := c }
    some (evicted,
      { s with totalSize := s.totalSize + x.val.size, numCachedItem := s.numCachedItem + 1 })

/-- `isSame`; the port is not compared. -/
def isSame (o : Object) (hostname : CStr) (_port : ℤ) (pathname : CStr) : Bool :=
  strcaseEq o.hostname hostname && strcaseEq o.pathname pathname

/-- The loop of `find_cache`. A walk past `num_CachedItem` items has met one of
them twice and never ends. -/
def findLoop (n : Nodes Object) (hostname : CStr) (port : ℤ) (pathname : CStr) : ℕ → ℕ → Option ℕ
  | 0, _ => none
  | fuel + 1, curr =>
    if curr = 0 then some 0
    else do
      let x ← n.deref curr
      if isSame x.val hostname port pathname then some curr
      else findLoop n hostname port pathname fuel x.prev

/-- `move_to_end` -/
def moveToEnd (s : Cache) (c : ℕ) : Option Cache := do
  let x ← s.nodes.deref c
  if x.next = 0 then some s
  else if c = s.head then do
    let n ← s.nodes.modify x.next fun y => { y with prev := 0 }
    let n ← n.modify c fun y => { y with prev := s.tail }
    let n ← n.modify s.tail fun y => { y with next := c }
    let n ← n.modify c fun y => { y with next := 0 }
    some { s with nodes := n, tail := c }
  else do
    let n ← s.nodes.modify x.next fun y => { y with prev := x.prev }
    let n ← n.modify x.prev fun y => { y with next := x.next }
    let n ← n.modify c fun y => { y with prev := s.tail }
    let n ← n.modify s.tail fun y => { y with next := c }
    let n ← n.modify c fun y => { y with next := 0 }
    some { s with nodes := n, tail := c }

/-- `find_cache`; the result `0` is `NULL`. -/
def findCache (s : Cache) (hostname : CStr) (port : ℤ) (pathname : CStr) : Option (ℕ × Cache) := do
  let curr ← findLoop s.nodes hostname port pathname (s.numCachedItem + 1) s.tail
  if curr = 0 then some (0, s)
  else do
    let s ← s.moveToEnd curr
    some (curr, s)

/-! ## Representation -/

/-- The size of an item of the list. -/
def itemSize (x : ℕ × Object) : ℤ := x.2.size

/-- The cache holds the items `l`, least recently used first. -/
structure Represents (s : Cache) (l : List (ℕ × Object)) : Prop where
  seg : Seg s.nodes 0 l 0
  nodup : (l.map Prod.fst).Nodup
  ne_zero : ∀ x ∈ l, x.1 ≠ 0
  head : s.head = headAddr l 0
  tail : s.tail = lastAddr l 0
  num : s.numCachedItem = l.length
  total : s.totalSize = Lru.total itemSize l
  pos : ∀ x ∈ l, 0 < itemSize x
  le_max : s.totalSize ≤ maxCacheSize

namespace Represents

variable {s s' : Cache} {l a b : List (ℕ × Object)} {x : ℕ × Object}

theorem init : cacheInit.Represents [] :=
  ⟨trivial, List.nodup_nil, by simp, rfl, rfl, rfl, rfl, by simp, by decide⟩

/-- A cache holds one list of items. -/
theorem unique {l' : List (ℕ × Object)} (h : s.Represents l) (h' : s.Represents l') : l = l' :=
  h.seg.unique h'.seg h.ne_zero h'.ne_zero (h.head.symm.trans h'.head)

theorem deref (h : s.Represents l) (hx : x ∈ l) :
    ∃ y, s.nodes.deref x.1 = some y ∧ y.val = x.2 := by
  obtain ⟨y, hy, hv⟩ := h.seg.val_of_mem hx
  exact ⟨y, Nodes.deref_of_some (h.ne_zero x hx) hy, hv⟩

/-- **`remove_LRU`** frees the first item. -/
theorem removeLRU (h : s.Represents (x :: l)) :
    ∃ s', s.removeLRU = some ([x.1], s') ∧ s'.Represents l ∧
      ∀ c, c ∉ (x :: l).map Prod.fst → s'.nodes c = s.nodes c := by
  have hx0 := h.ne_zero x (List.mem_cons_self ..)
  have hhead : s.head = x.1 := h.head
  have hnum : s.numCachedItem = l.length + 1 := h.num
  have hne := Seg.addr_ne (a := []) h.nodup
  have htotal := h.total
  have hpos := h.pos x (List.mem_cons_self ..)
  have hle := h.le_max
  rw [Lru.total_cons] at htotal
  cases l with
  | nil =>
    have hd := Nodes.deref_of_some hx0 h.seg.1
    simp only [Cache.removeLRU, hnum, hhead, hd, List.length_nil, Nat.zero_add, one_ne_zero,
      if_true, if_false, Option.bind_eq_bind, Option.bind_some]
    refine ⟨_, rfl, ⟨trivial, List.nodup_nil, by simp, rfl, rfl, rfl, ?_, by simp, ?_⟩, ?_⟩
    · simp only [itemSize, Lru.total_nil] at htotal ⊢
      omega
    · simp only [itemSize] at hpos
      dsimp only
      omega
    · intro c hc
      refine Function.update_of_ne ?_ _ _
      simpa using hc
  | cons y l =>
    have hd := Nodes.deref_of_some hx0 h.seg.1
    have hy0 := h.ne_zero y (by simp)
    have hyx : y.1 ≠ x.1 := hne y (by simp)
    have hy := h.seg.2
    have hm := Nodes.modify_of_some (fun z : CachedItem => { z with prev := 0 }) hy0 hy.1
    have hd' : Nodes.deref (Function.update s.nodes y.1 (some ⟨y.2, 0, headAddr l 0⟩)) x.1 =
        some ⟨x.2, 0, y.1⟩ := by
      refine Nodes.deref_of_some hx0 ?_
      rw [Function.update_of_ne hyx.symm]
      exact h.seg.1
    have hnd := (List.nodup_cons.mp h.nodup).2
    have hyl : ∀ z ∈ l, z.1 ≠ y.1 := by
      rintro z hz he
      exact (List.nodup_cons.mp hnd).1 (he ▸ List.mem_map_of_mem hz)
    have hseg := hy.setPrev (v := 0) hyl
    simp only [Cache.removeLRU, hnum, hhead, hd, headAddr_cons, hm, hd', List.length_cons,
      Option.bind_eq_bind, Option.bind_some]
    simp only [Nat.add_eq_zero_iff, one_ne_zero, and_false, if_false, Nat.add_eq_right,
      Nat.add_sub_cancel]
    refine ⟨_, rfl, ⟨?_, hnd, fun z hz => h.ne_zero z (List.mem_cons_of_mem _ hz), rfl, ?_, rfl,
      ?_, fun z hz => h.pos z (List.mem_cons_of_mem _ hz), ?_⟩, ?_⟩
    · exact hseg.congr fun z hz => Function.update_of_ne (hne z hz) _ _
    · exact h.tail
    · simp only [itemSize] at htotal ⊢
      omega
    · simp only [itemSize] at hpos
      dsimp only
      omega
    · intro c hc
      simp only [List.map_cons, List.mem_cons, not_or] at hc
      dsimp only
      rw [Function.update_of_ne hc.1, Function.update_of_ne hc.2.1]

/-- **The loop of `insert_cache`** evicts as the abstract cache does. -/
theorem evictLoop {size : ℤ} (hsize : size ≤ maxCacheSize) : ∀ {l : List (ℕ × Object)} {s : Cache}
    {fuel : ℕ}, s.Represents l → l.length < fuel →
    ∃ s', Cache.evictLoop size fuel s =
        some ((Lru.evict itemSize maxCacheSize size l).1.map Prod.fst, s') ∧
      s'.Represents (Lru.evict itemSize maxCacheSize size l).2 ∧
      s'.totalSize + size ≤ maxCacheSize ∧
      ∀ c, c ∉ l.map Prod.fst → s'.nodes c = s.nodes c := by
  intro l
  induction l with
  | nil =>
    intro s fuel h hf
    obtain ⟨k, rfl⟩ : ∃ k, fuel = k + 1 := ⟨fuel - 1, by simp at hf; omega⟩
    have htotal : s.totalSize = 0 := h.total
    refine ⟨s, ?_, h, by omega, fun c _ => rfl⟩
    rw [Cache.evictLoop, if_neg (by omega)]
    rfl
  | cons x l ih =>
    intro s fuel h hf
    obtain ⟨k, rfl⟩ : ∃ k, fuel = k + 1 := ⟨fuel - 1, by simp at hf; omega⟩
    rw [Cache.evictLoop, Lru.evict, ← h.total]
    by_cases hroom : s.totalSize + size ≤ maxCacheSize
    · rw [if_neg (by omega), if_pos hroom]
      exact ⟨s, rfl, h, hroom, fun c _ => rfl⟩
    · rw [if_pos (by omega), if_neg hroom]
      obtain ⟨s₁, e₁, h₁, k₁⟩ := h.removeLRU
      obtain ⟨s₂, e₂, h₂, hr, k₂⟩ := ih h₁ (by simp at hf; omega)
      refine ⟨s₂, ?_, h₂, hr, fun c hc => ?_⟩
      · simp [e₁, e₂]
      · rw [List.map_cons, List.mem_cons, not_or] at hc
        rw [k₂ c hc.2, k₁ c (by simp [hc])]

theorem evict_map_subset (size : ℤ) {c : ℕ} (hc : c ∉ l.map Prod.fst) :
    c ∉ (Lru.evict itemSize maxCacheSize size l).2.map Prod.fst := by
  intro hm
  refine hc ?_
  rw [← Lru.evict_append itemSize maxCacheSize size l, List.map_append]
  exact List.mem_append_right _ hm

/-- **`insert_cache`** inserts as the abstract cache does. -/
theorem insertCache (h : s.Represents l) {c : ℕ} {y : CachedItem} (hc0 : c ≠ 0)
    (hc : c ∉ l.map Prod.fst) (hy : s.nodes c = some y) (hpos : 0 < y.val.size)
    (hle : y.val.size ≤ maxObjectSize) :
    ∃ s', s.insertCache c =
        some ((Lru.insert itemSize maxCacheSize l (c, y.val)).1.map Prod.fst, s') ∧
      s'.Represents (Lru.insert itemSize maxCacheSize l (c, y.val)).2 := by
  have hlen : l.length < s.numCachedItem + 1 := by
    rw [h.num]
    exact Nat.lt_succ_self _
  have hmax : y.val.size ≤ maxCacheSize := by
    refine hle.trans ?_
    decide
  obtain ⟨s₁, e₁, h₁, hroom, hframe⟩ := evictLoop hmax h hlen
  have hc₁ := evict_map_subset y.val.size hc
  rw [Lru.insert, show itemSize (c, y.val) = y.val.size from rfl]
  generalize (Lru.evict itemSize maxCacheSize y.val.size l).1 = evicted at *
  generalize (Lru.evict itemSize maxCacheSize y.val.size l).2 = rest at *
  have hy₁ : s₁.nodes c = some y := (hframe c hc).trans hy
  have hd := Nodes.deref_of_some hc0 hy
  have htot : s₁.totalSize + y.val.size = Lru.total itemSize (rest ++ [(c, y.val)]) := by
    rw [Lru.total_append, h₁.total]
    simp [itemSize]
  have hposs : ∀ x ∈ rest ++ [(c, y.val)], 0 < itemSize x := by
    intro x hx
    rcases List.mem_append.mp hx with hx | hx
    · exact h₁.pos x hx
    · rw [List.mem_singleton.mp hx]
      exact hpos
  have hne : ∀ x ∈ rest ++ [(c, y.val)], x.1 ≠ 0 := by
    intro x hx
    rcases List.mem_append.mp hx with hx | hx
    · exact h₁.ne_zero x hx
    · rw [List.mem_singleton.mp hx]
      exact hc0
  have hnd : ((rest ++ [(c, y.val)]).map Prod.fst).Nodup := by
    rw [List.map_append]
    refine List.nodup_append.mpr ⟨h₁.nodup, List.nodup_singleton _, fun a ha b hb => ?_⟩
    obtain rfl : b = c := by simpa using hb
    rintro rfl
    exact hc₁ ha
  simp only [Cache.insertCache, hd, Option.bind_eq_bind, Option.bind_some, if_neg (not_lt.mpr hle),
    e₁]
  rcases List.eq_nil_or_concat rest with rfl | ⟨rest, x, rfl⟩
  · have hnum : s₁.numCachedItem = 0 := h₁.num
    have hm := Nodes.modify_of_some (fun z : CachedItem => { z with prev := 0, next := 0 }) hc0 hy₁
    simp only [hnum, if_true, hm, Option.bind_some]
    exact ⟨_, rfl, ⟨Function.update_self .., trivial⟩, hnd, hne, rfl, rfl, rfl, htot, hposs, hroom⟩
  · rw [List.concat_eq_append] at *
    have hnum : s₁.numCachedItem = rest.length + 1 := by
      rw [h₁.num, List.length_append]
      rfl
    have htail : s₁.tail = x.1 := h₁.tail.trans (lastAddr_concat rest x 0)
    obtain ⟨n₁, n₂, n₃, m₁, m₂, m₃, hseg, -⟩ :=
      h₁.seg.pushBack h₁.nodup (h₁.ne_zero x (by simp)) hc0 hc₁ hy₁
    simp only [hnum, htail, m₁, m₂, m₃, Nat.add_eq_zero_iff, one_ne_zero, and_false, if_false,
      Option.bind_some]
    refine ⟨_, rfl, hseg, hnd, hne, ?_, ?_, ?_, htot, hposs, hroom⟩
    · rw [headAddr_append]
      refine h₁.head.trans ?_
      cases rest <;> rfl
    · dsimp only
      rw [lastAddr_concat]
    · simp

/-- The loop of `find_cache` finds the most recent match. -/
theorem findLoop {n : Nodes Object} (hostname : CStr) (port : ℤ) (pathname : CStr) :
    ∀ {l : List (ℕ × Object)} {q fuel : ℕ}, Seg n 0 l q → (∀ x ∈ l, x.1 ≠ 0) → l.length < fuel →
    Cache.findLoop n hostname port pathname fuel (lastAddr l 0) =
      some ((l.reverse.find? fun x => isSame x.2 hostname port pathname).elim 0 Prod.fst) := by
  intro l
  induction l using List.reverseRecOn with
  | nil =>
    intro q fuel _ _ hf
    obtain ⟨k, rfl⟩ : ∃ k, fuel = k + 1 := ⟨fuel - 1, by simp at hf; omega⟩
    rfl
  | append_singleton l x ih =>
    intro q fuel h h0 hf
    obtain ⟨k, rfl⟩ : ∃ k, fuel = k + 1 := ⟨fuel - 1, by simp at hf; omega⟩
    have hx0 := h0 x (by simp)
    have hd := Nodes.deref_of_some hx0 h.focus
    rw [lastAddr_concat, Cache.findLoop, if_neg hx0, hd, List.reverse_append,
      List.reverse_singleton, List.singleton_append]
    by_cases hs : isSame x.2 hostname port pathname
    · simp [hs]
    · simp only [Option.bind_eq_bind, Option.bind_some, List.find?_cons, hs]
      exact ih (Seg.append.mp h).1 (fun y hy => h0 y (by simp [hy])) (by simp at hf; omega)

/-- `move_to_end` on the last item does nothing. -/
theorem moveToEnd_last (h : s.Represents (a ++ [x])) : s.moveToEnd x.1 = some s := by
  have hd := Nodes.deref_of_some (h.ne_zero x (by simp)) h.seg.focus
  simp [Cache.moveToEnd, hd, headAddr]

/-- **`move_to_end`** on an item that is neither first nor last moves it to the
end. -/
theorem moveToEnd_inner {w y : ℕ × Object} (h : s.Represents (a ++ w :: x :: y :: b)) :
    ∃ s', s.moveToEnd x.1 = some s' ∧ s'.Represents (a ++ w :: y :: b ++ [x]) := by
  have hx0 := h.ne_zero x (by simp)
  have hw0 := h.ne_zero w (by simp)
  have hy0 := h.ne_zero y (by simp)
  obtain ⟨hx, n₁, n₂, m₁, m₂, hseg, hx₂⟩ := h.seg.unlink h.nodup hw0 hy0
  have hd := Nodes.deref_of_some hx0 hx
  have hperm : (a ++ w :: y :: b ++ [x]).Perm (a ++ w :: x :: y :: b) := by
    rw [List.append_assoc]
    refine List.Perm.append_left a (List.Perm.cons w ?_)
    exact List.perm_append_singleton x (y :: b)
  have hnd := (hperm.map Prod.fst).nodup_iff.mpr h.nodup
  have hne : ∀ z ∈ a ++ w :: y :: b ++ [x], z.1 ≠ 0 := fun z hz =>
    h.ne_zero z (hperm.mem_iff.mp hz)
  have hxne : ∀ z ∈ a ++ w :: y :: b, z.1 ≠ x.1 := by
    have hnd' : ((a ++ [w] ++ x :: y :: b).map Prod.fst).Nodup := by simpa using h.nodup
    intro z hz
    exact Seg.addr_ne hnd' z (by simpa using hz)
  have hhead : s.head = headAddr (a ++ w :: y :: b) 0 := by
    rw [h.head, headAddr_append, headAddr_append]
    rfl
  have hxhead : x.1 ≠ s.head := by
    rw [hhead]
    cases a with
    | nil => exact (hxne w (by simp)).symm
    | cons v a => exact (hxne v (by simp)).symm
  have htail : s.tail = lastAddr (a ++ w :: y :: b) 0 := by
    rw [h.tail, lastAddr_append, lastAddr_append]
    rfl
  -- `x` is appended after the last item `z`
  obtain ⟨l, z, hz⟩ : ∃ l z, a ++ w :: y :: b = l ++ [z] := by
    rcases List.eq_nil_or_concat (a ++ w :: y :: b) with hnil | ⟨l, z, hz⟩
    · simp at hnil
    · exact ⟨l, z, by rw [hz, List.concat_eq_append]⟩
  rw [hz] at hseg hxne hhead htail hnd hne
  rw [lastAddr_concat] at htail
  have hxl : x.1 ∉ (l ++ [z]).map Prod.fst := by
    intro hm
    obtain ⟨v, hv, he⟩ := List.mem_map.mp hm
    exact hxne v hv he
  have hnd' : ((l ++ [z]).map Prod.fst).Nodup := by
    rw [List.map_append] at hnd
    exact (List.nodup_append.mp hnd).1
  obtain ⟨n₃, n₄, n₅, m₃, m₄, m₅, hseg', -⟩ :=
    hseg.pushBack hnd' (hne z (by simp)) hx0 hxl (hx₂.trans hx)
  refine ⟨{ s with nodes := n₅, tail := x.1 }, ?_, ?_⟩
  · simp [Cache.moveToEnd, hd, hy0, hxhead, m₁, m₂, htail, m₃, m₄, m₅]
  · rw [hz]
    have hperm' := hz ▸ hperm
    refine ⟨hseg', hnd, hne, ?_, ?_, ?_, ?_, ?_, h.le_max⟩
    · rw [headAddr_append]
      exact hhead.trans (by cases l <;> rfl)
    · dsimp only
      rw [lastAddr_concat]
    · exact h.num.trans hperm'.length_eq.symm
    · exact h.total.trans (Lru.total_perm itemSize hperm').symm
    · exact fun v hv => h.pos v (hperm'.mem_iff.mp hv)

end Represents

end Cache

end SysProgLab
