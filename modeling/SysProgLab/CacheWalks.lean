import SysProgLab.CacheSerial

/-!
# Look-ups statement by statement

The threads of `SysProgLab.CacheSerial`, but `find_cache` tests one item of the list at a
time and `move_to_end` makes one store at a time, so that other threads come in between. As
long as nobody walks the list while another thread relinks it, and no look-up moves the
first of several items, every run is one in which the whole of a look-up is a single step:
the list is relinked by one thread at a time, and a look-up neither loses nor duplicates an
item (`relinking_serialised`).
-/

namespace SysProgLab

/-! ## The stores of `move_to_end` -/

/-- The statements of `move_to_end` that store to the list. -/
inductive MoveStmt : Type where
  /-- `((CachedItem *)(c->next))->prev = NULL` -/
  | nextFirst
  /-- `((CachedItem *)(c->next))->prev = c->prev` -/
  | nextPrev
  /-- `((CachedItem *)(c->prev))->next = c->next` -/
  | prevNext
  /-- `c->prev = tail` -/
  | ownPrev
  /-- `tail->next = c` -/
  | tailNext
  /-- `tail = c` -/
  | setTail
  /-- `c->next = NULL` -/
  | ownNext
  deriving DecidableEq

/-- The statement for the item `c`. -/
def MoveStmt.run (c : ℕ) (k : Cache) : MoveStmt → Option Cache
  | .nextFirst => do
    let x ← k.nodes.deref c
    let n ← k.nodes.modify x.next fun y => { y with prev := 0 }
    some { k with nodes := n }
  | .nextPrev => do
    let x ← k.nodes.deref c
    let n ← k.nodes.modify x.next fun y => { y with prev := x.prev }
    some { k with nodes := n }
  | .prevNext => do
    let x ← k.nodes.deref c
    let n ← k.nodes.modify x.prev fun y => { y with next := x.next }
    some { k with nodes := n }
  | .ownPrev => do
    let n ← k.nodes.modify c fun y => { y with prev := k.tail }
    some { k with nodes := n }
  | .tailNext => do
    let n ← k.nodes.modify k.tail fun y => { y with next := c }
    some { k with nodes := n }
  | .setTail => some { k with tail := c }
  | .ownNext => do
    let n ← k.nodes.modify c fun y => { y with next := 0 }
    some { k with nodes := n }

/-- The stores for an item that is the head of the list, or is not. -/
def moveStmts (first : Bool) : List MoveStmt :=
  (if first then [.nextFirst] else [.nextPrev, .prevNext]) ++
    [.ownPrev, .tailNext, .setTail, .ownNext]

/-- Statements one after another. -/
def runStmts (c : ℕ) : List MoveStmt → Cache → Option Cache
  | [], k => some k
  | s :: rest, k => (s.run c k).bind (runStmts c rest)

/-- A store to what follows a node does not change the node's own links. -/
theorem Nodes.deref_modify_next {α : Type*} {n n' : Nodes α} {c : ℕ} {x : DNode α}
    (hx : n.deref c = some x) (h : n.modify x.next (fun y => { y with prev := x.prev }) = some n') :
    n'.deref c = some x := by
  obtain ⟨y, hy, rfl⟩ := Option.map_eq_some_iff.mp h
  obtain ⟨hc0, hc⟩ := Nodes.deref_eq_some hx
  by_cases hnext : c = x.next
  · obtain rfl : x = y := by
      rw [← hnext, hx] at hy
      exact Option.some.inj hy
    rw [Nodes.deref, if_neg hc0, ← hnext, Function.update_self]
  · rw [Nodes.deref, if_neg hc0, Function.update_of_ne hnext, hc]

/-- **`move_to_end` makes its stores** for an item that is not the last. -/
theorem Cache.moveToEnd_eq {k : Cache} {c : ℕ} {x : CachedItem} (hx : k.nodes.deref c = some x)
    (hnext : x.next ≠ 0) :
    k.moveToEnd c = runStmts c (moveStmts (decide (c = k.head))) k := by
  rw [Cache.moveToEnd, hx, Option.bind_eq_bind, Option.bind_some, if_neg hnext]
  by_cases hc : c = k.head
  · rw [if_pos hc, decide_eq_true hc]
    simp [moveStmts, runStmts, MoveStmt.run, hx, Option.bind_assoc]
  · rw [if_neg hc, decide_eq_false hc]
    cases hmod : k.nodes.modify x.next fun y => { y with prev := x.prev } with
    | none => simp [moveStmts, runStmts, MoveStmt.run, hx, hmod]
    | some n =>
      have hx' := Nodes.deref_modify_next hx hmod
      simp [moveStmts, runStmts, MoveStmt.run, hx, hmod, hx', Option.bind_assoc]

namespace Proxy

/-! ## The threads -/

/-- The program points of a thread, with those inside `find_cache`. -/
inductive WalkPc : Type where
  /-- any other point, or before `curr = tail` -/
  | outside (p : Pc)
  /-- the loop of `find_cache`, at the item `curr` -/
  | scan (curr : ℕ)
  /-- `if(c->next==NULL)` and `if(c==head)` of `move_to_end` -/
  | test (c : ℕ)
  /-- before the first of the statements that are left -/
  | store (c : ℕ) (rest : List MoveStmt)
  deriving DecidableEq

namespace WalkPc

/-- The point when the whole walk is one step, and so are the stores. -/
def whole : WalkPc → Pc
  | .outside p => p
  | .scan _ | .test _ => .lookup
  | .store c _ => .moving c

/-- Between the first and the last store of `move_to_end`. -/
def storing : WalkPc → Bool
  | .store _ _ => true
  | _ => false

/-- In code that writes `head`, `tail` or the links of an item. -/
def relinking : WalkPc → Bool
  | .outside .insert | .store _ _ => true
  | _ => false

/-- In `find_cache`. -/
def finding (p : WalkPc) : Bool := p.whole.finding

/-- What one statement of a thread does: to the variables that synchronise the threads, to
its own program point and to the cache; and the call that it completes. -/
structure Taken : Type where
  /-- the shared variables -/
  shared : Shared
  /-- the next statement -/
  pc : WalkPc
  /-- the cache -/
  cache : Cache
  /-- the call of the cache that has returned, and what it returned -/
  done : Option (Cache.Call × ℕ)

/-- The next statement of a thread that serves `req`. -/
def step (req : Request) (v : Shared) (k : Cache) : WalkPc → Event → Option Taken
  | .outside .lookup, _ => some ⟨v, .scan k.tail, k, none⟩
  | .outside (.moving _), _ => none
  | .outside p, e => do
    let (v, x) ← p.step v e
    let k ← p.cacheStep req k e
    some ⟨v, .outside x, k, p.completes req e⟩
  | .scan curr, _ =>
    if curr = 0 then some ⟨v, .outside (.leave false), k, some (req.find, 0)⟩
    else do
      let x ← k.nodes.deref curr
      some ⟨v, if req.accepts (curr, x.val) then .test curr else .scan x.prev, k, none⟩
  | .test c, _ => do
    let x ← k.nodes.deref c
    if x.next = 0 then some ⟨v, .outside (.serve c), k, some (req.find, c)⟩
    else some ⟨v, .store c (moveStmts (decide (c = k.head))), k, none⟩
  | .store _ [], _ => none
  | .store c (s :: rest), _ => do
    let k ← s.run c k
    if rest = [] then some ⟨v, .outside (.serve c), k, some (req.find, c)⟩
    else some ⟨v, .store c rest, k, none⟩

end WalkPc

/-- The threads, what they share, and the history of the cache. -/
structure WalkState (ι : Type) : Type where
  /-- the variables that synchronise the threads -/
  shared : Shared
  /-- where each thread is -/
  pc : ι → WalkPc
  /-- the cache -/
  cache : Cache
  /-- the calls that have returned, and what they returned -/
  hist : List (ι × Cache.Call × ℕ)

/-- One thread executes a statement. -/
def WalkState.next {ι : Type} [DecidableEq ι] (req : ι → Request) (st : WalkState ι)
    (a : ι × Event) : Option (WalkState ι) :=
  ((st.pc a.1).step (req a.1) st.shared st.cache a.2).map fun r =>
    ⟨r.shared, Function.update st.pc a.1 r.pc, r.cache,
      st.hist ++ (r.done.toList.map fun x => (a.1, x))⟩

/-- The threads of the proxy statement by statement, the thread `t` serving `req t`. -/
def walks {ι : Type} [DecidableEq ι] (req : ι → Request) : Machine (WalkState ι) (ι × Event) where
  init st := st = ⟨⟨1, 1, 0⟩, fun _ => .outside .enter, cacheInit, []⟩
  step st a st' := st.next req a = some st'

/-- The thread at this point goes on to relink the list. -/
def WalkPc.entersMove (k : Cache) : WalkPc → Bool
  | .test c => (k.nodes.deref c).any fun x => decide (x.next ≠ 0)
  | _ => false

/-- **Nobody relinks beside another**: `move_to_end` makes its first store only when no other
thread is in `find_cache`, a thread enters `find_cache` only when no other one is at the
stores of `move_to_end`, and the item that is moved is not the first. -/
structure Undisturbed {ι : Type} (st : WalkState ι) (a : ι × Event) : Prop where
  move : (st.pc a.1).entersMove st.cache = true → ∀ u, u ≠ a.1 → (st.pc u).finding = false
  walk : st.pc a.1 = .outside .entered → ∀ u, (st.pc u).storing = false
  first : (st.pc a.1).entersMove st.cache = true → st.pc a.1 ≠ .test st.cache.head

/-! ## What is left of a look-up -/

/-- What is left of a look-up leads where the whole of it leads, in the cache `k₀` that it
found; the statements that have run since have made it `k`. -/
def WalkPc.Ahead (req : Request) (k k₀ : Cache) : WalkPc → Prop
  | .outside p => p.inMove = false
  | .scan curr => ∃ fuel,
      Cache.findLoop k₀.nodes req.hostname (atoi req.port) req.pathname fuel curr =
        Cache.findLoop k₀.nodes req.hostname (atoi req.port) req.pathname
          (k₀.numCachedItem + 1) k₀.tail
  | .test c => c ≠ 0 ∧ Cache.findLoop k₀.nodes req.hostname (atoi req.port) req.pathname
      (k₀.numCachedItem + 1) k₀.tail = some c
  | .store c rest => rest ≠ [] ∧ runStmts c rest k = k₀.moveToEnd c

namespace WalkPc

variable {req : Request} {k k' k₀ k₀' : Cache} {p : WalkPc}

theorem Ahead.of_not_finding (h : p.Ahead req k k₀) (hp : p.finding = false) :
    p.Ahead req k' k₀' := by
  cases p with
  | outside p => exact h
  | scan | test | store => cases hp

theorem Ahead.of_not_storing (h : p.Ahead req k k₀) (hp : p.storing = false) :
    p.Ahead req k' k₀ := by
  cases p with
  | store => cases hp
  | _ => exact h

theorem finding_of_storing (hp : p.storing = true) : p.finding = true := by
  cases p with
  | store => rfl
  | _ => cases hp

theorem Ahead.inMove_whole (h : p.Ahead req k k₀) : p.whole.inMove = p.storing := by
  cases p with
  | outside p => exact h
  | _ => rfl

end WalkPc

/-- **The state `s₀` in which every look-up that has begun is still to be done**, or is in its
last step, `move_to_end`. -/
structure Covers {ι : Type} (req : ι → Request) (st : WalkState ι) (s₀ : Recorded ι) : Prop where
  shared : s₀.1.1 = ⟨st.shared, fun t => (st.pc t).whole⟩
  hist : s₀.2 = st.hist
  cache : (∀ t, (st.pc t).storing = false) → st.cache = s₀.1.2
  alone : ∀ t u, t ≠ u → (st.pc t).storing = true → (st.pc u).finding = false
  ahead : ∀ t, (st.pc t).Ahead (req t) st.cache s₀.1.2

section Simulation

variable {ι : Type} [DecidableEq ι] {req : ι → Request} {st st' : WalkState ι} {s₀ : Recorded ι}
  {t : ι} {e : Event}

omit [DecidableEq ι] in
/-- A thread in `find_cache` that is not at the stores sees the cache as nobody changes it. -/
theorem Covers.still (h : Covers req st s₀) (hfind : (st.pc t).finding = true)
    (hstore : (st.pc t).storing = false) : st.cache = s₀.1.2 := by
  refine h.cache fun u => ?_
  by_cases hu : u = t
  · rw [hu]
    exact hstore
  · cases hs : (st.pc u).storing with
    | false => rfl
    | true =>
      rw [h.alone u t hu hs] at hfind
      cases hfind

/-- The thread `t` has moved to `x`, and the others are where they were. -/
theorem Covers.moved {k' k₀' : Cache} {v' : Shared} {x : WalkPc}
    {hist' : List (ι × Cache.Call × ℕ)} (h : Covers req st s₀) (hx : x.Ahead (req t) k' k₀')
    (hrest : ∀ u, u ≠ t → (st.pc u).Ahead (req u) k' k₀')
    (hcache : x.storing = false → (∀ u, u ≠ t → (st.pc u).storing = false) → k' = k₀')
    (hstore : x.storing = true → ∀ u, u ≠ t → (st.pc u).finding = false)
    (hfind : x.finding = true → ∀ u, u ≠ t → (st.pc u).storing = false) :
    Covers req ⟨v', Function.update st.pc t x, k', hist'⟩
      ((⟨v', Function.update s₀.1.1.pc t x.whole⟩, k₀'), hist') where
  shared := by
    refine congrArg (State.mk v') (funext fun u => ?_)
    dsimp only
    by_cases hu : u = t
    · rw [hu, Function.update_self, Function.update_self]
    · rw [Function.update_of_ne hu, Function.update_of_ne hu, h.shared]
  hist := rfl
  cache := by
    intro hall
    dsimp only at hall ⊢
    refine hcache ?_ fun u hu => ?_
    · have hx' := hall t
      rwa [Function.update_self] at hx'
    · have hu' := hall u
      rwa [Function.update_of_ne hu] at hu'
  alone := by
    intro u w huw hu
    dsimp only at hu ⊢
    by_cases hut : u = t
    · subst hut
      rw [Function.update_self] at hu
      rw [Function.update_of_ne huw.symm]
      exact hstore hu w huw.symm
    · rw [Function.update_of_ne hut] at hu
      by_cases hwt : w = t
      · subst hwt
        rw [Function.update_self, ← Bool.not_eq_true]
        intro hw
        rw [hfind hw u hut] at hu
        cases hu
      · rw [Function.update_of_ne hwt]
        exact h.alone u w huw hu
  ahead := by
    intro u
    dsimp only
    by_cases hu : u = t
    · subst hu
      rw [Function.update_self]
      exact hx
    · rw [Function.update_of_ne hu]
      exact hrest u hu

omit [DecidableEq ι] in
theorem Covers.others_still (h : Covers req st s₀) (hfind : (st.pc t).finding = true) (u : ι)
    (hu : u ≠ t) : (st.pc u).storing = false := by
  cases hs : (st.pc u).storing with
  | false => rfl
  | true =>
    rw [h.alone u t hu hs] at hfind
    cases hfind

omit [DecidableEq ι] in
theorem Covers.pc_eq (h : Covers req st s₀) : s₀.1.1.pc t = (st.pc t).whole := by
  rw [h.shared]

omit [DecidableEq ι] in
theorem Covers.shared_eq (h : Covers req st s₀) : s₀.1.1.shared = st.shared := by
  rw [h.shared]

/-- The thread has moved on inside the same call, and the cache may have changed. -/
theorem Covers.inside {k' : Cache} {x : WalkPc} (h : Covers req st s₀)
    (hwhole : x.whole = (st.pc t).whole) (hx : x.Ahead (req t) k' s₀.1.2)
    (hrest : ∀ u, u ≠ t → (st.pc u).Ahead (req u) k' s₀.1.2)
    (hcache : x.storing = false → k' = s₀.1.2)
    (hstore : x.storing = true → ∀ u, u ≠ t → (st.pc u).finding = false)
    (hfind : (st.pc t).finding = true) :
    Covers req ⟨st.shared, Function.update st.pc t x, k', st.hist⟩ s₀ := by
  have hmoved : Covers req ⟨st.shared, Function.update st.pc t x, k', st.hist⟩
      ((⟨st.shared, Function.update s₀.1.1.pc t x.whole⟩, s₀.1.2), st.hist) :=
    h.moved hx hrest (fun hs _ => hcache hs) hstore fun _ => h.others_still hfind
  have hsame : Function.update s₀.1.1.pc t x.whole = s₀.1.1.pc := by
    rw [hwhole, ← h.pc_eq, Function.update_eq_self]
  rw [hsame, ← h.shared_eq, ← h.hist] at hmoved
  rw [← h.shared_eq, ← h.hist]
  exact hmoved

/-- A step of the threads whose look-ups are single steps, from its parts. -/
theorem recorded_of_parts (req : ι → Request) (s₀ : Recorded ι) (t : ι) (e : Event) {v : Shared}
    {x : Pc} {k : Cache}
    (hstep : (s₀.1.1.pc t).step s₀.1.1.shared e = some (v, x))
    (hcache : (s₀.1.1.pc t).cacheStep (req t) s₀.1.2 e = some k) :
    (recorded req).step s₀ (t, e) ((⟨v, Function.update s₀.1.1.pc t x⟩, k),
      s₀.2 ++ (((s₀.1.1.pc t).completes (req t) e).toList.map fun y => (t, y))) := by
  simp [recorded, recordedNext, Proxy.next, State.next, hstep, hcache]

/-- **A statement is a step of the whole, or lies inside one.** -/
def Matched (req : ι → Request) (st' : WalkState ι) (s₀ : Recorded ι) (t : ι) : Prop :=
  Covers req st' s₀ ∨ ∃ e s₀', Orderly s₀.1 (t, e) ∧ (recorded req).step s₀ (t, e) s₀' ∧
    Covers req st' s₀'

/-- A statement that ends a look-up, or ends the walk of one. -/
theorem Covers.matched {k' k₀' : Cache} {x : WalkPc} (h : Covers req st s₀) (p : Pc) (e : Event)
    (done : Option (Cache.Call × ℕ)) (ho : Orderly s₀.1 (t, e)) (hp : (st.pc t).whole = p)
    (hstep : p.step st.shared e = some (st.shared, x.whole))
    (hcache : p.cacheStep (req t) s₀.1.2 e = some k₀') (hdone : p.completes (req t) e = done)
    (hx : x.Ahead (req t) k' k₀')
    (hrest : ∀ u, u ≠ t → (st.pc u).Ahead (req u) k' k₀')
    (hsame : x.storing = false → k' = k₀')
    (hstore : x.storing = true → ∀ u, u ≠ t → (st.pc u).finding = false)
    (hfind : (st.pc t).finding = true) :
    Matched req ⟨st.shared, Function.update st.pc t x, k',
      st.hist ++ (done.toList.map fun y => (t, y))⟩ s₀ t := by
  have hpc : s₀.1.1.pc t = p := h.pc_eq.trans hp
  have hparts := recorded_of_parts req s₀ t e
    (by rw [hpc, h.shared_eq]; exact hstep) (by rw [hpc]; exact hcache)
  rw [hpc, hdone, h.hist] at hparts
  exact .inr ⟨e, _, ho, hparts,
    h.moved hx hrest (fun hs _ => hsame hs) hstore fun _ => h.others_still hfind⟩

omit [DecidableEq ι] in
/-- The loop of a whole look-up ends. -/
theorem scan_ends {k₀ : Cache} {l : List (ℕ × Object)} (hrep : k₀.Represents l) (req : Request) :
    ∃ c, Cache.findLoop k₀.nodes req.hostname (atoi req.port) req.pathname
      (k₀.numCachedItem + 1) k₀.tail = some c := by
  have hloop := Cache.Represents.findLoop req.hostname (atoi req.port) req.pathname
    hrep.seg hrep.ne_zero (Nat.lt_succ_self _)
  rw [← hrep.tail, ← hrep.num] at hloop
  exact ⟨_, hloop⟩

omit [DecidableEq ι] in
/-- The last step of a walk is one that the whole look-up may take. -/
theorem orderly_lookup (h : Covers req st s₀) (hp : (st.pc t).whole = .lookup)
    (hmove : ∀ c, e = .hitMove c → (∀ u, u ≠ t → (st.pc u).finding = false) ∧ c ≠ s₀.1.2.head) :
    Orderly s₀.1 (t, e) := by
  have hpc : s₀.1.1.pc t = .lookup := h.pc_eq.trans hp
  have henters : ∀ {e : Event}, (Pc.lookup).entersMove e = true → ∃ c, e = .hitMove c := by
    intro e he
    cases e with
    | hitMove c => exact ⟨c, rfl⟩
    | _ => cases he
  refine ⟨fun hin u hu => ?_, fun hin => ?_, fun hin => ?_⟩
  · dsimp only at hin
    rw [hpc] at hin
    obtain ⟨c, he⟩ := henters hin
    rw [h.pc_eq]
    exact (hmove c he).1 u hu
  · dsimp only at hin
    rw [hpc] at hin
    cases hin
  · dsimp only at hin ⊢
    rw [hpc] at hin
    obtain ⟨c, rfl⟩ := henters hin
    exact fun hc => (hmove c rfl).2 (Event.hitMove.inj hc)

/-! ### One statement -/

variable {l : List (ℕ × Object)}

/-- `curr = tail` -/
theorem Covers.begin (h : Covers req st s₀) (hp : st.pc t = .outside .lookup) :
    Matched req ⟨st.shared, Function.update st.pc t (.scan st.cache.tail), st.cache, st.hist⟩ s₀ t := by
  have hfind : (st.pc t).finding = true := by rw [hp]; rfl
  have hk := h.still hfind (by rw [hp]; rfl)
  refine .inl (h.inside (by rw [hp]; rfl) ⟨s₀.1.2.numCachedItem + 1, ?_⟩ (fun u _ => h.ahead u)
    (fun _ => hk) (fun hs => by cases hs) hfind)
  rw [hk]

/-- The loop of `find_cache` ends without a match. -/
theorem Covers.scanEnd (h : Covers req st s₀) (hrep : s₀.1.2.Represents l)
    (hp : st.pc t = .scan 0) :
    Matched req ⟨st.shared, Function.update st.pc t (.outside (.leave false)), st.cache,
      st.hist ++ [(t, (req t).find, 0)]⟩ s₀ t := by
  have hfind : (st.pc t).finding = true := by rw [hp]; rfl
  have hk := h.still hfind (by rw [hp]; rfl)
  have hahead := h.ahead t
  rw [hp] at hahead
  obtain ⟨fuel, hfuel⟩ := hahead
  obtain ⟨c, hc⟩ := scan_ends hrep (req t)
  rw [hc] at hfuel
  have hlook : lookupEvent s₀.1.2 (req t) = some .miss := by
    cases fuel with
    | zero => cases hfuel
    | succ fuel =>
      obtain rfl : 0 = c := Option.some.inj hfuel
      rw [lookupEvent, hc, Option.bind_eq_bind, Option.bind_some, if_pos rfl]
  exact h.matched .lookup .miss (some ((req t).find, 0))
    (orderly_lookup h (by rw [hp]; rfl) fun c he => by cases he) (by rw [hp]; rfl) rfl
    (if_pos hlook) rfl rfl (fun u _ => (h.ahead u).of_not_storing (h.others_still hfind u ‹_›))
    (fun _ => hk) (fun hs => by cases hs) hfind

/-- One round of the loop of `find_cache`. -/
theorem Covers.scanNext (h : Covers req st s₀) (hrep : s₀.1.2.Represents l) {curr : ℕ}
    {x : CachedItem} (hp : st.pc t = .scan curr) (hcurr : curr ≠ 0)
    (hx : st.cache.nodes.deref curr = some x) :
    Matched req ⟨st.shared, Function.update st.pc t
        (if (req t).accepts (curr, x.val) then .test curr else .scan x.prev),
      st.cache, st.hist⟩ s₀ t := by
  have hfind : (st.pc t).finding = true := by rw [hp]; rfl
  have hk := h.still hfind (by rw [hp]; rfl)
  have hahead := h.ahead t
  rw [hp] at hahead
  obtain ⟨fuel, hfuel⟩ := hahead
  obtain ⟨c, hc⟩ := scan_ends hrep (req t)
  cases fuel with
  | zero =>
    rw [hc] at hfuel
    cases hfuel
  | succ fuel =>
    rw [Cache.findLoop, if_neg hcurr, ← hk, hx, Option.bind_eq_bind, Option.bind_some] at hfuel
    cases haccepts : (req t).accepts (curr, x.val) with
    | true =>
      rw [if_pos (show Cache.isSame x.val _ _ _ = true from haccepts)] at hfuel
      refine .inl (h.inside (by rw [hp]; rfl) ⟨hcurr, ?_⟩ (fun u _ => h.ahead u) (fun _ => hk)
        (fun hs => by cases hs) hfind)
      rw [← hk]
      exact hfuel.symm
    | false =>
      rw [if_neg (by rw [show Cache.isSame x.val _ _ _ = false from haccepts]; decide)] at hfuel
      refine .inl (h.inside (by rw [hp]; rfl) ⟨fuel, ?_⟩ (fun u _ => h.ahead u) (fun _ => hk)
        (fun hs => by cases hs) hfind)
      rw [← hk]
      exact hfuel

/-- The tests of `move_to_end`. -/
theorem Covers.tested (h : Covers req st s₀) {c : ℕ} {x : CachedItem} (hp : st.pc t = .test c)
    (ho : Undisturbed st (t, e)) (hx : st.cache.nodes.deref c = some x) :
    Matched req (if x.next = 0 then
        ⟨st.shared, Function.update st.pc t (.outside (.serve c)), st.cache,
          st.hist ++ [(t, (req t).find, c)]⟩
      else ⟨st.shared, Function.update st.pc t (.store c (moveStmts (decide (c = st.cache.head)))),
        st.cache, st.hist⟩) s₀ t := by
  have hfind : (st.pc t).finding = true := by rw [hp]; rfl
  have hk := h.still hfind (by rw [hp]; rfl)
  have hahead := h.ahead t
  rw [hp] at hahead
  obtain ⟨hc0, hloop⟩ := hahead
  have hlook : lookupEvent s₀.1.2 (req t) =
      some (if x.next = 0 then .hitLast c else .hitMove c) := by
    rw [lookupEvent, hloop, Option.bind_eq_bind, Option.bind_some, if_neg hc0, ← hk, hx]
    rfl
  have hothers : ∀ u, u ≠ t → ∀ k, (st.pc u).Ahead (req u) k s₀.1.2 := fun u hu k =>
    (h.ahead u).of_not_storing (h.others_still hfind u hu)
  by_cases hnext : x.next = 0
  · rw [if_pos hnext] at hlook ⊢
    exact h.matched .lookup (.hitLast c) (some ((req t).find, c))
      (orderly_lookup h (by rw [hp]; rfl) fun c he => by cases he) (by rw [hp]; rfl) rfl
      (if_pos hlook) rfl rfl (fun u hu => hothers u hu _) (fun _ => hk) (fun hs => by cases hs)
      hfind
  · rw [if_neg hnext] at hlook ⊢
    have henters : (st.pc t).entersMove st.cache = true := by
      rw [hp, WalkPc.entersMove, hx, Option.any_some, decide_eq_true hnext]
    have hfirst : c ≠ s₀.1.2.head := by
      rw [← hk]
      intro hc
      exact ho.first henters (hp.trans (congrArg WalkPc.test hc))
    have hnot : ∀ u, u ≠ t → (st.pc u).finding = false := ho.move henters
    have hstmts : runStmts c (moveStmts (decide (c = st.cache.head))) st.cache =
        s₀.1.2.moveToEnd c := by
      rw [← hk]
      exact (Cache.moveToEnd_eq hx hnext).symm
    have hne : moveStmts (decide (c = st.cache.head)) ≠ [] := by
      rw [moveStmts]
      simp
    have hmatched : Matched req ⟨st.shared, Function.update st.pc t
        (.store c (moveStmts (decide (c = st.cache.head)))), st.cache,
        st.hist ++ ((none : Option (Cache.Call × ℕ)).toList.map fun y => (t, y))⟩ s₀ t :=
      h.matched .lookup (.hitMove c) none (orderly_lookup h (by rw [hp]; rfl) fun c' he => ⟨hnot, Event.hitMove.inj he ▸ hfirst⟩)
      (by rw [hp]; rfl) rfl (if_pos hlook) rfl ⟨hne, hstmts⟩ (fun u hu => hothers u hu _)
      (fun _ => hk) (fun _ => hnot) hfind
    rwa [Option.toList_none, List.map_nil, List.append_nil] at hmatched

/-- One store of `move_to_end`. -/
theorem Covers.stored (h : Covers req st s₀) {c : ℕ} {s : MoveStmt} {rest : List MoveStmt}
    {k' : Cache} (hp : st.pc t = .store c (s :: rest)) (hs : s.run c st.cache = some k') :
    Matched req (if rest = [] then
        ⟨st.shared, Function.update st.pc t (.outside (.serve c)), k',
          st.hist ++ [(t, (req t).find, c)]⟩
      else ⟨st.shared, Function.update st.pc t (.store c rest), k', st.hist⟩) s₀ t := by
  have hfind : (st.pc t).finding = true := by rw [hp]; rfl
  have hstore : (st.pc t).storing = true := by rw [hp]; rfl
  have hahead := h.ahead t
  rw [hp] at hahead
  obtain ⟨-, hrun⟩ := hahead
  rw [runStmts, hs, Option.bind_some] at hrun
  have hnot : ∀ u, u ≠ t → (st.pc u).finding = false := fun u hu => h.alone t u hu.symm hstore
  by_cases hrest : rest = []
  · rw [if_pos hrest]
    rw [hrest] at hrun
    have hmoving : Orderly s₀.1 (t, .go) := by
      have hpc : s₀.1.1.pc t = .moving c := h.pc_eq.trans (by rw [hp]; rfl)
      refine ⟨fun hin => ?_, fun hin => ?_, fun hin => ?_⟩
      all_goals
        dsimp only at hin
        rw [hpc] at hin
        cases hin
    exact h.matched (.moving c) .go (some ((req t).find, c)) hmoving
      (by rw [hp]; rfl) rfl hrun.symm rfl rfl
      (fun u hu => (h.ahead u).of_not_finding (hnot u hu)) (fun _ => rfl)
      (fun hs => by cases hs) hfind
  · rw [if_neg hrest]
    exact .inl (h.inside (by rw [hp]; rfl) ⟨hrest, hrun⟩
      (fun u hu => (h.ahead u).of_not_finding (hnot u hu)) (fun hs => by cases hs)
      (fun _ => hnot) hfind)

/-- Only a writer changes the cache outside `find_cache`. -/
theorem cacheStep_outside {req : Request} {k k' : Cache} {p : Pc} (hlookup : p ≠ .lookup)
    (hmove : p.inMove = false) (hinsert : p ≠ .insert) (h : p.cacheStep req k e = some k') :
    k' = k ∧ ∀ k₀, p.cacheStep req k₀ e = some k₀ := by
  cases p with
  | lookup => exact absurd rfl hlookup
  | moving => cases hmove
  | insert => exact absurd rfl hinsert
  | _ => exact ⟨(Option.some.inj h).symm, fun _ => rfl⟩

/-- Outside `find_cache` a statement is a step of the protocol. -/
theorem WalkPc.step_outside {req : Request} {v : Shared} {k : Cache} {p : Pc} {r : WalkPc.Taken}
    (hlookup : p ≠ .lookup) (hmove : p.inMove = false)
    (h : WalkPc.step req v k (.outside p) e = some r) :
    ∃ v' x k', p.step v e = some (v', x) ∧ p.cacheStep req k e = some k' ∧
      r = ⟨v', .outside x, k', p.completes req e⟩ := by
  have heq : WalkPc.step req v k (.outside p) e = (do
      let (v', x) ← p.step v e
      let k' ← p.cacheStep req k e
      some ⟨v', .outside x, k', p.completes req e⟩) := by
    cases p with
    | lookup => exact absurd rfl hlookup
    | moving => cases hmove
    | _ => rfl
  rw [heq] at h
  obtain ⟨⟨v', x⟩, hstep, h⟩ := Option.bind_eq_some_iff.mp h
  obtain ⟨k', hcache, h⟩ := Option.bind_eq_some_iff.mp h
  exact ⟨v', x, k', hstep, hcache, (Option.some.inj h).symm⟩

/-- A thread enters `find_cache` by one step only. -/
theorem entered_of_step {v v' : Shared} {p x : Pc} (h : p.step v e = some (v', x))
    (hlookup : p ≠ .lookup) (hx : x.finding = true) : p = .entered := by
  have hnot : ∀ q : Pc, q.finding = false → x ≠ q := by
    rintro q hq rfl
    rw [hx] at hq
    cases hq
  cases p with
  | entered => rfl
  | lookup => exact absurd rfl hlookup
  | done => cases h
  | fetch => cases e <;> cases h <;> cases hx
  | enter | leave | lock | writerLock =>
    obtain ⟨-, h⟩ := Option.ite_none_right_eq_some.mp h
    exact absurd (Prod.mk.inj (Option.some.inj h)).2.symm (hnot _ rfl)
  | testFirst | testLast | left =>
    obtain rfl := (Prod.mk.inj (Option.some.inj h)).2
    split at hx <;> cases hx
  | _ => exact absurd (Prod.mk.inj (Option.some.inj h)).2.symm (hnot _ rfl)

variable [Fintype ι]

/-- A statement outside `find_cache`. -/
theorem Covers.stepped (h : Covers req st s₀) (hexp : Explained req s₀ l) {p x : Pc} {v' : Shared}
    {k' : Cache} (hp : st.pc t = .outside p) (hlookup : p ≠ .lookup) (ho : Undisturbed st (t, e))
    (hstep : p.step st.shared e = some (v', x))
    (hcache : p.cacheStep (req t) st.cache e = some k') :
    Matched req ⟨v', Function.update st.pc t (.outside x), k',
      st.hist ++ ((p.completes (req t) e).toList.map fun y => (t, y))⟩ s₀ t := by
  have hpc : s₀.1.1.pc t = p := h.pc_eq.trans (by rw [hp]; rfl)
  have hmove : p.inMove = false := by
    have hahead := h.ahead t
    rwa [hp] at hahead
  have hentersMove : p.entersMove e = false := by
    cases p with
    | lookup => exact absurd rfl hlookup
    | _ => rfl
  have hxmove : x.inMove = false := by
    rw [← Bool.not_eq_true]
    intro hx
    rw [Pc.entersMove_of_step hstep hx] at hentersMove
    cases hentersMove
  have hwhole : ∀ u, (s₀.1.1.pc u).inMove = (st.pc u).storing := fun u => by
    rw [h.pc_eq]
    exact (h.ahead u).inMove_whole
  have horderly : Orderly s₀.1 (t, e) := by
    refine ⟨fun hin => ?_, fun hin u => ?_, fun hin => ?_⟩
    · dsimp only at hin
      rw [hpc, hentersMove] at hin
      cases hin
    · rw [hwhole]
      exact ho.walk (hp.trans (congrArg WalkPc.outside (hpc.symm.trans hin))) u
    · dsimp only at hin
      rw [hpc, hentersMove] at hin
      cases hin
  have hfind : x.finding = true → ∀ u, u ≠ t → (st.pc u).storing = false := fun hx u _ =>
    ho.walk (by rw [hp, entered_of_step hstep hlookup hx]) u
  -- the cache changes for both machines, or for none
  obtain ⟨k₀', hcache₀, hahead, hsame⟩ : ∃ k₀', p.cacheStep (req t) s₀.1.2 e = some k₀' ∧
      (∀ u, u ≠ t → (st.pc u).Ahead (req u) k' k₀') ∧
      ((∀ u, u ≠ t → (st.pc u).storing = false) → k' = k₀') := by
    have hst : (st.pc t).storing = false := by rw [hp]; rfl
    by_cases hinsert : p = .insert
    · have hnone : ∀ u, u ≠ t → (st.pc u).finding = false := fun u hu => by
        rw [WalkPc.finding, ← h.pc_eq]
        exact (hexp.serialised.balanced.exclusion hu.symm (hpc.trans hinsert)).2
      have hk : st.cache = s₀.1.2 := h.cache fun u => by
        by_cases hu : u = t
        · rw [hu]
          exact hst
        · cases hs : (st.pc u).storing with
          | false => rfl
          | true => exact absurd (WalkPc.finding_of_storing hs) (by simp [hnone u hu])
      rw [hk] at hcache
      exact ⟨k', hcache, fun u hu => (h.ahead u).of_not_finding (hnone u hu), fun _ => rfl⟩
    · obtain ⟨rfl, hall⟩ := cacheStep_outside hlookup hmove hinsert hcache
      refine ⟨s₀.1.2, hall _, fun u _ => h.ahead u, fun hrest => h.cache fun u => ?_⟩
      by_cases hu : u = t
      · rw [hu]
        exact hst
      · exact hrest u hu
  have hparts := recorded_of_parts req s₀ t e
    (by rw [hpc, h.shared_eq]; exact hstep) (by rw [hpc]; exact hcache₀)
  rw [hpc, h.hist] at hparts
  exact .inr ⟨e, _, horderly, hparts, h.moved hxmove hahead (fun _ => hsame)
    (fun hs => by cases hs) hfind⟩

/-- **Every statement** is a step of the machine in which a look-up is one step, or lies inside
such a step. -/
theorem Covers.step (h : Covers req st s₀) (hexp : Explained req s₀ l)
    (ho : Undisturbed st (t, e)) (hs : (walks req).step st (t, e) st') :
    Matched req st' s₀ t := by
  obtain ⟨r, hr, rfl⟩ := Option.map_eq_some_iff.mp hs
  dsimp only at hr ⊢
  cases hp : st.pc t with
  | outside p =>
    rw [hp] at hr
    by_cases hlookup : p = .lookup
    · subst hlookup
      cases hr
      have hmatched := h.begin hp
      rwa [← List.append_nil st.hist] at hmatched
    · have hmove : p.inMove = false := by
        have hahead := h.ahead t
        rwa [hp] at hahead
      obtain ⟨v, x, k, hstep, hcache, rfl⟩ := WalkPc.step_outside hlookup hmove hr
      exact h.stepped hexp hp hlookup ho hstep hcache
  | scan curr =>
    rw [hp, WalkPc.step] at hr
    split at hr
    · next hcurr =>
      subst hcurr
      cases hr
      exact h.scanEnd hexp.represents hp
    · next hcurr =>
      obtain ⟨x, hx, hr⟩ := Option.bind_eq_some_iff.mp hr
      cases hr
      have hmatched := h.scanNext hexp.represents hp hcurr hx
      rwa [← List.append_nil st.hist] at hmatched
  | test c =>
    rw [hp, WalkPc.step] at hr
    obtain ⟨x, hx, hr⟩ := Option.bind_eq_some_iff.mp hr
    have hmatched := h.tested hp ho hx
    split at hr
    · next hnext =>
      cases hr
      rwa [if_pos hnext] at hmatched
    · next hnext =>
      cases hr
      rwa [if_neg hnext, ← List.append_nil st.hist] at hmatched
  | store c stmts =>
    rw [hp] at hr
    cases stmts with
    | nil => cases hr
    | cons s rest =>
      obtain ⟨k', hrun, hr⟩ := Option.bind_eq_some_iff.mp hr
      have hmatched := h.stored hp hrun
      split at hr
      · next hrest =>
        cases hr
        rwa [if_pos hrest] at hmatched
      · next hrest =>
        cases hr
        rwa [if_neg hrest, ← List.append_nil st.hist] at hmatched

omit [Fintype ι] [DecidableEq ι] in
theorem Covers.init : Covers req ⟨⟨1, 1, 0⟩, fun _ => .outside .enter, cacheInit, []⟩
    ((⟨⟨1, 1, 0⟩, fun _ => .enter⟩, cacheInit), []) where
  shared := rfl
  hist := rfl
  cache := fun _ => rfl
  alone := fun _ _ _ hs => by cases hs
  ahead := fun _ => rfl

/-- **Every run statement by statement** is a run in which a look-up is one step. -/
theorem walks_covered (h : (walks req).ReachWhen Undisturbed st) :
    ∃ s₀, (recorded req).ReachWhen (fun s a => Orderly s.1 a) s₀ ∧ Covers req st s₀ := by
  refine h.simulates (fun st hst => ⟨_, rfl, ?_⟩) fun st a st' s₀ hs₀ hcov ho hs => ?_
  · obtain rfl : st = _ := hst
    exact .init
  · obtain ⟨l, hexp⟩ := (recorded_inductive req).holds hs₀
    rcases hcov.step hexp ho hs with hcov' | ⟨e, s₀', ho', hs', hcov'⟩
    · exact .inl hcov'
    · exact .inr ⟨_, s₀', ho', hs', hcov'⟩

end Simulation

/-! ## Relinking one at a time -/

/-- The list holds the items `l`, unless a thread is at the stores of `move_to_end`: what is
left of them makes it hold `l` with the item at its end. -/
structure Holds {ι : Type} (req : ι → Request) (st : WalkState ι) (l : List (ℕ × Object)) :
    Prop where
  still : (∀ t, (st.pc t).storing = false) → st.cache.Represents l
  moving : ∀ t c rest, st.pc t = .store c rest → ∃ k, runStmts c rest st.cache = some k ∧
    k.Represents (Cache.recency l (req t).find)

section Serialised

variable {ι : Type} [DecidableEq ι] [Fintype ι] {req : ι → Request} {st st' : WalkState ι}
  {s₀ : Recorded ι} {t : ι} {e : Event} {l : List (ℕ × Object)}

omit [DecidableEq ι] in
theorem Covers.holds (h : Covers req st s₀) (hexp : Explained req s₀ l) : Holds req st l where
  still := fun hall => by
    rw [h.cache hall]
    exact hexp.represents
  moving := by
    intro t c rest hp
    have hahead := h.ahead t
    have hback := hexp.backed t
    rw [h.pc_eq, hp] at hback
    rw [hp] at hahead
    obtain ⟨a, w, x, y, b, rfl, rfl, hx, hb⟩ := hback
    obtain ⟨k, hmove, -⟩ := hexp.represents.moveToEnd_inner
    have hans := answer_of_moving hexp.represents ⟨a, w, x, y, b, rfl, rfl, hx, hb⟩ hmove
    exact ⟨k, hahead.2.trans hmove, hans.2.1⟩

theorem Covers.disjoint (h : Covers req st s₀) (hexp : Explained req s₀ l) {t u : ι}
    (hne : t ≠ u) : ¬((st.pc t).relinking = true ∧ (st.pc u).relinking = true) := by
  have hwhole : ∀ t, (st.pc t).relinking = true → (s₀.1.1.pc t).relinking = true := by
    intro t ht
    rw [h.pc_eq]
    cases hp : st.pc t with
    | outside p =>
      rw [hp] at ht
      cases p <;> first | rfl | cases ht
    | store => rfl
    | scan | test =>
      rw [hp] at ht
      cases ht
  exact fun hboth => hexp.serialised.disjoint hne ⟨hwhole t hboth.1, hwhole u hboth.2⟩

omit [DecidableEq ι] [Fintype ι] in
/-- What a look-up completes is itself. -/
theorem Pc.completes_finding {p : Pc} (hp : p.finding = true) (req : Request) (e : Event) :
    p.completes req e = none ∨ ∃ r, p.completes req e = some (req.find, r) := by
  cases p with
  | lookup =>
    cases e with
    | miss | hitLast => exact .inr ⟨_, rfl⟩
    | _ => exact .inl rfl
  | moving => exact .inr ⟨_, rfl⟩
  | _ => cases hp

/-- **A step of a look-up keeps the items.** -/
theorem Covers.keeps (h : Covers req st s₀) (hexp : Explained req s₀ l)
    (hfind : (st.pc t).finding = true) (ho : Undisturbed st (t, e))
    (hs : (walks req).step st (t, e) st') :
    ∃ l', Cache.Explains [] st'.hist l' ∧ Holds req st' l' ∧ l'.Perm l := by
  rcases h.step hexp ho hs with hcov | ⟨e', s₀', ho', hs', hcov⟩
  · exact ⟨l, hcov.hist ▸ hexp.explains, hcov.holds hexp, List.Perm.refl l⟩
  obtain ⟨l', hexp'⟩ := hexp.next ho' hs'
  refine ⟨l', hcov.hist ▸ hexp'.explains, hcov.holds hexp', ?_⟩
  obtain ⟨-, -, -, -, -, -, hhist⟩ := recorded_step hs'
  have hl := hexp'.explains
  rw [← hhist] at hl
  have hrest := hl.rest hexp.explains
  have hp : (s₀.1.1.pc t).finding = true := by rwa [h.pc_eq]
  rcases Pc.completes_finding hp (req t) e' with hnone | ⟨r, hsome⟩
  · rw [hnone] at hrest
    obtain rfl : l = l' := hrest
    exact List.Perm.refl l
  · rw [hsome] at hrest
    obtain rfl : Cache.recency l (req t).find = l' := hrest.2
    exact Cache.recency_find_perm l _ _ _

/-- **The list is relinked by one thread at a time, and no look-up loses or duplicates an
item.** In every run in which nobody relinks beside another, what the look-ups and insertions
have returned is what the abstract cache returns, the list holds what the abstract cache
holds, and no step of a look-up changes which items these are. -/
theorem relinking_serialised (req : ι → Request) (h : (walks req).ReachWhen Undisturbed st) :
    (∀ t u, t ≠ u → ¬((st.pc t).relinking = true ∧ (st.pc u).relinking = true)) ∧
    ∃ l, Cache.Explains [] st.hist l ∧ Holds req st l ∧
      ∀ t e st', (st.pc t).finding = true → Undisturbed st (t, e) →
        (walks req).step st (t, e) st' →
        ∃ l', Cache.Explains [] st'.hist l' ∧ Holds req st' l' ∧ l'.Perm l := by
  obtain ⟨s₀, hs₀, hcov⟩ := walks_covered h
  obtain ⟨l, hexp⟩ := (recorded_inductive req).holds hs₀
  refine ⟨fun t u hne => hcov.disjoint hexp hne, l, hcov.hist ▸ hexp.explains, hcov.holds hexp, ?_⟩
  exact fun t e st' hfind ho hs => hcov.keeps hexp hfind ho hs

end Serialised

instance {ι : Type} [Fintype ι] [DecidableEq ι] (st : WalkState ι) (a : ι × Event) :
    Decidable (Undisturbed st a) :=
  decidable_of_iff
    (((st.pc a.1).entersMove st.cache = true → ∀ u, u ≠ a.1 → (st.pc u).finding = false) ∧
      (st.pc a.1 = .outside .entered → ∀ u, (st.pc u).storing = false) ∧
      ((st.pc a.1).entersMove st.cache = true → st.pc a.1 ≠ .test st.cache.head))
    ⟨fun h => ⟨h.1, h.2.1, h.2.2⟩, fun h => ⟨h.move, h.walk, h.first⟩⟩

/-- The state after the steps `as`, all of which meet `P`. -/
def walkRun {ι : Type} [DecidableEq ι] (P : WalkState ι → ι × Event → Prop)
    [∀ st a, Decidable (P st a)] (req : ι → Request) (as : List (ι × Event)) :
    Option (WalkState ι) :=
  Machine.exec (fun st a => if P st a then st.next req a else none)
    ⟨⟨1, 1, 0⟩, fun _ => .outside .enter, cacheInit, []⟩ as

theorem walkRun_reach {ι : Type} [DecidableEq ι] {P : WalkState ι → ι × Event → Prop}
    [∀ st a, Decidable (P st a)] {req : ι → Request} {as : List (ι × Event)} {st : WalkState ι}
    (h : walkRun P req as = some st) : (walks req).ReachWhen P st :=
  Machine.ReachWhen.exec (fun _ _ _ hnext => Option.ite_none_right_eq_some.mp hnext) (.init rfl) h

/-- A request that misses after `n` items, and leaves the item `c`. -/
def walkMiss (t : Fin 6) (n c : ℕ) : List (Fin 6 × Event) :=
  List.replicate (n + 14) (t, .go) ++ [(t, .create [0] c 0 0), (t, .go)]

/-- The first three threads ask for different pages, and the others for the second of them or,
the last one, for the third. -/
def sixPages (t : Fin 6) : Request :=
  ⟨[104], if t.val = 0 then [97] else if t.val = 2 ∨ t.val = 5 then [99] else [98], [56, 48]⟩

/-- The three pages are stored. -/
def threeStored : List (Fin 6 × Event) := walkMiss 0 0 8 ++ walkMiss 1 1 16 ++ walkMiss 2 2 24

/-- While one reader sends the last item to its client, another one is half-way through the
stores that move the item in the middle to the end. -/
theorem relinking_serialised_run : ∃ (st : WalkState (Fin 6)) (rest : List MoveStmt),
    st.pc 5 = .outside (.serve 24) ∧ st.pc 3 = .store 16 rest ∧ rest.length = 3 ∧
    (∀ u, u ≠ 3 → (st.pc u).relinking = false) ∧ ∃ l k, Cache.Explains [] st.hist l ∧
      runStmts 16 rest st.cache = some k ∧ k.Represents (Cache.recency l (sixPages 3).find) := by
  have hrun : ((walkRun Undisturbed sixPages
      (threeStored ++ List.replicate 8 (5, .go) ++ List.replicate 11 (3, .go))).any fun st =>
        st.pc 5 = .outside (.serve 24) ∧
          st.pc 3 = .store 16 [.tailNext, .setTail, .ownNext]) = true := by
    decide +kernel
  obtain ⟨st, e, hst⟩ := (Option.any_eq_true ..).mp hrun
  obtain ⟨h₅, h₃⟩ := of_decide_eq_true hst
  obtain ⟨halone, l, hexp, hholds, -⟩ := relinking_serialised sixPages (walkRun_reach e)
  obtain ⟨k, hk, hrep⟩ := hholds.moving 3 16 _ h₃
  refine ⟨st, _, h₅, h₃, rfl, fun u hu => ?_, l, k, hexp, hk, hrep⟩
  have hnot := halone u 3 hu
  rw [h₃] at hnot
  simpa [WalkPc.relinking] using hnot

/-- Two readers look the item in the middle up, and both are at the stores. Or one of them has
passed the tail when the other one moves the item there, and the look-up misses it. -/
theorem relinking_race :
    (∃ st : WalkState (Fin 6), (walks sixPages).Reach st ∧
      (st.pc 3).relinking = true ∧ (st.pc 4).relinking = true) ∧
    ∃ st : WalkState (Fin 6), (walks sixPages).Reach st ∧
      st.cache.nodes.walkPrev 4 st.cache.tail = [16, 24, 8] ∧
      ((st.cache.nodes.deref 16).any fun x => (sixPages 4).accepts (16, x.val)) = true ∧
      st.hist.getLast?.map (fun x => (x.1, x.2.2)) = some (4, 0) := by
  have hboth : ((walkRun (fun _ _ => True) sixPages
      (threeStored ++ List.replicate 8 (3, .go) ++ List.replicate 8 (4, .go) ++
        [(3, .go), (4, .go)])).any fun st =>
        (st.pc 3).relinking = true ∧ (st.pc 4).relinking = true) = true := by
    decide +kernel
  have hmiss : ((walkRun (fun _ _ => True) sixPages
      (threeStored ++ List.replicate 5 (3, .go) ++ List.replicate 5 (4, .go) ++
        List.replicate 10 (3, .go) ++ List.replicate 3 (4, .go))).any fun st =>
        st.cache.nodes.walkPrev 4 st.cache.tail = [16, 24, 8] ∧
        ((st.cache.nodes.deref 16).any fun x => (sixPages 4).accepts (16, x.val)) = true ∧
        st.hist.getLast?.map (fun x => (x.1, x.2.2)) = some (4, 0)) = true := by
    decide +kernel
  obtain ⟨st, e, hst⟩ := (Option.any_eq_true ..).mp hboth
  obtain ⟨st', e', hst'⟩ := (Option.any_eq_true ..).mp hmiss
  exact ⟨⟨st, walkRun_reach e, of_decide_eq_true hst⟩, st', walkRun_reach e',
    of_decide_eq_true hst'⟩

end Proxy

end SysProgLab
