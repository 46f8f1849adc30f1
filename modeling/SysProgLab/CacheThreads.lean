import SysProgLab.Proxy
import SysProgLab.ReadersWriter

/-!
# The cache under concurrent requests

The threads of `SysProgLab.ReadersWriter` over the cache of `SysProgLab.Proxy`:
what a look-up finds is now decided by the list. The effect of a call that
relinks the list is taken at its end, so that a thread is inside from the step
that enters the call to the step that leaves it; `SysProgLab.CacheWalks` takes
these calls apart.

A look-up that hits an item other than the last relinks the list under the lock
of the readers, which does not exclude other readers.
-/

namespace SysProgLab

namespace Proxy

/-- How a look-up ends; `move_to_end` has nothing to do when the item is the last. -/
def lookupEvent (k : Cache) (req : Request) : Option Event := do
  let c ← Cache.findLoop k.nodes req.hostname (atoi req.port) req.pathname
    (k.numCachedItem + 1) k.tail
  if c = 0 then some .miss
  else do
    let x ← k.nodes.deref c
    some (if x.next = 0 then .hitLast c else .hitMove c)

/-- What a step does to the cache. -/
def Pc.cacheStep (req : Request) (k : Cache) : Pc → Event → Option Cache
  | .lookup, e => if lookupEvent k req = some e then some k else none
  | .moving c, _ => k.moveToEnd c
  | .insert, .create data c prev next =>
    if c ≠ 0 ∧ (k.nodes c).isNone = true then do
      let o ← Cache.createCI req.hostname req.port req.pathname data
      let (_, k) ← Cache.insertCache
        { k with nodes := Function.update k.nodes c (some ⟨o, prev, next⟩) } c
      some k
    else none
  | .insert, _ => none
  | _, _ => some k

/-- One thread, which serves `req`, takes a step. -/
def next {ι : Type} [DecidableEq ι] (req : ι → Request) (st : State ι × Cache) (a : ι × Event) :
    Option (State ι × Cache) := do
  let s ← st.1.next a.1 a.2
  let k ← (st.1.pc a.1).cacheStep (req a.1) st.2 a.2
  some (s, k)

/-- The threads of the proxy, the thread `t` serving `req t`. -/
def server {ι : Type} [DecidableEq ι] (req : ι → Request) :
    Machine (State ι × Cache) (ι × Event) where
  init st := st = (⟨⟨1, 1, 0⟩, fun _ => .enter⟩, cacheInit)
  step st a st' := next req st a = some st'

namespace Pc

/-- In the part of `move_to_end` that relinks the list. -/
def inMove : Pc → Bool
  | .moving _ => true
  | _ => false

/-- In code that writes `head`, `tail` or the links of an item. -/
def relinking : Pc → Bool
  | .moving _ | .insert => true
  | _ => false

/-- The thread at this point enters `move_to_end` to relink the list. -/
def entersMove : Pc → Event → Bool
  | .lookup, .hitMove _ => true
  | _, _ => false

/-- Only a look-up leads into the relinking part of `move_to_end`. -/
theorem entersMove_of_step {v v' : Shared} {p x : Pc} {e : Event}
    (h : p.step v e = some (v', x)) (hx : x.inMove = true) : p.entersMove e = true := by
  have hnot : ∀ q : Pc, q.inMove = false → x ≠ q := by
    rintro q hq rfl
    rw [hx] at hq
    cases hq
  cases p <;> simp only [Pc.step, Option.ite_none_right_eq_some, Option.some.injEq,
    Prod.mk.injEq] at h
  case lookup =>
    cases e <;> cases h
    case hitMove => rfl
    all_goals cases hx
  case fetch => cases e <;> cases h <;> cases hx
  case done => cases h
  case enter | leave | lock | writerLock => exact absurd h.2.2.symm (hnot _ rfl)
  case testFirst | testLast | left =>
    obtain ⟨-, rfl⟩ := h
    split at hx <;> cases hx
  all_goals exact absurd h.2.symm (hnot _ rfl)

theorem finding_of_inMove {p : Pc} (h : p.inMove = true) : p.finding = true := by
  cases p <;> first | rfl | cases h

end Pc

variable {ι : Type} [Fintype ι] [DecidableEq ι]

/-- **One thread at a time relinks the list**, and it holds the lock of the
writers or is a reader. -/
structure Serialised (s : State ι) : Prop where
  balanced : Balanced s.shared (census s.pc)
  one : threads Pc.inMove s.pc ≤ 1

theorem Pc.insert_or_inMove {p : Pc} (h : p.relinking = true) : p = .insert ∨ p.inMove = true := by
  cases p <;> first | exact .inl rfl | exact .inr rfl | cases h

theorem Serialised.disjoint {s : State ι} (h : Serialised s) {t u : ι} (hne : t ≠ u) :
    ¬((s.pc t).relinking = true ∧ (s.pc u).relinking = true) := by
  have excluded : ∀ {t u : ι}, t ≠ u → s.pc t = .insert → (s.pc u).inMove = true → False := by
    intro t u hne ht hu
    have hfinding := (h.balanced.exclusion hne ht).2
    rw [Pc.finding_of_inMove hu] at hfinding
    cases hfinding
  rintro ⟨ht, hu⟩
  rcases Pc.insert_or_inMove ht with ht | ht <;> rcases Pc.insert_or_inMove hu with hu | hu
  · exact (h.balanced.exclusion hne ht).1 hu
  · exact excluded hne ht hu
  · exact excluded hne.symm hu ht
  · have htwo := two_le_threads hne ht hu
    have hone := h.one
    omega

/-- A reader enters the relinking part of `move_to_end` only when no other one is
in it. -/
def AloneInMove (st : State ι × Cache) (a : ι × Event) : Prop :=
  (st.1.pc a.1).entersMove a.2 = true → ∀ u, (st.1.pc u).inMove = false

theorem server_inductive (req : ι → Request) :
    (server req).Inductive AloneInMove fun st => Serialised st.1 where
  init := by
    rintro st rfl
    exact ⟨protocol_inductive.init rfl, by rw [threads_eq_zero fun _ => rfl]; exact Nat.zero_le _⟩
  step := by
    rintro ⟨s, k⟩ ⟨t, e⟩ ⟨s', k'⟩ h halone hs
    obtain ⟨s₁, hnext, hs⟩ := Option.bind_eq_some_iff.mp hs
    obtain ⟨k₁, -, hs⟩ := Option.bind_eq_some_iff.mp hs
    cases hs
    refine ⟨protocol_inductive.step h.balanced trivial (a := (t, e)) hnext, ?_⟩
    obtain ⟨⟨v, x⟩, hstep, rfl⟩ := Option.map_eq_some_iff.mp hnext
    have hcount := threads_update Pc.inMove s.pc t x
    have hone := h.one
    dsimp only at hone ⊢
    cases hx : x.inMove with
    | false =>
      rw [hx, Bool.toNat_false] at hcount
      omega
    | true =>
      have hzero := threads_eq_zero (halone (Pc.entersMove_of_step hstep hx))
      rw [hx, hzero, Bool.toNat_true] at hcount
      omega

end Proxy

end SysProgLab
