import Mathlib.Tactic.SplitIfs

/-!
# Computations that may stop

An `Except` computation either returns or stops with a reason. A computation written
with binds returns exactly if each of its steps returns (`bind_eq_ok`), so what it
returns is taken apart step by step, without unfolding.
-/

namespace SysProgLab

universe u v

variable {α : Type u} {β : Type v} {ε : Type}

/-- Stops unless the condition holds. -/
def ensure (c : Prop) [Decidable c] (e : ε) : Except ε PUnit := if c then .ok ⟨⟩ else .error e

/-- Stops if there is no value. -/
def orStop (x : Option α) (e : ε) : Except ε α := x.elim (.error e) .ok

theorem bind_eq_ok {α β : Type u} {x : Except ε α} {f : α → Except ε β} {b : β} :
    (x >>= f) = .ok b ↔ ∃ a, x = .ok a ∧ f a = .ok b := by
  cases x with
  | error e => exact iff_of_false (fun h => by cases h) (by simp)
  | ok a => exact ⟨fun h => ⟨a, rfl, h⟩, fun ⟨_, e, h⟩ => by cases e; exact h⟩

theorem bind_eq_error {α β : Type u} {x : Except ε α} {f : α → Except ε β} {e : ε} :
    (x >>= f) = .error e ↔ x = .error e ∨ ∃ a, x = .ok a ∧ f a = .error e := by
  cases x with
  | error e' =>
    constructor
    · intro h
      cases h
      exact .inl rfl
    · rintro (h | ⟨_, h, -⟩)
      · cases h
        rfl
      · cases h
  | ok a =>
    refine ⟨fun h => .inr ⟨a, rfl, h⟩, ?_⟩
    rintro (h | ⟨a', h, h'⟩)
    · cases h
    · cases h
      exact h'

theorem map_eq_ok {α β : Type u} {x : Except ε α} {f : α → β} {b : β} :
    f <$> x = .ok b ↔ ∃ a, x = .ok a ∧ f a = b := by
  cases x with
  | error e => exact iff_of_false (fun h => by cases h) (by simp)
  | ok a => simp [Functor.map, Except.map]

theorem pure_eq_ok {a b : α} : (pure a : Except ε α) = .ok b ↔ a = b := by
  constructor
  · intro h
    cases h
    rfl
  · rintro rfl
    rfl

theorem ensure_eq_ok {c : Prop} [Decidable c] {e : ε} {u : PUnit} : ensure c e = .ok u ↔ c := by
  rw [ensure]
  split
  · exact iff_of_true rfl ‹c›
  · exact iff_of_false (fun h => by cases h) ‹¬c›

theorem ensure_eq_error {c : Prop} [Decidable c] {e e' : ε} :
    ensure c e = .error e' ↔ ¬c ∧ e = e' := by
  rw [ensure]
  split
  · exact iff_of_false (fun h => by cases h) fun h => h.1 ‹c›
  · simp [‹¬c›]

theorem orStop_eq_ok {x : Option α} {e : ε} {a : α} : orStop x e = .ok a ↔ x = some a := by
  cases x with
  | none => exact iff_of_false (fun h => by cases h) (fun h => by cases h)
  | some b => simp [orStop]

end SysProgLab
