import Mathlib.Init

/-!
# Machines

A machine has initial states and labelled steps. What holds in every state of
every run is proved from what holds initially and what one step preserves
(`Machine.Inductive`). A condition on the steps of a run is a predicate of the
state before the step and its label, so that a run may be asked to avoid the
steps that go wrong (`Machine.ReachWhen`).
-/

namespace SysProgLab

universe u v

/-- Initial states and labelled steps. -/
structure Machine (σ : Type u) (α : Type v) where
  /-- the states a run may start in -/
  init : σ → Prop
  /-- the steps a run may take -/
  step : σ → α → σ → Prop

namespace Machine

variable {σ : Type u} {α : Type v} {M : Machine σ α} {P Q : σ → α → Prop} {I : σ → Prop} {s : σ}

/-- The states reached by runs all of whose steps meet the condition `P`. -/
inductive ReachWhen (M : Machine σ α) (P : σ → α → Prop) : σ → Prop where
  | init {s : σ} : M.init s → ReachWhen M P s
  | step {s : σ} {a : α} {s' : σ} : ReachWhen M P s → P s a → M.step s a s' → ReachWhen M P s'

/-- The states reached by any run. -/
def Reach (M : Machine σ α) : σ → Prop := M.ReachWhen fun _ _ => True

/-- `I` holds initially, and every step that meets `P` preserves it. -/
structure Inductive (M : Machine σ α) (P : σ → α → Prop) (I : σ → Prop) : Prop where
  init : ∀ {s : σ}, M.init s → I s
  step : ∀ {s : σ} {a : α} {s' : σ}, I s → P s a → M.step s a s' → I s'

/-- **An inductive predicate holds in every reachable state.** -/
theorem Inductive.holds (h : M.Inductive P I) (hs : M.ReachWhen P s) : I s := by
  induction hs with
  | init h₀ => exact h.init h₀
  | step _ hp hstep ih => exact h.step ih hp hstep

theorem ReachWhen.mono (h : M.ReachWhen P s) (himp : ∀ s a, P s a → Q s a) :
    M.ReachWhen Q s := by
  induction h with
  | init h₀ => exact .init h₀
  | step _ hp hstep ih => exact .step ih (himp _ _ hp) hstep

theorem ReachWhen.reach (h : M.ReachWhen P s) : M.Reach s := h.mono fun _ _ _ => trivial

/-- **A machine that simulates another**: every step is matched by one step, or by none. -/
theorem ReachWhen.simulates {τ : Type*} {β : Type*} {N : Machine τ β} {Q : τ → β → Prop}
    {R : σ → τ → Prop} (hinit : ∀ s, M.init s → ∃ t, N.init t ∧ R s t)
    (hstep : ∀ s a s' t, N.ReachWhen Q t → R s t → P s a → M.step s a s' →
      R s' t ∨ ∃ b t', Q t b ∧ N.step t b t' ∧ R s' t') (h : M.ReachWhen P s) :
    ∃ t, N.ReachWhen Q t ∧ R s t := by
  induction h with
  | init h₀ =>
    obtain ⟨t, ht, hR⟩ := hinit _ h₀
    exact ⟨t, .init ht, hR⟩
  | step _ hp hs ih =>
    obtain ⟨t, ht, hR⟩ := ih
    rcases hstep _ _ _ t ht hR hp hs with hR' | ⟨b, t', hq, hs', hR'⟩
    · exact ⟨t, ht, hR'⟩
    · exact ⟨t', .step ht hq hs', hR'⟩

/-! ## Execution -/

/-- The state after the labels `as`, for steps given by a function. -/
def exec (next : σ → α → Option σ) : σ → List α → Option σ
  | s, [] => some s
  | s, a :: as => (next s a).bind fun s' => exec next s' as

theorem exec_append (next : σ → α → Option σ) (s : σ) (as bs : List α) :
    exec next s (as ++ bs) = (exec next s as).bind fun s' => exec next s' bs := by
  induction as generalizing s with
  | nil => rfl
  | cons a as ih =>
    rw [List.cons_append, exec, exec, Option.bind_assoc]
    exact Option.bind_congr fun s' _ => ih s'

/-- An execution of steps of the machine stays reachable. -/
theorem ReachWhen.exec {next : σ → α → Option σ}
    (hnext : ∀ s a s', next s a = some s' → P s a ∧ M.step s a s') :
    ∀ {as : List α} {s s' : σ}, M.ReachWhen P s → exec next s as = some s' → M.ReachWhen P s' := by
  intro as
  induction as with
  | nil =>
    intro s s' hs h
    obtain rfl : s = s' := Option.some.inj h
    exact hs
  | cons a as ih =>
    intro s s' hs h
    obtain ⟨s₁, h₁, h₂⟩ := Option.bind_eq_some_iff.mp h
    obtain ⟨hp, hstep⟩ := hnext s a s₁ h₁
    exact ih (.step hs hp hstep) h₂

end Machine

end SysProgLab
