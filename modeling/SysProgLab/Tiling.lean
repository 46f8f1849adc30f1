import Mathlib.Data.List.Basic
import Mathlib.Data.List.Chain

/-!
# Intervals tiled by consecutive blocks

`Tiles lo len a bs e` says that the blocks `bs`, each occupying `len b`
addresses from `lo b`, follow one another without gap or overlap from `a` to
`e`. An edit of a tiling is local: a run of blocks may be replaced by any other
run that tiles the same interval (`Tiles.replace`). When some blocks are occupied and
the others are gaps, no two of them adjacent, the occupied blocks determine the rest
(`Tiles.ext_of_occupied`).
-/

namespace SysProgLab

universe u

variable {β : Type u} {lo len : β → ℕ}

/-- The blocks `bs` tile the interval from `a` to `e`. -/
def Tiles (lo len : β → ℕ) : ℕ → List β → ℕ → Prop
  | a, [], e => a = e
  | a, b :: bs, e => lo b = a ∧ Tiles lo len (a + len b) bs e

namespace Tiles

theorem append {l r : List β} : ∀ {a e : ℕ},
    Tiles lo len a (l ++ r) e ↔ ∃ c, Tiles lo len a l c ∧ Tiles lo len c r e := by
  induction l with
  | nil => intro a e; simp [Tiles]
  | cons b l ih =>
    intro a e
    simp only [List.cons_append, Tiles, ih]
    constructor
    · rintro ⟨h, c, h₁, h₂⟩
      exact ⟨c, ⟨h, h₁⟩, h₂⟩
    · rintro ⟨c, ⟨h, h₁⟩, h₂⟩
      exact ⟨h, c, h₁, h₂⟩

theorem singleton {a e : ℕ} {b : β} : Tiles lo len a [b] e ↔ lo b = a ∧ a + len b = e := Iff.rfl

/-- The block in focus starts where the blocks before it end. -/
theorem focus {l r : List β} {b : β} {a e : ℕ} (h : Tiles lo len a (l ++ b :: r) e) :
    Tiles lo len a l (lo b) ∧ Tiles lo len (lo b + len b) r e := by
  obtain ⟨c, h₁, rfl, h₂⟩ := append.mp h
  exact ⟨h₁, h₂⟩

theorem le {bs : List β} : ∀ {a e : ℕ}, Tiles lo len a bs e → a ≤ e := by
  induction bs with
  | nil => intro a e h; exact Nat.le_of_eq h
  | cons b bs ih =>
    intro a e h
    have := ih h.2
    omega

theorem mem_bounds {bs : List β} : ∀ {a e : ℕ}, Tiles lo len a bs e → ∀ b ∈ bs,
    a ≤ lo b ∧ lo b + len b ≤ e := by
  intro a e h b hb
  obtain ⟨l, r, rfl⟩ := List.append_of_mem hb
  obtain ⟨h₁, h₂⟩ := h.focus
  exact ⟨h₁.le, h₂.le⟩

/-- Blocks lie in address order. -/
theorem pairwise {bs : List β} : ∀ {a e : ℕ}, Tiles lo len a bs e →
    bs.Pairwise fun b c => lo b + len b ≤ lo c := by
  induction bs with
  | nil => intro a e _; exact List.Pairwise.nil
  | cons b bs ih =>
    intro a e h
    obtain ⟨rfl, h⟩ := h
    exact List.pairwise_cons.mpr ⟨fun c hc => (h.mem_bounds c hc).1, ih h⟩

/-- Distinct blocks are disjoint. -/
theorem disjoint {bs : List β} {a e : ℕ} (h : Tiles lo len a bs e) {b c : β} (hb : b ∈ bs)
    (hc : c ∈ bs) (hne : b ≠ c) : lo b + len b ≤ lo c ∨ lo c + len c ≤ lo b := by
  obtain ⟨l, r, rfl⟩ := List.append_of_mem hb
  obtain ⟨h₁, h₂⟩ := h.focus
  rcases List.mem_append.mp hc with hc | hc
  · exact .inr (h₁.mem_bounds c hc).2
  · rcases List.mem_cons.mp hc with rfl | hc
    · exact absurd rfl hne
    · exact .inl (h₂.mem_bounds c hc).1

/-- Nonempty blocks are determined by where they start. -/
theorem eq_of_lo_eq {bs : List β} {a e : ℕ} (h : Tiles lo len a bs e) (hpos : ∀ b ∈ bs, 0 < len b)
    {b c : β} (hb : b ∈ bs) (hc : c ∈ bs) (heq : lo b = lo c) : b = c := by
  by_contra hne
  have h₁ := hpos b hb
  have h₂ := hpos c hc
  have := h.disjoint hb hc hne
  omega

theorem nodup {bs : List β} {a e : ℕ} (h : Tiles lo len a bs e) (hpos : ∀ b ∈ bs, 0 < len b) :
    bs.Nodup :=
  h.pairwise.imp_of_mem fun {b c} hb _ hlt heq => by
    have := hpos b hb
    subst heq
    omega

/-- Alignment is inherited by every block. -/
theorem dvd {bs : List β} {d : ℕ} : ∀ {a e : ℕ}, Tiles lo len a bs e → d ∣ a →
    (∀ b ∈ bs, d ∣ len b) → ∀ b ∈ bs, d ∣ lo b := by
  induction bs with
  | nil => intro a e _ _ _ b hb; cases hb
  | cons c bs ih =>
    intro a e h ha hd b hb
    rcases List.mem_cons.mp hb with rfl | hb
    · rw [h.1]; exact ha
    · exact ih h.2 (Nat.dvd_add ha (hd c (List.mem_cons_self ..)))
        (fun x hx => hd x (List.mem_cons_of_mem _ hx)) b hb

theorem dvd_end {bs : List β} {d : ℕ} : ∀ {a e : ℕ}, Tiles lo len a bs e → d ∣ a →
    (∀ b ∈ bs, d ∣ len b) → d ∣ e := by
  induction bs with
  | nil => intro a e h ha _; exact h ▸ ha
  | cons c bs ih =>
    intro a e h ha hd
    exact ih h.2 (Nat.dvd_add ha (hd c (List.mem_cons_self ..)))
      fun x hx => hd x (List.mem_cons_of_mem _ hx)

/-- **Local edits**: a run of blocks may be replaced by any run that tiles the
same interval. -/
theorem replace {l mid' r : List β} {a s t e : ℕ} (hl : Tiles lo len a l s)
    (hmid : Tiles lo len s mid' t) (hr : Tiles lo len t r e) :
    Tiles lo len a (l ++ (mid' ++ r)) e :=
  append.mpr ⟨s, hl, append.mpr ⟨t, hmid, hr⟩⟩

/-! ## Tilings without two adjacent gaps -/

section Gaps

variable {P : β → Prop} {bs cs : List β} {b c : β} {a e : ℕ}

/-- A gap ends where the next occupied tile starts, so two gaps that start together and
are followed by the same occupied tiles end together. -/
theorem gap_le (h₁ : Tiles lo len a (b :: bs) e) (h₂ : Tiles lo len a (c :: cs) e)
    (hchain : (b :: bs).IsChain fun x y => P x ∨ P y) (hb : ¬P b) (hc : ¬P c)
    (hmem : ∀ d ∈ b :: bs, P d → d ∈ c :: cs) : len c ≤ len b := by
  cases bs with
  | nil =>
    have hend : a + len b = e := h₁.2
    have hle := h₂.2.le
    omega
  | cons d bs =>
    have hd : P d := (List.isChain_cons_cons.mp hchain).1.resolve_left hb
    have hdc : d ∈ cs := by
      rcases List.mem_cons.mp (hmem d (by simp) hd) with rfl | hdc
      · exact absurd hd hc
      · exact hdc
    have hlo : lo d = a + len b := h₁.2.1
    have hle := (h₂.2.mem_bounds d hdc).1
    omega

/-- **A tiling without two adjacent gaps is determined by its occupied tiles.** -/
theorem ext_of_occupied (hext : ∀ b c : β, ¬P b → ¬P c → lo b = lo c → len b = len c → b = c) :
    ∀ {bs cs : List β} {a e : ℕ}, Tiles lo len a bs e → Tiles lo len a cs e →
      (∀ b ∈ bs, 0 < len b) → (∀ c ∈ cs, 0 < len c) →
      (bs.IsChain fun x y => P x ∨ P y) → (cs.IsChain fun x y => P x ∨ P y) →
      (∀ d, P d → (d ∈ bs ↔ d ∈ cs)) → bs = cs := by
  intro bs
  induction bs with
  | nil =>
    intro cs a e h₁ h₂ _ hpos _ _ _
    cases cs with
    | nil => rfl
    | cons c cs =>
      have hae : a = e := h₁
      have hle := h₂.2.le
      have hc := hpos c (List.mem_cons_self ..)
      omega
  | cons b bs ih =>
    intro cs a e h₁ h₂ hpos₁ hpos₂ hch₁ hch₂ hmem
    cases cs with
    | nil =>
      have hae : a = e := h₂
      have hle := h₁.2.le
      have hb := hpos₁ b (List.mem_cons_self ..)
      omega
    | cons c cs =>
      have hlo : lo b = lo c := h₁.1.trans h₂.1.symm
      have hbc : b = c := by
        by_cases hb : P b
        · have hbm := (hmem b hb).mp (List.mem_cons_self ..)
          exact h₂.eq_of_lo_eq hpos₂ hbm (List.mem_cons_self ..) hlo
        · by_cases hc : P c
          · have hcm := (hmem c hc).mpr (List.mem_cons_self ..)
            exact h₁.eq_of_lo_eq hpos₁ (List.mem_cons_self ..) hcm hlo
          · refine hext b c hb hc hlo (Nat.le_antisymm ?_ ?_)
            · exact gap_le h₂ h₁ hch₂ hc hb fun d hd hdP => (hmem d hdP).mpr hd
            · exact gap_le h₁ h₂ hch₁ hb hc fun d hd hdP => (hmem d hdP).mp hd
      subst hbc
      have hnot₁ := (List.nodup_cons.mp (h₁.nodup hpos₁)).1
      have hnot₂ := (List.nodup_cons.mp (h₂.nodup hpos₂)).1
      rw [ih h₁.2 h₂.2 (fun d hd => hpos₁ d (List.mem_cons_of_mem _ hd))
        (fun d hd => hpos₂ d (List.mem_cons_of_mem _ hd)) hch₁.tail hch₂.tail fun d hd => ?_]
      have hd := hmem d hd
      rw [List.mem_cons, List.mem_cons] at hd
      constructor
      · intro hdb
        exact (hd.mp (.inr hdb)).resolve_left fun he => hnot₁ (he ▸ hdb)
      · intro hdc
        exact (hd.mpr (.inr hdc)).resolve_left fun he => hnot₂ (he ▸ hdc)

end Gaps

end Tiles

end SysProgLab
