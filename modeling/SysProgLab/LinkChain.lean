import SysProgLab.WordMem

/-!
# Doubly linked chains in a word memory

An intrusive list threads its links through the nodes themselves: the word at
a node points to the next node (`0` ends the chain) and the word after it
points back to whoever points at the node. The chain hangs off a root word,
which is the back-link of the first node.

* `Chain m prev ps` — the chain of `ps` hanging off `prev`;
* `unlink`, `link` — the two edits, as raw stores;
* `Chain.unlink`, `Chain.link` — what they do to the list of nodes.

The nodes' 8-byte footprints are assumed `Apart`; this is all the edits need
to leave the rest of the chain alone, and with `Chain.congr` all that a store
elsewhere needs to leave the chain alone.
-/

namespace SysProgLab

/-- The footprints of the nodes, two words each, do not overlap. -/
def Apart (l : List ℕ) : Prop := l.Pairwise fun x y => x + 8 ≤ y ∨ y + 8 ≤ x

namespace Apart

theorem head {x : ℕ} {l : List ℕ} (h : Apart (x :: l)) :
    ∀ y ∈ l, x + 8 ≤ y ∨ y + 8 ≤ x :=
  (List.pairwise_cons.mp h).1

theorem tail {x : ℕ} {l : List ℕ} (h : Apart (x :: l)) : Apart l :=
  (List.pairwise_cons.mp h).2

theorem sublist {l l' : List ℕ} (h : Apart l) (hs : l'.Sublist l) : Apart l' :=
  List.Pairwise.sublist hs h

theorem swap {x y : ℕ} {l : List ℕ} (h : Apart (x :: y :: l)) : Apart (y :: x :: l) :=
  List.Pairwise.perm h (List.Perm.swap y x l) Or.symm

/-- The first node is the only one its footprint meets. -/
theorem eq_or_disjoint {x y : ℕ} {l : List ℕ} (h : Apart (x :: l)) (hy : y ∈ x :: l) :
    y = x ∨ (y + 8 ≤ x ∨ x + 8 ≤ y) := by
  rcases List.mem_cons.mp hy with rfl | hy
  · exact .inl rfl
  · exact .inr (h.head y hy).symm

end Apart

/-- The chain of `ps` hanging off the word at `prev`. -/
def Chain (m : Mem) : ℕ → List ℕ → Prop
  | prev, [] => m.get prev = 0
  | prev, p :: ps => m.get prev = p ∧ m.get (p + 4) = prev ∧ Chain m p ps

/-- Take `p` out of its chain: its two neighbours are made to point at each
other. -/
def unlink (m : Mem) (p : ℕ) : Mem :=
  let nx := m.get p
  let pv := m.get (p + 4)
  let m₁ := m.put pv nx
  if nx ≠ 0 then m₁.put (nx + 4) pv else m₁

/-- Put `p` between `pv` and `nx`, where `nx = 0` is the end of the chain. -/
def link (m : Mem) (p pv nx : ℕ) : Mem :=
  let m₁ := ((m.put pv p).put (p + 4) pv).put p nx
  if nx ≠ 0 then m₁.put (nx + 4) p else m₁

namespace Chain

variable {m m' : Mem}

/-- A chain reads the next word of every node but the root's other words, and
the back word of every node. -/
theorem congr : ∀ {prev : ℕ} {ps : List ℕ}, Chain m prev ps →
    (∀ x ∈ prev :: ps, m'.get x = m.get x) → (∀ x ∈ ps, m'.get (x + 4) = m.get (x + 4)) →
    Chain m' prev ps
  | prev, [], h, hn, _ => (hn prev (List.mem_cons_self ..)).trans h
  | prev, p :: _, ⟨h₁, h₂, h₃⟩, hn, hb =>
    ⟨(hn prev (List.mem_cons_self ..)).trans h₁, (hb p (List.mem_cons_self ..)).trans h₂,
      congr h₃ (fun x hx => hn x (List.mem_cons_of_mem _ hx))
        (fun x hx => hb x (List.mem_cons_of_mem _ hx))⟩

/-- The root word points at the first node. -/
theorem root_eq {prev : ℕ} {ps : List ℕ} (h : Chain m prev ps) : m.get prev = ps.headD 0 := by
  cases ps with
  | nil => exact h
  | cons p ps => exact h.1

/-- The next word of a node points at the rest of the chain. -/
theorem next_eq : ∀ {xs : List ℕ} {prev p : ℕ} {ys : List ℕ},
    Chain m prev (xs ++ p :: ys) → m.get p = ys.headD 0
  | [], _, _, _, ⟨_, _, h⟩ => h.root_eq
  | _ :: _, _, _, _, ⟨_, _, h⟩ => next_eq h

/-- The back word of a node points at its predecessor. -/
theorem back_eq : ∀ {xs : List ℕ} {prev p : ℕ} {ys : List ℕ},
    Chain m prev (xs ++ p :: ys) → m.get (p + 4) = xs.getLastD prev
  | [], _, _, _, ⟨_, h, _⟩ => h
  | x :: xs, _, _, _, ⟨_, _, h⟩ => by
    rw [List.getLastD_cons]
    exact back_eq h

end Chain

theorem getLastD_mem_cons : ∀ (xs : List ℕ) (d : ℕ), xs.getLastD d ∈ d :: xs
  | [], d => List.mem_cons_self ..
  | x :: xs, d => by
    rw [List.getLastD_cons]
    exact List.mem_cons_of_mem _ (getLastD_mem_cons xs x)

theorem headD_mem_of_ne_zero {ys : List ℕ} (h : ys.headD 0 ≠ 0) : ys.headD 0 ∈ ys := by
  cases ys with
  | nil => exact absurd rfl h
  | cons y ys => exact List.mem_cons_self ..

/-! ## Unlinking -/

/-- `unlink` stores into the next word of the predecessor and the back word of
the successor only. -/
theorem get_unlink {m : Mem} {p q : ℕ} (hpv : q + 4 ≤ m.get (p + 4) ∨ m.get (p + 4) + 4 ≤ q)
    (hnx : m.get p ≠ 0 → q + 4 ≤ m.get p + 4 ∨ m.get p + 8 ≤ q) :
    (unlink m p).get q = m.get q := by
  simp only [unlink]
  split
  · next h =>
    rw [Mem.get_put_disjoint _ (by have := hnx h; omega), Mem.get_put_disjoint _ (by omega)]
  · rw [Mem.get_put_disjoint _ (by omega)]

/-- **Unlinking a node** removes it from the list of nodes. -/
theorem Chain.unlink {m : Mem} {p : ℕ} {ys : List ℕ} (hne : ∀ y ∈ ys, y ≠ 0) :
    ∀ {xs : List ℕ} {prev : ℕ}, Chain m prev (xs ++ p :: ys) →
      Apart (prev :: (xs ++ p :: ys)) → (∀ x ∈ prev :: (xs ++ p :: ys), x < 2 ^ 32) →
      Chain (unlink m p) prev (xs ++ ys) := by
  intro xs
  induction xs with
  | nil =>
    intro prev h hap hlt
    obtain ⟨-, hb, h₃⟩ := h
    have hprev : prev < 2 ^ 32 := hlt prev (List.mem_cons_self ..)
    cases ys with
    | nil =>
      have hnx : m.get p = 0 := h₃
      simp only [SysProgLab.unlink, hnx, hb, ne_eq, not_true_eq_false, if_false]
      simp [Chain]
    | cons n ys =>
      obtain ⟨hn, -, h₄⟩ := h₃
      have hn0 : n ≠ 0 := hne n (List.mem_cons_self ..)
      have hnlt : n < 2 ^ 32 := hlt n (by simp)
      have hdp : prev + 8 ≤ n ∨ n + 8 ≤ prev := hap.head n (by simp)
      have hu : SysProgLab.unlink m p = (m.put prev n).put (n + 4) prev := by
        simp only [SysProgLab.unlink, hn, hb, ne_eq, hn0, not_false_eq_true, if_true]
      have hoff : ∀ q, (q + 4 ≤ prev ∨ prev + 4 ≤ q) → (q + 4 ≤ n + 4 ∨ n + 8 ≤ q) →
          (SysProgLab.unlink m p).get q = m.get q := by
        intro q h₁ h₂
        rw [hu, Mem.get_put_disjoint _ (by omega), Mem.get_put_disjoint _ (by omega)]
      have hdy : ∀ y ∈ ys, (prev + 8 ≤ y ∨ y + 8 ≤ prev) ∧ (n + 8 ≤ y ∨ y + 8 ≤ n) :=
        fun y hy => ⟨hap.head y (by simp [hy]), hap.tail.tail.head y hy⟩
      refine ⟨?_, ?_, h₄.congr ?_ ?_⟩
      · rw [hu, Mem.get_put_disjoint _ (by omega), Mem.get_put_self, Nat.mod_eq_of_lt hnlt]
      · rw [hu, Mem.get_put_self, Nat.mod_eq_of_lt hprev]
      · intro x hx
        rcases List.mem_cons.mp hx with rfl | hx
        · exact hoff _ (by omega) (by omega)
        · have := hdy x hx
          exact hoff _ (by omega) (by omega)
      · intro x hx
        have := hdy x hx
        exact hoff _ (by omega) (by omega)
  | cons x xs ih =>
    intro prev h hap hlt
    obtain ⟨h₁, h₂, h₃⟩ := h
    -- the two stores hit `pv ∈ x :: xs` and `nx ∈ ys`, never the link from `prev` to `x`
    have hpv : m.get (p + 4) ∈ x :: (xs ++ p :: ys) := by
      rw [back_eq h₃]
      exact List.mem_append_left _ (getLastD_mem_cons xs x)
    have hdprev : prev + 8 ≤ m.get (p + 4) ∨ m.get (p + 4) + 8 ≤ prev := hap.head _ hpv
    have hdx := hap.tail.eq_or_disjoint hpv
    have hnx : m.get p ≠ 0 →
        (prev + 8 ≤ m.get p ∨ m.get p + 8 ≤ prev) ∧ (x + 8 ≤ m.get p ∨ m.get p + 8 ≤ x) := by
      intro h0
      rw [next_eq h₃] at h0 ⊢
      have hm : ys.headD 0 ∈ xs ++ p :: ys :=
        List.mem_append_right _ (List.mem_cons_of_mem _ (headD_mem_of_ne_zero h0))
      exact ⟨hap.head _ (List.mem_cons_of_mem _ hm), hap.tail.head _ hm⟩
    have e₁ : (SysProgLab.unlink m p).get prev = m.get prev :=
      get_unlink (by omega) (fun h0 => by have := hnx h0; omega)
    have e₂ : (SysProgLab.unlink m p).get (x + 4) = m.get (x + 4) :=
      get_unlink (by omega) (fun h0 => by have := hnx h0; omega)
    exact ⟨e₁.trans h₁, e₂.trans h₂,
      ih h₃ hap.tail fun y hy => hlt y (List.mem_cons_of_mem _ hy)⟩

/-- `unlink` touches the footprints of the other nodes and the root only. -/
theorem Chain.unlink_off {m : Mem} {p prev : ℕ} {xs ys : List ℕ}
    (h : Chain m prev (xs ++ p :: ys)) {a : ℕ}
    (ha : ∀ x ∈ prev :: (xs ++ ys), a < x ∨ x + 8 ≤ a) : SysProgLab.unlink m p a = m a := by
  have hmem : xs.getLastD prev ∈ prev :: (xs ++ ys) :=
    List.mem_append_left ys (getLastD_mem_cons xs prev)
  have hpv := ha _ hmem
  simp only [SysProgLab.unlink, back_eq h, next_eq h]
  split
  · next h0 =>
    have hnx := ha _ (List.mem_append_right (prev :: xs) (headD_mem_of_ne_zero h0))
    rw [Mem.put_apply_off _ (by omega), Mem.put_apply_off _ (by omega)]
  · exact Mem.put_apply_off _ (by omega)

/-! ## Linking in -/

/-- `link` stores into the new node, the next word of the predecessor and the
back word of the successor only. -/
theorem get_link {m : Mem} {p pv nx q : ℕ} (hpv : q + 4 ≤ pv ∨ pv + 4 ≤ q)
    (hp : q + 4 ≤ p ∨ p + 8 ≤ q) (hnx : nx ≠ 0 → q + 4 ≤ nx + 4 ∨ nx + 8 ≤ q) :
    (link m p pv nx).get q = m.get q := by
  have h₁ : (((m.put pv p).put (p + 4) pv).put p nx).get q = m.get q := by
    rw [Mem.get_put_disjoint _ (by omega), Mem.get_put_disjoint _ (by omega),
      Mem.get_put_disjoint _ (by omega)]
  simp only [link]
  split
  · next h => rw [Mem.get_put_disjoint _ (by have := hnx h; omega), h₁]
  · exact h₁

/-- **Linking a node in** inserts it at its place in the list of nodes. -/
theorem Chain.link {m : Mem} {p : ℕ} {ys : List ℕ} (hne : ∀ y ∈ ys, y ≠ 0) :
    ∀ {xs : List ℕ} {prev : ℕ}, Chain m prev (xs ++ ys) →
      Apart (p :: prev :: (xs ++ ys)) → (∀ x ∈ p :: prev :: (xs ++ ys), x < 2 ^ 32) →
      Chain (link m p (xs.getLastD prev) (ys.headD 0)) prev (xs ++ p :: ys) := by
  intro xs
  induction xs with
  | nil =>
    intro prev h hap hlt
    have hplt : p < 2 ^ 32 := hlt p (by simp)
    have hprev : prev < 2 ^ 32 := hlt prev (by simp)
    have hdp : p + 8 ≤ prev ∨ prev + 8 ≤ p := hap.head prev (by simp)
    cases ys with
    | nil =>
      simp only [SysProgLab.link, List.getLastD_nil, List.headD_nil, ne_eq, not_true_eq_false,
        if_false, List.nil_append, Chain]
      refine ⟨?_, ?_, ?_⟩
      · rw [Mem.get_put_disjoint _ (by omega), Mem.get_put_disjoint _ (by omega),
          Mem.get_put_self, Nat.mod_eq_of_lt hplt]
      · rw [Mem.get_put_disjoint _ (by omega), Mem.get_put_self, Nat.mod_eq_of_lt hprev]
      · simp
    | cons n ys =>
      obtain ⟨hn, hb, h₄⟩ := h
      have hn0 : n ≠ 0 := hne n (by simp)
      have hnlt : n < 2 ^ 32 := hlt n (by simp)
      have hdn : (p + 8 ≤ n ∨ n + 8 ≤ p) ∧ (prev + 8 ≤ n ∨ n + 8 ≤ prev) :=
        ⟨hap.head n (by simp), hap.tail.head n (by simp)⟩
      have hdy : ∀ y ∈ ys, (p + 8 ≤ y ∨ y + 8 ≤ p) ∧ (prev + 8 ≤ y ∨ y + 8 ≤ prev) ∧
          (n + 8 ≤ y ∨ y + 8 ≤ n) :=
        fun y hy => ⟨hap.head y (by simp [hy]), hap.tail.head y (by simp [hy]),
          hap.tail.tail.head y hy⟩
      have hl : SysProgLab.link m p prev n =
          (((m.put prev p).put (p + 4) prev).put p n).put (n + 4) p := by
        simp only [SysProgLab.link, ne_eq, hn0, not_false_eq_true, if_true]
      simp only [List.getLastD_nil, List.headD_cons, List.nil_append]
      refine ⟨?_, ?_, ?_, ?_, h₄.congr ?_ ?_⟩
      · rw [hl, Mem.get_put_disjoint _ (by omega), Mem.get_put_disjoint _ (by omega),
          Mem.get_put_disjoint _ (by omega), Mem.get_put_self, Nat.mod_eq_of_lt hplt]
      · rw [hl, Mem.get_put_disjoint _ (by omega), Mem.get_put_disjoint _ (by omega),
          Mem.get_put_self, Nat.mod_eq_of_lt hprev]
      · rw [hl, Mem.get_put_disjoint _ (by omega), Mem.get_put_self, Nat.mod_eq_of_lt hnlt]
      · rw [hl, Mem.get_put_self, Nat.mod_eq_of_lt hplt]
      · intro x hx
        rcases List.mem_cons.mp hx with rfl | hx
        · exact get_link (by omega) (by omega) (fun _ => by omega)
        · have := hdy x hx
          exact get_link (by omega) (by omega) (fun _ => by omega)
      · intro x hx
        have := hdy x hx
        exact get_link (by omega) (by omega) (fun _ => by omega)
  | cons x xs ih =>
    intro prev h hap hlt
    obtain ⟨h₁, h₂, h₃⟩ := h
    have hpx : p + 8 ≤ x ∨ x + 8 ≤ p := hap.head x (by simp)
    have hpp : p + 8 ≤ prev ∨ prev + 8 ≤ p := hap.head prev (by simp)
    have hpv : xs.getLastD x ∈ x :: (xs ++ ys) :=
      List.mem_append_left _ (getLastD_mem_cons xs x)
    have hdprev : prev + 8 ≤ xs.getLastD x ∨ xs.getLastD x + 8 ≤ prev := hap.tail.head _ hpv
    have hdx := hap.tail.tail.eq_or_disjoint hpv
    have hnx : ys.headD 0 ≠ 0 → (prev + 8 ≤ ys.headD 0 ∨ ys.headD 0 + 8 ≤ prev) ∧
        (x + 8 ≤ ys.headD 0 ∨ ys.headD 0 + 8 ≤ x) := by
      intro h0
      have hm : ys.headD 0 ∈ xs ++ ys := List.mem_append_right _ (headD_mem_of_ne_zero h0)
      exact ⟨hap.tail.head _ (List.mem_cons_of_mem _ hm), hap.tail.tail.head _ hm⟩
    rw [List.getLastD_cons]
    have e₁ : (SysProgLab.link m p (xs.getLastD x) (ys.headD 0)).get prev = m.get prev :=
      get_link (by omega) (by omega) (fun h0 => by have := hnx h0; omega)
    have e₂ : (SysProgLab.link m p (xs.getLastD x) (ys.headD 0)).get (x + 4) = m.get (x + 4) :=
      get_link (by omega) (by omega) (fun h0 => by have := hnx h0; omega)
    have hap' : Apart (p :: x :: (xs ++ ys)) :=
      hap.sublist ((List.sublist_cons_self prev _).cons_cons p)
    refine ⟨e₁.trans h₁, e₂.trans h₂, ih h₃ hap' fun y hy => hlt y ?_⟩
    rcases List.mem_cons.mp hy with rfl | hy
    · exact List.mem_cons_self ..
    · exact List.mem_cons_of_mem _ (List.mem_cons_of_mem _ hy)

/-- `link` touches the footprints of the new node, the other nodes and the root
only. -/
theorem link_off {m : Mem} {p prev : ℕ} {xs ys : List ℕ} {a : ℕ}
    (ha : ∀ x ∈ p :: prev :: (xs ++ ys), a < x ∨ x + 8 ≤ a) :
    link m p (xs.getLastD prev) (ys.headD 0) a = m a := by
  have hp := ha p (List.mem_cons_self ..)
  have hmem : xs.getLastD prev ∈ prev :: (xs ++ ys) :=
    List.mem_append_left ys (getLastD_mem_cons xs prev)
  have hpv := ha _ (List.mem_cons_of_mem p hmem)
  have h₁ : ((m.put (xs.getLastD prev) p).put (p + 4) (xs.getLastD prev)).put p (ys.headD 0) a =
      m a := by
    rw [Mem.put_apply_off _ (by omega), Mem.put_apply_off _ (by omega),
      Mem.put_apply_off _ (by omega)]
  simp only [link]
  split
  · next h0 =>
    have hnx := ha _ (List.mem_cons_of_mem p
      (List.mem_append_right (prev :: xs) (headD_mem_of_ne_zero h0)))
    rw [Mem.put_apply_off _ (by omega), h₁]
  · exact h₁

end SysProgLab
