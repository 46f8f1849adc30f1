import Mathlib.Algebra.Order.Ring.Int
import Mathlib.Data.List.Basic
import Mathlib.Tactic.SplitIfs

/-!
# Byte memories with 32-bit words

A flat memory is a function from addresses to bytes. A little-endian 32-bit
word is stored in four consecutive bytes, so a word store is visible to any
load that overlaps it, and a byte store is visible to word loads. Everything
here is about loads after stores:

* `get_put_self` — a load sees the last store, truncated to 32 bits;
* `get_put_disjoint` — and is not affected by a store elsewhere;
* `AgreeOff` — two memories that agree off an interval, the frame relation
  that a run of stores into one region composes to.
-/

namespace SysProgLab

/-- A byte-addressed memory. -/
abbrev Mem : Type := ℕ → UInt8

namespace Mem

/-- Load the little-endian 32-bit word at `p`. -/
def get (m : Mem) (p : ℕ) : ℕ :=
  (m p).toNat + 2 ^ 8 * (m (p + 1)).toNat + 2 ^ 16 * (m (p + 2)).toNat +
    2 ^ 24 * (m (p + 3)).toNat

/-- Store the low 32 bits of `v` as the little-endian word at `p`. -/
def put (m : Mem) (p v : ℕ) : Mem := fun a =>
  if a = p then UInt8.ofNat v
  else if a = p + 1 then UInt8.ofNat (v / 2 ^ 8)
  else if a = p + 2 then UInt8.ofNat (v / 2 ^ 16)
  else if a = p + 3 then UInt8.ofNat (v / 2 ^ 24)
  else m a

/-- Move `n` bytes from `src` to `dst`; every byte is read before any is
written, so the two ranges may overlap. -/
def memmove (m : Mem) (dst src n : ℕ) : Mem := fun a =>
  if dst ≤ a ∧ a < dst + n then m (src + (a - dst)) else m a

variable {m m' m'' : Mem}

/-- A word depends on its four bytes only. -/
theorem get_congr {p : ℕ} (h : ∀ a, p ≤ a → a < p + 4 → m' a = m a) :
    m'.get p = m.get p := by
  simp only [get]
  rw [h p (by omega) (by omega), h (p + 1) (by omega) (by omega),
    h (p + 2) (by omega) (by omega), h (p + 3) (by omega) (by omega)]

/-- A word has 32 bits. -/
theorem get_lt (m : Mem) (p : ℕ) : m.get p < 2 ^ 32 := by
  have h₀ := (m p).toNat_lt
  have h₁ := (m (p + 1)).toNat_lt
  have h₂ := (m (p + 2)).toNat_lt
  have h₃ := (m (p + 3)).toNat_lt
  rw [get]
  omega

theorem put_apply_off (m : Mem) {p v a : ℕ} (h : a < p ∨ p + 4 ≤ a) : m.put p v a = m a := by
  simp only [put]
  rw [if_neg (by omega), if_neg (by omega), if_neg (by omega), if_neg (by omega)]

/-- A load sees the last store at its address. -/
@[simp] theorem get_put_self (m : Mem) (p v : ℕ) : (m.put p v).get p = v % 2 ^ 32 := by
  simp [get, put]
  omega

/-- A load is not affected by a store to another word. -/
theorem get_put_disjoint (m : Mem) {p q v : ℕ} (h : q + 4 ≤ p ∨ p + 4 ≤ q) :
    (m.put p v).get q = m.get q :=
  get_congr fun _ _ _ => put_apply_off m (by omega)

/-- In its word, a store does not depend on what was there. -/
theorem put_apply_on (m m' : Mem) {p v a : ℕ} (h : p ≤ a) (h' : a < p + 4) :
    m.put p v a = m'.put p v a := by
  simp only [put]
  split_ifs <;> first | rfl | omega

/-- Stores to distinct words commute. -/
theorem put_comm (m : Mem) {p q v w : ℕ} (h : q + 4 ≤ p ∨ p + 4 ≤ q) :
    (m.put p v).put q w = (m.put q w).put p v := by
  funext a
  by_cases hp : a < p ∨ p + 4 ≤ a
  · rw [put_apply_off _ hp]
    by_cases hq : a < q ∨ q + 4 ≤ a
    · rw [put_apply_off _ hq, put_apply_off _ hp, put_apply_off _ hq]
    · exact put_apply_on _ _ (by omega) (by omega)
  · rw [put_apply_off (m.put p v) (by omega)]
    exact put_apply_on _ _ (by omega) (by omega)

theorem memmove_apply_off (m : Mem) {dst src n a : ℕ} (h : a < dst ∨ dst + n ≤ a) :
    m.memmove dst src n a = m a := by
  rw [memmove, if_neg (by omega)]

theorem memmove_apply (m : Mem) {dst src n i : ℕ} (h : i < n) :
    m.memmove dst src n (dst + i) = m (src + i) := by
  rw [memmove, if_pos (by omega), Nat.add_sub_cancel_left]

/-! ## Agreement off an interval -/

/-- `m'` agrees with `m` outside `[lo, hi)`. -/
def AgreeOff (lo hi : ℕ) (m m' : Mem) : Prop :=
  ∀ a, a < lo ∨ hi ≤ a → m' a = m a

namespace AgreeOff

variable {lo hi lo' hi' : ℕ}

theorem refl (lo hi : ℕ) (m : Mem) : AgreeOff lo hi m m := fun _ _ => rfl

theorem trans (h : AgreeOff lo hi m m') (h' : AgreeOff lo hi m' m'') :
    AgreeOff lo hi m m'' :=
  fun a ha => (h' a ha).trans (h a ha)

theorem mono (h : AgreeOff lo hi m m') (hlo : lo' ≤ lo) (hhi : hi ≤ hi') :
    AgreeOff lo' hi' m m' :=
  fun a ha => h a (by omega)

theorem put (m : Mem) {p : ℕ} (v : ℕ) (hlo : lo ≤ p) (hhi : p + 4 ≤ hi) :
    AgreeOff lo hi m (m.put p v) :=
  fun _ _ => put_apply_off m (by omega)

theorem memmove (m : Mem) {dst n : ℕ} (src : ℕ) (hlo : lo ≤ dst) (hhi : dst + n ≤ hi) :
    AgreeOff lo hi m (m.memmove dst src n) :=
  fun _ _ => memmove_apply_off m (by omega)

theorem get_eq (h : AgreeOff lo hi m m') {p : ℕ} (hp : p + 4 ≤ lo ∨ hi ≤ p) :
    m'.get p = m.get p :=
  get_congr fun a _ _ => h a (by omega)

end AgreeOff

end Mem

end SysProgLab
