import Mathlib.Data.Nat.Digits.Lemmas
import Mathlib.Tactic.IntervalCases

/-!
# Numbers in text

What `sprintf` writes for `%d`, and what `atoi` reads. C strings are lists of bytes
without the terminating NUL.
-/

namespace SysProgLab

/-- A C string. -/
abbrev CStr := List UInt8

/-- The bytes of an ASCII text. -/
def ascii (s : String) : List UInt8 := s.toList.map fun c => UInt8.ofNat c.toNat

/-- `%d` for a number that is not negative -/
def decimal (n : ℕ) : List UInt8 :=
  if n = 0 then [48] else (Nat.digits 10 n).reverse.map fun d => UInt8.ofNat (48 + d)

/-- `%d` -/
def decimalInt (n : ℤ) : List UInt8 := if n < 0 then 45 :: decimal n.natAbs else decimal n.natAbs

/-- `isspace` in the C locale. -/
def isSpace (b : UInt8) : Bool := b = 32 || (9 ≤ b && b ≤ 13)

/-- The value of the leading decimal digits, after those worth `acc`. -/
def atoiDigits (acc : ℤ) : CStr → ℤ
  | [] => acc
  | b :: s => if 48 ≤ b ∧ b ≤ 57 then atoiDigits (acc * 10 + (b.toNat - 48)) s else acc

/-- The number that a text begins with, behind blanks and a sign. -/
def leadingInt (s : CStr) : ℤ :=
  match s.dropWhile isSpace with
  | 45 :: s => -atoiDigits 0 s
  | 43 :: s => atoiDigits 0 s
  | s => atoiDigits 0 s

/-- `atoi`, an `int`: `strtol` keeps the number within a `long` of 64 bits, and the cast
takes its low 32 bits. -/
def atoi (s : CStr) : ℤ := (max (-2 ^ 63) (min (leadingInt s) (2 ^ 63 - 1))).bmod (2 ^ 32)

/-- A number is written without NULs. -/
theorem decimal_nul (n : ℕ) : (0 : UInt8) ∉ decimal n := by
  rw [decimal]
  split
  · decide
  · intro hmem
    obtain ⟨d, hd, hd0⟩ := List.mem_map.mp hmem
    have hlt : d < 10 := Nat.digits_lt_base (by decide) (List.mem_reverse.mp hd)
    interval_cases d <;> cases hd0

theorem length_decimal_le {n k : ℕ} (h : n < 10 ^ k) (hk : 0 < k) : (decimal n).length ≤ k := by
  rw [decimal]
  split
  · exact hk
  · rw [List.length_map, List.length_reverse, Nat.digits_length_le_iff (by decide)]
    exact h

/-! ## Reading back -/

theorem atoiDigits_map {ds : List ℕ} (hds : ∀ d ∈ ds, d < 10) (acc : ℤ) :
    atoiDigits acc (ds.map fun d => UInt8.ofNat (48 + d)) =
      ds.foldl (fun (a : ℤ) (d : ℕ) => a * 10 + d) acc := by
  induction ds generalizing acc with
  | nil => rfl
  | cons d ds ih =>
    obtain ⟨hd, hds⟩ := List.forall_mem_cons.mp hds
    have hbyte : (48 ≤ UInt8.ofNat (48 + d) ∧ UInt8.ofNat (48 + d) ≤ 57) ∧
        (UInt8.ofNat (48 + d)).toNat = 48 + d := by
      clear ih
      interval_cases d <;> decide
    rw [List.map_cons, atoiDigits, if_pos hbyte.1, ih hds, List.foldl_cons, hbyte.2,
      Nat.cast_add, Nat.cast_ofNat, add_sub_cancel_left]

theorem foldr_digits (ds : List ℕ) :
    ds.foldr (fun (d : ℕ) (a : ℤ) => a * 10 + d) 0 = (Nat.ofDigits 10 ds : ℕ) := by
  induction ds with
  | nil => rfl
  | cons d ds ih =>
    rw [List.foldr_cons, ih, Nat.ofDigits_cons]
    omega

theorem atoiDigits_decimal (n : ℕ) : atoiDigits 0 (decimal n) = n := by
  rw [decimal]
  split
  · next hn =>
    subst hn
    decide
  · rw [atoiDigits_map fun d hd => Nat.digits_lt_base (by decide) (List.mem_reverse.mp hd),
      List.foldl_reverse, foldr_digits, Nat.ofDigits_digits]

/-- `isdigit` -/
def isDigit (b : UInt8) : Bool := 48 ≤ b && b ≤ 57

theorem isSpace_of_isDigit {b : UInt8} (hb : isDigit b = true) : isSpace b = false := by
  simp only [isDigit, isSpace, Bool.and_eq_true, decide_eq_true_eq] at hb ⊢
  grind

/-- A text that begins with a digit is read from there. -/
theorem leadingInt_of_isDigit {b : UInt8} (hb : isDigit b = true) (s : CStr) :
    leadingInt (b :: s) = atoiDigits 0 (b :: s) := by
  have h45 : b ≠ 45 := by rintro rfl; cases hb
  have h43 : b ≠ 43 := by rintro rfl; cases hb
  rw [leadingInt, List.dropWhile_cons_of_neg (by simp [isSpace_of_isDigit hb])]
  split <;> simp_all

/-- A number is written with a digit first. -/
theorem decimal_eq_cons (n : ℕ) : ∃ b s, decimal n = b :: s ∧ isDigit b = true := by
  rw [decimal]
  split
  · exact ⟨48, [], rfl, rfl⟩
  · next hn =>
    have hne : (Nat.digits 10 n).reverse ≠ [] :=
      List.reverse_ne_nil_iff.mpr (Nat.digits_ne_nil_iff_ne_zero.mpr hn)
    obtain ⟨d, ds, hds⟩ := List.exists_cons_of_ne_nil hne
    have hd : d < 10 := by
      refine Nat.digits_lt_base (b := 10) (m := n) (by decide) (List.mem_reverse.mp ?_)
      rw [hds]
      exact List.mem_cons_self
    refine ⟨_, _, by rw [hds, List.map_cons], ?_⟩
    clear hds
    interval_cases d <;> decide

/-- What `sprintf` writes is read back. -/
theorem leadingInt_decimalInt {n : ℤ} (hn : 0 ≤ n) : leadingInt (decimalInt n) = n := by
  obtain ⟨b, s, hcons, hb⟩ := decimal_eq_cons n.natAbs
  rw [decimalInt, if_neg (Int.not_lt.mpr hn), hcons, leadingInt_of_isDigit hb, ← hcons,
    atoiDigits_decimal, Int.natAbs_of_nonneg hn]

/-- **`atoi` reads back what `sprintf` writes**, for the numbers that an `int` holds. -/
theorem atoi_decimalInt {n : ℤ} (hn : 0 ≤ n) (hlt : n < 2 ^ 31) : atoi (decimalInt n) = n := by
  have hclip : max (-2 ^ 63) (min n (2 ^ 63 - 1)) = n := by omega
  rw [atoi, leadingInt_decimalInt hn, hclip]
  exact Int.bmod_eq_of_le (by omega) (by omega)

/-! ## Numbers at the start of a text -/

theorem decimalInt_natCast (n : ℕ) : decimalInt n = decimal n := by
  rw [decimalInt, if_neg (Int.not_lt.mpr (Int.natCast_nonneg n)), Int.natAbs_natCast]

/-- A number reaches to the next byte that is not a digit. -/
theorem atoiDigits_append {b : UInt8} (hb : isDigit b = false) (s rest : CStr) (acc : ℤ) :
    atoiDigits acc (s ++ b :: rest) = atoiDigits acc s := by
  have hnot : ¬(48 ≤ b ∧ b ≤ 57) := by
    intro h
    simp [isDigit, h] at hb
  induction s generalizing acc with
  | nil => exact if_neg hnot
  | cons c s ih =>
    rw [List.cons_append, atoiDigits, atoiDigits]
    split
    · exact ih _
    · rfl

theorem leadingInt_decimal_append {b : UInt8} (hb : isDigit b = false) (n : ℕ) (rest : CStr) :
    leadingInt (decimal n ++ b :: rest) = n := by
  obtain ⟨d, s, hcons, hd⟩ := decimal_eq_cons n
  rw [hcons, List.cons_append, leadingInt_of_isDigit hd, ← List.cons_append, atoiDigits_append hb,
    ← hcons, atoiDigits_decimal]

theorem isDigit_of_mem_decimal {b : UInt8} {n : ℕ} (hb : b ∈ decimal n) : isDigit b = true := by
  rw [decimal] at hb
  split at hb
  · obtain rfl := List.mem_singleton.mp hb
    rfl
  · obtain ⟨d, hd, rfl⟩ := List.mem_map.mp hb
    have hlt : d < 10 := Nat.digits_lt_base (by decide) (List.mem_reverse.mp hd)
    interval_cases d <;> rfl

end SysProgLab
