import LynneSocial.Common.Std
import LynneSocial.Lib.Decimal
import Mathlib.Data.Int.Basic

/-!
# std::stoi

`std::stoi` reads an optional sign and the decimal digits behind leading white
space and ignores what follows them. Without a digit, or outside the range of a
32-bit `int`, it throws.
-/
namespace LynneSocial

inductive StoiError where
  | invalidArgument
  | outOfRange
deriving Repr, DecidableEq

/-- `isspace` in the C locale. -/
def isSpace (b : UInt8) : Bool := b == 32 || (9 ≤ b && b ≤ 13)

def isDigit (b : UInt8) : Bool := 48 ≤ b && b ≤ 57

/-- The number that a list of decimal digits writes. -/
def decimalValue (digits : Str) : ℕ := digits.foldl (fun n d => 10 * n + (d.toNat - 48)) 0

/-- The sign and the digits that `strtol` finds. -/
def signedDigits (text : Str) : Bool × Str :=
  match text.dropWhile isSpace with
  | 45 :: rest => (true, rest.takeWhile isDigit)
  | 43 :: rest => (false, rest.takeWhile isDigit)
  | rest => (false, rest.takeWhile isDigit)

def stoi (text : Str) : Except StoiError ℤ :=
  let (negative, digits) := signedDigits text
  if digits = [] then .error .invalidArgument
  else
    let n : ℤ := if negative then -decimalValue digits else decimalValue digits
    if -2 ^ 31 ≤ n ∧ n < 2 ^ 31 then .ok n else .error .outOfRange

theorem isDigit_iff {b : UInt8} : isDigit b = true ↔ 48 ≤ b.toNat ∧ b.toNat ≤ 57 := by
  simp [isDigit, UInt8.le_iff_toNat_le]

theorem isDigit_text {n : ℕ} {b : UInt8} (h : b ∈ Decimal.text n) : isDigit b = true :=
  isDigit_iff.mpr (Decimal.toNat_of_mem_text h)

/-- Digits up to a character that is none. -/
theorem signedDigits_digits {ds : Str} (rest : Str) (hne : ds ≠ []) (hds : ∀ b ∈ ds, isDigit b = true)
    (hrest : ∀ b ∈ rest.head?, isDigit b = false) : signedDigits (ds ++ rest) = (false, ds) := by
  have htake : (ds ++ rest).takeWhile isDigit = ds := by
    rw [List.takeWhile_append_of_pos hds]
    cases rest with
    | nil => simp
    | cons b rest => rw [List.takeWhile_cons_of_neg (by simp [hrest b rfl]), List.append_nil]
  cases ds with
  | nil => exact absurd rfl hne
  | cons b ds =>
      have hb := isDigit_iff.mp (hds b List.mem_cons_self)
      have hspace : isSpace b = false := by
        simp only [isSpace, Bool.or_eq_false_iff, beq_eq_false_iff_ne, ne_eq, Bool.and_eq_false_iff,
          decide_eq_false_iff_not, UInt8.le_iff_toNat_le, ← UInt8.toNat_inj]
        exact ⟨by simp; omega, .inr (by simp; omega)⟩
      unfold signedDigits
      rw [List.cons_append, List.dropWhile_cons_of_neg (by simp [hspace])]
      split
      · rename_i heq
        cases heq
        simp at hb
      · rename_i heq
        cases heq
        simp at hb
      · rw [← List.cons_append, htake]

/-- Reading back what `std::to_string` writes. -/
theorem stoi_text {n : ℕ} (hn : n < 2 ^ 31) : stoi (Decimal.text n) = .ok n := by
  have hdigits : signedDigits (Decimal.text n) = (false, Decimal.text n) := by
    simpa using signedDigits_digits [] (Decimal.text_ne_nil n) (fun _ => isDigit_text) (by simp)
  have hvalue : decimalValue (Decimal.text n) = n := Decimal.value_text n
  simp only [stoi, hdigits, if_neg (Decimal.text_ne_nil n), hvalue, Bool.false_eq_true, if_false]
  rw [if_pos ⟨by omega, by omega⟩]

example : stoi (str " 8443/v1") = .ok 8443 := by decide
example : stoi (str "port") = .error .invalidArgument := by decide

end LynneSocial
