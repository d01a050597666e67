import Mathlib.Data.List.Basic
import Mathlib.Data.UInt
import Mathlib.Tactic.Common

/-!
# UTF-8

The well-formed byte sequences of the Unicode standard, read one byte after the
other: the first byte of a character says in which ranges the bytes behind it
must lie. A reader stands between two characters or still owes some ranges.
-/
namespace Utf8

/-- The bounds of a byte, both inclusive. -/
abbrev Range := UInt8 × UInt8

def tail : Range := (0x80, 0xBF)

/-- The ranges of the bytes behind the first byte of a character. -/
def owed (b : UInt8) : Option (List Range) :=
  if b < 0x80 then some []
  else if b < 0xC2 then none
  else if b < 0xE0 then some [tail]
  else if b = 0xE0 then some [(0xA0, 0xBF), tail]
  else if b = 0xED then some [(0x80, 0x9F), tail]
  else if b < 0xF0 then some [tail, tail]
  else if b = 0xF0 then some [(0x90, 0xBF), tail, tail]
  else if b < 0xF4 then some [tail, tail, tail]
  else if b = 0xF4 then some [(0x80, 0x8F), tail, tail]
  else none

/-- One byte for a reader that owes the ranges `rs`. -/
def step : List Range → UInt8 → Option (List Range)
  | [], b => owed b
  | r :: rs, b => if r.1 ≤ b ∧ b ≤ r.2 then some rs else none

/-- The ranges that are owed behind a text, if it can be the beginning of UTF-8. -/
def run : List Range → List UInt8 → Option (List Range)
  | rs, [] => some rs
  | rs, b :: s => (step rs b).bind fun rs' => run rs' s

def Valid (s : List UInt8) : Prop := run [] s = some []

instance (s : List UInt8) : Decidable (Valid s) := inferInstanceAs (Decidable (run [] s = some []))

/-- The UTF-8 form of a code point. -/
def encode (code : ℕ) : List UInt8 :=
  if code < 0x80 then [.ofNat code]
  else if code < 0x800 then [.ofNat (0xC0 + code / 64), .ofNat (0x80 + code % 64)]
  else if code < 0x10000 then
    [.ofNat (0xE0 + code / 4096), .ofNat (0x80 + code / 64 % 64), .ofNat (0x80 + code % 64)]
  else
    [.ofNat (0xF0 + code / 262144), .ofNat (0x80 + code / 4096 % 64), .ofNat (0x80 + code / 64 % 64),
      .ofNat (0x80 + code % 64)]

/-- A code point that is no surrogate. -/
def IsScalar (code : ℕ) : Prop := code < 0xD800 ∨ 0xE000 ≤ code ∧ code < 0x110000

/-- To check a property of bytes one after the other. -/
theorem exists_byte (b : UInt8) : ∃ n : Fin 256, b = .ofNat n :=
  ⟨⟨b.toNat, b.toNat_lt⟩, UInt8.ofNat_toNat.symm⟩

theorem owed_eq (b : UInt8) :
    owed b =
      if b.toNat < 0x80 then some []
      else if b.toNat < 0xC2 then none
      else if b.toNat < 0xE0 then some [tail]
      else if b.toNat = 0xE0 then some [(0xA0, 0xBF), tail]
      else if b.toNat = 0xED then some [(0x80, 0x9F), tail]
      else if b.toNat < 0xF0 then some [tail, tail]
      else if b.toNat = 0xF0 then some [(0x90, 0xBF), tail, tail]
      else if b.toNat < 0xF4 then some [tail, tail, tail]
      else if b.toNat = 0xF4 then some [(0x80, 0x8F), tail, tail]
      else none := by
  simp only [owed, UInt8.lt_iff_toNat_lt, ← UInt8.toNat_inj]
  rfl

theorem run_first (b : UInt8) (s : List UInt8) :
    run [] (b :: s) = (owed b).bind fun rs => run rs s := rfl

theorem run_range (r : Range) (rs : List Range) (b : UInt8) (s : List UInt8) :
    run (r :: rs) (b :: s) = some [] ↔ (r.1 ≤ b ∧ b ≤ r.2) ∧ run rs s = some [] := by
  simp only [run, step]
  by_cases h : r.1 ≤ b ∧ b ≤ r.2 <;> simp [h]

theorem run_short {rs : List Range} {s : List UInt8} (h : s.length < rs.length) :
    run rs s ≠ some [] := by
  induction s generalizing rs with
  | nil =>
      cases rs with
      | nil => simp at h
      | cons r rs => simp [run]
  | cons b s ih =>
      cases rs with
      | nil => simp at h
      | cons r rs =>
          rw [Ne, run_range]
          exact fun hrun => ih (by simpa using h) hrun.2

theorem run_append (rs : List Range) (s t : List UInt8) :
    run rs (s ++ t) = (run rs s).bind fun rs' => run rs' t := by
  induction s generalizing rs with
  | nil => rfl
  | cons b s ih => simp only [List.cons_append, run, ih, Option.bind_assoc]

@[simp] theorem run_singleton (rs : List Range) (b : UInt8) : run rs [b] = step rs b := by
  simp [run]

theorem Valid.append {s t : List UInt8} (hs : Valid s) (ht : Valid t) : Valid (s ++ t) := by
  rw [Valid, run_append, hs]
  exact ht

section
variable {code n : ℕ}

theorem toNat_ofNat (h : n < 256) : (UInt8.ofNat n).toNat = n := by
  rw [UInt8.toNat_ofNat']
  omega

theorem owed_ofNat (h : n < 256) :
    owed (.ofNat n) =
      if n < 0x80 then some []
      else if n < 0xC2 then none
      else if n < 0xE0 then some [tail]
      else if n = 0xE0 then some [(0xA0, 0xBF), tail]
      else if n = 0xED then some [(0x80, 0x9F), tail]
      else if n < 0xF0 then some [tail, tail]
      else if n = 0xF0 then some [(0x90, 0xBF), tail, tail]
      else if n < 0xF4 then some [tail, tail, tail]
      else if n = 0xF4 then some [(0x80, 0x8F), tail, tail]
      else none := by
  rw [owed_eq, toNat_ofNat h]

theorem step_within {r : Range} (rs : List Range) (h : n < 256) (hl : r.1.toNat ≤ n)
    (hu : n ≤ r.2.toNat) : step (r :: rs) (.ofNat n) = some rs := by
  refine if_pos ⟨?_, ?_⟩ <;> rwa [UInt8.le_iff_toNat_le, toNat_ofNat h]

theorem step_tail (rs : List Range) (n : ℕ) : step (tail :: rs) (.ofNat (0x80 + n % 64)) = some rs :=
  step_within rs (by omega) (Nat.le_add_right ..) (show 0x80 + n % 64 ≤ 0xBF by omega)

theorem run_two (h₁ : 0x80 ≤ code) (h₂ : code < 0x800) :
    run [] [.ofNat (0xC0 + code / 64), .ofNat (0x80 + code % 64)] = some [] := by
  have hlead : step [] (.ofNat (0xC0 + code / 64)) = some [tail] := by
    rw [step, owed_ofNat (by omega), if_neg (by omega), if_neg (by omega), if_pos (by omega)]
  simp only [run, hlead, step_tail, Option.bind_some]

/-- What the first byte of three allows behind it: no form of a smaller number, and no surrogate. -/
theorem run_three (h₁ : 0x800 ≤ code) (h₂ : code < 0x10000) (h : code < 0xD800 ∨ 0xE000 ≤ code) :
    run [] [.ofNat (0xE0 + code / 4096), .ofNat (0x80 + code / 64 % 64), .ofNat (0x80 + code % 64)] =
      some [] := by
  have hmid : 0x80 + code / 64 % 64 < 256 := by omega
  have hlead : step [] (.ofNat (0xE0 + code / 4096)) = owed (.ofNat (0xE0 + code / 4096)) := rfl
  rw [owed_ofNat (by omega), if_neg (by omega), if_neg (by omega), if_neg (by omega)] at hlead
  simp only [run, hlead]
  split_ifs with h₃ h₄ h₅
  · rw [Option.bind_some, step_within _ hmid (show 0xA0 ≤ _ by omega) (show _ ≤ 0xBF by omega)]
    simp only [step_tail, Option.bind_some]
  · rw [Option.bind_some, step_within _ hmid (show 0x80 ≤ _ by omega) (show _ ≤ 0x9F by omega)]
    simp only [step_tail, Option.bind_some]
  · simp only [step_tail, Option.bind_some]
  all_goals omega

theorem run_four (h₁ : 0x10000 ≤ code) (h₂ : code < 0x110000) :
    run [] [.ofNat (0xF0 + code / 262144), .ofNat (0x80 + code / 4096 % 64),
      .ofNat (0x80 + code / 64 % 64), .ofNat (0x80 + code % 64)] = some [] := by
  have hmid : 0x80 + code / 4096 % 64 < 256 := by omega
  have hlead : step [] (.ofNat (0xF0 + code / 262144)) = owed (.ofNat (0xF0 + code / 262144)) := rfl
  rw [owed_ofNat (by omega), if_neg (by omega), if_neg (by omega), if_neg (by omega), if_neg (by omega),
    if_neg (by omega), if_neg (by omega)] at hlead
  simp only [run, hlead]
  split_ifs with h₃ h₄ h₅
  · rw [Option.bind_some, step_within _ hmid (show 0x90 ≤ _ by omega) (show _ ≤ 0xBF by omega)]
    simp only [step_tail, Option.bind_some]
  · simp only [step_tail, Option.bind_some]
  · rw [Option.bind_some, step_within _ hmid (show 0x80 ≤ _ by omega) (show _ ≤ 0x8F by omega)]
    simp only [step_tail, Option.bind_some]
  · omega

theorem encode_valid (h : IsScalar code) : Valid (encode code) := by
  unfold encode Valid IsScalar at *
  split_ifs with h₁ h₂ h₃
  · rw [run_singleton, step, owed_ofNat (by omega), if_pos h₁]
  · exact run_two (by omega) h₂
  · exact run_three (by omega) h₃ (by omega)
  · exact run_four (by omega) (by omega)

end

end Utf8
