import Mathlib.Data.List.Basic
import Mathlib.Data.UInt
import Mathlib.Tactic.Common

/-!
# Base64

The standard encoding of bytes as characters: three bytes make four digits, and
a rest of one or two bytes makes two or three, which may be padded to four.
-/
namespace Base64

/-- The characters for the digits 0 to 63, in order. -/
def alphabet : List UInt8 :=
  "ABCDEFGHIJKLMNOPQRSTUVWXYZabcdefghijklmnopqrstuvwxyz0123456789+/".toUTF8.data.toList

/-- The padding character `=`. -/
def pad : UInt8 := 61

def digit (v : ℕ) : UInt8 := alphabet.getD v 0

/-- The digits of a byte sequence. -/
def sextets : List UInt8 → List ℕ
  | [] => []
  | [a] => [a.toNat / 4, a.toNat % 4 * 16]
  | [a, b] => [a.toNat / 4, a.toNat % 4 * 16 + b.toNat / 16, b.toNat % 16 * 4]
  | a :: b :: c :: rest =>
    [a.toNat / 4, a.toNat % 4 * 16 + b.toNat / 16, b.toNat % 16 * 4 + c.toNat / 64, c.toNat % 64] ++
      sextets rest

/-- The padding that brings the digits to a multiple of four. -/
def padding (n : ℕ) : List UInt8 := List.replicate ((3 - n % 3) % 3) pad

def encode (padded : Bool) (bytes : List UInt8) : List UInt8 :=
  (sextets bytes).map digit ++ if padded then padding bytes.length else []

theorem digit_ne_pad : ∀ v < 64, digit v ≠ pad := by decide +kernel

theorem sextets_lt (bytes : List UInt8) : ∀ v ∈ sextets bytes, v < 64 := by
  induction bytes using sextets.induct with
  | case1 => simp [sextets]
  | case2 a =>
      have := a.toNat_lt
      simp only [sextets, List.mem_cons, List.not_mem_nil, or_false, forall_eq_or_imp, forall_eq]
      omega
  | case3 a b =>
      have := a.toNat_lt
      have := b.toNat_lt
      simp only [sextets, List.mem_cons, List.not_mem_nil, or_false, forall_eq_or_imp, forall_eq]
      omega
  | case4 a b c rest ih =>
      have := a.toNat_lt
      have := b.toNat_lt
      have := c.toNat_lt
      simp only [sextets, List.cons_append, List.nil_append, List.forall_mem_cons]
      exact ⟨by omega, by omega, by omega, by omega, ih⟩

end Base64
