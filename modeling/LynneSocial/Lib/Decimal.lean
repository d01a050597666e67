import Mathlib.Data.List.Lex
import Mathlib.Data.Nat.Digits.Lemmas
import Mathlib.Order.Lattice
import Mathlib.Tactic.Common

/-!
# Decimal numbers

A number below `10 ^ w` as `w` ASCII digits, and any number as its shortest
decimal text. Texts of the same length compare by their first parts and, where
these agree, by the rest; so padded numbers compare as the numbers do.
-/
namespace Decimal

theorem append_lt_append_iff {xs ys us vs : List UInt8} (h : xs.length = ys.length) :
    xs ++ us < ys ++ vs ↔ xs < ys ∨ xs = ys ∧ us < vs := by
  induction xs generalizing ys with
  | nil =>
      obtain rfl := List.length_eq_zero_iff.mp h.symm
      simp
  | cons x xs ih =>
      cases ys with
      | nil => cases h
      | cons y ys =>
          simp only [List.length_cons, Nat.add_right_cancel_iff] at h
          simp only [List.cons_append, List.cons_lt_cons_iff, ih h, List.cons.injEq]
          grind

def digit (n : ℕ) : UInt8 := 48 + n.toUInt8

theorem digit_toNat {n : ℕ} (h : n < 10) : (digit n).toNat = 48 + n := by
  simp only [digit, UInt8.toNat_add, Nat.toUInt8, UInt8.toNat_ofNat']
  change (48 + n % 256) % 256 = _
  omega

theorem digit_lt_iff {m n : ℕ} (hm : m < 10) (hn : n < 10) : digit m < digit n ↔ m < n := by
  rw [UInt8.lt_iff_toNat_lt, digit_toNat hm, digit_toNat hn]
  omega

theorem digit_inj {m n : ℕ} (hm : m < 10) (hn : n < 10) : digit m = digit n ↔ m = n := by
  refine ⟨fun h => ?_, congrArg digit⟩
  have hnat := congrArg UInt8.toNat h
  rw [digit_toNat hm, digit_toNat hn] at hnat
  omega

/-- The `w` digits of a number below `10 ^ w`. -/
def padded : ℕ → ℕ → List UInt8
  | 0, _ => []
  | w + 1, n => digit (n / 10 ^ w) :: padded w (n % 10 ^ w)

variable {w m n : ℕ}

@[simp] theorem padded_length : (padded w n).length = w := by
  induction w generalizing n with
  | zero => rfl
  | succ w ih => simp [padded, ih]

theorem leading_lt (h : n < 10 ^ (w + 1)) : n / 10 ^ w < 10 := by
  rw [Nat.div_lt_iff_lt_mul (Nat.pow_pos (by omega))]
  rwa [Nat.pow_succ, Nat.mul_comm] at h

theorem toNat_of_mem_padded {a : UInt8} (hn : n < 10 ^ w) (ha : a ∈ padded w n) :
    48 ≤ a.toNat ∧ a.toNat ≤ 57 := by
  induction w generalizing n with
  | zero => cases ha
  | succ w ih =>
      rcases List.mem_cons.mp ha with rfl | ha
      · have hlead := leading_lt hn
        rw [digit_toNat hlead]
        exact ⟨Nat.le_add_right .., by omega⟩
      · exact ih (Nat.mod_lt _ (Nat.pow_pos (by omega))) ha

/-- A number is determined by its leading digit and the rest, and so is the order. -/
theorem lt_iff_div_mod (p : ℕ) :
    m < n ↔ m / p < n / p ∨ m / p = n / p ∧ m % p < n % p := by
  have hm := Nat.div_add_mod m p
  have hn := Nat.div_add_mod n p
  constructor
  · intro h
    rcases (Nat.div_le_div_right h.le : m / p ≤ n / p).lt_or_eq with hlt | heq
    · exact .inl hlt
    · rw [heq] at hm
      exact .inr ⟨heq, by omega⟩
  · rintro (hlt | ⟨heq, hlt⟩)
    · by_contra hge
      exact absurd (Nat.div_le_div_right (c := p) (Nat.le_of_not_lt hge)) (by omega)
    · rw [heq] at hm
      omega

theorem padded_lt_iff (hm : m < 10 ^ w) (hn : n < 10 ^ w) : padded w m < padded w n ↔ m < n := by
  induction w generalizing m n with
  | zero =>
      simp only [Nat.pow_zero, Nat.lt_one_iff] at hm hn
      simp [padded, hm, hn]
  | succ w ih =>
      have hpow : 0 < 10 ^ w := Nat.pow_pos (by omega)
      rw [padded, padded, List.cons_lt_cons_iff, digit_lt_iff (leading_lt hm) (leading_lt hn),
        digit_inj (leading_lt hm) (leading_lt hn), ih (Nat.mod_lt _ hpow) (Nat.mod_lt _ hpow),
        ← lt_iff_div_mod]

theorem padded_inj (hm : m < 10 ^ w) (hn : n < 10 ^ w) : padded w m = padded w n ↔ m = n := by
  refine ⟨fun h => ?_, congrArg (padded w)⟩
  have hmn := (padded_lt_iff hm hn).not.mp (h ▸ List.lt_irrefl _)
  have hnm := (padded_lt_iff hn hm).not.mp (h ▸ List.lt_irrefl _)
  omega

/-- The decimal text of a number without leading zeros. -/
def text (n : ℕ) : List UInt8 := if n = 0 then [digit 0] else ((Nat.digits 10 n).map digit).reverse

/-- The number that a list of digits writes. -/
def value (ds : List UInt8) : ℕ := ds.foldl (fun n d => 10 * n + (d.toNat - 48)) 0

theorem toNat_of_mem_text {a : UInt8} (ha : a ∈ text n) : 48 ≤ a.toNat ∧ a.toNat ≤ 57 := by
  have hdigit : ∀ d < 10, 48 ≤ (digit d).toNat ∧ (digit d).toNat ≤ 57 := fun d hd => by
    rw [digit_toNat hd]
    exact ⟨Nat.le_add_right .., by omega⟩
  unfold text at ha
  split at ha
  · obtain rfl := List.mem_singleton.mp ha
    exact hdigit 0 (by omega)
  · obtain ⟨d, hd, rfl⟩ := List.mem_map.mp (List.mem_reverse.mp ha)
    exact hdigit d (Nat.digits_lt_base (by omega) hd)

theorem text_ne_nil (n : ℕ) : text n ≠ [] := by
  unfold text
  split
  · nofun
  · simpa [Nat.digits_eq_nil_iff_eq_zero]

theorem value_reverse {ds : List ℕ} (h : ∀ d ∈ ds, d < 10) :
    value (ds.map digit).reverse = Nat.ofDigits 10 ds := by
  induction ds with
  | nil => rfl
  | cons d ds ih =>
      rw [List.forall_mem_cons] at h
      rw [List.map_cons, List.reverse_cons, value, List.foldl_append, ← value, ih h.2, Nat.ofDigits_cons]
      simp only [List.foldl_cons, List.foldl_nil, digit_toNat h.1]
      omega

@[simp] theorem value_text (n : ℕ) : value (text n) = n := by
  unfold text
  split
  · rename_i h
    rw [h]
    rfl
  · rw [value_reverse fun d hd => Nat.digits_lt_base (by omega) hd, Nat.ofDigits_digits]

end Decimal
