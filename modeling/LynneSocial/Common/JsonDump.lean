import LynneSocial.Common.Json
import LynneSocial.Lib.Binary64
import LynneSocial.Lib.Decimal
import LynneSocial.Lib.Utf8

/-!
# Writing JSON

The serializer of the JSON library as `dump()` and `dump(2)` run it: strict about
UTF-8 and without escapes for characters that are not ASCII. What the output
buffers hold between two flushes is not modelled, except for the digits of an
integer, which are filled in from the right at a place computed beforehand.

The digits of a floating-point number are a parameter, the algorithm that
computes them is not modelled.
-/
namespace LynneSocial

theorem validUtf8_iff (s : Str) : validUtf8 s = true ↔ Utf8.Valid s := by
  unfold Utf8.Valid
  fun_induction validUtf8 s
  case case1 => simp [Utf8.run]
  all_goals
    simp only [UInt8.lt_iff_toNat_lt, UInt8.le_iff_toNat_le, ← UInt8.toNat_inj, Bool.and_eq_true,
      decide_eq_true_eq, beq_iff_eq, UInt8.reduceToNat] at *
    rw [Utf8.run_first, Utf8.owed_eq]
  case case3 | case5 | case9 =>
    simp only [Bool.false_eq_true, false_iff]
    split_ifs
    all_goals first
      | omega
      | exact Utf8.run_short (by simp)
      | simp
  case case12 a b c d s ih _ _ _ _ _ _ _ =>
    by_cases ha : 241 ≤ a.toNat ∧ a.toNat ≤ 243
    · simp (disch := omega) only [if_pos, if_neg]
      simp [Utf8.run_range, Utf8.tail, isTail, UInt8.le_iff_toNat_le, and_assoc, ih, ha]
    · split_ifs
      all_goals first
        | omega
        | simp
          omega
  all_goals
    simp (disch := omega) only [if_pos, if_neg]
    simp [Utf8.run_range, Utf8.tail, isTail, UInt8.le_iff_toNat_le, and_assoc, *]

namespace JsonText

/-- What the digit generator gives for a finite number that is not zero, signs aside: the decimal
digits and the exponent of the last of them. -/
abbrev Grisu := ℕ → Str × ℤ

/-- The classes of the bytes, and behind them the transitions of the states 0 to 8. -/
def utf8d : List ℕ := [
  0, 0, 0, 0, 0, 0, 0, 0, 0, 0, 0, 0, 0, 0, 0, 0, 0, 0, 0, 0, 0, 0, 0, 0, 0, 0, 0, 0, 0, 0, 0, 0,
  0, 0, 0, 0, 0, 0, 0, 0, 0, 0, 0, 0, 0, 0, 0, 0, 0, 0, 0, 0, 0, 0, 0, 0, 0, 0, 0, 0, 0, 0, 0, 0,
  0, 0, 0, 0, 0, 0, 0, 0, 0, 0, 0, 0, 0, 0, 0, 0, 0, 0, 0, 0, 0, 0, 0, 0, 0, 0, 0, 0, 0, 0, 0, 0,
  0, 0, 0, 0, 0, 0, 0, 0, 0, 0, 0, 0, 0, 0, 0, 0, 0, 0, 0, 0, 0, 0, 0, 0, 0, 0, 0, 0, 0, 0, 0, 0,
  1, 1, 1, 1, 1, 1, 1, 1, 1, 1, 1, 1, 1, 1, 1, 1, 9, 9, 9, 9, 9, 9, 9, 9, 9, 9, 9, 9, 9, 9, 9, 9,
  7, 7, 7, 7, 7, 7, 7, 7, 7, 7, 7, 7, 7, 7, 7, 7, 7, 7, 7, 7, 7, 7, 7, 7, 7, 7, 7, 7, 7, 7, 7, 7,
  8, 8, 2, 2, 2, 2, 2, 2, 2, 2, 2, 2, 2, 2, 2, 2, 2, 2, 2, 2, 2, 2, 2, 2, 2, 2, 2, 2, 2, 2, 2, 2,
  0xA, 0x3, 0x3, 0x3, 0x3, 0x3, 0x3, 0x3, 0x3, 0x3, 0x3, 0x3, 0x3, 0x4, 0x3, 0x3,
  0xB, 0x6, 0x6, 0x6, 0x5, 0x8, 0x8, 0x8, 0x8, 0x8, 0x8, 0x8, 0x8, 0x8, 0x8, 0x8,
  0x0, 0x1, 0x2, 0x3, 0x5, 0x8, 0x7, 0x1, 0x1, 0x1, 0x4, 0x6, 0x1, 0x1, 0x1, 0x1,
  1, 1, 1, 1, 1, 1, 1, 1, 1, 1, 1, 1, 1, 1, 1, 1, 1, 0, 1, 1, 1, 1, 1, 0, 1, 0, 1, 1, 1, 1, 1, 1,
  1, 2, 1, 1, 1, 1, 1, 2, 1, 2, 1, 1, 1, 1, 1, 1, 1, 1, 1, 1, 1, 1, 1, 2, 1, 1, 1, 1, 1, 1, 1, 1,
  1, 2, 1, 1, 1, 1, 1, 1, 1, 2, 1, 1, 1, 1, 1, 1, 1, 1, 1, 1, 1, 1, 1, 3, 1, 3, 1, 1, 1, 1, 1, 1,
  1, 3, 1, 1, 1, 1, 1, 3, 1, 3, 1, 1, 1, 1, 1, 1, 1, 3, 1, 1, 1, 1, 1, 1, 1, 1, 1, 1, 1, 1, 1, 1]

/-- One byte of UTF-8: the new state and the code point so far. -/
def decode (state codep : ℕ) (byte : UInt8) : ℕ × ℕ :=
  let type := utf8d.getD byte.toNat 0
  (utf8d.getD (256 + state * 16 + type) 0,
    if state ≠ 0 then (byte.toNat &&& 0x3F) ||| (codep <<< 6) else (0xFF >>> type) &&& byte.toNat)

/-- A hexadecimal digit of `%04x`. -/
def hexDigit (n : ℕ) : UInt8 := if n < 10 then .ofNat (48 + n) else .ofNat (87 + n)

/-- What is written for a character when its last byte `byte` has been read; the bytes before the
last one are copied as they come. -/
def escaped (codepoint : ℕ) (byte : UInt8) : Str :=
  if codepoint = 0x08 then [92, 98]
  else if codepoint = 0x09 then [92, 116]
  else if codepoint = 0x0A then [92, 110]
  else if codepoint = 0x0C then [92, 102]
  else if codepoint = 0x0D then [92, 114]
  else if codepoint = 0x22 then [92, 34]
  else if codepoint = 0x5C then [92, 92]
  else if codepoint ≤ 0x1F then
    [92, 117, hexDigit (codepoint / 4096 % 16), hexDigit (codepoint / 256 % 16),
      hexDigit (codepoint / 16 % 16), hexDigit (codepoint % 16)]
  else [byte]

/-- `dump_escaped` from a byte on; `none` is `type_error.316`. -/
def dumpEscapedFrom : ℕ → ℕ → Str → Option Str
  | state, _, [] => if state = 0 then some [] else none
  | state, codep, byte :: s =>
    match decode state codep byte with
    | (0, codepoint) => (dumpEscapedFrom 0 codepoint s).map (escaped codepoint byte ++ ·)
    | (1, _) => none
    | (state', codep') => (dumpEscapedFrom state' codep' s).map (byte :: ·)

def dumpEscaped (s : Str) : Option Str := dumpEscapedFrom 0 0 s

/-- A byte of a text that is UTF-8, as it is written. -/
def escapeByte (b : UInt8) : Str := if b < 0x80 then escaped b.toNat b else [b]

/-- The states of `decode` but the one that rejects, and the ranges that are owed in them. -/
def states : List (ℕ × List Utf8.Range) :=
  [(0, []), (2, [Utf8.tail]), (3, [Utf8.tail, Utf8.tail]), (4, [(0xA0, 0xBF), Utf8.tail]),
    (5, [(0x80, 0x9F), Utf8.tail]), (6, [(0x90, 0xBF), Utf8.tail, Utf8.tail]),
    (7, [Utf8.tail, Utf8.tail, Utf8.tail]), (8, [(0x80, 0x8F), Utf8.tail, Utf8.tail])]

/-- The state for the ranges that are owed. -/
def stateOf (rs : List Utf8.Range) : ℕ := ((states.find? fun q => q.2 = rs).map Prod.fst).getD 1

/-- The table is a reader of UTF-8. -/
theorem decode_step {p : ℕ × List Utf8.Range} (hp : p ∈ states) (codep : ℕ) (b : UInt8) :
    Utf8.step p.2 b = none ∧ (decode p.1 codep b).1 = 1 ∨
      ∃ q ∈ states, Utf8.step p.2 b = some q.2 ∧ (decode p.1 codep b).1 = q.1 := by
  have hrows : ∀ e ∈ (utf8d.take 256).zipIdx, ∀ p ∈ states,
      (utf8d.drop (256 + p.1 * 16)).getD e.1 0 = (Utf8.step p.2 (.ofNat e.2)).elim 1 stateOf := by
    decide +kernel
  have hclosed : ∀ n : Fin 256, ∀ p ∈ states, ∀ rs ∈ Utf8.step p.2 (.ofNat n),
      (stateOf rs, rs) ∈ states := by
    decide +kernel
  obtain ⟨n, rfl⟩ := Utf8.exists_byte b
  have hmem : (utf8d.getD n 0, (n : ℕ)) ∈ (utf8d.take 256).zipIdx := by
    have hn : (n : ℕ) < utf8d.length := n.2.trans_le (by decide +kernel)
    simp [List.mem_zipIdx_iff_getElem?, List.getD_eq_getElem?_getD, hn]
  have hdecode : (decode p.1 codep (.ofNat n)).1 = (Utf8.step p.2 (.ofNat n)).elim 1 stateOf := by
    rw [← hrows _ hmem p hp]
    simp [decode, List.getD_eq_getElem?_getD, List.getElem?_drop]
  cases hstep : Utf8.step p.2 (.ofNat n) with
  | none => exact .inl ⟨rfl, by rw [hdecode, hstep]; rfl⟩
  | some rs => exact .inr ⟨(stateOf rs, rs), hclosed n p hp rs hstep, rfl, by rw [hdecode, hstep]; rfl⟩

/-- Whatever bytes complete the character, its code point is not below 128. -/
def Large : List Utf8.Range → ℕ → Prop
  | [], codep => 0x80 ≤ codep
  | r :: rs, codep =>
    0x80 ≤ r.1.toNat ∧ r.2.toNat ≤ 0xBF ∧ Large rs (codep * 64 + (r.1.toNat - 0x80))

instance Large.decidable : ∀ (rs : List Utf8.Range) (codep : ℕ), Decidable (Large rs codep)
  | [], codep => inferInstanceAs (Decidable (0x80 ≤ codep))
  | r :: rs, codep => by
    unfold Large
    have := decidable rs (codep * 64 + (r.1.toNat - 0x80))
    infer_instance

theorem Large.mono {rs : List Utf8.Range} {m n : ℕ} (h : Large rs m) (hmn : m ≤ n) : Large rs n := by
  induction rs generalizing m n with
  | nil => exact Nat.le_trans h hmn
  | cons r rs ih => exact ⟨h.1, h.2.1, ih h.2.2 (by omega)⟩

/-- The first byte of a character: its code point, or the beginning of a large one. -/
theorem decode_first {q : ℕ × List Utf8.Range} (hq : q ∈ states) (b : UInt8)
    (h : Utf8.step [] b = some q.2) :
    if q.2 = [] then b < 0x80 ∧ (decode 0 0 b).2 = b.toNat
    else ¬ b < 0x80 ∧ Large q.2 (decode 0 0 b).2 := by
  have hall : ∀ n : Fin 256, ∀ q ∈ states, Utf8.step [] (.ofNat n) = some q.2 →
      if q.2 = [] then UInt8.ofNat n < 0x80 ∧ (decode 0 0 (.ofNat n)).2 = (UInt8.ofNat n).toNat
      else ¬ UInt8.ofNat n < 0x80 ∧ Large q.2 (decode 0 0 (.ofNat n)).2 := by
    decide +kernel
  obtain ⟨n, rfl⟩ := Utf8.exists_byte b
  exact hall n q hq h

theorem decode_range {state codep : ℕ} {b : UInt8} {r : Utf8.Range} {rs : List Utf8.Range}
    (hs : state ≠ 0) (h : Large (r :: rs) codep) (hb : r.1 ≤ b ∧ b ≤ r.2) :
    ¬ b < 0x80 ∧ Large rs (decode state codep b).2 := by
  obtain ⟨hl, hu⟩ := hb
  rw [UInt8.le_iff_toNat_le] at hl hu
  have hlow : b.toNat &&& 0x3F = b.toNat % 64 := Nat.and_two_pow_sub_one_eq_mod b.toNat 6
  have hor : b.toNat % 64 ||| codep <<< 6 = codep * 64 + b.toNat % 64 := by
    rw [Nat.or_comm, Nat.shiftLeft_eq, Nat.mul_comm, ← Nat.two_pow_add_eq_or_of_lt (by omega), Nat.mul_comm]
  refine ⟨fun hlt => absurd (UInt8.lt_iff_toNat_lt.mp hlt) (Nat.not_lt.mpr (h.1.trans hl)), ?_⟩
  simp only [decode, if_pos hs, hlow, hor]
  refine h.2.2.mono ?_
  have := h.1
  have := h.2.1
  omega

theorem state_eq_zero : ∀ q ∈ states, (q.1 = 0 ↔ q.2 = []) ∧ q.1 ≠ 1 := by decide

theorem escaped_large {code : ℕ} (h : 0x80 ≤ code) (b : UInt8) : escaped code b = [b] := by
  simp (disch := omega) only [escaped, if_neg]

/-- A byte that is read without an error. -/
theorem dumpEscapedFrom_cons {q q' : ℕ × List Utf8.Range} (hq : q ∈ states) (hq' : q' ∈ states)
    {codep : ℕ} (hc : q.2 = [] ∨ Large q.2 codep) {b : UInt8} (hstep : Utf8.step q.2 b = some q'.2)
    (hstate : (decode q.1 codep b).1 = q'.1) (s : Str) :
    (q'.2 = [] ∨ Large q'.2 (decode q.1 codep b).2) ∧
      dumpEscapedFrom q.1 codep (b :: s) =
        (dumpEscapedFrom q'.1 (decode q.1 codep b).2 s).map (escapeByte b ++ ·) := by
  obtain ⟨state, rs⟩ := q
  obtain ⟨state', rs'⟩ := q'
  simp only at hc hstep hstate ⊢
  have hzero := (state_eq_zero _ hq).1
  have hzero' := state_eq_zero _ hq'
  simp only at hzero hzero'
  have hcode : if rs' = [] then
        escaped (decode state codep b).2 b = escapeByte b
      else escapeByte b = [b] ∧ Large rs' (decode state codep b).2 := by
    cases rs with
    | nil =>
        obtain rfl := hzero.mpr rfl
        have hfirst := decode_first hq' b hstep
        simp only at hfirst
        change if rs' = [] then escaped (decode 0 0 b).2 b = _ else _ ∧ Large rs' (decode 0 0 b).2
        split_ifs at hfirst ⊢ with hnil
        · rw [hfirst.2, escapeByte, if_pos hfirst.1]
        · exact ⟨if_neg hfirst.1, hfirst.2⟩
    | cons r rs =>
        have hlarge := hc.resolve_left (by simp)
        simp only [Utf8.step, Option.ite_none_right_eq_some, Option.some.injEq] at hstep
        obtain ⟨hr, rfl⟩ := hstep
        obtain ⟨hb, hl⟩ := decode_range (fun h => by simpa using hzero.mp h) hlarge hr
        have hesc : escapeByte b = [b] := if_neg hb
        split_ifs with hnil
        · subst hnil
          rw [escaped_large hl, hesc]
        · exact ⟨hesc, hl⟩
  rw [dumpEscapedFrom]
  split
  · rename_i codepoint hd
    rw [hd] at hstate hcode ⊢
    simp only at hstate hcode ⊢
    subst hstate
    have hnil : rs' = [] := hzero'.1.mp rfl
    rw [if_pos hnil] at hcode
    exact ⟨.inl hnil, by rw [hcode]⟩
  · rename_i hd
    rw [hd] at hstate
    exact absurd hstate.symm hzero'.2
  · rename_i hne₀ _ hd
    rw [hd] at hstate hcode ⊢
    simp only at hstate hcode ⊢
    subst hstate
    rw [if_neg fun hnil => hne₀ (hzero'.1.mpr hnil)] at hcode
    exact ⟨.inr hcode.2, by rw [hcode.1]; rfl⟩

theorem dumpEscapedFrom_eq {q : ℕ × List Utf8.Range} (hq : q ∈ states) {codep : ℕ}
    (hc : q.2 = [] ∨ Large q.2 codep) (s : Str) :
    dumpEscapedFrom q.1 codep s =
      if Utf8.run q.2 s = some [] then some (s.flatMap escapeByte) else none := by
  induction s generalizing q codep with
  | nil => simp [dumpEscapedFrom, Utf8.run, (state_eq_zero q hq).1]
  | cons b s ih =>
      rcases decode_step hq codep b with ⟨hnone, hreject⟩ | ⟨q', hq', hsome, hstate⟩
      · have hdecode : decode q.1 codep b = (1, (decode q.1 codep b).2) := Prod.ext hreject rfl
        rw [dumpEscapedFrom, hdecode]
        simp [Utf8.run, hnone]
      · obtain ⟨hlarge, hcons⟩ := dumpEscapedFrom_cons hq hq' hc hsome hstate s
        rw [hcons, ih hq' hlarge]
        simp only [Utf8.run, hsome, Option.bind_some, List.flatMap_cons]
        split_ifs <;> rfl

/-- The table accepts what is UTF-8 and nothing else, and then every character is written on its own. -/
theorem dumpEscaped_eq (s : Str) :
    dumpEscaped s = if validUtf8 s = true then some (s.flatMap escapeByte) else none := by
  rw [dumpEscaped, dumpEscapedFrom_eq (q := (0, [])) (by simp [states]) (.inl rfl)]
  simp only [validUtf8_iff, Utf8.Valid]

def countDigits (n : ℕ) : ℕ :=
  if n < 10 then 1
  else if n < 100 then 2
  else if n < 1000 then 3
  else if n < 10000 then 4
  else countDigits (n / 10000) + 4

/-- `digits_to_99[i]`. -/
def digitsTo99 (i : ℕ) : UInt8 × UInt8 := (.ofNat (48 + i / 10), .ofNat (48 + i % 10))

/-- The digits of `absValue` from the place `ptr` of the buffer backwards, two at a time. -/
def fillDigits (buffer : Str) (ptr absValue : ℕ) : Str :=
  if 100 ≤ absValue then
    fillDigits ((buffer.set (ptr - 1) (digitsTo99 (absValue % 100)).2).set (ptr - 2)
      (digitsTo99 (absValue % 100)).1) (ptr - 2) (absValue / 100)
  else if 10 ≤ absValue then
    (buffer.set (ptr - 1) (digitsTo99 absValue).2).set (ptr - 2) (digitsTo99 absValue).1
  else buffer.set (ptr - 1) (.ofNat (48 + absValue))

/-- `dump_integer` with what `number_buffer` holds from before. -/
def dumpInteger (buffer : Str) (x : ℤ) : Str :=
  if x = 0 then [48]
  else if x < 0 then
    let absValue := (-(x + 1)).toNat + 1
    let nChars := 1 + countDigits absValue
    (fillDigits (buffer.set 0 45) nChars absValue).take nChars
  else
    let nChars := countDigits x.toNat
    (fillDigits buffer nChars x.toNat).take nChars

/-- `number_buffer` when a serializer is made. -/
def numberBuffer : Str := List.replicate 64 0

/-- An integer in decimal, without leading zeros. -/
def integerText (x : ℤ) : Str := (if x < 0 then [45] else []) ++ Decimal.text x.natAbs

theorem ofNat_digit (n : ℕ) : UInt8.ofNat (48 + n) = Decimal.digit n := UInt8.ofNat_add 48 n

theorem text_small {n : ℕ} (h : n < 10) : Decimal.text n = [Decimal.digit n] := by
  unfold Decimal.text
  split_ifs with h0
  · rw [h0]
  · rw [Nat.digits_of_lt 10 n h0 h]
    rfl

theorem text_step {n : ℕ} (h : 10 ≤ n) :
    Decimal.text n = Decimal.text (n / 10) ++ [Decimal.digit (n % 10)] := by
  unfold Decimal.text
  rw [if_neg (by omega), if_neg (by omega), Nat.digits_def' (by omega) (by omega), List.map_cons,
    List.reverse_cons]

theorem text_two {n : ℕ} (h : 100 ≤ n) :
    Decimal.text n =
      Decimal.text (n / 100) ++ [(digitsTo99 (n % 100)).1, (digitsTo99 (n % 100)).2] := by
  rw [text_step (by omega), text_step (by omega), Nat.div_div_eq_div_mul, digitsTo99, ofNat_digit,
    ofNat_digit, List.append_assoc, show n % 100 / 10 = n / 10 % 10 by omega,
    show n % 100 % 10 = n % 10 by omega]
  rfl

theorem countDigits_eq (n : ℕ) : countDigits n = (Decimal.text n).length := by
  induction n using Nat.strong_induction_on with
  | _ n ih =>
      have hstep : ∀ m, 10 ≤ m → (Decimal.text m).length = (Decimal.text (m / 10)).length + 1 :=
        fun m hm => by rw [text_step hm, List.length_append, List.length_singleton]
      have hsmall : ∀ m, m < 10 → (Decimal.text m).length = 1 := fun m hm => by rw [text_small hm]; rfl
      unfold countDigits
      split_ifs with h₁ h₂ h₃ h₄
      · rw [hsmall n h₁]
      · rw [hstep n (by omega), hsmall _ (by omega)]
      · rw [hstep n (by omega), hstep _ (by omega), hsmall _ (by omega)]
      · rw [hstep n (by omega), hstep _ (by omega), hstep _ (by omega), hsmall _ (by omega)]
      · rw [ih _ (by omega), hstep n (by omega), hstep (n / 10) (by omega), hstep (n / 10 / 10) (by omega),
          hstep (n / 10 / 10 / 10) (by omega)]
        simp only [Nat.div_div_eq_div_mul]

theorem text_length_le {n k : ℕ} (h : n < 10 ^ (k + 1)) : (Decimal.text n).length ≤ k + 1 := by
  induction k generalizing n with
  | zero =>
      rw [text_small (by omega)]
      rfl
  | succ k ih =>
      by_cases hn : n < 10
      · rw [text_small hn]
        simp
      · have hlt : n / 10 < 10 ^ (k + 1) := by
          rw [Nat.div_lt_iff_lt_mul (by omega), ← pow_succ]
          exact h
        rw [text_step (by omega), List.length_append, List.length_singleton]
        exact Nat.succ_le_succ (ih hlt)

theorem exists_last_two {xs : Str} (h : 2 ≤ xs.length) : ∃ zs u v, xs = zs ++ [u, v] := by
  obtain rfl | ⟨ys, v, rfl⟩ := List.eq_nil_or_concat' xs
  · simp at h
  · obtain rfl | ⟨zs, u, rfl⟩ := List.eq_nil_or_concat' ys
    · simp at h
    · exact ⟨zs, u, v, by simp⟩

/-- A pair of digits in front of the place where the last ones were put. -/
theorem set_pair (zs ys : Str) (u v a b : UInt8) :
    ((zs ++ [u, v] ++ ys).set ((zs ++ [u, v]).length - 1) b).set ((zs ++ [u, v]).length - 2) a =
      zs ++ (a :: b :: ys) := by
  simp

/-- The digits end at the given place, whatever was before it. -/
theorem fillDigits_eq (n : ℕ) (xs ys : Str) (h : (Decimal.text n).length ≤ xs.length) :
    fillDigits (xs ++ ys) xs.length n =
      xs.take (xs.length - (Decimal.text n).length) ++ Decimal.text n ++ ys := by
  induction n using Nat.strong_induction_on generalizing xs ys with
  | _ n ih =>
      unfold fillDigits
      split_ifs with h₁ h₂
      · have hlen := congrArg List.length (text_two h₁)
        simp only [List.length_append, List.length_cons, List.length_nil] at hlen
        obtain ⟨zs, u, v, rfl⟩ : ∃ zs u v, xs = zs ++ [u, v] := exists_last_two (by omega)
        have hzs : (zs ++ [u, v]).length - 2 = zs.length := by simp
        simp only [List.length_append, List.length_cons, List.length_nil] at h
        rw [set_pair, hzs, ih _ (by omega) zs _ (by omega), text_two h₁, List.take_append_of_le_length]
        · simp
        · simp only [List.length_append, List.length_cons, List.length_nil]
          omega
      · have htext : Decimal.text n = [(digitsTo99 n).1, (digitsTo99 n).2] := by
          rw [text_step h₂, text_small (by omega), digitsTo99, ofNat_digit, ofNat_digit]
          rfl
        rw [htext] at h ⊢
        obtain ⟨zs, u, v, rfl⟩ := exists_last_two h
        rw [set_pair]
        simp
      · have htext : Decimal.text n = [Decimal.digit n] := text_small (by omega)
        rw [htext] at h ⊢
        obtain rfl | ⟨zs, u, rfl⟩ := List.eq_nil_or_concat' xs
        · simp at h
        · rw [ofNat_digit]
          simp

theorem take_fillDigits {n k : ℕ} {buffer : Str} (hk : (Decimal.text n).length ≤ k)
    (hb : k ≤ buffer.length) :
    (fillDigits buffer k n).take k = buffer.take (k - (Decimal.text n).length) ++ Decimal.text n := by
  have hlen : (buffer.take k).length = k := List.length_take_of_le hb
  have hfill := fillDigits_eq n (buffer.take k) (buffer.drop k) (by rwa [hlen])
  rw [List.take_append_drop, hlen, List.take_take, min_eq_left (by omega)] at hfill
  rw [hfill]
  refine List.take_left' ?_
  rw [List.length_append, List.length_take_of_le (by omega)]
  omega

/-- Two digits at a time and from the right into a buffer that is not cleared: the result is the
plain decimal text, for every integer of 64 bits. -/
theorem dumpInteger_eq {buffer : Str} (hb : buffer.length = 64) {x : ℤ} (hl : -2 ^ 63 ≤ x)
    (hu : x < 2 ^ 64) : dumpInteger buffer x = integerText x := by
  have hlen : (Decimal.text x.natAbs).length ≤ 20 := text_length_le (by omega)
  unfold dumpInteger integerText
  split_ifs with h₀ h₁ h₂
  · omega
  · subst h₀
    rfl
  · have habs : (-(x + 1)).toNat + 1 = x.natAbs := by omega
    obtain ⟨b, bs, rfl⟩ := List.exists_cons_of_length_pos (l := buffer) (by omega)
    have htake : (fillDigits (45 :: bs) (1 + (Decimal.text x.natAbs).length) x.natAbs).take
        (1 + (Decimal.text x.natAbs).length) = 45 :: Decimal.text x.natAbs := by
      rw [take_fillDigits (by omega) (by simp only [List.length_cons] at hb ⊢; omega)]
      simp
    simp only [habs, countDigits_eq, List.set_cons_zero, htake]
    rfl
  · have habs : x.toNat = x.natAbs := by omega
    rw [habs, countDigits_eq, take_fillDigits le_rfl (by omega)]
    simp

/-- At least two digits and at most three. -/
def exponentDigits (k : ℕ) : Str :=
  if k < 10 then [48, .ofNat (48 + k)]
  else if k < 100 then [.ofNat (48 + k / 10), .ofNat (48 + k % 10)]
  else [.ofNat (48 + k / 100), .ofNat (48 + k % 100 / 10), .ofNat (48 + k % 100 % 10)]

def appendExponent (e : ℤ) : Str := (if e < 0 then 45 else 43) :: exponentDigits e.natAbs

/-- `format_buffer` with `min_exp` and `max_exp` as `to_chars` gives them. -/
def formatBuffer (buf : Str) (decimalExponent : ℤ) : Str :=
  let k : ℤ := buf.length
  let n := k + decimalExponent
  if k ≤ n ∧ n ≤ 15 then buf ++ List.replicate (n - k).toNat 48 ++ [46, 48]
  else if 0 < n ∧ n ≤ 15 then buf.take n.toNat ++ 46 :: buf.drop n.toNat
  else if -4 < n ∧ n ≤ 0 then 48 :: 46 :: List.replicate (-n).toNat 48 ++ buf
  else if k = 1 then buf ++ 101 :: appendExponent (n - 1)
  else buf.take 1 ++ 46 :: buf.drop 1 ++ 101 :: appendExponent (n - 1)

/-- `to_chars` of a finite number. -/
def toChars (grisu : Grisu) (bits : UInt64) : Str :=
  let magnitude := bits.toNat % 2 ^ 63
  (if 2 ^ 63 ≤ bits.toNat then [45] else []) ++
    if magnitude = 0 then [48, 46, 48]
    else formatBuffer (grisu magnitude).1 (grisu magnitude).2

def dumpFloat (grisu : Grisu) (bits : UInt64) : Str :=
  if Json.isFinite bits then toChars grisu bits else str "null"

/-- What stands between the brackets of a container and its elements, and between two elements. -/
structure Layout where
  pretty : Bool
  indentStep : ℕ

namespace Layout

def compact : Layout := ⟨false, 0⟩

/-- The layout of `dump(2)`. -/
def indented : Layout := ⟨true, 2⟩

/-- `indent_string` up to a width. -/
def indent (l : Layout) (width : ℕ) : Str := if l.pretty then List.replicate width 32 else []

/-- Behind an opening bracket and in front of a closing one. -/
def newline (l : Layout) : Str := if l.pretty then [10] else []

def separator (l : Layout) : Str := 44 :: l.newline

/-- Behind a key and its closing quote. -/
def colon (l : Layout) : Str := if l.pretty then [58, 32] else [58]

end Layout

section
variable (grisu : Grisu) (l : Layout)

mutual
/-- `dump` of a value in a container that is indented by `currentIndent`; `none` is
`type_error.316`. -/
def dump (currentIndent : ℕ) : Json → Option Str
  | .null => some (str "null")
  | .bool b => some (if b then str "true" else str "false")
  | .int n => some (dumpInteger numberBuffer n)
  | .float bits => some (dumpFloat grisu bits)
  | .str s => (dumpEscaped s).map fun t => 34 :: t ++ [34]
  | .arr [] => some [91, 93]
  | .arr (x :: xs) => (dumpElements (currentIndent + l.indentStep) (x :: xs)).map fun t =>
      91 :: l.newline ++ t ++ l.newline ++ l.indent currentIndent ++ [93]
  | .obj [] => some [123, 125]
  | .obj (m :: ms) => (dumpMembers (currentIndent + l.indentStep) (m :: ms)).map fun t =>
      123 :: l.newline ++ t ++ l.newline ++ l.indent currentIndent ++ [125]

def dumpElements (newIndent : ℕ) : List Json → Option Str
  | [] => some []
  | x :: xs =>
    (dump newIndent x).bind fun t => (dumpElements newIndent xs).map fun rest =>
      l.indent newIndent ++ t ++ (if xs.isEmpty then [] else l.separator) ++ rest

def dumpMembers (newIndent : ℕ) : List (Str × Json) → Option Str
  | [] => some []
  | (k, x) :: xs =>
    (dumpEscaped k).bind fun key => (dump newIndent x).bind fun t =>
      (dumpMembers newIndent xs).map fun rest =>
        l.indent newIndent ++ 34 :: key ++ 34 :: l.colon ++ t ++
          (if xs.isEmpty then [] else l.separator) ++ rest
end

end

end JsonText
end LynneSocial
