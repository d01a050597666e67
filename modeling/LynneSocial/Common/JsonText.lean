import LynneSocial.Common.JsonCodec
import LynneSocial.Common.JsonParser

/-!
# JSON texts

What the serializer writes the lexer and the parser read again, in both layouts.
A text is cut into the pieces that single tokens are read from; a number needs
to know what follows it.
-/
namespace LynneSocial
namespace JsonText
open Token

/-- The point behind a piece of a string that does not end it, and what the piece stands for. -/
def feed : StringPoint → Str → Option (StringPoint × Str)
  | p, [] => some (p, [])
  | p, c :: s =>
    match p.get c with
    | some (.go p' added) => (feed p' s).map fun r => (r.1, added ++ r.2)
    | _ => none

theorem scanString_feed {p p' : StringPoint} {t added : Str} (h : feed p t = some (p', added))
    (buffer rest : Str) : scanString p buffer (t ++ rest) = scanString p' (buffer ++ added) rest := by
  induction t generalizing p buffer added with
  | nil =>
      cases h
      simp
  | cons c t ih =>
      rw [feed] at h
      split at h
      · rename_i q a hget
        obtain ⟨⟨q', a'⟩, hfeed, heq⟩ := Option.map_eq_some_iff.mp h
        cases heq
        simp only [List.cons_append, scanString, hget, ih hfeed, List.append_assoc]
      · cases h

/-- Escapes and plain characters below 128. -/
theorem feed_ascii {b : UInt8} (h : b < 0x80) : feed .chars (escapeByte b) = some (.chars, [b]) := by
  have hall : ∀ n : Fin 256, UInt8.ofNat n < 0x80 →
      feed .chars (escapeByte (.ofNat n)) = some (.chars, [.ofNat n]) := by
    decide +kernel
  obtain ⟨n, rfl⟩ := Utf8.exists_byte b
  exact hall n h

/-- The point of the lexer where a reader owes the ranges. -/
def pointOf (rs : List Utf8.Range) : StringPoint := if rs = [] then .chars else .range rs

/-- The first byte of a character that is not ASCII. -/
theorem feed_first {b : UInt8} (h : ¬ b < 0x80) {rs : List Utf8.Range} (ho : Utf8.owed b = some rs) :
    feed .chars [b] = some (pointOf rs, [b]) ∧ ∀ r ∈ rs, ¬ r.1 < 0x80 := by
  constructor
  · have hquote : b ≠ 34 := by
      rintro rfl
      exact h (by decide)
    have hescape : b ≠ 92 := by
      rintro rfl
      exact h (by decide)
    have hcontrol : ¬ b < 0x20 := fun hlt => h (UInt8.lt_trans hlt (by decide))
    have hget : StringPoint.get .chars b = some (.go (pointOf rs) [b]) := by
      rw [StringPoint.get, if_neg hquote, if_neg hescape, if_neg hcontrol, ho]
      cases rs <;> rfl
    rw [feed, hget]
    rfl
  · rw [Utf8.owed, if_neg h] at ho
    split_ifs at ho <;> cases ho <;> simp [Utf8.tail]

theorem feed_escapeByte {rs rs' : List Utf8.Range} {b : UInt8} (hr : ∀ r ∈ rs, ¬ r.1 < 0x80)
    (h : Utf8.step rs b = some rs') :
    feed (pointOf rs) (escapeByte b) = some (pointOf rs', [b]) ∧ ∀ r ∈ rs', ¬ r.1 < 0x80 := by
  cases rs with
  | nil =>
      by_cases hb : b < 0x80
      · have howed : Utf8.owed b = some [] := if_pos hb
        obtain rfl : rs' = [] := Option.some.inj (h.symm.trans howed)
        exact ⟨feed_ascii hb, hr⟩
      · rw [escapeByte, if_neg hb]
        exact feed_first hb h
  | cons r rs =>
      rw [List.forall_mem_cons] at hr
      simp only [Utf8.step, Option.ite_none_right_eq_some, Option.some.injEq] at h
      obtain ⟨hb, rfl⟩ := h
      have hlarge : ¬ b < 0x80 := fun hlt => hr.1 (UInt8.lt_of_le_of_lt hb.1 hlt)
      rw [escapeByte, if_neg hlarge]
      refine ⟨?_, hr.2⟩
      by_cases hnil : rs = [] <;> simp [feed, pointOf, StringPoint.get, Utf8.step, hb, hnil]

theorem scanString_escaped {rs : List Utf8.Range} (hr : ∀ r ∈ rs, ¬ r.1 < 0x80) {s : Str}
    (h : Utf8.run rs s = some []) (buffer rest : Str) :
    scanString (pointOf rs) buffer (s.flatMap escapeByte ++ 34 :: rest) = some (buffer ++ s, rest) := by
  induction s generalizing rs buffer with
  | nil =>
      obtain rfl : rs = [] := Option.some.inj h
      simp [pointOf, scanString, StringPoint.get]
  | cons b s ih =>
      obtain ⟨rs', hstep, hrun⟩ := Option.bind_eq_some_iff.mp h
      obtain ⟨hfeed, hr'⟩ := feed_escapeByte hr hstep
      rw [List.flatMap_cons, List.append_assoc, scanString_feed hfeed, ih hr' hrun]
      simp

/-- A string that is written is read again. -/
theorem scanString_dumpEscaped {s t : Str} (h : dumpEscaped s = some t) (rest : Str) :
    scanString .chars [] (t ++ 34 :: rest) = some (s, rest) := by
  rw [dumpEscaped_eq] at h
  simp only [Option.ite_none_right_eq_some, Option.some.injEq] at h
  obtain ⟨hv, rfl⟩ := h
  exact @scanString_escaped [] (by simp) s ((validUtf8_iff s).mp hv) [] rest

/-- Nothing that could go on with a number. -/
def Delimited (rest : Str) : Prop :=
  ∀ c ∈ rest.head?, isDigit c = false ∧ c ≠ 46 ∧ c ≠ 101 ∧ c ≠ 69

theorem scanNumber_digits {p : NumberPoint} (hp : p = .any1 ∨ p = .decimal2 ∨ p = .any2) {ds : Str}
    (hd : ∀ c ∈ ds, isDigit c = true) (type : NumberType) (buffer rest : Str) :
    scanNumber p type buffer (ds ++ rest) = scanNumber p type (buffer ++ ds) rest := by
  induction ds generalizing buffer with
  | nil => simp
  | cons c ds ih =>
      rw [List.forall_mem_cons] at hd
      have hget : p.get c = some p ∧ p.assign type = type := by
        rcases hp with rfl | rfl | rfl <;> simp [NumberPoint.get, NumberPoint.assign, hd.1]
      simp only [List.cons_append, scanNumber, hget.1, hget.2, ih hd.2, List.append_assoc,
        List.nil_append]

theorem scanNumber_end {p : NumberPoint} (hp : p = .zero ∨ p = .any1 ∨ p = .decimal2 ∨ p = .any2)
    {rest : Str} (hr : Delimited rest) (type : NumberType) (buffer : Str) :
    scanNumber p type buffer rest = (convert buffer type, rest) := by
  cases rest with
  | nil => rcases hp with rfl | rfl | rfl | rfl <;> rfl
  | cons c rest =>
      obtain ⟨hd, h₁, h₂, h₃⟩ := hr c rfl
      rcases hp with rfl | rfl | rfl | rfl <;>
        simp [scanNumber, NumberPoint.get, NumberPoint.isDone, hd, h₁, h₂, h₃]

/-- Digits without a leading zero. -/
structure Whole (ds : Str) : Prop where
  digits : ∀ c ∈ ds, isDigit c = true
  ne_nil : ds ≠ []
  zero : ds.head? = some 48 → ds = [48]

theorem scanFrom_digit {c : UInt8} (h : isDigit c = true) (s : Str) :
    scanFrom c s = scanNumber (if c = 48 then .zero else .any1) .unsigned [c] s ∧
      NumberPoint.minus.get c = some (if c = 48 then .zero else .any1) := by
  have hall : ∀ n : Fin 256, isDigit (.ofNat n) = true →
      (single (.ofNat n)).isNone ∧ (literal (.ofNat n)).isNone ∧ UInt8.ofNat n ≠ 34 ∧
        UInt8.ofNat n ≠ 45 := by
    decide +kernel
  obtain ⟨n, rfl⟩ := Utf8.exists_byte c
  obtain ⟨h₁, h₂, h₃, h₄⟩ := hall n h
  simp only [Option.isNone_iff_eq_none] at h₁ h₂
  constructor
  · simp only [scanFrom, h₁, h₂, if_neg h₃, NumberPoint.first, if_neg h₄, h, if_true]
    split_ifs <;> rfl
  · simp only [NumberPoint.get, h, if_true]
    split_ifs <;> rfl

/-- The digits before a point, an exponent or the end. -/
theorem scanNumber_whole {c : UInt8} {ds : Str} (h : Whole (c :: ds)) (type : NumberType)
    (buffer tail : Str) :
    ∃ q, (q = .zero ∨ q = .any1) ∧
      scanNumber (if c = 48 then .zero else .any1) type buffer (ds ++ tail) =
        scanNumber q type (buffer ++ ds) tail := by
  by_cases hc : c = 48
  · subst hc
    obtain rfl : ds = [] := (List.cons.inj (h.zero rfl)).2
    exact ⟨.zero, .inl rfl, by simp⟩
  · rw [if_neg hc]
    exact ⟨.any1, .inr rfl,
      scanNumber_digits (.inl rfl) (fun d hd => h.digits d (List.mem_cons_of_mem _ hd)) type buffer tail⟩

theorem scan_cons {c : UInt8} (h : isSpace c = false) (s : Str) : scan (c :: s) = scanFrom c s := by
  simp only [scan, List.dropWhile_cons, h]
  rfl

/-- A sign in front of a text. -/
def signed (negative : Bool) (s : Str) : Str := if negative then 45 :: s else s

theorem scan_whole {ds : Str} (h : Whole ds) (negative : Bool) (tail : Str) :
    ∃ q, (q = .zero ∨ q = .any1) ∧
      scan (signed negative ds ++ tail) =
        scanNumber q (if negative then .integer else .unsigned) (signed negative ds) tail := by
  obtain ⟨c, ds, rfl⟩ := List.exists_cons_of_ne_nil h.ne_nil
  have hc : isDigit c = true := h.digits c List.mem_cons_self
  have hspace : isSpace c = false := by
    have hall : ∀ n : Fin 256, isDigit (.ofNat n) = true → isSpace (.ofNat n) = false := by
      decide +kernel
    obtain ⟨n, rfl⟩ := Utf8.exists_byte c
    exact hall n hc
  obtain ⟨hfrom, hminus⟩ := scanFrom_digit hc (ds ++ tail)
  cases negative with
  | false =>
      obtain ⟨q, hq, hscan⟩ := scanNumber_whole h .unsigned [c] tail
      refine ⟨q, hq, ?_⟩
      change scan (c :: (ds ++ tail)) = scanNumber q .unsigned ([c] ++ ds) tail
      rw [scan_cons hspace, hfrom, hscan]
  | true =>
      obtain ⟨q, hq, hscan⟩ := scanNumber_whole h .integer [45, c] tail
      refine ⟨q, hq, ?_⟩
      have hassign : NumberPoint.assign .integer (if c = 48 then .zero else .any1) = .integer := by
        split_ifs <;> rfl
      change scan (45 :: c :: (ds ++ tail)) = scanNumber q .integer ([45, c] ++ ds) tail
      rw [scan_cons rfl, ← hscan]
      change scanNumber .minus .integer [45] (c :: (ds ++ tail)) = _
      rw [scanNumber, hminus]
      simp only [hassign, List.cons_append, List.nil_append]

theorem scanNumber_fraction {q : NumberPoint} (hq : q = .zero ∨ q = .any1) {ds : Str}
    (hd : ∀ c ∈ ds, isDigit c = true) (hne : ds ≠ []) (type : NumberType) (buffer tail : Str) :
    scanNumber q type buffer (46 :: ds ++ tail) =
      scanNumber .decimal2 .float (buffer ++ 46 :: ds) tail := by
  obtain ⟨c, ds, rfl⟩ := List.exists_cons_of_ne_nil hne
  rw [List.forall_mem_cons] at hd
  have hget : q.get 46 = some .decimal1 := by
    rcases hq with rfl | rfl <;> rfl
  have hdigits := scanNumber_digits (p := .decimal2) (.inr (.inl rfl)) hd.2 .float
    (buffer ++ [46] ++ [c]) tail
  simp only [List.cons_append, scanNumber, hget]
  simp only [NumberPoint.get, hd.1, if_true, NumberPoint.assign]
  rw [hdigits]
  simp

theorem scanNumber_exponent {q : NumberPoint} (hq : q = .zero ∨ q = .any1 ∨ q = .decimal2) {c : UInt8}
    (hc : c = 43 ∨ c = 45) {ds : Str} (hd : ∀ c ∈ ds, isDigit c = true) (hne : ds ≠ [])
    (type : NumberType) (buffer tail : Str) :
    scanNumber q type buffer (101 :: c :: ds ++ tail) =
      scanNumber .any2 .float (buffer ++ 101 :: c :: ds) tail := by
  obtain ⟨d, ds, rfl⟩ := List.exists_cons_of_ne_nil hne
  rw [List.forall_mem_cons] at hd
  have hget : q.get 101 = some .exponent := by
    rcases hq with rfl | rfl | rfl <;> rfl
  have hdigits := scanNumber_digits (p := .any2) (.inr (.inr rfl)) hd.2 .float
    (buffer ++ [101] ++ [c] ++ [d]) tail
  simp only [List.cons_append, scanNumber, hget]
  simp only [NumberPoint.get, hc, hd.1, if_true, NumberPoint.assign]
  rw [hdigits]
  simp

/-- A number with a point or an exponent; the exponent begins with its sign. -/
structure Numeral where
  whole : Str
  fraction : Str
  exponent : Str

namespace Numeral

def text (n : Numeral) : Str :=
  n.whole ++ ((if n.fraction = [] then [] else 46 :: n.fraction) ++
    if n.exponent = [] then [] else 101 :: n.exponent)

def value (n : Numeral) : ℚ :=
  Decimal.value (n.whole ++ n.fraction) * 10 ^ (exponentValue n.exponent - n.fraction.length)

structure Ok (n : Numeral) : Prop where
  whole : Whole n.whole
  fraction : ∀ c ∈ n.fraction, isDigit c = true
  exponent : n.exponent = [] ∨
    ∃ c ds, n.exponent = c :: ds ∧ (c = 43 ∨ c = 45) ∧ ds ≠ [] ∧ ∀ d ∈ ds, isDigit d = true
  float : n.fraction ≠ [] ∨ n.exponent ≠ []

variable {n : Numeral}

theorem scan_text (h : n.Ok) (negative : Bool) {rest : Str} (hr : Delimited rest) :
    scan (signed negative n.text ++ rest) =
      (.valueFloat (strtod (signed negative n.text)), rest) := by
  have hsigned : ∀ s t : Str, signed negative (s ++ t) = signed negative s ++ t := by
    intro s t
    cases negative <;> rfl
  have hassoc : signed negative n.text ++ rest = signed negative n.whole ++
      ((if n.fraction = [] then [] else 46 :: n.fraction) ++
        ((if n.exponent = [] then [] else 101 :: n.exponent) ++ rest)) := by
    simp only [text, hsigned, List.append_assoc]
  obtain ⟨q, hq, hscan⟩ := scan_whole h.whole negative
    ((if n.fraction = [] then [] else 46 :: n.fraction) ++
      ((if n.exponent = [] then [] else 101 :: n.exponent) ++ rest))
  rw [hassoc, hscan, text, hsigned]
  by_cases hf : n.fraction = []
  · have he : n.exponent ≠ [] := h.float.resolve_left fun hne => hne hf
    obtain ⟨c, ds, hexp, hc, hne, hd⟩ := h.exponent.resolve_left he
    have hq' : q = .zero ∨ q = .any1 ∨ q = .decimal2 := by tauto
    rw [if_pos hf, if_neg he, hexp, List.nil_append, scanNumber_exponent hq' hc hd hne,
      scanNumber_end (.inr (.inr (.inr rfl))) hr]
    simp [convert]
  · rw [if_neg hf, scanNumber_fraction hq h.fraction hf]
    rcases h.exponent with he | ⟨c, ds, hexp, hc, hne, hd⟩
    · rw [if_pos he, List.nil_append, scanNumber_end (.inr (.inr (.inl rfl))) hr]
      simp [convert]
    · rw [if_neg (by rw [hexp]; simp), hexp, scanNumber_exponent (.inr (.inr rfl)) hc hd hne,
        scanNumber_end (.inr (.inr (.inr rfl))) hr]
      simp [convert]

theorem takeWhile_digits {ds tail : Str} (hd : ∀ c ∈ ds, isDigit c = true)
    (ht : ∀ c ∈ tail.head?, isDigit c = false) :
    (ds ++ tail).takeWhile isDigit = ds ∧ (ds ++ tail).dropWhile isDigit = tail := by
  induction ds with
  | nil =>
      cases tail with
      | nil => exact ⟨rfl, rfl⟩
      | cons c tail => simp [ht c rfl]
  | cons c ds ih =>
      rw [List.forall_mem_cons] at hd
      obtain ⟨h₁, h₂⟩ := ih hd.2
      simp [hd.1, h₁, h₂]

theorem decimalValue_text (h : n.Ok) : decimalValue n.text = n.value := by
  have hexp : ∀ c ∈ (if n.exponent = [] then [] else 101 :: n.exponent).head?, isDigit c = false := by
    intro c hc
    split_ifs at hc
    · cases hc
    · cases hc
      rfl
  have hdrop : (if n.exponent = [] then [] else 101 :: n.exponent).drop 1 = n.exponent := by
    split_ifs with he
    · rw [he]
      rfl
    · rfl
  by_cases hf : n.fraction = []
  · obtain ⟨htake, hbehind⟩ := takeWhile_digits h.whole.digits hexp
    have hpoint : (if n.exponent = [] then [] else 101 :: n.exponent).head? ≠ some 46 := by
      split_ifs <;> simp
    simp only [decimalValue, text, hf, if_true, List.nil_append, htake, hbehind, if_neg hpoint, hdrop,
      value]
  · have hfrac : ∀ c ∈ (46 :: n.fraction ++ if n.exponent = [] then [] else 101 :: n.exponent).head?,
        isDigit c = false := by
      rintro c ⟨⟩
      rfl
    obtain ⟨htake, hbehind⟩ := takeWhile_digits h.whole.digits hfrac
    obtain ⟨htake', hbehind'⟩ := takeWhile_digits h.fraction hexp
    rw [List.cons_append] at htake hbehind
    simp only [decimalValue, text, if_neg hf, htake, hbehind, List.cons_append, List.head?_cons, if_true,
      List.drop_succ_cons, List.drop_zero, htake', hbehind', hdrop, value]

/-- The checked text has the value of the numeral. -/
theorem strtod_text (h : n.Ok) (negative : Bool) :
    strtod (signed negative n.text) =
      .ofNat ((if negative then 2 ^ 63 else 0) + Binary64.nearest n.value) := by
  obtain ⟨c, ds, hwhole⟩ := List.exists_cons_of_ne_nil h.whole.ne_nil
  have hc : c ≠ 45 := by
    have hdigit := h.whole.digits c (hwhole ▸ List.mem_cons_self)
    rintro rfl
    exact absurd hdigit (by decide)
  have hhead : n.text.head? ≠ some 45 := by
    simpa [text, hwhole] using hc
  cases negative with
  | false =>
      change strtod n.text = _
      rw [strtod, if_neg hhead, decimalValue_text h]
      simp
  | true =>
      change strtod (45 :: n.text) = _
      rw [strtod, if_pos rfl, List.drop_succ_cons, List.drop_zero, decimalValue_text h]
      rfl

end Numeral

/-- What the serializer relies on: the digit generator gives decimal digits, the first of them not
zero, the exponent of the number has at most three digits, and the number nearest to what the digits
say is the one that was given. -/
def Grisu.ReadsBack (grisu : Grisu) : Prop :=
  ∀ w, 0 < w → w < Binary64.infinity →
    Whole (grisu w).1 ∧ (grisu w).1.head? ≠ some 48 ∧
      -1000 < (grisu w).1.length + (grisu w).2 - 1 ∧ (grisu w).1.length + (grisu w).2 - 1 < 1000 ∧
      Binary64.nearest (Decimal.value (grisu w).1 * 10 ^ (grisu w).2) = w

theorem value_append (xs ys : Str) :
    Decimal.value (xs ++ ys) = Decimal.value xs * 10 ^ ys.length + Decimal.value ys := by
  have hfold : ∀ (ys : Str) (n : ℕ), ys.foldl (fun n d => 10 * n + (d.toNat - 48)) n =
      n * 10 ^ ys.length + Decimal.value ys := by
    intro ys
    induction ys with
    | nil => simp [Decimal.value]
    | cons y ys ih =>
        intro n
        have hcons : Decimal.value (y :: ys) =
            (10 * 0 + (y.toNat - 48)) * 10 ^ ys.length + Decimal.value ys := ih _
        rw [List.foldl_cons, ih, hcons, List.length_cons, pow_succ]
        ring
  rw [Decimal.value, List.foldl_append, hfold]
  rfl

theorem value_zeros (n : ℕ) : Decimal.value (List.replicate n 48) = 0 := by
  induction n with
  | zero => rfl
  | succ n ih =>
      rw [List.replicate_succ', value_append, ih]
      rfl

theorem digits_text {n : ℕ} : ∀ c ∈ Decimal.text n, isDigit c = true := by
  intro c hc
  have h := Decimal.toNat_of_mem_text hc
  simp [isDigit, UInt8.le_iff_toNat_le, h]

/-- The exponent is the decimal text, with a zero in front of a single digit. -/
theorem exponentDigits_eq {k : ℕ} (hk : k < 1000) :
    exponentDigits k = if k < 10 then 48 :: Decimal.text k else Decimal.text k := by
  unfold exponentDigits
  split_ifs with h₁ h₂
  · rw [text_small h₁, ofNat_digit]
  · rw [text_step (by omega), text_small (by omega), ofNat_digit, ofNat_digit]
    rfl
  · have htens : k / 10 / 10 = k / 100 ∧ k / 10 % 10 = k % 100 / 10 ∧ k % 10 = k % 100 % 10 := by omega
    rw [text_step (by omega), text_step (by omega), text_small (by omega), htens.1, htens.2.1, htens.2.2,
      ofNat_digit, ofNat_digit, ofNat_digit]
    rfl

theorem exponentDigits_spec {k : ℕ} (hk : k < 1000) :
    exponentDigits k ≠ [] ∧ (∀ d ∈ exponentDigits k, isDigit d = true) ∧
      Decimal.value (exponentDigits k) = k := by
  rw [exponentDigits_eq hk]
  split_ifs
  · exact ⟨List.cons_ne_nil _ _, List.forall_mem_cons.mpr ⟨by decide, digits_text⟩, Decimal.value_text k⟩
  · exact ⟨Decimal.text_ne_nil k, digits_text, Decimal.value_text k⟩

theorem appendExponent_spec {e : ℤ} (hl : -1000 < e) (hu : e < 1000) :
    (∃ c ds, appendExponent e = c :: ds ∧ (c = 43 ∨ c = 45) ∧ ds ≠ [] ∧ ∀ d ∈ ds, isDigit d = true) ∧
      exponentValue (appendExponent e) = e := by
  obtain ⟨hne, hdigits, hvalue⟩ := exponentDigits_spec (k := e.natAbs) (by omega)
  refine ⟨⟨_, _, rfl, ?_, hne, hdigits⟩, ?_⟩
  · split_ifs
    · exact .inr rfl
    · exact .inl rfl
  · unfold appendExponent
    split_ifs with he
    · rw [exponentValue, hvalue]
      omega
    · rw [exponentValue, hvalue]
      omega

theorem digit_zeros (n : ℕ) : ∀ c ∈ List.replicate n (48 : UInt8), isDigit c = true := by
  intro c hc
  rw [List.eq_of_mem_replicate hc]
  rfl

/-- Digits that go on behind digits without a leading zero, or the first of these. -/
theorem Whole.of_head {ds es : Str} (hd : ∀ c ∈ es, isDigit c = true) (hh : es.head? = ds.head?)
    (hw : Whole ds) (h0 : ds.head? ≠ some 48) : Whole es where
  digits := hd
  ne_nil := by
    rintro rfl
    exact hw.ne_nil (List.head?_eq_none_iff.mp hh.symm)
  zero h := absurd (hh ▸ h) h0

theorem Numeral.value_eq {n : Numeral} {v : ℕ} {e : ℤ} (j : ℕ)
    (hd : Decimal.value (n.whole ++ n.fraction) = v * 10 ^ j)
    (he : exponentValue n.exponent - n.fraction.length + j = e) : n.value = v * 10 ^ e := by
  rw [Numeral.value, hd, ← he, zpow_add₀ (by norm_num), zpow_natCast]
  push_cast
  ring

/-- Every form that `format_buffer` has is a numeral with the value of the digits. -/
theorem formatBuffer_numeral {buf : Str} (hw : Whole buf) (h0 : buf.head? ≠ some 48) {e : ℤ}
    (hl : -1000 < buf.length + e - 1) (hu : buf.length + e - 1 < 1000) :
    ∃ n : Numeral, n.Ok ∧ formatBuffer buf e = n.text ∧ n.value = Decimal.value buf * 10 ^ e := by
  have hpos : 0 < buf.length := List.length_pos_iff.mpr hw.ne_nil
  have htake : ∀ m, 0 < m → Whole (buf.take m) := fun m hm =>
    Whole.of_head (fun c hc => hw.digits c (List.mem_of_mem_take hc))
      (by rw [List.head?_take, if_neg (by omega)]) hw h0
  have hdrop : ∀ m, ∀ c ∈ buf.drop m, isDigit c = true := fun m c hc =>
    hw.digits c (List.mem_of_mem_drop hc)
  have hexp := appendExponent_spec hl hu
  have hsign : appendExponent (buf.length + e - 1) ≠ [] := by simp [appendExponent]
  unfold formatBuffer
  simp only
  split_ifs with h₁ h₂ h₃ h₄
  · obtain ⟨m, hm⟩ : ∃ m : ℕ, e = m := ⟨e.toNat, by omega⟩
    have hzeros : (buf.length + e - buf.length).toNat = m := by omega
    rw [hzeros]
    refine ⟨⟨buf ++ List.replicate m 48, [48], []⟩, ⟨?_, ?_, .inl rfl, .inl (by simp)⟩, ?_, ?_⟩
    · refine Whole.of_head ?_ (List.head?_append_of_ne_nil _ hw.ne_nil) hw h0
      exact List.forall_mem_append.mpr ⟨hw.digits, digit_zeros m⟩
    · simp [isDigit]
    · simp [Numeral.text]
    · refine Numeral.value_eq (m + 1) ?_ ?_
      · rw [List.append_assoc, ← List.replicate_succ', value_append, value_zeros, List.length_replicate]
        rfl
      · simp [exponentValue, Decimal.value]
        omega
  · obtain ⟨m, hm⟩ : ∃ m : ℕ, buf.length + e = m := ⟨(buf.length + e).toNat, by omega⟩
    rw [hm, Int.toNat_natCast]
    have hne : buf.drop m ≠ [] := by
      rw [Ne, List.drop_eq_nil_iff]
      omega
    refine ⟨⟨buf.take m, buf.drop m, []⟩, ⟨htake m (by omega), hdrop m, .inl rfl, .inl hne⟩, ?_, ?_⟩
    · simp [Numeral.text, hne]
    · refine Numeral.value_eq 0 (by simp) ?_
      simp [exponentValue, Decimal.value]
      omega
  · obtain ⟨m, hm⟩ : ∃ m : ℕ, -(buf.length + e) = m := ⟨(-(buf.length + e)).toNat, by omega⟩
    rw [hm, Int.toNat_natCast]
    refine ⟨⟨[48], List.replicate m 48 ++ buf, []⟩, ⟨⟨?_, ?_, ?_⟩, ?_, .inl rfl, .inl ?_⟩, ?_, ?_⟩
    · simp [isDigit]
    · simp
    · simp
    · exact List.forall_mem_append.mpr ⟨digit_zeros m, hw.digits⟩
    · simp [hw.ne_nil]
    · simp [Numeral.text, hw.ne_nil]
    · refine Numeral.value_eq 0 ?_ ?_
      · rw [← List.append_assoc, List.singleton_append, ← List.replicate_succ, value_append, value_zeros]
        simp
      · simp [exponentValue, Decimal.value]
        omega
  · refine ⟨⟨buf, [], appendExponent (buf.length + e - 1)⟩,
      ⟨hw, by simp, .inr hexp.1, .inr hsign⟩, ?_, ?_⟩
    · simp [Numeral.text, hsign]
    · refine Numeral.value_eq 0 (by simp) ?_
      rw [hexp.2]
      simp
      omega
  · have hne : buf.drop 1 ≠ [] := by
      rw [Ne, List.drop_eq_nil_iff]
      omega
    refine ⟨⟨buf.take 1, buf.drop 1, appendExponent (buf.length + e - 1)⟩,
      ⟨htake 1 (by omega), hdrop 1, .inr hexp.1, .inl hne⟩, ?_, ?_⟩
    · simp only [Numeral.text, if_neg hne, if_neg hsign, List.append_assoc, List.cons_append]
    · refine Numeral.value_eq 0 ?_ ?_
      · rw [List.take_append_drop]
        simp
      · rw [hexp.2]
        simp
        omega

/-- A finite number is written as a numeral with a sign, even if it is zero. -/
theorem toChars_numeral {grisu : Grisu} (hg : grisu.ReadsBack) {bits : UInt64}
    (hf : Json.isFinite bits = true) :
    ∃ n : Numeral, n.Ok ∧ toChars grisu bits = signed (decide (2 ^ 63 ≤ bits.toNat)) n.text ∧
      strtod (toChars grisu bits) = bits := by
  have hfin : bits.toNat % 2 ^ 63 < Binary64.infinity := by
    have hexp : bits.toNat / 2 ^ 52 % 2 ^ 11 ≠ 2047 := by simpa [Json.isFinite] using hf
    unfold Binary64.infinity
    omega
  obtain ⟨n, hok, htext, hvalue⟩ : ∃ n : Numeral, n.Ok ∧
      (if bits.toNat % 2 ^ 63 = 0 then [48, 46, 48]
        else formatBuffer (grisu (bits.toNat % 2 ^ 63)).1 (grisu (bits.toNat % 2 ^ 63)).2) = n.text ∧
      Binary64.nearest n.value = bits.toNat % 2 ^ 63 := by
    split_ifs with h0
    · refine ⟨⟨[48], [48], []⟩, ⟨⟨by simp [isDigit], by simp, by simp⟩, by simp [isDigit], .inl rfl,
        .inl (by simp)⟩, rfl, ?_⟩
      rw [h0]
      simp [Numeral.value, Decimal.value, Binary64.nearest]
    · obtain ⟨hw, hhead, hl, hu, hnear⟩ := hg _ (Nat.pos_of_ne_zero h0) hfin
      obtain ⟨n, hok, htext, hvalue⟩ := formatBuffer_numeral hw hhead hl hu
      exact ⟨n, hok, htext, by rw [hvalue, hnear]⟩
  have hsigned : toChars grisu bits = signed (decide (2 ^ 63 ≤ bits.toNat)) n.text := by
    simp only [toChars, htext, signed, decide_eq_true_eq]
    split_ifs <;> rfl
  have hbits : (if decide (2 ^ 63 ≤ bits.toNat) = true then 2 ^ 63 else 0) + Binary64.nearest n.value =
      bits.toNat := by
    have := bits.toNat_lt
    rw [hvalue]
    simp only [decide_eq_true_eq]
    split_ifs <;> omega
  exact ⟨n, hok, hsigned, by rw [hsigned, Numeral.strtod_text hok, hbits, UInt64.ofNat_toNat]⟩

theorem scan_toChars {grisu : Grisu} (hg : grisu.ReadsBack) {bits : UInt64}
    (hf : Json.isFinite bits = true) {rest : Str} (hr : Delimited rest) :
    scan (toChars grisu bits ++ rest) = (.valueFloat bits, rest) := by
  obtain ⟨n, hok, hsigned, hstrtod⟩ := toChars_numeral hg hf
  rw [hsigned] at hstrtod ⊢
  rw [Numeral.scan_text hok _ hr, hstrtod]

/-- The token of an integer: without a sign it is unsigned. -/
def integerToken (x : ℤ) : Token := if x < 0 then .valueInteger x else .valueUnsigned x.toNat

theorem text_head {n : ℕ} (h : 0 < n) : (Decimal.text n).head? ≠ some 48 := by
  induction n using Nat.strong_induction_on with
  | _ n ih =>
      by_cases hn : n < 10
      · rw [text_small hn, List.head?_cons, Ne, Option.some.injEq, ← UInt8.toNat_inj,
          Decimal.digit_toNat hn]
        exact fun heq => absurd heq (show ¬ 48 + n = 48 by omega)
      · rw [text_step (by omega), List.head?_append_of_ne_nil _ (Decimal.text_ne_nil _)]
        exact ih _ (by omega) (by omega)

theorem text_whole (n : ℕ) : Whole (Decimal.text n) where
  digits := digits_text
  ne_nil := Decimal.text_ne_nil n
  zero h := by
    rcases Nat.eq_zero_or_pos n with rfl | hn
    · rfl
    · exact absurd h (text_head hn)

theorem scan_integerText {x : ℤ} (hl : -2 ^ 63 ≤ x) (hu : x < 2 ^ 64) {rest : Str}
    (hr : Delimited rest) : scan (integerText x ++ rest) = (integerToken x, rest) := by
  obtain ⟨q, hq, hscan⟩ := scan_whole (text_whole x.natAbs) (decide (x < 0)) rest
  have hq' : q = .zero ∨ q = .any1 ∨ q = .decimal2 ∨ q = .any2 := by tauto
  have hsigned : integerText x = signed (decide (x < 0)) (Decimal.text x.natAbs) := by
    simp only [integerText, signed, decide_eq_true_eq]
    split_ifs <;> rfl
  rw [hsigned, hscan, scanNumber_end hq' hr]
  by_cases h : x < 0
  · have hvalue : -((x.natAbs : ℕ) : ℤ) = x := by omega
    have hconvert : convert (45 :: Decimal.text x.natAbs) .integer = .valueInteger x := by
      rw [convert, List.drop_succ_cons, List.drop_zero, Decimal.value_text, hvalue]
      exact if_pos hl
    simp [h, signed, hconvert, integerToken]
  · have hvalue : x.natAbs = x.toNat := by omega
    have hconvert : convert (Decimal.text x.natAbs) .unsigned = .valueUnsigned x.toNat := by
      rw [convert, Decimal.value_text, hvalue]
      exact if_pos (by omega)
    simp [h, signed, hconvert, integerToken]

/-- The next tokens of a text and what follows them. -/
def Reads : Str → List Token → Str → Prop
  | s, [], rest => s = rest
  | s, t :: ts, rest => ∃ r, scan s = (t, r) ∧ t.isLast = false ∧ Reads r ts rest

theorem Reads.append {s r rest : Str} {ts us : List Token} (h : Reads s ts r) (h' : Reads r us rest) :
    Reads s (ts ++ us) rest := by
  induction ts generalizing s with
  | nil =>
      obtain rfl : s = r := h
      exact h'
  | cons t ts ih =>
      obtain ⟨q, hscan, hlast, hq⟩ := h
      exact ⟨q, hscan, hlast, ih hq⟩

theorem scan_space {ws : Str} (h : ∀ c ∈ ws, isSpace c = true) (s : Str) : scan (ws ++ s) = scan s := by
  rw [scan, scan, List.dropWhile_append_of_pos h]

theorem Reads.space {ws s rest : Str} {ts : List Token} (hws : ∀ c ∈ ws, isSpace c = true)
    (hne : ts ≠ []) (h : Reads s ts rest) : Reads (ws ++ s) ts rest := by
  obtain ⟨t, ts, rfl⟩ := List.exists_cons_of_ne_nil hne
  obtain ⟨r, hscan, hlast, hr⟩ := h
  exact ⟨r, by rw [scan_space hws, hscan], hlast, hr⟩

theorem Reads.tokensFrom {s rest : Str} {ts : List Token} (h : Reads s ts rest) {fuel : ℕ}
    (hf : s.length < fuel) :
    ∃ fuel', rest.length < fuel' ∧ tokensFrom fuel s = ts ++ tokensFrom fuel' rest := by
  induction ts generalizing s fuel with
  | nil =>
      obtain rfl : s = rest := h
      exact ⟨fuel, hf, rfl⟩
  | cons t ts ih =>
      obtain ⟨r, hscan, hlast, hr⟩ := h
      obtain ⟨fuel, rfl⟩ : ∃ n, fuel = n + 1 := ⟨fuel - 1, by omega⟩
      have hlen := scan_length (s := s) (by rw [hscan]; exact hlast)
      rw [hscan] at hlen
      have hfuel : r.length < fuel := by
        simp only at hlen
        omega
      obtain ⟨fuel', hlt, htokens⟩ := ih hr hfuel
      refine ⟨fuel', hlt, ?_⟩
      rw [JsonText.tokensFrom, hscan]
      simp [hlast, htokens]

/-- No token begins like a byte order mark. -/
theorem Reads.head {text rest : Str} {ts : List Token} (hne : ts ≠ []) (h : Reads text ts rest) :
    text.head? ≠ some 0xEF := by
  obtain ⟨t, ts, rfl⟩ := List.exists_cons_of_ne_nil hne
  obtain ⟨r, hscan, hlast, -⟩ := h
  intro hhead
  obtain ⟨s, rfl⟩ := List.head?_eq_some_iff.mp hhead
  have herror : scan (0xEF :: s) = (parseError, s) := rfl
  rw [herror] at hscan
  cases hscan
  cases hlast

theorem skipBom_of_head {text : Str} (h : text.head? ≠ some 0xEF) : skipBom text = some text := by
  unfold skipBom
  split
  · simp at h
  · rfl

/-- A text that is read to its end by some tokens. -/
theorem tokens_of_reads {text rest : Str} {ts : List Token} (hne : ts ≠ [])
    (h : Reads text ts rest) (hrest : (scan rest).1 = endOfInput) : tokens text = ts ++ [endOfInput] := by
  have hbom := skipBom_of_head (h.head hne)
  obtain ⟨fuel, hlt, htokens⟩ := h.tokensFrom (Nat.lt_succ_self _)
  obtain ⟨fuel, rfl⟩ : ∃ n, fuel = n + 1 := ⟨fuel - 1, by omega⟩
  have hend : tokensFrom (fuel + 1) rest = [endOfInput] := by
    rw [JsonText.tokensFrom, hrest]
    rfl
  rw [tokens, hbom]
  exact htokens.trans (by rw [hend])

theorem scalar_integerToken (n : ℤ) : (integerToken n).scalar? = some (.int n) := by
  unfold integerToken
  split_ifs with h
  · rfl
  · rw [Token.scalar?, Int.toNat_of_nonneg (by omega)]

mutual
/-- A value as the serializer writes it. -/
def rawOf : Json → Raw
  | .null => .leaf literalNull .null rfl
  | .bool true => .leaf literalTrue (.bool true) rfl
  | .bool false => .leaf literalFalse (.bool false) rfl
  | .int n => .leaf (integerToken n) (.int n) (scalar_integerToken n)
  | .float bits =>
    if h : Json.isFinite bits = true then .leaf (valueFloat bits) (.float bits) (if_pos h)
    else .leaf literalNull .null rfl
  | .str s => .leaf (valueString s) (.str s) rfl
  | .arr xs => .arr (rawsOf xs)
  | .obj members => .obj (rawMembersOf members)

def rawsOf : List Json → List Raw
  | [] => []
  | x :: xs => rawOf x :: rawsOf xs

def rawMembersOf : List (Str × Json) → List (Str × Raw)
  | [] => []
  | (k, x) :: xs => (k, rawOf x) :: rawMembersOf xs
end

theorem assign_emplace {k : Str} {members : List (Str × Json)} (h : ∀ m ∈ members, m.1 < k) (x : Json) :
    assign k x (Json.emplace k .null members) = members ++ [(k, x)] := by
  induction members with
  | nil => simp [Json.emplace, assign]
  | cons m ms ih =>
      rw [List.forall_mem_cons] at h
      have hne : ¬ k = m.1 := fun heq => List.lt_irrefl k (heq ▸ h.1)
      have hnlt : ¬ k < m.1 := fun hlt => List.lt_irrefl k (List.lt_trans hlt h.1)
      have hassign : assign k x (m :: Json.emplace k .null ms) =
          m :: assign k x (Json.emplace k .null ms) := by
        simp only [assign, List.map_cons, if_neg fun heq : m.1 = k => hne heq.symm]
      rw [Json.emplace, if_neg hne, if_neg hnlt, hassign, ih h.2, List.cons_append]

mutual
theorem value_rawOf : ∀ j : Json, j.wellFormed = true → (rawOf j).value = j.written
  | .null, _ => rfl
  | .bool true, _ => rfl
  | .bool false, _ => rfl
  | .int _, _ => rfl
  | .float bits, _ => by
      simp only [rawOf, Json.written]
      split_ifs <;> rfl
  | .str _, _ => rfl
  | .arr xs, h => by
      simp only [Json.wellFormed, Json.all, Bool.and_eq_true] at h
      rw [rawOf, Raw.value, Json.written, values_rawsOf xs h.2]
  | .obj members, h => by
      simp only [Json.wellFormed, Json.all, Json.wellFormedNode, Bool.and_eq_true, decide_eq_true_eq] at h
      rw [rawOf, Raw.value, Json.written, memberValues_rawMembersOf members [] h.2 (by simpa using h.1),
        List.nil_append]

theorem values_rawsOf : ∀ xs : List Json, Json.allList Json.wellFormedNode xs = true →
    Raw.values (rawsOf xs) = Json.writtenList xs
  | [], _ => rfl
  | x :: xs, h => by
      simp only [Json.allList, Bool.and_eq_true] at h
      rw [rawsOf, Raw.values, Json.writtenList, value_rawOf x h.1, values_rawsOf xs h.2]

theorem memberValues_rawMembersOf : ∀ (xs acc : List (Str × Json)),
    Json.allMembers Json.wellFormedNode xs = true →
    ((acc ++ xs).map Prod.fst).Pairwise (· < ·) →
    Raw.memberValues acc (rawMembersOf xs) = acc ++ Json.writtenMembers xs
  | [], acc, _, _ => by simp [rawMembersOf, Raw.memberValues, Json.writtenMembers]
  | (k, x) :: xs, acc, h, hs => by
      simp only [Json.allMembers, Bool.and_eq_true] at h
      have hlt : ∀ m ∈ acc, m.1 < k := by
        intro m hm
        rw [List.map_append, List.pairwise_append] at hs
        exact hs.2.2 m.1 (List.mem_map_of_mem hm) k (by simp)
      rw [rawMembersOf, Raw.memberValues, value_rawOf x h.1, assign_emplace hlt,
        memberValues_rawMembersOf xs _ h.2, Json.writtenMembers]
      · simp
      · simpa using hs
end

theorem Raw.tokens_ne_nil (x : Raw) : x.tokens ≠ [] := by
  cases x <;> simp [Raw.tokens]

theorem isSpace_newline (l : Layout) : ∀ c ∈ l.newline, isSpace c = true := by
  unfold Layout.newline
  split_ifs <;> simp [isSpace]

theorem isSpace_indent (l : Layout) (width : ℕ) : ∀ c ∈ l.indent width, isSpace c = true := by
  unfold Layout.indent
  split_ifs
  · intro c hc
    rw [List.eq_of_mem_replicate hc]
    rfl
  · simp

theorem Raw.elementTokens_ne_nil (x : Raw) (xs : List Raw) : Raw.elementTokens (x :: xs) ≠ [] := by
  simp [Raw.elementTokens, x.tokens_ne_nil]

/-- A text that the tokens are read from, whatever delimits it. -/
def Lexes (text : Str) (ts : List Token) : Prop :=
  ∀ rest, Delimited rest → Reads (text ++ rest) ts rest

theorem Lexes.token {text : Str} {t : Token} (hlast : t.isLast = false)
    (h : ∀ rest, Delimited rest → scan (text ++ rest) = (t, rest)) : Lexes text [t] :=
  fun rest hr => ⟨rest, h rest hr, hlast, rfl⟩

theorem scan_single {c : UInt8} {t : Token} (hs : isSpace c = false) (h : single c = some t) (s : Str) :
    scan (c :: s) = (t, s) := by
  rw [scan_cons hs, scanFrom, h]

theorem scan_quote {s t : Str} (h : dumpEscaped s = some t) (rest : Str) :
    scan (34 :: (t ++ 34 :: rest)) = (.valueString s, rest) := by
  have hsingle : single 34 = none ∧ literal 34 = none := ⟨rfl, rfl⟩
  rw [scan_cons rfl, scanFrom, hsingle.1]
  simp only [hsingle.2, if_true, scanString_dumpEscaped h]

theorem delimited_cons {c : UInt8} (h : c = 44 ∨ c = 93 ∨ c = 125 ∨ c = 10) (s : Str) :
    Delimited (c :: s) := by
  rintro _ ⟨⟩
  rcases h with rfl | rfl | rfl | rfl <;> decide

/-- What closes a container. -/
theorem delimited_closing (l : Layout) (width : ℕ) {c : UInt8} (h : c = 93 ∨ c = 125) (rest : Str) :
    Delimited (l.newline ++ (l.indent width ++ c :: rest)) := by
  unfold Layout.newline Layout.indent
  split_ifs
  · exact delimited_cons (by simp) _
  · exact delimited_cons (by tauto) _

theorem Lexes.indented {text : Str} {ts : List Token} {l : Layout} (h : Lexes text ts) (hne : ts ≠ [])
    (width : ℕ) : Lexes (l.indent width ++ text) ts := by
  intro rest hr
  rw [List.append_assoc]
  exact (h rest hr).space (isSpace_indent l width) hne

/-- A value behind the colon of its key. -/
theorem Lexes.colon {text : Str} {ts : List Token} {l : Layout} (h : Lexes text ts) (hne : ts ≠ []) :
    Lexes (l.colon ++ text) (nameSeparator :: ts) := by
  intro rest hr
  have hspace : ∃ ws, l.colon = 58 :: ws ∧ ∀ c ∈ ws, isSpace c = true := by
    unfold Layout.colon
    split_ifs
    · exact ⟨[32], rfl, by simp [isSpace]⟩
    · exact ⟨[], rfl, by simp⟩
  obtain ⟨ws, hcolon, hws⟩ := hspace
  rw [hcolon]
  simp only [List.cons_append, List.append_assoc]
  exact ⟨_, scan_single rfl rfl _, rfl, (h rest hr).space hws hne⟩

theorem Lexes.member {k key text : Str} {ts : List Token} (h : Lexes text ts)
    (hk : dumpEscaped k = some key) : Lexes (34 :: (key ++ 34 :: text)) (valueString k :: ts) := by
  intro rest hr
  simp only [List.cons_append, List.append_assoc]
  exact ⟨_, scan_quote hk _, rfl, h rest hr⟩

/-- The elements or members between two brackets. -/
theorem Lexes.container {text : Str} {ts : List Token} {opening closing : UInt8} {o c : Token}
    (l : Layout) (width : ℕ) (ho : single opening = some o ∧ isSpace opening = false ∧ o.isLast = false)
    (hc : single closing = some c ∧ isSpace closing = false ∧ c.isLast = false)
    (hclosing : closing = 93 ∨ closing = 125) (hne : ts ≠ []) (h : Lexes text ts) :
    Lexes (opening :: l.newline ++ text ++ l.newline ++ l.indent width ++ [closing]) (o :: ts ++ [c]) := by
  intro rest _
  have hclose : Reads (l.newline ++ (l.indent width ++ closing :: rest)) [c] rest := by
    refine ⟨rest, ?_, hc.2.2, rfl⟩
    rw [scan_space (isSpace_newline l), scan_space (isSpace_indent l width), scan_single hc.2.1 hc.1]
  have hinner := (h _ (delimited_closing l width hclosing rest)).space (isSpace_newline l) hne
  simp only [List.cons_append, List.append_assoc, List.nil_append]
  exact ⟨_, scan_single ho.2.1 ho.1 _, ho.2.2, hinner.append hclose⟩

/-- An element and those that follow it. -/
theorem Lexes.element {text more : Str} {ts us : List Token} {l : Layout} (last : Bool)
    (h : Lexes text ts) (hmore : last = false → Lexes more us ∧ us ≠ []) (hlast : last = true → more = []) :
    Lexes (text ++ (if last then [] else l.separator) ++ more)
      (ts ++ if last then [] else valueSeparator :: us) := by
  intro rest hr
  cases last with
  | true =>
      simp only [if_true, List.append_nil, hlast rfl]
      exact h rest hr
  | false =>
      obtain ⟨hlex, hne⟩ := hmore rfl
      simp only [Bool.false_eq_true, if_false, Layout.separator, List.append_assoc, List.cons_append]
      refine (h _ (delimited_cons (.inl rfl) _)).append ⟨_, scan_single rfl rfl _, rfl, ?_⟩
      exact (hlex rest hr).space (isSpace_newline l) hne

section
variable {grisu : Grisu} {l : Layout}

mutual
theorem lexes_dump (hg : grisu.ReadsBack) : ∀ (j : Json) (width : ℕ) (t : Str), dump grisu l width j = some t →
    j.wellFormed = true → Lexes t (rawOf j).tokens
  | .null, width, t, h, _ => by
      cases h
      exact Lexes.token rfl fun rest _ => rfl
  | .bool b, width, t, h, _ => by
      cases h
      cases b <;> exact Lexes.token rfl fun rest _ => rfl
  | .int n, width, t, h, hw => by
      cases h
      simp only [Json.wellFormed, Json.all, Json.wellFormedNode, decide_eq_true_eq] at hw
      rw [dumpInteger_eq rfl hw.1 hw.2]
      refine Lexes.token ?_ fun rest hr => scan_integerText hw.1 hw.2 hr
      unfold integerToken
      split_ifs <;> rfl
  | .float bits, width, t, h, _ => by
      cases h
      unfold dumpFloat rawOf
      split_ifs with hf
      · exact Lexes.token rfl fun rest hr => scan_toChars hg hf hr
      · exact Lexes.token rfl fun rest _ => rfl
  | .str s, width, t, h, _ => by
      obtain ⟨u, hu, rfl⟩ := Option.map_eq_some_iff.mp h
      refine Lexes.token rfl fun rest _ => ?_
      rw [List.cons_append, List.cons_append, List.append_assoc]
      exact scan_quote hu rest
  | .arr [], width, t, h, _ => by
      cases h
      exact fun rest _ => ⟨_, rfl, rfl, _, rfl, rfl, rfl⟩
  | .arr (x :: xs), width, t, h, hw => by
      obtain ⟨u, hu, rfl⟩ := Option.map_eq_some_iff.mp h
      simp only [Json.wellFormed, Json.all, Bool.and_eq_true] at hw
      have helements := lexes_elements hg (x :: xs) _ u hu hw.2
      exact helements.container l width ⟨rfl, rfl, rfl⟩ ⟨rfl, rfl, rfl⟩ (.inl rfl)
        (Raw.elementTokens_ne_nil (rawOf x) (rawsOf xs))
  | .obj [], width, t, h, _ => by
      cases h
      exact fun rest _ => ⟨_, rfl, rfl, _, rfl, rfl, rfl⟩
  | .obj (m :: ms), width, t, h, hw => by
      obtain ⟨u, hu, rfl⟩ := Option.map_eq_some_iff.mp h
      simp only [Json.wellFormed, Json.all, Bool.and_eq_true] at hw
      have hmembers := lexes_members hg (m :: ms) _ u hu hw.2
      exact hmembers.container l width ⟨rfl, rfl, rfl⟩ ⟨rfl, rfl, rfl⟩ (.inr rfl)
        (by simp [rawMembersOf, Raw.memberTokens])

theorem lexes_elements (hg : grisu.ReadsBack) : ∀ (xs : List Json) (width : ℕ) (t : Str),
    dumpElements grisu l width xs = some t → Json.allList Json.wellFormedNode xs = true →
    Lexes t (Raw.elementTokens (rawsOf xs))
  | [], width, t, h, _ => by
      cases h
      exact fun rest _ => rfl
  | x :: xs, width, t, h, hw => by
      rw [dumpElements] at h
      obtain ⟨u, hu, h⟩ := Option.bind_eq_some_iff.mp h
      obtain ⟨more, hmore, rfl⟩ := Option.map_eq_some_iff.mp h
      simp only [Json.allList, Bool.and_eq_true] at hw
      have hrest := lexes_elements hg xs width more hmore hw.2
      have helement := (lexes_dump hg x width u hu hw.1).indented (l := l) (rawOf x).tokens_ne_nil width
      rw [rawsOf, Raw.elementTokens]
      cases xs with
      | nil => exact helement.element true (by simp) fun _ => (Option.some.inj hmore).symm
      | cons y ys => exact helement.element false (fun _ => ⟨hrest, Raw.elementTokens_ne_nil _ _⟩) (by simp)

theorem lexes_members (hg : grisu.ReadsBack) : ∀ (xs : List (Str × Json)) (width : ℕ) (t : Str),
    dumpMembers grisu l width xs = some t → Json.allMembers Json.wellFormedNode xs = true →
    Lexes t (Raw.memberTokens (rawMembersOf xs))
  | [], width, t, h, _ => by
      cases h
      exact fun rest _ => rfl
  | (k, x) :: xs, width, t, h, hw => by
      rw [dumpMembers] at h
      obtain ⟨key, hkey, h⟩ := Option.bind_eq_some_iff.mp h
      obtain ⟨u, hu, h⟩ := Option.bind_eq_some_iff.mp h
      obtain ⟨more, hmore, rfl⟩ := Option.map_eq_some_iff.mp h
      simp only [Json.allMembers, Bool.and_eq_true] at hw
      have hrest := lexes_members hg xs width more hmore hw.2
      have hmember : Lexes (l.indent width ++ 34 :: key ++ 34 :: l.colon ++ u)
          (valueString k :: nameSeparator :: (rawOf x).tokens) := by
        have hpair := ((lexes_dump hg x width u hu hw.1).colon (l := l) (rawOf x).tokens_ne_nil).member hkey
        have hindented := hpair.indented (l := l) (by simp) width
        simpa using hindented
      rw [rawMembersOf, Raw.memberTokens]
      cases xs with
      | nil => exact hmember.element true (by simp) fun _ => (Option.some.inj hmore).symm
      | cons y ys =>
          exact hmember.element false (fun _ => ⟨hrest, by simp [rawMembersOf, Raw.memberTokens]⟩) (by simp)
end

/-- What is written is read again, in every layout. -/
theorem parse_of_dump (hg : grisu.ReadsBack) {j : Json} {t : Str} (h : dump grisu l 0 j = some t)
    (hw : j.wellFormed = true) :
    parse t = some j.written := by
  have hreads := lexes_dump hg j 0 t h hw [] (by simp [Delimited])
  rw [List.append_nil] at hreads
  have htokens := tokens_of_reads (rawOf j).tokens_ne_nil hreads rfl
  exact (parseTokens_iff _ _).mpr ⟨rawOf j, htokens, value_rawOf j hw⟩

end

end JsonText
end LynneSocial
