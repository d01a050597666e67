import LynneSocial.Common.JsonDump

/-!
# Reading JSON: tokens

The lexer of the JSON library. A scanner that reads byte after byte is a machine
over the places of its code where it calls `get()`; the end of the input is one
more character, which every such place treats as one that does not fit.

A token that ends the parse, good or bad, ends the list of tokens: nothing calls
the lexer behind it.
-/
namespace LynneSocial
namespace JsonText

inductive Token where
  | literalTrue
  | literalFalse
  | literalNull
  | valueString (s : Str)
  | valueUnsigned (n : ℕ)
  | valueInteger (n : ℤ)
  | valueFloat (bits : UInt64)
  | beginArray
  | beginObject
  | endArray
  | endObject
  | nameSeparator
  | valueSeparator
  | parseError
  | endOfInput
deriving DecidableEq

/-- Where `scan_string` reads its next byte. -/
inductive StringPoint where
  | chars
  | escape
  /-- `get_codepoint` with `left` digits to come, behind the surrogate `high` if there is one. -/
  | codepoint (left code : ℕ) (high : Option ℕ)
  /-- The backslash of the second surrogate. -/
  | lowEscape (high : ℕ)
  | lowU (high : ℕ)
  /-- `next_byte_in_range`. -/
  | range (rs : List Utf8.Range)
deriving DecidableEq

/-- The string ends, or it goes on and `added` has got into the token buffer. -/
inductive Scanned where
  | done
  | go (next : StringPoint) (added : Str)
deriving DecidableEq

/-- The digit values of `get_codepoint`. -/
def hexValue (c : UInt8) : Option ℕ :=
  if 48 ≤ c ∧ c ≤ 57 then some (c.toNat - 0x30)
  else if 65 ≤ c ∧ c ≤ 70 then some (c.toNat - 0x37)
  else if 97 ≤ c ∧ c ≤ 102 then some (c.toNat - 0x57)
  else none

/-- What `scan_string` does with a code point: surrogates come in pairs, high before low. -/
def addCodepoint (codepoint : ℕ) : Option ℕ → Option Scanned
  | some high =>
    if 0xDC00 ≤ codepoint ∧ codepoint ≤ 0xDFFF then
      some (.go .chars (Utf8.encode (high * 1024 + codepoint - 0x35FDC00)))
    else none
  | none =>
    if 0xD800 ≤ codepoint ∧ codepoint ≤ 0xDBFF then some (.go (.lowEscape codepoint) [])
    else if 0xDC00 ≤ codepoint ∧ codepoint ≤ 0xDFFF then none
    else some (.go .chars (Utf8.encode codepoint))

/-- `none` is a parse error. -/
def StringPoint.get : StringPoint → UInt8 → Option Scanned
  | .chars, c =>
    if c = 34 then some .done
    else if c = 92 then some (.go .escape [])
    else if c < 0x20 then none
    else match Utf8.owed c with
      | some [] => some (.go .chars [c])
      | some rs => some (.go (.range rs) [c])
      | none => none
  | .escape, c =>
    if c = 34 then some (.go .chars [34])
    else if c = 92 then some (.go .chars [92])
    else if c = 47 then some (.go .chars [47])
    else if c = 98 then some (.go .chars [8])
    else if c = 102 then some (.go .chars [12])
    else if c = 110 then some (.go .chars [10])
    else if c = 114 then some (.go .chars [13])
    else if c = 116 then some (.go .chars [9])
    else if c = 117 then some (.go (.codepoint 4 0 none) [])
    else none
  | .codepoint left code high, c =>
    (hexValue c).bind fun d =>
      if left ≤ 1 then addCodepoint (code * 16 + d) high
      else some (.go (.codepoint (left - 1) (code * 16 + d) high) [])
  | .lowEscape high, c => if c = 92 then some (.go (.lowU high) []) else none
  | .lowU high, c => if c = 117 then some (.go (.codepoint 4 0 (some high)) []) else none
  | .range rs, c =>
    (Utf8.step rs c).map fun rs' => if rs' = [] then .go .chars [c] else .go (.range rs') [c]

/-- `scan_string` behind the opening quote: the string and what follows its closing quote. -/
def scanString (p : StringPoint) (buffer : Str) : Str → Option (Str × Str)
  | [] => none
  | c :: s =>
    match p.get c with
    | none => none
    | some .done => some (buffer, s)
    | some (.go p' added) => scanString p' (buffer ++ added) s

/-- The labels of `scan_number`. -/
inductive NumberPoint where
  | minus
  | zero
  | any1
  | decimal1
  | decimal2
  | exponent
  | sign
  | any2
deriving DecidableEq

inductive NumberType where
  | unsigned
  | integer
  | float
deriving DecidableEq

def isDigit (c : UInt8) : Bool := 48 ≤ c && c ≤ 57

namespace NumberPoint

/-- The label that is next; `none` is the `default` of the switch. -/
def get (c : UInt8) : NumberPoint → Option NumberPoint
  | minus => if c = 48 then some zero else if isDigit c then some any1 else none
  | zero => if c = 46 then some decimal1 else if c = 101 ∨ c = 69 then some exponent else none
  | any1 =>
    if isDigit c then some any1
    else if c = 46 then some decimal1
    else if c = 101 ∨ c = 69 then some exponent
    else none
  | decimal1 => if isDigit c then some decimal2 else none
  | decimal2 =>
    if isDigit c then some decimal2 else if c = 101 ∨ c = 69 then some exponent else none
  | exponent => if c = 43 ∨ c = 45 then some sign else if isDigit c then some any2 else none
  | sign => if isDigit c then some any2 else none
  | any2 => if isDigit c then some any2 else none

/-- Whether `default` goes to `scan_number_done`; otherwise it is a parse error. -/
def isDone : NumberPoint → Bool
  | zero | any1 | decimal2 | any2 => true
  | minus | decimal1 | exponent | sign => false

/-- What a label assigns to `number_type`. -/
def assign (type : NumberType) : NumberPoint → NumberType
  | minus => .integer
  | decimal1 | exponent => .float
  | zero | any1 | decimal2 | sign | any2 => type

/-- The first character of a number. -/
def first (c : UInt8) : Option NumberPoint :=
  if c = 45 then some minus else if c = 48 then some zero else if isDigit c then some any1 else none

end NumberPoint

/-- The value of an exponent with its sign. -/
def exponentValue : Str → ℤ
  | 45 :: ds => -Decimal.value ds
  | 43 :: ds => Decimal.value ds
  | ds => Decimal.value ds

/-- The number that a text without a sign stands for. -/
def decimalValue (digits : Str) : ℚ :=
  let whole := digits.takeWhile isDigit
  let behind := digits.dropWhile isDigit
  let point := behind.head? = some 46
  let fraction := if point then (behind.drop 1).takeWhile isDigit else []
  let exponent := if point then (behind.drop 1).dropWhile isDigit else behind
  Decimal.value (whole ++ fraction) * 10 ^ (exponentValue (exponent.drop 1) - fraction.length)

/-- `strtod` of a text that `scan_number` has checked: the nearest number, infinite if it is too
large. -/
def strtod (buffer : Str) : UInt64 :=
  if buffer.head? = some 45 then .ofNat (2 ^ 63 + Binary64.nearest (decimalValue (buffer.drop 1)))
  else .ofNat (Binary64.nearest (decimalValue buffer))

/-- `scan_number_done`: an integer that does not fit is read as a floating-point number. -/
def convert (buffer : Str) : NumberType → Token
  | .unsigned =>
    let x := Decimal.value buffer
    if x < 2 ^ 64 then .valueUnsigned x else .valueFloat (strtod buffer)
  | .integer =>
    let x : ℤ := -Decimal.value (buffer.drop 1)
    if -2 ^ 63 ≤ x then .valueInteger x else .valueFloat (strtod buffer)
  | .float => .valueFloat (strtod buffer)

/-- `scan_number` at a label; the character that ends the number is read again. -/
def scanNumber (p : NumberPoint) (type : NumberType) (buffer : Str) : Str → Token × Str
  | [] => (if p.isDone then convert buffer type else .parseError, [])
  | c :: s =>
    match p.get c with
    | some p' => scanNumber p' (p'.assign type) (buffer ++ [c]) s
    | none => if p.isDone then (convert buffer type, c :: s) else (.parseError, s)

/-- `scan_literal` behind the first character. -/
def scanLiteral (text : Str) (token : Token) (s : Str) : Token × Str :=
  if text <+: s then (token, s.drop text.length) else (.parseError, s)

def isSpace (c : UInt8) : Bool := c = 32 ∨ c = 9 ∨ c = 10 ∨ c = 13

/-- The characters that are tokens, with the null byte that ends a string literal. -/
def single (c : UInt8) : Option Token :=
  if c = 91 then some .beginArray
  else if c = 93 then some .endArray
  else if c = 123 then some .beginObject
  else if c = 125 then some .endObject
  else if c = 58 then some .nameSeparator
  else if c = 44 then some .valueSeparator
  else if c = 0 then some .endOfInput
  else none

/-- The rest of a literal and its token. -/
def literal (c : UInt8) : Option (Str × Token) :=
  if c = 116 then some (str "rue", .literalTrue)
  else if c = 102 then some (str "alse", .literalFalse)
  else if c = 110 then some (str "ull", .literalNull)
  else none

/-- The switch of `scan`, by the kinds of its cases. -/
def scanFrom (c : UInt8) (s : Str) : Token × Str :=
  match single c with
  | some t => (t, s)
  | none =>
    match literal c with
    | some (text, t) => scanLiteral text t s
    | none =>
      if c = 34 then
        match scanString .chars [] s with
        | some (value, s) => (.valueString value, s)
        | none => (.parseError, s)
      else
        match NumberPoint.first c with
        | some p => scanNumber p (p.assign .unsigned) [c] s
        | none => (.parseError, s)

def scan (s : Str) : Token × Str :=
  match s.dropWhile isSpace with
  | [] => (.endOfInput, [])
  | c :: s => scanFrom c s

/-- `skip_bom`; `none` is a parse error. -/
def skipBom : Str → Option Str
  | 0xEF :: s => if [0xBB, 0xBF] <+: s then some (s.drop 2) else none
  | s => some s

def Token.isLast (t : Token) : Bool := t = .parseError || t = .endOfInput

/-- The tokens of a text with fewer than `fuel` bytes. -/
def tokensFrom : ℕ → Str → List Token
  | 0, _ => []
  | fuel + 1, s => if (scan s).1.isLast then [(scan s).1] else (scan s).1 :: tokensFrom fuel (scan s).2

def tokens (text : Str) : List Token :=
  match skipBom text with
  | some s => tokensFrom (s.length + 1) s
  | none => [.parseError]

/-- A string is UTF-8, an integer fits into 64 bits. -/
def Token.Ok : Token → Prop
  | .valueString s => Utf8.Valid s
  | .valueUnsigned n => n < 2 ^ 64
  | .valueInteger n => -2 ^ 63 ≤ n ∧ n ≤ 0
  | _ => True

namespace StringPoint

/-- What the token buffer holds at a point: UTF-8, up to a character that is not complete. -/
def Holds (buffer : Str) : StringPoint → Prop
  | chars | escape => Utf8.Valid buffer
  | codepoint left code high => Utf8.Valid buffer ∧ 1 ≤ left ∧ left ≤ 4 ∧ code < 16 ^ (4 - left) ∧
      ∀ h ∈ high, 0xD800 ≤ h ∧ h ≤ 0xDBFF
  | lowEscape high | lowU high => Utf8.Valid buffer ∧ 0xD800 ≤ high ∧ high ≤ 0xDBFF
  | range rs => Utf8.run [] buffer = some rs

variable {buffer added : Str} {p p' : StringPoint} {c : UInt8}

theorem hexValue_lt {d : ℕ} (h : hexValue c = some d) : d < 16 := by
  unfold hexValue at h
  simp only [UInt8.le_iff_toNat_le] at h
  split_ifs at h with h₁ h₂ h₃
  · cases h
    have := h₁.2
    simp at this
    omega
  · cases h
    have := h₂.2
    simp at this
    omega
  · cases h
    have := h₃.2
    simp at this
    omega

theorem addCodepoint_holds {code : ℕ} {high : Option ℕ} (hb : Utf8.Valid buffer) (hc : code < 0x10000)
    (hh : ∀ h ∈ high, 0xD800 ≤ h ∧ h ≤ 0xDBFF) (h : addCodepoint code high = some (.go p' added)) :
    p'.Holds (buffer ++ added) := by
  cases high with
  | some high =>
      obtain ⟨hl, hu⟩ := hh high rfl
      simp only [addCodepoint, Option.ite_none_right_eq_some, Option.some.injEq, Scanned.go.injEq] at h
      obtain ⟨hcode, rfl, rfl⟩ := h
      exact hb.append (Utf8.encode_valid (.inr ⟨by omega, by omega⟩))
  | none =>
      simp only [addCodepoint] at h
      split_ifs at h with h₁ h₂
      · cases h
        exact ⟨by simpa using hb, h₁⟩
      · cases h
        refine hb.append (Utf8.encode_valid ?_)
        rcases Nat.lt_or_ge code 0xD800 with hlt | hge
        · exact .inl hlt
        · exact .inr ⟨by omega, by omega⟩

theorem get_holds (hp : p.Holds buffer) (h : p.get c = some (.go p' added)) :
    p'.Holds (buffer ++ added) := by
  cases p with
  | chars =>
      have hrun : Utf8.run [] (buffer ++ [c]) = Utf8.owed c := by
        rw [Utf8.run_append, hp]
        exact Utf8.run_singleton [] c
      simp only [get] at h
      split_ifs at h
      · cases h
      · cases h
        simpa [Holds] using hp
      · split at h
        · rename_i ho
          cases h
          exact hrun.trans ho
        · rename_i ho
          cases h
          exact hrun.trans ho
        · cases h
  | escape =>
      simp only [get] at h
      split_ifs at h
      all_goals cases h
      all_goals first
        | exact ⟨by simpa [Holds] using hp, by omega, by omega, by simp, by simp⟩
        | refine Utf8.Valid.append hp ?_
          decide
  | codepoint left code high =>
      obtain ⟨hb, h1, h4, hcode, hh⟩ := hp
      obtain ⟨d, hd, hgo⟩ := Option.bind_eq_some_iff.mp h
      have hlt := hexValue_lt hd
      split_ifs at hgo with hl
      · obtain rfl : left = 1 := by omega
        exact addCodepoint_holds hb (by omega) hh hgo
      · cases hgo
        refine ⟨by simpa using hb, by omega, by omega, ?_, hh⟩
        have hpow : 16 ^ (4 - (left - 1)) = 16 ^ (4 - left) * 16 := by
          rw [← pow_succ]
          congr 1
          omega
        omega
  | lowEscape high =>
      simp only [get, Option.ite_none_right_eq_some, Option.some.injEq, Scanned.go.injEq] at h
      obtain ⟨-, rfl, rfl⟩ := h
      exact ⟨by simpa using hp.1, hp.2⟩
  | lowU high =>
      simp only [get, Option.ite_none_right_eq_some, Option.some.injEq, Scanned.go.injEq] at h
      obtain ⟨-, rfl, rfl⟩ := h
      refine ⟨by simpa using hp.1, by omega, by omega, by simp, ?_⟩
      rintro _ ⟨⟩
      exact hp.2
  | range rs =>
      obtain ⟨rs', hrs, hgo⟩ := Option.map_eq_some_iff.mp h
      have hrun : Utf8.run [] (buffer ++ [c]) = some rs' := by
        rw [Utf8.run_append, hp]
        exact (Utf8.run_singleton rs c).trans hrs
      split_ifs at hgo with hnil
      · cases hgo
        exact hrun.trans (congrArg some hnil)
      · cases hgo
        exact hrun

/-- Only a quote between two characters ends a string. -/
theorem get_done (h : p.get c = some .done) : p = .chars := by
  cases p with
  | chars => rfl
  | escape =>
      simp only [get] at h
      split_ifs at h <;> cases h
  | codepoint left code high =>
      obtain ⟨d, -, hdone⟩ := Option.bind_eq_some_iff.mp h
      split_ifs at hdone
      · unfold addCodepoint at hdone
        split at hdone <;> split_ifs at hdone <;> cases hdone
      · cases hdone
  | lowEscape high | lowU high =>
      simp [get] at h
  | range rs =>
      obtain ⟨rs', -, hdone⟩ := Option.map_eq_some_iff.mp h
      split_ifs at hdone

end StringPoint

theorem scanString_valid {p : StringPoint} {buffer s value rest : Str} (hp : p.Holds buffer)
    (h : scanString p buffer s = some (value, rest)) : Utf8.Valid value := by
  induction s generalizing p buffer with
  | nil => cases h
  | cons c s ih =>
      simp only [scanString] at h
      split at h
      · cases h
      · rename_i hget
        cases h
        obtain rfl := StringPoint.get_done hget
        exact hp
      · rename_i p' added hget
        exact ih (StringPoint.get_holds hp hget) h

theorem convert_ok (buffer : Str) (type : NumberType) : (convert buffer type).Ok := by
  cases type with
  | unsigned =>
      simp only [convert]
      split_ifs with h
      · exact h
      · trivial
  | integer =>
      simp only [convert]
      split_ifs with h
      · exact ⟨h, by omega⟩
      · trivial
  | float => trivial

theorem scanNumber_ok (p : NumberPoint) (type : NumberType) (buffer s : Str) :
    (scanNumber p type buffer s).1.Ok := by
  induction s generalizing p type buffer with
  | nil =>
      simp only [scanNumber]
      split_ifs
      · exact convert_ok buffer type
      · trivial
  | cons c s ih =>
      simp only [scanNumber]
      split
      · exact ih ..
      · split_ifs
        · exact convert_ok buffer type
        · trivial

theorem scanLiteral_ok {text : Str} {token : Token} (h : token.Ok) (s : Str) :
    (scanLiteral text token s).1.Ok := by
  unfold scanLiteral
  split_ifs
  · exact h
  · trivial

theorem scanFrom_ok (c : UInt8) (s : Str) : (scanFrom c s).1.Ok := by
  unfold scanFrom
  split
  · rename_i t ht
    unfold single at ht
    split_ifs at ht <;> cases ht <;> trivial
  · split
    · rename_i text t ht
      refine scanLiteral_ok ?_ s
      unfold literal at ht
      split_ifs at ht <;> cases ht <;> trivial
    · split_ifs
      · split
        · rename_i h
          exact scanString_valid (show StringPoint.Holds [] .chars from rfl) h
        · trivial
      · split
        · exact scanNumber_ok ..
        · trivial

theorem scan_ok (s : Str) : (scan s).1.Ok := by
  unfold scan
  split
  · trivial
  · exact scanFrom_ok ..

theorem tokensFrom_ok {fuel : ℕ} {s : Str} : ∀ t ∈ tokensFrom fuel s, t.Ok := by
  induction fuel generalizing s with
  | zero => simp [tokensFrom]
  | succ fuel ih =>
      rw [tokensFrom]
      split_ifs
      · simpa using scan_ok s
      · exact List.forall_mem_cons.mpr ⟨scan_ok s, ih⟩

theorem tokens_ok {text : Str} : ∀ t ∈ tokens text, t.Ok := by
  unfold tokens
  split
  · exact tokensFrom_ok
  · simp [Token.Ok]

theorem scanString_length {p : StringPoint} {buffer s value rest : Str}
    (h : scanString p buffer s = some (value, rest)) : rest.length < s.length := by
  induction s generalizing p buffer with
  | nil => cases h
  | cons c s ih =>
      simp only [scanString] at h
      split at h
      · cases h
      · cases h
        simp
      · have := ih h
        rw [List.length_cons]
        omega

theorem scanNumber_length (p : NumberPoint) (type : NumberType) (buffer s : Str) :
    (scanNumber p type buffer s).2.length ≤ s.length := by
  induction s generalizing p type buffer with
  | nil => simp [scanNumber]
  | cons c s ih =>
      simp only [scanNumber]
      split
      · exact (ih ..).trans (by simp)
      · split_ifs <;> simp

theorem scanLiteral_length (text : Str) (token : Token) (s : Str) :
    (scanLiteral text token s).2.length ≤ s.length := by
  unfold scanLiteral
  split_ifs <;> simp

theorem scanFrom_length (c : UInt8) (s : Str) (h : (scanFrom c s).1.isLast = false) :
    (scanFrom c s).2.length ≤ s.length := by
  revert h
  unfold scanFrom
  split
  · exact fun _ => le_rfl
  · split
    · exact fun _ => scanLiteral_length ..
    · split_ifs
      · split
        · rename_i h
          exact fun _ => (scanString_length h).le
        · simp [Token.isLast]
      · split
        · exact fun _ => scanNumber_length ..
        · simp [Token.isLast]

/-- Every token but the last has at least one byte. -/
theorem scan_length {s : Str} (h : (scan s).1.isLast = false) : (scan s).2.length < s.length := by
  have hspace : (s.dropWhile isSpace).length ≤ s.length := (List.dropWhile_sublist _).length_le
  revert h
  unfold scan
  split
  · simp [Token.isLast]
  · rename_i c r hs
    rw [hs, List.length_cons] at hspace
    exact fun h => (scanFrom_length c r h).trans_lt hspace

end JsonText
end LynneSocial
