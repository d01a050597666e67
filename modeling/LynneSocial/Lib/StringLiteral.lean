import Mathlib.Data.List.Basic
import Mathlib.Data.UInt
import Mathlib.Tactic.Common

/-!
# Single-quoted string literals of ECMAScript

The grammar of a single-quoted literal (2019 and later, without the legacy octal
escapes), read one byte after the other from UTF-8 text that starts behind the
opening quote. The value is UTF-8 as well; an escaped surrogate is its three
bytes. Raw line separators U+2028 and U+2029 are characters like any other; only
behind a backslash are they the end of a line.
-/
namespace StringLiteral

abbrev Text := List UInt8

def quote : UInt8 := 39
def backslash : UInt8 := 92
def lineFeed : UInt8 := 10
def carriageReturn : UInt8 := 13

/-- Where the reader stands between two bytes. -/
inductive Position where
  | chars
  /-- Behind a backslash. -/
  | escape
  /-- Behind `\0`, which no digit may follow. -/
  | zero
  /-- Behind a backslash and a carriage return, to which a line feed belongs. -/
  | carriage
  /-- Behind a backslash and the first one or two bytes of a line separator. -/
  | separator (second : Bool)
  | hex (left code : ℕ)
  | unicode
  | braces (code : Option ℕ)
deriving DecidableEq

/-- The literal ends, or it goes on. -/
inductive Outcome where
  | done
  | go (next : Position) (value : Text)

def hexDigit (c : UInt8) : Option ℕ :=
  if 48 ≤ c ∧ c ≤ 57 then some (c.toNat - 48)
  else if 65 ≤ c ∧ c ≤ 70 then some (c.toNat - 55)
  else if 97 ≤ c ∧ c ≤ 102 then some (c.toNat - 87)
  else none

def isDecimal (c : UInt8) : Bool := 48 ≤ c && c ≤ 57

/-- The UTF-8 form of a code point. -/
def utf8 (code : ℕ) : Text :=
  if code < 0x80 then [.ofNat code]
  else if code < 0x800 then [.ofNat (0xC0 + code / 64), .ofNat (0x80 + code % 64)]
  else if code < 0x10000 then
    [.ofNat (0xE0 + code / 4096), .ofNat (0x80 + code / 64 % 64), .ofNat (0x80 + code % 64)]
  else
    [.ofNat (0xF0 + code / 262144), .ofNat (0x80 + code / 4096 % 64), .ofNat (0x80 + code / 64 % 64),
      .ofNat (0x80 + code % 64)]

/-- A byte that stands for itself, ends the literal or opens an escape. -/
def character (c : UInt8) : Option Outcome :=
  if c = quote then some .done
  else if c = backslash then some (.go .escape [])
  else if c = lineFeed ∨ c = carriageReturn then none
  else some (.go .chars [c])

/-- The byte behind a backslash. -/
def escaped (c : UInt8) : Option Outcome :=
  if c = 98 then some (.go .chars [8])
  else if c = 116 then some (.go .chars [9])
  else if c = 110 then some (.go .chars [10])
  else if c = 118 then some (.go .chars [11])
  else if c = 102 then some (.go .chars [12])
  else if c = 114 then some (.go .chars [13])
  else if c = 120 then some (.go (.hex 2 0) [])
  else if c = 117 then some (.go .unicode [])
  else if c = 48 then some (.go .zero [0])
  else if isDecimal c then none
  else if c = lineFeed then some (.go .chars [])
  else if c = carriageReturn then some (.go .carriage [])
  else if c = 0xE2 then some (.go (.separator false) [])
  else some (.go .chars [c])

/-- A byte inside a character of more than one; anything else there is not UTF-8. -/
def isContinuation (c : UInt8) : Bool := 0x80 ≤ c && c < 0xC0

/-- One more digit of an escape with `left` digits to come. -/
def hexStep (left code : ℕ) (c : UInt8) : Option Outcome :=
  (hexDigit c).map fun d =>
    if left ≤ 1 then .go .chars (utf8 (16 * code + d)) else .go (.hex (left - 1) (16 * code + d)) []

def step : Position → UInt8 → Option Outcome
  | .chars, c => character c
  | .escape, c => escaped c
  | .zero, c => if isDecimal c then none else character c
  | .carriage, c => if c = lineFeed then some (.go .chars []) else character c
  | .separator false, c =>
    if c = 0x80 then some (.go (.separator true) [])
    else if isContinuation c then some (.go .chars [0xE2, c]) else none
  | .separator true, c =>
    if c = 0xA8 ∨ c = 0xA9 then some (.go .chars [])
    else if isContinuation c then some (.go .chars [0xE2, 0x80, c]) else none
  | .hex left code, c => hexStep left code c
  | .unicode, c => if c = 123 then some (.go (.braces none) []) else hexStep 4 0 c
  | .braces code, c =>
    if c = 125 then code.map fun n => .go .chars (utf8 n)
    else (hexDigit c).bind fun d =>
      let n := 16 * code.getD 0 + d
      if n ≤ 0x10FFFF then some (.go (.braces (some n)) []) else none

/-- The value of the literal and the text behind its closing quote. -/
def read : Position → Text → Option (Text × Text)
  | _, [] => none
  | p, c :: cs =>
    match step p c with
    | none => none
    | some .done => some ([], cs)
    | some (.go next value) => (read next cs).map fun r => (value ++ r.1, r.2)

/-- A piece of text between two characters of a literal, and what it adds to the value. -/
def Reads (text value : Text) : Prop :=
  ∀ rest, read .chars (text ++ rest) = (read .chars rest).map fun r => (value ++ r.1, r.2)

namespace Reads
variable {text value text' value' rest : Text} {c : UInt8}

theorem nil : Reads [] [] := fun rest => by simp

theorem append (h : Reads text value) (h' : Reads text' value') :
    Reads (text ++ text') (value ++ value') := by
  intro rest
  rw [List.append_assoc, h, h', Option.map_map]
  congr 1
  funext r
  simp

/-- An encoding character by character. -/
theorem flatMap {enc : UInt8 → Text} {s : Text} (h : ∀ c ∈ s, Reads (enc c) [c]) :
    Reads (s.flatMap enc) s := by
  induction s with
  | nil => exact nil
  | cons c s ih =>
      rw [List.forall_mem_cons] at h
      exact h.1.append (ih h.2)

theorem close (h : Reads text value) (rest : Text) :
    read .chars (text ++ quote :: rest) = some (value, rest) := by
  rw [h]
  simp [read, step, character]

/-- No literal goes over the end of a line. -/
theorem line_end (h : Reads text value) (hc : c = lineFeed ∨ c = carriageReturn) (rest : Text) :
    read .chars (text ++ c :: rest) = none := by
  rw [h]
  rcases hc with rfl | rfl <;> rfl

theorem char (hq : c ≠ quote) (hb : c ≠ backslash) (hl : c ≠ lineFeed) (hr : c ≠ carriageReturn) :
    Reads [c] [c] := by
  intro rest
  simp [read, step, character, hq, hb, hl, hr]

theorem escape (h : escaped c = some (.go .chars value)) : Reads [backslash, c] value := by
  intro rest
  have hb : character backslash = some (.go .escape []) := rfl
  simp [read, step, hb, h, Function.comp_def]

end Reads

end StringLiteral
