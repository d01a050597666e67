import LynneSocial.Common.Json

/-!
# Serialising JSON

`dump` and `parse` of the JSON library, as a parameter with the laws the program
relies on: what was dumped parses to the value that was written, and a text
without indentation stays on one line.
-/
namespace LynneSocial

structure JsonCodec where
  /-- `j.dump()`; `none` is `type_error.316`. -/
  dump : Json → Option Str
  /-- `j.dump(2)`. -/
  dumpIndented : Json → Option Str
  /-- `json::parse`; `none` is a `parse_error`. -/
  parse : Str → Option Json

abbrev newline : UInt8 := 10

namespace JsonCodec

structure Lawful (c : JsonCodec) : Prop where
  dump_isSome : ∀ j : Json, j.dumpable = true → (c.dump j).isSome = true
  dumpIndented_isSome : ∀ j : Json, j.dumpable = true → (c.dumpIndented j).isSome = true
  parse_dump : ∀ (j : Json) (t : Str), j.wellFormed = true → c.dump j = some t →
    c.parse t = some j.written
  parse_dumpIndented : ∀ (j : Json) (t : Str), j.wellFormed = true → c.dumpIndented j = some t →
    c.parse t = some j.written
  /-- A dumped value is one line that is not empty. -/
  line : ∀ (j : Json) (t : Str), c.dump j = some t → t ≠ [] ∧ newline ∉ t
  parse_nil : c.parse [] = none

/-- What is dumped with an indentation parses to itself if its numbers are finite, and no proper beginning
of the text of an object parses: its last bracket is missing. -/
structure Exact (c : JsonCodec) : Prop where
  dumps : ∀ j : Json, j.dumpable = true → (c.dumpIndented j).isSome = true
  parses : ∀ (j : Json) (t : Str), j.wellFormed = true → j.finite = true → c.dumpIndented j = some t →
    c.parse t = some j
  whole : ∀ (members : List (Str × Json)) (t : Str), (Json.obj members).wellFormed = true →
    c.dumpIndented (.obj members) = some t →
    ∀ n < t.length, c.parse (t.take n) = none
  parse_nil : c.parse [] = none

/-- `dump()` throws for a string that is not UTF-8, and for nothing else. -/
def Strict (c : JsonCodec) : Prop := ∀ j : Json, (c.dump j).isSome = j.dumpable

end JsonCodec

end LynneSocial
