import Mathlib.Algebra.Group.Int.Defs
import Mathlib.Algebra.Group.Nat.Defs
import Mathlib.Data.List.AList

/-!
# Standard library types

A `std::string` is a list of bytes; nothing in the program asks for more. A
`std::map` is an association list without duplicate keys. Addresses of heap
objects are indices into a list of everything that was ever allocated, so that
an object keeps its record after `delete`.
-/
namespace LynneSocial

/-- `std::string`. -/
abbrev Str := List UInt8

/-- The bytes of a literal of the source. -/
def str (s : String) : Str := s.toUTF8.data.toList

/-- `std::map<κ, ν>`. -/
abbrev StdMap (κ ν : Type) := AList fun _ : κ => ν

namespace StdMap
variable {κ ν : Type} [DecidableEq κ]

theorem lookup_insert_eq_ite (m : StdMap κ ν) (a b : κ) (v : ν) :
    AList.lookup a (AList.insert b v m) = if a = b then some v else AList.lookup a m := by
  by_cases h : a = b
  · subst h; simp
  · simp [h]

theorem lookup_erase_eq_ite (m : StdMap κ ν) (a b : κ) :
    AList.lookup a (AList.erase b m) = if a = b then none else AList.lookup a m := by
  by_cases h : a = b
  · subst h; simp
  · simp [h]

theorem mem_entries_iff (m : StdMap κ ν) (a : κ) (v : ν) :
    (⟨a, v⟩ : Sigma fun _ : κ => ν) ∈ m.entries ↔ AList.lookup a m = some v :=
  AList.mem_lookup_iff.symm

end StdMap

end LynneSocial
