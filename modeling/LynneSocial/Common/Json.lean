import LynneSocial.Common.Std
import Mathlib.Data.Int.Basic

/-!
# JSON values

A `nlohmann::json` value is a tree over byte strings. An object keeps its
members as a list of pairs; `find?` reads the first member with a key, as a
`std::map` with unique keys does. Accessors that throw in the C++ code return
`none` here.
-/
namespace LynneSocial

/-- One more or one less continuation byte `80..BF`. -/
def isTail (b : UInt8) : Bool := 0x80 ≤ b && b ≤ 0xBF

/-- Well-formed UTF-8, the check `nlohmann::json::dump` makes on every string it
writes (`type_error.316` otherwise) and its lexer on every string it reads. -/
def validUtf8 : Str → Bool
  | [] => true
  | a :: bs =>
    if a < 0x80 then validUtf8 bs else
    match bs with
    | [] => false
    | b :: cs =>
      if 0xC2 ≤ a && a ≤ 0xDF then isTail b && validUtf8 cs else
      match cs with
      | [] => false
      | c :: ds =>
        if a == 0xE0 then 0xA0 ≤ b && b ≤ 0xBF && isTail c && validUtf8 ds
        else if a == 0xED then 0x80 ≤ b && b ≤ 0x9F && isTail c && validUtf8 ds
        else if 0xE1 ≤ a && a ≤ 0xEF then isTail b && isTail c && validUtf8 ds else
        match ds with
        | [] => false
        | d :: es =>
          if a == 0xF0 then 0x90 ≤ b && b ≤ 0xBF && isTail c && isTail d && validUtf8 es
          else if a == 0xF4 then 0x80 ≤ b && b ≤ 0x8F && isTail c && isTail d && validUtf8 es
          else 0xF1 ≤ a && a ≤ 0xF3 && isTail b && isTail c && isTail d && validUtf8 es

/-- `nlohmann::json`. A floating-point number is kept as its IEEE 754 bits. -/
inductive Json where
  | null
  | bool (b : Bool)
  | int (n : ℤ)
  | float (bits : UInt64)
  | str (s : Str)
  | arr (xs : List Json)
  | obj (members : List (Str × Json))

/-- `static_cast<int>` of an integer of any width. -/
def toInt32 (n : ℤ) : ℤ := (n + 2 ^ 31) % 2 ^ 32 - 2 ^ 31

/-- The integer part of a finite binary64 number. -/
def binary64Trunc (bits : UInt64) : ℤ :=
  let e := bits.toNat / 2 ^ 52 % 2 ^ 11
  let m := bits.toNat % 2 ^ 52 + if e = 0 then 0 else 2 ^ 52
  let a : ℕ := if 1075 ≤ e then m * 2 ^ (e - 1075) else m / 2 ^ (1075 - max e 1)
  if bits.toNat / 2 ^ 63 = 0 then a else -a

/-- `static_cast<int>` of a double; out of range is undefined in C++, and the
conversion instruction of the target then yields `INT_MIN`. -/
def floatToInt32 (bits : UInt64) : ℤ :=
  let n := binary64Trunc bits
  if -2 ^ 31 ≤ n ∧ n < 2 ^ 31 then n else -2 ^ 31

/-- `static_cast<double>` of an integer, rounded to nearest, ties to even; in binary64. A mantissa
that is rounded up to the next power of two carries into the exponent. -/
def binary64OfInt (n : ℤ) : UInt64 :=
  let a := n.natAbs
  let e := a.log2
  let m :=
    if e ≤ 52 then a * 2 ^ (52 - e)
    else
      let q := a / 2 ^ (e - 52)
      let r := a % 2 ^ (e - 52)
      if 2 ^ (e - 52) < 2 * r ∨ 2 ^ (e - 52) = 2 * r ∧ q % 2 = 1 then q + 1 else q
  let magnitude := if a = 0 then 0 else (1022 + e) * 2 ^ 52 + m
  .ofNat (if n < 0 then 2 ^ 63 + magnitude else magnitude)

namespace Json

mutual
def beq : Json → Json → Bool
  | null, null => true
  | bool a, bool b => a == b
  | int a, int b => a == b
  | float a, float b => a == b
  | str a, str b => a == b
  | arr xs, arr ys => beqList xs ys
  | obj ms, obj ns => beqMembers ms ns
  | _, _ => false

def beqList : List Json → List Json → Bool
  | [], [] => true
  | x :: xs, y :: ys => beq x y && beqList xs ys
  | _, _ => false

def beqMembers : List (Str × Json) → List (Str × Json) → Bool
  | [], [] => true
  | (k, x) :: ms, (l, y) :: ns => k == l && beq x y && beqMembers ms ns
  | _, _ => false
end

mutual
theorem beq_iff : ∀ x y : Json, beq x y = true ↔ x = y
  | null, y => by cases y <;> simp [beq]
  | bool a, y => by cases y <;> simp [beq]
  | int a, y => by cases y <;> simp [beq]
  | float a, y => by cases y <;> simp [beq]
  | str a, y => by cases y <;> simp [beq]
  | arr xs, y => by
      cases y with
      | arr ys => simp [beq, beqList_iff xs ys]
      | _ => simp [beq]
  | obj ms, y => by
      cases y with
      | obj ns => simp [beq, beqMembers_iff ms ns]
      | _ => simp [beq]

theorem beqList_iff : ∀ xs ys : List Json, beqList xs ys = true ↔ xs = ys
  | [], ys => by cases ys <;> simp [beqList]
  | x :: xs, [] => by simp [beqList]
  | x :: xs, y :: ys => by simp [beqList, beq_iff x y, beqList_iff xs ys]

theorem beqMembers_iff : ∀ ms ns : List (Str × Json), beqMembers ms ns = true ↔ ms = ns
  | [], ns => by cases ns <;> simp [beqMembers]
  | m :: ms, [] => by simp [beqMembers]
  | (k, x) :: ms, (l, y) :: ns => by simp [beqMembers, beq_iff x y, beqMembers_iff ms ns]
end

instance : DecidableEq Json := fun x y => decidable_of_iff (beq x y = true) (beq_iff x y)

/-- `j.find(key)` on an object; anything else has no members. -/
def find? (key : Str) : Json → Option Json
  | obj members => members.lookup key
  | _ => none

/-- `j.contains(key)`. -/
def contains (key : Str) (j : Json) : Bool := (j.find? key).isSome

/-- `j.get<int>()`: numbers of every kind and booleans convert, silently. -/
def getInt : Json → Option ℤ
  | int n => some (toInt32 n)
  | float bits => some (floatToInt32 bits)
  | bool b => some b.toNat
  | _ => none

/-- `j.get<double>()`: numbers of every kind, but no booleans. -/
def getDouble : Json → Option UInt64
  | int n => some (binary64OfInt n)
  | float bits => some bits
  | _ => none

/-- `j.get<bool>()`. -/
def getBool : Json → Option Bool
  | bool b => some b
  | _ => none

/-- `j.get<std::string>()`. -/
def getStr : Json → Option Str
  | str s => some s
  | _ => none

/-- `j[key].get<std::string>()` on a const value. Where the key is missing `operator[]` does not throw: the
program aborts on its assertion, or does anything if assertions are off. -/
def strAt (key : Str) (j : Json) : Option Str := (j.find? key).bind getStr

/-- `j.value(key, std::string)`. -/
def valueStr (key fallback : Str) : Json → Option Str
  | obj members =>
    match members.lookup key with
    | some x => x.getStr
    | none => some fallback
  | _ => none

/-- `j.value(key, int)`. -/
def valueInt (key : Str) (fallback : ℤ) : Json → Option ℤ
  | obj members =>
    match members.lookup key with
    | some x => x.getInt
    | none => some fallback
  | _ => none

/-- `j.value(key, double)`. -/
def valueDouble (key : Str) (fallback : UInt64) : Json → Option UInt64
  | obj members =>
    match members.lookup key with
    | some x => x.getDouble
    | none => some fallback
  | _ => none

/-- `j.value(key, bool)`. -/
def valueBool (key : Str) (fallback : Bool) : Json → Option Bool
  | obj members =>
    match members.lookup key with
    | some x => x.getBool
    | none => some fallback
  | _ => none

/-- `j.get<std::vector<std::string>>()`. -/
def getStrings : Json → Option (List Str)
  | arr xs => xs.mapM getStr
  | _ => none

/-- `j.at(key)`, if it is there and `is_object()`. -/
def objectAt (key : Str) (j : Json) : Option Json :=
  match j.find? key with
  | some (obj members) => some (obj members)
  | _ => none

/-- What a loop over `j.at(key).items()` goes through, if `is_object()`; else there is no loop. -/
def membersAt (key : Str) (j : Json) : List (Str × Json) :=
  match j.find? key with
  | some (obj members) => members
  | _ => []

/-- What a loop over `j.at(key)` goes through, if `is_array()`; else there is no loop. -/
def elementsAt (key : Str) (j : Json) : List Json :=
  match j.find? key with
  | some (arr xs) => xs
  | _ => []

/-- `emplace` into the `std::map` of an object. -/
def emplace (key : Str) (x : Json) : List (Str × Json) → List (Str × Json)
  | [] => [(key, x)]
  | (k, y) :: rest =>
    if key = k then (k, y) :: rest
    else if key < k then (key, x) :: (k, y) :: rest
    else (k, y) :: emplace key x rest

/-- The initializer list of an object. -/
def object (members : List (Str × Json)) : Json :=
  obj (members.foldl (fun ms m => emplace m.1 m.2 ms) [])

mutual
def all (p : Json → Bool) : Json → Bool
  | arr xs => p (arr xs) && allList p xs
  | obj members => p (obj members) && allMembers p members
  | j => p j

def allList (p : Json → Bool) : List Json → Bool
  | [] => true
  | x :: xs => all p x && allList p xs

def allMembers (p : Json → Bool) : List (Str × Json) → Bool
  | [] => true
  | (_, x) :: xs => all p x && allMembers p xs
end

def dumpableNode : Json → Bool
  | str s => validUtf8 s
  | obj members => members.all fun m => validUtf8 m.1
  | _ => true

/-- Every string of the value can be written by `dump()`. -/
def dumpable : Json → Bool := all dumpableNode

def isFinite (bits : UInt64) : Bool := bits.toNat / 2 ^ 52 % 2 ^ 11 != 2047

def finiteNode : Json → Bool
  | float bits => isFinite bits
  | _ => true

def finite : Json → Bool := all finiteNode

def wellFormedNode : Json → Bool
  | int n => decide (-2 ^ 63 ≤ n ∧ n < 2 ^ 64)
  | obj members => decide ((members.map Prod.fst).Pairwise (· < ·))
  | _ => true

/-- What a `nlohmann::json` can hold: integers of 64 bits, keys in the order of
`std::map` and without duplicates. -/
def wellFormed : Json → Bool := all wellFormedNode

mutual
/-- The value `dump()` writes: it puts `null` for a number that is not finite. -/
def written : Json → Json
  | float bits => if isFinite bits then float bits else null
  | arr xs => arr (writtenList xs)
  | obj members => obj (writtenMembers members)
  | j => j

def writtenList : List Json → List Json
  | [] => []
  | x :: xs => written x :: writtenList xs

def writtenMembers : List (Str × Json) → List (Str × Json)
  | [] => []
  | (k, x) :: xs => (k, written x) :: writtenMembers xs
end

mutual
theorem written_of_finite : ∀ j : Json, j.finite = true → j.written = j
  | float bits, h => if_pos h
  | arr xs, h => by
      simp only [finite, all, finiteNode, Bool.true_and] at h
      rw [written, writtenList_of_finite xs h]
  | obj members, h => by
      simp only [finite, all, finiteNode, Bool.true_and] at h
      rw [written, writtenMembers_of_finite members h]
  | null, _ | bool _, _ | int _, _ | str _, _ => rfl

theorem writtenList_of_finite : ∀ xs : List Json, allList finiteNode xs = true → writtenList xs = xs
  | [], _ => rfl
  | x :: xs, h => by
      simp only [allList, Bool.and_eq_true] at h
      rw [writtenList, written_of_finite x h.1, writtenList_of_finite xs h.2]

theorem writtenMembers_of_finite : ∀ members : List (Str × Json),
    allMembers finiteNode members = true → writtenMembers members = members
  | [], _ => rfl
  | (k, x) :: members, h => by
      simp only [allMembers, Bool.and_eq_true] at h
      rw [writtenMembers, written_of_finite x h.1, writtenMembers_of_finite members h.2]
end

theorem allMembers_of_lookup {p : Json → Bool} {members : List (Str × Json)} {key : Str}
    {x : Json} (h : allMembers p members = true) (hx : members.lookup key = some x) :
    x.all p = true := by
  induction members with
  | nil => simp at hx
  | cons m ms ih =>
      obtain ⟨k, y⟩ := m
      simp only [allMembers, Bool.and_eq_true] at h
      rw [List.lookup_cons] at hx
      split at hx
      · exact Option.some.inj hx ▸ h.1
      · exact ih h.2 hx

theorem all_of_find {p : Json → Bool} {j x : Json} {key : Str} (h : j.all p = true)
    (hx : j.find? key = some x) : x.all p = true := by
  cases j with
  | obj members =>
      simp only [all, Bool.and_eq_true] at h
      exact allMembers_of_lookup h.2 hx
  | _ => simp [find?] at hx

/-- A string read out of a parsed message can be sent again. -/
theorem valid_of_strAt {j : Json} {key s : Str} (h : j.dumpable = true)
    (hs : j.strAt key = some s) : validUtf8 s = true := by
  obtain ⟨x, hx, hg⟩ := Option.bind_eq_some_iff.mp hs
  have hd : x.dumpable = true := all_of_find h hx
  cases x <;> simp only [getStr, reduceCtorEq, Option.some.injEq] at hg
  subst hg
  exact hd

theorem mem_emplace {key : Str} {x : Json} {members : List (Str × Json)} {m : Str × Json}
    (h : m ∈ emplace key x members) : m = (key, x) ∨ m ∈ members := by
  induction members with
  | nil => simpa [emplace] using h
  | cons y ys ih =>
      obtain ⟨k, y⟩ := y
      unfold emplace at h
      split at h
      · exact .inr h
      · split at h
        · simpa using h
        · rcases List.mem_cons.mp h with h | h
          · exact .inr (h ▸ List.mem_cons_self)
          · exact (ih h).imp_right (List.mem_cons_of_mem _)

theorem allMembers_of_forall {p : Json → Bool} {members : List (Str × Json)}
    (h : ∀ m ∈ members, m.2.all p = true) : allMembers p members = true := by
  induction members with
  | nil => rfl
  | cons m ms ih =>
      simp only [List.forall_mem_cons] at h
      simp only [allMembers, h.1, ih h.2, Bool.and_self]

theorem emplace_sorted (k : Str) (x : Json) {members : List (Str × Json)}
    (h : (members.map Prod.fst).Pairwise (· < ·)) :
    ((emplace k x members).map Prod.fst).Pairwise (· < ·) := by
  induction members with
  | nil => simp [emplace]
  | cons m ms ih =>
      obtain ⟨k', y⟩ := m
      rw [List.map_cons, List.pairwise_cons] at h
      unfold emplace
      split_ifs with heq hlt
      · exact List.pairwise_cons.mpr h
      · refine List.pairwise_cons.mpr ⟨?_, List.pairwise_cons.mpr h⟩
        intro key hkey
        rcases List.mem_cons.mp hkey with rfl | hkey
        · exact hlt
        · exact List.lt_trans hlt (h.1 key hkey)
      · refine List.pairwise_cons.mpr ⟨?_, ih h.2⟩
        intro key hkey
        obtain ⟨m, hm, rfl⟩ := List.mem_map.mp hkey
        rcases mem_emplace hm with rfl | hm
        · exact Std.lt_of_le_of_ne (List.not_lt.mp hlt) fun h => heq h.symm
        · exact h.1 m.1 (List.mem_map_of_mem hm)

/-- The members of an object that is put together are those it is put together from, in the order of
their keys. -/
theorem object_members {P : Str × Json → Prop} {members : List (Str × Json)} (h : ∀ m ∈ members, P m) :
    ∃ ms, object members = obj ms ∧ (∀ m ∈ ms, P m) ∧ (ms.map Prod.fst).Pairwise (· < ·) := by
  have hall : ∀ (xs acc : List (Str × Json)), (∀ m ∈ xs, P m) → (∀ m ∈ acc, P m) →
      (acc.map Prod.fst).Pairwise (· < ·) →
      (∀ m ∈ xs.foldl (fun ms m => emplace m.1 m.2 ms) acc, P m) ∧
        ((xs.foldl (fun ms m => emplace m.1 m.2 ms) acc).map Prod.fst).Pairwise (· < ·) := by
    intro xs
    induction xs with
    | nil => exact fun acc _ hacc hsorted => ⟨hacc, hsorted⟩
    | cons x xs ih =>
        intro acc hxs hacc hsorted
        rw [List.forall_mem_cons] at hxs
        refine ih _ hxs.2 ?_ (emplace_sorted x.1 x.2 hsorted)
        intro m hm
        rcases mem_emplace hm with rfl | hm
        · exact hxs.1
        · exact hacc m hm
  exact ⟨_, rfl, hall members [] h (by simp) .nil⟩

theorem int_wellFormed {n : ℤ} : (int n).wellFormed = true ↔ -2 ^ 63 ≤ n ∧ n < 2 ^ 64 := by
  simp only [wellFormed, all, wellFormedNode, decide_eq_true_eq]

theorem unsigned_wellFormed (n : UInt64) : (int n.toNat).wellFormed = true := by
  have hlow : 0 ≤ (n.toNat : ℤ) := Int.natCast_nonneg _
  have hhigh : (n.toNat : ℤ) < 2 ^ 64 := by exact_mod_cast n.toNat_lt
  rw [int_wellFormed]
  omega

theorem object_dumpable {members : List (Str × Json)}
    (h : ∀ m ∈ members, validUtf8 m.1 = true ∧ m.2.dumpable = true) :
    (object members).dumpable = true := by
  obtain ⟨ms, hms, hall, -⟩ := object_members h
  simp only [hms, dumpable, all, dumpableNode, Bool.and_eq_true, List.all_eq_true]
  exact ⟨fun m hm => (hall m hm).1, allMembers_of_forall fun m hm => (hall m hm).2⟩

theorem object_wellFormed {members : List (Str × Json)} (h : ∀ m ∈ members, m.2.wellFormed = true) :
    (object members).wellFormed = true := by
  obtain ⟨ms, hms, hall, hsorted⟩ := object_members h
  simp only [hms, wellFormed, all, wellFormedNode, Bool.and_eq_true, decide_eq_true_eq]
  exact ⟨hsorted, allMembers_of_forall hall⟩

theorem object_finite {members : List (Str × Json)} (h : ∀ m ∈ members, m.2.finite = true) :
    (object members).finite = true := by
  obtain ⟨ms, hms, hall, -⟩ := object_members h
  simp only [hms, finite, all, finiteNode, Bool.true_and]
  exact allMembers_of_forall hall

end Json

theorem toInt32_eq_self {n : ℤ} : toInt32 n = n ↔ -2 ^ 31 ≤ n ∧ n < 2 ^ 31 := by
  unfold toInt32
  omega

example : toInt32 4294967296 = 0 := by decide

end LynneSocial
