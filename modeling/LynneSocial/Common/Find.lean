import LynneSocial.Common.Std
import Mathlib.Data.List.Infix
import Mathlib.Data.List.TakeWhile

/-!
# Searching in a std::string

`find`, `find_first_of` and `substr`. A position is a natural number, and `none`
is `npos`. What a search finds in a string it finds in every part of the string
that starts with it and reaches far enough.
-/
namespace LynneSocial

/-- `s.find(pat, pos)`. -/
def find (pat s : Str) (pos : ℕ) : Option ℕ :=
  (List.range (s.length + 1)).find? fun i => pos ≤ i && pat.isPrefixOf (s.drop i)

/-- `s.find_first_of(set, pos)`. -/
def findFirstOf (set s : Str) (pos : ℕ) : Option ℕ :=
  (List.range s.length).find? fun i => pos ≤ i && s[i]?.any set.contains

/-- `s.substr(pos, stop - pos)`: with `npos` in the place of `stop` the count exceeds every length. -/
def substr (s : Str) (pos : ℕ) (stop : Option ℕ) : Str :=
  match stop with
  | some stop => (s.drop pos).take (stop - pos)
  | none => s.drop pos

variable {pat set s t u v : Str} {pos i n : ℕ}

theorem find?_range_iff {p : ℕ → Bool} : ((List.range n).find? fun i => pos ≤ i && p i) = some i ↔
    (i < n ∧ pos ≤ i ∧ p i = true) ∧ ∀ j, pos ≤ j → j < i → p j = false := by
  simp only [List.find?_range_eq_some, Bool.and_eq_true, decide_eq_true_eq, List.mem_range,
    Bool.not_eq_true', Bool.and_eq_false_iff, decide_eq_false_iff_not]
  constructor
  · rintro ⟨⟨hpos, hi⟩, hn, hfirst⟩
    exact ⟨⟨hn, hpos, hi⟩, fun j hj hji => (hfirst j hji).resolve_left fun h => h hj⟩
  · rintro ⟨⟨hn, hpos, hi⟩, hfirst⟩
    refine ⟨⟨hpos, hi⟩, hn, fun j hji => ?_⟩
    by_cases hj : pos ≤ j
    · exact .inr (hfirst j hj hji)
    · exact .inl hj

theorem find_eq_some_iff : find pat s pos = some i ↔
    (i ≤ s.length ∧ pos ≤ i ∧ pat <+: s.drop i) ∧ ∀ j, pos ≤ j → j < i → ¬ pat <+: s.drop j := by
  simp only [find, find?_range_iff, List.isPrefixOf_iff_prefix, Nat.lt_succ_iff, ← Bool.not_eq_true]

theorem findFirstOf_eq_some_iff : findFirstOf set s pos = some i ↔
    (pos ≤ i ∧ ∃ c ∈ set, s[i]? = some c) ∧ ∀ j, pos ≤ j → j < i → ∀ c ∈ set, s[j]? ≠ some c := by
  have hany : ∀ j : ℕ, s[j]?.any set.contains = true ↔ ∃ c ∈ set, s[j]? = some c := by
    intro j
    rw [Option.any_eq_true]
    exact ⟨fun ⟨c, hc, h⟩ => ⟨c, by simpa using h, hc⟩, fun ⟨c, h, hc⟩ => ⟨c, hc, by simpa using h⟩⟩
  simp only [findFirstOf, find?_range_iff, hany, ← Bool.not_eq_true, not_exists, not_and]
  refine and_congr_left fun _ => ⟨And.right, fun h => ⟨?_, h⟩⟩
  obtain ⟨-, c, -, hc⟩ := h
  exact (List.getElem?_eq_some_iff.mp hc).1

/-- The first occurrence in `s` is the first one in `t` if `t` holds all of it. -/
theorem find_start (ht : t <+: s) (h : find pat s pos = some i) :
    find pat t pos = if i + pat.length ≤ t.length then some i else none := by
  obtain ⟨⟨hi, hpos, hpat⟩, hfirst⟩ := find_eq_some_iff.mp h
  split
  · rename_i hlen
    refine find_eq_some_iff.mpr ⟨⟨by omega, hpos, ?_⟩, fun j hj hji hpre => ?_⟩
    · exact List.prefix_of_prefix_length_le hpat (ht.drop i) (by rw [List.length_drop]; omega)
    · exact hfirst j hj hji (hpre.trans (ht.drop j))
  · rename_i hlen
    by_contra hne
    obtain ⟨j, hj⟩ := Option.ne_none_iff_exists'.mp hne
    obtain ⟨⟨hjt, hposj, hpre⟩, -⟩ := find_eq_some_iff.mp hj
    have hij : i ≤ j := by
      by_contra hji
      exact hfirst j hposj (by omega) (hpre.trans (ht.drop j))
    have hle := hpre.length_le
    rw [List.length_drop] at hle
    omega

theorem findFirstOf_start (ht : t <+: s) (h : findFirstOf set s pos = some i) :
    findFirstOf set t pos = if i < t.length then some i else none := by
  obtain ⟨⟨hpos, c, hc, hi⟩, hfirst⟩ := findFirstOf_eq_some_iff.mp h
  have hat : ∀ j, j < t.length → t[j]? = s[j]? := by
    intro j hj
    obtain ⟨rest, rfl⟩ := ht
    exact (List.getElem?_append_left hj).symm
  split
  · rename_i hlen
    refine findFirstOf_eq_some_iff.mpr ⟨⟨hpos, c, hc, (hat i hlen).trans hi⟩, fun j hj hji d hd => ?_⟩
    rw [hat j (Nat.lt_trans hji hlen)]
    exact hfirst j hj hji d hd
  · rename_i hlen
    by_contra hne
    obtain ⟨j, hj⟩ := Option.ne_none_iff_exists'.mp hne
    obtain ⟨⟨hposj, d, hd, hjd⟩, -⟩ := findFirstOf_eq_some_iff.mp hj
    have hjt : j < t.length := (List.getElem?_eq_some_iff.mp hjd).1
    rw [hat j hjt] at hjd
    exact hfirst j hposj (by omega) d hd hjd

theorem singleton_prefix_drop {c : UInt8} : [c] <+: s.drop i ↔ s[i]? = some c := by
  rw [← List.head?_drop]
  cases s.drop i with
  | nil => simp
  | cons d rest => simp [eq_comm]

/-- The search for a character that is not in `u` and follows it. -/
theorem find_append {c : UInt8} {w : Str} (hu : c ∉ u) :
    find [c] (w ++ (u ++ c :: v)) w.length = some (w.length + u.length) := by
  rw [find_eq_some_iff]
  simp only [singleton_prefix_drop]
  refine ⟨⟨by simp, Nat.le_add_right .., ?_⟩, fun j hj hji h => ?_⟩
  · rw [List.getElem?_append_right (by omega), List.getElem?_append_right (by omega)]
    simp
  · rw [List.getElem?_append_right hj, List.getElem?_append_left (by omega)] at h
    exact hu (List.mem_of_getElem? h)

theorem find_append_none {c : UInt8} {w : Str} (hu : c ∉ u) : find [c] (w ++ u) w.length = none := by
  by_contra hne
  obtain ⟨j, hj⟩ := Option.ne_none_iff_exists'.mp hne
  obtain ⟨⟨-, hpos, hc⟩, -⟩ := find_eq_some_iff.mp hj
  rw [singleton_prefix_drop, List.getElem?_append_right hpos] at hc
  exact hu (List.mem_of_getElem? hc)

/-- A character splits a string at its first place in one way. -/
theorem split_unique {c : UInt8} {u' v' : Str} (hu : c ∉ u) (hu' : c ∉ u') (h : u ++ c :: v = u' ++ c :: v') :
    u = u' ∧ v = v' := by
  have hlen : u.length = u'.length := by
    have hfind := find_append (w := []) (v := v) hu
    have hfind' := find_append (w := []) (v := v') hu'
    rw [List.nil_append, h] at hfind
    rw [List.nil_append, hfind] at hfind'
    simpa using hfind'
  obtain ⟨hfst, hsnd⟩ := List.append_inj h hlen
  exact ⟨hfst, (List.cons.inj hsnd).2⟩

theorem takeWhile_ne_self {c : UInt8} (hu : c ∉ u) : u.takeWhile (· ≠ c) = u := by
  refine List.takeWhile_eq_self_iff.mpr fun d hd => ?_
  have hne : d ≠ c := fun h => hu (h ▸ hd)
  simpa using hne

theorem takeWhile_ne_append {c : UInt8} (hu : c ∉ u) : (u ++ c :: v).takeWhile (· ≠ c) = u := by
  have hpos : ∀ d ∈ u, decide (d ≠ c) = true := fun d hd => by
    simpa using fun h : d = c => hu (h ▸ hd)
  rw [List.takeWhile_append_of_pos hpos, List.takeWhile_cons_of_neg (by simp), List.append_nil]

theorem substr_append (w : Str) : substr (w ++ (u ++ v)) w.length (some (w.length + u.length)) = u := by
  simp [substr]

theorem substr_append_none (w : Str) : substr (w ++ u) w.length none = u := by
  simp [substr]

end LynneSocial
