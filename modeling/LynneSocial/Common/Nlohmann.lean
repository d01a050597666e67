import LynneSocial.Common.JsonText
import Mathlib.Tactic.LinearCombination

/-!
# The JSON library as a codec

The serializer and the parser keep the laws that the program relies on: what is
written is one line, it is read again, and only a string that is not UTF-8
cannot be written. Whatever the parser accepts can be written, and reading it
again gives the same value. A text that is cut off is not accepted.
-/
namespace LynneSocial
namespace JsonText
open Token

def codec (grisu : Grisu) : JsonCodec where
  dump := dump grisu .compact 0
  dumpIndented := dump grisu .indented 0
  parse := parse

theorem dumpEscaped_isSome (s : Str) : (dumpEscaped s).isSome = validUtf8 s := by
  rw [dumpEscaped_eq]
  cases validUtf8 s <;> rfl

section
variable (grisu : Grisu) (l : Layout)

mutual
theorem dump_isSome : ∀ (width : ℕ) (j : Json), (dump grisu l width j).isSome = j.dumpable
  | _, .null => rfl
  | _, .bool _ => rfl
  | _, .int _ => rfl
  | _, .float _ => rfl
  | _, .str s => by
      simp [dump, dumpEscaped_isSome, Json.dumpable, Json.all, Json.dumpableNode]
  | _, .arr [] => rfl
  | width, .arr (x :: xs) => by
      have h := dumpElements_isSome (width + l.indentStep) (x :: xs)
      simpa [dump, Json.dumpable, Json.all, Json.dumpableNode] using h
  | _, .obj [] => rfl
  | width, .obj (m :: ms) => by
      have h := dumpMembers_isSome (width + l.indentStep) (m :: ms)
      simpa [dump, Json.dumpable, Json.all, Json.dumpableNode] using h

theorem dumpElements_isSome : ∀ (width : ℕ) (xs : List Json),
    (dumpElements grisu l width xs).isSome = Json.allList Json.dumpableNode xs
  | _, [] => rfl
  | width, x :: xs => by
      have h := dump_isSome width x
      have hs := dumpElements_isSome width xs
      rw [Json.allList, ← hs, ← Json.dumpable, ← h, dumpElements]
      cases dump grisu l width x <;> simp

theorem dumpMembers_isSome : ∀ (width : ℕ) (xs : List (Str × Json)),
    (dumpMembers grisu l width xs).isSome =
      ((xs.all fun m => validUtf8 m.1) && Json.allMembers Json.dumpableNode xs)
  | _, [] => rfl
  | width, (k, x) :: xs => by
      have hk := dumpEscaped_isSome k
      have h := dump_isSome width x
      have hs := dumpMembers_isSome width xs
      rw [List.all_cons, Json.allMembers, ← Json.dumpable, ← h, ← hk, dumpMembers]
      cases dumpEscaped k <;> cases dump grisu l width x <;> simp [hs]
end

end

/-- No byte of the text is a line feed. -/
def OneLine (t : Str) : Prop := newline ∉ t

instance (t : Str) : Decidable (OneLine t) := inferInstanceAs (Decidable (newline ∉ t))

theorem OneLine.append {s t : Str} (hs : OneLine s) (ht : OneLine t) : OneLine (s ++ t) := by
  simpa [OneLine] using ⟨hs, ht⟩

theorem OneLine.cons {c : UInt8} {t : Str} (hc : c ≠ newline) (ht : OneLine t) : OneLine (c :: t) := by
  simpa [OneLine] using ⟨hc.symm, ht⟩

theorem oneLine_digits {ds : Str} (h : ∀ c ∈ ds, isDigit c = true) : OneLine ds := by
  intro hmem
  exact absurd (h newline hmem) (by decide)

theorem oneLine_escaped {s t : Str} (h : dumpEscaped s = some t) : OneLine t := by
  have hall : ∀ n : Fin 256, newline ∉ escapeByte (.ofNat n) := by decide +kernel
  rw [dumpEscaped_eq] at h
  simp only [Option.ite_none_right_eq_some, Option.some.injEq] at h
  obtain ⟨-, rfl⟩ := h
  intro hmem
  obtain ⟨b, -, hb⟩ := List.mem_flatMap.mp hmem
  obtain ⟨n, rfl⟩ := Utf8.exists_byte b
  exact hall n hb

/-- The digits put no line feed into the buffer, whatever the number is. -/
theorem oneLine_fillDigits {buffer : Str} (h : OneLine buffer) (ptr n : ℕ) :
    OneLine (fillDigits buffer ptr n) := by
  have hset : ∀ (b : Str) (i k : ℕ), k < 10 → OneLine b → OneLine (b.set i (.ofNat (48 + k))) := by
    intro b i k hk hb hmem
    rcases List.mem_or_eq_of_mem_set hmem with hmem | heq
    · exact hb hmem
    · have hnat := congrArg UInt8.toNat heq
      rw [Utf8.toNat_ofNat (by omega)] at hnat
      exact absurd hnat (show ¬ 10 = 48 + k by omega)
  induction n using Nat.strong_induction_on generalizing buffer ptr with
  | _ n ih =>
      unfold fillDigits
      split_ifs with h₁ h₂
      · exact ih _ (by omega) (hset _ _ _ (by omega) (hset _ _ _ (by omega) h)) _
      · exact hset _ _ _ (by omega) (hset _ _ _ (by omega) h)
      · exact hset _ _ _ (by omega) h

theorem length_fillDigits (buffer : Str) (ptr n : ℕ) :
    (fillDigits buffer ptr n).length = buffer.length := by
  induction n using Nat.strong_induction_on generalizing buffer ptr with
  | _ n ih =>
      unfold fillDigits
      split_ifs with h₁ h₂
      · rw [ih _ (by omega)]
        simp
      · simp
      · simp

theorem countDigits_pos (n : ℕ) : 0 < countDigits n := by
  rw [countDigits_eq]
  exact List.length_pos_iff.mpr (Decimal.text_ne_nil n)

theorem oneLine_dumpInteger (x : ℤ) :
    dumpInteger numberBuffer x ≠ [] ∧ OneLine (dumpInteger numberBuffer x) := by
  have hbuffer : OneLine numberBuffer ∧ OneLine (numberBuffer.set 0 45) := by decide +kernel
  have htake : ∀ (b : Str) (ptr n k : ℕ), 0 < k → b.length = 64 → OneLine b →
      (fillDigits b ptr n).take k ≠ [] ∧ OneLine ((fillDigits b ptr n).take k) := by
    intro b ptr n k hk hlen hb
    refine ⟨?_, fun hmem => oneLine_fillDigits hb _ _ (List.mem_of_mem_take hmem)⟩
    rw [Ne, List.take_eq_nil_iff, ← List.length_eq_zero_iff, length_fillDigits, hlen]
    omega
  unfold dumpInteger
  split_ifs
  · decide
  · exact htake _ _ _ _ (by omega) rfl hbuffer.2
  · exact htake _ _ _ _ (countDigits_pos _) rfl hbuffer.1

theorem oneLine_numeral {n : Numeral} (h : n.Ok) : OneLine n.text := by
  refine (oneLine_digits h.whole.digits).append (OneLine.append ?_ ?_)
  · split_ifs
    · decide
    · exact OneLine.cons (by decide) (oneLine_digits h.fraction)
  · split_ifs with he
    · decide
    · obtain ⟨c, ds, hexp, hc, -, hd⟩ := h.exponent.resolve_left he
      rw [hexp]
      refine OneLine.cons (by decide) (OneLine.cons ?_ (oneLine_digits hd))
      rcases hc with rfl | rfl <;> decide

theorem oneLine_dumpFloat {grisu : Grisu} (hg : grisu.ReadsBack) (bits : UInt64) :
    dumpFloat grisu bits ≠ [] ∧ OneLine (dumpFloat grisu bits) := by
  unfold dumpFloat
  split_ifs with hf
  · obtain ⟨n, hok, htext, -⟩ := toChars_numeral hg hf
    have hne : n.text ≠ [] := by simp [Numeral.text, hok.whole.ne_nil]
    rw [htext, signed]
    split_ifs
    · exact ⟨by simp, OneLine.cons (by decide) (oneLine_numeral hok)⟩
    · exact ⟨hne, oneLine_numeral hok⟩
  · decide

namespace Layout

@[simp] theorem compact_newline : compact.newline = [] := rfl
@[simp] theorem compact_indent (width : ℕ) : compact.indent width = [] := rfl
@[simp] theorem compact_separator : compact.separator = [44] := rfl
@[simp] theorem compact_colon : compact.colon = [58] := rfl

end Layout

section
variable {grisu : Grisu}

mutual
theorem oneLine_dump (hg : grisu.ReadsBack) : ∀ (j : Json) (width : ℕ) (t : Str),
    dump grisu .compact width j = some t → t ≠ [] ∧ OneLine t
  | .null, _, t, h => by
      cases h
      decide
  | .bool b, _, t, h => by
      cases h
      cases b <;> decide
  | .int n, _, t, h => by
      cases h
      exact oneLine_dumpInteger n
  | .float bits, _, t, h => by
      cases h
      exact oneLine_dumpFloat hg bits
  | .str s, _, t, h => by
      obtain ⟨u, hu, rfl⟩ := Option.map_eq_some_iff.mp h
      exact ⟨by simp, (OneLine.cons (by decide) (oneLine_escaped hu)).append (by decide)⟩
  | .arr [], _, t, h => by
      cases h
      decide
  | .arr (x :: xs), width, t, h => by
      obtain ⟨u, hu, rfl⟩ := Option.map_eq_some_iff.mp h
      have hline := oneLine_elements hg (x :: xs) _ u hu
      simpa using (OneLine.cons (c := 91) (by decide) hline).append (t := [93]) (by decide)
  | .obj [], _, t, h => by
      cases h
      decide
  | .obj (m :: ms), width, t, h => by
      obtain ⟨u, hu, rfl⟩ := Option.map_eq_some_iff.mp h
      have hline := oneLine_members hg (m :: ms) _ u hu
      simpa using (OneLine.cons (c := 123) (by decide) hline).append (t := [125]) (by decide)

theorem oneLine_elements (hg : grisu.ReadsBack) : ∀ (xs : List Json) (width : ℕ) (t : Str),
    dumpElements grisu .compact width xs = some t → OneLine t
  | [], _, t, h => by
      cases h
      decide
  | x :: xs, width, t, h => by
      rw [dumpElements] at h
      obtain ⟨u, hu, h⟩ := Option.bind_eq_some_iff.mp h
      obtain ⟨more, hmore, rfl⟩ := Option.map_eq_some_iff.mp h
      have hline := (oneLine_dump hg x width u hu).2
      refine OneLine.append (OneLine.append (by simpa using hline) ?_) (oneLine_elements hg xs width more hmore)
      split_ifs <;> decide

theorem oneLine_members (hg : grisu.ReadsBack) : ∀ (xs : List (Str × Json)) (width : ℕ) (t : Str),
    dumpMembers grisu .compact width xs = some t → OneLine t
  | [], _, t, h => by
      cases h
      decide
  | (k, x) :: xs, width, t, h => by
      rw [dumpMembers] at h
      obtain ⟨key, hkey, h⟩ := Option.bind_eq_some_iff.mp h
      obtain ⟨u, hu, h⟩ := Option.bind_eq_some_iff.mp h
      obtain ⟨more, hmore, rfl⟩ := Option.map_eq_some_iff.mp h
      have hline := (oneLine_dump hg x width u hu).2
      have hpair := (OneLine.cons (c := 34) (by decide) (oneLine_escaped hkey)).append
        (OneLine.cons (c := 34) (by decide) (OneLine.cons (c := 58) (by decide) hline))
      refine OneLine.append (OneLine.append (by simpa using hpair) ?_) (oneLine_members hg xs width more hmore)
      split_ifs <;> decide
end

end

/-- The members of an object while it is read. -/
structure Members (p : Json → Bool) (members : List (Str × Json)) : Prop where
  sorted : (members.map Prod.fst).Pairwise (· < ·)
  keys : ∀ m ∈ members, Utf8.Valid m.1
  values : ∀ m ∈ members, m.2.all p = true

theorem Members.assign {p : Json → Bool} {members : List (Str × Json)} (h : Members p members) {k : Str}
    (hk : Utf8.Valid k) {x : Json} (hx : x.all p = true) :
    Members p (assign k x (Json.emplace k .null members)) := by
  have hmem : ∀ m ∈ JsonText.assign k x (Json.emplace k .null members),
      (m.1 = k ∧ m.2 = x) ∨ m ∈ members := by
    intro m hm
    obtain ⟨m', hm', rfl⟩ := List.mem_map.mp hm
    split_ifs with hkey
    · exact .inl ⟨hkey, rfl⟩
    · exact .inr ((Json.mem_emplace hm').resolve_left fun heq => hkey (congrArg Prod.fst heq))
  have hkeys : (JsonText.assign k x (Json.emplace k .null members)).map Prod.fst =
      (Json.emplace k .null members).map Prod.fst := by
    rw [JsonText.assign, List.map_map]
    refine List.map_congr_left fun m _ => ?_
    simp only [Function.comp]
    split_ifs <;> rfl
  refine ⟨hkeys ▸ Json.emplace_sorted k .null h.sorted, fun m hm => ?_, fun m hm => ?_⟩
  · rcases hmem m hm with ⟨hkey, -⟩ | hm
    · exact hkey ▸ hk
    · exact h.keys m hm
  · rcases hmem m hm with ⟨-, hval⟩ | hm
    · exact hval ▸ hx
    · exact h.values m hm

theorem mem_elementTokens_cons {t : Token} (x : Raw) {xs : List Raw} (h : t ∈ Raw.elementTokens xs) :
    t ∈ Raw.elementTokens (x :: xs) := by
  cases xs with
  | nil => simp [Raw.elementTokens] at h
  | cons y ys =>
      rw [Raw.elementTokens]
      exact List.mem_append_right _ (List.mem_cons_of_mem _ h)

theorem mem_memberTokens_cons {t : Token} (m : Str × Raw) {xs : List (Str × Raw)}
    (h : t ∈ Raw.memberTokens xs) : t ∈ Raw.memberTokens (m :: xs) := by
  cases xs with
  | nil => simp [Raw.memberTokens] at h
  | cons y ys =>
      rw [Raw.memberTokens]
      exact List.mem_append_right _ (List.mem_cons_of_mem _ h)

/-- A property of the nodes of a value that is read: the leaves have it because of their tokens, the
objects because of how their members are put together. -/
structure Nodes (p : Json → Bool) : Prop where
  leaf : ∀ (t : Token) (x : Json), t.Ok → t.scalar? = some x → x.all p = true
  arr : ∀ xs, p (.arr xs) = true
  obj : ∀ members, Members p members → p (.obj members) = true

section
variable {p : Json → Bool}

mutual
theorem all_value (hp : Nodes p) : ∀ x : Raw, (∀ t ∈ x.tokens, t.Ok) → x.value.all p = true
  | .leaf t x hs, h => hp.leaf t x (h t (by simp [Raw.tokens])) hs
  | .arr xs, h => by
      rw [Raw.value, Json.all, hp.arr, Bool.true_and]
      exact all_values hp xs fun t ht => h t (by simp [Raw.tokens, ht])
  | .obj members, h => by
      have hm := all_memberValues hp members [] ⟨.nil, by simp, by simp⟩
        fun t ht => h t (by simp [Raw.tokens, ht])
      rw [Raw.value, Json.all, hp.obj _ hm, Bool.true_and]
      exact Json.allMembers_of_forall hm.values

theorem all_values (hp : Nodes p) : ∀ xs : List Raw, (∀ t ∈ Raw.elementTokens xs, t.Ok) →
    Json.allList p (Raw.values xs) = true
  | [], _ => rfl
  | x :: xs, h => by
      have hx := all_value hp x fun t ht => h t (by simp [Raw.elementTokens, ht])
      have hxs := all_values hp xs fun t ht => h t (mem_elementTokens_cons x ht)
      rw [Raw.values, Json.allList, hx, hxs]
      rfl

theorem all_memberValues (hp : Nodes p) : ∀ (xs : List (Str × Raw)) (acc : List (Str × Json)), Members p acc →
    (∀ t ∈ Raw.memberTokens xs, t.Ok) → Members p (Raw.memberValues acc xs)
  | [], _, hacc, _ => hacc
  | (k, x) :: xs, acc, hacc, h => by
      have hk : Utf8.Valid k := h (valueString k) (by simp [Raw.memberTokens])
      have hx := all_value hp x fun t ht => h t (by simp [Raw.memberTokens, ht])
      exact all_memberValues hp xs _ (hacc.assign hk hx) fun t ht => h t (mem_memberTokens_cons _ ht)
end

end

theorem wellFormed_int (n : ℤ) : (Json.int n).wellFormed = true ↔ -2 ^ 63 ≤ n ∧ n < 2 ^ 64 := by
  simp [Json.wellFormed, Json.all, Json.wellFormedNode]

theorem scalar_sound {t : Token} {x : Json} (ht : t.Ok) (hx : t.scalar? = some x) :
    x.wellFormed = true ∧ x.finite = true ∧ x.dumpable = true := by
  cases t <;> simp only [Token.scalar?, reduceCtorEq, Option.some.injEq,
    Option.ite_none_right_eq_some] at hx
  case literalTrue | literalFalse | literalNull =>
    subst hx
    exact ⟨rfl, rfl, rfl⟩
  case valueString s =>
    subst hx
    exact ⟨rfl, rfl, (validUtf8_iff s).mpr ht⟩
  case valueUnsigned n =>
    subst hx
    have hn : n < 2 ^ 64 := ht
    exact ⟨(wellFormed_int _).mpr ⟨by omega, by omega⟩, rfl, rfl⟩
  case valueInteger n =>
    subst hx
    exact ⟨(wellFormed_int n).mpr ⟨ht.1, ht.2.trans_lt (by norm_num)⟩, rfl, rfl⟩
  case valueFloat bits =>
    obtain ⟨hf, rfl⟩ := hx
    exact ⟨rfl, hf, rfl⟩

/-- Whatever is accepted is a value that can be held, and it can be written again. -/
theorem parse_sound {text : Str} {j : Json} (h : parse text = some j) :
    j.wellFormed = true ∧ j.finite = true ∧ j.dumpable = true := by
  obtain ⟨x, htokens, rfl⟩ := (parseTokens_iff _ _).mp h
  have hok : ∀ t ∈ x.tokens, t.Ok := fun t ht =>
    tokens_ok t (htokens ▸ List.mem_append_left _ ht)
  have hwell : Nodes Json.wellFormedNode :=
    ⟨fun t x ht hx => (scalar_sound ht hx).1, fun _ => rfl, fun members hm => decide_eq_true hm.sorted⟩
  have hfinite : Nodes Json.finiteNode :=
    ⟨fun t x ht hx => (scalar_sound ht hx).2.1, fun _ => rfl, fun _ _ => rfl⟩
  have hdumpable : Nodes Json.dumpableNode :=
    ⟨fun t x ht hx => (scalar_sound ht hx).2.2, fun _ => rfl, fun members hm =>
      List.all_eq_true.mpr fun m hmem => (validUtf8_iff m.1).mpr (hm.keys m hmem)⟩
  exact ⟨all_value hwell x hok, all_value hfinite x hok, all_value hdumpable x hok⟩

theorem scanString_append {p : StringPoint} {buffer s value r : Str}
    (h : scanString p buffer s = some (value, r)) (q : Str) :
    scanString p buffer (s ++ q) = some (value, r ++ q) := by
  induction s generalizing p buffer with
  | nil => cases h
  | cons c s ih =>
      simp only [List.cons_append, scanString] at h ⊢
      split at h
      · cases h
      · cases h
        rfl
      · exact ih h

/-- A number that something follows. -/
theorem scanNumber_append {p : NumberPoint} {type : NumberType} {buffer s r : Str} {t : Token}
    (h : scanNumber p type buffer s = (t, r)) (ht : t.isLast = false) (hr : r ≠ []) (q : Str) :
    scanNumber p type buffer (s ++ q) = (t, r ++ q) := by
  induction s generalizing p type buffer with
  | nil =>
      cases h
      exact absurd rfl hr
  | cons c s ih =>
      simp only [List.cons_append, scanNumber] at h ⊢
      split at h
      · exact ih h
      · split_ifs at h ⊢ with hdone
        · cases h
          rfl
        · cases h
          cases ht

theorem scanNumber_ne_end {p : NumberPoint} {type : NumberType} {buffer s r : Str} {t : Token}
    (h : scanNumber p type buffer s = (t, r)) : ¬ (t = endArray ∨ t = endObject) := by
  have hconvert : ∀ b ty, ¬ (convert b ty = endArray ∨ convert b ty = endObject) := by
    intro b ty
    cases ty <;> simp only [convert]
    · split_ifs <;> simp
    · split_ifs <;> simp
    · simp
  induction s generalizing p type buffer with
  | nil =>
      cases h
      split_ifs
      · exact hconvert buffer type
      · simp
  | cons c s ih =>
      simp only [scanNumber] at h
      split at h
      · exact ih h
      · split_ifs at h
        · cases h
          exact hconvert buffer type
        · cases h
          simp

theorem scanLiteral_append {text s r : Str} {token t : Token} (h : scanLiteral text token s = (t, r))
    (ht : t.isLast = false) (q : Str) : scanLiteral text token (s ++ q) = (t, r ++ q) := by
  unfold scanLiteral at h ⊢
  split_ifs at h with hp
  · cases h
    rw [if_pos (hp.trans (List.prefix_append s q)), List.drop_append_of_le_length hp.length_le]
  · cases h
    cases ht

/-- More text behind a token; a number must have ended before. -/
theorem scan_append {s r : Str} {t : Token} (h : scan s = (t, r)) (ht : t.isLast = false)
    (hr : r ≠ [] ∨ t = endArray ∨ t = endObject) (q : Str) : scan (s ++ q) = (t, r ++ q) := by
  unfold scan at h
  split at h
  · cases h
    cases ht
  · rename_i c s' hs
    have hdrop : (s ++ q).dropWhile isSpace = c :: (s' ++ q) := by
      rw [List.dropWhile_append, hs]
      rfl
    rw [scan, hdrop]
    simp only
    unfold scanFrom at h ⊢
    split at h
    · cases h
      rfl
    · split at h
      · exact scanLiteral_append h ht q
      · split_ifs at h ⊢ with hq
        · split at h
          · rename_i hstring
            cases h
            rw [scanString_append hstring q]
          · cases h
            cases ht
        · split at h
          · exact scanNumber_append h ht (hr.resolve_right (scanNumber_ne_end h)) q
          · cases h
            cases ht

/-- More text behind tokens that end with a closing bracket. -/
theorem Reads.extend {s r : Str} {ts : List Token} {t : Token} (h : Reads s (ts ++ [t]) r)
    (ht : t = endArray ∨ t = endObject) (q : Str) : Reads (s ++ q) (ts ++ [t]) (r ++ q) := by
  induction ts generalizing s with
  | nil =>
      obtain ⟨r', hscan, hlast, rfl⟩ := h
      exact ⟨_, scan_append hscan hlast (.inr ht) q, hlast, rfl⟩
  | cons u ts ih =>
      obtain ⟨r', hscan, hlast, hrest⟩ := h
      refine ⟨_, scan_append hscan hlast (.inl ?_) q, hlast, ih hrest⟩
      rintro rfl
      cases ts with
      | nil =>
          obtain ⟨_, hend, hlast', -⟩ := hrest
          cases hend
          cases hlast'
      | cons v ts =>
          obtain ⟨_, hend, hlast', -⟩ := hrest
          cases hend
          cases hlast'

/-- Of two lists of tokens that are read from a text one is the beginning of the other. -/
theorem Reads.compare {s r r' : Str} {ts us : List Token} (h : Reads s ts r) (h' : Reads s us r') :
    (∃ vs, ts = us ++ vs ∧ Reads r' vs r) ∨ ∃ vs, us = ts ++ vs ∧ Reads r vs r' := by
  induction ts generalizing s us with
  | nil =>
      obtain rfl : s = r := h
      exact .inr ⟨us, rfl, h'⟩
  | cons t ts ih =>
      cases us with
      | nil =>
          obtain rfl : s = r' := h'
          exact .inl ⟨t :: ts, rfl, h⟩
      | cons u us =>
          obtain ⟨q, hscan, -, hq⟩ := h
          obtain ⟨q', hscan', -, hq'⟩ := h'
          obtain ⟨rfl, rfl⟩ := Prod.mk.inj (hscan.symm.trans hscan')
          rcases ih hq hq' with ⟨vs, rfl, hr⟩ | ⟨vs, rfl, hr⟩
          · exact .inl ⟨vs, rfl, hr⟩
          · exact .inr ⟨vs, rfl, hr⟩

/-- The tokens of a value are not the beginning of those of another value. -/
theorem Raw.tokens_complete {x y : Raw} {us : List Token} (h : y.tokens = x.tokens ++ us)
    (hus : ∀ t ∈ us, t ≠ endOfInput) : us = [] := by
  have hx := Loop.run_tokens x [] ⟨.null, []⟩
  have hy := Loop.run_tokens y [] ⟨.null, []⟩
  rw [h, Loop.run_append, hx, Option.bind_some] at hy
  cases us with
  | nil => rfl
  | cons t us =>
      have hstep : Loop.step ⟨.after, [], Dom.handleValue ⟨.null, []⟩ x.value⟩ t = none := by
        simp [Loop.step, hus t List.mem_cons_self]
      rw [Loop.run_cons, hstep] at hy
      cases hy

/-- What the tokens of a text that is accepted are read from. -/
theorem reads_of_tokensFrom {fuel : ℕ} {s : Str} {ts : List Token}
    (h : tokensFrom fuel s = ts ++ [endOfInput]) : ∃ r, Reads s ts r ∧ (scan r).1 = endOfInput := by
  induction ts generalizing fuel s with
  | nil =>
      cases fuel with
      | zero => cases h
      | succ fuel =>
          rw [tokensFrom] at h
          refine ⟨s, rfl, ?_⟩
          split_ifs at h
          · exact (List.cons.inj h).1
          · exact (List.cons.inj h).1
  | cons t ts ih =>
      cases fuel with
      | zero => cases h
      | succ fuel =>
          rw [tokensFrom] at h
          split_ifs at h with hlast
          · simp at h
          · obtain ⟨ht, hrest⟩ := List.cons.inj h
            obtain ⟨r, hr, hend⟩ := ih hrest
            exact ⟨r, ⟨_, Prod.ext ht rfl, ht ▸ Bool.not_eq_true _ ▸ hlast, hr⟩, hend⟩

theorem Reads.ne_end {s r : Str} {ts : List Token} (h : Reads s ts r) : ∀ t ∈ ts, t ≠ endOfInput := by
  induction ts generalizing s with
  | nil => simp
  | cons t ts ih =>
      obtain ⟨r', -, hlast, hr⟩ := h
      refine List.forall_mem_cons.mpr ⟨?_, ih hr⟩
      rintro rfl
      cases hlast

/-- The text of a container begins with its bracket. -/
theorem dump_container {grisu : Grisu} {l : Layout} {width : ℕ} {j : Json} {t : Str}
    (hj : (∃ xs, j = .arr xs) ∨ ∃ members, j = .obj members) (h : dump grisu l width j = some t) :
    ∃ s, t = 91 :: s ∨ t = 123 :: s := by
  rcases hj with ⟨xs, rfl⟩ | ⟨members, rfl⟩
  · cases xs with
    | nil =>
        cases h
        exact ⟨_, .inl rfl⟩
    | cons x xs =>
        obtain ⟨u, -, rfl⟩ := Option.map_eq_some_iff.mp h
        exact ⟨_, .inl rfl⟩
  · cases members with
    | nil =>
        cases h
        exact ⟨_, .inr rfl⟩
    | cons m members =>
        obtain ⟨u, -, rfl⟩ := Option.map_eq_some_iff.mp h
        exact ⟨_, .inr rfl⟩

/-- A value whose text begins with a bracket ends with one. -/
theorem Raw.tokens_closing {x : Raw} {p r : Str} {c : UInt8} (hc : c = 91 ∨ c = 123)
    (h : Reads (c :: p) x.tokens r) :
    ∃ ts t, x.tokens = ts ++ [t] ∧ (t = endArray ∨ t = endObject) := by
  cases x with
  | leaf t y hs =>
      obtain ⟨r', hscan, -, -⟩ := h
      rcases hc with rfl | rfl
      · have hsingle : scan (91 :: p) = (beginArray, p) := scan_single rfl rfl p
        rw [hsingle] at hscan
        cases hscan
        cases hs
      · have hsingle : scan (123 :: p) = (beginObject, p) := scan_single rfl rfl p
        rw [hsingle] at hscan
        cases hscan
        cases hs
  | arr xs => exact ⟨_, _, rfl, .inl rfl⟩
  | obj members => exact ⟨_, _, rfl, .inr rfl⟩

/-- A beginning of the text of an array or an object that is accepted is all of it: its last token is the
closing bracket. -/
theorem length_le_of_parse {grisu : Grisu} (hg : grisu.ReadsBack) {l : Layout} {j : Json} {t : Str}
    (hj : (∃ xs, j = .arr xs) ∨ ∃ members, j = .obj members) (hw : j.wellFormed = true)
    (ht : dump grisu l 0 j = some t) {n : ℕ} {j' : Json} (hparse : parse (t.take n) = some j') :
    t.length ≤ n := by
  obtain ⟨x, htokens, -⟩ := (parseTokens_iff _ _).mp hparse
  have hwhole : Reads t (rawOf j).tokens [] := by
    simpa using lexes_dump hg j 0 t ht hw [] (by simp [Delimited])
  obtain ⟨s, hs⟩ := dump_container hj ht
  cases n with
  | zero =>
      rw [List.take_zero] at htokens
      have hempty : [endOfInput] = x.tokens ++ [endOfInput] := htokens
      exact absurd (List.append_cancel_right hempty).symm x.tokens_ne_nil
  | succ n =>
      have hhead : (t.take (n + 1)).head? ≠ some 0xEF := by
        rw [List.head?_take, if_neg (Nat.succ_ne_zero n)]
        exact hwhole.head (rawOf j).tokens_ne_nil
      rw [tokens, skipBom_of_head hhead] at htokens
      obtain ⟨r, hreads, -⟩ := reads_of_tokensFrom htokens
      obtain ⟨ts, c, hclosing, hc⟩ : ∃ ts c, x.tokens = ts ++ [c] ∧ (c = endArray ∨ c = endObject) := by
        rcases hs with rfl | rfl
        · exact Raw.tokens_closing (.inl rfl) hreads
        · exact Raw.tokens_closing (.inr rfl) hreads
      rw [hclosing] at hreads
      have hextend := hreads.extend hc (t.drop (n + 1))
      rw [List.take_append_drop, ← hclosing] at hextend
      have hrest : r ++ t.drop (n + 1) = [] := by
        rcases hwhole.compare hextend with ⟨vs, hvs, hr⟩ | ⟨vs, hvs, hr⟩
        · obtain rfl := Raw.tokens_complete hvs hr.ne_end
          exact hr
        · obtain rfl := Raw.tokens_complete hvs hr.ne_end
          exact hr.symm
      have hlen := congrArg List.length hrest
      simp only [List.length_append, List.length_drop, List.length_nil] at hlen
      omega

/-- A text of an array or an object that is cut off is not accepted, wherever it is cut. -/
theorem parse_take {grisu : Grisu} (hg : grisu.ReadsBack) {l : Layout} {j : Json} {t : Str}
    (hj : (∃ xs, j = .arr xs) ∨ ∃ members, j = .obj members) (hw : j.wellFormed = true)
    (ht : dump grisu l 0 j = some t) {n : ℕ} (hn : n < t.length) : parse (t.take n) = none := by
  by_contra hsome
  obtain ⟨j', hparse⟩ := Option.ne_none_iff_exists'.mp hsome
  exact absurd (length_le_of_parse hg hj hw ht hparse) (by omega)

def stripZeros : ℕ → ℕ → ℤ → ℕ × ℤ
  | 0, d, e => (d, e)
  | fuel + 1, d, e => if d % 10 = 0 then stripZeros fuel (d / 10) (e + 1) else (d, e)

/-- All digits of a number, without the zeros at the end. Where the number has no more digits than are
needed to tell it from its neighbours they are the shortest. -/
def exactDigits : Grisu := fun w =>
  let m := Binary64.mantissa w
  let s := Binary64.scale w
  let r := if 0 ≤ s then stripZeros 800 (m * 2 ^ s.toNat) 0 else stripZeros 800 (m * 5 ^ (-s).toNat) s
  (Decimal.text r.1, r.2)

theorem stripZeros_spec (fuel : ℕ) {d : ℕ} (hd : 0 < d) (e : ℤ) :
    0 < (stripZeros fuel d e).1 ∧
      ((stripZeros fuel d e).1 * 10 ^ (stripZeros fuel d e).2 : ℚ) = d * 10 ^ e := by
  induction fuel generalizing d e with
  | zero => exact ⟨hd, rfl⟩
  | succ fuel ih =>
      rw [stripZeros]
      split_ifs with h
      · obtain ⟨hpos, heq⟩ := ih (d := d / 10) (by omega) (e + 1)
        refine ⟨hpos, heq.trans ?_⟩
        have hdiv : (d : ℚ) = (d / 10 : ℕ) * 10 := by
          exact_mod_cast (Nat.div_mul_cancel (Nat.dvd_of_mod_eq_zero h)).symm
        rw [hdiv, zpow_add_one₀ (by norm_num)]
        ring
      · exact ⟨hd, rfl⟩

/-- The digits of a number that stand for a binary64 number with some exponent do not go further to
the left or the right than its range. -/
theorem exponent_bounds {d : ℕ} {e : ℤ} {x : ℚ} (hd : 0 < d) (hx : (d * 10 ^ e : ℚ) = x)
    (hl : (2 : ℚ) ^ (-1074 : ℤ) ≤ x) (hu : x < 2 ^ (1024 : ℤ)) :
    -1000 < (Decimal.text d).length + e - 1 ∧ (Decimal.text d).length + e - 1 < 1000 := by
  have hlen : (Decimal.text d).length = (Nat.digits 10 d).length := by
    rw [Decimal.text, if_neg (by omega)]
    simp
  have hlow : (10 : ℚ) ^ ((Nat.digits 10 d).length : ℤ) ≤ 10 * d := by
    rw [zpow_natCast]
    exact_mod_cast Nat.base_pow_length_digits_le 10 d (by norm_num) hd.ne'
  have hhigh : (d : ℚ) < 10 ^ ((Nat.digits 10 d).length : ℤ) := by
    rw [zpow_natCast]
    exact_mod_cast Nat.lt_base_pow_length_digits (by norm_num)
  have hpos : (0 : ℚ) < 10 ^ e := by positivity
  rw [hlen]
  constructor
  · by_contra hle
    have hsmall : x < 10 ^ (-999 : ℤ) := by
      calc x < 10 ^ ((Nat.digits 10 d).length : ℤ) * 10 ^ e := hx ▸ mul_lt_mul_of_pos_right hhigh hpos
        _ = 10 ^ ((Nat.digits 10 d).length + e) := (zpow_add₀ (by norm_num) _ _).symm
        _ ≤ 10 ^ (-999 : ℤ) := zpow_le_zpow_right₀ (by norm_num) (by omega)
    have hpow : (10 : ℚ) ^ (-999 : ℤ) ≤ 2 ^ (-1074 : ℤ) := by
      have hnat : 2 ^ 1074 ≤ 10 ^ 999 := by decide +kernel
      have hcast : (2 : ℚ) ^ (1074 : ℤ) ≤ 10 ^ (999 : ℤ) := mod_cast hnat
      rw [zpow_neg, zpow_neg]
      exact inv_anti₀ (by positivity) hcast
    exact absurd (hl.trans_lt hsmall) (not_lt.mpr hpow)
  · by_contra hge
    have hlarge : (10 : ℚ) ^ (1001 : ℤ) ≤ 10 * x := by
      calc (10 : ℚ) ^ (1001 : ℤ) ≤ 10 ^ ((Nat.digits 10 d).length + e) :=
            zpow_le_zpow_right₀ (by norm_num) (by omega)
        _ = 10 ^ ((Nat.digits 10 d).length : ℤ) * 10 ^ e := zpow_add₀ (by norm_num) _ _
        _ ≤ 10 * d * 10 ^ e := mul_le_mul_of_nonneg_right hlow hpos.le
        _ = 10 * x := by rw [← hx, mul_assoc]
    have hsum : (10 : ℚ) ^ (1001 : ℤ) < 10 * 2 ^ (1024 : ℤ) :=
      hlarge.trans_lt (mul_lt_mul_of_pos_left hu (by norm_num))
    have hpow : (10 : ℚ) * 2 ^ (1024 : ℤ) ≤ 10 ^ (1001 : ℤ) := by
      have hnat : 10 * 2 ^ 1024 ≤ 10 ^ 1001 := by decide +kernel
      exact mod_cast hnat
    exact absurd hsum (not_lt.mpr hpow)

/-- The digits stand for the number itself, so they read back. -/
theorem exactDigits_readsBack : exactDigits.ReadsBack := by
  intro w hpos hfin
  have hm : 0 < Binary64.mantissa w :=
    Nat.pos_of_ne_zero fun h => hpos.ne' (Binary64.mantissa_eq_zero h)
  obtain ⟨d, hd, htext, hvalue⟩ : ∃ d : ℕ, 0 < d ∧ (exactDigits w).1 = Decimal.text d ∧
      (d * 10 ^ (exactDigits w).2 : ℚ) = Binary64.value w := by
    unfold exactDigits
    simp only
    split_ifs with hs
    · obtain ⟨hd, heq⟩ := stripZeros_spec 800 (d := Binary64.mantissa w * 2 ^ (Binary64.scale w).toNat)
        (by positivity) 0
      refine ⟨_, hd, rfl, heq.trans ?_⟩
      rw [Binary64.value, zpow_zero, mul_one]
      push_cast
      rw [← zpow_natCast, Int.toNat_of_nonneg hs]
    · obtain ⟨hd, heq⟩ := stripZeros_spec 800 (d := Binary64.mantissa w * 5 ^ (-Binary64.scale w).toNat)
        (by positivity) (Binary64.scale w)
      refine ⟨_, hd, rfl, heq.trans ?_⟩
      have hten : (10 : ℚ) ^ Binary64.scale w = 2 ^ Binary64.scale w * 5 ^ Binary64.scale w := by
        rw [← mul_zpow]
        norm_num
      have hfive : (5 : ℚ) ^ (-Binary64.scale w).toNat * 5 ^ Binary64.scale w = 1 := by
        rw [← zpow_natCast, Int.toNat_of_nonneg (by omega), ← zpow_add₀ (by norm_num)]
        simp
      rw [Binary64.value, hten]
      push_cast
      linear_combination (Binary64.mantissa w : ℚ) * 2 ^ Binary64.scale w * hfive
  obtain ⟨hl, hu⟩ := Binary64.value_bounds hpos hfin
  obtain ⟨hlow, hhigh⟩ := exponent_bounds hd hvalue hl hu
  rw [htext, Decimal.value_text, hvalue]
  exact ⟨text_whole d, text_head hd, hlow, hhigh, Binary64.nearest_value hfin⟩

theorem codec_strict (grisu : Grisu) : (codec grisu).Strict := fun j => dump_isSome grisu .compact 0 j

theorem Grisu.ReadsBack.lawful {grisu : Grisu} (hg : grisu.ReadsBack) : (codec grisu).Lawful where
  dump_isSome := fun j hj => (dump_isSome grisu .compact 0 j).trans hj
  dumpIndented_isSome := fun j hj => (dump_isSome grisu .indented 0 j).trans hj
  parse_dump := fun _ _ hw ht => parse_of_dump hg ht hw
  parse_dumpIndented := fun _ _ hw ht => parse_of_dump hg ht hw
  line := fun j t ht => oneLine_dump hg j 0 t ht
  parse_nil := rfl

theorem Grisu.ReadsBack.exact {grisu : Grisu} (hg : grisu.ReadsBack) : (codec grisu).Exact where
  dumps := fun j hj => (dump_isSome grisu .indented 0 j).trans hj
  parses := fun j t hw hf ht => by
    rw [← Json.written_of_finite j hf]
    exact parse_of_dump hg ht hw
  whole := fun members t hw ht n hn => by
    by_contra hsome
    obtain ⟨j, hparse⟩ := Option.ne_none_iff_exists'.mp hsome
    exact absurd (length_le_of_parse hg (.inr ⟨members, rfl⟩) hw ht hparse) (by omega)
  parse_nil := rfl

/-- The codec keeps the laws the program relies on, and it writes every value but those with a string
that is not UTF-8. -/
theorem codec_lawful {grisu : Grisu} (hg : grisu.ReadsBack) : (codec grisu).Lawful ∧ (codec grisu).Strict :=
  ⟨hg.lawful, codec_strict grisu⟩

def sample : Json :=
  .obj [(str "a", .arr [.int (-3), .float 0x3FE0000000000000, .null]), (str "é", .str (str "x\n"))]

def sampleLine : Str := str "\x7b\"a\":[-3,0.5,null],\"é\":\"x\\n\"\x7d"

theorem codec_lawful_exactDigits :
    (codec exactDigits).Lawful ∧ (codec exactDigits).Strict ∧
      (codec exactDigits).dump sample = some sampleLine :=
  ⟨(codec_lawful exactDigits_readsBack).1, (codec_lawful exactDigits_readsBack).2, by decide +kernel⟩

/-- A text that is accepted holds a value of the library, and writing it gives a text of its own that
stands for the same value, in every layout. -/
theorem parse_canonical {grisu : Grisu} (hg : grisu.ReadsBack) {text : Str} {j : Json}
    (h : parse text = some j) :
    (j.wellFormed = true ∧ j.finite = true ∧ j.dumpable = true) ∧
      ∀ l : Layout, ∃ t, dump grisu l 0 j = some t ∧ parse t = some j := by
  have hsound := parse_sound h
  refine ⟨hsound, fun l => ?_⟩
  obtain ⟨t, ht⟩ := Option.isSome_iff_exists.mp ((dump_isSome grisu l 0 j).trans hsound.2.2)
  exact ⟨t, ht, by rw [parse_of_dump hg ht hsound.1, Json.written_of_finite j hsound.2.1]⟩

def repeated : Str := str "\x7b\"b\":1,\"a\":null , \"b\":\"\\u00e9\"\x7d"

/-- A key twice, and members that are not in order. -/
theorem parse_canonical_twice :
    ∃ t, dump exactDigits .compact 0 (.obj [(str "a", .null), (str "b", .str (str "é"))]) = some t ∧
      parse t = some (.obj [(str "a", .null), (str "b", .str (str "é"))]) :=
  (@parse_canonical exactDigits exactDigits_readsBack repeated _ (by decide +kernel)).2 .compact

/-- The line of the sample, cut off behind its last member. -/
theorem parse_take_sample : parse (sampleLine.take 29) = none :=
  @parse_take exactDigits exactDigits_readsBack .compact sample sampleLine (.inr ⟨_, rfl⟩)
    (by decide +kernel) (by decide +kernel) 29 (by decide +kernel)

/-- The library accepts the texts whose tokens are those of one value as JSON writes it, and the
explicit stacks of its loop compute what the nested value means. -/
theorem parse_iff (text : Str) (j : Json) :
    parse text = some j ↔ ∃ x : Raw, tokens text = x.tokens ++ [endOfInput] ∧ x.value = j :=
  parseTokens_iff (tokens text) j

end JsonText
end LynneSocial
