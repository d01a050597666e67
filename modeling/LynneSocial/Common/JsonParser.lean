import LynneSocial.Common.JsonLexer

/-!
# Reading JSON: the parser

`sax_parse_internal` is one loop with a stack that says for every open container
whether it is an array; the value is built by the handler it calls, which has a
stack of its own. Here the loop takes one token at a time: it stands at one of
the places where it calls `get_token()`.

What the loop accepts are the token lists of trees, and it builds their values.
-/
namespace LynneSocial
namespace JsonText
open Token

/-- A container that is not closed yet. In the C++ code it stands in the one that encloses it from
the start; here it is put there when it is closed. -/
inductive Frame where
  | arr (xs : List Json)
  /-- An object and the key that the next value is for. -/
  | obj (members : List (Str × Json)) (element : Str)

/-- `json_sax_dom_parser`. -/
structure Dom where
  root : Json
  refStack : List Frame

/-- The assignment through a pointer to the member with a key. -/
def assign (key : Str) (x : Json) (members : List (Str × Json)) : List (Str × Json) :=
  members.map fun m => if m.1 = key then (m.1, x) else m

namespace Dom

def handleValue (d : Dom) (x : Json) : Dom :=
  match d.refStack with
  | [] => { d with root := x }
  | .arr xs :: rest => { d with refStack := .arr (xs ++ [x]) :: rest }
  | .obj members element :: rest =>
    { d with refStack := .obj (assign element x members) element :: rest }

def startArray (d : Dom) : Dom := { d with refStack := .arr [] :: d.refStack }

def startObject (d : Dom) : Dom := { d with refStack := .obj [] [] :: d.refStack }

/-- `operator[]` puts null behind a key that is not there yet. -/
def key (d : Dom) (k : Str) : Dom :=
  match d.refStack with
  | .obj members _ :: rest => { d with refStack := .obj (Json.emplace k .null members) k :: rest }
  | _ => d

/-- `end_array` and `end_object`. -/
def close (d : Dom) : Dom :=
  match d.refStack with
  | .arr xs :: rest => handleValue { d with refStack := rest } (.arr xs)
  | .obj members _ :: rest => handleValue { d with refStack := rest } (.obj members)
  | [] => d

end Dom

/-- Where the loop calls `get_token()`. -/
inductive Point where
  | value
  /-- Behind a bracket that opens an array; unless it is closed at once, the token begins a value. -/
  | firstElement
  | firstKey
  | key
  | colon
  /-- Behind a value. -/
  | after
  /-- `parse` has seen the end of the input behind the value. -/
  | done
deriving DecidableEq

structure Loop where
  point : Point
  /-- `states`, the innermost first: true for an array. -/
  states : List Bool
  dom : Dom

/-- A token that is a value by itself. -/
def Token.scalar? : Token → Option Json
  | literalTrue => some (.bool true)
  | literalFalse => some (.bool false)
  | literalNull => some .null
  | valueString s => some (.str s)
  | valueUnsigned n => some (.int n)
  | valueInteger n => some (.int n)
  | valueFloat bits => if Json.isFinite bits then some (.float bits) else none
  | _ => none

namespace Loop

def init : Loop := ⟨.value, [], ⟨.null, []⟩⟩

/-- The switch over a token that begins a value; `none` is a parse error. -/
def onValue (l : Loop) (t : Token) : Option Loop :=
  match t with
  | beginObject => some { l with point := .firstKey, dom := l.dom.startObject }
  | beginArray => some { l with point := .firstElement, dom := l.dom.startArray }
  | t => t.scalar?.map fun x => { l with point := .after, dom := l.dom.handleValue x }

/-- A key where one must be. -/
def onKey (l : Loop) (states : List Bool) (t : Token) : Option Loop :=
  match t with
  | valueString k => some { l with point := .colon, states := states, dom := l.dom.key k }
  | _ => none

def step (l : Loop) (t : Token) : Option Loop :=
  match l.point with
  | .value => l.onValue t
  | .firstElement =>
    if t = endArray then some { l with point := .after, dom := l.dom.close }
    else onValue { l with states := true :: l.states } t
  | .firstKey =>
    if t = endObject then some { l with point := .after, dom := l.dom.close }
    else l.onKey (false :: l.states) t
  | .key => l.onKey l.states t
  | .colon => if t = nameSeparator then some { l with point := .value } else none
  | .after =>
    match l.states with
    | [] => if t = endOfInput then some { l with point := .done } else none
    | true :: rest =>
      if t = valueSeparator then some { l with point := .value }
      else if t = endArray then some { l with states := rest, dom := l.dom.close }
      else none
    | false :: rest =>
      if t = valueSeparator then some { l with point := .key }
      else if t = endObject then some { l with states := rest, dom := l.dom.close }
      else none
  | .done => none

def run (l : Loop) (ts : List Token) : Option Loop := ts.foldlM step l

end Loop

/-- The value of a list of tokens that ends with the input. -/
def parseTokens (ts : List Token) : Option Json :=
  match Loop.init.run ts with
  | some l => if l.point = .done then some l.dom.root else none
  | none => none

/-- `json::parse`. -/
def parse (text : Str) : Option Json := parseTokens (tokens text)

/-- A value as it is written: members in any order, and keys more than once. -/
inductive Raw where
  | leaf (t : Token) (x : Json) (h : t.scalar? = some x)
  | arr (xs : List Raw)
  | obj (members : List (Str × Raw))

namespace Raw

mutual
def tokens : Raw → List Token
  | leaf t _ _ => [t]
  | arr xs => beginArray :: elementTokens xs ++ [endArray]
  | obj members => beginObject :: memberTokens members ++ [endObject]

def elementTokens : List Raw → List Token
  | [] => []
  | x :: xs => x.tokens ++ if xs.isEmpty then [] else valueSeparator :: elementTokens xs

def memberTokens : List (Str × Raw) → List Token
  | [] => []
  | (k, x) :: xs => valueString k :: nameSeparator :: x.tokens ++
      if xs.isEmpty then [] else valueSeparator :: memberTokens xs
end

mutual
/-- Of several members with one key the last one counts; the members are in the order of their keys. -/
def value : Raw → Json
  | leaf _ x _ => x
  | arr xs => .arr (values xs)
  | obj members => .obj (memberValues [] members)

def values : List Raw → List Json
  | [] => []
  | x :: xs => x.value :: values xs

def memberValues (acc : List (Str × Json)) : List (Str × Raw) → List (Str × Json)
  | [] => acc
  | (k, x) :: xs => memberValues (assign k x.value (Json.emplace k .null acc)) xs
end

theorem values_append (xs ys : List Raw) : values (xs ++ ys) = values xs ++ values ys := by
  induction xs with
  | nil => rfl
  | cons x xs ih => simp only [List.cons_append, values, ih]

theorem memberValues_append (acc : List (Str × Json)) (xs ys : List (Str × Raw)) :
    memberValues acc (xs ++ ys) = memberValues (memberValues acc xs) ys := by
  induction xs generalizing acc with
  | nil => rfl
  | cons x xs ih => simp only [List.cons_append, memberValues, ih]

/-- The elements before another one. -/
def leadingElements (xs : List Raw) : List Token := xs.flatMap fun x => x.tokens ++ [valueSeparator]

def leadingMembers (xs : List (Str × Raw)) : List Token :=
  xs.flatMap fun m => valueString m.1 :: nameSeparator :: m.2.tokens ++ [valueSeparator]

theorem elementTokens_concat (xs : List Raw) (x : Raw) :
    elementTokens (xs ++ [x]) = leadingElements xs ++ x.tokens := by
  induction xs with
  | nil => simp [elementTokens, leadingElements]
  | cons y ys ih => simp [elementTokens, ih, leadingElements]

theorem memberTokens_concat (xs : List (Str × Raw)) (k : Str) (x : Raw) :
    memberTokens (xs ++ [(k, x)]) =
      leadingMembers xs ++ valueString k :: nameSeparator :: x.tokens := by
  induction xs with
  | nil => simp [memberTokens, leadingMembers]
  | cons y ys ih => simp [memberTokens, ih, leadingMembers]

theorem leadingElements_concat (xs : List Raw) (x : Raw) :
    leadingElements (xs ++ [x]) = leadingElements xs ++ x.tokens ++ [valueSeparator] := by
  simp [leadingElements]

theorem leadingMembers_concat (xs : List (Str × Raw)) (k : Str) (x : Raw) :
    leadingMembers (xs ++ [(k, x)]) =
      leadingMembers xs ++ valueString k :: nameSeparator :: x.tokens ++ [valueSeparator] := by
  simp [leadingMembers]

end Raw

namespace Loop
open Raw

theorem run_append (l : Loop) (ts us : List Token) : l.run (ts ++ us) = (l.run ts).bind (·.run us) :=
  List.foldlM_append

theorem run_cons (l : Loop) (t : Token) (ts : List Token) :
    l.run (t :: ts) = (l.step t).bind (·.run ts) := rfl

theorem onValue_scalar {t : Token} {x : Json} (h : t.scalar? = some x) (l : Loop) :
    l.onValue t = some { l with point := .after, dom := l.dom.handleValue x } := by
  cases t <;> simp only [Token.scalar?, reduceCtorEq] at h <;> simp [onValue, Token.scalar?, h]

/-- Behind the opening bracket a value is read as everywhere else in an array. -/
theorem run_firstElement (x : Raw) (xs : List Raw) (states : List Bool) (d : Dom) :
    run ⟨.firstElement, states, d⟩ (elementTokens (x :: xs)) =
      run ⟨.value, true :: states, d⟩ (elementTokens (x :: xs)) := by
  cases x with
  | leaf t y h =>
      have ht : t ≠ endArray := fun ht => by simp [ht, Token.scalar?] at h
      simp [elementTokens, Raw.tokens, run_cons, step, ht, onValue_scalar h]
  | arr xs => simp [elementTokens, Raw.tokens, run_cons, step, onValue]
  | obj members => simp [elementTokens, Raw.tokens, run_cons, step, onValue]

theorem run_firstKey (m : Str × Raw) (xs : List (Str × Raw)) (states : List Bool) (d : Dom) :
    run ⟨.firstKey, states, d⟩ (memberTokens (m :: xs)) =
      run ⟨.key, false :: states, d⟩ (memberTokens (m :: xs)) := by
  simp [memberTokens, run_cons, step, onKey]

mutual
theorem run_tokens : ∀ (x : Raw) (states : List Bool) (d : Dom),
    run ⟨.value, states, d⟩ x.tokens = some ⟨.after, states, d.handleValue x.value⟩
  | .leaf t x h, states, d => by
      simp only [Raw.tokens, run_cons, step, onValue_scalar h]
      rfl
  | .arr [], states, d => rfl
  | .arr (x :: xs), states, d => by
      rw [Raw.tokens, List.cons_append, run_cons]
      change run ⟨.firstElement, states, d.startArray⟩ _ = _
      rw [run_append, run_firstElement, Dom.startArray,
        run_elements (x :: xs) (by simp) states [] d.root d.refStack]
      rfl
  | .obj [], states, d => rfl
  | .obj ((k, x) :: xs), states, d => by
      rw [Raw.tokens, List.cons_append, run_cons]
      change run ⟨.firstKey, states, d.startObject⟩ _ = _
      obtain ⟨e, he⟩ := run_members ((k, x) :: xs) (by simp) states [] [] d.root d.refStack
      rw [run_append, run_firstKey, Dom.startObject, he]
      rfl

theorem run_elements : ∀ (xs : List Raw), xs ≠ [] → ∀ (states : List Bool) (ys : List Json)
    (root : Json) (rest : List Frame),
    run ⟨.value, true :: states, ⟨root, .arr ys :: rest⟩⟩ (elementTokens xs) =
      some ⟨.after, true :: states, ⟨root, .arr (ys ++ values xs) :: rest⟩⟩
  | [], h, _, _, _, _ => absurd rfl h
  | [x], _, states, ys, root, rest => by
      simp only [elementTokens, List.isEmpty_nil, if_true, List.append_nil, run_tokens x]
      rfl
  | x :: x' :: xs, _, states, ys, root, rest => by
      rw [elementTokens, run_append, run_tokens x]
      have hmore := run_elements (x' :: xs) (by simp) states (ys ++ [x.value]) root rest
      simp only [List.append_assoc, List.singleton_append] at hmore
      simpa [run_cons, step, Dom.handleValue, values] using hmore

theorem run_members : ∀ (xs : List (Str × Raw)), xs ≠ [] → ∀ (states : List Bool)
    (ys : List (Str × Json)) (e : Str) (root : Json) (rest : List Frame),
    ∃ e', run ⟨.key, false :: states, ⟨root, .obj ys e :: rest⟩⟩ (memberTokens xs) =
      some ⟨.after, false :: states, ⟨root, .obj (memberValues ys xs) e' :: rest⟩⟩
  | [], h, _, _, _, _, _ => absurd rfl h
  | (k, x) :: xs, _, states, ys, e, root, rest => by
      have hmember : ∀ us, run ⟨.key, false :: states, ⟨root, .obj ys e :: rest⟩⟩
          (valueString k :: nameSeparator :: x.tokens ++ us) =
          run ⟨.after, false :: states,
            ⟨root, .obj (assign k x.value (Json.emplace k .null ys)) k :: rest⟩⟩ us := by
        intro us
        have hvalue := run_tokens x (false :: states) ⟨root, .obj (Json.emplace k .null ys) k :: rest⟩
        simp [run_cons, step, onKey, Dom.key, run_append, hvalue, Dom.handleValue]
      rw [memberTokens, hmember]
      cases xs with
      | nil => exact ⟨k, rfl⟩
      | cons m xs =>
          exact run_members (m :: xs) (by simp) states _ k root rest
end

/-- The tokens before a value, with the containers that are open there. -/
inductive Opens : List Token → List Bool → List Frame → Prop where
  | nil : Opens [] [] []
  | arr {ts : List Token} {states : List Bool} {frames : List Frame} (h : Opens ts states frames)
      (xs : List Raw) :
      Opens (ts ++ beginArray :: leadingElements xs) (true :: states) (.arr (values xs) :: frames)
  | obj {ts : List Token} {states : List Bool} {frames : List Frame} (h : Opens ts states frames)
      (xs : List (Str × Raw)) (k : Str) :
      Opens (ts ++ beginObject :: leadingMembers xs ++ [valueString k, nameSeparator])
        (false :: states) (.obj (Json.emplace k .null (memberValues [] xs)) k :: frames)

/-- What has been read when the loop stands at a point. -/
def Has (ts : List Token) (l : Loop) : Prop :=
  match l.point with
  | .value => Opens ts l.states l.dom.refStack
  | .firstElement => ∃ us frames, ts = us ++ [beginArray] ∧ l.dom.refStack = .arr [] :: frames ∧
      Opens us l.states frames
  | .firstKey => ∃ us frames, ts = us ++ [beginObject] ∧ l.dom.refStack = .obj [] [] :: frames ∧
      Opens us l.states frames
  | .key => ∃ us xs e states frames, ts = us ++ beginObject :: leadingMembers xs ∧
      l.states = false :: states ∧ l.dom.refStack = .obj (memberValues [] xs) e :: frames ∧
      Opens us states frames
  | .colon => ∃ us xs k states frames, ts = us ++ beginObject :: leadingMembers xs ++ [valueString k] ∧
      l.states = false :: states ∧
      l.dom.refStack = .obj (Json.emplace k .null (memberValues [] xs)) k :: frames ∧
      Opens us states frames
  | .after => ∃ (us : List Token) (d : Dom) (x : Raw), ts = us ++ x.tokens ∧ l.dom = d.handleValue x.value ∧
      Opens us l.states d.refStack
  | .done => ∃ x : Raw, ts = x.tokens ++ [endOfInput] ∧ l.dom.root = x.value

theorem onValue_has {ts : List Token} {p : Point} {states : List Bool} {d : Dom} {t : Token} {l : Loop}
    (h : Opens ts states d.refStack) (hl : onValue ⟨p, states, d⟩ t = some l) : Has (ts ++ [t]) l := by
  unfold onValue at hl
  split at hl
  · cases hl
    exact ⟨ts, d.refStack, rfl, rfl, h⟩
  · cases hl
    exact ⟨ts, d.refStack, rfl, rfl, h⟩
  · obtain ⟨x, hx, rfl⟩ := Option.map_eq_some_iff.mp hl
    exact ⟨ts, d, .leaf t x hx, rfl, rfl, h⟩

theorem onKey_has {us ts : List Token} {p : Point} {xs : List (Str × Raw)} {states st : List Bool} {e : Str}
    {frames : List Frame} {d : Dom} {t : Token} {l : Loop}
    (hts : ts = us ++ beginObject :: leadingMembers xs)
    (hd : d.refStack = .obj (memberValues [] xs) e :: frames) (h : Opens us states frames)
    (hl : onKey ⟨p, st, d⟩ (false :: states) t = some l) : Has (ts ++ [t]) l := by
  unfold onKey at hl
  split at hl
  · rename_i k
    cases hl
    refine ⟨us, xs, k, states, frames, by rw [hts], rfl, ?_, h⟩
    simp only [Dom.key, hd]
  · cases hl

theorem step_has {ts : List Token} {l l' : Loop} {t : Token} (h : Has ts l) (hl : l.step t = some l') :
    Has (ts ++ [t]) l' := by
  obtain ⟨p, states, d⟩ := l
  cases p with
  | value => exact onValue_has h hl
  | firstElement =>
      obtain ⟨us, frames, rfl, hd, ho⟩ := h
      simp only at hd
      simp only [step] at hl
      split at hl
      · rename_i ht
        cases hl
        refine ⟨us, ⟨d.root, frames⟩, .arr [], by simp [Raw.tokens, elementTokens, ht], ?_, ho⟩
        simp [Dom.close, hd, Raw.value, values]
      · refine onValue_has ?_ hl
        rw [hd]
        exact ho.arr []
  | firstKey =>
      obtain ⟨us, frames, rfl, hd, ho⟩ := h
      simp only at hd
      simp only [step] at hl
      split at hl
      · rename_i ht
        cases hl
        refine ⟨us, ⟨d.root, frames⟩, .obj [], by simp [Raw.tokens, memberTokens, ht], ?_, ho⟩
        simp [Dom.close, hd, Raw.value, memberValues]
      · exact @onKey_has _ _ _ [] _ _ _ _ _ _ _ rfl hd ho hl
  | key =>
      obtain ⟨us, xs, e, st, frames, hts, rfl, hd, ho⟩ := h
      exact onKey_has hts hd ho hl
  | colon =>
      obtain ⟨us, xs, k, st, frames, rfl, rfl, hd, ho⟩ := h
      simp only [step, Option.ite_none_right_eq_some, Option.some.injEq] at hl
      obtain ⟨rfl, rfl⟩ := hl
      simp only [Has]
      simp only at hd
      rw [hd]
      simpa using ho.obj xs k
  | after =>
      obtain ⟨us, ⟨root, frames⟩, x, rfl, hd, ho⟩ := h
      simp only at hd ho
      simp only [step] at hl
      cases ho with
      | nil =>
          simp only [Option.ite_none_right_eq_some, Option.some.injEq] at hl
          obtain ⟨rfl, rfl⟩ := hl
          exact ⟨x, by simp, by rw [hd]; rfl⟩
      | @arr us states frames ho xs =>
          have hvalues : values (xs ++ [x]) = values xs ++ [x.value] := values_append xs [x]
          simp only at hl
          split at hl
          · rename_i ht
            cases hl
            simp only [Has, hd, Dom.handleValue, ← hvalues]
            simpa [ht, leadingElements_concat] using ho.arr (xs ++ [x])
          · simp only [Option.ite_none_right_eq_some, Option.some.injEq] at hl
            obtain ⟨rfl, rfl⟩ := hl
            refine ⟨us, ⟨root, frames⟩, .arr (xs ++ [x]), ?_, ?_, ho⟩
            · simp [Raw.tokens, elementTokens_concat]
            · simp [hd, Dom.handleValue, Dom.close, Raw.value, hvalues]
      | @obj us states frames ho xs k =>
          have hvalues : memberValues [] (xs ++ [(k, x)]) =
              assign k x.value (Json.emplace k .null (memberValues [] xs)) := memberValues_append [] xs _
          simp only at hl
          split at hl
          · rename_i ht
            cases hl
            refine ⟨us, xs ++ [(k, x)], k, states, frames, ?_, rfl, ?_, ho⟩
            · simp [ht, leadingMembers_concat]
            · simp [hd, Dom.handleValue, hvalues]
          · simp only [Option.ite_none_right_eq_some, Option.some.injEq] at hl
            obtain ⟨rfl, rfl⟩ := hl
            refine ⟨us, ⟨root, frames⟩, .obj (xs ++ [(k, x)]), ?_, ?_, ho⟩
            · simp [Raw.tokens, memberTokens_concat]
            · simp [hd, Dom.handleValue, Dom.close, Raw.value, hvalues]
  | done => cases hl

theorem run_has {ts us : List Token} {l l' : Loop} (h : Has ts l) (hl : l.run us = some l') :
    Has (ts ++ us) l' := by
  induction us generalizing ts l with
  | nil =>
      obtain rfl : l = l' := Option.some.inj hl
      rwa [List.append_nil]
  | cons t us ih =>
      rw [run_cons] at hl
      obtain ⟨l₁, h₁, hl⟩ := Option.bind_eq_some_iff.mp hl
      simpa using ih (step_has h h₁) hl

end Loop

/-- The loop accepts the texts of the grammar and no others, and it computes what they mean: the
tokens of one value as it is written, and then the end. -/
theorem parseTokens_iff (ts : List Token) (j : Json) :
    parseTokens ts = some j ↔ ∃ x : Raw, ts = x.tokens ++ [endOfInput] ∧ x.value = j := by
  constructor
  · intro h
    unfold parseTokens at h
    split at h
    · rename_i l hl
      simp only [Option.ite_none_right_eq_some, Option.some.injEq] at h
      have hhas : Loop.Has [] Loop.init := Loop.Opens.nil
      have hdone := Loop.run_has hhas hl
      rw [Loop.Has, h.1] at hdone
      obtain ⟨x, hx, hroot⟩ := hdone
      exact ⟨x, hx, hroot ▸ h.2⟩
    · cases h
  · rintro ⟨x, rfl, rfl⟩
    have hrun : Loop.init.run (x.tokens ++ [endOfInput]) = some ⟨.done, [], ⟨x.value, []⟩⟩ := by
      rw [Loop.run_append, Loop.init, Loop.run_tokens]
      rfl
    simp only [parseTokens, hrun, if_true]

end JsonText
end LynneSocial
