import LynneSocial.Browser.CdpBrowserManager
import LynneSocial.Lib.StringLiteral

/-!
# Scripts

The JavaScript texts of the operations that take a selector. The selector and
the text to type are put between single quotes, each by its own escaper; the one
of the selector knows no line ends.
-/
namespace LynneSocial.Browser

open StringLiteral

/-- The loop of `type` over its text. -/
def escapeText (text : Str) : Str :=
  text.flatMap fun c =>
    if c = 92 then [92, 92] else if c = 39 then [92, 39] else if c = 10 then [92, 110]
    else if c = 13 then [92, 114] else [c]

def clickScript (selector : Str) : Str :=
  str "(()=>\x7b\n        const e=document.querySelector('" ++ State.jsSelector selector ++
  (str "');\n        if(!e)return false;\n" ++
  str "        e.dispatchEvent(new MouseEvent('mousedown',\x7bbubbles:true,cancelable:true,view:window\x7d));\n" ++
  str "        e.dispatchEvent(new MouseEvent('mouseup',\x7bbubbles:true,cancelable:true,view:window\x7d));\n" ++
  str "        e.dispatchEvent(new MouseEvent('click',\x7bbubbles:true,cancelable:true,view:window\x7d));\n" ++
  str "        if(e.tagName==='A'&&e.href)window.location.href=e.href;\n" ++
  str "        else if(e.form&&(e.type==='submit'||e.tagName==='BUTTON'))e.form.submit();\n" ++
  str "        return true;\n    \x7d)()")

def typeScript (selector text : Str) : Str :=
  str "(()=>\x7bconst e=document.querySelector('" ++ State.jsSelector selector ++
  (str "');if(!e)return false;e.focus();e.value='" ++ escapeText text ++
  str "';e.dispatchEvent(new Event('input',\x7bbubbles:true\x7d));" ++
  str "e.dispatchEvent(new Event('change',\x7bbubbles:true\x7d));return true;\x7d)()")

def hoverScript (selector : Str) : Str :=
  str "(()=>\x7b\n        const e=document.querySelector('" ++ State.jsSelector selector ++
  (str "');\n        if(!e)return false;\n" ++
  str "        e.dispatchEvent(new MouseEvent('mouseover',\x7bbubbles:true,cancelable:true,view:window\x7d));\n" ++
  str "        e.dispatchEvent(new MouseEvent('mouseenter',\x7bbubbles:false,cancelable:true,view:window\x7d));\n" ++
  str "        return true;\n    \x7d)()")

/-- The operations that look for an element. -/
inductive SelectorCall where
  | click
  | type (text : Str)
  | hover
  | exists
  | waitForSelector

def SelectorCall.script : SelectorCall → Str → Str
  | click, selector => clickScript selector
  | type text, selector => typeScript selector text
  | hover, selector => hoverScript selector
  | .exists, selector | waitForSelector, selector => State.existsScript selector

/-- What becomes of a byte of a selector. -/
def selectorByte (c : UInt8) : Str := if c = 92 then [92, 92] else if c = 39 then [92, 39] else [c]

theorem jsSelector_eq (selector : Str) : State.jsSelector selector = selector.flatMap selectorByte := rfl

theorem selectorByte_reads {c : UInt8} (hl : c ≠ lineFeed) (hr : c ≠ carriageReturn) :
    Reads (selectorByte c) [c] := by
  unfold selectorByte
  split
  · subst c
    exact .escape rfl
  · split
    · subst c
      exact .escape rfl
    · exact .char ‹_› ‹_› hl hr

theorem jsSelector_reads {selector : Str} (hl : lineFeed ∉ selector) (hr : carriageReturn ∉ selector) :
    Reads (State.jsSelector selector) selector :=
  .flatMap fun _ hc => selectorByte_reads (fun h => hl (h ▸ hc)) fun h => hr (h ▸ hc)

/-- A line end in a selector is a line end in the literal. -/
theorem jsSelector_broken {selector : Str} (h : lineFeed ∈ selector ∨ carriageReturn ∈ selector) (rest : Str) :
    read .chars (State.jsSelector selector ++ rest) = none := by
  rw [jsSelector_eq]
  induction selector with
  | nil => simp at h
  | cons c selector ih =>
      rw [List.flatMap_cons, List.append_assoc]
      by_cases hc : c = lineFeed ∨ c = carriageReturn
      · have hbyte : selectorByte c = [c] := by rcases hc with rfl | rfl <;> rfl
        rw [hbyte]
        exact Reads.nil.line_end hc _
      · obtain ⟨hl, hr⟩ := not_or.mp hc
        have hrest : lineFeed ∈ selector ∨ carriageReturn ∈ selector := by
          simpa [Ne.symm hl, Ne.symm hr] using h
        rw [selectorByte_reads hl hr, ih hrest]
        rfl

theorem script_eq (call : SelectorCall) : ∃ before after, str "document.querySelector(" <:+ before ∧
    ∀ selector, call.script selector = before ++ quote :: (State.jsSelector selector ++ quote :: after) := by
  have hsplit : ∀ head tail : Str, head.getLast? = some quote → tail.head? = some quote → ∀ selector,
      head ++ State.jsSelector selector ++ tail =
        head.dropLast ++ quote :: (State.jsSelector selector ++ quote :: tail.tail) := by
    intro head tail hh ht selector
    obtain ⟨pre, rfl⟩ := List.getLast?_eq_some_iff.mp hh
    obtain ⟨post, rfl⟩ := List.head?_eq_some_iff.mp ht
    simp
  cases call with
  | click =>
      exact ⟨_, _, by decide +kernel, hsplit _ _ (by decide +kernel) (by decide +kernel)⟩
  | type text =>
      refine ⟨_, _, by decide +kernel, hsplit _ _ (by decide +kernel) ?_⟩
      have hhead : str "');if(!e)return false;e.focus();e.value='" =
          quote :: str ");if(!e)return false;e.focus();e.value='" := by decide +kernel
      simp only [hhead, List.cons_append, List.head?_cons]
  | hover =>
      exact ⟨_, _, by decide +kernel, hsplit _ _ (by decide +kernel) (by decide +kernel)⟩
  | «exists» =>
      exact ⟨_, _, by decide +kernel, hsplit _ _ (by decide +kernel) (by decide +kernel)⟩
  | waitForSelector =>
      exact ⟨_, _, by decide +kernel, hsplit _ _ (by decide +kernel) (by decide +kernel)⟩

/-- The literal behind `document.querySelector(` has the selector as its value and ends at the
quote of the script, if and only if the selector has no line end. -/
theorem selectors_reach_page_iff (call : SelectorCall) : ∃ before after,
    str "document.querySelector(" <:+ before ∧ ∀ selector,
      call.script selector = before ++ quote :: (State.jsSelector selector ++ quote :: after) ∧
      (read .chars (State.jsSelector selector ++ quote :: after) = some (selector, after) ↔
        lineFeed ∉ selector ∧ carriageReturn ∉ selector) := by
  obtain ⟨before, after, hbefore, hscript⟩ := script_eq call
  refine ⟨before, after, hbefore, fun selector => ⟨hscript selector, ?_⟩⟩
  constructor
  · intro h
    by_contra hno
    rw [jsSelector_broken (by tauto)] at h
    cases h
  · rintro ⟨hl, hr⟩
    exact (jsSelector_reads hl hr).close after

/-- A selector over two lines. -/
theorem selector_breaks_line : ¬ ∀ (call : SelectorCall) (selector : Str), ∃ before after,
    str "document.querySelector(" <:+ before ∧
      call.script selector = before ++ quote :: (State.jsSelector selector ++ quote :: after) ∧
      read .chars (State.jsSelector selector ++ quote :: after) = some (selector, after) := by
  intro h
  obtain ⟨before, after, -, -, hread⟩ := h .exists (str "a,\nb")
  rw [jsSelector_broken (.inl (by decide +kernel))] at hread
  cases hread

def textByte (c : UInt8) : Str :=
  if c = 92 then [92, 92] else if c = 39 then [92, 39] else if c = 10 then [92, 110]
  else if c = 13 then [92, 114] else [c]

theorem escapeText_eq (text : Str) : escapeText text = text.flatMap textByte := rfl

theorem textByte_cases (c : UInt8) :
    (∃ d, textByte c = [backslash, d] ∧ escaped d = some (.go .chars [c]) ∧ d ≠ lineFeed ∧
      d ≠ carriageReturn) ∨
    (textByte c = [c] ∧ c ≠ quote ∧ c ≠ backslash ∧ c ≠ lineFeed ∧ c ≠ carriageReturn) := by
  unfold textByte
  split
  · subst c
    exact .inl ⟨92, rfl, rfl, by decide, by decide⟩
  · split
    · subst c
      exact .inl ⟨39, rfl, rfl, by decide, by decide⟩
    · split
      · subst c
        exact .inl ⟨110, rfl, rfl, by decide, by decide⟩
      · split
        · subst c
          exact .inl ⟨114, rfl, rfl, by decide, by decide⟩
        · exact .inr ⟨rfl, ‹_›, ‹_›, ‹_›, ‹_›⟩

theorem escapeText_reads (text : Str) : Reads (escapeText text) text := by
  refine .flatMap fun c _ => ?_
  change Reads (textByte c) [c]
  rcases textByte_cases c with ⟨d, hd, he, -, -⟩ | ⟨hc, hq, hb, hl, hr⟩
  · rw [hd]
    exact .escape he
  · rw [hc]
    exact .char hq hb hl hr

/-- The bytes that are not part of an escape: a backslash takes the next byte with it. -/
def unescaped : Str → Str
  | 92 :: _ :: cs => unescaped cs
  | c :: cs => c :: unescaped cs
  | [] => []

theorem unescaped_pair (d : UInt8) (cs : Str) : unescaped (backslash :: d :: cs) = unescaped cs := rfl

theorem unescaped_cons {c : UInt8} (hc : c ≠ backslash) (cs : Str) :
    unescaped (c :: cs) = c :: unescaped cs := by
  cases cs with
  | nil => simp [unescaped]
  | cons d cs => rw [unescaped]; rintro _ _ rfl; exact absurd rfl hc

/-- No quote, backslash or line end of a typed text stands unescaped in the script. -/
theorem escapeText_unescaped (text : Str) :
    ∀ c ∈ unescaped (escapeText text), c ≠ quote ∧ c ≠ backslash ∧ c ≠ lineFeed ∧ c ≠ carriageReturn := by
  rw [escapeText_eq]
  induction text with
  | nil => simp [unescaped]
  | cons c text ih =>
      rw [List.flatMap_cons]
      rcases textByte_cases c with ⟨d, hd, -⟩ | ⟨hc, hq, hb, hl, hr⟩
      · rw [hd, List.cons_append, List.cons_append, List.nil_append, unescaped_pair]
        exact ih
      · rw [hc, List.singleton_append, unescaped_cons hb, List.forall_mem_cons]
        exact ⟨⟨hq, hb, hl, hr⟩, ih⟩

/-- The literal behind `e.value=` has the text as its value and ends at the quote of the script. -/
theorem typed_text_reaches_page (selector text : Str) : ∃ before after, str "e.value=" <:+ before ∧
    typeScript selector text = before ++ quote :: (escapeText text ++ quote :: after) ∧
    read .chars (escapeText text ++ quote :: after) = some (text, after) ∧
    ∀ c ∈ unescaped (escapeText text), c ≠ quote ∧ c ≠ backslash ∧ c ≠ lineFeed ∧ c ≠ carriageReturn := by
  have hhead : str "');if(!e)return false;e.focus();e.value='" =
      str "');if(!e)return false;e.focus();e.value=" ++ [quote] := by decide +kernel
  have htail : str "';e.dispatchEvent(new Event('input',\x7bbubbles:true\x7d));" =
      quote :: str ";e.dispatchEvent(new Event('input',\x7bbubbles:true\x7d));" := by decide +kernel
  refine ⟨str "(()=>\x7bconst e=document.querySelector('" ++ State.jsSelector selector ++
      str "');if(!e)return false;e.focus();e.value=",
    str ";e.dispatchEvent(new Event('input',\x7bbubbles:true\x7d));" ++
      str "e.dispatchEvent(new Event('change',\x7bbubbles:true\x7d));return true;\x7d)()",
    ?_, ?_, (escapeText_reads text).close _, escapeText_unescaped text⟩
  · exact List.IsSuffix.trans (by decide +kernel) (List.suffix_append _ _)
  · rw [typeScript, hhead, htail]
    simp only [List.append_assoc, List.cons_append, List.nil_append]

end LynneSocial.Browser
