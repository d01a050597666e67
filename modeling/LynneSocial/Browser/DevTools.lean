import LynneSocial.Common.Find
import LynneSocial.Common.Stoi

/-!
# launch_chrome

What `launch_chrome` does with the output of the Chrome it has forked: the loop
that looks for the DevTools URL, and the port of the readiness poll. What `poll`
and `read` return is the input.
-/
namespace LynneSocial.Browser

/-- What one round of the reading loop gets. -/
inductive Poll where
  | error
  | timeout
  /-- The chunk of `read`; empty at the end of the output and on an error. -/
  | read (chunk : Str)

def webSocketScheme : Str := str "ws://"
def separators : Str := str " \t\r\n"

theorem webSocketScheme_length : webSocketScheme.length = 5 := rfl

/-- The loop over `tries`, as the `out_url` it leaves; the output ends with the list. -/
def readLoop : ℕ → Str → List Poll → Str
  | 0, _, _ => []
  | _ + 1, _, [] | _ + 1, _, .error :: _ | _ + 1, _, .read [] :: _ => []
  | tries + 1, acc, .timeout :: polls => readLoop tries acc polls
  | tries + 1, acc, .read (c :: cs) :: polls =>
    let acc := acc ++ c :: cs
    match find webSocketScheme acc 0 with
    | some pos => substr acc pos (findFirstOf separators acc pos)
    | none => readLoop tries acc polls

/-- The port in `out_url`; 0 if there is no second colon behind `ws://`. The search begins at 0 if
`col_a` is `npos`. -/
def portFromUrl (url : Str) : Except StoiError ℤ :=
  let from_ := (find (str ":") url 5).elim 0 (· + 1)
  match find (str ":") url from_ with
  | some b => stoi (substr url (b + 1) (find (str "/") url b))
  | none => .ok 0

/-- What `launch_chrome` leaves behind the fork. -/
structure Launched where
  url : Str
  error : Str := []
  /-- Where `/json/version` is polled. -/
  readyPort : Option ℤ := none

def launchChrome (cdpPort : ℤ) (polls : List Poll) : Except StoiError Launched :=
  let url := readLoop 60 [] polls
  if url = [] then .ok { url, error := str "chrome did not output WS URL" }
  else
    match portFromUrl url with
    | .ok port =>
      .ok { url, readyPort := some (if 0 < port then port else if cdpPort = 0 then 9222 else cdpPort) }
    | .error e => .error e

/-- The bytes that are read before the output ends. -/
def received : List Poll → Str
  | [] | .error :: _ | .read [] :: _ => []
  | .timeout :: polls => received polls
  | .read (c :: cs) :: polls => c :: cs ++ received polls

/-- The reads of the loop never end between the scheme at `pos` and the separator at `stop`. -/
def Whole (pos stop : ℕ) (polls : List Poll) : Prop :=
  ∀ k ≤ 60, pos + 5 ≤ (received (polls.take k)).length → stop ≤ (received (polls.take k)).length

instance (pos stop : ℕ) (polls : List Poll) : Decidable (Whole pos stop polls) :=
  inferInstanceAs (Decidable (∀ k ≤ 60, _))

variable {stream acc : Str} {pos stop : ℕ}

/-- There is no separator inside the scheme. -/
theorem findFirstOf_scheme (hs : find webSocketScheme stream 0 = some pos)
    (he : findFirstOf separators stream (pos + 5) = some stop) :
    findFirstOf separators stream pos = some stop := by
  obtain ⟨⟨-, -, hpre⟩, -⟩ := find_eq_some_iff.mp hs
  obtain ⟨⟨hpos, hsep⟩, hfirst⟩ := findFirstOf_eq_some_iff.mp he
  have hinside : ∀ k < 5, ∀ c ∈ separators, webSocketScheme[k]? ≠ some c := by decide +kernel
  refine findFirstOf_eq_some_iff.mpr ⟨⟨by omega, hsep⟩, fun j hj hjs c hc => ?_⟩
  by_cases h5 : pos + 5 ≤ j
  · exact hfirst j h5 hjs c hc
  · obtain ⟨rest, hrest⟩ := hpre
    have hat : stream[j]? = webSocketScheme[j - pos]? := by
      have hk : j - pos < webSocketScheme.length := by
        rw [webSocketScheme_length]
        omega
      rw [← List.getElem?_append_left hk, hrest, List.getElem?_drop, Nat.add_sub_cancel' hj]
    rw [hat]
    exact hinside (j - pos) (by omega) c hc

/-- A prefix that holds the scheme gives the URL up to the separator, or up to its own end. -/
theorem scan_found (hs : find webSocketScheme stream 0 = some pos)
    (he : findFirstOf separators stream (pos + 5) = some stop) (hacc : acc <+: stream)
    (hlen : pos + 5 ≤ acc.length) :
    find webSocketScheme acc 0 = some pos ∧
      substr acc pos (findFirstOf separators acc pos) = (stream.drop pos).take (min stop acc.length - pos) := by
  constructor
  · rw [find_start hacc hs, webSocketScheme_length, if_pos hlen]
  · have hdrop : acc.drop pos = (stream.drop pos).take (acc.length - pos) := by
      rw [← List.drop_take, ← List.prefix_iff_eq_take.mp hacc]
    rw [findFirstOf_start hacc (findFirstOf_scheme hs he)]
    split
    · rw [substr, hdrop, List.take_take]
      congr 1
      omega
    · rw [substr, hdrop, Nat.min_eq_right (by omega)]

/-- The loop is given up before anything is found. -/
theorem readLoop_leave (url : Str) {polls : List Poll} {tries : ℕ} (hlen : acc.length < pos + 5)
    (hnone : ∀ k, received (polls.take k) = []) (hnil : readLoop tries acc polls = []) :
    (readLoop tries acc polls ≠ [] → readLoop tries acc polls = url) ↔
      ∀ k ≤ tries, pos + 5 ≤ (acc ++ received (polls.take k)).length →
        stop ≤ (acc ++ received (polls.take k)).length := by
  refine iff_of_true (fun h => absurd hnil h) fun k hk hle => ?_
  rw [hnone k, List.append_nil] at hle
  omega

/-- The first round comes off. -/
theorem forall_le_succ {P : ℕ → Prop} {n : ℕ} (h0 : P 0) : (∀ k ≤ n + 1, P k) ↔ ∀ k ≤ n, P (k + 1) := by
  constructor
  · exact fun h k hk => h (k + 1) (by omega)
  · intro h k hk
    cases k with
    | zero => exact h0
    | succ k => exact h k (by omega)

/-- The loop on the rest of the output, when `acc` does not hold the scheme yet. -/
theorem readLoop_iff (hs : find webSocketScheme stream 0 = some pos)
    (he : findFirstOf separators stream (pos + 5) = some stop) (tries : ℕ) (polls : List Poll)
    (hacc : acc ++ received polls <+: stream) (hlen : acc.length < pos + 5) :
    (readLoop tries acc polls ≠ [] → readLoop tries acc polls = (stream.drop pos).take (stop - pos)) ↔
      ∀ k ≤ tries, pos + 5 ≤ (acc ++ received (polls.take k)).length →
        stop ≤ (acc ++ received (polls.take k)).length := by
  have hzero : ∀ {acc : Str} {polls : List Poll}, acc.length < pos + 5 →
      pos + 5 ≤ (acc ++ received (polls.take 0)).length → stop ≤ (acc ++ received (polls.take 0)).length := by
    intro acc polls hlen hle
    rw [List.take_zero, received, List.append_nil] at hle
    omega
  induction tries generalizing acc polls with
  | zero =>
      refine iff_of_true (fun h => absurd (by rw [readLoop]) h) fun k hk => ?_
      obtain rfl := Nat.le_zero.mp hk
      exact hzero hlen
  | succ tries ih =>
      match polls with
      | [] => exact readLoop_leave _ hlen (fun k => by rw [List.take_nil, received]) (by rw [readLoop])
      | .error :: polls =>
          exact readLoop_leave _ hlen (fun k => by cases k <;> simp [received]) (by rw [readLoop])
      | .read [] :: polls =>
          exact readLoop_leave _ hlen (fun k => by cases k <;> simp [received]) (by rw [readLoop])
      | .timeout :: polls =>
          rw [forall_le_succ (hzero hlen), readLoop]
          simp only [List.take_succ_cons, received]
          exact ih polls hacc hlen
      | .read (c :: cs) :: polls =>
          rw [received, ← List.append_assoc] at hacc
          rw [forall_le_succ (hzero hlen), readLoop]
          simp only [List.take_succ_cons, received, ← List.append_assoc]
          have hacc' : acc ++ c :: cs <+: stream := (List.prefix_append _ _).trans hacc
          generalize acc ++ c :: cs = acc' at hacc hacc'
          by_cases hfound : pos + 5 ≤ acc'.length
          · obtain ⟨hfind, hsub⟩ := scan_found hs he hacc' hfound
            rw [hfind]
            dsimp only
            rw [hsub]
            have hstop : stop < stream.length := by
              obtain ⟨⟨-, c, -, hc⟩, -⟩ := findFirstOf_eq_some_iff.mp he
              exact (List.getElem?_eq_some_iff.mp hc).1
            by_cases hle : stop ≤ acc'.length
            · refine iff_of_true (fun _ => by rw [Nat.min_eq_left hle]) fun k _ _ => ?_
              rw [List.length_append]
              omega
            · have hpre := hacc'.length_le
              refine iff_of_false (fun h => ?_) fun h => ?_
              · have hurl := congrArg List.length (h fun hnil => by
                  have := congrArg List.length hnil
                  rw [List.length_take, List.length_drop, List.length_nil] at this
                  omega)
                rw [List.length_take, List.length_take, List.length_drop] at hurl
                omega
              · have := h 0 (by omega)
                rw [List.take_zero, received, List.append_nil] at this
                omega
          · have hfind : find webSocketScheme acc' 0 = none := by
              rw [find_start hacc' hs, webSocketScheme_length, if_neg hfound]
            rw [hfind]
            exact ih polls hacc (by omega)

/-- However the output is cut, a URL that is found is the text from the first `ws://` up to the
separator, exactly when no read ends inside that text behind the scheme. -/
theorem devtools_url_whole_iff {polls : List Poll} (hs : find webSocketScheme stream 0 = some pos)
    (he : findFirstOf separators stream (pos + 5) = some stop) (hread : received polls <+: stream) :
    (readLoop 60 [] polls ≠ [] → readLoop 60 [] polls = (stream.drop pos).take (stop - pos)) ↔
      Whole pos stop polls := by
  simpa [Whole] using @readLoop_iff _ [] _ _ hs he 60 polls hread (by simp)

def listening : Str := str "DevTools listening on ws://127.0.0.1:9222/devtools/browser/x\n"

theorem devtools_url_whole_sample :
    readLoop 60 [] [.timeout, .read (listening.take 20), .read (listening.drop 20)] =
      str "ws://127.0.0.1:9222/devtools/browser/x" :=
  (@devtools_url_whole_iff listening 22 60 _ (by decide +kernel) (by decide +kernel)
    (by decide +kernel)).mpr (by decide +kernel) (by decide +kernel)

theorem devtools_url_cut : ¬ ∀ (stream : Str) (pos stop : ℕ) (polls : List Poll),
    find webSocketScheme stream 0 = some pos → findFirstOf separators stream (pos + 5) = some stop →
    received polls <+: stream →
    readLoop 60 [] polls ≠ [] → readLoop 60 [] polls = (stream.drop pos).take (stop - pos) := by
  intro h
  have hcut := h listening 22 60 [.read (listening.take 40), .read (listening.drop 40)] (by decide +kernel)
    (by decide +kernel) (by decide +kernel) (by decide +kernel)
  revert hcut
  decide +kernel

/-- `ws://host:port/path`. -/
def webSocketUrl (host : Str) (port : ℕ) (path : Str) : Str :=
  webSocketScheme ++ host ++ str ":" ++ Decimal.text port ++ str "/" ++ path

/-- The path has a colon, and behind its first one, up to the next `/`, `std::stoi` reads the port. -/
def PathNamesPort (path : Str) (port : ℕ) : Prop :=
  ∃ before text, path = before ++ 58 :: text ∧ 58 ∉ before ∧ stoi (text.takeWhile (· ≠ 47)) = .ok port

variable {host path : Str} {port : ℕ}

theorem webSocketUrl_eq : webSocketUrl host port path =
    webSocketScheme ++ (host ++ 58 :: (Decimal.text port ++ 47 :: path)) := by
  rw [webSocketUrl, show str ":" = [58] from rfl, show str "/" = [47] from rfl]
  simp only [List.append_assoc, List.cons_append, List.nil_append]

/-- The first colon is the one behind the host; the second is looked for behind it. -/
theorem portFromUrl_eq (hhost : 58 ∉ host) : portFromUrl (webSocketUrl host port path) =
    match find [58] (webSocketUrl host port path) (webSocketScheme ++ host ++ [58]).length with
    | some b => stoi (substr (webSocketUrl host port path) (b + 1) (find [47] (webSocketUrl host port path) b))
    | none => .ok 0 := by
  have hfirst : find [58] (webSocketUrl host port path) 5 = some (5 + host.length) := by
    rw [webSocketUrl_eq]
    exact find_append (w := webSocketScheme) hhost
  have hlen : (webSocketScheme ++ host ++ [58]).length = 5 + host.length + 1 := by
    rw [List.length_append, List.length_append, webSocketScheme_length, List.length_singleton]
  rw [portFromUrl, show str ":" = [58] from rfl, show str "/" = [47] from rfl, hfirst, hlen]
  rfl

theorem not_mem_text {c : UInt8} (h : c.toNat < 48 ∨ 57 < c.toNat) : c ∉ Decimal.text port := fun hc => by
  have := Decimal.toNat_of_mem_text hc
  omega

theorem portFromUrl_plain (hhost : 58 ∉ host) (hpath : 58 ∉ path) :
    portFromUrl (webSocketUrl host port path) = .ok 0 := by
  have hrest : 58 ∉ Decimal.text port ++ 47 :: path := by
    simp [not_mem_text, hpath]
  have hnone := find_append_none (w := webSocketScheme ++ host ++ [58]) hrest
  rw [portFromUrl_eq hhost]
  simp only [List.append_assoc, List.singleton_append, ← webSocketUrl_eq] at hnone
  rw [List.append_assoc, hnone]

/-- The second colon behind the scheme is the first one of the path. -/
theorem portFromUrl_colon {before text : Str} (hhost : 58 ∉ host) (hbefore : 58 ∉ before) :
    portFromUrl (webSocketUrl host port (before ++ 58 :: text)) = stoi (text.takeWhile (· ≠ 47)) := by
  have hrest : 58 ∉ Decimal.text port ++ 47 :: before := by
    simp [not_mem_text, hbefore]
  have hurl : webSocketUrl host port (before ++ 58 :: text) = (webSocketScheme ++ host ++ [58]) ++
      ((Decimal.text port ++ 47 :: before) ++ 58 :: text) := by
    rw [webSocketUrl_eq]
    simp
  rw [portFromUrl_eq hhost, hurl, find_append hrest]
  dsimp only
  rw [← List.length_append, ← List.append_assoc]
  generalize webSocketScheme ++ host ++ [58] ++ (Decimal.text port ++ 47 :: before) = w
  have hsplit : w ++ 58 :: text = (w ++ [58]) ++ text := by simp
  have hlen : w.length + 1 = (w ++ [58]).length := by simp
  by_cases hslash : 47 ∈ text
  · obtain ⟨digits, rest, rfl, hdigits⟩ := List.eq_append_cons_of_mem hslash
    have hfind : find [47] (w ++ 58 :: (digits ++ 47 :: rest)) w.length = some (w.length + (digits.length + 1)) :=
      find_append (u := 58 :: digits) (by simp [hdigits])
    have hsub := substr_append (u := digits) (v := 47 :: rest) (w ++ [58])
    rw [← hlen, ← hsplit, Nat.add_right_comm, Nat.add_assoc] at hsub
    rw [hfind, hsub, takeWhile_ne_append hdigits]
  · have hfind : find [47] (w ++ 58 :: text) w.length = none := find_append_none (by simp [hslash])
    have hsub := substr_append_none (u := text) (w ++ [58])
    rw [← hlen, ← hsplit] at hsub
    rw [hfind, hsub, takeWhile_ne_self hslash]

/-- What is extracted: 0 if the path has no colon, else the number behind its first one. -/
theorem portFromUrl_iff (hhost : 58 ∉ host) {p : ℤ} :
    portFromUrl (webSocketUrl host port path) = .ok p ↔ 58 ∉ path ∧ p = 0 ∨
      ∃ before text, path = before ++ 58 :: text ∧ 58 ∉ before ∧ stoi (text.takeWhile (· ≠ 47)) = .ok p := by
  by_cases hpath : 58 ∈ path
  · obtain ⟨before, text, rfl, hbefore⟩ := List.eq_append_cons_of_mem hpath
    rw [portFromUrl_colon hhost hbefore]
    constructor
    · exact fun h => .inr ⟨before, text, rfl, hbefore, h⟩
    · rintro (⟨hnot, -⟩ | ⟨before', text', heq, hbefore', h⟩)
      · exact absurd hpath hnot
      · obtain ⟨-, rfl⟩ := split_unique hbefore hbefore' heq
        exact h
  · rw [portFromUrl_plain hhost hpath]
    constructor
    · exact fun h => .inl ⟨hpath, (Except.ok.inj h).symm⟩
    · rintro (⟨-, rfl⟩ | ⟨before, text, rfl, -⟩)
      · rfl
      · simp at hpath

/-- `/json/version` is polled at Chrome's own port if the path repeats it behind a colon; if the path has
none, or no port behind it, the port must be the configured one, or 9222. -/
theorem launchChrome_port_iff {cdpPort : ℤ} {polls : List Poll} (hhost : 58 ∉ host) (hport : 1 ≤ port)
    (hurl : readLoop 60 [] polls = webSocketUrl host port path) :
    (∃ l, launchChrome cdpPort polls = .ok l ∧ l.readyPort = some (port : ℤ)) ↔ PathNamesPort path port ∨
      (if cdpPort = 0 then 9222 else cdpPort) = (port : ℤ) ∧ (58 ∉ path ∨ ∃ before text p, p ≤ 0 ∧
        path = before ++ 58 :: text ∧ 58 ∉ before ∧ stoi (text.takeWhile (· ≠ 47)) = .ok p) := by
  have hne : webSocketUrl host port path ≠ [] := by
    rw [webSocketUrl_eq]
    exact List.cons_ne_nil _ _
  have hextract := @portFromUrl_iff host path port hhost
  have hready : (∃ l, launchChrome cdpPort polls = .ok l ∧ l.readyPort = some (port : ℤ)) ↔
      ∃ p, portFromUrl (webSocketUrl host port path) = .ok p ∧
        (if 0 < p then p else if cdpPort = 0 then 9222 else cdpPort) = (port : ℤ) := by
    rw [launchChrome, hurl]
    simp only [if_neg hne]
    cases portFromUrl (webSocketUrl host port path) with
    | ok p => simp
    | error e => simp
  rw [hready]
  constructor
  · rintro ⟨p, hp, heq⟩
    by_cases hpos : 0 < p
    · rw [if_pos hpos] at heq
      subst heq
      rcases hextract.mp hp with ⟨-, h⟩ | h
      · omega
      · exact .inl h
    · rw [if_neg hpos] at heq
      refine .inr ⟨heq, ?_⟩
      rcases hextract.mp hp with ⟨h, -⟩ | ⟨before, text, h⟩
      · exact .inl h
      · exact .inr ⟨before, text, p, by omega, h⟩
  · rintro (h | ⟨hconf, h | ⟨before, text, p, hle, h⟩⟩)
    · exact ⟨port, hextract.mpr (.inr h), by rw [if_pos (by omega)]⟩
    · exact ⟨0, hextract.mpr (.inl ⟨h, rfl⟩), by rw [if_neg (by omega), hconf]⟩
    · exact ⟨p, hextract.mpr (.inr ⟨before, text, h⟩), by rw [if_neg (by omega), hconf]⟩

/-- The port that is extracted is that of the URL only if the path repeats it behind a colon. -/
theorem devtools_port_iff (hhost : ∀ c ∈ host, c ≠ 58 ∧ c ≠ 47) (hport : 1 ≤ port ∧ port ≤ 65535) :
    portFromUrl (webSocketUrl host port path) = .ok port ↔ PathNamesPort path port := by
  rw [portFromUrl_iff fun h => (hhost 58 h).1 rfl, PathNamesPort]
  constructor
  · rintro (⟨-, hzero⟩ | h)
    · omega
    · exact h
  · exact .inr

theorem devtools_port_sample :
    portFromUrl (webSocketUrl (str "127.0.0.1") 9222 (str "devtools:9222/x")) = .ok 9222 :=
  (@devtools_port_iff _ _ 9222 (by decide +kernel) (by decide)).mpr
    ⟨str "devtools", str "9222/x", rfl, by decide, by decide⟩

/-- What Chrome prints. -/
theorem devtools_port_missed : ¬ ∀ (host path : Str) (port : ℕ), (∀ c ∈ host, c ≠ 58 ∧ c ≠ 47) →
    1 ≤ port ∧ port ≤ 65535 → portFromUrl (webSocketUrl host port path) = .ok port := by
  intro h
  have hport := h (str "127.0.0.1") (str "devtools/browser/x") 9222 (by decide +kernel) (by decide)
  revert hport
  decide +kernel

end LynneSocial.Browser
