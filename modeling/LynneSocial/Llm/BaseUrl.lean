import LynneSocial.Llm.DeepSeekEngine
import Mathlib.Data.List.TakeWhile

/-!
# Base URLs

What a base URL means, as an endpoint with its parts, against what
`parse_base_url` makes of its text and what `chat` then contacts.
-/
namespace LynneSocial.DeepSeekEngine

def https : Str := str "https://"
def http : Str := str "http://"

/-- A scheme, a host, a port or none, and a path. -/
structure Endpoint where
  tls : Bool
  host : Str
  port : Option ℕ
  path : Str
  host_ne : host ≠ []
  host_plain : ∀ c ∈ host, c ≠ colon ∧ c ≠ slash
  port_range : ∀ p ∈ port, 1 ≤ p ∧ p ≤ 65535
  path_rooted : ∀ c ∈ path.head?, c = slash

namespace Endpoint

def scheme (e : Endpoint) : Str := if e.tls then https else http

def portSuffix (e : Endpoint) : Str :=
  match e.port with
  | some port => colon :: Decimal.text port
  | none => []

def url (e : Endpoint) : Str := e.scheme ++ e.host ++ e.portSuffix ++ e.path

def baseUrl (e : Endpoint) : BaseUrl where
  host := e.host
  port := match e.port with
    | some port => port
    | none => if e.tls then 443 else 80
  path := e.path

end Endpoint

theorem stripScheme_eq (url : Str) : stripScheme url =
    if https <+: url then some (url.drop 8, 443)
    else if http <+: url then some (url.drop 7, 80)
    else none := rfl

theorem stripScheme_https (rest : Str) : stripScheme (https ++ rest) = some (rest, 443) := by
  rw [stripScheme_eq, if_pos (List.prefix_append https rest), ← show https.length = 8 from rfl, List.drop_left]

theorem not_https_start (rest : Str) : ¬ https <+: http ++ rest := by
  intro h
  have hat := h.getElem (i := 4) (by decide)
  rw [List.getElem_append_left (by decide)] at hat
  revert hat
  decide

theorem stripScheme_http (rest : Str) : stripScheme (http ++ rest) = some (rest, 80) := by
  rw [stripScheme_eq, if_neg (not_https_start rest), if_pos (List.prefix_append http rest),
    ← show http.length = 7 from rfl, List.drop_left]

theorem parseBaseUrl_scheme (e : Endpoint) (rest : Str) :
    stripScheme (e.scheme ++ rest) = some (rest, if e.tls then 443 else 80) := by
  unfold Endpoint.scheme
  cases e.tls with
  | true => exact stripScheme_https rest
  | false => exact stripScheme_http rest

theorem takeWhile_of_plain {c : UInt8} {u v : Str} (hu : ∀ x ∈ u, x ≠ c) (hv : ∀ x ∈ v.head?, x = c) :
    (u ++ v).takeWhile (· != c) = u ∧ (u ++ v).dropWhile (· != c) = v := by
  have hpos : ∀ x ∈ u, (x != c) = true := fun x hx => by simpa using hu x hx
  rw [List.takeWhile_append_of_pos hpos, List.dropWhile_append_of_pos hpos]
  cases v with
  | nil => simp
  | cons x v =>
      obtain rfl := hv x rfl
      simp

/-- Neither the host nor the port has a slash. -/
theorem Endpoint.hostPort_plain (e : Endpoint) : ∀ x ∈ e.host ++ e.portSuffix, x ≠ slash := by
  intro x hx
  rcases List.mem_append.mp hx with hx | hx
  · exact (e.host_plain x hx).2
  · unfold portSuffix at hx
    split at hx
    · rcases List.mem_cons.mp hx with rfl | hx
      · decide
      · rintro rfl
        have := Decimal.toNat_of_mem_text hx
        simp [slash] at this
    · cases hx

/-- A formatted base URL is read back, with the port of the scheme if it names none. -/
theorem parseBaseUrl_url (e : Endpoint) : parseBaseUrl e.url = .ok (some e.baseUrl) := by
  have hsplit := takeWhile_of_plain e.hostPort_plain e.path_rooted
  have hhost : ∀ x ∈ e.host, x ≠ colon := fun x hx => (e.host_plain x hx).1
  unfold parseBaseUrl
  rw [Endpoint.url, List.append_assoc, List.append_assoc, parseBaseUrl_scheme]
  dsimp only
  rw [← List.append_assoc, hsplit.1, hsplit.2]
  cases hp : e.port with
  | none =>
      have hcolon := takeWhile_of_plain (v := []) hhost (by simp)
      rw [List.append_nil] at hcolon
      simp only [Endpoint.portSuffix, hp, List.append_nil, hcolon.2, Endpoint.baseUrl]
  | some port =>
      obtain ⟨hlow, hhigh⟩ := e.port_range port hp
      have hcolon := takeWhile_of_plain (v := colon :: Decimal.text port) hhost (by simp)
      simp only [Endpoint.portSuffix, hp, hcolon.1, hcolon.2, stoi_text (show port < 2 ^ 31 by omega),
        Endpoint.baseUrl]

/-- Every host, every port and every path come back, whatever the path contains. -/
theorem parse_base_url_inverts {scheme host path : Str} (hscheme : scheme = https ∨ scheme = http)
    (hhost : host ≠ [] ∧ ∀ c ∈ host, c ≠ colon ∧ c ≠ slash) (hpath : path = [] ∨ path.head? = some slash) :
    (∀ port, 1 ≤ port → port ≤ 65535 →
      parseBaseUrl (scheme ++ host ++ colon :: Decimal.text port ++ path) = .ok (some ⟨host, port, path⟩)) ∧
    parseBaseUrl (scheme ++ host ++ path) =
      .ok (some ⟨host, if scheme = https then 443 else 80, path⟩) := by
  have hrooted : ∀ c ∈ path.head?, c = slash := by
    rcases hpath with rfl | h
    · nofun
    · intro c hc
      rw [h] at hc
      exact (Option.some.inj hc).symm
  have hparts : ∀ tls port, (∀ p ∈ port, 1 ≤ p ∧ p ≤ 65535) → ∃ e : Endpoint, e.tls = tls ∧ e.host = host ∧
      e.port = port ∧ e.path = path := fun tls port hport =>
    ⟨⟨tls, host, port, path, hhost.1, hhost.2, hport, hrooted⟩, rfl, rfl, rfl, rfl⟩
  obtain ⟨tls, htls, hdefault⟩ : ∃ tls : Bool, scheme = (if tls then https else http) ∧
      (if scheme = https then (443 : ℤ) else 80) = if tls then 443 else 80 := by
    rcases hscheme with rfl | rfl
    · exact ⟨true, rfl, rfl⟩
    · exact ⟨false, rfl, by decide⟩
  constructor
  · intro port hlow hhigh
    obtain ⟨e, rfl, rfl, hport, rfl⟩ := hparts tls (some port) fun p hp => by
      obtain rfl := Option.some.inj hp
      exact ⟨hlow, hhigh⟩
    simpa [Endpoint.url, Endpoint.baseUrl, Endpoint.scheme, Endpoint.portSuffix, hport, htls] using parseBaseUrl_url e
  · obtain ⟨e, rfl, rfl, hport, rfl⟩ := hparts tls none nofun
    rw [hdefault]
    simpa [Endpoint.url, Endpoint.baseUrl, Endpoint.scheme, Endpoint.portSuffix, hport, htls] using parseBaseUrl_url e

theorem parse_base_url_inverts_sample :
    parseBaseUrl (str "http://localhost" ++ colon :: Decimal.text 8080 ++ str "/a:b/c") =
      .ok (some ⟨str "localhost", 8080, str "/a:b/c"⟩) :=
  (@parse_base_url_inverts http (str "localhost") _ (.inr rfl) (by decide +kernel) (.inr rfl)).1
    8080 (by decide) (by decide)

variable {c : JsonCodec} {u : Str} {b : BaseUrl}

/-- The parts are those of the text. -/
def Spells (u : Str) (b : BaseUrl) : Prop :=
  ∃ scheme, (scheme = http ∨ scheme = https) ∧
    (u = scheme ++ b.host ++ b.path ∨
      u = scheme ++ b.host ++ colon :: Decimal.text b.port.toNat ++ b.path)

/-- `parse_base_url` does not throw, and if it accepts the text, that is a base URL and `chat`
contacts the endpoint that it names. -/
def Denotes (c : JsonCodec) (u : Str) : Prop :=
  ∃ r, parseBaseUrl u = .ok r ∧ ∀ b, r = some b →
    b.host ≠ [] ∧ 1 ≤ b.port ∧ b.port ≤ 65535 ∧ Spells u b ∧
    ∀ config env cb messages tools ctx, config.baseUrl = u →
      chat c config env cb messages tools = .ok (.queued ctx) →
      (request ctx).host = b.host ∧ (request ctx).port = b.port ∧
        ((request ctx).tls = true ↔ https <+: u)

theorem chat_contacts {config : LLMConfig} {env : Environment} {cb : Callbacks} {messages tools : Json}
    {ctx : ChatCtx} (hu : config.baseUrl = u) (hne : u ≠ []) (hb : parseBaseUrl u = .ok (some b))
    (h : chat c config env cb messages tools = .ok (.queued ctx)) : ctx.host = b.host ∧ ctx.port = b.port := by
  unfold chat at h
  rw [baseUrl, hu, if_neg hne, hb] at h
  dsimp only at h
  split at h
  · cases h
  · cases h
    exact ⟨rfl, rfl⟩

/-- The parts that `parse_base_url` cuts out are where they belong. -/
theorem parseBaseUrl_parts (hb : parseBaseUrl u = .ok (some b)) :
    (∀ x ∈ b.host, x ≠ colon ∧ x ≠ slash) ∧ ∀ x ∈ b.path.head?, x = slash := by
  have hslash : ∀ s : Str, ∀ x ∈ s.takeWhile (· != slash), x ≠ slash := fun s x hx => by
    simpa using List.mem_takeWhile_imp hx
  have hpath : ∀ s : Str, ∀ x ∈ (s.dropWhile (· != slash)).head?, x = slash := by
    intro s x hx
    have := List.head?_dropWhile_not (· != slash) s
    rw [hx] at this
    simpa using this
  unfold parseBaseUrl at hb
  split at hb
  · cases hb
  · rename_i s port _
    dsimp only at hb
    split at hb
    · rename_i hnil
      cases hb
      refine ⟨fun x hx => ⟨?_, hslash s x hx⟩, hpath s⟩
      simpa using List.dropWhile_eq_nil_iff.mp hnil x hx
    · split at hb
      · cases hb
        refine ⟨fun x hx => ⟨?_, hslash s x (List.takeWhile_subset _ hx)⟩, hpath s⟩
        simpa using List.mem_takeWhile_imp hx
      · cases hb

theorem Endpoint.baseUrl_spells (e : Endpoint) (htls : e.tls = true) :
    (1 ≤ e.baseUrl.port ∧ e.baseUrl.port ≤ 65535) ∧ Spells e.url e.baseUrl := by
  unfold Spells baseUrl url portSuffix scheme
  cases hp : e.port with
  | none => exact ⟨by simp [htls], https, .inr rfl, .inl (by simp [htls])⟩
  | some port =>
      obtain ⟨hlow, hhigh⟩ := e.port_range port hp
      exact ⟨⟨by dsimp only; omega, by dsimp only; omega⟩, https, .inr rfl, .inr (by simp [htls])⟩

/-- `chat` sends a request to every URL that is accepted. -/
theorem chat_queues (hc : c.Strict) (hne : u ≠ []) (hb : parseBaseUrl u = .ok (some b)) :
    ∃ ctx, chat c { baseUrl := u } {} {} (.arr []) .null = .ok (.queued ctx) := by
  have hdump : (c.dump (body { baseUrl := u } (.arr []) .null)).isSome = true := by
    have hmodel : validUtf8 (str "deepseek-chat") = true := by decide
    rw [hc, body_dumpable_iff]
    exact ⟨hmodel, rfl, rfl⟩
  obtain ⟨text, htext⟩ := Option.isSome_iff_exists.mp hdump
  unfold chat
  rw [baseUrl, if_neg hne, hb]
  dsimp only
  rw [htext]
  exact ⟨_, rfl⟩

/-- A base URL that is accepted means what is contacted exactly when it is an `https` URL in the
usual form. -/
theorem base_url_denotes_iff (hc : c.Strict) (u : Str) :
    Denotes c u ↔ stripScheme u = none ∨ ∃ e : Endpoint, e.tls = true ∧ u = e.url := by
  constructor
  · rintro ⟨r, hr, hall⟩
    by_cases hscheme : stripScheme u = none
    · exact .inl hscheme
    · right
      have hne : u ≠ [] := by
        rintro rfl
        exact hscheme (by decide)
      cases r with
      | none => exact absurd ((parseBaseUrl_none_iff u).mp hr) hscheme
      | some b =>
          obtain ⟨hhost, hlow, hhigh, ⟨scheme, hs, htext⟩, hreq⟩ := hall b rfl
          obtain ⟨hplain, hrooted⟩ := parseBaseUrl_parts hr
          obtain ⟨ctx, hctx⟩ := chat_queues hc hne hr
          have htls : https <+: u := (hreq _ _ _ _ _ ctx rfl hctx).2.2.mp rfl
          obtain rfl : scheme = https := by
            rcases hs with rfl | rfl
            · obtain ⟨rest, hrest⟩ : ∃ rest, u = http ++ rest := by
                rcases htext with h | h
                · exact ⟨_, h.trans (List.append_assoc ..)⟩
                · exact ⟨_, h.trans ((List.append_assoc ..).trans (List.append_assoc ..))⟩
              rw [hrest] at htls
              exact absurd htls (not_https_start rest)
            · rfl
          have hport : ∀ p ∈ some b.port.toNat, 1 ≤ p ∧ p ≤ 65535 := by
            rintro p hp
            obtain rfl := Option.some.inj hp
            omega
          rcases htext with h | h
          · exact ⟨⟨true, b.host, none, b.path, hhost, hplain, nofun, hrooted⟩, rfl,
              h.trans (by simp [Endpoint.url, Endpoint.scheme, Endpoint.portSuffix])⟩
          · exact ⟨⟨true, b.host, some b.port.toNat, b.path, hhost, hplain, hport, hrooted⟩, rfl, h⟩
  · rintro (hnone | ⟨e, htls, rfl⟩)
    · exact ⟨none, (parseBaseUrl_none_iff u).mpr hnone, nofun⟩
    · have hne : e.url ≠ [] := by
        rw [Endpoint.url, Endpoint.scheme, htls]
        nofun
      have hpre : https <+: e.url := by
        rw [Endpoint.url, Endpoint.scheme, htls, List.append_assoc, List.append_assoc]
        exact List.prefix_append ..
      refine ⟨_, parseBaseUrl_url e, fun b hb => ?_⟩
      obtain rfl := Option.some.inj hb
      obtain ⟨hport, hspells⟩ := e.baseUrl_spells htls
      refine ⟨e.host_ne, hport.1, hport.2, hspells, fun config env cb messages tools ctx hu h => ?_⟩
      obtain ⟨hhost, hport⟩ := chat_contacts hu hne (parseBaseUrl_url e) h
      exact ⟨hhost, hport, iff_of_true rfl hpre⟩

theorem base_url_denotes_sample : Denotes (JsonText.codec JsonText.exactDigits) (str "https://localhost:8443/v1") :=
  (base_url_denotes_iff (JsonText.codec_strict JsonText.exactDigits) _).mpr <| .inr
    ⟨⟨true, str "localhost", some 8443, str "/v1", by decide +kernel, by decide +kernel, by decide,
        by decide +kernel⟩, rfl, by decide +kernel⟩

/-- The request to `http://localhost` goes out over TLS. -/
theorem http_contacted_over_tls : ¬ ∀ c : JsonCodec, c.Strict → ∀ u, Denotes c u := by
  intro h
  obtain ⟨r, hr, hall⟩ := h _ (JsonText.codec_strict JsonText.exactDigits) (str "http://localhost")
  have hparse : parseBaseUrl (str "http://localhost") = .ok (some ⟨str "localhost", 80, []⟩) := rfl
  rw [hparse] at hr
  obtain rfl := Except.ok.inj hr
  obtain ⟨ctx, hctx⟩ := chat_queues (JsonText.codec_strict JsonText.exactDigits) (by decide) hparse
  have htls : https <+: str "http://localhost" := ((hall _ rfl).2.2.2.2 _ _ _ _ _ ctx rfl hctx).2.2.mp rfl
  revert htls
  decide

end LynneSocial.DeepSeekEngine
