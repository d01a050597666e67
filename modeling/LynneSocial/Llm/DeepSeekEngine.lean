import LynneSocial.Common.Nlohmann
import LynneSocial.Common.Stoi

/-!
# DeepSeekEngine

One call of `chat`: what runs in the caller, what the worker thread does with the
HTTP client, and the completion that the loop runs. The HTTP exchange and the
environment of the process are inputs.
-/
namespace LynneSocial

namespace DeepSeekEngine

def kDefaultBaseUrl : Str := str "https://api.deepseek.com/v1"

structure LLMConfig where
  apiKey : Str := []
  baseUrl : Str := []
  model : Str := str "deepseek-chat"
  /-- 0.7 -/
  temperature : UInt64 := 0x3FE6666666666666
  maxTokens : ℤ := 4096
  timeout : ℤ := 60
  caCertPath : Str := []

/-- What `chat` asks the process for. -/
structure Environment where
  sslCertFile : Option Str := none
  apiKey : Option Str := none
  /-- `fopen(path, "r")` succeeds. -/
  readable : Str → Bool := fun _ => false

def detectCaCertPath (env : Environment) : Str :=
  match env.sslCertFile with
  | some (b :: path) => b :: path
  | _ =>
    ([str "/etc/ssl/certs/ca-certificates.crt", str "/etc/pki/tls/certs/ca-bundle.crt",
      str "/etc/ssl/cert.pem"].find? env.readable).getD []

structure BaseUrl where
  host : Str
  port : ℤ
  path : Str
deriving DecidableEq

/-- What is left behind the scheme, and the default port of the scheme. -/
def stripScheme (url : Str) : Option (Str × ℤ) :=
  if str "https://" <+: url then some (url.drop 8, 443)
  else if str "http://" <+: url then some (url.drop 7, 80)
  else none

def slash : UInt8 := 47
def colon : UInt8 := 58

/-- `parse_base_url`; `none` is the result `false`. -/
def parseBaseUrl (url : Str) : Except StoiError (Option BaseUrl) :=
  match stripScheme url with
  | none => .ok none
  | some (s, port) =>
    let hostPort := s.takeWhile (· != slash)
    let path := s.dropWhile (· != slash)
    match hostPort.dropWhile (· != colon) with
    | [] => .ok (some ⟨hostPort, port, path⟩)
    | _ :: text =>
      match stoi text with
      | .ok port => .ok (some ⟨hostPort.takeWhile (· != colon), port, path⟩)
      | .error e => .error e

structure ChatCtx where
  host : Str
  port : ℤ := 443
  path : Str
  body : Str
  apiKey : Str
  timeoutSec : ℤ := 60
  caCertPath : Str
  result : Json := .null
  ok : Bool := false
  error : Str := []

/-- A call of one of the two functions that were passed to `chat`. -/
inductive Callback where
  | onResult (result : Json)
  | onError (text : Str)

/-- Which of the two functions are not empty. -/
structure Callbacks where
  onResult : Bool := true
  onError : Bool := true

/-- An exception that leaves `chat`. -/
inductive ChatError where
  | stoi (e : StoiError)
  /-- `type_error.316` of `dump()`. -/
  | dump

/-- `chat` came back: it has called back, or the request is with the scheduler. -/
inductive Started where
  | answered (calls : List Callback)
  | queued (ctx : ChatCtx)

variable (c : JsonCodec) (config : LLMConfig) (env : Environment) (cb : Callbacks)

/-- The base URL `chat` uses. -/
def baseUrl : Str := if config.baseUrl = [] then kDefaultBaseUrl else config.baseUrl

def body (messages tools : Json) : Json :=
  .object ([(str "model", .str config.model), (str "messages", messages),
    (str "temperature", .float config.temperature), (str "max_tokens", .int config.maxTokens)] ++
    match tools with
    | .null => []
    | tools => [(str "tools", tools)])

def chat (messages tools : Json) : Except ChatError Started :=
  match parseBaseUrl (baseUrl config) with
  | .error e => .error (.stoi e)
  | .ok none =>
    .ok (.answered (if cb.onError then [.onError (str "invalid base_url: " ++ baseUrl config)] else []))
  | .ok (some url) =>
    match c.dump (body config messages tools) with
    | none => .error .dump
    | some text =>
      .ok (.queued {
        host := url.host
        port := url.port
        path := url.path ++ str "/chat/completions"
        body := text
        apiKey := if config.apiKey = [] then env.apiKey.getD [] else config.apiKey
        timeoutSec := config.timeout
        caCertPath := if config.caCertPath = [] then detectCaCertPath env else config.caCertPath })

/-- What the worker hands to the HTTP client. -/
structure Request where
  tls : Bool
  host : Str
  port : ℤ
  path : Str
  headers : List (Str × Str)
  body : Str
  contentType : Str
  timeoutSec : ℤ
  /-- Set if it is not empty. -/
  caCertPath : Option Str

/-- The client is an `SSLClient`, whatever the scheme was. -/
def request (ctx : ChatCtx) : Request where
  tls := true
  host := ctx.host
  port := ctx.port
  path := ctx.path
  headers := [(str "Content-Type", str "application/json"), (str "Authorization", str "Bearer " ++ ctx.apiKey)]
  body := ctx.body
  contentType := str "application/json"
  timeoutSec := ctx.timeoutSec
  caCertPath := if ctx.caCertPath = [] then none else some ctx.caCertPath

/-- What the HTTP client does with the request. -/
inductive HttpOutcome where
  | response (status : ℤ) (body : Str)
  | failed (error : Str)
  /-- A `std::exception`. -/
  | throws (what : Str)
  | throwsOther

/-- The worker lambda; `what` is the text of a parse error. Any other exception is caught by `work_cb`. -/
def work (what : Str → Str) (outcome : HttpOutcome) (ctx : ChatCtx) : ChatCtx :=
  match outcome with
  | .response status body =>
    if status = 200 then
      match c.parse body with
      | some result => { ctx with result, ok := true }
      | none => { ctx with error := str "LLM exception: " ++ what body, ok := false }
    else
      { ctx with
        error := str "LLM API returned " ++ str (toString status) ++ str ": " ++ body.take 300
        ok := false }
  | .failed error => { ctx with error := str "LLM API connection failed: " ++ error, ok := false }
  | .throws what => { ctx with error := str "LLM exception: " ++ what, ok := false }
  | .throwsOther => ctx

/-- The completion lambda. -/
def onDone (ctx : ChatCtx) : List Callback :=
  if ctx.ok && cb.onResult then [.onResult ctx.result]
  else if !ctx.ok && cb.onError then [.onError ctx.error]
  else []

/-- The calls made once the worker that `chat` may have started is handled. -/
def complete (what : Str → Str) (outcome : HttpOutcome) : Started → List Callback
  | .answered calls => calls
  | .queued ctx => onDone cb (work c what outcome ctx)

/-- `chat` comes back, and one of the two functions is called, once; `on_result` gets the
parsed body of a response with status 200. -/
def AnswersOnce (what : Str → Str) (outcome : HttpOutcome) (messages tools : Json) : Prop :=
  ∃ started, chat c config env {} messages tools = .ok started ∧
    ((∃ text, complete c {} what outcome started = [.onError text]) ∨
      ∃ body result, outcome = .response 200 body ∧ c.parse body = some result ∧
        complete c {} what outcome started = [.onResult result])

/-- The text that the URL has in the place of a port. -/
def portText (url : Str) : Option Str :=
  match stripScheme url with
  | none => none
  | some (s, _) => ((s.takeWhile (· != slash)).dropWhile (· != colon)).tail?

/-- The port can be read, and the request can be written if there is one. -/
def Sendable (messages tools : Json) : Prop :=
  (∀ text ∈ portText (baseUrl config), (stoi text).isOk = true) ∧
    ((stripScheme (baseUrl config)).isSome →
      validUtf8 config.model = true ∧ messages.dumpable = true ∧ tools.dumpable = true)

theorem parseBaseUrl_error_iff (url : Str) :
    (∃ e, parseBaseUrl url = .error e) ↔ ∃ text ∈ portText url, ∃ e, stoi text = .error e := by
  unfold parseBaseUrl portText
  cases stripScheme url with
  | none => simp
  | some p =>
      obtain ⟨s, port⟩ := p
      dsimp only
      cases (s.takeWhile (· != slash)).dropWhile (· != colon) with
      | nil => simp
      | cons b text =>
          cases h : stoi text <;> simp [h]

theorem parseBaseUrl_none_iff (url : Str) :
    parseBaseUrl url = .ok none ↔ stripScheme url = none := by
  unfold parseBaseUrl
  cases stripScheme url with
  | none => simp
  | some p =>
      obtain ⟨s, port⟩ := p
      simp only [reduceCtorEq, iff_false]
      cases (s.takeWhile (· != slash)).dropWhile (· != colon) with
      | nil => simp
      | cons b text => cases h : stoi text <;> simp [h]

theorem body_eq (messages : Json) {tools : Json} (h : tools ≠ .null) :
    body config messages tools = .obj [(str "max_tokens", .int config.maxTokens),
      (str "messages", messages), (str "model", .str config.model),
      (str "temperature", .float config.temperature), (str "tools", tools)] := by
  cases tools <;> first | rfl | exact absurd rfl h

theorem body_null (messages : Json) :
    body config messages .null = .obj [(str "max_tokens", .int config.maxTokens),
      (str "messages", messages), (str "model", .str config.model),
      (str "temperature", .float config.temperature)] := rfl

theorem body_dumpable_iff (messages tools : Json) :
    (body config messages tools).dumpable = true ↔
      validUtf8 config.model = true ∧ messages.dumpable = true ∧ tools.dumpable = true := by
  have hkeys : validUtf8 (str "max_tokens") = true ∧ validUtf8 (str "messages") = true ∧
      validUtf8 (str "model") = true ∧ validUtf8 (str "temperature") = true ∧
      validUtf8 (str "tools") = true := by decide
  obtain ⟨h1, h2, h3, h4, h5⟩ := hkeys
  by_cases h : tools = .null
  · subst h
    rw [body_null]
    simp [Json.dumpable, Json.all, Json.allMembers, Json.dumpableNode, h1, h2, h3, h4, and_comm]
  · rw [body_eq config messages h]
    simp only [Json.dumpable, Json.all, Json.allMembers, Json.dumpableNode, List.all_cons,
      List.all_nil, h1, h2, h3, h4, h5, Bool.and_true, Bool.true_and, Bool.and_eq_true]
    tauto

/-- A queued call gets one answer, whatever the exchange does. -/
theorem complete_queued (what : Str → Str) (outcome : HttpOutcome) {ctx : ChatCtx}
    (h : ctx.ok = false) :
    (∃ text, complete c {} what outcome (.queued ctx) = [.onError text]) ∨
      ∃ body result, outcome = .response 200 body ∧ c.parse body = some result ∧
        complete c {} what outcome (.queued ctx) = [.onResult result] := by
  cases outcome with
  | response status body =>
      by_cases hs : status = 200
      · subst hs
        cases hp : c.parse body with
        | none => exact .inl ⟨_, by simp [complete, work, onDone, hp]; rfl⟩
        | some result => exact .inr ⟨body, result, rfl, hp, by simp [complete, work, onDone, hp]⟩
      · exact .inl ⟨_, by simp [complete, work, onDone, hs]; rfl⟩
  | failed error => exact .inl ⟨_, rfl⟩
  | throws text => exact .inl ⟨_, rfl⟩
  | throwsOther => exact .inl ⟨ctx.error, by simp [complete, work, onDone, h]⟩

/-- `chat` answers once, or throws: it does the former exactly when the port is a number that
`std::stoi` accepts and the request body is UTF-8. -/
theorem chat_answers_once_iff {c : JsonCodec} (hc : c.Strict) (config : LLMConfig)
    (env : Environment) (what : Str → Str) (outcome : HttpOutcome) (messages tools : Json) :
    AnswersOnce c config env what outcome messages tools ↔ Sendable config messages tools := by
  have herr := parseBaseUrl_error_iff (baseUrl config)
  have hnone := parseBaseUrl_none_iff (baseUrl config)
  unfold AnswersOnce Sendable
  cases hp : parseBaseUrl (baseUrl config) with
  | error e =>
      obtain ⟨text, htext, e', he'⟩ := herr.mp ⟨e, hp⟩
      have hthrow : chat c config env {} messages tools = .error (.stoi e) := by
        simp only [chat, hp]
      constructor
      · rintro ⟨started, hs, -⟩
        rw [hthrow] at hs
        cases hs
      · rintro ⟨hport, -⟩
        have := hport text htext
        rw [he'] at this
        cases this
  | ok url =>
      have hport : ∀ text ∈ portText (baseUrl config), (stoi text).isOk = true := by
        intro text htext
        cases hs : stoi text with
        | ok port => rfl
        | error e =>
            obtain ⟨e', he'⟩ := herr.mpr ⟨text, htext, e, hs⟩
            rw [hp] at he'
            cases he'
      cases url with
      | none =>
          have hstrip : stripScheme (baseUrl config) = none := hnone.mp hp
          refine iff_of_true ⟨_, by simp only [chat, hp]; rfl, .inl ⟨_, rfl⟩⟩ ⟨hport, ?_⟩
          simp [hstrip]
      | some url =>
          have hstrip : (stripScheme (baseUrl config)).isSome = true := by
            rw [Option.isSome_iff_ne_none]
            intro h
            rw [hnone.mpr h] at hp
            cases hp
          have hd := hc (body config messages tools)
          rw [← body_dumpable_iff, ← hd]
          cases hb : c.dump (body config messages tools) with
          | none =>
              refine iff_of_false ?_ (by simp [hstrip])
              rintro ⟨started, hs, -⟩
              simp only [chat, hp, hb, reduceCtorEq] at hs
          | some text =>
              refine iff_of_true ⟨_, by simp only [chat, hp, hb]; rfl, ?_⟩ ⟨hport, fun _ => rfl⟩
              exact complete_queued c what outcome rfl

/-- The body of a refused request is passed to `on_error`. -/
theorem chat_answers_once_refused :
    AnswersOnce (JsonText.codec JsonText.exactDigits) {} {} id (.response 401 (str "no key")) (.arr []) .null :=
  (chat_answers_once_iff (JsonText.codec_strict JsonText.exactDigits) {} {} id
    (.response 401 (str "no key")) (.arr []) .null).mpr ⟨by decide, by decide⟩

theorem chat_throws_on_port : ¬ ∀ (c : JsonCodec), c.Strict → ∀ (config : LLMConfig)
    (env : Environment) (what : Str → Str) (outcome : HttpOutcome) (messages tools : Json),
    AnswersOnce c config env what outcome messages tools := by
  intro h
  obtain ⟨started, hs, -⟩ := h _ (JsonText.codec_strict JsonText.exactDigits)
    { baseUrl := str "https://localhost:port/v1" } {} id (.failed []) (.arr []) .null
  have hp : parseBaseUrl (str "https://localhost:port/v1") = .error .invalidArgument := by decide
  simp only [chat, baseUrl] at hs
  rw [if_neg (by decide), hp] at hs
  cases hs

end DeepSeekEngine

end LynneSocial
