import LynneSocial.Common.Json
import LynneSocial.Lib.Transition
import LynneSocial.Scheduler.UvScheduler

/-!
# CdpBrowserManager

The manager, its contexts, its WebSocket, the scheduler's post queue and the
Chrome processes it launches, as one state. Two things run at any time: the loop
thread, whose calls in progress form a stack, and everything else, which acts
between any two steps of the loop thread: the thread of the WebSocket, the worker
threads that launch Chrome, and Chrome itself.

A `std::function` is a value that says which closure of the source it is and
what it captured. Code of the application runs in `user` frames; there it may
call any operation, return or throw. The history records what happened, the
latest event first.
-/
namespace LynneSocial.Browser

/-- A value that came out of the JSON parser: its strings are valid UTF-8, its integers have 64 bits, the
keys of its objects are in order and unique, and its numbers are finite. -/
structure Parsed where
  json : Json
  valid : json.dumpable = true
  wellFormed : json.wellFormed = true
  finite : json.finite = true

abbrev ValidStr := { s : Str // validUtf8 s = true }

namespace Parsed

def null : Parsed := ⟨.null, rfl, rfl, rfl⟩

def find? (key : Str) (j : Parsed) : Option Parsed :=
  match h : j.json.find? key with
  | some x =>
    some ⟨x, Json.all_of_find j.valid h, Json.all_of_find j.wellFormed h, Json.all_of_find j.finite h⟩
  | none => none

def strAt (key : Str) (j : Parsed) : Option ValidStr :=
  match h : j.json.strAt key with
  | some s => some ⟨s, Json.valid_of_strAt j.valid h⟩
  | none => none

def number (n : UInt64) : Parsed where
  json := .int n.toNat
  valid := rfl
  wellFormed := Json.unsigned_wellFormed n
  finite := rfl

def text (s : ValidStr) : Parsed := ⟨.str s, s.2, rfl, rfl⟩

def boolean (b : Bool) : Parsed := ⟨.bool b, rfl, rfl, rfl⟩

def object (members : List (ValidStr × Parsed)) : Parsed where
  json := .object (members.map fun m => (m.1.1, m.2.json))
  valid := Json.object_dumpable fun m hm => by
    obtain ⟨⟨key, x⟩, -, rfl⟩ := List.mem_map.mp hm
    exact ⟨key.2, x.valid⟩
  wellFormed := Json.object_wellFormed fun m hm => by
    obtain ⟨⟨key, x⟩, -, rfl⟩ := List.mem_map.mp hm
    exact x.wellFormed
  finite := Json.object_finite fun m hm => by
    obtain ⟨⟨key, x⟩, -, rfl⟩ := List.mem_map.mp hm
    exact x.finite

end Parsed

/-- A CDP command as `send_command` builds it. -/
structure Command where
  id : ℤ
  method : Str
  params : Json
  sessionId : Str

def Command.toJson (cmd : Command) : Json :=
  .object ([(str "id", .int cmd.id), (str "method", .str cmd.method), (str "params", cmd.params)] ++
    if cmd.sessionId = [] then [] else [(str "sessionId", .str cmd.sessionId)])

/-- `dump()` does not throw. -/
def Command.dumpable (cmd : Command) : Bool := cmd.toJson.dumpable

/-- A call of the application that takes callbacks: one of the three requests for a
context, or any other operation. -/
inductive Call where
  | request (n : ℕ)
  | operation (n : ℕ)
deriving DecidableEq

/-- What a callback of the application is called with. -/
inductive Answer where
  | context (ctx : ℕ)
  | result (result : Parsed)
  | restored (done : Bool)
  | done
  | error (text : Str)

/-- The pair of functions `do_get_context` is given; `call` is the call of the application. -/
inductive Continuation where
  | getContext (call : ℕ)
  | saveSession (platform : Str) (call : ℕ)
  | restoreSession (cookies : Parsed) (call : ℕ)

/-- The pair of functions in an entry of `pending_`. -/
inductive PendingRequest where
  /-- Functions of the application, directly or behind one of the context's adaptors. -/
  | command (call : ℕ)
  | ignored
  | createTarget (platform : Str) (k : Continuation)
  | attachToTarget (platform : Str) (targetId : ValidStr) (k : Continuation)
  | addScript (platform : Str) (ctx : ℕ) (k : Continuation)
  | getCookies (platform : Str) (call : ℕ)
  | setCookies (call : ℕ)
  | closeTarget (ctx : ℕ) (call : ℕ)
  | keyDown (ctx : ℕ) (key : Str) (call : ℕ)
  | poll (waiter : ℕ)

inductive Reply where
  | ok (result : Parsed)
  | error (text : Str)

/-- An element of the scheduler's post queue. -/
inductive Task where
  | open (conn : ℕ)
  | message (conn : ℕ) (data : Option Parsed)
  | check (waiter : ℕ)
  | user

structure CdpBrowserContext where
  platform : Str
  targetId : ValidStr
  sessionId : ValidStr
  closed : Bool := false
  /-- The destructor has run; the record stays. -/
  destroyed : Bool := false
  /-- The application was given the pointer. -/
  shared : Bool := false

/-- What the closure `check` of `wait_for_selector` captured. -/
structure Waiter where
  ctx : ℕ
  selector : Str
  timeoutMs : ℕ
  start : ℕ
  done : Bool := false
  call : ℕ

inductive Phase where
  | connecting
  | open
  | closed
deriving DecidableEq

/-- A message handed to `sendText`: on which connection, and whether it was open. -/
structure Sent where
  conn : ℕ
  delivered : Bool
  command : Command

structure WebSocket where
  /-- The number of connections begun. -/
  conns : ℕ := 0
  phase : Phase := .closed
  joinable : Bool := false
  sent : List Sent := []

/-- A run of `launch_chrome` on a worker thread, up to its `on_done` on the loop. -/
inductive Launch where
  | queued
  | forked (pid : ℕ)
  | launched (url : Bool)
  | delivered
deriving DecidableEq

inductive Child where
  | running
  | exited
  | reaped
deriving DecidableEq

inductive Frame where
  | user
  /-- `on_ws_message` behind the callback of this entry. -/
  | eraseIt (id : ℤ)
  /-- `async_cb` before `drain_post_queue` swaps the queue out. -/
  | awoken
  | draining (batch : List Task)
  /-- `stop()` inside `scheduler_->step()`. -/
  | stopping

inductive Event where
  | called (call : Call)
  | answered (call : Call) (answer : Answer)
  | issued (id : ℤ) (request : PendingRequest)
  | handling (msg : Parsed)
  | invoked (id : ℤ) (request : PendingRequest) (reply : Reply)
  /-- An exception left the callback of the entry, which therefore was not erased. -/
  | escaped (id : ℤ)
  /-- `do_get_context` passes a context to `on_ok`. -/
  | handedOut (platform : Str) (ctx : ℕ) (k : Continuation)
  | cached (platform : Str) (ctx : ℕ) (k : Continuation)
  | rejected (ctx : ℕ) (k : Continuation)
  /-- A member of a destroyed context is read. -/
  | dangling (ctx : ℕ)
  | saved (platform : Str) (cookies : Parsed)
  | fired (key : Str) (handler : ℕ)
  | starting
  | connected (conn : ℕ)
  | ready (conn : ℕ)
  | stopped

structure State where
  cmdId : ℤ := 0
  started : Bool := false
  wsReady : Bool := false
  chromeCrashed : Bool := false
  chromePid : Option ℕ := none
  pending : StdMap ℤ PendingRequest := ∅
  eventHandlers : StdMap Str ℕ := ∅
  contexts : StdMap Str ℕ := ∅
  pendingCommands : List Command := []
  ws : WebSocket := {}
  scheduler : UvScheduler Task := {}
  heap : List CdpBrowserContext := []
  waiters : List Waiter := []
  /-- The contexts whose guards the armed timers of `after` hold. -/
  afters : List ℕ := []
  launches : List Launch := []
  children : List Child := []
  /-- The steady clock. -/
  now : ℕ := 0
  /-- Calls of the application that take callbacks, so far. -/
  calls : ℕ := 0
  stack : List Frame := []
  history : List Event := []

/-- How a function of the manager ends: it returns, it has called a function of the
application, which runs now, or it throws. -/
inductive Ctl where
  | done
  | call
  | raise
deriving DecidableEq

namespace State

def log (s : State) (e : Event) : State := { s with history := e :: s.history }

/-- A function of the application is called. -/
def answer (s : State) (call : Call) (a : Answer) : State × Ctl :=
  ({ s with history := .answered call a :: s.history, stack := .user :: s.stack }, .call)

def modifyContext (s : State) (c : ℕ) (f : CdpBrowserContext → CdpBrowserContext) : State :=
  { s with heap := s.heap.modify c f }

def destroy (s : State) (c : ℕ) : State := s.modifyContext c fun x => { x with destroyed := true }

/-- Reading a member of a context; the record of a destroyed one is still there. -/
def readContext (s : State) (c : ℕ) : State :=
  match s.heap[c]? with
  | some x => if x.destroyed then s.log (.dangling c) else s
  | none => s

def sessionOf (s : State) (c : ℕ) : ValidStr :=
  (s.heap[c]?.map CdpBrowserContext.sessionId).getD ⟨[], rfl⟩
def targetOf (s : State) (c : ℕ) : ValidStr :=
  (s.heap[c]?.map CdpBrowserContext.targetId).getD ⟨[], rfl⟩
def platformOf (s : State) (c : ℕ) : Str := (s.heap[c]?.map CdpBrowserContext.platform).getD []
def closedOf (s : State) (c : ℕ) : Bool := (s.heap[c]?.map CdpBrowserContext.closed).getD false

/-- `cmd_id_++` on a 32-bit `int`. -/
def nextId (n : ℤ) : ℤ := if n = 2 ^ 31 - 1 then -2 ^ 31 else n + 1

/-- Taking an id and filling its entry. -/
def issue (s : State) (r : PendingRequest) : State :=
  { s with
    cmdId := nextId s.cmdId
    pending := s.pending.insert s.cmdId r
    history := .issued s.cmdId r :: s.history }

def sendText (s : State) (cmd : Command) : State :=
  { s with ws.sent := ⟨s.ws.conns, s.ws.phase == .open, cmd⟩ :: s.ws.sent }

def sendCommand (s : State) (method : Str) (params : Json) (r : PendingRequest)
    (sessionId : Str) : State × Ctl :=
  let cmd : Command := ⟨s.cmdId, method, params, sessionId⟩
  let s := s.issue r
  if s.wsReady then
    if cmd.dumpable then (s.sendText cmd, .done) else (s, .raise)
  else ({ s with pendingCommands := s.pendingCommands ++ [cmd] }, .done)

end State

def Continuation.call : Continuation → ℕ
  | getContext call | saveSession _ call | restoreSession _ call => call

/-- `on_error` of `do_get_context`, which in all three uses is the application's. -/
def Continuation.onError (k : Continuation) (s : State) (text : Str) : State × Ctl :=
  s.answer (.request k.call) (.error text)

def Continuation.onOk (k : Continuation) (s : State) (platform : Str) (ctx : ℕ) : State × Ctl :=
  let s := s.log (.handedOut platform ctx k)
  match k with
  | getContext call =>
    (s.modifyContext ctx fun x => { x with shared := true }).answer (.request call) (.context ctx)
  | saveSession platform call =>
    s.sendCommand (str "Storage.getCookies") .null (.getCookies platform call) (s.sessionOf ctx)
  | restoreSession cookies call =>
    s.sendCommand (str "Storage.setCookies") (.object [(str "cookies", cookies.json)])
      (.setCookies call) (s.sessionOf ctx)

namespace State

def doGetContext (s : State) (platform : Str) (k : Continuation) : State × Ctl :=
  if s.started = false then k.onError s (str "not started")
  else match s.contexts.lookup platform with
    | some c => k.onOk s platform c
    | none => s.sendCommand (str "Target.createTarget") (.object [(str "url", .str (str "about:blank"))])
        (.createTarget platform k) []

/-- A new call of the application. -/
def enter (s : State) (kind : ℕ → Call) : State :=
  { s with calls := s.calls + 1, history := .called (kind s.calls) :: s.history }

def getContext (s : State) (platform : Str) : State × Ctl :=
  (s.enter .request).doGetContext platform (.getContext s.calls)

def saveSession (s : State) (platform : Str) : State × Ctl :=
  (s.enter .request).doGetContext platform (.saveSession platform s.calls)

/-- `content` is the session file, if it is there and parses. -/
def restoreSession (s : State) (platform : Str) (content : Option Parsed) : State × Ctl :=
  match content with
  | none => (s.enter .request).answer (.request s.calls) (.restored false)
  | some session =>
    match session.find? (str "cookies") with
    | none => (s.enter .request).answer (.request s.calls) (.restored false)
    | some cookies => (s.enter .request).doGetContext platform (.restoreSession cookies s.calls)

/-- `contexts_.erase(platform)`, with the destructor of the context. -/
def removeContext (s : State) (platform : Str) : State :=
  match s.contexts.lookup platform with
  | some c => { s with contexts := s.contexts.erase platform }.destroy c
  | none => s

/-- `contexts_[platform].reset(raw_ctx)`: the old context is deleted, also when it is the
same one. -/
def resetContext (s : State) (platform : Str) (c : ℕ) : State :=
  match s.contexts.lookup platform with
  | some old => { s with contexts := s.contexts.insert platform c }.destroy old
  | none => { s with contexts := s.contexts.insert platform c }

def close (s : State) (c : ℕ) : State × Ctl :=
  if s.closedOf c then (s.enter .operation).answer (.operation s.calls) (.error (str "already closed"))
  else
    ((s.enter .operation).modifyContext c fun x => { x with closed := true }).sendCommand
      (str "Target.closeTarget") (.object [(str "targetId", .str (s.targetOf c))])
      (.closeTarget c s.calls) []

/-- `Runtime.evaluate` of a script. -/
def evaluate (s : State) (c : ℕ) (js : Str) (r : PendingRequest) : State × Ctl :=
  s.sendCommand (str "Runtime.evaluate")
    (.object [(str "expression", .str js), (str "returnByValue", .bool true)]) r (s.sessionOf c)

/-- The common shape of `click`, `type`, `scroll`, `hover` and `exists`. -/
def act (s : State) (c : ℕ) (js : Str) : State × Ctl :=
  if s.closedOf c then (s.enter .operation).answer (.operation s.calls) (.error (str "context closed"))
  else (s.enter .operation).evaluate c js (.command s.calls)

def keyEvent (type key : Str) : Json :=
  let vk : ℤ :=
    if key = str "Enter" then 13 else if key = str "Tab" then 9 else if key = str "Escape" then 27
    else if key = str "Backspace" then 8 else if key = str "Delete" then 46 else 0
  .object ([(str "type", .str type), (str "key", .str key)] ++
    (if 0 < vk then [(str "windowsVirtualKeyCode", .int vk)] else []) ++
    if key = str "Enter" ∧ type = str "keyDown" then [(str "text", .str [13])] else [])

def pressKey (s : State) (c : ℕ) (key : Str) : State × Ctl :=
  if s.closedOf c then (s.enter .operation).answer (.operation s.calls) (.error (str "context closed"))
  else (s.enter .operation).sendCommand (str "Input.dispatchKeyEvent") (keyEvent (str "keyDown") key)
    (.keyDown c key s.calls) (s.sessionOf c)

def post (s : State) (task : Task) : State := { s with scheduler := s.scheduler.post task }

def waitForSelector (s : State) (c : ℕ) (selector : Str) (timeoutMs : ℕ) : State × Ctl :=
  if s.closedOf c then (s.enter .operation).answer (.operation s.calls) (.error (str "context closed"))
  else
    let w : Waiter := { ctx := c, selector, timeoutMs, start := s.now, call := s.calls }
    (({ s.enter .operation with waiters := s.waiters ++ [w] } : State).post
      (.check s.waiters.length), .done)

/-- A one-shot timer; its callback holds a guard that the destructor of the context sets to
`false`. -/
def after (s : State) (c : ℕ) : State := { s with afters := s.afters ++ [c] }

/-- The timer at this place fires, and calls the application if the guard is still `true`. -/
def fire (s : State) (i c : ℕ) : State :=
  let s := { s with afters := s.afters.eraseIdx i }
  if s.heap[c]?.map CdpBrowserContext.destroyed = some false then
    { s with stack := .user :: s.stack }
  else s

def finishWaiter (s : State) (w : ℕ) : State :=
  { s with waiters := s.waiters.modify w fun x => { x with done := true } }

/-- `js_selector`: a selector inside single quotes. -/
def jsSelector (selector : Str) : Str :=
  selector.flatMap fun c => if c = 92 then [92, 92] else if c = 39 then [92, 39] else [c]

def existsScript (selector : Str) : Str :=
  str "!!document.querySelector('" ++ jsSelector selector ++ str "')"

/-- `static_cast<int64_t>` of a `uint64_t`. -/
def toInt64 (n : ℕ) : ℤ := ((n : ℤ) + 2 ^ 63) % 2 ^ 64 - 2 ^ 63

/-- The closure `check` of `wait_for_selector`. -/
def check (s : State) (w : ℕ) : State × Ctl :=
  match s.waiters[w]? with
  | none => (s, .done)
  | some x =>
    if x.done then (s, .done)
    else
      let s := s.readContext x.ctx
      if s.closedOf x.ctx then (s.finishWaiter w, .done)
      else if toInt64 x.timeoutMs ≤ (s.now - x.start : ℕ) then
        (s.finishWaiter w).answer (.operation x.call)
          (.error (str "wait_for_selector timeout (" ++ x.selector ++ str ")"))
      else s.evaluate x.ctx (existsScript x.selector) (.poll w)

/-- `res["value"].get<bool>()`, false if there is no value. -/
def polled (res : Json) : Option Bool :=
  match res.find? (str "value") with
  | none | some .null => some false
  | some (.bool b) => some b
  | some _ => none

/-- The script every new context gets. -/
def stealth : Str :=
  str "\nObject.defineProperty(navigator, 'webdriver', \x7bget: () => false\x7d);\n" ++
  str "var pp=Object.getPrototypeOf(navigator.plugins);\n" ++
  str "Object.defineProperty(navigator, 'plugins', \x7b\n    get: () => \x7b\n" ++
  str "        var p1=\x7bname:'Chrome PDF Plugin',filename:'internal-pdf-viewer'," ++
  str "description:'Portable Document Format',length:1\x7d;\n" ++
  str "        var p2=\x7bname:'Chrome PDF Viewer',filename:'mhjfbmdgcfjbbpaeojofohoefgiehjai'," ++
  str "description:'',length:1\x7d;\n" ++
  str "        var p3=\x7bname:'Native Client',filename:'internal-nacl-plugin'," ++
  str "description:'',length:1\x7d;\n" ++
  str "        return Object.setPrototypeOf([p1,p2,p3],pp);\n    \x7d\n\x7d);\n" ++
  str "var mp=Object.getPrototypeOf(navigator.mimeTypes);\n" ++
  str "Object.defineProperty(navigator, 'mimeTypes', \x7b\n    get: () => Object.setPrototypeOf(" ++
  str "[\x7btype:'application/pdf',suffixes:'pdf',description:''\x7d],mp)\n\x7d);\n" ++
  str "Object.defineProperty(navigator, 'languages', \x7bget: () => ['zh-CN','zh','en']\x7d);\n" ++
  str "Object.defineProperty(navigator, 'hardwareConcurrency', \x7bget: () => 4\x7d);\n" ++
  str "window.chrome = \x7bruntime:\x7b\x7d, loadTimes:()=>\x7b\x7d, csi:()=>\x7b\x7d\x7d;\n"

/-- Calling one of the two functions of an entry. A result without the key that is asked for is counted as
one with a value of another type, which throws; in the program it is an assertion. -/
def invoke (s : State) : PendingRequest → Reply → State × Ctl
  | .command call, .ok result => s.answer (.operation call) (.result result)
  | .ignored, _ => (s, .done)
  | .createTarget platform k, .ok result =>
    match result.strAt (str "targetId") with
    | none => (s, .raise)
    | some targetId =>
      s.sendCommand (str "Target.attachToTarget")
        (.object [(str "targetId", .str targetId), (str "flatten", .bool true)])
        (.attachToTarget platform targetId k) []
  | .attachToTarget platform targetId k, .ok result =>
    match result.strAt (str "sessionId") with
    | none => (s, .raise)
    | some sessionId =>
      let ctx : CdpBrowserContext := { platform, targetId, sessionId }
      let r := { s with heap := s.heap ++ [ctx] }.sendCommand
        (str "Page.addScriptToEvaluateOnNewDocument") (.object [(str "source", .str stealth)])
        (.addScript platform s.heap.length k) sessionId
      if r.2 = .raise then r
      else r.1.sendCommand (str "Page.enable") .null .ignored sessionId
  | .addScript platform c k, .ok _ =>
    k.onOk ((s.resetContext platform c).log (.cached platform c k)) platform c
  | .addScript _ c k, .error _ => ((s.destroy c).log (.rejected c k), .done)
  | .getCookies platform call, .ok result =>
    match result.find? (str "cookies") with
    | none => (s, .raise)
    | some cookies => (s.log (.saved platform cookies)).answer (.request call) .done
  | .setCookies call, .ok _ => s.answer (.request call) (.restored true)
  | .closeTarget c call, .ok _ =>
    ((s.readContext c).removeContext (s.platformOf c)).answer (.operation call) .done
  | .keyDown c key call, .ok _ =>
    (s.readContext c).sendCommand (str "Input.dispatchKeyEvent") (keyEvent (str "keyUp") key)
      (.command call) (s.sessionOf c)
  | .poll w, .ok result =>
    match s.waiters[w]?, result.json.find? (str "result") with
    | some x, some res =>
      if x.done then (s, .done)
      else match polled res with
        | some true => (s.finishWaiter w).answer (.operation x.call) .done
        | some false => s.check w
        | none => (s, .raise)
    | _, _ => (s, .raise)
  | .poll w, .error _ => s.check w
  | .createTarget _ k, .error text | .attachToTarget _ _ k, .error text => k.onError s text
  | .getCookies _ call, .error text | .setCookies call, .error text =>
    s.answer (.request call) (.error text)
  | .command call, .error text | .closeTarget _ call, .error text | .keyDown _ _ call, .error text =>
    s.answer (.operation call) (.error text)

/-- Behind the callback: `pending_.erase(it)`, if `on_ws_message` is what called it. -/
def resume (s : State) : State :=
  match s.stack with
  | .eraseIt id :: rest => { s with pending := s.pending.erase id, stack := rest }
  | _ => s

/-- An exception passes through `on_ws_message`. -/
def unwind (s : State) : State :=
  match s.stack with
  | .eraseIt id :: rest => { s with stack := rest, history := .escaped id :: s.history }
  | _ => s

/-- A function of the manager ends below whatever called it. -/
def finish (r : State × Ctl) : State :=
  match r.2 with
  | .done => r.1.resume
  | .call => r.1
  | .raise => r.1.unwind

end State

/-- The function a response selects and its argument. `none`: `error` has no text. -/
def Parsed.reply (msg : Parsed) : Option Reply :=
  match msg.find? (str "error") with
  | some e => (e.json.strAt (str "message")).map .error
  | none => some (.ok ((msg.find? (str "result")).getD .null))

/-- The id as `msg["id"].get<int>()` converts it. -/
def Parsed.id? (msg : Parsed) : Option ℤ := (msg.json.find? (str "id")).bind Json.getInt

namespace State

def onResponse (s : State) (msg : Parsed) : State :=
  match msg.id? with
  | none => s
  | some id =>
    match s.pending.lookup id, msg.reply with
    | some r, some reply =>
      finish ({ s with
        stack := .eraseIt id :: s.stack
        history := .invoked id r reply :: s.history }.invoke r reply)
    | _, _ => s

def onCdpEvent (s : State) (msg : Parsed) : State :=
  match msg.json.strAt (str "method"), msg.json.valueStr (str "sessionId") [] with
  | some method, some sessionId =>
    let key := sessionId ++ str ":" ++ method
    match s.eventHandlers.lookup key with
    | some h =>
      { s with
        eventHandlers := s.eventHandlers.erase key
        stack := .user :: s.stack
        history := .fired key h :: s.history }
    | none => s
  | _, _ => s

/-- `on_ws_message`; `none` is a text that does not parse. -/
def onWsMessage (s : State) (data : Option Parsed) : State :=
  match data with
  | none => s
  | some msg =>
    let s := s.log (.handling msg)
    if msg.json.contains (str "id") then s.onResponse msg else s.onCdpEvent msg

/-- The loop over `pending_commands_` in the Open handler; `false`: a `dump()` threw. -/
def flush (s : State) : List Command → State × Bool
  | [] => (s, true)
  | cmd :: cmds => if cmd.dumpable then (s.sendText cmd).flush cmds else (s, false)

/-- The closure that the Open event posts. -/
def onOpen (s : State) (conn : ℕ) : State :=
  match ({ s with wsReady := true }.log (.ready conn)).flush s.pendingCommands with
  | (s, false) => s
  | (s, true) =>
    let enable : Command := ⟨s.cmdId, str "Page.enable", .object [], []⟩
    ({ s with pendingCommands := [] }.issue .ignored).sendText enable

/-- `kill` and `waitpid`. -/
def reap (s : State) (pid : ℕ) : State :=
  { s with children := s.children.set pid .reaped, chromePid := none }

def reapChrome (s : State) : State :=
  match s.chromePid with
  | some pid => s.reap pid
  | none => s

def start (s : State) : State :=
  if s.started then s
  else
    let s := s.reapChrome
    { s with
      wsReady := false
      pendingCommands := []
      chromeCrashed := false
      scheduler := s.scheduler.start
      launches := s.launches ++ [.queued]
      history := .starting :: s.history }

/-- `ws_.start()` does nothing while its thread is joinable. -/
def wsStart (s : State) : State :=
  if s.ws.joinable then s
  else
    { s with
      ws := { s.ws with conns := s.ws.conns + 1, phase := .connecting, joinable := true }
      history := .connected (s.ws.conns + 1) :: s.history }

/-- `on_done` of a launch. -/
def onDone (s : State) (i : ℕ) (url : Bool) : State :=
  let s := { s with launches := s.launches.set i .delivered }
  if url then { s.wsStart with started := true } else s

def wsStop (s : State) : State :=
  { s with ws := { s.ws with phase := .closed, joinable := false } }

/-- `contexts_.clear()`. -/
def clearContexts (s : State) : State :=
  { s.contexts.entries.foldl (fun s e => s.destroy e.2) s with contexts := ∅ }

/-- `stop()` up to the call of `scheduler_->step()`. -/
def stop (s : State) : State :=
  if s.started then
    let s := s.clearContexts.wsStop.reapChrome
    { s with scheduler := s.scheduler.stop, afters := [], stack := .stopping :: s.stack }
  else s.log .stopped

def healthCheck (s : State) : State × Bool :=
  if s.started = false then (s, false)
  else if s.chromeCrashed then (s, false)
  else match s.chromePid.bind fun pid => s.children[pid]? with
    | some .reaped => ({ s with chromeCrashed := true }, false)
    | _ => (s, true)

end State

/-- The operations of a context that do not look at `closed_`. -/
inductive ContextCommand where
  | navigate (url : Str)
  | evaluate (js : Str)
  | addInitScript (js : Str)
  | currentUrl
  | screenshot
  | sendCommand (method : Str) (params : Json)

namespace ContextCommand

def method : ContextCommand → Str
  | navigate _ => str "Page.navigate"
  | evaluate _ | currentUrl => str "Runtime.evaluate"
  | addInitScript _ => str "Page.addScriptToEvaluateOnNewDocument"
  | screenshot => str "Page.captureScreenshot"
  | sendCommand method _ => method

def params : ContextCommand → Json
  | navigate url => .object [(str "url", .str url)]
  | evaluate js => .object [(str "expression", .str js), (str "returnByValue", .bool true)]
  | addInitScript js => .object [(str "source", .str js)]
  | currentUrl => .object [(str "expression", .str (str "document.URL")), (str "returnByValue", .bool true)]
  | screenshot => .object [(str "format", .str (str "png"))]
  | sendCommand _ params => params

end ContextCommand

/-- Such an operation; what the callback does with the result is left to the application. -/
def State.command (s : State) (c : ℕ) (op : ContextCommand) : State × Ctl :=
  (s.enter .operation).sendCommand op.method op.params (.command s.calls) (s.sessionOf c)

inductive Label where
  /-- The application, from a callback or from outside. -/
  | sendCommand (method : Str) (params : Json) (sessionId : Str)
  | getContext (platform : Str)
  | saveSession (platform : Str)
  | restoreSession (platform : Str) (content : Option Parsed)
  | close (ctx : ℕ)
  | command (ctx : ℕ) (op : ContextCommand)
  | act (ctx : ℕ) (js : Str)
  | pressKey (ctx : ℕ) (key : Str)
  | waitForSelector (ctx : ℕ) (selector : Str) (timeoutMs : ℕ)
  | after (ctx : ℕ)
  | onEvent (sessionId method : Str)
  | removeEvent (sessionId method : Str)
  | start
  | stop
  | healthCheck
  | ret
  | throw
  /-- The loop. -/
  | wake
  | swap
  | next
  | fire (timer : ℕ)
  | workDone (launch : ℕ)
  | stopReturn
  /-- The thread of the WebSocket. -/
  | opened
  | received (data : Option Parsed)
  | failed
  | closed
  /-- Other threads and processes. -/
  | post
  | fork (launch : ℕ)
  | launched (launch : ℕ) (url : Bool)
  | exit (pid : ℕ)
  | tick

namespace State

/-- Code of the application can run: outside of any call, or in a callback. -/
def userTurn (s : State) : Bool :=
  match s.stack with
  | [] => true
  | .user :: _ => true
  | _ => false

/-- The application holds the pointer and the object is there. -/
def usable (s : State) (c : ℕ) : Bool :=
  match s.heap[c]? with
  | some x => x.shared && !x.destroyed
  | none => false

/-- An exception of a posted check ends in `catch (...) {}`. -/
def runTask (s : State) : Task → State
  | .open conn => s.onOpen conn
  | .message _ data => s.onWsMessage data
  | .check w => (s.check w).1
  | .user => { s with stack := .user :: s.stack }

def step (s : State) : Label → Option State
  | .sendCommand method params sessionId =>
    if s.userTurn then
      some ((s.enter .operation).sendCommand method params (.command s.calls) sessionId).1
    else none
  | .getContext platform => if s.userTurn then some (s.getContext platform).1 else none
  | .saveSession platform => if s.userTurn then some (s.saveSession platform).1 else none
  | .restoreSession platform content =>
    if s.userTurn then some (s.restoreSession platform content).1 else none
  | .close c => if s.userTurn ∧ s.usable c then some (s.close c).1 else none
  | .command c op => if s.userTurn ∧ s.usable c then some (s.command c op).1 else none
  | .act c js => if s.userTurn ∧ s.usable c then some (s.act c js).1 else none
  | .pressKey c key => if s.userTurn ∧ s.usable c then some (s.pressKey c key).1 else none
  | .waitForSelector c selector timeoutMs =>
    if s.userTurn ∧ s.usable c then some (s.waitForSelector c selector timeoutMs).1 else none
  | .after c => if s.userTurn ∧ s.usable c then some (s.after c) else none
  | .onEvent sessionId method =>
    if s.userTurn then
      some { s.enter .operation with
        eventHandlers := s.eventHandlers.insert (sessionId ++ str ":" ++ method) s.calls }
    else none
  | .removeEvent sessionId method =>
    if s.userTurn then
      some { s with eventHandlers := s.eventHandlers.erase (sessionId ++ str ":" ++ method) }
    else none
  | .start => if s.userTurn then some s.start else none
  | .stop => if s.userTurn then some s.stop else none
  | .healthCheck => if s.userTurn then some s.healthCheck.1 else none
  | .ret =>
    match s.stack with
    | .user :: rest => some { s with stack := rest }.resume
    | _ => none
  | .throw =>
    match s.stack with
    | .user :: rest => some { s with stack := rest }.unwind
    | _ => none
  | .wake =>
    match s.stack with
    | [] =>
      if s.scheduler.asyncInited ∧ s.scheduler.asyncPending then
        some { s with scheduler := { s.scheduler with asyncPending := false }, stack := [.awoken] }
      else none
    | _ => none
  | .swap =>
    match s.stack with
    | .awoken :: rest =>
      some { s with
        scheduler := { s.scheduler with postQueue := [] }
        stack := .draining s.scheduler.postQueue :: rest }
    | _ => none
  | .next =>
    match s.stack with
    | .draining [] :: rest => some { s with stack := rest }
    | .draining (task :: batch) :: rest =>
      some ({ s with stack := .draining batch :: rest }.runTask task)
    | _ => none
  | .fire i =>
    match s.stack, s.afters[i]? with
    | [], some c => some (s.fire i c)
    | _, _ => none
  | .workDone i =>
    match s.stack, s.launches[i]? with
    | [], some (.launched url) => some (s.onDone i url)
    | .stopping :: _, some (.launched url) => some (s.onDone i url)
    | _, _ => none
  | .stopReturn =>
    match s.stack with
    | .stopping :: rest =>
      some { s with
        started := false
        chromeCrashed := false
        stack := rest
        history := .stopped :: s.history }
    | _ => none
  | .opened =>
    if s.ws.phase = .connecting then
      some ({ s with ws := { s.ws with phase := .open } }.post (.open s.ws.conns))
    else none
  | .received data =>
    if s.ws.phase = .open then some (s.post (.message s.ws.conns data)) else none
  | .failed =>
    if s.ws.phase = .connecting then
      some { s with ws := { s.ws with phase := .closed }, chromeCrashed := true }
    else none
  | .closed =>
    if s.ws.phase = .open then some { s with ws := { s.ws with phase := .closed } } else none
  | .post => some (s.post .user)
  | .fork i =>
    match s.launches[i]? with
    | some .queued =>
      some { s with
        launches := s.launches.set i (.forked s.children.length)
        children := s.children ++ [.running]
        chromePid := some s.children.length }
    | _ => none
  | .launched i url =>
    match s.launches[i]? with
    | some .queued => if url then none else some { s with launches := s.launches.set i (.launched false) }
    | some (.forked pid) =>
      let s := { s with launches := s.launches.set i (.launched url) }
      some (if url then s else s.reap pid)
    | _ => none
  | .exit pid =>
    match s.children[pid]? with
    | some .running => some { s with children := s.children.set pid .exited }
    | _ => none
  | .tick => some { s with now := s.now + 1 }

end State

/-- The manager as its constructor leaves it. -/
def init : State := {}

/-- `start()` up to the handling of the Open event. -/
def connect : List Label :=
  [.start, .fork 0, .launched 0 true, .workDone 0, .opened, .wake, .swap, .next, .next]

/-- A message arrives and the loop turns to it. -/
def arrive (msg : Parsed) : List Label := [.received (some msg), .wake, .swap, .next]

def okMessage (id : UInt64) (result : Parsed) : Parsed :=
  .object [(⟨str "id", rfl⟩, .number id), (⟨str "result", rfl⟩, result)]

def errorMessage (id : UInt64) (message : ValidStr) : Parsed :=
  .object [(⟨str "id", rfl⟩, .number id),
    (⟨str "error", rfl⟩, .object [(⟨str "message", rfl⟩, .text message)])]

end LynneSocial.Browser
