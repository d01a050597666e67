import LynneSocial.Scheduler.UvScheduler
import LynneSocial.Lib.Transition

/-!
# IxWsClient

The client, its `ix::WebSocket` and the post queue of its scheduler as one state.
The thread of the socket acts between any two steps of the loop thread, also
while `disconnect()` or `stop()` waits for it. Of the library the model takes what
its source does: `start()` does nothing while the thread is joinable, and only
`stop()` joins the thread. Until then an attempt that is cancelled still fails
with an error, and what is read is still dispatched, also behind a close frame.

Connections are numbered by the call of `connect()` that began them.
-/
namespace LynneSocial.WsClient

inductive WsReadyState where
  | connecting
  | open
  | closing
  | closed
deriving DecidableEq

/-- What the connection is doing, as its events tell. -/
inductive Phase where
  | connecting
  | open
  | closed
deriving DecidableEq

def Phase.readyState : Phase → WsReadyState
  | connecting => .connecting
  | .open => .open
  | closed => .closed

/-- `ix::WebSocket`. -/
structure WebSocket where
  url : Str := []
  extraHeaders : StdMap Str Str := ∅
  joinable : Bool := false
  phase : Phase := .closed
  /-- The thread reads and dispatches. -/
  reading : Bool := false
  /-- The call of `connect()` that began the connection. -/
  conn : ℕ := 0
  /-- The URLs of all attempts, the latest first. -/
  attempts : List Str := []

/-- What a `std::function` of the post queue captured, and the connection it came from. -/
inductive Task where
  | error (conn : ℕ) (reason : Str)
  | message (conn : ℕ) (data : Str) (binary : Bool)
  | user

inductive Frame where
  | user
  | awoken
  | draining (batch : List Task)
  /-- `disconnect()` waits in `ws_.stop()` for the thread of the socket. -/
  | disconnecting
  /-- So does `stop()`. -/
  | stoppingSocket
  /-- `stop()` is in `scheduler_->step()`. -/
  | stopping

inductive Event where
  /-- A callback passed to the `connect()` number `callback` is called. -/
  | delivered (conn callback : ℕ)
  /-- `disconnect()` has returned; `conn` is the connection it was about. -/
  | disconnected (conn : ℕ)
deriving DecidableEq

structure State where
  started : Bool := false
  readyState : WsReadyState := .closed
  /-- The function that was passed to the `connect()` with this number; `none` is empty. -/
  onMessage : Option ℕ := none
  onError : Option ℕ := none
  ws : WebSocket := {}
  scheduler : UvScheduler Task := {}
  /-- The URLs of all calls of `connect()`, the latest first. -/
  connects : List Str := []
  stack : List Frame := []
  history : List Event := []

/-- `ix::WebSocket::start`. -/
def WebSocket.start (ws : WebSocket) (conn : ℕ) : WebSocket :=
  if ws.joinable then ws
  else
    { ws with
      joinable := true
      phase := .connecting
      reading := false
      conn
      attempts := ws.url :: ws.attempts }

/-- `ix::WebSocket::stop` behind the join. Nothing reads what the thread left of the connection. -/
def WebSocket.stop (ws : WebSocket) : WebSocket :=
  { ws with joinable := false, phase := .closed, reading := false }

namespace State

def start (s : State) : State :=
  if s.started then s else { s with scheduler := s.scheduler.start, started := true }

/-- `stop()` up to the call of `ws_.stop()`. -/
def stop (s : State) : State :=
  if s.started then { s with stack := .stoppingSocket :: s.stack } else s

/-- The rest of `stop()`, up to the call of `scheduler_->step()`. -/
def stopScheduler (s : State) (rest : List Frame) : State :=
  { s with
    ws := s.ws.stop
    readyState := .closed
    scheduler := s.scheduler.stop
    stack := .stopping :: rest }

/-- The flags say which of the two functions are not empty. -/
def connect (s : State) (url : Str) (headers : StdMap Str Str) (onMessage onError : Bool) : State :=
  let n := s.connects.length + 1
  { s with
    onMessage := if onMessage then some n else none
    onError := if onError then some n else none
    readyState := .connecting
    ws := { s.ws with url, extraHeaders := headers }.start n
    connects := url :: s.connects }

/-- `disconnect()` up to the call of `ws_.stop()`. -/
def disconnect (s : State) : State :=
  if s.readyState = .closed then { s with history := .disconnected s.ws.conn :: s.history }
  else { s with stack := .disconnecting :: s.stack }

/-- The rest of `disconnect()`. -/
def disconnected (s : State) (rest : List Frame) : State :=
  { s with
    ws := s.ws.stop
    readyState := .closed
    stack := rest
    history := .disconnected s.ws.conn :: s.history }

def post (s : State) (task : Task) : State := { s with scheduler := s.scheduler.post task }

/-- Calling `on_message_` or `on_error_`, if it is not empty. -/
def deliver (s : State) (conn : ℕ) (callback : Option ℕ) : State :=
  match callback with
  | some k => { s with history := .delivered conn k :: s.history, stack := .user :: s.stack }
  | none => s

def runTask (s : State) : Task → State
  | .error conn _ => s.deliver conn s.onError
  | .message conn _ _ => s.deliver conn s.onMessage
  | .user => { s with stack := .user :: s.stack }

end State

inductive Label where
  /-- The application, from a callback or from outside. -/
  | start
  | stop
  | connect (url : Str) (headers : StdMap Str Str) (onMessage onError : Bool)
  | disconnect
  /-- `ws_.stop()` has joined the thread. -/
  | joined
  /-- A callback returns, or throws into `catch (...) {}`. -/
  | ret
  /-- The loop. -/
  | wake
  | swap
  | next
  | stopReturn
  /-- The thread of the socket. -/
  | opened
  | received (data : Str) (binary : Bool)
  | failed (reason : Str)
  | closed
  /-- Another thread posts a callback. -/
  | post

namespace State

/-- Code of the application can run: outside of any call, or in a callback. -/
def userTurn (s : State) : Bool :=
  match s.stack with
  | [] => true
  | .user :: _ => true
  | _ => false

def step (s : State) : Label → Option State
  | .start => if s.userTurn then some s.start else none
  | .stop => if s.userTurn then some s.stop else none
  | .connect url headers onMessage onError =>
    if s.userTurn then some (s.connect url headers onMessage onError) else none
  | .disconnect => if s.userTurn then some s.disconnect else none
  | .joined =>
    match s.stack with
    | .disconnecting :: rest => some (s.disconnected rest)
    | .stoppingSocket :: rest => some (s.stopScheduler rest)
    | _ => none
  | .ret =>
    match s.stack with
    | .user :: rest => some { s with stack := rest }
    | _ => none
  | .wake =>
    match s.stack with
    | [] =>
      if s.scheduler.asyncInited ∧ s.scheduler.asyncPending then
        some { s with scheduler := { s.scheduler with asyncPending := false }, stack := [.awoken] }
      else none
    | _ => none
  | .swap =>
    match s.stack with
    | .awoken :: rest =>
      some { s with
        scheduler := { s.scheduler with postQueue := [] }
        stack := .draining s.scheduler.postQueue :: rest }
    | _ => none
  | .next =>
    match s.stack with
    | .draining [] :: rest => some { s with stack := rest }
    | .draining (task :: batch) :: rest =>
      some ({ s with stack := .draining batch :: rest }.runTask task)
    | _ => none
  | .stopReturn =>
    match s.stack with
    | .stopping :: rest => some { s with started := false, stack := rest }
    | _ => none
  | .opened =>
    if s.ws.phase = .connecting then
      some { s with ws := { s.ws with phase := .open, reading := true }, readyState := .open }
    else none
  | .received data binary =>
    if s.ws.reading then some (s.post (.message s.ws.conn data binary)) else none
  | .failed reason =>
    if s.ws.phase = .connecting then
      some ({ s with ws := { s.ws with phase := .closed }, readyState := .closed }.post
        (.error s.ws.conn reason))
    else none
  | .closed =>
    if s.ws.phase = .open then
      some { s with ws := { s.ws with phase := .closed }, readyState := .closed }
    else none
  | .post => some (s.post .user)

end State

/-- The client as its constructor leaves it. -/
def init : State := {}

variable {s t : State}

/-- Every call of `connect()` began an attempt, and `ready_state()` tells what the connection
is doing. -/
def Agrees (s : State) : Prop :=
  s.ws.attempts = s.connects ∧ s.readyState = s.ws.phase.readyState

/-- `connect()` is called while no thread is left from an earlier connection. -/
def ConnectsJoined (s : State) : Label → Prop
  | .connect _ _ _ _ => s.ws.joinable = false
  | _ => True

instance (s : State) : ∀ l, Decidable (ConnectsJoined s l)
  | .connect _ _ _ _ => inferInstanceAs (Decidable (_ = _))
  | .start | .stop | .disconnect | .joined | .ret | .wake | .swap | .next | .stopReturn | .opened
  | .received _ _ | .failed _ | .closed | .post => .isTrue trivial

theorem deliver_ws (s : State) (conn : ℕ) (callback : Option ℕ) :
    (s.deliver conn callback).ws = s.ws ∧ (s.deliver conn callback).readyState = s.readyState ∧
      (s.deliver conn callback).connects = s.connects := by
  unfold State.deliver
  split <;> exact ⟨rfl, rfl, rfl⟩

theorem runTask_ws (s : State) (task : Task) :
    (s.runTask task).ws = s.ws ∧ (s.runTask task).readyState = s.readyState ∧
      (s.runTask task).connects = s.connects := by
  cases task with
  | error conn reason => exact deliver_ws s conn _
  | message conn data binary => exact deliver_ws s conn _
  | user => exact ⟨rfl, rfl, rfl⟩

/-- The steps, one by one. -/
inductive State.Does (s : State) : Label → State → Prop
  | start : Does s .start s.start
  | stop : Does s .stop s.stop
  | connect (url : Str) (headers : StdMap Str Str) (m e : Bool) :
      Does s (.connect url headers m e) (s.connect url headers m e)
  | disconnect : Does s .disconnect s.disconnect
  | disconnected (rest : List Frame) (h : s.stack = .disconnecting :: rest) :
      Does s .joined (s.disconnected rest)
  | stopScheduler (rest : List Frame) (h : s.stack = .stoppingSocket :: rest) :
      Does s .joined (s.stopScheduler rest)
  | ret (rest : List Frame) (h : s.stack = .user :: rest) : Does s .ret { s with stack := rest }
  | wake (h : s.stack = []) : Does s .wake
      { s with scheduler := { s.scheduler with asyncPending := false }, stack := [.awoken] }
  | swap (rest : List Frame) (h : s.stack = .awoken :: rest) : Does s .swap
      { s with
        scheduler := { s.scheduler with postQueue := [] }
        stack := .draining s.scheduler.postQueue :: rest }
  | drained (rest : List Frame) (h : s.stack = .draining [] :: rest) : Does s .next { s with stack := rest }
  | task (task : Task) (batch : List Task) (rest : List Frame) (h : s.stack = .draining (task :: batch) :: rest) :
      Does s .next (({ s with stack := .draining batch :: rest } : State).runTask task)
  | stopReturn (rest : List Frame) (h : s.stack = .stopping :: rest) :
      Does s .stopReturn { s with started := false, stack := rest }
  | opened (h : s.ws.phase = .connecting) :
      Does s .opened { s with ws := { s.ws with phase := .open, reading := true }, readyState := .open }
  | received (data : Str) (binary : Bool) (h : s.ws.reading = true) :
      Does s (.received data binary) (s.post (.message s.ws.conn data binary))
  | failed (reason : Str) (h : s.ws.phase = .connecting) : Does s (.failed reason)
      (({ s with ws := { s.ws with phase := .closed }, readyState := .closed } : State).post
        (.error s.ws.conn reason))
  | closed (h : s.ws.phase = .open) :
      Does s .closed { s with ws := { s.ws with phase := .closed }, readyState := .closed }
  | post : Does s .post (s.post .user)

theorem State.step_does {l : Label} (ht : s.step l = some t) : s.Does l t := by
  cases l <;> simp only [State.step] at ht
  case wake =>
    split at ht
    · split at ht <;> cases ht
      exact .wake ‹_›
    · cases ht
  case next =>
    split at ht <;> cases ht
    · exact .drained _ ‹_›
    · exact .task _ _ _ ‹_›
  case joined =>
    split at ht <;> cases ht
    · exact .disconnected _ ‹_›
    · exact .stopScheduler _ ‹_›
  case post =>
    cases ht
    exact .post
  all_goals
    split at ht <;> cases ht
    constructor <;> assumption

/-- What a step does to the socket and to `state_`. -/
theorem step_ws {l : Label} (ht : s.step l = some t) :
    (t.ws = s.ws ∧ t.readyState = s.readyState ∧ t.connects = s.connects) ∨
    (t.connects = s.connects ∧ t.ws.attempts = s.ws.attempts ∧ t.readyState = t.ws.phase.readyState) ∨
    ∃ url headers m e, l = .connect url headers m e ∧ t = s.connect url headers m e := by
  cases State.step_does ht with
  | start =>
      unfold State.start
      split <;> exact .inl ⟨rfl, rfl, rfl⟩
  | stop =>
      unfold State.stop
      split <;> exact .inl ⟨rfl, rfl, rfl⟩
  | connect url headers m e => exact .inr (.inr ⟨url, headers, m, e, rfl, rfl⟩)
  | disconnect =>
      unfold State.disconnect
      split <;> exact .inl ⟨rfl, rfl, rfl⟩
  | disconnected rest => exact .inr (.inl ⟨rfl, rfl, rfl⟩)
  | stopScheduler rest => exact .inr (.inl ⟨rfl, rfl, rfl⟩)
  | task task batch rest => exact .inl (runTask_ws _ _)
  | opened => exact .inr (.inl ⟨rfl, rfl, rfl⟩)
  | failed reason => exact .inr (.inl ⟨rfl, rfl, rfl⟩)
  | closed => exact .inr (.inl ⟨rfl, rfl, rfl⟩)
  | _ => exact .inl ⟨rfl, rfl, rfl⟩

theorem connect_joined (url : Str) (headers : StdMap Str Str) (m e : Bool)
    (h : s.ws.joinable = false) :
    (s.connect url headers m e).ws.attempts = url :: s.ws.attempts ∧
      (s.connect url headers m e).ws.phase = .connecting := by
  simp [State.connect, WebSocket.start, h]

theorem connect_joinable {url : Str} {headers : StdMap Str Str} {m e : Bool}
    (h : s.ws.joinable = true) : (s.connect url headers m e).ws.attempts = s.ws.attempts := by
  simp [State.connect, WebSocket.start, h]

theorem agrees_step {l : Label} (h : Agrees s) (hl : ConnectsJoined s l) (ht : s.step l = some t) :
    Agrees t := by
  obtain ⟨ha, hr⟩ := h
  rcases step_ws ht with ⟨hw, hst, hc⟩ | ⟨hc, hat, hst⟩ | ⟨url, headers, m, e, rfl, rfl⟩
  · exact ⟨by rw [hw, hc, ha], by rw [hw, hst, hr]⟩
  · exact ⟨by rw [hat, hc, ha], hst⟩
  · obtain ⟨hat, hph⟩ := connect_joined url headers m e hl
    refine ⟨?_, by rw [hph]; rfl⟩
    rw [hat, ha]
    rfl

/-- No call of `connect()` went without an attempt. -/
def Attempted (s : State) : Prop := s.connects.length ≤ s.ws.attempts.length

theorem not_attempted_step {l : Label} (h : ¬ Attempted s) (ht : s.step l = some t) :
    ¬ Attempted t := by
  unfold Attempted at h ⊢
  rcases step_ws ht with ⟨hw, -, hc⟩ | ⟨hc, hat, -⟩ | ⟨url, headers, m, e, rfl, rfl⟩
  · rwa [hw, hc]
  · rwa [hat, hc]
  · have hc : (s.connect url headers m e).connects = url :: s.connects := rfl
    cases hj : s.ws.joinable with
    | true =>
        rw [connect_joinable hj, hc, List.length_cons]
        omega
    | false =>
        rw [(connect_joined _ _ _ _ hj).1, hc, List.length_cons, List.length_cons]
        omega

end LynneSocial.WsClient
