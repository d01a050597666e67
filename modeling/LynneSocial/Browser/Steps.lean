import LynneSocial.Browser.Actions

/-!
# Steps

Every step of the system is a sequence of actions and quiet changes, at most one
return through `on_ws_message`, or one of two things looked at on their own: the
start of `stop()` and the handling of a message.
-/
namespace LynneSocial.Browser

/-- How a return or an exception leaves the frame of `on_ws_message`. -/
inductive Settles : State → State → Prop
  | stay (s : State) : Settles s s
  | erase (s : State) (id : ℤ) (rest : List Frame) (h : s.stack = .eraseIt id :: rest) :
      Settles s { s with pending := s.pending.erase id, stack := rest }
  | escape (s : State) (id : ℤ) (rest : List Frame) (h : s.stack = .eraseIt id :: rest) :
      Settles s { s with stack := rest, history := .escaped id :: s.history }

/-- An action, or a change beside the session. -/
def Part (ρ : Rules) (s t : State) : Prop := Act ρ s t ∨ Beside s t

abbrev Parts (ρ : Rules) : State → State → Prop := Relation.ReflTransGen (Part ρ)

theorem Parts.invariant {ρ : Rules} {I : State → Prop} (hact : ∀ s t, I s → Act ρ s t → I t)
    (hside : ∀ s t, I s → Beside s t → I t) {s t : State} (h : Parts ρ s t) (hs : I s) : I t := by
  induction h with
  | refl => exact hs
  | tail _ h ih => exact h.elim (hact _ _ ih) (hside _ _ ih)

theorem Acts.parts {ρ : Rules} {s t : State} (h : Acts ρ s t) : Parts ρ s t :=
  Relation.ReflTransGen.mono (fun _ _ => Or.inl) _ _ h

theorem Beside.parts {ρ : Rules} {s t : State} (h : Beside s t) : Parts ρ s t := .single (.inr h)

/-- An action or a quiet change. -/
def Move (ρ : Rules) (s t : State) : Prop := Act ρ s t ∨ Calm s t

abbrev Moves (ρ : Rules) : State → State → Prop := Relation.ReflTransGen (Move ρ)

theorem Moves.invariant {ρ : Rules} {I : State → Prop} (hact : ∀ s t, I s → Act ρ s t → I t)
    (hcalm : ∀ s t, I s → Calm s t → I t) {s t : State} (h : Moves ρ s t) (hs : I s) : I t := by
  induction h with
  | refl => exact hs
  | tail _ h ih => exact h.elim (hact _ _ ih) (hcalm _ _ ih)

theorem Acts.moves {ρ : Rules} {s t : State} (h : Acts ρ s t) : Moves ρ s t :=
  Relation.ReflTransGen.mono (fun _ _ => Or.inl) _ _ h

theorem Parts.moves {ρ : Rules} {s t : State} (h : Parts ρ s t) : Moves ρ s t :=
  Relation.ReflTransGen.mono (fun _ _ h => h.imp_right Beside.calm) _ _ h

theorem Calm.moves {ρ : Rules} {s t : State} (h : Calm s t) : Moves ρ s t := .single (.inr h)

def Label.isOperation : Label → Bool
  | .sendCommand _ _ _ | .close _ | .command _ _ | .act _ _ | .pressKey _ _ => true
  | .waitForSelector _ _ _ => true
  | _ => false

def Label.isClose : Label → Bool
  | .close _ => true
  | _ => false

def Label.isStop : Label → Bool
  | .stop => true
  | _ => false

def Label.isThrow : Label → Bool
  | .throw => true
  | _ => false

def Label.isRequest : Label → Bool
  | .getContext _ | .saveSession _ | .restoreSession _ _ => true
  | _ => false

/-- The commands a call of the application leads to can be written. -/
def Label.encodes : Label → Prop
  | .sendCommand method params sessionId =>
    validUtf8 method = true ∧ params.dumpable = true ∧ validUtf8 sessionId = true
  | .command _ op => validUtf8 op.method = true ∧ op.params.dumpable = true
  | .act _ js => validUtf8 js = true
  | .pressKey _ key => validUtf8 key = true
  | .waitForSelector _ selector _ => validUtf8 (State.existsScript selector) = true
  | _ => True

namespace State
variable {ρ : Rules} {s t : State}

theorem resume_settles (s : State) : Settles s s.resume := by
  unfold resume
  split
  · rename_i id rest h
    exact .erase s id rest h
  · exact .stay s

theorem unwind_settles (s : State) : Settles s s.unwind := by
  unfold unwind
  split
  · rename_i id rest h
    exact .escape s id rest h
  · exact .stay s

theorem finish_settles (r : State × Ctl) : Settles r.1 (finish r) := by
  unfold finish
  split
  · exact r.1.resume_settles
  · exact .stay r.1
  · exact r.1.unwind_settles

/-- The application calls an operation that issues a command. -/
def issues (s : State) : Label → Bool
  | .sendCommand _ _ _ | .command _ _ => true
  | .getContext platform => s.asks platform (.getContext s.calls)
  | .saveSession platform => s.asks platform (.saveSession platform s.calls)
  | .restoreSession platform content =>
    match content.bind (·.find? (str "cookies")) with
    | some cookies => s.asks platform (.restoreSession cookies s.calls)
    | none => false
  | .close c | .act c _ | .pressKey c _ => !s.closedOf c
  | _ => false

theorem step_request {l : Label} (hl : l.isRequest = true) (ht : s.step l = some t)
    (ha : ρ.answer (.request s.calls))
    (hs : s.issues l = true → ρ.Sends s.line (some (.request s.calls)) True)
    (hd : ∀ platform c, l = .getContext platform → s.hits platform (.getContext s.calls) c →
      ρ.deliver s.heap c) : Acts ρ s t := by
  cases l <;> simp only [Label.isRequest, Bool.false_eq_true] at hl
  case getContext platform =>
    simp only [step, Option.ite_none_right_eq_some, Option.some.injEq] at ht
    obtain ⟨-, rfl⟩ := ht
    exact enter_acts _ (.inl rfl) (doGetContext_acts ha hs (hd platform · rfl))
  case saveSession platform =>
    simp only [step, Option.ite_none_right_eq_some, Option.some.injEq] at ht
    obtain ⟨-, rfl⟩ := ht
    refine enter_acts _ (.inl rfl) (doGetContext_acts ha hs ?_)
    rintro c ⟨-, -, h⟩
    simp [Continuation.sends] at h
  case restoreSession platform content =>
    simp only [step, Option.ite_none_right_eq_some, Option.some.injEq] at ht
    obtain ⟨-, rfl⟩ := ht
    refine restoreSession_acts ha fun cookies hc h => hs ?_
    simp only [issues, hc]
    exact h

theorem step_operation {l : Label} (hl : l.isOperation = true) (ht : s.step l = some t)
    (ha : ρ.answer (.operation s.calls))
    (hs : s.issues l = true → ρ.Sends s.line (some (.operation s.calls)) l.encodes l.isClose)
    (hw : ∀ x : Waiter, (l.encodes → validUtf8 (existsScript x.selector) = true) → ρ.wait x) :
    Acts ρ s t := by
  cases l <;> simp only [Label.isOperation, Bool.false_eq_true] at hl <;>
    simp only [step, Option.ite_none_right_eq_some, Option.some.injEq] at ht <;>
    obtain ⟨hu, rfl⟩ := ht
  case sendCommand method params sessionId =>
    refine enter_acts _ (.inr rfl) (.single (.send _ _ _ _ _ trivial ?_))
    exact hs rfl _ _ rfl rfl (.inl rfl) (.inl rfl) fun h => ⟨Command.dumpable_of h.1 h.2.1 h.2.2, rfl⟩
  case close c => exact close_acts hu.2 ha fun h => hs (by simp [issues, h])
  case command c op =>
    refine enter_acts _ (.inr rfl) (.single (.send _ _ _ _ _ trivial ?_))
    exact hs rfl _ _ rfl rfl (.inl rfl) (.inl rfl) fun h =>
      ⟨Command.dumpable_of h.1 h.2 (s.sessionOf c).2, rfl⟩
  case act c js => exact act_acts ha fun h => hs (by simp [issues, h])
  case pressKey c key => exact pressKey_acts hu.2 ha fun h => hs (by simp [issues, h])
  case waitForSelector c selector timeoutMs =>
    refine waitForSelector_acts hu.2 ha fun x hx => hw x ?_
    rw [hx]
    exact id

/-- A change that leaves everything that matters to `Calm` alone. -/
theorem calm_of (h : (t.cmdId, t.pending, t.contexts, t.heap, t.calls, t.stack, t.history) =
    (s.cmdId, s.pending, s.contexts, s.heap, s.calls, s.stack, s.history)) : Calm s t := by
  simp only [Prod.mk.injEq] at h
  obtain ⟨hc, hp, hx, hh, hn, hst, hl⟩ := h
  exact ⟨hc, hp, hx, hh, hn, fun _ => hst ▸ .rfl, fun h => hst ▸ h, [], by simp, hl⟩

theorem reapChrome_calm (s : State) : Calm s s.reapChrome := by
  unfold reapChrome
  split <;> exact calm_of rfl

theorem start_calm (s : State) : Calm s s.start := by
  unfold start
  split
  · exact .refl s
  · refine s.reapChrome_calm.trans ⟨rfl, rfl, rfl, rfl, rfl, fun _ => .rfl, id, [.starting], ?_, rfl⟩
    simp [Event.silent]

theorem wsStart_calm (s : State) : Calm s s.wsStart := by
  unfold wsStart
  split
  · exact .refl s
  · exact ⟨rfl, rfl, rfl, rfl, rfl, fun _ => .rfl, id, [_], by simp [Event.silent], rfl⟩

theorem onDone_calm (s : State) (i : ℕ) (url : Bool) : Calm s (s.onDone i url) := by
  unfold onDone
  have h : Calm s { s with launches := s.launches.set i .delivered } := calm_of rfl
  dsimp only
  split
  · exact h.trans ((wsStart_calm _).trans (calm_of rfl))
  · exact h

theorem healthCheck_calm (s : State) : Calm s s.healthCheck.1 := by
  unfold healthCheck
  split
  · exact .refl s
  · split
    · exact .refl s
    · split
      · exact calm_of rfl
      · exact .refl s

/-- These commands have been handed to `sendText`. -/
def flushed (s : State) (cmds : List Command) : State :=
  { s with ws.sent := (cmds.map fun cmd => ⟨s.ws.conns, s.ws.phase == .open, cmd⟩).reverse ++ s.ws.sent }

/-- The loop hands over the commands before the first one whose `dump()` throws. -/
theorem flush_eq (s : State) (cmds : List Command) :
    s.flush cmds = (s.flushed (cmds.takeWhile Command.dumpable), cmds.all Command.dumpable) := by
  induction cmds generalizing s with
  | nil => rfl
  | cons cmd cmds ih =>
      unfold flush
      cases h : cmd.dumpable with
      | true =>
          rw [if_pos rfl, ih]
          simp [flushed, sendText, h]
      | false => simp [flushed, h]

end State

/-- The steps of other threads and processes, and what the application does to the session. -/
def Label.isQuiet : Label → Bool
  | .after _ | .removeEvent _ _ | .start | .healthCheck | .workDone _ | .opened | .received _ | .failed
  | .closed | .post | .fork _ | .launched _ _ | .exit _ | .tick => true
  | _ => false

namespace State
variable {ρ : Rules} {s t : State}

theorem step_quiet {l : Label} (hl : l.isQuiet = true) (ht : s.step l = some t) : Calm s t := by
  cases l <;> simp only [Label.isQuiet, Bool.false_eq_true] at hl <;> simp only [step] at ht
  case removeEvent =>
    split at ht <;> cases ht
    exact calm_of rfl
  case start =>
    split at ht <;> cases ht
    exact s.start_calm
  case healthCheck =>
    split at ht <;> cases ht
    exact s.healthCheck_calm
  case workDone i =>
    split at ht <;> cases ht <;> exact s.onDone_calm _ _
  case launched i url =>
    split at ht
    · split at ht <;> cases ht
      exact calm_of rfl
    · cases ht
      split <;> exact calm_of rfl
    · cases ht
  case post =>
    cases ht
    exact calm_of rfl
  case tick =>
    cases ht
    exact calm_of rfl
  all_goals
    split at ht <;> cases ht
    exact calm_of rfl

theorem sendCommand_calm (s : State) (method : Str) (params : Json) (r : PendingRequest)
    (sessionId : Str) : Calm (s.issue r) (s.sendCommand method params r sessionId).1 := by
  unfold sendCommand
  dsimp only
  split
  · split <;> exact calm_of rfl
  · exact calm_of rfl

/-- The Open event is logged and the queue handed over, as far as it can be. -/
def opening (s : State) (conn : ℕ) : State :=
  (({ s with wsReady := true } : State).log (.ready conn)).flushed
    (s.pendingCommands.takeWhile Command.dumpable)

theorem opening_calm (s : State) (conn : ℕ) : Calm s (s.opening conn) :=
  ⟨rfl, rfl, rfl, rfl, rfl, fun _ => .rfl, id, [.ready conn], by simp [Event.silent], rfl⟩

def emptied (s : State) : State := { s with pendingCommands := [] }

theorem onOpen_eq (s : State) (conn : ℕ) : s.onOpen conn =
    if s.pendingCommands.all Command.dumpable then
      ((s.opening conn).emptied.sendCommand (str "Page.enable") (.object []) .ignored []).1
    else s.opening conn := by
  have hd : (Command.mk s.cmdId (str "Page.enable") (.object []) []).dumpable = true :=
    Command.dumpable_of rfl rfl rfl
  unfold onOpen
  rw [flush_eq]
  cases h : s.pendingCommands.all Command.dumpable with
  | false => rfl
  | true =>
      dsimp only
      rw [if_pos rfl]
      unfold sendCommand
      dsimp only
      rw [if_pos (show ((s.opening conn).emptied.issue .ignored).wsReady = true from rfl)]
      exact (if_pos hd).symm ▸ rfl

theorem onOpen_cases (s : State) (conn : ℕ) :
    Calm s (s.onOpen conn) ∨ ∃ u, Calm s u ∧
      s.onOpen conn = (u.sendCommand (str "Page.enable") (.object []) .ignored []).1 := by
  rw [onOpen_eq]
  split
  · exact .inr ⟨(s.opening conn).emptied, (s.opening_calm conn).trans (calm_of rfl), rfl⟩
  · exact .inl (s.opening_calm conn)

theorem beside_of
    (h : (t.core, t.calls, t.stack, t.scheduler.postQueue, t.waiters, t.history) =
      (s.core, s.calls, s.stack, s.scheduler.postQueue, s.waiters, s.history)) : Beside s t := by
  simp only [Prod.mk.injEq] at h
  obtain ⟨hc, hn, hst, hq, hw, hl⟩ := h
  refine ⟨hc, hn, fun _ => hst ▸ .rfl, hst ▸ .rfl, fun h => hst ▸ h, ?_, fun w x h => ?_, [],
    by simp, hl⟩
  · rw [opens, opens, waiting, waiting, hst, hq]
  · rwa [Watching, hw] at h

theorem onCdpEvent_parts (s : State) (msg : Parsed) : Parts ρ s (s.onCdpEvent msg) := by
  unfold onCdpEvent
  split
  · dsimp only
    split
    · rename_i h _
      refine .head (.inr (?_ : Beside s { s with
        eventHandlers := s.eventHandlers.erase _, history := .fired _ h :: s.history }))
        (.single (.inl (.user _)))
      exact ⟨rfl, rfl, fun _ => .rfl, .rfl, id, rfl, fun _ _ => id, [_],
        by simp [Event.isNote], rfl⟩
    · exact .refl
  · exact .refl

/-- `on_ws_message` is about to call one of the two functions of an entry. -/
def calling (s : State) (id : ℤ) (r : PendingRequest) (reply : Reply) : State :=
  { s with stack := .eraseIt id :: s.stack, history := .invoked id r reply :: s.history }

end State

/-- What a response does to the cache before anything else. -/
inductive Touches : PendingRequest → Reply → State → State → Prop
  | plain (r : PendingRequest) (reply : Reply) (s : State) (h : r.plain reply = true) :
      Touches r reply s s
  | cache (platform : Str) (c : ℕ) (k : Continuation) (result : Parsed) (s : State) :
      Touches (.addScript platform c k) (.ok result) s
        ((s.resetContext platform c).log (.cached platform c k))
  | reject (platform : Str) (c : ℕ) (k : Continuation) (text : Str) (s : State) :
      Touches (.addScript platform c k) (.error text) s ((s.destroy c).log (.rejected c k))
  | remove (c call : ℕ) (result : Parsed) (s : State) :
      Touches (.closeTarget c call) (.ok result) s ((s.readContext c).removeContext (s.platformOf c))

namespace State
variable {ρ : Rules} {s t : State}

theorem resetContext_contexts (s : State) (platform : Str) (c : ℕ) :
    (s.resetContext platform c).contexts = s.contexts.insert platform c := by
  unfold resetContext
  split <;> rfl

theorem resetContext_heap (s : State) (platform : Str) (c : ℕ) :
    (s.resetContext platform c).heap = match s.contexts.lookup platform with
      | some old => s.heap.modify old fun x => { x with destroyed := true }
      | none => s.heap := by
  unfold resetContext
  cases s.contexts.lookup platform <;> rfl

theorem resetContext_line (s : State) (platform : Str) (c : ℕ) :
    (s.resetContext platform c).line = s.line := by
  unfold resetContext
  split <;> rfl

theorem invoke_cases (s : State) (r : PendingRequest) (reply : Reply)
    (ha : ∀ c, r.caller = some c → ρ.answer c) (hop : ∀ n, ρ.answer (.operation n))
    (hrd : ∀ c, s.Reads r c → ρ.read s.heap c)
    (hs : s.follows r reply = true →
      ρ.Sends s.line r.caller (s.followsText r) false r.opensLink)
    (hs' : ∀ (u : State) method params r' sessionId, u.line = s.line → s.follows r reply = true →
      ρ.Sends (u.sendCommand method params r' sessionId).1.line none True)
    (hd : ∀ platform c k result, r = .addScript platform c k → reply = .ok result →
      k.sends = false → ρ.deliver (s.resetContext platform c).heap c) :
    ∃ u, Touches r reply s u ∧ Acts ρ u (s.invoke r reply).1 := by
  by_cases hr : r.plain reply = true
  · exact ⟨s, .plain r reply s hr, invoke_acts hr ha hop hrd hs hs'⟩
  · cases r with
    | addScript platform c k =>
        cases reply with
        | ok result =>
            refine ⟨_, .cache platform c k result s, onOk_acts ?_ (ha _ rfl) ?_ ?_⟩
            · simp [log, resetContext_contexts]
            · intro h
              rw [line_log, resetContext_line]
              intro cmd r' hid hr' hcl hlk hc
              exact hs h cmd r' hid hr' hcl (.inl (hlk.resolve_right Bool.false_ne_true)) fun _ => hc trivial
            · exact hd platform c k result rfl rfl
        | error text => exact ⟨_, .reject platform c k text s, .refl⟩
    | closeTarget c call =>
        cases reply with
        | ok result => exact ⟨_, .remove c call result s, answers _ _ (hop _) (by simp)⟩
        | error text => simp [PendingRequest.plain] at hr
    | _ => simp [PendingRequest.plain] at hr

theorem onResponse_cases (s : State) (msg : Parsed) :
    (s.onResponse msg = s ∧
      ∀ id r, msg.id? = some id → s.pending.lookup id = some r → msg.reply = none) ∨
    ∃ id r reply, msg.id? = some id ∧ s.pending.lookup id = some r ∧ msg.reply = some reply ∧
      s.onResponse msg = finish ((s.calling id r reply).invoke r reply) := by
  unfold onResponse
  split
  · rename_i h
    exact .inl ⟨rfl, by simp [h]⟩
  · rename_i id hid
    split
    · rename_i r reply hr hreply
      exact .inr ⟨id, r, reply, hid, hr, hreply, rfl⟩
    · rename_i h
      refine .inl ⟨rfl, fun id' r hid' hr => ?_⟩
      obtain rfl : id = id' := Option.some.inj (hid.symm.trans hid')
      cases hreply : msg.reply with
      | none => rfl
      | some reply => exact (h r reply hr hreply).elim

theorem contains_of_id {msg : Parsed} {id : ℤ} (h : msg.id? = some id) :
    msg.json.contains (str "id") = true := by
  obtain ⟨x, hx, -⟩ := Option.bind_eq_some_iff.mp h
  simp [Json.contains, hx]

/-- The handling of a message, once it is logged: it calls back, or it does not. -/
theorem onWsMessage_cases (s : State) (msg : Parsed) :
    (Parts ρ (s.log (.handling msg)) (s.onWsMessage (some msg)) ∧
      ∀ id r, msg.id? = some id → s.pending.lookup id = some r → msg.reply = none) ∨
    ∃ id r reply, msg.id? = some id ∧ s.pending.lookup id = some r ∧ msg.reply = some reply ∧
      s.onWsMessage (some msg) =
        finish (((s.log (.handling msg)).calling id r reply).invoke r reply) := by
  unfold onWsMessage
  dsimp only
  split
  · rcases (s.log (.handling msg)).onResponse_cases msg with ⟨h, hn⟩ | h
    · refine .inl ⟨?_, hn⟩
      rw [h]
    · exact .inr h
  · rename_i hc
    exact .inl ⟨onCdpEvent_parts _ msg, fun id r hid => absurd (contains_of_id hid) hc⟩

theorem step_next (ht : s.step .next = some t) :
    (∃ rest, s.stack = .draining [] :: rest ∧ t = { s with stack := rest }) ∨
    ∃ task batch rest, s.stack = .draining (task :: batch) :: rest ∧
      t = ({ s with stack := .draining batch :: rest } : State).runTask task := by
  simp only [step] at ht
  split at ht
  · rename_i rest h
    cases ht
    exact .inl ⟨rest, h, rfl⟩
  · rename_i task batch rest h
    cases ht
    exact .inr ⟨task, batch, rest, h, rfl⟩
  · cases ht

/-- The message the loop is about to handle. -/
def incoming (s : State) : Label → Option Parsed
  | .next =>
    match s.stack with
    | .draining (.message _ data :: _) :: _ => data
    | _ => none
  | _ => none

theorem incoming_eq {conn : ℕ} {msg : Parsed} {batch : List Task} {rest : List Frame}
    (h : s.stack = .draining (.message conn (some msg) :: batch) :: rest) :
    s.incoming .next = some msg := by
  simp [incoming, h]

/-- Frames come and go without a return through `on_ws_message`. -/
theorem restack_beside {st : List Frame} (he : ∀ id, .eraseIt id ∈ st ↔ .eraseIt id ∈ s.stack)
    (hstop : .stopping ∈ st ↔ .stopping ∈ s.stack) (hsh : Shape s.stack → Shape st)
    (ho : (st.flatMap Frame.batch).filter Task.isOpen =
      (s.stack.flatMap Frame.batch).filter Task.isOpen) : Beside s { s with stack := st } :=
  ⟨rfl, rfl, he, hstop, hsh, by simp only [opens, waiting, List.filter_append, ho], fun _ _ => id, [],
    by simp, rfl⟩

/-- A task is posted that is not the one of an Open event. -/
theorem post_beside {task : Task} (h : task.isOpen = false) : Beside s (s.post task) := by
  refine ⟨rfl, rfl, fun _ => .rfl, .rfl, id, ?_, fun _ _ => id, [], by simp, rfl⟩
  simp [opens, waiting, post, UvScheduler.post, List.filter_append, h]

/-- The steps that change the session; they are looked at one by one. -/
def ofSession (s : State) : Label → Bool
  | .start | .stop | .workDone _ | .stopReturn | .opened | .failed | .closed => true
  | .fork _ | .launched _ _ | .exit _ => true
  | .next =>
    match s.stack with
    | .draining (.open _ :: _) :: _ => true
    | _ => false
  | _ => false

/-- The other steps, one by one. -/
inductive Does (s : State) : Label → State → Prop
  | sendCommand (method : Str) (params : Json) (sessionId : Str) : Does s (.sendCommand method params sessionId)
      ((s.enter .operation).sendCommand method params (.command s.calls) sessionId).1
  | getContext (platform : Str) : Does s (.getContext platform) (s.getContext platform).1
  | saveSession (platform : Str) : Does s (.saveSession platform) (s.saveSession platform).1
  | restoreSession (platform : Str) (content : Option Parsed) :
      Does s (.restoreSession platform content) (s.restoreSession platform content).1
  | close (c : ℕ) (hu : s.usable c = true) : Does s (.close c) (s.close c).1
  | command (c : ℕ) (op : ContextCommand) (hu : s.usable c = true) : Does s (.command c op) (s.command c op).1
  | act (c : ℕ) (js : Str) (hu : s.usable c = true) : Does s (.act c js) (s.act c js).1
  | pressKey (c : ℕ) (key : Str) (hu : s.usable c = true) : Does s (.pressKey c key) (s.pressKey c key).1
  | waitForSelector (c : ℕ) (selector : Str) (timeoutMs : ℕ) (hu : s.usable c = true) :
      Does s (.waitForSelector c selector timeoutMs) (s.waitForSelector c selector timeoutMs).1
  | after (c : ℕ) (hu : s.usable c = true) : Does s (.after c) (s.after c)
  | onEvent (sessionId method : Str) : Does s (.onEvent sessionId method)
      { s.enter .operation with
        eventHandlers := s.eventHandlers.insert (sessionId ++ str ":" ++ method) s.calls }
  | removeEvent (sessionId method : Str) : Does s (.removeEvent sessionId method)
      { s with eventHandlers := s.eventHandlers.erase (sessionId ++ str ":" ++ method) }
  | healthCheck : Does s .healthCheck s.healthCheck.1
  | ret (rest : List Frame) (h : s.stack = .user :: rest) : Does s .ret ({ s with stack := rest } : State).resume
  | throw (rest : List Frame) (h : s.stack = .user :: rest) : Does s .throw ({ s with stack := rest } : State).unwind
  | wake (h : s.stack = []) : Does s .wake
      { s with scheduler := { s.scheduler with asyncPending := false }, stack := [.awoken] }
  | swap (rest : List Frame) (h : s.stack = .awoken :: rest) : Does s .swap
      { s with
        scheduler := { s.scheduler with postQueue := [] }
        stack := .draining s.scheduler.postQueue :: rest }
  | drained (rest : List Frame) (h : s.stack = .draining [] :: rest) : Does s .next { s with stack := rest }
  | message (conn : ℕ) (data : Option Parsed) (batch : List Task)
      (h : s.stack = [.draining (.message conn data :: batch)]) :
      Does s .next (({ s with stack := [.draining batch] } : State).onWsMessage data)
  | check (w : ℕ) (batch : List Task) (h : s.stack = [.draining (.check w :: batch)]) :
      Does s .next (({ s with stack := [.draining batch] } : State).check w).1
  | userTask (batch : List Task) (h : s.stack = [.draining (.user :: batch)]) :
      Does s .next { s with stack := .user :: [.draining batch] }
  | fire (i c : ℕ) (h : s.stack = []) (hc : s.afters[i]? = some c) : Does s (.fire i) (s.fire i c)
  | received (data : Option Parsed) (h : s.ws.phase = .open) :
      Does s (.received data) (s.post (.message s.ws.conns data))
  | post : Does s .post (s.post .user)
  | tick : Does s .tick { s with now := s.now + 1 }

theorem step_does {l : Label} (ht : s.step l = some t) (hsh : Shape s.stack) (hl : s.ofSession l = false) :
    s.Does l t := by
  cases l <;> simp only [ofSession, Bool.true_eq_false] at hl <;> simp only [step] at ht
  case ret =>
    split at ht <;> cases ht
    exact .ret _ ‹_›
  case throw =>
    split at ht <;> cases ht
    exact .throw _ ‹_›
  case wake =>
    split at ht
    · split at ht <;> cases ht
      exact .wake ‹_›
    · cases ht
  case swap =>
    split at ht <;> cases ht
    exact .swap _ ‹_›
  case fire i =>
    split at ht <;> cases ht
    exact .fire i _ ‹_› ‹_›
  case received data =>
    split at ht <;> cases ht
    exact .received data ‹_›
  case next =>
    rcases step_next (s := s) (by simpa only [step] using ht) with
      ⟨rest, h, rfl⟩ | ⟨task, batch, rest, h, rfl⟩
    · exact .drained rest h
    · obtain rfl : rest = [] := by rwa [h] at hsh
      cases task with
      | «open» conn => simp [h] at hl
      | message conn data => exact .message conn data batch h
      | check w => exact .check w batch h
      | user => exact .userTask batch h
  case post =>
    cases ht
    exact .post
  case tick =>
    cases ht
    exact .tick
  all_goals
    split at ht <;> cases ht
    constructor <;> exact And.right ‹_›

/-- On whose behalf the application issues a command. -/
def callerOf (s : State) (l : Label) : Call :=
  if l.isRequest then .request s.calls else .operation s.calls

theorem pop_beside {task : Task} {batch : List Task} (h : s.stack = [.draining (task :: batch)])
    (hopen : task.isOpen = false) : Beside s { s with stack := [.draining batch] } :=
  restack_beside (by simp [h]) (by simp [h]) (by simp [Shape]) (by simp [h, Frame.batch, hopen])

/-- A step that does not change the session consists of actions and changes beside it, returns
to whatever called the application, or handles a message. -/
theorem step_parts {l : Label} (ht : s.step l = some t) (hsh : Shape s.stack)
    (hl : s.ofSession l = false) (hreq : l.isRequest = true → ρ.answer (.request s.calls))
    (hop : ∀ n, ρ.answer (.operation n))
    (hs : s.issues l = true → ρ.Sends s.line (some (s.callerOf l)) l.encodes l.isClose)
    (hd : ∀ platform c, l = .getContext platform → s.hits platform (.getContext s.calls) c →
      ρ.deliver s.heap c)
    (hpoll : ∀ w batch, l = .next → s.stack = [.draining (.check w :: batch)] →
      (∀ x, s.Watching w x → ρ.read s.heap x.ctx) ∧
        (s.polls w = true → ρ.Sends ({ s with stack := [.draining batch] } : State).line none
          (s.pollsText w)))
    (hw : ∀ x : Waiter, (l.encodes → validUtf8 (existsScript x.selector) = true) → ρ.wait x) :
    Parts ρ s t ∨
    (l = .ret ∧ ∃ rest, s.stack = .user :: rest ∧ t = ({ s with stack := rest } : State).resume) ∨
    (l = .throw ∧ ∃ rest, s.stack = .user :: rest ∧ t = ({ s with stack := rest } : State).unwind) ∨
    l = .next ∧ ∃ conn msg batch, s.stack = [.draining (.message conn (some msg) :: batch)] ∧
      t = ({ s with stack := [.draining batch] } : State).onWsMessage (some msg) := by
  by_cases hr : l.isRequest = true
  · have he : l.isClose = false := by cases l <;> simp_all [Label.isRequest, Label.isClose]
    refine .inl (step_request hr ht (hreq hr) (fun h => ?_) hd).parts
    have hsend := hs h
    simp only [callerOf, hr, if_true] at hsend
    intro cmd r hid hc hcl hlk hdump
    exact hsend cmd r hid hc (.inl (hcl.resolve_right Bool.false_ne_true)) hlk fun _ => hdump trivial
  by_cases ho : l.isOperation = true
  · refine .inl (step_operation ho ht (hop _) (fun h => ?_) hw).parts
    have hsend := hs h
    simpa only [callerOf, hr, Bool.false_eq_true, if_false] using hsend
  cases step_does ht hsh hl with
  | after c hu => exact .inl (Beside.parts (beside_of rfl))
  | onEvent sessionId method =>
      exact .inl (.head (.inl (.enter s .operation (.inr rfl))) (Beside.parts (beside_of rfl)))
  | removeEvent sessionId method => exact .inl (Beside.parts (beside_of rfl))
  | healthCheck =>
      refine .inl (Beside.parts ?_)
      unfold healthCheck
      split
      · exact beside_of rfl
      · split
        · exact beside_of rfl
        · split <;> exact beside_of rfl
  | ret rest h => exact .inr (.inl ⟨rfl, rest, h, rfl⟩)
  | throw rest h => exact .inr (.inr (.inl ⟨rfl, rest, h, rfl⟩))
  | wake h =>
      refine .inl (Beside.parts ?_)
      exact ⟨rfl, rfl, by simp [h], by simp [h], by simp [Shape], by simp [opens, waiting, h, Frame.batch],
        fun _ _ => id, [], by simp, rfl⟩
  | swap rest h =>
      refine .inl (Beside.parts ?_)
      exact ⟨rfl, rfl, by simp [h], by simp [h], by simp [h, Shape], by simp [opens, waiting, h, Frame.batch],
        fun _ _ => id, [], by simp, rfl⟩
  | fire i c h hc =>
      have hafter : Beside s { s with afters := s.afters.eraseIdx i } := beside_of rfl
      unfold fire
      dsimp only
      split
      · exact .inl (.tail hafter.parts (.inl (.user _)))
      · exact .inl hafter.parts
  | received data h => exact .inl (post_beside rfl).parts
  | post => exact .inl (post_beside rfl).parts
  | tick => exact .inl (Beside.parts (beside_of rfl))
  | drained rest h =>
      refine .inl (restack_beside (by simp [h]) (by simp [h]) ?_ (by simp [h, Frame.batch])).parts
      rw [h]
      rintro rfl
      trivial
  | message conn data batch h =>
      cases data with
      | none => exact .inl (pop_beside h rfl).parts
      | some msg => exact .inr (.inr (.inr ⟨rfl, conn, msg, batch, h, rfl⟩))
  | check w batch h =>
      obtain ⟨hread, hsend⟩ := hpoll w batch rfl h
      exact .inl (.trans (pop_beside h rfl).parts (Acts.parts (check_acts hop hread hsend)))
  | userTask batch h => exact .inl (.tail (pop_beside h rfl).parts (.inl (.user _)))
  | _ => simp [Label.isRequest, Label.isOperation] at hr ho

/-- The children after `kill` and `waitpid` on the recorded one. -/
def reapedChildren (s : State) : List Child :=
  match s.chromePid with
  | some pid => s.children.set pid .reaped
  | none => s.children

theorem reapChrome_eq (s : State) :
    s.reapChrome = { s with children := s.reapedChildren, chromePid := none } := by
  unfold reapChrome reapedChildren
  cases h : s.chromePid with
  | some pid => rfl
  | none =>
      have hsame : s = { s with chromePid := none } := by rw [← h]
      exact hsame

theorem clearContexts_eq (s : State) :
    s.clearContexts = { s with heap := s.clearContexts.heap, contexts := ∅ } := by
  have h : ∀ (es : List (Sigma fun _ : Str => ℕ)) (u : State),
      es.foldl (fun u e => u.destroy e.2) u =
        { u with heap := (es.foldl (fun u e => u.destroy e.2) u).heap } := by
    intro es
    induction es with
    | nil => exact fun _ => rfl
    | cons e es ih =>
        intro u
        simp only [List.foldl_cons]
        rw [ih]
        rfl
  unfold clearContexts
  rw [h]

/-- The steps of the session, one by one. -/
inductive Turns (s : State) : Label → State → Prop
  | startAgain (h : s.started = true) : Turns s .start s
  | start (h : s.started = false) : Turns s .start
      { s with
        children := s.reapedChildren
        chromePid := none
        wsReady := false
        pendingCommands := []
        chromeCrashed := false
        scheduler := s.scheduler.start
        launches := s.launches ++ [.queued]
        history := .starting :: s.history }
  | stop (h : s.started = true) : Turns s .stop
      { s with
        contexts := ∅
        heap := s.clearContexts.heap
        ws := { s.ws with phase := .closed, joinable := false }
        children := s.reapedChildren
        chromePid := none
        scheduler := s.scheduler.stop
        afters := []
        stack := .stopping :: s.stack }
  | stopIdle (h : s.started = false) : Turns s .stop (s.log .stopped)
  | stopReturn (rest : List Frame) (h : s.stack = .stopping :: rest) : Turns s .stopReturn
      { s with
        started := false
        chromeCrashed := false
        stack := rest
        history := .stopped :: s.history }
  | notLaunched (i : ℕ) (h : s.launches[i]? = some (.launched false)) : Turns s (.workDone i)
      { s with launches := s.launches.set i .delivered }
  | startDone (i : ℕ) (h : s.launches[i]? = some (.launched true)) (hj : s.ws.joinable = true) :
      Turns s (.workDone i) { s with launches := s.launches.set i .delivered, started := true }
  | connect (i : ℕ) (h : s.launches[i]? = some (.launched true)) (hj : s.ws.joinable = false) :
      Turns s (.workDone i)
        { s with
          launches := s.launches.set i .delivered
          started := true
          ws := { s.ws with conns := s.ws.conns + 1, phase := .connecting, joinable := true }
          history := .connected (s.ws.conns + 1) :: s.history }
  | opened (h : s.ws.phase = .connecting) : Turns s .opened
      (({ s with ws := { s.ws with phase := .open } } : State).post (.open s.ws.conns))
  | failed (h : s.ws.phase = .connecting) : Turns s .failed
      { s with ws := { s.ws with phase := .closed }, chromeCrashed := true }
  | closed (h : s.ws.phase = .open) : Turns s .closed { s with ws := { s.ws with phase := .closed } }
  | fork (i : ℕ) (h : s.launches[i]? = some .queued) : Turns s (.fork i)
      { s with
        launches := s.launches.set i (.forked s.children.length)
        children := s.children ++ [.running]
        chromePid := some s.children.length }
  | notForked (i : ℕ) (h : s.launches[i]? = some .queued) : Turns s (.launched i false)
      { s with launches := s.launches.set i (.launched false) }
  | launched (i pid : ℕ) (h : s.launches[i]? = some (.forked pid)) : Turns s (.launched i true)
      { s with launches := s.launches.set i (.launched true) }
  | launchFailed (i pid : ℕ) (h : s.launches[i]? = some (.forked pid)) : Turns s (.launched i false)
      { s with
        launches := s.launches.set i (.launched false)
        children := s.children.set pid .reaped
        chromePid := none }
  | exit (pid : ℕ) (h : s.children[pid]? = some .running) : Turns s (.exit pid)
      { s with children := s.children.set pid .exited }
  | openTask (conn : ℕ) (batch : List Task) (h : s.stack = [.draining (.open conn :: batch)]) :
      Turns s .next (({ s with stack := [.draining batch] } : State).onOpen conn)

theorem step_session {l : Label} (ht : s.step l = some t) (hsh : Shape s.stack)
    (hl : s.ofSession l = true) : s.Turns l t := by
  cases l <;> simp only [ofSession, Bool.false_eq_true] at hl <;> simp only [step] at ht
  case start =>
    split at ht <;> cases ht
    unfold start
    split
    · exact .startAgain ‹_›
    · rename_i h
      rw [reapChrome_eq]
      exact .start (by simpa using h)
  case stop =>
    split at ht <;> cases ht
    unfold stop
    split
    · rw [reapChrome_eq, clearContexts_eq]
      exact .stop ‹_›
    · rename_i h
      exact .stopIdle (by simpa using h)
  case stopReturn =>
    split at ht <;> cases ht
    exact .stopReturn _ ‹_›
  case workDone i =>
    have hdone : ∀ url, s.launches[i]? = some (.launched url) → s.Turns (.workDone i) (s.onDone i url) := by
      intro url h
      unfold onDone wsStart
      cases url with
      | false => exact .notLaunched i h
      | true =>
          cases hj : s.ws.joinable with
          | true =>
              simp only [if_true]
              rw [if_pos hj]
              exact .startDone i h hj
          | false =>
              simp only [if_true]
              rw [if_neg (by simp [hj])]
              exact .connect i h hj
    split at ht <;> cases ht <;> exact hdone _ ‹_›
  case opened =>
    split at ht <;> cases ht
    exact .opened ‹_›
  case failed =>
    split at ht <;> cases ht
    exact .failed ‹_›
  case closed =>
    split at ht <;> cases ht
    exact .closed ‹_›
  case fork i =>
    split at ht <;> cases ht
    exact .fork i ‹_›
  case launched i url =>
    split at ht
    · split at ht <;> cases ht
      rename_i h hu
      obtain rfl : url = false := by simpa using hu
      exact .notForked i h
    · rename_i pid h
      cases ht
      cases url with
      | true => exact .launched i pid h
      | false => exact .launchFailed i pid h
    · cases ht
  case exit pid =>
    split at ht <;> cases ht
    exact .exit pid ‹_›
  case next =>
    rcases step_next (s := s) (by simpa only [step] using ht) with
      ⟨rest, h, rfl⟩ | ⟨task, batch, rest, h, rfl⟩
    · simp [h] at hl
    · obtain rfl : rest = [] := by rwa [h] at hsh
      cases task with
      | «open» conn => exact .openTask conn batch h
      | _ => simp [h] at hl

/-- A step of the session is quiet, or begins `stop()`, or sends `Page.enable`. -/
theorem step_session_cases {l : Label} (ht : s.step l = some t) (hsh : Shape s.stack)
    (hl : s.ofSession l = true) :
    Calm s t ∨ (l = .stop ∧ s.started = true ∧ Calm s.clearContexts t) ∨
    ∃ u, Calm s u ∧ t = (u.sendCommand (str "Page.enable") (.object []) .ignored []).1 := by
  by_cases hq : l.isQuiet = true
  · exact .inl (step_quiet hq ht)
  cases step_session ht hsh hl with
  | stop h =>
      refine .inr (.inl ⟨rfl, h, ?_⟩)
      rw [clearContexts_eq]
      exact ⟨rfl, rfl, rfl, rfl, rfl, by simp, id, [], by simp, rfl⟩
  | stopIdle h =>
      exact .inl ⟨rfl, rfl, rfl, rfl, rfl, fun _ => .rfl, id, [_], by simp [Event.silent], rfl⟩
  | stopReturn rest h =>
      exact .inl ⟨rfl, rfl, rfl, rfl, rfl, by simp [h], by simp [h, Shape], [_],
        by simp [Event.silent], rfl⟩
  | openTask conn batch h =>
      have hc : Calm s { s with stack := [.draining batch] } :=
        ⟨rfl, rfl, rfl, rfl, rfl, by simp [h], by simp [Shape], [], by simp, rfl⟩
      rcases onOpen_cases { s with stack := [.draining batch] } conn with ho | ⟨u, hu, ho⟩
      · exact .inl (hc.trans ho)
      · exact .inr (.inr ⟨u, hc.trans hu, ho⟩)
  | _ => exact absurd rfl hq

/-- A step either consists of actions, quiet changes and a return, or begins `stop()`, or
handles a message. -/
theorem step_cases {l : Label} (ht : s.step l = some t) (hsh : Shape s.stack)
    (hreq : l.isRequest = true → ρ.answer (.request s.calls)) (hop : ∀ n, ρ.answer (.operation n))
    (hs : ∀ (u : State) cmd r, u.cmdId = s.cmdId → u.pending = s.pending → cmd.id = s.cmdId →
      r.isClose = false ∨ l.isClose = true → ρ.send u.line cmd r)
    (hd : ∀ platform c, l = .getContext platform → s.hits platform (.getContext s.calls) c →
      ρ.deliver s.heap c) (hrd : ∀ heap c, ρ.read heap c)
    (hw : ∀ x : Waiter, (l.encodes → validUtf8 (existsScript x.selector) = true) → ρ.wait x) :
    (∃ u, Moves ρ s u ∧ Settles u t) ∨
    (l = .stop ∧ s.started = true ∧ Calm s.clearContexts t) ∨
    l = .next ∧ ∃ conn msg batch, s.stack = [.draining (.message conn (some msg) :: batch)] ∧
      t = ({ s with stack := [.draining batch] } : State).onWsMessage (some msg) := by
  cases hl : s.ofSession l with
  | false =>
      have hpop : ∀ rest, s.stack = .user :: rest → Calm s { s with stack := rest } := fun rest h =>
        ⟨rfl, rfl, rfl, rfl, rfl, by simp [h], by simp [h, Shape], [], by simp, rfl⟩
      rcases step_parts ht hsh hl hreq hop (fun _ cmd r hid _ hcl _ _ => hs s cmd r rfl rfl hid hcl) hd
        (fun w batch _ _ => ⟨fun _ _ => hrd _ _, fun _ cmd r hid _ hcl _ _ =>
          hs _ cmd r rfl rfl hid (hcl.imp_right fun h => absurd h Bool.false_ne_true)⟩) hw with
        h | ⟨-, rest, h, rfl⟩ | ⟨-, rest, h, rfl⟩ | h
      · exact .inl ⟨t, h.moves, .stay t⟩
      · exact .inl ⟨_, (hpop rest h).moves, resume_settles _⟩
      · exact .inl ⟨_, (hpop rest h).moves, unwind_settles _⟩
      · exact .inr (.inr h)
  | true =>
      rcases step_session_cases ht hsh hl with hc | h | ⟨u, hu, rfl⟩
      · exact .inl ⟨t, hc.moves, .stay t⟩
      · exact .inr (.inl h)
      · refine .inl ⟨_, .tail hu.moves (.inl (.send u _ _ .ignored _ trivial ?_)), .stay _⟩
        exact hs u _ _ hu.cmdId hu.pending hu.cmdId (.inl rfl)

theorem sendCommand_stack (s : State) (method : Str) (params : Json) (r : PendingRequest)
    (sessionId : Str) : (s.sendCommand method params r sessionId).1.stack = s.stack := by
  unfold sendCommand
  dsimp only
  split
  · split <;> rfl
  · rfl

end State

variable {ρ : Rules} {s t : State}

theorem Act.shape (h : Act ρ s t) (hs : Shape s.stack) : Shape t.stack := by
  cases h with
  | send => rwa [State.sendCommand_stack]
  | create => rwa [State.sendCommand_stack]
  | aside _ h => exact h.shape hs
  | read c => exact (s.readContext_calm c).shape hs
  | _ => exact hs

theorem Moves.shape (h : Moves ρ s t) (hs : Shape s.stack) : Shape t.stack :=
  Moves.invariant (I := fun s => Shape s.stack) (fun _ _ hs h => h.shape hs)
    (fun _ _ hs h => h.shape hs) h hs

theorem Settles.shape (h : Settles s t) (hs : Shape s.stack) : Shape t.stack := by
  cases h with
  | stay => exact hs
  | erase id rest h =>
      rw [h] at hs
      obtain ⟨batch, rfl⟩ := hs
      rfl
  | escape id rest h =>
      rw [h] at hs
      obtain ⟨batch, rfl⟩ := hs
      rfl

/-- Events about the cache and its contexts. -/
def Event.ofCache : Event → Prop
  | .cached _ _ _ | .rejected _ _ | .dangling _ => True
  | _ => False

/-- Only the cache and the contexts change. -/
structure Keeps (s t : State) : Prop where
  line : t.line = s.line
  started : t.started = s.started
  chromePid : t.chromePid = s.chromePid
  children : t.children = s.children
  waiters : t.waiters = s.waiters
  pendingCommands : t.pendingCommands = s.pendingCommands
  calls : t.calls = s.calls
  history : ∃ es, (∀ e ∈ es, Event.ofCache e) ∧ t.history = es ++ s.history

theorem Keeps.refl (s : State) : Keeps s s :=
  ⟨rfl, rfl, rfl, rfl, rfl, rfl, rfl, [], by simp, rfl⟩

theorem Keeps.trans {u : State} (h : Keeps s t) (k : Keeps t u) : Keeps s u := by
  obtain ⟨es, hes, hh⟩ := h.history
  obtain ⟨fs, hfs, hk⟩ := k.history
  refine ⟨k.line.trans h.line, k.started.trans h.started, k.chromePid.trans h.chromePid,
    k.children.trans h.children, k.waiters.trans h.waiters,
    k.pendingCommands.trans h.pendingCommands, k.calls.trans h.calls, fs ++ es, ?_, ?_⟩
  · intro e he
    exact (List.mem_append.mp he).elim (hfs e) (hes e)
  · rw [hk, hh, List.append_assoc]

theorem Keeps.stack (h : Keeps s t) : t.stack = s.stack := congrArg Line.stack h.line
theorem Keeps.cmdId (h : Keeps s t) : t.cmdId = s.cmdId := congrArg Line.cmdId h.line
theorem Keeps.pending (h : Keeps s t) : t.pending = s.pending := congrArg Line.pending h.line

theorem keeps_log {e : Event} (he : e.ofCache) (s : State) : Keeps s (s.log e) :=
  ⟨rfl, rfl, rfl, rfl, rfl, rfl, rfl, [e], by simpa using he, rfl⟩

theorem readContext_keeps (s : State) (c : ℕ) : Keeps s (s.readContext c) := by
  unfold State.readContext
  split
  · split
    · exact keeps_log (by simp [Event.ofCache]) s
    · exact .refl s
  · exact .refl s

theorem resetContext_keeps (s : State) (platform : Str) (c : ℕ) :
    Keeps s (s.resetContext platform c) := by
  unfold State.resetContext
  split <;> exact ⟨rfl, rfl, rfl, rfl, rfl, rfl, rfl, [], by simp, rfl⟩

theorem removeContext_keeps (s : State) (platform : Str) : Keeps s (s.removeContext platform) := by
  unfold State.removeContext
  split <;> exact ⟨rfl, rfl, rfl, rfl, rfl, rfl, rfl, [], by simp, rfl⟩

theorem Touches.keeps {r : PendingRequest} {reply : Reply} (h : Touches r reply s t) :
    Keeps s t := by
  cases h with
  | plain => exact .refl s
  | cache platform c k result =>
      exact (resetContext_keeps s platform c).trans (keeps_log (by simp [Event.ofCache]) _)
  | reject platform c k text => exact ⟨rfl, rfl, rfl, rfl, rfl, rfl, rfl, [_], by simp [Event.ofCache], rfl⟩
  | remove c call result => exact (readContext_keeps s c).trans (removeContext_keeps _ _)

theorem clearContexts_keeps (s : State) : Keeps s s.clearContexts := by
  have h : ∀ (es : List (Sigma fun _ : Str => ℕ)) (u : State),
      Keeps u (es.foldl (fun u e => u.destroy e.2) u) := by
    intro es
    induction es with
    | nil => exact .refl
    | cons e es ih =>
        intro u
        have hd : Keeps u (u.destroy e.2) :=
          ⟨rfl, rfl, rfl, rfl, rfl, rfl, rfl, [], by simp, rfl⟩
        exact hd.trans (ih _)
  have hc : Keeps (s.contexts.entries.foldl (fun u e => u.destroy e.2) s) s.clearContexts :=
    ⟨rfl, rfl, rfl, rfl, rfl, rfl, rfl, [], by simp, rfl⟩
  exact (h _ s).trans hc

/-- The rules that forbid nothing but some deliveries and closing. -/
structure Rules.Free (ρ : Rules) : Prop where
  send : ∀ l cmd r, r.isClose = false → ρ.send l cmd r
  answer : ∀ c, ρ.answer c

/-- An action only adds frames of the application. -/
theorem Act.frame {f : Frame} (h : Act ρ s t) (hf : f ≠ .user) : f ∈ t.stack ↔ f ∈ s.stack := by
  cases h with
  | send => rw [State.sendCommand_stack]
  | create => rw [State.sendCommand_stack]
  | read c => rw [(readContext_keeps s c).stack]
  | aside _ h => rw [h.stack]
  | answer => simp [State.answer, hf]
  | deliver => simp [Continuation.onOk, State.answer, State.modifyContext, State.log, hf]
  | user => simp [hf]
  | _ => exact .rfl

theorem Parts.stopping (h : Parts ρ s t) : .stopping ∈ t.stack ↔ .stopping ∈ s.stack :=
  Parts.invariant (I := fun u => .stopping ∈ u.stack ↔ .stopping ∈ s.stack)
    (fun _ _ hs h => (h.frame (by simp)).trans hs) (fun _ _ hs h => h.stopping.trans hs) h .rfl

theorem Moves.erasing (h : Moves ρ s t) (id : ℤ) : .eraseIt id ∈ t.stack ↔ .eraseIt id ∈ s.stack :=
  Moves.invariant (I := fun u => .eraseIt id ∈ u.stack ↔ .eraseIt id ∈ s.stack)
    (fun _ _ hs h => (h.frame (by simp)).trans hs) (fun _ _ hs h => (h.erasing id).trans hs) h .rfl

theorem Parts.erasing (h : Parts ρ s t) (id : ℤ) : .eraseIt id ∈ t.stack ↔ .eraseIt id ∈ s.stack :=
  h.moves.erasing id

namespace State

/-- The handling of a message: it is logged; a callback may be called, whose effect on the
cache comes first and whose end settles the entry. -/
theorem message_cases (hρ : ρ.Free) (s : State) (msg : Parsed)
    (hrd : ∀ id r c, msg.id? = some id → s.pending.lookup id = some r → s.Reads r c →
      ρ.read s.heap c)
    (hd : ∀ id platform c k, msg.id? = some id →
      s.pending.lookup id = some (.addScript platform c k) → k.sends = false →
        ρ.deliver (s.resetContext platform c).heap c) :
    (Parts ρ (s.log (.handling msg)) (s.onWsMessage (some msg)) ∧
      ∀ id r, msg.id? = some id → s.pending.lookup id = some r → msg.reply = none) ∨
    ∃ id r reply u v, msg.id? = some id ∧ s.pending.lookup id = some r ∧ msg.reply = some reply ∧
      Touches r reply ((s.log (.handling msg)).calling id r reply) u ∧ Acts ρ u v ∧
      Settles v (s.onWsMessage (some msg)) := by
  refine (s.onWsMessage_cases msg).imp_right ?_
  rintro ⟨id, r, reply, hid, hr, hreply, heq⟩
  have hfree : ∀ l c D linking, ρ.Sends l c D false linking := fun l c D _ cmd r _ _ hcl _ _ =>
    hρ.send l cmd r (hcl.resolve_right Bool.false_ne_true)
  obtain ⟨u, hu, hv⟩ := ((s.log (.handling msg)).calling id r reply).invoke_cases (ρ := ρ) r reply
    (fun c _ => hρ.answer c) (fun n => hρ.answer _) (fun c hc => hrd id r c hid hr hc) (fun _ => hfree _ _ _ _)
    (fun _ _ _ _ _ _ _ => hfree _ _ _ _) fun platform c k result hk _ hsends => by
      subst hk
      have h := hd id platform c k hid hr hsends
      rw [resetContext_heap] at h ⊢
      exact h
  refine ⟨id, r, reply, u, _, hid, hr, hreply, hu, hv, ?_⟩
  rw [heq]
  exact finish_settles _

/-- The context of a failed last command is deleted, and the entry is gone with it. -/
theorem onWsMessage_reject {msg : Parsed} {id : ℤ} {platform : Str} {c : ℕ} {k : Continuation}
    {text : Str} (hid : msg.id? = some id)
    (hr : s.pending.lookup id = some (.addScript platform c k))
    (hreply : msg.reply = some (.error text)) :
    s.onWsMessage (some msg) = { (s.destroy c) with
      pending := s.pending.erase id
      history := .rejected c k :: .invoked id (.addScript platform c k) (.error text) ::
        .handling msg :: s.history } := by
  have hl : (s.log (.handling msg)).pending.lookup id = some (.addScript platform c k) := hr
  unfold onWsMessage onResponse
  simp only [contains_of_id hid, hid, hl, hreply]
  rfl

theorem step_shape {l : Label} (hs : Shape s.stack) (ht : s.step l = some t) : Shape t.stack := by
  rcases step_cases (ρ := {}) ht hs (fun _ => trivial) (fun _ => trivial)
    (fun _ _ _ _ _ _ _ => trivial) (fun _ _ _ _ => trivial) (fun _ _ => trivial) (fun _ _ => trivial) with
    ⟨u, hu, hut⟩ | ⟨-, -, hc⟩ | ⟨-, conn, msg, batch, hst, rfl⟩
  · exact hut.shape (hu.shape hs)
  · exact hc.shape (by rwa [(clearContexts_keeps s).stack])
  · rcases message_cases (ρ := {}) ⟨fun _ _ _ _ => trivial, fun _ => trivial⟩
      { s with stack := [.draining batch] } msg (fun _ _ _ _ _ _ => trivial) (fun _ _ _ _ _ _ _ => trivial) with
      ⟨h, -⟩ | ⟨id, r, reply, u, v, -, -, -, hu, hv, hvt⟩
    · exact h.moves.shape (by trivial)
    · refine hvt.shape (hv.moves.shape ?_)
      rw [hu.keeps.stack]
      exact ⟨batch, rfl⟩

/-- The callback of a successful `close()` runs when the context is gone from the cache. -/
theorem onWsMessage_close {msg : Parsed} {id : ℤ} {c call : ℕ} {result : Parsed}
    (hid : msg.id? = some id) (hr : s.pending.lookup id = some (.closeTarget c call))
    (hreply : msg.reply = some (.ok result)) :
    s.onWsMessage (some msg) =
      (((((s.log (.handling msg)).calling id (.closeTarget c call) (.ok result)).readContext
        c).removeContext (s.platformOf c)).answer (.operation call) .done).1 := by
  have hl : (s.log (.handling msg)).pending.lookup id = some (.closeTarget c call) := hr
  unfold onWsMessage onResponse
  simp only [contains_of_id hid, hid, hl, hreply]
  rfl

/-- The stack of every reachable state has this shape. -/
theorem run_shape {ls : List Label} (hr : Transition.run step init ls = some s) : Shape s.stack :=
  Transition.run_invariant (I := fun s => Shape s.stack) (fun _ _ _ hs ht => step_shape hs ht)
    (by trivial) hr

end State

end LynneSocial.Browser
