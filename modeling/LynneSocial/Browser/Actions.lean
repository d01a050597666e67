import LynneSocial.Browser.CdpBrowserManager
import Mathlib.Logic.Relation

/-!
# Actions

What the functions of the manager can do to the state, said once. A function is
a sequence of actions; an action carries what the code has established at that
point. The few transitions that are not made of actions (a response that fills
the cache or drops a context, the frames of the stack, the lifecycle) are left
to the modules that reason about them.
-/
namespace LynneSocial.Browser

/-- On whose behalf an entry waits. -/
def PendingRequest.caller : PendingRequest → Option Call
  | command call | closeTarget _ call | keyDown _ _ call => some (.operation call)
  | createTarget _ k | attachToTarget _ _ k | addScript _ _ k => some (.request k.call)
  | getCookies _ call | setCookies call => some (.request call)
  | ignored | poll _ => none

/-- The context an entry will own or delete. -/
def PendingRequest.context? : PendingRequest → Option ℕ
  | addScript _ c _ => some c
  | _ => none

def PendingRequest.isClose : PendingRequest → Bool
  | closeTarget _ _ => true
  | _ => false

/-- The requests that carry a new target from one response to the next. -/
def PendingRequest.isLink : PendingRequest → Bool
  | attachToTarget _ _ _ | addScript _ _ _ => true
  | _ => false

/-- The command that may follow can be written. -/
def PendingRequest.encodes : PendingRequest → Bool
  | keyDown _ key _ => validUtf8 key
  | _ => true

/-- The first two requests of a chain. -/
def PendingRequest.opensLink : PendingRequest → Bool
  | createTarget _ _ | attachToTarget _ _ _ => true
  | _ => false

/-- Events that say nothing about commands, contexts or calls. -/
def Event.silent : Event → Prop
  | .dangling _ | .saved _ _ | .fired _ _ => True
  | .starting | .connected _ | .ready _ | .stopped => True
  | _ => False

def Event.isNote : Event → Prop
  | .saved _ _ | .fired _ _ => True
  | _ => False

theorem Event.isNote.silent {e : Event} (h : e.isNote) : e.silent := by
  cases e <;> simp_all [Event.isNote, Event.silent]

/-- The part of the state that decides the fate of a command. -/
structure Line where
  cmdId : ℤ
  pending : StdMap ℤ PendingRequest
  wsReady : Bool
  ws : WebSocket
  launches : List Launch
  queue : List Task
  stack : List Frame

def State.line (s : State) : Line :=
  ⟨s.cmdId, s.pending, s.wsReady, s.ws, s.launches, s.scheduler.postQueue, s.stack⟩

/-- The part of the state that only commands, contexts and the session change. -/
structure Core where
  cmdId : ℤ
  started : Bool
  wsReady : Bool
  chromePid : Option ℕ
  pending : StdMap ℤ PendingRequest
  contexts : StdMap Str ℕ
  pendingCommands : List Command
  ws : WebSocket
  heap : List CdpBrowserContext
  launches : List Launch
  children : List Child

def State.core (s : State) : Core :=
  ⟨s.cmdId, s.started, s.wsReady, s.chromePid, s.pending, s.contexts, s.pendingCommands, s.ws,
    s.heap, s.launches, s.children⟩

def Frame.batch : Frame → List Task
  | draining batch => batch
  | _ => []

/-- Everything that waits for the loop. -/
def State.waiting (s : State) : List Task := s.scheduler.postQueue ++ s.stack.flatMap Frame.batch

def Task.isOpen : Task → Bool
  | .open _ => true
  | _ => false

/-- The Open events that wait. -/
def State.opens (s : State) : List Task := s.waiting.filter Task.isOpen

/-- A `wait_for_selector` that has not come to an end. -/
def State.Watching (s : State) (w : ℕ) (x : Waiter) : Prop :=
  s.waiters[w]? = some x ∧ x.done = false

/-- A callback in progress has the draining of the queue directly below it. -/
def Shape : List Frame → Prop
  | [] => True
  | .user :: st | .stopping :: st => Shape st
  | .eraseIt _ :: st => ∃ batch, st = [.draining batch]
  | .awoken :: st | .draining _ :: st => st = []

/-- Commands, contexts, calls and callbacks in progress stay as they are. -/
structure Calm (s t : State) : Prop where
  cmdId : t.cmdId = s.cmdId
  pending : t.pending = s.pending
  contexts : t.contexts = s.contexts
  heap : t.heap = s.heap
  calls : t.calls = s.calls
  erasing : ∀ id, .eraseIt id ∈ t.stack ↔ .eraseIt id ∈ s.stack
  shape : Shape s.stack → Shape t.stack
  history : ∃ es, (∀ e ∈ es, Event.silent e) ∧ t.history = es ++ s.history

/-- The session stays as it is as well. -/
structure Beside (s t : State) : Prop where
  core : t.core = s.core
  calls : t.calls = s.calls
  erasing : ∀ id, .eraseIt id ∈ t.stack ↔ .eraseIt id ∈ s.stack
  stopping : .stopping ∈ t.stack ↔ .stopping ∈ s.stack
  shape : Shape s.stack → Shape t.stack
  opens : t.opens = s.opens
  watching : ∀ w x, t.Watching w x → s.Watching w x
  note : ∃ es, (∀ e ∈ es, Event.isNote e) ∧ t.history = es ++ s.history

/-- Neither the queue nor the calls in progress change. -/
structure Aside (s t : State) : Prop extends Beside s t where
  stack : t.stack = s.stack
  queue : t.scheduler.postQueue = s.scheduler.postQueue

theorem Calm.refl (s : State) : Calm s s :=
  ⟨rfl, rfl, rfl, rfl, rfl, fun _ => .rfl, id, [], by simp, rfl⟩

theorem Calm.trans {s t u : State} (h : Calm s t) (k : Calm t u) : Calm s u := by
  obtain ⟨es, hes, hh⟩ := h.history
  obtain ⟨fs, hfs, hk⟩ := k.history
  refine ⟨k.cmdId.trans h.cmdId, k.pending.trans h.pending, k.contexts.trans h.contexts,
    k.heap.trans h.heap, k.calls.trans h.calls, fun id => (k.erasing id).trans (h.erasing id),
    k.shape ∘ h.shape, fs ++ es, ?_, ?_⟩
  · intro e he
    exact (List.mem_append.mp he).elim (hfs e) (hes e)
  · rw [hk, hh, List.append_assoc]

theorem Beside.calm {s t : State} (h : Beside s t) : Calm s t := by
  obtain ⟨es, hes, hh⟩ := h.note
  exact ⟨congrArg Core.cmdId h.core, congrArg Core.pending h.core, congrArg Core.contexts h.core,
    congrArg Core.heap h.core, h.calls, h.erasing, h.shape, es, fun e he => (hes e he).silent, hh⟩

/-- What an action may do, as far as a result restricts it. -/
structure Rules where
  send : Line → Command → PendingRequest → Prop := fun _ _ _ => True
  answer : Call → Prop := fun _ => True
  deliver : List CdpBrowserContext → ℕ → Prop := fun _ _ => True
  read : List CdpBrowserContext → ℕ → Prop := fun _ _ => True
  wait : Waiter → Prop := fun _ => True

/-- Commands for `c` may be sent; they can be written if `D` holds, close a target only if
`closing` is set, and carry a new target on only if `linking` is. -/
def Rules.Sends (ρ : Rules) (l : Line) (c : Option Call) (D : Prop) (closing linking : Bool := false) :
    Prop :=
  ∀ cmd r, cmd.id = l.cmdId → r.caller = c → r.isClose = false ∨ closing = true →
    r.isLink = false ∨ linking = true → (D → cmd.dumpable = true ∧ r.encodes = true) → ρ.send l cmd r

theorem Rules.Sends.send {ρ : Rules} {l : Line} {c : Option Call} {D : Prop}
    (h : ρ.Sends l c D) {cmd : Command} {r : PendingRequest} (hid : cmd.id = l.cmdId)
    (hr : r.caller = c) (hcl : r.isClose = false) (hlk : r.isLink = false)
    (hd : D → cmd.dumpable = true ∧ r.encodes = true) : ρ.send l cmd r :=
  h cmd r hid hr (.inl hcl) (.inl hlk) hd

/-- The entry captures a context that the application holds, or none. -/
def State.Fits (s : State) : PendingRequest → Prop
  | .addScript _ _ _ => False
  | .closeTarget c _ | .keyDown c _ _ => s.usable c = true
  | _ => True

theorem State.Fits.context {s : State} {r : PendingRequest} (h : s.Fits r) : r.context? = none := by
  cases r <;> first | rfl | exact h.elim

inductive Act (ρ : Rules) : State → State → Prop
  | enter (s : State) (kind : ℕ → Call) (hkind : kind = .request ∨ kind = .operation) :
      Act ρ s (s.enter kind)
  | send (s : State) (method : Str) (params : Json) (r : PendingRequest) (sessionId : Str)
      (hr : s.Fits r) (h : ρ.send s.line ⟨s.cmdId, method, params, sessionId⟩ r) :
      Act ρ s (s.sendCommand method params r sessionId).1
  /-- A new context, with the command whose response will enter it into the cache. -/
  | create (s : State) (platform : Str) (targetId sid : ValidStr) (k : Continuation) (method : Str)
      (params : Json) (sessionId : Str)
      (h : ρ.send s.line ⟨s.cmdId, method, params, sessionId⟩ (.addScript platform s.heap.length k)) :
      Act ρ s (({ s with heap := s.heap ++ [{ platform, targetId, sessionId := sid }] } :
        State).sendCommand method params (.addScript platform s.heap.length k) sessionId).1
  | answer (s : State) (c : Call) (a : Answer) (h : ρ.answer c) (ha : ∀ x, a ≠ .context x) :
      Act ρ s (s.answer c a).1
  | handOut (s : State) (platform : Str) (c : ℕ) (k : Continuation)
      (h : s.contexts.lookup platform = some c) (hk : ∀ n, k ≠ .getContext n)
      (ha : ρ.answer (.request k.call)) : Act ρ s (s.log (.handedOut platform c k))
  | deliver (s : State) (platform : Str) (c n : ℕ) (h : s.contexts.lookup platform = some c)
      (hn : ρ.answer (.request n)) (hc : ρ.deliver s.heap c) :
      Act ρ s ((Continuation.getContext n).onOk s platform c).1
  | close (s : State) (c : ℕ) (h : s.usable c = true) :
      Act ρ s (s.modifyContext c fun x => { x with closed := true })
  | user (s : State) : Act ρ s { s with stack := .user :: s.stack }
  /-- A handler reads a member of the context it captured. -/
  | read (s : State) (c : ℕ) (h : ρ.read s.heap c) : Act ρ s (s.readContext c)
  | wait (s : State) (x : Waiter) (h : s.usable x.ctx = true) (hx : ρ.wait x) :
      Act ρ s (({ s with waiters := s.waiters ++ [x] } : State).post (.check s.waiters.length))
  | aside (s t : State) (h : Aside s t) : Act ρ s t

/-- A sequence of actions. -/
abbrev Acts (ρ : Rules) : State → State → Prop := Relation.ReflTransGen (Act ρ)

theorem eq_of_mem_ite {α : Type} {p : Prop} [Decidable p] {a b : α}
    (h : a ∈ if p then [b] else []) : a = b := by
  split at h
  · exact List.mem_singleton.mp h
  · simp at h

theorem Command.dumpable_of {id : ℤ} {method sessionId : Str} {params : Json}
    (hm : validUtf8 method = true) (hp : params.dumpable = true)
    (hs : validUtf8 sessionId = true) :
    (Command.mk id method params sessionId).dumpable = true := by
  apply Json.object_dumpable
  intro m h
  simp only [List.mem_append, List.mem_cons, List.not_mem_nil, or_false] at h
  rcases h with (rfl | rfl | rfl) | h
  · exact ⟨rfl, rfl⟩
  · exact ⟨rfl, hm⟩
  · exact ⟨rfl, hp⟩
  · split at h
    · simp at h
    · rw [List.mem_singleton.mp h]
      exact ⟨rfl, hs⟩

theorem single_dumpable {key : Str} {x : Json} (hk : validUtf8 key = true)
    (hx : x.dumpable = true) : (Json.object [(key, x)]).dumpable = true :=
  Json.object_dumpable (by simp [hk, hx])

namespace State

theorem evaluate_dumpable {js : Str} (h : validUtf8 js = true) :
    (Json.object [(str "expression", .str js), (str "returnByValue", .bool true)]).dumpable = true := by
  apply Json.object_dumpable
  simp only [List.forall_mem_cons, List.not_mem_nil, false_imp_iff, implies_true, and_true]
  exact ⟨⟨rfl, h⟩, rfl, rfl⟩

theorem keyEvent_dumpable {type key : Str} (ht : validUtf8 type = true) (hk : validUtf8 key = true) :
    (keyEvent type key).dumpable = true := by
  apply Json.object_dumpable
  intro m h
  simp only [List.mem_append, List.mem_cons, List.not_mem_nil, or_false] at h
  rcases h with ((rfl | rfl) | h) | h
  · exact ⟨rfl, ht⟩
  · exact ⟨rfl, hk⟩
  · rw [eq_of_mem_ite h]
    exact ⟨rfl, rfl⟩
  · rw [eq_of_mem_ite h]
    exact ⟨rfl, rfl⟩

variable {ρ : Rules} {s t : State}

@[simp] theorem line_log (s : State) (e : Event) : (s.log e).line = s.line := rfl
@[simp] theorem line_enter (s : State) (kind : ℕ → Call) : (s.enter kind).line = s.line := rfl
@[simp] theorem line_modifyContext (s : State) (c : ℕ) (f : CdpBrowserContext → CdpBrowserContext) :
    (s.modifyContext c f).line = s.line := rfl

theorem log_aside {e : Event} (he : e.isNote) (s : State) : Aside s (s.log e) :=
  ⟨⟨rfl, rfl, fun _ => .rfl, .rfl, id, rfl, fun _ _ => id, [e], by simpa using he, rfl⟩,
    rfl, rfl⟩

theorem finishWaiter_aside (s : State) (w : ℕ) : Aside s (s.finishWaiter w) := by
  refine ⟨⟨rfl, rfl, fun _ => .rfl, .rfl, id, rfl, ?_, [], by simp, rfl⟩, rfl, rfl⟩
  rintro v x ⟨hx, hd⟩
  simp only [finishWaiter, List.getElem?_modify] at hx
  split at hx
  · obtain ⟨y, -, rfl⟩ := Option.map_eq_some_iff.mp hx
    cases hd
  · exact ⟨by simpa using hx, hd⟩

theorem readContext_calm (s : State) (c : ℕ) : Calm s (s.readContext c) := by
  unfold readContext
  split
  · split
    · exact ⟨rfl, rfl, rfl, rfl, rfl, fun _ => .rfl, id, [_], by simp [Event.silent], rfl⟩
    · exact .refl s
  · exact .refl s

theorem readContext_line (s : State) (c : ℕ) : (s.readContext c).line = s.line := by
  unfold readContext
  split
  · split <;> rfl
  · rfl

theorem readContext_closedOf (s : State) (c d : ℕ) : (s.readContext c).closedOf d = s.closedOf d := by
  simp only [closedOf, (s.readContext_calm c).heap]

theorem answers (c : Call) (a : Answer) (h : ρ.answer c) (ha : ∀ x, a ≠ .context x) :
    Acts ρ s (s.answer c a).1 :=
  .single (.answer s c a h ha)

end State

/-- The continuation sends a command once it has a context. -/
def Continuation.sends : Continuation → Bool
  | getContext _ => false
  | saveSession _ _ | restoreSession _ _ => true

namespace State
variable {ρ : Rules} {s t : State}

theorem onOk_acts {k : Continuation} {platform : Str} {c : ℕ}
    (hc : s.contexts.lookup platform = some c) (ha : ρ.answer (.request k.call))
    (hs : k.sends = true → ρ.Sends s.line (some (.request k.call)) True)
    (hd : k.sends = false → ρ.deliver s.heap c) : Acts ρ s (k.onOk s platform c).1 := by
  cases k with
  | getContext n => exact .single (.deliver s platform c n hc ha (hd rfl))
  | saveSession p n =>
      refine .tail (.single (.handOut s platform c _ hc (by simp) ha)) (.send _ _ _ _ _ trivial ?_)
      exact hs rfl _ _ rfl rfl (.inl rfl) (.inl rfl) fun _ =>
        ⟨Command.dumpable_of rfl rfl (s.sessionOf c).2, rfl⟩
  | restoreSession cookies n =>
      refine .tail (.single (.handOut s platform c _ hc (by simp) ha)) (.send _ _ _ _ _ trivial ?_)
      exact hs rfl _ _ rfl rfl (.inl rfl) (.inl rfl) fun _ =>
        ⟨Command.dumpable_of rfl (single_dumpable rfl cookies.valid) (s.sessionOf c).2, rfl⟩

/-- `do_get_context` sends a command. -/
def asks (s : State) (platform : Str) (k : Continuation) : Bool :=
  s.started && (k.sends || (s.contexts.lookup platform).isNone)

/-- `do_get_context` finds a context and passes it to the caller of `get_context`. -/
def hits (s : State) (platform : Str) (k : Continuation) (c : ℕ) : Prop :=
  s.started = true ∧ s.contexts.lookup platform = some c ∧ k.sends = false

theorem doGetContext_acts {k : Continuation} {platform : Str} (ha : ρ.answer (.request k.call))
    (hs : s.asks platform k = true → ρ.Sends s.line (some (.request k.call)) True)
    (hd : ∀ c, s.hits platform k c → ρ.deliver s.heap c) :
    Acts ρ s (s.doGetContext platform k).1 := by
  unfold doGetContext
  split
  · exact answers _ _ ha (by simp)
  · rename_i hst
    have hst : s.started = true := by simpa using hst
    split
    · rename_i c hc
      exact onOk_acts hc ha (fun h => hs (by simp [asks, hst, h])) fun h => hd c ⟨hst, hc, h⟩
    · rename_i hc
      refine .single (.send _ _ _ _ _ trivial ?_)
      exact hs (by simp [asks, hst, hc]) _ _ rfl rfl (.inl rfl) (.inl rfl) fun _ =>
        ⟨Command.dumpable_of rfl (single_dumpable rfl rfl) rfl, rfl⟩

theorem enter_acts {u : State} (kind : ℕ → Call) (hkind : kind = .request ∨ kind = .operation)
    (h : Acts ρ (s.enter kind) u) : Acts ρ s u :=
  .head (.enter s kind hkind) h

theorem restoreSession_acts {platform : Str} {content : Option Parsed}
    (ha : ρ.answer (.request s.calls))
    (hs : ∀ cookies, content.bind (·.find? (str "cookies")) = some cookies →
      s.asks platform (.restoreSession cookies s.calls) = true →
        ρ.Sends s.line (some (.request s.calls)) True) :
    Acts ρ s (s.restoreSession platform content).1 := by
  unfold restoreSession
  split
  · exact enter_acts _ (.inl rfl) (answers _ _ ha (by simp))
  · split
    · exact enter_acts _ (.inl rfl) (answers _ _ ha (by simp))
    · rename_i session cookies hc
      refine enter_acts _ (.inl rfl) (doGetContext_acts ha (hs cookies hc) ?_)
      rintro c ⟨-, -, h⟩
      simp [Continuation.sends] at h

theorem usable_modify {c : ℕ} {f : CdpBrowserContext → CdpBrowserContext} (h : s.usable c = true)
    (hf : ∀ x, (f x).shared = x.shared ∧ (f x).destroyed = x.destroyed) :
    (s.modifyContext c f).usable c = true := by
  unfold usable modifyContext at *
  simp only [List.getElem?_modify, if_pos]
  cases hx : s.heap[c]? with
  | none => simp [hx] at h
  | some x => simpa [hx, hf x] using h

theorem close_acts {c : ℕ} (hu : s.usable c = true) (ha : ρ.answer (.operation s.calls))
    (hs : s.closedOf c = false → ρ.Sends s.line (some (.operation s.calls)) True true) :
    Acts ρ s (s.close c).1 := by
  unfold close
  split
  · exact enter_acts _ (.inr rfl) (answers _ _ ha (by simp))
  · rename_i hc
    refine enter_acts _ (.inr rfl) (.head (.close _ c hu) (.single (.send _ _ _ _ _ ?_ ?_)))
    · exact usable_modify hu fun _ => ⟨rfl, rfl⟩
    exact hs (by simpa using hc) _ _ rfl rfl (.inr rfl) (.inl rfl) fun _ =>
      ⟨Command.dumpable_of rfl (single_dumpable rfl (s.targetOf c).2) rfl, rfl⟩

theorem evaluate_acts {c : ℕ} {js : Str} {r : PendingRequest} (hr : s.Fits r)
    (hcl : r.isClose = false) (hlk : r.isLink = false) (he : r.encodes = true)
    (hs : ρ.Sends s.line r.caller (validUtf8 js = true)) :
    Acts ρ s (s.evaluate c js r).1 := by
  refine .single (.send _ _ _ _ _ hr ?_)
  exact hs _ _ rfl rfl (.inl hcl) (.inl hlk) fun h =>
    ⟨Command.dumpable_of rfl (evaluate_dumpable h) (s.sessionOf c).2, he⟩

theorem act_acts {c : ℕ} {js : Str} (ha : ρ.answer (.operation s.calls))
    (hs : s.closedOf c = false → ρ.Sends s.line (some (.operation s.calls)) (validUtf8 js = true)) :
    Acts ρ s (s.act c js).1 := by
  unfold act
  split
  · exact enter_acts _ (.inr rfl) (answers _ _ ha (by simp))
  · rename_i hc
    exact enter_acts _ (.inr rfl) (evaluate_acts trivial rfl rfl rfl (hs (by simpa using hc)))

theorem pressKey_acts {c : ℕ} {key : Str} (hu : s.usable c = true)
    (ha : ρ.answer (.operation s.calls))
    (hs : s.closedOf c = false → ρ.Sends s.line (some (.operation s.calls)) (validUtf8 key = true)) :
    Acts ρ s (s.pressKey c key).1 := by
  unfold pressKey
  split
  · exact enter_acts _ (.inr rfl) (answers _ _ ha (by simp))
  · rename_i hc
    refine enter_acts _ (.inr rfl) (.single (.send _ _ _ _ _ hu ?_))
    exact hs (by simpa using hc) _ _ rfl rfl (.inl rfl) (.inl rfl) fun h =>
      ⟨Command.dumpable_of rfl (keyEvent_dumpable rfl h) (s.sessionOf c).2, h⟩

theorem waitForSelector_acts {c : ℕ} {selector : Str} {timeoutMs : ℕ} (hu : s.usable c = true)
    (ha : ρ.answer (.operation s.calls)) (hw : ∀ x : Waiter, x.selector = selector → ρ.wait x) :
    Acts ρ s (s.waitForSelector c selector timeoutMs).1 := by
  unfold waitForSelector
  split
  · exact enter_acts _ (.inr rfl) (answers _ _ ha (by simp))
  · exact enter_acts _ (.inr rfl) (.single (.wait (s.enter .operation) _ hu (hw _ rfl)))

/-- The closure `check` sends a command. -/
def polls (s : State) (w : ℕ) : Bool :=
  match s.waiters[w]? with
  | none => false
  | some x => !x.done && !s.closedOf x.ctx && decide (¬ toInt64 x.timeoutMs ≤ (s.now - x.start : ℕ))

/-- The script it sends can be written. -/
def pollsText (s : State) (w : ℕ) : Prop :=
  ∀ x, s.waiters[w]? = some x → validUtf8 (existsScript x.selector) = true

theorem check_acts {w : ℕ} (ha : ∀ n, ρ.answer (.operation n))
    (hr : ∀ x, s.Watching w x → ρ.read s.heap x.ctx)
    (hs : s.polls w = true → ρ.Sends s.line none (s.pollsText w)) : Acts ρ s (s.check w).1 := by
  unfold check
  split
  · exact .refl
  · rename_i x hx
    split
    · exact .refl
    · rename_i hdone
      refine .head (.read s x.ctx (hr x ⟨hx, by simpa using hdone⟩)) ?_
      dsimp only
      split
      · exact .single (.aside _ _ (finishWaiter_aside _ w))
      · rename_i hcl
        split
        · exact .head (.aside _ _ (finishWaiter_aside _ w)) (answers _ _ (ha _) (by simp))
        · rename_i ht
          rw [readContext_closedOf] at hcl
          have hnow : (s.readContext x.ctx).now = s.now := by
            unfold readContext
            split
            · split <;> rfl
            · rfl
          have hp : s.polls w = true := by
            rw [hnow] at ht
            simp only [polls, hx, Bool.and_eq_true, Bool.not_eq_true', decide_eq_true_eq]
            exact ⟨⟨by simpa using hdone, by simpa using hcl⟩, ht⟩
          refine evaluate_acts trivial rfl rfl rfl ?_
          rw [readContext_line]
          exact fun cmd r hid hr hcl hlk hd => hs hp cmd r hid hr hcl hlk fun h => hd (h x hx)

/-- The callback of an entry sends a command. -/
def follows (s : State) : PendingRequest → Reply → Bool
  | .createTarget _ _, .ok result => (result.strAt (str "targetId")).isSome
  | .attachToTarget _ _ _, .ok result => (result.strAt (str "sessionId")).isSome
  | .addScript _ _ k, .ok _ => k.sends
  | .keyDown _ _ _, .ok _ => true
  | .poll w, .ok result =>
    match s.waiters[w]?, result.json.find? (str "result") with
    | some x, some res => !x.done && polled res == some false && s.polls w
    | _, _ => false
  | .poll w, .error _ => s.polls w
  | _, _ => false

/-- The command can be written. -/
def followsText (s : State) : PendingRequest → Prop
  | .keyDown _ key _ => validUtf8 key = true
  | .poll w => s.pollsText w
  | _ => True

end State

/-- Not one of the responses that change the cache. -/
def PendingRequest.plain : PendingRequest → Reply → Bool
  | addScript _ _ _, _ | closeTarget _ _, .ok _ => false
  | _, _ => true

namespace State
variable {ρ : Rules} {s t : State}

/-- The functions of an entry may read the context. -/
def Reads (s : State) (r : PendingRequest) (c : ℕ) : Prop :=
  match r with
  | .closeTarget d _ | .keyDown d _ _ => d = c
  | .poll w => ∃ x, s.Watching w x ∧ x.ctx = c
  | _ => False

theorem invoke_acts {r : PendingRequest} {reply : Reply} (hr : r.plain reply = true)
    (ha : ∀ c, r.caller = some c → ρ.answer c) (hop : ∀ n, ρ.answer (.operation n))
    (hrd : ∀ c, s.Reads r c → ρ.read s.heap c)
    (hs : s.follows r reply = true →
      ρ.Sends s.line r.caller (s.followsText r) false r.opensLink)
    (hs' : ∀ (u : State) method params r' sessionId, u.line = s.line → s.follows r reply = true →
      ρ.Sends (u.sendCommand method params r' sessionId).1.line none True) :
    Acts ρ s (s.invoke r reply).1 := by
  cases r with
  | command call => cases reply <;> exact answers _ _ (hop _) (by simp)
  | ignored => exact .refl
  | createTarget platform k =>
      cases reply with
      | ok result =>
          unfold invoke
          dsimp only
          split
          · exact .refl
          · rename_i targetId ht
            refine .single (.send _ _ _ _ _ trivial ?_)
            refine hs (by simp [follows, ht]) _ _ rfl rfl (.inl rfl) (.inr rfl) fun _ =>
              ⟨Command.dumpable_of rfl ?_ rfl, rfl⟩
            refine Json.object_dumpable ?_
            simp only [List.forall_mem_cons, List.not_mem_nil, false_imp_iff, implies_true, and_true]
            exact ⟨⟨rfl, targetId.2⟩, rfl, rfl⟩
      | error text => exact answers _ _ (ha _ rfl) (by simp)
  | attachToTarget platform targetId k =>
      cases reply with
      | ok result =>
          unfold invoke
          dsimp only
          split
          · exact .refl
          · rename_i sessionId ht
            have hf : s.follows (.attachToTarget platform targetId k) (.ok result) = true := by
              simp [follows, ht]
            have hc := Act.create (ρ := ρ) s platform targetId sessionId k
              (str "Page.addScriptToEvaluateOnNewDocument")
              (.object [(str "source", .str stealth)]) sessionId
              (hs hf _ _ rfl rfl (.inl rfl) (.inr rfl) fun _ => ⟨Command.dumpable_of rfl
                (single_dumpable rfl (by decide +kernel)) sessionId.2, rfl⟩)
            split
            · exact .single hc
            · refine .head hc (.single (.send _ (str "Page.enable") .null .ignored sessionId trivial ?_))
              apply Rules.Sends.send
              · exact hs' _ _ _ _ _ rfl hf
              · rfl
              · rfl
              · rfl
              · rfl
              · exact fun _ => ⟨Command.dumpable_of rfl rfl sessionId.2, rfl⟩
      | error text => exact answers _ _ (ha _ rfl) (by simp)
  | addScript platform c k => simp [PendingRequest.plain] at hr
  | getCookies platform call =>
      cases reply with
      | ok result =>
          unfold invoke
          dsimp only
          split
          · exact .refl
          · exact .head (.aside _ _ (log_aside (by simp [Event.isNote]) s))
              (answers _ _ (ha _ rfl) (by simp))
      | error text => exact answers _ _ (ha _ rfl) (by simp)
  | setCookies call => cases reply <;> exact answers _ _ (ha _ rfl) (by simp)
  | closeTarget c call =>
      cases reply with
      | ok result => simp [PendingRequest.plain] at hr
      | error text => exact answers _ _ (ha _ rfl) (by simp)
  | keyDown c key call =>
      cases reply with
      | ok result =>
          refine .head (.read s c (hrd c rfl)) (.single (.send _ _ _ _ _ trivial ?_))
          rw [readContext_line]
          apply Rules.Sends.send (hs rfl)
          · exact (s.readContext_calm c).cmdId
          · rfl
          · rfl
          · rfl
          · exact fun h => ⟨Command.dumpable_of rfl (keyEvent_dumpable rfl h) (s.sessionOf c).2, rfl⟩
      | error text => exact answers _ _ (ha _ rfl) (by simp)
  | poll w =>
      cases reply with
      | ok result =>
          unfold invoke
          dsimp only
          split
          · rename_i x res hx hres
            split
            · exact .refl
            · rename_i hdone
              split
              · exact .head (.aside _ _ (finishWaiter_aside _ w)) (answers _ _ (hop _) (by simp))
              · rename_i hp
                refine check_acts hop (fun y hy => hrd y.ctx ⟨y, hy, rfl⟩) fun h => hs ?_
                simp [follows, hx, hres, hp, h, hdone]
              · exact .refl
          · exact .refl
      | error text => exact check_acts hop (fun y hy => hrd y.ctx ⟨y, hy, rfl⟩) fun h => hs h

end State

end LynneSocial.Browser
