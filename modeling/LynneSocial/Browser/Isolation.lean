import LynneSocial.Browser.FirstSession
import LynneSocial.Lib.History
import Mathlib.Data.List.TakeWhile

/-!
# Isolation of the platforms

Chains for many platforms share one counter and one table. A platform
nevertheless only gets the target and the session that were answered to its own
commands, its commands carry its session, and nobody is given a context before
the stealth script was acknowledged on its session.
-/
namespace LynneSocial.Browser

/-- Every command that was handed to `sendText` or waits for the Open event. -/
def State.commands (s : State) : List Command := s.ws.sent.map Sent.command ++ s.pendingCommands

/-- The context through which the callback of an entry sends commands. -/
def State.viaEntry (s : State) : PendingRequest → Option ℕ
  | .keyDown c _ _ | .addScript _ c _ => some c
  | .poll w => s.waiters[w]?.map Waiter.ctx
  | .attachToTarget _ _ _ => some s.heap.length
  | _ => none

/-- The context through which a step sends commands. -/
def State.via (s : State) : Label → Option ℕ
  | .command c _ | .act c _ | .pressKey c _ => some c
  | .saveSession platform | .restoreSession platform _ => s.contexts.lookup platform
  | .next =>
    match s.stack with
    | .draining (.check w :: _) :: _ => s.waiters[w]?.map Waiter.ctx
    | .draining (.message _ (some msg) :: _) :: _ =>
      (msg.id?.bind fun id => s.pending.lookup id).bind s.viaEntry
    | _ => none
  | _ => none

variable {ρ : Rules} {s t u : State}

/-- Every new command carries the session. -/
def Carries (s t : State) (sessionId : Str) : Prop :=
  ∀ cmd ∈ t.commands, cmd ∈ s.commands ∨ cmd.sessionId = sessionId

theorem Carries.of_eq {S : Str} (h : t.commands = s.commands) : Carries s t S :=
  fun _ hc => .inl (h ▸ hc)

theorem Carries.trans {S : Str} (h : Carries s t S) (k : Carries t u S) : Carries s u S :=
  fun cmd hc => (k cmd hc).elim (h cmd) .inr

theorem sendCommand_commands (s : State) (method : Str) (params : Json) (r : PendingRequest)
    (sessionId : Str) : ∀ cmd ∈ (s.sendCommand method params r sessionId).1.commands,
      cmd ∈ s.commands ∨ cmd = ⟨s.cmdId, method, params, sessionId⟩ := by
  intro cmd hc
  unfold State.sendCommand at hc
  dsimp only at hc
  split at hc
  · split at hc
    · simp only [State.commands, State.sendText, State.issue, List.map_cons, List.cons_append,
        List.mem_cons] at hc
      exact hc.symm
    · exact .inl hc
  · simp only [State.commands, State.issue, List.mem_append, List.mem_singleton] at hc
    rw [State.commands, List.mem_append]
    tauto

theorem sendCommand_carries (s : State) (method : Str) (params : Json) (r : PendingRequest)
    (sessionId : Str) : Carries s (s.sendCommand method params r sessionId).1 sessionId := by
  intro cmd hc
  refine (sendCommand_commands s method params r sessionId cmd hc).imp_right ?_
  rintro rfl
  rfl

theorem readContext_commands (s : State) (c : ℕ) : (s.readContext c).commands = s.commands := by
  unfold State.readContext
  split
  · split <;> rfl
  · rfl

theorem sessionOf_congr {c : ℕ} (h : t.heap = s.heap) : t.sessionOf c = s.sessionOf c := by
  rw [State.sessionOf, State.sessionOf, h]

/-- The new commands of a function carry the session of the context, as it is afterwards. -/
def ThroughContext (s t : State) (c : ℕ) : Prop := Carries s t (t.sessionOf c)

theorem ThroughContext.send {c : ℕ} (method : Str) (params : Json) (r : PendingRequest)
    (h : t.commands = s.commands) :
    ThroughContext s (t.sendCommand method params r (t.sessionOf c)).1 c := by
  rw [ThroughContext, sessionOf_congr (sendCommand_heap t method params r _)]
  exact (Carries.of_eq h).trans (sendCommand_carries t method params r _)

theorem ThroughContext.of_eq {c : ℕ} (h : t.commands = s.commands) : ThroughContext s t c :=
  Carries.of_eq h

theorem ThroughContext.finish {r : State × Ctl} {c : ℕ} (h : ThroughContext s r.1 c) :
    ThroughContext s (State.finish r) c := by
  unfold State.finish State.resume State.unwind
  split
  · split <;> exact h
  · exact h
  · split <;> exact h

theorem command_through (s : State) (c : ℕ) (op : ContextCommand) :
    ThroughContext s (s.command c op).1 c :=
  ThroughContext.send (t := s.enter .operation) _ _ _ rfl

theorem act_through (s : State) (c : ℕ) (js : Str) : ThroughContext s (s.act c js).1 c := by
  unfold State.act
  split
  · exact .of_eq rfl
  · exact ThroughContext.send (t := s.enter .operation) _ _ _ rfl

theorem pressKey_through (s : State) (c : ℕ) (key : Str) : ThroughContext s (s.pressKey c key).1 c := by
  unfold State.pressKey
  split
  · exact .of_eq rfl
  · exact ThroughContext.send (t := s.enter .operation) _ _ _ rfl

theorem onOk_through (k : Continuation) (platform : Str) (c : ℕ) (h : t.commands = s.commands) :
    ThroughContext s (k.onOk t platform c).1 c := by
  cases k with
  | getContext call => exact .of_eq h
  | saveSession p call =>
      exact ThroughContext.send (t := t.log (.handedOut platform c (.saveSession p call))) _ _ _ h
  | restoreSession cookies call =>
      exact ThroughContext.send (t := t.log (.handedOut platform c (.restoreSession cookies call))) _ _ _ h

theorem doGetContext_through {platform : Str} {c : ℕ} (k : Continuation)
    (hl : t.contexts.lookup platform = some c) (h : t.commands = s.commands) :
    ThroughContext s (t.doGetContext platform k).1 c := by
  unfold State.doGetContext
  split
  · exact .of_eq h
  · simp only [hl]
    exact onOk_through k platform c h

theorem check_through {w : ℕ} {x : Waiter} (hx : t.waiters[w]? = some x)
    (h : t.commands = s.commands) : ThroughContext s (t.check w).1 x.ctx := by
  unfold State.check
  simp only [hx]
  have hread : (t.readContext x.ctx).commands = s.commands := (readContext_commands t x.ctx).trans h
  split
  · exact .of_eq h
  · split
    · exact .of_eq hread
    · split
      · exact .of_eq hread
      · exact ThroughContext.send (t := t.readContext x.ctx) _ _ _ hread

theorem resetContext_commands (s : State) (platform : Str) (c : ℕ) :
    (s.resetContext platform c).commands = s.commands := by
  unfold State.resetContext
  split <;> rfl

theorem script_through (platform : Str) (T S : ValidStr) (k : Continuation) (h : t.commands = s.commands) :
    ThroughContext s ((t.script platform T S k).enable S) t.heap.length := by
  have hS : ((t.script platform T S k).enable S).sessionOf t.heap.length = S := by
    unfold State.sessionOf
    rw [script_heap]
    simp
  rw [ThroughContext, hS]
  refine Carries.trans (Carries.of_eq h) (Carries.trans ?_ (sendCommand_carries _ _ _ _ _))
  exact sendCommand_carries ({ t with heap := t.heap ++ [_] } : State) _ _ _ _

/-- The callback of an entry sends its commands through the context the entry names. -/
theorem invoke_through {r : PendingRequest} {reply : Reply} {c : ℕ} (h : t.commands = s.commands)
    (hc : t.viaEntry r = some c) : ThroughContext s (t.invoke r reply).1 c := by
  cases r with
  | addScript platform d k =>
      cases hc
      cases reply with
      | ok result =>
          have hc := (resetContext_commands t platform c).trans h
          unfold State.invoke
          exact onOk_through (t := (t.resetContext platform c).log (.cached platform c k)) k platform c hc
      | error text => exact ThroughContext.of_eq (t := (t.destroy c).log (.rejected c k)) h
  | keyDown d key call =>
      cases hc
      cases reply with
      | ok result =>
          have hsend := ThroughContext.send (t := t.readContext c) (c := c) (str "Input.dispatchKeyEvent")
            (State.keyEvent (str "keyUp") key) (.command call) ((readContext_commands t c).trans h)
          rwa [sessionOf_congr (t.readContext_calm c).heap] at hsend
      | error text => exact .of_eq h
  | attachToTarget platform T k =>
      cases hc
      cases reply with
      | ok result =>
          rw [State.invoke_attachToTarget]
          split
          · exact .of_eq h
          · exact script_through platform T _ k h
      | error text => exact .of_eq h
  | poll w =>
      obtain ⟨x, hx, rfl⟩ := Option.map_eq_some_iff.mp hc
      cases reply with
      | ok result =>
          unfold State.invoke
          dsimp only
          split
          · rename_i y res hy _
            obtain rfl : x = y := Option.some.inj (hx.symm.trans hy)
            split
            · exact .of_eq h
            · split
              · exact .of_eq h
              · exact check_through hx h
              · exact .of_eq h
          · exact .of_eq h
      | error text => exact check_through hx h
  | _ => cases hc

theorem onWsMessage_no_reply {msg : Parsed} {id : ℤ} (hid : msg.id? = some id)
    (hreply : msg.reply = none) : s.onWsMessage (some msg) = s.log (.handling msg) := by
  unfold State.onWsMessage State.onResponse
  simp only [State.contains_of_id hid, hid, hreply, if_true]
  split
  · cases ‹none = some _›
  · rfl

/-- Whatever a step sends through a context carries the session of that context. -/
theorem step_through {l : Label} {c : ℕ} (ht : s.step l = some t) (hc : s.via l = some c) :
    ThroughContext s t c := by
  cases l <;> simp only [State.via, reduceCtorEq] at hc
  case command d op =>
    simp only [State.step, Option.ite_none_right_eq_some, Option.some.injEq] at ht
    obtain ⟨-, rfl⟩ := ht
    cases hc
    exact command_through s _ op
  case act d js =>
    simp only [State.step, Option.ite_none_right_eq_some, Option.some.injEq] at ht
    obtain ⟨-, rfl⟩ := ht
    cases hc
    exact act_through s _ js
  case pressKey d key =>
    simp only [State.step, Option.ite_none_right_eq_some, Option.some.injEq] at ht
    obtain ⟨-, rfl⟩ := ht
    cases hc
    exact pressKey_through s _ key
  case saveSession platform =>
    simp only [State.step, Option.ite_none_right_eq_some, Option.some.injEq] at ht
    obtain ⟨-, rfl⟩ := ht
    exact doGetContext_through (t := s.enter .request) _ hc rfl
  case restoreSession platform content =>
    simp only [State.step, Option.ite_none_right_eq_some, Option.some.injEq] at ht
    obtain ⟨-, rfl⟩ := ht
    unfold State.restoreSession
    split
    · exact .of_eq rfl
    · split
      · exact .of_eq rfl
      · exact doGetContext_through (t := s.enter .request) _ hc rfl
  case next =>
    rcases State.step_next ht with ⟨rest, h, rfl⟩ | ⟨task, batch, rest, h, rfl⟩
    · simp [h] at hc
    · cases task with
      | «open» conn => simp [h] at hc
      | user => simp [h] at hc
      | check w =>
          simp only [h] at hc
          obtain ⟨x, hx, rfl⟩ := Option.map_eq_some_iff.mp hc
          exact check_through (t := { s with stack := _ }) hx rfl
      | message conn data =>
          cases data with
          | none => simp [h] at hc
          | some msg =>
              simp only [h] at hc
              obtain ⟨r, hr, hvia⟩ := Option.bind_eq_some_iff.mp hc
              obtain ⟨id, hid, hr⟩ := Option.bind_eq_some_iff.mp hr
              set u : State := { s with stack := .draining batch :: rest } with hu
              change ThroughContext s (u.onWsMessage (some msg)) c
              cases hreply : msg.reply with
              | none =>
                  rw [onWsMessage_no_reply hid hreply]
                  exact ThroughContext.of_eq (t := u.log (.handling msg)) rfl
              | some reply =>
                  rw [State.onWsMessage_response (s := u) hid hr hreply]
                  exact (invoke_through (t := (u.log (.handling msg)).calling id r reply) rfl hvia).finish

/-- The last command of the chain of a context was answered with a success. -/
def Acked (h : List Event) (platform : Str) (c : ℕ) : Prop :=
  ∃ id k result, .invoked id (.addScript platform c k) (.ok result) ∈ h

/-- The command that adds the script carries this id and the session of the context. -/
def Announced (s : State) (id : ℤ) (c : ℕ) : Prop :=
  ∃ p T S, s.identAt c = some (p, T, S) ∧
    Command.mk id (str "Page.addScriptToEvaluateOnNewDocument")
      (.object [(str "source", .str State.stealth)]) S ∈ s.commands

/-- Contexts are passed on after the script was acknowledged, and to the application only so. -/
def AfterScript : Event → List Event → Prop
  | .handedOut platform c _, past => Acked past platform c
  | .answered call (.context c), past =>
    ∃ platform n earlier, call = .request n ∧ past = .handedOut platform c (.getContext n) :: earlier
  | _, _ => True

/-- The events that matter here. -/
def Event.ofScript : Event → Bool
  | .invoked _ (.addScript _ _ _) (.ok _) | .handedOut _ _ _ | .answered _ (.context _) => true
  | _ => false

structure Scripted (s : State) : Prop where
  entry : ∀ id p c k, s.pending.lookup id = some (.addScript p c k) → Announced s id c
  acked : ∀ id p c k result, .invoked id (.addScript p c k) (.ok result) ∈ s.history →
    Announced s id c
  cached : ∀ p c, s.contexts.lookup p = some c → Acked s.history p c
  handed : History.Always AfterScript s.history

theorem Acked.mono {h h' : List Event} {p : Str} {c : ℕ} (ha : Acked h p c)
    (hh : ∀ e ∈ h, e ∈ h') : Acked h' p c := by
  obtain ⟨id, k, result, hi⟩ := ha
  exact ⟨id, k, result, hh _ hi⟩

theorem Announced.mono {id : ℤ} {c : ℕ} (h : Announced s id c)
    (hx : ∀ c i, s.identAt c = some i → t.identAt c = some i)
    (hm : ∀ cmd ∈ s.commands, cmd ∈ t.commands) : Announced t id c := by
  obtain ⟨p, T, S, hi, hc⟩ := h
  exact ⟨p, T, S, hx c _ hi, hm _ hc⟩

theorem afterScript_of {e : Event} (he : e.ofScript = false) (past : List Event) :
    AfterScript e past := by
  cases e with
  | handedOut p c k => cases he
  | answered call a =>
      cases a with
      | context c => cases he
      | _ => trivial
  | _ => trivial

theorem Scripted.frame (h : Scripted s)
    (hp : ∀ id p c k, t.pending.lookup id = some (.addScript p c k) →
      s.pending.lookup id = some (.addScript p c k))
    (hc : ∀ p c, t.contexts.lookup p = some c → s.contexts.lookup p = some c)
    (hx : ∀ c i, s.identAt c = some i → t.identAt c = some i)
    (hm : ∀ cmd ∈ s.commands, cmd ∈ t.commands)
    (hh : ∃ es, (∀ e ∈ es, e.ofScript = false) ∧ t.history = es ++ s.history) : Scripted t := by
  obtain ⟨es, hes, hh⟩ := hh
  refine ⟨fun id p c k hl => (h.entry id p c k (hp id p c k hl)).mono hx hm, ?_, ?_, ?_⟩
  · intro id p c k result hi
    rw [hh] at hi
    refine (h.acked id p c k result ((List.mem_append.mp hi).resolve_left fun hi => ?_)).mono hx hm
    cases hes _ hi
  · intro p c hl
    rw [hh]
    exact (h.cached p c (hc p c hl)).mono fun _ he => List.mem_append_right _ he
  · rw [hh]
    exact h.handed.append fun e he => afterScript_of (hes e he)

theorem Event.silent.not_ofScript {e : Event} (h : e.silent) : e.ofScript = false := by
  cases e <;> first | rfl | exact h.elim

theorem Calm.scripted (h : Scripted s) (hc : Calm s t) (hm : ∀ cmd ∈ s.commands, cmd ∈ t.commands) :
    Scripted t := by
  obtain ⟨es, hes, hh⟩ := hc.history
  refine h.frame (by simp [hc.pending]) (by simp [hc.contexts]) ?_ hm
    ⟨es, fun e he => (hes e he).not_ofScript, hh⟩
  intro c i hi
  rw [← hi]
  exact congrArg (fun heap : List CdpBrowserContext => heap[c]?.map _) hc.heap

theorem Beside.commands (h : Beside s t) : t.commands = s.commands := by
  rw [State.commands, State.commands, show t.ws = s.ws from congrArg Core.ws h.core,
    show t.pendingCommands = s.pendingCommands from congrArg Core.pendingCommands h.core]

theorem sendCommand_mono (s : State) (method : Str) (params : Json) (r : PendingRequest)
    (sessionId : Str) : ∀ cmd ∈ s.commands, cmd ∈ (s.sendCommand method params r sessionId).1.commands := by
  intro cmd hc
  unfold State.sendCommand
  dsimp only
  split
  · split
    · exact List.mem_cons_of_mem _ hc
    · exact hc
  · simp only [State.commands, State.issue, List.mem_append] at hc ⊢
    tauto

theorem sendCommand_mem {method sessionId : Str} {params : Json} {r : PendingRequest}
    (h : (Command.mk s.cmdId method params sessionId).dumpable = true) :
    Command.mk s.cmdId method params sessionId ∈ (s.sendCommand method params r sessionId).1.commands := by
  unfold State.sendCommand
  simp only [h, if_true]
  split
  · exact List.mem_cons_self
  · simp [State.commands, State.issue]

theorem Scripted.send (h : Scripted s) (method : Str) (params : Json) {r : PendingRequest}
    (sessionId : Str) (hr : r.context? = none) :
    Scripted (s.sendCommand method params r sessionId).1 := by
  have hc := s.sendCommand_calm method params r sessionId
  refine h.frame (fun id p c k hl => ?_) (by simp [hc.contexts, State.issue]) ?_
    (sendCommand_mono s method params r sessionId) ?_
  · rw [hc.pending] at hl
    exact issue_lookup_addScript hr hl
  · intro c i hi
    unfold State.identAt
    rwa [sendCommand_heap]
  · obtain ⟨es, hes, hh⟩ := hc.history
    refine ⟨es ++ [.issued s.cmdId r], ?_, by simp [hh, State.issue]⟩
    intro e he
    rcases List.mem_append.mp he with he | he
    · exact (hes e he).not_ofScript
    · obtain rfl := List.mem_singleton.mp he
      rfl

theorem identAt_modify (s : State) (c d : ℕ) {f : CdpBrowserContext → CdpBrowserContext}
    (hf : ∀ x, ((f x).platform, (f x).targetId, (f x).sessionId) = (x.platform, x.targetId, x.sessionId)) :
    (s.modifyContext c f).identAt d = s.identAt d := map_getElem?_modify _ _ _ hf

theorem Scripted.act (h : Scripted s) (ha : Act noLinks s t) : Scripted t := by
  cases ha with
  | send method params r sessionId hr hlk => exact h.send method params sessionId hr.context
  | create platform targetId sid k method params sessionId hlk => cases hlk
  | enter kind =>
      exact h.frame (fun _ _ _ _ hl => hl) (fun _ _ hl => hl) (fun _ _ hi => hi) (fun _ hc => hc)
        ⟨[_], by simp [Event.ofScript], rfl⟩
  | answer c a _ ha =>
      refine h.frame (fun _ _ _ _ hl => hl) (fun _ _ hl => hl) (fun _ _ hi => hi) (fun _ hc => hc)
        ⟨[.answered c a], ?_, rfl⟩
      intro e he
      obtain rfl := List.mem_singleton.mp he
      cases a <;> first | rfl | exact absurd rfl (ha _)
  | handOut p c k hl =>
      refine ⟨h.entry, fun id q d k' res hi => h.acked id q d k' res (by simpa [State.log] using hi), ?_, ?_⟩
      · exact fun q d hq => (h.cached q d hq).mono fun _ he => List.mem_cons_of_mem _ he
      · exact ⟨h.cached p c hl, h.handed⟩
  | deliver p c n hl =>
      have hx : ∀ d, (((Continuation.getContext n).onOk s p c).1).identAt d = s.identAt d := fun d =>
        identAt_modify (s.log (.handedOut p c (.getContext n))) c d (f := fun x => { x with shared := true })
          fun _ => rfl
      have hann : ∀ id d, Announced s id d → Announced ((Continuation.getContext n).onOk s p c).1 id d :=
        fun id d ha => ha.mono (fun e i hi => (hx e).trans hi) fun _ hc => hc
      refine ⟨fun id q d k' hq => hann id d (h.entry id q d k' hq), ?_, ?_, ?_⟩
      · exact fun id q d k' res hi => hann id d (h.acked id q d k' res
          (by simpa [Continuation.onOk, State.answer, State.modifyContext, State.log] using hi))
      · exact fun q d hq => (h.cached q d hq).mono fun _ he =>
          List.mem_cons_of_mem _ (List.mem_cons_of_mem _ he)
      · exact ⟨⟨p, n, s.history, rfl, rfl⟩, h.cached p c hl, h.handed⟩
  | close c =>
      exact h.frame (fun _ _ _ _ hl => hl) (fun _ _ hl => hl)
        (fun d i hi => (identAt_modify s c d (f := fun x => { x with closed := true }) fun _ =>
          rfl).trans hi) (fun _ hc => hc) ⟨[], by simp, rfl⟩
  | user =>
      exact h.frame (fun _ _ _ _ hl => hl) (fun _ _ hl => hl) (fun _ _ hi => hi) (fun _ hc => hc)
        ⟨[], by simp, rfl⟩
  | read c => exact (s.readContext_calm c).scripted h (by simp [readContext_commands])
  | wait =>
      exact h.frame (fun _ _ _ _ hl => hl) (fun _ _ hl => hl) (fun _ _ hi => hi) (fun _ hc => hc)
        ⟨[], by simp, rfl⟩
  | aside _ hb => exact hb.calm.scripted h (by simp [hb.toBeside.commands])

theorem Scripted.parts (h : Scripted s) (hp : Parts noLinks s t) : Scripted t :=
  Parts.invariant (fun _ _ h ha => Scripted.act h ha)
    (fun _ _ h hb => hb.calm.scripted h (by simp [hb.commands])) hp h

theorem Scripted.settle (h : Scripted s) (hs : Settles s t) : Scripted t := by
  cases hs with
  | stay => exact h
  | erase id rest =>
      refine h.frame (fun id' p c k hl => ?_) (fun _ _ hl => hl) (fun _ _ hi => hi) (fun _ hc => hc)
        ⟨[], by simp, rfl⟩
      have hl : AList.lookup id' (AList.erase id s.pending) = some (.addScript p c k) := hl
      rw [StdMap.lookup_erase_eq_ite] at hl
      split at hl
      · cases hl
      · exact hl
  | escape id rest =>
      exact h.frame (fun _ _ _ _ hl => hl) (fun _ _ hl => hl) (fun _ _ hi => hi) (fun _ hc => hc)
        ⟨[_], by simp [Event.ofScript], rfl⟩

theorem Scripted.log (h : Scripted s) {e : Event} (he : e.ofScript = false) : Scripted (s.log e) :=
  h.frame (fun _ _ _ _ hl => hl) (fun _ _ hl => hl) (fun _ _ hi => hi) (fun _ hc => hc)
    ⟨[e], by simpa using he, rfl⟩

theorem Scripted.calling (h : Scripted s) {id : ℤ} {r : PendingRequest} (reply : Reply)
    (hr : s.pending.lookup id = some r) : Scripted (s.calling id r reply) := by
  refine ⟨h.entry, ?_, fun p c hl => (h.cached p c hl).mono fun _ he => List.mem_cons_of_mem _ he,
    trivial, h.handed⟩
  intro id' p c k result hi
  rcases List.mem_cons.mp hi with hi | hi
  · cases hi
    exact h.entry id p c k hr
  · exact h.acked id' p c k result hi

theorem removeContext_contexts_le {p q : Str} {c : ℕ} (h : (s.removeContext p).contexts.lookup q = some c) :
    s.contexts.lookup q = some c := by
  rw [removeContext_lookup] at h
  split at h
  · cases h
  · exact h

theorem Touches.commands {r : PendingRequest} {reply : Reply} (h : Touches r reply s t) :
    t.commands = s.commands := by
  rw [State.commands, State.commands, h.keeps.pendingCommands,
    show t.ws = s.ws from congrArg Line.ws h.keeps.line]

theorem Scripted.touch (h : Scripted s) {id : ℤ} {r : PendingRequest} {reply : Reply}
    (hi : .invoked id r reply ∈ s.history) (ht : Touches r reply s t) : Scripted t := by
  have hp := ht.keeps.pending
  have hx := ht.identAt
  have hm := ht.commands
  have hann : ∀ id c, Announced s id c → Announced t id c := fun id c ha =>
    ha.mono (fun d i hi => (hx d).trans hi) fun cmd hc => hm ▸ hc
  obtain ⟨es, hes, hh⟩ := ht.keeps.history
  have hmem : ∀ e ∈ s.history, e ∈ t.history := ht.keeps.history_mem
  refine ⟨fun id p c k hl => hann id c (h.entry id p c k (hp ▸ hl)), ?_, ?_, ?_⟩
  · intro id p c k result he
    rw [hh] at he
    exact hann id c (h.acked id p c k result ((List.mem_append.mp he).resolve_left fun he => hes _ he))
  · intro q d hl
    cases ht with
    | plain => exact h.cached q d hl
    | cache p c k result =>
        have hl : (s.resetContext p c).contexts.lookup q = some d := hl
        rw [resetContext_lookup] at hl
        split at hl
        · cases hl
          subst q
          exact ⟨id, k, result, hmem _ hi⟩
        · exact (h.cached q d hl).mono hmem
    | reject => exact (h.cached q d hl).mono hmem
    | remove c call result =>
        have hl := removeContext_contexts_le hl
        rw [(s.readContext_calm c).contexts] at hl
        exact (h.cached q d hl).mono hmem
  · rw [hh]
    refine h.handed.append fun e he => afterScript_of ?_
    have := hes e he
    cases e <;> first | rfl | exact this.elim

/-- The new context is announced by the command sent for it. -/
theorem Scripted.scripted (h : Scripted s) {p : Str} {T S : ValidStr} (k : Continuation) :
    Scripted ((s.script p T S k).enable S) := by
  refine Scripted.send ?_ _ _ _ rfl
  set u : State := { s with heap := s.heap ++ [{ platform := p, targetId := T, sessionId := S }] } with hu
  have hold : ∀ c i, s.identAt c = some i → u.identAt c = some i := by
    intro c i hi
    obtain ⟨x, hx, -⟩ := Option.map_eq_some_iff.mp hi
    rw [← hi]
    exact congrArg _ (List.getElem?_append_left (List.getElem?_eq_some_iff.mp hx).1)
  have hsent := sendCommand_mono u (str "Page.addScriptToEvaluateOnNewDocument")
    (.object [(str "source", .str State.stealth)]) (.addScript p s.heap.length k) S
  have hcalm := u.sendCommand_calm (str "Page.addScriptToEvaluateOnNewDocument")
    (.object [(str "source", .str State.stealth)]) (.addScript p s.heap.length k) S
  have hx : ∀ c, (s.script p T S k).identAt c = u.identAt c := fun c =>
    congrArg (fun heap : List CdpBrowserContext => heap[c]?.map _) hcalm.heap
  have hann : ∀ id c, Announced s id c → Announced (s.script p T S k) id c := fun id c ha =>
    ha.mono (fun d i hi => (hx d).trans (hold d i hi)) fun cmd hc => hsent cmd hc
  obtain ⟨es, hes, hh⟩ := hcalm.history
  have hes : ∀ e ∈ es ++ [.issued s.cmdId (.addScript p s.heap.length k)], e.ofScript = false := by
    intro e he
    rcases List.mem_append.mp he with he | he
    · exact (hes e he).not_ofScript
    · rw [List.mem_singleton.mp he]
      rfl
  have hh : (s.script p T S k).history =
      (es ++ [.issued s.cmdId (.addScript p s.heap.length k)]) ++ s.history := by
    rw [List.append_assoc]
    exact hh
  refine ⟨?_, ?_, ?_, ?_⟩
  · intro id q c k' hl
    unfold State.script at hl
    rw [hcalm.pending, issue_lookup] at hl
    split at hl
    · rename_i hid
      cases hl
      refine ⟨p, T, S, ?_, ?_⟩
      · rw [hx]
        simp [State.identAt, hu]
      · rw [hid]
        exact sendCommand_mem (State.stealth_dumpable _ S)
    · exact hann id c (h.entry id q c k' hl)
  · intro id q c k' result hi
    rw [hh] at hi
    refine hann id c (h.acked id q c k' result ((List.mem_append.mp hi).resolve_left fun hi => ?_))
    cases hes _ hi
  · intro q c hl
    unfold State.script at hl
    rw [hcalm.contexts] at hl
    rw [hh]
    exact (h.cached q c hl).mono fun _ he => List.mem_append_right _ he
  · rw [hh]
    exact h.handed.append fun e he => afterScript_of (hes e he)

/-- The Open handler hands over what waits, and forgets it only then. -/
theorem opening_commands (s : State) (conn : ℕ) (h : s.pendingCommands.all Command.dumpable = true) :
    ∀ cmd ∈ s.commands, cmd ∈ (s.opening conn).emptied.commands := by
  intro cmd hc
  have htake : s.pendingCommands.takeWhile Command.dumpable = s.pendingCommands := by
    rw [List.takeWhile_eq_self_iff]
    simpa using h
  rcases List.mem_append.mp hc with hc | hc
  · simp only [State.commands, State.emptied, State.opening, State.flushed, State.log, List.map_append,
      List.append_nil]
    exact List.mem_append_right _ hc
  · simp only [State.commands, State.emptied, State.opening, State.flushed, State.log, List.map_append,
      List.append_nil, htake]
    refine List.mem_append_left _ (List.mem_map.mpr ⟨⟨s.ws.conns, s.ws.phase == .open, cmd⟩, ?_, rfl⟩)
    exact List.mem_reverse.mpr (List.mem_map.mpr ⟨cmd, hc, rfl⟩)

theorem Scripted.session_step {l : Label} (h : Scripted s) (ho : OneSession s) (hl : l.isStop = false)
    (ht : s.Turns l t) : Scripted t := by
  have hsame : ∀ {v : State}, v.pending = s.pending → v.contexts = s.contexts → v.heap = s.heap →
      v.commands = s.commands → (∃ es, (∀ e ∈ es, Event.ofScript e = false) ∧ v.history = es ++ s.history) →
        Scripted v := by
    intro v hp hc hx hm hh
    refine h.frame (by simp [hp]) (by simp [hc]) (fun c i hi => ?_) (by simp [hm]) hh
    rw [← hi]
    exact congrArg (fun heap : List CdpBrowserContext => heap[c]?.map _) hx
  cases ht with
  | startAgain => exact h
  | start hst =>
      have hnone := (ho.unstarted hst).noContext
      have hno : ∀ id c, ¬ Announced s id c := by
        rintro id c ⟨p, T, S, hi, -⟩
        rw [hnone] at hi
        cases hi
      refine ⟨fun id p c k hl => (hno id c (h.entry id p c k hl)).elim, ?_, ?_, trivial, h.handed⟩
      · intro id p c k result hi
        exact (hno id c (h.acked id p c k result (by simpa using hi))).elim
      · exact fun p c hl => (h.cached p c hl).mono fun _ he => List.mem_cons_of_mem _ he
  | stop => cases hl
  | openTask conn batch hst =>
      have hpop : Scripted { s with stack := [.draining batch] } :=
        hsame rfl rfl rfl rfl ⟨[], by simp, rfl⟩
      rw [State.onOpen_eq]
      split
      · rename_i hall
        refine Scripted.send ?_ _ _ _ rfl
        refine hpop.frame (fun _ _ _ _ hl => hl) (fun _ _ hl => hl) (fun _ _ hi => hi) ?_ ⟨[.ready conn], ?_, rfl⟩
        · exact opening_commands _ conn hall
        · simp [Event.ofScript]
      · refine hpop.frame (fun _ _ _ _ hl => hl) (fun _ _ hl => hl) (fun _ _ hi => hi) ?_ ⟨[.ready conn], ?_, rfl⟩
        · intro cmd hc
          simp only [State.commands, State.opening, State.flushed, State.log, List.map_append,
            List.append_assoc] at hc ⊢
          exact List.mem_append_right _ hc
        · simp [Event.ofScript]
  | _ =>
      first
        | exact hsame rfl rfl rfl rfl ⟨[], by simp, rfl⟩
        | exact hsame rfl rfl rfl rfl ⟨[_], by simp [Event.ofScript], rfl⟩

theorem Scripted.message (h : Scripted s) (msg : Parsed) : Scripted (s.onWsMessage (some msg)) := by
  have hlog : Scripted (s.log (.handling msg)) := h.log rfl
  rcases onWsMessage_links s msg with hm | ⟨id, r, result, hid, hr, hreply, hlink⟩ |
    ⟨id, r, reply, u, v, -, hr, -, -, hu, hv, hvt⟩
  · exact hlog.parts hm
  · set u := (s.log (.handling msg)).calling id r (.ok result) with hu
    have hc : Scripted u := hlog.calling _ hr
    rw [State.onWsMessage_response hid hr hreply]
    cases r with
    | createTarget p k =>
        rw [State.invoke_createTarget]
        split
        · exact hc.settle (State.finish_settles (u, .raise))
        · exact (hc.send _ _ _ rfl).settle (State.finish_settles (State.attach _ p _ k, .done))
    | attachToTarget p T k =>
        rw [State.invoke_attachToTarget]
        split
        · exact hc.settle (State.finish_settles (u, .raise))
        · exact (hc.scripted k).settle (State.finish_settles (State.enable _ _, .done))
    | _ => cases hlink
  · have hc : Scripted ((s.log (.handling msg)).calling id r reply) := hlog.calling _ hr
    exact ((hc.touch List.mem_cons_self hu).parts hv.parts).settle hvt

theorem Scripted.step {l : Label} (h : Scripted s) (ho : OneSession s) (hl : l.isStop = false)
    (ht : s.step l = some t) : Scripted t := by
  cases hses : s.ofSession l with
  | true => exact h.session_step ho hl (State.step_session ht ho.shape hses)
  | false =>
      have hpop : ∀ st, Scripted { s with stack := st } := fun st =>
        h.frame (fun _ _ _ _ hl => hl) (fun _ _ hl => hl) (fun _ _ hi => hi) (fun _ hc => hc)
          ⟨[], by simp, rfl⟩
      rcases State.step_parts (ρ := noLinks) ht ho.shape hses (fun _ => trivial) (fun _ => trivial)
        (fun _ cmd r _ _ _ hlk _ => hlk.resolve_right Bool.false_ne_true) (fun _ _ _ _ => trivial)
        (fun _ _ _ _ => ⟨fun _ _ => trivial, fun _ cmd r _ _ _ hlk _ => hlk.resolve_right Bool.false_ne_true⟩)
        (fun _ _ => trivial) with
        hp | ⟨-, rest, -, rfl⟩ | ⟨-, rest, -, rfl⟩ | ⟨rfl, conn, msg, batch, -, rfl⟩
      · exact h.parts hp
      · exact (hpop rest).settle (State.resume_settles _)
      · exact (hpop rest).settle (State.unwind_settles _)
      · exact (hpop _).message msg

/-- Platforms do not get in each other's way. -/
structure Isolated (s : State) : Prop where
  /-- The target and the session of a cached context were answered to the commands of its platform. -/
  own : ∀ p c, s.contexts.lookup p = some c → ∃ T S, s.identAt c = some (p, T, S) ∧
    TargetAnswered s.history p T ∧ SessionAnswered s.history p T S
  distinct : ∀ p q c d, s.contexts.lookup p = some c → s.contexts.lookup q = some d → p ≠ q →
    c ≠ d ∧ s.targetOf c ≠ s.targetOf d ∧ s.sessionOf c ≠ s.sessionOf d
  through : ∀ l t c, s.step l = some t → s.via l = some c → ThroughContext s t c
  afterScript : History.Always AfterScript s.history
  announced : ∀ id p c k result, .invoked id (.addScript p c k) (.ok result) ∈ s.history →
    Announced s id c

theorem ident_eq {c : ℕ} {p : Str} {T S : ValidStr} (h : s.identAt c = some (p, T, S)) :
    s.platformAt c = some p ∧ s.targetOf c = T ∧ s.sessionOf c = S := by
  obtain ⟨x, hx, heq⟩ := Option.map_eq_some_iff.mp h
  cases heq
  simp [State.platformAt, State.targetOf, State.sessionOf, hx]

theorem ident_of_platformAt {c : ℕ} {p : Str} (h : s.platformAt c = some p) :
    ∃ T S, s.identAt c = some (p, T, S) := by
  obtain ⟨x, hx, rfl⟩ := Option.map_eq_some_iff.mp h
  exact ⟨x.targetId, x.sessionId, by simp [State.identAt, hx]⟩

theorem Isolated.of (ho : Owned s) (hc : Chains s) (hs : Scripted s) : Isolated s where
  own p c hl := by
    obtain ⟨T, S, hi⟩ := ident_of_platformAt (ho.cached p c hl)
    exact ⟨T, S, hi, hc.target c p T S hi, hc.session c p T S hi⟩
  distinct p q c d hp hq hne := by
    obtain ⟨T, S, hi⟩ := ident_of_platformAt (ho.cached p c hp)
    obtain ⟨T', S', hj⟩ := ident_of_platformAt (ho.cached q d hq)
    have hcd : c ≠ d := by
      rintro rfl
      exact hne (Option.some.inj ((ident_eq hi).1.symm.trans (ident_eq hj).1))
    obtain ⟨-, rfl, rfl⟩ := ident_eq hi
    obtain ⟨-, rfl, rfl⟩ := ident_eq hj
    refine ⟨hcd, fun hT => hcd ?_, fun hS => hcd ?_⟩
    · exact hc.target_inj c d p q _ _ _ hi (hT ▸ hj)
    · exact hc.session_inj c d p q _ _ _ hi (hS ▸ hj)
  through _ _ _ ht hv := step_through ht hv
  afterScript := hs.handed
  announced := hs.acked

/-- In every run of a first session in which Chrome never repeats the id of a target or a session,
each platform has the target and the session of its own chain, its commands carry its session,
and it is passed on only after the script was acknowledged there. -/
theorem platforms_are_isolated {ls : List Label} (hr : Transition.run State.step init ls = some s)
    (hstop : ∀ l ∈ ls, l.isStop = false) (hfresh : Transition.Along State.step State.Fresh init ls) :
    Isolated s := by
  have h0 : Scripted init := by
    refine ⟨?_, ?_, ?_, trivial⟩ <;> simp [init]
  have h := Transition.run_invariant_along
    (I := fun s => OneSession s ∧ Owned s ∧ Chains s ∧ Scripted s)
    (C := fun s l => l.isStop = false ∧ s.Fresh l)
    (fun s l t h hC ht => ⟨h.1.step hC.1 ht, h.2.1.step h.1.shape ht,
      h.2.2.1.step h.1.shape hC.2 ht, h.2.2.2.step h.1 hC.1 ht⟩)
    ⟨.init, .init, .init, h0⟩ ((Transition.along_of_forall hstop init).and hfresh) hr
  exact .of h.2.1 h.2.2.1 h.2.2.2

/-- Two chains at once, whose responses arrive in another order. -/
def twoPlatforms : List Label :=
  connect ++ [.getContext (str "xhs"), .getContext (str "zhihu")] ++
    arrive (okMessage 2 (targetResult ⟨str "T2", Eq.refl true⟩)) ++ [.next] ++
    arrive (okMessage 1 (targetResult ⟨str "T1", Eq.refl true⟩)) ++ [.next] ++
    arrive (okMessage 4 (sessionResult ⟨str "S1", Eq.refl true⟩)) ++ [.next] ++
    arrive (okMessage 3 (sessionResult ⟨str "S2", Eq.refl true⟩)) ++ [.next] ++
    arrive (okMessage 7 .null) ++ [.ret, .next] ++ arrive (okMessage 5 .null) ++ [.ret, .next]

theorem platforms_are_isolated_sample : ∃ s,
    Transition.run State.step init twoPlatforms = some s ∧
    s.contexts.lookup (str "xhs") = some 0 ∧ s.contexts.lookup (str "zhihu") = some 1 ∧
    Isolated s := by
  have h : (Transition.run State.step init twoPlatforms).any (fun s =>
      s.contexts.lookup (str "xhs") = some 0 ∧ s.contexts.lookup (str "zhihu") = some 1) = true := by
    decide +kernel
  obtain ⟨s, hs, h⟩ := Option.any_eq_true _ _ |>.mp h
  simp only [decide_eq_true_eq] at h
  exact ⟨s, hs, h.1, h.2, platforms_are_isolated hs (by decide) (by decide +kernel)⟩

end LynneSocial.Browser
