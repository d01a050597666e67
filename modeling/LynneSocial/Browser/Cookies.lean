import LynneSocial.Browser.Requests
import LynneSocial.Browser.Isolation

/-!
# Cookies

When `save_session` comes to its end, and what a call of `restore_session` that
has read these cookies sends and answers.
-/
namespace LynneSocial.Browser

variable {s t u : State}

def Event.saved? : Event → Option (Str × Parsed)
  | .saved platform cookies => some (platform, cookies)
  | _ => none

/-- The cookies whose saving was reported by `on_done`, the latest first. -/
def State.saves (s : State) : List (Str × Parsed) := s.history.filterMap Event.saved?

/-- The cookies in an answer to `Storage.getCookies`. -/
def PendingRequest.saved? : PendingRequest → Reply → Option (Str × Parsed)
  | getCookies platform _, .ok result =>
    (result.find? (str "cookies")).map fun cookies => (platform, cookies)
  | _, _ => none

/-- What a message hands to the callback of `save_session`. -/
def State.savedBy (s : State) (msg : Parsed) : Option (Str × Parsed) :=
  msg.id?.bind fun id => (s.pending.lookup id).bind fun r => msg.reply.bind r.saved?

def State.saving (s : State) (l : Label) : Option (Str × Parsed) := (s.incoming l).bind s.savedBy

namespace State

theorem saves_of {E : List Event} (hh : t.history = E ++ s.history)
    (hes : E.filterMap Event.saved? = []) : t.saves = s.saves := by
  rw [saves, hh, List.filterMap_append, hes, List.nil_append, saves]

theorem sendCommand_saves (s : State) (method : Str) (params : Json) (r : PendingRequest)
    (sessionId : Str) : (s.sendCommand method params r sessionId).1.saves = s.saves :=
  saves_of (E := [_]) (sendCommand_history s method params r sessionId) rfl

theorem onOk_saves (k : Continuation) (s : State) (p : Str) (c : ℕ) :
    (k.onOk s p c).1.saves = s.saves := by
  cases k with
  | getContext n => rfl
  | saveSession platform n => exact sendCommand_saves _ _ _ _ _
  | restoreSession cookies n => exact sendCommand_saves _ _ _ _ _

theorem doGetContext_saves (s : State) (p : Str) (k : Continuation) :
    (s.doGetContext p k).1.saves = s.saves := by
  unfold doGetContext
  split
  · rfl
  · split
    · exact onOk_saves k s p _
    · exact sendCommand_saves _ _ _ _ _

theorem resume_saves (s : State) : s.resume.saves = s.saves := by
  unfold resume
  split <;> rfl

theorem unwind_saves (s : State) : s.unwind.saves = s.saves := by
  unfold unwind
  split <;> rfl

theorem finish_saves (r : State × Ctl) : (finish r).saves = r.1.saves := by
  unfold finish
  split
  · exact resume_saves _
  · rfl
  · exact unwind_saves _

theorem readContext_saves (s : State) (c : ℕ) : (s.readContext c).saves = s.saves := by
  unfold readContext
  split
  · split <;> rfl
  · rfl

theorem check_saves (s : State) (w : ℕ) : (s.check w).1.saves = s.saves := by
  unfold check
  split
  · rfl
  · split
    · rfl
    · dsimp only
      split
      · exact readContext_saves s _
      · split
        · exact readContext_saves s _
        · exact (sendCommand_saves _ _ _ _ _).trans (readContext_saves s _)

theorem request_saves {l : Label} (hl : l.isRequest = true) (ht : s.step l = some t) :
    t.saves = s.saves := by
  cases l <;> simp only [Label.isRequest, Bool.false_eq_true] at hl <;>
    simp only [step, Option.ite_none_right_eq_some, Option.some.injEq] at ht <;>
    obtain ⟨-, rfl⟩ := ht
  case restoreSession p content =>
    unfold restoreSession
    split
    · rfl
    · split
      · rfl
      · exact doGetContext_saves _ _ _
  all_goals exact doGetContext_saves _ _ _

theorem operation_saves {l : Label} (hl : l.isOperation = true) (ht : s.step l = some t) :
    t.saves = s.saves := by
  cases l <;> simp only [Label.isOperation, Bool.false_eq_true] at hl <;>
    simp only [step, Option.ite_none_right_eq_some, Option.some.injEq] at ht <;>
    obtain ⟨-, rfl⟩ := ht
  case close c =>
    unfold close
    split
    · rfl
    · exact sendCommand_saves _ _ _ _ _
  case act c js =>
    unfold act
    split
    · rfl
    · exact sendCommand_saves _ _ _ _ _
  case pressKey c key =>
    unfold pressKey
    split
    · rfl
    · exact sendCommand_saves _ _ _ _ _
  case waitForSelector c selector timeoutMs =>
    unfold waitForSelector
    split <;> rfl
  all_goals exact sendCommand_saves _ _ _ _ _

theorem onOpen_saves (s : State) (conn : ℕ) : (s.onOpen conn).saves = s.saves := by
  rw [onOpen_eq]
  split
  · exact sendCommand_saves _ _ _ _ _
  · rfl

theorem session_saves {l : Label} (hl : s.ofSession l = true) (hsh : Shape s.stack)
    (ht : s.step l = some t) : t.saves = s.saves := by
  cases step_session ht hsh hl with
  | openTask conn batch h => exact onOpen_saves _ conn
  | _ => rfl

theorem onCdpEvent_saves (s : State) (msg : Parsed) : (s.onCdpEvent msg).saves = s.saves := by
  unfold onCdpEvent
  split
  · dsimp only
    split <;> rfl
  · rfl

theorem removeContext_saves (s : State) (p : Str) : (s.removeContext p).saves = s.saves := by
  unfold removeContext
  split <;> rfl

theorem resetContext_saves (s : State) (p : Str) (c : ℕ) : (s.resetContext p c).saves = s.saves := by
  unfold resetContext
  split <;> rfl

/-- The callbacks of the entries save nothing, but for the one of `save_session`. -/
theorem invoke_saves (s : State) (r : PendingRequest) (reply : Reply) :
    (s.invoke r reply).1.saves = (r.saved? reply).toList ++ s.saves := by
  cases r with
  | command call => cases reply <;> rfl
  | ignored => rfl
  | setCookies call => cases reply <;> rfl
  | createTarget p k =>
      cases reply with
      | error text => rfl
      | ok result =>
          rw [invoke_createTarget]
          split
          · rfl
          · exact sendCommand_saves _ _ _ _ _
  | attachToTarget p T k =>
      cases reply with
      | error text => rfl
      | ok result =>
          rw [invoke_attachToTarget]
          split
          · rfl
          · exact (sendCommand_saves _ _ _ _ _).trans (sendCommand_saves _ _ _ _ _)
  | addScript p c k =>
      cases reply with
      | error text => rfl
      | ok result => exact (onOk_saves k _ p c).trans (resetContext_saves s p c)
  | getCookies p n =>
      cases reply with
      | error text => rfl
      | ok result =>
          unfold invoke PendingRequest.saved?
          dsimp only
          split
          · rename_i h
            rw [h]
            rfl
          · rename_i cookies h
            rw [h]
            rfl
  | closeTarget c call =>
      cases reply with
      | error text => rfl
      | ok result => exact (removeContext_saves _ _).trans (readContext_saves s c)
  | keyDown c key call =>
      cases reply with
      | error text => rfl
      | ok result => exact (sendCommand_saves _ _ _ _ _).trans (readContext_saves s c)
  | poll w =>
      cases reply with
      | error text => exact check_saves s w
      | ok result =>
          unfold invoke
          dsimp only
          split
          · split
            · rfl
            · split
              · rfl
              · exact check_saves s w
              · rfl
          · rfl

theorem onWsMessage_saves (s : State) (msg : Parsed) :
    (s.onWsMessage (some msg)).saves = (s.savedBy msg).toList ++ s.saves := by
  by_cases hc : msg.json.contains (str "id") = true
  · have heq : s.onWsMessage (some msg) = (s.log (.handling msg)).onResponse msg := by
      simp only [onWsMessage, hc, if_true]
    rw [heq]
    rcases (s.log (.handling msg)).onResponse_cases msg with ⟨h, hnone⟩ | ⟨id, r, reply, hid, hr, hreply, h⟩
    · have hby : s.savedBy msg = none := by
        cases hid : msg.id? with
        | none => simp [savedBy, hid]
        | some id =>
            cases hr : s.pending.lookup id with
            | none => simp [savedBy, hid, hr]
            | some r => simp [savedBy, hnone id r hid hr]
      rw [h, hby]
      rfl
    · have hr : s.pending.lookup id = some r := hr
      have hby : s.savedBy msg = r.saved? reply := by
        simp [savedBy, hid, hr, hreply]
      rw [h, finish_saves, invoke_saves, hby]
      rfl
  · have heq : s.onWsMessage (some msg) = (s.log (.handling msg)).onCdpEvent msg := by
      simp only [onWsMessage, hc, if_false, Bool.false_eq_true]
    have hid : msg.id? = none := by
      cases h : msg.id? with
      | none => rfl
      | some id => exact absurd (contains_of_id h) hc
    rw [heq, onCdpEvent_saves, savedBy, hid]
    rfl

theorem next_saves (ht : s.step .next = some t) : t.saves = (s.saving .next).toList ++ s.saves := by
  rcases step_next ht with ⟨rest, h, rfl⟩ | ⟨task, batch, rest, h, rfl⟩
  · simp only [saving, incoming, h]
    rfl
  cases task with
  | «open» conn =>
      simp only [saving, incoming, h]
      exact onOpen_saves _ conn
  | message conn data =>
      cases data with
      | none =>
          simp only [saving, incoming, h]
          rfl
      | some msg =>
          simp only [saving, incoming, h]
          exact onWsMessage_saves _ msg
  | check w =>
      simp only [saving, incoming, h]
      exact check_saves _ w
  | user =>
      simp only [saving, incoming, h]
      rfl

/-- A step saves what it hands to the callback of `save_session`, and nothing else. -/
theorem step_saves {l : Label} (ht : s.step l = some t) (hsh : Shape s.stack) :
    t.saves = (s.saving l).toList ++ s.saves := by
  by_cases hl : l = .next
  · subst hl
    exact next_saves ht
  have hnone : s.saving l = none := by
    unfold saving incoming
    cases l <;> first | rfl | exact absurd rfl hl
  rw [hnone]
  change t.saves = s.saves
  by_cases hses : s.ofSession l = true
  · exact session_saves hses hsh ht
  by_cases hreq : l.isRequest = true
  · exact request_saves hreq ht
  by_cases hop : l.isOperation = true
  · exact operation_saves hop ht
  cases l <;> simp only [Label.isRequest, Label.isOperation, ofSession, not_true_eq_false] at hreq hop hses <;>
    simp only [step] at ht
  case next => exact absurd rfl hl
  case ret =>
    split at ht <;> cases ht
    exact resume_saves _
  case throw =>
    split at ht <;> cases ht
    exact unwind_saves _
  case healthCheck =>
    split at ht <;> cases ht
    unfold healthCheck
    split
    · rfl
    · split
      · rfl
      · split <;> rfl
  case wake =>
    split at ht
    · split at ht <;> cases ht
      rfl
    · cases ht
  case fire i =>
    split at ht <;> cases ht
    unfold fire
    dsimp only
    split <;> rfl
  case post => cases ht; rfl
  case tick => cases ht; rfl
  all_goals
    split at ht <;> cases ht
    rfl

end State

/-- What a step added to the history. -/
def State.since (s t : State) : List Event := t.history.take (t.history.length - s.history.length)

theorem since_of {es : List Event} (h : t.history = es ++ s.history) : s.since t = es := by
  simp [State.since, h]

/-- Call `n` sets these cookies: through the context it is given it sends them, it sends no others,
and when Chrome acknowledges them it reports success. It never reports that there are none. -/
structure SetsCookies (n : ℕ) (cookies : Parsed) (s t : State) : Prop where
  sends : ∀ p c k, .handedOut p c k ∈ s.since t → k.call = n →
    .issued s.cmdId (.setCookies n) ∈ s.since t ∧
      ⟨s.cmdId, str "Storage.setCookies", .object [(str "cookies", cookies.json)], t.sessionOf c⟩ ∈
        t.commands
  exact : ∀ id, .issued id (.setCookies n) ∈ s.since t → ∃ sessionId,
    ⟨id, str "Storage.setCookies", .object [(str "cookies", cookies.json)], sessionId⟩ ∈ t.commands
  acks : ∀ id result, .invoked id (.setCookies n) (.ok result) ∈ s.since t →
    .answered (.request n) (.restored true) ∈ s.since t
  finds : .answered (.request n) (.restored false) ∉ s.since t

/-- The events the fields above are about. -/
def Event.OfCookies (n : ℕ) : Event → Prop
  | .handedOut _ _ k => k.call = n
  | .issued _ r => r = .setCookies n
  | .invoked _ r reply => r = .setCookies n ∧ ∃ result, reply = .ok result
  | .answered call a => call = .request n ∧ a = .restored false
  | _ => False

theorem Event.OfCookies.ofCall {n : ℕ} {e : Event} (h : e.OfCookies n) : e.OfCall n := by
  cases e <;> simp_all [Event.OfCookies, Event.OfCall, PendingRequest.caller]

variable {n : ℕ} {cookies : Parsed}

theorem SetsCookies.of_history {E : List Event} (hh : t.history = E ++ s.history)
    (hes : ∀ e ∈ E, ¬ Event.OfCookies n e) : SetsCookies n cookies s t := by
  have hs : s.since t = E := since_of hh
  refine ⟨fun p c k hp hk => ?_, fun id hi => ?_, fun id result hi => ?_, fun hi => ?_⟩ <;> rw [hs] at *
  · exact absurd hk (hes _ hp)
  · exact absurd rfl (hes _ hi)
  · exact absurd ⟨rfl, result, rfl⟩ (hes _ hi)
  · exact hes _ hi ⟨rfl, rfl⟩

theorem SetsCookies.apart (h : Apart n s t) : SetsCookies n cookies s t := by
  obtain ⟨es, hes, hh⟩ := h.history
  exact .of_history hh fun e he hc => hes e he hc.ofCall

/-- The continuation is given a context. -/
theorem SetsCookies.onOk {E : List Event} {k : Continuation} (hk : k = .restoreSession cookies n)
    (p : Str) (c : ℕ) (hid : u.cmdId = s.cmdId) (hh : u.history = E ++ s.history)
    (hes : ∀ e ∈ E, ¬ Event.OfCookies n e) : SetsCookies n cookies s (k.onOk u p c).1 := by
  subst hk
  have hhist : ((Continuation.restoreSession cookies n).onOk u p c).1.history =
      (.issued s.cmdId (.setCookies n) :: .handedOut p c (.restoreSession cookies n) :: E) ++ s.history := by
    rw [← hid, List.cons_append, List.cons_append, ← hh]
    exact State.sendCommand_history _ _ _ _ _
  have hcmd : Command.mk s.cmdId (str "Storage.setCookies") (.object [(str "cookies", cookies.json)])
      (u.sessionOf c) ∈ ((Continuation.restoreSession cookies n).onOk u p c).1.commands := by
    rw [← hid]
    exact sendCommand_mem (s := u.log _) (Command.dumpable_of rfl (single_dumpable rfl cookies.valid)
      (u.sessionOf c).2)
  have hsession : ∀ d, ((Continuation.restoreSession cookies n).onOk u p c).1.sessionOf d = u.sessionOf d :=
    fun d => sessionOf_congr (sendCommand_heap _ _ _ _ _)
  have hs := since_of hhist
  refine ⟨fun p' c' k hp hk => ?_, fun id hi => ?_, fun id result hi => ?_, fun hi => ?_⟩ <;> rw [hs] at *
  · rcases List.mem_cons.mp hp with hp | hp
    · cases hp
    rcases List.mem_cons.mp hp with hp | hp
    · cases hp
      exact ⟨List.mem_cons_self, (hsession c).symm ▸ hcmd⟩
    · exact absurd hk (hes _ hp)
  · rcases List.mem_cons.mp hi with hi | hi
    · cases hi
      exact ⟨_, hcmd⟩
    rcases List.mem_cons.mp hi with hi | hi
    · cases hi
    · exact absurd rfl (hes _ hi)
  · simp only [List.mem_cons, reduceCtorEq, false_or] at hi
    exact absurd ⟨rfl, result, rfl⟩ (hes _ hi)
  · simp only [List.mem_cons, reduceCtorEq, false_or] at hi
    exact hes _ hi ⟨rfl, rfl⟩

theorem SetsCookies.congr {t' : State} (h : SetsCookies n cookies s t') (hh : t.history = t'.history)
    (hc : t.commands = t'.commands) (hheap : t.heap = t'.heap) : SetsCookies n cookies s t := by
  have hs : s.since t = s.since t' := by rw [State.since, State.since, hh]
  refine ⟨fun p c k hp hk => ?_, fun id hi => ?_, fun id result hi => ?_, ?_⟩ <;> rw [hs] at *
  · rw [hc, sessionOf_congr hheap]
    exact h.sends p c k hp hk
  · rw [hc]
    exact h.exact id hi
  · exact h.acks id result hi
  · exact h.finds

theorem SetsCookies.proceeds {k : Continuation} {id : ℤ} {r : PendingRequest} {reply : Reply}
    {rest : List Frame} (hk : k = .restoreSession cookies n) (ha : s.Answers id r reply u)
    (hp : Proceeds k id rest u r reply t) : SetsCookies n cookies s t := by
  obtain ⟨hid, msg, hh⟩ := ha.history
  have hadd : ∀ es, t.history = es ++ u.history →
      t.history = (es ++ [.invoked id r reply, .handling msg]) ++ s.history := by
    intro es h
    rw [h, hh, List.append_assoc]
  cases hp with
  | attach p T =>
      refine .of_history (hadd [_] (State.sendCommand_history _ _ _ _ _)) ?_
      simp [Event.OfCookies]
  | script p T S =>
      exact .of_history (hadd _ (State.script_enable_history u p T S k)) (by simp [Event.OfCookies])
  | deliver p c result hs =>
      subst hk
      cases hs
  | ask p c result =>
      have hcache : ((u.resetContext p c).log (.cached p c k)).history =
          [.cached p c k, .invoked id (.addScript p c k) (.ok result), .handling msg] ++ s.history := by
        simp [State.log, resetContext_history, hh]
      have hon := SetsCookies.onOk (s := s) (u := (u.resetContext p c).log (.cached p c k)) hk p c
        ((resetContext_cmdId u p c).trans hid) hcache (by simp [Event.OfCookies])
      exact hon.congr rfl rfl rfl
  | reject p c text => exact .of_history (hadd [_] rfl) (by simp [Event.OfCookies])
  | saved p m result => exact .of_history (hadd [_, _] rfl) (by simp [Event.OfCookies])
  | restored m result =>
      have hs := since_of (hadd [_] rfl)
      refine ⟨fun p c k hp hk => ?_, fun id hi => ?_, fun id result hi => ?_, ?_⟩ <;> rw [hs] at *
      · simp at hp
      · simp at hi
      · simp only [List.cons_append, List.nil_append, List.mem_cons, reduceCtorEq, Event.invoked.injEq,
          PendingRequest.setCookies.injEq, List.not_mem_nil, or_false, false_or] at hi
        simp [hi.2.1]
      · simp
  | refuse r text => exact .of_history (hadd [_] rfl) (by simp [Event.OfCookies])
  | escape r result hr =>
      have hr := hr.2 n
      exact .of_history (hadd [_] rfl) (by simp [Event.OfCookies, hr])

theorem SetsCookies.step {l : Label} (h : Bound (.restoreSession cookies n) s)
    (ht : s.step l = some t) (hsh : Shape s.stack) (hn : l.isRequest = true → n ≠ s.calls) :
    SetsCookies n cookies s t := by
  rcases h.step_cases ht hsh hn with hap | ⟨id, r, reply, u, batch, -, ha, -, -, hp⟩
  · exact .apart hap
  · exact .proceeds rfl ha hp

theorem SetsCookies.doGetContext (m : State) (p : Str) : SetsCookies m.calls cookies m
    ((m.enter .request).doGetContext p (.restoreSession cookies m.calls)).1 := by
  unfold State.doGetContext
  split
  · refine .of_history (E := [.answered (.request m.calls) (.error (str "not started")),
      .called (.request m.calls)]) rfl ?_
    simp [Event.OfCookies]
  · split
    · rename_i c _
      exact .onOk (u := m.enter .request) (E := [_]) rfl p c rfl rfl (by simp [Event.OfCookies])
    · refine .of_history (E := [.issued m.cmdId (.createTarget p (.restoreSession cookies m.calls)),
        .called (.request m.calls)]) (State.sendCommand_history _ _ _ _ _) ?_
      simp [Event.OfCookies]

/-- A call of `restore_session` that reads this content sets these cookies, in whatever state the
manager is and however the run goes on. -/
structure Restores (platform : Str) (content : Option Parsed) (cookies : Parsed) : Prop where
  asks : ∀ m : State, m.restoreSession platform content =
    (m.enter .request).doGetContext platform (.restoreSession cookies m.calls)
  sets : ∀ ks m t, Transition.run State.step init ks = some m →
    m.step (.restoreSession platform content) = some t →
    SetsCookies m.calls cookies m t ∧ ∀ ls u l v, Transition.run State.step t ls = some u →
      u.step l = some v → SetsCookies m.calls cookies u v

theorem restoreSession_eq {platform : Str} {content : Option Parsed}
    (h : content.bind (·.find? (str "cookies")) = some cookies) (m : State) :
    m.restoreSession platform content =
      (m.enter .request).doGetContext platform (.restoreSession cookies m.calls) := by
  obtain ⟨session, rfl, hs⟩ := Option.bind_eq_some_iff.mp h
  simp only [State.restoreSession, hs]

theorem Restores.of {platform : Str} {content : Option Parsed}
    (h : content.bind (·.find? (str "cookies")) = some cookies) :
    Restores platform content cookies := by
  refine ⟨restoreSession_eq h, fun ks m t hm ht => ?_⟩
  have hsh := State.step_shape (State.run_shape hm) ht
  have hknown := (run_known hm).step ht (State.run_shape hm)
  have hcalls := step_request_calls rfl ht
  simp only [State.step, Option.ite_none_right_eq_some, Option.some.injEq] at ht
  obtain ⟨-, rfl⟩ := ht
  rw [restoreSession_eq h] at hsh hknown hcalls ⊢
  have hbound : Bound (.restoreSession cookies m.calls) (m.enter .request) :=
    ((run_known hm).bound rfl).congr rfl
  refine ⟨.doGetContext m platform, fun ls u l v hu hv => ?_⟩
  obtain ⟨hb, hk, hs, hlt⟩ := Transition.run_invariant
    (I := fun u => Bound (.restoreSession cookies m.calls) u ∧ Known u ∧ Shape u.stack ∧ m.calls < u.calls)
    (fun u l v hu hv => ⟨hu.1.step hv hu.2.2.1 fun _ => hu.2.2.2.ne, hu.2.1.step hv hu.2.2.1,
      State.step_shape hu.2.2.1 hv, hu.2.2.2.trans_le (hu.2.1.calls_le hv hu.2.2.1)⟩)
    ⟨hbound.doGetContext platform, hknown, hsh, by omega⟩ hu
  exact .step hb hv hs fun _ => hlt.ne

theorem Parsed.eq_of_json {x y : Parsed} (h : x.json = y.json) : x = y := by
  cases x
  cases y
  cases h
  rfl

theorem restores_iff {platform : Str} {content : Option Parsed} :
    Restores platform content cookies ↔ content.bind (·.find? (str "cookies")) = some cookies := by
  refine ⟨fun h => ?_, .of⟩
  cases hc : content.bind (·.find? (str "cookies")) with
  | none =>
      have hfalse : (init.restoreSession platform content).1.history =
          [.answered (.request 0) (.restored false), .called (.request 0)] := by
        unfold State.restoreSession
        cases content with
        | none => rfl
        | some session =>
            have hs : session.find? (str "cookies") = none := hc
            simp only [hs]
            rfl
      rw [h.asks] at hfalse
      have hstopped : ((init.enter .request).doGetContext platform (.restoreSession cookies init.calls)).1.history =
          [.answered (.request 0) (.error (str "not started")), .called (.request 0)] := rfl
      rw [hstopped] at hfalse
      cases hfalse
  | some found =>
      let m : State := { started := true, contexts := AList.insert platform 0 ∅ }
      have hsent : ∀ x : Parsed, ((m.enter .request).doGetContext platform (.restoreSession x m.calls)).1.pendingCommands =
          [⟨0, str "Storage.setCookies", .object [(str "cookies", x.json)], m.sessionOf 0⟩] := by
        intro x
        have hl : (m.enter .request).contexts.lookup platform = some 0 := AList.lookup_insert _
        simp only [State.doGetContext, hl]
        rfl
      have heq := congrArg (fun r : State × Ctl => r.1.pendingCommands)
        ((restoreSession_eq hc m).symm.trans (h.asks m))
      simp only [hsent, List.cons.injEq, Command.mk.injEq, and_true, true_and] at heq
      rw [Parsed.eq_of_json (x := found) (y := cookies) (by simpa [Json.object, Json.emplace] using heq)]

end LynneSocial.Browser
