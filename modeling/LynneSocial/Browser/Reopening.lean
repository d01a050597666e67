import LynneSocial.Browser.Completion

/-!
# Reopening a platform

`close()` sets `closed_` before its command is sent, and only the success
response takes the context out of the cache. In between, and for good when the
response is an error, the cache holds a context that refuses every operation.
-/
namespace LynneSocial.Browser

variable {s t u : State} {l : Label}

namespace State

/-- `click`, `type`, `scroll`, `hover` and `exists`, `press_key` and `close` go ahead: none calls
`on_error` at once. -/
def Operable (s : State) (c : ℕ) : Prop :=
  (∀ js, (s.act c js).2 ≠ .call) ∧ (∀ key, (s.pressKey c key).2 ≠ .call) ∧ (s.close c).2 ≠ .call

/-- The context that `get_context` passes to `on_ok` without asking Chrome. -/
def yields (s : State) (platform : Str) : Option ℕ :=
  if s.started then s.contexts.lookup platform else none

/-- The events of the step end a `close()` of the context in `on_error`. -/
def ClosesInError (s : State) (l : Label) (es : List Event) (c : ℕ) : Prop :=
  (∃ id call text, .invoked id (.closeTarget c call) (.error text) ∈ es) ∨
    l = .close c ∧ ∃ text, .answered (.operation s.calls) (.error text) ∈ es

/-- A context that `get_context` passes to `on_ok` is open, and so is the one it would pass on
behind a `close()` that ended in `on_error`. -/
structure GivesOpen (s : State) (l : Label) (t : State) : Prop where
  handed : ∀ es n c, t.history = es ++ s.history → .answered (.request n) (.context c) ∈ es →
    t.closedOf c = false ∧ t.Operable c
  failed : ∀ es c, t.history = es ++ s.history → s.ClosesInError l es c →
    ∀ d ∈ t.yields (t.platformOf c), t.closedOf d = false ∧ t.Operable d

/-- A response that neither hands over a context that was closed nor leaves one in the cache. -/
def SparesReply (s : State) : PendingRequest → Reply → Prop
  | .addScript _ c (.getContext _), .ok _ => s.closedOf c = false
  | .closeTarget c _, .error _ => ∀ d ∈ s.yields (s.platformOf c), s.closedOf d = false
  | _, _ => True

/-- The application does not ask for a platform whose cached context is closed, and no `close()`
ends in an error that leaves one in the cache. -/
def SparesClosed (s : State) : Label → Prop
  | .getContext platform => ∀ c ∈ s.yields platform, s.closedOf c = false
  | .close c => s.closedOf c = true → ∀ d ∈ s.yields (s.platformOf c), s.closedOf d = false
  | .next => ∀ msg ∈ s.incoming .next, ∀ id ∈ msg.id?, ∀ r ∈ s.pending.lookup id, ∀ reply ∈ msg.reply,
      s.SparesReply r reply
  | _ => True

instance (s : State) (r : PendingRequest) (reply : Reply) : Decidable (s.SparesReply r reply) := by
  unfold SparesReply
  split <;> infer_instance

instance (s : State) (l : Label) : Decidable (s.SparesClosed l) := by
  unfold SparesClosed
  split <;> infer_instance

theorem sendCommand_not_call (s : State) (method : Str) (params : Json) (r : PendingRequest) (sessionId : Str) :
    (s.sendCommand method params r sessionId).2 ≠ .call := by
  unfold sendCommand
  dsimp only
  split
  · split <;> simp
  · simp

theorem operable_iff {c : ℕ} : s.Operable c ↔ s.closedOf c = false := by
  cases hc : s.closedOf c with
  | true =>
      refine iff_of_false (fun h => h.2.2 ?_) nofun
      simp [close, hc, answer]
  | false =>
      refine iff_of_true ⟨fun js => ?_, fun key => ?_, ?_⟩ rfl
      · simp only [act, hc, Bool.false_eq_true, if_false]
        exact sendCommand_not_call _ _ _ _ _
      · simp only [pressKey, hc, Bool.false_eq_true, if_false]
        exact sendCommand_not_call _ _ _ _ _
      · simp only [close, hc, Bool.false_eq_true, if_false]
        exact sendCommand_not_call _ _ _ _ _

end State

/-- The application is given a context, or a `close()` ends in an error response. -/
def Event.Shows : Event → Prop
  | .answered (.request _) (.context _) => True
  | .invoked _ (.closeTarget _ _) (.error _) => True
  | _ => False

/-- Nothing of the kind happens. -/
def Hides (s t : State) : Prop := ∃ es, (∀ e ∈ es, ¬ Event.Shows e) ∧ t.history = es ++ s.history

namespace Hides

theorem refl (s : State) : Hides s s := ⟨[], nofun, rfl⟩

theorem trans (h : Hides s t) (k : Hides t u) : Hides s u := by
  obtain ⟨es, hes, hh⟩ := h
  obtain ⟨fs, hfs, hk⟩ := k
  refine ⟨fs ++ es, fun e he => ?_, by rw [hk, hh, List.append_assoc]⟩
  exact (List.mem_append.mp he).elim (hfs e) (hes e)

theorem same (h : t.history = s.history) : Hides s t := ⟨[], nofun, h⟩

theorem logs {e : Event} (he : ¬ e.Shows) (h : t.history = e :: s.history) : Hides s t :=
  ⟨[e], by simpa using he, h⟩

theorem calm (h : Calm s t) : Hides s t := by
  obtain ⟨es, hes, hh⟩ := h.history
  refine ⟨es, fun e he hs => ?_, hh⟩
  have hsilent := hes e he
  cases e <;> first | exact hsilent | exact hs

theorem keeps (h : Keeps s t) : Hides s t := by
  obtain ⟨es, hes, hh⟩ := h.history
  refine ⟨es, fun e he hs => ?_, hh⟩
  have hcache := hes e he
  cases e <;> first | exact hcache | exact hs

/-- No context is handed over. -/
def nothing : Rules where
  deliver _ _ := False

theorem send (s : State) (method : Str) (params : Json) (r : PendingRequest) (sessionId : Str) :
    Hides s (s.sendCommand method params r sessionId).1 :=
  (logs (t := s.issue r) id rfl).trans (calm (s.sendCommand_calm method params r sessionId))

theorem answer {c : Call} {a : Answer} (ha : ∀ x, a ≠ .context x) (s : State) : Hides s (s.answer c a).1 := by
  refine logs (e := .answered c a) (fun h => ?_) rfl
  cases c <;> cases a <;> first | exact h | exact ha _ rfl

theorem act (h : Act nothing s t) : Hides s t := by
  cases h with
  | enter kind => exact logs id rfl
  | send method params r sessionId => exact send s method params r sessionId
  | create platform targetId sid k method params sessionId =>
      exact (same (t := { s with heap := s.heap ++ [{ platform, targetId, sessionId := sid }] }) rfl).trans
        (send _ _ _ _ _)
  | answer c a _ ha => exact answer ha s
  | handOut => exact logs id rfl
  | deliver platform c n _ _ hc => exact hc.elim
  | read c => exact calm (s.readContext_calm c)
  | aside _ h => exact calm h.calm
  | _ => exact same rfl

theorem moves (h : Moves nothing s t) : Hides s t :=
  Moves.invariant (I := fun u => Hides s u) (fun _ _ hs h => hs.trans (act h)) (fun _ _ hs h => hs.trans (calm h)) h
    (refl s)

theorem settle (h : Settles s t) : Hides s t := by
  cases h with
  | stay => exact refl s
  | erase => exact same rfl
  | escape => exact logs id rfl

end Hides

/-- A response that shows. -/
def Exposing : PendingRequest → Reply → Prop
  | .addScript _ _ (.getContext _), .ok _ => True
  | .closeTarget _ _, .error _ => True
  | _, _ => False

/-- A cached context, the end of a chain, and a `close()` that is refused. -/
inductive Exposes (s : State) : Label → State → Prop
  | cached (p : Str) (c : ℕ) (h : s.yields p = some c) : Exposes s (.getContext p) (s.getContext p).1
  | chained (id : ℤ) (p : Str) (c n : ℕ) (result : Parsed) (u : State)
      (h : s.Answers id (.addScript p c (.getContext n)) (.ok result) u) :
      Exposes s .next (State.finish (u.invoke (.addScript p c (.getContext n)) (.ok result)))
  | refused (id : ℤ) (c call : ℕ) (text : Str) (u : State)
      (h : s.Answers id (.closeTarget c call) (.error text) u) :
      Exposes s .next (State.finish (u.invoke (.closeTarget c call) (.error text)))

/-- Nothing the step is about to do shows. -/
structure Covered (s : State) (l : Label) : Prop where
  cache : ∀ p, l = .getContext p → s.yields p = none
  reply : ∀ id r reply u, l = .next → s.Answers id r reply u → ¬ Exposing r reply

theorem Hides.message {msg : Parsed} (s : State) (h : ∀ id r reply, msg.id? = some id →
    s.pending.lookup id = some r → msg.reply = some reply → ¬ Exposing r reply) :
    Hides s (s.onWsMessage (some msg)) := by
  have hlog : Hides s (s.log (.handling msg)) := .logs id rfl
  rcases s.onWsMessage_cases (ρ := nothing) msg with ⟨hm, -⟩ | ⟨id, r, reply, hid, hr, hreply, heq⟩
  · exact hlog.trans (.moves hm.moves)
  · have hx := h id r reply hid hr hreply
    obtain ⟨u, hu, hv⟩ := ((s.log (.handling msg)).calling id r reply).invoke_cases (ρ := nothing) r reply
      (fun _ _ => trivial) (fun _ => trivial) (fun _ _ => trivial) (fun _ _ _ _ _ _ _ _ => trivial)
      (fun _ _ _ _ _ _ _ _ _ _ _ _ _ _ => trivial) fun p c k result hk hok hsends => by
        subst hk hok
        cases k with
        | getContext n => exact hx trivial
        | _ => cases hsends
    have hcall : Hides (s.log (.handling msg)) ((s.log (.handling msg)).calling id r reply) := by
      refine .logs (e := .invoked id r reply) (fun hs => hx ?_) rfl
      cases r <;> cases reply <;> first | exact hs | exact hs.elim
    rw [heq]
    exact hlog.trans (hcall.trans ((Hides.keeps hu.keeps).trans
      ((Hides.moves hv.moves).trans (.settle (State.finish_settles _)))))

theorem step_exposes (hsh : Shape s.stack) (ht : s.step l = some t) :
    Exposes s l t ∨ Covered s l ∧ Hides s t := by
  by_cases hcov : Covered s l
  · refine .inr ⟨hcov, ?_⟩
    have hhit : ∀ p c, l = .getContext p → s.hits p (.getContext s.calls) c → False := by
      rintro p c hl ⟨hst, hc, -⟩
      have hnone := hcov.cache p hl
      simp [State.yields, hst, hc] at hnone
    rcases State.step_cases (ρ := Hides.nothing) ht hsh (fun _ => trivial) (fun _ => trivial)
      (fun _ _ _ _ _ _ _ => trivial) hhit (fun _ _ => trivial) (fun _ _ => trivial) with
      ⟨u, hu, hut⟩ | ⟨-, -, hcalm⟩ | ⟨rfl, conn, msg, batch, hst, rfl⟩
    · exact (Hides.moves hu).trans (.settle hut)
    · exact (Hides.keeps (clearContexts_keeps s)).trans (.calm hcalm)
    · have hpop : Hides s { s with stack := [.draining batch] } := .same rfl
      refine hpop.trans (.message _ fun id r reply hid hr hreply => ?_)
      exact hcov.reply id r reply _ rfl ⟨conn, msg, batch, hst, hr, hid, hreply, rfl⟩
  · left
    have hcov : (∃ p, l = .getContext p ∧ s.yields p ≠ none) ∨
        ∃ id r reply u, l = .next ∧ s.Answers id r reply u ∧ Exposing r reply := by
      by_contra hno
      rw [not_or] at hno
      refine hcov ⟨fun p hl => ?_, fun id r reply u hl ha hx => hno.2 ⟨id, r, reply, u, hl, ha, hx⟩⟩
      by_contra hne
      exact hno.1 ⟨p, hl, hne⟩
    rcases hcov with ⟨p, rfl, hne⟩ | ⟨id, r, reply, u, rfl, ha, hx⟩
    · obtain ⟨c, hc⟩ := Option.ne_none_iff_exists'.mp hne
      simp only [State.step, Option.ite_none_right_eq_some, Option.some.injEq] at ht
      exact ht.2 ▸ .cached p c hc
    · obtain rfl := ha.result ht
      cases r with
      | addScript p c k =>
          cases k with
          | getContext n =>
              cases reply with
              | ok result => exact .chained id p c n result u ha
              | error text => exact hx.elim
          | _ => cases reply <;> exact hx.elim
      | closeTarget c call =>
          cases reply with
          | ok result => exact hx.elim
          | error text => exact .refused id c call text u ha
      | _ => cases reply <;> exact hx.elim

section Closed

theorem closedOf_modify {c d : ℕ} {f : CdpBrowserContext → CdpBrowserContext}
    (hf : ∀ x, (f x).closed = x.closed) : (s.modifyContext c f).closedOf d = s.closedOf d := by
  unfold State.closedOf State.modifyContext
  rw [map_getElem?_modify _ _ _ hf]

theorem resetContext_closedOf (p : Str) (c d : ℕ) : (s.resetContext p c).closedOf d = s.closedOf d := by
  unfold State.resetContext
  split
  · exact closedOf_modify fun _ => rfl
  · rfl

/-- The cache and the contexts are the same. -/
structure SameContexts (s t : State) : Prop where
  started : t.started = s.started
  contexts : t.contexts = s.contexts
  heap : t.heap = s.heap

theorem SameContexts.yields (h : SameContexts s t) (p : Str) : t.yields p = s.yields p := by
  rw [State.yields, h.started, h.contexts, State.yields]

theorem SameContexts.closedOf (h : SameContexts s t) (c : ℕ) : t.closedOf c = s.closedOf c := by
  rw [State.closedOf, h.heap, State.closedOf]

theorem SameContexts.platformOf (h : SameContexts s t) (c : ℕ) : t.platformOf c = s.platformOf c := by
  rw [State.platformOf, h.heap, State.platformOf]

theorem givesOpen_iff {E : List Event} (hh : t.history = E ++ s.history) : s.GivesOpen l t ↔
    (∀ n c, .answered (.request n) (.context c) ∈ E → t.closedOf c = false) ∧
    ∀ c, s.ClosesInError l E c → ∀ d ∈ t.yields (t.platformOf c), t.closedOf d = false := by
  have hes : ∀ {fs}, t.history = fs ++ s.history → fs = E :=
    fun h => List.append_cancel_right (h.symm.trans hh)
  constructor
  · exact fun h => ⟨fun n c hc => (h.handed E n c hh hc).1, fun c hc d hd => (h.failed E c hh hc d hd).1⟩
  · rintro ⟨hopen, herror⟩
    refine ⟨fun fs n c hf hc => ?_, fun fs c hf hc d hd => ?_⟩
    · have ho := hopen n c (hes hf ▸ hc)
      exact ⟨ho, State.operable_iff.mpr ho⟩
    · have ho := herror c (hes hf ▸ hc) d hd
      exact ⟨ho, State.operable_iff.mpr ho⟩

theorem spares_answers {id : ℤ} {r : PendingRequest} {reply : Reply} (h : s.Answers id r reply u) :
    s.SparesClosed .next ↔ s.SparesReply r reply := by
  obtain ⟨msg, hm, hid, hr, hreply⟩ := h.incoming
  constructor
  · exact fun hall => hall msg hm id hid r hr reply hreply
  · intro hs msg' hm' id' hid' r' hr' reply' hreply'
    obtain rfl := Option.some.inj (hm.symm.trans hm')
    obtain rfl := Option.some.inj (hid.symm.trans hid')
    obtain rfl := Option.some.inj (hr.symm.trans hr')
    obtain rfl := Option.some.inj (hreply.symm.trans hreply')
    exact hs

theorem deliver_closedOf (s : State) (p : Str) (c n d : ℕ) :
    ((Continuation.getContext n).onOk s p c).1.closedOf d = s.closedOf d :=
  closedOf_modify (s := s) (c := c) (f := fun x => { x with shared := true }) fun _ => rfl

/-- Where something shows it is what it should be exactly if the closed contexts are spared. -/
theorem Exposes.iff (h : Exposes s l t) : s.GivesOpen l t ↔ s.SparesClosed l := by
  cases h with
  | cached p c hc =>
      obtain ⟨hst, hl⟩ : s.started = true ∧ s.contexts.lookup p = some c := by
        simpa [State.yields] using hc
      have hget : s.getContext p =
          Continuation.onOk (.getContext s.calls) (s.enter .request) p c := by
        simp [State.getContext, State.doGetContext, State.enter, hst, hl]
      rw [hget, givesOpen_iff (E := [.answered (.request s.calls) (.context c),
        .handedOut p c (.getContext s.calls), .called (.request s.calls)]) rfl]
      have hsame : (s.enter .request).closedOf c = s.closedOf c := rfl
      simp [State.SparesClosed, State.ClosesInError, hc, deliver_closedOf, hsame]
  | chained id p c n result u ha =>
      obtain ⟨-, msg, hhist⟩ := ha.history
      have hsame : u.closedOf c = s.closedOf c := by
        obtain ⟨conn, msg, batch, -, -, -, -, rfl⟩ := ha
        rfl
      have hclosed : ((u.resetContext p c).log (.cached p c (.getContext n))).closedOf c = s.closedOf c :=
        (resetContext_closedOf p c c).trans hsame
      change s.GivesOpen .next
        ((Continuation.getContext n).onOk ((u.resetContext p c).log (.cached p c (.getContext n))) p c).1 ↔ _
      rw [spares_answers ha, givesOpen_iff (E := [.answered (.request n) (.context c),
        .handedOut p c (.getContext n), .cached p c (.getContext n),
        .invoked id (.addScript p c (.getContext n)) (.ok result), .handling msg])
        (congrArg (_ :: _ :: _ :: ·) ((resetContext_history u p c).trans hhist))]
      simp [State.SparesReply, State.ClosesInError, deliver_closedOf, hclosed]
  | refused id c call text u ha =>
      obtain ⟨-, msg, hhist⟩ := ha.history
      have hsame : SameContexts s (u.answer (.operation call) (.error text)).1 := by
        obtain ⟨conn, msg, batch, -, -, -, -, rfl⟩ := ha
        exact ⟨rfl, rfl, rfl⟩
      change s.GivesOpen .next (u.answer (.operation call) (.error text)).1 ↔ _
      rw [spares_answers ha, givesOpen_iff (E := [.answered (.operation call) (.error text),
        .invoked id (.closeTarget c call) (.error text), .handling msg]) (congrArg (_ :: ·) hhist)]
      simp [State.SparesReply, State.ClosesInError, hsame.closedOf, hsame.yields, hsame.platformOf]

/-- A call of `close()`. -/
theorem close_iff (c : ℕ) : s.GivesOpen (.close c) (s.close c).1 ↔ s.SparesClosed (.close c) := by
  cases hc : s.closedOf c with
  | true =>
      have heq : (s.close c).1 =
          ((s.enter .operation).answer (.operation s.calls) (.error (str "already closed"))).1 := by
        simp [State.close, hc]
      have hsame : SameContexts s (s.close c).1 := heq ▸ ⟨rfl, rfl, rfl⟩
      rw [givesOpen_iff (E := [.answered (.operation s.calls) (.error (str "already closed")),
        .called (.operation s.calls)]) (by rw [heq]; rfl)]
      simp [State.SparesClosed, State.ClosesInError, hc, hsame.closedOf, hsame.yields, hsame.platformOf]
  | false =>
      have hh : (s.close c).1.history = [.issued s.cmdId (.closeTarget c s.calls), .called (.operation s.calls)] ++
          s.history := by
        simp only [State.close, hc, Bool.false_eq_true, if_false]
        exact State.sendCommand_history _ _ _ _ _
      rw [givesOpen_iff hh]
      simp [State.SparesClosed, State.ClosesInError, hc]

theorem givesOpen_step_iff (hsh : Shape s.stack) (ht : s.step l = some t) : s.GivesOpen l t ↔ s.SparesClosed l := by
  rcases step_exposes hsh ht with hx | ⟨hcov, es, hes, hh⟩
  · exact hx.iff
  have hshown : ∀ n c, .answered (.request n) (.context c) ∉ es := fun n c hmem => hes _ hmem trivial
  have hfailed : ∀ id c call text, .invoked id (.closeTarget c call) (.error text) ∉ es :=
    fun id c call text hmem => hes _ hmem trivial
  have hgives : (∀ c, l ≠ .close c) → s.GivesOpen l t := fun hne => by
    refine (givesOpen_iff hh).mpr ⟨fun n c hmem => absurd hmem (hshown n c), ?_⟩
    rintro c (⟨id, call, text, hmem⟩ | ⟨hl, -⟩)
    · exact absurd hmem (hfailed id c call text)
    · exact absurd hl (hne c)
  cases l with
  | close c =>
      simp only [State.step, Option.ite_none_right_eq_some, Option.some.injEq] at ht
      exact ht.2 ▸ close_iff c
  | getContext p =>
      refine iff_of_true (hgives (by simp)) fun c hc => ?_
      rw [hcov.cache p rfl] at hc
      cases hc
  | next =>
      refine iff_of_true (hgives (by simp)) fun msg hm id hid r hr reply hreply => ?_
      obtain ⟨u, ha, -⟩ := answers_of_incoming ht hsh hm hid hr hreply
      have hcovered := hcov.reply id r reply u rfl ha
      unfold State.SparesReply
      split
      · exact absurd trivial hcovered
      · exact absurd trivial hcovered
      · trivial
  | _ => exact iff_of_true (hgives (by simp)) trivial

end Closed

/-- In every run, `get_context` gives open contexts only, also behind a `close()` that ended in
`on_error`, exactly if the closed contexts in the cache are spared. -/
theorem get_context_open_iff {ls : List Label} (hr : Transition.run State.step init ls = some s) :
    Transition.Along State.step (fun s l => ∀ t, s.step l = some t → s.GivesOpen l t) init ls ↔
      Transition.Along State.step State.SparesClosed init ls := by
  refine Transition.along_congr (I := fun s : State => Shape s.stack) (D := fun _ _ => True)
    (fun s l t hsh _ ht => State.step_shape hsh ht) (fun s l t hsh _ ht => ?_) (show Shape init.stack from trivial)
    (Transition.along_of_forall (C := fun _ => True) (fun _ _ => trivial) _) hr
  constructor
  · exact fun h => (givesOpen_step_iff hsh ht).mp (h t ht)
  · exact fun h u hu => (givesOpen_step_iff hsh hu).mpr h

/-- The platform is asked for again when its context is gone. -/
def closedThenReopened : List Label :=
  connect ++ [.getContext (str "xhs")] ++ answerChain 1 ++ [.close 0] ++ arrive (okMessage 5 .null) ++
    [.getContext (str "xhs"), .ret, .next] ++ answerChain 6

theorem get_context_open_sample : ∃ s, Transition.run State.step init closedThenReopened = some s ∧
    s.history.filterMap Event.handedOut? = [(str "xhs", 1), (str "xhs", 0)] ∧
    Transition.Along State.step (fun s l => ∀ t, s.step l = some t → s.GivesOpen l t) init closedThenReopened := by
  have h : (Transition.run State.step init closedThenReopened).any (fun s =>
      s.history.filterMap Event.handedOut? = [(str "xhs", 1), (str "xhs", 0)]) = true := by
    decide +kernel
  obtain ⟨s, hs, h⟩ := Option.any_eq_true _ _ |>.mp h
  exact ⟨s, hs, by simpa using h, (get_context_open_iff hs).mpr (by decide +kernel)⟩

/-- Chrome refuses to close the target. -/
def closeRefused : List Label :=
  connect ++ [.getContext (str "xhs")] ++ answerChain 1 ++ [.close 0] ++
    arrive (errorMessage 5 ⟨str "No target with given id found", rfl⟩) ++ [.ret, .next]

theorem refused_close_locks_platform : ¬ ∀ (ls : List Label) (s : State),
    Transition.run State.step init ls = some s →
    Transition.Along State.step (fun s l => ∀ t, s.step l = some t → s.GivesOpen l t) init ls := by
  have h : (Transition.run State.step init (closeRefused ++ [.getContext (str "xhs")])).isSome = true ∧
      (Transition.run State.step init closeRefused).any (fun s =>
        ¬ s.SparesClosed (.getContext (str "xhs"))) = true := by decide +kernel
  obtain ⟨⟨s, hs⟩, h⟩ := And.imp_left Option.isSome_iff_exists.mp h
  obtain ⟨u, hu, h⟩ := Option.any_eq_true _ _ |>.mp h
  intro hall
  have halong := ((Transition.along_append hu).mp (hall _ s hs)).2
  obtain ⟨v, hv, hsv⟩ := Transition.run_append.mp hs
  obtain rfl := Option.some.inj (hu.symm.trans hv)
  obtain ⟨t, ht, -⟩ := Transition.run_cons.mp hsv
  have hspares := (givesOpen_step_iff (State.run_shape hu) ht).mp (halong.1 t ht)
  simp [hspares] at h

end LynneSocial.Browser
