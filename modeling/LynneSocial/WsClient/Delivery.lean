import LynneSocial.Lib.History
import LynneSocial.WsClient.IxWsClient

/-!
# Delivery

An event of the socket waits in the post queue without a trace of the connection
it came from, and is dispatched through `on_message_` and `on_error_` as they are
then. It reaches the callbacks of its own connection if the calls of `connect()`
and `disconnect()` leave no event behind. A `disconnect()` leaves behind what
waits when it returns, which includes what the socket still posted while it
waited for the thread.
-/
namespace LynneSocial.WsClient

/-- The connection an event came from. -/
def Task.conn? : Task → Option ℕ
  | error conn _ | message conn _ _ => some conn
  | user => none

def Frame.batch : Frame → List Task
  | draining batch => batch
  | _ => []

namespace State

/-- Everything that waits for the loop. -/
def waiting (s : State) : List Task := s.scheduler.postQueue ++ s.stack.flatMap Frame.batch

/-- The callback that would be called for a task now. -/
def target (s : State) : Task → Option ℕ
  | .error _ _ => s.onError
  | .message _ _ _ => s.onMessage
  | .user => none

/-- `disconnect()` is about to return once the thread is joined. -/
def disconnects (s : State) : Bool :=
  match s.stack with
  | .disconnecting :: _ => true
  | _ => false

end State

/-- An event of a connection is delivered to the callbacks passed with it, and not after a
`disconnect()` of it. -/
def OwnEvent : Event → List Event → Prop
  | .delivered conn callback, past => callback = conn ∧ .disconnected conn ∉ past
  | _, _ => True

/-- The function of the new connection that a task would reach. -/
def Task.reaches (onMessage onError : Bool) : Task → Bool
  | error _ _ => onError
  | message _ _ _ => onMessage
  | user => false

/-- Nothing of the connection waits for a callback. -/
def Quiet (s : State) : Prop := ∀ task ∈ s.waiting, task.conn? = some s.ws.conn → s.target task = none

/-- Nothing waits that a new connection or the return of a `disconnect()` would misdirect, and events
arrive only on the connection whose callbacks are set, messages also not after its `disconnect()`. -/
def LeavesNothing (s : State) : Label → Prop
  | .connect _ _ onMessage onError => ∀ task ∈ s.waiting, task.reaches onMessage onError = false
  | .disconnect => s.readyState = .closed → Quiet s
  | .joined => s.disconnects = true → Quiet s
  | .received _ _ =>
    s.onMessage = none ∨ s.onMessage = some s.ws.conn ∧ .disconnected s.ws.conn ∉ s.history
  | .failed _ => s.onError = none ∨ s.onError = some s.ws.conn
  | _ => True

instance (s : State) : Decidable (Quiet s) := inferInstanceAs (Decidable (∀ _ ∈ _, _))

instance (s : State) : ∀ l, Decidable (LeavesNothing s l)
  | .connect _ _ _ _ => inferInstanceAs (Decidable (∀ _ ∈ _, _))
  | .disconnect | .joined => inferInstanceAs (Decidable (_ → _))
  | .received _ _ | .failed _ => inferInstanceAs (Decidable (_ ∨ _))
  | .start | .stop | .ret | .wake | .swap | .next | .stopReturn | .opened | .closed | .post =>
    .isTrue trivial

structure Directed (s : State) : Prop where
  waiting : ∀ task ∈ s.waiting, ∀ conn, task.conn? = some conn →
    ∀ k, s.target task = some k → k = conn ∧ .disconnected conn ∉ s.history
  live : s.ws.phase ≠ .closed → .disconnected s.ws.conn ∉ s.history
  closed : s.readyState = .closed → s.ws.phase = .closed
  conn_le : s.ws.conn ≤ s.connects.length
  disconnected_le : ∀ conn, .disconnected conn ∈ s.history → conn ≤ s.connects.length
  own : History.Always OwnEvent s.history

variable {s t : State}

/-- Steps that neither touch the connection nor add an event. -/
theorem Directed.frame (h : Directed s) (hw : t.ws = s.ws) (hr : t.readyState = s.readyState)
    (hm : t.onMessage = s.onMessage) (he : t.onError = s.onError) (hc : t.connects = s.connects)
    (hh : t.history = s.history)
    (hwait : ∀ task ∈ t.waiting, ∀ conn, task.conn? = some conn → task ∈ s.waiting) :
    Directed t := by
  have htarget : ∀ task, t.target task = s.target task := by
    intro task
    cases task <;> simp [State.target, hm, he]
  refine ⟨?_, ?_, ?_, ?_, ?_, ?_⟩
  · intro task htask conn hconn k hk
    rw [htarget] at hk
    rw [hh]
    exact h.waiting task (hwait task htask conn hconn) conn hconn k hk
  · rw [hw, hh]
    exact h.live
  · rw [hw, hr]
    exact h.closed
  · rw [hw, hc]
    exact h.conn_le
  · rw [hh, hc]
    exact h.disconnected_le
  · rw [hh]
    exact h.own

/-- An event of the connection is posted. -/
theorem Directed.event (h : Directed s) (task : Task) (hconn : task.conn? = some s.ws.conn)
    (htarget : s.target task = none ∨
      s.target task = some s.ws.conn ∧ .disconnected s.ws.conn ∉ s.history) :
    Directed (s.post task) := by
  have hwait : ∀ x ∈ (s.post task).waiting, x ∈ s.waiting ∨ x = task := by
    intro x hx
    simp only [State.waiting, State.post, UvScheduler.post, UvScheduler.asyncSend_postQueue,
      UvScheduler.push_postQueue, List.append_assoc, List.mem_append, List.mem_singleton] at hx ⊢
    tauto
  refine ⟨?_, h.live, h.closed, h.conn_le, h.disconnected_le, h.own⟩
  intro x hx conn hx' k hk
  have hk : s.target x = some k := by cases x <;> exact hk
  rcases hwait x hx with hx | rfl
  · exact h.waiting x hx conn hx' k hk
  · obtain rfl : s.ws.conn = conn := Option.some.inj (hconn.symm.trans hx')
    have htarget : some k = none ∨ some k = some s.ws.conn ∧ .disconnected s.ws.conn ∉ s.history :=
      hk ▸ htarget
    rcases htarget with hnone | ⟨hown, hnot⟩
    · cases hnone
    · exact ⟨Option.some.inj hown, hnot⟩

/-- The callbacks are replaced and nothing waiting reaches the new ones. -/
theorem Directed.connect (h : Directed s) {url : Str} {headers : StdMap Str Str} {m e : Bool}
    (hnone : ∀ task ∈ s.waiting, task.reaches m e = false) :
    Directed (s.connect url headers m e) := by
  refine ⟨?_, ?_, ?_, ?_, ?_, h.own⟩
  · intro task htask conn _ k hk
    have htask := hnone task htask
    cases task <;> simp_all [State.target, State.connect, Task.reaches]
  · intro hp hmem
    cases hj : s.ws.joinable with
    | true =>
        refine h.live ?_ (by simpa [State.connect, WebSocket.start, hj] using hmem)
        simpa [State.connect, WebSocket.start, hj] using hp
    | false =>
        have := h.disconnected_le (s.connects.length + 1)
          (by simpa [State.connect, WebSocket.start, hj] using hmem)
        omega
  · simp [State.connect]
  · have := h.conn_le
    cases hj : s.ws.joinable with
    | true =>
        simp only [State.connect, WebSocket.start, hj, if_true, List.length_cons]
        omega
    | false => simp [State.connect, WebSocket.start, hj]
  · intro conn hconn
    have := h.disconnected_le conn hconn
    simp only [State.connect, List.length_cons]
    omega

/-- A `disconnect()` returns, and nothing of the connection waits for a callback. -/
theorem Directed.disconnected (h : Directed s) (hquiet : Quiet s) (hw : t.ws.conn = s.ws.conn)
    (hphase : t.ws.phase = .closed) (hm : t.onMessage = s.onMessage) (he : t.onError = s.onError)
    (hc : t.connects = s.connects) (hh : t.history = .disconnected s.ws.conn :: s.history)
    (hwait : ∀ task ∈ t.waiting, task ∈ s.waiting) : Directed t := by
  refine ⟨?_, fun hp => absurd hphase hp, fun _ => hphase, ?_, ?_, ?_⟩
  · intro task htask conn hconn k hk
    have hk : s.target task = some k := by
      rw [← hk]
      cases task <;> simp [State.target, hm, he]
    obtain ⟨hkc, hnot⟩ := h.waiting task (hwait task htask) conn hconn k hk
    refine ⟨hkc, ?_⟩
    rw [hh, List.mem_cons, Event.disconnected.injEq, not_or]
    refine ⟨?_, hnot⟩
    rintro rfl
    rw [hquiet task (hwait task htask) hconn] at hk
    cases hk
  · rw [hw, hc]
    exact h.conn_le
  · intro conn hmem
    rw [hh, List.mem_cons, Event.disconnected.injEq] at hmem
    rw [hc]
    rcases hmem with rfl | hmem
    · exact h.conn_le
    · exact h.disconnected_le conn hmem
  · rw [hh, History.always_cons]
    exact ⟨trivial, h.own⟩

theorem Directed.deliver (h : Directed s) (task : Task) {conn : ℕ}
    (hk : ∀ k, s.target task = some k → k = conn ∧ .disconnected conn ∉ s.history) :
    Directed (s.deliver conn (s.target task)) := by
  cases hc : s.target task with
  | none => exact h
  | some k =>
      refine ⟨?_, ?_, h.closed, h.conn_le, ?_, ?_, h.own⟩
      · intro x hx conn' hx' k' hk'
        have hx : x ∈ s.waiting := by simpa [State.waiting, State.deliver, Frame.batch] using hx
        have hk' : s.target x = some k' := by cases x <;> exact hk'
        simpa [State.deliver] using h.waiting x hx conn' hx' k' hk'
      · simpa [State.deliver] using h.live
      · simpa [State.deliver] using h.disconnected_le
      · exact hk k hc

theorem Directed.step {l : Label} (h : Directed s) (hl : LeavesNothing s l)
    (ht : s.step l = some t) : Directed t := by
  cases State.step_does ht with
  | start =>
      unfold State.start
      split
      · exact h
      · refine h.frame rfl rfl rfl rfl rfl rfl fun task htask _ _ => ?_
        have : s.scheduler.start.postQueue = s.scheduler.postQueue := by
          unfold UvScheduler.start
          split <;> rfl
        simpa [State.waiting, this] using htask
  | stop =>
      unfold State.stop
      split
      · refine h.frame rfl rfl rfl rfl rfl rfl fun task htask _ _ => ?_
        simpa [State.waiting, Frame.batch] using htask
      · exact h
  | stopScheduler rest hst =>
      refine ⟨?_, fun hp => absurd rfl hp, fun _ => rfl, h.conn_le, h.disconnected_le, h.own⟩
      have hqueue : s.scheduler.stop.postQueue = s.scheduler.postQueue := by
        unfold UvScheduler.stop
        split <;> rfl
      intro x hx conn hx' k hk
      have hx : x ∈ s.waiting := by
        simpa [State.waiting, State.stopScheduler, hqueue, hst, Frame.batch] using hx
      exact h.waiting x hx conn hx' k (by cases x <;> exact hk)
  | connect url headers m e => exact h.connect hl
  | disconnect =>
      unfold State.disconnect
      split
      · rename_i hclosed
        exact h.disconnected (hl hclosed) rfl (h.closed hclosed) rfl rfl rfl rfl fun _ htask => htask
      · refine h.frame rfl rfl rfl rfl rfl rfl fun task htask _ _ => ?_
        simpa [State.waiting, Frame.batch] using htask
  | disconnected rest hst =>
      refine h.disconnected (hl (by rw [State.disconnects, hst])) rfl rfl rfl rfl rfl rfl fun task htask => ?_
      simpa [State.waiting, State.disconnected, hst, Frame.batch] using htask
  | received data binary hp => exact h.event (.message s.ws.conn data binary) rfl hl
  | failed reason hp =>
      have hlive : .disconnected s.ws.conn ∉ s.history := h.live (by simp [hp])
      have hev := h.event (.error s.ws.conn reason) rfl (hl.imp_right fun hown => ⟨hown, hlive⟩)
      exact ⟨hev.waiting, fun hc => absurd rfl hc, fun _ => rfl, h.conn_le, h.disconnected_le, h.own⟩
  | opened hp => exact ⟨h.waiting, fun _ => h.live (by simp [hp]), by simp, h.conn_le, h.disconnected_le, h.own⟩
  | closed hp => exact ⟨h.waiting, fun hc => absurd rfl hc, fun _ => rfl, h.conn_le, h.disconnected_le, h.own⟩
  | post =>
      refine h.frame rfl rfl rfl rfl rfl rfl fun task htask conn hconn => ?_
      simp only [State.waiting, State.post, UvScheduler.post, UvScheduler.asyncSend_postQueue,
        UvScheduler.push_postQueue, List.append_assoc, List.mem_append, List.mem_singleton] at htask ⊢
      rcases htask with htask | rfl | htask
      · exact .inl htask
      · simp [Task.conn?] at hconn
      · exact .inr htask
  | wake hst | ret rest hst | stopReturn rest hst | swap rest hst | drained rest hst =>
      refine h.frame rfl rfl rfl rfl rfl rfl fun task htask _ _ => ?_
      simpa [State.waiting, hst, Frame.batch] using htask
  | task task batch rest hst =>
      have hmem : task ∈ s.waiting := by simp [State.waiting, hst, Frame.batch]
      have hs : Directed { s with stack := .draining batch :: rest } := by
        refine h.frame rfl rfl rfl rfl rfl rfl fun x hx _ _ => ?_
        simp only [State.waiting, hst, Frame.batch, List.flatMap_cons, List.mem_append,
          List.mem_cons] at hx ⊢
        tauto
      cases task with
      | error conn reason => exact hs.deliver (.error conn reason) (h.waiting _ hmem conn rfl)
      | message conn data binary => exact hs.deliver (.message conn data binary) (h.waiting _ hmem conn rfl)
      | user =>
          refine hs.frame rfl rfl rfl rfl rfl rfl fun x hx _ _ => ?_
          simpa [State.waiting, State.runTask, Frame.batch] using hx

/-- If no `connect()` and no `disconnect()` that returns finds an event waiting that it would misdirect,
and events arrive where the callbacks are, every event is delivered to the callbacks of its own connection
and none after its `disconnect()`. -/
theorem events_own_connection {ls : List Label} (hr : Transition.run State.step init ls = some s)
    (h : Transition.Along State.step LeavesNothing init ls) : History.Always OwnEvent s.history := by
  have h0 : Directed init := by
    refine ⟨?_, fun hp => absurd rfl hp, fun _ => rfl, le_refl _, ?_, trivial⟩
    · simp [State.waiting, init]
    · simp [init]
  exact (Transition.run_invariant_along (fun _ _ _ h hl ht => h.step hl ht) h0 h hr).own

/-- The first connection delivers a message before it is taken down, and the second one does. -/
theorem events_own_connection_two : ∃ s, Transition.run State.step init
    [.start, .connect (str "ws://a") ∅ true true, .opened, .received (str "1") false, .wake, .swap,
      .next, .ret, .next, .disconnect, .joined, .connect (str "ws://b") ∅ true true, .opened,
      .received (str "2") false, .wake, .swap, .next] = some s ∧
    History.Always OwnEvent s.history := by
  have h : (Transition.run State.step init [.start, .connect (str "ws://a") ∅ true true, .opened,
      .received (str "1") false, .wake, .swap, .next, .ret, .next, .disconnect, .joined,
      .connect (str "ws://b") ∅ true true, .opened, .received (str "2") false, .wake, .swap,
      .next]).isSome = true := by decide +kernel
  obtain ⟨s, hs⟩ := Option.isSome_iff_exists.mp h
  exact ⟨s, hs, events_own_connection hs (by decide +kernel)⟩

/-- A message waits while the application reconnects: the callback of the second connection gets
it, after the `disconnect()` of the first one. -/
theorem reconnect_misdirects : ¬ ∀ (ls : List Label) (s : State),
    Transition.run State.step init ls = some s → History.Always OwnEvent s.history := by
  have h : (Transition.run State.step init [.start, .connect (str "ws://a") ∅ true true, .opened,
      .received (str "1") false, .disconnect, .joined, .connect (str "ws://b") ∅ true true, .wake, .swap,
      .next]).any (fun s => s.history.head? = some (.delivered 1 2)) = true := by decide +kernel
  obtain ⟨s, hs, h⟩ := Option.any_eq_true _ _ |>.mp h
  simp only [decide_eq_true_eq] at h
  intro hall
  obtain ⟨past, hpast⟩ := List.head?_eq_some_iff.mp h
  have := hall _ s hs
  rw [hpast, History.always_cons] at this
  cases this.1.1

end LynneSocial.WsClient
