import LynneSocial.Browser.Requests
import LynneSocial.Common.Find
import LynneSocial.Lib.OneShot

/-!
# Event listeners

`event_handlers_` holds one-shot registrations under strings put together from
the session id and the name of the event. A name without a colon can be read
back from such a string, so that the map is a table of one-shot registrations
for pairs. Handlers register and remove handlers while they run; the map has
been updated before a handler is called.
-/
namespace LynneSocial.Browser

/-- The handler whose call the event records. -/
def Event.handler : Event → Option ℕ
  | .fired _ h => some h
  | _ => none

/-- What an event message says: the session and the name of the event. -/
def Parsed.event (msg : Parsed) : Option (Str × Str) :=
  if msg.json.contains (str "id") then none
  else
    match msg.json.strAt (str "method"), msg.json.valueStr (str "sessionId") [] with
    | some method, some sessionId => some (sessionId, method)
    | _, _ => none

/-- `session_id + ":" + method`. -/
def listenerKey (k : Str × Str) : Str := k.1 ++ str ":" ++ k.2

abbrev ListenerOp := OneShot.Op (Str × Str) ℕ

namespace State

/-- The handlers called so far, the last one first. -/
def fired (s : State) : List ℕ := s.history.filterMap Event.handler

def listeners (s : State) : StdMap Str ℕ × List ℕ := (s.eventHandlers, s.fired)

/-- What a step has to do with the listeners. -/
def listenerOp (s : State) : Label → Option ListenerOp
  | .onEvent sessionId method => some (.on (sessionId, method) s.calls)
  | .removeEvent sessionId method => some (.off (sessionId, method))
  | .next =>
    match s.stack with
    | .draining (.message _ (some msg) :: _) :: _ => msg.event.map .event
    | _ => none
  | _ => none

section Functions
variable (s : State)

theorem listeners_log {e : Event} (he : e.handler = none) : (s.log e).listeners = s.listeners := by
  simp [listeners, fired, log, he]

@[simp] theorem listeners_readContext (c : ℕ) : (s.readContext c).listeners = s.listeners := by
  unfold readContext
  split
  · split
    · exact listeners_log s rfl
    · rfl
  · rfl

@[simp] theorem listeners_sendCommand (method : Str) (params : Json) (r : PendingRequest) (sessionId : Str) :
    (s.sendCommand method params r sessionId).1.listeners = s.listeners := by
  unfold sendCommand
  dsimp only
  split
  · split <;> rfl
  · rfl

@[simp] theorem listeners_onOk (k : Continuation) (platform : Str) (c : ℕ) :
    (k.onOk s platform c).1.listeners = s.listeners := by
  cases k with
  | getContext call => rfl
  | saveSession platform call => exact listeners_sendCommand _ _ _ _ _
  | restoreSession cookies call => exact listeners_sendCommand _ _ _ _ _

@[simp] theorem listeners_doGetContext (platform : Str) (k : Continuation) :
    (s.doGetContext platform k).1.listeners = s.listeners := by
  unfold doGetContext
  split
  · rfl
  · split <;> simp

@[simp] theorem listeners_removeContext (platform : Str) : (s.removeContext platform).listeners = s.listeners := by
  unfold removeContext
  split <;> rfl

@[simp] theorem listeners_resetContext (platform : Str) (c : ℕ) :
    (s.resetContext platform c).listeners = s.listeners := by
  unfold resetContext
  split <;> rfl

@[simp] theorem listeners_check (w : ℕ) : (s.check w).1.listeners = s.listeners := by
  unfold check
  split
  · rfl
  · rename_i x _
    split
    · rfl
    · dsimp only
      split
      · exact listeners_readContext s x.ctx
      · split
        · exact listeners_readContext s x.ctx
        · exact (listeners_sendCommand _ _ _ _ _).trans (listeners_readContext s x.ctx)

@[simp] theorem listeners_invoke (r : PendingRequest) (reply : Reply) :
    (s.invoke r reply).1.listeners = s.listeners := by
  cases reply with
  | error text =>
      cases r with
      | addScript platform c k => exact listeners_log _ rfl
      | poll w => exact listeners_check s w
      | _ => rfl
  | ok result =>
      cases r with
      | command call => rfl
      | ignored => rfl
      | setCookies call => rfl
      | createTarget platform k =>
          simp only [invoke]
          split
          · rfl
          · exact listeners_sendCommand _ _ _ _ _
      | attachToTarget platform targetId k =>
          simp only [invoke]
          split
          · rfl
          · rename_i sessionId _
            have hfirst := listeners_sendCommand
              { s with heap := s.heap ++ [{ platform, targetId, sessionId }] }
              (str "Page.addScriptToEvaluateOnNewDocument") (.object [(str "source", .str stealth)])
              (.addScript platform s.heap.length k) sessionId
            split
            · exact hfirst
            · exact (listeners_sendCommand _ _ _ _ _).trans hfirst
      | addScript platform c k =>
          exact (listeners_onOk _ _ _ _).trans ((listeners_log _ rfl).trans (listeners_resetContext s platform c))
      | getCookies platform call =>
          simp only [invoke]
          split
          · rfl
          · exact listeners_log _ rfl
      | closeTarget c call =>
          exact (listeners_removeContext _ _).trans (listeners_readContext s c)
      | keyDown c key call =>
          exact (listeners_sendCommand _ _ _ _ _).trans (listeners_readContext s c)
      | poll w =>
          simp only [invoke]
          split
          · split
            · rfl
            · split
              · rfl
              · exact listeners_check s w
              · rfl
          · rfl

@[simp] theorem listeners_resume : s.resume.listeners = s.listeners := by
  unfold resume
  split <;> rfl

@[simp] theorem listeners_unwind : s.unwind.listeners = s.listeners := by
  unfold unwind
  split <;> rfl

@[simp] theorem listeners_finish (r : State × Ctl) : (finish r).listeners = r.1.listeners := by
  unfold finish
  split <;> simp

theorem listeners_onResponse (msg : Parsed) : (s.onResponse msg).listeners = s.listeners := by
  rcases s.onResponse_cases msg with ⟨h, -⟩ | ⟨id, r, reply, -, -, -, h⟩
  · rw [h]
  · rw [h, listeners_finish, listeners_invoke]
    rfl

theorem listeners_onOpen (conn : ℕ) : (s.onOpen conn).listeners = s.listeners := by
  rw [onOpen_eq]
  split
  · exact (listeners_sendCommand _ _ _ _ _).trans rfl
  · rfl

theorem listeners_healthCheck : s.healthCheck.1.listeners = s.listeners := by
  unfold healthCheck
  split
  · rfl
  · split
    · rfl
    · split <;> rfl

theorem listeners_request (platform : Str) (k : Continuation) :
    ((s.enter .request).doGetContext platform k).1.listeners = s.listeners := listeners_doGetContext _ _ _

theorem listeners_operation (c : ℕ) (js : Str) (r : PendingRequest) :
    ((s.enter .operation).evaluate c js r).1.listeners = s.listeners := listeners_sendCommand _ _ _ _ _

theorem listeners_restoreSession (platform : Str) (content : Option Parsed) :
    (s.restoreSession platform content).1.listeners = s.listeners := by
  unfold restoreSession
  split
  · rfl
  · split
    · rfl
    · exact listeners_request s _ _

end Functions

/-- The map and the calls after an operation. -/
def listening (table : StdMap Str ℕ × List ℕ) : ListenerOp → StdMap Str ℕ × List ℕ
  | .on k h => (table.1.insert (listenerKey k) h, table.2)
  | .off k => (table.1.erase (listenerKey k), table.2)
  | .event k =>
    match table.1.lookup (listenerKey k) with
    | some h => (table.1.erase (listenerKey k), h :: table.2)
    | none => table

variable {s t : State} {l : Label}

theorem listeners_onCdpEvent (s : State) (msg : Parsed) (hid : msg.json.contains (str "id") = false) :
    (s.onCdpEvent msg).listeners = (msg.event.map OneShot.Op.event).elim s.listeners (listening s.listeners) := by
  unfold onCdpEvent Parsed.event
  rw [if_neg (by simp [hid])]
  cases msg.json.strAt (str "method") with
  | none => rfl
  | some method =>
      cases msg.json.valueStr (str "sessionId") [] with
      | none => rfl
      | some sessionId =>
          simp only [Option.map_some, Option.elim_some, listening]
          change _ = match s.eventHandlers.lookup (sessionId ++ str ":" ++ method) with
            | some h => _
            | none => _
          cases s.eventHandlers.lookup (sessionId ++ str ":" ++ method) with
          | none => rfl
          | some h => rfl

theorem listeners_onWsMessage (s : State) (msg : Parsed) : (s.onWsMessage (some msg)).listeners =
    (msg.event.map OneShot.Op.event).elim s.listeners (listening s.listeners) := by
  have hlog : (s.log (.handling msg)).listeners = s.listeners := listeners_log s rfl
  unfold onWsMessage
  dsimp only
  split
  · rename_i hid
    rw [listeners_onResponse, hlog, Parsed.event, if_pos hid]
    rfl
  · rename_i hid
    rw [listeners_onCdpEvent _ msg (by simpa using hid), hlog]

theorem step_listeners (ht : s.step l = some t) (hsh : Shape s.stack) :
    t.listeners = (s.listenerOp l).elim s.listeners (listening s.listeners) := by
  cases hs : s.ofSession l with
  | true =>
      cases step_session ht hsh hs with
      | openTask conn batch hst =>
          simp only [listenerOp, hst]
          exact listeners_onOpen _ conn
      | _ => rfl
  | false =>
      cases step_does ht hsh hs with
      | drained rest hst =>
          simp only [listenerOp, hst]
          rfl
      | userTask batch hst =>
          simp only [listenerOp, hst]
          rfl
      | check w batch hst =>
          simp only [listenerOp, hst]
          exact listeners_check _ w
      | message conn data batch hst =>
          cases data with
          | none =>
              simp only [listenerOp, hst]
              rfl
          | some msg =>
              simp only [listenerOp, hst]
              exact listeners_onWsMessage _ msg
      | ret => exact listeners_resume _
      | throw => exact listeners_unwind _
      | fire i c =>
          unfold fire
          dsimp only
          split <;> rfl
      | waitForSelector c selector timeoutMs =>
          unfold waitForSelector
          split <;> rfl
      | close c =>
          unfold close
          split
          · rfl
          · exact listeners_sendCommand _ _ _ _ _
      | act c js =>
          unfold act
          split
          · rfl
          · exact listeners_operation s c js _
      | pressKey c key =>
          unfold pressKey
          split
          · rfl
          · exact listeners_sendCommand _ _ _ _ _
      | sendCommand method params sessionId => exact listeners_sendCommand _ _ _ _ _
      | command c op => exact listeners_sendCommand _ _ _ _ _
      | getContext platform => exact listeners_request s _ _
      | saveSession platform => exact listeners_request s _ _
      | restoreSession platform content => exact listeners_restoreSession s _ _
      | healthCheck => exact listeners_healthCheck s
      | _ => rfl

end State

/-- The operation at a position of a run. -/
def opAt (ls : List Label) (n : ℕ) : Option ListenerOp :=
  match Transition.run State.step init (ls.take n), ls[n]? with
  | some u, some l => u.listenerOp l
  | _, _ => none

/-- The handlers that are called at a position of a run. -/
def calledAt (ls : List Label) (n : ℕ) : List ℕ :=
  match Transition.run State.step init (ls.take n), Transition.run State.step init (ls.take (n + 1)) with
  | some u, some v => v.fired.take (v.fired.length - u.fired.length)
  | _, _ => []

/-- The colon in front of a name without colons is the last one. -/
theorem listenerKey_inj {k k' : Str × Str} (hk : 58 ∉ k.2) (hk' : 58 ∉ k'.2)
    (h : listenerKey k = listenerKey k') : k = k' := by
  have hreverse : k.2.reverse ++ 58 :: k.1.reverse = k'.2.reverse ++ 58 :: k'.1.reverse := by
    have hr := congrArg List.reverse h
    have hstr : str ":" = [58] := rfl
    simpa [listenerKey, hstr] using hr
  obtain ⟨hname, hsession⟩ := split_unique (by simpa using hk) (by simpa using hk') hreverse
  exact Prod.ext (List.reverse_inj.mp hsession) (List.reverse_inj.mp hname)

/-- For names without a colon the map is the table of one-shot registrations. -/
def Tabulates (m : StdMap Str ℕ) (table : Str × Str → Option ℕ) : Prop :=
  ∀ k, 58 ∉ k.2 → m.lookup (listenerKey k) = table k

section Tabulates
variable {m : StdMap Str ℕ} {table : Str × Str → Option ℕ} {op : ListenerOp}

theorem Tabulates.listening (h : Tabulates m table) (hop : 58 ∉ op.key.2) (calls : List ℕ) :
    Tabulates (State.listening (m, calls) op).1 (op.apply table) := by
  have hkey : ∀ k, 58 ∉ k.2 → (listenerKey k = listenerKey op.key ↔ k = op.key) := fun k hk =>
    ⟨listenerKey_inj hk hop, congrArg listenerKey⟩
  intro k hk
  rw [OneShot.Op.apply, Function.update_apply]
  cases op with
  | on key handler =>
      change (AList.insert (listenerKey key) handler m).lookup (listenerKey k) = _
      rw [StdMap.lookup_insert_eq_ite]
      exact if_congr (hkey k hk) rfl (h k hk)
  | off key =>
      change (AList.erase (listenerKey key) m).lookup (listenerKey k) = _
      rw [StdMap.lookup_erase_eq_ite]
      exact if_congr (hkey k hk) rfl (h k hk)
  | event key =>
      simp only [State.listening]
      split
      · rw [StdMap.lookup_erase_eq_ite]
        exact if_congr (hkey k hk) rfl (h k hk)
      · rename_i hnone
        split
        · rename_i heq
          rw [heq]
          exact hnone
        · exact h k hk

/-- An operation calls what the table says. -/
theorem Tabulates.called (h : Tabulates m table) (hop : 58 ∉ op.key.2) (calls : List ℕ) :
    (State.listening (m, calls) op).2 =
      (match op with | .event k => table k | _ => none).toList ++ calls := by
  cases op with
  | on key handler => rfl
  | off key => rfl
  | event key =>
      simp only [State.listening]
      rw [h key hop]
      cases table key <;> rfl

end Tabulates

section Runs
variable {ls : List Label} {s : State}

theorem run_take (hr : Transition.run State.step init ls = some s) (n : ℕ) :
    ∃ u, Transition.run State.step init (ls.take n) = some u := by
  rw [← List.take_append_drop n ls] at hr
  obtain ⟨u, hu, -⟩ := Transition.run_append.mp hr
  exact ⟨u, hu⟩

/-- A position of a run is a step or lies behind its end. -/
theorem run_position (hr : Transition.run State.step init ls = some s) {n : ℕ} {u : State}
    (hu : Transition.run State.step init (ls.take n) = some u) :
    (∃ l v, ls[n]? = some l ∧ u.step l = some v ∧ Transition.run State.step init (ls.take (n + 1)) = some v) ∨
      ls[n]? = none ∧ Transition.run State.step init (ls.take (n + 1)) = some u := by
  cases hl : ls[n]? with
  | none =>
      refine .inr ⟨rfl, ?_⟩
      have hlen : ls.length ≤ n := by simpa using hl
      rw [List.take_of_length_le (by omega)]
      rwa [List.take_of_length_le hlen] at hu
  | some l =>
      obtain ⟨v, hv⟩ := run_take hr (n + 1)
      have htake : ls.take (n + 1) = ls.take n ++ [l] := by rw [List.take_add_one, hl, Option.toList_some]
      rw [htake] at hv ⊢
      obtain ⟨w, hw, hstep⟩ := Transition.run_append.mp hv
      obtain rfl := Option.some.inj (hu.symm.trans hw)
      obtain ⟨v', hv', hnil⟩ := Transition.run_cons.mp hstep
      obtain rfl := Option.some.inj hnil
      exact .inl ⟨l, v', rfl, hv', hv⟩

/-- What a step of the run does to the map and whom it calls. -/
theorem run_listening (hr : Transition.run State.step init ls = some s) {n : ℕ} {u : State}
    (hu : Transition.run State.step init (ls.take n) = some u) :
    ∃ v, Transition.run State.step init (ls.take (n + 1)) = some v ∧
      v.listeners = (opAt ls n).elim u.listeners (State.listening u.listeners) := by
  rcases run_position hr hu with ⟨l, v, hl, hstep, hv⟩ | ⟨hl, hv⟩
  · have hop : opAt ls n = u.listenerOp l := by simp [opAt, hu, hl]
    exact ⟨v, hv, hop ▸ State.step_listeners hstep (State.run_shape hu)⟩
  · have hop : opAt ls n = none := by simp [opAt, hu, hl]
    exact ⟨u, hv, by rw [hop]; rfl⟩

/-- The map is the table at every position of the run. -/
theorem run_tabulates (hr : Transition.run State.step init ls = some s)
    (hcolon : ∀ n, ∀ op ∈ opAt ls n, 58 ∉ op.key.2) (n : ℕ) :
    ∃ u, Transition.run State.step init (ls.take n) = some u ∧
      Tabulates u.eventHandlers (OneShot.table (opAt ls) n) := by
  induction n with
  | zero => exact ⟨init, rfl, fun k _ => rfl⟩
  | succ n ih =>
      obtain ⟨u, hu, hm⟩ := ih
      obtain ⟨v, hv, hlist⟩ := run_listening hr hu
      refine ⟨v, hv, ?_⟩
      cases hn : opAt ls n with
      | none =>
          rw [hn] at hlist
          rw [OneShot.table_idle hn, show v.eventHandlers = u.eventHandlers from congrArg Prod.fst hlist]
          exact hm
      | some op =>
          rw [hn] at hlist
          have htable : OneShot.table (opAt ls) (n + 1) = op.apply (OneShot.table (opAt ls) n) := by
            simp only [OneShot.table, hn]
          rw [htable, show v.eventHandlers = _ from congrArg Prod.fst hlist]
          exact hm.listening (hcolon n op hn) u.fired

/-- The run calls what the table says. -/
theorem run_calledAt (hr : Transition.run State.step init ls = some s)
    (hcolon : ∀ n, ∀ op ∈ opAt ls n, 58 ∉ op.key.2) (n : ℕ) :
    calledAt ls n = (OneShot.fires (opAt ls) n).toList := by
  obtain ⟨u, hu, hm⟩ := run_tabulates hr hcolon n
  obtain ⟨v, hv, hlist⟩ := run_listening hr hu
  have hfired : v.fired = (OneShot.fires (opAt ls) n).toList ++ u.fired := by
    unfold OneShot.fires
    cases hn : opAt ls n with
    | none =>
        rw [hn] at hlist
        exact congrArg Prod.snd hlist
    | some op =>
        rw [hn] at hlist
        have hcalled := hm.called (hcolon n op hn) u.fired
        refine (congrArg Prod.snd hlist).trans (hcalled.trans ?_)
        cases op <;> rfl
  simp [calledAt, hu, hv, hfired]

/-- A registration takes the number of the call. -/
theorem opAt_on (hr : Transition.run State.step init ls = some s) {j h : ℕ} {k : Str × Str}
    (hj : opAt ls j = some (.on k h)) : ∃ u v, Transition.run State.step init (ls.take j) = some u ∧
      Transition.run State.step init (ls.take (j + 1)) = some v ∧ h = u.calls ∧ v.calls = u.calls + 1 := by
  obtain ⟨u, hu⟩ := run_take hr j
  rcases run_position hr hu with ⟨l, v, hl, hstep, hv⟩ | ⟨hl, -⟩
  · have hop : u.listenerOp l = some (.on k h) := by simpa [opAt, hu, hl] using hj
    refine ⟨u, v, hu, hv, ?_⟩
    cases l with
    | onEvent sessionId method =>
        simp only [State.listenerOp, Option.some.injEq, OneShot.Op.on.injEq] at hop
        simp only [State.step, Option.ite_none_right_eq_some, Option.some.injEq] at hstep
        refine ⟨hop.2.symm, ?_⟩
        rw [← hstep.2]
        rfl
    | next =>
        simp only [State.listenerOp] at hop
        split at hop
        · obtain ⟨_, -, he⟩ := Option.map_eq_some_iff.mp hop
          cases he
        · cases hop
    | _ => simp [State.listenerOp] at hop
  · simp [opAt, hu, hl] at hj

theorem run_calls_le {as bs : List Label} {u v : State} (hu : Transition.run State.step init as = some u)
    (hv : Transition.run State.step u bs = some v) : u.calls ≤ v.calls := by
  have hknown : Shape u.stack ∧ Known u :=
    Transition.run_invariant (I := fun w => Shape w.stack ∧ Known w)
      (fun _ _ _ h ht => ⟨State.step_shape h.1 ht, h.2.step ht h.1⟩) ⟨by trivial, .init⟩ hu
  refine (Transition.run_invariant (I := fun w => (Shape w.stack ∧ Known w) ∧ u.calls ≤ w.calls) ?_
    ⟨hknown, le_rfl⟩ hv).2
  exact fun _ _ _ h ht => ⟨⟨State.step_shape h.1.1 ht, h.1.2.step ht h.1.1⟩, h.2.trans (h.1.2.calls_le ht h.1.1)⟩

/-- Every registration has a number of its own. -/
theorem opAt_fresh (hr : Transition.run State.step init ls = some s) : OneShot.Fresh (opAt ls) := by
  have hlt : ∀ {j j' h h' : ℕ} {k k' : Str × Str}, opAt ls j = some (.on k h) →
      opAt ls j' = some (.on k' h') → j < j' → h < h' := by
    intro j j' h h' k k' hj hj' hlt
    obtain ⟨u, v, -, hv, rfl, hcalls⟩ := opAt_on hr hj
    obtain ⟨u', -, hu', -, rfl, -⟩ := opAt_on hr hj'
    obtain ⟨d, rfl⟩ := Nat.exists_eq_add_of_lt hlt
    rw [Nat.add_right_comm, List.take_add] at hu'
    obtain ⟨w, hw, hrest⟩ := Transition.run_append.mp hu'
    obtain rfl := Option.some.inj (hv.symm.trans hw)
    have := run_calls_le hv hrest
    omega
  intro j j' k k' h hj hj'
  rcases Nat.lt_trichotomy j j' with h' | h' | h'
  · exact absurd (hlt hj hj' h') (Nat.lt_irrefl h)
  · exact h'
  · exact absurd (hlt hj' hj h') (Nat.lt_irrefl h)

/-- An event calls the handler that is registered for its session and name, once, and nothing else
ever calls one; a handler may register itself again while it runs. -/
theorem event_listeners_one_shot (hr : Transition.run State.step init ls = some s)
    (hcolon : ∀ n, ∀ op ∈ opAt ls n, 58 ∉ op.key.2) : OneShot.Delivers (opAt ls) (calledAt ls) := by
  have hcalled : calledAt ls = fun n => (OneShot.fires (opAt ls) n).toList :=
    funext (run_calledAt hr hcolon)
  rw [hcalled]
  exact OneShot.delivers (opAt_fresh hr)

/-- There is nothing behind the end. -/
theorem colonless (h : ∀ n < ls.length, ∀ op ∈ opAt ls n, 58 ∉ op.key.2) (n : ℕ) :
    ∀ op ∈ opAt ls n, 58 ∉ op.key.2 := by
  intro op hop
  refine h n ?_ op hop
  by_contra hn
  have hl : ls[n]? = none := by simpa using hn
  simp [opAt, hl] at hop

end Runs

def loadEvent : Parsed :=
  .object [(⟨str "method", Eq.refl true⟩, .text ⟨str "Page.loadEventFired", Eq.refl true⟩),
    (⟨str "sessionId", Eq.refl true⟩, .text ⟨str "S:1", Eq.refl true⟩)]

/-- The handler registers itself again while it runs. -/
def reloading : List Label :=
  connect ++ [.onEvent (str "S:1") (str "Page.loadEventFired")] ++ arrive loadEvent ++
    [.onEvent (str "S:1") (str "Page.loadEventFired"), .ret, .next] ++ arrive loadEvent

theorem event_listeners_one_shot_reloading : ∃ s, Transition.run State.step init reloading = some s ∧
    s.fired = [1, 0] ∧ OneShot.Delivers (opAt reloading) (calledAt reloading) := by
  have h : (Transition.run State.step init reloading).any (fun s => s.fired = [1, 0]) = true := by decide +kernel
  obtain ⟨s, hs, h⟩ := Option.any_eq_true _ _ |>.mp h
  exact ⟨s, hs, by simpa using h, event_listeners_one_shot hs (colonless (by decide +kernel))⟩

end LynneSocial.Browser
