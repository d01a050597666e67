import LynneSocial.Browser.WaitForSelector

/-!
# What consumes a request

`on_ws_message` calls one of the two functions of the entry first and erases the
entry afterwards. An exception that comes out of the function passes the erase
on its way to `catch (...) {}`, and the entry stays. Three things throw: reading
the error text, a function of the manager on a result it does not expect, and
whatever the application passed, an empty `std::function` included.
-/
namespace LynneSocial.Browser

variable {s t u : State} {id : ℤ} {l : Label}

/-- The next poll of the closure cannot be written. -/
def State.checkThrows (s : State) (v : ℕ) : Bool :=
  match s.waiters[v]? with
  | none => false
  | some x => !x.done && !s.closedOf x.ctx && !decide (s.timedOut x) && s.wsReady &&
      !validUtf8 (State.existsScript x.selector)

/-- The function of the manager that the reply selects throws. -/
def State.throws (s : State) : PendingRequest → Reply → Bool
  | .createTarget _ _, .ok result => (result.strAt (str "targetId")).isNone
  | .attachToTarget _ _ _, .ok result => (result.strAt (str "sessionId")).isNone
  | .getCookies _ _, .ok result => (result.find? (str "cookies")).isNone
  | .keyDown _ key _, .ok _ => s.wsReady && !validUtf8 key
  | .poll v, .ok result =>
    match s.waiters[v]?, result.json.find? (str "result") with
    | some x, some res =>
      !x.done && match State.polled res with
        | some true => false
        | some false => s.checkThrows v
        | none => true
    | _, _ => true
  | .poll v, .error _ => s.checkThrows v
  | _, _ => false

/-- A function returns, throws, or is waiting for a function of the application on top of it. -/
structure Ends (s : State) (r : State × Ctl) (throws : Bool) : Prop where
  raise : r.2 = .raise ↔ throws = true
  stack : r.1.stack = if r.2 = .call then .user :: s.stack else s.stack

theorem Ends.answer (s : State) (c : Call) (a : Answer) : Ends s (s.answer c a) false :=
  ⟨by simp [State.answer], rfl⟩

theorem Ends.congr {r : State × Ctl} {b : Bool} (h : Ends u r b) (hs : u.stack = s.stack) : Ends s r b :=
  ⟨h.raise, hs ▸ h.stack⟩

theorem Ends.send (s : State) (method : Str) (params : Json) (r : PendingRequest) (sessionId : Str) :
    Ends s (s.sendCommand method params r sessionId)
      (s.wsReady && !(Command.mk s.cmdId method params sessionId).dumpable) := by
  have hst := State.sendCommand_stack s method params r sessionId
  refine ⟨?_, ?_⟩
  · unfold State.sendCommand
    dsimp only
    split
    · rename_i hw
      have hw : s.wsReady = true := hw
      split
      · rename_i hd
        simp [hw, hd]
      · rename_i hd
        simp [hw, hd]
    · rename_i hw
      have hw : ¬ s.wsReady = true := hw
      simp [hw]
  · rw [hst]
    split
    · rename_i hc
      unfold State.sendCommand at hc
      dsimp only at hc
      split at hc
      · split at hc <;> cases hc
      · cases hc
    · rfl

theorem Command.find_params (cmd : Command) : cmd.toJson.find? (str "params") = some cmd.params := by
  unfold Command.toJson
  split <;> rfl

theorem keyEvent_find (type key : Str) : (State.keyEvent type key).find? (str "key") = some (.str key) := by
  unfold State.keyEvent
  dsimp only
  generalize (if key = str "Enter" then (13 : ℤ) else _) = vk
  split <;> split <;> rfl

/-- A string inside the parameters of a command that can be written is valid. -/
theorem valid_of_dumpable {cmd : Command} (hd : cmd.dumpable = true) (key : Str) {x : Str}
    (hk : cmd.params.find? key = some (.str x)) : validUtf8 x = true := by
  have hparams : cmd.params.dumpable = true := Json.all_of_find hd cmd.find_params
  exact Json.all_of_find hparams hk

theorem keyEvent_dumpable_eq (n : ℤ) {type : Str} (ht : validUtf8 type = true) (key : Str)
    (sessionId : ValidStr) : (Command.mk n (str "Input.dispatchKeyEvent") (State.keyEvent type key)
      sessionId).dumpable = validUtf8 key := by
  refine Bool.eq_iff_iff.mpr ⟨fun hd => valid_of_dumpable hd (str "key") (keyEvent_find type key), fun hk => ?_⟩
  exact Command.dumpable_of rfl (State.keyEvent_dumpable ht hk) sessionId.2

theorem evaluate_dumpable_eq (n : ℤ) (js : Str) (sessionId : ValidStr) :
    (Command.mk n (str "Runtime.evaluate")
      (.object [(str "expression", .str js), (str "returnByValue", .bool true)]) sessionId).dumpable =
      validUtf8 js := by
  refine Bool.eq_iff_iff.mpr ⟨fun hd => valid_of_dumpable hd (str "expression") rfl, fun hj => ?_⟩
  exact Command.dumpable_of rfl (State.evaluate_dumpable hj) sessionId.2

theorem Ends.onOk (k : Continuation) (p : Str) (c : ℕ) : Ends s (k.onOk s p c) false := by
  cases hk : k.sends with
  | true =>
      have hdone := k.onOk_done hk s p c
      refine ⟨by simp [hdone], ?_⟩
      rw [hdone, k.onOk_stack hk]
      rfl
  | false =>
      cases k with
      | getContext n => exact Ends.congr (.answer _ _ _) rfl
      | saveSession => cases hk
      | restoreSession => cases hk

theorem readContext_stack (s : State) (c : ℕ) : (s.readContext c).stack = s.stack :=
  (readContext_keeps s c).stack

theorem readContext_wsReady (s : State) (c : ℕ) : (s.readContext c).wsReady = s.wsReady :=
  congrArg Line.wsReady (s.readContext_line c)

theorem Ends.check (s : State) (v : ℕ) : Ends s (s.check v) (s.checkThrows v) := by
  cases hx : s.waiters[v]? with
  | none =>
      unfold State.check State.checkThrows
      rw [hx]
      exact ⟨by simp, rfl⟩
  | some x =>
      have hthrow : s.checkThrows v = (!x.done && !s.closedOf x.ctx && !decide (s.timedOut x) &&
          s.wsReady && !validUtf8 (State.existsScript x.selector)) := by simp [State.checkThrows, hx]
      rw [hthrow]
      cases hd : x.done with
      | true =>
          rw [check_done hx hd]
          exact ⟨by simp, rfl⟩
      | false =>
          have hfin : ((s.readContext x.ctx).finishWaiter v).stack = s.stack := readContext_stack s x.ctx
          generalize hc : s.check v = r
          cases hc ▸ checked hx hd with
          | closed h => exact ⟨by simp [h], hfin⟩
          | timeout h ht =>
              have ha := Ends.congr (.answer ((s.readContext x.ctx).finishWaiter v) (.operation x.call)
                (.error x.timeoutText)) hfin
              simpa [h, ht] using ha
          | poll h ht =>
              have hsend := Ends.congr (Ends.send (s.readContext x.ctx) (str "Runtime.evaluate")
                (.object [(str "expression", .str (State.existsScript x.selector)),
                  (str "returnByValue", .bool true)]) (.poll v)
                ((s.readContext x.ctx).sessionOf x.ctx)) (readContext_stack s x.ctx)
              rw [evaluate_dumpable_eq, readContext_wsReady] at hsend
              simp only [h, ht, Bool.not_false, decide_false, Bool.true_and]
              exact hsend

/-- How a function of the manager ends. -/
theorem Ends.invoke (s : State) (r : PendingRequest) (reply : Reply) :
    Ends s (s.invoke r reply) (s.throws r reply) := by
  have hdone : ∀ u : State, u.stack = s.stack → Ends s (u, .done) false := fun u hu => ⟨by simp, hu⟩
  have hraise : Ends s (s, .raise) true := ⟨by simp, rfl⟩
  cases r with
  | command call => cases reply <;> exact .answer s _ _
  | ignored => cases reply <;> exact hdone s rfl
  | createTarget p k =>
      cases reply with
      | error text => exact .answer s _ _
      | ok result =>
          rw [State.invoke_createTarget]
          cases h : result.strAt (str "targetId") with
          | none => simpa [State.throws, h] using hraise
          | some T =>
              have hsent := hdone (s.attach p T k) (State.attach_stack ..)
              simpa [State.throws, h] using hsent
  | attachToTarget p T k =>
      cases reply with
      | error text => exact .answer s _ _
      | ok result =>
          rw [State.invoke_attachToTarget]
          cases h : result.strAt (str "sessionId") with
          | none => simpa [State.throws, h] using hraise
          | some S =>
              have hsent := hdone ((s.script p T S k).enable S) (by rw [State.enable_stack, State.script_stack])
              simpa [State.throws, h] using hsent
  | addScript p c k =>
      cases reply with
      | error text => exact hdone _ rfl
      | ok result => exact Ends.congr (.onOk k p c) (resetContext_stack s p c)
  | getCookies p call =>
      cases reply with
      | error text => exact .answer s _ _
      | ok result =>
          cases h : result.find? (str "cookies") with
          | none => simpa [State.invoke, State.throws, h] using hraise
          | some cookies =>
              simp only [State.invoke, State.throws, h, Option.isNone_some]
              exact Ends.congr (.answer _ _ _) rfl
  | setCookies call => cases reply <;> exact .answer s _ _
  | closeTarget c call =>
      cases reply with
      | error text => exact .answer s _ _
      | ok result =>
          refine Ends.congr (.answer _ _ _) ?_
          rw [(removeContext_keeps _ _).stack, readContext_stack]
  | keyDown c key call =>
      cases reply with
      | error text => exact .answer s _ _
      | ok result =>
          have hsend := Ends.congr (Ends.send (s.readContext c) (str "Input.dispatchKeyEvent")
            (State.keyEvent (str "keyUp") key) (.command call) (s.sessionOf c)) (readContext_stack s c)
          rwa [keyEvent_dumpable_eq _ rfl, readContext_wsReady] at hsend
  | poll v =>
      cases reply with
      | error text => exact .check s v
      | ok result =>
          cases hx : s.waiters[v]? with
          | none => simpa [State.invoke, State.throws, hx] using hraise
          | some x =>
              cases hres : result.json.find? (str "result") with
              | none => simpa [State.invoke, State.throws, hx, hres] using hraise
              | some res =>
                  simp only [State.invoke, State.throws, hx, hres]
                  cases hd : x.done with
                  | true => exact hdone s rfl
                  | false =>
                      simp only [Bool.false_eq_true, if_false, Bool.not_false, Bool.true_and]
                      cases hp : State.polled res with
                      | none => exact hraise
                      | some found =>
                          cases found with
                          | false => exact .check s v
                          | true => exact Ends.congr (.answer _ _ _) rfl

/-- A function of the entry of this id is called. -/
def Event.invokes (id : ℤ) : Event → Bool
  | .invoked id' _ _ => id' == id
  | _ => false

/-- The calls of functions of the entry of this id, the latest first. -/
def invocations (id : ℤ) (history : List Event) : List Event := history.filter (Event.invokes id)

/-- No function of the entry is called, and the entry stays, or another takes its place. -/
structure Leaves (id : ℤ) (s t : State) : Prop where
  invocations : invocations id t.history = invocations id s.history
  entry : s.pending.lookup id ≠ none → t.pending.lookup id ≠ none

theorem Leaves.trans (h : Leaves id s t) (k : Leaves id t u) : Leaves id s u :=
  ⟨k.invocations.trans h.invocations, k.entry ∘ h.entry⟩

theorem Leaves.of {E : List Event} (hp : t.pending = s.pending) (hh : t.history = E ++ s.history)
    (hE : ∀ e ∈ E, e.invokes id = false) : Leaves id s t := by
  refine ⟨?_, hp ▸ fun h => h⟩
  have hnil : E.filter (Event.invokes id) = [] := List.filter_eq_nil_iff.mpr fun e he => by simp [hE e he]
  rw [Browser.invocations, hh, List.filter_append, hnil]
  rfl

theorem Leaves.still (h : (t.pending, t.history) = (s.pending, s.history)) : Leaves id s t := by
  simp only [Prod.mk.injEq] at h
  exact .of (E := []) h.1 h.2 nofun

theorem Leaves.logs {e : Event} (h : (t.pending, t.history) = (s.pending, e :: s.history))
    (he : e.invokes id = false) : Leaves id s t := by
  simp only [Prod.mk.injEq] at h
  exact .of (E := [e]) h.1 h.2 (by simpa using he)

theorem Leaves.refl (s : State) : Leaves id s s := .still rfl

theorem Calm.leaves (h : Calm s t) : Leaves id s t := by
  obtain ⟨E, hE, hh⟩ := h.history
  refine .of h.pending hh fun e he => ?_
  have hsilent := hE e he
  cases e <;> first | rfl | exact hsilent.elim

theorem Keeps.leaves (h : Keeps s t) : Leaves id s t := by
  obtain ⟨E, hE, hh⟩ := h.history
  refine .of h.pending hh fun e he => ?_
  have hcache := hE e he
  cases e <;> first | rfl | exact hcache.elim

theorem Leaves.send (s : State) (method : Str) (params : Json) (r : PendingRequest) (sessionId : Str) :
    Leaves id s (s.sendCommand method params r sessionId).1 := by
  have hissue : Leaves id s (s.issue r) := by
    refine ⟨rfl, fun hl => ?_⟩
    rw [issue_lookup]
    split
    · nofun
    · exact hl
  exact hissue.trans (s.sendCommand_calm method params r sessionId).leaves

theorem Act.leaves {ρ : Rules} (h : Act ρ s t) : Leaves id s t := by
  cases h with
  | enter kind => exact .logs rfl rfl
  | send method params r sessionId => exact .send s method params r sessionId
  | create platform targetId sid k method params sessionId =>
      have hheap : Leaves id s { s with heap := s.heap ++ [{ platform, targetId, sessionId := sid }] } :=
        .still rfl
      exact hheap.trans (.send _ method params _ sessionId)
  | answer c a => exact .logs rfl rfl
  | handOut platform c k => exact .logs rfl rfl
  | deliver platform c n =>
      have hfst : Leaves id s (s.log (.handedOut platform c (.getContext n))) := .logs rfl rfl
      exact hfst.trans (.logs (e := .answered (.request n) (.context c)) rfl rfl)
  | close => exact .still rfl
  | user => exact .still rfl
  | read c => exact (s.readContext_calm c).leaves
  | wait => exact .still rfl
  | aside _ h => exact h.calm.leaves

theorem Parts.leaves {ρ : Rules} (h : Parts ρ s t) : Leaves id s t :=
  Parts.invariant (I := fun u => Leaves id s u) (fun _ _ hs h => hs.trans h.leaves)
    (fun _ _ hs h => hs.trans h.calm.leaves) h (.refl s)

/-- What a step does while a function of the entry runs. -/
inductive Busy (id : ℤ) (s t : State) (l : Label) : Prop
  | goes (h : .eraseIt id ∈ t.stack) (hl : Leaves id s t)
  | returns (hr : l = .ret) (h : .eraseIt id ∉ t.stack)
      (hi : invocations id t.history = invocations id s.history) (hp : t.pending.lookup id = none)
  | throws (hr : l = .throw) (h : .eraseIt id ∉ t.stack) (hl : Leaves id s t)

theorem State.step_busy (ht : s.step l = some t) (hsh : Shape s.stack) (hid : .eraseIt id ∈ s.stack) :
    Busy id s t l := by
  have hpop : ∀ rest, Leaves id s { s with stack := rest } := fun rest => .still rfl
  have hframe : ∀ rest, s.stack = .user :: rest →
      (∀ i st, rest ≠ .eraseIt i :: st) ∧ .eraseIt id ∈ rest ∨ ∃ batch, rest = [.eraseIt id, .draining batch] := by
    intro rest hst
    rw [hst] at hsh hid
    have hid : .eraseIt id ∈ rest := by simpa using hid
    by_cases hrest : ∃ i st, rest = .eraseIt i :: st
    · obtain ⟨i, st, rfl⟩ := hrest
      obtain ⟨batch, rfl⟩ : ∃ batch, st = [.draining batch] := hsh
      obtain rfl : id = i := by simpa using hid
      exact .inr ⟨batch, rfl⟩
    · exact .inl ⟨fun i st h => hrest ⟨i, st, h⟩, hid⟩
  cases hl : s.ofSession l with
  | true =>
      rcases step_session_cases ht hsh hl with hc | ⟨-, -, hc⟩ | ⟨u, hu, rfl⟩
      · exact .goes ((hc.erasing id).mpr hid) hc.leaves
      · refine .goes ((hc.erasing id).mpr ?_) ((clearContexts_keeps s).leaves.trans hc.leaves)
        rwa [(clearContexts_keeps s).stack]
      · refine .goes ?_ (hu.leaves.trans (.send u _ _ _ _))
        rw [sendCommand_stack]
        exact (hu.erasing id).mpr hid
  | false =>
      rcases step_parts (ρ := {}) ht hsh hl (fun _ => trivial) (fun _ => trivial)
        (fun _ _ _ _ _ _ _ _ => trivial) (fun _ _ _ _ => trivial)
        (fun _ _ _ _ => ⟨fun _ _ => trivial, fun _ _ _ _ _ _ _ _ => trivial⟩) (fun _ _ => trivial) with
        h | ⟨rfl, rest, hst, rfl⟩ | ⟨rfl, rest, hst, rfl⟩ | ⟨-, conn, msg, batch, hst, -⟩
      · exact .goes ((h.erasing id).mpr hid) h.leaves
      · rcases hframe rest hst with ⟨hne, hmem⟩ | ⟨batch, rfl⟩
        · have hstay : ({ s with stack := rest } : State).resume = { s with stack := rest } := by
            unfold resume
            split
            · exact absurd ‹_› (hne _ _)
            · rfl
          rw [hstay]
          exact .goes hmem (hpop rest)
        · exact .returns rfl (by simp [resume]) rfl (by simp [resume])
      · rcases hframe rest hst with ⟨hne, hmem⟩ | ⟨batch, rfl⟩
        · have hstay : ({ s with stack := rest } : State).unwind = { s with stack := rest } := by
            unfold unwind
            split
            · exact absurd ‹_› (hne _ _)
            · rfl
          rw [hstay]
          exact .goes hmem (hpop rest)
        · exact .throws rfl (by simp [unwind]) (.logs rfl rfl)
      · rw [hst] at hid
        simp at hid

/-- The run of a callback of the application, to the end of `on_ws_message`. -/
theorem run_busy {ls : List Label} (hu : Transition.run State.step t ls = some u) (hsh : Shape t.stack)
    (hid : .eraseIt id ∈ t.stack)
    (hin : Transition.Along State.step (fun v _ => .eraseIt id ∈ v.stack) t ls)
    (hout : .eraseIt id ∉ u.stack) :
    invocations id u.history = invocations id t.history ∧
      (u.pending.lookup id = none ∧ ls.getLast? ≠ some .throw ∨
        (t.pending.lookup id ≠ none → u.pending.lookup id ≠ none) ∧ ls.getLast? = some .throw) := by
  induction ls generalizing t with
  | nil => exact absurd (Option.some.inj hu ▸ hid) hout
  | cons l ls ih =>
      obtain ⟨v, hv, hr⟩ := Transition.run_cons.mp hu
      obtain ⟨-, hrest⟩ := (Transition.along_cons hv).mp hin
      have hover : .eraseIt id ∉ v.stack → ls = [] ∧ u = v := by
        intro hgone
        cases ls with
        | nil => exact ⟨rfl, (Option.some.inj hr).symm⟩
        | cons k ls => exact absurd hrest.1 hgone
      cases State.step_busy hv hsh hid with
      | goes h hl =>
          obtain ⟨hinv, hend⟩ := ih hr (State.step_shape hsh hv) h hrest
          have hlast : (l :: ls).getLast? = ls.getLast? := by
            cases ls with
            | nil => exact absurd (Option.some.inj hr ▸ h) hout
            | cons k ls => rfl
          rw [hlast]
          exact ⟨hinv.trans hl.invocations, hend.imp_right fun h => ⟨h.1 ∘ hl.entry, h.2⟩⟩
      | returns hl h hi hp =>
          obtain ⟨rfl, rfl⟩ := hover h
          subst hl
          exact ⟨hi, .inl ⟨hp, by simp⟩⟩
      | throws hl h hk =>
          obtain ⟨rfl, rfl⟩ := hover h
          subst hl
          exact ⟨hk.invocations, .inr ⟨hk.entry, rfl⟩⟩

/-- One of the two functions of the entry was called, once, and the entry is gone. -/
def Consumed (id : ℤ) (r : PendingRequest) (s u : State) : Prop :=
  (∃ reply, invocations id u.history = .invoked id r reply :: invocations id s.history) ∧
    u.pending.lookup id = none

/-- `on_ws_message` is behind a function of the entry of this id. -/
def State.Awaits (id : ℤ) (s : State) : Prop := .eraseIt id ∈ s.stack

instance (id : ℤ) (s : State) : Decidable (s.Awaits id) :=
  decidable_of_iff (s.stack.any fun | .eraseIt i => i == id | _ => false) (by
    simp only [State.Awaits, List.any_eq_true]
    constructor
    · rintro ⟨f, hf, he⟩
      cases f with
      | eraseIt i => exact eq_of_beq he ▸ hf
      | _ => cases he
    · exact fun h => ⟨_, h, beq_self_eq_true id⟩)

theorem onWsMessage_unanswered {msg : Parsed} (hid : msg.id? = some id) (hreply : msg.reply = none) :
    s.onWsMessage (some msg) = s.log (.handling msg) := by
  unfold State.onWsMessage State.onResponse
  simp only [State.contains_of_id hid, hid, hreply, if_true]
  split
  · rename_i hsome
    cases hsome
  · rfl

/-- The error of a response has no text. -/
theorem step_unanswered {msg : Parsed} (ht : s.step .next = some t) (hsh : Shape s.stack)
    (hm : s.incoming .next = some msg) (hid : msg.id? = some id) (hreply : msg.reply = none) :
    ∃ batch, t = ({ s with stack := [.draining batch] } : State).log (.handling msg) := by
  rcases State.step_next ht with ⟨rest, hst, rfl⟩ | ⟨task, batch, rest, hst, rfl⟩
  · simp [State.incoming, hst] at hm
  · obtain rfl : rest = [] := by rwa [hst] at hsh
    cases task with
    | message conn data =>
        obtain rfl : data = some msg := by simpa [State.incoming, hst] using hm
        exact ⟨batch, onWsMessage_unanswered hid hreply⟩
    | _ => simp [State.incoming, hst] at hm

/-- A function of the entry is called in `v`. -/
theorem finish_awaits {v : State} {r : PendingRequest} {reply : Reply} {batch : List Frame}
    (hst : v.stack = .eraseIt id :: batch) (hb : .eraseIt id ∉ batch) (hp : v.pending.lookup id ≠ none)
    (ht : t = State.finish (v.invoke r reply)) :
    invocations id t.history = invocations id v.history ∧
      (t.Awaits id ∧ v.throws r reply = false ∧ t.pending.lookup id ≠ none ∨
        ¬ t.Awaits id ∧ (v.throws r reply = false ∧ t.pending.lookup id = none ∨
          v.throws r reply = true ∧ t.pending.lookup id ≠ none)) := by
  obtain ⟨w, hw, hacts⟩ := State.invoke_cases (ρ := {}) v r reply (fun _ _ => trivial) (fun _ => trivial)
    (fun _ _ => trivial) (fun _ _ _ _ _ _ _ _ => trivial) (fun _ _ _ _ _ _ _ _ _ _ _ _ _ _ => trivial)
    (fun _ _ _ _ _ _ _ => trivial)
  have hl : Leaves id v (v.invoke r reply).1 := hw.keeps.leaves.trans hacts.parts.leaves
  have he := Ends.invoke v r reply
  subst ht
  cases hc : (v.invoke r reply).2 with
  | done =>
      have hstack : (v.invoke r reply).1.stack = .eraseIt id :: batch := by simpa [hc, hst] using he.stack
      have hthrow : v.throws r reply = false := by simpa [hc] using he.raise
      rw [State.finish_done hc hstack]
      exact ⟨hl.invocations, .inr ⟨hb, .inl ⟨hthrow, by simp [State.erased]⟩⟩⟩
  | call =>
      have hstack : (v.invoke r reply).1.stack = .user :: v.stack := by simpa [hc] using he.stack
      have hthrow : v.throws r reply = false := by simpa [hc] using he.raise
      have hfinish : State.finish (v.invoke r reply) = (v.invoke r reply).1 := by
        simp only [State.finish, hc]
      rw [hfinish]
      refine ⟨hl.invocations, .inl ⟨?_, hthrow, hl.entry hp⟩⟩
      simp [State.Awaits, hstack, hst]
  | raise =>
      have hstack : (v.invoke r reply).1.stack = .eraseIt id :: batch := by simpa [hc, hst] using he.stack
      have hthrow : v.throws r reply = true := by simpa [hc] using he.raise
      rw [State.finish_raise hc hstack]
      exact ⟨hl.invocations, .inr ⟨hb, .inr ⟨hthrow, hl.entry hp⟩⟩⟩

theorem State.Answers.throws {r r' : PendingRequest} {reply reply' : Reply} (h : s.Answers id r reply u) :
    u.throws r' reply' = s.throws r' reply' := by
  obtain ⟨conn, msg, batch, -, -, -, -, rfl⟩ := h
  cases r' <;> rfl

/-- A response consumes its request unless reading it, the function of the entry or what the
application passed throws. -/
theorem response_consumed_iff {ks ls : List Label} {s t u : State} {msg : Parsed} {id : ℤ}
    {r : PendingRequest} (hs : Transition.run State.step init ks = some s)
    (hm : s.incoming .next = some msg) (hid : msg.id? = some id) (hr : s.pending.lookup id = some r)
    (ht : s.step .next = some t) (hu : Transition.run State.step t ls = some u)
    (hin : Transition.Along State.step (fun v _ => v.Awaits id) t ls) (hout : ¬ u.Awaits id) :
    Consumed id r s u ↔
      ∃ reply, msg.reply = some reply ∧ s.throws r reply = false ∧ ls.getLast? ≠ some .throw := by
  have hsh := State.run_shape hs
  have hover : ¬ t.Awaits id → ls = [] ∧ u = t := by
    intro hgone
    cases ls with
    | nil => exact ⟨rfl, (Option.some.inj hu).symm⟩
    | cons k ls => exact absurd hin.1 hgone
  cases hreply : msg.reply with
  | none =>
      obtain ⟨batch, rfl⟩ := step_unanswered ht hsh hm hid hreply
      obtain ⟨rfl, rfl⟩ := hover (by simp [State.Awaits, State.log])
      refine iff_of_false ?_ (by simp)
      rintro ⟨-, hgone⟩
      exact absurd (hgone.symm.trans hr) (Option.some_ne_none r).symm
  | some reply =>
      obtain ⟨v, ha, hfin⟩ := answers_of_incoming ht hsh hm hid hr hreply
      obtain ⟨batch, hst⟩ := ha.stack
      obtain ⟨-, msg', hh⟩ := ha.history
      have hpending : v.pending.lookup id ≠ none := by
        rw [ha.pending, hr]
        exact Option.some_ne_none r
      obtain ⟨hinv, hend⟩ := finish_awaits hst (by simp) hpending hfin
      rw [ha.throws] at hend
      have hone : invocations id t.history = .invoked id r reply :: invocations id s.history := by
        rw [hinv, hh]
        simp [invocations, Event.invokes]
      rcases hend with ⟨ha, hthrow, hp⟩ | ⟨ha, hend⟩
      · obtain ⟨hinv', hend⟩ := run_busy hu (State.step_shape hsh ht) ha hin hout
        rcases hend with ⟨hgone, hlast⟩ | ⟨hstays, hlast⟩
        · exact iff_of_true ⟨⟨reply, hinv'.trans hone⟩, hgone⟩ ⟨reply, rfl, hthrow, hlast⟩
        · refine iff_of_false (fun h => hstays hp h.2) ?_
          rintro ⟨-, -, -, hne⟩
          exact hne hlast
      · obtain ⟨rfl, rfl⟩ := hover ha
        rcases hend with ⟨hthrow, hgone⟩ | ⟨hthrow, hstays⟩
        · exact iff_of_true ⟨⟨reply, hone⟩, hgone⟩ ⟨reply, rfl, hthrow, by simp⟩
        · refine iff_of_false (fun h => hstays h.2) ?_
          rintro ⟨reply', hreply', hno, -⟩
          obtain rfl := Option.some.inj hreply'
          exact absurd (hno.symm.trans hthrow) Bool.false_ne_true

/-- A target is asked for, and its creation refused. -/
def refusal : List Label :=
  connect ++ [.getContext (str "xhs"), .received (some (errorMessage 1 ⟨str "no target", rfl⟩)), .wake, .swap]

theorem response_consumed_sample : ∃ s t u r, Transition.run State.step init refusal = some s ∧
    s.pending.lookup 1 = some r ∧ s.step .next = some t ∧
    Transition.run State.step t [.tick, .ret] = some u ∧ Consumed 1 r s u := by
  have h : (Transition.run State.step init refusal).any (fun s => (s.incoming .next).any fun msg =>
      (s.pending.lookup 1).any fun r => (s.step .next).any fun t =>
        (Transition.run State.step t [.tick, .ret]).any fun u => msg.id? = some 1 ∧
          Transition.Along State.step (fun v _ => v.Awaits 1) t [.tick, .ret] ∧ ¬ u.Awaits 1 ∧
          msg.reply.any fun reply => s.throws r reply = false) = true := by
    decide +kernel
  obtain ⟨s, hs, h⟩ := Option.any_eq_true _ _ |>.mp h
  obtain ⟨msg, hm, h⟩ := Option.any_eq_true _ _ |>.mp h
  obtain ⟨r, hr, h⟩ := Option.any_eq_true _ _ |>.mp h
  obtain ⟨t, ht, h⟩ := Option.any_eq_true _ _ |>.mp h
  obtain ⟨u, hu, h⟩ := Option.any_eq_true _ _ |>.mp h
  simp only [decide_eq_true_eq] at h
  obtain ⟨hid, hin, hout, h⟩ := h
  obtain ⟨reply, hreply, hthrow⟩ := Option.any_eq_true _ _ |>.mp h
  simp only [decide_eq_true_eq] at hthrow
  exact ⟨s, t, u, r, hs, hr, ht, hu, (response_consumed_iff hs hm hid hr ht hu hin hout).mpr
    ⟨reply, hreply, hthrow, nofun⟩⟩

/-- The `on_error` of the application is empty. -/
theorem thrown_response_is_kept : ¬ ∀ (ks ls : List Label) (s t u : State) (msg : Parsed) (id : ℤ)
    (r : PendingRequest), Transition.run State.step init ks = some s → s.incoming .next = some msg →
    msg.id? = some id → s.pending.lookup id = some r → s.step .next = some t →
    Transition.run State.step t ls = some u → Transition.Along State.step (fun v _ => v.Awaits id) t ls →
    ¬ u.Awaits id → Consumed id r s u := by
  have h : (Transition.run State.step init refusal).any (fun s => (s.incoming .next).any fun msg =>
      (s.pending.lookup 1).any fun r => (s.step .next).any fun t =>
        (Transition.run State.step t [.throw]).any fun u => msg.id? = some 1 ∧
          Transition.Along State.step (fun v _ => v.Awaits 1) t [.throw] ∧ ¬ u.Awaits 1 ∧
          (u.pending.lookup 1).isSome) = true := by
    decide +kernel
  obtain ⟨s, hs, h⟩ := Option.any_eq_true _ _ |>.mp h
  obtain ⟨msg, hm, h⟩ := Option.any_eq_true _ _ |>.mp h
  obtain ⟨r, hr, h⟩ := Option.any_eq_true _ _ |>.mp h
  obtain ⟨t, ht, h⟩ := Option.any_eq_true _ _ |>.mp h
  obtain ⟨u, hu, h⟩ := Option.any_eq_true _ _ |>.mp h
  simp only [decide_eq_true_eq] at h
  obtain ⟨hid, hin, hout, hkept⟩ := h
  intro hall
  have hgone := (hall refusal [.throw] s t u msg 1 r hs hm hid hr ht hu hin hout).2
  rw [hgone] at hkept
  exact absurd hkept nofun

end LynneSocial.Browser
