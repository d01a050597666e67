import LynneSocial.Browser.Waits

/-!
# wait_for_selector

As long as a wait is not over there is one token: a check that was posted, or one
poll whose response will run the next check. Every check passes the token on,
sets the done flag and calls a function of the application, or finds the context
closed: then the flag is set and nobody is told.
-/
namespace LynneSocial.Browser

variable {s t u : State} {n v : ℕ} {x : Waiter} {l : Label}

def PendingRequest.poll? : PendingRequest → Option ℕ
  | .poll v => some v
  | _ => none

/-- What the callback of a poll reads in a response; an error counts as no. -/
def Reply.polled : Reply → Option Bool
  | .ok result => (result.json.find? (str "result")).bind State.polled
  | .error _ => some false

def Waiter.timeoutText (x : Waiter) : Str :=
  str "wait_for_selector timeout (" ++ x.selector ++ str ")"

/-- `elapsed >= (int64_t)timeout_ms` -/
def State.timedOut (s : State) (x : Waiter) : Prop := State.toInt64 x.timeoutMs ≤ (s.now - x.start : ℕ)

instance (s : State) (x : Waiter) : Decidable (s.timedOut x) := inferInstanceAs (Decidable (_ ≤ _))

/-- The closure whose check the loop is about to run. -/
def State.checking (s : State) : Label → Option ℕ
  | .next =>
    match s.stack with
    | .draining (.check v :: _) :: _ => some v
    | .draining (.message _ (some msg) :: _) :: _ =>
      match msg.id?.bind fun id => s.pending.lookup id, msg.reply with
      | some (.poll v), some reply => if reply.polled = some false then some v else none
      | _, _ => none
    | _ => none
  | _ => none

/-- The three ends of a check that is not over. -/
inductive Checked (x : Waiter) (v : ℕ) (u : State) : State × Ctl → Prop
  | closed (h : u.closedOf x.ctx = true) : Checked x v u ((u.readContext x.ctx).finishWaiter v, .done)
  | timeout (hc : u.closedOf x.ctx = false) (h : u.timedOut x) :
      Checked x v u (((u.readContext x.ctx).finishWaiter v).answer (.operation x.call) (.error x.timeoutText))
  | poll (hc : u.closedOf x.ctx = false) (h : ¬ u.timedOut x) :
      Checked x v u ((u.readContext x.ctx).evaluate x.ctx (State.existsScript x.selector) (.poll v))

theorem poll?_eq {r : PendingRequest} : r.poll? = some v ↔ r = .poll v := by
  cases r <;> simp [PendingRequest.poll?]

theorem readContext_now (s : State) (c : ℕ) : (s.readContext c).now = s.now := by
  unfold State.readContext
  split
  · split <;> rfl
  · rfl

theorem checked (hx : u.waiters[v]? = some x) (hd : x.done = false) : Checked x v u (u.check v) := by
  unfold State.check
  simp only [hx, hd, Bool.false_eq_true, if_false, State.readContext_closedOf, readContext_now]
  split
  · exact .closed ‹_›
  · rename_i hc
    rw [Bool.not_eq_true] at hc
    split
    · exact .timeout hc ‹_›
    · exact .poll hc ‹_›

theorem check_done (hx : u.waiters[v]? = some x) (hd : x.done = true) : u.check v = (u, .done) := by
  unfold State.check
  simp [hx, hd]

theorem invoke_poll_false {reply : Reply} (hx : u.waiters[v]? = some x) (hd : x.done = false)
    (hp : reply.polled = some false) : u.invoke (.poll v) reply = u.check v := by
  cases reply with
  | error text => rfl
  | ok result =>
      obtain ⟨res, hres, hp⟩ := Option.bind_eq_some_iff.mp hp
      unfold State.invoke
      simp [hx, hres, hd, hp]

theorem invoke_poll_true {reply : Reply} (hx : u.waiters[v]? = some x) (hd : x.done = false)
    (hp : reply.polled = some true) : u.invoke (.poll v) reply =
      (u.finishWaiter v).answer (.operation x.call) .done ∧ ∃ result, reply = .ok result := by
  cases reply with
  | error text => cases hp
  | ok result =>
      obtain ⟨res, hres, hp⟩ := Option.bind_eq_some_iff.mp hp
      unfold State.invoke
      simp [hx, hres, hd, hp]

theorem invoke_poll_done {reply : Reply} (hx : u.waiters[v]? = some x) (hd : x.done = true)
    (hp : reply.polled ≠ none) : u.invoke (.poll v) reply = (u, .done) := by
  cases reply with
  | error text => exact check_done hx hd
  | ok result =>
      obtain ⟨b, hb⟩ := Option.ne_none_iff_exists'.mp hp
      obtain ⟨res, hres, -⟩ := Option.bind_eq_some_iff.mp hb
      unfold State.invoke
      simp [hx, hres, hd]

/-- A check is posted, or an evaluate is under way; a script that cannot be written is never sent. -/
def State.InFlight (s : State) (n : ℕ) : Prop :=
  ∃ v x, s.WaitOf n v x ∧ (0 < s.checksOf v ∨
    (∃ id, s.pending.lookup id = some (.poll v)) ∧ validUtf8 (State.existsScript x.selector) = true)

/-- `on_found` is called from the response to a poll that says yes. -/
def Found (s : State) (n : ℕ) (e : Event) (past : List Event) : Prop :=
  e = .answered (.operation n) .done → ∃ v id result, (∃ x, s.WaitOf n v x) ∧
    past.head? = some (.invoked id (.poll v) (.ok result)) ∧ (Reply.ok result).polled = some true

/-- The wait completes once, and not before a poll or the clock says so. -/
structure Completes (n : ℕ) (s : State) : Prop where
  found : History.Always (Found s n) s.history
  once : timesTold n s.history ≤ 1
  told : ¬ s.InFlight n → timesTold n s.history = 1

/-- A check that is not over finds the context open, and can write its script. -/
def State.Attends (n : ℕ) (s : State) (l : Label) : Prop :=
  ∀ v ∈ s.checking l, ∀ x ∈ s.waiters[v]?, x.call = n → x.done = false →
    s.closedOf x.ctx = false ∧ (s.timedOut x ∨ validUtf8 (State.existsScript x.selector) = true)

/-- Responses to polls say yes, no, or nothing, or are errors. -/
def State.PollsWell (n : ℕ) (s : State) (l : Label) : Prop :=
  ∀ msg ∈ s.incoming l, ∀ id ∈ msg.id?, ∀ r ∈ s.pending.lookup id, ∀ v ∈ r.poll?,
    ∀ x ∈ s.waiters[v]?, x.call = n → ∀ reply ∈ msg.reply, reply.polled ≠ none

instance (n : ℕ) (s : State) (l : Label) : Decidable (s.Attends n l) := by
  unfold State.Attends
  infer_instance

instance (n : ℕ) (s : State) (l : Label) : Decidable (s.PollsWell n l) := by
  unfold State.PollsWell
  infer_instance

theorem polling_iff : (∃ e ∈ s.pending.entries, e.2.poll? = some v) ↔
    ∃ id, s.pending.lookup id = some (.poll v) := by
  constructor
  · rintro ⟨⟨id, r⟩, hmem, hr⟩
    exact ⟨id, poll?_eq.mp hr ▸ AList.mem_lookup_iff.mpr hmem⟩
  · rintro ⟨id, hl⟩
    exact ⟨⟨id, .poll v⟩, AList.mem_lookup_iff.mp hl, rfl⟩

instance (n : ℕ) (s : State) : Decidable (s.InFlight n) :=
  decidable_of_iff (∃ v, ∃ _ : v < s.waiters.length, ∃ x ∈ s.waiters[v]?, x.call = n ∧ (0 < s.checksOf v ∨
    (∃ e ∈ s.pending.entries, e.2.poll? = some v) ∧ validUtf8 (State.existsScript x.selector) = true)) <| by
    simp only [polling_iff]
    constructor
    · rintro ⟨v, -, x, hx, hc, h⟩
      exact ⟨v, x, ⟨hx, hc⟩, h⟩
    · rintro ⟨v, x, hx, h⟩
      exact ⟨v, (List.getElem?_eq_some_iff.mp hx.1).1, x, hx.1, hx.2, h⟩

/-- How far the wait is. -/
inductive WaitStage (n : ℕ) (s : State) : Prop
  | posted (v : ℕ) (x : Waiter) (hx : s.WaitOf n v x) (hd : x.done = false) (hc : s.checksOf v = 1)
      (hp : ∀ id, s.pending.lookup id ≠ some (.poll v)) (ha : timesTold n s.history = 0)
  | polling (v : ℕ) (x : Waiter) (id : ℤ) (hx : s.WaitOf n v x) (hd : x.done = false)
      (hc : s.checksOf v = 0) (hl : s.pending.lookup id = some (.poll v))
      (ho : ∀ i, s.pending.lookup i = some (.poll v) → i = id)
      (hv : validUtf8 (State.existsScript x.selector) = true) (he : .eraseIt id ∉ s.stack)
      (ha : timesTold n s.history = 0)
  | told (hd : ∀ v x, s.WaitOf n v x → x.done = true) (ha : timesTold n s.history = 1)

structure Waiting (n : ℕ) (s : State) : Prop where
  orderly : Orderly s
  known : n < s.calls
  own : Own n s
  unwrapped : issuedCount s.history < 2 ^ 31
  stage : WaitStage n s
  found : History.Always (Found s n) s.history

theorem Waiting.completes (h : Waiting n s) : Completes n s := by
  refine ⟨h.found, ?_, fun hno => ?_⟩
  · cases h.stage <;> omega
  · cases h.stage with
    | posted v x hx _ hc => exact (hno ⟨v, x, hx, .inl (by omega)⟩).elim
    | polling v x id hx _ _ hl _ hv => exact (hno ⟨v, x, hx, .inr ⟨⟨id, hl⟩, hv⟩⟩).elim
    | told _ ha => exact ha

theorem sendCommand_waiters (s : State) (method : Str) (params : Json) (r : PendingRequest)
    (sessionId : Str) : (s.sendCommand method params r sessionId).1.waiters = s.waiters := by
  unfold State.sendCommand
  dsimp only
  split
  · split <;> rfl
  · rfl

theorem waiting_sendCommand (s : State) (method : Str) (params : Json) (r : PendingRequest)
    (sessionId : Str) : (s.sendCommand method params r sessionId).1.waiting = s.waiting := by
  unfold State.sendCommand
  dsimp only
  split
  · split <;> rfl
  · rfl

theorem finishWaiter_waitOf (hx : s.WaitOf n v x) : (s.finishWaiter v).WaitOf n v { x with done := true } := by
  refine ⟨?_, hx.2⟩
  change (s.waiters.modify v _)[v]? = _
  rw [List.getElem?_modify_eq, hx.1]
  rfl

theorem finishWaiter_exists (v : ℕ) {w : ℕ} : (∃ y, s.WaitOf n w y) → ∃ y, (s.finishWaiter v).WaitOf n w y := by
  rintro ⟨y, hy⟩
  by_cases hw : v = w
  · subst hw
    exact ⟨_, finishWaiter_waitOf hy⟩
  · refine ⟨y, ?_, hy.2⟩
    change (s.waiters.modify v _)[w]? = _
    rw [List.getElem?_modify_ne _ _ hw]
    exact hy.1

namespace Own

theorem finishWaiter (h : Own n s) (v : ℕ) : Own n (s.finishWaiter v) := by
  have hback : ∀ w y, (s.finishWaiter v).WaitOf n w y → ∃ z, s.WaitOf n w z := by
    rintro w y ⟨hy, hc⟩
    change (s.waiters.modify v _)[w]? = _ at hy
    by_cases hw : v = w
    · subst hw
      rw [List.getElem?_modify_eq, Option.map_eq_map, Option.map_eq_some_iff] at hy
      obtain ⟨z, hz, rfl⟩ := hy
      exact ⟨z, hz, hc⟩
    · rw [List.getElem?_modify_ne _ _ hw] at hy
      exact ⟨y, hy, hc⟩
  refine ⟨h.callers, fun w w' y y' hy hy' => ?_⟩
  obtain ⟨z, hz⟩ := hback w y hy
  obtain ⟨z', hz'⟩ := hback w' y' hy'
  exact h.unique w w' z z' hz hz'

theorem answer (h : Own n s) (c : Call) (a : Answer) : Own n (s.answer c a).1 :=
  ⟨h.callers, h.unique⟩

theorem poll (h : Own n s) (method : Str) (params : Json) (v : ℕ) (sessionId : Str) :
    Own n (s.sendCommand method params (.poll v) sessionId).1 := by
  refine ⟨fun id r hl => ?_, fun w w' y y' hy hy' => ?_⟩
  · rw [send_lookup] at hl
    split at hl
    · rw [← Option.some.inj hl]
      simp [PendingRequest.caller]
    · exact h.callers id r hl
  · rw [State.WaitOf, sendCommand_waiters] at hy hy'
    exact h.unique w w' y y' hy hy'

theorem check (h : Own n s) (v : ℕ) : Own n (s.check v).1 := by
  cases hx : s.waiters[v]? with
  | none => simpa [State.check, hx] using h
  | some x =>
      cases hd : x.done with
      | true => rwa [check_done hx hd]
      | false =>
          have hr := (Elsewhere.keeps (readContext_keeps s x.ctx)).own h
          have hc := checked hx hd
          generalize s.check v = r at hc ⊢
          cases hc with
          | closed => exact hr.finishWaiter v
          | timeout => exact (hr.finishWaiter v).answer _ _
          | poll => exact hr.poll _ _ _ _

/-- Everything that belongs to the call is one closure. -/
theorem waitOf (h : Own n s) (hx : s.WaitOf n v x) {w : ℕ} {y : Waiter} (hy : s.WaitOf n w y) :
    w = v ∧ y = x := by
  obtain rfl := h.unique w v y x hy hx
  exact ⟨rfl, Option.some.inj (hy.1.symm.trans hx.1)⟩

end Own

theorem WaitStage.ended (ho : Own n t) (hx : t.WaitOf n v x) (hd : x.done = true)
    (ha : timesTold n t.history = 1) : WaitStage n t :=
  .told (fun w y hy => by rw [(ho.waitOf hx hy).2, hd]) ha

theorem not_inFlight (ho : Own n t) (hx : t.WaitOf n v x) (hc : t.checksOf v = 0)
    (hp : (∃ id, t.pending.lookup id = some (.poll v)) → validUtf8 (State.existsScript x.selector) = false) :
    ¬ t.InFlight n := by
  rintro ⟨w, y, hy, hcount | ⟨hl, hv⟩⟩
  · obtain ⟨rfl, rfl⟩ := ho.waitOf hx hy
    omega
  · obtain ⟨rfl, rfl⟩ := ho.waitOf hx hy
    rw [hp hl] at hv
    cases hv

/-- What was found stays found. -/
theorem found_mono (hw : ∀ v, (∃ x, s.WaitOf n v x) → ∃ x, t.WaitOf n v x) {E : List Event}
    (hes : ∀ e ∈ E, e ≠ .answered (.operation n) .done) (h : History.Always (Found s n) s.history)
    (hh : t.history = E ++ s.history) : History.Always (Found t n) t.history := by
  rw [hh]
  refine History.Always.append (fun e he past h => absurd h (hes e he)) (h.imp fun e past hf he => ?_)
  obtain ⟨w, id, result, hx, hrest⟩ := hf he
  exact ⟨w, id, result, hw w hx, hrest⟩

theorem Elsewhere.found (h : Elsewhere n s t) (hf : History.Always (Found s n) s.history) :
    History.Always (Found t n) t.history := by
  obtain ⟨es, hes, hh⟩ := h.history
  refine found_mono (fun v ⟨x, hx⟩ => ⟨x, (h.waiter v x).mpr hx⟩) (fun e he hx => hes e he ?_) hf hh
  rw [hx]
  rfl

/-- The wait after a step that has nothing to do with it. -/
theorem WaitStage.elsewhere (h : WaitStage n s) (he : Elsewhere n s t)
    (hentry : ∀ v x id, s.WaitOf n v x → s.pending.lookup id = some (.poll v) →
      EntryStep id (.poll v) s t) : WaitStage n t := by
  cases h with
  | posted v x hx hd hc hp ha =>
      refine .posted v x ((he.waiter v x).mpr hx) hd ?_ (fun id hl => ?_) ?_
      · rw [he.checks v x hx, hc]
      · exact hp id (he.polls v x hx id hl)
      · rw [he.timesTold, ha]
  | polling v x id hx hd hc hl ho hv hst ha =>
      rcases hentry v x id hx hl with ⟨hl', hst'⟩ | ⟨hst', -⟩
      · refine .polling v x id ((he.waiter v x).mpr hx) hd ?_ hl' (fun i hi => ?_) hv (hst ∘ hst') ?_
        · rw [he.checks v x hx, hc]
        · exact ho i (he.polls v x hx i hi)
        · rw [he.timesTold, ha]
      · exact absurd hst' hst
  | told hd ha =>
      exact .told (fun v x hx => hd v x ((he.waiter v x).mp hx)) (by rw [he.timesTold, ha])

/-- A check that is not over has been taken, and nothing of the wait is left but the response that
is being handled, if there is one. -/
structure Taken (n v : ℕ) (x : Waiter) (u : State) (batch : List Task) : Prop where
  own : Own n u
  waiter : u.WaitOf n v x
  done : x.done = false
  checks : u.checksOf v = 0
  told : timesTold n u.history = 0
  found : History.Always (Found u n) u.history
  counted : Counted u
  settled : (u.stack = [.draining batch] ∧ ∀ id, u.pending.lookup id ≠ some (.poll v)) ∨
    ∃ id, u.stack = [.eraseIt id, .draining batch] ∧ id < u.cmdId ∧
      ∀ i, u.pending.lookup i = some (.poll v) → i = id

namespace Taken
variable {batch : List Task}

theorem readContext (h : Taken n v x u batch) (c : ℕ) : Taken n v x (u.readContext c) batch := by
  have hk := readContext_keeps u c
  have he : Elsewhere n u (u.readContext c) := .keeps hk
  refine ⟨he.own h.own, (he.waiter v x).mpr h.waiter, h.done, ?_, ?_, he.found h.found, ?_, ?_⟩
  · rw [he.checks v x h.waiter, h.checks]
  · rw [he.timesTold, h.told]
  · obtain ⟨es, hes, hh⟩ := hk.history
    refine h.counted.grow hk.cmdId (fun id r hl => hk.pending ▸ hl) ?_
    rw [hh, issuedIds_append fun e he => (hes e he).untimed]
  · rw [hk.stack, hk.cmdId, hk.pending]
    exact h.settled

/-- Without a new poll none is left when the handling of the response ends. -/
theorem resume_polls (h : Taken n v x u batch) {w : State} (hs : w.stack = u.stack)
    (hw : w.pending = u.pending) (id : ℤ) : w.resume.pending.lookup id ≠ some (.poll v) := by
  rcases h.settled with ⟨hst, hp⟩ | ⟨id', hst, -, hp⟩
  · unfold State.resume
    simp only [hs, hst, hw]
    exact hp id
  · have hlookup : w.resume.pending.lookup id = if id = id' then none else u.pending.lookup id := by
      unfold State.resume
      simp only [hs, hst, hw]
      exact StdMap.lookup_erase_eq_ite _ _ _
    rw [hlookup]
    split
    · nofun
    · exact fun hl => ‹¬ _› (hp id hl)

/-- The done flag is set, and the application is told. -/
theorem tell (h : Taken n v x u batch) (a : Answer) (t : State)
    (ht : t = ((u.finishWaiter v).answer (.operation x.call) a).1) :
    Own n t ∧ WaitStage n t := by
  subst ht
  have ho := (h.own.finishWaiter v).answer (.operation x.call) a
  refine ⟨ho, .ended ho (v := v) (x := { x with done := true }) (finishWaiter_waitOf h.waiter) rfl ?_⟩
  have htold : Event.Tells n (.answered (.operation x.call) a) := congrArg Call.operation h.waiter.2
  have h0 := h.told
  simp only [timesTold] at h0
  simp [timesTold, State.answer, State.finishWaiter, htold, h0]

/-- The done flag is set, and nobody is told. -/
theorem silent (h : Taken n v x u batch) (t : State) (ht : t = State.finish (u.finishWaiter v, .done)) :
    ¬ t.InFlight n ∧ timesTold n t.history = 0 := by
  subst ht
  have he : Elsewhere n (u.finishWaiter v) (State.finish (u.finishWaiter v, .done)) :=
    .finish (r := (u.finishWaiter v, .done)) (.refl _)
  have hx := finishWaiter_waitOf h.waiter
  refine ⟨not_inFlight (he.own (h.own.finishWaiter v)) ((he.waiter _ _).mpr hx) ?_ ?_, ?_⟩
  · rw [he.checks _ _ hx]
    exact h.checks
  · rintro ⟨id, hl⟩
    exact (h.resume_polls (w := u.finishWaiter v) rfl rfl id hl).elim
  · rw [he.timesTold]
    exact h.told

/-- A script that cannot be written. -/
theorem unwritten (h : Taken n v x u batch) {method sessionId : Str} {params : Json}
    (hv : validUtf8 (State.existsScript x.selector) = false) (t : State)
    (ht : t = State.finish (u.sendCommand method params (.poll v) sessionId)) :
    ¬ t.InFlight n ∧ timesTold n t.history = 0 := by
  subst ht
  have he : Elsewhere n (u.sendCommand method params (.poll v) sessionId).1
    (State.finish (u.sendCommand method params (.poll v) sessionId)) := .finish (.refl _)
  have hx : (u.sendCommand method params (.poll v) sessionId).1.WaitOf n v x := by
    rw [State.WaitOf, sendCommand_waiters]
    exact h.waiter
  refine ⟨not_inFlight (he.own (h.own.poll _ _ _ _)) ((he.waiter _ _).mpr hx) ?_ fun _ => hv, ?_⟩
  · rw [he.checks _ _ hx, State.checksOf, waiting_sendCommand]
    exact h.checks
  · rw [he.timesTold, State.sendCommand_history]
    exact (timesTold_append (E := [_]) (by simp [Event.tells_iff])).trans h.told

/-- The next poll takes the token. -/
theorem send (h : Taken n v x u batch) {method sessionId : Str} {params : Json}
    (hv : validUtf8 (State.existsScript x.selector) = true)
    (hd : (Command.mk u.cmdId method params sessionId).dumpable = true) (t : State)
    (ht : t = State.finish (u.sendCommand method params (.poll v) sessionId)) :
    Own n t ∧ WaitStage n t ∧ History.Always (Found t n) t.history := by
  have hr : (u.sendCommand method params (.poll v) sessionId).2 = .done := State.sendCommand_done hd
  have he : Elsewhere n (u.sendCommand method params (.poll v) sessionId).1 t :=
    ht ▸ .finish (.refl _)
  have hx : (u.sendCommand method params (.poll v) sessionId).1.WaitOf n v x := by
    rw [State.WaitOf, sendCommand_waiters]
    exact h.waiter
  have hlookup := send_lookup u method params (.poll v) sessionId
  have hstack := State.sendCommand_stack u method params (.poll v) sessionId
  have hfound : History.Always (Found (u.sendCommand method params (.poll v) sessionId).1 n)
      (u.sendCommand method params (.poll v) sessionId).1.history := by
    refine found_mono (fun w hw => ?_) (E := [_]) (by simp) h.found (State.sendCommand_history _ _ _ _ _)
    simpa only [State.WaitOf, sendCommand_waiters] using hw
  refine ⟨he.own (h.own.poll _ _ _ _), ?_, he.found hfound⟩
  have hchecks : t.checksOf v = 0 := by
    rw [he.checks _ _ hx, State.checksOf, waiting_sendCommand]
    exact h.checks
  have htold : timesTold n t.history = 0 := by
    rw [he.timesTold, State.sendCommand_history]
    exact (timesTold_append (E := [_]) (by simp [Event.tells_iff])).trans h.told
  rcases h.settled with ⟨hst, hp⟩ | ⟨id, hst, hlt, hp⟩
  · have heq : t = (u.sendCommand method params (.poll v) sessionId).1 := by
      rw [ht, State.finish, hr]
      unfold State.resume
      simp only [hstack, hst]
    refine .polling v x u.cmdId ((he.waiter v x).mpr hx) h.done hchecks ?_ (fun i hi => ?_) hv ?_ htold
    · rw [heq, hlookup, if_pos rfl]
    · rw [heq, hlookup] at hi
      split at hi
      · assumption
      · exact absurd hi (hp i)
    · rw [heq, hstack, hst]
      simp
  · have heq : t = (u.sendCommand method params (.poll v) sessionId).1.erased id [.draining batch] := by
      rw [ht]
      exact State.finish_done hr (hstack.trans hst)
    have hl : ∀ i, t.pending.lookup i = if i = id then none else if i = u.cmdId then some (.poll v) else
        u.pending.lookup i := by
      intro i
      rw [heq, ← hlookup]
      exact StdMap.lookup_erase_eq_ite _ _ _
    refine .polling v x u.cmdId ((he.waiter v x).mpr hx) h.done hchecks ?_ (fun i hi => ?_) hv ?_ htold
    · rw [hl, if_neg (by omega), if_pos rfl]
    · rw [hl] at hi
      split at hi
      · cases hi
      · split at hi
        · assumption
        · exact absurd (hp i hi) ‹¬ i = id›
    · rw [heq]
      simp [State.erased]

/-- What becomes of the wait. -/
theorem check (h : Taken n v x u batch) (t : State) (ht : t = State.finish (u.check v)) :
    (u.closedOf x.ctx = false ∧ (u.timedOut x ∨ validUtf8 (State.existsScript x.selector) = true) →
      Own n t ∧ WaitStage n t ∧ History.Always (Found t n) t.history) ∧
    (¬ (u.closedOf x.ctx = false ∧ (u.timedOut x ∨ validUtf8 (State.existsScript x.selector) = true)) →
      ¬ t.InFlight n ∧ timesTold n t.history = 0) := by
  have hread := h.readContext x.ctx
  have hc := checked h.waiter.1 h.done
  generalize u.check v = r at hc ht
  cases hc with
  | closed hcl =>
      refine ⟨fun hgood => ?_, fun _ => hread.silent t ht⟩
      rw [hcl] at hgood
      cases hgood.1
  | timeout hcl hto =>
      refine ⟨fun _ => ?_, fun hbad => absurd ⟨hcl, .inl hto⟩ hbad⟩
      obtain ⟨ho, hstage⟩ := hread.tell (.error x.timeoutText) t ht
      refine ⟨ho, hstage, ?_⟩
      subst ht
      exact found_mono (fun _ => finishWaiter_exists v) (E := [_]) (by simp) hread.found rfl
  | poll hcl hto =>
      cases hv : validUtf8 (State.existsScript x.selector) with
      | true =>
          refine ⟨fun _ => ?_, fun hbad => absurd ⟨hcl, .inr rfl⟩ hbad⟩
          exact hread.send hv (Command.dumpable_of rfl (State.evaluate_dumpable hv) (State.sessionOf _ _).2) t ht
      | false =>
          refine ⟨fun hgood => (hgood.2.elim hto Bool.false_ne_true).elim, fun _ => hread.unwritten hv t ht⟩

/-- The response to a poll. -/
theorem respond (h : Taken n v x u batch) {id : ℤ} {reply : Reply} {past : List Event}
    (hh : u.history = .invoked id (.poll v) reply :: past) (hp : reply.polled ≠ none) (t : State)
    (ht : t = State.finish (u.invoke (.poll v) reply)) :
    ((reply.polled = some false →
        u.closedOf x.ctx = false ∧ (u.timedOut x ∨ validUtf8 (State.existsScript x.selector) = true)) →
      Own n t ∧ WaitStage n t ∧ History.Always (Found t n) t.history) ∧
    (reply.polled = some false →
      ¬ (u.closedOf x.ctx = false ∧ (u.timedOut x ∨ validUtf8 (State.existsScript x.selector) = true)) →
      ¬ t.InFlight n ∧ timesTold n t.history = 0) := by
  obtain ⟨b, hb⟩ := Option.ne_none_iff_exists'.mp hp
  cases b with
  | false =>
      rw [invoke_poll_false h.waiter.1 h.done hb] at ht
      obtain ⟨hgood, hbad⟩ := h.check t ht
      exact ⟨fun hc => hgood (hc hb), fun _ => hbad⟩
  | true =>
      refine ⟨fun _ => ?_, fun hf => ?_⟩
      · obtain ⟨hinvoke, result, rfl⟩ := invoke_poll_true h.waiter.1 h.done hb
        rw [hinvoke] at ht
        obtain ⟨ho, hstage⟩ := h.tell .done t ht
        refine ⟨ho, hstage, ?_⟩
        subst ht
        have hmono := found_mono (t := u.finishWaiter v) (fun _ => finishWaiter_exists v) (E := [])
          (by simp) h.found rfl
        refine ⟨fun _ => ⟨v, id, result, ⟨_, finishWaiter_waitOf h.waiter⟩, ?_, hb⟩, hmono⟩
        change u.history.head? = _
        rw [hh]
        rfl
      · rw [hb] at hf
        cases hf

end Taken

/-- The loop takes a posted check. -/
theorem Waiting.take (h : Waiting n s) {batch : List Task} (hx : s.WaitOf n v x) (hd : x.done = false)
    (hst : s.stack = [.draining (.check v :: batch)]) :
    Taken n v x { s with stack := [.draining batch] } batch := by
  have hcount : s.checksOf v = State.checksOf { s with stack := [.draining batch] } v + 1 := by
    simp [State.checksOf, State.waiting, hst, Frame.batch, Task.checks, List.countP_append, Nat.add_assoc]
  have hown : Own n { s with stack := [.draining batch] } := ⟨h.own.callers, h.own.unique⟩
  cases h.stage with
  | posted w y hy _ hc hp ha =>
      obtain ⟨rfl, rfl⟩ := h.own.waitOf hx hy
      refine ⟨hown, hx, hd, by omega, ha, h.found, ?_, .inl ⟨rfl, hp⟩⟩
      exact (h.orderly.counts h.unwrapped).grow rfl (fun _ _ => id) rfl
  | polling w y id hy _ hc =>
      obtain ⟨rfl, rfl⟩ := h.own.waitOf hx hy
      omega
  | told hover =>
      rw [hover v x hx] at hd
      cases hd

/-- The loop turns to the response to a poll. -/
theorem Waiting.answer (h : Waiting n s) {id : ℤ} {reply : Reply} (hx : s.WaitOf n v x)
    (hd : x.done = false) (ha : s.Answers id (.poll v) reply u) :
    ∃ batch past, Taken n v x u batch ∧ u.history = .invoked id (.poll v) reply :: past := by
  obtain ⟨conn, msg, batch, hst, hl, hid, hreply, rfl⟩ := ha
  refine ⟨batch, _, ?_, rfl⟩
  have hcounted := h.orderly.counts h.unwrapped
  cases h.stage with
  | posted w y hy _ hc hp =>
      obtain ⟨rfl, rfl⟩ := h.own.waitOf hx hy
      exact absurd hl (hp id)
  | polling w y id' hy _ hc hl' ho _ _ h0 =>
      obtain ⟨rfl, rfl⟩ := h.own.waitOf hx hy
      refine ⟨⟨h.own.callers, h.own.unique⟩, hx, hd, ?_, ?_, ?_, ?_, ?_⟩
      · rw [← hc]
        simp [State.checksOf, State.waiting, State.calling, State.log, hst, Frame.batch, Task.checks]
      · exact (timesTold_append (E := [_, _]) (by simp [Event.tells_iff])).trans h0
      · exact found_mono (s := s) (E := [.invoked id (.poll w) reply, .handling msg]) (fun _ h => h)
          (by simp) h.found rfl
      · exact hcounted.grow rfl (fun _ _ h => h) rfl
      · refine .inr ⟨id, rfl, (hcounted.pending_lt id _ hl).2, fun i hi => ?_⟩
        exact (ho i hi).trans (ho id hl).symm
  | told hover =>
      rw [hover v x hx] at hd
      cases hd

theorem checking_check {batch : List Task} {rest : List Frame}
    (hst : s.stack = .draining (.check v :: batch) :: rest) : s.checking .next = some v := by
  simp [State.checking, hst]

theorem checking_answers {id : ℤ} {reply : Reply} (ha : s.Answers id (.poll v) reply u) :
    s.checking .next = if reply.polled = some false then some v else none := by
  obtain ⟨conn, msg, batch, hst, hl, hid, hreply, -⟩ := ha
  simp [State.checking, hst, hl, hid, hreply]

/-- Where a check comes from. -/
theorem checking_cases (hsh : Shape s.stack) (hv : v ∈ s.checking l) (ht : s.step l = some t) : l = .next ∧
    ((∃ batch, s.stack = [.draining (.check v :: batch)]) ∨
      ∃ id reply u, s.Answers id (.poll v) reply u ∧ t = State.finish (u.invoke (.poll v) reply)) := by
  have hl : l = .next := by
    cases l <;> first | rfl | cases hv
  subst hl
  refine ⟨rfl, ?_⟩
  rcases State.step_next ht with ⟨rest, hst, rfl⟩ | ⟨task, batch, rest, hst, rfl⟩
  · simp [State.checking, hst] at hv
  · obtain rfl : rest = [] := by rwa [hst] at hsh
    cases task with
    | check w =>
        obtain rfl : w = v := by simpa [State.checking, hst] using hv
        exact .inl ⟨batch, hst⟩
    | message conn data =>
        cases data with
        | none => simp [State.checking, hst] at hv
        | some msg =>
            simp only [State.checking, hst] at hv
            split at hv
            · rename_i w reply hr hreply
              split at hv
              · obtain rfl : w = v := by simpa using hv
                obtain ⟨id, hid, hr⟩ := Option.bind_eq_some_iff.mp hr
                exact .inr ⟨id, reply, _, ⟨conn, msg, batch, hst, hr, hid, hreply, rfl⟩,
                  State.onWsMessage_response hid hr hreply⟩
              · cases hv
            · cases hv
    | _ => simp [State.checking, hst] at hv

/-- A step after the end of the wait. -/
theorem Waiting.rest (h : Waiting n s) (ho : Orderly t) (hk : n < t.calls)
    (hn : issuedCount t.history < 2 ^ 31)
    (hx : s.WaitOf n v x) (hd : x.done = true) {E : List Event} (hw : t.waiters = s.waiters)
    (hp : ∀ id r, t.pending.lookup id = some r → s.pending.lookup id = some r)
    (hh : t.history = E ++ s.history) (hE : ∀ e ∈ E, ¬ Event.Tells n e) : Waiting n t := by
  have hwait : ∀ w y, t.WaitOf n w y ↔ s.WaitOf n w y := fun w y => by rw [State.WaitOf, hw, State.WaitOf]
  refine ⟨ho, hk, ⟨fun id r hl => h.own.callers id r (hp id r hl), fun w w' y y' hy hy' => ?_⟩, hn, ?_, ?_⟩
  · exact h.own.unique w w' y y' ((hwait w y).mp hy) ((hwait w' y').mp hy')
  · have hover : timesTold n s.history = 1 := by
      cases h.stage with
      | posted w y hy hd' =>
          rw [(h.own.waitOf hx hy).2, hd] at hd'
          cases hd'
      | polling w y id hy hd' =>
          rw [(h.own.waitOf hx hy).2, hd] at hd'
          cases hd'
      | told _ ha => exact ha
    refine .told (fun w y hy => ?_) ?_
    · rw [(h.own.waitOf hx ((hwait w y).mp hy)).2, hd]
    · rw [hh, timesTold_append hE, hover]
  · refine found_mono (fun w => Exists.imp fun y => (hwait w y).mpr) (fun e he heq => hE e he ?_) h.found hh
    rw [heq]
    rfl

/-- The step hands the wait on, or it ends in silence. -/
def Waiting.Outcome (n : ℕ) (s : State) (l : Label) (t : State) : Prop :=
  (s.Attends n l → Waiting n t) ∧ (¬ s.Attends n l → ¬ t.InFlight n ∧ timesTold n t.history = 0)

theorem Waiting.step_response (h : Waiting n s) (ho : Orderly t) (hk : n < t.calls) (hn : issuedCount t.history < 2 ^ 31)
    {id : ℤ} {reply : Reply} (hx : s.WaitOf n v x) (ha : s.Answers id (.poll v) reply u)
    (ht : t = State.finish (u.invoke (.poll v) reply)) (hp : reply.polled ≠ none) :
    Waiting.Outcome n s .next t := by
  have hchecking := checking_answers ha
  cases hd : x.done with
  | true =>
      have hatt : s.Attends n .next := by
        intro w hw y hy _ hyd
        rw [hchecking] at hw
        split at hw
        · obtain rfl : v = w := by simpa using hw
          rw [Option.some.inj (hx.1.symm.trans hy), hyd] at hd
          cases hd
        · cases hw
      refine ⟨fun _ => ?_, fun hno => absurd hatt hno⟩
      obtain ⟨conn, msg, batch, hst, hl, hid, hreply, rfl⟩ := ha
      rw [invoke_poll_done (x := x) (u := (({ s with stack := [.draining batch] } : State).log
        (.handling msg)).calling id (.poll v) reply) hx.1 hd hp] at ht
      subst ht
      refine h.rest ho hk hn hx hd (E := [.invoked id (.poll v) reply, .handling msg]) rfl (fun i r hi => ?_) rfl
        (by simp [Event.tells_iff])
      have hi : AList.lookup i (AList.erase id s.pending) = some r := hi
      rw [StdMap.lookup_erase_eq_ite] at hi
      split at hi
      · cases hi
      · exact hi
  | false =>
      obtain ⟨batch, past, htaken, hh⟩ := h.answer hx hd ha
      obtain ⟨hgood, hbad⟩ := htaken.respond hh hp t ht
      have hu : u.closedOf x.ctx = s.closedOf x.ctx ∧ (u.timedOut x ↔ s.timedOut x) := by
        obtain ⟨conn, msg, b, -, -, -, -, rfl⟩ := ha
        exact ⟨rfl, .rfl⟩
      rw [hu.1, hu.2] at hgood hbad
      constructor
      · intro hatt
        obtain ⟨hown, hstage, hfound⟩ := hgood fun hf => by
          rw [if_pos hf] at hchecking
          exact hatt v hchecking x hx.1 hx.2 hd
        exact ⟨ho, hk, hown, hn, hstage, hfound⟩
      · intro hno
        by_contra hnot
        refine hno fun w hw y hy _ _ => ?_
        rw [hchecking] at hw
        split at hw
        · obtain rfl : v = w := by simpa using hw
          obtain rfl := Option.some.inj (hx.1.symm.trans hy)
          by_contra hc
          exact hnot (hbad ‹_› hc)
        · cases hw

theorem finish_check {batch : List Task} (hx : u.waiters[v]? = some x) (hd : x.done = false)
    (hst : u.stack = [.draining batch]) : State.finish (u.check v) = (u.check v).1 := by
  have hread : (u.readContext x.ctx).stack = [.draining batch] := (readContext_keeps u x.ctx).stack.trans hst
  have hc := checked hx hd
  generalize u.check v = r at hc
  cases hc with
  | closed => simp [State.finish, State.resume, State.finishWaiter, hread]
  | timeout => rfl
  | poll =>
      have hs : ((u.readContext x.ctx).evaluate x.ctx (State.existsScript x.selector) (.poll v)).1.stack =
          [.draining batch] := (State.sendCommand_stack _ _ _ _ _).trans hread
      unfold State.finish
      split
      · simp [State.resume, hs]
      · rfl
      · simp [State.unwind, hs]

theorem Waiting.step_check (h : Waiting n s) (ho : Orderly t) (hk : n < t.calls) (hn : issuedCount t.history < 2 ^ 31)
    {batch : List Task} (hx : s.WaitOf n v x) (hst : s.stack = [.draining (.check v :: batch)])
    (ht : t = (({ s with stack := [.draining batch] } : State).check v).1) :
    Waiting.Outcome n s .next t := by
  have hchecking := checking_check hst
  cases hd : x.done with
  | true =>
      have hatt : s.Attends n .next := by
        intro w hw y hy _ hyd
        obtain rfl : v = w := Option.some.inj (hchecking.symm.trans hw)
        rw [Option.some.inj (hx.1.symm.trans hy), hyd] at hd
        cases hd
      refine ⟨fun _ => ?_, fun hno => absurd hatt hno⟩
      rw [check_done (u := { s with stack := [.draining batch] }) hx.1 hd] at ht
      subst ht
      exact h.rest ho hk hn hx hd (E := []) rfl (fun _ _ h => h) rfl (by simp)
  | false =>
      have htaken := h.take hx hd hst
      rw [← finish_check htaken.waiter.1 hd rfl] at ht
      obtain ⟨hgood, hbad⟩ := htaken.check t ht
      constructor
      · intro hatt
        obtain ⟨hown, hstage, hfound⟩ := hgood (hatt v hchecking x hx.1 hx.2 hd)
        exact ⟨ho, hk, hown, hn, hstage, hfound⟩
      · intro hno
        by_contra hnot
        refine hno fun w hw y hy _ _ => ?_
        obtain rfl : v = w := Option.some.inj (hchecking.symm.trans hw)
        obtain rfl := Option.some.inj (hx.1.symm.trans hy)
        by_contra hc
        exact hnot (hbad hc)

theorem Waiting.step (h : Waiting n s) (ht : s.step l = some t) (hn : issuedCount t.history < 2 ^ 31)
    (hw : s.PollsWell n l) : Waiting.Outcome n s l t := by
  have hsh := h.orderly.shape
  have ho := h.orderly.step ht
  have hk := lt_of_lt_of_le h.known (h.orderly.known.calls_le ht hsh)
  by_cases hresponse : ∃ v x id reply u, s.WaitOf n v x ∧ l = .next ∧ s.Answers id (.poll v) reply u ∧
      t = State.finish (u.invoke (.poll v) reply)
  · obtain ⟨v, x, id, reply, u, hx, rfl, ha, hu⟩ := hresponse
    obtain ⟨msg, hm, hid, hr, hreply⟩ := ha.incoming
    exact h.step_response ho hk hn hx ha hu (hw msg hm id hid _ hr v rfl x hx.1 hx.2 reply hreply)
  by_cases hcheck : ∃ v x batch, s.WaitOf n v x ∧ l = .next ∧ s.stack = [.draining (.check v :: batch)]
  · obtain ⟨v, x, batch, hx, rfl, hst⟩ := hcheck
    refine h.step_check ho hk hn hx hst ?_
    simp only [State.step, hst, Option.some.injEq] at ht
    exact ht.symm
  have he : Elsewhere n s t := by
    rcases State.step_wait h.own (fun _ => h.known.ne') hsh ht with he | ⟨v, x, batch, hx, hl, hst, -⟩ | ha
    · exact he
    · exact absurd ⟨v, x, batch, hx, hl, hst⟩ hcheck
    · exact absurd ha hresponse
  constructor
  · refine fun _ => ⟨ho, hk, he.own h.own, hn, h.stage.elsewhere he fun v x id hx hl => ?_, he.found h.found⟩
    rcases State.step_entry h.orderly.counts hsh ht hn hl with hentry | ⟨reply, u, hnext, ha, hu⟩
    · exact hentry
    · exact absurd ⟨v, x, id, reply, u, hx, hnext, ha, hu⟩ hresponse
  · intro hno
    refine absurd (fun v hv x hx hc _ => ?_) hno
    obtain ⟨hl, ⟨batch, hst⟩ | ⟨id, reply, u, ha, hu⟩⟩ := checking_cases hsh hv ht
    · exact absurd ⟨v, x, batch, ⟨hx, hc⟩, hl, hst⟩ hcheck
    · exact absurd ⟨v, x, id, reply, u, ⟨hx, hc⟩, hl, ha, hu⟩ hresponse

theorem found_of_untold (w : State) {h : List Event} (h0 : timesTold n h = 0) :
    History.Always (Found w n) h := by
  have hnone : ∀ e ∈ h, ∀ past, Found w n e past := by
    rintro e he past rfl
    have hno := List.countP_eq_zero.mp h0 _ he
    exact absurd (decide_eq_true rfl) hno
  simpa using History.Always.append hnone History.always_nil

/-- The call finds the context closed. -/
theorem Waiting.refused (hu : Untold s) {a : Answer} (ha : a ≠ .done)
    (ht : t = ((s.enter .operation).answer (.operation s.calls) a).1) (ho : Orderly t)
    (hn : issuedCount t.history < 2 ^ 31) : Waiting s.calls t := by
  have hown := hu.own s.calls le_rfl
  have htold := hu.told s.calls le_rfl
  subst ht
  refine ⟨ho, Nat.lt_succ_self _, ⟨hown.callers, hown.unique⟩, hn, .told (fun v x hx => ?_) ?_, ?_, nofun, ?_⟩
  · exact absurd hx (hu.waiters s.calls le_rfl v x)
  · have h0 : timesTold s.calls (.called (.operation s.calls) :: s.history) = 0 :=
      (timesTold_append (E := [_]) (by simp [Event.tells_iff])).trans htold
    have htells : decide (Event.Tells s.calls (.answered (.operation s.calls) a)) = true := decide_eq_true rfl
    exact (List.countP_cons_of_pos (p := fun e => decide (Event.Tells s.calls e)) htells).trans
      (congrArg (· + 1) h0)
  · intro heq
    cases heq
    exact absurd rfl ha
  · exact found_of_untold _ htold

/-- The new closure is the only one of the call. -/
theorem Untold.only {y : Waiter} (hu : Untold s) (hy : (s.waiters ++ [x])[v]? = some y) (hc : y.call = s.calls) :
    v = s.waiters.length ∧ y = x := by
  rcases Nat.lt_trichotomy v s.waiters.length with hv | rfl | hv
  · rw [List.getElem?_append_left hv] at hy
    exact absurd ⟨hy, hc⟩ (hu.waiters s.calls le_rfl v y)
  · rw [List.getElem?_concat_length] at hy
    exact ⟨rfl, (Option.some.inj hy).symm⟩
  · rw [List.getElem?_eq_none (by simp only [List.length_append, List.length_singleton]; omega)] at hy
    cases hy

/-- The first check is posted. -/
theorem Waiting.posted (hu : Untold s) (hx : x.call = s.calls) (hd : x.done = false)
    (ht : t = ({ s.enter .operation with waiters := s.waiters ++ [x] } : State).post
      (.check s.waiters.length)) (ho : Orderly t) (hn : issuedCount t.history < 2 ^ 31) :
    Waiting s.calls t := by
  have hown := hu.own s.calls le_rfl
  have htold := hu.told s.calls le_rfl
  obtain ⟨hcount, hpolls⟩ := hu.spare s.waiters.length (List.getElem?_eq_none le_rfl)
  subst ht
  refine ⟨ho, Nat.lt_succ_self _, ⟨hown.callers, fun v v' y y' hy hy' => ?_⟩, hn,
    .posted s.waiters.length x ⟨List.getElem?_concat_length, hx⟩ hd ?_ hpolls ?_, nofun, ?_⟩
  · exact (hu.only hy.1 hy.2).1.trans (hu.only hy'.1 hy'.2).1.symm
  · simp only [State.checksOf, State.waiting, State.post, UvScheduler.post, UvScheduler.asyncSend_postQueue,
      UvScheduler.push_postQueue, State.enter, List.countP_append, List.countP_cons, List.countP_nil,
      Task.checks, beq_self_eq_true, if_true] at hcount ⊢
    omega
  · exact (timesTold_append (E := [_]) (by simp [Event.tells_iff])).trans htold
  · exact found_of_untold _ htold

theorem Waiting.begin {c : ℕ} {selector : Str} {timeoutMs : ℕ} (h : Orderly s) (hu : Untold s)
    (ht : s.step (.waitForSelector c selector timeoutMs) = some t) (hn : issuedCount t.history < 2 ^ 31) :
    Waiting s.calls t := by
  have ho := h.step ht
  simp only [State.step, Option.ite_none_right_eq_some, Option.some.injEq] at ht
  obtain ⟨-, ht⟩ := ht
  unfold State.waitForSelector at ht
  split at ht
  · exact .refused hu (by simp) ht.symm ho hn
  · exact .posted hu rfl rfl ht.symm ho hn

/-- As long as the commands can be counted and the responses to its polls can be read, a wait
completes exactly once, if and only if no check of it finds the context closed or a script that
cannot be written. -/
theorem wait_completes_once_iff {ks ls : List Label} {m t s : State} {c : ℕ} {selector : Str} {timeoutMs : ℕ}
    (hm : Transition.run State.step init ks = some m)
    (ht : m.step (.waitForSelector c selector timeoutMs) = some t)
    (hr : Transition.run State.step t ls = some s) (hn : issuedCount s.history < 2 ^ 31)
    (hp : Transition.Along State.step (State.PollsWell m.calls) t ls) :
    (∀ ks' u, ks' <+: ls → Transition.run State.step t ks' = some u → Completes m.calls u) ↔
      Transition.Along State.step (State.Attends m.calls) t ls := by
  have horderly := run_orderly .init hm
  have hfirst := lt_of_le_of_lt ((horderly.step ht).run_issued_le hr) hn
  exact Transition.along_iff_prefixes_of (I := Waiting m.calls) (P := Completes m.calls)
    (fun _ _ v hu hd hc hv => (hu.step hv (hd.2 v hv) hd.1).1 hc)
    (fun _ hu => hu.completes)
    (fun _ _ v hu hd hc hv hP => by
      obtain ⟨hw, h0⟩ := (hu.step hv (hd.2 v hv) hd.1).2 hc
      have h1 := hP.told hw
      omega)
    (.begin horderly (run_untold hm) ht hfirst) (hp.and ((horderly.step ht).along_issued hr hn)) hr

/-- A context in the cache, and the application outside of any call. -/
def oneContext : List Label := connect ++ [.getContext (str "xhs")] ++ answerChain 1

/-- The result of an evaluate whose value is a boolean. -/
def valueResult (b : Bool) : Parsed :=
  .object [(⟨str "result", Eq.refl true⟩, .object [(⟨str "value", Eq.refl true⟩, .boolean b)])]

/-- The first poll says no, the second one yes. -/
def secondPoll : List Label :=
  [.wake, .swap, .next, .next] ++ arrive (okMessage 5 (valueResult false)) ++ [.next] ++
    arrive (okMessage 6 (valueResult true)) ++ [.ret, .next]

theorem wait_completes_once_sample : ∃ m t s, Transition.run State.step init oneContext = some m ∧
    m.step (.waitForSelector 0 (str "#ok") 2000) = some t ∧
    Transition.run State.step t secondPoll = some s ∧ Completes m.calls s ∧ ¬ s.InFlight m.calls := by
  have h : (Transition.run State.step init oneContext).any (fun m =>
      (m.step (.waitForSelector 0 (str "#ok") 2000)).any fun t =>
        (Transition.run State.step t secondPoll).any fun s => issuedCount s.history < 2 ^ 31 ∧
          Transition.Along State.step (State.PollsWell m.calls) t secondPoll ∧
          Transition.Along State.step (State.Attends m.calls) t secondPoll ∧ ¬ s.InFlight m.calls) = true := by
    decide +kernel
  obtain ⟨m, hm, h⟩ := Option.any_eq_true _ _ |>.mp h
  obtain ⟨t, ht, h⟩ := Option.any_eq_true _ _ |>.mp h
  obtain ⟨s, hs, h⟩ := Option.any_eq_true _ _ |>.mp h
  simp only [decide_eq_true_eq] at h
  obtain ⟨hn, hp, hatt, hno⟩ := h
  exact ⟨m, t, s, hm, ht, hs, (wait_completes_once_iff hm ht hs hn hp).mpr hatt secondPoll s
    (List.prefix_refl _) hs, hno⟩

/-- The application closes the context before the first check. -/
def closedMeanwhile : List Label := [.close 0, .wake, .swap, .next, .next]

theorem closed_wait_is_silent : ¬ ∀ (ks ls : List Label) (m t s : State) (c : ℕ) (selector : Str) (timeoutMs : ℕ),
    Transition.run State.step init ks = some m → m.step (.waitForSelector c selector timeoutMs) = some t →
    Transition.run State.step t ls = some s → issuedCount s.history < 2 ^ 31 →
    Transition.Along State.step (State.PollsWell m.calls) t ls → Completes m.calls s := by
  have h : (Transition.run State.step init oneContext).any (fun m =>
      (m.step (.waitForSelector 0 (str "#ok") 2000)).any fun t =>
        (Transition.run State.step t closedMeanwhile).any fun s => issuedCount s.history < 2 ^ 31 ∧
          Transition.Along State.step (State.PollsWell m.calls) t closedMeanwhile ∧
          ¬ s.InFlight m.calls ∧ timesTold m.calls s.history = 0) = true := by
    decide +kernel
  obtain ⟨m, hm, h⟩ := Option.any_eq_true _ _ |>.mp h
  obtain ⟨t, ht, h⟩ := Option.any_eq_true _ _ |>.mp h
  obtain ⟨s, hs, h⟩ := Option.any_eq_true _ _ |>.mp h
  simp only [decide_eq_true_eq] at h
  obtain ⟨hn, hp, hno, h0⟩ := h
  intro hall
  have h1 := (hall oneContext closedMeanwhile m t s 0 (str "#ok") 2000 hm ht hs hn hp).told hno
  omega

end LynneSocial.Browser
