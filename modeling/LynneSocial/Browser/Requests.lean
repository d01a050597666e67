import LynneSocial.Browser.Chains

/-!
# Requests

One call of `get_context`, `save_session` or `restore_session` among everything
else that goes on. A step has nothing to do with the call, or it handles the
response to a command of the call's chain.
-/
namespace LynneSocial.Browser

/-- What becomes of the call is told by these events. -/
def Event.OfCall (n : ℕ) : Event → Prop
  | .answered call _ => call = .request n
  | .issued _ r | .invoked _ r _ => r.caller = some (.request n)
  | .handedOut _ _ k | .cached _ _ k | .rejected _ k => k.call = n
  | _ => False

/-- Actions on behalf of others. -/
def apart (n : ℕ) : Rules where
  send _ _ r := r.caller ≠ some (.request n)
  answer c := c ≠ .request n

/-- Nothing happens to the call, except that an entry of its chain may be overwritten. -/
structure Apart (n : ℕ) (s t : State) : Prop where
  calls : s.calls ≤ t.calls
  pending : ∀ id r, r.caller = some (.request n) → t.pending.lookup id = some r →
    s.pending.lookup id = some r
  history : ∃ es, (∀ e ∈ es, ¬ Event.OfCall n e) ∧ t.history = es ++ s.history

variable {s t u : State} {n : ℕ}

theorem Apart.trans (h : Apart n s t) (k : Apart n t u) : Apart n s u := by
  obtain ⟨es, hes, hh⟩ := h.history
  obtain ⟨fs, hfs, hk⟩ := k.history
  refine ⟨h.calls.trans k.calls, fun id r hr hl => h.pending id r hr (k.pending id r hr hl),
    fs ++ es, ?_, ?_⟩
  · intro e he
    exact (List.mem_append.mp he).elim (hfs e) (hes e)
  · rw [hk, hh, List.append_assoc]

/-- The entries stay, and only events of others are logged. -/
theorem Apart.of {E : List Event} (hc : s.calls ≤ t.calls) (hp : t.pending = s.pending)
    (hh : t.history = E ++ s.history) (h : ∀ e ∈ E, ¬ Event.OfCall n e) : Apart n s t :=
  ⟨hc, fun _ _ _ hl => hp ▸ hl, E, h, hh⟩

theorem Apart.still (h : (t.calls, t.pending, t.history) = (s.calls, s.pending, s.history)) :
    Apart n s t := by
  simp only [Prod.mk.injEq] at h
  exact .of (E := []) h.1.ge h.2.1 h.2.2 nofun

theorem Apart.logs {e : Event} (h : (t.calls, t.pending, t.history) =
    (s.calls, s.pending, e :: s.history)) (he : ¬ e.OfCall n) : Apart n s t := by
  simp only [Prod.mk.injEq] at h
  exact .of (E := [e]) h.1.ge h.2.1 h.2.2 (by simpa using he)

theorem Apart.refl (s : State) : Apart n s s := .still rfl

theorem Event.silent.apart {e : Event} (h : e.silent) : ¬ e.OfCall n := by
  cases e <;> simp_all [Event.silent, Event.OfCall]

theorem Calm.apart (h : Calm s t) : Apart n s t := by
  obtain ⟨es, hes, hh⟩ := h.history
  exact .of h.calls.ge h.pending hh fun e he => (hes e he).apart

theorem Apart.issue {r : PendingRequest} (s : State) (hr : r.caller ≠ some (.request n)) :
    Apart n s (s.issue r) := by
  refine ⟨le_rfl, fun id r' hr' hl => ?_, [.issued s.cmdId r], by simpa [Event.OfCall], rfl⟩
  rw [issue_lookup] at hl
  split at hl
  · cases hl
    exact absurd hr' hr
  · exact hl

theorem Apart.send (s : State) (method : Str) (params : Json) {r : PendingRequest} (sessionId : Str)
    (hr : r.caller ≠ some (.request n)) : Apart n s (s.sendCommand method params r sessionId).1 :=
  (Apart.issue s hr).trans (s.sendCommand_calm method params r sessionId).apart

theorem Act.apart (h : Act (apart n) s t) : Apart n s t := by
  cases h with
  | enter kind => exact .of (E := [_]) (Nat.le_succ _) rfl rfl (by simp [Event.OfCall])
  | send method params r sessionId _ hr => exact .send s method params sessionId hr
  | create platform targetId sid k method params sessionId hr =>
      have hheap : Apart n s { s with heap := s.heap ++ [{ platform, targetId, sessionId := sid }] } :=
        .still rfl
      exact hheap.trans (.send _ method params sessionId hr)
  | answer c a hc =>
      have hc : c ≠ .request n := hc
      exact .logs rfl (by simpa [Event.OfCall] using hc)
  | handOut platform c k _ _ hk =>
      have hk : k.call ≠ n := fun h => hk (by rw [h])
      exact .logs rfl (by simpa [Event.OfCall] using hk)
  | deliver platform c m _ hm =>
      have hm : m ≠ n := fun h => hm (by rw [h])
      have hfst : Apart n s (s.log (.handedOut platform c (.getContext m))) :=
        .logs rfl (by simpa [Event.OfCall, Continuation.call] using hm)
      exact hfst.trans (.logs (e := .answered (.request m) (.context c)) rfl
        (by simpa [Event.OfCall] using hm))
  | close => exact .still rfl
  | user => exact .still rfl
  | read c => exact (s.readContext_calm c).apart
  | wait => exact .still rfl
  | aside _ h => exact h.calm.apart

theorem Parts.apart (h : Parts (apart n) s t) : Apart n s t :=
  Parts.invariant (I := fun u => Apart n s u) (fun _ _ hs h => hs.trans h.apart)
    (fun _ _ hs h => hs.trans h.calm.apart) h (.refl s)

theorem Settles.apart (h : Settles s t) : Apart n s t := by
  cases h with
  | stay => exact .refl s
  | erase id rest =>
      refine ⟨le_rfl, fun id' r _ hl => ?_, [], by simp, rfl⟩
      have hl : AList.lookup id' (AList.erase id s.pending) = some r := hl
      rw [StdMap.lookup_erase_eq_ite] at hl
      split at hl
      · cases hl
      · exact hl
  | escape => exact .logs rfl id

theorem Keeps.apart {E : List Event} (h : Keeps s t) (hh : t.history = E ++ s.history)
    (hes : ∀ e ∈ E, ¬ Event.OfCall n e) : Apart n s t :=
  .of h.calls.ge h.pending hh hes

theorem Touches.apart {r : PendingRequest} {reply : Reply} (h : Touches r reply s t)
    (hr : r.caller ≠ some (.request n)) : Apart n s t := by
  have hkeeps := h.keeps
  have hcall : ∀ {platform c k}, r = .addScript platform c k → k.call ≠ n := by
    rintro platform c k rfl rfl
    exact hr rfl
  cases h with
  | plain => exact .refl s
  | cache platform c k result =>
      have hreset : (s.resetContext platform c).history = s.history := by
        unfold State.resetContext
        split <;> rfl
      refine hkeeps.apart (E := [.cached platform c k]) ?_ (by simpa [Event.OfCall] using hcall rfl)
      simp [State.log, hreset]
  | reject platform c k text =>
      exact hkeeps.apart (E := [.rejected c k]) rfl (by simpa [Event.OfCall] using hcall rfl)
  | remove c call result =>
      have hremove : Apart n (s.readContext c) ((s.readContext c).removeContext (s.platformOf c)) := by
        refine (removeContext_keeps _ _).apart (E := []) ?_ (by simp)
        unfold State.removeContext
        split <;> rfl
      exact (s.readContext_calm c).apart.trans hremove

theorem clearContexts_apart (s : State) : Apart n s s.clearContexts := by
  rw [State.clearContexts_eq]
  exact .still rfl

/-- The loop turns to the response to this entry; the callback is about to be called. -/
def State.Answers (s : State) (id : ℤ) (r : PendingRequest) (reply : Reply) (u : State) : Prop :=
  ∃ conn msg batch, s.stack = [.draining (.message conn (some msg) :: batch)] ∧
    s.pending.lookup id = some r ∧ msg.id? = some id ∧ msg.reply = some reply ∧
    u = ((({ s with stack := [.draining batch] } : State).log (.handling msg)).calling id r reply)

theorem message_apart (s : State) (msg : Parsed)
    (hr : ∀ id r reply, msg.id? = some id → s.pending.lookup id = some r → msg.reply = some reply →
      r.caller ≠ some (.request n)) : Apart n s (s.onWsMessage (some msg)) := by
  have hlog : Apart n s (s.log (.handling msg)) := .logs rfl id
  rcases s.onWsMessage_cases (ρ := apart n) msg with ⟨hp, -⟩ | ⟨id, r, reply, hid, hl, hreply, heq⟩
  · exact hlog.trans hp.apart
  · have hne := hr id r reply hid hl hreply
    have hsends : ∀ (l : Line) (c : Option Call) (D : Prop) (linking : Bool),
        c ≠ some (.request n) → (apart n).Sends l c D false linking :=
      fun l c D linking hc cmd r' _ hr' _ _ _ => by
        change r'.caller ≠ _
        rwa [hr']
    obtain ⟨u, hu, hv⟩ := State.invoke_cases (ρ := apart n)
      ((s.log (.handling msg)).calling id r reply) r reply
      (fun c hc h => hne (by rw [hc, h])) (fun m => nofun) (fun _ _ => trivial)
      (fun _ => hsends _ _ _ _ hne) (fun _ _ _ _ _ _ _ => hsends _ _ _ _ nofun)
      (fun _ _ _ _ _ _ _ => trivial)
    have hcall : Apart n (s.log (.handling msg)) ((s.log (.handling msg)).calling id r reply) :=
      .logs rfl (by simpa [Event.OfCall] using hne)
    rw [heq]
    exact (hlog.trans hcall).trans ((hu.apart hne).trans (hv.parts.apart.trans
      (State.finish_settles _).apart))

/-- A step has nothing to do with the call, or it handles the response to one of its commands. -/
theorem State.step_apart {l : Label} (ht : s.step l = some t) (hsh : Shape s.stack)
    (hn : l.isRequest = true → n ≠ s.calls) :
    Apart n s t ∨ ∃ id r reply u, l = .next ∧ s.Answers id r reply u ∧ r.caller = some (.request n) ∧
      t = finish (u.invoke r reply) := by
  cases hl : s.ofSession l with
  | true =>
      left
      rcases step_session_cases ht hsh hl with hc | ⟨-, -, hc⟩ | ⟨u, hu, rfl⟩
      · exact hc.apart
      · exact (clearContexts_apart s).trans hc.apart
      · exact hu.apart.trans (.send u _ _ _ nofun)
  | false =>
      have hsends : ∀ (l : Line) (c : Option Call) (D : Prop) (closing linking : Bool),
          c ≠ some (.request n) → (apart n).Sends l c D closing linking :=
        fun l c D closing linking hc cmd r' _ hr' _ _ _ => by
          change r'.caller ≠ _
          rwa [hr']
      have hnew : l.isRequest = true → Call.request s.calls ≠ .request n := by
        rintro hr h
        injection h with h
        exact hn hr h.symm
      have hpop : ∀ rest, Apart n s { s with stack := rest } := fun rest => .still rfl
      rcases step_parts (ρ := apart n) ht hsh hl hnew (fun m => nofun)
        (fun _ => hsends _ _ _ _ _ (by
          unfold callerOf
          split
          · simpa using hnew ‹_›
          · nofun))
        (fun _ _ _ _ => trivial)
        (fun _ _ _ _ => ⟨fun _ _ => trivial, fun _ => hsends _ _ _ _ _ nofun⟩) (fun _ _ => trivial) with
        h | ⟨-, rest, -, rfl⟩ | ⟨-, rest, -, rfl⟩ | ⟨rfl, conn, msg, batch, hst, rfl⟩
      · exact .inl h.apart
      · exact .inl ((hpop rest).trans (resume_settles _).apart)
      · exact .inl ((hpop rest).trans (unwind_settles _).apart)
      · by_cases hc : ∃ id r reply, msg.id? = some id ∧ s.pending.lookup id = some r ∧
          msg.reply = some reply ∧ r.caller = some (.request n)
        · obtain ⟨id, r, reply, hid, hr, hreply, hc⟩ := hc
          refine .inr ⟨id, r, reply, _, rfl, ⟨conn, msg, batch, hst, hr, hid, hreply, rfl⟩, hc, ?_⟩
          exact onWsMessage_response hid hr hreply
        · refine .inl ((hpop _).trans (message_apart _ msg ?_))
          intro id r reply hid hr hreply h
          exact hc ⟨id, r, reply, hid, hr, hreply, h⟩

/-- The entry belongs to the chain of a call with this continuation. -/
def PendingRequest.Serves (k : Continuation) : PendingRequest → Prop
  | createTarget _ k' | attachToTarget _ _ k' | addScript _ _ k' => k' = k
  | getCookies platform n => k = .saveSession platform n
  | setCookies n => ∃ cookies, k = .restoreSession cookies n
  | _ => False

theorem PendingRequest.Serves.caller {k : Continuation} {r : PendingRequest} (h : r.Serves k) :
    r.caller = some (.request k.call) := by
  cases r <;> simp only [PendingRequest.Serves] at h
  case getCookies => rw [h]; rfl
  case setCookies => obtain ⟨cookies, rfl⟩ := h; rfl
  all_goals rw [← h]; rfl

/-- What the functions of such an entry do. -/
inductive Proceeds (k : Continuation) (id : ℤ) (rest : List Frame) (u : State) :
    PendingRequest → Reply → State → Prop
  | attach (p : Str) (T : ValidStr) (result : Parsed) :
      Proceeds k id rest u (.createTarget p k) (.ok result) ((u.attach p T k).erased id rest)
  | script (p : Str) (T S : ValidStr) (result : Parsed) :
      Proceeds k id rest u (.attachToTarget p T k) (.ok result)
        (((u.script p T S k).enable S).erased id rest)
  | deliver (p : Str) (c : ℕ) (result : Parsed) (hk : k.sends = false) :
      Proceeds k id rest u (.addScript p c k) (.ok result)
        (k.onOk ((u.resetContext p c).log (.cached p c k)) p c).1
  | ask (p : Str) (c : ℕ) (result : Parsed) (hk : k.sends = true) :
      Proceeds k id rest u (.addScript p c k) (.ok result)
        ((k.onOk ((u.resetContext p c).log (.cached p c k)) p c).1.erased id rest)
  /-- The one response that no function of the application hears of. -/
  | reject (p : Str) (c : ℕ) (text : Str) :
      Proceeds k id rest u (.addScript p c k) (.error text)
        (((u.destroy c).log (.rejected c k)).erased id rest)
  | saved (p : Str) (n : ℕ) (result cookies : Parsed) :
      Proceeds k id rest u (.getCookies p n) (.ok result)
        ((u.log (.saved p cookies)).answer (.request n) .done).1
  | restored (n : ℕ) (result : Parsed) :
      Proceeds k id rest u (.setCookies n) (.ok result) (u.answer (.request n) (.restored true)).1
  | refuse (r : PendingRequest) (text : Str) (hr : r.context? = none) :
      Proceeds k id rest u r (.error text) (u.answer (.request k.call) (.error text)).1
  /-- A result lacks a field. -/
  | escape (r : PendingRequest) (result : Parsed) (hr : r.context? = none ∧ ∀ n, r ≠ .setCookies n) :
      Proceeds k id rest u r (.ok result)
        { u with stack := rest, history := .escaped id :: u.history }

theorem Continuation.onOk_done {k : Continuation} (hk : k.sends = true) (s : State) (p : Str) (c : ℕ) :
    (k.onOk s p c).2 = .done := by
  cases k with
  | getContext => cases hk
  | saveSession platform n =>
      exact State.sendCommand_done (Command.dumpable_of rfl rfl (State.sessionOf _ c).2)
  | restoreSession cookies n =>
      exact State.sendCommand_done (Command.dumpable_of rfl (single_dumpable rfl cookies.valid)
        (State.sessionOf _ c).2)

theorem Continuation.onOk_stack {k : Continuation} (hk : k.sends = true) (s : State) (p : Str) (c : ℕ) :
    (k.onOk s p c).1.stack = s.stack := by
  cases k with
  | getContext => cases hk
  | saveSession platform n => exact State.sendCommand_stack _ _ _ _ _
  | restoreSession cookies n => exact State.sendCommand_stack _ _ _ _ _

theorem resetContext_stack (s : State) (p : Str) (c : ℕ) : (s.resetContext p c).stack = s.stack :=
  congrArg Line.stack (State.resetContext_line s p c)

theorem resetContext_cmdId (s : State) (p : Str) (c : ℕ) : (s.resetContext p c).cmdId = s.cmdId :=
  congrArg Line.cmdId (State.resetContext_line s p c)

theorem resetContext_history (s : State) (p : Str) (c : ℕ) :
    (s.resetContext p c).history = s.history := by
  unfold State.resetContext
  split <;> rfl

namespace State

theorem sendCommand_history (s : State) (method : Str) (params : Json) (r : PendingRequest)
    (sessionId : Str) :
    (s.sendCommand method params r sessionId).1.history = .issued s.cmdId r :: s.history := by
  unfold sendCommand
  dsimp only
  split
  · split <;> rfl
  · rfl

theorem script_enable_history (s : State) (p : Str) (T S : ValidStr) (k : Continuation) :
    ((s.script p T S k).enable S).history =
      [.issued (s.script p T S k).cmdId .ignored, .issued s.cmdId (.addScript p s.heap.length k)] ++
        s.history :=
  (sendCommand_history _ _ _ _ _).trans (congrArg (_ :: ·) (sendCommand_history _ _ _ _ _))

end State

theorem proceeds {k : Continuation} {r : PendingRequest} {id : ℤ} {rest : List Frame} (reply : Reply)
    (hr : r.Serves k) (hst : u.stack = .eraseIt id :: rest) :
    Proceeds k id rest u r reply (State.finish (u.invoke r reply)) := by
  cases r with
  | createTarget p k' =>
      obtain rfl : k' = k := hr
      cases reply with
      | error text => exact .refuse _ text rfl
      | ok result =>
          rw [State.invoke_createTarget]
          split
          · rw [State.finish_raise rfl hst]
            exact .escape _ result ⟨rfl, nofun⟩
          · rw [State.finish_done rfl (by rwa [State.attach_stack])]
            exact .attach p _ result
  | attachToTarget p T k' =>
      obtain rfl : k' = k := hr
      cases reply with
      | error text => exact .refuse _ text rfl
      | ok result =>
          rw [State.invoke_attachToTarget]
          split
          · rw [State.finish_raise rfl hst]
            exact .escape _ result ⟨rfl, nofun⟩
          · rw [State.finish_done rfl (by rwa [State.enable_stack, State.script_stack])]
            exact .script p T _ result
  | addScript p c k' =>
      obtain rfl : k' = k := hr
      cases reply with
      | error text =>
          have hdone := State.finish_done (r := ((u.destroy c).log (.rejected c k'), .done)) rfl hst
          exact hdone ▸ .reject p c text
      | ok result =>
          have hlog : ((u.resetContext p c).log (.cached p c k')).stack = .eraseIt id :: rest := by
            rw [← hst, ← resetContext_stack u p c]
            rfl
          cases hk : k'.sends with
          | true =>
              have hdone := State.finish_done (k'.onOk_done hk _ p c)
                ((k'.onOk_stack hk _ p c).trans hlog)
              exact hdone ▸ .ask p c result hk
          | false =>
              cases k' with
              | getContext n => exact .deliver p c result hk
              | saveSession => cases hk
              | restoreSession => cases hk
  | getCookies p n =>
      obtain rfl : k = .saveSession p n := hr
      cases reply with
      | error text => exact .refuse _ text rfl
      | ok result =>
          cases hc : result.find? (str "cookies") with
          | none =>
              have hraise : u.invoke (.getCookies p n) (.ok result) = (u, .raise) := by
                simp only [State.invoke, hc]
              rw [hraise, State.finish_raise rfl hst]
              exact .escape _ result ⟨rfl, nofun⟩
          | some cookies =>
              have hsave : u.invoke (.getCookies p n) (.ok result) =
                  (u.log (.saved p cookies)).answer (.request n) .done := by
                simp only [State.invoke, hc]
              rw [hsave]
              exact .saved p n result cookies
  | setCookies n =>
      obtain ⟨cookies, rfl⟩ := hr
      cases reply with
      | error text => exact .refuse _ text rfl
      | ok result => exact .restored n result
  | _ => exact hr.elim

/-- Whatever answers the call serves this continuation. -/
def Bound (k : Continuation) (s : State) : Prop :=
  ∀ id r, s.pending.lookup id = some r → r.caller = some (.request k.call) → r.Serves k

/-- No entry belongs to a call to come. -/
def Known (s : State) : Prop :=
  ∀ id r n, s.pending.lookup id = some r → r.caller = some (.request n) → n < s.calls

variable {k : Continuation} {l : Label}

theorem Bound.congr (h : Bound k s) (hp : t.pending = s.pending) : Bound k t :=
  fun id r hl => h id r (hp ▸ hl)

theorem Bound.send (h : Bound k s) (method : Str) (params : Json) {r : PendingRequest}
    (sessionId : Str) (hr : r.caller = some (.request k.call) → r.Serves k) :
    Bound k (s.sendCommand method params r sessionId).1 := by
  intro id r' hl hc
  rw [(s.sendCommand_calm method params r sessionId).pending, issue_lookup] at hl
  split at hl
  · cases hl
    exact hr hc
  · exact h id r' hl hc

theorem Bound.erased (h : Bound k s) (id : ℤ) (rest : List Frame) : Bound k (s.erased id rest) := by
  intro id' r hl
  have hl : AList.lookup id' (AList.erase id s.pending) = some r := hl
  rw [StdMap.lookup_erase_eq_ite] at hl
  split at hl
  · cases hl
  · exact h id' r hl

theorem resetContext_pending (s : State) (p : Str) (c : ℕ) :
    (s.resetContext p c).pending = s.pending :=
  congrArg Line.pending (State.resetContext_line s p c)

theorem Bound.onOk (h : Bound k s) (p : Str) (c : ℕ) : Bound k (k.onOk s p c).1 := by
  cases k with
  | getContext n => exact h
  | saveSession platform n =>
      exact Bound.send (s := s.log _) h _ _ _ fun _ => rfl
  | restoreSession cookies n =>
      exact Bound.send (s := s.log _) h _ _ _ fun _ => ⟨cookies, rfl⟩

theorem Bound.carry {id : ℤ} {rest : List Frame} {r : PendingRequest} {reply : Reply}
    (h : Bound k u) (hp : Proceeds k id rest u r reply t) : Bound k t := by
  have hcache : ∀ p c, Bound k ((u.resetContext p c).log (.cached p c k)) :=
    fun p c => h.congr (resetContext_pending u p c)
  cases hp with
  | attach p T => exact (Bound.send (r := .attachToTarget p T k) h _ _ _ fun _ => rfl).erased id rest
  | script p T S =>
      have hheap : Bound k { u with heap := u.heap ++ [{ platform := p, targetId := T, sessionId := S }] } := h
      have hadd := hheap.send (r := .addScript p u.heap.length k)
        (str "Page.addScriptToEvaluateOnNewDocument") (.object [(str "source", .str State.stealth)]) S
        fun _ => rfl
      exact (hadd.send (r := .ignored) _ _ _ nofun).erased id rest
  | deliver p c => exact (hcache p c).onOk p c
  | ask p c => exact ((hcache p c).onOk p c).erased id rest
  | reject p c => exact Bound.erased (s := (u.destroy c).log (.rejected c k)) h id rest
  | _ => exact h

theorem Bound.answers {id : ℤ} {r : PendingRequest} {reply : Reply} (h : Bound k s)
    (ha : s.Answers id r reply u) : Bound k u := by
  obtain ⟨conn, msg, batch, -, -, -, -, rfl⟩ := ha
  exact h

theorem State.Answers.lookup {id : ℤ} {r : PendingRequest} {reply : Reply}
    (h : s.Answers id r reply u) : s.pending.lookup id = some r := by
  obtain ⟨conn, msg, batch, -, hr, -⟩ := h
  exact hr

theorem State.Answers.pending {id : ℤ} {r : PendingRequest} {reply : Reply}
    (h : s.Answers id r reply u) : u.pending = s.pending := by
  obtain ⟨conn, msg, batch, -, -, -, -, rfl⟩ := h
  rfl

theorem State.Answers.stack {id : ℤ} {r : PendingRequest} {reply : Reply}
    (h : s.Answers id r reply u) : ∃ batch, u.stack = [.eraseIt id, .draining batch] := by
  obtain ⟨conn, msg, batch, -, -, -, -, rfl⟩ := h
  exact ⟨batch, rfl⟩

theorem State.Answers.history {id : ℤ} {r : PendingRequest} {reply : Reply}
    (h : s.Answers id r reply u) :
    u.cmdId = s.cmdId ∧ ∃ msg, u.history = [.invoked id r reply, .handling msg] ++ s.history := by
  obtain ⟨conn, msg, batch, -, -, -, -, rfl⟩ := h
  exact ⟨rfl, msg, rfl⟩

/-- A step has nothing to do with the call, or a response takes its chain further. -/
theorem Bound.step_cases (h : Bound k s) (ht : s.step l = some t) (hsh : Shape s.stack)
    (hn : l.isRequest = true → k.call ≠ s.calls) :
    Apart k.call s t ∨ ∃ id r reply u batch, l = .next ∧ s.Answers id r reply u ∧ r.Serves k ∧
      u.stack = [.eraseIt id, .draining batch] ∧ Proceeds k id [.draining batch] u r reply t := by
  refine (State.step_apart ht hsh hn).imp_right ?_
  rintro ⟨id, r, reply, u, rfl, ha, hc, rfl⟩
  obtain ⟨batch, hst⟩ := ha.stack
  have hserves : r.Serves k := h id r ha.lookup hc
  exact ⟨id, r, reply, u, batch, rfl, ha, hserves, hst, proceeds reply hserves hst⟩

theorem Bound.step (h : Bound k s) (ht : s.step l = some t) (hsh : Shape s.stack)
    (hn : l.isRequest = true → k.call ≠ s.calls) : Bound k t := by
  rcases h.step_cases ht hsh hn with hap | ⟨id, r, reply, u, batch, -, ha, -, -, hp⟩
  · exact fun id r hl hc => h id r (hap.pending id r hc hl) hc
  · exact (h.answers ha).carry hp

theorem sendCommand_calls (s : State) (method : Str) (params : Json) (r : PendingRequest)
    (sessionId : Str) : (s.sendCommand method params r sessionId).1.calls = s.calls :=
  (s.sendCommand_calm method params r sessionId).calls

theorem onOk_calls (k : Continuation) (s : State) (p : Str) (c : ℕ) :
    (k.onOk s p c).1.calls = s.calls := by
  cases k with
  | getContext n => rfl
  | saveSession platform n => exact sendCommand_calls _ _ _ _ _
  | restoreSession cookies n => exact sendCommand_calls _ _ _ _ _

theorem doGetContext_calls (s : State) (p : Str) (k : Continuation) :
    (s.doGetContext p k).1.calls = s.calls := by
  unfold State.doGetContext
  split
  · rfl
  · split
    · exact onOk_calls k s p _
    · exact sendCommand_calls _ _ _ _ _

theorem step_request_calls (hl : l.isRequest = true) (ht : s.step l = some t) :
    t.calls = s.calls + 1 := by
  cases l <;> simp only [Label.isRequest, Bool.false_eq_true] at hl <;>
    simp only [State.step, Option.ite_none_right_eq_some, Option.some.injEq] at ht <;>
    obtain ⟨-, rfl⟩ := ht
  case restoreSession p content =>
    unfold State.restoreSession
    split
    · rfl
    · split
      · rfl
      · exact doGetContext_calls _ _ _
  all_goals exact doGetContext_calls _ _ _

theorem Known.calls_le (h : Known s) (ht : s.step l = some t) (hsh : Shape s.stack) :
    s.calls ≤ t.calls := by
  rcases State.step_apart (n := s.calls + 1) ht hsh (by simp) with hap | ⟨id, r, reply, u, -, ha, hc, -⟩
  · exact hap.calls
  · have := h id r _ ha.lookup hc
    omega

theorem Known.step (h : Known s) (ht : s.step l = some t) (hsh : Shape s.stack) : Known t := by
  intro id r n hl hc
  by_contra hlt
  have hle := h.calls_le ht hsh
  have hnew : l.isRequest = true → n ≠ s.calls := by
    intro hr
    have := step_request_calls hr ht
    omega
  rcases State.step_apart ht hsh hnew with hap | ⟨id', r', reply, u, -, ha, hc', -⟩
  · have := h id r n (hap.pending id r hc hl) hc
    omega
  · have := h id' r' n ha.lookup hc'
    omega

theorem Known.init : Known init := by
  simp [Known, LynneSocial.Browser.init]

theorem run_known {ls : List Label} (hr : Transition.run State.step init ls = some s) : Known s :=
  (Transition.run_invariant (I := fun s => Known s ∧ Shape s.stack)
    (fun _ _ _ h ht => ⟨h.1.step ht h.2, State.step_shape h.2 ht⟩) ⟨.init, by trivial⟩ hr).1

/-- No entry belongs to the call that begins now. -/
theorem Known.bound (h : Known s) (hk : k.call = s.calls) : Bound k s := by
  intro id r hl hc
  have := h id r _ hl hc
  omega

theorem Bound.doGetContext (h : Bound k s) (p : Str) : Bound k (s.doGetContext p k).1 := by
  unfold State.doGetContext
  split
  · exact h
  · split
    · exact h.onOk p _
    · exact h.send _ _ _ fun _ => rfl

end LynneSocial.Browser
