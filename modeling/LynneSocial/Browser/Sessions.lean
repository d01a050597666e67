import LynneSocial.Browser.Completion

/-!
# Sessions

`stop()` leaves the entries of `pending_`, the post queue and the launches in
progress as they are, and `start()` only drops the queued commands. What is left
over reaches into the next session as soon as the loop handles it: a response
with an id from before `stop()`, or an Open event of an older connection.
-/
namespace LynneSocial.Browser

variable {s t u : State} {l : Label} {G : Call → Prop}

def Event.isStopped : Event → Bool
  | .stopped => true
  | _ => false

def Event.isStarting : Event → Bool
  | .starting => true
  | _ => false

def Event.connected? : Event → Option ℕ
  | .connected conn => some conn
  | _ => none

/-- What has happened since `stop()` last returned. -/
def State.recent (s : State) : List Event := History.since Event.isStopped s.history

/-- A connection was begun behind a `start()`. -/
def Made (conn : ℕ) : List Event → Prop
  | [] => False
  | e :: past => (e.connected? = some conn ∧ ∃ f ∈ past, f.isStarting = true) ∨ Made conn past

/-- What a step does belongs to the session. After any `stop()`, a callback is called if its command
was issued since, a context enters the cache if the first command of its chain was, and `ws_ready_`
becomes true by the Open event of a connection that was made behind the next `start()`. -/
structure State.Isolates (s t : State) : Prop where
  callback : ∀ es id r reply, t.history = es ++ s.history → .invoked id r reply ∈ es →
    ∀ b a, s.history = b ++ .stopped :: a → .issued id r ∈ b
  context : ∀ es p c k, t.history = es ++ s.history → .cached p c k ∈ es →
    ∀ b a, s.history = b ++ .stopped :: a → ∃ id p' k', .issued id (.createTarget p' k') ∈ b ∧ k'.call = k.call
  ready : s.wsReady = false → t.wsReady = true → ∀ es, t.history = es ++ s.history →
    ∀ b a, s.history = b ++ .stopped :: a → ∃ conn, .ready conn ∈ es ∧ Made conn b

/-- The loop handles no response to a command from before `stop()`, and no Open event of a connection
that was not made behind a `start()` since. -/
def State.Current (s : State) : Label → Prop
  | .next =>
    match s.stack with
    | .draining (.open conn :: _) :: _ => s.wsReady = false → (∃ e ∈ s.history, e.isStopped = true) → Made conn s.recent
    | .draining (.message _ (some msg) :: _) :: _ =>
      ∀ id ∈ msg.id?, (s.pending.lookup id).isSome = true → msg.reply.isSome = true →
        ∃ e ∈ s.recent, e.issuedId? = some id
    | _ => True
  | _ => True

instance Made.decidable (conn : ℕ) : ∀ h : List Event, Decidable (Made conn h)
  | [] => .isFalse id
  | e :: past =>
    have := Made.decidable conn past
    inferInstanceAs (Decidable ((e.connected? = some conn ∧ ∃ f ∈ past, f.isStarting = true) ∨ Made conn past))

instance (s : State) (l : Label) : Decidable (s.Current l) := by
  rcases l with _ | _ <;> try exact instDecidableTrue
  dsimp only [State.Current]
  generalize s.stack = st
  rcases st with _ | ⟨_ | _ | _ | batch | _, st⟩ <;> try exact instDecidableTrue
  rcases batch with _ | ⟨_ | ⟨_, _ | _⟩ | _ | _, _⟩ <;> dsimp only <;> infer_instance

/-- The last request that was issued with the id. -/
def lastIssued (id : ℤ) (h : List Event) : Option PendingRequest :=
  h.findSome? fun
    | .issued i r => if i = id then some r else none
    | _ => none

/-- An entry belongs to the last command with its id. -/
def Traced (s : State) : Prop := ∀ id r, s.pending.lookup id = some r → lastIssued id s.history = some r

theorem lastIssued_append {id : ℤ} {es h : List Event} (hes : ∀ e ∈ es, e.issuedId? = none) :
    lastIssued id (es ++ h) = lastIssued id h := by
  have hnone : lastIssued id es = none := by
    refine List.findSome?_eq_none_iff.mpr fun e he => ?_
    have hid := hes e he
    cases e <;> first | rfl | cases hid
  rw [lastIssued, List.findSome?_append, ← lastIssued, hnone]
  rfl

theorem lastIssued_issued (id i : ℤ) (r : PendingRequest) (h : List Event) :
    lastIssued id (.issued i r :: h) = if i = id then some r else lastIssued id h := by
  unfold lastIssued
  rw [List.findSome?_cons]
  split <;> simp_all

theorem issued_of_last {id : ℤ} {r : PendingRequest} {h : List Event} (hl : lastIssued id h = some r) :
    .issued id r ∈ h := by
  obtain ⟨e, he, heq⟩ := List.exists_of_findSome?_eq_some hl
  cases e <;> simp only [reduceCtorEq, Option.ite_none_right_eq_some, Option.some.injEq] at heq
  obtain ⟨rfl, rfl⟩ := heq
  exact he

/-- If the id is issued in the first part, its last request is in there. -/
theorem issued_of_append {id : ℤ} {r : PendingRequest} {es h : List Event} (hl : lastIssued id (es ++ h) = some r)
    (hes : ∃ e ∈ es, e.issuedId? = some id) : .issued id r ∈ es := by
  rw [lastIssued, List.findSome?_append, ← lastIssued, ← lastIssued] at hl
  cases hle : lastIssued id es with
  | some r' =>
      rw [hle, Option.some_or] at hl
      exact issued_of_last (hle.trans hl)
  | none =>
      exfalso
      obtain ⟨e, he, hid⟩ := hes
      have hnone := List.findSome?_eq_none_iff.mp hle e he
      cases e <;> simp_all [Event.issuedId?]

theorem Traced.congr {E : List Event} (h : Traced s) (hp : t.pending = s.pending)
    (hes : ∀ e ∈ E, e.issuedId? = none) (hh : t.history = E ++ s.history) : Traced t := by
  intro id r hl
  rw [hh, lastIssued_append hes]
  exact h id r (hp ▸ hl)

theorem Traced.issue (h : Traced s) (r : PendingRequest) : Traced (s.issue r) := by
  intro id r' hl
  rw [issue_lookup] at hl
  change lastIssued id (.issued s.cmdId r :: s.history) = some r'
  rw [lastIssued_issued]
  by_cases hid : id = s.cmdId
  · rwa [if_pos hid.symm, ← if_pos hid (t := some r) (e := s.pending.lookup id)]
  · rw [if_neg (Ne.symm hid)]
    rw [if_neg hid] at hl
    exact h id r' hl

/-- Events of a session, with new contexts only on behalf of the calls in `G`. -/
def Event.Tame (G : Call → Prop) : Event → Prop
  | .issued _ r => r.isLink = true → ∀ c, r.caller = some c → G c
  | .cached _ _ k => G (.request k.call)
  | .invoked _ _ _ | .ready _ | .stopped => False
  | _ => True

/-- The session goes on. -/
structure Continues (G : Call → Prop) (s t : State) : Prop where
  wsReady : t.wsReady = s.wsReady
  traced : Traced s → Traced t
  history : ∃ es, (∀ e ∈ es, Event.Tame G e) ∧ t.history = es ++ s.history

namespace Continues

theorem refl (s : State) : Continues G s s := ⟨rfl, id, [], nofun, rfl⟩

theorem trans (h : Continues G s t) (k : Continues G t u) : Continues G s u := by
  obtain ⟨es, hes, hh⟩ := h.history
  obtain ⟨fs, hfs, hk⟩ := k.history
  refine ⟨k.wsReady.trans h.wsReady, k.traced ∘ h.traced, fs ++ es, fun e he => ?_, by rw [hk, hh, List.append_assoc]⟩
  exact (List.mem_append.mp he).elim (hfs e) (hes e)

/-- No command is issued, and the entries stay. -/
theorem quiet {E : List Event} (hr : t.wsReady = s.wsReady) (hp : t.pending = s.pending)
    (hes : ∀ e ∈ E, e.issuedId? = none ∧ e.Tame G) (hh : t.history = E ++ s.history) : Continues G s t :=
  ⟨hr, fun h => h.congr hp (fun e he => (hes e he).1) hh, E, fun e he => (hes e he).2, hh⟩

theorem still (h : (t.wsReady, t.pending, t.history) = (s.wsReady, s.pending, s.history)) : Continues G s t := by
  simp only [Prod.mk.injEq] at h
  exact quiet (E := []) h.1 h.2.1 nofun h.2.2

theorem logs {e : Event} (h : (t.wsReady, t.pending, t.history) = (s.wsReady, s.pending, e :: s.history))
    (hid : e.issuedId? = none) (he : e.Tame G) : Continues G s t := by
  simp only [Prod.mk.injEq] at h
  exact quiet (E := [e]) h.1 h.2.1 (by simpa using ⟨hid, he⟩) h.2.2

theorem beside (h : Beside s t) : Continues G s t := by
  obtain ⟨es, hes, hh⟩ := h.note
  refine quiet (congrArg Core.wsReady h.core) (congrArg Core.pending h.core) (fun e he => ?_) hh
  have hnote := hes e he
  cases e <;> first | exact ⟨rfl, trivial⟩ | exact hnote.elim

theorem send (s : State) (method : Str) (params : Json) {r : PendingRequest} (sessionId : Str)
    (hr : r.isLink = true → ∀ c, r.caller = some c → G c) :
    Continues G s (s.sendCommand method params r sessionId).1 := by
  refine ⟨?_, fun h => ?_, [.issued s.cmdId r], by simpa [Event.Tame] using hr, State.sendCommand_history _ _ _ _ _⟩
  · unfold State.sendCommand
    dsimp only
    split
    · split <;> rfl
    · rfl
  · have hissue := h.issue r
    refine hissue.congr (E := []) (s.sendCommand_calm method params r sessionId).pending nofun ?_
    exact State.sendCommand_history _ _ _ _ _

/-- Targets and sessions are asked for on behalf of the calls in `G` only. -/
def linksFor (G : Call → Prop) : Rules where
  send _ _ r := r.isLink = true → ∀ c, r.caller = some c → G c

theorem act (h : Act (linksFor G) s t) : Continues G s t := by
  cases h with
  | enter kind => exact logs (e := .called (kind s.calls)) rfl rfl trivial
  | send method params r sessionId _ hr => exact send s method params sessionId hr
  | create platform targetId sid k method params sessionId hr =>
      have hheap : Continues G s { s with heap := s.heap ++ [{ platform, targetId, sessionId := sid }] } := still rfl
      exact hheap.trans (send _ method params sessionId hr)
  | answer c a => exact logs (e := .answered c a) rfl rfl trivial
  | handOut platform c k => exact logs (e := .handedOut platform c k) rfl rfl trivial
  | deliver platform c n =>
      have hlog : Continues G s (s.log (.handedOut platform c (.getContext n))) := logs rfl rfl trivial
      exact hlog.trans (logs (e := .answered (.request n) (.context c)) rfl rfl trivial)
  | read c =>
      unfold State.readContext
      split
      · split
        · exact logs rfl rfl trivial
        · exact refl s
      · exact refl s
  | aside _ h => exact beside h.toBeside
  | _ => exact still rfl

theorem parts (h : Parts (linksFor G) s t) : Continues G s t :=
  Parts.invariant (I := fun u => Continues G s u) (fun _ _ hs h => hs.trans (act h))
    (fun _ _ hs h => hs.trans (beside h))
    h (refl s)

theorem settle (h : Settles s t) : Continues G s t := by
  cases h with
  | stay => exact refl s
  | erase id rest =>
      refine ⟨rfl, fun h id' r hl => h id' r ?_, [], nofun, rfl⟩
      have hl : AList.lookup id' (AList.erase id s.pending) = some r := hl
      rw [StdMap.lookup_erase_eq_ite] at hl
      split at hl
      · cases hl
      · exact hl
  | escape => exact logs rfl rfl trivial

theorem touch {r : PendingRequest} {reply : Reply} (h : Touches r reply s t)
    (hr : r.isLink = true → ∀ c, r.caller = some c → G c) : Continues G s t := by
  cases h with
  | plain => exact refl s
  | cache p c k result =>
      have hreset : Continues G s (s.resetContext p c) := by
        unfold State.resetContext
        split <;> exact still rfl
      exact hreset.trans (logs (e := .cached p c k) rfl rfl (hr rfl _ rfl))
  | reject p c k text => exact logs (e := .rejected c k) rfl rfl trivial
  | remove c call result =>
      have hread : Continues G s (s.readContext c) := act (.read s c trivial)
      refine hread.trans ?_
      unfold State.removeContext
      split <;> exact still rfl

end Continues

/-- The first command of the chain of this call was issued. -/
def Opened (c : Call) (h : List Event) : Prop := ∃ id p k, .issued id (.createTarget p k) ∈ h ∧ c = .request k.call

/-- Every later command of a chain was issued behind the first one. -/
def Derived (h : List Event) : Prop :=
  ∀ id r, .issued id r ∈ h → r.isLink = true → ∀ c, r.caller = some c → Opened c h

theorem Opened.mono {c : Call} {es h : List Event} (ho : Opened c h) : Opened c (es ++ h) := by
  obtain ⟨id, p, k, hmem, hc⟩ := ho
  exact ⟨id, p, k, List.mem_append_right _ hmem, hc⟩

theorem recent_append {E : List Event} (hh : t.history = E ++ s.history) (hes : ∀ e ∈ E, e.isStopped = false) :
    t.recent = E ++ s.recent := by
  rw [State.recent, hh, History.since_append hes, State.recent]

theorem Event.Tame.not_stopped {e : Event} (h : e.Tame G) : e.isStopped = false := by
  cases e <;> first | rfl | exact h.elim

theorem Derived.grow {E : List Event} (h : Derived s.recent) (hG : ∀ c, G c → Opened c s.recent)
    (hes : ∀ e ∈ E, (∀ id r, e = .issued id r → r.isLink = true → ∀ c, r.caller = some c → G c) ∧ e.isStopped = false)
    (hh : t.history = E ++ s.history) : Derived t.recent := by
  rw [recent_append hh fun e he => (hes e he).2]
  intro id r hmem hlink c hc
  rcases List.mem_append.mp hmem with hmem | hmem
  · exact (hG c ((hes _ hmem).1 id r rfl hlink c hc)).mono
  · exact (h id r hmem hlink c hc).mono

theorem Continues.derived (h : Continues G s t) (hd : Derived s.recent) (hG : ∀ c, G c → Opened c s.recent) :
    Derived t.recent := by
  obtain ⟨es, hes, hh⟩ := h.history
  refine hd.grow hG (fun e he => ⟨?_, (hes e he).not_stopped⟩) hh
  rintro id r rfl
  exact hes _ he

/-- The calls on whose behalf the functions of an entry go on with a chain. -/
def PendingRequest.goesOn (r : PendingRequest) (c : Call) : Prop :=
  r.caller = some c ∧ (r.opensLink = true ∨ r.isLink = true)

/-- An entry of the session belongs to a chain of the session. -/
theorem Derived.goesOn {id : ℤ} {r : PendingRequest} {h : List Event} (hd : Derived h) (hr : .issued id r ∈ h)
    (c : Call) (hc : r.goesOn c) : Opened c h := by
  obtain ⟨hc, hlink⟩ := hc
  cases r with
  | createTarget p k => exact ⟨id, p, k, hr, (Option.some.inj hc).symm⟩
  | attachToTarget p T k => exact hd id _ hr rfl c hc
  | addScript p d k => exact hd id _ hr rfl c hc
  | _ => simp [PendingRequest.opensLink, PendingRequest.isLink] at hlink

/-- What the callback of a response adds. -/
theorem invoke_continues (s : State) (r : PendingRequest) (reply : Reply) :
    Continues r.goesOn s (State.finish (s.invoke r reply)) := by
  have hsends : ∀ (line : Line) (D : Prop), (Continues.linksFor r.goesOn).Sends line r.caller D false r.opensLink := by
    intro line D cmd r' _ hcaller _ hlk _ hlink c hc
    exact ⟨hcaller ▸ hc, .inl (hlk.resolve_left (by simp [hlink]))⟩
  obtain ⟨u, hu, hv⟩ := s.invoke_cases (ρ := Continues.linksFor r.goesOn) r reply (fun _ _ => trivial)
    (fun _ => trivial)
    (fun _ _ => trivial) (fun _ => hsends _ _)
    (fun _ _ _ _ _ _ _ cmd r' _ _ _ hlk _ hlink => absurd hlink (by simp [hlk.resolve_right Bool.false_ne_true]))
    (fun _ _ _ _ _ _ _ => trivial)
  have htouch : Continues r.goesOn s u := .touch hu fun hlink c hc => ⟨hc, .inr hlink⟩
  exact htouch.trans ((Continues.parts hv.parts).trans (.settle (State.finish_settles _)))

/-- Everything that is told of the commands is in the history. -/
structure Recorded (s : State) : Prop where
  shape : Shape s.stack
  traced : Traced s
  derived : Derived s.recent

theorem step_continues (hsh : Shape s.stack) (hl : s.ofSession l = false) (ht : s.step l = some t) :
    (Continues (fun _ => False) s t ∧ s.Current l) ∨
    ∃ id r reply u, l = .next ∧ s.Answers id r reply u ∧ t = State.finish (u.invoke r reply) := by
  by_cases ha : ∃ id r reply u, l = .next ∧ s.Answers id r reply u
  · obtain ⟨id, r, reply, u, rfl, ha⟩ := ha
    exact .inr ⟨id, r, reply, u, rfl, ha, ha.result ht⟩
  refine .inl ⟨?_, ?_⟩
  · have hsends : ∀ (line : Line) (c : Option Call) (D : Prop) (closing : Bool),
        (Continues.linksFor fun _ => False).Sends line c D closing :=
      fun _ _ _ _ cmd r _ _ _ hlk _ hlink => absurd hlink (by simp [hlk.resolve_right Bool.false_ne_true])
    have hpop : ∀ st, Continues (fun _ => False) s { s with stack := st } := fun st => .still rfl
    rcases State.step_parts (ρ := Continues.linksFor fun _ => False) ht hsh hl (fun _ => trivial) (fun _ => trivial)
      (fun _ => hsends _ _ _ _) (fun _ _ _ _ => trivial)
      (fun _ _ _ _ => ⟨fun _ _ => trivial, fun _ => hsends _ _ _ _⟩) (fun _ _ => trivial) with
      hp | ⟨-, rest, -, rfl⟩ | ⟨-, rest, -, rfl⟩ | ⟨rfl, conn, msg, batch, hst, rfl⟩
    · exact .parts hp
    · exact (hpop rest).trans (.settle (State.resume_settles _))
    · exact (hpop rest).trans (.settle (State.unwind_settles _))
    · refine (hpop [.draining batch]).trans ?_
      have hlog : Continues (fun _ => False) { s with stack := [.draining batch] }
          (({ s with stack := [.draining batch] } : State).log (.handling msg)) := .logs rfl rfl trivial
      rcases State.onWsMessage_cases (ρ := Continues.linksFor fun _ => False)
        { s with stack := [.draining batch] } msg with
        ⟨hm, -⟩ | ⟨id, r, reply, hid, hr, hreply, -⟩
      · exact hlog.trans (.parts hm)
      · exact absurd ⟨id, r, reply, _, rfl, conn, msg, batch, hst, hr, hid, hreply, rfl⟩ ha
  · unfold State.Current
    split
    · split
      · rename_i hst
        simp [State.ofSession, hst] at hl
      · rename_i conn msg batch rest hst
        intro id hid hr hreply
        obtain ⟨r, hr⟩ := Option.isSome_iff_exists.mp hr
        obtain ⟨reply, hreply⟩ := Option.isSome_iff_exists.mp hreply
        obtain rfl : rest = [] := by rwa [hst] at hsh
        exact absurd ⟨id, r, reply, _, rfl, conn, msg, batch, hst, hr, hid, hreply, rfl⟩ ha
      · trivial
    · trivial

/-- A step that calls no callback, fills no cache and does not set `ws_ready_`. -/
theorem isolates_of {E : List Event} (hh : t.history = E ++ s.history)
    (hes : ∀ e ∈ E, (∀ id r reply, e ≠ .invoked id r reply) ∧ ∀ p c k, e ≠ .cached p c k)
    (hr : t.wsReady = true → s.wsReady = true) : s.Isolates t := by
  refine ⟨fun fs id r reply hf hmem => ?_, fun fs p c k hf hmem => ?_, fun hfalse htrue => ?_⟩
  · obtain rfl := List.append_cancel_right (hf.symm.trans hh)
    exact absurd rfl ((hes _ hmem).1 id r reply)
  · obtain rfl := List.append_cancel_right (hf.symm.trans hh)
    exact absurd rfl ((hes _ hmem).2 p c k)
  · rw [hr htrue] at hfalse
    cases hfalse

theorem Continues.isolates (h : Continues (fun _ => False) s t) : s.Isolates t := by
  obtain ⟨es, hes, hh⟩ := h.history
  refine isolates_of hh (fun e he => ⟨?_, ?_⟩) fun htrue => h.wsReady ▸ htrue
  · rintro id r reply rfl
    exact hes _ he
  · rintro p c k rfl
    exact hes _ he

/-- Behind the last `stop()`, if there was one. -/
theorem in_recent {b a : List Event} (hh : s.history = b ++ .stopped :: a) : ∃ x, b = s.recent ++ x := by
  rw [State.recent, hh]
  exact History.since_start rfl

theorem recent_of_stop (h : ∃ e ∈ s.history, e.isStopped = true) : ∃ a, s.history = s.recent ++ .stopped :: a := by
  obtain ⟨e, he, hstop⟩ := h
  obtain ⟨m, a, hm, hh⟩ := History.exists_since he hstop
  cases m <;> first | exact ⟨a, hh⟩ | cases hm

theorem recent_of_no_stop (h : ¬ ∃ e ∈ s.history, e.isStopped = true) : s.recent = s.history := by
  refine History.since_eq_self fun e he => ?_
  by_contra hne
  exact h ⟨e, he, by simpa using hne⟩

/-- The command of an entry is recent if its id is. -/
theorem Recorded.issued_recent (h : Recorded s) {id : ℤ} {r : PendingRequest} (hr : s.pending.lookup id = some r) :
    (∃ e ∈ s.recent, e.issuedId? = some id) ↔ .issued id r ∈ s.recent := by
  constructor
  · obtain ⟨c, hc⟩ := History.since_rest Event.isStopped s.history
    have hl := h.traced id r hr
    rw [hc] at hl
    exact issued_of_append hl
  · exact fun hmem => ⟨_, hmem, rfl⟩

theorem current_answers {id : ℤ} {r : PendingRequest} {reply : Reply} (ha : s.Answers id r reply u) :
    s.Current .next ↔ ∃ e ∈ s.recent, e.issuedId? = some id := by
  obtain ⟨conn, msg, batch, hst, hr, hid, hreply, -⟩ := ha
  simp [State.Current, hst, hr, hid, hreply]

theorem Recorded.response_iff (h : Recorded s) {id : ℤ} {r : PendingRequest} {reply : Reply}
    (ha : s.Answers id r reply u) :
    s.Isolates (State.finish (u.invoke r reply)) ↔ s.Current .next := by
  have hg := invoke_continues u r reply
  obtain ⟨es, hes, hh⟩ := hg.history
  obtain ⟨-, msg, hu⟩ := ha.history
  have hready : u.wsReady = s.wsReady := by
    obtain ⟨conn, msg, batch, -, -, -, -, rfl⟩ := ha
    rfl
  have hall : (State.finish (u.invoke r reply)).history = (es ++ [.invoked id r reply, .handling msg]) ++ s.history := by
    rw [hh, hu, List.append_assoc]
  rw [current_answers ha, h.issued_recent ha.lookup]
  constructor
  · intro hi
    by_cases hstop : ∃ e ∈ s.history, e.isStopped = true
    · obtain ⟨a, ha⟩ := recent_of_stop hstop
      exact hi.callback _ id r reply hall (by simp) _ a ha
    · rw [recent_of_no_stop hstop]
      exact issued_of_last (h.traced id r ha.lookup)
  · intro hrecent
    refine ⟨fun fs id' r' reply' hf hmem b a hb => ?_, fun fs p c k hf hmem b a hb => ?_, fun hfalse htrue => ?_⟩
    · obtain ⟨x, rfl⟩ := in_recent hb
      obtain rfl := List.append_cancel_right (hf.symm.trans hall)
      rcases List.mem_append.mp hmem with hmem | hmem
      · exact (hes _ hmem).elim
      · simp only [List.mem_cons, Event.invoked.injEq, reduceCtorEq, List.not_mem_nil, or_false] at hmem
        obtain ⟨rfl, rfl, -⟩ := hmem
        exact List.mem_append_left _ hrecent
    · obtain ⟨x, rfl⟩ := in_recent hb
      obtain rfl := List.append_cancel_right (hf.symm.trans hall)
      rcases List.mem_append.mp hmem with hmem | hmem
      · obtain ⟨id', p', k', hopened, hk⟩ := h.derived.goesOn hrecent _ (hes _ hmem)
        exact ⟨id', p', k', List.mem_append_left _ hopened, (Call.request.inj hk).symm⟩
      · simp at hmem
    · rw [hg.wsReady, hready, hfalse] at htrue
      cases htrue

theorem Recorded.response (h : Recorded s) {id : ℤ} {r : PendingRequest} {reply : Reply}
    (ha : s.Answers id r reply u) (hC : s.Current .next) :
    Traced (State.finish (u.invoke r reply)) ∧ Derived (State.finish (u.invoke r reply)).recent := by
  have hg := invoke_continues u r reply
  obtain ⟨-, msg, hu⟩ := ha.history
  have hrecent := (h.issued_recent ha.lookup).mp ((current_answers ha).mp hC)
  have hderived : Derived u.recent := h.derived.grow (G := fun _ => False) nofun (by simp [Event.isStopped]) hu
  have hu' : u.recent = [.invoked id r reply, .handling msg] ++ s.recent := recent_append hu (by simp [Event.isStopped])
  refine ⟨hg.traced (h.traced.congr ha.pending (by simp [Event.issuedId?]) hu), hg.derived hderived ?_⟩
  exact fun c hc => hderived.goesOn (hu' ▸ List.mem_append_right _ hrecent) c hc

theorem Made.append {conn : ℕ} {b x : List Event} (h : Made conn b) : Made conn (b ++ x) := by
  induction b with
  | nil => exact h.elim
  | cons e b ih =>
      refine h.imp ?_ ih
      rintro ⟨hc, f, hf, hs⟩
      exact ⟨hc, f, List.mem_append_left _ hf, hs⟩

/-- The Open handler, once `ws_ready_` is set. -/
theorem onOpen_continues (s : State) (conn : ℕ) : Continues G (s.opening conn) (s.onOpen conn) := by
  rw [State.onOpen_eq]
  split
  · have hempty : Continues G (s.opening conn) (s.opening conn).emptied := .still rfl
    exact hempty.trans (.send _ _ _ _ nofun)
  · exact .refl _

section OpenTask
variable {conn : ℕ} {batch : List Task} (hst : s.stack = [.draining (.open conn :: batch)])
include hst

theorem current_open : s.Current .next ↔
    (s.wsReady = false → (∃ e ∈ s.history, e.isStopped = true) → Made conn s.recent) := by
  simp [State.Current, hst]

theorem open_iff : s.Isolates (({ s with stack := [.draining batch] } : State).onOpen conn) ↔ s.Current .next := by
  have hg := onOpen_continues (G := fun _ => False) { s with stack := [.draining batch] } conn
  obtain ⟨es, hes, hh⟩ := hg.history
  have hall : (({ s with stack := [.draining batch] } : State).onOpen conn).history =
      (es ++ [.ready conn]) ++ s.history := by
    rw [hh, List.append_assoc]
    rfl
  rw [current_open hst]
  constructor
  · intro hi hfalse hstop
    obtain ⟨a, ha⟩ := recent_of_stop hstop
    obtain ⟨conn', hmem, hmade⟩ := hi.ready hfalse hg.wsReady _ hall _ a ha
    rcases List.mem_append.mp hmem with hmem | hmem
    · exact (hes _ hmem).elim
    · simp only [List.mem_singleton, Event.ready.injEq] at hmem
      exact hmem ▸ hmade
  · intro hmade
    refine ⟨fun fs id r reply hf hmem => ?_, fun fs p c k hf hmem => ?_, fun hfalse _ fs hf b a hb => ?_⟩
    · obtain rfl := List.append_cancel_right (hf.symm.trans hall)
      rcases List.mem_append.mp hmem with hmem | hmem
      · exact (hes _ hmem).elim
      · simp at hmem
    · obtain rfl := List.append_cancel_right (hf.symm.trans hall)
      rcases List.mem_append.mp hmem with hmem | hmem
      · exact (hes _ hmem).elim
      · simp at hmem
    · obtain rfl := List.append_cancel_right (hf.symm.trans hall)
      obtain ⟨x, rfl⟩ := in_recent hb
      refine ⟨conn, by simp, (hmade hfalse ⟨.stopped, ?_, rfl⟩).append⟩
      rw [hb]
      exact List.mem_append_right _ List.mem_cons_self

end OpenTask

/-- What a step of the session adds to the history, the handling of an Open event apart. -/
structure Turned (s t : State) : Prop where
  ready : t.wsReady = true → s.wsReady = true
  pending : t.pending = s.pending
  history : t.history = s.history ∨ ∃ e, t.history = e :: s.history ∧
    (e = .starting ∨ e = .stopped ∨ ∃ conn, e = .connected conn)

theorem turns_cases (ht : s.Turns l t) : Turned s t ∧ l ≠ .next ∨
    ∃ conn batch, l = .next ∧ s.stack = [.draining (.open conn :: batch)] ∧
      t = ({ s with stack := [.draining batch] } : State).onOpen conn := by
  cases ht with
  | openTask conn batch hst => exact .inr ⟨conn, batch, rfl, hst, rfl⟩
  | start => exact .inl ⟨⟨nofun, rfl, .inr ⟨_, rfl, .inl rfl⟩⟩, nofun⟩
  | stopIdle => exact .inl ⟨⟨id, rfl, .inr ⟨_, rfl, .inr (.inl rfl)⟩⟩, nofun⟩
  | stopReturn rest => exact .inl ⟨⟨id, rfl, .inr ⟨_, rfl, .inr (.inl rfl)⟩⟩, nofun⟩
  | connect i => exact .inl ⟨⟨id, rfl, .inr ⟨_, rfl, .inr (.inr ⟨_, rfl⟩)⟩⟩, nofun⟩
  | _ => exact .inl ⟨⟨id, rfl, .inl rfl⟩, nofun⟩

theorem Turned.isolates (h : Turned s t) : s.Isolates t := by
  rcases h.history with hh | ⟨e, hh, he⟩
  · exact isolates_of (E := []) hh nofun h.ready
  · refine isolates_of (E := [e]) hh (fun f hf => ?_) h.ready
    obtain rfl := List.mem_singleton.mp hf
    rcases he with rfl | rfl | ⟨conn, rfl⟩ <;> exact ⟨nofun, nofun⟩

theorem Turned.recorded (h : Turned s t) (hr : Recorded s) : Traced t ∧ Derived t.recent := by
  rcases h.history with hh | ⟨e, hh, he⟩
  · refine ⟨hr.traced.congr (E := []) h.pending (List.forall_mem_nil _) hh, ?_⟩
    exact hr.derived.grow (G := fun _ => False) (E := []) (fun _ => False.elim) (List.forall_mem_nil _) hh
  · refine ⟨hr.traced.congr (E := [e]) h.pending ?_ hh, ?_⟩
    · rcases he with rfl | rfl | ⟨conn, rfl⟩ <;> simp [Event.issuedId?]
    · rcases he with rfl | rfl | ⟨conn, rfl⟩
      · exact hr.derived.grow (G := fun _ => False) (E := [_]) (fun _ => False.elim) (by simp [Event.isStopped]) hh
      · rw [State.recent, hh, History.since_marked rfl]
        exact fun id r hmem => absurd hmem List.not_mem_nil
      · exact hr.derived.grow (G := fun _ => False) (E := [_]) (fun _ => False.elim) (by simp [Event.isStopped]) hh

theorem Recorded.isolates_iff (h : Recorded s) (ht : s.step l = some t) : s.Isolates t ↔ s.Current l := by
  cases hl : s.ofSession l with
  | true =>
      rcases turns_cases (State.step_session ht h.shape hl) with ⟨hturn, hne⟩ | ⟨conn, batch, rfl, hst, rfl⟩
      · refine iff_of_true hturn.isolates ?_
        unfold State.Current
        split
        · exact absurd rfl hne
        · trivial
      · exact open_iff hst
  | false =>
      rcases step_continues h.shape hl ht with ⟨hg, hC⟩ | ⟨id, r, reply, u, rfl, ha, rfl⟩
      · exact iff_of_true hg.isolates hC
      · exact h.response_iff ha

theorem Recorded.step (h : Recorded s) (hC : s.Current l) (ht : s.step l = some t) : Recorded t := by
  have hsh := State.step_shape h.shape ht
  cases hl : s.ofSession l with
  | true =>
      rcases turns_cases (State.step_session ht h.shape hl) with ⟨hturn, -⟩ | ⟨conn, batch, rfl, hst, rfl⟩
      · obtain ⟨htraced, hderived⟩ := hturn.recorded h
        exact ⟨hsh, htraced, hderived⟩
      · have hg := onOpen_continues (G := fun _ => False) { s with stack := [.draining batch] } conn
        have hopen : (({ s with stack := [.draining batch] } : State).opening conn).history =
            [.ready conn] ++ s.history := rfl
        have hderived := h.derived.grow (G := fun _ => False) nofun (by simp [Event.isStopped]) hopen
        exact ⟨hsh, hg.traced (h.traced.congr rfl (by simp [Event.issuedId?]) hopen), hg.derived hderived nofun⟩
  | false =>
      rcases step_continues h.shape hl ht with ⟨hg, -⟩ | ⟨id, r, reply, u, rfl, ha, rfl⟩
      · exact ⟨hsh, hg.traced h.traced, hg.derived h.derived nofun⟩
      · obtain ⟨htraced, hderived⟩ := h.response ha hC
        exact ⟨hsh, htraced, hderived⟩

theorem recorded_init : Recorded init := by
  refine ⟨trivial, fun id r hl => ?_, fun id r hmem => ?_⟩
  · simp [init] at hl
  · simp [State.recent, History.since, init] at hmem

/-- In every run, nothing of an earlier session reaches into the next one exactly if nothing that is left
over from an earlier session is handled. -/
theorem sessions_isolated_iff {ls : List Label} (hr : Transition.run State.step init ls = some s) :
    Transition.Along State.step (fun s l => ∀ t, s.step l = some t → s.Isolates t) init ls ↔
      Transition.Along State.step State.Current init ls := by
  refine Transition.along_iff (I := Recorded) (fun s l t h hC ht => h.step hC ht)
    (fun s l t h ht => ?_) recorded_init hr
  constructor
  · exact fun hall => (h.isolates_iff ht).mp (hall t ht)
  · exact fun hC u hu => (h.isolates_iff hu).mpr hC

/-- `start()` for the second time, up to the Open event. -/
def reconnect : List Label := [.start, .fork 1, .launched 1 true, .workDone 1, .opened, .wake, .swap]

/-- A command of the first session is never answered; one of the second session is. -/
def startStopStart : List Label :=
  connect ++ [.sendCommand (str "Target.getTargets") .null [], .stop, .stopReturn] ++ reconnect ++
    [.next, .next, .sendCommand (str "Target.getTargets") .null []] ++ arrive (okMessage 3 .null) ++ [.ret, .next]

theorem sessions_isolated_sample : ∃ s, Transition.run State.step init startStopStart = some s ∧
    (s.pending.lookup 1).isSome = true ∧ s.pending.lookup 3 = none ∧
    Transition.Along State.step (fun s l => ∀ t, s.step l = some t → s.Isolates t) init startStopStart := by
  have h : (Transition.run State.step init startStopStart).any (fun s =>
      (s.pending.lookup 1).isSome ∧ (s.pending.lookup 3).isNone) = true := by decide +kernel
  obtain ⟨s, hs, h⟩ := Option.any_eq_true _ _ |>.mp h
  simp only [decide_eq_true_eq, Option.isNone_iff_eq_none] at h
  exact ⟨s, hs, h.1, h.2, (sessions_isolated_iff hs).mpr (by decide +kernel)⟩

/-- The response is in the post queue when `stop()` is called. -/
def lateResponse : List Label :=
  connect ++ [.sendCommand (str "Target.getTargets") .null [], .received (some (okMessage 1 .null)), .stop, .stopReturn] ++
    reconnect

theorem late_response_calls_back : ¬ ∀ (ls : List Label) (s : State),
    Transition.run State.step init ls = some s →
    Transition.Along State.step (fun s l => ∀ t, s.step l = some t → s.Isolates t) init ls := by
  have h : (Transition.run State.step init (lateResponse ++ [.next])).isSome = true ∧
      Transition.Along State.step State.Current init lateResponse ∧
      (Transition.run State.step init lateResponse).any (fun s => ¬ s.Current .next) = true := by decide +kernel
  obtain ⟨⟨s, hs⟩, hC, h⟩ := And.imp_left Option.isSome_iff_exists.mp h
  obtain ⟨u, hu, h⟩ := Option.any_eq_true _ _ |>.mp h
  have hrecorded : Recorded u :=
    Transition.run_invariant_along (fun _ _ _ h hC ht => Recorded.step h hC ht) recorded_init hC hu
  intro hall
  have halong := ((Transition.along_append hu).mp (hall _ s hs)).2
  obtain ⟨v, hv, hsv⟩ := Transition.run_append.mp hs
  obtain rfl := Option.some.inj (hu.symm.trans hv)
  obtain ⟨t, ht, -⟩ := Transition.run_cons.mp hsv
  have hcurrent := (hrecorded.isolates_iff ht).mp (halong.1 t ht)
  simp [hcurrent] at h

end LynneSocial.Browser
