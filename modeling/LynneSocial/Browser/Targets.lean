import LynneSocial.Browser.Chains
import LynneSocial.Browser.Correlation

/-!
# Targets

A target of Chrome that the manager has asked for and not closed should be the
target of a cached context. It is, as long as every response finds the cache as
its command left it and no chain fails after its target exists: on these ways
out the manager drops the target without closing it.
-/
namespace LynneSocial.Browser

/-- The context whose target the response says is closed. -/
def Event.closed? : Event → Option ℕ
  | .invoked _ (.closeTarget c _) (.ok _) => some c
  | _ => none

def PendingRequest.ofTarget : PendingRequest → Bool
  | createTarget _ _ | attachToTarget _ _ _ | addScript _ _ _ | closeTarget _ _ => true
  | _ => false

namespace State

def targetAt (s : State) (c : ℕ) : Option ValidStr := s.heap[c]?.map CdpBrowserContext.targetId

/-- Chrome has named the target, and has not acknowledged closing it. -/
def TargetOpen (s : State) (T : ValidStr) : Prop :=
  T ∈ s.history.filterMap Event.target? ∧
    ∀ c ∈ s.history.filterMap Event.closed?, s.targetAt c ≠ some T

/-- A cached context has the target. -/
def TargetHeld (s : State) (T : ValidStr) : Prop :=
  ∃ p c, s.contexts.lookup p = some c ∧ s.targetAt c = some T

/-- No chain and no `close()` waits for a response. -/
def TargetsSettled (s : State) : Prop :=
  ∀ id r, s.pending.lookup id = some r → r.ofTarget = false

/-- A response after which no target is without a context that holds it. -/
def KeepsTarget (s : State) : PendingRequest → Reply → Prop
  | .attachToTarget _ _ _, reply => reply.isOk = true
  | .addScript p c _, reply => reply.isOk = true ∧ s.contexts.lookup p = none ∧ s.Alive c
  | .closeTarget c _, .ok _ => s.contexts.lookup (s.platformOf c) = some c
  | _, _ => True

instance (s : State) (r : PendingRequest) (reply : Reply) : Decidable (s.KeepsTarget r reply) := by
  rcases r with _ | _ <;> rcases reply with _ | _ <;> dsimp only [KeepsTarget, Alive] <;> infer_instance

def LosesNoTarget (s : State) (l : Label) : Prop :=
  ∀ msg ∈ s.incoming l, ∀ id ∈ msg.id?, ∀ r ∈ s.pending.lookup id, ∀ reply ∈ msg.reply,
    s.KeepsTarget r reply

instance (s : State) (l : Label) : Decidable (s.LosesNoTarget l) := by
  unfold LosesNoTarget
  infer_instance

/-- The target that a pending request carries on. -/
def carried (s : State) : PendingRequest → Option ValidStr
  | .attachToTarget _ T _ => some T
  | .addScript _ c _ => s.targetAt c
  | _ => none

/-- The target is on its way to the cache. -/
def TargetUnderway (s : State) (T : ValidStr) : Prop :=
  ∃ id r, s.pending.lookup id = some r ∧ s.carried r = some T ∧ .eraseIt id ∉ s.stack

def Destroyed (s : State) (c : ℕ) : Prop :=
  s.heap[c]?.map CdpBrowserContext.destroyed = some true

end State

variable {ρ : Rules} {s t : State}

structure Held (s : State) : Prop extends Counted s where
  held : ∀ T, s.TargetOpen T → s.TargetHeld T ∨ s.TargetUnderway T
  closed : ∀ c ∈ s.history.filterMap Event.closed?,
    s.Destroyed c ∧ ∀ p, s.contexts.lookup p ≠ some c

/-- What does not concern targets. -/
structure Aloof (s t : State) : Prop where
  target : t.history.filterMap Event.target? = s.history.filterMap Event.target?
  closed : t.history.filterMap Event.closed? = s.history.filterMap Event.closed?
  targetAt : ∀ c, t.targetAt c = s.targetAt c
  contexts : t.contexts = s.contexts
  pending : ∀ id r, s.pending.lookup id = some r → .eraseIt id ∉ s.stack → (s.carried r).isSome →
    t.pending.lookup id = some r
  erasing : ∀ id, .eraseIt id ∈ t.stack → .eraseIt id ∈ s.stack
  destroyed : ∀ c, s.Destroyed c → t.Destroyed c

theorem carried_congr (hx : ∀ c, t.targetAt c = s.targetAt c) (r : PendingRequest) :
    t.carried r = s.carried r := by
  cases r <;> first | rfl | exact hx _

theorem Held.aloof (h : Held s) (hc : Counted t) (ha : Aloof s t) : Held t := by
  refine ⟨hc, fun T hT => ?_, ?_⟩
  · have hs : s.TargetOpen T := by
      rw [State.TargetOpen, ha.target, ha.closed] at hT
      exact ⟨hT.1, fun c hc => ha.targetAt c ▸ hT.2 c hc⟩
    rcases h.held T hs with ⟨p, c, hp, hx⟩ | ⟨id, r, hr, hx, he⟩
    · exact .inl ⟨p, c, ha.contexts ▸ hp, (ha.targetAt c).trans hx⟩
    · refine .inr ⟨id, r, ha.pending id r hr he (by simp [hx]), ?_, fun h => he (ha.erasing id h)⟩
      rw [carried_congr ha.targetAt, hx]
  · intro c hc
    rw [ha.closed] at hc
    rw [ha.contexts]
    exact ⟨ha.destroyed c (h.closed c hc).1, (h.closed c hc).2⟩

theorem Event.untimed.targets {es h : List Event} (hes : ∀ e ∈ es, Event.untimed e) :
    (es ++ h).filterMap Event.target? = h.filterMap Event.target? ∧
      (es ++ h).filterMap Event.closed? = h.filterMap Event.closed? := by
  have hnone : ∀ e ∈ es, e.target? = none ∧ e.closed? = none := by
    intro e he
    have hu := hes e he
    cases e <;> first | exact ⟨rfl, rfl⟩ | exact hu.elim
  rw [List.filterMap_append, List.filterMap_append,
    List.filterMap_eq_nil_iff.mpr fun e he => (hnone e he).1,
    List.filterMap_eq_nil_iff.mpr fun e he => (hnone e he).2]
  exact ⟨rfl, rfl⟩

theorem Aloof.of {E : List Event} (hes : ∀ e ∈ E, Event.untimed e) (hh : t.history = E ++ s.history)
    (hx : ∀ c, t.targetAt c = s.targetAt c) (hc : t.contexts = s.contexts)
    (hp : ∀ id r, s.pending.lookup id = some r → .eraseIt id ∉ s.stack → (s.carried r).isSome →
      t.pending.lookup id = some r)
    (he : ∀ id, .eraseIt id ∈ t.stack → .eraseIt id ∈ s.stack)
    (hd : ∀ c, s.Destroyed c → t.Destroyed c) : Aloof s t where
  target := by rw [hh, (Event.untimed.targets hes).1]
  closed := by rw [hh, (Event.untimed.targets hes).2]
  targetAt := hx
  contexts := hc
  pending := hp
  erasing := he
  destroyed := hd

theorem Calm.aloof (h : Calm s t) : Aloof s t := by
  obtain ⟨es, hes, hh⟩ := h.history
  refine .of (fun e he => (hes e he).untimed) hh (fun c => ?_) h.contexts
    (fun id r hr _ _ => h.pending ▸ hr) (fun id => (h.erasing id).mp) (fun c hd => ?_)
  · unfold State.targetAt
    rw [h.heap]
  · unfold State.Destroyed at hd ⊢
    rwa [h.heap]

theorem Counted.issue_aloof (h : Counted s) (r : PendingRequest) : Aloof s (s.issue r) where
  target := rfl
  closed := rfl
  targetAt _ := rfl
  contexts := rfl
  pending id r' hr _ _ := by
    have := (h.pending_lt id r' hr).2
    rw [issue_lookup, if_neg (by omega)]
    exact hr
  erasing _ he := he
  destroyed _ hd := hd

/-- The invariant, as long as `cmd_id_` has not wrapped. -/
def Holds (s : State) : Prop := issuedCount s.history < 2 ^ 31 → Held s

theorem Holds.grow (h : Holds s) (hc : t.cmdId = s.cmdId)
    (hp : ∀ id r, t.pending.lookup id = some r → s.pending.lookup id = some r)
    (hh : t.history.filterMap Event.issuedId? = s.history.filterMap Event.issuedId?)
    (ha : Aloof s t) : Holds t := by
  intro hn
  rw [issuedCount, hh] at hn
  exact (h hn).aloof ((h hn).toCounted.grow hc hp hh) ha

theorem Holds.calm (h : Holds s) (hc : Calm s t) : Holds t := by
  obtain ⟨es, hes, hh⟩ := hc.history
  refine h.grow hc.cmdId (by simp [hc.pending]) ?_ hc.aloof
  rw [hh, issuedIds_append fun e he => (hes e he).untimed]

theorem Holds.issue (h : Holds s) (r : PendingRequest) : Holds (s.issue r) := by
  intro hn
  have hs : Held s := h (by rw [issuedCount_issue] at hn; omega)
  exact hs.aloof (hs.toCounted.issue r hn) (hs.toCounted.issue_aloof r)

theorem Holds.send (h : Holds s) (method : Str) (params : Json) (r : PendingRequest)
    (sessionId : Str) : Holds (s.sendCommand method params r sessionId).1 :=
  (h.issue r).calm (s.sendCommand_calm method params r sessionId)

theorem targetAt_modify (s : State) (c d : ℕ) {f : CdpBrowserContext → CdpBrowserContext}
    (hf : ∀ x, (f x).targetId = x.targetId) : (s.modifyContext c f).targetAt d = s.targetAt d :=
  map_getElem?_modify _ _ _ hf

theorem destroyed_modify {c d : ℕ} {f : CdpBrowserContext → CdpBrowserContext}
    (hf : ∀ x, (f x).destroyed = x.destroyed) (h : s.Destroyed d) : (s.modifyContext c f).Destroyed d := by
  unfold State.Destroyed at h ⊢
  rw [← h]
  exact map_getElem?_modify _ _ _ hf

theorem Holds.act (h : Holds s) (ha : Act noLinks s t) : Holds t := by
  cases ha with
  | send method params r sessionId => exact h.send method params r sessionId
  | create platform targetId sid k method params sessionId hlk => cases hlk
  | enter kind =>
      refine h.grow rfl (fun _ _ hl => hl) rfl (.of (E := [_]) (by simp [Event.untimed]) rfl ?_ rfl ?_ ?_ ?_)
      · exact fun _ => rfl
      · exact fun _ _ hr _ _ => hr
      · exact fun _ he => he
      · exact fun _ hd => hd
  | answer c a =>
      refine h.grow rfl (fun _ _ hl => hl) rfl (.of (E := [_]) (by simp [Event.untimed]) rfl ?_ rfl ?_ ?_ ?_)
      · exact fun _ => rfl
      · exact fun _ _ hr _ _ => hr
      · exact fun _ he => by simpa [State.answer] using he
      · exact fun _ hd => hd
  | handOut =>
      refine h.grow rfl (fun _ _ hl => hl) rfl (.of (E := [_]) (by simp [Event.untimed]) rfl ?_ rfl ?_ ?_ ?_)
      · exact fun _ => rfl
      · exact fun _ _ hr _ _ => hr
      · exact fun _ he => he
      · exact fun _ hd => hd
  | deliver p c n =>
      refine h.grow rfl (fun _ _ hl => hl) rfl (.of (E := [.answered (.request n) (.context c),
        .handedOut p c (.getContext n)]) (by simp [Event.untimed]) rfl ?_ rfl ?_ ?_ ?_)
      · exact fun d => targetAt_modify (s.log _) c d (f := fun x => { x with shared := true }) fun _ => rfl
      · exact fun _ _ hr _ _ => hr
      · exact fun _ he => by
          simpa [Continuation.onOk, State.answer, State.modifyContext, State.log] using he
      · exact fun _ hd =>
          destroyed_modify (s := s.log _) (f := fun x => { x with shared := true }) (fun _ => rfl) hd
  | close c =>
      refine h.grow rfl (fun _ _ hl => hl) rfl (.of (E := []) (by simp) rfl ?_ rfl ?_ ?_ ?_)
      · exact fun d => targetAt_modify s c d (f := fun x => { x with closed := true }) fun _ => rfl
      · exact fun _ _ hr _ _ => hr
      · exact fun _ he => he
      · exact fun _ hd => destroyed_modify (f := fun x => { x with closed := true }) (fun _ => rfl) hd
  | user =>
      refine h.grow rfl (fun _ _ hl => hl) rfl (.of (E := []) (by simp) rfl ?_ rfl ?_ ?_ ?_)
      · exact fun _ => rfl
      · exact fun _ _ hr _ _ => hr
      · exact fun _ he => by simpa using he
      · exact fun _ hd => hd
  | wait =>
      refine h.grow rfl (fun _ _ hl => hl) rfl (.of (E := []) (by simp) rfl ?_ rfl ?_ ?_ ?_)
      · exact fun _ => rfl
      · exact fun _ _ hr _ _ => hr
      · exact fun _ he => he
      · exact fun _ hd => hd
  | read c => exact h.calm (s.readContext_calm c)
  | aside _ hb => exact h.calm hb.calm

theorem Holds.parts (h : Holds s) (hp : Parts noLinks s t) : Holds t :=
  Parts.invariant (fun _ _ h ha => Holds.act h ha) (fun _ _ h hb => Holds.calm h hb.calm) hp h

/-- The entry that goes was no longer counted on. -/
theorem Holds.settle (h : Holds s) (hs : Settles s t) : Holds t := by
  cases hs with
  | stay => exact h
  | erase id rest hst =>
      have hl : ∀ id', AList.lookup id' (AList.erase id s.pending) =
          if id' = id then none else s.pending.lookup id' := fun _ => StdMap.lookup_erase_eq_ite _ _ _
      refine h.grow rfl (fun id' r hr => ?_) rfl (.of (E := []) (by simp) rfl ?_ rfl ?_ ?_ ?_)
      · have hr : AList.lookup id' (AList.erase id s.pending) = some r := hr
        rw [hl] at hr
        split at hr
        · cases hr
        · exact hr
      · exact fun _ => rfl
      · intro id' r hr he _
        change AList.lookup id' (AList.erase id s.pending) = some r
        rw [hl, if_neg]
        · exact hr
        · rintro rfl
          exact he (by simp [hst])
      · exact fun _ he => by simp [hst, he]
      · exact fun _ hd => hd
  | escape id rest hst =>
      refine h.grow rfl (fun _ _ hl => hl) rfl (.of (E := [_]) (by simp [Event.untimed]) rfl ?_ rfl ?_ ?_ ?_)
      · exact fun _ => rfl
      · exact fun _ _ hr _ _ => hr
      · exact fun _ he => by simp [hst, he]
      · exact fun _ hd => hd

theorem Holds.session_step {l : Label} (h : Holds s) (hl : l.isStop = false) (ht : s.Turns l t) :
    Holds t := by
  have hsame : ∀ {v : State}, v.cmdId = s.cmdId → v.pending = s.pending → v.contexts = s.contexts →
      v.heap = s.heap → (∀ id, .eraseIt id ∈ v.stack → .eraseIt id ∈ s.stack) →
      (∃ es, (∀ e ∈ es, Event.untimed e) ∧ v.history = es ++ s.history) → Holds v := by
    intro v hc hp hx hh he ⟨es, hes, hhist⟩
    refine h.grow hc (by simp [hp]) (by rw [hhist, issuedIds_append hes]) (.of hes hhist ?_ hx ?_ he ?_)
    · intro c
      unfold State.targetAt
      rw [hh]
    · exact fun id r hr _ _ => hp ▸ hr
    · intro c hd
      unfold State.Destroyed at hd ⊢
      rwa [hh]
  cases ht with
  | startAgain => exact h
  | stop => cases hl
  | openTask conn batch hst =>
      have ho : Holds (({ s with stack := [.draining batch] } : State).opening conn) :=
        hsame rfl rfl rfl rfl (by simp [State.opening, State.flushed, State.log])
          ⟨[.ready conn], by simp [Event.untimed], rfl⟩
      rw [State.onOpen_eq]
      split
      · refine Holds.send ?_ _ _ _ _
        exact hsame rfl rfl rfl rfl (by simp [State.emptied, State.opening, State.flushed, State.log])
          ⟨[.ready conn], by simp [Event.untimed], rfl⟩
      · exact ho
  | stopReturn rest hst =>
      exact hsame rfl rfl rfl rfl (by simp [hst]) ⟨[_], by simp [Event.untimed], rfl⟩
  | _ =>
      first
        | exact hsame rfl rfl rfl rfl (fun _ he => he) ⟨[], by simp, rfl⟩
        | exact hsame rfl rfl rfl rfl (fun _ he => he) ⟨[_], by simp [Event.untimed], rfl⟩

theorem issuedCount_send (s : State) (method : Str) (params : Json) (r : PendingRequest) (sessionId : Str) :
    issuedCount (s.sendCommand method params r sessionId).1.history = issuedCount s.history + 1 := by
  obtain ⟨es, hes, hh⟩ := (s.sendCommand_calm method params r sessionId).history
  rw [hh, issuedCount, issuedIds_append fun e he => (hes e he).untimed, ← issuedCount, issuedCount_issue]

theorem send_targets (s : State) (method : Str) (params : Json) (r : PendingRequest) (sessionId : Str) :
    (s.sendCommand method params r sessionId).1.history.filterMap Event.target? =
      s.history.filterMap Event.target? ∧
    (s.sendCommand method params r sessionId).1.history.filterMap Event.closed? =
      s.history.filterMap Event.closed? := by
  obtain ⟨es, hes, hh⟩ := (s.sendCommand_calm method params r sessionId).history
  have hun := Event.untimed.targets (h := (s.issue r).history) fun e he => (hes e he).untimed
  rw [hh, hun.1, hun.2]
  exact ⟨rfl, rfl⟩

theorem lookup_sent (s : State) (method : Str) (params : Json) (r : PendingRequest) (sessionId : Str) :
    (s.sendCommand method params r sessionId).1.pending.lookup s.cmdId = some r := by
  rw [(s.sendCommand_calm method params r sessionId).pending, issue_lookup, if_pos rfl]

theorem Counted.lookup_send (h : Counted s) {id : ℤ} {r : PendingRequest} (method : Str) (params : Json)
    (r' : PendingRequest) (sessionId : Str) (hr : s.pending.lookup id = some r) :
    (s.sendCommand method params r' sessionId).1.pending.lookup id = some r := by
  have := (h.pending_lt id r hr).2
  rw [(s.sendCommand_calm method params r' sessionId).pending, issue_lookup, if_neg (by omega)]
  exact hr

theorem Counts.send (h : Counts s) (method : Str) (params : Json) (r : PendingRequest)
    (sessionId : Str) : Counts (s.sendCommand method params r sessionId).1 :=
  counts_ofIds.calm (h.issue r) (s.sendCommand_calm method params r sessionId)

theorem Counts.erased (h : Counts s) (id : ℤ) (rest : List Frame) : Counts (s.erased id rest) :=
  counts_ofIds.same (h.erase id) rfl rfl rfl

theorem lookup_erased {id id' : ℤ} (hne : id' ≠ id) (rest : List Frame) :
    (s.erased id rest).pending.lookup id' = s.pending.lookup id' := by
  change AList.lookup id' (AList.erase id s.pending) = _
  rw [StdMap.lookup_erase_eq_ite, if_neg hne]

theorem Holds.counts (h : Holds s) : Counts s := fun hn => (h hn).toCounted

/-- A target that is open afterwards and was named before. -/
theorem Held.before (h : Held s) {T : ValidStr} (hT : t.TargetOpen T)
    (hnamed : T ∈ s.history.filterMap Event.target?)
    (hcl : ∀ c ∈ s.history.filterMap Event.closed?, c ∈ t.history.filterMap Event.closed?)
    (hx : ∀ c U, s.targetAt c = some U → t.targetAt c = some U) :
    s.TargetHeld T ∨ s.TargetUnderway T :=
  h.held T ⟨hnamed, fun c hc hc' => hT.2 c (hcl c hc) (hx c T hc')⟩

/-- The response that names a target. -/
theorem Holds.create {msg : Parsed} {id : ℤ} {p : Str} {k : Continuation} {result : Parsed}
    (h : Holds s) (hst : ∀ i, .eraseIt i ∉ s.stack) (hid : msg.id? = some id)
    (hr : s.pending.lookup id = some (.createTarget p k)) (hreply : msg.reply = some (.ok result)) :
    Holds (s.onWsMessage (some msg)) := by
  set u := (s.log (.handling msg)).calling id (.createTarget p k) (.ok result) with hu
  have hcu : Counts u := h.counts.grow rfl (fun _ _ hl => hl) rfl
  have hev : (Event.invoked id (.createTarget p k) (.ok result)).target? =
    result.strAt (str "targetId") := rfl
  rw [State.onWsMessage_response hid hr hreply, State.invoke_createTarget]
  cases hT : result.strAt (str "targetId") with
  | none =>
      dsimp only
      rw [State.finish_raise (i := id) (b := s.stack) rfl rfl]
      refine h.grow rfl (fun _ _ hl => hl) rfl ⟨?_, rfl, fun _ => rfl, rfl, fun _ _ hr _ _ => hr,
        fun _ he => he, fun _ hd => hd⟩
      change List.filterMap _ (.escaped id :: .invoked id (.createTarget p k) (.ok result) ::
        .handling msg :: s.history) = _
      rw [List.filterMap_cons_none rfl, List.filterMap_cons_none (hev.trans hT), List.filterMap_cons_none rfl]
  | some T =>
      dsimp only
      rw [State.finish_done (i := id) (b := s.stack) rfl (by rw [State.attach_stack]; rfl)]
      have hcalm := u.sendCommand_calm (str "Target.attachToTarget")
        (.object [(str "targetId", .str T), (str "flatten", .bool true)]) (.attachToTarget p T k) []
      intro hn
      have hcount : issuedCount s.history + 1 < 2 ^ 31 := by
        have := issuedCount_send u (str "Target.attachToTarget")
          (.object [(str "targetId", .str T), (str "flatten", .bool true)]) (.attachToTarget p T k) []
        change issuedCount (u.sendCommand _ _ _ _).1.history < 2 ^ 31 at hn
        rw [this] at hn
        exact hn
      have hs : Held s := h (by omega)
      have hcounted : Counted u := hcu (by change issuedCount s.history < 2 ^ 31; omega)
      have hlt := (hcounted.pending_lt id _ hr).2
      have htargets : ((u.attach p T k).erased id s.stack).history.filterMap Event.target? =
          T :: s.history.filterMap Event.target? := by
        refine (send_targets u _ _ _ _).1.trans ?_
        change List.filterMap _ (.invoked id (.createTarget p k) (.ok result) :: .handling msg ::
          s.history) = _
        rw [List.filterMap_cons_some (hev.trans hT), List.filterMap_cons_none rfl]
      have hclosed : ((u.attach p T k).erased id s.stack).history.filterMap Event.closed? =
          s.history.filterMap Event.closed? := (send_targets u _ _ _ _).2
      have hx : ∀ c, ((u.attach p T k).erased id s.stack).targetAt c = s.targetAt c := fun c =>
        congrArg (fun heap : List CdpBrowserContext => heap[c]?.map _) hcalm.heap
      have hctx : ((u.attach p T k).erased id s.stack).contexts = s.contexts := hcalm.contexts
      refine ⟨(hcu.send _ _ _ _).erased id s.stack hn, fun U hU => ?_, fun c hc => ?_⟩
      · have hU' := hU.1
        rw [htargets, List.mem_cons] at hU'
        rcases hU' with rfl | hU'
        · refine .inr ⟨u.cmdId, .attachToTarget p U k, ?_, rfl, hst _⟩
          rw [lookup_erased (by omega)]
          exact lookup_sent _ _ _ _ _
        · rcases hs.before hU hU' (fun c hc => by rwa [hclosed]) (fun c V hc => (hx c).trans hc) with
            ⟨q, c, hq, hc⟩ | ⟨id', r, hr', hc, he⟩
          · exact .inl ⟨q, c, hctx ▸ hq, (hx c).trans hc⟩
          · refine .inr ⟨id', r, ?_, (carried_congr hx r).trans hc, hst _⟩
            rw [lookup_erased]
            · exact hcounted.lookup_send _ _ _ _ hr'
            · rintro rfl
              rw [hr] at hr'
              cases hr'
              cases hc
      · rw [hclosed] at hc
        rw [hctx]
        refine ⟨?_, (hs.closed c hc).2⟩
        have hd := (hs.closed c hc).1
        unfold State.Destroyed at hd ⊢
        rw [← hd]
        exact congrArg (fun heap : List CdpBrowserContext => heap[c]?.map _) hcalm.heap

/-- The response that names a session: the context of the target is on its way. -/
theorem Holds.attachTo {msg : Parsed} {id : ℤ} {p : Str} {T : ValidStr} {k : Continuation}
    {result : Parsed} (h : Holds s) (hst : ∀ i, .eraseIt i ∉ s.stack) (hid : msg.id? = some id)
    (hr : s.pending.lookup id = some (.attachToTarget p T k))
    (hreply : msg.reply = some (.ok result)) : Holds (s.onWsMessage (some msg)) := by
  set u := (s.log (.handling msg)).calling id (.attachToTarget p T k) (.ok result) with hu
  have hcu : Counts u := h.counts.grow rfl (fun _ _ hl => hl) rfl
  rw [State.onWsMessage_response hid hr hreply, State.invoke_attachToTarget]
  cases hS : result.strAt (str "sessionId") with
  | none =>
      dsimp only
      rw [State.finish_raise (i := id) (b := s.stack) rfl rfl]
      exact h.grow rfl (fun _ _ hl => hl) rfl ⟨rfl, rfl, fun _ => rfl, rfl, fun _ _ hr _ _ => hr,
        fun _ he => he, fun _ hd => hd⟩
  | some S =>
      dsimp only
      rw [State.finish_done (i := id) (b := s.stack) rfl
        (by rw [State.enable_stack, State.script_stack]; rfl)]
      set u' : State := { u with heap := u.heap ++ [{ platform := p, targetId := T, sessionId := S }] }
      have hcu' : Counts u' := hcu.grow rfl (fun _ _ hl => hl) rfl
      have hcv : Counts (u.script p T S k) := hcu'.send _ _ _ _
      have hcount : issuedCount ((u.script p T S k).enable S).history = issuedCount s.history + 2 :=
        (issuedCount_send (u.script p T S k) _ _ _ _).trans
          (congrArg (· + 1) (issuedCount_send u' _ _ _ _))
      have hcountv : issuedCount (u.script p T S k).history = issuedCount s.history + 1 :=
        issuedCount_send u' _ _ _ _
      intro hn
      have hn' : issuedCount s.history + 2 < 2 ^ 31 := hcount ▸ hn
      have hs : Held s := h (by omega)
      have hcounted : Counted u' := hcu' (by change issuedCount s.history < 2 ^ 31; omega)
      have hcountedv : Counted (u.script p T S k) := hcv (by omega)
      have hlt := (hcounted.pending_lt id _ hr).2
      have hkeep : ∀ i r, i ≠ id → u'.pending.lookup i = some r →
          (((u.script p T S k).enable S).erased id s.stack).pending.lookup i = some r := by
        intro i r hne hl
        rw [lookup_erased hne]
        exact hcountedv.lookup_send _ _ _ _ (hcounted.lookup_send _ _ _ _ hl)
      have htargets : (((u.script p T S k).enable S).erased id s.stack).history.filterMap Event.target? =
          s.history.filterMap Event.target? :=
        (send_targets (u.script p T S k) _ _ _ _).1.trans (send_targets u' _ _ _ _).1
      have hclosed : (((u.script p T S k).enable S).erased id s.stack).history.filterMap Event.closed? =
          s.history.filterMap Event.closed? :=
        (send_targets (u.script p T S k) _ _ _ _).2.trans (send_targets u' _ _ _ _).2
      have hheap : (((u.script p T S k).enable S).erased id s.stack).heap =
          s.heap ++ [{ platform := p, targetId := T, sessionId := S }] := script_heap p T S k
      have hctx : (((u.script p T S k).enable S).erased id s.stack).contexts = s.contexts :=
        (State.sendCommand_calm (u.script p T S k) _ _ _ _).contexts.trans
          (State.sendCommand_calm u' _ _ _ _).contexts
      have hx : ∀ c U, s.targetAt c = some U →
          (((u.script p T S k).enable S).erased id s.stack).targetAt c = some U := by
        intro c U hc
        obtain ⟨x, hx, rfl⟩ := Option.map_eq_some_iff.mp hc
        unfold State.targetAt
        rw [hheap, List.getElem?_append_left (List.getElem?_eq_some_iff.mp hx).1, hx]
        rfl
      refine ⟨(hcv.send _ _ _ _).erased id s.stack hn, fun U hU => ?_, fun c hc => ?_⟩
      · rcases hs.before hU (htargets ▸ hU.1) (fun c hc => by rwa [hclosed]) hx with
          ⟨q, c, hq, hc⟩ | ⟨i, r, hr', hc, -⟩
        · exact .inl ⟨q, c, hctx ▸ hq, hx c U hc⟩
        by_cases hi : i = id
        · subst hi
          rw [hr] at hr'
          cases hr'
          cases hc
          refine .inr ⟨u.cmdId, .addScript p s.heap.length k, ?_, ?_, hst _⟩
          · rw [lookup_erased (Int.ne_of_gt hlt)]
            exact hcountedv.lookup_send _ _ _ _ (lookup_sent u' _ _ _ _)
          · change State.targetAt _ _ = _
            unfold State.targetAt
            rw [hheap]
            simp
        · refine .inr ⟨i, r, hkeep i r hi hr', ?_, hst _⟩
          cases r with
          | attachToTarget q V k' => exact hc
          | addScript q c k' => exact hx c U hc
          | _ => cases hc
      · rw [hclosed] at hc
        rw [hctx]
        obtain ⟨hd, hno⟩ := hs.closed c hc
        refine ⟨?_, hno⟩
        obtain ⟨x, hx, hd⟩ := Option.map_eq_some_iff.mp hd
        unfold State.Destroyed
        rw [hheap, List.getElem?_append_left (List.getElem?_eq_some_iff.mp hx).1, hx]
        exact congrArg some hd

/-- The last response of a chain: the context it was for holds the target now. -/
theorem Holds.cache {id : ℤ} {p : Str} {c : ℕ} {k : Continuation} {result : Parsed} {msg : Parsed}
    (h : Holds s) (hr : s.pending.lookup id = some (.addScript p c k))
    (hp : s.contexts.lookup p = none) (hc : s.Alive c) :
    Holds ((((s.log (.handling msg)).calling id (.addScript p c k) (.ok result)).resetContext p c).log
      (.cached p c k)) := by
  set u := (s.log (.handling msg)).calling id (.addScript p c k) (.ok result) with hu
  have hreset : u.resetContext p c = { u with contexts := s.contexts.insert p c } := by
    unfold State.resetContext
    have hp' : u.contexts.lookup p = none := hp
    simp only [hp']
    rfl
  rw [hreset]
  intro hn
  have hs : Held s := h hn
  have hlook : ∀ q, AList.lookup q (AList.insert p c s.contexts) =
      if q = p then some c else s.contexts.lookup q := fun q => StdMap.lookup_insert_eq_ite _ _ _ _
  refine ⟨hs.toCounted.grow rfl (fun _ _ hl => hl) rfl, fun T hT => ?_, fun d hd => ?_⟩
  · rcases hs.held T hT with ⟨q, d, hq, hd⟩ | ⟨i, r, hr', hd, he⟩
    · refine .inl ⟨q, d, (hlook q).trans ?_, hd⟩
      rw [if_neg, hq]
      rintro rfl
      rw [hp] at hq
      cases hq
    · by_cases hi : i = id
      · subst hi
        rw [hr] at hr'
        cases hr'
        exact .inl ⟨p, c, (hlook p).trans (if_pos rfl), hd⟩
      · refine .inr ⟨i, r, hr', hd, ?_⟩
        simp only [State.log, hu, State.calling, List.mem_cons, Frame.eraseIt.injEq, not_or]
        exact ⟨hi, he⟩
  · obtain ⟨hdes, hno⟩ := hs.closed d hd
    refine ⟨hdes, fun q hq => ?_⟩
    have hq := (hlook q).symm.trans hq
    split at hq
    · cases hq
      rw [State.Destroyed, hc] at hdes
      cases hdes
    · exact hno q hq

theorem State.platformOf_eq {c : ℕ} {p : Str} (h : s.platformAt c = some p) : s.platformOf c = p := by
  unfold State.platformAt at h
  rw [State.platformOf, h]
  rfl

/-- The response to `Target.closeTarget`: the target and the context that had it are gone. -/
theorem Holds.remove {id : ℤ} {c call : ℕ} {result : Parsed} {msg : Parsed} (h : Holds s) (ho : Owned s)
    (hr : s.pending.lookup id = some (.closeTarget c call))
    (hc : s.contexts.lookup (s.platformOf c) = some c) :
    Holds ((((s.log (.handling msg)).calling id (.closeTarget c call) (.ok result)).readContext
      c).removeContext (s.platformOf c)) := by
  set u := (s.log (.handling msg)).calling id (.closeTarget c call) (.ok result) with hu
  have hcalm := u.readContext_calm c
  have hremove : (u.readContext c).removeContext (s.platformOf c) =
      { (u.readContext c) with contexts := s.contexts.erase (s.platformOf c) }.destroy c := by
    unfold State.removeContext
    have hl : (u.readContext c).contexts.lookup (s.platformOf c) = some c := by
      rw [hcalm.contexts]
      exact hc
    simp only [hl]
    rw [show (u.readContext c).contexts = s.contexts from hcalm.contexts]
  rw [hremove]
  set w := ({ (u.readContext c) with contexts := s.contexts.erase (s.platformOf c) } : State).destroy c
  obtain ⟨es, hes, hh⟩ := hcalm.history
  have hun := Event.untimed.targets (h := u.history) fun e he => (hes e he).untimed
  have hhist : w.history = es ++ u.history := hh
  have hx : ∀ d, w.targetAt d = s.targetAt d := by
    intro d
    refine (targetAt_modify _ c d (f := fun x => { x with destroyed := true }) fun _ => rfl).trans ?_
    exact congrArg (fun heap : List CdpBrowserContext => heap[d]?.map _) hcalm.heap
  have hctx : ∀ q, w.contexts.lookup q = if q = s.platformOf c then none else s.contexts.lookup q :=
    fun q => StdMap.lookup_erase_eq_ite _ _ _
  have hclosed : w.history.filterMap Event.closed? = c :: s.history.filterMap Event.closed? := by
    rw [hhist, hun.2]
    rfl
  have hheap : w.heap = s.heap.modify c fun x => { x with destroyed := true } :=
    congrArg (fun heap : List CdpBrowserContext => heap.modify c _) hcalm.heap
  intro hn
  have hcount : issuedCount w.history = issuedCount s.history := by
    rw [hhist, issuedCount, issuedIds_append fun e he => (hes e he).untimed]
    rfl
  have hs : Held s := h (hcount ▸ hn)
  refine ⟨hs.toCounted.grow hcalm.cmdId (fun i r hl => ?_) ?_, fun T hT => ?_, fun d hd => ?_⟩
  · have hl : (u.readContext c).pending.lookup i = some r := hl
    rwa [hcalm.pending] at hl
  · rw [hhist, issuedIds_append fun e he => (hes e he).untimed]
    rfl
  · have hnamed : T ∈ s.history.filterMap Event.target? := by
      have := hT.1
      rw [hhist, hun.1] at this
      exact this
    rcases hs.before hT hnamed (fun d hd => by rw [hclosed]; exact List.mem_cons_of_mem _ hd)
      (fun d V hd => (hx d).trans hd) with ⟨q, d, hq, hd⟩ | ⟨i, r, hr', hd, he⟩
    · refine .inl ⟨q, d, ?_, (hx d).trans hd⟩
      rw [hctx, if_neg]
      · exact hq
      · rintro rfl
        rw [hc] at hq
        cases hq
        exact hT.2 c (by simp [hclosed]) ((hx c).trans hd)
    · refine .inr ⟨i, r, ?_, (carried_congr hx r).trans hd, ?_⟩
      · change (u.readContext c).pending.lookup i = some r
        rw [hcalm.pending]
        exact hr'
      · change .eraseIt i ∉ (u.readContext c).stack
        rw [hcalm.erasing]
        simp only [hu, State.log, State.calling, List.mem_cons, Frame.eraseIt.injEq, not_or]
        refine ⟨?_, he⟩
        rintro rfl
        rw [hr] at hr'
        cases hr'
        cases hd
  · rw [hclosed, List.mem_cons] at hd
    rcases hd with rfl | hd
    · refine ⟨?_, fun q hq => ?_⟩
      · obtain ⟨x, hx', -⟩ := Option.map_eq_some_iff.mp (ho.cached _ _ hc)
        unfold State.Destroyed
        simp [hheap, hx']
      · rw [hctx] at hq
        split at hq
        · cases hq
        · rename_i hne
          exact hne (State.platformOf_eq (ho.cached q d hq)).symm
    · obtain ⟨hdes, hno⟩ := hs.closed d hd
      refine ⟨?_, fun q hq => ?_⟩
      · obtain ⟨x, hx', hd'⟩ := Option.map_eq_some_iff.mp hdes
        unfold State.Destroyed
        simp only [hheap, List.getElem?_modify, hx', Option.map_eq_map, Option.map_some]
        split <;> simp [hd']
      · rw [hctx] at hq
        split at hq
        · cases hq
        · exact hno q hq

/-- A callback that neither names nor closes a target. -/
theorem Holds.calling (h : Holds s) {id : ℤ} {r : PendingRequest} {reply : Reply}
    (hr : s.pending.lookup id = some r) (hcar : s.carried r = none) (htar : r.target? reply = none)
    (hcl : (Event.invoked id r reply).closed? = none) : Holds (s.calling id r reply) := by
  have htargets : (s.calling id r reply).history.filterMap Event.target? =
      s.history.filterMap Event.target? := List.filterMap_cons_none htar
  have hclosed : (s.calling id r reply).history.filterMap Event.closed? =
      s.history.filterMap Event.closed? := List.filterMap_cons_none hcl
  intro hn
  have hs : Held s := h hn
  refine ⟨hs.toCounted.grow rfl (fun _ _ hl => hl) rfl, fun T hT => ?_, fun d hd => ?_⟩
  · refine (hs.before hT (htargets ▸ hT.1) (fun c hc => by rwa [hclosed]) fun _ _ hc => hc).imp_right ?_
    rintro ⟨i, r', hr', hd, he⟩
    refine ⟨i, r', hr', hd, ?_⟩
    simp only [State.calling, List.mem_cons, Frame.eraseIt.injEq, not_or]
    refine ⟨?_, he⟩
    rintro rfl
    rw [hr] at hr'
    cases hr'
    rw [show s.carried r = some T from hd] at hcar
    cases hcar
  · rw [hclosed] at hd
    exact hs.closed d hd

theorem Holds.message (h : Holds s) (ho : Owned s) (hst : ∀ i, .eraseIt i ∉ s.stack) {msg : Parsed}
    (hC : ∀ id ∈ msg.id?, ∀ r ∈ s.pending.lookup id, ∀ reply ∈ msg.reply, s.KeepsTarget r reply) :
    Holds (s.onWsMessage (some msg)) := by
  have hlog : Holds (s.log (.handling msg)) :=
    h.grow rfl (fun _ _ hl => hl) rfl ⟨rfl, rfl, fun _ => rfl, rfl, fun _ _ hr _ _ => hr,
      fun _ he => he, fun _ hd => hd⟩
  rcases onWsMessage_links s msg with hm | ⟨id, r, result, hid, hr, hreply, hlink⟩ |
    ⟨id, r, reply, u, v, hid, hr, hreply, hlink, hu, hv, hvt⟩
  · exact hlog.parts hm
  · cases r with
    | createTarget p k => exact h.create hst hid hr hreply
    | attachToTarget p T k => exact h.attachTo hst hid hr hreply
    | _ => cases hlink
  · specialize hC id hid r hr reply hreply
    refine (Holds.parts ?_ hv.parts).settle hvt
    cases hu with
    | cache p c k result => exact h.cache hr hC.2.1 hC.2.2
    | reject p c k text => cases hC.1
    | remove c call result => exact h.remove ho hr hC
    | plain =>
        cases r with
        | attachToTarget p T k =>
            have hok : reply.isOk = true := hC
            rw [hok] at hlink
            exact hlink.elim nofun nofun
        | addScript p c k => rename_i hp; cases hp
        | createTarget p k =>
            refine hlog.calling hr rfl ?_ rfl
            cases reply with
            | ok result => exact hlink.elim nofun nofun
            | error text => rfl
        | closeTarget c call =>
            cases reply with
            | ok result => rename_i hp; cases hp
            | error text => exact hlog.calling hr rfl rfl rfl
        | _ => exact hlog.calling hr rfl rfl rfl

theorem Holds.step {l : Label} (h : Holds s) (ho : Owned s) (hsh : Shape s.stack)
    (hl : l.isStop = false) (hC : s.LosesNoTarget l) (ht : s.step l = some t) : Holds t := by
  cases hses : s.ofSession l with
  | true => exact h.session_step hl (State.step_session ht hsh hses)
  | false =>
      have hpop : ∀ st, (∀ i, .eraseIt i ∈ st → .eraseIt i ∈ s.stack) → Holds { s with stack := st } :=
        fun st he => h.grow rfl (fun _ _ hl => hl) rfl ⟨rfl, rfl, fun _ => rfl, rfl,
          fun _ _ hr _ _ => hr, he, fun _ hd => hd⟩
      rcases State.step_parts (ρ := noLinks) ht hsh hses (fun _ => trivial) (fun _ => trivial)
        (fun _ cmd r _ _ _ hlk _ => hlk.resolve_right Bool.false_ne_true) (fun _ _ _ _ => trivial)
        (fun _ _ _ _ => ⟨fun _ _ => trivial, fun _ cmd r _ _ _ hlk _ => hlk.resolve_right Bool.false_ne_true⟩)
        (fun _ _ => trivial) with
        hp | ⟨-, rest, hst, rfl⟩ | ⟨-, rest, hst, rfl⟩ | ⟨rfl, conn, msg, batch, hst, rfl⟩
      · exact h.parts hp
      · exact (hpop rest (by simp [hst])).settle (State.resume_settles _)
      · exact (hpop rest (by simp [hst])).settle (State.unwind_settles _)
      · exact (hpop _ (by simp)).message (ho.restack _) (by simp) (hC msg (State.incoming_eq hst))

/-- In a run without `stop()` in which Chrome names new targets, no target that a chain goes on
with is refused, and each last response and each acknowledged closing finds the cache as it should
be, the open targets are those of the cached contexts whenever nothing is under way. -/
theorem open_targets_are_held {ls : List Label} (hr : Transition.run State.step init ls = some s)
    (hn : issuedCount s.history < 2 ^ 31) (hstop : ∀ l ∈ ls, l.isStop = false)
    (hC : Transition.Along State.step (fun s l => s.Fresh l ∧ s.LosesNoTarget l) init ls)
    (hsettled : s.TargetsSettled) (T : ValidStr) : s.TargetOpen T ↔ s.TargetHeld T := by
  have h0 : Holds init := by
    refine fun _ => ⟨⟨rfl, ?_, ?_, ?_⟩, ?_, ?_⟩ <;> simp [init, State.TargetOpen]
  have h := Transition.run_invariant_along
    (I := fun s : State => Shape s.stack ∧ Owned s ∧ Chains s ∧ Holds s)
    (C := fun s l => l.isStop = false ∧ s.Fresh l ∧ s.LosesNoTarget l)
    (fun s l t h hC ht => ⟨State.step_shape h.1 ht, h.2.1.step h.1 ht, h.2.2.1.step h.1 hC.2.1 ht,
      h.2.2.2.step h.2.1 h.1 hC.1 hC.2.2 ht⟩)
    ⟨by trivial, .init, .init, h0⟩ ((Transition.along_of_forall hstop init).and hC) hr
  obtain ⟨-, ho, hch, hh⟩ := h
  have hs := hh hn
  constructor
  · intro hT
    refine (hs.held T hT).resolve_right ?_
    rintro ⟨id, r, hr, hc, -⟩
    have hof := hsettled id r hr
    cases r <;> simp [PendingRequest.ofTarget, State.carried] at hof hc
  · rintro ⟨p, c, hp, hc⟩
    obtain ⟨x, hx, rfl⟩ := Option.map_eq_some_iff.mp hc
    have hi : s.identAt c = some (x.platform, x.targetId, x.sessionId) := by
      simp [State.identAt, hx]
    refine ⟨(hch.target c _ _ _ hi).mem, fun d hd hd' => ?_⟩
    obtain ⟨y, hy, hxy⟩ := Option.map_eq_some_iff.mp hd'
    have hj : s.identAt d = some (y.platform, x.targetId, y.sessionId) := by
      simp [State.identAt, hy, hxy]
    obtain rfl := hch.target_inj c d _ _ _ _ _ hi hj
    exact (hs.closed c hd).2 p hp

/-- A chain and the closing of its context. -/
def openThenClose : List Label :=
  connect ++ [.getContext (str "xhs")] ++ answerChain 1 ++ [.getContext (str "zhihu")] ++
    arrive (okMessage 5 (targetResult ⟨str "T2", Eq.refl true⟩)) ++ [.next] ++
    arrive (okMessage 6 (sessionResult ⟨str "S2", Eq.refl true⟩)) ++ [.next] ++
    arrive (okMessage 7 .null) ++ [.ret, .next, .close 0] ++ arrive (okMessage 9 .null) ++ [.ret, .next]

theorem open_targets_are_held_sample : ∃ s, Transition.run State.step init openThenClose = some s ∧
    s.history.filterMap Event.target? = [⟨str "T2", rfl⟩, ⟨str "T", rfl⟩] ∧
    ∀ T, s.TargetOpen T ↔ s.TargetHeld T := by
  have h : (Transition.run State.step init openThenClose).any (fun s =>
      s.history.filterMap Event.target? = [⟨str "T2", rfl⟩, ⟨str "T", rfl⟩] ∧
        issuedCount s.history < 2 ^ 31 ∧ ∀ e ∈ s.pending.entries, e.2.ofTarget = false) = true := by
    decide +kernel
  obtain ⟨s, hs, h⟩ := Option.any_eq_true _ _ |>.mp h
  simp only [decide_eq_true_eq] at h
  refine ⟨s, hs, h.1, open_targets_are_held hs h.2.1 (by decide) (by decide +kernel) ?_⟩
  exact fun id r hr => h.2.2 ⟨id, r⟩ ((StdMap.mem_entries_iff _ _ _).mpr hr)

/-- Chrome refuses to attach to the target it has just created. -/
def attachRefused : List Label :=
  connect ++ [.getContext (str "xhs")] ++ arrive (okMessage 1 (targetResult ⟨str "T", Eq.refl true⟩)) ++ [.next] ++
    arrive (errorMessage 2 ⟨str "no such target", Eq.refl true⟩) ++ [.ret, .next]

theorem refused_target_leaks : ¬ ∀ (ls : List Label) (s : State),
    Transition.run State.step init ls = some s → issuedCount s.history < 2 ^ 31 →
    (∀ l ∈ ls, l.isStop = false) → Transition.Along State.step State.Fresh init ls →
    s.TargetsSettled → ∀ T, s.TargetOpen T ↔ s.TargetHeld T := by
  have h : (Transition.run State.step init attachRefused).any (fun s =>
      s.history.filterMap Event.target? = [⟨str "T", rfl⟩] ∧
        s.history.filterMap Event.closed? = [] ∧ s.contexts.entries.length = 0 ∧
        issuedCount s.history < 2 ^ 31 ∧ ∀ e ∈ s.pending.entries, e.2.ofTarget = false) = true := by
    decide +kernel
  obtain ⟨s, hs, h⟩ := Option.any_eq_true _ _ |>.mp h
  simp only [decide_eq_true_eq] at h
  obtain ⟨htarget, hclosed, hctx, hn, hsettled⟩ := h
  intro hall
  have hiff := hall _ s hs hn (by decide) (by decide +kernel)
    (fun id r hr => hsettled ⟨id, r⟩ ((StdMap.mem_entries_iff _ _ _).mpr hr)) ⟨str "T", rfl⟩
  obtain ⟨p, c, hp, -⟩ := hiff.mp ⟨by simp [htarget], by simp [hclosed]⟩
  have hmem := (StdMap.mem_entries_iff _ _ _).mpr hp
  rw [List.eq_nil_of_length_eq_zero hctx] at hmem
  cases hmem

end LynneSocial.Browser
