import LynneSocial.Browser.Steps

/-!
# The context cache

A platform has one live context as long as nothing is closed or stopped, if the
last response of a chain never finds the platform already in the cache. Two
chains that overlap violate this: the second one replaces the context that was
handed out by the first.
-/
namespace LynneSocial.Browser

variable {ρ : Rules} {s t : State}

/-- The platform a context was created for. -/
def State.platformAt (s : State) (c : ℕ) : Option Str :=
  s.heap[c]?.map CdpBrowserContext.platform

/-- The context was created and its destructor has not run. -/
def State.Alive (s : State) (c : ℕ) : Prop :=
  s.heap[c]?.map CdpBrowserContext.destroyed = some false

theorem map_getElem?_modify {α β : Type} (xs : List α) (i j : ℕ) {f : α → α} {g : α → β}
    (h : ∀ x, g (f x) = g x) : (xs.modify i f)[j]?.map g = xs[j]?.map g := by
  rw [List.getElem?_modify]
  split
  · cases xs[j]? <;> simp [h]
  · simp

/-- A context waits for one response only, and it waits, or is cached, under the platform it
was created for. -/
structure Owned (s : State) : Prop where
  entry : ∀ id p c k, s.pending.lookup id = some (.addScript p c k) → s.platformAt c = some p
  cached : ∀ p c, s.contexts.lookup p = some c → s.platformAt c = some p
  unique : ∀ id id' p p' c k k', s.pending.lookup id = some (.addScript p c k) →
    s.pending.lookup id' = some (.addScript p' c k') → id = id'

theorem Owned.frame (h : Owned s)
    (hp : ∀ id p c k, t.pending.lookup id = some (.addScript p c k) →
      s.pending.lookup id = some (.addScript p c k))
    (hc : ∀ p c, t.contexts.lookup p = some c → s.contexts.lookup p = some c)
    (hx : ∀ c, t.platformAt c = s.platformAt c) : Owned t where
  entry id p c k hl := hx c ▸ h.entry id p c k (hp id p c k hl)
  cached p c hl := hx c ▸ h.cached p c (hc p c hl)
  unique id id' p p' c k k' hl hl' := h.unique id id' p p' c k k' (hp _ _ _ _ hl) (hp _ _ _ _ hl')

theorem issue_lookup (s : State) (r : PendingRequest) (id : ℤ) :
    (s.issue r).pending.lookup id = if id = s.cmdId then some r else s.pending.lookup id :=
  StdMap.lookup_insert_eq_ite _ _ _ _

theorem issue_lookup_addScript {r : PendingRequest} (hr : r.context? = none) {id : ℤ} {p : Str}
    {c : ℕ} {k : Continuation} (h : (s.issue r).pending.lookup id = some (.addScript p c k)) :
    s.pending.lookup id = some (.addScript p c k) := by
  rw [issue_lookup] at h
  split at h
  · cases h
    simp [PendingRequest.context?] at hr
  · exact h

theorem platformAt_lt {c : ℕ} {p : Str} (h : s.platformAt c = some p) : c < s.heap.length := by
  obtain ⟨x, hx, -⟩ := Option.map_eq_some_iff.mp h
  exact (List.getElem?_eq_some_iff.mp hx).1

theorem Owned.create (h : Owned s) (x : CdpBrowserContext) (k : Continuation) :
    Owned (({ s with heap := s.heap ++ [x] } : State).issue (.addScript x.platform s.heap.length k)) := by
  set u : State := { s with heap := s.heap ++ [x] } with hu
  have hold : ∀ c p, s.platformAt c = some p →
      (u.issue (.addScript x.platform s.heap.length k)).platformAt c = some p := by
    intro c p hp
    have hlt := platformAt_lt hp
    rw [← hp]
    exact congrArg _ (List.getElem?_append_left hlt)
  have hcase : ∀ id p c k',
      (u.issue (.addScript x.platform s.heap.length k)).pending.lookup id =
        some (.addScript p c k') →
      (id = s.cmdId ∧ p = x.platform ∧ c = s.heap.length) ∨
        s.pending.lookup id = some (.addScript p c k') := by
    intro id p c k' hl
    rw [issue_lookup] at hl
    split at hl
    · cases hl
      exact .inl ⟨‹_›, rfl, rfl⟩
    · exact .inr hl
  refine ⟨?_, ?_, ?_⟩
  · intro id p c k' hl
    rcases hcase id p c k' hl with ⟨-, rfl, rfl⟩ | hl
    · simp [State.platformAt, State.issue, hu]
    · exact hold c p (h.entry id p c k' hl)
  · exact fun p c hl => hold c p (h.cached p c hl)
  · intro id id' p p' c k₁ k₂ hl hl'
    rcases hcase _ _ _ _ hl with ⟨rfl, -, rfl⟩ | hl
    · rcases hcase _ _ _ _ hl' with ⟨rfl, -, -⟩ | hl'
      · rfl
      · have := platformAt_lt (h.entry _ _ _ _ hl')
        omega
    · rcases hcase _ _ _ _ hl' with ⟨-, -, rfl⟩ | hl'
      · have := platformAt_lt (h.entry _ _ _ _ hl)
        omega
      · exact h.unique id id' p p' c k₁ k₂ hl hl'

theorem Owned.calm (h : Owned s) (hc : Calm s t) : Owned t :=
  h.frame (by simp [hc.pending]) (by simp [hc.contexts]) (by simp [State.platformAt, hc.heap])

/-- A flag of a context changes. -/
theorem Owned.modify (h : Owned s) (c : ℕ) {f : CdpBrowserContext → CdpBrowserContext}
    (hf : ∀ x, (f x).platform = x.platform) : Owned (s.modifyContext c f) :=
  h.frame (fun _ _ _ _ hl => hl) (fun _ _ hl => hl) fun _ => map_getElem?_modify _ _ _ hf

theorem Owned.act (h : Owned s) (ha : Act ρ s t) : Owned t := by
  cases ha with
  | send method params r sessionId hr =>
      refine Owned.calm ?_ (s.sendCommand_calm method params r sessionId)
      exact h.frame (fun _ _ _ _ hl => issue_lookup_addScript hr.context hl) (fun _ _ hl => hl) fun _ => rfl
  | create platform targetId sid k method params sessionId =>
      exact (h.create { platform, targetId, sessionId := sid } k).calm (State.sendCommand_calm _ _ _ _ _)
  | deliver platform c n =>
      have hm := h.modify c (f := fun x => { x with shared := true }) fun _ => rfl
      exact hm.frame (fun _ _ _ _ hl => hl) (fun _ _ hl => hl) fun _ => rfl
  | close c => exact h.modify c fun _ => rfl
  | read c => exact h.calm (s.readContext_calm c)
  | aside _ hc => exact h.calm hc.calm
  | _ => exact h.frame (fun _ _ _ _ hl => hl) (fun _ _ hl => hl) fun _ => rfl

theorem Owned.moves (h : Owned s) (hm : Moves ρ s t) : Owned t :=
  Moves.invariant (fun _ _ h ha => Owned.act h ha) (fun _ _ h hc => Owned.calm h hc) hm h

theorem Owned.settle (h : Owned s) (hs : Settles s t) : Owned t := by
  cases hs with
  | stay => exact h
  | erase id rest =>
      refine h.frame (fun id' p c k hl => ?_) (fun _ _ hl => hl) fun _ => rfl
      rw [show ({ s with pending := s.pending.erase id, stack := rest } : State).pending =
        s.pending.erase id from rfl, StdMap.lookup_erase_eq_ite] at hl
      split at hl
      · cases hl
      · exact hl
  | escape => exact h.frame (fun _ _ _ _ hl => hl) (fun _ _ hl => hl) fun _ => rfl

theorem resetContext_platformAt (s : State) (p : Str) (c d : ℕ) :
    (s.resetContext p c).platformAt d = s.platformAt d := by
  unfold State.platformAt
  rw [State.resetContext_heap]
  split
  · exact map_getElem?_modify _ _ _ fun _ => rfl
  · rfl

theorem removeContext_platformAt (s : State) (p : Str) (d : ℕ) :
    (s.removeContext p).platformAt d = s.platformAt d := by
  unfold State.removeContext
  split
  · exact map_getElem?_modify _ _ _ fun _ => rfl
  · rfl

theorem removeContext_lookup (s : State) (p q : Str) :
    (s.removeContext p).contexts.lookup q = if q = p then none else s.contexts.lookup q := by
  unfold State.removeContext
  split
  · exact StdMap.lookup_erase_eq_ite _ _ _
  · rename_i h
    split
    · subst q
      exact h
    · rfl

theorem resetContext_lookup (s : State) (p q : Str) (c : ℕ) :
    (s.resetContext p c).contexts.lookup q = if q = p then some c else s.contexts.lookup q := by
  rw [State.resetContext_contexts]
  exact StdMap.lookup_insert_eq_ite _ _ _ _

theorem Owned.touch (h : Owned s) {id : ℤ} {r : PendingRequest} {reply : Reply}
    (hr : s.pending.lookup id = some r) (ht : Touches r reply s t) : Owned t := by
  have hp := ht.keeps.pending
  cases ht with
  | plain => exact h
  | cache p c k result =>
      have hx : ∀ d, ((s.resetContext p c).log (.cached p c k)).platformAt d = s.platformAt d :=
        resetContext_platformAt s p c
      refine ⟨?_, ?_, ?_⟩
      · intro id' p' c' k' hl
        rw [hx]
        exact h.entry id' p' c' k' (hp ▸ hl)
      · intro q d hl
        rw [hx]
        have hl : (s.resetContext p c).contexts.lookup q = some d := hl
        rw [resetContext_lookup] at hl
        split at hl
        · cases hl
          subst q
          exact h.entry id p c k hr
        · exact h.cached q d hl
      · exact fun id₁ id₂ p₁ p₂ d k₁ k₂ hl₁ hl₂ =>
          h.unique id₁ id₂ p₁ p₂ d k₁ k₂ (hp ▸ hl₁) (hp ▸ hl₂)
  | reject p c k text =>
      have hd : Owned (s.destroy c) := h.modify c fun _ => rfl
      exact hd.frame (fun _ _ _ _ hl => hl) (fun _ _ hl => hl) fun _ => rfl
  | remove c call result =>
      have hread : Owned (s.readContext c) := h.calm (s.readContext_calm c)
      refine hread.frame ?_ ?_ (removeContext_platformAt _ _)
      · exact fun _ _ _ _ hl => (removeContext_keeps (s.readContext c) _).pending ▸ hl
      · intro q d hl
        rw [removeContext_lookup] at hl
        split at hl
        · cases hl
        · exact hl

theorem Owned.clear (h : Owned s) : Owned s.clearContexts := by
  have hx : ∀ (es : List (Sigma fun _ : Str => ℕ)) (u : State), Owned u →
      Owned (es.foldl (fun u e => u.destroy e.2) u) := by
    intro es
    induction es with
    | nil => exact fun _ hu => hu
    | cons e es ih => exact fun u hu => ih _ (hu.modify e.2 fun _ => rfl)
  exact (hx _ s h).frame (fun _ _ _ _ hl => hl) (fun _ _ hl => nomatch hl) fun _ => rfl

theorem Owned.log (h : Owned s) (e : Event) : Owned (s.log e) :=
  h.frame (fun _ _ _ _ hl => hl) (fun _ _ hl => hl) fun _ => rfl

theorem Owned.restack (h : Owned s) (st : List Frame) : Owned { s with stack := st } :=
  h.frame (fun _ _ _ _ hl => hl) (fun _ _ hl => hl) fun _ => rfl

theorem Owned.calling (h : Owned s) (id : ℤ) (r : PendingRequest) (reply : Reply) :
    Owned (s.calling id r reply) :=
  h.frame (fun _ _ _ _ hl => hl) (fun _ _ hl => hl) fun _ => rfl

theorem Owned.step {l : Label} (h : Owned s) (hsh : Shape s.stack) (ht : s.step l = some t) :
    Owned t := by
  rcases State.step_cases (ρ := {}) ht hsh (fun _ => trivial) (fun _ => trivial)
    (fun _ _ _ _ _ _ _ => trivial) (fun _ _ _ _ => trivial) (fun _ _ => trivial) (fun _ _ => trivial) with
    ⟨u, hu, hut⟩ | ⟨-, -, hc⟩ | ⟨-, conn, msg, batch, hst, rfl⟩
  · exact (h.moves hu).settle hut
  · exact h.clear.calm hc
  · have hs : Owned { s with stack := [.draining batch] } := h.restack _
    rcases State.message_cases (ρ := {}) ⟨fun _ _ _ _ => trivial, fun _ => trivial⟩
      { s with stack := [.draining batch] } msg (fun _ _ _ _ _ _ => trivial) (fun _ _ _ _ _ _ _ => trivial) with
      ⟨hm, -⟩ | ⟨id, r, reply, u, v, -, hr, -, htouch, hv, hvt⟩
    · exact (hs.log _).moves hm.moves
    · have hc := (hs.log (.handling msg)).calling id r reply
      exact ((hc.touch hr htouch).moves hv.moves).settle hvt

theorem Owned.init : Owned init := by
  refine ⟨?_, ?_, ?_⟩ <;> simp [LynneSocial.Browser.init]

/-- The platform and the context of the last command of a chain. -/
def PendingRequest.created? : PendingRequest → Option (Str × ℕ)
  | addScript p c _ => some (p, c)
  | _ => none

def Reply.isOk : Reply → Bool
  | ok _ => true
  | error _ => false

/-- The last response of a chain finds no context for the platform; a failed one finds no
context that is in use. -/
def FillsOnce (s : State) (msg : Parsed) : Prop :=
  ∀ id ∈ msg.id?, ∀ r ∈ s.pending.lookup id, ∀ x ∈ r.created?, ∀ reply ∈ msg.reply,
    if reply.isOk then s.contexts.lookup x.1 = none else s.contexts.lookup x.1 ≠ some x.2

instance (s : State) (msg : Parsed) : Decidable (FillsOnce s msg) := by
  unfold FillsOnce
  infer_instance

/-- The step closes a context or stops the manager. -/
def Label.tearsDown : Label → Bool
  | .close _ | .stop => true
  | _ => false

structure OneEach (s : State) : Prop extends Owned s where
  noClose : ∀ id r, s.pending.lookup id = some r → r.isClose = false
  entry_alive : ∀ id p c k, s.pending.lookup id = some (.addScript p c k) → s.Alive c
  cached_alive : ∀ p c, s.contexts.lookup p = some c → s.Alive c
  handed : ∀ p c k, .handedOut p c k ∈ s.history → s.contexts.lookup p = some c

theorem OneEach.frame (h : OneEach s) (ho : Owned t)
    (hp : ∀ id r, t.pending.lookup id = some r →
      s.pending.lookup id = some r ∨ r.isClose = false ∧ r.context? = none)
    (hc : ∀ p, t.contexts.lookup p = s.contexts.lookup p) (hx : ∀ c, s.Alive c → t.Alive c)
    (hh : ∀ p c k, .handedOut p c k ∈ t.history →
      .handedOut p c k ∈ s.history ∨ s.contexts.lookup p = some c) : OneEach t := by
  refine ⟨ho, ?_, ?_, ?_, ?_⟩
  · exact fun id r hl => (hp id r hl).elim (h.noClose id r) And.left
  · intro id p c k hl
    rcases hp _ _ hl with hl | hl
    · exact hx c (h.entry_alive id p c k hl)
    · simp [PendingRequest.context?] at hl
  · exact fun p c hl => hx c (h.cached_alive p c (hc p ▸ hl))
  · intro p c k hi
    rw [hc]
    exact (hh p c k hi).elim (h.handed p c k) id

theorem handedOut_of_append {es h : List Event} (hes : ∀ p c k, .handedOut p c k ∉ es) {p : Str}
    {c : ℕ} {k : Continuation} (hi : .handedOut p c k ∈ es ++ h) : .handedOut p c k ∈ h :=
  (List.mem_append.mp hi).resolve_left (hes p c k)

theorem OneEach.calm (h : OneEach s) (hc : Calm s t) : OneEach t := by
  obtain ⟨es, hes, hh⟩ := hc.history
  refine h.frame (h.toOwned.calm hc) (fun id r hl => .inl (hc.pending ▸ hl))
    (fun p => by rw [hc.contexts]) (fun c hx => by simpa [State.Alive, hc.heap] using hx) ?_
  intro p c k hi
  rw [hh] at hi
  exact .inl (handedOut_of_append (fun p c k hm => (hes _ hm).elim) hi)

theorem alive_modify {c : ℕ} {f : CdpBrowserContext → CdpBrowserContext}
    (hf : ∀ x, (f x).destroyed = x.destroyed) (d : ℕ) (h : s.Alive d) :
    (s.modifyContext c f).Alive d := by
  unfold State.Alive at h ⊢
  rw [← h]
  exact map_getElem?_modify _ _ _ hf

/-- Sending is the only thing that is not allowed for closing. -/
def noClosing : Rules where
  send _ _ r := r.isClose = false

theorem OneEach.act (h : OneEach s) (ha : Act noClosing s t) : OneEach t := by
  have ho := h.toOwned.act ha
  cases ha with
  | send method params r sessionId hr hcl =>
      have hi : OneEach (s.issue r) := by
        refine h.frame ?_ (fun id r' hl => ?_) (fun _ => rfl) (fun _ hx => hx) ?_
        · exact h.toOwned.frame (fun _ _ _ _ hl => issue_lookup_addScript hr.context hl)
            (fun _ _ hl => hl) fun _ => rfl
        · rw [issue_lookup] at hl
          split at hl
          · cases hl
            exact .inr ⟨hcl, hr.context⟩
          · exact .inl hl
        · exact fun p c k hi => .inl (by simpa [State.issue] using hi)
      exact hi.calm (s.sendCommand_calm method params r sessionId)
  | create p targetId sid k method params sessionId =>
      set u : State := { s with heap := s.heap ++ [{ platform := p, targetId, sessionId := sid }] }
        with hu
      have hx : ∀ c, s.Alive c → u.Alive c := by
        intro c hx
        obtain ⟨x, hc, hd⟩ := Option.map_eq_some_iff.mp hx
        have hlt := (List.getElem?_eq_some_iff.mp hc).1
        simp [State.Alive, hu, List.getElem?_append_left hlt, hc, hd]
      have hnew : u.Alive s.heap.length := by simp [State.Alive, hu]
      have hi : OneEach (u.issue (.addScript p s.heap.length k)) := by
        refine ⟨h.toOwned.create _ k, ?_, ?_, fun q c hl => hx c (h.cached_alive q c hl),
          fun q c k' hi => h.handed q c k' (by simpa [State.issue, hu] using hi)⟩
        · intro id r hl
          rw [issue_lookup] at hl
          split at hl
          · cases hl
            rfl
          · exact h.noClose id r hl
        · intro id q c k' hl
          rw [issue_lookup] at hl
          split at hl
          · cases hl
            exact hnew
          · exact hx c (h.entry_alive id q c k' hl)
      exact hi.calm (State.sendCommand_calm _ _ _ _ _)
  | handOut p c k hl =>
      refine h.frame ho (fun _ _ hl => .inl hl) (fun _ => rfl) (fun _ hx => hx) ?_
      intro q d k' hi
      rcases List.mem_cons.mp hi with hi | hi
      · cases hi
        exact .inr hl
      · exact .inl hi
  | deliver p c n hl =>
      refine h.frame ho (fun _ _ hl => .inl hl) (fun _ => rfl)
        (alive_modify (f := fun x => { x with shared := true }) fun _ => rfl) ?_
      intro q d k' hi
      simp only [Continuation.onOk, State.answer, State.modifyContext, State.log, List.mem_cons,
        reduceCtorEq, false_or, Event.handedOut.injEq] at hi
      rcases hi with ⟨rfl, rfl, -⟩ | hi
      · exact .inr hl
      · exact .inl hi
  | close c =>
      exact h.frame ho (fun _ _ hl => .inl hl) (fun _ => rfl) (alive_modify fun _ => rfl)
        fun _ _ _ hi => .inl hi
  | enter kind =>
      exact h.frame ho (fun _ _ hl => .inl hl) (fun _ => rfl) (fun _ hx => hx)
        fun _ _ _ hi => .inl (by simpa [State.enter] using hi)
  | answer c a =>
      exact h.frame ho (fun _ _ hl => .inl hl) (fun _ => rfl) (fun _ hx => hx)
        fun _ _ _ hi => .inl (by simpa [State.answer] using hi)
  | user =>
      exact h.frame ho (fun _ _ hl => .inl hl) (fun _ => rfl) (fun _ hx => hx)
        fun _ _ _ hi => .inl hi
  | wait x =>
      exact h.frame ho (fun _ _ hl => .inl hl) (fun _ => rfl) (fun _ hx => hx)
        fun _ _ _ hi => .inl hi
  | read c => exact h.calm (s.readContext_calm c)
  | aside _ hc => exact h.calm hc.calm

theorem OneEach.moves (h : OneEach s) (hm : Moves noClosing s t) : OneEach t :=
  Moves.invariant (fun _ _ h ha => OneEach.act h ha) (fun _ _ h hc => OneEach.calm h hc) hm h

theorem OneEach.settle (h : OneEach s) (hs : Settles s t) : OneEach t := by
  have ho := h.toOwned.settle hs
  cases hs with
  | stay => exact h
  | erase id rest =>
      refine h.frame ho (fun id' r hl => .inl ?_) (fun _ => rfl) (fun _ hx => hx)
        fun _ _ _ hi => .inl hi
      have hl : AList.lookup id' (AList.erase id s.pending) = some r := hl
      rw [StdMap.lookup_erase_eq_ite] at hl
      split at hl
      · cases hl
      · exact hl
  | escape id rest =>
      exact h.frame ho (fun _ _ hl => .inl hl) (fun _ => rfl) (fun _ hx => hx)
        fun _ _ _ hi => .inl (by simpa using hi)

theorem OneEach.log (h : OneEach s) {e : Event} (he : ∀ p c k, e ≠ .handedOut p c k) :
    OneEach (s.log e) := by
  refine h.frame (h.toOwned.log e) (fun _ _ hl => .inl hl) (fun _ => rfl) (fun _ hx => hx) ?_
  exact fun p c k hi => .inl ((List.mem_cons.mp hi).resolve_left (he p c k).symm)

theorem OneEach.restack (h : OneEach s) (st : List Frame) : OneEach { s with stack := st } :=
  h.frame (h.toOwned.restack st) (fun _ _ hl => .inl hl) (fun _ => rfl) (fun _ hx => hx)
    fun _ _ _ hi => .inl hi

theorem OneEach.calling (h : OneEach s) (id : ℤ) (r : PendingRequest) (reply : Reply) :
    OneEach (s.calling id r reply) :=
  h.frame (h.toOwned.calling id r reply) (fun _ _ hl => .inl hl) (fun _ => rfl) (fun _ hx => hx)
    fun _ _ _ hi => .inl (by simpa [State.calling] using hi)

/-- The cache entry of a chain that ends when its platform is not cached. -/
theorem OneEach.cache (h : OneEach s) {id : ℤ} {p : Str} {c : ℕ} {k : Continuation}
    (hr : s.pending.lookup id = some (.addScript p c k)) (hp : s.contexts.lookup p = none) :
    OneEach (s.resetContext p c) := by
  have hreset : s.resetContext p c = { s with contexts := s.contexts.insert p c } := by
    unfold State.resetContext
    simp only [hp]
  have hl : ∀ q, (s.resetContext p c).contexts.lookup q =
      if q = p then some c else s.contexts.lookup q := fun q => resetContext_lookup s p q c
  have ho : Owned (s.resetContext p c) :=
    (h.toOwned.touch hr (.cache p c k .null s)).frame (fun _ _ _ _ hl => hl) (fun _ _ hl => hl)
      fun _ => rfl
  refine ⟨ho, ?_, ?_, ?_, ?_⟩
  · rw [hreset]
    exact h.noClose
  · rw [hreset]
    exact h.entry_alive
  · intro q d hq
    rw [hl] at hq
    rw [hreset]
    split at hq
    · cases hq
      exact h.entry_alive id p c k hr
    · exact h.cached_alive q d hq
  · intro q d k' hi
    rw [hl]
    have hq : s.contexts.lookup q = some d := h.handed q d k' (by rwa [hreset] at hi)
    split
    · subst q
      rw [hp] at hq
      cases hq
    · exact hq

/-- A context that is deleted with its failed chain is in nobody's hands. -/
theorem OneEach.reject (h : OneEach s) {id : ℤ} {p : Str} {c : ℕ} {k : Continuation}
    (hr : s.pending.lookup id = some (.addScript p c k)) (hp : s.contexts.lookup p ≠ some c)
    {l : List Event} (hes : ∀ p c k, .handedOut p c k ∉ l) :
    OneEach { (s.destroy c) with pending := s.pending.erase id, history := l ++ s.history } := by
  have hx : ∀ d, d ≠ c → s.Alive d → (s.destroy c).Alive d := by
    intro d hd hx
    simpa [State.Alive, State.destroy, State.modifyContext, List.getElem?_modify, Ne.symm hd] using hx
  have hold : ∀ id' r, AList.lookup id' (AList.erase id s.pending) = some r →
      id' ≠ id ∧ s.pending.lookup id' = some r := by
    intro id' r hl
    rw [StdMap.lookup_erase_eq_ite] at hl
    split at hl
    · cases hl
    · exact ⟨‹_›, hl⟩
  have hd : Owned (s.destroy c) := h.toOwned.modify c fun _ => rfl
  refine ⟨hd.frame (fun id' _ _ _ hl => (hold id' _ hl).2) (fun _ _ hl => hl) fun _ => rfl, ?_, ?_, ?_, ?_⟩
  · exact fun id' r hl => h.noClose id' r (hold id' r hl).2
  · intro id' q d k' hl
    obtain ⟨hne, hold⟩ := hold id' _ hl
    refine hx d ?_ (h.entry_alive id' q d k' hold)
    rintro rfl
    exact hne (h.unique id' id q p d k' k hold hr)
  · intro q d hl
    have hl : s.contexts.lookup q = some d := hl
    refine hx d ?_ (h.cached_alive q d hl)
    rintro rfl
    have hpq : p = q := Option.some.inj ((h.entry id p d k hr).symm.trans (h.cached q d hl))
    exact hp (hpq ▸ hl)
  · exact fun q d k' hi => h.handed q d k' (handedOut_of_append hes hi)

theorem OneEach.step {l : Label} (h : OneEach s) (hsh : Shape s.stack) (hl : l.tearsDown = false)
    (hC : ∀ msg ∈ s.incoming l, FillsOnce s msg) (ht : s.step l = some t) : OneEach t := by
  have hclose : l.isClose = false := by
    cases l <;> simp_all [Label.tearsDown, Label.isClose]
  rcases State.step_cases (ρ := noClosing) ht hsh (fun _ => trivial) (fun _ => trivial)
    (fun _ _ _ _ _ _ hcl => hcl.resolve_right (by simp [hclose])) (fun _ _ _ _ => trivial)
    (fun _ _ => trivial) (fun _ _ => trivial) with
    ⟨u, hu, hut⟩ | ⟨rfl, -, -⟩ | ⟨rfl, conn, msg, batch, hst, rfl⟩
  · exact (h.moves hu).settle hut
  · simp [Label.tearsDown] at hl
  · specialize hC msg (State.incoming_eq hst)
    have hs : OneEach { s with stack := [.draining batch] } := h.restack _
    rcases State.message_cases (ρ := noClosing) ⟨fun _ _ _ h => h, fun _ => trivial⟩
      { s with stack := [.draining batch] } msg (fun _ _ _ _ _ _ => trivial) (fun _ _ _ _ _ _ _ => trivial) with
      ⟨hm, -⟩ | ⟨id, r, reply, u, v, hid, hr, hreply, htouch, hv, hvt⟩
    · exact (hs.log (by simp)).moves hm.moves
    · have hr' : s.pending.lookup id = some r := hr
      have hC := fun x hx => hC id hid r hr' x hx reply hreply
      have hc := (hs.log (e := .handling msg) (by simp)).calling id r reply
      cases htouch with
      | plain => exact (hc.moves hv.moves).settle hvt
      | cache p c k result =>
          have hk := (hc.cache hr (hC (p, c) rfl)).log (e := .cached p c k) (by simp)
          exact (hk.moves hv.moves).settle hvt
      | reject p c k text =>
          rw [State.onWsMessage_reject hid hr hreply]
          exact hs.reject hr (hC (p, c) rfl) (l := [_, _, _]) (by simp)
      | remove c call result => simpa [PendingRequest.isClose] using h.noClose id _ hr'

/-- The contexts handed out for a platform are one and the same object, which stays alive and
in the cache, in every run without `close()` and `stop()` in which each chain finds its
platform free when it ends. -/
theorem one_context_per_platform {ls : List Label}
    (hr : Transition.run State.step init ls = some s) (hl : ∀ l ∈ ls, l.tearsDown = false)
    (hC : Transition.Along State.step
      (fun s l => ∀ msg ∈ s.incoming l, FillsOnce s msg) init ls) :
    (∀ p c c' k k', .handedOut p c k ∈ s.history → .handedOut p c' k' ∈ s.history → c = c') ∧
      ∀ p c k, .handedOut p c k ∈ s.history → s.contexts.lookup p = some c ∧ s.Alive c := by
  have h0 : OneEach init := by
    refine ⟨.init, ?_, ?_, ?_, ?_⟩ <;> simp [init]
  have h := Transition.run_invariant_along (I := fun s => OneEach s ∧ Shape s.stack)
    (C := fun s l => l.tearsDown = false ∧ ∀ msg ∈ s.incoming l, FillsOnce s msg)
    (fun s l t h hC ht => ⟨h.1.step h.2 hC.1 hC.2 ht, State.step_shape h.2 ht⟩)
    ⟨h0, trivial⟩ ((Transition.along_of_forall hl init).and hC) hr
  have hall : ∀ p c k, .handedOut p c k ∈ s.history → s.contexts.lookup p = some c ∧ s.Alive c :=
    fun p c k hi => ⟨h.1.handed p c k hi, h.1.cached_alive p c (h.1.handed p c k hi)⟩
  exact ⟨fun p c c' k k' hi hi' => Option.some.inj ((hall p c k hi).1.symm.trans (hall p c' k' hi').1),
    hall⟩

def targetResult (targetId : ValidStr) : Parsed := .object [(⟨str "targetId", rfl⟩, .text targetId)]

def sessionResult (sessionId : ValidStr) : Parsed := .object [(⟨str "sessionId", rfl⟩, .text sessionId)]

def Event.handedOut? : Event → Option (Str × ℕ)
  | .handedOut platform c _ => some (platform, c)
  | _ => none

/-- The responses to the three commands of the chain whose first id is `id`, if no other
command is issued meanwhile. -/
def answerChain (id : UInt64) : List Label :=
  arrive (okMessage id (targetResult ⟨str "T", rfl⟩)) ++ [.next] ++
    arrive (okMessage (id + 1) (sessionResult ⟨str "S", rfl⟩)) ++ [.next] ++
    arrive (okMessage (id + 2) .null) ++ [.ret, .next]

/-- The second call finds what the first one has put into the cache. -/
def oneAfterTheOther : List Label :=
  connect ++ [.getContext (str "xhs")] ++ answerChain 1 ++ [.getContext (str "xhs"), .ret]

theorem one_context_per_platform_sample : ∃ s,
    Transition.run State.step init oneAfterTheOther = some s ∧
    s.history.filterMap Event.handedOut? = [(str "xhs", 0), (str "xhs", 0)] ∧
    (∀ p c c' k k', .handedOut p c k ∈ s.history → .handedOut p c' k' ∈ s.history → c = c') ∧
      ∀ p c k, .handedOut p c k ∈ s.history → s.contexts.lookup p = some c ∧ s.Alive c := by
  have h : (Transition.run State.step init oneAfterTheOther).any (fun s =>
      s.history.filterMap Event.handedOut? = [(str "xhs", 0), (str "xhs", 0)]) = true := by
    decide +kernel
  obtain ⟨s, hs, h⟩ := Option.any_eq_true _ _ |>.mp h
  exact ⟨s, hs, by simpa using h, one_context_per_platform hs (by decide) (by decide +kernel)⟩

/-- Two calls before the first response: both chains end with a context of their own. -/
def overlapping : List Label :=
  connect ++ [.getContext (str "xhs"), .getContext (str "xhs")] ++
    arrive (okMessage 1 (targetResult ⟨str "T1", rfl⟩)) ++ [.next] ++
    arrive (okMessage 2 (targetResult ⟨str "T2", rfl⟩)) ++ [.next] ++
    arrive (okMessage 3 (sessionResult ⟨str "S1", rfl⟩)) ++ [.next] ++
    arrive (okMessage 4 (sessionResult ⟨str "S2", rfl⟩)) ++ [.next] ++
    arrive (okMessage 5 .null) ++ [.ret, .next] ++ arrive (okMessage 7 .null) ++ [.ret, .next]

theorem overlapping_chains_replace : ¬ ∀ (ls : List Label) (s : State),
    Transition.run State.step init ls = some s → (∀ l ∈ ls, l.tearsDown = false) →
    (∀ p c c' k k', .handedOut p c k ∈ s.history → .handedOut p c' k' ∈ s.history → c = c') ∧
      ∀ p c k, .handedOut p c k ∈ s.history → s.contexts.lookup p = some c ∧ s.Alive c := by
  have h : (Transition.run State.step init overlapping).any (fun s =>
      s.history.filterMap Event.handedOut? = [(str "xhs", 1), (str "xhs", 0)] ∧
        s.contexts.lookup (str "xhs") = some 1) = true := by
    decide +kernel
  obtain ⟨s, hs, h⟩ := Option.any_eq_true _ _ |>.mp h
  simp only [decide_eq_true_eq] at h
  intro hall
  have hmem : (str "xhs", 0) ∈ s.history.filterMap Event.handedOut? := by simp [h.1]
  obtain ⟨e, he, heq⟩ := List.mem_filterMap.mp hmem
  cases e <;> simp only [Event.handedOut?, reduceCtorEq, Option.some.injEq, Prod.mk.injEq] at heq
  obtain ⟨rfl, rfl⟩ := heq
  have := ((hall _ s hs (by decide)).2 _ _ _ he).1
  rw [h.2] at this
  cases this

end LynneSocial.Browser
