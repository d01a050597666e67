import LynneSocial.Browser.ContextCache

/-!
# Handlers

`close()`, `press_key()` and `wait_for_selector()` leave handlers behind that
captured the raw pointer of their context. Only `after()` has a guard. No handler
reads a destroyed context if a context is destroyed only when none of its
handlers is outstanding.
-/
namespace LynneSocial.Browser

/-- The context an entry will read when it is answered. -/
def PendingRequest.holds : PendingRequest → Option ℕ
  | closeTarget c _ | keyDown c _ _ => some c
  | _ => none

/-- The context that the callback of an entry deletes first. -/
def State.dropped (s : State) : PendingRequest → Reply → Option ℕ
  | .addScript platform _ _, .ok _ => s.contexts.lookup platform
  | .addScript _ c _, .error _ => some c
  | .closeTarget c _, .ok _ => s.contexts.lookup (s.platformOf c)
  | _, _ => none

/-- No handler of a context is outstanding, except the one behind the id. -/
def State.Unheld (s : State) (id : Option ℤ) (c : ℕ) : Prop :=
  (∀ e ∈ s.pending.entries, e.2.holds = some c → some e.1 = id) ∧
    ∀ x ∈ s.waiters, x.done = false → x.ctx ≠ c

/-- The entry whose callback an exception is about to leave. -/
def State.thrownAt (s : State) : Option ℤ :=
  match s.stack with
  | .user :: .eraseIt id :: _ => some id
  | _ => none

/-- A step that deletes a context finds none of its handlers outstanding, and no exception
leaves a handler behind whose context is gone. -/
structure State.DropsUnheld (s : State) (l : Label) : Prop where
  stop : l.isStop = true → s.started = true → ∀ e ∈ s.contexts.entries, s.Unheld none e.2
  throw : l.isThrow = true → ∀ id ∈ s.thrownAt, ∀ r ∈ s.pending.lookup id, ∀ c ∈ r.holds, s.Alive c
  message : ∀ msg ∈ s.incoming l, ∀ id ∈ msg.id?, ∀ r ∈ s.pending.lookup id, ∀ reply ∈ msg.reply,
    ∀ c ∈ s.dropped r reply, s.Unheld (some id) c

instance (s : State) (id : Option ℤ) (c : ℕ) : Decidable (s.Unheld id c) := by
  unfold State.Unheld
  infer_instance

instance (s : State) (c : ℕ) : Decidable (s.Alive c) := by
  unfold State.Alive
  infer_instance

instance (s : State) (l : Label) : Decidable (s.DropsUnheld l) :=
  decidable_of_iff
    ((l.isStop = true → s.started = true → ∀ e ∈ s.contexts.entries, s.Unheld none e.2) ∧
      (l.isThrow = true →
        ∀ id ∈ s.thrownAt, ∀ r ∈ s.pending.lookup id, ∀ c ∈ r.holds, s.Alive c) ∧
      ∀ msg ∈ s.incoming l, ∀ id ∈ msg.id?, ∀ r ∈ s.pending.lookup id, ∀ reply ∈ msg.reply,
        ∀ c ∈ s.dropped r reply, s.Unheld (some id) c)
    ⟨fun h => ⟨h.1, h.2.1, h.2.2⟩, fun h => ⟨h.stop, h.throw, h.message⟩⟩

variable {s t : State}

/-- Every context that an outstanding handler captured is alive, the handlers in `X` excepted,
and none was read after its destruction. -/
structure Guarded (X : ℤ → Prop) (s : State) : Prop where
  held : ∀ id r c, s.pending.lookup id = some r → r.holds = some c → s.Alive c ∨ X id
  watched : ∀ w x, s.Watching w x → s.Alive x.ctx
  clean : ∀ c, .dangling c ∉ s.history

variable {X Y : ℤ → Prop}

theorem Guarded.mono (h : Guarded X s)
    (hp : ∀ id r c, t.pending.lookup id = some r → r.holds = some c →
      s.pending.lookup id = some r ∨ t.Alive c)
    (ha : ∀ c, s.Alive c → t.Alive c) (hw : ∀ w x, t.Watching w x → s.Watching w x ∨ t.Alive x.ctx)
    (hh : ∀ c, .dangling c ∈ t.history → .dangling c ∈ s.history) : Guarded X t := by
  refine ⟨?_, ?_, fun c hc => h.clean c (hh c hc)⟩
  · intro id r c hl hc
    rcases hp id r c hl hc with hl | hx
    · exact (h.held id r c hl hc).imp_left (ha c)
    · exact .inl hx
  · intro w x hx
    exact (hw w x hx).elim (fun hx => ha _ (h.watched w x hx)) id

theorem Guarded.beside (h : Guarded X s) (hb : Beside s t) : Guarded X t := by
  have hheap : t.heap = s.heap := congrArg Core.heap hb.core
  have hpend : t.pending = s.pending := congrArg Core.pending hb.core
  refine h.mono (fun id r c hl _ => .inl (hpend ▸ hl))
    (fun c hc => by simpa [State.Alive, hheap] using hc) (fun w x hx => .inl (hb.watching w x hx)) ?_
  intro c hc
  obtain ⟨es, hes, hh⟩ := hb.note
  rw [hh, List.mem_append] at hc
  exact hc.resolve_left fun hc => hes _ hc

theorem usable_alive {c : ℕ} (h : s.usable c = true) : s.Alive c := by
  unfold State.usable at h
  split at h
  · rename_i x hx
    simp only [Bool.and_eq_true, Bool.not_eq_true'] at h
    simp [State.Alive, hx, h.2]
  · cases h

/-- Reading a context that is alive does nothing. -/
theorem readContext_alive {c : ℕ} (h : s.Alive c) : s.readContext c = s := by
  obtain ⟨x, hx, hd⟩ := Option.map_eq_some_iff.mp h
  unfold State.readContext
  simp [hx, hd]

def readsAlive : Rules where
  read heap c := heap[c]?.map CdpBrowserContext.destroyed = some false

theorem Guarded.issue (h : Guarded X s) {r : PendingRequest} (hr : ∀ c, r.holds = some c → s.Alive c) :
    Guarded X (s.issue r) := by
  refine h.mono (fun id r' c hl hc => ?_) (fun _ hx => hx) (fun _ _ hx => .inl hx) ?_
  · rw [issue_lookup] at hl
    split at hl
    · cases hl
      exact .inr (hr c hc)
    · exact .inl hl
  · intro c hc
    simpa [State.issue] using hc

theorem Guarded.send (h : Guarded X s) (method : Str) (params : Json) {r : PendingRequest}
    (sessionId : Str) (hr : ∀ c, r.holds = some c → s.Alive c) :
    Guarded X (s.sendCommand method params r sessionId).1 := by
  have hi := h.issue hr
  unfold State.sendCommand
  dsimp only
  split
  · split
    · exact hi.mono (fun _ _ _ hl _ => .inl hl) (fun _ hx => hx) (fun _ _ hx => .inl hx) fun _ hc => hc
    · exact hi
  · exact hi.mono (fun _ _ _ hl _ => .inl hl) (fun _ hx => hx) (fun _ _ hx => .inl hx) fun _ hc => hc

theorem Guarded.act (h : Guarded X s) (ha : Act readsAlive s t) : Guarded X t := by
  cases ha with
  | send method params r sessionId hr =>
      refine h.send method params sessionId fun c hc => ?_
      cases r <;> simp only [PendingRequest.holds, reduceCtorEq, Option.some.injEq] at hc <;>
        exact hc ▸ usable_alive hr
  | create platform targetId sid k method params sessionId =>
      have hu : Guarded X { s with heap := s.heap ++ [{ platform, targetId, sessionId := sid }] } := by
        refine h.mono (fun _ _ _ hl _ => .inl hl) ?_ (fun _ _ hx => .inl hx) fun _ hc => hc
        intro c hc
        obtain ⟨x, hx, hd⟩ := Option.map_eq_some_iff.mp hc
        have hlt := (List.getElem?_eq_some_iff.mp hx).1
        simp [State.Alive, List.getElem?_append_left hlt, hx, hd]
      exact hu.send method params sessionId (by simp [PendingRequest.holds])
  | deliver platform c n =>
      refine h.mono (fun _ _ _ hl _ => .inl hl)
        (alive_modify (f := fun x => { x with shared := true }) fun _ => rfl)
        (fun _ _ hx => .inl hx) fun c hc => ?_
      simpa [Continuation.onOk, State.answer, State.modifyContext, State.log] using hc
  | close c =>
      exact h.mono (fun _ _ _ hl _ => .inl hl) (alive_modify fun _ => rfl) (fun _ _ hx => .inl hx)
        fun _ hc => hc
  | read c hc =>
      rw [readContext_alive hc]
      exact h
  | wait x hu =>
      refine h.mono (fun _ _ _ hl _ => .inl hl) (fun _ hx => hx) ?_ fun _ hc => hc
      rintro w y ⟨hy, hd⟩
      have hy : (s.waiters ++ [x])[w]? = some y := hy
      rw [List.getElem?_append] at hy
      split at hy
      · exact .inl ⟨hy, hd⟩
      · rw [List.getElem?_singleton] at hy
        split at hy
        · cases hy
          exact .inr (usable_alive hu)
        · cases hy
  | enter kind =>
      exact h.mono (fun _ _ _ hl _ => .inl hl) (fun _ hx => hx) (fun _ _ hx => .inl hx)
        fun c hc => by simpa [State.enter] using hc
  | answer call a =>
      exact h.mono (fun _ _ _ hl _ => .inl hl) (fun _ hx => hx) (fun _ _ hx => .inl hx)
        fun c hc => by simpa [State.answer] using hc
  | handOut platform c k =>
      exact h.mono (fun _ _ _ hl _ => .inl hl) (fun _ hx => hx) (fun _ _ hx => .inl hx)
        fun c hc => by simpa [State.log] using hc
  | user =>
      exact h.mono (fun _ _ _ hl _ => .inl hl) (fun _ hx => hx) (fun _ _ hx => .inl hx) fun _ hc => hc
  | aside _ hb => exact h.beside hb.toBeside

theorem Guarded.parts (h : Guarded X s) (hp : Parts readsAlive s t) : Guarded X t :=
  Parts.invariant (fun _ _ h ha => Guarded.act h ha) (fun _ _ h hb => Guarded.beside h hb) hp h

/-- A context that no handler outside of `Y` captured is deleted. -/
theorem Guarded.destroy (h : Guarded X s) {c : ℕ}
    (hheld : ∀ id r, s.pending.lookup id = some r → r.holds = some c → Y id)
    (hwatch : ∀ w x, s.Watching w x → x.ctx ≠ c) (hX : ∀ id, X id → Y id) :
    Guarded Y (s.destroy c) := by
  have ha : ∀ d, d ≠ c → s.Alive d → (s.destroy c).Alive d := by
    intro d hd hx
    simpa [State.Alive, State.destroy, State.modifyContext, List.getElem?_modify, Ne.symm hd] using hx
  refine ⟨fun id r d hl hd => ?_, fun w x hx => ha _ (hwatch w x hx) (h.watched w x hx), h.clean⟩
  by_cases hdc : d = c
  · subst d
    exact .inr (hheld id r hl hd)
  · exact (h.held id r d hl hd).imp (ha d hdc) (hX id)

theorem State.Unheld.entry {c : ℕ} {i : Option ℤ} (h : s.Unheld i c) {id : ℤ} {r : PendingRequest}
    (hl : s.pending.lookup id = some r) (hr : r.holds = some c) : some id = i :=
  h.1 ⟨id, r⟩ ((StdMap.mem_entries_iff _ _ _).mpr hl) hr

theorem State.Unheld.watcher {c : ℕ} {i : Option ℤ} (h : s.Unheld i c) {w : ℕ} {x : Waiter}
    (hx : s.Watching w x) : x.ctx ≠ c :=
  h.2 x (List.mem_of_getElem? hx.1) hx.2

theorem Guarded.congr (h : Guarded X s) (hp : t.pending = s.pending) (hx : t.heap = s.heap)
    (hw : t.waiters = s.waiters) (hh : ∀ c, .dangling c ∈ t.history → .dangling c ∈ s.history) :
    Guarded X t :=
  h.mono (fun _ _ _ hl _ => .inl (hp ▸ hl)) (fun c hc => by simpa [State.Alive, hx] using hc)
    (fun w x hx => .inl (by simpa [State.Watching, hw] using hx)) hh

/-- Handlers of a context are among those in `Y`. -/
def State.HeldBy (s : State) (Y : ℤ → Prop) (c : ℕ) : Prop :=
  (∀ id r, s.pending.lookup id = some r → r.holds = some c → Y id) ∧ ∀ w x, s.Watching w x → x.ctx ≠ c

theorem State.Unheld.heldBy {c : ℕ} {i : Option ℤ} (h : s.Unheld i c) : s.HeldBy (fun id => some id = i) c :=
  ⟨fun _ _ hl hr => h.entry hl hr, fun _ _ hx => h.watcher hx⟩

theorem Guarded.resetContext (h : Guarded X s) {p : Str} {c : ℕ}
    (hold : ∀ old, s.contexts.lookup p = some old → s.HeldBy Y old) (hX : ∀ id, X id → Y id) :
    Guarded Y (s.resetContext p c) := by
  have hu : Guarded X { s with contexts := s.contexts.insert p c } :=
    h.congr rfl rfl rfl fun _ hc => hc
  unfold State.resetContext
  split
  · rename_i old hl
    exact hu.destroy (hold old hl).1 (hold old hl).2 hX
  · exact ⟨fun id r d hl hd => (hu.held id r d hl hd).imp_right (hX id), hu.watched, hu.clean⟩

theorem Guarded.removeContext (h : Guarded X s) {p : Str}
    (hold : ∀ old, s.contexts.lookup p = some old → s.HeldBy Y old) (hX : ∀ id, X id → Y id) :
    Guarded Y (s.removeContext p) := by
  have hu : Guarded X { s with contexts := s.contexts.erase p } :=
    h.congr rfl rfl rfl fun _ hc => hc
  unfold State.removeContext
  split
  · rename_i old hl
    exact hu.destroy (hold old hl).1 (hold old hl).2 hX
  · exact ⟨fun id r d hl hd => (h.held id r d hl hd).imp_right (hX id), h.watched, h.clean⟩

/-- The callback in progress is left, by a return or by an exception. -/
theorem Guarded.settle (h : Guarded (fun _ => False) s) (hs : Settles s t) : Guarded Y t := by
  cases hs with
  | stay => exact ⟨fun id r c hl hc => (h.held id r c hl hc).imp_right False.elim, h.watched, h.clean⟩
  | erase id rest =>
      refine ⟨fun j r c hl hc => .inl ?_, h.watched, h.clean⟩
      have hl : AList.lookup j (AList.erase id s.pending) = some r := hl
      rw [StdMap.lookup_erase_eq_ite] at hl
      split at hl
      · cases hl
      · exact (h.held j r c hl hc).resolve_right not_false
  | escape id rest =>
      refine ⟨fun j r c hl hc => .inl ?_, h.watched, fun c hc => h.clean c (by simpa using hc)⟩
      exact (h.held j r c hl hc).resolve_right not_false

/-- The handlers whose response is being handled excepted. -/
def Safe (s : State) : Prop := Guarded (fun id => .eraseIt id ∈ s.stack) s

theorem Safe.resume {rest : List Frame} (h : Safe s) (hst : s.stack = .user :: rest) :
    Safe ({ s with stack := rest } : State).resume := by
  unfold State.resume
  split
  · rename_i id rest' hr
    have hr : rest = .eraseIt id :: rest' := hr
    refine ⟨fun j r c hl hc => ?_, h.watched, h.clean⟩
    have hl : AList.lookup j (AList.erase id s.pending) = some r := hl
    rw [StdMap.lookup_erase_eq_ite] at hl
    split at hl
    · cases hl
    · refine (h.held j r c hl hc).imp_right fun hx => ?_
      simpa [hst, hr, ‹j ≠ id›] using hx
  · exact ⟨fun j r c hl hc => (h.held j r c hl hc).imp_right (by simp [hst]), h.watched, h.clean⟩

theorem Safe.unwind {rest : List Frame} (h : Safe s) (hst : s.stack = .user :: rest)
    (hlive : ∀ id ∈ s.thrownAt, ∀ r ∈ s.pending.lookup id, ∀ c ∈ r.holds, s.Alive c) :
    Safe ({ s with stack := rest } : State).unwind := by
  unfold State.unwind
  split
  · rename_i id rest' hr
    have hr : rest = .eraseIt id :: rest' := hr
    refine ⟨fun j r c hl hc => ?_, h.watched, fun c hc => h.clean c (by simpa using hc)⟩
    by_cases hj : j = id
    · subst j
      exact .inl (hlive id (by simp [State.thrownAt, hst, hr]) r hl c hc)
    · refine (h.held j r c hl hc).imp_right fun hx => ?_
      simpa [hst, hr, hj] using hx
  · exact ⟨fun j r c hl hc => (h.held j r c hl hc).imp_right (by simp [hst]), h.watched, h.clean⟩

theorem clearContexts_alive {c : ℕ} (h : s.Alive c) (hc : ∀ e ∈ s.contexts.entries, e.2 ≠ c) :
    s.clearContexts.Alive c := by
  have hx : ∀ (es : List (Sigma fun _ : Str => ℕ)) (u : State), (∀ e ∈ es, e.2 ≠ c) → u.Alive c →
      (es.foldl (fun u e => u.destroy e.2) u).Alive c := by
    intro es
    induction es with
    | nil => exact fun _ _ hu => hu
    | cons e es ih =>
        intro u hne hu
        rw [List.forall_mem_cons] at hne
        refine ih _ hne.2 ?_
        simpa [State.Alive, State.destroy, State.modifyContext, List.getElem?_modify, hne.1] using hu
  exact hx _ s hc h

theorem Safe.session {l : Label} (h : Safe s) (hC : s.DropsUnheld l) (ht : s.Turns l t) : Safe t := by
  cases ht with
  | startAgain => exact h
  | stop hst =>
      have hkeep : ∀ c, s.Alive c → (∀ e ∈ s.contexts.entries, e.2 ≠ c) → s.clearContexts.Alive c :=
        fun c => clearContexts_alive
      refine ⟨fun id r c hl hc => ?_, fun w x hx => ?_, h.clean⟩
      · refine (h.held id r c hl hc).imp (fun ha => hkeep c ha fun e he heq => ?_) (by simp)
        cases (hC.stop rfl hst e he).entry hl (heq ▸ hc)
      · refine hkeep _ (h.watched w x hx) fun e he heq => ?_
        exact (hC.stop rfl hst e he).watcher hx heq.symm
  | stopReturn rest hst =>
      refine ⟨fun id r c hl hc => ?_, h.watched, fun c hc => h.clean c (by simpa using hc)⟩
      exact (h.held id r c hl hc).imp_right (by simp [hst])
  | openTask conn batch hst =>
      have ho : Guarded (fun id => .eraseIt id ∈ s.stack)
          (({ s with stack := [.draining batch] } : State).opening conn) :=
        h.congr rfl rfl rfl fun c hc => by simpa [State.opening, State.flushed, State.log] using hc
      have he : Guarded (fun id => .eraseIt id ∈ s.stack)
          (({ s with stack := [.draining batch] } : State).opening conn).emptied :=
        ho.congr rfl rfl rfl fun _ => id
      have hg : ∀ u, Guarded (fun id => .eraseIt id ∈ s.stack) u → Safe u := by
        intro u hu
        refine ⟨fun id r c hl hc => (hu.held id r c hl hc).imp_right ?_, hu.watched, hu.clean⟩
        simp [hst]
      rw [State.onOpen_eq]
      split
      · exact hg _ (he.send _ _ _ (by simp [PendingRequest.holds]))
      · exact hg _ ho
  | connect => exact h.congr rfl rfl rfl fun c hc => by simpa using hc
  | start => exact h.congr rfl rfl rfl fun c hc => by simpa using hc
  | stopIdle => exact h.congr rfl rfl rfl fun c hc => by simpa [State.log] using hc
  | _ => exact h.congr rfl rfl rfl fun _ => id

theorem Safe.message {msg : Parsed} {batch : List Task} (h : Safe s)
    (hst : s.stack = [.draining batch])
    (hC : ∀ id ∈ msg.id?, ∀ r ∈ s.pending.lookup id, ∀ reply ∈ msg.reply,
      ∀ c ∈ s.dropped r reply, s.Unheld (some id) c) : Safe (s.onWsMessage (some msg)) := by
  have h0 : Guarded (fun _ => False) (s.log (.handling msg)) := by
    refine ⟨fun id r c hl hc => (h.held id r c hl hc).imp_right (by simp [hst]), h.watched, ?_⟩
    exact fun c hc => h.clean c (by simpa [State.log] using hc)
  have hcall : ∀ id r reply, Guarded (fun _ => False) ((s.log (.handling msg)).calling id r reply) :=
    fun id r reply => h0.congr rfl rfl rfl fun c hc => by simpa [State.calling] using hc
  have hread : ∀ id r c, msg.id? = some id → s.pending.lookup id = some r → s.Reads r c →
      readsAlive.read s.heap c := by
    intro id r c _ hr hc
    have hheld : r.holds = some c → s.Alive c := fun hh =>
      (h.held id r c hr hh).resolve_right (by simp [hst])
    cases r with
    | closeTarget d call => exact hheld (congrArg some hc)
    | keyDown d key call => exact hheld (congrArg some hc)
    | poll w =>
        obtain ⟨x, hx, rfl⟩ := hc
        exact h.watched w x hx
    | _ => exact hc.elim
  rcases State.message_cases (ρ := readsAlive) ⟨fun _ _ _ _ => trivial, fun _ => trivial⟩ s msg hread
    (fun _ _ _ _ _ _ _ => trivial) with ⟨hm, -⟩ | ⟨id, r, reply, u, v, hid, hr, hreply, hu, hv, hvt⟩
  · exact (h0.parts hm).settle (.stay _)
  · have hdrop := fun c hc => hC id hid r hr reply hreply c hc
    cases hu with
    | plain => exact ((hcall id r reply).parts hv.parts).settle hvt
    | cache p c k result =>
        refine Guarded.settle (Guarded.parts ?_ hv.parts) hvt
        have hreset := (hcall id (.addScript p c k) (.ok result)).resetContext (Y := fun _ => False)
          (p := p) (c := c) (fun old hold => ⟨fun j r' hl hc => ?_, (hdrop old hold).heldBy.2⟩)
          fun _ hx => hx
        · exact hreset.congr rfl rfl rfl fun d hd => by simpa [State.log] using hd
        · obtain rfl := Option.some.inj ((hdrop old hold).entry hl hc)
          rw [show s.pending.lookup j = some r' from hl] at hr
          cases hr
          cases hc
    | reject p c k text =>
        rw [State.onWsMessage_reject hid hr hreply]
        have hs : Guarded (fun _ => False) s :=
          h0.congr rfl rfl rfl fun d hd => by simpa [State.log] using hd
        have hd := hs.destroy (hdrop c rfl).heldBy.1 (hdrop c rfl).heldBy.2 fun _ hx => hx.elim
        refine ⟨fun j r' d hl hc => ?_, hd.watched, fun d hx => hs.clean d (by simpa using hx)⟩
        have hl : AList.lookup j (AList.erase id s.pending) = some r' := hl
        rw [StdMap.lookup_erase_eq_ite] at hl
        split at hl
        · cases hl
        · refine .inl ((hd.held j r' d hl hc).resolve_right fun hj => ?_)
          exact ‹j ≠ id› (Option.some.inj hj)
    | remove c call result =>
        rw [State.onWsMessage_close hid hr hreply]
        have hlive : s.Alive c := (h.held id _ c hr rfl).resolve_right (by simp [hst])
        rw [readContext_alive (s := (s.log (.handling msg)).calling id _ _) hlive]
        have hrem := (hcall id (.closeTarget c call) (.ok result)).removeContext
          (Y := fun j => some j = some id) (p := s.platformOf c)
          (fun old hold => (hdrop old hold).heldBy) fun _ hx => hx.elim
        refine ⟨fun j r' d hl hc => (hrem.held j r' d hl hc).imp_right fun hj => ?_, hrem.watched,
          fun d hd => hrem.clean d (by simpa [State.answer] using hd)⟩
        obtain rfl := Option.some.inj hj
        have hstack := (removeContext_keeps ((s.log (.handling msg)).calling j (.closeTarget c call)
          (.ok result)) (s.platformOf c)).stack
        change Frame.eraseIt j ∈ Frame.user :: State.stack _
        rw [hstack]
        simp [State.calling]

theorem Safe.step {l : Label} (h : Safe s) (hsh : Shape s.stack) (hC : s.DropsUnheld l)
    (ht : s.step l = some t) : Safe t := by
  cases hl : s.ofSession l with
  | true => exact h.session hC (State.step_session ht hsh hl)
  | false =>
      rcases State.step_parts (ρ := readsAlive) ht hsh hl (fun _ => trivial) (fun _ => trivial)
        (fun _ _ _ _ _ _ _ _ => trivial) (fun _ _ _ _ => trivial)
        (fun w batch _ hst => ⟨fun x hx => h.watched w x hx, fun _ _ _ _ _ _ _ _ => trivial⟩)
        (fun _ _ => trivial) with
        hp | ⟨rfl, rest, hst, rfl⟩ | ⟨rfl, rest, hst, rfl⟩ | ⟨rfl, conn, msg, batch, hst, rfl⟩
      · have hg := Guarded.parts h hp
        exact ⟨fun id r c hl hc => (hg.held id r c hl hc).imp_right (hp.erasing id).mpr, hg.watched,
          hg.clean⟩
      · exact h.resume hst
      · exact h.unwind hst (hC.throw rfl)
      · refine Safe.message (s := { s with stack := [.draining batch] }) ?_ rfl
          (hC.message msg (State.incoming_eq hst))
        exact ⟨fun id r c hl hc => (h.held id r c hl hc).imp_right (by simp [hst]), h.watched, h.clean⟩

/-- No handler reads a destroyed context in any run in which a context is destroyed only when
none of its handlers is outstanding. -/
theorem handlers_read_live {ls : List Label} (hr : Transition.run State.step init ls = some s)
    (hC : Transition.Along State.step State.DropsUnheld init ls) (c : ℕ) :
    .dangling c ∉ s.history := by
  have h0 : Safe init ∧ Shape init.stack := by
    refine ⟨⟨?_, ?_, ?_⟩, trivial⟩ <;> simp [init, State.Watching]
  have h := Transition.run_invariant_along (I := fun s => Safe s ∧ Shape s.stack)
    (fun s l t h hC ht => ⟨h.1.step h.2 hC ht, State.step_shape h.2 ht⟩) h0 hC hr
  exact h.1.clean c

/-- The key is released before the context is closed. -/
def keyThenClose : List Label :=
  connect ++ [.getContext (str "xhs")] ++ answerChain 1 ++ [.pressKey 0 (str "Enter")] ++
    arrive (okMessage 5 .null) ++ [.next] ++ arrive (okMessage 6 .null) ++ [.ret, .next, .close 0] ++
    arrive (okMessage 7 .null) ++ [.ret, .next]

theorem handlers_read_live_sample : ∃ s, Transition.run State.step init keyThenClose = some s ∧
    s.contexts.lookup (str "xhs") = none ∧ .dangling 0 ∉ s.history := by
  have h : (Transition.run State.step init keyThenClose).any (fun s =>
      s.contexts.lookup (str "xhs") = none) = true := by decide +kernel
  obtain ⟨s, hs, h⟩ := Option.any_eq_true _ _ |>.mp h
  exact ⟨s, hs, by simpa using h, handlers_read_live hs (by decide +kernel) 0⟩

def Event.isDangling : Event → Bool
  | .dangling _ => true
  | _ => false

/-- The context is closed while the key is down, and the response of the key comes last. -/
def closeThenKey : List Label :=
  connect ++ [.getContext (str "xhs")] ++ answerChain 1 ++ [.pressKey 0 (str "Enter"), .close 0] ++
    arrive (okMessage 6 .null) ++ [.ret, .next] ++ arrive (okMessage 5 .null)

theorem key_release_dangles : ¬ ∀ (ls : List Label) (s : State),
    Transition.run State.step init ls = some s → ∀ c, .dangling c ∉ s.history := by
  have h : (Transition.run State.step init closeThenKey).any (fun s =>
      s.history.any Event.isDangling) = true := by decide +kernel
  obtain ⟨s, hs, h⟩ := Option.any_eq_true _ _ |>.mp h
  obtain ⟨e, he, hd⟩ := List.any_eq_true.mp h
  intro hall
  cases e <;> simp only [Event.isDangling, Bool.false_eq_true] at hd
  exact hall _ s hs _ he

end LynneSocial.Browser
