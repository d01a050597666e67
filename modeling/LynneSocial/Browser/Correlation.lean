import LynneSocial.Browser.Steps
import LynneSocial.Lib.History

/-!
# Commands and responses

Which message calls back which command. The id of a response is read with
`get<int>()`, which narrows; a message that carries another id can therefore
reach an entry. Along runs where that does not happen a callback is called once,
by the first message with the id of its command.
-/
namespace LynneSocial.Browser

/-- The id of a message, if it is a JSON integer. -/
def Parsed.rawId? (msg : Parsed) : Option ℤ :=
  match msg.json.find? (str "id") with
  | some (.int n) => some n
  | _ => none

def Event.issuedId? : Event → Option ℤ
  | .issued id _ => some id
  | _ => none

def Event.escapedId? : Event → Option ℤ
  | .escaped id => some id
  | _ => none

/-- The number of commands issued so far. -/
def issuedCount (h : List Event) : ℕ := (h.filterMap Event.issuedId?).length

/-- Each id is given to one command. A callback is called by a message that was handled
right before, carries the id of the command and selects the function and its argument;
the command was issued before, no message with its id was handled in between, and no
function of its entry was called before. -/
def Correlates : Event → List Event → Prop
  | .issued id _, past => id ∉ past.filterMap Event.issuedId?
  | .invoked id r reply, past =>
    ∃ msg earlier, past = .handling msg :: earlier ∧ msg.rawId? = some id ∧ msg.reply = some reply ∧
      (∃ since before, earlier = since ++ .issued id r :: before ∧
        ∀ m, .handling m ∈ since → m.rawId? ≠ some id) ∧
      ∀ r' reply', .invoked id r' reply' ∉ earlier
  | _, _ => True

/-- The message is meant for the entry it reaches, and no exception has left the callback of
that entry before. -/
def OwnResponse (s : State) (msg : Parsed) : Prop :=
  ∀ id ∈ msg.id?, (s.pending.lookup id).isSome →
    msg.rawId? = some id ∧ id ∉ s.history.filterMap Event.escapedId?

/-- The `error` member of a message for a pending command is an object with a text. -/
def WellFormedError (s : State) (msg : Parsed) : Prop :=
  ∀ id ∈ msg.id?, (s.pending.lookup id).isSome → msg.reply.isSome

instance (s : State) (msg : Parsed) : Decidable (OwnResponse s msg) := by
  unfold OwnResponse
  infer_instance

instance (s : State) (msg : Parsed) : Decidable (WellFormedError s msg) := by
  unfold WellFormedError
  infer_instance

/-- Events that are neither commands nor messages nor callbacks. -/
def Event.untimed : Event → Prop
  | .issued _ _ | .handling _ | .invoked _ _ _ => False
  | _ => True

theorem Event.silent.untimed {e : Event} (h : e.silent) : e.untimed := by
  cases e <;> simp_all [Event.silent, Event.untimed]

theorem issuedIds_append {es h : List Event} (hes : ∀ e ∈ es, Event.untimed e) :
    (es ++ h).filterMap Event.issuedId? = h.filterMap Event.issuedId? := by
  have h : es.filterMap Event.issuedId? = [] := by
    apply List.filterMap_eq_nil_iff.mpr
    intro e he
    have := hes e he
    cases e <;> simp_all [Event.untimed, Event.issuedId?]
  rw [List.filterMap_append, h, List.nil_append]

/-- An action issues one command, or says nothing about commands, messages and callbacks. -/
theorem Act.issues {ρ : Rules} {s t : State} (ha : Act ρ s t) :
    (∃ (u : State) (r : PendingRequest), u.cmdId = s.cmdId ∧ u.pending = s.pending ∧
      u.stack = s.stack ∧ u.history = s.history ∧ Calm (u.issue r) t) ∨
    (t.cmdId = s.cmdId ∧ t.pending = s.pending ∧
      ∃ es, (∀ e ∈ es, Event.untimed e) ∧ t.history = es ++ s.history) := by
  have hquiet : Calm s t → t.cmdId = s.cmdId ∧ t.pending = s.pending ∧
      ∃ es, (∀ e ∈ es, Event.untimed e) ∧ t.history = es ++ s.history := by
    intro h
    obtain ⟨es, hes, hh⟩ := h.history
    exact ⟨h.cmdId, h.pending, es, fun e he => (hes e he).untimed, hh⟩
  cases ha with
  | send method params r sessionId => exact .inl ⟨s, r, rfl, rfl, rfl, rfl, State.sendCommand_calm _ _ _ _ _⟩
  | create platform targetId sid k method params sessionId =>
      refine .inl ⟨{ s with heap := s.heap ++ [{ platform, targetId, sessionId := sid }] },
        .addScript platform s.heap.length k, rfl, rfl, rfl, rfl, ?_⟩
      exact State.sendCommand_calm _ _ _ _ _
  | enter kind => exact .inr ⟨rfl, rfl, [_], by simp [Event.untimed], rfl⟩
  | answer c a => exact .inr ⟨rfl, rfl, [_], by simp [Event.untimed], rfl⟩
  | handOut => exact .inr ⟨rfl, rfl, [_], by simp [Event.untimed], rfl⟩
  | deliver platform c n =>
      exact .inr ⟨rfl, rfl, [.answered (.request n) (.context c), .handedOut platform c (.getContext n)],
        by simp [Event.untimed], rfl⟩
  | close => exact .inr ⟨rfl, rfl, [], by simp, rfl⟩
  | user => exact .inr ⟨rfl, rfl, [], by simp, rfl⟩
  | wait => exact .inr ⟨rfl, rfl, [], by simp, rfl⟩
  | read c => exact .inr (hquiet (s.readContext_calm c))
  | aside _ h => exact .inr (hquiet h.calm)

/-- The counter is the number of commands issued, and every id is below it. -/
structure Counted (s : State) : Prop where
  cmdId_eq : s.cmdId = issuedCount s.history
  issued_lt : ∀ id ∈ s.history.filterMap Event.issuedId?, 0 ≤ id ∧ id < s.cmdId
  pending_lt : ∀ id r, s.pending.lookup id = some r → 0 ≤ id ∧ id < s.cmdId
  ordered : (s.history.filterMap Event.issuedId?).Pairwise (· > ·)

theorem Counted.grow {s t : State} (h : Counted s) (hc : t.cmdId = s.cmdId)
    (hp : ∀ id r, t.pending.lookup id = some r → s.pending.lookup id = some r)
    (hh : t.history.filterMap Event.issuedId? = s.history.filterMap Event.issuedId?) : Counted t := by
  refine ⟨?_, ?_, fun id r hl => ?_, hh ▸ h.ordered⟩
  · rw [hc, h.cmdId_eq, issuedCount, issuedCount, hh]
  · rw [hh, hc]
    exact h.issued_lt
  · rw [hc]
    exact h.pending_lt id r (hp id r hl)

theorem nextId_of_lt {n : ℕ} (h : n + 1 < 2 ^ 31) : State.nextId n = (n + 1 : ℕ) := by
  unfold State.nextId
  rw [if_neg (by omega)]
  omega

theorem issuedCount_issue (s : State) (r : PendingRequest) :
    issuedCount (s.issue r).history = issuedCount s.history + 1 := by
  simp [issuedCount, State.issue, Event.issuedId?]

theorem Counted.cmdId_issue {s : State} (h : Counted s) (r : PendingRequest)
    (hn : issuedCount (s.issue r).history < 2 ^ 31) : (s.issue r).cmdId = s.cmdId + 1 := by
  rw [issuedCount_issue] at hn
  show State.nextId s.cmdId = _
  rw [h.cmdId_eq, nextId_of_lt hn]
  omega

theorem Counted.issue {s : State} (h : Counted s) (r : PendingRequest)
    (hn : issuedCount (s.issue r).history < 2 ^ 31) : Counted (s.issue r) := by
  have hnext := h.cmdId_issue r hn
  have heq := h.cmdId_eq
  refine ⟨?_, ?_, ?_, List.pairwise_cons.mpr ⟨fun id hid => (h.issued_lt id hid).2, h.ordered⟩⟩
  · rw [hnext, issuedCount_issue, heq]
    omega
  · rw [hnext]
    intro id hid
    have hid : id ∈ s.cmdId :: s.history.filterMap Event.issuedId? := hid
    rcases List.mem_cons.mp hid with rfl | hid
    · omega
    · have := h.issued_lt id hid
      omega
  · rw [hnext]
    intro id r' hl
    have hl : AList.lookup id (AList.insert s.cmdId r s.pending) = some r' := hl
    rw [StdMap.lookup_insert_eq_ite] at hl
    split at hl
    · omega
    · have := h.pending_lt id r' hl
      omega

/-- The ids are counted, as long as `cmd_id_` has not wrapped. -/
def Counts (s : State) : Prop := issuedCount s.history < 2 ^ 31 → Counted s

theorem Counts.grow {s t : State} (h : Counts s) (hc : t.cmdId = s.cmdId)
    (hp : ∀ id r, t.pending.lookup id = some r → s.pending.lookup id = some r)
    (hh : t.history.filterMap Event.issuedId? = s.history.filterMap Event.issuedId?) : Counts t :=
  fun hn => (h (by rwa [issuedCount, hh] at hn)).grow hc hp hh

theorem Counts.issue {s : State} (h : Counts s) (r : PendingRequest) : Counts (s.issue r) := by
  intro hn
  refine (h ?_).issue r hn
  rw [issuedCount_issue] at hn
  omega

theorem Event.ofCache.untimed {e : Event} (h : e.ofCache) : e.untimed := by
  cases e <;> simp_all [Event.ofCache, Event.untimed]

/-- What is a matter of the counter, `pending_` and the ids issued, and stays when one is issued. -/
structure OfIds (P : State → Prop) : Prop where
  same : ∀ {s t : State}, P s → t.cmdId = s.cmdId → t.pending = s.pending →
    t.history.filterMap Event.issuedId? = s.history.filterMap Event.issuedId? → P t
  issue : ∀ {s : State}, P s → ∀ r, P (s.issue r)

namespace OfIds

variable {P : State → Prop} {s t : State}

theorem calm (hP : OfIds P) (h : P s) (hc : Calm s t) : P t := by
  obtain ⟨es, hes, hh⟩ := hc.history
  refine hP.same h hc.cmdId hc.pending ?_
  rw [hh, issuedIds_append fun e he => (hes e he).untimed]

theorem act {ρ : Rules} (hP : OfIds P) (h : P s) (ha : Act ρ s t) : P t := by
  rcases ha.issues with ⟨u, r, hc, hp, -, hh, hcalm⟩ | ⟨hc, hp, es, hes, hh⟩
  · have hu : P u := hP.same h hc hp (by rw [hh])
    exact hP.calm (hP.issue hu r) hcalm
  · exact hP.same h hc hp (by rw [hh, issuedIds_append hes])

theorem moves {ρ : Rules} (hP : OfIds P) (h : P s) (hm : Moves ρ s t) : P t :=
  Moves.invariant (fun _ _ h ha => hP.act h ha) (fun _ _ h hc => hP.calm h hc) hm h

theorem keeps (hP : OfIds P) (h : P s) (hk : Keeps s t) : P t := by
  obtain ⟨es, hes, hh⟩ := hk.history
  refine hP.same h hk.cmdId hk.pending ?_
  rw [hh, issuedIds_append fun e he => (hes e he).untimed]

/-- The same of a property that also stays when an entry leaves `pending_`. -/
theorem settle (hP : OfIds P) (herase : ∀ u id, P u → P { u with pending := u.pending.erase id })
    (h : P s) (hs : Settles s t) : P t := by
  cases hs with
  | stay => exact h
  | erase id rest => exact hP.same (herase s id h) rfl rfl rfl
  | escape => exact hP.same h rfl rfl rfl

theorem step {l : Label} (hP : OfIds P) (herase : ∀ u id, P u → P { u with pending := u.pending.erase id })
    (h : P s) (hsh : Shape s.stack) (ht : s.step l = some t) : P t := by
  rcases State.step_cases (ρ := {}) ht hsh (fun _ => trivial) (fun _ => trivial)
    (fun _ _ _ _ _ _ _ => trivial) (fun _ _ _ _ => trivial) (fun _ _ => trivial) (fun _ _ => trivial) with
    ⟨u, hu, hut⟩ | ⟨-, -, hc⟩ | ⟨-, conn, msg, batch, hst, rfl⟩
  · exact hP.settle herase (hP.moves h hu) hut
  · exact hP.calm (hP.keeps h (clearContexts_keeps s)) hc
  · have hs : P { s with stack := [.draining batch] } := hP.same h rfl rfl rfl
    have hlog : P (({ s with stack := [.draining batch] } : State).log (.handling msg)) :=
      hP.same hs rfl rfl rfl
    rcases State.message_cases (ρ := {}) ⟨fun _ _ _ _ => trivial, fun _ => trivial⟩
      { s with stack := [.draining batch] } msg (fun _ _ _ _ _ _ => trivial) (fun _ _ _ _ _ _ _ => trivial) with
      ⟨hm, -⟩ | ⟨id, r, reply, u, v, -, -, -, htouch, hv, hvt⟩
    · exact hP.moves hlog hm.moves
    · refine hP.settle herase (hP.moves (hP.keeps ?_ htouch.keeps) hv.moves) hvt
      exact hP.same hlog rfl rfl rfl

end OfIds

theorem counts_ofIds : OfIds Counts where
  same h hc hp hh := h.grow hc (by simp [hp]) hh
  issue h := h.issue

theorem Counts.erase {s : State} (h : Counts s) (id : ℤ) :
    Counts { s with pending := s.pending.erase id } := by
  refine h.grow rfl (fun id' r hl => ?_) rfl
  have hl : AList.lookup id' (AList.erase id s.pending) = some r := hl
  rw [StdMap.lookup_erase_eq_ite] at hl
  split at hl
  · cases hl
  · exact hl

/-- The ids rise up to the largest `int`. -/
structure Ascends (s : State) : Prop where
  counts : Counts s
  ordered : issuedCount s.history ≤ 2 ^ 31 → (s.history.filterMap Event.issuedId?).Pairwise (· > ·)

theorem ascends_ofIds : OfIds Ascends where
  same {s t} h hc hp hh := by
    refine ⟨counts_ofIds.same h.counts hc hp hh, fun hn => ?_⟩
    rw [hh]
    exact h.ordered (by rwa [issuedCount, hh] at hn)
  issue {s} h r := by
    refine ⟨h.counts.issue r, fun hn => ?_⟩
    rw [issuedCount_issue] at hn
    have hc := h.counts (by omega)
    exact List.pairwise_cons.mpr ⟨fun id hid => (hc.issued_lt id hid).2, hc.ordered⟩

theorem Counts.step {s t : State} {l : Label} (h : Counts s) (hsh : Shape s.stack)
    (ht : s.step l = some t) : Counts t :=
  counts_ofIds.step (fun _ id h => h.erase id) h hsh ht

theorem Ascends.step {s t : State} {l : Label} (h : Ascends s) (hsh : Shape s.stack)
    (ht : s.step l = some t) : Ascends t :=
  ascends_ofIds.step (fun _ id h => ⟨h.counts.erase id, h.ordered⟩) h hsh ht

theorem Counts.init : Counts init := by
  refine fun _ => ⟨rfl, ?_, ?_, ?_⟩ <;> simp [LynneSocial.Browser.init]

theorem Ascends.init : Ascends init :=
  ⟨.init, fun _ => by simp [LynneSocial.Browser.init]⟩

/-- No message with the id was handled since the command was issued. -/
def Unhandled (id : ℤ) (r : PendingRequest) (h : List Event) : Prop :=
  ∃ since before, h = since ++ .issued id r :: before ∧
    ∀ m, .handling m ∈ since → m.rawId? ≠ some id

/-- The callback of the entry is in progress or was left by an exception. -/
def Started (s : State) (id : ℤ) : Prop :=
  .eraseIt id ∈ s.stack ∨ .escaped id ∈ s.history

structure Correlated (s : State) : Prop extends Counted s where
  invoked_lt : ∀ id r reply, .invoked id r reply ∈ s.history → id < s.cmdId
  unhandled : ∀ id r, s.pending.lookup id = some r → Started s id ∨ Unhandled id r s.history
  uninvoked : ∀ id r r' reply, s.pending.lookup id = some r → .invoked id r' reply ∈ s.history →
    Started s id
  correlates : History.Always Correlates s.history

theorem Unhandled.append {id : ℤ} {r : PendingRequest} {a h : List Event} (hu : Unhandled id r h)
    (hes : ∀ m, .handling m ∈ a → m.rawId? ≠ some id) : Unhandled id r (a ++ h) := by
  obtain ⟨since, before, rfl, hs⟩ := hu
  refine ⟨a ++ since, before, by simp, fun m hm => ?_⟩
  exact (List.mem_append.mp hm).elim (hes m) (hs m)

variable {s t : State}

/-- Steps that only add events of other kinds. -/
theorem Correlated.grow (h : Correlated s) (hc : t.cmdId = s.cmdId) (hp : t.pending = s.pending)
    (he : ∀ id, .eraseIt id ∈ t.stack ↔ .eraseIt id ∈ s.stack)
    (hh : ∃ es, (∀ e ∈ es, Event.untimed e) ∧ t.history = es ++ s.history) : Correlated t := by
  obtain ⟨es, hes, hh⟩ := hh
  have hid : t.history.filterMap Event.issuedId? = s.history.filterMap Event.issuedId? := by
    rw [hh, issuedIds_append hes]
  have hold : ∀ e ∈ t.history, ¬ e.untimed → e ∈ s.history := by
    intro e he hu
    rw [hh, List.mem_append] at he
    exact he.resolve_left fun h => hu (hes e h)
  have hst : ∀ id, Started s id → Started t id := by
    rintro id (h | h)
    · exact .inl ((he id).mpr h)
    · exact .inr (by rw [hh]; exact List.mem_append_right _ h)
  refine ⟨h.toCounted.grow hc (by simp [hp]) hid, ?_, ?_, ?_, ?_⟩
  · intro id r reply hi
    rw [hc]
    exact h.invoked_lt id r reply (hold _ hi fun hu => hu)
  · intro id r hl
    rw [hp] at hl
    refine (h.unhandled id r hl).imp (hst id) fun hu => ?_
    rw [hh]
    exact hu.append fun m hm => absurd (hes _ hm) (by simp [Event.untimed])
  · intro id r r' reply hl hi
    rw [hp] at hl
    exact hst id (h.uninvoked id r r' reply hl (hold _ hi fun hu => hu))
  · rw [hh]
    apply History.Always.append _ h.correlates
    intro e he past
    have := hes e he
    cases e <;> simp_all [Event.untimed, Correlates]

theorem Correlated.issue (h : Correlated s) (r : PendingRequest)
    (hn : issuedCount (s.issue r).history < 2 ^ 31) : Correlated (s.issue r) := by
  have hnext := h.cmdId_issue r hn
  have hst : ∀ id, Started s id → Started (s.issue r) id := fun id =>
    Or.imp_right (List.mem_cons_of_mem _)
  have hlookup : ∀ id, (s.issue r).pending.lookup id =
      if id = s.cmdId then some r else s.pending.lookup id := fun id =>
    StdMap.lookup_insert_eq_ite _ _ _ _
  refine ⟨h.toCounted.issue r hn, ?_, ?_, ?_, ?_⟩
  · rw [hnext]
    intro id r' reply hi
    have hi : .invoked id r' reply ∈ s.history := by simpa [State.issue] using hi
    have := h.invoked_lt id r' reply hi
    omega
  · intro id r' hl
    rw [hlookup] at hl
    split at hl
    · rename_i hid
      subst hid
      cases hl
      exact .inr ⟨[], s.history, rfl, by simp⟩
    · exact (h.unhandled id r' hl).imp (hst id) fun hu => hu.append (a := [_]) (by simp)
  · intro id r' r'' reply hl hi
    rw [hlookup] at hl
    have hi : .invoked id r'' reply ∈ s.history := by simpa [State.issue] using hi
    split at hl
    · have := h.invoked_lt id r'' reply hi
      omega
    · exact hst id (h.uninvoked id r' r'' reply hl hi)
  · refine ⟨fun hid => ?_, h.correlates⟩
    have := (h.issued_lt _ hid).2
    omega

theorem Correlated.settle (h : Correlated s) (hs : Settles s t) : Correlated t := by
  cases hs with
  | stay => exact h
  | erase id rest hst =>
      have hl : ∀ id' r, AList.lookup id' (AList.erase id s.pending) = some r →
          id' ≠ id ∧ s.pending.lookup id' = some r := by
        intro id' r hl
        rw [StdMap.lookup_erase_eq_ite] at hl
        split at hl
        · cases hl
        · exact ⟨‹_›, hl⟩
      have hstart : ∀ id', id' ≠ id → Started s id' →
          Started { s with pending := s.pending.erase id, stack := rest } id' := by
        rintro id' hne (hmem | hmem)
        · rw [hst, List.mem_cons] at hmem
          exact .inl (hmem.resolve_left (by simpa using hne))
        · exact .inr hmem
      refine ⟨h.toCounted.grow rfl (fun id' r hr => (hl id' r hr).2) rfl, h.invoked_lt, ?_, ?_,
        h.correlates⟩
      · intro id' r hr
        obtain ⟨hne, hr⟩ := hl id' r hr
        exact (h.unhandled id' r hr).imp_left (hstart id' hne)
      · intro id' r r' reply hr hi
        obtain ⟨hne, hr⟩ := hl id' r hr
        exact hstart id' hne (h.uninvoked id' r r' reply hr hi)
  | escape id rest hst =>
      have hold : ∀ e : Event, (∀ i, e ≠ .escaped i) → e ∈ .escaped id :: s.history →
          e ∈ s.history := fun e he hm => (List.mem_cons.mp hm).resolve_left (he id)
      have hstart : ∀ id', Started s id' →
          Started { s with stack := rest, history := .escaped id :: s.history } id' := by
        rintro id' (hmem | hmem)
        · rw [hst, List.mem_cons] at hmem
          rcases hmem with hmem | hmem
          · cases hmem
            exact .inr List.mem_cons_self
          · exact .inl hmem
        · exact .inr (List.mem_cons_of_mem _ hmem)
      refine ⟨h.toCounted.grow rfl (fun _ _ hl => hl) rfl, ?_, ?_, ?_, trivial, h.correlates⟩
      · exact fun id' r reply hi => h.invoked_lt id' r reply (hold _ (by simp) hi)
      · intro id' r hr
        refine (h.unhandled id' r hr).imp (hstart id') fun hu => ?_
        exact hu.append (a := [_]) (by simp)
      · exact fun id' r r' reply hr hi =>
          hstart id' (h.uninvoked id' r r' reply hr (hold _ (by simp) hi))

/-- The invariant, as long as `cmd_id_` has not wrapped. -/
def Numbered (s : State) : Prop := issuedCount s.history < 2 ^ 31 → Correlated s

theorem Numbered.grow (h : Numbered s) (hc : t.cmdId = s.cmdId) (hp : t.pending = s.pending)
    (he : ∀ id, .eraseIt id ∈ t.stack ↔ .eraseIt id ∈ s.stack)
    (hh : ∃ es, (∀ e ∈ es, Event.untimed e) ∧ t.history = es ++ s.history) : Numbered t := by
  intro hn
  refine (h ?_).grow hc hp he hh
  obtain ⟨es, hes, hh⟩ := hh
  rwa [hh, issuedCount, issuedIds_append hes] at hn

theorem Numbered.calm (h : Numbered s) (hc : Calm s t) : Numbered t := by
  obtain ⟨es, hes, hh⟩ := hc.history
  exact h.grow hc.cmdId hc.pending hc.erasing ⟨es, fun e he => (hes e he).untimed, hh⟩

theorem Numbered.keeps (h : Numbered s) (hk : Keeps s t) : Numbered t := by
  obtain ⟨es, hes, hh⟩ := hk.history
  exact h.grow hk.cmdId hk.pending (fun id => by rw [hk.stack])
    ⟨es, fun e he => (hes e he).untimed, hh⟩

theorem Numbered.issue (h : Numbered s) (r : PendingRequest) : Numbered (s.issue r) := by
  intro hn
  refine (h ?_).issue r hn
  rw [issuedCount_issue] at hn
  omega

theorem Numbered.settle (h : Numbered s) (hs : Settles s t) : Numbered t := by
  intro hn
  refine (h ?_).settle hs
  cases hs with
  | escape id rest hst => exact hn
  | _ => exact hn

theorem Numbered.act {ρ : Rules} (h : Numbered s) (ha : Act ρ s t) : Numbered t := by
  rcases ha.issues with ⟨u, r, hc, hp, hst, hh, hcalm⟩ | ⟨hc, hp, hh⟩
  · have hu : Numbered u := h.grow hc hp (by simp [hst]) ⟨[], by simp, hh⟩
    exact (hu.issue r).calm hcalm
  · exact h.grow hc hp (fun _ => ha.frame (by simp)) hh

theorem Numbered.moves {ρ : Rules} (h : Numbered s) (hm : Moves ρ s t) : Numbered t :=
  Moves.invariant (fun _ _ h ha => Numbered.act h ha) (fun _ _ h hc => Numbered.calm h hc) hm h

theorem id?_of_rawId? {msg : Parsed} {id : ℤ} (h : msg.rawId? = some id) (h0 : 0 ≤ id)
    (h1 : id < 2 ^ 31) : msg.id? = some id := by
  unfold Parsed.rawId? at h
  unfold Parsed.id?
  split at h
  · rename_i n hn
    cases h
    have : toInt32 id = id := toInt32_eq_self.mpr ⟨by omega, h1⟩
    simp [hn, Json.getInt, this]
  · cases h

theorem Correlated.handling (h : Correlated s) {msg : Parsed}
    (hm : ∀ id r, s.pending.lookup id = some r → msg.rawId? ≠ some id) :
    Correlated (s.log (.handling msg)) := by
  have hold : ∀ e : Event, (∀ m, e ≠ .handling m) → e ∈ (s.log (.handling msg)).history →
      e ∈ s.history := fun e he hmem => (List.mem_cons.mp hmem).resolve_left (he msg)
  have hst : ∀ id, Started s id → Started (s.log (.handling msg)) id := fun id =>
    Or.imp_right (List.mem_cons_of_mem _)
  refine ⟨h.toCounted.grow rfl (fun _ _ hl => hl) rfl, ?_, ?_, ?_, trivial, h.correlates⟩
  · exact fun id r reply hi => h.invoked_lt id r reply (hold _ (by simp) hi)
  · intro id r hr
    refine (h.unhandled id r hr).imp (hst id) fun hu => ?_
    exact hu.append (a := [_]) (by simpa using hm id r hr)
  · exact fun id r r' reply hr hi => hst id (h.uninvoked id r r' reply hr (hold _ (by simp) hi))

theorem Correlated.call (h : Correlated s) {msg : Parsed} {id : ℤ} {r : PendingRequest}
    {reply : Reply} (hr : s.pending.lookup id = some r) (hid : msg.rawId? = some id)
    (hreply : msg.reply = some reply) (hst : ¬ Started s id) :
    Correlated ((s.log (.handling msg)).calling id r reply) := by
  have hstart : ∀ id', Started s id' →
      Started ((s.log (.handling msg)).calling id r reply) id' := fun id' =>
    Or.imp (List.mem_cons_of_mem _) fun h => List.mem_cons_of_mem _ (List.mem_cons_of_mem _ h)
  have hself : Started ((s.log (.handling msg)).calling id r reply) id :=
    .inl List.mem_cons_self
  refine ⟨h.toCounted.grow rfl (fun _ _ hl => hl) rfl, ?_, ?_, ?_, ?_, trivial, h.correlates⟩
  · intro id' r' reply' hi
    simp only [State.calling, State.log, List.mem_cons, Event.invoked.injEq, reduceCtorEq,
      false_or] at hi
    rcases hi with ⟨rfl, -⟩ | hi
    · exact (h.pending_lt id' r hr).2
    · exact h.invoked_lt id' r' reply' hi
  · intro id' r' hr'
    by_cases hne : id' = id
    · exact .inl (hne ▸ hself)
    · refine (h.unhandled id' r' hr').imp (hstart id') fun hu => ?_
      apply hu.append (a := [.invoked id r reply, .handling msg])
      intro m hm
      obtain rfl : m = msg := by simpa using hm
      rw [hid]
      simpa using Ne.symm hne
  · intro id' r' r'' reply' hr' hi
    by_cases hne : id' = id
    · exact hne ▸ hself
    · simp only [State.calling, State.log, List.mem_cons, Event.invoked.injEq, hne, false_and,
        reduceCtorEq, false_or] at hi
      exact hstart id' (h.uninvoked id' r' r'' reply' hr' hi)
  · refine ⟨msg, s.history, rfl, hid, hreply, (h.unhandled id r hr).resolve_left hst, ?_⟩
    exact fun r' reply' hi => hst (h.uninvoked id r r' reply' hr hi)

theorem Numbered.step {l : Label} (h : Numbered s) (hsh : Shape s.stack)
    (hown : ∀ msg ∈ s.incoming l, OwnResponse s msg)
    (hwf : ∀ msg ∈ s.incoming l, WellFormedError s msg) (ht : s.step l = some t) : Numbered t := by
  rcases State.step_cases (ρ := {}) ht hsh (fun _ => trivial) (fun _ => trivial)
    (fun _ _ _ _ _ _ _ => trivial) (fun _ _ _ _ => trivial) (fun _ _ => trivial) (fun _ _ => trivial) with
    ⟨u, hu, hut⟩ | ⟨-, -, hc⟩ | ⟨rfl, conn, msg, batch, hst, rfl⟩
  · exact (h.moves hu).settle hut
  · exact (h.keeps (clearContexts_keeps s)).calm hc
  · have hin := State.incoming_eq hst
    specialize hown msg hin
    specialize hwf msg hin
    have hu : Numbered { s with stack := [.draining batch] } :=
      h.grow rfl rfl (by simp [hst]) ⟨[], by simp, rfl⟩
    rcases State.message_cases (ρ := {}) ⟨fun _ _ _ _ => trivial, fun _ => trivial⟩
      { s with stack := [.draining batch] } msg (fun _ _ _ _ _ _ => trivial) (fun _ _ _ _ _ _ _ => trivial) with
      ⟨hm, hnone⟩ | ⟨id, r, reply, u, v, hid, hr, hreply, htouch, hv, hvt⟩
    · refine Numbered.moves (fun hn => ?_) hm.moves
      have hs : Correlated { s with stack := [.draining batch] } := hu hn
      apply hs.handling
      intro id r hr hraw
      have hlt := hs.pending_lt id r hr
      have hcmd := hs.cmdId_eq
      have hid := id?_of_rawId? hraw hlt.1 (by
        have hn : issuedCount s.history < 2 ^ 31 := hn
        simp only at hcmd hlt
        omega)
      have hr' : s.pending.lookup id = some r := hr
      have := hwf id hid (by simp [hr'])
      simp [hnone id r hid hr] at this
    · have hown := hown id hid (by simpa using congrArg Option.isSome hr)
      have hcall : Numbered (((({ s with stack := [.draining batch] } : State).log
          (.handling msg)).calling id r reply)) := by
        intro hn
        refine (hu hn).call hr hown.1 hreply ?_
        rintro (hmem | hmem)
        · simp at hmem
        · exact hown.2 (List.mem_filterMap.mpr ⟨_, hmem, rfl⟩)
      exact ((hcall.keeps htouch.keeps).moves hv.moves).settle hvt

/-- Requests and responses correlate, in every run of fewer than 2^31 commands in which error
members are well formed and each response that reaches an entry is meant for it. -/
theorem responses_correlate {ls : List Label} (hr : Transition.run State.step init ls = some s)
    (hn : issuedCount s.history < 2 ^ 31)
    (hwf : Transition.Along State.step
      (fun s l => ∀ msg ∈ s.incoming l, WellFormedError s msg) init ls)
    (hown : Transition.Along State.step
      (fun s l => ∀ msg ∈ s.incoming l, OwnResponse s msg) init ls) :
    History.Always Correlates s.history := by
  have h0 : Numbered init := fun _ => by
    refine ⟨⟨rfl, ?_, ?_, ?_⟩, ?_, ?_, ?_, trivial⟩ <;> simp [init]
  have h := Transition.run_invariant_along (I := fun s => Numbered s ∧ Shape s.stack)
    (C := fun s l => (∀ msg ∈ s.incoming l, OwnResponse s msg) ∧
      ∀ msg ∈ s.incoming l, WellFormedError s msg)
    (fun s l t h hC ht => ⟨h.1.step h.2 hC.1 hC.2 ht, State.step_shape h.2 ht⟩)
    ⟨h0, trivial⟩ (hown.and hwf) hr
  exact (h.1 hn).correlates

/-- The ids of the entries called, each with the id of the message handled right before. -/
def callers : List Event → List (ℤ × Option ℤ)
  | [] => []
  | .invoked id _ _ :: .handling msg :: past => (id, msg.rawId?) :: callers past
  | _ :: past => callers past

theorem callers_of_correlates {h : List Event} (hc : History.Always Correlates h) :
    ∀ p ∈ callers h, p.2 = some p.1 := by
  induction h using callers.induct with
  | case1 => simp [callers]
  | case2 id r reply msg past ih =>
      obtain ⟨⟨m, earlier, hm, hid, -⟩, -, hc⟩ := hc
      cases hm
      simp only [callers, List.forall_mem_cons]
      exact ⟨hid, ih hc⟩
  | case3 e past hne ih =>
      rw [callers]
      · exact ih hc.2
      · exact hne

/-- Two commands are answered in the other order, one of them twice, the other by an error. -/
def outOfOrder : List Label :=
  connect ++ [.sendCommand (str "Target.getTargets") .null [], .sendCommand (str "Page.reload") .null []] ++
    arrive (okMessage 2 .null) ++ [.ret, .next] ++ arrive (okMessage 2 .null) ++ [.next] ++
    arrive (errorMessage 1 ⟨str "not allowed", rfl⟩) ++ [.ret, .next]

theorem responses_correlate_sample : ∃ s, Transition.run State.step init outOfOrder = some s ∧
    callers s.history = [(1, some 1), (2, some 2)] ∧ History.Always Correlates s.history := by
  have h : (Transition.run State.step init outOfOrder).any (fun s =>
      callers s.history = [(1, some 1), (2, some 2)] ∧ issuedCount s.history < 2 ^ 31) = true := by
    decide +kernel
  obtain ⟨s, hs, h⟩ := Option.any_eq_true _ _ |>.mp h
  simp only [decide_eq_true_eq] at h
  exact ⟨s, hs, h.1, responses_correlate hs h.2 (by decide +kernel) (by decide +kernel)⟩

/-- The response that reaches command 1 carries the id 2^32 + 1. -/
def narrowed : List Label :=
  connect ++ [.sendCommand (str "Target.getTargets") .null []] ++ arrive (okMessage 4294967297 .null) ++
    [.ret, .next]

theorem narrowed_id_calls_back : ¬ ∀ (ls : List Label) (s : State),
    Transition.run State.step init ls = some s → issuedCount s.history < 2 ^ 31 →
    Transition.Along State.step (fun s l => ∀ msg ∈ s.incoming l, WellFormedError s msg) init ls →
    s.history.filterMap Event.escapedId? = [] → History.Always Correlates s.history := by
  have h : (Transition.run State.step init narrowed).any (fun s =>
      callers s.history = [(1, some 4294967297)] ∧ issuedCount s.history < 2 ^ 31 ∧
        s.history.filterMap Event.escapedId? = []) = true := by
    decide +kernel
  obtain ⟨s, hs, h⟩ := Option.any_eq_true _ _ |>.mp h
  simp only [decide_eq_true_eq] at h
  intro hall
  have hc := callers_of_correlates (hall _ s hs h.2.1 (by decide +kernel) h.2.2)
  rw [h.1] at hc
  simp at hc

end LynneSocial.Browser
