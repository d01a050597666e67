import LynneSocial.Browser.Correlation
import LynneSocial.Browser.Requests

/-!
# Completion

A call of `get_context`, `save_session` or `restore_session` waits for one
command at a time. When it waits for none any more it has been answered, once,
unless Chrome refused the stealth script: that error ends the chain in silence.
-/
namespace LynneSocial.Browser

variable {s t u v : State} {n : ℕ} {l : Label}

/-- The entry is there, unless `cmd_id_` has wrapped. -/
structure Stays (id : ℤ) (r : PendingRequest) (s : State) : Prop where
  counts : Counts s
  pending : issuedCount s.history < 2 ^ 31 → s.pending.lookup id = some r

theorem stays_ofIds (id : ℤ) (r : PendingRequest) : OfIds (Stays id r) where
  same h hc hp hh :=
    ⟨counts_ofIds.same h.counts hc hp hh, fun hn => hp ▸ h.pending (by rwa [issuedCount, hh] at hn)⟩
  issue {s} h r' := by
    refine ⟨h.counts.issue r', fun hn => ?_⟩
    rw [issuedCount_issue] at hn
    have hl := h.pending (by omega)
    have hlt := ((h.counts (by omega)).pending_lt id r hl).2
    rw [issue_lookup, if_neg (by omega)]
    exact hl

theorem issuedCount_le {es h h' : List Event} (hh : h' = es ++ h) : issuedCount h ≤ issuedCount h' := by
  simp [hh, issuedCount, List.filterMap_append]

/-- What may become of an entry and of the return to it, but for a response. -/
def EntryStep (id : ℤ) (r : PendingRequest) (s t : State) : Prop :=
  (t.pending.lookup id = some r ∧ (.eraseIt id ∈ t.stack → .eraseIt id ∈ s.stack)) ∨
    (.eraseIt id ∈ s.stack ∧ t.pending.lookup id = none)

theorem EntryStep.settle {id : ℤ} {r : PendingRequest} (h : Stays id r u)
    (he : .eraseIt id ∈ u.stack → .eraseIt id ∈ s.stack) (hut : Settles u t)
    (hn : issuedCount t.history < 2 ^ 31) : EntryStep id r s t := by
  cases hut with
  | stay => exact .inl ⟨h.pending hn, he⟩
  | erase id' rest hst =>
      have hl := h.pending hn
      by_cases hid : id' = id
      · subst hid
        refine .inr ⟨he (hst ▸ List.mem_cons_self), ?_⟩
        change AList.lookup id' (AList.erase id' u.pending) = none
        rw [StdMap.lookup_erase_eq_ite, if_pos rfl]
      · refine .inl ⟨?_, fun hmem => he (hst ▸ List.mem_cons_of_mem _ hmem)⟩
        change AList.lookup id (AList.erase id' u.pending) = some r
        rw [StdMap.lookup_erase_eq_ite, if_neg (Ne.symm hid)]
        exact hl
  | escape id' rest hst =>
      exact .inl ⟨h.pending hn, fun hmem => he (hst ▸ List.mem_cons_of_mem _ hmem)⟩

/-- An entry stays, or its callback returns, or its response is handled. -/
theorem State.step_entry {id : ℤ} {r : PendingRequest} (hc : Counts s) (hsh : Shape s.stack)
    (ht : s.step l = some t) (hn : issuedCount t.history < 2 ^ 31)
    (hl : s.pending.lookup id = some r) :
    EntryStep id r s t ∨ ∃ reply u, l = .next ∧ s.Answers id r reply u ∧ t = finish (u.invoke r reply) := by
  have hs : Stays id r s := ⟨hc, fun _ => hl⟩
  have hP := stays_ofIds id r
  rcases State.step_cases (ρ := {}) ht hsh (fun _ => trivial) (fun _ => trivial)
    (fun _ _ _ _ _ _ _ => trivial) (fun _ _ _ _ => trivial) (fun _ _ => trivial) (fun _ _ => trivial) with
    ⟨u, hu, hut⟩ | ⟨-, -, hcalm⟩ | ⟨rfl, conn, msg, batch, hst, rfl⟩
  · exact .inl (.settle (hP.moves hs hu) (hu.erasing id).mp hut hn)
  · have hk := clearContexts_keeps s
    refine .inl (.inl ⟨(hP.calm (hP.keeps hs hk) hcalm).pending hn, fun hmem => ?_⟩)
    rw [hcalm.erasing, hk.stack] at hmem
    exact hmem
  · have hlog : Stays id r (({ s with stack := [.draining batch] } : State).log (.handling msg)) :=
      hP.same hs rfl rfl rfl
    rcases State.onWsMessage_cases (ρ := {}) { s with stack := [.draining batch] } msg with
      ⟨hm, -⟩ | ⟨id', r', reply, hid, hr, hreply, heq⟩
    · refine .inl (.inl ⟨(hP.moves hlog hm.moves).pending hn, fun hmem => ?_⟩)
      have hmem := (hm.erasing id).mp hmem
      simp [State.log] at hmem
    · by_cases hne : id' = id
      · subst hne
        obtain rfl := Option.some.inj (hr.symm.trans hl)
        exact .inr ⟨reply, _, rfl, ⟨conn, msg, batch, hst, hl, hid, hreply, rfl⟩, heq⟩
      · left
        obtain ⟨w, hw, hv⟩ := State.invoke_cases (ρ := {})
          ((({ s with stack := [.draining batch] } : State).log (.handling msg)).calling id' r' reply) r'
          reply (fun _ _ => trivial) (fun _ => trivial) (fun _ _ => trivial)
          (fun _ _ _ _ _ _ _ _ => trivial) (fun _ _ _ _ _ _ _ _ _ _ _ _ _ _ => trivial)
          (fun _ _ _ _ _ _ _ => trivial)
        have hcall : Stays id r
            ((({ s with stack := [.draining batch] } : State).log (.handling msg)).calling id' r' reply) :=
          hP.same hlog rfl rfl rfl
        rw [heq] at hn ⊢
        refine .settle (hP.moves (hP.keeps hcall hw.keeps) hv.moves) (fun hmem => ?_)
          (State.finish_settles _) hn
        have hmem := (hv.moves.erasing id).mp hmem
        rw [hw.keeps.stack] at hmem
        simp only [State.calling, State.log, List.mem_cons, Frame.eraseIt.injEq, reduceCtorEq,
          List.not_mem_nil, or_false] at hmem
        exact absurd hmem.symm hne

/-- How often the application has heard of the call. -/
def answersTo (n : ℕ) (h : List Event) : ℕ :=
  h.countP fun
    | .answered call _ => call = .request n
    | _ => false

/-- The command of the call whose response was handled. -/
def Event.invokedFor? (n : ℕ) : Event → Option ℤ
  | .invoked id r _ => if r.caller = some (.request n) then some id else none
  | _ => none

def Reply.isError : Reply → Bool
  | .error _ => true
  | .ok _ => false

/-- A command of the call is pending. -/
def State.Waits (s : State) (n : ℕ) : Prop :=
  ∃ id r, s.pending.lookup id = some r ∧ r.caller = some (.request n)

/-- No command of the call is responded to a second time. -/
def State.Once (n : ℕ) (s : State) (l : Label) : Prop :=
  ∀ msg ∈ s.incoming l, ∀ id ∈ msg.id?, ∀ r ∈ s.pending.lookup id, r.caller = some (.request n) →
    id ∉ s.history.filterMap (Event.invokedFor? n)

/-- Chrome does not refuse the stealth script of the call. -/
def State.Accepts (n : ℕ) (s : State) (l : Label) : Prop :=
  ∀ msg ∈ s.incoming l, ∀ id ∈ msg.id?, ∀ r ∈ s.pending.lookup id, r.caller = some (.request n) →
    r.context? ≠ none → ∀ reply ∈ msg.reply, reply.isError = false

instance (n : ℕ) (s : State) : Decidable (s.Waits n) :=
  decidable_of_iff (∃ e ∈ s.pending.entries, e.2.caller = some (.request n)) <| by
    constructor
    · rintro ⟨⟨id, r⟩, hmem, hc⟩
      exact ⟨id, r, AList.mem_lookup_iff.mpr hmem, hc⟩
    · rintro ⟨id, r, hl, hc⟩
      exact ⟨⟨id, r⟩, AList.mem_lookup_iff.mp hl, hc⟩

instance (n : ℕ) (s : State) (l : Label) : Decidable (s.Once n l) := by
  unfold State.Once
  infer_instance

instance (n : ℕ) (s : State) (l : Label) : Decidable (s.Accepts n l) := by
  unfold State.Accepts
  infer_instance

theorem answersTo_append {es h : List Event} (hes : ∀ e ∈ es, ¬ Event.OfCall n e) :
    answersTo n (es ++ h) = answersTo n h := by
  rw [answersTo, List.countP_append, List.countP_eq_zero.mpr, Nat.zero_add, answersTo]
  intro e he
  have := hes e he
  cases e <;> simp_all [Event.OfCall]

theorem invokedFor_append {es h : List Event} (hes : ∀ e ∈ es, ¬ Event.OfCall n e) :
    (es ++ h).filterMap (Event.invokedFor? n) = h.filterMap (Event.invokedFor? n) := by
  rw [List.filterMap_append, List.filterMap_eq_nil_iff.mpr, List.nil_append]
  intro e he
  have := hes e he
  cases e <;> simp_all [Event.OfCall, Event.invokedFor?]

/-- The one command the call waits for. -/
structure Entry (n : ℕ) (s : State) (id : ℤ) (r : PendingRequest) : Prop where
  pending : s.pending.lookup id = some r
  caller : r.caller = some (.request n)
  only : ∀ id' r', s.pending.lookup id' = some r' → r'.caller = some (.request n) → id' = id

/-- How far the call is. -/
inductive Stage (n : ℕ) (s : State) : Prop
  | waiting (id : ℤ) (r : PendingRequest) (h : Entry n s id r)
      (hi : ∀ i ∈ s.history.filterMap (Event.invokedFor? n), i < id) (he : .eraseIt id ∉ s.stack)
      (ha : answersTo n s.history = 0)
  /-- A function of the chain has been called for the last command and has not returned. -/
  | called (id : ℤ) (r : PendingRequest) (h : Entry n s id r)
      (hi : id ∈ s.history.filterMap (Event.invokedFor? n))
      (ha : .eraseIt id ∈ s.stack → answersTo n s.history = 1)
  | done (h : ¬ s.Waits n) (ha : answersTo n s.history = 1)

theorem Stage.answered (h : Stage n s) (hw : ¬ s.Waits n) : answersTo n s.history = 1 := by
  cases h with
  | waiting id r h => exact absurd ⟨id, r, h.pending, h.caller⟩ hw
  | called id r h => exact absurd ⟨id, r, h.pending, h.caller⟩ hw
  | done _ ha => exact ha

theorem Entry.apart {id : ℤ} {r : PendingRequest} (h : Entry n s id r) (ha : Apart n s t)
    (hl : t.pending.lookup id = some r) : Entry n t id r :=
  ⟨hl, h.caller, fun id' r' hl' hc => h.only id' r' (ha.pending id' r' hc hl') hc⟩

/-- A step on behalf of others. -/
theorem Stage.apart (h : Stage n s) (ha : Apart n s t)
    (hentry : ∀ id r, s.pending.lookup id = some r → r.caller = some (.request n) → EntryStep id r s t) :
    Stage n t := by
  obtain ⟨es, hes, hh⟩ := ha.history
  have hans : answersTo n t.history = answersTo n s.history := by rw [hh, answersTo_append hes]
  have hinv : t.history.filterMap (Event.invokedFor? n) = s.history.filterMap (Event.invokedFor? n) := by
    rw [hh, invokedFor_append hes]
  cases h with
  | waiting id r h hi he h0 =>
      rcases hentry id r h.pending h.caller with ⟨hl, hst⟩ | ⟨hst, -⟩
      · exact .waiting id r (h.apart ha hl) (by rwa [hinv]) (he ∘ hst) (by rwa [hans])
      · exact absurd hst he
  | called id r h hi h1 =>
      rcases hentry id r h.pending h.caller with ⟨hl, hst⟩ | ⟨hst, hl⟩
      · exact .called id r (h.apart ha hl) (by rwa [hinv]) fun hmem => by rw [hans, h1 (hst hmem)]
      · refine .done ?_ (by rw [hans, h1 hst])
        rintro ⟨id', r', hl', hc⟩
        obtain rfl := h.only id' r' (ha.pending id' r' hc hl') hc
        rw [hl] at hl'
        cases hl'
  | done hw h1 =>
      refine .done ?_ (by rw [hans, h1])
      rintro ⟨id', r', hl', hc⟩
      exact hw ⟨id', r', ha.pending id' r' hc hl', hc⟩

/-- One command of the call replaces another. -/
theorem Entry.next {id id' : ℤ} {r r' : PendingRequest} (h : Entry n s id r) (hne : id' ≠ id)
    (hnew : t.pending.lookup id' = some r') (hc : r'.caller = some (.request n))
    (hold : ∀ i q, t.pending.lookup i = some q → q.caller = some (.request n) →
      i = id' ∨ s.pending.lookup i = some q) (rest : List Frame) : Entry n (t.erased id rest) id' r' := by
  have hlookup : ∀ i, (t.erased id rest).pending.lookup i = if i = id then none else t.pending.lookup i :=
    fun i => StdMap.lookup_erase_eq_ite _ _ _
  refine ⟨?_, hc, fun i q hl hq => ?_⟩
  · rw [hlookup, if_neg hne]
    exact hnew
  · rw [hlookup] at hl
    split at hl
    · cases hl
    · exact (hold i q hl hq).resolve_right fun hl' => ‹¬ _› (h.only i q hl' hq)

theorem send_lookup (s : State) (method : Str) (params : Json) (r : PendingRequest) (sessionId : Str)
    (id : ℤ) : (s.sendCommand method params r sessionId).1.pending.lookup id =
      if id = s.cmdId then some r else s.pending.lookup id := by
  rw [(s.sendCommand_calm method params r sessionId).pending]
  exact issue_lookup s r id

/-- The application is given the context. -/
theorem onOk_answers {k : Continuation} (hk : k.sends = false) (s : State) (p : Str) (c : ℕ) :
    (k.onOk s p c).1.history = [.answered (.request k.call) (.context c), .handedOut p c k] ++ s.history ∧
      (k.onOk s p c).1.pending = s.pending := by
  cases k with
  | getContext m => exact ⟨rfl, rfl⟩
  | saveSession => cases hk
  | restoreSession => cases hk

/-- The continuation sends the last command of its chain. -/
theorem onOk_lookup {k : Continuation} (hk : k.sends = true) (s : State) (p : Str) (c : ℕ) :
    ∃ r, r.caller = some (.request k.call) ∧ (k.onOk s p c).1.history =
        [.issued s.cmdId r, .handedOut p c k] ++ s.history ∧
      ∀ id, (k.onOk s p c).1.pending.lookup id = if id = s.cmdId then some r else s.pending.lookup id := by
  cases k with
  | getContext => cases hk
  | saveSession platform m =>
      exact ⟨.getCookies platform m, rfl, State.sendCommand_history _ _ _ _ _,
        fun id => send_lookup (s.log _) _ _ _ _ id⟩
  | restoreSession cookies m =>
      exact ⟨.setCookies m, rfl, State.sendCommand_history _ _ _ _ _,
        fun id => send_lookup (s.log _) _ _ _ _ id⟩

/-- The same behind the response to the stealth script. -/
theorem onOk_cached {k : Continuation} (hk : k.sends = true) (s : State) (p : Str) (c : ℕ) :
    ∃ r, r.caller = some (.request k.call) ∧
      (k.onOk ((s.resetContext p c).log (.cached p c k)) p c).1.history =
        [.issued s.cmdId r, .handedOut p c k, .cached p c k] ++ s.history ∧
      ∀ id, (k.onOk ((s.resetContext p c).log (.cached p c k)) p c).1.pending.lookup id =
        if id = s.cmdId then some r else s.pending.lookup id := by
  obtain ⟨r, hc, hh, hl⟩ := onOk_lookup hk ((s.resetContext p c).log (.cached p c k)) p c
  have hcmd : ((s.resetContext p c).log (.cached p c k)).cmdId = s.cmdId := resetContext_cmdId s p c
  have hpend : ((s.resetContext p c).log (.cached p c k)).pending = s.pending := resetContext_pending s p c
  have hhist : ((s.resetContext p c).log (.cached p c k)).history = .cached p c k :: s.history :=
    congrArg (_ :: ·) (resetContext_history s p c)
  rw [hcmd, hhist] at hh
  rw [hcmd, hpend] at hl
  exact ⟨r, hc, hh, hl⟩

theorem nextId_ne (m : ℤ) : State.nextId m ≠ m := by
  unfold State.nextId
  split <;> omega

theorem Entry.congr {id : ℤ} {r : PendingRequest} (h : Entry n s id r) (hp : t.pending = s.pending) :
    Entry n t id r :=
  ⟨hp ▸ h.pending, h.caller, fun i q hl => h.only i q (hp ▸ hl)⟩

/-- The next command of the chain has been sent. -/
theorem Stage.sent {id id' : ℤ} {r q : PendingRequest} {rest : List Frame} {E : List Event}
    (h : Entry n u id r) (hne : id' ≠ id) (hc : q.caller = some (.request n))
    (hnew : t.pending.lookup id' = some q)
    (hold : ∀ i x, t.pending.lookup i = some x → x.caller = some (.request n) →
      i = id' ∨ u.pending.lookup i = some x) (hrest : .eraseIt id' ∉ rest)
    (hh : t.history = E ++ u.history) (hes : E.filterMap (Event.invokedFor? n) = [])
    (hans : answersTo n E = 0) (hi : ∀ i ∈ u.history.filterMap (Event.invokedFor? n), i < id')
    (ha : answersTo n u.history = 0) : Stage n (t.erased id rest) := by
  refine .waiting id' q (h.next hne hnew hc hold rest) ?_ hrest ?_
  · change ∀ i ∈ t.history.filterMap _, i < id'
    rw [hh, List.filterMap_append, hes]
    exact hi
  · change answersTo n t.history = 0
    rw [hh]
    simp only [answersTo, List.countP_append] at hans ha ⊢
    omega

/-- A function of the application has been called. -/
theorem Stage.told {id : ℤ} {r : PendingRequest} {E : List Event} (h : Entry n u id r)
    (hp : t.pending = u.pending) (hh : t.history = E ++ u.history)
    (hi : id ∈ u.history.filterMap (Event.invokedFor? n)) (hans : answersTo n E = 1)
    (ha : answersTo n u.history = 0) : Stage n t := by
  refine .called id r (h.congr hp) ?_ fun _ => ?_
  · rw [hh, List.filterMap_append]
    exact List.mem_append_right _ hi
  · rw [hh]
    simp only [answersTo, List.countP_append] at hans ha ⊢
    omega

/-- A response takes the chain to its next command, or to the application. -/
theorem Stage.proceed {k : Continuation} {id : ℤ} {r : PendingRequest} {reply : Reply}
    {rest : List Frame} (h : Entry k.call u id r) (hrest : ∀ i, .eraseIt i ∉ rest) (hid : id < u.cmdId)
    (hinv : ∀ i ∈ u.history.filterMap (Event.invokedFor? k.call), i < u.cmdId)
    (hi : id ∈ u.history.filterMap (Event.invokedFor? k.call)) (ha : answersTo k.call u.history = 0)
    (hacc : r.context? ≠ none → reply.isError = false)
    (hp : Proceeds k id rest u r reply t) : Stage k.call t := by
  have hne : u.cmdId ≠ id := by omega
  cases hp with
  | attach p T =>
      refine .sent (t := u.attach p T k) (q := .attachToTarget p T k) h hne rfl ?_ ?_ (hrest _)
        (E := [_]) (State.sendCommand_history _ _ _ _ _) rfl rfl hinv ha
      · exact (send_lookup _ _ _ _ _ _).trans (if_pos rfl)
      · intro i q hl _
        rw [State.attach, send_lookup] at hl
        split at hl
        · exact .inl ‹_›
        · exact .inr hl
  | script p T S =>
      have hcmd : (u.script p T S k).cmdId = State.nextId u.cmdId :=
        (State.sendCommand_calm _ _ _ _ _).cmdId
      have hlookup : ∀ i, ((u.script p T S k).enable S).pending.lookup i =
          if i = State.nextId u.cmdId then some .ignored
          else if i = u.cmdId then some (.addScript p u.heap.length k) else u.pending.lookup i := by
        intro i
        rw [State.enable, send_lookup, hcmd, State.script, send_lookup]
      refine .sent (t := (u.script p T S k).enable S) (q := .addScript p u.heap.length k) h hne rfl
        ?_ ?_ (hrest _) (State.script_enable_history u p T S k) rfl rfl hinv ha
      · rw [hlookup, if_neg (nextId_ne _).symm, if_pos rfl]
      · intro i q hl hq
        rw [hlookup] at hl
        split at hl
        · cases hl
          cases hq
        · split at hl
          · exact .inl ‹_›
          · exact .inr hl
  | deliver p c result hk =>
      obtain ⟨hh, hpend⟩ := onOk_answers hk ((u.resetContext p c).log (.cached p c k)) p c
      have hhist : ((u.resetContext p c).log (.cached p c k)).history = .cached p c k :: u.history :=
        congrArg (_ :: ·) (resetContext_history u p c)
      rw [hhist] at hh
      exact .told (E := [_, _, _]) h (hpend.trans (resetContext_pending u p c)) hh hi
        (by simp [answersTo]) ha
  | ask p c result hk =>
      obtain ⟨r', hc, hh, hlookup⟩ := onOk_cached hk u p c
      refine .sent h hne hc ?_ ?_ (hrest _) hh rfl rfl hinv ha
      · rw [hlookup, if_pos rfl]
      · intro i q hl _
        rw [hlookup] at hl
        split at hl
        · exact .inl ‹_›
        · exact .inr hl
  | reject p c text => cases hacc (by simp [PendingRequest.context?])
  | saved p m result cookies =>
      have hm : m = k.call := by
        have := h.caller
        simpa [PendingRequest.caller] using this
      exact .told (E := [_, _]) h rfl rfl hi (by simp [answersTo, hm]) ha
  | restored m result =>
      have hm : m = k.call := by
        have := h.caller
        simpa [PendingRequest.caller] using this
      exact .told (E := [_]) h rfl rfl hi (by simp [answersTo, hm]) ha
  | refuse r text hr => exact .told (E := [_]) h rfl rfl hi (by simp [answersTo]) ha
  | escape r result =>
      refine .called id r (h.congr rfl) ?_ fun hmem => absurd hmem (hrest id)
      simpa [Event.invokedFor?] using hi

theorem Proceeds.history {k : Continuation} {id : ℤ} {rest : List Frame} {r : PendingRequest}
    {reply : Reply} (h : Proceeds k id rest u r reply t) :
    ∃ es, t.history = es ++ u.history ∧ es.filterMap (Event.invokedFor? n) = [] := by
  cases h with
  | attach p T => exact ⟨[_], State.sendCommand_history _ _ _ _ _, rfl⟩
  | script p T S => exact ⟨_, State.script_enable_history u p T S k, rfl⟩
  | deliver p c result hk =>
      obtain ⟨hh, -⟩ := onOk_answers hk ((u.resetContext p c).log (.cached p c k)) p c
      have hhist : ((u.resetContext p c).log (.cached p c k)).history = .cached p c k :: u.history :=
        congrArg (_ :: ·) (resetContext_history u p c)
      rw [hhist] at hh
      exact ⟨[_, _, _], hh, rfl⟩
  | ask p c result hk =>
      obtain ⟨r', -, hh, -⟩ := onOk_cached hk u p c
      exact ⟨_, hh, rfl⟩
  | reject p c text => exact ⟨[_], rfl, rfl⟩
  | saved p m result cookies => exact ⟨[_, _], rfl, rfl⟩
  | restored m result => exact ⟨[_], rfl, rfl⟩
  | refuse r text => exact ⟨[_], rfl, rfl⟩
  | escape r result => exact ⟨[_], rfl, rfl⟩

/-- The message the loop turns to is the response to an entry. -/
theorem answers_of_incoming {msg : Parsed} {id : ℤ} {r : PendingRequest} {reply : Reply}
    (ht : s.step l = some t) (hsh : Shape s.stack) (hm : msg ∈ s.incoming l) (hid : id ∈ msg.id?)
    (hr : r ∈ s.pending.lookup id) (hreply : reply ∈ msg.reply) :
    ∃ u, s.Answers id r reply u ∧ t = State.finish (u.invoke r reply) := by
  have hl : l = .next := by
    cases l <;> first | rfl | cases hm
  subst hl
  rcases State.step_next ht with ⟨rest, hst, rfl⟩ | ⟨task, batch, rest, hst, rfl⟩
  · simp [State.incoming, hst] at hm
  · obtain rfl : rest = [] := by rwa [hst] at hsh
    cases task with
    | message conn data =>
        obtain rfl : data = some msg := by simpa [State.incoming, hst] using hm
        exact ⟨_, ⟨conn, msg, batch, hst, hr, hid, hreply, rfl⟩, State.onWsMessage_response hid hr hreply⟩
    | _ => simp [State.incoming, hst] at hm

/-- The step handles the response. -/
theorem State.Answers.result {id : ℤ} {r : PendingRequest} {reply : Reply} (h : s.Answers id r reply u)
    (ht : s.step .next = some t) : t = State.finish (u.invoke r reply) := by
  obtain ⟨conn, msg, batch, hst, hr, hid, hreply, rfl⟩ := h
  simp only [State.step, hst, Option.some.injEq] at ht
  rw [← ht]
  exact State.onWsMessage_response (s := { s with stack := [.draining batch] }) hid hr hreply

theorem State.Answers.incoming {id : ℤ} {r : PendingRequest} {reply : Reply} (h : s.Answers id r reply u) :
    ∃ msg ∈ s.incoming .next, id ∈ msg.id? ∧ r ∈ s.pending.lookup id ∧ reply ∈ msg.reply := by
  obtain ⟨conn, msg, batch, hst, hr, hid, hreply, -⟩ := h
  exact ⟨msg, State.incoming_eq hst, hid, hr, hreply⟩

variable {k : Continuation}

/-- What happens to others is not the response to a command of the call. -/
theorem Apart.not_answers {id : ℤ} {r : PendingRequest} {reply : Reply} (h : Apart k.call s t)
    (hb : Bound k s) (hc : r.caller = some (.request k.call)) (ha : s.Answers id r reply u)
    (ht : t = State.finish (u.invoke r reply)) : False := by
  obtain ⟨batch, hst⟩ := ha.stack
  obtain ⟨-, msg, hu⟩ := ha.history
  have hserves : r.Serves k := by
    obtain ⟨-, -, -, -, hr, -⟩ := ha
    exact hb id r hr hc
  obtain ⟨fs, hfs, -⟩ := (proceeds reply hserves hst).history (n := k.call)
  obtain ⟨es, hes, hh⟩ := h.history
  have heq : es = fs ++ [.invoked id r reply, .handling msg] := by
    have hsame : es ++ s.history = (fs ++ [.invoked id r reply, .handling msg]) ++ s.history := by
      rw [← hh, ht, hfs, hu, List.append_assoc]
    exact List.append_cancel_right hsame
  exact hes (.invoked id r reply) (by simp [heq]) hc

theorem Stage.step (h : Stage k.call s) (hb : Bound k s) (hsh : Shape s.stack) (hc : Counts s)
    (hcalls : k.call < s.calls) (ht : s.step l = some t) (hn : issuedCount t.history < 2 ^ 31)
    (hs : issuedCount s.history < 2 ^ 31)
    (honce : s.Once k.call l) :
    (s.Accepts k.call l → Stage k.call t) ∧
      (¬ s.Accepts k.call l → ¬ t.Waits k.call ∧ answersTo k.call t.history = 0) := by
  rcases hb.step_cases ht hsh (fun _ => hcalls.ne) with
    hap | ⟨id, r, reply, u, batch, rfl, ha, hserves, hst, hp⟩
  · refine ⟨fun _ => h.apart hap fun id r hl hcaller => ?_, fun hno => (hno ?_).elim⟩
    · rcases State.step_entry hc hsh ht hn hl with he | ⟨reply, u, -, ha, hu⟩
      · exact he
      · exact (hap.not_answers hb hcaller ha hu).elim
    · intro msg hm id hid r hr hcaller _ reply hreply
      obtain ⟨u, ha, hu⟩ := answers_of_incoming ht hsh hm hid hr hreply
      exact (hap.not_answers hb hcaller ha hu).elim
  · obtain ⟨msg, hm, hid, hr, hreply⟩ := ha.incoming
    obtain ⟨hcmd, msg', hu⟩ := ha.history
    have hcaller := hserves.caller
    have hnew := honce msg hm id hid r hr hcaller
    cases h with
    | called id' r' h' hi' =>
        obtain rfl := h'.only id r hr hcaller
        exact absurd hi' hnew
    | done hw => exact absurd ⟨id, r, hr, hcaller⟩ hw
    | waiting id' r' h' hi' he' h0 =>
        obtain rfl := h'.only id r hr hcaller
        obtain rfl := Option.some.inj (h'.pending.symm.trans hr)
        have hpend : u.pending = s.pending := by
          obtain ⟨-, -, -, -, -, -, -, rfl⟩ := ha
          rfl
        have hcount : answersTo k.call u.history = 0 := by
          rw [hu]
          simpa [answersTo] using h0
        have hinvoked : u.history.filterMap (Event.invokedFor? k.call) =
            id :: s.history.filterMap (Event.invokedFor? k.call) := by
          rw [hu, List.filterMap_append]
          simp [Event.invokedFor?, hcaller]
        have hlt := ((hc hs).pending_lt id r' hr).2
        constructor
        · intro hacc
          refine .proceed (h'.congr hpend) (by simp) (by rwa [hcmd]) ?_ ?_ hcount ?_ hp
          · rw [hinvoked, hcmd]
            intro i hi
            rcases List.mem_cons.mp hi with rfl | hi
            · exact hlt
            · exact Int.lt_trans (hi' i hi) hlt
          · rw [hinvoked]
            exact List.mem_cons_self
          · exact fun hctx => hacc msg hm id hid r' hr hcaller hctx reply hreply
        · intro hno
          have hbad : r'.context? ≠ none ∧ reply.isError = true := by
            by_contra hgood
            refine hno fun msg₁ hm₁ id₁ hid₁ r₁ hr₁ _ hctx reply₁ hreply₁ => ?_
            obtain rfl := Option.some.inj (hm.symm.trans hm₁)
            obtain rfl := Option.some.inj (hid.symm.trans hid₁)
            obtain rfl := Option.some.inj (hr.symm.trans hr₁)
            obtain rfl := Option.some.inj (hreply.symm.trans hreply₁)
            simpa using fun h => hgood ⟨hctx, h⟩
          cases hp with
          | refuse r text hr => exact absurd hr hbad.1
          | reject p c text =>
              refine ⟨?_, ?_⟩
              · rintro ⟨i, q, hl, hq⟩
                have hl : AList.lookup i (AList.erase id u.pending) = some q := hl
                rw [StdMap.lookup_erase_eq_ite, hpend] at hl
                split at hl
                · cases hl
                · exact ‹¬ _› (h'.only i q hl hq)
              · simpa [answersTo, State.erased, State.log, State.destroy, State.modifyContext] using hcount
          | _ => cases hbad.2

/-- Nothing has happened on behalf of the call. -/
structure Fresh (n : ℕ) (s : State) : Prop where
  entries : ¬ s.Waits n
  unheard : ∀ e ∈ s.history, ¬ Event.OfCall n e

theorem Fresh.silent (h : Fresh n s) : answersTo n s.history = 0 := by
  simpa [answersTo] using answersTo_append (h := []) h.unheard

theorem Fresh.invoked (h : Fresh n s) : s.history.filterMap (Event.invokedFor? n) = [] := by
  simpa using invokedFor_append (h := []) h.unheard

theorem Fresh.enter (h : Fresh n s) (kind : ℕ → Call) : Fresh n (s.enter kind) :=
  ⟨h.entries, List.forall_mem_cons.mpr ⟨id, h.unheard⟩⟩

/-- The first command has been sent. -/
theorem Fresh.wait {r : PendingRequest} {E : List Event} (h : Fresh n s)
    (he : .eraseIt s.cmdId ∉ s.stack) (hc : r.caller = some (.request n))
    (hl : ∀ id, t.pending.lookup id = if id = s.cmdId then some r else s.pending.lookup id)
    (hst : t.stack = s.stack) (hh : t.history = E ++ s.history)
    (hes : E.filterMap (Event.invokedFor? n) = []) (hans : answersTo n E = 0) :
    Stage n t := by
  refine .waiting s.cmdId r ⟨?_, hc, fun i q hi hq => ?_⟩ ?_ (by rwa [hst]) ?_
  · rw [hl, if_pos rfl]
  · rw [hl] at hi
    split at hi
    · assumption
    · exact (h.entries ⟨i, q, hi, hq⟩).elim
  · rw [hh, List.filterMap_append, hes, h.invoked]
    exact fun i hi => absurd hi List.not_mem_nil
  · have h0 := h.silent
    rw [hh]
    simp only [answersTo, List.countP_append] at hans h0 ⊢
    omega

/-- The application has been answered at once. -/
theorem Fresh.told {E : List Event} (h : Fresh n s) (hp : t.pending = s.pending)
    (hh : t.history = E ++ s.history) (hans : answersTo n E = 1) : Stage n t := by
  refine .done ?_ ?_
  · rintro ⟨id, r, hl, hc⟩
    exact h.entries ⟨id, r, hp ▸ hl, hc⟩
  · have h0 := h.silent
    rw [hh]
    simp only [answersTo, List.countP_append] at hans h0 ⊢
    omega

theorem Fresh.doGetContext (h : Fresh k.call s) (he : .eraseIt s.cmdId ∉ s.stack) (p : Str) :
    Stage k.call (s.doGetContext p k).1 := by
  unfold State.doGetContext
  split
  · exact h.told (E := [_]) rfl rfl (by simp [answersTo])
  · split
    · cases hk : k.sends with
      | false =>
          obtain ⟨hh, hp⟩ := onOk_answers hk s p ‹_›
          exact h.told hp hh (by simp [answersTo])
      | true =>
          obtain ⟨r, hc, hh, hl⟩ := onOk_lookup hk s p ‹_›
          exact h.wait he hc hl (k.onOk_stack hk s p _) hh rfl rfl
    · exact h.wait he rfl (send_lookup s _ _ _ _) (State.sendCommand_stack _ _ _ _ _)
        (E := [_]) (State.sendCommand_history _ _ _ _ _) rfl rfl

/-- What holds in every reachable state. -/
structure Orderly (s : State) : Prop where
  shape : Shape s.stack
  known : Known s
  counts : Counts s
  /-- Nothing was heard of the calls to come. -/
  unheard : ∀ n, s.calls ≤ n → ∀ e ∈ s.history, ¬ Event.OfCall n e
  returns : issuedCount s.history < 2 ^ 31 → ∀ id, .eraseIt id ∈ s.stack → id < s.cmdId

theorem Known.grows (h : Known s) (ht : s.step l = some t) (hsh : Shape s.stack) :
    ∃ es, t.history = es ++ s.history := by
  rcases State.step_apart (n := s.calls + 1) ht hsh (by simp) with hap | ⟨id, r, reply, u, -, ha, hc, -⟩
  · obtain ⟨es, -, hh⟩ := hap.history
    exact ⟨es, hh⟩
  · have := h id r _ ha.lookup hc
    omega

/-- The way back through `on_ws_message` begins with a response to a pending command. -/
theorem step_returns {id : ℤ} (hsh : Shape s.stack) (ht : s.step l = some t)
    (hmem : .eraseIt id ∈ t.stack) :
    .eraseIt id ∈ s.stack ∨ ∃ r, s.pending.lookup id = some r := by
  have hsettle : ∀ {u w}, Settles u w → .eraseIt id ∈ w.stack → .eraseIt id ∈ u.stack := by
    intro u w h hw
    cases h with
    | stay => exact hw
    | erase id' rest hst => exact hst ▸ List.mem_cons_of_mem _ hw
    | escape id' rest hst => exact hst ▸ List.mem_cons_of_mem _ hw
  rcases State.step_cases (ρ := {}) ht hsh (fun _ => trivial) (fun _ => trivial)
    (fun _ _ _ _ _ _ _ => trivial) (fun _ _ _ _ => trivial) (fun _ _ => trivial) (fun _ _ => trivial) with
    ⟨u, hu, hut⟩ | ⟨-, -, hcalm⟩ | ⟨-, conn, msg, batch, hst, rfl⟩
  · exact .inl ((hu.erasing id).mp (hsettle hut hmem))
  · rw [hcalm.erasing, (clearContexts_keeps s).stack] at hmem
    exact .inl hmem
  · rcases State.message_cases (ρ := {}) ⟨fun _ _ _ _ => trivial, fun _ => trivial⟩
      { s with stack := [.draining batch] } msg (fun _ _ _ _ _ _ => trivial) (fun _ _ _ _ _ _ _ => trivial) with
      ⟨hm, -⟩ | ⟨id', r, reply, u, v, -, hr, -, htouch, hv, hvt⟩
    · have hmem := (hm.erasing id).mp hmem
      simp [State.log] at hmem
    · have hmem := (hv.moves.erasing id).mp (hsettle hvt hmem)
      rw [htouch.keeps.stack] at hmem
      simp only [State.calling, State.log, List.mem_cons, Frame.eraseIt.injEq, reduceCtorEq,
        List.not_mem_nil, or_false] at hmem
      exact .inr ⟨r, hmem ▸ hr⟩

theorem Orderly.step (h : Orderly s) (ht : s.step l = some t) : Orderly t := by
  have hcalls := h.known.calls_le ht h.shape
  obtain ⟨es, hh⟩ := h.known.grows ht h.shape
  have hcounts := h.counts.step h.shape ht
  refine ⟨State.step_shape h.shape ht, h.known.step ht h.shape, hcounts, fun n hn e he => ?_,
    fun hlt id hmem => ?_⟩
  · have hnew : l.isRequest = true → n ≠ s.calls := by
      intro hr
      have := step_request_calls hr ht
      omega
    rcases State.step_apart ht h.shape hnew with hap | ⟨id, r, reply, u, -, ha, hc, -⟩
    · obtain ⟨fs, hfs, hh⟩ := hap.history
      rw [hh] at he
      exact (List.mem_append.mp he).elim (hfs e) (h.unheard n (hcalls.trans hn) e)
    · have := h.known id r n ha.lookup hc
      omega
  · have hle := issuedCount_le hh
    have hs := h.counts (by omega)
    have heq := hs.cmdId_eq
    have heq' := (hcounts hlt).cmdId_eq
    have hlt : id < s.cmdId := by
      rcases step_returns h.shape ht hmem with hmem | ⟨r, hr⟩
      · exact h.returns (by omega) id hmem
      · exact (hs.pending_lt id r hr).2
    omega

theorem Orderly.init : Orderly init := by
  refine ⟨by trivial, .init, .init, ?_, ?_⟩ <;> simp [LynneSocial.Browser.init]

theorem run_orderly {s t : State} {ls : List Label} (h : Orderly s)
    (hr : Transition.run State.step s ls = some t) : Orderly t :=
  Transition.run_invariant (fun _ _ _ h ht => h.step ht) h hr

theorem Orderly.issued_le (h : Orderly s) (ht : s.step l = some t) :
    issuedCount s.history ≤ issuedCount t.history := by
  obtain ⟨es, hh⟩ := h.known.grows ht h.shape
  exact issuedCount_le hh

theorem Orderly.run_issued_le {ls : List Label} (h : Orderly s)
    (hr : Transition.run State.step s ls = some t) : issuedCount s.history ≤ issuedCount t.history :=
  (Transition.run_invariant (I := fun u => Orderly u ∧ issuedCount s.history ≤ issuedCount u.history)
    (fun _ _ _ h ht => ⟨h.1.step ht, h.2.trans (h.1.issued_le ht)⟩) ⟨h, le_rfl⟩ hr).2

theorem Orderly.along_issued {ls : List Label} {N : ℕ} (h : Orderly s)
    (hr : Transition.run State.step s ls = some t) (hn : issuedCount t.history < N) :
    Transition.Along State.step (fun u l => ∀ v, u.step l = some v → issuedCount v.history < N) s ls := by
  induction ls generalizing s with
  | nil => trivial
  | cons l ls ih =>
      obtain ⟨u, hu, hr⟩ := Transition.run_cons.mp hr
      have horderly := h.step hu
      refine (Transition.along_cons hu).mpr ⟨fun v hv => ?_, ih horderly hr⟩
      obtain rfl := Option.some.inj (hu.symm.trans hv)
      exact lt_of_le_of_lt (horderly.run_issued_le hr) hn

/-- A call that is under way. -/
structure Underway (k : Continuation) (s : State) : Prop where
  orderly : Orderly s
  bound : Bound k s
  calls : k.call < s.calls
  unwrapped : issuedCount s.history < 2 ^ 31
  stage : Stage k.call s

theorem Orderly.fresh (h : Orderly s) : Fresh s.calls s := by
  refine ⟨?_, h.unheard _ le_rfl⟩
  rintro ⟨id, r, hl, hc⟩
  have := h.known id r _ hl hc
  omega

theorem Orderly.begin (h : Orderly s) (hl : l.isRequest = true) (ht : s.step l = some t)
    (hn : issuedCount t.history < 2 ^ 31) : ∃ k, k.call = s.calls ∧ Underway k t := by
  have hfresh := h.fresh.enter .request
  have hback : .eraseIt (s.enter .request).cmdId ∉ (s.enter .request).stack := fun hmem =>
    Int.lt_irrefl _ (h.returns (lt_of_le_of_lt (h.issued_le ht) hn) s.cmdId hmem)
  have hcalls := step_request_calls hl ht
  have hk : ∀ k : Continuation, k.call = s.calls → Bound k t → Stage s.calls t →
      ∃ k, k.call = s.calls ∧ Underway k t := fun k hk hb hst =>
    ⟨k, hk, h.step ht, hb, by omega, hn, hk ▸ hst⟩
  have hget : ∀ (k : Continuation) (p : Str), k.call = s.calls →
      t = ((s.enter .request).doGetContext p k).1 → ∃ k, k.call = s.calls ∧ Underway k t := by
    rintro k p hcall rfl
    have hb : Bound k (s.enter .request) := h.known.bound hcall
    exact hk k hcall (hb.doGetContext p) (hcall ▸ Fresh.doGetContext (hcall ▸ hfresh) hback p)
  cases l with
  | getContext p =>
      simp only [State.step, Option.ite_none_right_eq_some, Option.some.injEq] at ht
      exact hget _ p rfl ht.2.symm
  | saveSession p =>
      simp only [State.step, Option.ite_none_right_eq_some, Option.some.injEq] at ht
      exact hget _ p rfl ht.2.symm
  | restoreSession p content =>
      have hnone : t = ((s.enter .request).answer (.request s.calls) (.restored false)).1 →
          ∃ k, k.call = s.calls ∧ Underway k t := by
        rintro rfl
        exact hk (.getContext s.calls) rfl (h.known.bound rfl)
          (hfresh.told (E := [_]) rfl rfl (by simp [answersTo]))
      simp only [State.step, Option.ite_none_right_eq_some, Option.some.injEq, State.restoreSession] at ht
      obtain ⟨-, ht⟩ := ht
      split at ht
      · exact hnone ht.symm
      · split at ht
        · exact hnone ht.symm
        · exact hget _ p rfl ht.symm
  | _ => cases hl

theorem Underway.step (h : Underway k s) (ht : s.step l = some t) (hn : issuedCount t.history < 2 ^ 31)
    (honce : s.Once k.call l) :
    (s.Accepts k.call l → Underway k t) ∧
      (¬ s.Accepts k.call l → ¬ t.Waits k.call ∧ answersTo k.call t.history = 0) := by
  obtain ⟨horderly, hb, hcalls, hs, hstage⟩ := h
  have hle := horderly.known.calls_le ht horderly.shape
  obtain ⟨hgood, hbad⟩ := hstage.step hb horderly.shape horderly.counts hcalls ht hn hs honce
  exact ⟨fun hacc => ⟨horderly.step ht, hb.step ht horderly.shape fun _ => hcalls.ne, by omega, hn,
    hgood hacc⟩, hbad⟩

/-- Whenever no command of a call is pending any more, one of its functions has been called, once,
if and only if Chrome never refused the stealth script of the call. -/
theorem requests_complete_once_iff {ks ls : List Label} {m t s : State}
    (hm : Transition.run State.step init ks = some m) (hl : l.isRequest = true) (ht : m.step l = some t)
    (hr : Transition.run State.step t ls = some s) (hn : issuedCount s.history < 2 ^ 31)
    (honce : Transition.Along State.step (State.Once m.calls) t ls) :
    (∀ ks' u, ks' <+: ls → Transition.run State.step t ks' = some u → ¬ u.Waits m.calls →
        answersTo m.calls u.history = 1) ↔
      Transition.Along State.step (State.Accepts m.calls) t ls := by
  have horderly := run_orderly .init hm
  have hfirst := lt_of_le_of_lt ((horderly.step ht).run_issued_le hr) hn
  obtain ⟨k, hk, hway⟩ := horderly.begin hl ht hfirst
  rw [← hk] at honce ⊢
  exact Transition.along_iff_prefixes_of (I := Underway k)
    (P := fun u => ¬ u.Waits k.call → answersTo k.call u.history = 1)
    (fun _ _ v hu hd hc hv => (hu.step hv (hd.2 v hv) hd.1).1 hc)
    (fun _ hu hw => hu.stage.answered hw)
    (fun _ _ v hu hd hc hv hP => by
      obtain ⟨hw, h0⟩ := (hu.step hv (hd.2 v hv) hd.1).2 hc
      exact absurd (hP hw) (by omega))
    hway (honce.and ((horderly.step ht).along_issued hr hn)) hr

theorem requests_complete_once_sample : ∃ m t s,
    Transition.run State.step init connect = some m ∧ m.step (.getContext (str "xhs")) = some t ∧
    Transition.run State.step t (answerChain 1) = some s ∧ ¬ s.Waits m.calls ∧
    answersTo m.calls s.history = 1 := by
  have h : (Transition.run State.step init connect).any (fun m =>
      (m.step (.getContext (str "xhs"))).any fun t =>
        (Transition.run State.step t (answerChain 1)).any fun s => ¬ s.Waits m.calls ∧
          issuedCount s.history < 2 ^ 31 ∧
          Transition.Along State.step (State.Once m.calls) t (answerChain 1) ∧
          Transition.Along State.step (State.Accepts m.calls) t (answerChain 1)) = true := by
    decide +kernel
  obtain ⟨m, hm, h⟩ := Option.any_eq_true _ _ |>.mp h
  obtain ⟨t, ht, h⟩ := Option.any_eq_true _ _ |>.mp h
  obtain ⟨s, hs, h⟩ := Option.any_eq_true _ _ |>.mp h
  simp only [decide_eq_true_eq] at h
  obtain ⟨hw, hn, honce, hacc⟩ := h
  exact ⟨m, t, s, hm, ht, hs, hw, (requests_complete_once_iff hm rfl ht hs hn honce).mpr hacc
    (answerChain 1) s (List.prefix_refl _) hs hw⟩

/-- Chrome accepts the target and the session, but not the script. -/
def refusedScript : List Label :=
  arrive (okMessage 1 (targetResult ⟨str "T", Eq.refl true⟩)) ++ [.next] ++
    arrive (okMessage 2 (sessionResult ⟨str "S", Eq.refl true⟩)) ++ [.next] ++
    arrive (errorMessage 3 ⟨str "Internal error", Eq.refl true⟩)

theorem refused_script_is_silent : ¬ ∀ (ks ls : List Label) (l : Label) (m t s : State),
    Transition.run State.step init ks = some m → l.isRequest = true → m.step l = some t →
    Transition.run State.step t ls = some s → issuedCount s.history < 2 ^ 31 →
    Transition.Along State.step (State.Once m.calls) t ls → ¬ s.Waits m.calls →
    answersTo m.calls s.history = 1 := by
  have h : (Transition.run State.step init connect).any (fun m =>
      (m.step (.getContext (str "xhs"))).any fun t =>
        (Transition.run State.step t refusedScript).any fun s => ¬ s.Waits m.calls ∧
          issuedCount s.history < 2 ^ 31 ∧
          Transition.Along State.step (State.Once m.calls) t refusedScript ∧
          answersTo m.calls s.history = 0) = true := by
    decide +kernel
  obtain ⟨m, hm, h⟩ := Option.any_eq_true _ _ |>.mp h
  obtain ⟨t, ht, h⟩ := Option.any_eq_true _ _ |>.mp h
  obtain ⟨s, hs, h⟩ := Option.any_eq_true _ _ |>.mp h
  simp only [decide_eq_true_eq] at h
  obtain ⟨hw, hn, honce, h0⟩ := h
  intro hall
  have h1 := hall connect refusedScript (.getContext (str "xhs")) m t s hm rfl ht hs hn honce hw
  omega

end LynneSocial.Browser
