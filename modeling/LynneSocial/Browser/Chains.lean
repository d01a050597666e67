import LynneSocial.Browser.ContextCache

/-!
# Chains

Where the target and the session of a context come from: every context was
created for a platform after the responses to that platform's own commands, and
if Chrome never answers with an id it has used before, no two contexts share a
target or a session.
-/
namespace LynneSocial.Browser

/-- The target a response to `Target.createTarget` names. -/
def PendingRequest.target? : PendingRequest → Reply → Option ValidStr
  | createTarget _ _, .ok result => result.strAt (str "targetId")
  | _, _ => none

/-- The session a response to `Target.attachToTarget` names. -/
def PendingRequest.session? : PendingRequest → Reply → Option ValidStr
  | attachToTarget _ _ _, .ok result => result.strAt (str "sessionId")
  | _, _ => none

def Event.target? : Event → Option ValidStr
  | .invoked _ r reply => r.target? reply
  | _ => none

def Event.session? : Event → Option ValidStr
  | .invoked _ r reply => r.session? reply
  | _ => none

/-- A response names no target and no session that an earlier one named. -/
def NamesNew (h : List Event) (r : PendingRequest) (reply : Reply) : Prop :=
  (∀ targetId ∈ r.target? reply, targetId ∉ h.filterMap Event.target?) ∧
    ∀ sessionId ∈ r.session? reply, sessionId ∉ h.filterMap Event.session?

instance (h : List Event) (r : PendingRequest) (reply : Reply) : Decidable (NamesNew h r reply) := by
  unfold NamesNew
  infer_instance

/-- Chrome answers with a new target and a new session. -/
def State.Fresh (s : State) (l : Label) : Prop :=
  ∀ msg ∈ s.incoming l, ∀ id ∈ msg.id?, ∀ r ∈ s.pending.lookup id, ∀ reply ∈ msg.reply,
    NamesNew s.history r reply

instance (s : State) (l : Label) : Decidable (s.Fresh l) := by
  unfold State.Fresh
  infer_instance

/-- The platform's own `Target.createTarget` was answered with the target. -/
def TargetAnswered (h : List Event) (platform : Str) (targetId : ValidStr) : Prop :=
  ∃ id k result, .invoked id (.createTarget platform k) (.ok result) ∈ h ∧
    result.strAt (str "targetId") = some targetId

/-- `Target.attachToTarget` for the target was answered with the session. -/
def SessionAnswered (h : List Event) (platform : Str) (targetId sessionId : ValidStr) : Prop :=
  ∃ id k result, .invoked id (.attachToTarget platform targetId k) (.ok result) ∈ h ∧
    result.strAt (str "sessionId") = some sessionId

theorem TargetAnswered.mem {h : List Event} {platform : Str} {targetId : ValidStr}
    (ha : TargetAnswered h platform targetId) : targetId ∈ h.filterMap Event.target? := by
  obtain ⟨id, k, result, hi, hres⟩ := ha
  exact List.mem_filterMap.mpr ⟨_, hi, hres⟩

theorem SessionAnswered.mem {h : List Event} {platform : Str} {targetId sessionId : ValidStr}
    (ha : SessionAnswered h platform targetId sessionId) :
    sessionId ∈ h.filterMap Event.session? := by
  obtain ⟨id, k, result, hi, hres⟩ := ha
  exact List.mem_filterMap.mpr ⟨_, hi, hres⟩

theorem TargetAnswered.mono {h h' : List Event} {platform : Str} {targetId : ValidStr}
    (ha : TargetAnswered h platform targetId) (hh : ∀ e ∈ h, e ∈ h') :
    TargetAnswered h' platform targetId := by
  obtain ⟨id, k, result, hi, hres⟩ := ha
  exact ⟨id, k, result, hh _ hi, hres⟩

theorem SessionAnswered.mono {h h' : List Event} {platform : Str} {targetId sessionId : ValidStr}
    (ha : SessionAnswered h platform targetId sessionId) (hh : ∀ e ∈ h, e ∈ h') :
    SessionAnswered h' platform targetId sessionId := by
  obtain ⟨id, k, result, hi, hres⟩ := ha
  exact ⟨id, k, result, hh _ hi, hres⟩

namespace State
variable {s t : State}

theorem sendCommand_done {method sessionId : Str} {params : Json} {r : PendingRequest}
    (h : (Command.mk s.cmdId method params sessionId).dumpable = true) :
    (s.sendCommand method params r sessionId).2 = .done := by
  unfold sendCommand
  simp only [h, if_true]
  split <;> rfl

/-- `pending_.erase(it)` and the way back to the loop. -/
def erased (s : State) (id : ℤ) (rest : List Frame) : State :=
  { s with pending := s.pending.erase id, stack := rest }

theorem finish_done {r : State × Ctl} {i : ℤ} {b : List Frame} (h : r.2 = .done)
    (hst : r.1.stack = .eraseIt i :: b) : finish r = r.1.erased i b := by
  unfold finish
  rw [h]
  unfold resume
  simp only [hst]
  rfl

theorem finish_raise {r : State × Ctl} {i : ℤ} {b : List Frame} (h : r.2 = .raise)
    (hst : r.1.stack = .eraseIt i :: b) :
    finish r = { r.1 with stack := b, history := .escaped i :: r.1.history } := by
  unfold finish
  rw [h]
  unfold unwind
  simp only [hst]

/-- The command that follows the response to `Target.createTarget`. -/
def attach (s : State) (platform : Str) (targetId : ValidStr) (k : Continuation) : State :=
  (s.sendCommand (str "Target.attachToTarget")
    (.object [(str "targetId", .str targetId), (str "flatten", .bool true)])
    (.attachToTarget platform targetId k) []).1

/-- The context and the two commands that follow the response to `Target.attachToTarget`. -/
def script (s : State) (platform : Str) (targetId sessionId : ValidStr) (k : Continuation) : State :=
  (({ s with heap := s.heap ++ [{ platform, targetId, sessionId }] } : State).sendCommand
    (str "Page.addScriptToEvaluateOnNewDocument") (.object [(str "source", .str stealth)])
    (.addScript platform s.heap.length k) sessionId).1

def enable (s : State) (sessionId : ValidStr) : State :=
  (s.sendCommand (str "Page.enable") .null .ignored sessionId).1

theorem attach_dumpable (id : ℤ) (targetId : ValidStr) :
    (Command.mk id (str "Target.attachToTarget")
      (.object [(str "targetId", .str targetId), (str "flatten", .bool true)]) []).dumpable = true := by
  refine Command.dumpable_of rfl (Json.object_dumpable ?_) rfl
  simp only [List.forall_mem_cons, List.not_mem_nil, false_imp_iff, implies_true, and_true]
  exact ⟨⟨rfl, targetId.2⟩, rfl, rfl⟩

theorem stealth_dumpable (id : ℤ) (sessionId : ValidStr) :
    (Command.mk id (str "Page.addScriptToEvaluateOnNewDocument")
      (.object [(str "source", .str stealth)]) sessionId).dumpable = true :=
  Command.dumpable_of rfl (single_dumpable rfl (by decide +kernel)) sessionId.2

theorem enable_dumpable (id : ℤ) (sessionId : ValidStr) :
    (Command.mk id (str "Page.enable") .null sessionId).dumpable = true :=
  Command.dumpable_of rfl rfl sessionId.2

theorem invoke_createTarget (s : State) (platform : Str) (k : Continuation) (result : Parsed) :
    s.invoke (.createTarget platform k) (.ok result) =
      match result.strAt (str "targetId") with
      | none => (s, .raise)
      | some targetId => (s.attach platform targetId k, .done) := by
  unfold invoke
  cases h : result.strAt (str "targetId") with
  | none => simp only [h]
  | some targetId =>
      simp only [h]
      exact Prod.ext rfl (sendCommand_done (attach_dumpable _ targetId))

theorem invoke_attachToTarget (s : State) (platform : Str) (targetId : ValidStr) (k : Continuation)
    (result : Parsed) :
    s.invoke (.attachToTarget platform targetId k) (.ok result) =
      match result.strAt (str "sessionId") with
      | none => (s, .raise)
      | some sessionId => ((s.script platform targetId sessionId k).enable sessionId, .done) := by
  unfold invoke
  cases h : result.strAt (str "sessionId") with
  | none => simp only [h]
  | some sessionId =>
      simp only [h]
      rw [if_neg (by rw [sendCommand_done (stealth_dumpable _ sessionId)]; simp)]
      exact Prod.ext rfl (sendCommand_done (enable_dumpable _ sessionId))

theorem attach_stack (platform : Str) (targetId : ValidStr) (k : Continuation) :
    (s.attach platform targetId k).stack = s.stack := sendCommand_stack _ _ _ _ _

theorem enable_stack (sessionId : ValidStr) : (s.enable sessionId).stack = s.stack :=
  sendCommand_stack _ _ _ _ _

theorem script_stack (platform : Str) (targetId sessionId : ValidStr) (k : Continuation) :
    (s.script platform targetId sessionId k).stack = s.stack := sendCommand_stack _ _ _ _ _

/-- The response to a command of a pending entry. -/
theorem onWsMessage_response {msg : Parsed} {id : ℤ} {r : PendingRequest} {reply : Reply}
    (hid : msg.id? = some id) (hr : s.pending.lookup id = some r) (hreply : msg.reply = some reply) :
    s.onWsMessage (some msg) = finish (((s.log (.handling msg)).calling id r reply).invoke r reply) := by
  have hl : (s.log (.handling msg)).pending.lookup id = some r := hr
  unfold onWsMessage onResponse
  simp only [contains_of_id hid, hid, hl, hreply]
  rfl

end State

/-- What the constructor of a context was given. -/
def State.identAt (s : State) (c : ℕ) : Option (Str × ValidStr × ValidStr) :=
  s.heap[c]?.map fun x => (x.platform, x.targetId, x.sessionId)

/-- Contexts and pending `Target.attachToTarget` commands come from answers, and no two of them
from the same one. -/
structure Chains (s : State) : Prop where
  target : ∀ c p T S, s.identAt c = some (p, T, S) → TargetAnswered s.history p T
  session : ∀ c p T S, s.identAt c = some (p, T, S) → SessionAnswered s.history p T S
  attach : ∀ id p T k, s.pending.lookup id = some (.attachToTarget p T k) →
    TargetAnswered s.history p T
  unused : ∀ id p T k, s.pending.lookup id = some (.attachToTarget p T k) →
    ∀ c p' S, s.identAt c ≠ some (p', T, S)
  unique : ∀ id id' p p' T k k', s.pending.lookup id = some (.attachToTarget p T k) →
    s.pending.lookup id' = some (.attachToTarget p' T k') → id = id'
  target_inj : ∀ c d p q T S S', s.identAt c = some (p, T, S) → s.identAt d = some (q, T, S') → c = d
  session_inj : ∀ c d p q T T' S, s.identAt c = some (p, T, S) → s.identAt d = some (q, T', S) → c = d

variable {ρ : Rules} {s t : State}

theorem Chains.frame (h : Chains s)
    (hp : ∀ id p T k, t.pending.lookup id = some (.attachToTarget p T k) →
      s.pending.lookup id = some (.attachToTarget p T k))
    (hx : ∀ c, t.identAt c = s.identAt c) (hh : ∀ e ∈ s.history, e ∈ t.history) : Chains t where
  target c p T S hc := (h.target c p T S (hx c ▸ hc)).mono hh
  session c p T S hc := (h.session c p T S (hx c ▸ hc)).mono hh
  attach id p T k hl := (h.attach id p T k (hp id p T k hl)).mono hh
  unused id p T k hl c p' S hc := h.unused id p T k (hp id p T k hl) c p' S (hx c ▸ hc)
  unique id id' p p' T k k' hl hl' := h.unique id id' p p' T k k' (hp _ _ _ _ hl) (hp _ _ _ _ hl')
  target_inj c d p q T S S' hc hd := h.target_inj c d p q T S S' (hx c ▸ hc) (hx d ▸ hd)
  session_inj c d p q T T' S hc hd := h.session_inj c d p q T T' S (hx c ▸ hc) (hx d ▸ hd)

theorem Calm.history_mem (h : Calm s t) : ∀ e ∈ s.history, e ∈ t.history := by
  obtain ⟨es, -, hh⟩ := h.history
  intro e he
  rw [hh]
  exact List.mem_append_right _ he

theorem Chains.calm (h : Chains s) (hc : Calm s t) : Chains t :=
  h.frame (by simp [hc.pending]) (by simp [State.identAt, hc.heap]) hc.history_mem

theorem issue_lookup_attach {r : PendingRequest} (hr : ∀ p T k, r ≠ .attachToTarget p T k) {id : ℤ}
    {p : Str} {T : ValidStr} {k : Continuation}
    (h : (s.issue r).pending.lookup id = some (.attachToTarget p T k)) :
    s.pending.lookup id = some (.attachToTarget p T k) := by
  rw [issue_lookup] at h
  split at h
  · cases h
    exact absurd rfl (hr p T k)
  · exact h

theorem Chains.send (h : Chains s) (method : Str) (params : Json) {r : PendingRequest}
    (sessionId : Str) (hr : ∀ p T k, r ≠ .attachToTarget p T k) :
    Chains (s.sendCommand method params r sessionId).1 := by
  refine Chains.calm ?_ (s.sendCommand_calm method params r sessionId)
  exact h.frame (fun _ _ _ _ hl => issue_lookup_attach hr hl) (fun _ => rfl)
    fun _ he => List.mem_cons_of_mem _ he

/-- Commands that carry a target on are looked at on their own. -/
def noLinks : Rules where
  send _ _ r := r.isLink = false

theorem Chains.act (h : Chains s) (ha : Act noLinks s t) : Chains t := by
  cases ha with
  | enter kind => exact h.frame (fun _ _ _ _ hl => hl) (fun _ => rfl) fun _ he => List.mem_cons_of_mem _ he
  | send method params r sessionId hr hlk =>
      refine h.send method params sessionId fun p T k => ?_
      rintro rfl
      cases hlk
  | create platform targetId sid k method params sessionId hlk => cases hlk
  | answer c a => exact h.frame (fun _ _ _ _ hl => hl) (fun _ => rfl) fun _ he => List.mem_cons_of_mem _ he
  | handOut => exact h.frame (fun _ _ _ _ hl => hl) (fun _ => rfl) fun _ he => List.mem_cons_of_mem _ he
  | deliver platform c n =>
      refine h.frame (fun _ _ _ _ hl => hl) (fun _ => map_getElem?_modify _ _ _ fun _ => rfl) ?_
      exact fun _ he => List.mem_cons_of_mem _ (List.mem_cons_of_mem _ he)
  | close c =>
      exact h.frame (fun _ _ _ _ hl => hl) (fun _ => map_getElem?_modify _ _ _ fun _ => rfl)
        fun _ he => he
  | user => exact h.frame (fun _ _ _ _ hl => hl) (fun _ => rfl) fun _ he => he
  | read c => exact h.calm (s.readContext_calm c)
  | wait => exact h.frame (fun _ _ _ _ hl => hl) (fun _ => rfl) fun _ he => he
  | aside _ hb => exact h.calm hb.calm

theorem Chains.parts (h : Chains s) (hp : Parts noLinks s t) : Chains t :=
  Parts.invariant (fun _ _ h ha => Chains.act h ha) (fun _ _ h hb => Chains.calm h hb.calm) hp h

theorem Chains.settle (h : Chains s) (hs : Settles s t) : Chains t := by
  cases hs with
  | stay => exact h
  | erase id rest =>
      refine h.frame (fun id' p T k hl => ?_) (fun _ => rfl) fun _ he => he
      have hl : AList.lookup id' (AList.erase id s.pending) = some (.attachToTarget p T k) := hl
      rw [StdMap.lookup_erase_eq_ite] at hl
      split at hl
      · cases hl
      · exact hl
  | escape id rest =>
      exact h.frame (fun _ _ _ _ hl => hl) (fun _ => rfl) fun _ he => List.mem_cons_of_mem _ he

theorem Keeps.history_mem (h : Keeps s t) : ∀ e ∈ s.history, e ∈ t.history := by
  obtain ⟨es, -, hh⟩ := h.history
  intro e he
  rw [hh]
  exact List.mem_append_right _ he

theorem Touches.identAt {r : PendingRequest} {reply : Reply} (h : Touches r reply s t) (c : ℕ) :
    t.identAt c = s.identAt c := by
  cases h with
  | plain => rfl
  | cache p d k result =>
      change (s.resetContext p d).identAt c = _
      unfold State.identAt
      rw [State.resetContext_heap]
      split
      · exact map_getElem?_modify _ _ _ fun _ => rfl
      · rfl
  | reject p d k text => exact map_getElem?_modify _ _ _ fun _ => rfl
  | remove d call result =>
      have hread : (s.readContext d).identAt c = s.identAt c := by
        simp only [State.identAt, (s.readContext_calm d).heap]
      rw [← hread]
      unfold State.removeContext
      split
      · exact map_getElem?_modify _ _ _ fun _ => rfl
      · rfl

theorem Chains.touch {r : PendingRequest} {reply : Reply} (h : Chains s) (ht : Touches r reply s t) :
    Chains t :=
  h.frame (fun _ _ _ _ hl => ht.keeps.pending ▸ hl) ht.identAt ht.keeps.history_mem

theorem clearContexts_identAt (s : State) (c : ℕ) : s.clearContexts.identAt c = s.identAt c := by
  have hx : ∀ (es : List (Sigma fun _ : Str => ℕ)) (u : State),
      (es.foldl (fun u e => u.destroy e.2) u).identAt c = u.identAt c := by
    intro es
    induction es with
    | nil => exact fun _ => rfl
    | cons e es ih =>
        intro u
        rw [List.foldl_cons, ih]
        exact map_getElem?_modify _ _ _ fun _ => rfl
  exact hx _ s

theorem Chains.session_step {l : Label} (h : Chains s) (ht : s.Turns l t) : Chains t := by
  cases ht with
  | startAgain => exact h
  | stop => exact h.frame (fun _ _ _ _ hl => hl) (clearContexts_identAt s) fun _ he => he
  | openTask conn batch hst =>
      have ho : Chains (({ s with stack := [.draining batch] } : State).opening conn) :=
        h.frame (fun _ _ _ _ hl => hl) (fun _ => rfl) fun _ he => List.mem_cons_of_mem _ he
      rw [State.onOpen_eq]
      split
      · have he : Chains (({ s with stack := [.draining batch] } : State).opening conn).emptied :=
          ho.frame (fun _ _ _ _ hl => hl) (fun _ => rfl) fun _ he => he
        exact he.send _ _ _ (by simp)
      · exact ho
  | start => exact h.frame (fun _ _ _ _ hl => hl) (fun _ => rfl) fun _ he => List.mem_cons_of_mem _ he
  | connect => exact h.frame (fun _ _ _ _ hl => hl) (fun _ => rfl) fun _ he => List.mem_cons_of_mem _ he
  | stopIdle => exact h.frame (fun _ _ _ _ hl => hl) (fun _ => rfl) fun _ he => List.mem_cons_of_mem _ he
  | stopReturn => exact h.frame (fun _ _ _ _ hl => hl) (fun _ => rfl) fun _ he => List.mem_cons_of_mem _ he
  | _ => exact h.frame (fun _ _ _ _ hl => hl) (fun _ => rfl) fun _ he => he

/-- A target that no entry and no context has. -/
structure NewTarget (s : State) (T : ValidStr) : Prop where
  entry : ∀ id p k, s.pending.lookup id ≠ some (.attachToTarget p T k)
  context : ∀ c p S, s.identAt c ≠ some (p, T, S)

theorem Chains.newTarget (h : Chains s) {T : ValidStr} (hT : T ∉ s.history.filterMap Event.target?) :
    NewTarget s T :=
  ⟨fun id p k hl => hT (h.attach id p T k hl).mem, fun c p S hc => hT (h.target c p T S hc).mem⟩

theorem Chains.attached (h : Chains s) {p : Str} {T : ValidStr} (k : Continuation)
    (ha : TargetAnswered s.history p T) (hT : NewTarget s T) : Chains (s.attach p T k) := by
  refine Chains.calm ?_ (s.sendCommand_calm _ _ _ _)
  have hcase : ∀ id p' T' k', (s.issue (.attachToTarget p T k)).pending.lookup id =
      some (.attachToTarget p' T' k') → (id = s.cmdId ∧ p' = p ∧ T' = T) ∨
        s.pending.lookup id = some (.attachToTarget p' T' k') := by
    intro id p' T' k' hl
    rw [issue_lookup] at hl
    split at hl
    · cases hl
      exact .inl ⟨‹_›, rfl, rfl⟩
    · exact .inr hl
  have hmem : ∀ e ∈ s.history, e ∈ (s.issue (.attachToTarget p T k)).history :=
    fun _ he => List.mem_cons_of_mem _ he
  refine ⟨fun c q U S hc => (h.target c q U S hc).mono hmem,
    fun c q U S hc => (h.session c q U S hc).mono hmem, ?_, ?_, ?_, h.target_inj, h.session_inj⟩
  · intro id p' T' k' hl
    rcases hcase id p' T' k' hl with ⟨-, rfl, rfl⟩ | hl
    · exact ha.mono hmem
    · exact (h.attach id p' T' k' hl).mono hmem
  · intro id p' T' k' hl c q S
    rcases hcase id p' T' k' hl with ⟨-, -, rfl⟩ | hl
    · exact hT.context c q S
    · exact h.unused id p' T' k' hl c q S
  · intro id id' p₁ p₂ U k₁ k₂ hl₁ hl₂
    rcases hcase _ _ _ _ hl₁ with ⟨rfl, -, rfl⟩ | hs₁
    · rcases hcase _ _ _ _ hl₂ with ⟨rfl, -, -⟩ | hs₂
      · rfl
      · exact absurd hs₂ (hT.entry _ _ _)
    · rcases hcase _ _ _ _ hl₂ with ⟨-, -, rfl⟩ | hs₂
      · exact absurd hs₁ (hT.entry _ _ _)
      · exact h.unique _ _ _ _ _ _ _ hs₁ hs₂

theorem script_lookup {p : Str} {T S : ValidStr} {k : Continuation} {id id' : ℤ} {rest : List Frame}
    {r : PendingRequest} (hr : r.isLink = true) (hs : r.context? = none)
    (hl : (((s.script p T S k).enable S).erased id rest).pending.lookup id' = some r) :
    id' ≠ id ∧ s.pending.lookup id' = some r := by
  have hl : AList.lookup id' (AList.erase id ((s.script p T S k).enable S).pending) = some r := hl
  rw [StdMap.lookup_erase_eq_ite] at hl
  split at hl
  · cases hl
  · rename_i hne
    refine ⟨hne, ?_⟩
    unfold State.enable at hl
    rw [(State.sendCommand_calm _ _ _ _ _).pending, issue_lookup] at hl
    split at hl
    · cases hl
      cases hr
    · unfold State.script at hl
      rw [(State.sendCommand_calm _ _ _ _ _).pending, issue_lookup] at hl
      split at hl
      · cases hl
        cases hs
      · exact hl

theorem script_heap (p : Str) (T S : ValidStr) (k : Continuation) :
    ((s.script p T S k).enable S).heap =
      s.heap ++ [{ platform := p, targetId := T, sessionId := S }] := by
  unfold State.enable
  rw [(State.sendCommand_calm _ _ _ _ _).heap]
  unfold State.script
  exact (State.sendCommand_calm _ _ _ _ _).heap

theorem script_identAt {p : Str} {T S : ValidStr} {k : Continuation} {id : ℤ} {rest : List Frame}
    (c : ℕ) : (((s.script p T S k).enable S).erased id rest).identAt c =
      if c = s.heap.length then some (p, T, S) else s.identAt c := by
  unfold State.identAt State.erased
  dsimp only
  rw [script_heap, List.getElem?_append]
  split
  · rw [if_neg (by omega)]
  · split
    · simp [*]
    · rw [List.getElem?_eq_none (by simp; omega), List.getElem?_eq_none (by omega)]

theorem script_history {p : Str} {T S : ValidStr} {k : Continuation} {id : ℤ} {rest : List Frame} :
    ∀ e ∈ s.history, e ∈ (((s.script p T S k).enable S).erased id rest).history := by
  intro e he
  apply (State.sendCommand_calm (s.script p T S k) (str "Page.enable") .null .ignored S).history_mem
  apply List.mem_cons_of_mem
  apply (State.sendCommand_calm _ _ _ _ _).history_mem
  exact List.mem_cons_of_mem _ he

/-- The entry of the response is gone when its target has become a context. -/
theorem Chains.scripted (h : Chains s) {id : ℤ} {p : Str} {T S : ValidStr} {k : Continuation}
    (rest : List Frame) (hl : s.pending.lookup id = some (.attachToTarget p T k))
    (ha : SessionAnswered s.history p T S) (hS : ∀ c q U, s.identAt c ≠ some (q, U, S)) :
    Chains (((s.script p T S k).enable S).erased id rest) := by
  have hT := h.unused id p T k hl
  refine ⟨?_, ?_, ?_, ?_, ?_, ?_, ?_⟩
  · intro c q U R hc
    rw [script_identAt] at hc
    split at hc
    · cases hc
      exact (h.attach id _ _ k hl).mono script_history
    · exact (h.target c q U R hc).mono script_history
  · intro c q U R hc
    rw [script_identAt] at hc
    split at hc
    · cases hc
      exact ha.mono script_history
    · exact (h.session c q U R hc).mono script_history
  · intro id' q U k' hl'
    exact (h.attach id' q U k' (script_lookup rfl rfl hl').2).mono script_history
  · intro id' q U k' hl' c q' R hc
    obtain ⟨hne, hl'⟩ := script_lookup rfl rfl hl'
    rw [script_identAt] at hc
    split at hc
    · cases hc
      exact hne (h.unique _ _ _ _ _ _ _ hl' hl)
    · exact h.unused id' q U k' hl' c q' R hc
  · intro i j q q' U k₁ k₂ h₁ h₂
    exact h.unique i j q q' U k₁ k₂ (script_lookup rfl rfl h₁).2 (script_lookup rfl rfl h₂).2
  · intro c d q q' U R R' hc hd
    rw [script_identAt] at hc hd
    split at hc
    · split at hd
      · omega
      · cases hc
        exact absurd hd (hT d q' R')
    · split at hd
      · cases hd
        exact absurd hc (hT c q R)
      · exact h.target_inj c d q q' U R R' hc hd
  · intro c d q q' U U' R hc hd
    rw [script_identAt] at hc hd
    split at hc
    · split at hd
      · omega
      · cases hc
        exact absurd hd (hS d q' U')
    · split at hd
      · cases hd
        exact absurd hc (hS c q U)
      · exact h.session_inj c d q q' U U' R hc hd

theorem Chains.calling (h : Chains s) (id : ℤ) (r : PendingRequest) (reply : Reply) :
    Chains (s.calling id r reply) :=
  h.frame (fun _ _ _ _ hl => hl) (fun _ => rfl) fun _ he => List.mem_cons_of_mem _ he

theorem Chains.log (h : Chains s) (e : Event) : Chains (s.log e) :=
  h.frame (fun _ _ _ _ hl => hl) (fun _ => rfl) fun _ he => List.mem_cons_of_mem _ he

theorem calling_history (msg : Parsed) (id : ℤ) (r : PendingRequest) (reply : Reply) :
    ((s.log (.handling msg)).calling id r reply).history =
      .invoked id r reply :: .handling msg :: s.history := rfl

/-- The response that names a target: nothing else happens, or the target is attached to. -/
theorem Chains.create {msg : Parsed} {id : ℤ} {p : Str} {k : Continuation} {result : Parsed}
    (h : Chains s) (hid : msg.id? = some id)
    (hr : s.pending.lookup id = some (.createTarget p k)) (hreply : msg.reply = some (.ok result))
    (hnew : NamesNew s.history (.createTarget p k) (.ok result)) : Chains (s.onWsMessage (some msg)) := by
  set u := (s.log (.handling msg)).calling id (.createTarget p k) (.ok result) with hu
  have hcu : Chains u := (h.log _).calling _ _ _
  rw [State.onWsMessage_response hid hr hreply, State.invoke_createTarget]
  cases hT : result.strAt (str "targetId") with
  | none => exact hcu.settle (State.finish_settles (u, .raise))
  | some T =>
      refine Chains.settle (hcu.attached k ⟨id, k, result, by simp [hu, calling_history], hT⟩ ?_)
        (State.finish_settles (u.attach p T k, .done))
      have hnt := h.newTarget (hnew.1 T hT)
      exact ⟨hnt.entry, hnt.context⟩

/-- The response that names a session. -/
theorem Chains.attachTo {msg : Parsed} {id : ℤ} {p : Str} {T : ValidStr} {k : Continuation}
    {result : Parsed} (h : Chains s) (hid : msg.id? = some id)
    (hr : s.pending.lookup id = some (.attachToTarget p T k))
    (hreply : msg.reply = some (.ok result))
    (hnew : NamesNew s.history (.attachToTarget p T k) (.ok result)) :
    Chains (s.onWsMessage (some msg)) := by
  set u := (s.log (.handling msg)).calling id (.attachToTarget p T k) (.ok result) with hu
  have hcu : Chains u := (h.log _).calling _ _ _
  rw [State.onWsMessage_response hid hr hreply, State.invoke_attachToTarget]
  cases hS : result.strAt (str "sessionId") with
  | none => exact hcu.settle (State.finish_settles (u, .raise))
  | some S =>
      dsimp only
      rw [State.finish_done (i := id) (b := s.stack) rfl
        (by rw [State.enable_stack, State.script_stack]; rfl)]
      refine hcu.scripted s.stack hr ⟨id, k, result, by simp [hu, calling_history], hS⟩ ?_
      exact fun c q U hc => hnew.2 S hS (h.session c q U S hc).mem

/-- A response carries a target on, or it does not; then what it does to the cache comes first. -/
theorem onWsMessage_links (s : State) (msg : Parsed) :
    Parts noLinks (s.log (.handling msg)) (s.onWsMessage (some msg)) ∨
    (∃ id r result, msg.id? = some id ∧ s.pending.lookup id = some r ∧
      msg.reply = some (.ok result) ∧ r.opensLink = true) ∨
    ∃ id r reply u v, msg.id? = some id ∧ s.pending.lookup id = some r ∧ msg.reply = some reply ∧
      (r.opensLink = false ∨ reply.isOk = false) ∧
      Touches r reply ((s.log (.handling msg)).calling id r reply) u ∧ Acts noLinks u v ∧
      Settles v (s.onWsMessage (some msg)) := by
  rcases s.onWsMessage_cases (ρ := noLinks) msg with ⟨hm, -⟩ | ⟨id, r, reply, hid, hr, hreply, heq⟩
  · exact .inl hm
  · refine .inr ?_
    by_cases hlink : r.opensLink = false ∨ reply.isOk = false
    · refine .inr ?_
      have hfol : ∀ u : State, u.follows r reply = true → r.opensLink = false := by
        intro u hf
        refine hlink.elim (fun h => h) fun hok => ?_
        cases reply with
        | ok result => cases hok
        | error text => cases r <;> first | rfl | cases hf
      obtain ⟨u, hu, hv⟩ := ((s.log (.handling msg)).calling id r reply).invoke_cases (ρ := noLinks)
        r reply (fun _ _ => trivial) (fun _ => trivial) (fun _ _ => trivial)
        (fun hf cmd r' _ _ _ hlk _ => hlk.resolve_right (by simp [hfol _ hf]))
        (fun _ _ _ _ _ _ _ cmd r' _ _ _ hlk _ => hlk.resolve_right Bool.false_ne_true)
        (fun _ _ _ _ _ _ _ => trivial)
      refine ⟨id, r, reply, u, _, hid, hr, hreply, hlink, hu, hv, ?_⟩
      rw [heq]
      exact State.finish_settles _
    · push Not at hlink
      cases reply with
      | ok result => exact .inl ⟨id, r, result, hid, hr, hreply, by simpa using hlink.1⟩
      | error text => exact absurd rfl hlink.2

theorem Chains.message (h : Chains s) {msg : Parsed}
    (hnew : ∀ id ∈ msg.id?, ∀ r ∈ s.pending.lookup id, ∀ reply ∈ msg.reply,
      NamesNew s.history r reply) : Chains (s.onWsMessage (some msg)) := by
  rcases onWsMessage_links s msg with hm | ⟨id, r, result, hid, hr, hreply, hlink⟩ |
    ⟨id, r, reply, u, v, -, -, -, -, hu, hv, hvt⟩
  · exact (h.log _).parts hm
  · have hn := hnew id hid r hr _ hreply
    cases r with
    | createTarget p k => exact h.create hid hr hreply hn
    | attachToTarget p T k => exact h.attachTo hid hr hreply hn
    | _ => cases hlink
  · exact ((((h.log (.handling msg)).calling id r reply).touch hu).parts hv.parts).settle hvt

theorem Chains.step {l : Label} (h : Chains s) (hsh : Shape s.stack) (hC : s.Fresh l)
    (ht : s.step l = some t) : Chains t := by
  cases hl : s.ofSession l with
  | true => exact h.session_step (State.step_session ht hsh hl)
  | false =>
      have hpop : ∀ st, Chains { s with stack := st } := fun st =>
        h.frame (fun _ _ _ _ hl => hl) (fun _ => rfl) fun _ he => he
      rcases State.step_parts (ρ := noLinks) ht hsh hl (fun _ => trivial) (fun _ => trivial)
        (fun _ cmd r _ _ _ hlk _ => hlk.resolve_right Bool.false_ne_true) (fun _ _ _ _ => trivial)
        (fun _ _ _ _ => ⟨fun _ _ => trivial, fun _ cmd r _ _ _ hlk _ => hlk.resolve_right Bool.false_ne_true⟩)
        (fun _ _ => trivial) with
        hp | ⟨-, rest, hst, rfl⟩ | ⟨-, rest, hst, rfl⟩ | ⟨rfl, conn, msg, batch, hst, rfl⟩
      · exact h.parts hp
      · exact (hpop rest).settle (State.resume_settles _)
      · exact (hpop rest).settle (State.unwind_settles _)
      · exact (hpop _).message (hC msg (State.incoming_eq hst))

theorem Chains.init : Chains init := by
  refine ⟨?_, ?_, ?_, ?_, ?_, ?_, ?_⟩ <;> simp [LynneSocial.Browser.init, State.identAt]

end LynneSocial.Browser
