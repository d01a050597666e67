import LynneSocial.Browser.Stream
import LynneSocial.Browser.Waits

/-!
# Commands that cannot be written

`send_command` registers the callbacks before it writes the message. A message
with a string that is not UTF-8 cannot be written: with an open connection the
call throws behind the registration, and otherwise the message waits in the
queue, where it stops the Open handler.
-/
namespace LynneSocial.Browser

variable {s t : State}

/-- `pending_` and `pending_commands_` are the same. -/
def SameTables (s t : State) : Prop :=
  (∀ id, t.pending.lookup id = s.pending.lookup id) ∧ t.pendingCommands = s.pendingCommands

/-- The loop turns to the Open event. -/
def State.opensNext (s : State) : Bool :=
  match s.stack with
  | .draining (.open _ :: _) :: _ => true
  | _ => false

/-- A call that throws leaves the tables alone, and the Open handler sends what can be written. -/
def Atomic (s : State) : Label → Prop
  | .sendCommand method params sessionId =>
    let r := (s.enter .operation).sendCommand method params (.command s.calls) sessionId
    r.2 = .raise → SameTables s r.1
  | .next =>
    s.opensNext = true → ∀ t, s.step .next = some t →
      t.sentCommands = s.sentCommands ++ s.pendingCommands.filter Command.dumpable ++ [pageEnable s.cmdId]
  | _ => True

/-- Nothing that cannot be written is sent at once or waits for the Open event. -/
def Serialisable (s : State) : Label → Prop
  | .sendCommand method params sessionId =>
    s.wsReady = false ∨ (Command.mk s.cmdId method params sessionId).dumpable = true
  | .next => s.opensNext = true → ∀ cmd ∈ s.pendingCommands, cmd.dumpable = true
  | _ => True

instance (s : State) : ∀ l : Label, Decidable (Serialisable s l)
  | .sendCommand _ _ _ => inferInstanceAs (Decidable (_ ∨ _))
  | .next => inferInstanceAs (Decidable (_ → ∀ cmd ∈ s.pendingCommands, _))
  | .getContext _ | .saveSession _ | .restoreSession _ _ | .close _ | .command _ _ | .act _ _ | .pressKey _ _
  | .waitForSelector _ _ _ | .after _ | .onEvent _ _ | .removeEvent _ _ | .start | .stop | .healthCheck | .ret
  | .throw | .wake | .swap | .fire _ | .workDone _ | .stopReturn | .opened | .received _ | .failed | .closed
  | .post | .fork _ | .launched _ _ | .exit _ | .tick => .isTrue trivial

theorem sendCommand_raises {method sessionId : Str} {params : Json} {r : PendingRequest} :
    (s.sendCommand method params r sessionId).2 = .raise ↔
      s.wsReady = true ∧ (Command.mk s.cmdId method params sessionId).dumpable = false := by
  unfold State.sendCommand
  change (if s.wsReady = true then _ else _ : State × Ctl).2 = .raise ↔ _
  split
  · split <;> simp [*]
  · simp [*]

/-- What a call that throws leaves behind: its own entry. -/
theorem sendCommand_thrown {method sessionId : Str} {params : Json} {r : PendingRequest}
    (h : (s.sendCommand method params r sessionId).2 = .raise) :
    (s.sendCommand method params r sessionId).1 = s.issue r := by
  obtain ⟨hready, hd⟩ := sendCommand_raises.mp h
  unfold State.sendCommand
  dsimp only
  rw [if_pos (show (s.issue r).wsReady = true from hready), if_neg (by simp [hd])]

/-- In every state: a call changes the tables if it throws, unless it is given the very functions
that are registered under the next id. -/
theorem sendCommand_atomic_iff {method sessionId : Str} {params : Json} {r : PendingRequest} :
    ((s.sendCommand method params r sessionId).2 = .raise →
      SameTables s (s.sendCommand method params r sessionId).1) ↔
    s.wsReady = false ∨ (Command.mk s.cmdId method params sessionId).dumpable = true ∨
      s.pending.lookup s.cmdId = some r := by
  by_cases h : (s.sendCommand method params r sessionId).2 = .raise
  · obtain ⟨hready, hd⟩ := sendCommand_raises.mp h
    rw [sendCommand_thrown h]
    simp only [h, true_implies, hready, hd, Bool.true_eq_false, Bool.false_eq_true, false_or]
    constructor
    · rintro ⟨hp, -⟩
      have := hp s.cmdId
      rw [issue_lookup, if_pos rfl] at this
      exact this.symm
    · intro hl
      refine ⟨fun id => ?_, rfl⟩
      rw [issue_lookup]
      split
      · subst id
        exact hl.symm
      · rfl
  · refine iff_of_true (fun hr => absurd hr h) ?_
    rw [sendCommand_raises, not_and_or, Bool.not_eq_true, Bool.not_eq_false] at h
    exact h.imp_right .inl

/-- The functions of a new call are not registered yet. -/
theorem send_atomic_iff {method sessionId : Str} {params : Json} (h : Untold s) :
    Atomic s (.sendCommand method params sessionId) ↔ Serialisable s (.sendCommand method params sessionId) := by
  refine sendCommand_atomic_iff.trans ?_
  have hnew : (s.enter .operation).pending.lookup (s.enter .operation).cmdId ≠ some (.command s.calls) :=
    fun hl => (h.own s.calls le_rfl).callers _ _ hl rfl
  rw [or_iff_left (b := _ = some _) hnew]
  rfl

theorem sentCommands_flushed (s : State) (cmds : List Command) :
    (s.flushed cmds).sentCommands = s.sentCommands ++ cmds := by
  simp [State.sentCommands, State.flushed, List.map_reverse, Function.comp_def]

theorem pageEnable_dumpable (id : ℤ) : (pageEnable id).dumpable = true := Command.dumpable_of rfl rfl rfl

theorem onOpen_sentCommands (s : State) (conn : ℕ) : (s.onOpen conn).sentCommands =
    if s.pendingCommands.all Command.dumpable then s.sentCommands ++ s.pendingCommands ++ [pageEnable s.cmdId]
    else s.sentCommands ++ s.pendingCommands.takeWhile Command.dumpable := by
  have hopening : (s.opening conn).sentCommands =
      s.sentCommands ++ s.pendingCommands.takeWhile Command.dumpable := sentCommands_flushed _ _
  rw [State.onOpen_eq]
  split
  · rename_i h
    rw [sendCommand_ready rfl (pageEnable_dumpable _), sentCommands_sendText]
    have hall : s.pendingCommands.takeWhile Command.dumpable = s.pendingCommands :=
      List.takeWhile_eq_self_iff.mpr (List.all_eq_true.mp h)
    rw [hall] at hopening
    exact congrArg (· ++ [pageEnable s.cmdId]) hopening
  · exact hopening

/-- One message that cannot be written keeps `Page.enable` back. -/
theorem open_atomic_iff (s : State) : Atomic s .next ↔ Serialisable s .next := by
  unfold Atomic Serialisable
  refine forall_congr' fun hopen => ?_
  obtain ⟨conn, batch, rest, hst⟩ : ∃ conn batch rest, s.stack = .draining (.open conn :: batch) :: rest := by
    unfold State.opensNext at hopen
    split at hopen
    · exact ⟨_, _, _, ‹_›⟩
    · cases hopen
  have hstep : s.step .next = some (({ s with stack := .draining batch :: rest } : State).onOpen conn) := by
    simp [State.step, hst, State.runTask]
  have hsent := onOpen_sentCommands { s with stack := .draining batch :: rest } conn
  simp only [hstep, Option.some.injEq, forall_eq', hsent]
  by_cases hall : ∀ cmd ∈ s.pendingCommands, cmd.dumpable = true
  · rw [if_pos (List.all_eq_true.mpr hall)]
    refine iff_of_true ?_ hall
    rw [List.filter_eq_self.mpr hall]
    rfl
  · rw [if_neg fun h => hall (List.all_eq_true.mp h)]
    refine iff_of_false (fun heq => ?_) hall
    have hle : (s.pendingCommands.takeWhile Command.dumpable).length ≤
        (s.pendingCommands.filter Command.dumpable).length := by
      have hsub := (List.takeWhile_sublist Command.dumpable (l := s.pendingCommands)).filter Command.dumpable
      rw [List.filter_eq_self.mpr fun cmd hcmd => List.mem_takeWhile_imp hcmd] at hsub
      exact hsub.length_le
    have hlen := congrArg List.length heq
    simp only [List.length_append, List.length_singleton] at hlen
    change s.sentCommands.length + _ = s.sentCommands.length + _ + 1 at hlen
    omega

/-- A call of `send_command` that throws, and a queue that is handed over, leave the tables as the
caller expects exactly when no message holds a string that is not UTF-8. -/
theorem send_command_atomic_iff {ls : List Label} (hr : Transition.run State.step init ls = some s) :
    (∀ l, Atomic s l ↔ Serialisable s l) ∧
      (Transition.Along State.step Atomic init ls ↔ Transition.Along State.step Serialisable init ls) := by
  have hat : ∀ {s : State}, Untold s → ∀ l, Atomic s l ↔ Serialisable s l := by
    intro s hs l
    cases l with
    | sendCommand method params sessionId => exact send_atomic_iff hs
    | next => exact open_atomic_iff s
    | _ => exact .rfl
  refine ⟨hat (run_untold hr), ?_⟩
  refine Transition.along_congr (D := fun _ _ => True) (I := fun u => Orderly u ∧ Untold u) ?_
    (fun s l _ h _ _ => hat h.2 l) ⟨.init, .init⟩ (Transition.along_of_forall (fun _ _ => trivial) _) hr
  intro s l t h _ ht
  exact ⟨h.1.step ht, h.2.step (h.1.known.calls_le ht h.1.shape) h.1.shape ht⟩

/-- A command waits for the Open event. -/
def queuedRun : List Label :=
  [.start, .sendCommand (str "Browser.getVersion") .null []] ++ connect.tail

theorem send_command_atomic_sample : ∃ s, Transition.run State.step init queuedRun = some s ∧
    s.wsReady = true ∧ Transition.Along State.step Atomic init queuedRun := by
  have h : (Transition.run State.step init queuedRun).any (fun s => s.wsReady) = true := by decide +kernel
  obtain ⟨s, hs, h⟩ := Option.any_eq_true _ _ |>.mp h
  exact ⟨s, hs, h, (send_command_atomic_iff hs).2.mpr (by decide +kernel)⟩

/-- A method that is not UTF-8, sent with an open connection. -/
theorem thrown_send_registers : ¬ ∀ (ls : List Label) (s : State),
    Transition.run State.step init ls = some s → ∀ l, Atomic s l := by
  intro hall
  have h : (Transition.run State.step init connect).any (fun s =>
      ((s.enter .operation).sendCommand [255] .null (.command s.calls) []).2 = .raise ∧
        (s.pending.lookup s.cmdId).isNone ∧
        (((s.enter .operation).sendCommand [255] .null (.command s.calls) []).1.pending.lookup s.cmdId).isSome) =
      true := by decide +kernel
  obtain ⟨s, hs, h⟩ := Option.any_eq_true _ _ |>.mp h
  simp only [decide_eq_true_eq] at h
  obtain ⟨hraise, hnone, hsome⟩ := h
  have hsame := (hall connect s hs (.sendCommand [255] .null []) hraise).1 s.cmdId
  rw [hsame, Option.isSome_iff_ne_none] at hsome
  exact hsome (Option.isNone_iff_eq_none.mp hnone)

end LynneSocial.Browser
