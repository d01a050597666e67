import LynneSocial.Browser.ContextCache
import Mathlib.Data.List.TakeWhile

/-!
# Orphaned commands

A command can be answered if its message was written to a connection that is
still open, or if it waits for the Open event of the session. `stop()`, a
connection that ends and `start()`, which drops the queue, leave the entries in
`pending_` alone: no command is orphaned as long as none is outstanding then, and
every command finds a way to Chrome when it is issued.
-/
namespace LynneSocial.Browser

variable {ρ : Rules} {s t u : State} {l : Label}

/-- The launch may still begin a connection. -/
def Launch.inFlight : Launch → Bool
  | .queued | .forked _ | .launched true => true
  | .launched false | .delivered => false

/-- The Open event that flushes the queue is still to come. -/
def Line.AwaitsOpen (l : Line) : Prop :=
  l.wsReady = false ∧ (l.launches.any Launch.inFlight = true ∨ l.ws.phase = .connecting ∨
    l.ws.phase = .open ∧ (l.queue ++ l.stack.flatMap Frame.batch).filter Task.isOpen ≠ [])

/-- A command that is sent now will reach Chrome, if it can be written. -/
def Line.Connects (l : Line) : Prop := l.AwaitsOpen ∨ l.wsReady = true ∧ l.ws.phase = .open

namespace State

/-- The message waits in `pending_commands_`. -/
def Queued (s : State) (id : ℤ) : Prop := ∃ cmd ∈ s.pendingCommands, cmd.id = id

/-- The message was handed to `sendText` on a connection that is still open. -/
def Delivered (s : State) (id : ℤ) : Prop :=
  s.ws.phase = .open ∧ ∃ m ∈ s.ws.sent, m.conn = s.ws.conns ∧ m.delivered = true ∧ m.command.id = id

/-- The command can still be answered. -/
def Answerable (s : State) (id : ℤ) : Prop := s.Queued id ∧ s.line.AwaitsOpen ∨ s.Delivered id

def NoOrphans (s : State) : Prop := ∀ id r, s.pending.lookup id = some r → s.Answerable id

/-- No command is outstanding but those that wait for a launch. -/
def Quits (s : State) : Prop :=
  ∀ e ∈ s.pending.entries, s.Queued e.1 ∧ s.wsReady = false ∧ s.launches.any Launch.inFlight = true

/-- No command waits for this launch alone. -/
def Spares (s : State) (i : ℕ) : Prop :=
  ∀ e ∈ s.pending.entries,
    s.Queued e.1 ∧ ({ s with launches := s.launches.set i .delivered } : State).line.AwaitsOpen ∨ s.Delivered e.1

/-- A command can be sent, and if the connection is open it can be written. -/
def CanSend (s : State) (text : Prop) : Prop := s.line.Connects ∧ (s.wsReady = true → text)

/-- No connection and no queue is given up while a command depends on it, and commands are issued
only where they will reach Chrome. -/
def Orderly (s : State) : Label → Prop
  | .start => s.started = false → ∀ e ∈ s.pending.entries, s.Delivered e.1
  | .stop => s.started = true → s.Quits
  | .closed | .failed => s.Quits
  | .launched i false => s.Spares i
  | .workDone i => s.ws.joinable = true → s.launches[i]? = some (.launched true) → s.Spares i
  | .next =>
    match s.stack with
    | .draining (.open _ :: _) :: _ => s.ws.phase = .open ∧ s.pendingCommands.all Command.dumpable = true
    | .draining (.check w :: _) :: _ => s.polls w = true → s.CanSend (s.pollsText w)
    | .draining (.message _ (some msg) :: _) :: _ =>
      ∀ id ∈ msg.id?, ∀ r ∈ s.pending.lookup id, ∀ reply ∈ msg.reply, s.follows r reply = true →
        s.CanSend (s.followsText r)
    | _ => True
  | l => s.issues l = true → s.CanSend l.encodes

end State

instance (l : Line) : Decidable l.AwaitsOpen := by
  unfold Line.AwaitsOpen
  infer_instance

instance (l : Line) : Decidable l.Connects := by
  unfold Line.Connects
  infer_instance

instance (l : Label) : Decidable l.encodes := by
  unfold Label.encodes
  split <;> infer_instance

namespace State

instance (s : State) (id : ℤ) : Decidable (s.Queued id) := by
  unfold Queued
  infer_instance

instance (s : State) (id : ℤ) : Decidable (s.Delivered id) := by
  unfold Delivered
  infer_instance

instance (s : State) : Decidable s.Quits := by
  unfold Quits
  infer_instance

instance (s : State) (i : ℕ) : Decidable (s.Spares i) := by
  unfold Spares
  infer_instance

instance (s : State) (w : ℕ) : Decidable (s.pollsText w) :=
  inferInstanceAs (Decidable (∀ x ∈ s.waiters[w]?, validUtf8 (existsScript x.selector) = true))

instance (s : State) (r : PendingRequest) : Decidable (s.followsText r) := by
  unfold followsText
  split <;> infer_instance

instance (s : State) (text : Prop) [Decidable text] : Decidable (s.CanSend text) := by
  unfold CanSend
  infer_instance

instance (s : State) (l : Label) : Decidable (s.Orderly l) := by
  unfold Orderly
  split
  case h_7 =>
    split <;> infer_instance
  all_goals infer_instance

end State

/-- Every command is sent where it reaches Chrome. -/
def reaching : Rules where
  send l cmd _ := l.Connects ∧ (l.wsReady = true → cmd.dumpable = true)

/-- The invariant; a connection that is not closed has its thread. -/
structure Reaches (s : State) : Prop where
  answerable : s.NoOrphans
  attached : s.ws.joinable = false → s.ws.phase = .closed

namespace Reaches

/-- Nothing that decides the fate of a command changes. -/
theorem congr (h : Reaches s)
    (hsame : (t.pending, t.wsReady, t.ws, t.launches.any Launch.inFlight, t.pendingCommands, t.opens) =
      (s.pending, s.wsReady, s.ws, s.launches.any Launch.inFlight, s.pendingCommands, s.opens)) : Reaches t := by
  simp only [Prod.mk.injEq] at hsame
  obtain ⟨hp, hr, hw, hl, hq, ho⟩ := hsame
  have hawaits : t.line.AwaitsOpen ↔ s.line.AwaitsOpen := by
    change (t.wsReady = false ∧ (t.launches.any _ = true ∨ t.ws.phase = _ ∨ t.ws.phase = _ ∧ t.opens ≠ [])) ↔
      (s.wsReady = false ∧ (s.launches.any _ = true ∨ s.ws.phase = _ ∨ s.ws.phase = _ ∧ s.opens ≠ []))
    rw [hr, hw, hl, ho]
  refine ⟨fun id r hid => ?_, hw ▸ h.attached⟩
  rcases h.answerable id r (hp ▸ hid) with ⟨hqueued, ha⟩ | ⟨ho, hm⟩
  · exact .inl ⟨by rwa [State.Queued, hq], hawaits.mpr ha⟩
  · exact .inr ⟨hw ▸ ho, by rwa [hw]⟩

theorem beside (h : Reaches s) (hb : Beside s t) : Reaches t := by
  have hc := hb.core
  simp only [State.core, Core.mk.injEq] at hc
  exact h.congr (by simp [hc, hb.opens])

theorem keeps (h : Reaches s) (hk : Keeps s t) : Reaches t := by
  have hl := hk.line
  simp only [State.line, Line.mk.injEq] at hl
  exact h.congr (by simp [hl, hk.pendingCommands, State.opens, State.waiting])

/-- A command is issued where it reaches Chrome. -/
theorem send (h : Reaches s) (method : Str) (params : Json) (r : PendingRequest) (sessionId : Str)
    (hs : reaching.send s.line ⟨s.cmdId, method, params, sessionId⟩ r) :
    Reaches (s.sendCommand method params r sessionId).1 := by
  obtain ⟨hc, hd⟩ := hs
  have hl := fun id => issue_lookup s r id
  unfold State.sendCommand
  dsimp only
  by_cases hready : s.wsReady = true
  · rcases hc with ⟨hno, -⟩ | ⟨-, hopen⟩
    · rw [show s.wsReady = false from hno] at hready
      cases hready
    rw [if_pos (show (s.issue r).wsReady = true from hready), if_pos (hd hready)]
    refine ⟨fun id r' hid => .inr ⟨hopen, ?_⟩, h.attached⟩
    have hid : (s.issue r).pending.lookup id = some r' := hid
    rw [hl] at hid
    split at hid
    · rename_i heq
      exact ⟨_, List.mem_cons_self, rfl, by simp [State.issue, show s.ws.phase = .open from hopen], heq.symm⟩
    · rcases h.answerable id r' hid with ⟨-, hno, -⟩ | ⟨-, m, hm, hconn⟩
      · rw [show s.wsReady = false from hno] at hready
        cases hready
      · exact ⟨m, List.mem_cons_of_mem _ hm, hconn⟩
  · rw [if_neg (show ¬ (s.issue r).wsReady = true from hready)]
    have hawaits := hc.resolve_right fun ha => hready ha.1
    refine ⟨fun id r' hid => ?_, h.attached⟩
    have hid : (s.issue r).pending.lookup id = some r' := hid
    rw [hl] at hid
    split at hid
    · rename_i heq
      exact .inl ⟨⟨_, List.mem_append_right _ List.mem_cons_self, heq.symm⟩, hawaits⟩
    · refine (h.answerable id r' hid).imp_left ?_
      rintro ⟨⟨cmd, hcmd, heq⟩, ha⟩
      exact ⟨⟨cmd, List.mem_append_left _ hcmd, heq⟩, ha⟩

theorem act (h : Reaches s) (ha : Act reaching s t) : Reaches t := by
  cases ha with
  | send method params r sessionId _ hs => exact h.send method params r sessionId hs
  | create platform targetId sid k method params sessionId hs =>
      have hnew : Reaches { s with heap := s.heap ++ [{ platform, targetId, sessionId := sid }] } := h.congr rfl
      exact hnew.send method params _ sessionId hs
  | wait x => exact h.congr (by simp [State.opens, State.waiting, State.post, UvScheduler.post, Task.isOpen])
  | aside _ hb => exact h.beside hb.toBeside
  | read c => exact h.keeps (readContext_keeps s c)
  | _ => exact h.congr (by simp [State.opens, State.waiting, State.enter, State.answer, State.log, State.modifyContext,
      Continuation.onOk, Frame.batch])

theorem parts (h : Reaches s) (hp : Parts reaching s t) : Reaches t :=
  Parts.invariant (I := Reaches) (fun _ _ h ha => h.act ha) (fun _ _ h hb => h.beside hb) hp h

theorem settle (h : Reaches s) (hs : Settles s t) : Reaches t := by
  cases hs with
  | stay => exact h
  | erase id rest hst =>
      have hpop : Reaches { s with stack := rest } := h.congr (by simp [State.opens, State.waiting, hst, Frame.batch])
      refine ⟨fun id' r hl => ?_, h.attached⟩
      have hl : AList.lookup id' (AList.erase id s.pending) = some r := hl
      rw [StdMap.lookup_erase_eq_ite] at hl
      split at hl
      · cases hl
      · exact hpop.answerable id' r hl
  | escape id rest hst => exact h.congr (by simp [State.opens, State.waiting, hst, Frame.batch])

theorem any_set {launches : List Launch} {i : ℕ} {x y : Launch} (hx : launches[i]? = some x)
    (hy : y.inFlight = x.inFlight) : (launches.set i y).any Launch.inFlight = launches.any Launch.inFlight := by
  obtain ⟨hi, rfl⟩ := List.getElem?_eq_some_iff.mp hx
  have hmap : (launches.set i y).map Launch.inFlight = launches.map Launch.inFlight := by
    have hi' : i < (launches.map Launch.inFlight).length := by rwa [List.length_map]
    have hsame := List.set_getElem_self hi'
    rwa [List.getElem_map, ← hy, ← List.map_set] at hsame
  have hany := congrArg (fun bs : List Bool => bs.any id) hmap
  simp only [List.any_map, Function.id_comp] at hany
  exact hany

/-- A launch goes on. -/
theorem relaunch {i : ℕ} {x y : Launch} (h : Reaches s) (hx : s.launches[i]? = some x)
    (hy : y.inFlight = x.inFlight) : Reaches { s with launches := s.launches.set i y } := by
  have hany := any_set hx hy
  exact h.congr (by simp [hany, State.opens, State.waiting])

/-- What waits for a launch still waits for it when the connection is gone. -/
theorem quit (h : s.Quits) (hp : t.pending = s.pending) (hq : t.pendingCommands = s.pendingCommands)
    (hr : t.wsReady = s.wsReady) (hl : t.launches = s.launches) : t.NoOrphans := by
  intro id r hid
  obtain ⟨hqueued, hready, hany⟩ := h ⟨id, r⟩ (AList.mem_lookup_iff.mp (hp ▸ hid))
  exact .inl ⟨by rwa [State.Queued, hq], hr.trans hready, .inl ((congrArg (List.any · Launch.inFlight) hl).trans hany)⟩

/-- The queue waits for one launch less. -/
theorem spare {i : ℕ} {x y : Launch} (h : s.Spares i) (hx : s.launches[i]? = some x) (hy : y.inFlight = false) :
    State.NoOrphans { s with launches := s.launches.set i y } := by
  have hany : (s.launches.set i y).any Launch.inFlight = (s.launches.set i .delivered).any Launch.inFlight := by
    have hset : (s.launches.set i .delivered)[i]? = some .delivered := by
      simp [(List.getElem?_eq_some_iff.mp hx).1]
    rw [← any_set hset hy, List.set_set]
  intro id r hid
  refine (h ⟨id, r⟩ (AList.mem_lookup_iff.mp hid)).imp_left ?_
  rintro ⟨hqueued, hready, hopen⟩
  exact ⟨hqueued, hready, hopen.imp_left hany.trans⟩

/-- The Open event hands over the queue. -/
theorem flush (h : Reaches s) (conn : ℕ) (st : List Frame) (hopen : s.ws.phase = .open)
    (hd : s.pendingCommands.all Command.dumpable = true) :
    Reaches (({ s with stack := st } : State).opening conn).emptied := by
  refine ⟨fun id r hid => .inr ⟨hopen, ?_⟩, h.attached⟩
  have hall : s.pendingCommands.takeWhile Command.dumpable = s.pendingCommands :=
    List.takeWhile_eq_self_iff.mpr (List.all_eq_true.mp hd)
  change ∃ m ∈ _ ++ s.ws.sent, _
  rw [hall]
  rcases h.answerable id r hid with ⟨⟨cmd, hcmd, heq⟩, -⟩ | ⟨-, m, hm, hconn⟩
  · have hsent := List.mem_reverse.mpr
      (List.mem_map_of_mem (f := fun cmd => Sent.mk s.ws.conns (s.ws.phase == .open) cmd) hcmd)
    exact ⟨_, List.mem_append_left _ hsent, rfl, by simp [hopen], heq⟩
  · exact ⟨m, List.mem_append_right _ hm, hconn⟩

theorem session (h : Reaches s) (hC : s.Orderly l) (ht : s.Turns l t) : Reaches t := by
  cases ht with
  | startAgain => exact h
  | start hst => exact ⟨fun id r hid => .inr (hC hst ⟨id, r⟩ (AList.mem_lookup_iff.mp hid)), h.attached⟩
  | stop hst => exact ⟨quit (hC hst) rfl rfl rfl rfl, fun _ => rfl⟩
  | stopReturn rest hst => exact h.congr (by simp [State.opens, State.waiting, hst, Frame.batch])
  | notLaunched i hi => exact h.relaunch hi rfl
  | startDone i hi hj => exact ⟨spare (hC hj hi) hi rfl, h.attached⟩
  | connect i hi hj =>
      refine ⟨fun id r hid => ?_, by simp⟩
      rcases h.answerable id r hid with ⟨hqueued, hready, -⟩ | ⟨hopen, -⟩
      · exact .inl ⟨hqueued, hready, .inr (.inl rfl)⟩
      · rw [h.attached hj] at hopen
        cases hopen
  | opened hph =>
      refine ⟨fun id r hid => ?_, fun hj => ?_⟩
      · rcases h.answerable id r hid with ⟨hqueued, hready, -⟩ | ⟨hopen, -⟩
        · refine .inl ⟨hqueued, hready, .inr (.inr ⟨rfl, ?_⟩)⟩
          simp [State.line, State.post, UvScheduler.post, Task.isOpen]
        · rw [hph] at hopen
          cases hopen
      · rw [h.attached hj] at hph
        cases hph
  | failed hph => exact ⟨quit hC rfl rfl rfl rfl, fun _ => rfl⟩
  | closed hph => exact ⟨quit hC rfl rfl rfl rfl, fun _ => rfl⟩
  | fork i hi => exact (h.relaunch (y := .forked s.children.length) hi rfl).congr rfl
  | notForked i hi => exact ⟨spare hC hi rfl, h.attached⟩
  | launched i pid hi => exact h.relaunch hi rfl
  | launchFailed i pid hi => exact ⟨spare hC hi rfl, h.attached⟩
  | openTask conn batch hst =>
      obtain ⟨hopen, hd⟩ : s.ws.phase = .open ∧ s.pendingCommands.all Command.dumpable = true := by
        simpa [State.Orderly, hst] using hC
      rw [State.onOpen_eq, if_pos (show State.pendingCommands { s with stack := [.draining batch] } |>.all _ from hd)]
      exact (h.flush conn _ hopen hd).send _ _ _ _
        ⟨.inr ⟨rfl, hopen⟩, fun _ => Command.dumpable_of rfl rfl rfl⟩
  | _ => exact h.congr rfl

theorem connects_congr (h : (t.wsReady, t.ws.phase, t.launches, t.opens) = (s.wsReady, s.ws.phase, s.launches, s.opens)) :
    t.line.Connects ↔ s.line.Connects := by
  simp only [Prod.mk.injEq] at h
  obtain ⟨hr, hp, hl, ho⟩ := h
  change (t.wsReady = false ∧ (t.launches.any _ = true ∨ t.ws.phase = _ ∨ t.ws.phase = _ ∧ t.opens ≠ [])) ∨
      t.wsReady = true ∧ t.ws.phase = _ ↔
    (s.wsReady = false ∧ (s.launches.any _ = true ∨ s.ws.phase = _ ∨ s.ws.phase = _ ∧ s.opens ≠ [])) ∨
      s.wsReady = true ∧ s.ws.phase = _
  rw [hr, hp, hl, ho]

theorem connects_send (method : Str) (params : Json) (r : PendingRequest) (sessionId : Str) (h : s.line.Connects) :
    (s.sendCommand method params r sessionId).1.line.Connects := by
  refine (connects_congr ?_).mpr h
  unfold State.sendCommand
  dsimp only
  split
  · split <;> rfl
  · rfl

/-- The commands may be sent. -/
theorem sends {D : Prop} (h : s.CanSend D) (c : Option Call) (closing linking : Bool) :
    reaching.Sends s.line c D closing linking :=
  fun _ _ _ _ _ _ hd => ⟨h.1, fun hready => (hd (h.2 hready)).1⟩

theorem message {msg : Parsed} (h : Reaches s) (hC : ∀ id ∈ msg.id?, ∀ r ∈ s.pending.lookup id, ∀ reply ∈ msg.reply,
    s.follows r reply = true → s.CanSend (s.followsText r)) : Reaches (s.onWsMessage (some msg)) := by
  have hlog : Reaches (s.log (.handling msg)) := h.congr rfl
  rcases s.onWsMessage_cases (ρ := reaching) msg with ⟨hm, -⟩ | ⟨id, r, reply, hid, hr, hreply, heq⟩
  · exact hlog.parts hm
  · have hcall : Reaches ((s.log (.handling msg)).calling id r reply) :=
      hlog.congr (by simp [State.calling, State.opens, State.waiting, Frame.batch])
    have hcan : s.follows r reply = true →
        ((s.log (.handling msg)).calling id r reply).CanSend (s.followsText r) := fun hf => by
      obtain ⟨hc, hd⟩ := hC id hid r hr reply hreply hf
      refine ⟨(connects_congr ?_).mpr hc, hd⟩
      simp [State.calling, State.log, State.opens, State.waiting, Frame.batch]
    have hagain : ∀ (u : State) method params r' sessionId,
        u.line = ((s.log (.handling msg)).calling id r reply).line → s.follows r reply = true →
        (u.sendCommand method params r' sessionId).1.CanSend True := fun u method params r' sessionId hl hf =>
      ⟨connects_send method params r' sessionId (hl ▸ (hcan hf).1), fun _ => trivial⟩
    obtain ⟨u, hu, hv⟩ := ((s.log (.handling msg)).calling id r reply).invoke_cases (ρ := reaching) r reply
      (fun _ _ => trivial) (fun _ => trivial) (fun _ _ => trivial) (fun hf => sends (hcan hf) _ _ _)
      (fun u method params r' sessionId hl hf => sends (hagain u method params r' sessionId hl hf) _ _ _)
      (fun _ _ _ _ _ _ _ => trivial)
    rw [heq]
    exact ((hcall.keeps hu.keeps).parts hv.parts).settle (State.finish_settles _)

theorem step (h : Reaches s) (hsh : Shape s.stack) (hC : s.Orderly l) (ht : s.step l = some t) : Reaches t := by
  cases hl : s.ofSession l with
  | true => exact h.session hC (State.step_session ht hsh hl)
  | false =>
      have hissues : s.issues l = true → s.CanSend l.encodes := by
        intro hi
        cases l <;> first | exact hC hi | cases hi
      have hpolls : ∀ w batch, l = .next → s.stack = [.draining (.check w :: batch)] → s.polls w = true →
          ({ s with stack := [.draining batch] } : State).CanSend (s.pollsText w) := by
        rintro w batch rfl hst hp
        simp only [State.Orderly, hst] at hC
        obtain ⟨hc, hd⟩ := hC hp
        refine ⟨(connects_congr ?_).mpr hc, hd⟩
        simp [State.opens, State.waiting, hst, Frame.batch, Task.isOpen]
      rcases State.step_parts (ρ := reaching) ht hsh hl (fun _ => trivial) (fun _ => trivial)
        (fun hi => sends (hissues hi) _ _ _) (fun _ _ _ _ => trivial)
        (fun w batch hl hst => ⟨fun _ _ => trivial, fun hp => sends (hpolls w batch hl hst hp) _ _ _⟩)
        (fun _ _ => trivial) with
        hp | ⟨-, rest, hst, rfl⟩ | ⟨-, rest, hst, rfl⟩ | ⟨rfl, conn, msg, batch, hst, rfl⟩
      · exact h.parts hp
      · have hpop : Reaches { s with stack := rest } := h.congr (by simp [State.opens, State.waiting, hst, Frame.batch])
        exact hpop.settle (State.resume_settles _)
      · have hpop : Reaches { s with stack := rest } := h.congr (by simp [State.opens, State.waiting, hst, Frame.batch])
        exact hpop.settle (State.unwind_settles _)
      · have hpop : Reaches { s with stack := [.draining batch] } :=
          h.congr (by simp [State.opens, State.waiting, hst, Frame.batch, Task.isOpen])
        refine hpop.message fun id hid r hr reply hreply hf => ?_
        simp only [State.Orderly, hst] at hC
        obtain ⟨hc, hd⟩ := hC id hid r hr reply hreply hf
        refine ⟨(connects_congr ?_).mpr hc, hd⟩
        simp [State.opens, State.waiting, hst, Frame.batch, Task.isOpen]

end Reaches

theorem reaches_init : Reaches init := ⟨fun id r hl => by simp [init] at hl, fun _ => rfl⟩

/-- In every run that is orderly, every command in `pending_` can still be answered. -/
theorem commands_answerable {ls : List Label} (hr : Transition.run State.step init ls = some s)
    (hC : Transition.Along State.step State.Orderly init ls) : s.NoOrphans := by
  have h := Transition.run_invariant_along (I := fun s => Reaches s ∧ Shape s.stack)
    (fun s l t h hC ht => ⟨h.1.step h.2 hC ht, State.step_shape h.2 ht⟩) ⟨reaches_init, trivial⟩ hC hr
  exact h.1.answerable

/-- Everything is answered before `stop()`, and the next session gets a command through the queue. -/
def answeredBeforeStop : List Label :=
  connect ++ arrive (okMessage 0 .null) ++ [.next, .sendCommand (str "Target.getTargets") .null []] ++
    arrive (okMessage 1 .null) ++ [.ret, .next, .stop, .stopReturn, .start, .sendCommand (str "Target.getTargets") .null [],
      .fork 1, .launched 1 true, .workDone 1, .opened, .wake, .swap, .next, .next]

theorem commands_answerable_sample : ∃ s, Transition.run State.step init answeredBeforeStop = some s ∧
    (s.pending.lookup 2).isSome = true ∧ s.NoOrphans := by
  have h : (Transition.run State.step init answeredBeforeStop).any (fun s => (s.pending.lookup 2).isSome) = true := by
    decide +kernel
  obtain ⟨s, hs, h⟩ := Option.any_eq_true _ _ |>.mp h
  exact ⟨s, hs, h, commands_answerable hs (by decide +kernel)⟩

/-- `stop()` while a command is outstanding. -/
def stoppedEarly : List Label :=
  connect ++ [.sendCommand (str "Target.getTargets") .null [], .stop, .stopReturn]

theorem stop_orphans_command : ¬ ∀ (ls : List Label) (s : State),
    Transition.run State.step init ls = some s → s.NoOrphans := by
  have h : (Transition.run State.step init stoppedEarly).any (fun s =>
      (s.pending.lookup 1).isSome ∧ s.pendingCommands.isEmpty ∧ s.ws.phase = .closed) = true := by decide +kernel
  obtain ⟨s, hs, h⟩ := Option.any_eq_true _ _ |>.mp h
  simp only [decide_eq_true_eq, List.isEmpty_iff] at h
  obtain ⟨hpending, hqueue, hclosed⟩ := h
  obtain ⟨r, hr⟩ := Option.isSome_iff_exists.mp hpending
  intro hall
  rcases hall _ s hs 1 r hr with ⟨⟨cmd, hcmd, -⟩, -⟩ | ⟨hopen, -⟩
  · rw [hqueue] at hcmd
    cases hcmd
  · rw [hclosed] at hopen
    cases hopen

end LynneSocial.Browser
