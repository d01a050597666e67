import LynneSocial.Lib.Outbox
import LynneSocial.Browser.Correlation
import LynneSocial.Browser.Isolation

/-!
# The stream of commands

Before the Open event is handled commands wait in `pending_commands_`, afterwards
they go to `sendText` at once. The manager is an outbox that the Open handler
flushes, with `Page.enable` as the item that follows what waited.
-/
namespace LynneSocial.Browser

/-- What was handed to `sendText`, in order. -/
def State.sentCommands (s : State) : List Command := (s.ws.sent.map Sent.command).reverse

/-- `Page.enable` as the Open handler builds it. -/
def pageEnable (id : ℤ) : Command := ⟨id, str "Page.enable", .object [], []⟩

/-- The ids of the commands issued since `start()`, the latest first. -/
def issuedSince : List Event → List ℤ
  | [] => []
  | .starting :: _ => []
  | .issued id _ :: past => id :: issuedSince past
  | _ :: past => issuedSince past

def Event.ofStream : Event → Bool
  | .issued _ _ | .ready _ | .starting => true
  | _ => false

/-- What the outbox was asked to do in this history. -/
inductive Tells : List Event → List (Outbox.Action Command) → Prop
  | nil : Tells [] []
  | starting {h : List Event} : Tells (.starting :: h) []
  | put {h : List Event} {as : List (Outbox.Action Command)} (cmd : Command) (r : PendingRequest)
      (ht : Tells h as) : Tells (.issued cmd.id r :: h) (.put cmd :: as)
  | flush {h : List Event} {as : List (Outbox.Action Command)} (id : ℤ) (conn : ℕ)
      (ht : Tells h as) :
      Tells (.issued id .ignored :: .ready conn :: h) (.flush (pageEnable id) :: as)
  | other {h : List Event} {as : List (Outbox.Action Command)} (e : Event) (he : e.ofStream = false)
      (ht : Tells h as) : Tells (e :: h) as

theorem Tells.append {es h : List Event} {as : List (Outbox.Action Command)}
    (hes : ∀ e ∈ es, Event.ofStream e = false) (ht : Tells h as) : Tells (es ++ h) as := by
  induction es with
  | nil => exact ht
  | cons e es ih =>
      rw [List.forall_mem_cons] at hes
      exact .other e hes.1 (ih hes.2)

theorem issuedSince_other {e : Event} (he : e.ofStream = false) (h : List Event) :
    issuedSince (e :: h) = issuedSince h := by
  cases e <;> first | rfl | cases he

theorem Tells.ids {h : List Event} {as : List (Outbox.Action Command)} (ht : Tells h as) :
    (as.map Outbox.Action.item).map Command.id = issuedSince h := by
  induction ht with
  | nil => rfl
  | starting => rfl
  | put cmd r _ ih => simp [issuedSince, Outbox.Action.item, ← ih]
  | flush id conn _ ih => simp [issuedSince, Outbox.Action.item, pageEnable, ← ih]
  | other e he _ ih => rw [issuedSince_other he, ih]

theorem issuedSince_sublist (h : List Event) : (issuedSince h).Sublist (h.filterMap Event.issuedId?) := by
  induction h using issuedSince.induct with
  | case1 => exact .slnil
  | case2 past => exact List.nil_sublist _
  | case3 id r past ih => exact ih.cons_cons id
  | case4 e past h1 h2 ih =>
      have he : e.issuedId? = none := by
        cases e <;> first | rfl | exact absurd rfl (h2 _ _)
      rw [issuedSince, List.filterMap_cons_none he]
      · exact ih
      · exact h1
      · exact h2

def Event.isReady : Event → Bool
  | .ready _ => true
  | _ => false

/-- The number of Open events that were handled. -/
def readies (h : List Event) : ℕ := h.countP Event.isReady

/-- The history before and after the one Open event, and the actions that go with it. -/
theorem Tells.split {h : List Event} {as : List (Outbox.Action Command)} (ht : Tells h as)
    (hone : readies h ≤ 1) (hflush : as.any Outbox.Action.isFlush = true) {later earlier : List Event}
    {conn : ℕ} (heq : h = later ++ .ready conn :: earlier) :
    ∃ n since as₁ as₂, later = since ++ [.issued n .ignored] ∧
      as = as₂ ++ .flush (pageEnable n) :: as₁ ∧
      (as₁.map Outbox.Action.item).map Command.id = issuedSince earlier ∧
      (as₂.map Outbox.Action.item).map Command.id = issuedSince since := by
  induction ht generalizing later with
  | nil => cases hflush
  | starting => cases hflush
  | put cmd r ht ih =>
      cases later with
      | nil => cases heq
      | cons e later =>
          simp only [List.cons_append, List.cons.injEq] at heq
          obtain ⟨rfl, heq⟩ := heq
          obtain ⟨n, since, as₁, as₂, rfl, rfl, h₁, h₂⟩ := ih hone hflush heq
          refine ⟨n, .issued cmd.id r :: since, as₁, .put cmd :: as₂, rfl, rfl, h₁, ?_⟩
          simp [issuedSince, Outbox.Action.item, ← h₂]
  | @flush h as id conn' ht =>
      cases later with
      | nil => cases heq
      | cons e later =>
          simp only [List.cons_append, List.cons.injEq] at heq
          obtain ⟨rfl, heq⟩ := heq
          cases later with
          | nil =>
              simp only [List.nil_append, List.cons.injEq] at heq
              obtain ⟨-, rfl⟩ := heq
              exact ⟨id, [], as, [], rfl, rfl, ht.ids, rfl⟩
          | cons e later =>
              simp only [List.cons_append, List.cons.injEq] at heq
              obtain ⟨rfl, rfl⟩ := heq
              simp [readies, List.countP_cons, Event.isReady] at hone
  | other e he ht ih =>
      cases later with
      | nil =>
          simp only [List.nil_append, List.cons.injEq] at heq
          obtain ⟨rfl, -⟩ := heq
          cases he
      | cons e' later =>
          simp only [List.cons_append, List.cons.injEq] at heq
          obtain ⟨rfl, heq⟩ := heq
          rw [readies, List.countP_cons] at hone
          replace hone := Nat.le_of_add_right_le hone
          obtain ⟨n, since, as₁, as₂, rfl, rfl, h₁, h₂⟩ := ih hone hflush heq
          exact ⟨n, e :: since, as₁, as₂, rfl, rfl, h₁, (issuedSince_other he since).symm ▸ h₂⟩

theorem Tells.readies_pos {h : List Event} {as : List (Outbox.Action Command)} (ht : Tells h as)
    (hflush : as.any Outbox.Action.isFlush = true) : 0 < readies h := by
  induction ht with
  | nil => cases hflush
  | starting => cases hflush
  | put cmd r _ ih =>
      rw [readies, List.countP_cons]
      exact Nat.add_pos_left (ih hflush) _
  | flush id conn => simp [readies, List.countP_cons, Event.isReady]
  | other e _ _ ih =>
      rw [readies, List.countP_cons]
      exact Nat.add_pos_left (ih hflush) _

variable {s t : State}

/-- The manager is the outbox after these actions. -/
structure Mirrors (s : State) (as : List (Outbox.Action Command)) : Prop where
  tells : Tells s.history as
  opened : (Outbox.perform as).opened = s.wsReady
  sent : (Outbox.perform as).sent = s.sentCommands
  queue : (Outbox.perform as).queue = s.pendingCommands

/-- There is one connection at most, and its Open event is to come, waits or was handled. -/
structure OneOpen (s : State) : Prop where
  conns : s.ws.conns ≤ 1
  count : s.opens.length + (if s.ws.phase = .connecting then 1 else 0) + readies s.history ≤ s.ws.conns
  started : 0 < s.ws.conns → s.started = true ∧ s.ws.joinable = true
  ready : 0 < readies s.history → s.wsReady = true

/-- What waits can be written, and what it leads to. -/
structure Writable (s : State) : Prop where
  queued : ∀ cmd ∈ s.pendingCommands, cmd.dumpable = true
  entry : ∀ id r, s.pending.lookup id = some r → r.encodes = true
  waiter : ∀ w x, s.Watching w x → validUtf8 (State.existsScript x.selector) = true

structure Streams (s : State) : Prop where
  mirrors : ∃ as, Mirrors s as
  oneOpen : OneOpen s
  writable : Writable s

theorem readies_append {es h : List Event} (hes : ∀ e ∈ es, Event.ofStream e = false) :
    readies (es ++ h) = readies h := by
  have hnone : es.countP Event.isReady = 0 := by
    rw [List.countP_eq_zero]
    intro e he
    have := hes e he
    cases e <;> simp_all [Event.ofStream, Event.isReady]
  rw [readies, List.countP_append, hnone, Nat.zero_add]
  rfl

theorem Streams.frame (h : Streams s) (hws : t.ws = s.ws) (hq : t.pendingCommands = s.pendingCommands)
    (hr : t.wsReady = s.wsReady) (hst : t.started = s.started) (ho : t.opens = s.opens)
    (hp : ∀ id r, t.pending.lookup id = some r → s.pending.lookup id = some r)
    (hw : ∀ w x, t.Watching w x → s.Watching w x)
    (hh : ∃ es, (∀ e ∈ es, Event.ofStream e = false) ∧ t.history = es ++ s.history) : Streams t := by
  obtain ⟨es, hes, hh⟩ := hh
  obtain ⟨as, ha⟩ := h.mirrors
  have hread : readies t.history = readies s.history := by rw [hh, readies_append hes]
  refine ⟨⟨as, ?_, hr ▸ ha.opened, ?_, hq ▸ ha.queue⟩, ⟨?_, ?_, ?_, ?_⟩, ?_, ?_, ?_⟩
  · rw [hh]
    exact ha.tells.append hes
  · rw [ha.sent, State.sentCommands, State.sentCommands, hws]
  · rw [hws]
    exact h.oneOpen.conns
  · rw [hws, ho, hread]
    exact h.oneOpen.count
  · rw [hws, hst]
    exact h.oneOpen.started
  · rw [hread, hr]
    exact h.oneOpen.ready
  · rw [hq]
    exact h.writable.queued
  · exact fun id r hl => h.writable.entry id r (hp id r hl)
  · exact fun w x hx => h.writable.waiter w x (hw w x hx)

theorem sendCommand_ready {method sessionId : Str} {params : Json} {r : PendingRequest}
    (hw : s.wsReady = true) (hd : (Command.mk s.cmdId method params sessionId).dumpable = true) :
    (s.sendCommand method params r sessionId).1 = (s.issue r).sendText ⟨s.cmdId, method, params, sessionId⟩ := by
  unfold State.sendCommand
  have hw' : (s.issue r).wsReady = true := hw
  simp only [hw', hd, if_true]

theorem sendCommand_waiting {method sessionId : Str} {params : Json} {r : PendingRequest}
    (hw : s.wsReady = false) : (s.sendCommand method params r sessionId).1 =
      { s.issue r with pendingCommands := s.pendingCommands ++ [⟨s.cmdId, method, params, sessionId⟩] } := by
  unfold State.sendCommand
  have hw' : (s.issue r).wsReady = false := hw
  simp only [hw', Bool.false_eq_true, if_false]
  rfl

theorem sentCommands_sendText (s : State) (cmd : Command) :
    (s.sendText cmd).sentCommands = s.sentCommands ++ [cmd] := by
  simp [State.sentCommands, State.sendText]

/-- Both ways out put the command at the end of the stream. -/
theorem Streams.send (h : Streams s) {method sessionId : Str} {params : Json} {r : PendingRequest}
    (hd : (Command.mk s.cmdId method params sessionId).dumpable = true) (hr : r.encodes = true) :
    Streams (s.sendCommand method params r sessionId).1 := by
  obtain ⟨as, ha⟩ := h.mirrors
  have hentry : ∀ id r', (s.issue r).pending.lookup id = some r' → r'.encodes = true := by
    intro id r' hl
    rw [issue_lookup] at hl
    split at hl
    · cases hl
      exact hr
    · exact h.writable.entry id r' hl
  have htells := Tells.put ⟨s.cmdId, method, params, sessionId⟩ r ha.tells
  have hread : readies (s.issue r).history = readies s.history := by
    simp [readies, State.issue, Event.isReady]
  cases hw : s.wsReady with
  | true =>
      have hopen := ha.opened.trans hw
      rw [sendCommand_ready hw hd]
      refine ⟨⟨_, htells, hopen.trans hw.symm, ?_, ?_⟩, ⟨h.oneOpen.conns, ?_, h.oneOpen.started, fun _ => hw⟩,
        ⟨h.writable.queued, hentry, h.writable.waiter⟩⟩
      · rw [sentCommands_sendText]
        change (if (Outbox.perform as).opened = true then _ else _) = s.sentCommands ++ _
        rw [hopen, if_pos rfl, ha.sent]
      · change (if (Outbox.perform as).opened = true then _ else _) = s.pendingCommands
        rw [hopen, if_pos rfl, ← ha.queue, (Outbox.perform as).empty hopen]
      · change s.opens.length + _ + readies (s.issue r).history ≤ _
        rw [hread]
        exact h.oneOpen.count
  | false =>
      have hclosed := ha.opened.trans hw
      rw [sendCommand_waiting hw]
      refine ⟨⟨_, htells, hclosed.trans hw.symm, ?_, ?_⟩, ⟨h.oneOpen.conns, ?_, h.oneOpen.started, ?_⟩,
        ⟨?_, hentry, h.writable.waiter⟩⟩
      · change (if (Outbox.perform as).opened = true then _ else _) = s.sentCommands
        rw [hclosed, if_neg (by simp), ha.sent]
      · change (if (Outbox.perform as).opened = true then _ else _) = s.pendingCommands ++ _
        rw [hclosed, if_neg (by simp), ha.queue]
      · change s.opens.length + _ + readies (s.issue r).history ≤ _
        rw [hread]
        exact h.oneOpen.count
      · change 0 < readies (s.issue r).history → s.wsReady = true
        rw [hread]
        exact h.oneOpen.ready
      · intro cmd hc
        rcases List.mem_append.mp hc with hc | hc
        · exact h.writable.queued cmd hc
        · rw [List.mem_singleton.mp hc]
          exact hd

/-- What is sent can be written, also later. -/
def writes : Rules where
  send _ cmd r := cmd.dumpable = true ∧ r.encodes = true
  wait x := validUtf8 (State.existsScript x.selector) = true

theorem Event.isNote.not_ofStream {e : Event} (hn : e.isNote) : e.ofStream = false := by
  cases e <;> first | rfl | exact hn.elim

theorem Beside.streams (hb : Beside s t) (h : Streams s) : Streams t := by
  obtain ⟨es, hes, hh⟩ := hb.note
  have hp : t.pending = s.pending := congrArg Core.pending hb.core
  exact h.frame (congrArg Core.ws hb.core) (congrArg Core.pendingCommands hb.core)
    (congrArg Core.wsReady hb.core) (congrArg Core.started hb.core) hb.opens (by simp [hp]) hb.watching
    ⟨es, fun e he => (hes e he).not_ofStream, hh⟩

theorem Event.ofCache.not_ofStream {e : Event} (h : e.ofCache) : e.ofStream = false := by
  cases e <;> first | rfl | exact h.elim

theorem Keeps.opens (h : Keeps s t) : t.opens = s.opens := by
  rw [State.opens, State.opens, State.waiting, State.waiting, h.stack,
    show t.scheduler.postQueue = s.scheduler.postQueue from congrArg Line.queue h.line]

theorem Keeps.streams (hk : Keeps s t) (h : Streams s) : Streams t := by
  obtain ⟨es, hes, hh⟩ := hk.history
  refine h.frame (congrArg Line.ws hk.line) hk.pendingCommands (congrArg Line.wsReady hk.line)
    hk.started hk.opens (by simp [hk.pending]) (fun w x hx => ?_)
    ⟨es, fun e he => (hes e he).not_ofStream, hh⟩
  rwa [State.Watching, hk.waiters] at hx

theorem Streams.act (h : Streams s) (ha : Act writes s t) : Streams t := by
  cases ha with
  | send method params r sessionId hr hs => exact h.send hs.1 hs.2
  | create platform targetId sid k method params sessionId hs =>
      have hu : Streams { s with heap := s.heap ++ [{ platform, targetId, sessionId := sid }] } :=
        h.frame rfl rfl rfl rfl rfl (fun _ _ hl => hl) (fun _ _ hx => hx) ⟨[], by simp, rfl⟩
      exact Streams.send hu hs.1 hs.2
  | enter kind =>
      exact h.frame rfl rfl rfl rfl rfl (fun _ _ hl => hl) (fun _ _ hx => hx)
        ⟨[_], by simp [Event.ofStream], rfl⟩
  | answer c a =>
      exact h.frame rfl rfl rfl rfl rfl (fun _ _ hl => hl) (fun _ _ hx => hx)
        ⟨[_], by simp [Event.ofStream], rfl⟩
  | handOut p c k =>
      exact h.frame rfl rfl rfl rfl rfl (fun _ _ hl => hl) (fun _ _ hx => hx)
        ⟨[_], by simp [Event.ofStream], rfl⟩
  | deliver p c n =>
      exact h.frame rfl rfl rfl rfl rfl (fun _ _ hl => hl) (fun _ _ hx => hx)
        ⟨[.answered (.request n) (.context c), .handedOut p c (.getContext n)], by simp [Event.ofStream], rfl⟩
  | close c =>
      exact h.frame rfl rfl rfl rfl rfl (fun _ _ hl => hl) (fun _ _ hx => hx) ⟨[], by simp, rfl⟩
  | user =>
      exact h.frame rfl rfl rfl rfl rfl (fun _ _ hl => hl) (fun _ _ hx => hx) ⟨[], by simp, rfl⟩
  | read c => exact (readContext_keeps s c).streams h
  | wait x hu hx =>
      have hp : Streams { s with waiters := s.waiters ++ [x] } := by
        obtain ⟨as, ha⟩ := h.mirrors
        have ho := h.oneOpen
        refine ⟨⟨as, ha.tells, ha.opened, ha.sent, ha.queue⟩, ⟨ho.conns, ho.count, ho.started, ho.ready⟩,
          h.writable.queued, h.writable.entry, ?_⟩
        rintro w y ⟨hy, hd⟩
        rcases List.mem_append.mp (List.mem_of_getElem? hy) with hm | hm
        · obtain ⟨v, hv⟩ := List.getElem?_of_mem hm
          exact h.writable.waiter v y ⟨hv, hd⟩
        · rw [List.mem_singleton.mp hm]
          exact hx
      exact (State.post_beside rfl).streams hp
  | aside _ hb => exact hb.toBeside.streams h

theorem Streams.parts (h : Streams s) (hp : Parts writes s t) : Streams t :=
  Parts.invariant (fun _ _ h ha => Streams.act h ha) (fun _ _ h hb => hb.streams h) hp h

theorem Streams.restack (h : Streams s) {b : List Frame}
    (ho : (b.flatMap Frame.batch).filter Task.isOpen = (s.stack.flatMap Frame.batch).filter Task.isOpen) :
    Streams { s with stack := b } := by
  refine h.frame rfl rfl rfl rfl ?_ (fun _ _ hl => hl) (fun _ _ hx => hx) ⟨[], by simp, rfl⟩
  simp only [State.opens, State.waiting, List.filter_append, ho]

theorem Streams.settle (h : Streams s) (hs : Settles s t) : Streams t := by
  cases hs with
  | stay => exact h
  | erase id rest hst =>
      have ho : Streams { s with stack := rest } := h.restack (by simp [hst, Frame.batch])
      refine ho.frame rfl rfl rfl rfl rfl (fun id' r hl => ?_) (fun _ _ hx => hx) ⟨[], by simp, rfl⟩
      have hl : AList.lookup id' (AList.erase id s.pending) = some r := hl
      rw [StdMap.lookup_erase_eq_ite] at hl
      split at hl
      · cases hl
      · exact hl
  | escape id rest hst =>
      have ho : Streams { s with stack := rest } := h.restack (by simp [hst, Frame.batch])
      exact ho.frame rfl rfl rfl rfl rfl (fun _ _ hl => hl) (fun _ _ hx => hx)
        ⟨[_], by simp [Event.ofStream], rfl⟩

/-- The Open handler: everything that waits goes out, and `Page.enable` after it. -/
theorem Streams.openTask {conn : ℕ} {batch : List Task} (h : Streams s)
    (hst : s.stack = [.draining (.open conn :: batch)]) :
    Streams (({ s with stack := [.draining batch] } : State).onOpen conn) := by
  obtain ⟨as, ha⟩ := h.mirrors
  have ho := h.oneOpen
  set u : State := { s with stack := [.draining batch] } with hu
  have hall : u.pendingCommands.all Command.dumpable = true := by simpa using h.writable.queued
  have htake : u.pendingCommands.takeWhile Command.dumpable = u.pendingCommands := by
    rw [List.takeWhile_eq_self_iff]
    simpa using hall
  have hd : (Command.mk (u.opening conn).emptied.cmdId (str "Page.enable") (.object []) []).dumpable = true :=
    Command.dumpable_of rfl rfl rfl
  have hopens : s.opens.length = u.opens.length + 1 := by
    simp only [State.opens, State.waiting, hst, hu, List.filter_append, List.length_append,
      List.flatMap_cons, List.flatMap_nil, Frame.batch, List.append_nil]
    rw [List.filter_cons_of_pos rfl, List.length_cons]
    omega
  rw [State.onOpen_eq, if_pos hall, sendCommand_ready rfl hd]
  have hread : readies (.issued s.cmdId .ignored :: .ready conn :: s.history) = readies s.history + 1 := by
    simp [readies, List.countP_cons, Event.isReady]
  refine ⟨⟨_, .flush s.cmdId conn ha.tells, rfl, ?_, rfl⟩, ⟨ho.conns, ?_, ho.started, fun _ => rfl⟩,
    ⟨by simp [State.sendText, State.issue, State.emptied], ?_, h.writable.waiter⟩⟩
  · rw [sentCommands_sendText]
    change (Outbox.perform as).sent ++ (Outbox.perform as).queue ++ _ = _
    rw [ha.sent, ha.queue]
    simp only [State.sentCommands, State.issue, State.emptied, State.opening, State.flushed, State.log,
      List.map_append, List.map_reverse, List.map_map, List.reverse_append, List.reverse_reverse]
    rw [htake]
    simp [hu, Function.comp_def, pageEnable]
  · change u.opens.length + _ + readies (.issued s.cmdId .ignored :: .ready conn :: s.history) ≤ _
    rw [hread]
    have := ho.count
    rw [hopens] at this
    change u.opens.length + (if s.ws.phase = .connecting then 1 else 0) + _ ≤ s.ws.conns
    omega
  · intro id r hl
    have hl : ((u.opening conn).emptied.issue .ignored).pending.lookup id = some r := hl
    rw [issue_lookup] at hl
    split at hl
    · cases hl
      rfl
    · exact h.writable.entry id r hl

/-- A change of the connection, which leaves the stream alone. -/
theorem Streams.reconnect (h : Streams s) (hsent : t.ws.sent = s.ws.sent)
    (hq : t.pendingCommands = s.pendingCommands) (hr : t.wsReady = s.wsReady)
    (hp : t.pending = s.pending) (hw : t.waiters = s.waiters)
    (hh : ∃ es, (∀ e ∈ es, Event.ofStream e = false) ∧ t.history = es ++ s.history)
    (hconns : t.ws.conns ≤ 1)
    (hcount : t.opens.length + (if t.ws.phase = .connecting then 1 else 0) + readies s.history ≤ t.ws.conns)
    (hst : 0 < t.ws.conns → t.started = true ∧ t.ws.joinable = true) : Streams t := by
  obtain ⟨es, hes, hh⟩ := hh
  obtain ⟨as, ha⟩ := h.mirrors
  have hread : readies t.history = readies s.history := by
    rw [hh, readies_append hes]
  refine ⟨⟨as, ?_, hr ▸ ha.opened, ?_, hq ▸ ha.queue⟩, ⟨hconns, hread ▸ hcount, hst, ?_⟩, ?_, ?_, ?_⟩
  · rw [hh]
    exact ha.tells.append hes
  · rw [ha.sent, State.sentCommands, State.sentCommands, hsent]
  · rw [hread, hr]
    exact h.oneOpen.ready
  · rw [hq]
    exact h.writable.queued
  · rw [hp]
    exact h.writable.entry
  · intro w x hx
    rw [State.Watching, hw] at hx
    exact h.writable.waiter w x hx

theorem Streams.start (h : Streams s) (hst : s.started = false) (hw : t.waiters = s.waiters)
    (hp : t.pending = s.pending) (hws : t.ws = s.ws) (ho : t.opens = s.opens)
    (hq : t.pendingCommands = []) (hr : t.wsReady = false) (hh : t.history = .starting :: s.history) :
    Streams t := by
  obtain ⟨as, ha⟩ := h.mirrors
  have hconns : s.ws.conns = 0 := by
    by_contra hne
    have := (h.oneOpen.started (Nat.pos_of_ne_zero hne)).1
    rw [hst] at this
    cases this
  have hcount := h.oneOpen.count
  have hread : readies t.history = 0 := by
    rw [hh, readies, List.countP_cons, ← readies]
    simp only [Event.isReady, Bool.false_eq_true, if_false]
    omega
  have hsent : s.sentCommands = [] := by
    rw [← ha.sent]
    apply Outbox.sent_eq_nil
    by_contra hne
    have := ha.tells.readies_pos (by simpa using hne)
    omega
  refine ⟨⟨[], ?_, hr.symm, ?_, hq.symm⟩, ⟨?_, ?_, ?_, ?_⟩, ⟨by simp [hq], ?_, ?_⟩⟩
  · rw [hh]
    exact .starting
  · rw [State.sentCommands, hws, ← State.sentCommands, hsent]
    rfl
  · rw [hws]
    exact h.oneOpen.conns
  · rw [hread, hws, ho]
    omega
  · rw [hws, hconns]
    exact fun h => absurd h (lt_irrefl 0)
  · rw [hread]
    exact fun h => absurd h (lt_irrefl 0)
  · rw [hp]
    exact h.writable.entry
  · intro w x hx
    rw [State.Watching, hw] at hx
    exact h.writable.waiter w x hx

theorem Streams.session_step {l : Label} (h : Streams s) (hrun : .stopping ∉ s.stack)
    (hl : l.isStop = false) (ht : s.Turns l t) : Streams t := by
  have ho := h.oneOpen
  have hcount := ho.count
  cases ht with
  | startAgain => exact h
  | start hst =>
      refine h.start hst rfl rfl rfl ?_ rfl rfl rfl
      have hq : s.scheduler.start.postQueue = s.scheduler.postQueue := by
        unfold UvScheduler.start
        split <;> rfl
      simp only [State.opens, State.waiting, hq]
  | stop => cases hl
  | stopIdle => cases hl
  | stopReturn rest hst => exact absurd (hst ▸ List.mem_cons_self) hrun
  | startDone i _ hj =>
      exact h.reconnect rfl rfl rfl rfl rfl ⟨[], by simp, rfl⟩ ho.conns hcount fun hc =>
        ⟨rfl, (ho.started hc).2⟩
  | connect i _ hj =>
      have hconns : s.ws.conns = 0 := by
        by_contra hne
        have := (ho.started (Nat.pos_of_ne_zero hne)).2
        rw [hj] at this
        cases this
      refine h.reconnect rfl rfl rfl rfl rfl ⟨[_], by simp [Event.ofStream], rfl⟩ ?_ ?_ fun _ => ⟨rfl, rfl⟩
      · simp [hconns]
      · change s.opens.length + 1 + readies s.history ≤ s.ws.conns + 1
        omega
  | opened hph =>
      refine h.reconnect rfl rfl rfl rfl rfl ⟨[], by simp, rfl⟩ ho.conns ?_ ho.started
      have hopens : (({ s with ws := { s.ws with phase := .open } } : State).post
          (.open s.ws.conns)).opens.length = s.opens.length + 1 := by
        simp only [State.opens, State.waiting, State.post, UvScheduler.post,
          UvScheduler.asyncSend_postQueue, UvScheduler.push_postQueue, List.filter_append,
          List.length_append]
        rw [List.filter_cons_of_pos rfl, List.length_cons]
        simp
        omega
      rw [hopens]
      rw [hph] at hcount
      simp only [if_true] at hcount
      change s.opens.length + 1 + 0 + readies s.history ≤ s.ws.conns
      omega
  | failed hph =>
      refine h.reconnect rfl rfl rfl rfl rfl ⟨[], by simp, rfl⟩ ho.conns ?_ ho.started
      change s.opens.length + 0 + readies s.history ≤ s.ws.conns
      omega
  | closed hph =>
      refine h.reconnect rfl rfl rfl rfl rfl ⟨[], by simp, rfl⟩ ho.conns ?_ ho.started
      change s.opens.length + 0 + readies s.history ≤ s.ws.conns
      omega
  | openTask conn batch hst => exact h.openTask hst
  | _ =>
      exact h.frame rfl rfl rfl rfl rfl (fun _ _ hl => hl) (fun _ _ hx => hx) ⟨[], by simp, rfl⟩

theorem Streams.message (h : Streams s) (msg : Parsed) : Streams (s.onWsMessage (some msg)) := by
  have hlog : Streams (s.log (.handling msg)) :=
    h.frame rfl rfl rfl rfl rfl (fun _ _ hl => hl) (fun _ _ hx => hx) ⟨[_], by simp [Event.ofStream], rfl⟩
  rcases s.onWsMessage_cases (ρ := writes) msg with ⟨hm, -⟩ | ⟨id, r, reply, -, hr, -, heq⟩
  · exact hlog.parts hm
  · set u := (s.log (.handling msg)).calling id r reply with hu
    have hcall : Streams u :=
      hlog.frame rfl rfl rfl rfl rfl (fun _ _ hl => hl) (fun _ _ hx => hx)
        ⟨[_], by simp [Event.ofStream], rfl⟩
    have hpoll : ∀ w, u.polls w = true → u.pollsText w := by
      intro w hp x hx
      have hp : s.polls w = true := hp
      have hx : s.waiters[w]? = some x := hx
      simp only [State.polls, hx, Bool.and_eq_true, Bool.not_eq_true'] at hp
      exact h.writable.waiter w x ⟨hx, hp.1.1⟩
    have htext : u.follows r reply = true → u.followsText r := by
      intro hf
      cases r with
      | keyDown c key call => exact h.writable.entry id _ hr
      | poll w =>
          refine hpoll w ?_
          cases reply with
          | error text => exact hf
          | ok result =>
              simp only [State.follows] at hf
              split at hf
              · exact (Bool.and_eq_true _ _ ▸ hf).2
              · cases hf
      | _ => trivial
    obtain ⟨v, hv, hacts⟩ := u.invoke_cases (ρ := writes) r reply (fun _ _ => trivial)
      (fun _ => trivial) (fun _ _ => trivial)
      (fun hf cmd r' _ _ _ _ hd => hd (htext hf)) (fun _ _ _ _ _ _ _ cmd r' _ _ _ _ hd => hd trivial)
      (fun _ _ _ _ _ _ _ => trivial)
    rw [heq]
    exact ((hv.keeps.streams hcall).parts hacts.parts).settle (State.finish_settles _)

theorem Streams.step {l : Label} (h : Streams s) (hsh : Shape s.stack) (hrun : .stopping ∉ s.stack)
    (hl : l.isStop = false) (henc : l.encodes) (ht : s.step l = some t) : Streams t := by
  cases hses : s.ofSession l with
  | true => exact h.session_step hrun hl (State.step_session ht hsh hses)
  | false =>
      have hpoll : ∀ w, s.polls w = true → s.pollsText w := by
        intro w hp x hx
        simp only [State.polls, hx, Bool.and_eq_true, Bool.not_eq_true'] at hp
        exact h.writable.waiter w x ⟨hx, hp.1.1⟩
      rcases State.step_parts (ρ := writes) ht hsh hses (fun _ => trivial) (fun _ => trivial)
        (fun _ cmd r _ _ _ _ hd => hd henc) (fun _ _ _ _ => trivial)
        (fun w batch _ _ => ⟨fun _ _ => trivial, fun hp cmd r _ _ _ _ hd => hd (hpoll w hp)⟩)
        (fun x hx => hx henc) with
        hp | ⟨-, rest, hst, rfl⟩ | ⟨-, rest, hst, rfl⟩ | ⟨rfl, conn, msg, batch, hst, rfl⟩
      · exact h.parts hp
      · exact (h.restack (b := rest) (by simp [hst, Frame.batch])).settle (State.resume_settles _)
      · exact (h.restack (b := rest) (by simp [hst, Frame.batch])).settle (State.unwind_settles _)
      · exact (h.restack (b := [.draining batch]) (by simp [hst, Frame.batch, Task.isOpen])).message msg

/-- The history grows, and no command is forgotten unless a session starts. -/
def Grows (s t : State) : Prop :=
  ∃ es, t.history = es ++ s.history ∧ (.starting ∉ es → ∀ cmd ∈ s.commands, cmd ∈ t.commands)

theorem Grows.refl (s : State) : Grows s s := ⟨[], rfl, fun _ _ hc => hc⟩

theorem Grows.trans {s t u : State} (h : Grows s t) (k : Grows t u) : Grows s u := by
  obtain ⟨es, hes, hm⟩ := h
  obtain ⟨fs, hfs, hk⟩ := k
  refine ⟨fs ++ es, by rw [hfs, hes, List.append_assoc], fun hst cmd hc => ?_⟩
  rw [List.mem_append, not_or] at hst
  exact hk hst.1 cmd (hm hst.2 cmd hc)

theorem Grows.of {E : List Event} (hh : t.history = E ++ s.history)
    (hc : ∀ cmd ∈ s.commands, cmd ∈ t.commands) : Grows s t := ⟨E, hh, fun _ => hc⟩

theorem sendCommand_grows (s : State) (method : Str) (params : Json) (r : PendingRequest)
    (sessionId : Str) : Grows s (s.sendCommand method params r sessionId).1 := by
  obtain ⟨es, -, hh⟩ := (s.sendCommand_calm method params r sessionId).history
  refine .of (E := es ++ [.issued s.cmdId r]) ?_ (sendCommand_mono s method params r sessionId)
  rw [hh, List.append_assoc]
  rfl

theorem Beside.grows (h : Beside s t) : Grows s t := by
  obtain ⟨es, -, hh⟩ := h.note
  exact .of hh (by simp [h.commands])

theorem Keeps.grows (h : Keeps s t) : Grows s t := by
  obtain ⟨es, -, hh⟩ := h.history
  refine .of hh ?_
  rw [State.commands, State.commands, h.pendingCommands, show t.ws = s.ws from congrArg Line.ws h.line]
  exact fun _ hc => hc

theorem Settles.grows (h : Settles s t) : Grows s t := by
  cases h with
  | stay => exact .refl s
  | erase => exact .of (E := []) rfl fun _ hc => hc
  | escape id => exact .of (E := [.escaped id]) rfl fun _ hc => hc

theorem Act.grows {ρ : Rules} (h : Act ρ s t) : Grows s t := by
  cases h with
  | send method params r sessionId => exact sendCommand_grows s method params r sessionId
  | create platform targetId sid k method params sessionId =>
      have hu : Grows s { s with heap := s.heap ++ [{ platform, targetId, sessionId := sid }] } :=
        .of (E := []) rfl fun _ hc => hc
      exact hu.trans (sendCommand_grows _ _ _ _ _)
  | enter kind => exact .of (E := [_]) rfl fun _ hc => hc
  | answer c a => exact .of (E := [_]) rfl fun _ hc => hc
  | handOut => exact .of (E := [_]) rfl fun _ hc => hc
  | deliver => exact .of (E := [_, _]) rfl fun _ hc => hc
  | close => exact .of (E := []) rfl fun _ hc => hc
  | user => exact .of (E := []) rfl fun _ hc => hc
  | wait => exact .of (E := []) rfl fun _ hc => hc
  | read c => exact (readContext_keeps s c).grows
  | aside _ hb => exact hb.toBeside.grows

theorem Parts.grows {ρ : Rules} (h : Parts ρ s t) : Grows s t :=
  Parts.invariant (I := fun u => Grows s u) (fun _ _ hs h => hs.trans h.grows)
    (fun _ _ hs h => hs.trans h.grows) h (.refl s)

theorem onOpen_grows (s : State) (conn : ℕ) : Grows s (s.onOpen conn) := by
  rw [State.onOpen_eq]
  split
  · rename_i hall
    refine Grows.trans (t := (s.opening conn).emptied) ?_ (sendCommand_grows _ _ _ _ _)
    exact .of (E := [.ready conn]) rfl (opening_commands s conn hall)
  · refine .of (E := [.ready conn]) rfl fun cmd hc => ?_
    simp only [State.commands, State.opening, State.flushed, State.log, List.map_append,
      List.append_assoc] at hc ⊢
    exact List.mem_append_right _ hc

theorem State.Turns.grows {l : Label} (h : s.Turns l t) : Grows s t := by
  cases h with
  | start => exact ⟨[.starting], rfl, fun h => absurd List.mem_cons_self h⟩
  | openTask conn batch =>
      exact Grows.trans (.of (E := []) rfl fun _ hc => hc) (onOpen_grows _ conn)
  | connect => exact .of (E := [_]) rfl fun _ hc => hc
  | stopIdle => exact .of (E := [_]) rfl fun _ hc => hc
  | stopReturn => exact .of (E := [_]) rfl fun _ hc => hc
  | _ => exact .of (E := []) rfl fun _ hc => hc

theorem step_grows {l : Label} (hsh : Shape s.stack) (ht : s.step l = some t) : Grows s t := by
  cases hses : s.ofSession l with
  | true => exact (State.step_session ht hsh hses).grows
  | false =>
      have hpop : ∀ st, Grows s { s with stack := st } := fun st => .of (E := []) rfl fun _ hc => hc
      rcases State.step_parts (ρ := {}) ht hsh hses (fun _ => trivial) (fun _ => trivial)
        (fun _ _ _ _ _ _ _ _ => trivial) (fun _ _ _ _ => trivial)
        (fun _ _ _ _ => ⟨fun _ _ => trivial, fun _ _ _ _ _ _ _ _ => trivial⟩) (fun _ _ => trivial) with
        hp | ⟨-, rest, -, rfl⟩ | ⟨-, rest, -, rfl⟩ | ⟨rfl, conn, msg, batch, hst, rfl⟩
      · exact hp.grows
      · exact (hpop rest).trans (State.resume_settles _).grows
      · exact (hpop rest).trans (State.unwind_settles _).grows
      · have hlog : Grows { s with stack := [.draining batch] }
            (({ s with stack := [.draining batch] } : State).log (.handling msg)) :=
          .of (E := [.handling msg]) rfl fun _ hc => hc
        refine (hpop [.draining batch]).trans (hlog.trans ?_)
        rcases State.message_cases (ρ := {}) ⟨fun _ _ _ _ => trivial, fun _ => trivial⟩
          { s with stack := [.draining batch] } msg (fun _ _ _ _ _ _ => trivial)
          (fun _ _ _ _ _ _ _ => trivial) with
          ⟨hm, -⟩ | ⟨id, r, reply, u, v, -, -, -, hu, hv, hvt⟩
        · exact hm.grows
        · refine Grows.trans ?_ (hu.keeps.grows.trans (hv.parts.grows.trans hvt.grows))
          exact .of (E := [.invoked id r reply]) rfl fun _ hc => hc

/-- The messages handed to `sendText`, and what they have to do with the commands issued. -/
structure CommandStream (s : State) : Prop where
  increasing : (s.sentCommands.map Command.id).Pairwise (· < ·)
  complete : (s.sentCommands ++ s.pendingCommands).map Command.id = (issuedSince s.history).reverse
  quiet : (∀ conn, .ready conn ∉ s.history) → s.sentCommands = []
  /-- The Open event was handled: what was issued before, `Page.enable`, what was issued since. -/
  opened : ∀ later conn earlier, s.history = later ++ .ready conn :: earlier →
    s.pendingCommands = [] ∧ (∀ conn', .ready conn' ∉ later ++ earlier) ∧
    ∃ before n after since, s.sentCommands = before ++ pageEnable n :: after ∧
      later = since ++ [.issued n .ignored] ∧
      before.map Command.id = (issuedSince earlier).reverse ∧
      after.map Command.id = (issuedSince since).reverse

theorem readies_eq_zero {h : List Event} : readies h = 0 ↔ ∀ conn, .ready conn ∉ h := by
  rw [readies, List.countP_eq_zero]
  constructor
  · exact fun hno conn hmem => hno _ hmem rfl
  · intro hno e he
    cases e with
    | ready conn => exact absurd he (hno conn)
    | _ => simp [Event.isReady]

theorem CommandStream.of (h : Streams s)
    (hasc : (s.history.filterMap Event.issuedId?).Pairwise (· > ·)) : CommandStream s := by
  obtain ⟨as, ha⟩ := h.mirrors
  have hone : readies s.history ≤ 1 := by
    have := h.oneOpen.count
    have := h.oneOpen.conns
    omega
  have hids : (s.sentCommands ++ s.pendingCommands).map Command.id = (issuedSince s.history).reverse := by
    rw [← ha.sent, ← ha.queue, ← Outbox.stream, Outbox.stream_perform, List.map_reverse, ha.tells.ids]
  refine ⟨?_, hids, fun hno => ?_, fun later conn earlier heq => ?_⟩
  · have hpair : ((issuedSince s.history).reverse).Pairwise (· < ·) := by
      rw [List.pairwise_reverse]
      exact hasc.sublist (issuedSince_sublist s.history)
    rw [← hids, List.map_append] at hpair
    exact (List.pairwise_append.mp hpair).1
  · rw [← ha.sent]
    apply Outbox.sent_eq_nil
    by_contra hne
    have := ha.tells.readies_pos (by simpa using hne)
    rw [readies_eq_zero.mpr hno] at this
    exact absurd this (lt_irrefl 0)
  · have hpos : 0 < readies s.history := by
      rw [heq]
      simp only [readies, List.countP_append, List.countP_cons, Event.isReady, if_true]
      omega
    have hopen := ha.opened.trans (h.oneOpen.ready hpos)
    have hflush : as.any Outbox.Action.isFlush = true := (Outbox.opened_perform as).symm.trans hopen
    refine ⟨ha.queue.symm.trans ((Outbox.perform as).empty hopen), ?_, ?_⟩
    · rw [← readies_eq_zero]
      rw [heq] at hone
      simp only [readies, List.countP_append, List.countP_cons, Event.isReady, if_true] at hone ⊢
      omega
    · obtain ⟨n, since, as₁, as₂, hlater, rfl, h₁, h₂⟩ := ha.tells.split hone hflush heq
      refine ⟨(as₁.map Outbox.Action.item).reverse, n, (as₂.map Outbox.Action.item).reverse, since, ?_,
        hlater, ?_, ?_⟩
      · rw [← ha.sent, Outbox.sent_eq_stream hflush]
        simp [Outbox.Action.item]
      · rw [List.map_reverse, h₁]
      · rw [List.map_reverse, h₂]

/-- In every run of a first session with at most 2^31 commands, all of which serialise, the
messages are the commands issued since `start()`, in order, without loss or repetition, and
`Page.enable` once, where the Open event was handled. A call of `send_command` contributes the
command it was called with. -/
theorem commands_make_one_stream {ls : List Label} (hr : Transition.run State.step init ls = some s)
    (hn : issuedCount s.history ≤ 2 ^ 31) (hstop : ∀ l ∈ ls, l.isStop = false)
    (henc : ∀ l ∈ ls, l.encodes) :
    CommandStream s ∧ ∀ ks ks' method params sessionId u v es,
      ls = ks ++ .sendCommand method params sessionId :: ks' →
      Transition.run State.step init ks = some u →
      u.step (.sendCommand method params sessionId) = some v →
      s.history = es ++ v.history → .starting ∉ es →
      ⟨u.cmdId, method, params, sessionId⟩ ∈ s.sentCommands ++ s.pendingCommands := by
  have h0 : Streams init := by
    refine ⟨⟨[], .nil, rfl, rfl, rfl⟩, ⟨?_, ?_, ?_, ?_⟩, ⟨?_, ?_, ?_⟩⟩ <;>
      simp [init, State.opens, State.waiting, readies, State.Watching]
  have h := Transition.run_invariant_along
    (I := fun s => OneSession s ∧ Ascends s ∧ Streams s)
    (C := fun _ l => l.isStop = false ∧ l.encodes)
    (fun s l t h hC ht => ⟨h.1.step hC.1 ht, h.2.1.step h.1.shape ht,
      h.2.2.step h.1.shape h.1.running hC.1 hC.2 ht⟩)
    ⟨.init, .init, h0⟩
    (Transition.along_of_forall (C := fun l => l.isStop = false ∧ l.encodes)
      (fun l hl => ⟨hstop l hl, henc l hl⟩) init) hr
  refine ⟨.of h.2.2 (h.2.1.ordered hn), ?_⟩
  intro ks ks' method params sessionId u v es hls hu hv hes hst
  subst hls
  obtain ⟨u', hu', hrest⟩ := Transition.run_append.mp hr
  obtain rfl := Option.some.inj (hu.symm.trans hu')
  obtain ⟨v', hv', hrest⟩ := Transition.run_cons.mp hrest
  obtain rfl := Option.some.inj (hv.symm.trans hv')
  have hsh : Shape v.stack := State.step_shape (State.run_shape hu) hv
  have hgrow := Transition.run_invariant (I := fun w => Grows v w ∧ Shape w.stack)
    (fun w l w' hw ht => ⟨hw.1.trans (step_grows hw.2 ht), State.step_shape hw.2 ht⟩)
    ⟨.refl v, hsh⟩ hrest
  obtain ⟨⟨fs, hfs, hkeep⟩, -⟩ := hgrow
  obtain rfl : es = fs := List.append_cancel_right (hes.symm.trans hfs)
  have hmem : Command.mk u.cmdId method params sessionId ∈ v.commands := by
    have he : Label.encodes (.sendCommand method params sessionId) := henc _ (by simp)
    simp only [State.step, Option.ite_none_right_eq_some, Option.some.injEq] at hv
    obtain ⟨-, rfl⟩ := hv
    exact sendCommand_mem (s := u.enter .operation) (Command.dumpable_of he.1 he.2.1 he.2.2)
  have hc := hkeep hst _ hmem
  simpa [State.commands, State.sentCommands] using hc

/-- Two commands before the Open event is handled, one after it. -/
def streamRun : List Label :=
  [.start, .sendCommand (str "Target.getTargets") .null [], .fork 0, .launched 0 true, .workDone 0,
    .opened, .sendCommand (str "Browser.getVersion") .null [], .wake, .swap, .next, .next,
    .sendCommand (str "Page.reload") .null []]

theorem commands_make_one_stream_sample : ∃ s,
    Transition.run State.step init streamRun = some s ∧ CommandStream s ∧
    s.sentCommands.map Command.id = [0, 1, 2, 3] ∧
    s.sentCommands.map Command.method = [str "Target.getTargets", str "Browser.getVersion",
      str "Page.enable", str "Page.reload"] := by
  have h : (Transition.run State.step init streamRun).any (fun s =>
      decide (issuedCount s.history ≤ 2 ^ 31 ∧ s.sentCommands.map Command.id = [0, 1, 2, 3] ∧
        s.sentCommands.map Command.method = [str "Target.getTargets", str "Browser.getVersion",
          str "Page.enable", str "Page.reload"])) = true := by
    decide +kernel
  obtain ⟨s, hs, h⟩ := Option.any_eq_true _ _ |>.mp h
  simp only [decide_eq_true_eq] at h
  exact ⟨s, hs, (commands_make_one_stream hs h.1 (by simp [streamRun, Label.isStop])
    (by
      simp only [streamRun, Label.encodes, List.forall_mem_cons, List.not_mem_nil, false_implies,
        implies_true, and_true, true_and]
      decide +kernel)).1, h.2⟩

theorem step_send_ready {method : Str} (hm : validUtf8 method = true) (hready : s.wsReady = true)
    (hst : s.stack = []) :
    ∃ t, s.step (.sendCommand method .null []) = some t ∧ t.wsReady = true ∧ t.stack = [] ∧
      t.cmdId = State.nextId s.cmdId ∧
      t.sentCommands = s.sentCommands ++ [⟨s.cmdId, method, .null, []⟩] := by
  have hd : Command.dumpable ⟨s.cmdId, method, .null, []⟩ = true := Command.dumpable_of hm rfl rfl
  have hturn : s.userTurn = true := by simp [State.userTurn, hst]
  have hstep : s.step (.sendCommand method .null []) =
      some (((s.enter .operation).issue (.command s.calls)).sendText ⟨s.cmdId, method, .null, []⟩) := by
    simp only [State.step, hturn, if_true, State.sendCommand, State.enter, State.issue, hready, hd]
  exact ⟨_, hstep, hready, hst, rfl, sentCommands_sendText _ _⟩

theorem run_sends {method : Str} (hm : validUtf8 method = true) (n : ℕ) {s : State}
    (hready : s.wsReady = true) (hst : s.stack = []) (hid : s.cmdId + n ≤ 2 ^ 31 - 1) :
    ∃ t, Transition.run State.step s (List.replicate n (.sendCommand method .null [])) = some t ∧
      t.wsReady = true ∧ t.stack = [] ∧ t.cmdId = s.cmdId + n := by
  induction n generalizing s with
  | zero => exact ⟨s, rfl, hready, hst, by simp⟩
  | succ n ih =>
      obtain ⟨u, hu, hur, hust, huid, -⟩ := step_send_ready hm hready hst
      rw [State.nextId, if_neg (by omega)] at huid
      obtain ⟨t, ht, htr, htst, htid⟩ := ih hur hust (by omega)
      refine ⟨t, ?_, htr, htst, by omega⟩
      rw [List.replicate_succ]
      exact Transition.run_cons.mpr ⟨u, hu, ht⟩

/-- The ids from 1 to 2^31 - 1, and one more. -/
def wrappingRun : List Label :=
  connect ++ List.replicate (2 ^ 31) (.sendCommand (str "Page.reload") .null [])

theorem wrapped_ids_fall : ∃ s, Transition.run State.step init wrappingRun = some s ∧
    (∀ l ∈ wrappingRun, l.isStop = false ∧ l.encodes) ∧
    ¬ (s.sentCommands.map Command.id).Pairwise (· < ·) := by
  have hm : validUtf8 (str "Page.reload") = true := by decide +kernel
  have h : (Transition.run State.step init connect).any (fun s =>
      decide (s.wsReady = true ∧ s.stack.length = 0 ∧ s.cmdId = 1)) = true := by
    decide +kernel
  obtain ⟨s, hs, h⟩ := Option.any_eq_true _ _ |>.mp h
  simp only [decide_eq_true_eq, List.length_eq_zero_iff] at h
  obtain ⟨hready, hst, hid⟩ := h
  obtain ⟨n, hn⟩ : ∃ n : ℕ, n + 2 = 2 ^ 31 := ⟨2 ^ 31 - 2, rfl⟩
  obtain ⟨t, ht, htr, htst, htid⟩ := run_sends hm n hready hst (by omega)
  obtain ⟨u, hu, hur, hust, huid, husent⟩ := step_send_ready hm htr htst
  obtain ⟨v, hv, -, -, -, hvsent⟩ := step_send_ready hm hur hust
  have hlabels : wrappingRun = connect ++ (List.replicate n (.sendCommand (str "Page.reload") .null []) ++
      [.sendCommand (str "Page.reload") .null [], .sendCommand (str "Page.reload") .null []]) := by
    rw [wrappingRun, ← hn, List.replicate_add]
    rfl
  refine ⟨v, ?_, ?_, ?_⟩
  · rw [hlabels]
    refine Transition.run_append.mpr ⟨s, hs, Transition.run_append.mpr ⟨t, ht, ?_⟩⟩
    exact Transition.run_cons.mpr ⟨u, hu, Transition.run_cons.mpr ⟨v, hv, rfl⟩⟩
  · rw [wrappingRun]
    intro l hl
    rcases List.mem_append.mp hl with hl | hl
    · have hc : ∀ l ∈ connect, l.isStop = false ∧ l.encodes := by
        simp [connect, Label.isStop, Label.encodes]
      exact hc l hl
    · obtain rfl := List.eq_of_mem_replicate hl
      exact ⟨rfl, hm, rfl, rfl⟩
  · rw [State.nextId, if_pos (by omega)] at huid
    rw [hvsent, husent, huid]
    intro hp
    have hlast : [t.cmdId, -2 ^ 31].Pairwise (· < ·) := hp.sublist (by simp)
    simp only [List.pairwise_cons, List.mem_singleton, forall_eq] at hlast
    omega

end LynneSocial.Browser
