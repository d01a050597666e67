import LynneSocial.Browser.Completion

/-!
# Waits

One call of `wait_for_selector` among everything else that goes on. A step has
nothing to do with the wait, or it runs the check that was posted, or it handles
the response to a poll of the wait.
-/
namespace LynneSocial.Browser

variable {s t u : State} {n : ℕ} {l : Label}

/-- This is the closure of the call. -/
def State.WaitOf (s : State) (n v : ℕ) (x : Waiter) : Prop := s.waiters[v]? = some x ∧ x.call = n

def Task.checks (v : ℕ) : Task → Bool
  | .check w => w == v
  | _ => false

/-- How many checks of the closure are posted. -/
def State.checksOf (s : State) (v : ℕ) : ℕ := s.waiting.countP (Task.checks v)

/-- A function of the call is called. -/
def Event.Tells (n : ℕ) : Event → Prop
  | .answered call _ => call = .operation n
  | _ => False

instance (n : ℕ) : DecidablePred (Event.Tells n) := fun e => by
  unfold Event.Tells
  split <;> infer_instance

theorem Event.tells_iff {e : Event} : e.Tells n ↔ ∃ a, e = .answered (.operation n) a := by
  cases e with
  | answered call a =>
      constructor
      · rintro rfl
        exact ⟨a, rfl⟩
      · rintro ⟨_, ⟨⟩⟩
        rfl
  | _ => exact ⟨False.elim, by rintro ⟨_, ⟨⟩⟩⟩

/-- How often the application was told how the operation ended. -/
def timesTold (n : ℕ) (h : List Event) : ℕ := h.countP fun e => e.Tells n

/-- Nothing but its closure acts for the call. -/
structure Own (n : ℕ) (s : State) : Prop where
  callers : ∀ id r, s.pending.lookup id = some r → r.caller ≠ some (.operation n)
  unique : ∀ v v' x x', s.WaitOf n v x → s.WaitOf n v' x' → v = v'

/-- Nothing happens to the wait. -/
structure Elsewhere (n : ℕ) (s t : State) : Prop where
  own : Own n s → Own n t
  waiter : ∀ v x, t.WaitOf n v x ↔ s.WaitOf n v x
  checks : ∀ v x, s.WaitOf n v x → t.checksOf v = s.checksOf v
  polls : ∀ v x, s.WaitOf n v x → ∀ id, t.pending.lookup id = some (.poll v) →
    s.pending.lookup id = some (.poll v)
  /-- Nothing is done for closures that are still to come. -/
  spare : ∀ v, t.waiters[v]? = none → s.waiters[v]? = none ∧ t.checksOf v ≤ s.checksOf v ∧
    ∀ id, t.pending.lookup id = some (.poll v) → s.pending.lookup id = some (.poll v)
  history : ∃ es, (∀ e ∈ es, ¬ Event.Tells n e) ∧ t.history = es ++ s.history

namespace Elsewhere

theorem trans (h : Elsewhere n s t) (k : Elsewhere n t u) : Elsewhere n s u := by
  obtain ⟨es, hes, hh⟩ := h.history
  obtain ⟨fs, hfs, hk⟩ := k.history
  refine ⟨k.own ∘ h.own, fun v x => (k.waiter v x).trans (h.waiter v x), fun v x hx => ?_,
    fun v x hx id hl => ?_, fun v hv => ?_, fs ++ es, ?_, ?_⟩
  · exact (k.checks v x ((h.waiter v x).mpr hx)).trans (h.checks v x hx)
  · exact h.polls v x hx id (k.polls v x ((h.waiter v x).mpr hx) id hl)
  · obtain ⟨ht, hc, hp⟩ := k.spare v hv
    obtain ⟨hs, hc', hp'⟩ := h.spare v ht
    exact ⟨hs, hc.trans hc', fun id hl => hp' id (hp id hl)⟩
  · intro e he
    exact (List.mem_append.mp he).elim (hfs e) (hes e)
  · rw [hk, hh, List.append_assoc]

/-- Entries are only dropped. -/
theorem of {E : List Event} (hw : t.waiters = s.waiters) (hq : t.waiting = s.waiting)
    (hp : ∀ id r, t.pending.lookup id = some r → s.pending.lookup id = some r)
    (hh : t.history = E ++ s.history) (h : ∀ e ∈ E, ¬ Event.Tells n e) : Elsewhere n s t := by
  have hwait : ∀ v x, t.WaitOf n v x ↔ s.WaitOf n v x := fun v x => by rw [State.WaitOf, hw, State.WaitOf]
  have hcount : ∀ v, t.checksOf v = s.checksOf v := fun v => by rw [State.checksOf, hq, State.checksOf]
  refine ⟨fun ho => ⟨fun id r hl => ho.callers id r (hp id r hl), ?_⟩, hwait, fun v _ _ => hcount v,
    fun _ _ _ id => hp id _, fun v hv => ⟨hw ▸ hv, (hcount v).le, fun id => hp id _⟩, E, h, hh⟩
  exact fun v v' x x' hx hx' => ho.unique v v' x x' ((hwait v x).mp hx) ((hwait v' x').mp hx')

/-- Nothing that a wait depends on changes. -/
theorem still (h : (t.waiters, t.waiting, t.pending, t.history) =
    (s.waiters, s.waiting, s.pending, s.history)) : Elsewhere n s t := by
  simp only [Prod.mk.injEq] at h
  obtain ⟨hw, hq, hp, hh⟩ := h
  exact of (E := []) hw hq (fun _ _ hl => hp ▸ hl) hh nofun

/-- An event that does not concern the call is logged. -/
theorem logs {e : Event} (h : (t.waiters, t.waiting, t.pending, t.history) =
    (s.waiters, s.waiting, s.pending, e :: s.history)) (he : ¬ e.Tells n) : Elsewhere n s t := by
  simp only [Prod.mk.injEq] at h
  obtain ⟨hw, hq, hp, hh⟩ := h
  exact of (E := [e]) hw hq (fun _ _ hl => hp ▸ hl) hh (by simpa using he)

theorem refl (s : State) : Elsewhere n s s := still rfl

theorem enter (s : State) (kind : ℕ → Call) : Elsewhere n s (s.enter kind) := logs rfl id

theorem log {e : Event} (he : ¬ e.Tells n) (s : State) : Elsewhere n s (s.log e) := logs rfl he

theorem user (s : State) : Elsewhere n s { s with stack := .user :: s.stack } := still rfl

theorem answer {c : Call} (hc : c ≠ .operation n) (s : State) (a : Answer) :
    Elsewhere n s (s.answer c a).1 :=
  logs rfl hc

theorem context (s : State) (c : ℕ) (f : CdpBrowserContext → CdpBrowserContext) :
    Elsewhere n s (s.modifyContext c f) := still rfl

theorem keeps (h : Keeps s t) : Elsewhere n s t := by
  obtain ⟨es, hes, hh⟩ := h.history
  refine of (E := es) h.waiters ?_ (fun id r hl => h.pending ▸ hl) hh fun e he => ?_
  · rw [State.waiting, State.waiting, h.stack, show t.scheduler.postQueue = s.scheduler.postQueue from
      congrArg Line.queue h.line]
  · rw [Event.tells_iff]
    rintro ⟨a, rfl⟩
    exact hes _ he

/-- The entry belongs to another call. -/
def Alien (n : ℕ) (s : State) (r : PendingRequest) : Prop :=
  r.caller ≠ some (.operation n) ∧ ∀ v x, s.WaitOf n v x → r ≠ .poll v

theorem issue {r : PendingRequest} (hr : Alien n s r)
    (hp : ∀ v, r = .poll v → s.waiters[v]? ≠ none) : Elsewhere n s (s.issue r) := by
  refine ⟨fun ho => ⟨fun id r' hl => ?_, ho.unique⟩, fun _ _ => .rfl, fun _ _ _ => rfl,
    fun v x hx id hl => ?_, fun v hv => ⟨hv, le_rfl, fun id hl => ?_⟩, [_], by simp [Event.tells_iff], rfl⟩
  · rw [issue_lookup] at hl
    split at hl
    · exact Option.some.inj hl ▸ hr.1
    · exact ho.callers id r' hl
  · rw [issue_lookup] at hl
    split at hl
    · exact absurd (Option.some.inj hl) (hr.2 v x hx)
    · exact hl
  · rw [issue_lookup] at hl
    split at hl
    · exact absurd hv (hp v (Option.some.inj hl))
    · exact hl

theorem send {r : PendingRequest} (hr : Alien n s r) (method : Str) (params : Json) (sessionId : Str)
    (hp : ∀ v, r = .poll v → s.waiters[v]? ≠ none) :
    Elsewhere n s (s.sendCommand method params r sessionId).1 := by
  unfold State.sendCommand
  dsimp only
  split
  · split
    · exact (issue hr hp).trans (still rfl)
    · exact issue hr hp
  · exact (issue hr hp).trans (still rfl)

theorem alien_of_caller {r : PendingRequest} {c : Call} (hr : r.caller = some c) (hc : c ≠ .operation n) :
    Alien n s r := by
  refine ⟨fun h => hc (Option.some.inj (hr.symm.trans h)), ?_⟩
  rintro v x - rfl
  cases hr

theorem alien_ignored : Alien n s .ignored := ⟨nofun, nofun⟩

theorem answerRequest (s : State) (m : ℕ) (a : Answer) : Elsewhere n s (s.answer (.request m) a).1 :=
  answer (by simp) s a

theorem sendRequest {r : PendingRequest} {m : ℕ} (s : State) (hr : r.caller = some (.request m))
    (method : Str) (params : Json) (sessionId : Str) :
    Elsewhere n s (s.sendCommand method params r sessionId).1 :=
  send (alien_of_caller hr (by simp)) method params sessionId (by rintro v rfl; cases hr)

theorem onOk {k : Continuation} (s : State) (platform : Str) (c : ℕ) :
    Elsewhere n s (k.onOk s platform c).1 := by
  have hlog : Elsewhere n s (s.log (.handedOut platform c k)) := log id s
  cases k with
  | getContext call => exact hlog.trans ((context _ c _).trans (answerRequest _ call _))
  | saveSession p call => exact hlog.trans (sendRequest _ rfl _ _ _)
  | restoreSession cookies call => exact hlog.trans (sendRequest _ rfl _ _ _)

theorem doGetContext (s : State) (platform : Str) (k : Continuation) :
    Elsewhere n s (s.doGetContext platform k).1 := by
  unfold State.doGetContext
  split
  · exact answerRequest s _ _
  · split
    · exact onOk s platform _
    · exact sendRequest s rfl _ _ _

theorem restoreSession (s : State) (platform : Str) (content : Option Parsed) :
    Elsewhere n s (s.restoreSession platform content).1 := by
  have hent : Elsewhere n s (s.enter .request) := enter s _
  unfold State.restoreSession
  split
  · exact hent.trans (answerRequest _ _ _)
  · split
    · exact hent.trans (answerRequest _ _ _)
    · exact hent.trans (doGetContext _ _ _)

/-- Another wait begins. -/
theorem wait {x : Waiter} (s : State) (hx : x.call ≠ n) : Elsewhere n s
    (({ s with waiters := s.waiters ++ [x] } : State).post (.check s.waiters.length)) := by
  have hwait : ∀ v y, (({ s with waiters := s.waiters ++ [x] } : State).post
      (.check s.waiters.length)).WaitOf n v y ↔ s.WaitOf n v y := by
    intro v y
    change (s.waiters ++ [x])[v]? = some y ∧ y.call = n ↔ s.waiters[v]? = some y ∧ y.call = n
    rcases Nat.lt_trichotomy v s.waiters.length with hv | rfl | hv
    · rw [List.getElem?_append_left hv]
    · rw [List.getElem?_concat_length, List.getElem?_eq_none le_rfl]
      constructor
      · rintro ⟨he, h⟩
        exact absurd ((Option.some.inj he).symm ▸ h) hx
      · rintro ⟨h, -⟩
        cases h
    · rw [List.getElem?_eq_none (by simp; omega), List.getElem?_eq_none (by omega)]
  have hcount : ∀ v, s.waiters.length ≠ v → State.checksOf (({ s with waiters := s.waiters ++ [x] } :
      State).post (.check s.waiters.length)) v = s.checksOf v := fun v hv => by
    simp [State.checksOf, State.waiting, State.post, UvScheduler.post, Task.checks, hv]
  refine ⟨fun ho => ⟨ho.callers, fun v v' y y' hy hy' => ?_⟩, hwait, fun v y hy => ?_,
    fun _ _ _ _ => id, fun v hv => ?_, [], by simp, rfl⟩
  · exact ho.unique v v' y y' ((hwait v y).mp hy) ((hwait v' y').mp hy')
  · exact hcount v ((List.getElem?_eq_some_iff.mp hy.1).1).ne'
  · have hlen : s.waiters.length < v := by
      have hle : (s.waiters ++ [x]).length ≤ v := List.getElem?_eq_none_iff.mp hv
      rwa [List.length_append] at hle
    exact ⟨List.getElem?_eq_none hlen.le, (hcount v hlen.ne).le, fun _ => id⟩

section Operations
variable (hn : s.calls ≠ n)
include hn

theorem operation_ne : Call.operation s.calls ≠ .operation n := by
  intro h
  cases h
  exact hn rfl

theorem command (method : Str) (params : Json) (r : PendingRequest) (sessionId : Str)
    (hr : r.caller = some (.operation s.calls)) :
    Elsewhere n s ((s.enter .operation).sendCommand method params r sessionId).1 :=
  (enter s _).trans (send (alien_of_caller hr (operation_ne hn)) _ _ _ (by rintro v rfl; cases hr))

theorem refused (a : Answer) :
    Elsewhere n s ((s.enter .operation).answer (.operation s.calls) a).1 :=
  (enter s _).trans (answer (operation_ne hn) _ _)

theorem close (c : ℕ) : Elsewhere n s (s.close c).1 := by
  unfold State.close
  split
  · exact refused hn _
  · exact (enter s _).trans ((context _ c _).trans
      (send (alien_of_caller rfl (operation_ne hn)) _ _ _ nofun))

theorem act (c : ℕ) (js : Str) : Elsewhere n s (s.act c js).1 := by
  unfold State.act
  split
  · exact refused hn _
  · exact command hn _ _ _ _ rfl

theorem pressKey (c : ℕ) (key : Str) : Elsewhere n s (s.pressKey c key).1 := by
  unfold State.pressKey
  split
  · exact refused hn _
  · exact command hn _ _ _ _ rfl

theorem waitForSelector (c : ℕ) (selector : Str) (timeoutMs : ℕ) :
    Elsewhere n s (s.waitForSelector c selector timeoutMs).1 := by
  unfold State.waitForSelector
  split
  · exact refused hn _
  · exact (enter s .operation).trans (wait _ hn)

end Operations

theorem finishWaiter {v : ℕ} (s : State) (hv : ∀ x, ¬ s.WaitOf n v x) : Elsewhere n s (s.finishWaiter v) := by
  have hwait : ∀ v' x, (s.finishWaiter v).WaitOf n v' x ↔ s.WaitOf n v' x := by
    intro v' x
    by_cases hne : v = v'
    · subst hne
      refine iff_of_false ?_ (hv x)
      rintro ⟨hx, hc⟩
      change (s.waiters.modify v _)[v]? = some x at hx
      rw [List.getElem?_modify_eq, Option.map_eq_map, Option.map_eq_some_iff] at hx
      obtain ⟨y, hy, rfl⟩ := hx
      exact hv y ⟨hy, hc⟩
    · change (s.waiters.modify v _)[v']? = some x ∧ _ ↔ _
      rw [List.getElem?_modify_ne _ _ hne, State.WaitOf]
  refine ⟨fun ho => ⟨ho.callers, fun v v' x x' hx hx' => ?_⟩, hwait, fun _ _ _ => rfl,
    fun _ _ _ _ => id, fun w hw => ⟨?_, le_rfl, fun _ => id⟩, [], by simp, rfl⟩
  · exact ho.unique v v' x x' ((hwait v x).mp hx) ((hwait v' x').mp hx')
  · have hlen : (s.waiters.modify v fun x => { x with done := true }).length ≤ w :=
      List.getElem?_eq_none_iff.mp hw
    exact List.getElem?_eq_none (by simpa using hlen)

/-- The check of another wait. -/
theorem check {v : ℕ} (s : State) (hv : ∀ x, ¬ s.WaitOf n v x) : Elsewhere n s (s.check v).1 := by
  unfold State.check
  split
  · exact refl s
  · rename_i x hx
    split
    · exact refl s
    · have hread : Elsewhere n s (s.readContext x.ctx) := keeps (readContext_keeps s x.ctx)
      have hv' : ∀ y, ¬ (s.readContext x.ctx).WaitOf n v y := fun y hy => hv y ((hread.waiter v y).mp hy)
      have hne : Call.operation x.call ≠ .operation n := fun h => hv x ⟨hx, by cases h; rfl⟩
      refine hread.trans ?_
      dsimp only
      split
      · exact finishWaiter _ hv'
      · split
        · exact (finishWaiter _ hv').trans (answer hne _ _)
        · refine send ⟨by simp [PendingRequest.caller], fun w y hy h => ?_⟩ _ _ _ fun w h => ?_
          · cases h
            exact hv' y hy
          · cases h
            rw [(readContext_keeps s x.ctx).waiters, hx]
            exact Option.some_ne_none x

theorem resume (s : State) : Elsewhere n s s.resume := by
  unfold State.resume
  split
  · rename_i id rest hst
    refine of (E := []) rfl ?_ (fun i r hl => ?_) rfl nofun
    · simp [State.waiting, hst, Frame.batch]
    · have hl : AList.lookup i (AList.erase id s.pending) = some r := hl
      rw [StdMap.lookup_erase_eq_ite] at hl
      split at hl
      · cases hl
      · exact hl
  · exact refl s

theorem unwind (s : State) : Elsewhere n s s.unwind := by
  unfold State.unwind
  split
  · rename_i hst
    exact of (E := [_]) rfl (by simp [State.waiting, hst, Frame.batch]) (fun _ _ => id) rfl
      (by simp [Event.Tells])
  · exact refl s

theorem finish {r : State × Ctl} (h : Elsewhere n s r.1) : Elsewhere n s (State.finish r) := by
  unfold State.finish
  split
  · exact h.trans (resume _)
  · exact h
  · exact h.trans (unwind _)

/-- A function of an entry of another call. -/
theorem invoke {r : PendingRequest} (s : State) (hr : Alien n s r) (reply : Reply) :
    Elsewhere n s (s.invoke r reply).1 := by
  have hcall : ∀ {call}, r.caller = some (.operation call) → Call.operation call ≠ .operation n :=
    fun h h' => hr.1 (h.trans (congrArg some h'))
  cases r with
  | command call => cases reply <;> exact answer (hcall rfl) _ _
  | ignored => exact refl s
  | createTarget platform k =>
      cases reply with
      | ok result =>
          rw [State.invoke_createTarget]
          split
          · exact refl s
          · exact sendRequest _ rfl _ _ _
      | error text => exact answerRequest _ _ _
  | attachToTarget platform targetId k =>
      cases reply with
      | ok result =>
          rw [State.invoke_attachToTarget]
          split
          · exact refl s
          · rename_i sessionId _
            have hheap : Elsewhere n s { s with heap := s.heap ++ [{ platform, targetId, sessionId }] } :=
              still rfl
            exact hheap.trans ((sendRequest _ rfl _ _ _).trans (send alien_ignored _ _ _ nofun))
      | error text => exact answerRequest _ _ _
  | addScript platform c k =>
      cases reply with
      | ok result =>
          exact (keeps (resetContext_keeps s platform c)).trans ((log id _).trans (onOk _ _ _))
      | error text => exact logs (e := .rejected c k) rfl id
  | getCookies platform call =>
      cases reply with
      | ok result =>
          unfold State.invoke
          dsimp only
          split
          · exact refl s
          · exact (log id s).trans (answerRequest _ _ _)
      | error text => exact answerRequest _ _ _
  | setCookies call => cases reply <;> exact answerRequest _ _ _
  | closeTarget c call =>
      cases reply with
      | ok result =>
          exact (keeps ((readContext_keeps s c).trans (removeContext_keeps _ _))).trans
            (answer (hcall rfl) _ _)
      | error text => exact answer (hcall rfl) _ _
  | keyDown c key call =>
      cases reply with
      | ok result =>
          exact (keeps (readContext_keeps s c)).trans
            (send (alien_of_caller rfl (hcall rfl)) _ _ _ nofun)
      | error text => exact answer (hcall rfl) _ _
  | poll v =>
      have hv : ∀ x, ¬ s.WaitOf n v x := fun x hx => hr.2 v x hx rfl
      cases reply with
      | ok result =>
          unfold State.invoke
          dsimp only
          split
          · rename_i x res hx hres
            have hne : Call.operation x.call ≠ .operation n := fun h => hv x ⟨hx, by cases h; rfl⟩
            split
            · exact refl s
            · split
              · exact (finishWaiter s hv).trans (answer hne _ _)
              · exact check s hv
              · exact refl s
          · exact refl s
      | error text => exact check s hv

theorem onCdpEvent (s : State) (msg : Parsed) : Elsewhere n s (s.onCdpEvent msg) := by
  unfold State.onCdpEvent
  split
  · dsimp only
    split
    · exact logs rfl id
    · exact refl s
  · exact refl s

theorem onOpen (s : State) (conn : ℕ) : Elsewhere n s (s.onOpen conn) := by
  have hopen : Elsewhere n s (s.opening conn) := logs (e := .ready conn) rfl id
  rw [State.onOpen_eq]
  split
  · have hempty : Elsewhere n (s.opening conn) (s.opening conn).emptied := still rfl
    exact hopen.trans (hempty.trans (send alien_ignored _ _ _ nofun))
  · exact hopen

theorem post {task : Task} (s : State) (h : ∀ v, task.checks v = false) : Elsewhere n s (s.post task) := by
  have hcount : ∀ v, (s.post task).checksOf v = s.checksOf v := fun v => by
    simp [State.checksOf, State.waiting, State.post, UvScheduler.post, h]
  exact ⟨fun ho => ⟨ho.callers, ho.unique⟩, fun _ _ => .rfl, fun v _ _ => hcount v,
    fun _ _ _ _ => id, fun v hv => ⟨hv, (hcount v).le, fun _ => id⟩, [], by simp, rfl⟩

/-- Frames come and go. -/
theorem restack {st : List Frame} (s : State) (h : st.flatMap Frame.batch = s.stack.flatMap Frame.batch) :
    Elsewhere n s { s with stack := st } :=
  of (E := []) rfl (by simp [State.waiting, h]) (fun _ _ => id) rfl nofun

/-- A task that is no check leaves the batch. -/
theorem take {task : Task} {batch : List Task} (hst : s.stack = [.draining (task :: batch)])
    (h : ∀ v x, s.WaitOf n v x → task.checks v = false) :
    Elsewhere n s { s with stack := [.draining batch] } := by
  refine ⟨fun ho => ⟨ho.callers, ho.unique⟩, fun _ _ => .rfl, fun v x hx => ?_,
    fun _ _ _ _ => id, fun v hv => ⟨hv, ?_, fun _ => id⟩, [], by simp, rfl⟩
  · simp [State.checksOf, State.waiting, hst, Frame.batch, h v x hx]
  · simp only [State.checksOf, State.waiting, hst, Frame.batch, List.flatMap_cons, List.flatMap_nil,
      List.append_nil, List.countP_append, List.countP_cons]
    omega

theorem session (ht : s.Turns l t) : Elsewhere n s t := by
  cases ht with
  | startAgain => exact refl s
  | start =>
      refine of (E := [_]) rfl ?_ (fun _ _ => id) rfl (by simp [Event.Tells])
      have hq : s.scheduler.start.postQueue = s.scheduler.postQueue := by
        unfold UvScheduler.start
        split <;> rfl
      simp [State.waiting, hq]
  | stop =>
      refine of (E := []) rfl ?_ (fun _ _ => id) rfl (List.forall_mem_nil _)
      have hq : s.scheduler.stop.postQueue = s.scheduler.postQueue := by
        unfold UvScheduler.stop
        split <;> rfl
      simp [State.waiting, hq, Frame.batch]
  | stopIdle => exact logs rfl id
  | stopReturn rest hst =>
      exact of (E := [_]) rfl (by simp [State.waiting, hst, Frame.batch]) (fun _ _ => id) rfl
        (by simp [Event.Tells])
  | connect => exact logs rfl id
  | opened =>
      have hphase : Elsewhere n s { s with ws := { s.ws with phase := .open } } := still rfl
      exact hphase.trans (post _ fun _ => rfl)
  | openTask conn batch hst => exact (take hst fun _ _ _ => rfl).trans (onOpen _ conn)
  | _ => exact still rfl

end Elsewhere

theorem message_wait (h : Own n s) (hu : Elsewhere n s u) (msg : Parsed) :
    Elsewhere n s (u.onWsMessage (some msg)) ∨
    ∃ v x id reply w, s.WaitOf n v x ∧ u.pending.lookup id = some (.poll v) ∧ msg.id? = some id ∧
      msg.reply = some reply ∧ w = (u.log (.handling msg)).calling id (.poll v) reply ∧
      u.onWsMessage (some msg) = State.finish (w.invoke (.poll v) reply) := by
  have hlog : Elsewhere n s (u.log (.handling msg)) := hu.trans (.log id u)
  unfold State.onWsMessage
  dsimp only
  split
  · rcases (u.log (.handling msg)).onResponse_cases msg with ⟨heq, -⟩ | ⟨id, r, reply, hid, hl, hreply, heq⟩
    · rw [heq]
      exact .inl hlog
    · have hcall : Elsewhere n s ((u.log (.handling msg)).calling id r reply) :=
        hlog.trans (.logs rfl fun h => h)
      by_cases hv : ∃ v x, s.WaitOf n v x ∧ r = .poll v
      · obtain ⟨v, x, hx, rfl⟩ := hv
        exact .inr ⟨v, x, id, reply, _, hx, hl, hid, hreply, rfl, heq⟩
      · rw [heq]
        refine .inl (.finish (hcall.trans (.invoke _ ⟨?_, fun v x hx e => ?_⟩ reply)))
        · exact (hlog.own h).callers id r hl
        · exact hv ⟨v, x, (hcall.waiter v x).mp hx, e⟩
  · exact .inl (hlog.trans (.onCdpEvent _ msg))

/-- A step has nothing to do with the wait, runs a posted check, or handles a response that
belongs to it. -/
theorem State.step_wait (h : Own n s) (hn : l.isOperation = true → s.calls ≠ n) (hsh : Shape s.stack)
    (ht : s.step l = some t) :
    Elsewhere n s t ∨
    (∃ v x batch, s.WaitOf n v x ∧ l = .next ∧ s.stack = [.draining (.check v :: batch)] ∧
      t = (({ s with stack := [.draining batch] } : State).check v).1) ∨
    ∃ v x id reply u, s.WaitOf n v x ∧ l = .next ∧ s.Answers id (.poll v) reply u ∧
      t = finish (u.invoke (.poll v) reply) := by
  by_cases hs : s.ofSession l = true
  · exact .inl (.session (step_session ht hsh hs))
  cases step_does ht hsh (by simpa using hs) with
  | drained rest hst => exact .inl (.restack s (by simp [hst, Frame.batch]))
  | userTask batch hst => exact .inl ((Elsewhere.take hst fun _ _ _ => rfl).trans (.user _))
  | check v batch hst =>
      by_cases hv : ∃ x, s.WaitOf n v x
      · obtain ⟨x, hx⟩ := hv
        exact .inr (.inl ⟨v, x, batch, hx, rfl, hst, rfl⟩)
      · have htake : Elsewhere n s { s with stack := [.draining batch] } :=
          .take hst fun w x hx => by
            have hne : v ≠ w := fun e => hv ⟨x, e ▸ hx⟩
            simp [Task.checks, hne]
        exact .inl (htake.trans (.check _ fun x hx => hv ⟨x, hx⟩))
  | message conn data batch hst =>
      have htake : Elsewhere n s { s with stack := [.draining batch] } := .take hst fun _ _ _ => rfl
      cases data with
      | none => exact .inl htake
      | some msg =>
          rcases message_wait h htake msg with hm | ⟨v, x, id, reply, u, hx, hl, hid, hreply, rfl, heq⟩
          · exact .inl hm
          · exact .inr (.inr ⟨v, x, id, reply, _, hx, rfl, ⟨conn, msg, batch, hst, hl, hid, hreply, rfl⟩, heq⟩)
  | sendCommand method params sessionId => exact .inl (.command (hn rfl) _ _ _ _ rfl)
  | getContext platform => exact .inl ((Elsewhere.enter s _).trans (.doGetContext _ _ _))
  | saveSession platform => exact .inl ((Elsewhere.enter s _).trans (.doGetContext _ _ _))
  | restoreSession platform content => exact .inl (.restoreSession s _ _)
  | close c => exact .inl (.close (hn rfl) c)
  | command c op => exact .inl (.command (hn rfl) _ _ _ _ rfl)
  | act c js => exact .inl (.act (hn rfl) c js)
  | pressKey c key => exact .inl (.pressKey (hn rfl) c key)
  | waitForSelector c selector timeoutMs => exact .inl (.waitForSelector (hn rfl) c selector timeoutMs)
  | onEvent sessionId method =>
      have hset : Elsewhere n (s.enter .operation) { s.enter .operation with
          eventHandlers := s.eventHandlers.insert (sessionId ++ str ":" ++ method) s.calls } := .still rfl
      exact .inl ((Elsewhere.enter s _).trans hset)
  | healthCheck =>
      refine .inl ?_
      unfold healthCheck
      split
      · exact .refl s
      · split
        · exact .refl s
        · split <;> exact .still rfl
  | ret rest hst => exact .inl ((Elsewhere.restack s (by simp [hst, Frame.batch])).trans (.resume _))
  | throw rest hst => exact .inl ((Elsewhere.restack s (by simp [hst, Frame.batch])).trans (.unwind _))
  | wake hst =>
      exact .inl (.of (E := []) rfl (by simp [waiting, hst, Frame.batch]) (fun _ _ => id) rfl (List.forall_mem_nil _))
  | swap rest hst =>
      exact .inl (.of (E := []) rfl (by simp [waiting, hst, Frame.batch]) (fun _ _ => id) rfl (List.forall_mem_nil _))
  | fire i c =>
      have hafter : Elsewhere n s { s with afters := s.afters.eraseIdx i } := .still rfl
      refine .inl ?_
      unfold State.fire
      dsimp only
      split
      · exact hafter.trans (.user _)
      · exact hafter
  | received data => exact .inl (.post s fun _ => rfl)
  | post => exact .inl (.post s fun _ => rfl)
  | _ => exact .inl (.still rfl)

theorem timesTold_append {E h : List Event} (hes : ∀ e ∈ E, ¬ Event.Tells n e) :
    timesTold n (E ++ h) = timesTold n h := by
  rw [timesTold, List.countP_append, List.countP_eq_zero.mpr (by simpa using hes), Nat.zero_add, timesTold]

theorem Elsewhere.timesTold (h : Elsewhere n s t) : timesTold n t.history = timesTold n s.history := by
  obtain ⟨es, hes, hh⟩ := h.history
  rw [hh, timesTold_append hes]

/-- Nothing has happened for the calls and closures to come. -/
structure Untold (s : State) : Prop where
  own : ∀ n, s.calls ≤ n → Own n s
  waiters : ∀ n, s.calls ≤ n → ∀ v x, ¬ s.WaitOf n v x
  told : ∀ n, s.calls ≤ n → timesTold n s.history = 0
  spare : ∀ v, s.waiters[v]? = none → s.checksOf v = 0 ∧ ∀ id, s.pending.lookup id ≠ some (.poll v)

theorem step_operation_calls (hl : l.isOperation = true) (ht : s.step l = some t) : t.calls = s.calls + 1 := by
  have hsend : ∀ (u : State) method params r sessionId,
      (u.sendCommand method params r sessionId).1.calls = u.calls := fun u method params r sessionId =>
    (u.sendCommand_calm method params r sessionId).calls
  cases l <;> simp only [Label.isOperation, Bool.false_eq_true] at hl <;>
    simp only [State.step, Option.ite_none_right_eq_some, Option.some.injEq] at ht <;>
    obtain ⟨-, rfl⟩ := ht
  case sendCommand => exact hsend _ _ _ _ _
  case command => exact hsend _ _ _ _ _
  case close c =>
    unfold State.close
    split
    · rfl
    · exact hsend _ _ _ _ _
  case act c js =>
    unfold State.act
    split
    · rfl
    · exact hsend _ _ _ _ _
  case pressKey c key =>
    unfold State.pressKey
    split
    · rfl
    · exact hsend _ _ _ _ _
  case waitForSelector c selector timeoutMs =>
    unfold State.waitForSelector
    split <;> rfl

/-- The same with the closures that wait. -/
theorem Untold.elsewhere (h : Untold s) (hc : s.calls ≤ t.calls) (hsh : Shape s.stack) (ht : s.step l = some t)
    {n : ℕ} (hn : t.calls ≤ n) : Elsewhere n s t := by
  have hcalls : s.calls ≤ n := hc.trans hn
  have hnew : l.isOperation = true → s.calls ≠ n := fun hl => by
    have := step_operation_calls hl ht
    omega
  rcases State.step_wait (h.own n hcalls) hnew hsh ht with he | ⟨v, x, batch, hx, -⟩ | ⟨v, x, id, reply, u, hx, -⟩
  · exact he
  · exact absurd hx (h.waiters n hcalls v x)
  · exact absurd hx (h.waiters n hcalls v x)

theorem Untold.step (h : Untold s) (hc : s.calls ≤ t.calls) (hsh : Shape s.stack) (ht : s.step l = some t) :
    Untold t := by
  refine ⟨fun n hn => ?_, fun n hn v x hx => ?_, fun n hn => ?_, fun v hv => ?_⟩
  · exact (h.elsewhere hc hsh ht hn).own (h.own n (hc.trans hn))
  · exact h.waiters n (hc.trans hn) v x (((h.elsewhere hc hsh ht hn).waiter v x).mp hx)
  · rw [(h.elsewhere hc hsh ht hn).timesTold]
    exact h.told n (hc.trans hn)
  · obtain ⟨hs, hcount, hp⟩ := (h.elsewhere hc hsh ht le_rfl).spare v hv
    obtain ⟨h0, hnone⟩ := h.spare v hs
    exact ⟨by omega, fun id hl => hnone id (hp id hl)⟩

theorem Untold.init : Untold init := by
  refine ⟨fun n _ => ⟨?_, ?_⟩, ?_, ?_, ?_⟩ <;>
    simp [LynneSocial.Browser.init, State.WaitOf, timesTold, State.checksOf, State.waiting]

theorem run_untold {ls : List Label} (hr : Transition.run State.step init ls = some s) : Untold s :=
  (Transition.run_invariant (I := fun u => Orderly u ∧ Untold u)
    (fun _ _ _ h ht => ⟨h.1.step ht, h.2.step (h.1.known.calls_le ht h.1.shape) h.1.shape ht⟩)
    ⟨.init, .init⟩ hr).2

end LynneSocial.Browser
