import LynneSocial.Scheduler.Jobs

/-!
# Destroying a scheduler

`~UvScheduler` is a call of `stop`. The async handle is a member of the object,
but closing it takes the loop a later iteration: until then the handle stands in
the loop's list of closing handles, whatever becomes of the memory around it.
The timers are allocated on their own and outlive the object.
-/
namespace LynneSocial.Destruction

open Timers (Jobs Sound fresh)

variable {α : Type}

structure State (α : Type) where
  timed : Timers.State α := {}
  /-- How often `async_handle_` stands in the loop's list of closing handles. -/
  closing : ℕ := 0

inductive Label (α : Type) where
  | timer (l : Timers.Label α)
  | post (callback : α)
  /-- `async_cb` swaps the queue out; what its callbacks call are steps of their own. -/
  | drain
  /-- The loop finishes the close of the async handle. -/
  | closeAsync

def State.sched (s : State α) : UvScheduler α := s.timed.sched

def State.withSched (s : State α) (f : UvScheduler α → UvScheduler α) : State α :=
  { s with timed := s.timed.withSched f }

/-- `stop` hands an open async handle to `uv_close`. -/
def State.stop (s : State α) : State α :=
  { timed := s.timed.withSched .stop
    closing := if s.sched.started ∧ s.sched.asyncInited then s.closing + 1 else s.closing }

/-- `uv__finish_close` aborts on a handle that is listed twice or was initialised again. -/
def step (s : State α) : Label α → Option (State α)
  | .timer .stop => some s.stop
  | .timer l => (Timers.step s.timed l).map fun t => { s with timed := t }
  | .post callback => some (s.withSched (·.post callback))
  | .drain =>
    if s.sched.asyncInited ∧ s.sched.asyncPending then
      some (s.withSched fun u => { u with asyncPending := false, postQueue := [] })
    else none
  | .closeAsync =>
    if s.closing = 1 ∧ s.sched.asyncInited = false then some { s with closing := 0 } else none

/-- The first scheduler state, with the counter of `after` at `n`. -/
def created (n : ℤ) : State α := { timed := fresh n }

/-- `~UvScheduler`. -/
def destroy (s : State α) : State α := s.stop

/-- What the loop does by itself. -/
def Label.ofLoop : Label α → Bool
  | .timer (.fire _) | .timer .ret | .timer (.closeCb _) | .drain | .closeAsync => true
  | _ => false

/-- The loop holds no handle that lies inside the object, and however it goes on, it fires no
timer of the scheduler. -/
structure Gone (s : State α) : Prop where
  handle : s.sched.asyncInited = false ∧ s.closing = 0
  timers : ∀ (ls : List (Label α)) (t : State α), (∀ l ∈ ls, l.ofLoop = true) →
    Transition.run step s ls = some t → ∀ p, .timer (.fire p) ∉ ls

/-- The scheduler is started exactly while its async handle is open. -/
def Matched (s : UvScheduler α) : Prop := s.started = s.asyncInited

section Matched
variable {s : UvScheduler α}

theorem Matched.start (h : Matched s) : Matched s.start := by
  unfold UvScheduler.start
  split
  · exact h
  · rfl

theorem Matched.stop (h : Matched s) : Matched s.stop := by
  unfold UvScheduler.stop
  split
  · rfl
  · exact h

theorem Matched.removeJob (h : Matched s) (name : Str) : Matched (s.removeJob name) := by
  unfold UvScheduler.removeJob
  split <;> exact h

theorem Matched.oneshotTail (h : Matched s) (p : ℕ) : Matched (s.oneshotTail p) := by
  unfold UvScheduler.oneshotTail
  split
  · dsimp only
    split <;> exact h
  · exact h

end Matched

theorem Matched.fire {s : Timers.State α} (h : Matched s.sched) (p : ℕ) (c : TimerCtx α) :
    Matched (Timers.fire s p c).sched := by
  unfold Timers.fire
  dsimp only
  split
  · exact h
  · exact h
  · exact Matched.oneshotTail (s := s.sched.modifyCtx p TimerCtx.rearm) h p
  · exact h

theorem Matched.step {s t : Timers.State α} {l : Timers.Label α} (h : Matched s.sched)
    (ht : Timers.step s l = some t) : Matched t.sched := by
  cases Timers.step_does ht with
  | start => exact h.start
  | stop => exact h.stop
  | addJob name interval callback => exact h.removeJob name
  | removeJob name => exact h.removeJob name
  | after callback =>
      exact Matched.removeJob (s := { s.sched with counter := UvScheduler.nextCounter s.sched.counter }) h _
  | otherAfter => exact h
  | fire p c hp ha => exact h.fire p c
  | timerCb p rest hst => exact h
  | oneshotTimerCb p rest hst => exact h.oneshotTail p
  | closeCb p c hp hcl hpos => exact h

/-- What every run keeps up. -/
structure Kept (s : State α) : Prop where
  jobs : Jobs s.timed
  matched : Matched s.sched

theorem Jobs.of_post {s : Timers.State α} (h : Jobs s) {q : List α} {b : Bool} :
    Jobs (s.withSched fun u => { u with postQueue := q, asyncPending := b }) :=
  ⟨⟨h.sound.named, h.sound.armed, h.sound.oneshot⟩, h.running, h.distinct⟩

theorem step_timer {s t : State α} {l : Timers.Label α} (ht : step s (.timer l) = some t) :
    Timers.step s.timed l = some t.timed := by
  cases l <;> first
    | exact congrArg _ (congrArg State.timed (Option.some.inj ht))
    | (obtain ⟨u, hu, rfl⟩ := Option.map_eq_some_iff.mp ht; exact hu)

theorem Kept.step {s t : State α} {l : Label α} (h : Kept s) (ht : step s l = some t) : Kept t := by
  cases l with
  | timer l => exact ⟨(h.jobs.step (step_timer ht)).1, h.matched.step (step_timer ht)⟩
  | post callback =>
      obtain rfl := Option.some.inj ht
      exact ⟨Jobs.of_post h.jobs, h.matched⟩
  | drain =>
      simp only [Destruction.step, Option.ite_none_right_eq_some, Option.some.injEq] at ht
      obtain ⟨-, rfl⟩ := ht
      exact ⟨Jobs.of_post h.jobs, h.matched⟩
  | closeAsync =>
      simp only [Destruction.step, Option.ite_none_right_eq_some, Option.some.injEq] at ht
      obtain ⟨-, rfl⟩ := ht
      exact ⟨h.jobs, h.matched⟩

theorem created_kept (n : ℤ) : Kept (created n : State α) where
  jobs := Timers.jobs_fresh n
  matched := rfl

theorem run_kept {n : ℤ} {ls : List (Label α)} {s : State α}
    (hr : Transition.run step (created n) ls = some s) : Kept s :=
  Transition.run_invariant (fun _ _ _ => Kept.step) (created_kept n) hr

/-- No timer is armed. -/
def Quiet (s : UvScheduler α) : Prop :=
  ∀ (p : ℕ) (c : TimerCtx α), s.ctxs[p]? = some c → c.active = false

theorem Quiet.modify {s : UvScheduler α} (h : Quiet s) {p : ℕ} {f : TimerCtx α → TimerCtx α}
    (hf : Timers.Dims f) : Quiet (s.modifyCtx p f) := by
  intro q c hc
  rcases Timers.getElem?_modify_cases hc with ⟨-, d, hd, rfl⟩ | ⟨-, hc⟩
  · by_contra ha
    have := (hf d).2.1 (by simpa using ha)
    rw [h p d hd] at this
    cases this
  · exact h q c hc

theorem Quiet.oneshotTail {s : UvScheduler α} (h : Quiet s) (p : ℕ) : Quiet (s.oneshotTail p) := by
  cases hp : s.ctxs[p]? with
  | none => simpa [UvScheduler.oneshotTail, hp] using h
  | some c =>
      have hq := (h.modify (p := p) Timers.dims_uvTimerStop).modify (p := p) Timers.dims_uvClose
      simp only [UvScheduler.oneshotTail, hp]
      split <;> exact hq

theorem Quiet.step {s t : State α} {l : Label α} (h : Quiet s.sched) (hl : l.ofLoop = true)
    (ht : step s l = some t) : Quiet t.sched ∧ ∀ p, l ≠ .timer (.fire p) := by
  cases l with
  | timer l =>
      have hs := step_timer ht
      unfold State.sched
      generalize t.timed = u at hs ⊢
      cases Timers.step_does hs with
      | fire p c hp ha =>
          rw [h p c hp] at ha
          cases ha
      | timerCb p rest hst => exact ⟨h.modify Timers.dims_touch, by simp⟩
      | oneshotTimerCb p rest hst => exact ⟨h.oneshotTail p, by simp⟩
      | closeCb p c hp hcl hpos => exact ⟨h.modify Timers.dims_timerCloseCb, by simp⟩
      | _ => cases hl
  | post callback => cases hl
  | drain =>
      simp only [Destruction.step, Option.ite_none_right_eq_some, Option.some.injEq] at ht
      exact ht.2 ▸ ⟨h, by simp⟩
  | closeAsync =>
      simp only [Destruction.step, Option.ite_none_right_eq_some, Option.some.injEq] at ht
      exact ht.2 ▸ ⟨h, by simp⟩

theorem quiet_never_fires {s t : State α} {ls : List (Label α)} (h : Quiet s.sched)
    (hls : ∀ l ∈ ls, l.ofLoop = true) (hr : Transition.run step s ls = some t) (p : ℕ) :
    .timer (.fire p) ∉ ls := by
  induction ls generalizing s with
  | nil => exact List.not_mem_nil
  | cons l ls ih =>
      obtain ⟨hl, hrest⟩ := List.forall_mem_cons.mp hls
      obtain ⟨u, hu, hr⟩ := Transition.run_cons.mp hr
      obtain ⟨hq, hne⟩ := h.step hl hu
      rw [List.mem_cons, not_or]
      exact ⟨fun e => hne p e.symm, ih hq hrest hr⟩

/-- The destructor leaves nothing behind exactly when the scheduler was stopped before, the loop
has since closed the async handle, and no job of `timers_` is armed. -/
theorem destroy_leaves_nothing_iff {n : ℤ} {ls : List (Label α)} {s : State α}
    (hr : Transition.run step (created n) ls = some s) :
    Gone (destroy s) ↔ s.sched.started = false ∧ s.closing = 0 ∧
      ∀ name p, s.sched.timers.lookup name = some p →
        ∀ c : TimerCtx α, s.sched.ctxs[p]? = some c → c.active = false := by
  have hk := run_kept hr
  have hm : s.sched.started = s.sched.asyncInited := hk.matched
  cases hst : s.sched.started with
  | true =>
      refine iff_of_false (fun h => ?_) (fun h => Bool.noConfusion h.1)
      have hc := h.handle.2
      rw [destroy, State.stop, if_pos ⟨hst, hm ▸ hst⟩] at hc
      cases hc
  | false =>
      have hd : destroy s = s := by
        have h : s.timed.sched.started = false := hst
        simp [destroy, State.stop, State.sched, Timers.State.withSched, UvScheduler.stop, h]
      rw [hd]
      constructor
      · intro h
        refine ⟨rfl, h.handle.2, fun name p _ c hc => ?_⟩
        by_contra ha
        have hfire : step s (.timer (.fire p)) = some { s with timed := Timers.fire s.timed p c } := by
          have hc : s.timed.sched.ctxs[p]? = some c := hc
          simp [step, Timers.step, hc, Bool.of_not_eq_false ha]
        exact h.timers [.timer (.fire p)] _ (by simp [Label.ofLoop])
          (Transition.run_cons.mpr ⟨_, hfire, rfl⟩) p List.mem_cons_self
      · rintro ⟨-, hc, hjobs⟩
        refine ⟨⟨hm.symm.trans hst, hc⟩, fun ms t hms ht => quiet_never_fires (fun p c hp => ?_) hms ht⟩
        by_contra ha
        rw [hjobs c.name p (hk.jobs.sound.armed p c hp (Bool.of_not_eq_false ha)) c hp] at ha
        exact ha rfl

/-- A scheduler that is stopped, and whose loop takes one iteration before it is destroyed. -/
def orderly : List (Label ℕ) :=
  [.timer .start, .timer (.addJob (str "poll") 5 (some 1)), .timer .stop, .closeAsync]

theorem destroy_leaves_nothing_sample :
    ∃ s : State ℕ, Transition.run step (created 0) orderly = some s ∧ Gone (destroy s) := by
  have h : (Transition.run step (created 0) orderly).any
      (fun s => s.sched.started = false ∧ s.closing = 0 ∧ s.sched.timers.entries = []) = true := by decide +kernel
  obtain ⟨s, hs, h⟩ := Option.any_eq_true _ _ |>.mp h
  simp only [decide_eq_true_eq] at h
  refine ⟨s, hs, (destroy_leaves_nothing_iff hs).mpr ⟨h.1, h.2.1, fun name p hp => ?_⟩⟩
  have hmem := (StdMap.mem_entries_iff s.sched.timers name p).mpr hp
  rw [h.2.2] at hmem
  cases hmem

/-- `start()` and then the destructor: the loop still has to close a handle inside the object. -/
theorem destroyed_while_started : ∃ s : State ℕ,
    Transition.run step (created 0) [.timer .start] = some s ∧ ¬ Gone (destroy s) := by
  refine ⟨_, rfl, fun h => ?_⟩
  have hc : (destroy (State.withSched (created 0) UvScheduler.start)).closing = 0 := h.handle.2
  exact absurd hc (by decide)

end LynneSocial.Destruction
