import LynneSocial.Lib.Transition
import LynneSocial.Scheduler.UvScheduler

/-!
# The life of a timer handle

The operations of the scheduler on timers, called from outside or from inside
timer callbacks, against the loop, which fires armed timers and runs the close
callbacks of closing handles. Running callbacks form a stack: a callback may
call any operation, and even a nested loop iteration is admitted, so a second
timer can fire, or a close callback run, before the first callback is back.

Three places close a timer: `remove_job`, `stop` and the tail of
`oneshot_timer_cb`. The last one does not look whether the handle was closed
while the callback ran, and that is the one way to close a handle twice.
-/
namespace LynneSocial.Timers

/-- A timer callback that has been called and is not back yet. -/
inductive Frame where
  | timerCb (p : ℕ)
  | oneshotTimerCb (p : ℕ)
deriving DecidableEq

def Frame.ctx : Frame → ℕ
  | .timerCb p => p
  | .oneshotTimerCb p => p

structure State (α : Type) where
  sched : UvScheduler α := {}
  stack : List Frame := []

inductive Label (α : Type) where
  | start
  | stop
  | addJob (name : Str) (interval : ℕ) (callback : Option α)
  | removeJob (name : Str)
  | after (callback : Option α)
  /-- Another scheduler calls `after`: the counter is static. -/
  | otherAfter
  | fire (p : ℕ)
  /-- The callback on top of the stack returns, or throws into `catch (...) {}`. -/
  | ret
  | closeCb (p : ℕ)

variable {α : Type}

def State.withSched (s : State α) (f : UvScheduler α → UvScheduler α) : State α :=
  { s with sched := f s.sched }

/-- `timer_cb` and `oneshot_timer_cb` up to the call of the callback. -/
def fire (s : State α) (p : ℕ) (c : TimerCtx α) : State α :=
  let s := s.withSched (·.modifyCtx p TimerCtx.rearm)
  match c.callback, c.oneshot with
  | some _, true => { s with stack := .oneshotTimerCb p :: s.stack }
  | some _, false => { s with stack := .timerCb p :: s.stack }
  | none, true => s.withSched (·.oneshotTail p)
  | none, false => s

/-- The `std::function` that comes back is a member of the `TimerCtx`. -/
def step (s : State α) : Label α → Option (State α)
  | .start => some (s.withSched .start)
  | .stop => some (s.withSched .stop)
  | .addJob name interval callback => some (s.withSched (·.addJob name interval callback))
  | .removeJob name => some (s.withSched (·.removeJob name))
  | .after callback => some (s.withSched (·.after callback))
  | .otherAfter =>
    some (s.withSched fun u => { u with counter := UvScheduler.nextCounter u.counter })
  | .fire p =>
    match s.sched.ctxs[p]? with
    | some c => if c.active then some (fire s p c) else none
    | none => none
  | .ret =>
    match s.stack with
    | .timerCb p :: rest =>
      some { s with sched := s.sched.modifyCtx p TimerCtx.touch, stack := rest }
    | .oneshotTimerCb p :: rest => some { s with sched := s.sched.oneshotTail p, stack := rest }
    | [] => none
  | .closeCb p =>
    match s.sched.ctxs[p]? with
    | some c =>
      if 0 < c.closes ∧ c.closed = false then
        some (s.withSched (·.modifyCtx p TimerCtx.timerCloseCb))
      else none
    | none => none

/-- What each step does, and when it can be taken. -/
inductive Does (s : State α) : Label α → State α → Prop
  | start : Does s .start (s.withSched .start)
  | stop : Does s .stop (s.withSched .stop)
  | addJob (name : Str) (interval : ℕ) (callback : Option α) :
      Does s (.addJob name interval callback) (s.withSched (·.addJob name interval callback))
  | removeJob (name : Str) : Does s (.removeJob name) (s.withSched (·.removeJob name))
  | after (callback : Option α) : Does s (.after callback) (s.withSched (·.after callback))
  | otherAfter : Does s .otherAfter
      (s.withSched fun u => { u with counter := UvScheduler.nextCounter u.counter })
  | fire (p : ℕ) (c : TimerCtx α) (hc : s.sched.ctxs[p]? = some c) (ha : c.active = true) :
      Does s (.fire p) (fire s p c)
  | timerCb (p : ℕ) (rest : List Frame) (h : s.stack = .timerCb p :: rest) :
      Does s .ret { s with sched := s.sched.modifyCtx p TimerCtx.touch, stack := rest }
  | oneshotTimerCb (p : ℕ) (rest : List Frame) (h : s.stack = .oneshotTimerCb p :: rest) :
      Does s .ret { s with sched := s.sched.oneshotTail p, stack := rest }
  | closeCb (p : ℕ) (c : TimerCtx α) (hc : s.sched.ctxs[p]? = some c) (hcl : c.closed = false)
      (hpos : 0 < c.closes) : Does s (.closeCb p) (s.withSched (·.modifyCtx p TimerCtx.timerCloseCb))

theorem step_does {s t : State α} {l : Label α} (hstep : step s l = some t) : Does s l t := by
  cases l with
  | start => exact Option.some.inj hstep ▸ .start
  | stop => exact Option.some.inj hstep ▸ .stop
  | addJob name interval callback => exact Option.some.inj hstep ▸ .addJob name interval callback
  | removeJob name => exact Option.some.inj hstep ▸ .removeJob name
  | after callback => exact Option.some.inj hstep ▸ .after callback
  | otherAfter => exact Option.some.inj hstep ▸ .otherAfter
  | fire p =>
      cases hc : s.sched.ctxs[p]? with
      | none => simp [step, hc] at hstep
      | some c =>
          simp only [step, hc, Option.ite_none_right_eq_some, Option.some.injEq] at hstep
          obtain ⟨ha, rfl⟩ := hstep
          exact .fire p c hc ha
  | ret =>
      cases hst : s.stack with
      | nil => simp [step, hst] at hstep
      | cons f rest =>
          cases f with
          | timerCb p =>
              simp only [step, hst, Option.some.injEq] at hstep
              exact hstep ▸ .timerCb p rest hst
          | oneshotTimerCb p =>
              simp only [step, hst, Option.some.injEq] at hstep
              exact hstep ▸ .oneshotTimerCb p rest hst
  | closeCb p =>
      cases hc : s.sched.ctxs[p]? with
      | none => simp [step, hc] at hstep
      | some c =>
          simp only [step, hc, Option.ite_none_right_eq_some, Option.some.injEq] at hstep
          obtain ⟨⟨hpos, hcl⟩, rfl⟩ := hstep
          exact .closeCb p c hc hcl hpos

/-- No job of that name is a one-shot timer whose callback is running. -/
def NotRunning (s : State α) (name : Str) : Prop :=
  ∀ p, s.sched.timers.lookup name = some p → .oneshotTimerCb p ∉ s.stack

/-- The step closes no one-shot timer whose callback is running, and frees no
timer whose callback is running. -/
def Conform (s : State α) : Label α → Prop
  | .stop => s.sched.started = true → ∀ p, .oneshotTimerCb p ∉ s.stack
  | .addJob name _ _ | .removeJob name => NotRunning s name
  | .after _ => NotRunning s (UvScheduler.afterName (UvScheduler.nextCounter s.sched.counter))
  | .closeCb p => ∀ f ∈ s.stack, f.ctx ≠ p
  | _ => True

instance (s : State α) (name : Str) : Decidable (NotRunning s name) :=
  inferInstanceAs (Decidable (∀ p ∈ s.sched.timers.lookup name, Frame.oneshotTimerCb p ∉ s.stack))

instance (stack : List Frame) : Decidable (∀ p, Frame.oneshotTimerCb p ∉ stack) :=
  decidable_of_iff (∀ f ∈ stack, f ≠ .oneshotTimerCb f.ctx) <| by
    constructor
    · intro h p hp
      exact h _ hp rfl
    · intro h f hf he
      exact h f.ctx (he ▸ hf)

instance (s : State α) : ∀ l : Label α, Decidable (Conform s l)
  | .stop => inferInstanceAs (Decidable (s.sched.started = true → _))
  | .addJob name _ _ | .removeJob name => inferInstanceAs (Decidable (NotRunning s name))
  | .after _ => inferInstanceAs (Decidable (NotRunning s _))
  | .closeCb p => inferInstanceAs (Decidable (∀ f ∈ s.stack, f.ctx ≠ p))
  | .start | .otherAfter | .fire _ | .ret => .isTrue trivial

def Registered (s : UvScheduler α) (p : ℕ) (c : TimerCtx α) : Prop :=
  s.timers.lookup c.name = some p

instance (s : UvScheduler α) (p : ℕ) (c : TimerCtx α) : Decidable (Registered s p c) :=
  inferInstanceAs (Decidable (_ = _))

/-- The law of timer handles. A timer has not been closed while it is in
`timers_`, and exactly once when it no longer is. -/
structure Lifecycle (s : UvScheduler α) : Prop where
  live : ∀ (p : ℕ) (c : TimerCtx α), s.ctxs[p]? = some c → Registered s p c → c.closes = 0
  once : ∀ (p : ℕ) (c : TimerCtx α), s.ctxs[p]? = some c → ¬ Registered s p c → c.closes = 1
  untouched : ∀ (p : ℕ) (c : TimerCtx α), s.ctxs[p]? = some c → c.misused = false
  deleted : ∀ (p : ℕ) (c : TimerCtx α), s.ctxs[p]? = some c → c.deletes = c.closed.toNat
  closed : ∀ (p : ℕ) (c : TimerCtx α), s.ctxs[p]? = some c → c.closed = true → c.closes = 1

/-- What holds of one `TimerCtx` besides. -/
structure Settled (c : TimerCtx α) : Prop where
  closed : c.closed = true → c.closes = 1
  deleted : c.deletes = c.closed.toNat
  untouched : c.misused = false
  armed : c.active = true → c.closes = 0
  oneshot : c.oneshot = true → c.interval = 0

/-- The ownership invariant of the scheduler alone. -/
structure Owned (s : UvScheduler α) : Prop where
  registered : ∀ (n : Str) (p : ℕ), s.timers.lookup n = some p →
    ∃ c : TimerCtx α, s.ctxs[p]? = some c ∧ c.name = n ∧ c.owner = true ∧ c.closes = 0
  unregistered : ∀ (p : ℕ) (c : TimerCtx α), s.ctxs[p]? = some c → ¬ Registered s p c → c.closes = 1
  settled : ∀ (p : ℕ) (c : TimerCtx α), s.ctxs[p]? = some c → Settled c

/-- A running one-shot callback still owns its timer; no running callback's timer
has been freed. -/
structure Inv (s : State α) : Prop where
  owned : Owned s.sched
  running : ∀ p, .oneshotTimerCb p ∈ s.stack →
    ∃ c : TimerCtx α, s.sched.ctxs[p]? = some c ∧ Registered s.sched p c ∧ c.active = false
  distinct : (s.stack.filter fun f => f matches .oneshotTimerCb _).Nodup
  allocated : ∀ f ∈ s.stack, ∃ c : TimerCtx α, s.sched.ctxs[f.ctx]? = some c ∧ c.closed = false

namespace Owned
variable {s : UvScheduler α}

theorem open_closes (h : Owned s) {p : ℕ} {c : TimerCtx α} (hc : s.ctxs[p]? = some c)
    (hr : Registered s p c) : c.closes = 0 := by
  obtain ⟨d, hd, -, -, h0⟩ := h.registered _ _ hr
  rw [hc] at hd
  exact Option.some.inj hd ▸ h0

theorem registered_of_open (h : Owned s) {p : ℕ} {c : TimerCtx α} (hc : s.ctxs[p]? = some c)
    (h0 : c.closes = 0) : Registered s p c := by
  by_contra hr
  have := h.unregistered p c hc hr
  omega

theorem lifecycle (h : Owned s) : Lifecycle s where
  live _ _ hc hr := h.open_closes hc hr
  once := h.unregistered
  untouched p c hc := (h.settled p c hc).untouched
  deleted p c hc := (h.settled p c hc).deleted
  closed p c hc := (h.settled p c hc).closed

end Owned

theorem Settled.not_closed {c : TimerCtx α} (h : Settled c) (h0 : c.closes = 0) :
    c.closed = false := by
  by_contra hc
  have := h.closed (by simpa using hc)
  omega

/-- `uv_timer_stop` and then `uv_close` on a handle that is open. -/
theorem Settled.close {c : TimerCtx α} (h : Settled c) (h0 : c.closes = 0) :
    Settled c.uvTimerStop.uvClose ∧ c.uvTimerStop.uvClose.closes = 1 := by
  have hc := h.not_closed h0
  refine ⟨⟨?_, h.deleted, ?_, ?_, h.oneshot⟩, ?_⟩ <;>
    simp [TimerCtx.uvClose, TimerCtx.uvTimerStop, TimerCtx.touch, h0, hc, h.untouched]

theorem Settled.retire {c : TimerCtx α} (h : Settled c) (h0 : c.closes = 0) :
    Settled c.retire ∧ c.retire.closes = 1 := by
  obtain ⟨hs, h1⟩ := h.close h0
  exact ⟨⟨hs.closed, hs.deleted, hs.untouched, hs.armed, hs.oneshot⟩, h1⟩

@[simp] theorem retire_name (c : TimerCtx α) : c.retire.name = c.name := rfl
@[simp] theorem retire_closed (c : TimerCtx α) : c.retire.closed = c.closed := rfl

theorem removeJob_none {s : UvScheduler α} {name : Str} (h : s.timers.lookup name = none) :
    s.removeJob name = s := by
  simp [UvScheduler.removeJob, h]

theorem removeJob_some {s : UvScheduler α} {name : Str} {p : ℕ}
    (h : s.timers.lookup name = some p) :
    s.removeJob name =
      { s with timers := s.timers.erase name, ctxs := s.ctxs.modify p TimerCtx.retire } := by
  simp [UvScheduler.removeJob, UvScheduler.modifyCtx, h]

/-- A timer leaves `timers_` and is closed in the same step. -/
theorem Owned.forget {s : UvScheduler α} {n : Str} {p : ℕ} {f : TimerCtx α → TimerCtx α}
    (h : Owned s) (hp : s.timers.lookup n = some p)
    (hf : ∀ c, s.ctxs[p]? = some c → Settled (f c) ∧ (f c).closes = 1) :
    Owned { s with timers := s.timers.erase n, ctxs := s.ctxs.modify p f } := by
  have hat : ∀ q c, (s.ctxs.modify p f)[q]? = some c →
      (q = p ∧ ∃ d, s.ctxs[p]? = some d ∧ c = f d) ∨ (q ≠ p ∧ s.ctxs[q]? = some c) := by
    intro q c hc
    by_cases hq : p = q
    · subst hq
      rw [List.getElem?_modify_eq, Option.map_eq_map, Option.map_eq_some_iff] at hc
      obtain ⟨d, hd, rfl⟩ := hc
      exact .inl ⟨rfl, d, hd, rfl⟩
    · rw [List.getElem?_modify_ne _ _ hq] at hc
      exact .inr ⟨fun e => hq e.symm, hc⟩
  have hother : ∀ m q, m ≠ n → s.timers.lookup m = some q → q ≠ p := by
    intro m q hm hq heq
    subst heq
    obtain ⟨c, hc, hcm, -⟩ := h.registered m q hq
    obtain ⟨d, hd, hdn, -⟩ := h.registered n q hp
    rw [hc] at hd
    exact hm (by rw [← hcm, Option.some.inj hd, hdn])
  refine ⟨?_, ?_, ?_⟩
  · intro m q hm
    rw [StdMap.lookup_erase_eq_ite] at hm
    split at hm
    · cases hm
    · rename_i hmn
      obtain ⟨c, hc, hrest⟩ := h.registered m q hm
      have hqp := hother m q hmn hm
      exact ⟨c, by rwa [List.getElem?_modify_ne _ _ (Ne.symm hqp)], hrest⟩
  · intro q c hc hr
    rcases hat q c hc with ⟨rfl, d, hd, rfl⟩ | ⟨hq, hc⟩
    · exact (hf d hd).2
    · refine h.unregistered q c hc fun hreg => hr ?_
      have hcn : c.name ≠ n := by
        intro e
        rw [Registered, e, hp] at hreg
        exact hq (Option.some.inj hreg).symm
      simpa [Registered, StdMap.lookup_erase_eq_ite, hcn] using hreg
  · intro q c hc
    rcases hat q c hc with ⟨rfl, d, hd, rfl⟩ | ⟨-, hc⟩
    · exact (hf d hd).1
    · exact h.settled q c hc

theorem Owned.removeJob {s : UvScheduler α} (h : Owned s) (name : Str) :
    Owned (s.removeJob name) := by
  cases hp : s.timers.lookup name with
  | none => rwa [removeJob_none hp]
  | some p =>
      rw [removeJob_some hp]
      refine h.forget hp fun c hc => ?_
      obtain ⟨d, hd, -, -, h0⟩ := h.registered _ _ hp
      rw [hc] at hd
      obtain rfl := Option.some.inj hd
      exact (h.settled p c hc).retire h0

theorem Owned.modifyCtx {s : UvScheduler α} {p : ℕ} {f : TimerCtx α → TimerCtx α} (h : Owned s)
    (hf : ∀ c, s.ctxs[p]? = some c → Settled (f c) ∧ (f c).closes = c.closes ∧
      (f c).name = c.name ∧ (f c).owner = c.owner) : Owned (s.modifyCtx p f) := by
  have hat : ∀ (q : ℕ) (c : TimerCtx α), (s.ctxs.modify p f)[q]? = some c →
      ∃ d : TimerCtx α, s.ctxs[q]? = some d ∧ Settled c ∧ c.closes = d.closes ∧
        c.name = d.name ∧ c.owner = d.owner := by
    intro q c hc
    by_cases hq : p = q
    · subst hq
      rw [List.getElem?_modify_eq, Option.map_eq_map, Option.map_eq_some_iff] at hc
      obtain ⟨d, hd, rfl⟩ := hc
      exact ⟨d, hd, hf d hd⟩
    · rw [List.getElem?_modify_ne _ _ hq] at hc
      exact ⟨c, hc, h.settled q c hc, rfl, rfl, rfl⟩
  refine ⟨?_, ?_, ?_⟩
  · intro n q hn
    obtain ⟨d, hd, hname, howner, h0⟩ := h.registered n q hn
    by_cases hq : p = q
    · subst hq
      obtain ⟨-, hcl, hnm, how⟩ := hf d hd
      refine ⟨f d, ?_, hnm.trans hname, how.trans howner, hcl.trans h0⟩
      simp [UvScheduler.modifyCtx, hd]
    · exact ⟨d, (List.getElem?_modify_ne _ _ hq).trans hd, hname, howner, h0⟩
  · intro q c hc hr
    obtain ⟨d, hd, -, hcl, hnm, -⟩ := hat q c hc
    rw [hcl]
    exact h.unregistered q d hd fun hreg => hr (by rwa [Registered, hnm])
  · intro q c hc
    exact (hat q c hc).choose_spec.2.1

/-- A new timer under a name that is free. -/
theorem Owned.add {s : UvScheduler α} {ctx : TimerCtx α} (h : Owned s)
    (hfree : s.timers.lookup ctx.name = none) (hs : Settled ctx) (hown : ctx.owner = true)
    (h0 : ctx.closes = 0) :
    Owned { s with ctxs := s.ctxs ++ [ctx], timers := s.timers.insert ctx.name s.ctxs.length } := by
  have hat : ∀ q c, (s.ctxs ++ [ctx])[q]? = some c →
      s.ctxs[q]? = some c ∧ q < s.ctxs.length ∨ q = s.ctxs.length ∧ c = ctx := by
    intro q c hc
    rcases Nat.lt_trichotomy q s.ctxs.length with hq | hq | hq
    · exact .inl ⟨by rwa [List.getElem?_append_left hq] at hc, hq⟩
    · subst hq
      simp only [List.getElem?_concat_length, Option.some.injEq] at hc
      exact .inr ⟨rfl, hc.symm⟩
    · rw [List.getElem?_eq_none (by simp only [List.length_append, List.length_singleton]; omega)]
        at hc
      cases hc
  refine ⟨?_, ?_, ?_⟩
  · intro n q hn
    rw [StdMap.lookup_insert_eq_ite] at hn
    split at hn
    · rename_i hname
      obtain rfl := Option.some.inj hn
      exact ⟨ctx, by simp, hname.symm, hown, h0⟩
    · obtain ⟨c, hc, hrest⟩ := h.registered n q hn
      have hq : q < s.ctxs.length := (List.getElem?_eq_some_iff.mp hc).1
      exact ⟨c, by rwa [List.getElem?_append_left hq], hrest⟩
  · intro q c hc hr
    rcases hat q c hc with ⟨hc, hq⟩ | ⟨rfl, rfl⟩
    · refine h.unregistered q c hc fun hreg => hr ?_
      have hcn : c.name ≠ ctx.name := by
        intro e
        rw [Registered, e, hfree] at hreg
        cases hreg
      simpa [Registered, StdMap.lookup_insert_eq_ite, hcn] using hreg
    · exact absurd (by simp [Registered]) hr
  · intro q c hc
    rcases hat q c hc with ⟨hc, -⟩ | ⟨-, rfl⟩
    · exact h.settled q c hc
    · exact hs

theorem removeJob_lookup (s : UvScheduler α) (name : Str) :
    (s.removeJob name).timers.lookup name = none := by
  cases hp : s.timers.lookup name with
  | none => rwa [removeJob_none hp]
  | some p => rw [removeJob_some hp]; simp

theorem Owned.install {s : UvScheduler α} {ctx : TimerCtx α} (h : Owned s) (hs : Settled ctx)
    (hown : ctx.owner = true) (h0 : ctx.closes = 0) : Owned (s.install ctx) :=
  (h.removeJob ctx.name).add (removeJob_lookup s ctx.name) hs hown h0

theorem Owned.addJob {s : UvScheduler α} (h : Owned s) (name : Str) (interval : ℕ)
    (callback : Option α) : Owned (s.addJob name interval callback) :=
  h.install ⟨by simp, rfl, rfl, fun _ => rfl, by simp⟩ rfl rfl

theorem Owned.after {s : UvScheduler α} (h : Owned s) (callback : Option α) :
    Owned (s.after callback) := by
  refine Owned.install ?_ ⟨by simp, rfl, rfl, fun _ => rfl, fun _ => rfl⟩ rfl rfl
  exact ⟨h.registered, h.unregistered, h.settled⟩

theorem getElem?_foldl_modify {β : Type} (f : β → β) (ps : List ℕ) (cs : List β)
    (hnd : ps.Nodup) (q : ℕ) :
    (ps.foldl (fun cs p => cs.modify p f) cs)[q]? = if q ∈ ps then cs[q]?.map f else cs[q]? := by
  induction ps generalizing cs with
  | nil => simp
  | cons p ps ih =>
      obtain ⟨hp, hnd⟩ := List.nodup_cons.mp hnd
      rw [List.foldl_cons, ih _ hnd]
      by_cases hq : p = q
      · subst hq
        simp [hp]
      · simp [List.getElem?_modify_ne _ _ hq, Ne.symm hq]

/-- The addresses `stop` goes through. -/
def registeredCtxs (s : UvScheduler α) : List ℕ := s.timers.entries.map Sigma.snd

theorem mem_registeredCtxs {s : UvScheduler α} {p : ℕ} :
    p ∈ registeredCtxs s ↔ ∃ n, s.timers.lookup n = some p := by
  simp only [registeredCtxs, List.mem_map]
  constructor
  · rintro ⟨⟨n, q⟩, hmem, rfl⟩
    exact ⟨n, (StdMap.mem_entries_iff _ _ _).mp hmem⟩
  · rintro ⟨n, hn⟩
    exact ⟨⟨n, p⟩, (StdMap.mem_entries_iff _ _ _).mpr hn, rfl⟩

/-- Every registered timer knows the name it is registered under. -/
def Named (s : UvScheduler α) : Prop :=
  ∀ (n : Str) (p : ℕ), s.timers.lookup n = some p → ∃ c : TimerCtx α, s.ctxs[p]? = some c ∧ c.name = n

theorem Owned.named {s : UvScheduler α} (h : Owned s) : Named s := fun n p hp => by
  obtain ⟨c, hc, hn, -⟩ := h.registered n p hp
  exact ⟨c, hc, hn⟩

/-- Two names never share a timer. -/
theorem Named.registeredCtxs_nodup {s : UvScheduler α} (h : Named s) :
    (registeredCtxs s).Nodup := by
  refine List.Nodup.map_on ?_ s.timers.nodupKeys.nodup
  rintro ⟨n, p⟩ hn ⟨m, q⟩ hm (rfl : p = q)
  obtain ⟨c, hc, hcn⟩ := h n p ((StdMap.mem_entries_iff _ _ _).mp hn)
  obtain ⟨d, hd, hdm⟩ := h m p ((StdMap.mem_entries_iff _ _ _).mp hm)
  rw [hc] at hd
  obtain rfl := Option.some.inj hd
  rw [← hcn, ← hdm]

theorem getElem?_retireAll {s : UvScheduler α} (h : Named s) (q : ℕ) :
    s.retireAll.ctxs[q]? =
      if q ∈ registeredCtxs s then s.ctxs[q]?.map TimerCtx.retire else s.ctxs[q]? := by
  rw [← getElem?_foldl_modify _ _ _ h.registeredCtxs_nodup, registeredCtxs, List.foldl_map]
  rfl

theorem Owned.retireAll {s : UvScheduler α} (h : Owned s) : Owned s.retireAll := by
  have hat : ∀ (q : ℕ) (c : TimerCtx α), s.retireAll.ctxs[q]? = some c → Settled c ∧ c.closes = 1 := by
    intro q c hc
    rw [getElem?_retireAll h.named] at hc
    split at hc
    · rename_i hq
      obtain ⟨n, hn⟩ := mem_registeredCtxs.mp hq
      obtain ⟨d, hd, -, -, h0⟩ := h.registered n q hn
      rw [hd] at hc
      obtain rfl := Option.some.inj hc
      exact (h.settled q d hd).retire h0
    · rename_i hq
      exact ⟨h.settled q c hc, h.unregistered q c hc fun hr => hq (mem_registeredCtxs.mpr ⟨_, hr⟩)⟩
  exact ⟨fun n p hn => by simp [UvScheduler.retireAll] at hn, fun q c hc _ => (hat q c hc).2,
    fun q c hc => (hat q c hc).1⟩

theorem Owned.stop {s : UvScheduler α} (h : Owned s) : Owned s.stop := by
  unfold UvScheduler.stop
  split
  · have hr : Owned { s with started := false }.retireAll :=
      Owned.retireAll ⟨h.registered, h.unregistered, h.settled⟩
    exact ⟨hr.registered, hr.unregistered, hr.settled⟩
  · exact h

/-- Timers are not forgotten, uncloses do not exist, and no operation runs a
close callback. -/
def Grows (cs ds : List (TimerCtx α)) : Prop :=
  ∀ (p : ℕ) (c : TimerCtx α), cs[p]? = some c → ∃ d : TimerCtx α, ds[p]? = some d ∧
    c.closes ≤ d.closes ∧ (c.misused = true → d.misused = true) ∧ d.closed = c.closed

theorem Grows.refl (cs : List (TimerCtx α)) : Grows cs cs :=
  fun _ c hc => ⟨c, hc, le_rfl, id, rfl⟩

theorem Grows.trans {cs ds es : List (TimerCtx α)} (h : Grows cs ds) (k : Grows ds es) :
    Grows cs es := by
  intro p c hc
  obtain ⟨d, hd, hle, hm, hcl⟩ := h p c hc
  obtain ⟨e, he, hle', hm', hcl'⟩ := k p d hd
  exact ⟨e, he, hle.trans hle', hm' ∘ hm, hcl'.trans hcl⟩

theorem Grows.modify (cs : List (TimerCtx α)) (p : ℕ) {f : TimerCtx α → TimerCtx α}
    (hf : ∀ c, c.closes ≤ (f c).closes ∧ (c.misused = true → (f c).misused = true) ∧
      (f c).closed = c.closed) : Grows cs (cs.modify p f) := by
  intro q c hc
  by_cases hq : p = q
  · subst hq
    exact ⟨f c, by simp [hc], hf c⟩
  · exact ⟨c, (List.getElem?_modify_ne _ _ hq).trans hc, le_rfl, id, rfl⟩

theorem Grows.append (cs ds : List (TimerCtx α)) : Grows cs (cs ++ ds) := by
  intro p c hc
  have hp : p < cs.length := (List.getElem?_eq_some_iff.mp hc).1
  exact ⟨c, (List.getElem?_append_left hp).trans hc, le_rfl, id, rfl⟩

theorem retire_grows (c : TimerCtx α) : c.closes ≤ c.retire.closes ∧
    (c.misused = true → c.retire.misused = true) ∧ c.retire.closed = c.closed :=
  ⟨Nat.le_succ _, fun h => by simp [TimerCtx.retire, TimerCtx.uvClose, TimerCtx.uvTimerStop,
    TimerCtx.touch, h], rfl⟩

theorem removeJob_grows (s : UvScheduler α) (name : Str) :
    Grows s.ctxs (s.removeJob name).ctxs := by
  cases hp : s.timers.lookup name with
  | none => rw [removeJob_none hp]; exact .refl _
  | some p => rw [removeJob_some hp]; exact .modify _ _ retire_grows

theorem install_grows (s : UvScheduler α) (ctx : TimerCtx α) :
    Grows s.ctxs (s.install ctx).ctxs :=
  (removeJob_grows s ctx.name).trans (.append _ _)

theorem stop_grows (s : UvScheduler α) : Grows s.ctxs s.stop.ctxs := by
  unfold UvScheduler.stop
  split
  · change Grows s.ctxs (s.timers.entries.foldl (fun cs e => cs.modify e.2 TimerCtx.retire) s.ctxs)
    generalize s.ctxs = cs
    induction s.timers.entries generalizing cs with
    | nil => exact .refl _
    | cons e es ih => exact (Grows.modify cs e.2 retire_grows).trans (ih _)
  · exact .refl _

theorem oneshotTail_grows (s : UvScheduler α) (p : ℕ) :
    Grows s.ctxs (s.oneshotTail p).ctxs := by
  unfold UvScheduler.oneshotTail
  cases hp : s.ctxs[p]? with
  | none => exact .refl _
  | some c =>
      have hstop : Grows s.ctxs (s.ctxs.modify p TimerCtx.uvTimerStop) :=
        .modify _ _ fun c => ⟨le_rfl, fun h => by simp [TimerCtx.uvTimerStop, TimerCtx.touch, h], rfl⟩
      have hclose : ∀ cs : List (TimerCtx α), Grows cs (cs.modify p TimerCtx.uvClose) :=
        fun cs => .modify _ _ fun c => ⟨Nat.le_succ _,
          fun h => by simp [TimerCtx.uvClose, TimerCtx.touch, h], rfl⟩
      simp only [UvScheduler.modifyCtx]
      split <;> exact hstop.trans (hclose _)

/-- The timer of a running one-shot callback is left as it is. -/
def Spares (s u : UvScheduler α) (p : ℕ) : Prop :=
  ∀ c, s.ctxs[p]? = some c → Registered s p c → u.ctxs[p]? = some c ∧ Registered u p c

theorem removeJob_spares {s : UvScheduler α} {name : Str} {p : ℕ}
    (hp : s.timers.lookup name ≠ some p) : Spares s (s.removeJob name) p := by
  intro c hc hr
  cases hq : s.timers.lookup name with
  | none => rw [removeJob_none hq]; exact ⟨hc, hr⟩
  | some q =>
      rw [removeJob_some hq]
      have hqp : q ≠ p := fun e => hp (by rw [hq, e])
      have hname : c.name ≠ name := by
        intro e
        rw [Registered, e, hq] at hr
        exact hqp (Option.some.inj hr)
      refine ⟨(List.getElem?_modify_ne _ _ hqp).trans hc, ?_⟩
      simpa [Registered, StdMap.lookup_erase_eq_ite, hname] using hr

theorem install_spares {s : UvScheduler α} {ctx : TimerCtx α} {p : ℕ}
    (hp : s.timers.lookup ctx.name ≠ some p) : Spares s (s.install ctx) p := by
  intro c hc hr
  obtain ⟨hc', hr'⟩ := removeJob_spares hp c hc hr
  have hlt : p < (s.removeJob ctx.name).ctxs.length := (List.getElem?_eq_some_iff.mp hc').1
  have hname : c.name ≠ ctx.name := by
    intro e
    rw [Registered, e, removeJob_lookup] at hr'
    cases hr'
  refine ⟨(List.getElem?_append_left hlt).trans hc', ?_⟩
  simpa [Registered, UvScheduler.install, StdMap.lookup_insert_eq_ite, hname] using hr'

theorem Inv.of_sched {s : State α} {u : UvScheduler α} (h : Inv s) (hu : Owned u)
    (hspare : ∀ p, .oneshotTimerCb p ∈ s.stack → Spares s.sched u p)
    (hgrow : Grows s.sched.ctxs u.ctxs) : Inv { s with sched := u } where
  owned := hu
  running p hp := by
    obtain ⟨c, hc, hr, ha⟩ := h.running p hp
    obtain ⟨hc', hr'⟩ := hspare p hp c hc hr
    exact ⟨c, hc', hr', ha⟩
  distinct := h.distinct
  allocated f hf := by
    obtain ⟨c, hc, hcl⟩ := h.allocated f hf
    obtain ⟨d, hd, -, -, hcl'⟩ := hgrow f.ctx c hc
    exact ⟨d, hd, hcl'.trans hcl⟩

theorem removeJob_inv {s : State α} {name : Str} (h : Inv s) (hc : NotRunning s name) :
    Inv (s.withSched (·.removeJob name)) :=
  h.of_sched (h.owned.removeJob name) (fun p hp => removeJob_spares fun e => hc p e hp)
    (removeJob_grows _ _)

theorem addJob_inv {s : State α} {name : Str} {interval : ℕ} {callback : Option α} (h : Inv s)
    (hc : NotRunning s name) : Inv (s.withSched (·.addJob name interval callback)) :=
  h.of_sched (h.owned.addJob name interval callback)
    (fun p hp => install_spares fun e => hc p e hp) (install_grows _ _)

theorem after_inv {s : State α} {callback : Option α} (h : Inv s)
    (hc : NotRunning s (UvScheduler.afterName (UvScheduler.nextCounter s.sched.counter))) :
    Inv (s.withSched (·.after callback)) := by
  let u := { s.sched with counter := UvScheduler.nextCounter s.sched.counter }
  refine h.of_sched (h.owned.after callback) (fun p hp => ?_) ?_
  · exact install_spares (s := u) fun e => hc p e hp
  · exact install_grows u _

theorem stop_inv {s : State α} (h : Inv s)
    (hc : s.sched.started = true → ∀ p, .oneshotTimerCb p ∉ s.stack) :
    Inv (s.withSched .stop) := by
  refine h.of_sched h.owned.stop (fun p hp => ?_) (stop_grows _)
  have hst : ¬ s.sched.started = true := fun hst => hc hst p hp
  intro c hcx hr
  simpa [UvScheduler.stop, hst] using ⟨hcx, hr⟩

/-- Firing leaves the owner alone and, for a one-shot timer, disarms it. -/
theorem rearm_owned {s : UvScheduler α} {p : ℕ} {c : TimerCtx α} (h : Owned s)
    (hc : s.ctxs[p]? = some c) (ha : c.active = true) : Owned (s.modifyCtx p TimerCtx.rearm) := by
  refine h.modifyCtx fun d hd => ?_
  rw [hc] at hd
  obtain rfl := Option.some.inj hd
  have hs := h.settled p c hc
  exact ⟨⟨hs.closed, hs.deleted, hs.untouched, fun _ => hs.armed ha, hs.oneshot⟩, rfl, rfl, rfl⟩

/-- The tail of a one-shot callback whose timer nobody else has closed. -/
theorem oneshotTail_owned {s : UvScheduler α} {p : ℕ} {c : TimerCtx α} (h : Owned s)
    (hc : s.ctxs[p]? = some c) (hr : Registered s p c) :
    s.oneshotTail p = { s with
      timers := s.timers.erase c.name
      ctxs := s.ctxs.modify p fun c => c.uvTimerStop.uvClose } ∧ Owned (s.oneshotTail p) := by
  obtain ⟨d, hd, -, howner, h0⟩ := h.registered _ _ hr
  rw [hc] at hd
  obtain rfl := Option.some.inj hd
  have heq : s.oneshotTail p = { s with
      timers := s.timers.erase c.name
      ctxs := s.ctxs.modify p fun c => c.uvTimerStop.uvClose } := by
    simp only [UvScheduler.oneshotTail, hc, howner, if_true, UvScheduler.modifyCtx,
      List.modify_modify_eq]
    rfl
  refine ⟨heq, heq ▸ h.forget hr fun d hd => ?_⟩
  rw [hc] at hd
  obtain rfl := Option.some.inj hd
  exact (h.settled p c hc).close h0

theorem oneshotTail_spares {s : UvScheduler α} {p q : ℕ} {c : TimerCtx α} (h : Owned s)
    (hc : s.ctxs[p]? = some c) (hr : Registered s p c) (hpq : p ≠ q) :
    Spares s (s.oneshotTail p) q := by
  intro d hd hrd
  have hname : d.name ≠ c.name := by
    intro e
    rw [Registered, e] at hrd
    exact hpq (Option.some.inj (hr.symm.trans hrd))
  rw [(oneshotTail_owned h hc hr).1]
  refine ⟨(List.getElem?_modify_ne _ _ hpq).trans hd, ?_⟩
  simpa [Registered, StdMap.lookup_erase_eq_ite, hname] using hrd

theorem mem_oneshots {stack : List Frame} {p : ℕ} :
    Frame.oneshotTimerCb p ∈ stack.filter (fun f => f matches .oneshotTimerCb _) ↔
      .oneshotTimerCb p ∈ stack := by
  simp [List.mem_filter]

theorem fire_inv {s : State α} {p : ℕ} {c : TimerCtx α} (h : Inv s)
    (hc : s.sched.ctxs[p]? = some c) (ha : c.active = true) : Inv (fire s p c) := by
  have hset := h.owned.settled p c hc
  have hreg := h.owned.registered_of_open hc (hset.armed ha)
  have hcl := hset.not_closed (hset.armed ha)
  have hidle : .oneshotTimerCb p ∉ s.stack := by
    intro hp
    obtain ⟨d, hd, -, hd'⟩ := h.running p hp
    rw [hc] at hd
    rw [Option.some.inj hd, hd'] at ha
    cases ha
  have hne : ∀ q, .oneshotTimerCb q ∈ s.stack → p ≠ q := by
    rintro q hq rfl
    exact hidle hq
  have hrearmed : (s.sched.modifyCtx p TimerCtx.rearm).ctxs[p]? = some c.rearm := by
    simp [UvScheduler.modifyCtx, hc]
  have hmid : Inv (s.withSched (·.modifyCtx p TimerCtx.rearm)) := by
    refine h.of_sched (rearm_owned h.owned hc ha) (fun q hq d hd hr => ⟨?_, hr⟩) ?_
    · exact (List.getElem?_modify_ne _ _ (hne q hq)).trans hd
    · exact Grows.modify _ _ fun c => ⟨le_rfl, id, rfl⟩
  unfold fire
  cases hcb : c.callback with
  | some a =>
      cases hone : c.oneshot with
      | true =>
          refine ⟨hmid.owned, ?_, ?_, ?_⟩
          · intro q hq
            rcases List.mem_cons.mp hq with hq | hq
            · obtain rfl : q = p := by simpa using hq
              exact ⟨c.rearm, hrearmed, hreg, by simp [TimerCtx.rearm, hset.oneshot hone]⟩
            · exact hmid.running q hq
          · exact List.nodup_cons.mpr ⟨fun hp => hidle (mem_oneshots.mp hp), hmid.distinct⟩
          · intro f hf
            rcases List.mem_cons.mp hf with rfl | hf
            · exact ⟨c.rearm, hrearmed, hcl⟩
            · exact hmid.allocated f hf
      | false =>
          refine ⟨hmid.owned, ?_, hmid.distinct, ?_⟩
          · intro q hq
            exact hmid.running q (List.mem_of_ne_of_mem (by simp) hq)
          · intro f hf
            rcases List.mem_cons.mp hf with rfl | hf
            · exact ⟨c.rearm, hrearmed, hcl⟩
            · exact hmid.allocated f hf
  | none =>
      cases hone : c.oneshot with
      | true =>
          exact hmid.of_sched (oneshotTail_owned hmid.owned hrearmed hreg).2
            (fun q hq => oneshotTail_spares hmid.owned hrearmed hreg (hne q hq))
            (oneshotTail_grows _ _)
      | false => exact hmid

/-- A callback that is back leaves the stack. -/
theorem Inv.pop {s : State α} {f : Frame} {rest : List Frame} (h : Inv s)
    (hs : s.stack = f :: rest) : Inv { s with stack := rest } where
  owned := h.owned
  running p hp := h.running p (hs ▸ List.mem_cons_of_mem _ hp)
  distinct := ((List.sublist_cons_self f rest).filter _).nodup (hs ▸ h.distinct)
  allocated g hg := h.allocated g (hs ▸ List.mem_cons_of_mem _ hg)

theorem ret_inv {s t : State α} (h : Inv s) (hstep : step s .ret = some t) : Inv t := by
  cases step_does hstep with
  | timerCb p rest hst =>
      obtain ⟨c, hc, hcl⟩ := h.allocated _ (hst ▸ List.mem_cons_self)
      have htouch : s.sched.modifyCtx p TimerCtx.touch = s.sched := by
        have : s.sched.ctxs.modify p TimerCtx.touch = s.sched.ctxs := by
          refine List.ext_getElem? fun q => ?_
          by_cases hq : p = q
          · subst hq
            have hcl' : c.closed = false := hcl
            simp only [Frame.ctx] at hc
            simp [hc, TimerCtx.touch_of_open hcl']
          · exact List.getElem?_modify_ne _ _ hq
        simp [UvScheduler.modifyCtx, this]
      rw [htouch]
      exact h.pop hst
  | oneshotTimerCb p rest hst =>
      obtain ⟨d, hd, hreg, -⟩ := h.running p (hst ▸ List.mem_cons_self)
      have hdist := h.distinct
      simp only [hst, List.filter_cons_of_pos, List.nodup_cons] at hdist
      refine (h.pop hst).of_sched (oneshotTail_owned h.owned hd hreg).2 (fun q hq => ?_)
        (oneshotTail_grows _ _)
      refine oneshotTail_spares h.owned hd hreg ?_
      rintro rfl
      exact hdist.1 (mem_oneshots.mpr hq)

theorem closeCb_inv {s : State α} {p : ℕ} {c : TimerCtx α} (h : Inv s)
    (hc : ∀ f ∈ s.stack, f.ctx ≠ p) (hp : s.sched.ctxs[p]? = some c) (hcl : c.closed = false)
    (hpos : 0 < c.closes) : Inv (s.withSched (·.modifyCtx p TimerCtx.timerCloseCb)) := by
  have hset := h.owned.settled p c hp
  have h1 : c.closes = 1 := by
    by_contra h1
    have hr : Registered s.sched p c := by
      by_contra hr
      exact h1 (h.owned.unregistered p c hp hr)
    have := h.owned.open_closes hp hr
    omega
  have hother : ∀ f ∈ s.stack, (s.sched.modifyCtx p TimerCtx.timerCloseCb).ctxs[f.ctx]? =
      s.sched.ctxs[f.ctx]? := fun f hf => List.getElem?_modify_ne _ _ (hc f hf).symm
  refine ⟨h.owned.modifyCtx fun d hd => ?_, ?_, h.distinct, ?_⟩
  · rw [hp] at hd
    obtain rfl := Option.some.inj hd
    refine ⟨⟨fun _ => h1, ?_, hset.untouched, hset.armed, hset.oneshot⟩, rfl, rfl, rfl⟩
    simp [TimerCtx.timerCloseCb, hset.deleted, hcl]
  · intro q hq
    obtain ⟨d, hd, hr, ha⟩ := h.running q hq
    exact ⟨d, (hother _ hq).trans hd, hr, ha⟩
  · intro f hf
    obtain ⟨d, hd, hdc⟩ := h.allocated f hf
    exact ⟨d, (hother f hf).trans hd, hdc⟩

theorem start_inv {s : State α} (h : Inv s) : Inv (s.withSched .start) := by
  refine h.of_sched ?_ (fun p _ c hc hr => ?_) ?_ <;> unfold UvScheduler.start <;> split
  · exact h.owned
  · exact ⟨h.owned.registered, h.owned.unregistered, h.owned.settled⟩
  · exact ⟨hc, hr⟩
  · exact ⟨hc, hr⟩
  · exact .refl _
  · exact .refl _

theorem step_inv (s : State α) (l : Label α) (t : State α) (h : Inv s) (hc : Conform s l)
    (hstep : step s l = some t) : Inv t := by
  cases step_does hstep with
  | start => exact start_inv h
  | stop => exact stop_inv h hc
  | addJob name interval callback => exact addJob_inv h hc
  | removeJob name => exact removeJob_inv h hc
  | after callback => exact after_inv h hc
  | otherAfter =>
      exact ⟨⟨h.owned.registered, h.owned.unregistered, h.owned.settled⟩, h.running, h.distinct,
        h.allocated⟩
  | fire p c hp ha => exact fire_inv h hp ha
  | timerCb p rest hst => exact ret_inv h hstep
  | oneshotTimerCb p rest hst => exact ret_inv h hstep
  | closeCb p c hp hcl hpos => exact closeCb_inv h hc hp hcl hpos

/-- What dooms one timer: more closes, counting those that running one-shot callbacks
will do, than one; a use after the close callback, past or due. -/
def Doomed (s : State α) : Prop :=
  ∃ (p : ℕ) (c : TimerCtx α), s.sched.ctxs[p]? = some c ∧
    (2 ≤ c.closes + s.stack.count (.oneshotTimerCb p) ∨ c.misused = true ∨
      c.closed = true ∧ ∃ f ∈ s.stack, f.ctx = p)

theorem Doomed.grow {s t : State α} (h : Doomed s) (hg : Grows s.sched.ctxs t.sched.ctxs)
    (hs : s.stack.Sublist t.stack) : Doomed t := by
  obtain ⟨p, c, hc, hd⟩ := h
  obtain ⟨d, hd', hle, hm, hcl⟩ := hg p c hc
  have hcount := hs.count_le (.oneshotTimerCb p)
  refine ⟨p, d, hd', ?_⟩
  rcases hd with hd | hd | ⟨hd, f, hf, hfp⟩
  · exact .inl (by omega)
  · exact .inr (.inl (hm hd))
  · exact .inr (.inr ⟨hcl.trans hd, f, hs.subset hf, hfp⟩)

theorem fire_grows (s : State α) (p : ℕ) (c : TimerCtx α) :
    Grows s.sched.ctxs (fire s p c).sched.ctxs ∧ s.stack.Sublist (fire s p c).stack := by
  have hrearm : Grows s.sched.ctxs (s.sched.modifyCtx p TimerCtx.rearm).ctxs :=
    .modify _ _ fun c => ⟨le_rfl, id, rfl⟩
  unfold fire
  cases c.callback with
  | some a => cases c.oneshot <;> exact ⟨hrearm, List.sublist_cons_self _ _⟩
  | none =>
      cases c.oneshot with
      | true => exact ⟨hrearm.trans (oneshotTail_grows _ _), List.Sublist.refl _⟩
      | false => exact ⟨hrearm, List.Sublist.refl _⟩

/-- A use of the object shows in its record if the close callback has run. -/
theorem oneshotTail_at {s : UvScheduler α} {p : ℕ} {c : TimerCtx α} (hc : s.ctxs[p]? = some c) :
    ∃ d : TimerCtx α, (s.oneshotTail p).ctxs[p]? = some d ∧ d.closes = c.closes + 1 ∧
      d.misused = (c.misused || c.closed) := by
  refine ⟨c.uvTimerStop.uvClose, ?_, rfl, ?_⟩
  · simp only [UvScheduler.oneshotTail, hc, UvScheduler.modifyCtx]
    cases c.owner <;> simp [hc]
  · simp [TimerCtx.uvClose, TimerCtx.uvTimerStop, TimerCtx.touch]

theorem ret_doomed {s t : State α} (h : Doomed s) (hstep : step s .ret = some t) : Doomed t := by
  obtain ⟨p, c, hc, hd⟩ := h
  cases step_does hstep with
  | timerCb q rest hst =>
      rw [hst] at hd
      have hcount : (Frame.timerCb q :: rest).count (.oneshotTimerCb p) =
          rest.count (.oneshotTimerCb p) := List.count_cons_of_ne (by simp)
      by_cases hq : q = p
      · subst hq
        refine ⟨q, c.touch, by simp [UvScheduler.modifyCtx, hc], ?_⟩
        rcases hd with hd | hd | ⟨hd, -⟩
        · exact .inl (by simpa only [TimerCtx.touch, hcount] using hd)
        · exact .inr (.inl (by simp [TimerCtx.touch, hd]))
        · exact .inr (.inl (by simp [TimerCtx.touch, hd]))
      · refine ⟨p, c, (List.getElem?_modify_ne _ _ hq).trans hc, ?_⟩
        refine hd.imp (fun hd => by rwa [hcount] at hd) (.imp_right (.imp_right ?_))
        rintro ⟨f, hf, rfl⟩
        exact ⟨f, List.mem_of_ne_of_mem (fun e => hq (e ▸ rfl)) hf, rfl⟩
  | oneshotTimerCb q rest hst =>
      rw [hst] at hd
      by_cases hq : q = p
      · subst hq
        obtain ⟨d, hd', hcloses, hmis⟩ := oneshotTail_at hc
        refine ⟨q, d, hd', ?_⟩
        rcases hd with hd | hd | ⟨hd, -⟩
        · rw [List.count_cons_self] at hd
          exact .inl (by simp only; omega)
        · exact .inr (.inl (by simp [hmis, hd]))
        · exact .inr (.inl (by simp [hmis, hd]))
      · have hcount : (Frame.oneshotTimerCb q :: rest).count (.oneshotTimerCb p) =
            rest.count (.oneshotTimerCb p) := List.count_cons_of_ne (by simpa using hq)
        have hpop : Doomed { s with stack := rest } := by
          refine ⟨p, c, hc, ?_⟩
          refine hd.imp (fun hd => by rwa [hcount] at hd) (.imp_right (.imp_right ?_))
          rintro ⟨f, hf, rfl⟩
          exact ⟨f, List.mem_of_ne_of_mem (fun e => hq (e ▸ rfl)) hf, rfl⟩
        exact hpop.grow (oneshotTail_grows _ _) (List.Sublist.refl _)

theorem start_ctxs (s : UvScheduler α) : s.start.ctxs = s.ctxs := by
  unfold UvScheduler.start
  split <;> rfl

theorem step_doomed (s : State α) (l : Label α) (t : State α) (h : Doomed s)
    (hstep : step s l = some t) : Doomed t := by
  have hops : ∀ u : UvScheduler α, Grows s.sched.ctxs u.ctxs → Doomed { s with sched := u } :=
    fun u hu => h.grow hu (List.Sublist.refl _)
  cases step_does hstep with
  | start => exact hops _ (start_ctxs s.sched ▸ .refl _)
  | stop => exact hops _ (stop_grows _)
  | addJob name interval callback => exact hops _ (install_grows _ _)
  | removeJob name => exact hops _ (removeJob_grows _ _)
  | after callback =>
      let u := { s.sched with counter := UvScheduler.nextCounter s.sched.counter }
      exact hops _ (install_grows u _)
  | otherAfter => exact hops _ (.refl _)
  | fire p c hp ha =>
      obtain ⟨hg, hs⟩ := fire_grows s p c
      exact h.grow hg hs
  | timerCb p rest hst => exact ret_doomed h hstep
  | oneshotTimerCb p rest hst => exact ret_doomed h hstep
  | closeCb p c hp hcl hpos =>
      obtain ⟨q, d, hd, hdoom⟩ := h
      by_cases hq : p = q
      · subst hq
        exact ⟨p, d.timerCloseCb, by simp [State.withSched, UvScheduler.modifyCtx, hd],
          hdoom.imp_right (.imp_right fun hdoom => ⟨rfl, hdoom.2⟩)⟩
      · exact ⟨q, d, (List.getElem?_modify_ne _ _ hq).trans hd, hdoom⟩

/-- Closing a timer while its one-shot callback runs. -/
theorem removeJob_dooms {s : State α} {name : Str} (h : Inv s) (hc : ¬ NotRunning s name) :
    Doomed (s.withSched (·.removeJob name)) := by
  simp only [NotRunning, not_forall, not_not] at hc
  obtain ⟨p, hp, hrun⟩ := hc
  obtain ⟨c, hcx, -⟩ := h.owned.registered _ _ hp
  refine ⟨p, c.retire, by simp [State.withSched, removeJob_some hp, hcx], .inl ?_⟩
  have hpos : 0 < s.stack.count (.oneshotTimerCb p) := List.count_pos_iff.mpr hrun
  simp only [TimerCtx.retire, TimerCtx.uvClose]
  change 2 ≤ _ + s.stack.count (.oneshotTimerCb p)
  omega

theorem install_dooms {s : State α} {ctx : TimerCtx α} (h : Inv s)
    (hc : ¬ NotRunning s ctx.name) : Doomed (s.withSched (·.install ctx)) :=
  (removeJob_dooms h hc).grow (.append _ _) (List.Sublist.refl _)

theorem stop_dooms {s : State α} (h : Inv s)
    (hc : ¬ (s.sched.started = true → ∀ p, .oneshotTimerCb p ∉ s.stack)) :
    Doomed (s.withSched .stop) := by
  simp only [Classical.not_imp, not_forall, not_not] at hc
  obtain ⟨hst, p, hrun⟩ := hc
  obtain ⟨c, hcx, hr, -⟩ := h.running p hrun
  have hmem : p ∈ registeredCtxs s.sched := mem_registeredCtxs.mpr ⟨_, hr⟩
  have hat : s.sched.stop.ctxs[p]? = some c.retire := by
    have := getElem?_retireAll h.owned.named p
    rw [if_pos hmem, hcx] at this
    simpa [UvScheduler.stop, hst, UvScheduler.retireAll] using this
  refine ⟨p, c.retire, hat, .inl ?_⟩
  have hpos : 0 < s.stack.count (.oneshotTimerCb p) := List.count_pos_iff.mpr hrun
  simp only [TimerCtx.retire, TimerCtx.uvClose]
  change 2 ≤ _ + s.stack.count (.oneshotTimerCb p)
  omega

theorem step_dooms (s : State α) (l : Label α) (t : State α) (h : Inv s) (hc : ¬ Conform s l)
    (hstep : step s l = some t) : Doomed t := by
  cases step_does hstep with
  | stop => exact stop_dooms h hc
  | addJob name interval callback => exact install_dooms h hc
  | removeJob name => exact removeJob_dooms h hc
  | after callback =>
      have h' : Inv (s.withSched fun u =>
          { u with counter := UvScheduler.nextCounter u.counter }) :=
        step_inv s .otherAfter _ h trivial rfl
      exact install_dooms h' hc
  | closeCb p c hp hcl hpos =>
      simp only [Conform, not_forall, not_not] at hc
      obtain ⟨f, hf, hfp⟩ := hc
      exact ⟨p, c.timerCloseCb, by simp [State.withSched, UvScheduler.modifyCtx, hp],
        .inr (.inr ⟨rfl, f, hf, hfp⟩)⟩
  | _ => exact absurd trivial hc

/-- Once no callback is running, a doomed timer has broken the law. -/
theorem Doomed.breaks {s : State α} (h : Doomed s) (hidle : s.stack = []) :
    ¬ Lifecycle s.sched := by
  intro hl
  obtain ⟨p, c, hc, hd⟩ := h
  simp only [hidle, List.count_nil, List.not_mem_nil, false_and, exists_false, and_false, or_false,
    Nat.add_zero] at hd
  rcases hd with hd | hd
  · by_cases hr : Registered s.sched p c
    · have := hl.live p c hc hr
      omega
    · have := hl.once p c hc hr
      omega
  · rw [hl.untouched p c hc] at hd
    cases hd

/-- A scheduler that has just been constructed, in a process in which others may have
used the counter before. -/
def fresh (n : ℤ) : State α := { sched := { counter := n } }

theorem fresh_inv (n : ℤ) : Inv (fresh n : State α) where
  owned := ⟨fun _ _ h => by simp [fresh] at h, fun _ _ h => by simp [fresh] at h,
    fun _ _ h => by simp [fresh] at h⟩
  running _ h := by simp [fresh] at h
  distinct := by simp [fresh]
  allocated _ h := by simp [fresh] at h

/-- The law of timer handles holds along a run whose steps leave running callbacks
their timers, and a run that is back in the loop has kept it only so. -/
theorem timer_lifecycle_iff (n : ℤ) (ls : List (Label α)) (s : State α)
    (h : Transition.run step (fresh n) ls = some s) :
    (Transition.Along step Conform (fresh n) ls → Lifecycle s.sched) ∧
      (s.stack = [] → (Lifecycle s.sched ↔ Transition.Along step Conform (fresh n) ls)) := by
  have hkeeps : Transition.Along step Conform (fresh n) ls → Lifecycle s.sched := fun hc =>
    (Transition.run_invariant_along step_inv (fresh_inv n) hc h).owned.lifecycle
  refine ⟨hkeeps, fun hidle => ⟨fun hl => ?_, hkeeps⟩⟩
  refine Transition.along_of_end (P := fun s => ¬ Doomed s) step_inv ?_ ?_ (fresh_inv n) h ?_
  · exact fun s l t hs hc hstep => not_not.mpr (step_dooms s l t hs hc hstep)
  · exact fun s l t hd hstep => not_not.mpr (step_doomed s l t (not_not.mp hd) hstep)
  · exact fun hd => hd.breaks hidle hl

/-- A delayed callback adds a job that the loop runs twice and a second job replaces. -/
def orderly : List (Label ℕ) :=
  [.start, .after (some 1), .fire 0, .addJob (str "poll") 5 (some 2), .ret, .closeCb 0, .fire 1, .ret,
    .fire 1, .addJob (str "poll") 7 (some 3), .ret, .closeCb 1, .stop]

/-- A delayed callback stops the scheduler, as the program's own callbacks do. -/
def stopInCallback : List (Label ℕ) := [.start, .after (some 1), .fire 0, .stop, .ret]

theorem timer_lifecycle_orderly : ∃ s, Transition.run step (fresh 0) orderly = some s ∧
    s.sched.ctxs.map TimerCtx.closes = [1, 1, 1] ∧ Lifecycle s.sched :=
  ⟨_, rfl, rfl, (timer_lifecycle_iff 0 orderly _ rfl).1 (by decide)⟩

/-- The handle is closed by `stop` and then again behind the callback. -/
theorem stop_in_callback_closes_twice : ∃ s, Transition.run step (fresh 0) stopInCallback = some s ∧
    s.stack = [] ∧ s.sched.ctxs.map TimerCtx.closes = [2] ∧ ¬ Lifecycle s.sched := by
  refine ⟨_, rfl, rfl, rfl, fun hl => ?_⟩
  have := hl.once 0 _ rfl (by decide)
  revert this
  decide

end LynneSocial.Timers
