import LynneSocial.Browser.Handlers
import LynneSocial.Browser.Lifetimes
import LynneSocial.Scheduler.Armed
import Mathlib.Logic.Function.Iterate

/-!
# Delayed callbacks

The manager and the timers of its scheduler, side by side. `after()` of a context
starts a one-shot timer whose callback holds a guard; the destructor of the
context sets the guard to `false`. Timers are told apart by a name that is made
from a counter shared by all schedulers of the process, and a timer that draws a
name in use takes the place of the other one.
-/
namespace LynneSocial.Delayed

open Browser

structure System where
  manager : State := Browser.init
  /-- A callback is the context whose guard it holds. -/
  timers : Timers.State ℕ
  /-- The timers whose callbacks were called, the last one first. -/
  invoked : List ℕ := []

inductive Label where
  /-- Anything the manager does, its delayed callbacks apart. -/
  | manager (l : Browser.Label)
  | after (ctx : ℕ)
  /-- Another scheduler calls `after`. -/
  | otherAfter
  | fire (timer : ℕ)
  | closeCb (timer : ℕ)

/-- The constructors; the counter may have been used before. -/
def init (n : ℤ) : System := { timers := Timers.fresh n }

/-- The callback of the timer on top is back, if there is one. -/
def back (timers : Timers.State ℕ) : Timers.State ℕ := (Timers.step timers .ret).getD timers

/-- A step of the manager. `stop()` is not called from a delayed callback. -/
def managerStep (s : System) (l : Browser.Label) : Option System :=
  match l with
  | .after _ | .fire _ => none
  | .start =>
    (s.manager.step .start).map fun m =>
      { s with manager := m, timers := if s.manager.started then s.timers else s.timers.withSched .start }
  | .stop =>
    if s.timers.stack = [] then
      (s.manager.step .stop).map fun m =>
        { s with manager := m, timers := if s.manager.started then s.timers.withSched .stop else s.timers }
    else none
  | .ret | .throw =>
    (s.manager.step l).map fun m =>
      { s with manager := m, timers := if m.stack = [] then back s.timers else s.timers }
  | l => (s.manager.step l).map fun m => { s with manager := m }

/-- The loop comes to the close callbacks, also when `stop()` runs it. -/
def loopTurn (s : System) : Bool :=
  match s.manager.stack with
  | [] | .stopping :: _ => true
  | _ => false

/-- What a timer calls is `if (*alive) cb();`. -/
def step (s : System) : Label → Option System
  | .manager l => managerStep s l
  | .after c =>
    if s.manager.userTurn ∧ s.manager.usable c then
      (Timers.step s.timers (.after (some c))).map fun t => { s with timers := t }
    else none
  | .otherAfter => (Timers.step s.timers .otherAfter).map fun t => { s with timers := t }
  | .fire p =>
    match s.manager.stack, s.timers.sched.ctxs[p]? with
    | [], some x =>
      (Timers.step s.timers (.fire p)).map fun t =>
        match x.callback with
        | some c =>
          if s.manager.Alive c then
            { manager := { s.manager with stack := [.user] }, timers := t, invoked := p :: s.invoked }
          else { s with timers := back t }
        | none => { s with timers := t }
    | _, _ => none
  | .closeCb p =>
    if loopTurn s then (Timers.step s.timers (.closeCb p)).map fun t => { s with timers := t } else none

/-- The timers of the contexts that are alive are armed until they call their callback. -/
def Serves (s : System) : Prop :=
  ∀ (p : ℕ) (x : TimerCtx ℕ) (c : ℕ), s.timers.sched.ctxs[p]? = some x → x.callback = some c →
    s.manager.Alive c → p ∉ s.invoked →
    x.active = true ∧ ∀ t, step s (.fire p) = some t → t.invoked = p :: s.invoked

/-- A call of `after` does not draw the name of an armed timer whose context is alive. -/
def NoClash (s : System) : Label → Prop
  | .after _ =>
    ∀ q ∈ s.timers.sched.timers.lookup (UvScheduler.afterName (UvScheduler.nextCounter s.timers.sched.counter)),
      ∀ x ∈ s.timers.sched.ctxs[q]?, x.active = true → ∀ c ∈ x.callback, ¬ s.manager.Alive c
  | _ => True

instance (s : System) : ∀ l : Label, Decidable (NoClash s l)
  | .after _ => by
    unfold NoClash
    infer_instance
  | .manager _ | .otherAfter | .fire _ | .closeCb _ => .isTrue trivial

/-- Operations that end no timer but one whose callback is back. -/
def harmless : Timers.Label ℕ → Prop
  | .start | .otherAfter | .ret | .closeCb _ => True
  | _ => False

inductive Parts (s : System) : Label → System → Prop
  | plain (l : Label) (m : State) (hm : Lives s.manager m) (hsh : Shape m.stack) :
      Parts s l { s with manager := m }
  | timer (l : Label) (m : State) (k : Timers.Label ℕ) (t : Timers.State ℕ) (hm : Lives s.manager m)
      (hsh : Shape m.stack) (hk : harmless k) (ht : Timers.step s.timers k = some t) :
      Parts s l { s with manager := m, timers := t }
  | stop (m : State) (hst : s.manager.started = true) (hm : s.manager.step .stop = some m) :
      Parts s (.manager .stop) { s with manager := m, timers := s.timers.withSched .stop }
  | after (c : ℕ) (t : Timers.State ℕ) (hu : s.manager.usable c = true)
      (ht : Timers.step s.timers (.after (some c)) = some t) : Parts s (.after c) { s with timers := t }
  | call (p c : ℕ) (x : TimerCtx ℕ) (t : Timers.State ℕ) (hx : s.timers.sched.ctxs[p]? = some x)
      (hc : x.callback = some c) (ha : s.manager.Alive c) (ht : Timers.step s.timers (.fire p) = some t) :
      Parts s (.fire p) { manager := { s.manager with stack := [.user] }, timers := t, invoked := p :: s.invoked }
  | skip (p c : ℕ) (x : TimerCtx ℕ) (t : Timers.State ℕ) (hx : s.timers.sched.ctxs[p]? = some x)
      (hc : x.callback = some c) (ha : ¬ s.manager.Alive c) (ht : Timers.step s.timers (.fire p) = some t) :
      Parts s (.fire p) { s with timers := back t }
  | empty (p : ℕ) (x : TimerCtx ℕ) (t : Timers.State ℕ) (hx : s.timers.sched.ctxs[p]? = some x)
      (hc : x.callback = none) (ht : Timers.step s.timers (.fire p) = some t) :
      Parts s (.fire p) { s with timers := t }

variable {s t : System} {l : Label}

theorem managerStep_parts {l : Browser.Label} (hsh : Shape s.manager.stack) (hstep : managerStep s l = some t) :
    Parts s (.manager l) t := by
  have hlive : ∀ {l : Browser.Label} {m : State}, s.manager.step l = some m →
      Lives s.manager m ∧ Shape m.stack := fun h => ⟨State.step_lives hsh h, State.step_shape hsh h⟩
  have hplain : ∀ {l : Browser.Label} {m : State}, s.manager.step l = some m →
      Parts s (.manager l) { s with manager := m } := fun h => .plain _ _ (hlive h).1 (hlive h).2
  have hreturn : ∀ {l : Browser.Label} {m : State}, s.manager.step l = some m →
      Parts s (.manager l) { s with manager := m, timers := if m.stack = [] then back s.timers else s.timers } := by
    intro l m h
    split
    · cases hret : Timers.step s.timers .ret with
      | none =>
          have hback : back s.timers = s.timers := by rw [back, hret, Option.getD_none]
          rw [hback]
          exact hplain h
      | some u =>
          have hback : back s.timers = u := by rw [back, hret, Option.getD_some]
          rw [hback]
          exact .timer _ _ .ret _ (hlive h).1 (hlive h).2 trivial hret
    · exact hplain h
  cases l with
  | after c => simp [managerStep] at hstep
  | fire i => simp [managerStep] at hstep
  | start =>
      simp only [managerStep, Option.map_eq_some_iff] at hstep
      obtain ⟨m, hm, rfl⟩ := hstep
      split
      · exact hplain hm
      · exact .timer _ _ .start _ (hlive hm).1 (hlive hm).2 trivial rfl
  | stop =>
      simp only [managerStep, Option.ite_none_right_eq_some, Option.map_eq_some_iff] at hstep
      obtain ⟨-, m, hm, rfl⟩ := hstep
      split
      · exact .stop m ‹_› hm
      · exact hplain hm
  | ret =>
      simp only [managerStep, Option.map_eq_some_iff] at hstep
      obtain ⟨m, hm, rfl⟩ := hstep
      exact hreturn hm
  | throw =>
      simp only [managerStep, Option.map_eq_some_iff] at hstep
      obtain ⟨m, hm, rfl⟩ := hstep
      exact hreturn hm
  | _ =>
      simp only [managerStep, Option.map_eq_some_iff] at hstep
      obtain ⟨m, hm, rfl⟩ := hstep
      exact hplain hm

theorem step_parts (hsh : Shape s.manager.stack) (hstep : step s l = some t) : Parts s l t := by
  cases l with
  | manager l => exact managerStep_parts hsh hstep
  | after c =>
      simp only [step, Option.ite_none_right_eq_some, Option.map_eq_some_iff] at hstep
      obtain ⟨⟨-, hu⟩, u, hu', rfl⟩ := hstep
      exact .after c u hu hu'
  | otherAfter =>
      simp only [step, Option.map_eq_some_iff] at hstep
      obtain ⟨u, hu, rfl⟩ := hstep
      exact .timer _ _ .otherAfter u (.refl _) hsh trivial hu
  | fire p =>
      simp only [step] at hstep
      split at hstep
      · rename_i x _ hx
        obtain ⟨u, hu, rfl⟩ := Option.map_eq_some_iff.mp hstep
        split
        · rename_i c hc
          split
          · exact .call p c x u hx hc ‹_› hu
          · exact .skip p c x u hx hc ‹_› hu
        · rename_i hc
          exact .empty p x u hx hc hu
      · cases hstep
  | closeCb p =>
      simp only [step, Option.ite_none_right_eq_some, Option.map_eq_some_iff] at hstep
      obtain ⟨-, u, hu, rfl⟩ := hstep
      exact .timer _ _ (.closeCb p) u (.refl _) hsh trivial hu

theorem back_run (timers : Timers.State ℕ) : ∃ ks, Transition.run Timers.step timers ks = some (back timers) := by
  unfold back
  cases h : Timers.step timers .ret with
  | none => exact ⟨[], rfl⟩
  | some u => exact ⟨[.ret], Transition.run_cons.mpr ⟨u, h, rfl⟩⟩

/-- The timers run as timers do. -/
theorem step_timers (hsh : Shape s.manager.stack) (hstep : step s l = some t) :
    ∃ ks, Transition.run Timers.step s.timers ks = some t.timers := by
  have hone : ∀ {k : Timers.Label ℕ} {u : Timers.State ℕ}, Timers.step s.timers k = some u →
      Transition.run Timers.step s.timers [k] = some u := fun h => Transition.run_cons.mpr ⟨_, h, rfl⟩
  cases step_parts hsh hstep with
  | plain => exact ⟨[], rfl⟩
  | timer _ m k u hm hsh hk hu => exact ⟨[k], hone hu⟩
  | stop m hst hm => exact ⟨[.stop], hone rfl⟩
  | after c u hu hu' => exact ⟨_, hone hu'⟩
  | call p c x u hx hc hal hu => exact ⟨_, hone hu⟩
  | skip p c x u hx hc hal hu =>
      obtain ⟨ks, hks⟩ := back_run u
      exact ⟨_, Transition.run_append.mpr ⟨u, hone hu, hks⟩⟩
  | empty p x u hx hc hu => exact ⟨_, hone hu⟩

/-- Every timer is a one-shot timer of a context that was given away, and is done with once it was
called. -/
structure Inv (s : System) : Prop where
  shape : Shape s.manager.stack
  leased : Leased s.manager
  jobs : Timers.Jobs s.timers
  given : ∀ (p : ℕ) (x : TimerCtx ℕ), s.timers.sched.ctxs[p]? = some x → x.oneshot = true ∧
    ∃ (c : ℕ) (y : CdpBrowserContext), x.callback = some c ∧ s.manager.heap[c]? = some y ∧ y.shared = true
  called : ∀ p ∈ s.invoked, ∃ x : TimerCtx ℕ, s.timers.sched.ctxs[p]? = some x ∧ x.active = false
  nodup : s.invoked.Nodup

section Inv
variable {m : State} {u : Timers.State ℕ} {k : Timers.Label ℕ} {p c : ℕ} {x : TimerCtx ℕ}

theorem Inv.manager (h : Inv s) (hm : Lives s.manager m) (hsh : Shape m.stack) :
    Inv { s with manager := m } := by
  refine ⟨hsh, hm.leased h.leased, h.jobs, fun p x hx => ?_, h.called, h.nodup⟩
  obtain ⟨ho, c, y, hc, hy, hs⟩ := h.given p x hx
  obtain ⟨z, hz, hshared, -⟩ := hm.ages c y hy
  exact ⟨ho, c, z, hc, hz, hshared hs⟩

/-- A timer of the new state was there before. -/
theorem lasted (hl : Timers.Lasts s.timers.sched u.sched) (hx : u.sched.ctxs[p]? = some x) :
    ∃ y : TimerCtx ℕ, s.timers.sched.ctxs[p]? = some y ∧ x.callback = y.callback ∧ x.oneshot = y.oneshot := by
  have hlt : p < s.timers.sched.ctxs.length := hl.length ▸ (List.getElem?_eq_some_iff.mp hx).1
  obtain ⟨z, hz, hcb, ho⟩ := hl.keeps p _ (List.getElem?_eq_getElem hlt)
  obtain rfl := Option.some.inj (hx.symm.trans hz)
  exact ⟨_, List.getElem?_eq_getElem hlt, hcb, ho⟩

theorem Inv.still_called (h : Inv s) (hf : Timers.Fades s.timers.sched u.sched) :
    ∀ p ∈ s.invoked, ∃ x : TimerCtx ℕ, u.sched.ctxs[p]? = some x ∧ x.active = false := by
  intro p hp
  obtain ⟨x, hx, ha⟩ := h.called p hp
  obtain ⟨y, hy, -, hact⟩ := hf p x hx
  refine ⟨y, hy, ?_⟩
  by_contra hne
  rw [hact (by simpa using hne)] at ha
  cases ha

theorem Inv.timers (h : Inv s) (hk : k.plain) (hu : Timers.step s.timers k = some u) :
    Inv { s with timers := u } := by
  obtain ⟨hj, hf⟩ := h.jobs.step hu
  refine ⟨h.shape, h.leased, hj, fun p x hx => ?_, h.still_called hf, h.nodup⟩
  obtain ⟨y, hy, hcb, ho⟩ := lasted (Timers.step_lasts hk h.jobs hu) hx
  rw [hcb, ho]
  exact h.given p y hy

/-- The timer that `after` starts. -/
theorem after_timer (hu : Timers.step s.timers (.after (some c)) = some u) :
    u.sched.ctxs = (s.timers.sched.removeJob
        (UvScheduler.afterName (UvScheduler.nextCounter s.timers.sched.counter))).ctxs ++
      [{ name := UvScheduler.afterName (UvScheduler.nextCounter s.timers.sched.counter), callback := some c,
         oneshot := true, interval := 0 }] := by
  obtain rfl := Option.some.inj hu
  have hcount : ∀ (a : UvScheduler ℕ) (n : ℤ) (name : Str),
      (({ a with counter := n } : UvScheduler ℕ).removeJob name).ctxs = (a.removeJob name).ctxs := by
    intro a n name
    unfold UvScheduler.removeJob
    cases a.timers.lookup name <;> simp [UvScheduler.modifyCtx]
  simp [Timers.State.withSched, UvScheduler.after, UvScheduler.install, hcount]

theorem Inv.after (h : Inv s) (hu : s.manager.usable c = true)
    (hstep : Timers.step s.timers (.after (some c)) = some u) : Inv { s with timers := u } := by
  obtain ⟨hj, hf⟩ := h.jobs.step hstep
  refine ⟨h.shape, h.leased, hj, fun p x hx => ?_, h.still_called hf, h.nodup⟩
  have hx : u.sched.ctxs[p]? = some x := hx
  rw [after_timer hstep] at hx
  rcases Timers.getElem?_append_cases hx with hx | ⟨-, rfl⟩
  · have hl := Timers.Lasts.removeJob s.timers.sched
      (UvScheduler.afterName (UvScheduler.nextCounter s.timers.sched.counter))
    obtain ⟨y, hy, hcb, ho⟩ := lasted (u := ⟨_, []⟩) hl hx
    rw [hcb, ho]
    exact h.given p y hy
  · obtain ⟨y, hy, hs, -⟩ := usable_iff.mp hu
    exact ⟨rfl, c, y, rfl, hy, hs⟩

/-- A one-shot timer fires. -/
theorem fire_timer (h : Inv s) (hx : s.timers.sched.ctxs[p]? = some x) (hc : x.callback = some c)
    (hu : Timers.step s.timers (.fire p) = some u) :
    x.active = true ∧ u.stack = .oneshotTimerCb p :: s.timers.stack := by
  simp only [Timers.step, hx, Option.ite_none_right_eq_some, Option.some.injEq] at hu
  obtain ⟨ha, rfl⟩ := hu
  refine ⟨ha, ?_⟩
  simp only [Timers.fire, hc, (h.given p x hx).1]
  rfl

theorem Inv.call (h : Inv s) (hx : s.timers.sched.ctxs[p]? = some x) (hc : x.callback = some c)
    (hu : Timers.step s.timers (.fire p) = some u) :
    Inv { manager := { s.manager with stack := [.user] }, timers := u, invoked := p :: s.invoked } := by
  have hm : Lives s.manager { s.manager with stack := [.user] } := .of_same rfl rfl
  have ht := (h.timers (k := .fire p) trivial hu).manager hm trivial
  obtain ⟨ha, hstack⟩ := fire_timer h hx hc hu
  refine ⟨ht.shape, ht.leased, ht.jobs, ht.given, List.forall_mem_cons.mpr ⟨?_, ht.called⟩,
    List.nodup_cons.mpr ⟨fun hp => ?_, h.nodup⟩⟩
  · obtain ⟨y, hy, hoff, -⟩ := ht.jobs.running p (hstack ▸ List.mem_cons_self)
    exact ⟨y, hy, hoff⟩
  · obtain ⟨y, hy, hoff⟩ := h.called p hp
    rw [Option.some.inj (hx.symm.trans hy), hoff] at ha
    cases ha

/-- The end of a callback. -/
theorem back_cases (timers : Timers.State ℕ) :
    back timers = timers ∨ Timers.step timers .ret = some (back timers) := by
  unfold back
  cases h : Timers.step timers .ret with
  | none => exact .inl rfl
  | some u => exact .inr rfl

theorem Inv.back (h : Inv s) : Inv { s with timers := Delayed.back s.timers } := by
  rcases back_cases s.timers with heq | hret
  · rwa [heq]
  · exact h.timers (k := .ret) trivial hret

theorem harmless_plain (hk : harmless k) : k.plain := by
  cases k <;> trivial

end Inv

theorem Inv.step (h : Inv s) (hstep : step s l = some t) : Inv t := by
  cases step_parts h.shape hstep with
  | plain _ m hm hsh => exact h.manager hm hsh
  | timer _ m k u hm hsh hk hu => exact (h.timers (harmless_plain hk) hu).manager hm hsh
  | stop m hst hm =>
      have hs : Inv { s with timers := s.timers.withSched .stop } := h.timers (k := .stop) trivial rfl
      exact hs.manager (State.step_lives h.shape hm) (State.step_shape h.shape hm)
  | after c u hu hu' => exact h.after hu hu'
  | call p c x u hx hc ha hu => exact h.call hx hc hu
  | skip p c x u hx hc ha hu => exact (h.timers (k := .fire p) trivial hu).back
  | empty p x u hx hc hu => exact h.timers (k := .fire p) trivial hu

theorem inv_init (n : ℤ) : Inv (init n) :=
  ⟨trivial, leased_init, Timers.jobs_fresh n, fun p x hx => by simp [init, Timers.fresh] at hx,
    fun p hp => by simp [init] at hp, List.nodup_nil⟩

theorem run_inv {n : ℤ} {ls : List Label} (hr : Transition.run step (init n) ls = some s) : Inv s :=
  Transition.run_invariant (fun _ _ _ h ht => h.step ht) (inv_init n) hr

/-- The timers that `Serves` is about are armed. -/
def Armed (s : System) : Prop :=
  ∀ (p : ℕ) (x : TimerCtx ℕ) (c : ℕ), s.timers.sched.ctxs[p]? = some x → x.callback = some c →
    s.manager.Alive c → p ∉ s.invoked → x.active = true

theorem serves_iff : Serves s ↔ Armed s := by
  constructor
  · exact fun h p x c hx hc ha hp => (h p x c hx hc ha hp).1
  · intro h p x c hx hc ha hp
    refine ⟨h p x c hx hc ha hp, fun t ht => ?_⟩
    simp only [step] at ht
    split at ht
    · rename_i y _ hy
      obtain rfl := Option.some.inj (hx.symm.trans hy)
      obtain ⟨u, -, rfl⟩ := Option.map_eq_some_iff.mp ht
      simp only [hc, if_pos ha]
    · cases ht

section Armed
variable {m : State} {u : Timers.State ℕ} {k : Timers.Label ℕ} {p c : ℕ} {x y : TimerCtx ℕ}

theorem Inv.kept (h : Inv s) (hy : s.timers.sched.ctxs[p]? = some y) (ha : y.active = true) :
    Timers.Kept s.timers p y := by
  refine ⟨h.jobs.sound.armed p y hy ha, ⟨y, hy, rfl⟩, fun hrun => ?_⟩
  obtain ⟨z, hz, hoff, -⟩ := h.jobs.running p hrun
  rw [Option.some.inj (hy.symm.trans hz), hoff] at ha
  cases ha

/-- A timer stays armed if it does not fire and keeps its name. -/
theorem Inv.stays_armed (h : Inv s) (hy : s.timers.sched.ctxs[p]? = some y) (ha : y.active = true)
    (hu : Timers.step s.timers k = some u) (hne : k ≠ .fire p) (hdrop : ¬ Timers.Drops y.name s.timers k)
    (hx : u.sched.ctxs[p]? = some x) : x.active = true := by
  obtain ⟨-, ⟨d, hd, hjob⟩, -⟩ := ((h.kept hy ha).step h.jobs hu hdrop).1 hne
  obtain rfl := Option.some.inj (hx.symm.trans hd)
  exact (TimerCtx.job_inj.mp hjob).2.2.2.2.trans ha

/-- A context that is alive has been alive before. -/
theorem Inv.alive_before (h : Inv s) (hy : s.timers.sched.ctxs[p]? = some y) (hc : y.callback = some c)
    (hm : Lives s.manager m) (ha : m.Alive c) : s.manager.Alive c := by
  obtain ⟨-, c', z, hc', hz, -⟩ := h.given p y hy
  obtain rfl := Option.some.inj (hc.symm.trans hc')
  obtain ⟨w, hw, -, hd⟩ := hm.ages c z hz
  have hdw : w.destroyed = false := by simpa [State.Alive, hw] using ha
  have hdz : z.destroyed = false := by
    by_contra hne
    rw [hd (by simpa using hne)] at hdw
    cases hdw
  simp [State.Alive, hz, hdz]

theorem Armed.manager (ha : Armed s) (h : Inv s) (hm : Lives s.manager m) : Armed { s with manager := m } :=
  fun p x c hx hc hal hp => ha p x c hx hc (h.alive_before hx hc hm hal) hp

theorem Armed.timers (ha : Armed s) (h : Inv s) (hk : harmless k) (hu : Timers.step s.timers k = some u) :
    Armed { s with timers := u } := by
  intro p x c hx hc hal hp
  obtain ⟨y, hy, hcb, -⟩ := lasted (Timers.step_lasts (harmless_plain hk) h.jobs hu) hx
  refine h.stays_armed hy (ha p y c hy (hcb ▸ hc) hal hp) hu ?_ ?_ hx
  · rintro rfl
    exact hk
  · intro hd
    cases k <;> first | exact hk | exact hd

/-- After `stop()` there is no live context a timer could belong to. -/
theorem armed_stop (h : Inv s) (hst : s.manager.started = true) (hm : s.manager.step .stop = some m) :
    Armed { s with manager := m, timers := s.timers.withSched .stop } := by
  intro p x c hx hc hal hp
  exfalso
  have hs : Inv { s with timers := s.timers.withSched .stop } := h.timers (k := .stop) trivial rfl
  obtain ⟨-, c', y, hc', hy, hshared⟩ := (hs.manager (State.step_lives h.shape hm) (State.step_shape h.shape hm)).given
    p x hx
  obtain rfl := Option.some.inj (hc.symm.trans hc')
  have hy : m.heap[c]? = some y := hy
  have hd : y.destroyed = false := by simpa [State.Alive, hy] using hal
  have hnone := State.stop_unusable h.leased hst hm c
  rw [usable_iff.mpr ⟨y, hy, hshared, hd⟩] at hnone
  cases hnone

theorem Armed.after (ha : Armed s) (h : Inv s) (hno : NoClash s (.after c))
    (hu : Timers.step s.timers (.after (some c)) = some u) : Armed { s with timers := u } := by
  intro p x d hx hd hal hp
  have hx : u.sched.ctxs[p]? = some x := hx
  have happ := hx
  rw [after_timer hu] at happ
  rcases Timers.getElem?_append_cases happ with hold | ⟨-, rfl⟩
  · have hl := Timers.Lasts.removeJob s.timers.sched
      (UvScheduler.afterName (UvScheduler.nextCounter s.timers.sched.counter))
    obtain ⟨y, hy, hcb, -⟩ := lasted (u := ⟨_, []⟩) hl hold
    have hact := ha p y d hy (hcb ▸ hd) hal hp
    refine h.stays_armed hy hact hu nofun (fun hdrop => ?_) hx
    have hname : UvScheduler.afterName (UvScheduler.nextCounter s.timers.sched.counter) = y.name := hdrop
    refine hno p ?_ y hy hact d (hcb ▸ hd) hal
    rw [hname]
    exact h.jobs.sound.armed p y hy hact
  · rfl

/-- The timer that fires is called or belongs to a context that is gone. -/
theorem Armed.fire (ha : Armed s) (h : Inv s) {q : ℕ} (hu : Timers.step s.timers (.fire q) = some u)
    (hne : q ≠ p) (hx : u.sched.ctxs[p]? = some x) (hc : x.callback = some c) (hal : s.manager.Alive c)
    (hp : p ∉ s.invoked) : x.active = true := by
  obtain ⟨y, hy, hcb, -⟩ := lasted (Timers.step_lasts (l := .fire q) trivial h.jobs hu) hx
  exact h.stays_armed hy (ha p y c hy (hcb ▸ hc) hal hp) hu (fun heq => hne (Timers.Label.fire.inj heq)) id hx

theorem Armed.skip (ha : Armed s) (h : Inv s) {q : ℕ} (hx : s.timers.sched.ctxs[q]? = some x)
    (hc : x.callback = some c) (hdead : ¬ s.manager.Alive c) (hu : Timers.step s.timers (.fire q) = some u) :
    Armed { s with timers := back u } := by
  have hfired : Inv { s with timers := u } := h.timers (k := .fire q) trivial hu
  have hlast : Timers.Lasts s.timers.sched u.sched := Timers.step_lasts (l := .fire q) trivial h.jobs hu
  have hother : ∀ p y d, u.sched.ctxs[p]? = some y → y.callback = some d → s.manager.Alive d → p ∉ s.invoked →
      y.active = true := by
    intro p y d hy hd hal hp
    refine ha.fire h hu ?_ hy hd hal hp
    rintro rfl
    obtain ⟨z, hz, hcb, -⟩ := lasted hlast hy
    obtain rfl := Option.some.inj (hx.symm.trans hz)
    obtain rfl : c = d := Option.some.inj (hc.symm.trans (hcb ▸ hd))
    exact hdead hal
  intro p y d hy hd hal hp
  rcases back_cases u with heq | hret
  · rw [heq] at hy
    exact hother p y d hy hd hal hp
  · obtain ⟨z, hz, hcb, -⟩ :=
      lasted (s := { s with timers := u }) (Timers.step_lasts (l := .ret) trivial hfired.jobs hret) hy
    exact hfired.stays_armed hz (hother p z d hz (hcb ▸ hd) hal hp) hret nofun id hy

end Armed

theorem Armed.step (ha : Armed s) (h : Inv s) (hno : NoClash s l) (hstep : step s l = some t) : Armed t := by
  cases step_parts h.shape hstep with
  | plain _ m hm hsh => exact ha.manager h hm
  | timer _ m k u hm hsh hk hu => exact (ha.timers h hk hu).manager (h.timers (harmless_plain hk) hu) hm
  | stop m hst hm => exact armed_stop h hst hm
  | after c u hu hu' => exact ha.after h hno hu'
  | call q c x u hx hc hal hu =>
      intro p y d hy hd hal' hp
      obtain ⟨hne, hp⟩ := not_or.mp (mt List.mem_cons.mpr hp)
      exact ha.fire h hu (Ne.symm hne) hy hd hal' hp
  | skip q c x u hx hc hal hu => exact ha.skip h hx hc hal hu
  | empty q x u hx hc hu =>
      obtain ⟨-, c, -, hc', -⟩ := h.given q x hx
      rw [hc] at hc'
      cases hc'

/-- A call of `after` that draws the name of an armed timer whose context is alive ends this timer. -/
theorem clash_spoils (h : Inv s) (hno : ¬ NoClash s l) (hstep : step s l = some t) : ¬ Serves t := by
  cases l with
  | after c =>
      simp only [NoClash, Option.mem_def, not_forall, not_not] at hno
      obtain ⟨q, hq, x, hx, hact, d, hd, hal⟩ := hno
      simp only [step, Option.ite_none_right_eq_some, Option.map_eq_some_iff] at hstep
      obtain ⟨-, u, hu, rfl⟩ := hstep
      obtain ⟨y, hy, hname⟩ := h.jobs.sound.named _ _ hq
      obtain rfl := Option.some.inj (hx.symm.trans hy)
      obtain ⟨z, hz, hoff⟩ := Timers.removeJob_retires h.jobs.sound hx hname
      obtain ⟨w, hw, hcb, -⟩ := (Timers.Lasts.removeJob s.timers.sched _).keeps q x hx
      obtain rfl := Option.some.inj (hz.symm.trans hw)
      have hzu : u.sched.ctxs[q]? = some z := by
        rw [after_timer hu]
        exact (List.getElem?_append_left (List.getElem?_eq_some_iff.mp hz).1).trans hz
      have hcalled : q ∉ s.invoked := fun hp => by
        obtain ⟨v, hv, hvoff⟩ := h.called q hp
        rw [Option.some.inj (hx.symm.trans hv), hvoff] at hact
        cases hact
      intro hserves
      have := (hserves q z d hzu (hcb.trans hd) hal hcalled).1
      rw [hoff] at this
      cases this
  | _ => exact absurd trivial hno

/-- The destructor of the context has run. -/
def Dead (s : System) (c : ℕ) : Prop := s.manager.heap[c]?.map CdpBrowserContext.destroyed = some true

/-- The timer holds the guard of that context. -/
def Guards (s : System) (p c : ℕ) : Prop := (s.timers.sched.ctxs[p]?.bind TimerCtx.callback) = some c

theorem guards_iff {p c : ℕ} : Guards s p c ↔
    ∃ x : TimerCtx ℕ, s.timers.sched.ctxs[p]? = some x ∧ x.callback = some c :=
  Option.bind_eq_some_iff

theorem Guards.step {p c : ℕ} (hg : Guards s p c) (h : Inv s) (hstep : step s l = some t) : Guards t p c := by
  obtain ⟨ks, hks⟩ := step_timers h.shape hstep
  obtain ⟨x, hx, hc⟩ := guards_iff.mp hg
  obtain ⟨y, hy, hcb⟩ := Timers.run_keeps h.jobs hks hx
  exact guards_iff.mpr ⟨y, hy, hcb.trans hc⟩

theorem Dead.step {c : ℕ} (hd : Dead s c) (h : Inv s) (hstep : step s l = some t) : Dead t c := by
  have hlives : ∀ {m : State}, Lives s.manager m → m.heap[c]?.map CdpBrowserContext.destroyed = some true := by
    intro m hm
    obtain ⟨x, hx, hxd⟩ := Option.map_eq_some_iff.mp hd
    obtain ⟨y, hy, -, hyd⟩ := hm.ages c x hx
    exact Option.map_eq_some_iff.mpr ⟨y, hy, hyd hxd⟩
  cases step_parts h.shape hstep with
  | plain _ m hm hsh => exact hlives hm
  | timer _ m k u hm hsh hk hu => exact hlives hm
  | stop m hst hm => exact hlives (State.step_lives h.shape hm)
  | _ => exact hd

/-- Only a timer that holds the guard of a live context calls its callback. -/
theorem step_invoked (h : Inv s) (hstep : step s l = some t) :
    t.invoked = s.invoked ∨ ∃ q c, Guards s q c ∧ s.manager.Alive c ∧ t.invoked = q :: s.invoked := by
  cases step_parts h.shape hstep with
  | call q c x u hx hc hal hu => exact .inr ⟨q, c, guards_iff.mpr ⟨x, hx, hc⟩, hal, rfl⟩
  | _ => exact .inl rfl

/-- After the destruction of its context a callback is not invoked any more. -/
theorem dead_not_invoked {u : System} {ms : List Label} {p c : ℕ} (hu : Inv u) (hg : Guards u p c) (hd : Dead u c)
    (hr : Transition.run step u ms = some s) (hp : p ∈ s.invoked) : p ∈ u.invoked := by
  have hall : Inv s ∧ Guards s p c ∧ Dead s c ∧ (p ∈ s.invoked → p ∈ u.invoked) := by
    refine Transition.run_invariant (I := fun v => Inv v ∧ Guards v p c ∧ Dead v c ∧ (p ∈ v.invoked → p ∈ u.invoked))
      ?_ ⟨hu, hg, hd, id⟩ hr
    rintro v l w ⟨hv, hgv, hdv, hin⟩ hstep
    refine ⟨hv.step hstep, hgv.step hv hstep, hdv.step hv hstep, fun hw => ?_⟩
    rcases step_invoked hv hstep with heq | ⟨q, d, hgq, hal, heq⟩
    · exact hin (heq ▸ hw)
    · rw [heq] at hw
      refine hin ((List.mem_cons.mp hw).resolve_left ?_)
      rintro rfl
      obtain rfl : c = d := Option.some.inj (hgv.symm.trans hgq)
      have halive : some true = some false := hdv.symm.trans hal
      cases halive
  exact hall.2.2.2 hp

/-- A callback is called once, and not after its context has been destroyed. The timers of live
contexts serve in every state of a run exactly if no call of `after` draws the name of one of
them while it is armed. -/
theorem delayed_callbacks_iff {n : ℤ} {ls : List Label} (hr : Transition.run step (init n) ls = some s) :
    s.invoked.Nodup ∧
    (∀ ks ms u p c, ls = ks ++ ms → Transition.run step (init n) ks = some u → Guards u p c → Dead u c →
      p ∈ s.invoked → p ∈ u.invoked) ∧
    ((∀ ks u, ks <+: ls → Transition.run step (init n) ks = some u → Serves u) ↔
      Transition.Along step NoClash (init n) ls) := by
  refine ⟨(run_inv hr).nodup, fun ks ms u p c hls hu hg hd hp => ?_, ?_⟩
  · subst hls
    obtain ⟨v, hv, hrest⟩ := Transition.run_append.mp hr
    obtain rfl := Option.some.inj (hu.symm.trans hv)
    exact dead_not_invoked (run_inv hu) hg hd hrest hp
  · refine Transition.along_iff_prefixes (I := fun u => Inv u ∧ Armed u) ?_ (fun u h => serves_iff.mpr h.2) ?_ ?_ hr
    · exact fun u l v h hno hstep => ⟨h.1.step hstep, h.2.step h.1 hno hstep⟩
    · exact fun u l v h hno hstep => clash_spoils h.1 hno hstep
    · exact ⟨inv_init n, fun p x c hx => by simp [init, Timers.fresh] at hx⟩

/-- A context is given to the application, which is outside of any call then. -/
def opened : List Label := (connect ++ [Browser.Label.getContext (str "xhs")] ++ answerChain 1).map .manager

/-- One callback is called, and the context is closed before the timer of the other one fires. -/
def closedBetween : List Label :=
  opened ++ [.after 0, .fire 0, .manager .ret, .closeCb 0, .after 0, .manager (.close 0)] ++
    (arrive (okMessage 5 .null)).map .manager ++ [.manager .ret, .manager .next, .fire 1]

theorem delayed_callbacks_sample : ∃ s, Transition.run step (init 0) closedBetween = some s ∧
    s.invoked = [0] ∧ s.timers.sched.ctxs.map TimerCtx.active = [false, false] ∧ Serves s := by
  have h : (Transition.run step (init 0) closedBetween).any (fun s =>
      s.invoked = [0] ∧ s.timers.sched.ctxs.map TimerCtx.active = [false, false]) = true := by decide +kernel
  obtain ⟨s, hs, h⟩ := Option.any_eq_true _ _ |>.mp h
  simp only [decide_eq_true_eq] at h
  exact ⟨s, hs, h.1, h.2, (delayed_callbacks_iff hs).2.2.mpr (by decide +kernel) _ s (List.prefix_refl _) hs⟩

theorem nextCounter_toInt32 (n : ℤ) : UvScheduler.nextCounter (toInt32 n) = toInt32 (n + 1) := by
  unfold UvScheduler.nextCounter toInt32
  split <;> omega

theorem iterate_nextCounter (n : ℤ) (k : ℕ) : UvScheduler.nextCounter^[k] (toInt32 n) = toInt32 (n + k) := by
  induction k with
  | zero => simp
  | succ k ih =>
      rw [Function.iterate_succ_apply', ih, nextCounter_toInt32]
      congr 1
      omega

/-- Nothing runs, and the application holds the context. -/
structure Quiet (s : System) : Prop where
  inv : Inv s
  manager : s.manager.stack = []
  timers : s.timers.stack = []
  usable : s.manager.usable 0 = true

theorem alive_of_usable {m : State} {c : ℕ} (h : m.usable c = true) : m.Alive c := by
  obtain ⟨x, hx, -, hd⟩ := usable_iff.mp h
  simp [State.Alive, hx, hd]

theorem removeJob_counter (a : UvScheduler ℕ) (name : Str) : (a.removeJob name).counter = a.counter := by
  unfold UvScheduler.removeJob
  split <;> rfl

theorem oneshotTail_counter (a : UvScheduler ℕ) (p : ℕ) : (a.oneshotTail p).counter = a.counter := by
  unfold UvScheduler.oneshotTail
  split
  · dsimp only
    split <;> rfl
  · rfl

/-- A delayed callback is asked for. -/
theorem Quiet.after (h : Quiet s) : ∃ u x, step s (.after 0) = some { s with timers := u } ∧
    Quiet { s with timers := u } ∧ u.sched.ctxs[s.timers.sched.ctxs.length]? = some x ∧
    x.callback = some 0 ∧ x.active = true ∧ u.sched.ctxs.length = s.timers.sched.ctxs.length + 1 ∧
    u.sched.counter = UvScheduler.nextCounter s.timers.sched.counter := by
  obtain ⟨u, hu⟩ : ∃ u, Timers.step s.timers (.after (some 0)) = some u := ⟨_, rfl⟩
  have hstep : step s (.after 0) = some { s with timers := u } := by
    simp [step, State.userTurn, h.manager, h.usable, hu]
  have hlen : (s.timers.sched.removeJob
      (UvScheduler.afterName (UvScheduler.nextCounter s.timers.sched.counter))).ctxs.length =
      s.timers.sched.ctxs.length :=
    (Timers.Lasts.removeJob _ _).length
  have hctxs := after_timer hu
  have hinv := h.inv.after h.usable hu
  obtain ⟨x, hx, hc, ha⟩ : ∃ x : TimerCtx ℕ, u.sched.ctxs[s.timers.sched.ctxs.length]? = some x ∧
      x.callback = some 0 ∧ x.active = true := by
    rw [hctxs, ← hlen, List.getElem?_concat_length]
    exact ⟨_, rfl, rfl, rfl⟩
  refine ⟨u, x, hstep, ⟨hinv, h.manager, ?_, h.usable⟩, hx, hc, ha, ?_, ?_⟩
  · obtain rfl := Option.some.inj hu
    exact h.timers
  · rw [hctxs, List.length_append, hlen, List.length_singleton]
  · obtain rfl := Option.some.inj hu
    exact removeJob_counter _ _

/-- Its timer fires. -/
theorem Quiet.fire {p : ℕ} {x : TimerCtx ℕ} (h : Quiet s) (hx : s.timers.sched.ctxs[p]? = some x)
    (hc : x.callback = some 0) (ha : x.active = true) : ∃ v,
    step s (.fire p) =
      some { manager := { s.manager with stack := [.user] }, timers := v, invoked := p :: s.invoked } ∧
    v.stack = [.oneshotTimerCb p] ∧ v.sched.counter = s.timers.sched.counter ∧
    v.sched.ctxs.length = s.timers.sched.ctxs.length := by
  obtain ⟨v, hv⟩ : ∃ v, Timers.step s.timers (.fire p) = some v := by
    simp only [Timers.step, hx, if_pos ha]
    exact ⟨_, rfl⟩
  obtain ⟨-, hstack⟩ := fire_timer h.inv hx hc hv
  refine ⟨v, ?_, h.timers ▸ hstack, ?_, (Timers.step_lasts (l := .fire p) trivial h.inv.jobs hv).length⟩
  · simp only [step, h.manager, hx, hv, hc, Option.map_some, if_pos (alive_of_usable h.usable)]
  · simp only [Timers.step, hx, if_pos ha, Option.some.injEq] at hv
    simp only [← hv, Timers.fire, hc, (h.inv.given p x hx).1]
    rfl

/-- The callback returns to the loop. -/
theorem step_ret (v : Timers.State ℕ) (ps : List ℕ) {m : State} (hm : m.stack = []) :
    step { manager := { m with stack := [.user] }, timers := v, invoked := ps } (.manager .ret) =
      some { manager := m, timers := back v, invoked := ps } := by
  have hresume : ({ m with stack := [] } : State).resume = m := by
    cases m
    simp_all [State.resume]
  simp only [step, managerStep, State.step, Option.map_some, hresume, hm, if_true]

/-- A delayed callback is asked for and called. -/
theorem round (h : Quiet s) : ∃ t, Transition.run step s
      [.after 0, .fire s.timers.sched.ctxs.length, .manager .ret] = some t ∧
    Quiet t ∧ t.timers.sched.counter = UvScheduler.nextCounter s.timers.sched.counter ∧
    t.timers.sched.ctxs.length = s.timers.sched.ctxs.length + 1 ∧
    t.invoked = s.timers.sched.ctxs.length :: s.invoked := by
  obtain ⟨u, x, hafter, hq, hx, hc, ha, hlen, hcount⟩ := h.after
  obtain ⟨v, hfire, hstack, hcount', hlen'⟩ := hq.fire hx hc ha
  have hret := step_ret v (s.timers.sched.ctxs.length :: s.invoked) h.manager
  have hback : back v = { v with sched := v.sched.oneshotTail s.timers.sched.ctxs.length, stack := [] } := by
    simp [back, Timers.step, hstack]
  refine ⟨_, ?_, ⟨(hq.inv.step hfire).step hret, h.manager, ?_, h.usable⟩, ?_, ?_, rfl⟩
  · exact Transition.run_cons.mpr ⟨_, hafter, Transition.run_cons.mpr ⟨_, hfire,
      Transition.run_cons.mpr ⟨_, hret, rfl⟩⟩⟩
  · rw [hback]
  · rw [hback, oneshotTail_counter, hcount', hcount]
  · rw [hback]
    exact (Timers.Lasts.tail _ _).length.trans (hlen'.trans hlen)

/-- `k` more delayed callbacks, each called before the next one is asked for. -/
def rounds (p : ℕ) : ℕ → List Label
  | 0 => []
  | k + 1 => [.after 0, .fire p, .manager .ret] ++ rounds (p + 1) k

theorem run_rounds (h : Quiet s) (k : ℕ) : ∃ t,
    Transition.run step s (rounds s.timers.sched.ctxs.length k) = some t ∧ Quiet t ∧
    t.timers.sched.counter = UvScheduler.nextCounter^[k] s.timers.sched.counter ∧
    ∀ q ∈ t.invoked, q ∈ s.invoked ∨ s.timers.sched.ctxs.length ≤ q := by
  induction k generalizing s with
  | zero => exact ⟨s, rfl, h, rfl, fun q hq => .inl hq⟩
  | succ k ih =>
      obtain ⟨u, hu, hquiet, hcounter, hlen, hinvoked⟩ := round h
      obtain ⟨t, ht, hquiet', hcounter', hinvoked'⟩ := ih hquiet
      rw [hlen] at ht hinvoked'
      refine ⟨t, Transition.run_append.mpr ⟨u, hu, ht⟩, hquiet', ?_, fun q hq => ?_⟩
      · rw [hcounter', hcounter, Function.iterate_succ_apply]
      · rcases hinvoked' q hq with hq | hq
        · rw [hinvoked] at hq
          rcases List.mem_cons.mp hq with rfl | hq
          · exact .inr le_rfl
          · exact .inl hq
        · exact .inr (by omega)

/-- The timers run as timers do, in any number of steps. -/
theorem run_timers {ls : List Label} (h : Inv s) (hr : Transition.run step s ls = some t) :
    ∃ ks, Transition.run Timers.step s.timers ks = some t.timers := by
  have hall : Inv t ∧ ∃ ks, Transition.run Timers.step s.timers ks = some t.timers := by
    refine Transition.run_invariant
      (I := fun v => Inv v ∧ ∃ ks, Transition.run Timers.step s.timers ks = some v.timers) ?_ ⟨h, [], rfl⟩ hr
    rintro v l w ⟨hv, ks, hks⟩ hstep
    obtain ⟨js, hjs⟩ := step_timers hv.shape hstep
    exact ⟨hv.step hstep, ks ++ js, Transition.run_append.mpr ⟨_, hks, hjs⟩⟩
  exact hall.2

/-- The next call of `after` draws the name of a timer that is armed for a live context. -/
theorem clash_of_name {p c : ℕ} {x : TimerCtx ℕ} (h : Inv s) (hx : s.timers.sched.ctxs[p]? = some x)
    (hc : x.callback = some c) (hal : s.manager.Alive c) (hact : x.active = true)
    (hname : x.name = UvScheduler.afterName (UvScheduler.nextCounter s.timers.sched.counter)) (d : ℕ) :
    ¬ NoClash s (.after d) := by
  intro hno
  have hreg : s.timers.sched.timers.lookup x.name = some p := h.jobs.sound.armed p x hx hact
  rw [hname] at hreg
  exact hno p hreg x hx hact c hc hal

/-- A long delay outlives the counter: the timer that draws its name again ends it. -/
theorem wrapped_counter_disarms : ¬ ∀ (n : ℤ) (ls : List Label) (s : System),
    Transition.run step (init n) ls = some s → Serves s := by
  intro hall
  have h : (Transition.run step (init 0) (opened ++ [.after 0])).any (fun s =>
      s.manager.stack.isEmpty ∧ s.timers.stack.isEmpty ∧ s.manager.usable 0 ∧ s.timers.sched.counter = toInt32 1 ∧
      s.invoked = [] ∧ s.timers.sched.ctxs.map (fun x => (x.name, x.callback)) =
        [(UvScheduler.afterName 1, some 0)]) = true := by decide +kernel
  obtain ⟨u, hu, h⟩ := Option.any_eq_true _ _ |>.mp h
  simp only [decide_eq_true_eq, List.isEmpty_iff] at h
  obtain ⟨hm, ht, husable, hcounter, hinvoked, hctxs⟩ := h
  obtain ⟨x, hxs, hname, hcb⟩ : ∃ x : TimerCtx ℕ, u.timers.sched.ctxs = [x] ∧ x.name = UvScheduler.afterName 1 ∧
      x.callback = some 0 := by
    obtain ⟨x, xs, hxs, hx, hnil⟩ := List.map_eq_cons_iff.mp hctxs
    exact ⟨x, by rw [hxs, List.map_eq_nil_iff.mp hnil], congrArg Prod.fst hx, congrArg Prod.snd hx⟩
  have hlen : u.timers.sched.ctxs.length = 1 := by rw [hxs, List.length_singleton]
  have hx : u.timers.sched.ctxs[0]? = some x := by rw [hxs, List.getElem?_cons_zero]
  obtain ⟨v, hv, hquiet, hcounter', hcalled⟩ := run_rounds ⟨run_inv hu, hm, ht, husable⟩ (2 ^ 32 - 1)
  have hzero : 0 ∉ v.invoked := fun h0 => by
    rcases hcalled 0 h0 with h0 | h0
    · rw [hinvoked] at h0
      cases h0
    · omega
  obtain ⟨ks, hks⟩ := run_timers (run_inv hu) hv
  obtain ⟨y, hy, hyname, -⟩ := (Timers.run_jobs (run_inv hu).jobs hks).2 0 x hx
  obtain ⟨z, hz, hzcb⟩ := Timers.run_keeps (run_inv hu).jobs hks hx
  obtain rfl := Option.some.inj (hy.symm.trans hz)
  have hrun := Transition.run_append.mpr ⟨u, hu, hv⟩
  have hal := alive_of_usable hquiet.usable
  have hact : y.active = true := (hall 0 _ v hrun 0 y 0 hy (hzcb.trans hcb) hal hzero).1
  have hdraw : UvScheduler.nextCounter v.timers.sched.counter = 1 := by
    rw [hcounter', hcounter, iterate_nextCounter]
    decide
  have hclash : ¬ NoClash v (.after 0) :=
    clash_of_name hquiet.inv hy (hzcb.trans hcb) hal hact (by rw [hyname, hname, hdraw]) 0
  obtain ⟨w, hw⟩ : ∃ w, step v (.after 0) = some w := by
    simp only [step, State.userTurn, hquiet.manager, hquiet.usable, and_self, if_true]
    exact ⟨_, rfl⟩
  exact clash_spoils hquiet.inv hclash hw
    (hall 0 _ w (Transition.run_append.mpr ⟨v, hrun, Transition.run_cons.mpr ⟨w, hw, Transition.run_nil w⟩⟩))

end LynneSocial.Delayed
