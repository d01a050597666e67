import LynneSocial.Scheduler.Jobs

/-!
# Jobs that stay armed

A timer stays as it is until the loop fires it or its name is given to another
job. `add_job` passes one number both as the first timeout and as the repeat
value, and the loop arms a fired timer again only if that number is not zero.
-/
namespace LynneSocial

/-- The timer without its history. -/
def TimerCtx.job {α : Type} (c : TimerCtx α) : TimerCtx α :=
  { name := c.name, callback := c.callback, oneshot := c.oneshot, interval := c.interval, active := c.active }

theorem TimerCtx.job_inj {α : Type} {c d : TimerCtx α} : c.job = d.job ↔
    c.name = d.name ∧ c.callback = d.callback ∧ c.oneshot = d.oneshot ∧ c.interval = d.interval ∧
      c.active = d.active := by
  simp [job]

namespace Timers

variable {α : Type} {s t : State α} {p : ℕ} {c : TimerCtx α}

/-- The step removes the job of that name, or gives the name to another one. -/
def Drops (name : Str) (s : State α) : Label α → Prop
  | .addJob n _ _ | .removeJob n => n = name
  | .after _ => UvScheduler.afterName (UvScheduler.nextCounter s.sched.counter) = name
  | .stop => s.sched.started = true
  | _ => False

instance (name : Str) (s : State α) : ∀ l : Label α, Decidable (Drops name s l)
  | .addJob _ _ _ | .removeJob _ | .after _ => inferInstanceAs (Decidable (_ = _))
  | .stop => inferInstanceAs (Decidable (_ = _))
  | .start | .otherAfter | .fire _ | .ret | .closeCb _ => .isFalse id

/-- The timer is the job of its name and looks like `c`. -/
structure Kept (s : State α) (p : ℕ) (c : TimerCtx α) : Prop where
  registered : Registered s.sched p c
  ctx : ∃ d : TimerCtx α, s.sched.ctxs[p]? = some d ∧ d.job = c.job
  resting : .oneshotTimerCb p ∉ s.stack

section Steps
variable {u : UvScheduler α} {q : ℕ} {f : TimerCtx α → TimerCtx α}

theorem Kept.of_ctxs (h : Kept s p c) (ht : u.timers.lookup c.name = s.sched.timers.lookup c.name)
    (hu : u.ctxs[p]? = s.sched.ctxs[p]?) : Kept (s.withSched fun _ => u) p c :=
  ⟨ht.trans h.registered, hu.symm ▸ h.ctx, h.resting⟩

theorem Kept.modify (h : Kept s p c) (hf : q = p → ∀ d, (f d).job = d.job) :
    Kept (s.withSched (·.modifyCtx q f)) p c := by
  refine ⟨h.registered, ?_, h.resting⟩
  obtain ⟨d, hd, hjob⟩ := h.ctx
  by_cases hq : q = p
  · subst hq
    exact ⟨f d, by simp [State.withSched, UvScheduler.modifyCtx, hd], (hf rfl d).trans hjob⟩
  · exact ⟨d, (List.getElem?_modify_ne _ _ hq).trans hd, hjob⟩

theorem Kept.removeJob (h : Kept s p c) (hs : Sound s.sched) {name : Str} (hn : name ≠ c.name) :
    Kept (s.withSched (·.removeJob name)) p c := by
  obtain ⟨d, hd, hjob⟩ := h.ctx
  have hname : d.name = c.name := (TimerCtx.job_inj.mp hjob).1
  obtain ⟨hctx, hlookup⟩ := removeJob_other hs hd (hname ▸ hn.symm)
  rw [hname] at hlookup
  exact h.of_ctxs hlookup (hctx.trans hd.symm)

theorem Kept.install (h : Kept s p c) (hs : Sound s.sched) {ctx : TimerCtx α} (hn : ctx.name ≠ c.name) :
    Kept (s.withSched (·.install ctx)) p c := by
  obtain ⟨hreg, ⟨d, hd, hjob⟩, hrest⟩ := h.removeJob hs hn
  refine ⟨?_, ⟨d, ?_, hjob⟩, hrest⟩
  · change (AList.insert ctx.name _ _ : StdMap Str ℕ).lookup c.name = some p
    rw [StdMap.lookup_insert_eq_ite, if_neg hn.symm]
    exact hreg
  · exact (List.getElem?_append_left (List.getElem?_eq_some_iff.mp hd).1).trans hd

/-- The end of the callback of another timer. -/
theorem Kept.tail (h : Kept s p c) (hq : Idle s.sched q) (hne : q ≠ p) :
    Kept (s.withSched (·.oneshotTail q)) p c := by
  obtain ⟨d, hd, -, ho⟩ := hq
  have hctx : ∀ f : TimerCtx α → TimerCtx α, (s.sched.ctxs.modify q f)[p]? = s.sched.ctxs[p]? :=
    fun f => List.getElem?_modify_ne _ _ hne
  refine h.of_ctxs (u := s.sched.oneshotTail q) ?_ ?_ <;> rw [oneshotTail_eq hd] <;> split
  · have hname : d.name ≠ c.name := fun heq => hne <| by
      have hreg := ho ‹_›
      rw [Registered, heq] at hreg
      exact Option.some.inj (hreg.symm.trans h.registered)
    rw [StdMap.lookup_erase_eq_ite, if_neg hname.symm]
  · rfl
  · exact hctx _
  · exact hctx _

theorem Kept.stack (h : Kept s p c) {stack : List Frame} (hp : .oneshotTimerCb p ∉ stack) :
    Kept { s with stack } p c := ⟨h.registered, h.ctx, hp⟩

/-- Another timer fires. -/
theorem Kept.fire_other (h : Kept s p c) (hs : Sound s.sched) {d : TimerCtx α}
    (hd : s.sched.ctxs[q]? = some d) (ha : d.active = true) (hne : q ≠ p) : Kept (fire s q d) p c := by
  have hrearm := h.modify (q := q) (f := TimerCtx.rearm) fun e => absurd e hne
  have honeshot : .oneshotTimerCb p ∉ Frame.oneshotTimerCb q :: s.stack := by simp [h.resting, hne.symm]
  have htimer : .oneshotTimerCb p ∉ Frame.timerCb q :: s.stack := by simp [h.resting]
  unfold Timers.fire
  cases d.callback with
  | some a =>
      cases d.oneshot with
      | true => exact hrearm.stack honeshot
      | false => exact hrearm.stack htimer
  | none =>
      cases hone : d.oneshot with
      | true => exact hrearm.tail ((rearm_spec hs hd ha).2.2.2 (hs.oneshot q d hd hone)) hne
      | false => exact hrearm

/-- A repeating timer fires. -/
theorem Kept.fire_self (h : Kept s p c) (hone : c.oneshot = false) {d : TimerCtx α}
    (hd : s.sched.ctxs[p]? = some d) : Kept (fire s p d) p c.rearm := by
  obtain ⟨e, he, hjob⟩ := h.ctx
  obtain rfl := Option.some.inj (hd.symm.trans he)
  have hdone : d.oneshot = false := (TimerCtx.job_inj.mp hjob).2.2.1.trans hone
  have hrearm : Kept (s.withSched (·.modifyCtx p TimerCtx.rearm)) p c.rearm := by
    refine ⟨h.registered, ⟨d.rearm, by simp [State.withSched, UvScheduler.modifyCtx, hd], ?_⟩, h.resting⟩
    exact congrArg TimerCtx.rearm hjob
  have htimer : .oneshotTimerCb p ∉ Frame.timerCb p :: s.stack := by simp [h.resting]
  unfold Timers.fire
  rw [hdone]
  cases d.callback with
  | some a => exact hrearm.stack htimer
  | none => exact hrearm

theorem Kept.ret (h : Kept s p c) (hj : Jobs s) (hstep : step s .ret = some t) : Kept t p c := by
  have hrest : ∀ {f : Frame} {rest : List Frame}, s.stack = f :: rest → .oneshotTimerCb p ∉ rest :=
    fun hst hp => h.resting (hst ▸ List.mem_cons_of_mem _ hp)
  cases step_does hstep with
  | timerCb q rest hst =>
      exact (h.modify (f := TimerCtx.touch) fun _ _ => rfl).stack (hrest hst)
  | oneshotTimerCb q rest hst =>
      have hmem : .oneshotTimerCb q ∈ s.stack := hst ▸ List.mem_cons_self
      exact (h.tail (hj.running q hmem) fun e => h.resting (e ▸ hmem)).stack (hrest hst)

/-- A step that leaves the name alone changes the timer only by firing it. -/
theorem Kept.step {l : Label α} (h : Kept s p c) (hj : Jobs s) (hstep : step s l = some t)
    (hd : ¬ Drops c.name s l) :
    (l ≠ .fire p → Kept t p c) ∧ (l = .fire p → c.oneshot = false → Kept t p c.rearm) := by
  cases step_does hstep with
  | fire q d hq ha =>
      refine ⟨fun hne => h.fire_other hj.sound hq ha fun e => hne (e ▸ rfl), ?_⟩
      rintro heq hone
      obtain rfl : q = p := Label.fire.inj heq
      exact h.fire_self hone hq
  | start =>
      obtain ⟨hc, ht⟩ := start_sched s.sched
      exact ⟨fun _ => h.of_ctxs (by rw [ht]) (by rw [hc]), by simp⟩
  | stop =>
      have hst : ¬ s.sched.started = true := hd
      refine ⟨fun _ => h.of_ctxs ?_ ?_, by simp⟩ <;> rw [UvScheduler.stop, if_neg hst]
  | addJob name interval callback => exact ⟨fun _ => h.install hj.sound hd, by simp⟩
  | removeJob name => exact ⟨fun _ => h.removeJob hj.sound hd, by simp⟩
  | after callback =>
      have hcount : Kept (s.withSched fun u => { u with counter := UvScheduler.nextCounter u.counter }) p c :=
        ⟨h.registered, h.ctx, h.resting⟩
      exact ⟨fun _ => hcount.install (hj.sound.counter _) hd, by simp⟩
  | otherAfter => exact ⟨fun _ => ⟨h.registered, h.ctx, h.resting⟩, by simp⟩
  | timerCb q rest hst => exact ⟨fun _ => h.ret hj hstep, by simp⟩
  | oneshotTimerCb q rest hst => exact ⟨fun _ => h.ret hj hstep, by simp⟩
  | closeCb q d hq hcl hpos =>
      exact ⟨fun _ => h.modify (f := TimerCtx.timerCloseCb) fun _ _ => rfl, by simp⟩

end Steps

/-- Firing twice leaves what firing once does. -/
theorem Kept.run {ms : List (Label α)} (h : Kept s p c) (hj : Jobs s) (hone : c.oneshot = false)
    (hkeep : Transition.Along Timers.step (fun s l => ¬ Drops c.name s l) s ms)
    (hr : Transition.run Timers.step s ms = some t) :
    (.fire p ∉ ms → Kept t p c) ∧ (.fire p ∈ ms → Kept t p c.rearm) := by
  induction ms generalizing s c with
  | nil =>
      obtain rfl := Option.some.inj hr
      exact ⟨fun _ => h, nofun⟩
  | cons l ms ih =>
      obtain ⟨u, hu, hrest⟩ := Transition.run_cons.mp hr
      obtain ⟨hd, hms⟩ := (Transition.along_cons hu).mp hkeep
      obtain ⟨hother, hself⟩ := h.step hj hu hd
      have hju := (hj.step hu).1
      rw [List.mem_cons]
      by_cases hl : l = .fire p
      · subst hl
        have hk := ih (hself rfl hone) hju hone hms hrest
        refine ⟨fun hm => absurd (.inl rfl) hm, fun _ => ?_⟩
        by_cases hm : .fire p ∈ ms
        · exact hk.2 hm
        · exact hk.1 hm
      · have hk := ih (hother hl) hju hone hms hrest
        exact ⟨fun hm => hk.1 fun h => hm (.inr h), fun hm => hk.2 (hm.resolve_left (Ne.symm hl))⟩

/-- What `add_job` puts into `timers_`. -/
theorem addJob_kept (hj : Jobs s) (name : Str) (interval : ℕ) (callback : Option α) :
    Kept (s.withSched (·.addJob name interval callback)) s.sched.ctxs.length
      { name, callback, oneshot := false, interval } := by
  have hlen : (s.sched.removeJob name).ctxs.length = s.sched.ctxs.length := by
    cases hp : s.sched.timers.lookup name with
    | none => rw [removeJob_none hp]
    | some q => simp [removeJob_some hp]
  refine ⟨?_, ⟨_, ?_, rfl⟩, fun hp => ?_⟩
  · simp [Registered, State.withSched, UvScheduler.addJob, UvScheduler.install, hlen]
  · simp [State.withSched, UvScheduler.addJob, UvScheduler.install, ← hlen]
  · obtain ⟨d, hd, -⟩ := hj.running _ hp
    simp at hd

/-- A job that is not removed or replaced stays in `timers_`, and its timer stays armed exactly if
the interval is not zero or the loop has not come to it yet. -/
theorem job_armed_iff {n : ℤ} {ls ms : List (Label α)} {name : Str} {interval : ℕ} {callback : Option α}
    {u : State α} (hr : Transition.run step (fresh n) ls = some s)
    (hadd : step s (.addJob name interval callback) = some t)
    (hkeep : Transition.Along step (fun s l => ¬ Drops name s l) t ms)
    (hu : Transition.run step t ms = some u) :
    ∃ (p : ℕ) (c : TimerCtx α), p = s.sched.ctxs.length ∧ u.sched.timers.lookup name = some p ∧
      u.sched.ctxs[p]? = some c ∧ (c.active = true ↔ interval ≠ 0 ∨ .fire p ∉ ms) := by
  have hj := (run_jobs (jobs_fresh n) hr).1
  have hjt := (hj.step hadd).1
  obtain rfl := Option.some.inj hadd
  obtain ⟨hrest, hfired⟩ := (addJob_kept hj name interval callback).run hjt rfl hkeep hu
  by_cases hm : .fire s.sched.ctxs.length ∈ ms
  · obtain ⟨hreg, ⟨d, hd, hjob⟩, -⟩ := hfired hm
    have hactive : d.active = (interval != 0) := (TimerCtx.job_inj.mp hjob).2.2.2.2
    exact ⟨_, d, rfl, hreg, hd, by simp [hactive, hm]⟩
  · obtain ⟨hreg, ⟨d, hd, hjob⟩, -⟩ := hrest hm
    have hactive : d.active = true := (TimerCtx.job_inj.mp hjob).2.2.2.2
    exact ⟨_, d, rfl, hreg, hd, by simp [hactive, hm]⟩

/-- The job fires twice, and its second callback has not returned yet. -/
def polling : List (Label ℕ) := [.fire 0, .ret, .after (some 2), .fire 0]

theorem job_armed_sample : ∃ (t u : State ℕ) (p : ℕ) (c : TimerCtx ℕ),
    step (fresh 0) (.addJob (str "poll") 5 (some 1)) = some t ∧ Transition.run step t polling = some u ∧
      u.sched.timers.lookup (str "poll") = some p ∧ u.sched.ctxs[p]? = some c ∧ c.active = true := by
  obtain ⟨p, c, -, hreg, hc, ha⟩ :=
    @job_armed_iff ℕ _ _ 0 [] polling (str "poll") 5 (some 1) _ rfl rfl (by decide) rfl
  exact ⟨_, _, p, c, rfl, rfl, hreg, hc, ha.mpr (.inl (by decide))⟩

/-- An interval of zero: the job fires once and stays in `timers_`. -/
theorem zero_interval_disarms : ¬ ∀ (n : ℤ) (ls ms : List (Label ℕ)) (name : Str) (interval : ℕ)
    (callback : Option ℕ) (s t u : State ℕ), Transition.run step (fresh n) ls = some s →
    s.sched.started = true → interval < 2 ^ 64 → step s (.addJob name interval callback) = some t →
    Transition.Along step (fun s l => ¬ Drops name s l) t ms → Transition.run step t ms = some u →
    u.stack = [] → ∃ (p : ℕ) (c : TimerCtx ℕ), u.sched.timers.lookup name = some p ∧
      u.sched.ctxs[p]? = some c ∧ c.active = true := by
  intro h
  obtain ⟨p, c, hp, hc, ha⟩ := h 0 [.start] [.fire 0, .ret] (str "poll") 0 (some 1) _ _ _ rfl rfl (by decide) rfl
    (by decide) rfl rfl
  obtain rfl : 0 = p := Option.some.inj hp
  obtain rfl := Option.some.inj hc
  cases ha

/-- No timer is created, and every one keeps its callback. -/
structure Lasts (s t : UvScheduler α) : Prop where
  length : t.ctxs.length = s.ctxs.length
  keeps : ∀ (p : ℕ) (c : TimerCtx α), s.ctxs[p]? = some c → ∃ d : TimerCtx α, t.ctxs[p]? = some d ∧
    d.callback = c.callback ∧ d.oneshot = c.oneshot

namespace Lasts
variable {a b c : UvScheduler α} {f : TimerCtx α → TimerCtx α}

theorem refl (a : UvScheduler α) : Lasts a a := ⟨rfl, fun _ c hc => ⟨c, hc, rfl, rfl⟩⟩

theorem trans (h : Lasts a b) (k : Lasts b c) : Lasts a c := by
  refine ⟨k.length.trans h.length, fun p x hx => ?_⟩
  obtain ⟨y, hy, hcb, ho⟩ := h.keeps p x hx
  obtain ⟨z, hz, hcb', ho'⟩ := k.keeps p y hy
  exact ⟨z, hz, hcb'.trans hcb, ho'.trans ho⟩

theorem of_ctxs (h : b.ctxs = a.ctxs) : Lasts a b := ⟨by rw [h], fun _ c hc => ⟨c, h ▸ hc, rfl, rfl⟩⟩

theorem modify (p : ℕ) (hb : b.ctxs = a.ctxs.modify p f)
    (hf : ∀ x, (f x).callback = x.callback ∧ (f x).oneshot = x.oneshot) : Lasts a b := by
  refine ⟨by rw [hb, List.length_modify], fun q x hx => ?_⟩
  rw [hb]
  by_cases hq : p = q
  · subst hq
    exact ⟨f x, by simp [hx], hf x⟩
  · exact ⟨x, (List.getElem?_modify_ne _ _ hq).trans hx, rfl, rfl⟩

theorem removeJob (a : UvScheduler α) (name : Str) : Lasts a (a.removeJob name) := by
  cases hp : a.timers.lookup name with
  | none => exact of_ctxs (by rw [removeJob_none hp])
  | some p => exact modify (f := TimerCtx.retire) p (by rw [removeJob_some hp]) fun _ => ⟨rfl, rfl⟩

theorem tail (a : UvScheduler α) (p : ℕ) : Lasts a (a.oneshotTail p) := by
  cases hp : a.ctxs[p]? with
  | none => exact of_ctxs (by simp only [UvScheduler.oneshotTail, hp])
  | some x =>
      rw [oneshotTail_eq hp]
      split <;> exact modify p rfl fun _ => ⟨rfl, rfl⟩

theorem stop (h : Sound a) : Lasts a a.stop := by
  by_cases hst : a.started = true
  · have hat := getElem?_stop h hst
    refine ⟨?_, fun q x hx => ?_⟩
    · refine le_antisymm ?_ ?_
      · by_contra hlt
        have := hat a.ctxs.length
        simp only [not_le] at hlt
        rw [List.getElem?_eq_getElem hlt, List.getElem?_eq_none le_rfl] at this
        simp at this
      · by_contra hlt
        simp only [not_le] at hlt
        have := hat a.stop.ctxs.length
        rw [List.getElem?_eq_none le_rfl, List.getElem?_eq_getElem hlt] at this
        split at this <;> cases this
    · rw [hat, hx]
      split
      · exact ⟨x.retire, rfl, rfl, rfl⟩
      · exact ⟨x, rfl, rfl, rfl⟩
  · rw [UvScheduler.stop, if_neg hst]
    exact refl a

end Lasts

theorem fire_lasts (s : State α) (p : ℕ) (c : TimerCtx α) : Lasts s.sched (fire s p c).sched := by
  have hrearm : Lasts s.sched (s.sched.modifyCtx p TimerCtx.rearm) := .modify p rfl fun _ => ⟨rfl, rfl⟩
  unfold fire
  cases c.callback with
  | some a => cases c.oneshot <;> exact hrearm
  | none =>
      cases c.oneshot with
      | true => exact hrearm.trans (.tail _ p)
      | false => exact hrearm

/-- The step creates no timer. -/
def Label.plain : Label α → Prop
  | .addJob _ _ _ | .after _ => False
  | _ => True

theorem step_lasts {l : Label α} (hl : l.plain) (h : Jobs s) (hstep : step s l = some t) :
    Lasts s.sched t.sched := by
  cases step_does hstep with
  | addJob name interval callback => exact hl.elim
  | after callback => exact hl.elim
  | start => exact .of_ctxs (start_sched s.sched).1
  | stop => exact .stop h.sound
  | removeJob name => exact .removeJob _ _
  | otherAfter => exact .of_ctxs rfl
  | fire p c hp ha => exact fire_lasts s p c
  | timerCb p rest hst => exact .modify p rfl fun _ => ⟨rfl, rfl⟩
  | oneshotTimerCb p rest hst => exact .tail _ p
  | closeCb p c hp hcl hpos => exact .modify p rfl fun _ => ⟨rfl, rfl⟩

theorem install_keeps (a : UvScheduler α) (ctx : TimerCtx α) {p : ℕ} {c : TimerCtx α} (hc : a.ctxs[p]? = some c) :
    ∃ d : TimerCtx α, (a.install ctx).ctxs[p]? = some d ∧ d.callback = c.callback := by
  obtain ⟨d, hd, hcb, -⟩ := (Lasts.removeJob a ctx.name).keeps p c hc
  exact ⟨d, (List.getElem?_append_left (List.getElem?_eq_some_iff.mp hd).1).trans hd, hcb⟩

/-- A timer keeps its callback. -/
theorem step_keeps {l : Label α} (h : Jobs s) (hstep : step s l = some t) (hc : s.sched.ctxs[p]? = some c) :
    ∃ d : TimerCtx α, t.sched.ctxs[p]? = some d ∧ d.callback = c.callback := by
  by_cases hl : l.plain
  · obtain ⟨d, hd, hcb, -⟩ := (step_lasts hl h hstep).keeps p c hc
    exact ⟨d, hd, hcb⟩
  · cases l with
    | addJob name interval callback => exact Option.some.inj hstep ▸ install_keeps _ _ hc
    | after callback => exact Option.some.inj hstep ▸ install_keeps { s.sched with counter := _ } _ hc
    | _ => exact absurd trivial hl

theorem run_keeps {ls : List (Label α)} (h : Jobs s) (hr : Transition.run step s ls = some t)
    (hc : s.sched.ctxs[p]? = some c) : ∃ d : TimerCtx α, t.sched.ctxs[p]? = some d ∧ d.callback = c.callback := by
  refine (Transition.run_invariant
    (I := fun u => Jobs u ∧ ∃ d : TimerCtx α, u.sched.ctxs[p]? = some d ∧ d.callback = c.callback) ?_
    ⟨h, c, hc, rfl⟩ hr).2
  rintro u l v ⟨hu, d, hd, hcb⟩ hv
  obtain ⟨e, he, hcb'⟩ := step_keeps hu hv hd
  exact ⟨(hu.step hv).1, e, he, hcb'.trans hcb⟩

end Timers

end LynneSocial
