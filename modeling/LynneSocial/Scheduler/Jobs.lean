import LynneSocial.Scheduler.Timers

/-!
# Jobs

A timer can fire only as long as it is the one `timers_` holds for its name.
Replacing or removing a job therefore ends its timer for good, wherever the call
comes from: from outside, from the callback of the job itself or from another
timer that is due at the same time.
-/
namespace LynneSocial.Timers

variable {α : Type}

/-- The scheduler fires nothing but the jobs of `timers_`. -/
structure Sound (s : UvScheduler α) : Prop where
  named : Named s
  armed : ∀ (p : ℕ) (c : TimerCtx α), s.ctxs[p]? = some c → c.active = true → Registered s p c
  oneshot : ∀ (p : ℕ) (c : TimerCtx α), s.ctxs[p]? = some c → c.oneshot = true → c.interval = 0

/-- The timer is not armed, and its owner pointer is not stale. -/
def Idle (s : UvScheduler α) (p : ℕ) : Prop :=
  ∃ c : TimerCtx α, s.ctxs[p]? = some c ∧ c.active = false ∧ (c.owner = true → Registered s p c)

/-- Timers keep their names and are not armed again. -/
def Fades (s t : UvScheduler α) : Prop :=
  ∀ (p : ℕ) (c : TimerCtx α), s.ctxs[p]? = some c → ∃ d : TimerCtx α, t.ctxs[p]? = some d ∧
    d.name = c.name ∧ (d.active = true → c.active = true)

theorem Fades.refl (s : UvScheduler α) : Fades s s := fun _ c hc => ⟨c, hc, rfl, id⟩

theorem Fades.trans {s t u : UvScheduler α} (h : Fades s t) (k : Fades t u) : Fades s u := by
  intro p c hc
  obtain ⟨d, hd, hn, ha⟩ := h p c hc
  obtain ⟨e, he, hn', ha'⟩ := k p d hd
  exact ⟨e, he, hn'.trans hn, ha ∘ ha'⟩

/-- What the scheduler and libuv do to a timer, arming it apart. -/
def Dims (f : TimerCtx α → TimerCtx α) : Prop :=
  ∀ c, (f c).name = c.name ∧ ((f c).active = true → c.active = true) ∧
    ((f c).owner = true → c.owner = true) ∧ (f c).oneshot = c.oneshot ∧ (f c).interval = c.interval

theorem dims_retire : Dims (α := α) TimerCtx.retire := fun _ => ⟨rfl, nofun, nofun, rfl, rfl⟩
theorem dims_touch : Dims (α := α) TimerCtx.touch := fun _ => ⟨rfl, id, id, rfl, rfl⟩
theorem dims_uvTimerStop : Dims (α := α) TimerCtx.uvTimerStop := fun _ => ⟨rfl, nofun, id, rfl, rfl⟩
theorem dims_uvClose : Dims (α := α) TimerCtx.uvClose := fun _ => ⟨rfl, nofun, id, rfl, rfl⟩
theorem dims_timerCloseCb : Dims (α := α) TimerCtx.timerCloseCb := fun _ => ⟨rfl, id, id, rfl, rfl⟩

section Operations
variable {s : UvScheduler α} {p q : ℕ} {n : Str} {f : TimerCtx α → TimerCtx α}

theorem getElem?_modify_cases {cs : List (TimerCtx α)} {c : TimerCtx α} (h : (cs.modify p f)[q]? = some c) :
    (q = p ∧ ∃ d, cs[p]? = some d ∧ c = f d) ∨ (q ≠ p ∧ cs[q]? = some c) := by
  by_cases hq : p = q
  · subst hq
    rw [List.getElem?_modify_eq, Option.map_eq_map, Option.map_eq_some_iff] at h
    obtain ⟨d, hd, rfl⟩ := h
    exact .inl ⟨rfl, d, hd, rfl⟩
  · rw [List.getElem?_modify_ne _ _ hq] at h
    exact .inr ⟨Ne.symm hq, h⟩

theorem fades_modify (hf : Dims f) : Fades s { s with ctxs := s.ctxs.modify p f } := by
  intro q c hc
  by_cases hq : p = q
  · subst hq
    exact ⟨f c, by simp [hc], (hf c).1, (hf c).2.1⟩
  · exact ⟨c, (List.getElem?_modify_ne _ _ hq).trans hc, rfl, id⟩

theorem Sound.modify (h : Sound s) (hf : Dims f) : Sound (s.modifyCtx p f) := by
  refine ⟨fun n q hq => ?_, fun q c hc ha => ?_, fun q c hc ho => ?_⟩
  · obtain ⟨c, hc, rfl⟩ := h.named n q hq
    obtain ⟨d, hd, hn, -⟩ := fades_modify (s := s) (p := p) hf q c hc
    exact ⟨d, hd, hn⟩
  · rcases getElem?_modify_cases hc with ⟨rfl, d, hd, rfl⟩ | ⟨-, hc⟩
    · rw [Registered, (hf d).1]
      exact h.armed q d hd ((hf d).2.1 ha)
    · exact h.armed q c hc ha
  · rcases getElem?_modify_cases hc with ⟨rfl, d, hd, rfl⟩ | ⟨-, hc⟩
    · rw [(hf d).2.2.2.1] at ho
      rw [(hf d).2.2.2.2]
      exact h.oneshot q d hd ho
    · exact h.oneshot q c hc ho

theorem Idle.modify (h : Idle s q) (hf : Dims f) : Idle (s.modifyCtx p f) q := by
  obtain ⟨c, hc, ha, ho⟩ := h
  by_cases hq : p = q
  · subst hq
    obtain ⟨hn, hact, how, -⟩ := hf c
    refine ⟨f c, by simp [UvScheduler.modifyCtx, hc], ?_, fun h => ?_⟩
    · by_contra hne
      rw [hact (by simpa using hne)] at ha
      cases ha
    · rw [Registered, hn]
      exact ho (how h)
  · exact ⟨c, (List.getElem?_modify_ne _ _ hq).trans hc, ha, ho⟩

/-- A registered timer is disarmed and leaves `timers_`. -/
theorem Sound.forget (h : Sound s) (hp : s.timers.lookup n = some p) (hf : Dims f)
    (hoff : ∀ c, (f c).active = false) :
    Sound { s with timers := s.timers.erase n, ctxs := s.ctxs.modify p f } := by
  have hm := h.modify (p := p) hf
  refine ⟨fun m q hq => ?_, fun q c hc ha => ?_, hm.oneshot⟩
  · rw [StdMap.lookup_erase_eq_ite] at hq
    split at hq
    · cases hq
    · exact hm.named m q hq
  · have hr : s.timers.lookup c.name = some q := hm.armed q c hc ha
    have hqp : q ≠ p := by
      rintro rfl
      rcases getElem?_modify_cases hc with ⟨-, d, -, rfl⟩ | ⟨hne, -⟩
      · rw [hoff] at ha
        cases ha
      · exact hne rfl
    have hne : c.name ≠ n := fun e => hqp (Option.some.inj (hr.symm.trans (e ▸ hp)))
    simpa [Registered, StdMap.lookup_erase_eq_ite, hne] using hr

theorem Idle.forget (h : Idle s q) (hp : s.timers.lookup n = some p) (hf : Dims f)
    (hown : q = p → ∀ c, (f c).owner = false) :
    Idle { s with timers := s.timers.erase n, ctxs := s.ctxs.modify p f } q := by
  obtain ⟨c, hc, ha, ho⟩ := h.modify (p := p) hf
  refine ⟨c, hc, ha, fun how => ?_⟩
  have hr : s.timers.lookup c.name = some q := ho how
  have hqp : q ≠ p := by
    rintro rfl
    rcases getElem?_modify_cases hc with ⟨-, d, -, rfl⟩ | ⟨hne, -⟩
    · rw [hown rfl] at how
      cases how
    · exact hne rfl
  have hne : c.name ≠ n := fun e => hqp (Option.some.inj (hr.symm.trans (e ▸ hp)))
  simpa [Registered, StdMap.lookup_erase_eq_ite, hne] using hr

theorem Sound.removeJob (h : Sound s) (n : Str) : Sound (s.removeJob n) := by
  cases hp : s.timers.lookup n with
  | none => rwa [removeJob_none hp]
  | some p =>
      rw [removeJob_some hp]
      exact h.forget hp dims_retire fun _ => rfl

theorem Idle.removeJob (h : Idle s q) (n : Str) : Idle (s.removeJob n) q := by
  cases hp : s.timers.lookup n with
  | none => rwa [removeJob_none hp]
  | some p =>
      rw [removeJob_some hp]
      exact h.forget hp dims_retire fun _ _ => rfl

theorem fades_removeJob (s : UvScheduler α) (n : Str) : Fades s (s.removeJob n) := by
  cases hp : s.timers.lookup n with
  | none => rw [removeJob_none hp]; exact .refl s
  | some p =>
      rw [removeJob_some hp]
      exact fades_modify dims_retire

theorem getElem?_append_cases {cs : List (TimerCtx α)} {ctx c : TimerCtx α}
    (h : (cs ++ [ctx])[q]? = some c) : cs[q]? = some c ∨ q = cs.length ∧ c = ctx := by
  rcases Nat.lt_trichotomy q cs.length with hq | hq | hq
  · rw [List.getElem?_append_left hq] at h
    exact .inl h
  · subst hq
    rw [List.getElem?_concat_length] at h
    exact .inr ⟨rfl, (Option.some.inj h).symm⟩
  · rw [List.getElem?_eq_none (by simp only [List.length_append, List.length_singleton]; omega)] at h
    cases h

theorem fades_install (s : UvScheduler α) (ctx : TimerCtx α) : Fades s (s.install ctx) := by
  refine (fades_removeJob s ctx.name).trans fun p c hc => ⟨c, ?_, rfl, id⟩
  exact (List.getElem?_append_left (List.getElem?_eq_some_iff.mp hc).1).trans hc

theorem Sound.install {ctx : TimerCtx α} (h : Sound s) (ho : ctx.oneshot = true → ctx.interval = 0) :
    Sound (s.install ctx) := by
  have hr := h.removeJob ctx.name
  refine ⟨fun n q hq => ?_, fun q c hc ha => ?_, fun q c hc hone => ?_⟩
  · rw [UvScheduler.install, StdMap.lookup_insert_eq_ite] at hq
    split at hq
    · obtain rfl := Option.some.inj hq
      exact ⟨ctx, by simp [UvScheduler.install], Eq.symm ‹_›⟩
    · obtain ⟨c, hc, hn⟩ := hr.named n q hq
      exact ⟨c, (List.getElem?_append_left (List.getElem?_eq_some_iff.mp hc).1).trans hc, hn⟩
  · rw [Registered, UvScheduler.install, StdMap.lookup_insert_eq_ite]
    rcases getElem?_append_cases hc with hc | ⟨rfl, rfl⟩
    · have hreg := hr.armed q c hc ha
      have hne : c.name ≠ ctx.name := by
        intro e
        rw [Registered, e, removeJob_lookup] at hreg
        cases hreg
      rwa [if_neg hne]
    · rw [if_pos rfl]
  · rcases getElem?_append_cases hc with hc | ⟨-, rfl⟩
    · exact hr.oneshot q c hc hone
    · exact ho hone

theorem Idle.install {ctx : TimerCtx α} (h : Idle s q) : Idle (s.install ctx) q := by
  obtain ⟨c, hc, ha, ho⟩ := h.removeJob ctx.name
  refine ⟨c, (List.getElem?_append_left (List.getElem?_eq_some_iff.mp hc).1).trans hc, ha, fun how => ?_⟩
  have hreg := ho how
  have hne : c.name ≠ ctx.name := by
    intro e
    rw [Registered, e, removeJob_lookup] at hreg
    cases hreg
  rw [Registered, UvScheduler.install, StdMap.lookup_insert_eq_ite, if_neg hne]
  exact hreg

theorem getElem?_stop (h : Sound s) (hst : s.started = true) (q : ℕ) :
    s.stop.ctxs[q]? = if q ∈ registeredCtxs s then s.ctxs[q]?.map TimerCtx.retire else s.ctxs[q]? := by
  rw [← getElem?_retireAll h.named q]
  simp [UvScheduler.stop, hst, UvScheduler.retireAll]

/-- `stop` disarms every timer. -/
theorem stop_inactive (h : Sound s) (hst : s.started = true) {c : TimerCtx α}
    (hc : s.stop.ctxs[q]? = some c) : c.active = false := by
  rw [getElem?_stop h hst] at hc
  split at hc
  · obtain ⟨d, -, rfl⟩ := Option.map_eq_some_iff.mp hc
    rfl
  · by_contra ha
    exact ‹q ∉ _› (mem_registeredCtxs.mpr ⟨_, h.armed q c hc (by simpa using ha)⟩)

theorem fades_stop (h : Sound s) : Fades s s.stop := by
  by_cases hst : s.started = true
  · intro q c hc
    rw [getElem?_stop h hst, hc]
    split
    · exact ⟨c.retire, rfl, rfl, nofun⟩
    · exact ⟨c, rfl, rfl, id⟩
  · rw [UvScheduler.stop, if_neg hst]
    exact .refl s

theorem Sound.stop (h : Sound s) : Sound s.stop := by
  by_cases hst : s.started = true
  · have hnone : ∀ n, s.stop.timers.lookup n = none := fun n => by
      simp [UvScheduler.stop, hst, UvScheduler.retireAll]
    refine ⟨fun n q hq => ?_, fun q c hc ha => ?_, fun q c hc ho => ?_⟩
    · rw [hnone] at hq
      cases hq
    · rw [stop_inactive h hst hc] at ha
      cases ha
    · rw [getElem?_stop h hst] at hc
      split at hc
      · obtain ⟨d, hd, rfl⟩ := Option.map_eq_some_iff.mp hc
        exact h.oneshot q d hd ho
      · exact h.oneshot q c hc ho
  · rwa [UvScheduler.stop, if_neg hst]

theorem Idle.stop (h : Idle s q) (hs : Sound s) : Idle s.stop q := by
  by_cases hst : s.started = true
  · obtain ⟨c, hc, ha, ho⟩ := h
    rw [Idle, getElem?_stop hs hst, hc]
    split
    · exact ⟨c.retire, rfl, rfl, nofun⟩
    · exact ⟨c, rfl, ha, fun how => absurd (mem_registeredCtxs.mpr ⟨_, ho how⟩) ‹_›⟩
  · rwa [UvScheduler.stop, if_neg hst]

/-- The end of a one-shot callback takes its timer out of `timers_` if it is still there. -/
theorem oneshotTail_eq {c : TimerCtx α} (hc : s.ctxs[p]? = some c) : s.oneshotTail p =
    if c.owner then { s with timers := s.timers.erase c.name,
                             ctxs := s.ctxs.modify p fun c => c.uvTimerStop.uvClose }
    else s.modifyCtx p fun c => c.uvTimerStop.uvClose := by
  have hmod : (s.ctxs.modify p TimerCtx.uvTimerStop).modify p TimerCtx.uvClose =
      s.ctxs.modify p fun c => c.uvTimerStop.uvClose := List.modify_modify_eq _ _ _ _
  simp only [UvScheduler.oneshotTail, hc]
  split <;> simp [UvScheduler.modifyCtx, hmod]

theorem dims_tail : Dims (α := α) fun c => c.uvTimerStop.uvClose := fun _ => ⟨rfl, nofun, id, rfl, rfl⟩

theorem Idle.tail (h : Idle s p) (hs : Sound s) :
    Sound (s.oneshotTail p) ∧ Fades s (s.oneshotTail p) ∧
      ∀ q, q ≠ p → Idle s q → Idle (s.oneshotTail p) q := by
  obtain ⟨c, hc, -, ho⟩ := h
  rw [oneshotTail_eq hc]
  split
  · have hp : s.timers.lookup c.name = some p := ho ‹_›
    exact ⟨hs.forget hp dims_tail fun _ => rfl, fades_modify dims_tail,
      fun q hq hi => hi.forget hp dims_tail fun e => absurd e hq⟩
  · exact ⟨hs.modify dims_tail, fades_modify dims_tail, fun q _ hi => hi.modify dims_tail⟩

theorem dims_disarm : Dims (α := α) fun c => { c with active := false } :=
  fun _ => ⟨rfl, nofun, id, rfl, rfl⟩

/-- Firing leaves a repeating timer as it is and disarms any other. -/
theorem rearm_cases {c : TimerCtx α} (hc : s.ctxs[p]? = some c) (ha : c.active = true) :
    (c.interval ≠ 0 ∧ s.modifyCtx p TimerCtx.rearm = s) ∨
      (c.interval = 0 ∧ s.modifyCtx p TimerCtx.rearm = s.modifyCtx p fun c => { c with active := false }) := by
  have hat : ∀ f : TimerCtx α → TimerCtx α, c.rearm = f c →
      s.ctxs.modify p TimerCtx.rearm = s.ctxs.modify p f := by
    intro f hf
    refine List.ext_getElem? fun q => ?_
    by_cases hq : p = q
    · subst hq
      simp [hc, hf]
    · rw [List.getElem?_modify_ne _ _ hq, List.getElem?_modify_ne _ _ hq]
  by_cases h0 : c.interval = 0
  · right
    refine ⟨h0, ?_⟩
    rw [UvScheduler.modifyCtx, hat (fun c => { c with active := false }) (by simp [TimerCtx.rearm, h0])]
    rfl
  · left
    have hid : c.rearm = id c := by
      cases c
      simp_all [TimerCtx.rearm]
    refine ⟨h0, ?_⟩
    rw [UvScheduler.modifyCtx, hat id hid]
    simp

theorem rearm_spec {c : TimerCtx α} (h : Sound s) (hc : s.ctxs[p]? = some c) (ha : c.active = true) :
    Sound (s.modifyCtx p TimerCtx.rearm) ∧ Fades s (s.modifyCtx p TimerCtx.rearm) ∧
      (∀ q, Idle s q → Idle (s.modifyCtx p TimerCtx.rearm) q) ∧
      (c.interval = 0 → Idle (s.modifyCtx p TimerCtx.rearm) p) := by
  rcases rearm_cases hc ha with ⟨h0, heq⟩ | ⟨-, heq⟩
  · rw [heq]
    exact ⟨h, .refl s, fun _ => id, fun h => absurd h h0⟩
  · rw [heq]
    refine ⟨h.modify dims_disarm, fades_modify dims_disarm, fun q hq => hq.modify dims_disarm, fun _ => ?_⟩
    exact ⟨{ c with active := false }, by simp [UvScheduler.modifyCtx, hc], rfl, fun _ => h.armed p c hc ha⟩

end Operations

/-- A one-shot timer whose callback runs is not armed, and it runs once. -/
structure Jobs (s : State α) : Prop where
  sound : Sound s.sched
  running : ∀ p, .oneshotTimerCb p ∈ s.stack → Idle s.sched p
  distinct : (s.stack.filter fun f => f matches .oneshotTimerCb _).Nodup

theorem Jobs.of_sched {s : State α} {u : UvScheduler α} (h : Jobs s) (hu : Sound u)
    (hi : ∀ p, Idle s.sched p → Idle u p) : Jobs { s with sched := u } :=
  ⟨hu, fun p hp => hi p (h.running p hp), h.distinct⟩

theorem Sound.counter {s : UvScheduler α} (h : Sound s) (n : ℤ) : Sound { s with counter := n } :=
  ⟨h.named, h.armed, h.oneshot⟩

theorem start_sched (s : UvScheduler α) : s.start.ctxs = s.ctxs ∧ s.start.timers = s.timers := by
  unfold UvScheduler.start
  split <;> exact ⟨rfl, rfl⟩

theorem Sound.start {s : UvScheduler α} (h : Sound s) : Sound s.start := by
  obtain ⟨hc, ht⟩ := start_sched s
  refine ⟨?_, ?_, ?_⟩
  · rw [Named, hc, ht]
    exact h.named
  · rw [hc]
    unfold Registered
    rw [ht]
    exact h.armed
  · rw [hc]
    exact h.oneshot

theorem Idle.start {s : UvScheduler α} {p : ℕ} (h : Idle s p) : Idle s.start p := by
  obtain ⟨hc, ht⟩ := start_sched s
  unfold Idle Registered
  rw [hc, ht]
  exact h

theorem Jobs.fire {s : State α} {p : ℕ} {c : TimerCtx α} (h : Jobs s) (hc : s.sched.ctxs[p]? = some c)
    (ha : c.active = true) : Jobs (fire s p c) ∧ Fades s.sched (fire s p c).sched := by
  obtain ⟨hsound, hfades, hidle, hp⟩ := rearm_spec h.sound hc ha
  have hnot : .oneshotTimerCb p ∉ s.stack := fun hmem => by
    obtain ⟨d, hd, hd', -⟩ := h.running p hmem
    rw [hc] at hd
    rw [Option.some.inj hd, hd'] at ha
    cases ha
  have hs := h.of_sched hsound hidle
  unfold Timers.fire
  cases c.callback with
  | some a =>
      cases hone : c.oneshot with
      | true =>
          refine ⟨⟨hsound, fun q hq => ?_, ?_⟩, hfades⟩
          · rcases List.mem_cons.mp hq with heq | hq
            · cases heq
              exact hp (h.sound.oneshot p c hc hone)
            · exact hidle q (h.running q hq)
          · refine List.nodup_cons.mpr ⟨fun hmem => hnot ?_, h.distinct⟩
            exact List.mem_of_mem_filter hmem
      | false =>
          refine ⟨⟨hsound, fun q hq => ?_, h.distinct⟩, hfades⟩
          rcases List.mem_cons.mp hq with heq | hq
          · cases heq
          · exact hidle q (h.running q hq)
  | none =>
      cases hone : c.oneshot with
      | true =>
          obtain ⟨ht, hf, hq⟩ := (hp (h.sound.oneshot p c hc hone)).tail hsound
          exact ⟨⟨ht, fun q hmem => hq q (fun e => hnot (e ▸ hmem)) (hidle q (h.running q hmem)),
            h.distinct⟩, hfades.trans hf⟩
      | false => exact ⟨hs, hfades⟩

theorem Jobs.ret {s t : State α} (h : Jobs s) (hstep : step s .ret = some t) :
    Jobs t ∧ Fades s.sched t.sched := by
  have hdist := h.distinct
  cases step_does hstep with
  | timerCb p rest hst =>
      rw [hst] at hdist
      refine ⟨⟨h.sound.modify dims_touch, fun q hq => Idle.modify ?_ dims_touch, hdist⟩,
        fades_modify dims_touch⟩
      exact h.running q (hst ▸ List.mem_cons_of_mem _ hq)
  | oneshotTimerCb p rest hst =>
      rw [hst] at hdist
      obtain ⟨hp, hnodup⟩ := List.nodup_cons.mp hdist
      obtain ⟨ht, hf, hq⟩ := (h.running p (hst ▸ List.mem_cons_self)).tail h.sound
      refine ⟨⟨ht, fun q hmem => hq q ?_ (h.running q (hst ▸ List.mem_cons_of_mem _ hmem)), hnodup⟩, hf⟩
      rintro rfl
      exact hp (mem_oneshots.mpr hmem)

theorem Jobs.step {s t : State α} {l : Label α} (h : Jobs s) (hstep : step s l = some t) :
    Jobs t ∧ Fades s.sched t.sched := by
  cases step_does hstep with
  | start =>
      refine ⟨h.of_sched h.sound.start fun p hp => hp.start, fun p c hc => ⟨c, ?_, rfl, id⟩⟩
      exact (start_sched s.sched).1 ▸ hc
  | stop => exact ⟨h.of_sched h.sound.stop fun p hp => hp.stop h.sound, fades_stop h.sound⟩
  | addJob name interval callback =>
      exact ⟨h.of_sched (h.sound.install nofun) fun p hp => hp.install, fades_install _ _⟩
  | removeJob name =>
      exact ⟨h.of_sched (h.sound.removeJob name) fun p hp => hp.removeJob name, fades_removeJob _ _⟩
  | after callback =>
      refine ⟨h.of_sched ((h.sound.counter _).install fun _ => rfl) fun p hp => Idle.install ?_, ?_⟩
      · exact hp
      · exact fades_install { s.sched with counter := UvScheduler.nextCounter s.sched.counter } _
  | otherAfter => exact ⟨h.of_sched (h.sound.counter _) fun p hp => hp, .refl _⟩
  | fire p c hp ha => exact h.fire hp ha
  | timerCb p rest hst => exact h.ret hstep
  | oneshotTimerCb p rest hst => exact h.ret hstep
  | closeCb p c hp hcl hpos =>
      exact ⟨h.of_sched (h.sound.modify dims_timerCloseCb) fun q hq => hq.modify dims_timerCloseCb,
        fades_modify dims_timerCloseCb⟩

theorem jobs_fresh (n : ℤ) : Jobs (fresh n : State α) where
  sound := ⟨fun _ _ h => by simp [fresh] at h, fun _ _ h => by simp [fresh] at h,
    fun _ _ h => by simp [fresh] at h⟩
  running _ h := by simp [fresh] at h
  distinct := by simp [fresh]

theorem run_jobs {s t : State α} {ls : List (Label α)} (h : Jobs s)
    (hr : Transition.run Timers.step s ls = some t) : Jobs t ∧ Fades s.sched t.sched :=
  Transition.run_invariant (I := fun u => Jobs u ∧ Fades s.sched u.sched)
    (fun _ _ _ hu ht => ⟨(hu.1.step ht).1, hu.2.trans (hu.1.step ht).2⟩) ⟨h, .refl _⟩ hr

/-- A timer that is not armed does not fire any more. -/
theorem idle_never_fires {s t : State α} {p : ℕ} {c : TimerCtx α} {ls : List (Label α)} (h : Jobs s)
    (hc : s.sched.ctxs[p]? = some c) (ha : c.active = false)
    (hr : Transition.run Timers.step s ls = some t) : .fire p ∉ ls := by
  intro hmem
  obtain ⟨ks, ms, rfl⟩ := List.append_of_mem hmem
  obtain ⟨u, hu, hrest⟩ := Transition.run_append.mp hr
  obtain ⟨v, hv, -⟩ := Transition.run_cons.mp hrest
  obtain ⟨d, hd, -, hact⟩ := (run_jobs h hu).2 p c hc
  simp only [Timers.step, hd, Option.ite_none_right_eq_some] at hv
  rw [hact hv.1] at ha
  cases ha

/-- The call registers a new job under the name, or removes the job of that name. -/
def Label.replaces (name : Str) : Label α → Prop
  | .addJob n _ _ | .removeJob n => n = name
  | _ => False

theorem removeJob_retires {s : UvScheduler α} (h : Sound s) {name : Str} {p : ℕ} {c : TimerCtx α}
    (hc : s.ctxs[p]? = some c) (hn : c.name = name) :
    ∃ d, (s.removeJob name).ctxs[p]? = some d ∧ d.active = false := by
  cases hp : s.timers.lookup name with
  | none =>
      rw [removeJob_none hp]
      refine ⟨c, hc, ?_⟩
      by_contra ha
      have hr := h.armed p c hc (by simpa using ha)
      rw [Registered, hn, hp] at hr
      cases hr
  | some q =>
      rw [removeJob_some hp]
      by_cases hq : q = p
      · subst hq
        exact ⟨c.retire, by simp [hc], rfl⟩
      · refine ⟨c, (List.getElem?_modify_ne _ _ hq).trans hc, ?_⟩
        by_contra ha
        have hr := h.armed p c hc (by simpa using ha)
        rw [Registered, hn, hp] at hr
        exact hq (Option.some.inj hr)

/-- The timer of another name is not touched. -/
theorem removeJob_other {s : UvScheduler α} (h : Sound s) {name : Str} {p : ℕ} {c : TimerCtx α}
    (hc : s.ctxs[p]? = some c) (hn : c.name ≠ name) :
    (s.removeJob name).ctxs[p]? = some c ∧ (s.removeJob name).timers.lookup c.name = s.timers.lookup c.name := by
  cases hp : s.timers.lookup name with
  | none => exact ⟨by rwa [removeJob_none hp], by rw [removeJob_none hp]⟩
  | some q =>
      rw [removeJob_some hp]
      have hq : q ≠ p := by
        rintro rfl
        obtain ⟨d, hd, rfl⟩ := h.named name q hp
        rw [hc] at hd
        exact hn (congrArg TimerCtx.name (Option.some.inj hd))
      exact ⟨(List.getElem?_modify_ne _ _ hq).trans hc, by simp [hn]⟩

theorem replaces_sched {s t : State α} {l : Label α} {name : Str} (hl : l.replaces name)
    (hstep : step s l = some t) :
    t.sched = s.sched.removeJob name ∨ ∃ ctx : TimerCtx α, ctx.name = name ∧ t.sched = s.sched.install ctx := by
  cases l with
  | addJob n interval callback =>
      obtain rfl : n = name := hl
      exact .inr ⟨_, rfl, by rw [← Option.some.inj hstep]; rfl⟩
  | removeJob n =>
      obtain rfl : n = name := hl
      exact .inl (by rw [← Option.some.inj hstep]; rfl)
  | _ => exact hl.elim

/-- Armed timers are the registered ones, one for a name. Once `add_job` or `remove_job` has
returned, the timers of that name that were there before never fire again, and no other timer has
changed. -/
theorem replaced_jobs_never_fire {n : ℤ} {ls : List (Label α)} {s : State α}
    (hr : Transition.run step (fresh n) ls = some s) :
    (∀ (p : ℕ) (c : TimerCtx α), s.sched.ctxs[p]? = some c → c.active = true →
        s.sched.timers.lookup c.name = some p) ∧
      ∀ (name : Str) (l : Label α) (t : State α), l.replaces name → step s l = some t →
        (∀ (p : ℕ) (c : TimerCtx α), s.sched.ctxs[p]? = some c → c.name = name →
          ∀ ks u, Transition.run step t ks = some u → .fire p ∉ ks) ∧
        ∀ (p : ℕ) (c : TimerCtx α), s.sched.ctxs[p]? = some c → c.name ≠ name →
          t.sched.ctxs[p]? = some c ∧ t.sched.timers.lookup c.name = s.sched.timers.lookup c.name := by
  have hs := (run_jobs (jobs_fresh n) hr).1
  refine ⟨hs.sound.armed, fun name l t hl ht => ⟨fun p c hc hname ks u hu => ?_, fun p c hc hname => ?_⟩⟩
  · obtain ⟨d, hd, ha⟩ : ∃ d, t.sched.ctxs[p]? = some d ∧ d.active = false := by
      obtain ⟨d, hd, ha⟩ := removeJob_retires hs.sound hc hname
      rcases replaces_sched hl ht with heq | ⟨ctx, hctx, heq⟩
      · exact ⟨d, by rwa [heq], ha⟩
      · rw [heq, UvScheduler.install, hctx]
        exact ⟨d, (List.getElem?_append_left (List.getElem?_eq_some_iff.mp hd).1).trans hd, ha⟩
    exact idle_never_fires (hs.step ht).1 hd ha hu
  · obtain ⟨hd, hlookup⟩ := removeJob_other hs.sound hc hname
    rcases replaces_sched hl ht with heq | ⟨ctx, hctx, heq⟩
    · rw [heq]
      exact ⟨hd, hlookup⟩
    · rw [heq, UvScheduler.install, hctx]
      refine ⟨(List.getElem?_append_left (List.getElem?_eq_some_iff.mp hd).1).trans hd, ?_⟩
      rw [StdMap.lookup_insert_eq_ite, if_neg hname, hlookup]

/-- A job replaces itself from its own callback. -/
def selfReplacing : List (Label ℕ) := [.start, .addJob (str "poll") 5 (some 1), .fire 0]

theorem replaced_jobs_never_fire_sample : ∃ s t : State ℕ,
    Transition.run step (fresh 0) selfReplacing = some s ∧
    step s (.addJob (str "poll") 7 (some 2)) = some t ∧ s.stack = [.timerCb 0] ∧
    ∀ ks u, Transition.run step t ks = some u → .fire 0 ∉ ks := by
  have hr : Transition.run step (fresh 0) selfReplacing = some
      (fire (((fresh 0).withSched .start).withSched (·.addJob (str "poll") 5 (some 1))) 0
        { name := str "poll", callback := some 1, oneshot := false, interval := 5 }) := rfl
  exact ⟨_, _, hr, rfl, rfl, ((replaced_jobs_never_fire hr).2 (str "poll")
    (.addJob (str "poll") 7 (some 2)) _ rfl rfl).1 0 _ rfl rfl⟩

end LynneSocial.Timers
