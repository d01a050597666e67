import LynneSocial.Browser.WaitForSelector

/-!
# The timeout of a wait

`on_timeout` is called from a check that finds the time elapsed at least as large
as the timeout, both as signed 64-bit numbers. From 2^63 milliseconds on the cast
makes the timeout negative, and the first check is the last.
-/
namespace LynneSocial.Browser

variable {s t u : State} {n v : ℕ} {x : Waiter} {l : Label}

/-- Nobody is told of an error in the meantime. -/
def NoTimeout (n : ℕ) (h h' : List Event) : Prop :=
  ∃ es, (∀ e ∈ es, ∀ text, e ≠ .answered (.operation n) (.error text)) ∧ h' = es ++ h

theorem NoTimeout.trans {h h' h'' : List Event} (a : NoTimeout n h h') (b : NoTimeout n h' h'') :
    NoTimeout n h h'' := by
  obtain ⟨es, hes, rfl⟩ := a
  obtain ⟨fs, hfs, rfl⟩ := b
  refine ⟨fs ++ es, fun e he => ?_, (List.append_assoc _ _ _).symm⟩
  exact (List.mem_append.mp he).elim (hfs e) (hes e)

theorem Elsewhere.noTimeout (h : Elsewhere n s t) : NoTimeout n s.history t.history := by
  obtain ⟨es, hes, hh⟩ := h.history
  refine ⟨es, fun e he text heq => hes e he ?_, hh⟩
  rw [heq]
  rfl

theorem NoTimeout.finish {h : List Event} {r : State × Ctl} (a : NoTimeout n h r.1.history) :
    NoTimeout n h (State.finish r).history :=
  a.trans (Elsewhere.finish (.refl r.1)).noTimeout

/-- `on_timeout` is called from the check of the wait. -/
structure TimesOut (n : ℕ) (s t : State) (x : Waiter) : Prop where
  opened : s.closedOf x.ctx = false
  elapsed : s.timedOut x
  told : ∃ past, t.history = .answered (.operation n) (.error x.timeoutText) :: past ∧
    NoTimeout n s.history past

/-- A check of the wait says nothing of a timeout, or finds the time elapsed. -/
theorem check_timeout (hx : u.WaitOf n v x) (hd : x.done = false) :
    (NoTimeout n u.history (State.finish (u.check v)).history ∧ (u.closedOf x.ctx = false → ¬ u.timedOut x)) ∨
      TimesOut n u (State.finish (u.check v)) x := by
  have hread : NoTimeout n u.history (u.readContext x.ctx).history :=
    (Elsewhere.keeps (readContext_keeps u x.ctx)).noTimeout
  have hc := checked hx.1 hd
  generalize u.check v = r at hc
  cases hc with
  | closed hcl =>
      refine .inl ⟨NoTimeout.finish (r := ((u.readContext x.ctx).finishWaiter v, .done)) hread, fun hopen => ?_⟩
      rw [hcl] at hopen
      cases hopen
  | timeout hcl hto =>
      refine .inr ⟨hcl, hto, _, ?_, hread⟩
      rw [← hx.2]
      rfl
  | poll hcl hto =>
      refine .inl ⟨NoTimeout.finish (hread.trans ⟨[_], ?_, State.sendCommand_history _ _ _ _ _⟩), fun _ => hto⟩
      simp

/-- A result the callback cannot read. -/
theorem invoke_poll_none {reply : Reply} (hp : reply.polled = none) : (u.invoke (.poll v) reply).1 = u := by
  cases reply with
  | error text => cases hp
  | ok result =>
      unfold State.invoke
      dsimp only
      split
      · rename_i y res hy hres
        have hnone : State.polled res = none := by simpa [Reply.polled, hres] using hp
        split
        · rfl
        · simp [hnone]
      · rfl

/-- The same of a response to one of its polls. -/
theorem response_timeout (reply : Reply) (hx : u.WaitOf n v x) :
    (NoTimeout n u.history (State.finish (u.invoke (.poll v) reply)).history ∧
        (reply.polled = some false → x.done = false → u.closedOf x.ctx = false → ¬ u.timedOut x)) ∨
      reply.polled = some false ∧ x.done = false ∧ TimesOut n u (State.finish (u.invoke (.poll v) reply)) x := by
  have hsame : NoTimeout n u.history u.history := ⟨[], by simp, rfl⟩
  cases hp : reply.polled with
  | none =>
      refine .inl ⟨.finish ?_, nofun⟩
      rwa [invoke_poll_none hp]
  | some b =>
      cases hd : x.done with
      | true =>
          refine .inl ⟨.finish ?_, fun _ h => Bool.noConfusion h⟩
          rwa [invoke_poll_done hx.1 hd (by rw [hp]; nofun)]
      | false =>
          cases b with
          | true =>
              obtain ⟨hinvoke, -⟩ := invoke_poll_true hx.1 hd hp
              refine .inl ⟨.finish ?_, fun h => Bool.noConfusion (Option.some.inj h)⟩
              rw [hinvoke]
              exact ⟨[_], by simp, rfl⟩
          | false =>
              rw [invoke_poll_false hx.1 hd hp]
              rcases check_timeout hx hd with ⟨hno, h⟩ | h
              · exact .inl ⟨hno, fun _ _ => h⟩
              · exact .inr ⟨rfl, rfl, h⟩

/-- What the wait was called with. -/
structure Timed (n timeoutMs : ℕ) (s : State) : Prop where
  orderly : Orderly s
  known : n < s.calls
  own : Own n s
  timeout : ∀ v x, s.WaitOf n v x → x.timeoutMs = timeoutMs

/-- The step makes no check of the wait call `on_timeout`, or calls it because the time is up. -/
theorem Timed.step_timeout {timeoutMs : ℕ} (h : Timed n timeoutMs s) (ht : s.step l = some t) :
    (NoTimeout n s.history t.history ∧ ∀ v ∈ s.checking l, ∀ x, s.WaitOf n v x → x.done = false →
        s.closedOf x.ctx = false → ¬ s.timedOut x) ∨
      ∃ v x, v ∈ s.checking l ∧ s.WaitOf n v x ∧ x.done = false ∧ TimesOut n s t x := by
  have hsh := h.orderly.shape
  by_cases hresponse : ∃ v x id reply u, s.WaitOf n v x ∧ l = .next ∧ s.Answers id (.poll v) reply u ∧
      t = State.finish (u.invoke (.poll v) reply)
  · obtain ⟨v, x, id, reply, u, hx, rfl, ha, hu⟩ := hresponse
    have hchecking := checking_answers ha
    have hlog : NoTimeout n s.history u.history := by
      obtain ⟨conn, msg, batch, -, -, -, -, rfl⟩ := ha
      exact ⟨[.invoked id (.poll v) reply, .handling msg], by simp, rfl⟩
    have hsame : u.WaitOf n v x ∧ u.closedOf x.ctx = s.closedOf x.ctx ∧ (u.timedOut x ↔ s.timedOut x) := by
      obtain ⟨conn, msg, b, -, -, -, -, rfl⟩ := ha
      exact ⟨hx, rfl, .rfl⟩
    subst hu
    rcases response_timeout reply hsame.1 with ⟨hno, hup⟩ | ⟨hp, hd, hto⟩
    · refine .inl ⟨hlog.trans hno, fun w hw y hy hd hcl => ?_⟩
      obtain ⟨rfl, rfl⟩ := h.own.waitOf hx hy
      rw [hchecking] at hw
      split at hw
      · rw [← hsame.2.2]
        exact hup ‹_› hd (hsame.2.1.trans hcl)
      · cases hw
    · obtain ⟨past, hh, hpast⟩ := hto.told
      refine .inr ⟨v, x, by rw [hchecking, if_pos hp]; rfl, hx, hd, ?_, hsame.2.2.mp hto.elapsed, past, hh,
        hlog.trans hpast⟩
      exact hsame.2.1.symm.trans hto.opened
  by_cases hcheck : ∃ v x batch, s.WaitOf n v x ∧ l = .next ∧ s.stack = [.draining (.check v :: batch)]
  · obtain ⟨v, x, batch, hx, rfl, hst⟩ := hcheck
    have hchecking := checking_check hst
    have hu : t = (({ s with stack := [.draining batch] } : State).check v).1 := by
      simp only [State.step, hst, Option.some.injEq] at ht
      exact ht.symm
    cases hd : x.done with
    | true =>
        rw [check_done (u := { s with stack := [.draining batch] }) hx.1 hd] at hu
        subst hu
        refine .inl ⟨⟨[], by simp, rfl⟩, fun w hw y hy hyd => ?_⟩
        rw [(h.own.waitOf hx hy).2, hd] at hyd
        cases hyd
    | false =>
        rw [← finish_check (u := { s with stack := [.draining batch] }) hx.1 hd rfl] at hu
        subst hu
        rcases check_timeout (u := { s with stack := [.draining batch] }) hx hd with ⟨hno, hup⟩ | hto
        · refine .inl ⟨hno, fun w hw y hy _ hcl => ?_⟩
          obtain ⟨-, rfl⟩ := h.own.waitOf hx hy
          exact hup hcl
        · exact .inr ⟨v, x, hchecking, hx, hd, hto.opened, hto.elapsed, hto.told⟩
  refine .inl ⟨?_, fun v hv x hx _ _ => ?_⟩
  · rcases State.step_wait h.own (fun _ => h.known.ne') hsh ht with he | ⟨v, x, batch, hx, hl, hst, -⟩ | ha
    · exact he.noTimeout
    · exact absurd ⟨v, x, batch, hx, hl, hst⟩ hcheck
    · exact absurd ha hresponse
  · obtain ⟨hl, ⟨batch, hst⟩ | ⟨id, reply, u, ha, hu⟩⟩ := checking_cases hsh hv ht
    · exact absurd ⟨v, x, batch, hx, hl, hst⟩ hcheck
    · exact absurd ⟨v, x, id, reply, u, hx, hl, ha, hu⟩ hresponse

/-- The closures of the call are what they were, but for the done flag. -/
def Inherits (n : ℕ) (s t : State) : Prop :=
  ∀ v y, t.WaitOf n v y → ∃ z, s.WaitOf n v z ∧ z.timeoutMs = y.timeoutMs

theorem Inherits.trans (h : Inherits n s t) (k : Inherits n t u) : Inherits n s u := by
  intro v y hy
  obtain ⟨z, hz, hzy⟩ := k v y hy
  obtain ⟨w, hw, hwz⟩ := h v z hz
  exact ⟨w, hw, hwz.trans hzy⟩

theorem inherits_of_eq (h : t.waiters = s.waiters) : Inherits n s t :=
  fun _ y hy => ⟨y, ⟨h ▸ hy.1, hy.2⟩, rfl⟩

theorem Elsewhere.inherits (h : Elsewhere n s t) : Inherits n s t :=
  fun v y hy => ⟨y, (h.waiter v y).mp hy, rfl⟩

theorem finishWaiter_inherits (s : State) (v : ℕ) : Inherits n s (s.finishWaiter v) := by
  rintro w y ⟨hy, hc⟩
  change (s.waiters.modify v _)[w]? = _ at hy
  by_cases hw : v = w
  · subst hw
    rw [List.getElem?_modify_eq, Option.map_eq_map, Option.map_eq_some_iff] at hy
    obtain ⟨z, hz, rfl⟩ := hy
    exact ⟨z, ⟨hz, hc⟩, rfl⟩
  · rw [List.getElem?_modify_ne _ _ hw] at hy
    exact ⟨y, ⟨hy, hc⟩, rfl⟩

theorem check_inherits (hx : u.WaitOf n v x) (hd : x.done = false) : Inherits n u (u.check v).1 := by
  have hread : Inherits n u (u.readContext x.ctx) := inherits_of_eq (readContext_keeps u x.ctx).waiters
  have hc := checked hx.1 hd
  generalize u.check v = r at hc ⊢
  cases hc with
  | closed => exact hread.trans (finishWaiter_inherits _ v)
  | timeout => exact hread.trans ((finishWaiter_inherits _ v).trans (inherits_of_eq rfl))
  | poll => exact hread.trans (inherits_of_eq (sendCommand_waiters _ _ _ _ _))

/-- What the callback of a poll leaves of the wait. -/
theorem invoke_poll_own (reply : Reply) (h : Own n u) (hx : u.WaitOf n v x) :
    Own n (u.invoke (.poll v) reply).1 ∧ Inherits n u (u.invoke (.poll v) reply).1 := by
  have hsame : Own n u ∧ Inherits n u u := ⟨h, inherits_of_eq rfl⟩
  cases hp : reply.polled with
  | none => rwa [invoke_poll_none hp]
  | some b =>
      cases hd : x.done with
      | true => rwa [invoke_poll_done hx.1 hd (by rw [hp]; nofun)]
      | false =>
          cases b with
          | true =>
              rw [(invoke_poll_true hx.1 hd hp).1]
              exact ⟨(h.finishWaiter v).answer _ _, (finishWaiter_inherits u v).trans (inherits_of_eq rfl)⟩
          | false =>
              rw [invoke_poll_false hx.1 hd hp]
              exact ⟨h.check v, check_inherits hx hd⟩

theorem Timed.step {timeoutMs : ℕ} (h : Timed n timeoutMs s) (ht : s.step l = some t) : Timed n timeoutMs t := by
  have hsh := h.orderly.shape
  have hkeep : Own n t ∧ Inherits n s t := by
    rcases State.step_wait h.own (fun _ => h.known.ne') hsh ht with
      he | ⟨v, x, batch, hx, rfl, hst, rfl⟩ | ⟨v, x, id, reply, u, hx, rfl, ha, rfl⟩
    · exact ⟨he.own h.own, he.inherits⟩
    · have hown : Own n { s with stack := [.draining batch] } := ⟨h.own.callers, h.own.unique⟩
      refine ⟨hown.check v, ?_⟩
      cases hd : x.done with
      | true =>
          rw [check_done (u := { s with stack := [.draining batch] }) hx.1 hd]
          exact inherits_of_eq rfl
      | false => exact (inherits_of_eq rfl).trans (check_inherits (u := { s with stack := [.draining batch] }) hx hd)
    · have hu : Own n u ∧ u.WaitOf n v x ∧ Inherits n s u := by
        obtain ⟨conn, msg, b, -, -, -, -, rfl⟩ := ha
        exact ⟨⟨h.own.callers, h.own.unique⟩, hx, inherits_of_eq rfl⟩
      obtain ⟨hown, hinh⟩ := invoke_poll_own reply hu.1 hu.2.1
      have hfin : Elsewhere n (u.invoke (.poll v) reply).1 (State.finish (u.invoke (.poll v) reply)) :=
        .finish (.refl _)
      exact ⟨hfin.own hown, hu.2.2.trans (hinh.trans hfin.inherits)⟩
  refine ⟨h.orderly.step ht, lt_of_lt_of_le h.known (h.orderly.known.calls_le ht hsh), hkeep.1, fun v y hy => ?_⟩
  obtain ⟨z, hz, hzy⟩ := hkeep.2 v y hy
  rw [← hzy, h.timeout v z hz]

/-- If the step calls `on_timeout` with the message of the timeout, the time is up. -/
def State.NotEarly (n timeoutMs : ℕ) (s : State) (l : Label) : Prop :=
  ∀ t es v x, s.step l = some t → s.WaitOf n v x → t.history = es ++ s.history →
    .answered (.operation n) (.error x.timeoutText) ∈ es → timeoutMs ≤ s.now - x.start

/-- The check of a wait that is not over finds the context closed, or has a timeout that is an `int64_t`. -/
def State.InRange (n : ℕ) (s : State) (l : Label) : Prop :=
  ∀ v ∈ s.checking l, ∀ x ∈ s.waiters[v]?, x.call = n → x.done = false → s.closedOf x.ctx = false →
    x.timeoutMs < 2 ^ 63

instance (n : ℕ) (s : State) (l : Label) : Decidable (s.InRange n l) := by
  unfold State.InRange
  infer_instance

theorem toInt64_of_lt {k : ℕ} (h : k < 2 ^ 63) : State.toInt64 k = k := by
  unfold State.toInt64
  omega

theorem toInt64_neg {k : ℕ} (h : 2 ^ 63 ≤ k) (h64 : k < 2 ^ 64) : State.toInt64 k < 0 := by
  unfold State.toInt64
  omega

theorem NoTimeout.not_mem {h h' es : List Event} {text : Str} (a : NoTimeout n h h') (hh : h' = es ++ h) :
    .answered (.operation n) (.error text) ∉ es := by
  obtain ⟨fs, hfs, hh'⟩ := a
  obtain rfl : es = fs := List.append_cancel_right (hh.symm.trans hh')
  exact fun hmem => hfs _ hmem text rfl

theorem Timed.step_iff {timeoutMs : ℕ} (h : Timed n timeoutMs s) (h64 : timeoutMs < 2 ^ 64)
    (hnow : s.now < 2 ^ 63) (ht : s.step l = some t) : s.NotEarly n timeoutMs l ↔ s.InRange n l := by
  rcases h.step_timeout ht with ⟨hno, hup⟩ | ⟨v, x, hv, hx, hd, hto⟩
  · refine iff_of_true (fun t' es v x ht' hx hh hmem => ?_) (fun v hv x hx hc hd hcl => ?_)
    · obtain rfl := Option.some.inj (ht.symm.trans ht')
      exact absurd hmem (hno.not_mem hh)
    · by_contra hbig
      refine hup v hv x ⟨hx, hc⟩ hd hcl ?_
      have hneg := toInt64_neg (Nat.le_of_not_lt hbig) (h.timeout v x ⟨hx, hc⟩ ▸ h64)
      change State.toInt64 x.timeoutMs ≤ (s.now - x.start : ℕ)
      omega
  · obtain ⟨past, hh, es, -, hpast⟩ := hto.told
    have heq := h.timeout v x hx
    constructor
    · intro hearly w hw y hy hc _ _
      obtain ⟨rfl, rfl⟩ := h.own.waitOf hx ⟨hy, hc⟩
      have hle := hearly t (.answered (.operation n) (.error y.timeoutText) :: es) w y ht hx
        (by rw [hh, hpast]; rfl) List.mem_cons_self
      omega
    · intro hrange t' fs w y _ hy _ _
      obtain ⟨rfl, rfl⟩ := h.own.waitOf hx hy
      have hlt := hrange w hv y hx.1 hx.2 hd hto.opened
      have hel : State.toInt64 y.timeoutMs ≤ (s.now - y.start : ℕ) := hto.elapsed
      rw [toInt64_of_lt hlt] at hel
      omega

theorem Timed.run_iff {timeoutMs : ℕ} {ls : List Label} (h : Timed n timeoutMs s) (h64 : timeoutMs < 2 ^ 64)
    (hclock : Transition.Along State.step (fun u _ => u.now < 2 ^ 63) s ls)
    (hr : Transition.run State.step s ls = some t) :
    Transition.Along State.step (State.NotEarly n timeoutMs) s ls ↔
      Transition.Along State.step (State.InRange n) s ls :=
  Transition.along_congr (I := Timed n timeoutMs) (fun _ _ _ hu _ hv => hu.step hv)
    (fun _ _ _ hu hd hv => hu.step_iff h64 hd hv) h hclock hr

theorem Timed.begin {c : ℕ} {selector : Str} {timeoutMs : ℕ} (h : Orderly s) (hu : Untold s)
    (ht : s.step (.waitForSelector c selector timeoutMs) = some t) : Timed s.calls timeoutMs t := by
  have ho := h.step ht
  have hown := hu.own s.calls le_rfl
  have hknown : s.calls < t.calls := by
    have := step_operation_calls rfl ht
    omega
  simp only [State.step, Option.ite_none_right_eq_some, Option.some.injEq] at ht
  obtain ⟨-, ht⟩ := ht
  unfold State.waitForSelector at ht
  split at ht
  · subst ht
    exact ⟨ho, hknown, ⟨hown.callers, hown.unique⟩, fun v x hx => absurd hx (hu.waiters s.calls le_rfl v x)⟩
  · subst ht
    refine ⟨ho, hknown, ⟨hown.callers, fun v v' y y' hy hy' => ?_⟩, fun v y hy => ?_⟩
    · exact (hu.only hy.1 hy.2).1.trans (hu.only hy'.1 hy'.2).1.symm
    · rw [(hu.only hy.1 hy.2).2]

/-- A wait never times out early, if and only if its timeout is an `int64_t` or no check of it finds
the context open. -/
theorem wait_not_early_iff {ks ls : List Label} {m t s : State} {c : ℕ} {selector : Str} {timeoutMs : ℕ}
    (hm : Transition.run State.step init ks = some m)
    (ht : m.step (.waitForSelector c selector timeoutMs) = some t)
    (hr : Transition.run State.step t ls = some s) (h64 : timeoutMs < 2 ^ 64)
    (hclock : Transition.Along State.step (fun u _ => u.now < 2 ^ 63) t ls) :
    Transition.Along State.step (State.NotEarly m.calls timeoutMs) t ls ↔
      Transition.Along State.step (State.InRange m.calls) t ls :=
  (Timed.begin (run_orderly .init hm) (run_untold hm) ht).run_iff h64 hclock hr

theorem wait_not_early_sample : ∃ m t s, Transition.run State.step init oneContext = some m ∧
    m.step (.waitForSelector 0 (str "#ok") 1) = some t ∧
    Transition.run State.step t [.tick, .wake, .swap, .next] = some s ∧ timesTold m.calls s.history = 1 ∧
    Transition.Along State.step (State.NotEarly m.calls 1) t [.tick, .wake, .swap, .next] := by
  have h : (Transition.run State.step init oneContext).any (fun m =>
      (m.step (.waitForSelector 0 (str "#ok") 1)).any fun t =>
        (Transition.run State.step t [.tick, .wake, .swap, .next]).any fun s =>
          timesTold m.calls s.history = 1 ∧
          Transition.Along State.step (fun u _ => u.now < 2 ^ 63) t [.tick, .wake, .swap, .next] ∧
          Transition.Along State.step (State.InRange m.calls) t [.tick, .wake, .swap, .next]) = true := by
    decide +kernel
  obtain ⟨m, hm, h⟩ := Option.any_eq_true _ _ |>.mp h
  obtain ⟨t, ht, h⟩ := Option.any_eq_true _ _ |>.mp h
  obtain ⟨s, hs, h⟩ := Option.any_eq_true _ _ |>.mp h
  simp only [decide_eq_true_eq] at h
  obtain ⟨h1, hclock, hrange⟩ := h
  exact ⟨m, t, s, hm, ht, hs, h1, (wait_not_early_iff hm ht hs (by decide) hclock).mpr hrange⟩

/-- The largest `uint64_t`, meant as no timeout. -/
def forever : ℕ := 2 ^ 64 - 1

theorem forever_ends_at_once : ¬ ∀ (ks ls : List Label) (m t s : State) (c : ℕ) (selector : Str) (timeoutMs : ℕ),
    Transition.run State.step init ks = some m → m.step (.waitForSelector c selector timeoutMs) = some t →
    Transition.run State.step t ls = some s → timeoutMs < 2 ^ 64 →
    Transition.Along State.step (fun u _ => u.now < 2 ^ 63) t ls →
    Transition.Along State.step (State.NotEarly m.calls timeoutMs) t ls := by
  have h : (Transition.run State.step init oneContext).any (fun m =>
      (m.step (.waitForSelector 0 (str "#ok") forever)).any fun t =>
        (Transition.run State.step t [.wake, .swap, .next]).any fun s =>
          Transition.Along State.step (fun u _ => u.now < 2 ^ 63) t [.wake, .swap, .next] ∧
          ¬ Transition.Along State.step (State.InRange m.calls) t [.wake, .swap, .next]) = true := by
    decide +kernel
  obtain ⟨m, hm, h⟩ := Option.any_eq_true _ _ |>.mp h
  obtain ⟨t, ht, h⟩ := Option.any_eq_true _ _ |>.mp h
  obtain ⟨s, hs, h⟩ := Option.any_eq_true _ _ |>.mp h
  simp only [decide_eq_true_eq] at h
  obtain ⟨hclock, hno⟩ := h
  intro hall
  refine hno (((Timed.begin (run_orderly .init hm) (run_untold hm) ht).run_iff (by decide) hclock hs).mp ?_)
  exact hall oneContext [.wake, .swap, .next] m t s 0 (str "#ok") forever hm ht hs (by decide) hclock

end LynneSocial.Browser
