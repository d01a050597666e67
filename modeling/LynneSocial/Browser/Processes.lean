import LynneSocial.Browser.Steps

/-!
# Chrome processes

A worker thread forks Chrome and writes `chrome_pid_`; `start()`, `stop()` and a
failing launch kill what is recorded there. The record is right as long as no
launch forks while another Chrome is recorded. `stop()` is final if it is called
when no launch is under way.
-/
namespace LynneSocial.Browser

/-- The last of the two events decides whether the manager rests. -/
def Event.rests : Event → Option Bool
  | .starting => some false
  | .stopped => some true
  | _ => none

/-- The launches of Chrome and what the manager knows about them. -/
structure Processes where
  started : Bool
  chromePid : Option ℕ
  launches : List Launch
  children : List Child
  /-- `stop()` has returned and `start()` has not been called since. -/
  resting : Bool

def resting (h : List Event) : Bool := h.findSome? Event.rests == some true

def State.processes (s : State) : Processes :=
  ⟨s.started, s.chromePid, s.launches, s.children, resting s.history⟩

variable {ρ : Rules} {s t : State}

theorem resting_append {es h : List Event} (hes : ∀ e ∈ es, e.rests = none) :
    resting (es ++ h) = resting h := by
  have hnone : es.findSome? Event.rests = none := List.findSome?_eq_none_iff.mpr hes
  rw [resting, List.findSome?_append, hnone]
  rfl

theorem sendCommand_processes (s : State) (method : Str) (params : Json) (r : PendingRequest)
    (sessionId : Str) : (s.sendCommand method params r sessionId).1.processes = s.processes := by
  unfold State.sendCommand
  dsimp only
  split
  · split <;> rfl
  · rfl

theorem readContext_processes (s : State) (c : ℕ) : (s.readContext c).processes = s.processes := by
  unfold State.readContext
  split
  · split <;> rfl
  · rfl

theorem Beside.processes (h : Beside s t) : t.processes = s.processes := by
  obtain ⟨es, hes, hh⟩ := h.note
  have hr : resting t.history = resting s.history := by
    rw [hh]
    apply resting_append
    intro e he
    have hn := hes e he
    cases e <;> simp_all [Event.isNote, Event.rests]
  simp only [State.processes, hr]
  rw [show t.started = s.started from congrArg Core.started h.core,
    show t.chromePid = s.chromePid from congrArg Core.chromePid h.core,
    show t.launches = s.launches from congrArg Core.launches h.core,
    show t.children = s.children from congrArg Core.children h.core]

theorem Act.processes (h : Act ρ s t) : t.processes = s.processes := by
  cases h with
  | enter kind hkind => rcases hkind with rfl | rfl <;> rfl
  | send => exact sendCommand_processes _ _ _ _ _
  | create => exact sendCommand_processes _ _ _ _ _
  | read c => exact readContext_processes s c
  | aside _ h => exact h.processes
  | _ => rfl

theorem Keeps.processes (h : Keeps s t) : t.processes = s.processes := by
  obtain ⟨es, hes, hh⟩ := h.history
  have hr : resting t.history = resting s.history := by
    rw [hh]
    apply resting_append
    intro e he
    have hn := hes e he
    cases e <;> simp_all [Event.ofCache, Event.rests]
  simp only [State.processes, hr, h.started, h.chromePid, h.children]
  rw [show t.launches = s.launches from congrArg Line.launches h.line]

theorem Settles.processes (h : Settles s t) : t.processes = s.processes := by
  cases h <;> rfl

theorem Parts.processes (h : Parts ρ s t) : t.processes = s.processes :=
  Parts.invariant (I := fun u => u.processes = s.processes) (fun _ _ hs h => h.processes.trans hs)
    (fun _ _ hs h => h.processes.trans hs) h rfl

theorem Settles.stopping (h : Settles s t) : .stopping ∈ t.stack ↔ .stopping ∈ s.stack := by
  cases h with
  | stay => exact .rfl
  | erase id rest h => simp [h]
  | escape id rest h => simp [h]

/-- A step that does not change the session. -/
theorem step_processes {l : Label} (hsh : Shape s.stack) (hl : s.ofSession l = false)
    (ht : s.step l = some t) :
    t.processes = s.processes ∧ (.stopping ∈ t.stack ↔ .stopping ∈ s.stack) := by
  rcases State.step_parts (ρ := {}) ht hsh hl (fun _ => trivial) (fun _ => trivial)
    (fun _ _ _ _ _ _ _ _ => trivial) (fun _ _ _ _ => trivial)
    (fun _ _ _ _ => ⟨fun _ _ => trivial, fun _ _ _ _ _ _ _ _ => trivial⟩) (fun _ _ => trivial) with
    h | ⟨-, rest, h, rfl⟩ | ⟨-, rest, h, rfl⟩ | ⟨rfl, conn, msg, batch, hst, rfl⟩
  · exact ⟨h.processes, h.stopping⟩
  · have hset := State.resume_settles { s with stack := rest }
    exact ⟨hset.processes, hset.stopping.trans (by simp [h])⟩
  · have hset := State.unwind_settles { s with stack := rest }
    exact ⟨hset.processes, hset.stopping.trans (by simp [h])⟩
  · have hs : .stopping ∈ [Frame.draining batch] ↔ .stopping ∈ s.stack := by simp [hst]
    rcases State.message_cases (ρ := {}) ⟨fun _ _ _ _ => trivial, fun _ => trivial⟩
      { s with stack := [.draining batch] } msg (fun _ _ _ _ _ _ => trivial) (fun _ _ _ _ _ _ _ => trivial) with
      ⟨hm, -⟩ | ⟨id, r, reply, u, v, -, -, -, hu, hv, hvt⟩
    · exact ⟨hm.processes, hm.stopping.trans hs⟩
    · refine ⟨hvt.processes.trans (hv.parts.processes.trans hu.keeps.processes), ?_⟩
      rw [hvt.stopping, hv.parts.stopping, hu.keeps.stack]
      simp [State.calling, State.log, hst]

/-- `kill` and `waitpid` on what is recorded. -/
def Processes.reap (p : Processes) : Processes :=
  match p.chromePid with
  | some pid => { p with children := p.children.set pid .reaped, chromePid := none }
  | none => p

/-- What a step does to the processes. -/
inductive Changes (p : Processes) : Label → Processes → Prop
  | same (l : Label) (h : l ≠ .start ∨ p.started = true) (hl : ∀ i, l ≠ .fork i)
      (hl' : ∀ i url, l ≠ .launched i url) (hstop : l ≠ .stop) (hret : l ≠ .stopReturn) :
      Changes p l p
  | start (h : p.started = false) : Changes p .start
      { p.reap with launches := p.launches ++ [.queued], resting := false }
  | stop (h : p.started = true) : Changes p .stop p.reap
  | stopIdle (h : p.started = false) : Changes p .stop { p with resting := true }
  | stopReturn : Changes p .stopReturn { p with started := false, resting := true }
  | workDone (i : ℕ) (url : Bool) (h : p.launches[i]? = some (.launched url)) :
      Changes p (.workDone i)
        { p with launches := p.launches.set i .delivered, started := p.started || url }
  | fork (i : ℕ) (h : p.launches[i]? = some .queued) : Changes p (.fork i)
      { p with
        launches := p.launches.set i (.forked p.children.length)
        children := p.children ++ [.running]
        chromePid := some p.children.length }
  | notForked (i : ℕ) (h : p.launches[i]? = some .queued) : Changes p (.launched i false)
      { p with launches := p.launches.set i (.launched false) }
  | launched (i pid : ℕ) (h : p.launches[i]? = some (.forked pid)) : Changes p (.launched i true)
      { p with launches := p.launches.set i (.launched true) }
  | failed (i pid : ℕ) (h : p.launches[i]? = some (.forked pid)) : Changes p (.launched i false)
      { p with
        launches := p.launches.set i (.launched false)
        children := p.children.set pid .reaped
        chromePid := none }
  | exit (pid : ℕ) (h : p.children[pid]? = some .running) : Changes p (.exit pid)
      { p with children := p.children.set pid .exited }

theorem reapedChildren_eq (s : State) :
    s.processes.reap = { s.processes with children := s.reapedChildren, chromePid := none } := by
  unfold Processes.reap State.reapedChildren
  cases h : s.chromePid with
  | some pid => simp [State.processes, h]
  | none => simp [State.processes, h]

theorem onOpen_processes (s : State) (conn : ℕ) : (s.onOpen conn).processes = s.processes := by
  rw [State.onOpen_eq]
  split
  · exact sendCommand_processes _ _ _ _ _
  · rfl

theorem onDone_stack (s : State) (i : ℕ) (url : Bool) : (s.onDone i url).stack = s.stack := by
  unfold State.onDone State.wsStart
  dsimp only
  split
  · split <;> rfl
  · rfl

theorem onOpen_stack (s : State) (conn : ℕ) : (s.onOpen conn).stack = s.stack := by
  rw [State.onOpen_eq]
  split
  · exact State.sendCommand_stack _ _ _ _ _
  · rfl

theorem step_changes {l : Label} (hsh : Shape s.stack) (ht : s.step l = some t) :
    Changes s.processes l t.processes := by
  cases hl : s.ofSession l with
  | false =>
      rw [(step_processes hsh hl ht).1]
      refine .same l (.inl ?_) ?_ ?_ ?_ ?_ <;> intros <;> rintro rfl <;>
        simp [State.ofSession] at hl
  | true =>
      cases State.step_session ht hsh hl with
      | startAgain h => exact .same _ (.inr h) (by simp) (by simp) (by simp) (by simp)
      | start h =>
          have hc := Changes.start (p := s.processes) h
          rw [reapedChildren_eq] at hc
          exact hc
      | stop h =>
          have hc := Changes.stop (p := s.processes) h
          rw [reapedChildren_eq] at hc
          exact hc
      | stopIdle h => exact .stopIdle h
      | stopReturn => exact .stopReturn
      | notLaunched i h => simpa [State.processes] using Changes.workDone (p := s.processes) i false h
      | startDone i h => simpa [State.processes] using Changes.workDone (p := s.processes) i true h
      | connect i h =>
          have hc := Changes.workDone (p := s.processes) i true h
          simp only [Bool.or_true] at hc
          exact hc
      | fork i h => exact .fork i h
      | notForked i h => exact .notForked i h
      | launched i pid h => exact .launched i pid h
      | launchFailed i pid h => exact .failed i pid h
      | exit pid h => exact .exit pid h
      | openTask conn batch h =>
          rw [onOpen_processes]
          exact .same _ (by simp) (by simp) (by simp) (by simp) (by simp)
      | _ => exact .same _ (by simp) (by simp) (by simp) (by simp) (by simp)

def Launch.pid? : Launch → Option ℕ
  | forked pid => some pid
  | _ => none

/-- A worker writes `chrome_pid_`: the child of its own that may be recorded there. -/
def Processes.writer (p : Processes) : Label → Option (Option ℕ)
  | .fork _ => some none
  | .launched i false => (p.launches[i]?.bind Launch.pid?).map some
  | _ => none

/-- A launch forks while no Chrome is recorded, and a failing launch does not take the record of
another one. -/
def Processes.ForksAlone (p : Processes) (l : Label) : Prop :=
  ∀ own ∈ p.writer l, p.chromePid = none ∨ p.chromePid = own

instance (p : Processes) (l : Label) : Decidable (p.ForksAlone l) := by
  unfold Processes.ForksAlone
  infer_instance

/-- A child that was not waited for is the recorded one. -/
def Processes.Accounted (p : Processes) : Prop :=
  ∀ pid c, p.children[pid]? = some c → c ≠ .reaped → p.chromePid = some pid

structure Tracked (p : Processes) : Prop where
  accounted : p.Accounted
  live : ∀ pid, p.chromePid = some pid → ∃ c, p.children[pid]? = some c ∧ c ≠ .reaped

variable {p q : Processes}

theorem getElem?_set_reaped {cs : List Child} {i j : ℕ} {c : Child}
    (h : (cs.set i .reaped)[j]? = some c) (hc : c ≠ .reaped) : i ≠ j ∧ cs[j]? = some c := by
  rw [List.getElem?_set] at h
  split at h
  · split at h <;> cases h
    exact absurd rfl hc
  · exact ⟨‹_›, h⟩

/-- After `kill` and `waitpid` no child is left. -/
theorem Tracked.reap (h : Tracked p) (pid : ℕ) (c : Child)
    (hc : p.reap.children[pid]? = some c) : c = .reaped := by
  by_contra hne
  unfold Processes.reap at hc
  split at hc
  · rename_i old hold
    obtain ⟨hpid, hc⟩ := getElem?_set_reaped hc hne
    have := h.accounted pid c hc hne
    rw [hold] at this
    exact hpid (Option.some.inj this)
  · rename_i hnone
    have := h.accounted pid c hc hne
    rw [hnone] at this
    cases this

theorem reap_chromePid (p : Processes) : p.reap.chromePid = none := by
  unfold Processes.reap
  split
  · rfl
  · assumption

theorem Tracked.reaped (h : Tracked p) : Tracked p.reap := by
  refine ⟨fun pid c hc hne => absurd (h.reap pid c hc) hne, fun pid hpid => ?_⟩
  rw [reap_chromePid] at hpid
  cases hpid

/-- Only what the launches and the children are is looked at. -/
theorem Tracked.congr (h : Tracked p) (hpid : q.chromePid = p.chromePid)
    (hc : q.children = p.children) : Tracked q :=
  ⟨by simpa only [Processes.Accounted, hpid, hc] using h.accounted, by simpa only [hpid, hc] using h.live⟩

theorem Tracked.change {l : Label} (h : Tracked p) (hc : Changes p l q) (hf : p.ForksAlone l) :
    Tracked q := by
  cases hc with
  | same => exact h
  | start => exact h.reaped.congr rfl rfl
  | stop => exact h.reaped
  | stopIdle => exact h.congr rfl rfl
  | stopReturn => exact h.congr rfl rfl
  | workDone i url => exact h.congr rfl rfl
  | notForked i hi => exact h.congr rfl rfl
  | launched i pid hi => exact h.congr rfl rfl
  | fork i hi =>
      have hnone : p.chromePid = none := (hf none rfl).elim id id
      refine ⟨?_, ?_⟩
      · intro pid c hc hne
        rw [List.getElem?_append] at hc
        split at hc
        · have := h.accounted pid c hc hne
          rw [hnone] at this
          cases this
        · have : pid = p.children.length := by
            obtain ⟨hlt, -⟩ := List.getElem?_eq_some_iff.mp hc
            simp only [List.length_singleton] at hlt
            omega
          rw [this]
      · rintro pid hpid
        obtain rfl := Option.some.inj hpid
        exact ⟨.running, by simp, by simp⟩
  | failed i pid hi =>
      have hown : p.chromePid = none ∨ p.chromePid = some pid :=
        hf (some pid) (by simp [Processes.writer, hi, Launch.pid?])
      refine ⟨fun pid' c hc hne => ?_, by simp⟩
      obtain ⟨hpid, hc⟩ := getElem?_set_reaped hc hne
      have hacc := h.accounted pid' c hc hne
      rcases hown with hown | hown
      · rw [hown] at hacc
        cases hacc
      · rw [hown] at hacc
        exact absurd (Option.some.inj hacc) hpid
  | exit pid hpid =>
      refine ⟨?_, ?_⟩
      · intro pid' c hc hne
        rw [List.getElem?_set] at hc
        split at hc
        · subst pid'
          exact h.accounted pid .running hpid (by simp)
        · exact h.accounted pid' c hc hne
      · intro pid' hpid'
        obtain ⟨c, hc, hne⟩ := h.live pid' hpid'
        by_cases heq : pid = pid'
        · subst pid'
          obtain ⟨hlt, -⟩ := List.getElem?_eq_some_iff.mp hpid
          exact ⟨.exited, by simp [hlt], by simp⟩
        · exact ⟨c, by rw [List.getElem?_set_ne heq]; exact hc, hne⟩

/-- The other way: the child on record before stays behind. -/
theorem Tracked.spoil {l : Label} (h : Tracked p) (hc : Changes p l q) (hf : ¬ p.ForksAlone l) :
    ¬ q.Accounted := by
  intro hacc
  simp only [Processes.ForksAlone, not_forall, not_or] at hf
  obtain ⟨own, hown, hnone, hother⟩ := hf
  obtain ⟨pid, hpid⟩ := Option.ne_none_iff_exists'.mp hnone
  obtain ⟨c, hc', hne⟩ := h.live pid hpid
  cases hc with
  | fork i hi =>
      obtain ⟨hlt, -⟩ := List.getElem?_eq_some_iff.mp hc'
      have hlen := hacc pid c (by simpa [List.getElem?_append_left hlt] using hc') hne
      have hlen : p.children.length = pid := Option.some.inj hlen
      omega
  | failed i pid' hi =>
      have hpp : pid' ≠ pid := by
        rintro rfl
        simp only [Processes.writer, hi, Option.bind_some, Launch.pid?, Option.map_some,
          Option.mem_def, Option.some.injEq] at hown
        exact hother (hown ▸ hpid)
      have hacc := hacc pid c (by simpa [List.getElem?_set_ne hpp] using hc') hne
      cases hacc
  | notForked i hi => simp [Processes.writer, hi, Launch.pid?] at hown
  | same _ _ hl hl' =>
      cases l with
      | fork i => exact hl i rfl
      | launched i url => exact hl' i url rfl
      | _ => simp [Processes.writer] at hown
  | _ => simp [Processes.writer] at hown

/-- Every Chrome that was forked and not waited for is the one recorded in `chrome_pid_`, in
every state of a run, if and only if no worker writes `chrome_pid_` over another Chrome; then
`stop()` leaves none behind. -/
theorem one_chrome_on_record {ls : List Label} (hr : Transition.run State.step init ls = some s) :
    ((∀ ks u, ks <+: ls → Transition.run State.step init ks = some u → u.processes.Accounted) ↔
      Transition.Along State.step (fun s l => s.processes.ForksAlone l) init ls) ∧
    (Transition.Along State.step (fun s l => s.processes.ForksAlone l) init ls →
      ∀ t, s.started = true → s.step .stop = some t →
        ∀ c ∈ t.children, c = Child.reaped) := by
  have h0 : Tracked init.processes ∧ Shape init.stack :=
    ⟨⟨fun pid c hc => by simp [State.processes, init] at hc, fun pid hpid => nomatch hpid⟩, trivial⟩
  have hkeep : ∀ (s : State) (l : Label) (t : State), (Tracked s.processes ∧ Shape s.stack) →
      s.processes.ForksAlone l → s.step l = some t → Tracked t.processes ∧ Shape t.stack :=
    fun s l t h hf ht => ⟨h.1.change (step_changes h.2 ht) hf, State.step_shape h.2 ht⟩
  refine ⟨?_, fun hall t hst ht => ?_⟩
  · exact Transition.along_iff_prefixes (I := fun s => Tracked s.processes ∧ Shape s.stack)
      (P := fun s => s.processes.Accounted) hkeep (fun s h => h.1.accounted)
      (fun s l t h hf ht => h.1.spoil (step_changes h.2 ht) hf) h0 hr
  · obtain ⟨htr, hsh⟩ := Transition.run_invariant_along
      (I := fun s => Tracked s.processes ∧ Shape s.stack) hkeep h0 hall hr
    intro c hc
    obtain ⟨pid, hpid⟩ := List.getElem?_of_mem hc
    have hch := step_changes hsh ht
    change t.processes.children[pid]? = some c at hpid
    generalize t.processes = q at hch hpid
    cases hch with
    | stop => exact htr.reap pid c hpid
    | stopIdle h => exact absurd (h.symm.trans hst) (by simp)
    | same _ _ _ _ h => exact absurd rfl h

/-- A session, and a launch after it. -/
theorem one_chrome_on_record_sample : ∃ s, Transition.run State.step init
    (connect ++ [.stop, .stopReturn, .start, .fork 1, .launched 1 true, .workDone 1]) = some s ∧
    s.chromePid = some 1 ∧
    ∀ ks u, ks <+: connect ++ [.stop, .stopReturn, .start, .fork 1, .launched 1 true, .workDone 1] →
      Transition.run State.step init ks = some u → u.processes.Accounted := by
  have h : (Transition.run State.step init (connect ++ [.stop, .stopReturn, .start, .fork 1,
      .launched 1 true, .workDone 1])).any (fun s => s.chromePid = some 1) = true := by
    decide +kernel
  obtain ⟨s, hs, h⟩ := Option.any_eq_true _ _ |>.mp h
  exact ⟨s, hs, by simpa using h, (one_chrome_on_record hs).1.mpr (by decide +kernel)⟩

/-- Two calls of `start()` before the first launch is done: the first Chrome is lost. -/
theorem overlapping_starts_leak : ¬ ∀ (ls : List Label) (s : State),
    Transition.run State.step init ls = some s → s.processes.Accounted := by
  have h : (Transition.run State.step init [.start, .start, .fork 0, .fork 1]).any
      (fun s => s.children[0]? = some .running ∧ s.chromePid = some 1) = true := by decide +kernel
  obtain ⟨s, hs, h⟩ := Option.any_eq_true _ _ |>.mp h
  simp only [decide_eq_true_eq] at h
  intro hall
  have hpid : s.chromePid = some 0 := hall _ s hs 0 .running h.1 (by simp)
  rw [h.2] at hpid
  cases hpid

/-- The launch will not change anything any more. -/
def Launch.over : Launch → Bool
  | launched false | delivered => true
  | _ => false

/-- The launch forked a Chrome and its `on_done` is still to come. -/
def Launch.carries : Launch → Bool
  | forked _ | launched true => true
  | _ => false

/-- `stop()` is called when no launch is under way. -/
def Processes.StopsBetween (p : Processes) (l : Label) : Prop :=
  l.isStop = true → ∀ x ∈ p.launches, x.over = true

instance (p : Processes) (l : Label) : Decidable (p.StopsBetween l) := by
  unfold Processes.StopsBetween
  infer_instance

/-- No launch is under way and no Chrome is recorded. -/
structure Idle (p : Processes) : Prop where
  launches : ∀ x ∈ p.launches, x.over = true
  chromePid : p.chromePid = none

/-- A recorded Chrome belongs to a started manager, or its launch is under way. -/
def Carried (p : Processes) : Prop :=
  p.chromePid ≠ none → p.started = true ∨ ∃ x ∈ p.launches, x.carries = true

theorem over_of_getElem? {i : ℕ} {x : Launch} (h : Idle p) (hx : p.launches[i]? = some x) :
    x.over = true :=
  h.launches x (List.mem_of_getElem? hx)

theorem Idle.change {l : Label} (h : Idle p) (hc : Changes p l q)
    (hl : l = .start → p.started = true) : Idle q ∧ (q.started = true → p.started = true) := by
  have hset : ∀ (i : ℕ) (y : Launch), y.over = true → ∀ x ∈ p.launches.set i y, x.over = true := by
    intro i y hy x hx
    rcases List.mem_or_eq_of_mem_set hx with hx | rfl
    · exact h.launches x hx
    · exact hy
  cases hc with
  | same => exact ⟨h, id⟩
  | start hst => rw [hl rfl] at hst; cases hst
  | stop =>
      have hreap : p.reap = p := by
        unfold Processes.reap
        simp only [h.chromePid]
      rw [hreap]
      exact ⟨h, id⟩
  | stopIdle => exact ⟨⟨h.launches, h.chromePid⟩, id⟩
  | stopReturn => exact ⟨⟨h.launches, h.chromePid⟩, by simp⟩
  | workDone i url hi =>
      have hover := over_of_getElem? h hi
      cases url with
      | true => cases hover
      | false => exact ⟨⟨hset i _ rfl, h.chromePid⟩, by simp⟩
  | fork i hi => cases over_of_getElem? h hi
  | notForked i hi => cases over_of_getElem? h hi
  | launched i pid hi => cases over_of_getElem? h hi
  | failed i pid hi => cases over_of_getElem? h hi
  | exit pid hpid => exact ⟨⟨h.launches, h.chromePid⟩, id⟩

theorem mem_set_of_mem {xs : List Launch} {i : ℕ} {x y z : Launch} (hx : x ∈ xs)
    (hi : xs[i]? = some y) (hne : x ≠ y) : x ∈ xs.set i z := by
  obtain ⟨j, hj⟩ := List.getElem?_of_mem hx
  have hij : i ≠ j := by
    rintro rfl
    rw [hi] at hj
    exact hne (Option.some.inj hj).symm
  exact List.mem_of_getElem? (by rw [List.getElem?_set_ne hij]; exact hj)

theorem Carried.change {l : Label} (h : Carried p) (hc : Changes p l q)
    (hl : l = .stopReturn → p.chromePid = none) : Carried q := by
  intro hpid
  have hkeep : ∀ (i : ℕ) (y z : Launch), p.chromePid ≠ none → p.launches[i]? = some y →
      y.carries = false → p.started = true ∨ ∃ x ∈ p.launches.set i z, x.carries = true := by
    intro i y z hp hi hy
    refine (h hp).imp_right ?_
    rintro ⟨x, hx, hcarry⟩
    refine ⟨x, mem_set_of_mem hx hi ?_, hcarry⟩
    rintro rfl
    rw [hcarry] at hy
    cases hy
  have hnew : ∀ (i : ℕ) (y z : Launch), p.launches[i]? = some y → z ∈ p.launches.set i z := by
    intro i y z hi
    exact List.mem_set (List.getElem?_eq_some_iff.mp hi).1 z
  cases hc with
  | same => exact h hpid
  | start => exact absurd (reap_chromePid p) hpid
  | stop => exact absurd (reap_chromePid p) hpid
  | stopIdle => exact h hpid
  | stopReturn => exact absurd (hl rfl) hpid
  | workDone i url hi =>
      cases url with
      | true => exact .inl (by simp)
      | false => exact (hkeep i _ _ hpid hi rfl).imp_left (by simp)
  | fork i hi => exact .inr ⟨_, hnew i _ _ hi, rfl⟩
  | notForked i hi => exact hkeep i _ _ hpid hi rfl
  | launched i pid hi => exact .inr ⟨_, hnew i _ _ hi, rfl⟩
  | failed i pid hi => exact absurd rfl hpid
  | exit => exact h hpid

/-- While `stop()` waits in `scheduler_->step()` the application does not run. -/
theorem step_under_stopping {l : Label} {rest : List Frame} (hst : s.stack = .stopping :: rest)
    (ht : s.step l = some t) :
    (l = .stopReturn ∧ t.stack = rest) ∨ (l ≠ .start ∧ l.isStop = false ∧ t.stack = s.stack) := by
  cases l <;> simp only [State.step, State.userTurn, hst, Bool.false_eq_true, false_and, if_false,
    reduceCtorEq] at ht
  case stopReturn =>
    cases ht
    exact .inl ⟨rfl, rfl⟩
  case workDone i =>
    split at ht <;> cases ht <;> exact .inr ⟨by simp, rfl, onDone_stack _ _ _⟩
  case launched i url =>
    refine .inr ⟨by simp, rfl, ?_⟩
    split at ht
    · split at ht <;> cases ht
      exact hst.symm
    · cases ht
      split <;> exact hst.symm
    · cases ht
  case fork i =>
    split at ht <;> cases ht
    exact .inr ⟨by simp, rfl, hst.symm⟩
  case exit i =>
    split at ht <;> cases ht
    exact .inr ⟨by simp, rfl, hst.symm⟩
  case post =>
    cases ht
    exact .inr ⟨by simp, rfl, rfl⟩
  case received =>
    split at ht <;> cases ht
    exact .inr ⟨by simp, rfl, rfl⟩
  case tick =>
    cases ht
    exact .inr ⟨by simp, rfl, hst.symm⟩
  all_goals
    split at ht <;> cases ht
    exact .inr ⟨by simp, rfl, hst.symm⟩

/-- Only `stop()` puts its own frame on the stack. -/
theorem step_stopping {l : Label} (hsh : Shape s.stack) (hno : .stopping ∉ s.stack)
    (ht : s.step l = some t) :
    .stopping ∉ t.stack ∨ (l.isStop = true ∧ t.stack = .stopping :: s.stack) := by
  cases hl : s.ofSession l with
  | false => exact .inl (by rwa [(step_processes hsh hl ht).2])
  | true =>
      cases State.step_session ht hsh hl with
      | stop => exact .inr ⟨rfl, rfl⟩
      | stopReturn rest h => simp [h] at hno
      | openTask conn batch h =>
          rw [onOpen_stack]
          exact .inl (by simp)
      | _ => exact .inl hno

/-- What holds between `stop()` and `start()`, and before. -/
structure Session (s : State) : Prop where
  shape : Shape s.stack
  tracked : Tracked s.processes
  carried : Carried s.processes
  top : .stopping ∈ s.stack → ∃ rest, s.stack = .stopping :: rest ∧ .stopping ∉ rest
  stopping : .stopping ∈ s.stack → Idle s.processes
  rest : resting s.history = true → Idle s.processes ∧ s.started = false

theorem Changes.rest {l : Label} (hc : Changes p l q) (hq : q.resting = true) :
    (l.isStop = true ∧ p.started = false ∨ l = .stopReturn) ∨
      (p.resting = true ∧ (l = .start → p.started = true)) := by
  cases hc with
  | same _ h => exact .inr ⟨hq, fun hl => h.resolve_left (absurd hl)⟩
  | start => cases hq
  | stop =>
      refine .inr ⟨?_, by simp⟩
      unfold Processes.reap at hq
      split at hq <;> exact hq
  | stopIdle h => exact .inl (.inl ⟨rfl, h⟩)
  | stopReturn => exact .inl (.inr rfl)
  | _ => exact .inr ⟨hq, by simp⟩

/-- What `stop()` finds between launches. -/
theorem Changes.idle {l : Label} (hc : Changes p l q) (hl : l.isStop = true) (hcar : Carried p)
    (hover : ∀ x ∈ p.launches, x.over = true) : Idle q := by
  cases hc with
  | same _ _ _ _ hstop => cases l <;> simp_all [Label.isStop]
  | stop =>
      refine ⟨?_, reap_chromePid p⟩
      unfold Processes.reap
      split <;> exact hover
  | stopIdle h =>
      refine ⟨hover, ?_⟩
      by_contra hpid
      rcases hcar hpid with hst | ⟨x, hx, hcarry⟩
      · rw [h] at hst
        cases hst
      · have := hover x hx
        cases x with
        | launched url => cases url <;> simp_all [Launch.carries, Launch.over]
        | _ => simp_all [Launch.carries, Launch.over]
  | _ => cases hl

theorem Changes.not_started {l : Label} (hc : Changes p l q) (hl : l.isStop = true)
    (h : p.started = false) : q.started = false := by
  cases hc with
  | stop hst => rw [h] at hst; cases hst
  | stopIdle => exact h
  | same => exact h
  | _ => cases hl

theorem stopReturn_shorter (ht : s.step .stopReturn = some t) : t.stack.length < s.stack.length := by
  simp only [State.step] at ht
  split at ht
  · rename_i rest h
    cases ht
    simp [h]
  · cases ht

theorem Session.step {l : Label} (h : Session s) (hf : s.processes.ForksAlone l)
    (hb : s.processes.StopsBetween l) (ht : s.step l = some t) : Session t := by
  have hc := step_changes h.shape ht
  have hret : l = .stopReturn → .stopping ∈ s.stack := by
    rintro rfl
    simp only [State.step] at ht
    split at ht
    · simp [*]
    · cases ht
  have hidle : l.isStop = true → Idle t.processes := fun hl => hc.idle hl h.carried (hb hl)
  have hrest : s.processes.resting = true → (l = .start → s.started = true) →
      Idle t.processes ∧ t.started = false := by
    intro hr hl
    obtain ⟨hi, hst⟩ := h.rest hr
    obtain ⟨hi', hst'⟩ := hi.change hc hl
    refine ⟨hi', Bool.eq_false_iff.mpr fun ht => ?_⟩
    exact absurd ((hst' ht).symm.trans hst) (by simp)
  have hcarried := h.carried.change hc fun hl => (h.stopping (hret hl)).chromePid
  by_cases hst : .stopping ∈ s.stack
  · obtain ⟨rest, hs, hno⟩ := h.top hst
    rcases step_under_stopping hs ht with ⟨rfl, hts⟩ | ⟨hl, hl', hts⟩
    · refine ⟨State.step_shape h.shape ht, h.tracked.change hc hf, hcarried, ?_, ?_, fun _ => ?_⟩
      · exact fun hm => absurd (hts ▸ hm) hno
      · exact fun hm => absurd (hts ▸ hm) hno
      · refine ⟨((h.stopping hst).change hc (by simp)).1, ?_⟩
        simp only [State.step, hs, Option.some.injEq] at ht
        rw [← ht]
    · have hi := (h.stopping hst).change hc (absurd · hl)
      refine ⟨State.step_shape h.shape ht, h.tracked.change hc hf, hcarried, fun _ => ?_,
        fun _ => hi.1, fun hr => ?_⟩
      · exact ⟨rest, hts.trans hs, hno⟩
      · rcases hc.rest hr with (⟨hstop, -⟩ | rfl) | ⟨hr, hl⟩
        · rw [hl'] at hstop
          cases hstop
        · exact absurd (congrArg List.length hts) (stopReturn_shorter ht).ne
        · exact hrest hr hl
  · rcases step_stopping h.shape hst ht with hno | ⟨hl, hts⟩
    · refine ⟨State.step_shape h.shape ht, h.tracked.change hc hf, hcarried, (absurd · hno),
        (absurd · hno), fun hr => ?_⟩
      rcases hc.rest hr with (⟨hstop, hstart⟩ | hl) | ⟨hr, hl⟩
      · exact ⟨hidle hstop, hc.not_started hstop hstart⟩
      · exact absurd (hret hl) hst
      · exact hrest hr hl
    · refine ⟨State.step_shape h.shape ht, h.tracked.change hc hf, hcarried, fun _ => ?_,
        fun _ => hidle hl, fun hr => ?_⟩
      · exact ⟨s.stack, hts, hst⟩
      · rcases hc.rest hr with (⟨-, hstart⟩ | rfl) | ⟨hr, -⟩
        · exact ⟨hidle hl, hc.not_started hl hstart⟩
        · cases hl
        · exact ⟨hidle hl, hc.not_started hl (h.rest hr).2⟩

/-- After `stop()` and until `start()` the manager is not started, not healthy and without a
Chrome, in every run in which no worker writes `chrome_pid_` over another Chrome and `stop()` is
called only when no launch is under way. -/
theorem stop_is_final {ls : List Label} (hr : Transition.run State.step init ls = some s)
    (hC : Transition.Along State.step
      (fun s l => s.processes.ForksAlone l ∧ s.processes.StopsBetween l) init ls)
    (hrest : resting s.history = true) :
    s.started = false ∧ s.healthCheck.2 = false ∧ ∀ c ∈ s.children, c = Child.reaped := by
  have h0 : Session init := by
    refine ⟨trivial, ⟨?_, ?_⟩, ?_, ?_, ?_, ?_⟩ <;>
      simp [init, State.processes, Processes.Accounted, Carried, resting]
  have h := Transition.run_invariant_along (I := Session)
    (fun _ _ _ h hC ht => h.step hC.1 hC.2 ht) h0 hC hr
  obtain ⟨hidle, hst⟩ := h.rest hrest
  refine ⟨hst, ?_, fun c hc => ?_⟩
  · unfold State.healthCheck
    rw [if_pos hst]
  · by_contra hne
    obtain ⟨pid, hpid⟩ := List.getElem?_of_mem hc
    have hrec := h.tracked.accounted pid c hpid hne
    rw [hidle.chromePid] at hrec
    cases hrec

theorem stop_is_final_sample : ∃ s,
    Transition.run State.step init (connect ++ [.stop, .stopReturn]) = some s ∧
    s.started = false ∧ s.healthCheck.2 = false ∧ ∀ c ∈ s.children, c = Child.reaped := by
  have h : (Transition.run State.step init (connect ++ [.stop, .stopReturn])).any
      (fun s => resting s.history) = true := by decide +kernel
  obtain ⟨s, hs, h⟩ := Option.any_eq_true _ _ |>.mp h
  exact ⟨s, hs, stop_is_final hs (by decide +kernel) h⟩

/-- `stop()` during the launch returns at once, and the launch goes on to start the manager. -/
theorem stop_during_launch_starts : ¬ ∀ (ls : List Label) (s : State),
    Transition.run State.step init ls = some s → resting s.history = true →
      s.started = false ∧ s.healthCheck.2 = false ∧ ∀ c ∈ s.children, c = Child.reaped := by
  have h : (Transition.run State.step init [.start, .fork 0, .stop, .launched 0 true,
      .workDone 0]).any (fun s => resting s.history ∧ s.started = true) = true := by decide +kernel
  obtain ⟨s, hs, h⟩ := Option.any_eq_true _ _ |>.mp h
  simp only [decide_eq_true_eq] at h
  intro hall
  have hst := (hall _ s hs h.1).1
  rw [h.2] at hst
  cases hst

end LynneSocial.Browser
