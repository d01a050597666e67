import LynneSocial.Scheduler.EventLoop

/-!
# Deadlines

When the loop calls a timer. Each start of a handle is remembered with its
deadline and a number of its own. It waits until it is stopped or fires, once,
and never before its deadline. What is due when `uv__run_timers` looks into the
heap has fired or has been stopped when all such calls are back.

If callbacks do not run the loop again, the timers of a whole run fire in the
order of their deadlines, and in the order of their starts where these are equal.
-/
namespace LynneSocial.EventLoop

variable {α : Type} {s t : State α}

/-- The sum does not wrap. -/
theorem clampedTimeout_eq {now : ℕ} (h : now < 2 ^ 64) (delay : ℕ) :
    clampedTimeout now delay = min (now + delay) (2 ^ 64 - 1) := by
  unfold clampedTimeout
  simp only
  split_ifs <;> omega

/-- The starts so far and what has become of them. -/
structure Kept (s : State α) : Prop where
  nodes : s.armedNodes = s.pending + s.stoppedNodes + s.firedNodes
  ids : (s.armedNodes.map Node.startId).Nodup
  fresh : ∀ n ∈ s.armedNodes, n.startId < s.timerCounter
  clock : s.time < 2 ^ 64
  armed : ∀ n now delay, .armed n now delay ∈ s.events → n.timeout = min (now + delay) (2 ^ 64 - 1)
  due : ∀ n ∈ s.ready, n.timeout ≤ s.time
  fired : ∀ n now, .fired n now ∈ s.events → n.timeout ≤ now ∧ now ≤ s.time
  passed : ∀ now k, .pass now k ∈ s.events →
    now ≤ s.time ∧ k ≤ s.timerCounter ∧ ∀ n ∈ s.heap, now < n.timeout ∨ k ≤ n.startId

theorem ready_sublist {g : Pass → Pass} (hg : ∀ q, (g q).ready.Sublist q.ready) (passes : List Pass) :
    ((passes.map g).flatMap Pass.ready).Sublist (passes.flatMap Pass.ready) := by
  induction passes with
  | nil => exact .refl _
  | cons q passes ih => exact (hg q).append ih

theorem Shrinks.ready {m : Multiset Node} (h : Shrinks s t m) : t.ready.Sublist s.ready := by
  obtain ⟨g, hg, hsub⟩ := h.passes
  rw [State.ready, State.ready, hg]
  exact ready_sublist (fun q => (hsub q).2) s.passes

theorem Shrinks.mem_heap {m : Multiset Node} (h : Shrinks s t m) {n : Node} (hn : n ∈ t.heap) : n ∈ s.heap :=
  Multiset.mem_of_le h.heap_le hn

/-- What is recorded at the end counts on top. -/
theorem nodes_append {es : List Event} (h : t.events = s.events ++ es) :
    t.armedNodes = s.armedNodes + (es.filterMap Event.armed? : List Node) ∧
      t.stoppedNodes = s.stoppedNodes + (es.filterMap Event.stopped? : List Node) ∧
      t.firedNodes = s.firedNodes ++ es.filterMap Event.fired? := by
  simp only [State.armedNodes, State.stoppedNodes, State.firedNodes, h, List.filterMap_append,
    Multiset.coe_add, and_self]

theorem event_old {es : List Event} (h : t.events = s.events ++ es) {e : Event} (he : e ∉ es)
    (hmem : e ∈ t.events) : e ∈ s.events :=
  (List.mem_append.mp (h ▸ hmem)).resolve_right he

theorem Kept.shrinks {m : Multiset Node} (h : Kept s) (k : Shrinks s t m) : Kept t := by
  obtain ⟨l, rfl, hevents⟩ := k.events
  obtain ⟨harmed, hstopped, hfired⟩ := nodes_append hevents
  simp only [List.filterMap_map, Function.comp_def, Event.armed?, Event.stopped?, Event.fired?,
    List.filterMap_none, List.filterMap_some, Multiset.coe_nil, add_zero, List.append_nil] at harmed hstopped hfired
  refine ⟨?_, harmed ▸ h.ids, ?_, ?_, ?_, ?_, ?_, ?_⟩
  · rw [harmed, hstopped, hfired, h.nodes, k.pending]
    abel
  · rw [harmed, k.counter]
    exact h.fresh
  · rw [k.time]
    exact h.clock
  · exact fun n now delay hmem => h.armed n now delay (event_old hevents (by simp) hmem)
  · rw [k.time]
    exact fun n hn => h.due n (k.ready.subset hn)
  · rw [k.time]
    exact fun n now hmem => h.fired n now (event_old hevents (by simp) hmem)
  · rw [k.time, k.counter]
    intro now c hmem
    obtain ⟨htime, hc, hheap⟩ := h.passed now c (event_old hevents (by simp) hmem)
    exact ⟨htime, hc, fun n hn => hheap n (k.mem_heap hn)⟩

theorem Kept.arm (h : Kept s) (p delay : ℕ) : Kept (s.arm p delay) := by
  set n : Node := ⟨p, clampedTimeout s.time delay, s.timerCounter⟩ with hn
  have hperm := Multiset.coe_eq_coe.mpr (MinHeap.insert_perm timerLessThan s.heap n)
  have hevents : (s.arm p delay).events = s.events ++ [.armed n s.time delay] := rfl
  obtain ⟨harmed, hstopped, hfired⟩ := nodes_append hevents
  simp only [List.filterMap_cons, List.filterMap_nil, Event.armed?, Event.stopped?, Event.fired?,
    Multiset.coe_singleton, Multiset.coe_nil, add_zero, List.append_nil] at harmed hstopped hfired
  rw [add_comm, Multiset.singleton_add] at harmed
  have hpending : (s.arm p delay).pending = n ::ₘ s.pending := by
    simp only [State.arm, State.pending, State.ready, ← hn]
    rw [hperm, ← Multiset.cons_coe, Multiset.cons_add]
  refine ⟨?_, ?_, ?_, h.clock, ?_, h.due, fun m now hmem => h.fired m now (event_old hevents (by simp) hmem), ?_⟩
  · rw [harmed, hpending, hstopped, hfired, h.nodes]
    simp only [Multiset.cons_add]
  · rw [harmed, Multiset.map_cons, Multiset.nodup_cons]
    refine ⟨fun hmem => ?_, h.ids⟩
    obtain ⟨m, hm, hid⟩ := Multiset.mem_map.mp hmem
    exact absurd hid (h.fresh m hm).ne
  · rw [harmed]
    intro m hm
    rcases Multiset.mem_cons.mp hm with rfl | hm
    · exact Nat.lt_succ_self _
    · exact (h.fresh m hm).trans (Nat.lt_succ_self _)
  · intro m now d hmem
    rcases List.mem_append.mp hmem with hmem | hmem
    · exact h.armed m now d hmem
    · obtain ⟨rfl, rfl, rfl⟩ : m = n ∧ now = s.time ∧ d = delay := by simpa using hmem
      exact clampedTimeout_eq h.clock _
  · intro now k hmem
    obtain ⟨htime, hk, hheap⟩ := h.passed now k (event_old hevents (by simp) hmem)
    refine ⟨htime, hk.trans (Nat.le_succ _), fun m hm => ?_⟩
    have hm' : m ∈ (MinHeap.insert timerLessThan s.heap n : Multiset Node) := hm
    rw [hperm, Multiset.mem_coe, List.mem_cons] at hm'
    rcases hm' with rfl | hm'
    · exact .inr hk
    · exact hheap m hm'

/-- The first timer of a queue is taken out to be called. -/
theorem Kept.pop (h : Kept s) {depth : ℕ} {n : Node} {rest : List Node} {passes : List Pass}
    (hpasses : s.passes = ⟨depth, n :: rest⟩ :: passes) :
    Kept { s with passes := ⟨depth, rest⟩ :: passes, events := s.events ++ [.fired n s.time] } := by
  set u : State α := { s with passes := ⟨depth, rest⟩ :: passes, events := s.events ++ [.fired n s.time] } with hu
  have hready : s.ready = n :: u.ready := by simp [State.ready, hpasses, hu]
  have hpending : s.pending = n ::ₘ u.pending := by
    rw [State.pending, hready, ← Multiset.cons_coe, Multiset.add_cons]
    rfl
  have hevents : u.events = s.events ++ [.fired n s.time] := rfl
  obtain ⟨harmed, hstopped, hfired⟩ := nodes_append hevents
  simp only [List.filterMap_cons, List.filterMap_nil, Event.armed?, Event.stopped?, Event.fired?,
    Multiset.coe_nil, add_zero] at harmed hstopped hfired
  refine ⟨?_, harmed ▸ h.ids, harmed ▸ h.fresh, h.clock,
    fun m now d hmem => h.armed m now d (event_old hevents (by simp) hmem),
    fun m hm => h.due m (hready ▸ List.mem_cons_of_mem _ hm), ?_,
    fun now k hmem => h.passed now k (event_old hevents (by simp) hmem)⟩
  · rw [harmed, hstopped, hfired, h.nodes, hpending, ← Multiset.coe_add, Multiset.coe_singleton,
      ← Multiset.singleton_add]
    abel
  · intro m now hmem
    rcases List.mem_append.mp hmem with hmem | hmem
    · exact h.fired m now hmem
    · obtain ⟨rfl, rfl⟩ : m = n ∧ now = s.time := by simpa using hmem
      exact ⟨h.due m (hready ▸ List.mem_cons_self), le_rfl⟩

theorem Kept.collects (h : Kept s) (hheap : MinHeap.Ordered Node.key s.heap) : Kept s.collects := by
  obtain ⟨hsum, -, hdue, hlater, -⟩ := collect_spec s.time hheap le_rfl
  have hpending : s.collects.pending = s.pending := by
    rw [State.pending, State.pending, ← hsum]
    simp only [State.collects, State.ready, List.flatMap_cons, ← Multiset.coe_add]
    abel
  have hevents : s.collects.events = s.events ++ [.pass s.time s.timerCounter] := rfl
  obtain ⟨harmed, hstopped, hfired⟩ := nodes_append hevents
  simp only [List.filterMap_cons, List.filterMap_nil, Event.armed?, Event.stopped?, Event.fired?,
    Multiset.coe_nil, add_zero, List.append_nil] at harmed hstopped hfired
  refine ⟨?_, harmed ▸ h.ids, harmed ▸ h.fresh, h.clock,
    fun m now d hmem => h.armed m now d (event_old hevents (by simp) hmem), fun n hn => ?_,
    fun m now hmem => h.fired m now (event_old hevents (by simp) hmem), fun now k hmem => ?_⟩
  · rw [harmed, hstopped, hfired, hpending, h.nodes]
  · rcases List.mem_append.mp hn with hn | hn
    · exact hdue n hn
    · exact h.due n hn
  · rcases List.mem_append.mp hmem with hmem | hmem
    · obtain ⟨htime, hk, hlate⟩ := h.passed now k hmem
      refine ⟨htime, hk, fun n hn => hlate n ?_⟩
      have hn' : n ∈ (s.heap : Multiset Node) := hsum ▸ Multiset.mem_add.mpr (.inr hn)
      exact hn'
    · obtain ⟨rfl, rfl⟩ : now = s.time ∧ k = s.timerCounter := by simpa using hmem
      exact ⟨le_rfl, le_rfl, fun n hn => .inl (hlater n hn)⟩

theorem Kept.changes (h : Kept s) (hc : Changes s t) : Kept t := by
  cases hc with
  | timers v => exact ⟨h.nodes, h.ids, h.fresh, h.clock, h.armed, h.due, h.fired, h.passed⟩
  | shrinks k => exact h.shrinks k
  | arm p delay hp => exact h.arm p delay
  | counter =>
      refine ⟨h.nodes, h.ids, fun n hn => (h.fresh n hn).trans (Nat.lt_succ_self _), h.clock, h.armed, h.due,
        h.fired, fun now k hmem => ?_⟩
      obtain ⟨htime, hk, hlate⟩ := h.passed now k hmem
      exact ⟨htime, hk.trans (Nat.le_succ _), hlate⟩
  | tick now hle hnow =>
      refine ⟨h.nodes, h.ids, h.fresh, hnow, h.armed, fun n hn => (h.due n hn).trans hle,
        fun n m hmem => ⟨(h.fired n m hmem).1, (h.fired n m hmem).2.trans hle⟩, fun m k hmem => ?_⟩
      obtain ⟨htime, hk, hlate⟩ := h.passed m k hmem
      exact ⟨htime.trans hle, hk, hlate⟩
  | pop depth n rest passes hpasses => exact h.pop hpasses
  | endPass depth passes hpasses =>
      have hready : ({ s with passes } : State α).ready = s.ready := by simp [State.ready, hpasses]
      refine ⟨?_, h.ids, h.fresh, h.clock, h.armed, hready ▸ h.due, h.fired, h.passed⟩
      rw [State.pending, hready]
      exact h.nodes

theorem Kept.step {l : Label α} (h : Kept s) (hs : Inv s) (hstep : step s l = some t) : Kept t := by
  rcases hs.step hstep with hgood | ⟨-, rfl, -⟩
  · have hchanges := hgood.changes
    clear hgood hstep hs
    induction hchanges with
    | refl => exact h
    | tail _ hc ih => exact ih.changes hc
  · exact h.collects hs.heap

theorem init_kept (n : ℤ) {time : ℕ} (counter : ℕ) (ht : time < 2 ^ 64) : Kept (init n time counter : State α) where
  nodes := rfl
  ids := .nil
  fresh := fun n hn => by simp [init, State.armedNodes] at hn
  clock := ht
  armed := by simp [init]
  due := by simp [init, State.ready]
  fired := by simp [init]
  passed := by simp [init]

theorem run_kept {n : ℤ} {time counter : ℕ} {ls : List (Label α)} (ht : time < 2 ^ 64)
    (hr : Transition.run step (init n time counter) ls = some s) : Inv s ∧ Kept s :=
  Transition.run_invariant (I := fun s => Inv s ∧ Kept s)
    (fun u l v hu hv => ⟨step_inv u l v hu.1 hv, hu.2.step hu.1 hv⟩)
    ⟨init_inv n time counter, init_kept n counter ht⟩ hr

/-- What was due at a look into the heap does not wait there any more. -/
theorem Kept.settled (h : Kept s) {now k : ℕ} {n : Node} (hpass : .pass now k ∈ s.events) (hn : n ∈ s.armedNodes)
    (hid : n.startId < k) (hdue : n.timeout ≤ now) : n ∈ s.ready ∨ n ∈ s.stoppedNodes ∨ n ∈ s.firedNodes := by
  rw [h.nodes, Multiset.mem_add, Multiset.mem_add, State.pending, Multiset.mem_add] at hn
  rcases hn with ((hheap | hready) | hstopped) | hfired
  · rcases (h.passed now k hpass).2.2 n hheap with hlate | hlate <;> omega
  · exact .inl hready
  · exact .inr (.inl hstopped)
  · exact .inr (.inr hfired)

/-- Each start of a timer waits, or has been stopped, or has fired, once; its deadline does not wrap,
and it does not fire before. What was started before a call of `uv__run_timers` and due then has left
the heap, and is stopped or has fired when no such call is under way. -/
theorem timers_on_time {n : ℤ} {time counter : ℕ} {ls : List (Label α)} {s : State α} (ht : time < 2 ^ 64)
    (hr : Transition.run step (init n time counter) ls = some s) :
    s.armedNodes = s.pending + s.stoppedNodes + s.firedNodes ∧ s.armedNodes.Nodup ∧
      (∀ m now delay, .armed m now delay ∈ s.events → m.timeout = min (now + delay) (2 ^ 64 - 1)) ∧
      (∀ m now, .fired m now ∈ s.events → m.timeout ≤ now) ∧
      ∀ now k m, .pass now k ∈ s.events → m ∈ s.armedNodes → m.startId < k → m.timeout ≤ now →
        (m ∈ s.ready ∧ s.passes ≠ []) ∨ m ∈ s.stoppedNodes ∨ m ∈ s.firedNodes := by
  obtain ⟨-, h⟩ := run_kept ht hr
  refine ⟨h.nodes, h.ids.of_map _, h.armed, fun m now hm => (h.fired m now hm).1, ?_⟩
  intro now k m hpass hm hid hdue
  refine (h.settled hpass hm hid hdue).imp_left fun hready => ⟨hready, fun hnil => ?_⟩
  simp [State.ready, hnil] at hready

/-- A job, and a delayed callback that another one starts when it fires late. -/
def late : List (Label ℕ) :=
  [.start, .addJob (str "a") 5 (some 1), .after 3 (some 2), .updateTime 104, .runTimers, .fire, .after 4 (some 3),
    .ret, .endTimers, .updateTime 112, .runTimers, .fire, .ret, .fire]

theorem timers_on_time_late : ∃ s : State ℕ, Transition.run step (init 0 100 7) late = some s ∧
    s.firedNodes = [⟨1, 103, 8⟩, ⟨0, 105, 7⟩, ⟨2, 108, 9⟩] ∧ s.pending = {⟨0, 117, 10⟩} ∧
      ∀ m now, .fired m now ∈ s.events → m.timeout ≤ now := by
  refine ⟨_, rfl, rfl, rfl, ?_⟩
  exact (@timers_on_time ℕ 0 100 7 late _ (by decide) rfl).2.2.2.1

/-- What has fired comes before what waits in the queue, and this before what is in the heap. -/
structure Sequenced (s : State α) : Prop where
  single : s.passes.length ≤ 1
  sorted : (s.firedNodes ++ s.ready).Pairwise fun a b => a.key ≤ b.key
  before : ∀ a ∈ s.firedNodes ++ s.ready, ∀ b ∈ s.heap, a.key ≤ b.key

theorem Kept.timeout_le (h : Kept s) {a : Node} (ha : a ∈ s.firedNodes ++ s.ready) :
    a.timeout ≤ s.time ∧ a.startId < s.timerCounter := by
  have hmem : a ∈ s.armedNodes := by
    rw [h.nodes, State.pending]
    simp only [Multiset.mem_add, Multiset.mem_coe]
    rcases List.mem_append.mp ha with ha | ha
    · exact .inr ha
    · exact .inl (.inl (.inr ha))
  refine ⟨?_, h.fresh a hmem⟩
  rcases List.mem_append.mp ha with ha | ha
  · obtain ⟨e, he, hfired⟩ := List.mem_filterMap.mp ha
    cases e with
    | fired n now =>
        obtain rfl := Option.some.inj hfired
        exact (h.fired n now he).1.trans (h.fired n now he).2
    | _ => cases hfired
  · exact h.due a ha

theorem Sequenced.changes (h : Sequenced s) (hk : Kept s) (hc : Changes s t) : Sequenced t := by
  cases hc with
  | timers v => exact ⟨h.single, h.sorted, h.before⟩
  | shrinks k =>
      obtain ⟨l, -, hevents⟩ := k.events
      have hfired : t.firedNodes = s.firedNodes := by
        simp [State.firedNodes, hevents, List.filterMap_map, Function.comp_def, Event.fired?]
      have hsub : (t.firedNodes ++ t.ready).Sublist (s.firedNodes ++ s.ready) := by
        rw [hfired]
        exact k.ready.append_left _
      refine ⟨?_, h.sorted.sublist hsub, fun a ha b hb => h.before a (hsub.subset ha) b (k.mem_heap hb)⟩
      obtain ⟨g, hg, -⟩ := k.passes
      rw [hg, List.length_map]
      exact h.single
  | arm p delay hp =>
      have hfired : (s.arm p delay).firedNodes = s.firedNodes := by
        simp [State.firedNodes, State.arm, List.filterMap_cons, Event.fired?]
      have hlist : (s.arm p delay).firedNodes ++ (s.arm p delay).ready = s.firedNodes ++ s.ready := by
        rw [hfired]
        rfl
      refine ⟨h.single, hlist ▸ h.sorted, fun a ha b hb => ?_⟩
      rw [hlist] at ha
      have hb' := (MinHeap.insert_perm timerLessThan s.heap _).mem_iff.mp hb
      rcases List.mem_cons.mp hb' with rfl | hb'
      · obtain ⟨htimeout, hid⟩ := hk.timeout_le ha
        have hclock := hk.clock
        have hclamped := clampedTimeout_eq hclock delay
        rw [Node.key, Node.key, Prod.Lex.toLex_le_toLex]
        simp only
        omega
      · exact h.before a ha b hb'
  | counter => exact ⟨h.single, h.sorted, h.before⟩
  | tick now hle hnow => exact ⟨h.single, h.sorted, h.before⟩
  | pop depth n rest passes hpasses =>
      have hnil : passes = [] := by
        have hsingle := h.single
        rw [hpasses, List.length_cons] at hsingle
        exact List.eq_nil_of_length_eq_zero (by omega)
      subst hnil
      set u : State α := { s with passes := [⟨depth, rest⟩], events := s.events ++ [.fired n s.time] } with hu
      have hlist : u.firedNodes ++ u.ready = s.firedNodes ++ s.ready := by
        simp [State.firedNodes, State.ready, hu, hpasses, Event.fired?]
      exact ⟨le_rfl, hlist ▸ h.sorted, hlist ▸ h.before⟩
  | endPass depth passes hpasses =>
      have hready : ({ s with passes } : State α).ready = s.ready := by simp [State.ready, hpasses]
      have hlist : ({ s with passes } : State α).firedNodes ++ ({ s with passes } : State α).ready =
          s.firedNodes ++ s.ready := by
        rw [hready]
        rfl
      refine ⟨?_, hlist ▸ h.sorted, hlist ▸ h.before⟩
      have hsingle := h.single
      rw [hpasses, List.length_cons] at hsingle
      exact (Nat.le_succ _).trans hsingle

theorem Sequenced.collects (h : Sequenced s) (hheap : MinHeap.Ordered Node.key s.heap) (hpasses : s.passes = []) :
    Sequenced s.collects := by
  obtain ⟨hsum, -, hdue, hlater, hsorted⟩ := collect_spec s.time hheap le_rfl
  have hready : s.ready = [] := by simp [State.ready, hpasses]
  have hfired : s.collects.firedNodes = s.firedNodes := by
    simp [State.firedNodes, State.collects, List.filterMap_cons, Event.fired?]
  have hcollected : s.collects.ready = (collect s.time s.heap.length s.heap).1 := by
    simp [State.ready, State.collects, hpasses]
  have hheapmem : ∀ b ∈ (collect s.time s.heap.length s.heap).1 ++
      (collect s.time s.heap.length s.heap).2, b ∈ s.heap := by
    intro b hb
    have hb' : b ∈ (s.heap : Multiset Node) := by
      rw [← hsum, Multiset.coe_add]
      exact hb
    exact hb'
  have hbefore : ∀ a ∈ s.firedNodes, ∀ b ∈ s.heap, a.key ≤ b.key := by
    intro a ha
    exact h.before a (List.mem_append_left _ ha)
  refine ⟨by simp [State.collects, hpasses], ?_, fun a ha b hb => ?_⟩
  · rw [hfired, hcollected, List.pairwise_append]
    refine ⟨?_, hsorted, fun a ha b hb => hbefore a ha b (hheapmem b (List.mem_append_left _ hb))⟩
    have hall := h.sorted
    rw [hready, List.append_nil] at hall
    exact hall
  · rw [hfired, hcollected] at ha
    rcases List.mem_append.mp ha with ha | ha
    · exact hbefore a ha b (hheapmem b (List.mem_append_right _ hb))
    · have hlt := (hdue a ha).trans_lt (hlater b hb)
      rw [Node.key, Node.key, Prod.Lex.toLex_le_toLex]
      exact .inl hlt

/-- The loop is not run from inside a callback. -/
def NotNested (s : State α) : Label α → Prop
  | .runTimers => s.passes = []
  | _ => True

instance (s : State α) : ∀ l : Label α, Decidable (NotNested s l)
  | .runTimers => decidable_of_iff (s.passes.isEmpty = true) List.isEmpty_iff
  | .start | .stop | .addJob _ _ _ | .removeJob _ | .after _ _ | .otherAfter | .updateTime _ | .fire | .endTimers |
    .ret | .closeCb _ => .isTrue trivial

theorem Sequenced.step {l : Label α} (h : Sequenced s) (hk : Kept s) (hs : Inv s) (hl : NotNested s l)
    (hstep : step s l = some t) : Sequenced t := by
  rcases hs.step hstep with hgood | ⟨rfl, rfl, -⟩
  · have hchanges := hgood.changes
    have hboth : Sequenced t ∧ Kept t := by
      clear hgood hstep hs
      induction hchanges with
      | refl => exact ⟨h, hk⟩
      | tail _ hc ih => exact ⟨ih.1.changes ih.2 hc, ih.2.changes hc⟩
    exact hboth.1
  · exact h.collects hs.heap hl

/-- If callbacks do not run the loop, the timers of a run fire in the order of their deadlines, and those
with one deadline in the order in which they were started. -/
theorem timers_in_order {n : ℤ} {time counter : ℕ} {ls : List (Label α)} {s : State α} (ht : time < 2 ^ 64)
    (hC : Transition.Along step NotNested (init n time counter) ls)
    (hr : Transition.run step (init n time counter) ls = some s) :
    s.firedNodes.Pairwise fun a b => timerLessThan a b = true := by
  have hinit : Sequenced (init n time counter : State α) :=
    ⟨Nat.zero_le _, by simp [init, State.firedNodes, State.ready], by simp [init]⟩
  obtain ⟨-, hkept, hseq⟩ := Transition.run_invariant_along (I := fun s : State α => Inv s ∧ Kept s ∧ Sequenced s)
    (fun u l v hu hl hv => ⟨step_inv u l v hu.1 hv, hu.2.1.step hu.1 hv, hu.2.2.step hu.2.1 hu.1 hl hv⟩)
    ⟨init_inv n time counter, init_kept n counter ht, hinit⟩ hC hr
  have hids : (s.firedNodes.map Node.startId).Nodup := by
    have hnodup := hkept.ids
    rw [hkept.nodes, Multiset.map_add] at hnodup
    exact (Multiset.nodup_add.mp hnodup).2.1
  have hne : s.firedNodes.Pairwise fun a b => a.startId ≠ b.startId := List.pairwise_map.mp hids
  refine ((List.pairwise_append.mp hseq.sorted).1.and hne).imp fun {a b} hab => ?_
  rw [timerLessThan_iff]
  refine hab.1.lt_of_ne fun hkey => hab.2 ?_
  exact (Prod.mk.inj (toLex.injective hkey)).2

theorem timers_in_order_late : ∃ s : State ℕ, Transition.run step (init 0 100 7) late = some s ∧
    s.firedNodes.length = 3 ∧ s.firedNodes.Pairwise fun a b => timerLessThan a b = true := by
  refine ⟨_, rfl, rfl, ?_⟩
  exact @timers_in_order ℕ 0 100 7 late _ (by decide) (by decide +kernel) rfl

end LynneSocial.EventLoop
