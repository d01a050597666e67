import LynneSocial.Lib.MinHeap
import LynneSocial.Scheduler.Jobs
import Mathlib.Algebra.Order.Group.Multiset
import Mathlib.Data.Prod.Lex
import Mathlib.Tactic.Abel

/-!
# The loop and its clock

The timers as libuv runs them: started timers are in a heap, ordered by their
timeouts and then by the order of the starts. `uv__run_timers` first moves every
timer that is due into a queue of its own, and then, one after the other, arms it
again if it repeats and calls its callback. A callback may stop timers that wait
in the queue, start others and run the loop again; its clock only goes on when
`uv__update_time` is called.

A run of the loop is a run of `Timers`, where a timer that is armed fires at any
moment; here the moment is determined.
-/
namespace LynneSocial.EventLoop

/-- A `uv_timer_t` that has been started, and the context it belongs to. -/
structure Node where
  p : ℕ
  timeout : ℕ
  startId : ℕ
deriving DecidableEq

def timerLessThan (a b : Node) : Bool :=
  if a.timeout < b.timeout then true
  else if b.timeout < a.timeout then false
  else a.startId < b.startId

def Node.key (n : Node) : ℕ ×ₗ ℕ := toLex (n.timeout, n.startId)

theorem timerLessThan_iff (a b : Node) : timerLessThan a b = true ↔ a.key < b.key := by
  simp only [timerLessThan, Node.key, Prod.Lex.toLex_lt_toLex]
  split_ifs with h1 h2
  · simp [h1]
  · simp only [false_iff]
    omega
  · simp only [decide_eq_true_eq]
    omega

/-- The sum of two `uint64_t`, or the greatest one. -/
def clampedTimeout (now delay : ℕ) : ℕ :=
  let sum := (now + delay) % 2 ^ 64
  if sum < delay then 2 ^ 64 - 1 else sum

inductive Event where
  | armed (n : Node) (now delay : ℕ)
  | stopped (n : Node)
  | fired (n : Node) (now : ℕ)
  /-- `uv__run_timers` has taken out what is due; the second number is `timer_counter`. -/
  | pass (now counter : ℕ)

/-- A call of `uv__run_timers` that is not back: how many callbacks were running when it began, and
its `ready_queue`. -/
structure Pass where
  depth : ℕ
  ready : List Node

structure State (α : Type) where
  timers : Timers.State α := {}
  /-- `timer_heap`, row by row. -/
  heap : List Node := []
  passes : List Pass := []
  time : ℕ := 0
  timerCounter : ℕ := 0
  events : List Event := []

variable {α : Type}

namespace State

def sched (s : State α) : UvScheduler α := s.timers.sched

def withSched (s : State α) (f : UvScheduler α → UvScheduler α) : State α :=
  { s with timers := s.timers.withSched f }

def ready (s : State α) : List Node := s.passes.flatMap Pass.ready

/-- A timer is in the heap or in some queue. -/
def uvTimerStop (s : State α) (p : ℕ) : State α :=
  match s.heap.findIdx? (·.p = p) with
  | some i =>
    { s with
      heap := MinHeap.remove timerLessThan s.heap i
      events := s.events ++ (s.heap[i]?).toList.map .stopped }
  | none =>
    { s with
      passes := s.passes.map fun q => { q with ready := q.ready.filter (·.p ≠ p) }
      events := s.events ++ (s.ready.filter (·.p = p)).map .stopped }

def isClosing (s : State α) (p : ℕ) : Bool := (s.sched.ctxs[p]?).any (0 < ·.closes)

/-- The part of `uv_timer_start` behind its checks. -/
def arm (s : State α) (p delay : ℕ) : State α :=
  let n : Node := ⟨p, clampedTimeout s.time delay, s.timerCounter⟩
  { s with
    heap := MinHeap.insert timerLessThan s.heap n
    timerCounter := s.timerCounter + 1
    events := s.events ++ [.armed n s.time delay] }

def uvTimerStart (s : State α) (p delay : ℕ) : State α :=
  if s.isClosing p then s else (s.uvTimerStop p).arm p delay

/-- Whether a callback is running that the innermost call of `uv__run_timers` has called, or there is
no such call. -/
def inCallback (s : State α) : Bool :=
  match s.passes with
  | [] => true
  | q :: _ => q.depth < s.timers.stack.length

/-- What `remove_job` does with the handle. -/
def stopJob (s : State α) (name : Str) : State α :=
  match s.sched.timers.lookup name with
  | some p => s.uvTimerStop p
  | none => s

end State

/-- The first loop of `uv__run_timers`: the timers that are due, in their order, and the heap without
them. -/
def collect (now : ℕ) : ℕ → List Node → List Node × List Node
  | 0, heap => ([], heap)
  | k + 1, heap =>
    match MinHeap.min heap with
    | some n =>
      if n.timeout ≤ now then
        let r := collect now k (MinHeap.remove timerLessThan heap 0)
        (n :: r.1, r.2)
      else ([], heap)
    | none => ([], heap)

/-- `uv__run_timers` looks into the heap, which is all its first loop does. -/
def State.collects (s : State α) : State α :=
  let r := collect s.time s.heap.length s.heap
  { s with
    heap := r.2
    passes := ⟨s.timers.stack.length, r.1⟩ :: s.passes
    events := s.events ++ [.pass s.time s.timerCounter] }

inductive Label (α : Type) where
  | start
  | stop
  | addJob (name : Str) (interval : ℕ) (callback : Option α)
  | removeJob (name : Str)
  | after (delay : ℕ) (callback : Option α)
  /-- Another scheduler calls `after`: the counters are shared. -/
  | otherAfter
  | updateTime (now : ℕ)
  | runTimers
  | fire
  | endTimers
  | ret
  | closeCb (p : ℕ)

def State.uvTimerAgain (s : State α) (p : ℕ) (c : TimerCtx α) : State α :=
  if c.interval = 0 then s else (s.uvTimerStop p).uvTimerStart p c.interval

/-- The timer function up to the call of the callback; where there is none, `oneshot_timer_cb` goes
straight to its end. -/
def State.timerCb (s : State α) (p : ℕ) (c : TimerCtx α) : State α :=
  if c.oneshot && c.callback.isNone then s.uvTimerStop p else s

/-- What `uv__run_timers` does with a timer that it has taken out of the queue. -/
def State.call (s : State α) (p : ℕ) (c : TimerCtx α) : State α :=
  { (s.uvTimerAgain p c).timerCb p c with timers := Timers.fire s.timers p c }

def step (s : State α) : Label α → Option (State α)
  | .start => some (s.withSched .start)
  | .stop =>
    let s := if s.sched.started then s.sched.timers.entries.foldl (fun s e => s.uvTimerStop e.2) s else s
    some (s.withSched .stop)
  | .addJob name interval callback =>
    some (((s.stopJob name).withSched (·.addJob name interval callback)).uvTimerStart s.sched.ctxs.length interval)
  | .removeJob name => some ((s.stopJob name).withSched (·.removeJob name))
  | .after delay callback =>
    let name := UvScheduler.afterName (UvScheduler.nextCounter s.sched.counter)
    some (((s.stopJob name).withSched (·.after callback)).uvTimerStart s.sched.ctxs.length delay)
  | .otherAfter =>
    some { s.withSched (fun u => { u with counter := UvScheduler.nextCounter u.counter }) with
      timerCounter := s.timerCounter + 1 }
  | .updateTime now => if s.time ≤ now ∧ now < 2 ^ 64 then some { s with time := now } else none
  | .runTimers =>
    if s.inCallback then some s.collects else none
  | .fire =>
    match s.passes with
    | ⟨depth, n :: rest⟩ :: passes =>
      if s.timers.stack.length = depth then
        (s.sched.ctxs[n.p]?).map fun c =>
          { s with
            passes := ⟨depth, rest⟩ :: passes
            events := s.events ++ [Event.fired n s.time] }.call n.p c
      else none
    | _ => none
  | .endTimers =>
    match s.passes with
    | ⟨depth, []⟩ :: passes => if s.timers.stack.length = depth then some { s with passes } else none
    | _ => none
  | .ret =>
    if s.inCallback then
      match s.timers.stack with
      | .timerCb p :: rest =>
        some { s with timers := { sched := s.sched.modifyCtx p TimerCtx.touch, stack := rest } }
      | .oneshotTimerCb p :: rest =>
        some { s.uvTimerStop p with timers := { sched := s.sched.oneshotTail p, stack := rest } }
      | [] => none
    else none
  | .closeCb p => (Timers.step s.timers (.closeCb p)).map fun timers => { s with timers }

def Event.armed? : Event → Option Node
  | armed n _ _ => some n
  | _ => none

def Event.stopped? : Event → Option Node
  | stopped n => some n
  | _ => none

def Event.fired? : Event → Option Node
  | fired n _ => some n
  | _ => none

namespace State

/-- The timers that wait, in the heap or in a queue. -/
def pending (s : State α) : Multiset Node := (s.heap : Multiset Node) + (s.ready : Multiset Node)

def armedNodes (s : State α) : Multiset Node := (s.events.filterMap Event.armed? : List Node)

def stoppedNodes (s : State α) : Multiset Node := (s.events.filterMap Event.stopped? : List Node)

def firedNodes (s : State α) : List Node := s.events.filterMap Event.fired?

end State

/-- No handle waits twice, and the heap is one. -/
structure Waiting (s : State α) : Prop where
  heap : MinHeap.Ordered Node.key s.heap
  distinct : (s.pending.map Node.p).Nodup

variable {s t : State α}

/-- What a step leaves of the timers that waited before. -/
structure Shrinks (s t : State α) (m : Multiset Node) : Prop where
  heap : MinHeap.Ordered Node.key t.heap
  pending : s.pending = t.pending + m
  heap_le : (t.heap : Multiset Node) ≤ s.heap
  passes : ∃ g : Pass → Pass, t.passes = s.passes.map g ∧ ∀ q, (g q).depth = q.depth ∧ (g q).ready.Sublist q.ready
  time : t.time = s.time
  counter : t.timerCounter = s.timerCounter
  events : ∃ l : List Node, (l : Multiset Node) = m ∧ t.events = s.events ++ l.map .stopped
  timers : t.timers = s.timers

theorem Shrinks.refl (h : MinHeap.Ordered Node.key s.heap) : Shrinks s s 0 where
  heap := h
  pending := (add_zero _).symm
  heap_le := le_rfl
  passes := ⟨id, (List.map_id _).symm, fun _ => ⟨rfl, .refl _⟩⟩
  time := rfl
  counter := rfl
  events := ⟨[], rfl, (List.append_nil _).symm⟩
  timers := rfl

theorem Shrinks.trans {u : State α} {m n : Multiset Node} (h : Shrinks s t m) (k : Shrinks t u n) :
    Shrinks s u (m + n) where
  heap := k.heap
  pending := by rw [h.pending, k.pending, add_assoc, add_comm n]
  heap_le := k.heap_le.trans h.heap_le
  passes := by
    obtain ⟨g, hg, hsub⟩ := h.passes
    obtain ⟨g', hg', hsub'⟩ := k.passes
    refine ⟨g' ∘ g, by rw [hg', hg, List.map_map], fun q => ?_⟩
    exact ⟨(hsub' _).1.trans (hsub q).1, (hsub' _).2.trans (hsub q).2⟩
  time := k.time.trans h.time
  counter := k.counter.trans h.counter
  events := by
    obtain ⟨l, rfl, hl⟩ := h.events
    obtain ⟨l', rfl, hl'⟩ := k.events
    exact ⟨l ++ l', Multiset.coe_add .., by rw [hl', hl, List.map_append, List.append_assoc]⟩
  timers := k.timers.trans h.timers

theorem Waiting.shrinks {m : Multiset Node} (h : Waiting s) (k : Shrinks s t m) : Waiting t where
  heap := k.heap
  distinct := by
    have hd := h.distinct
    rw [k.pending, Multiset.map_add] at hd
    exact (Multiset.nodup_add.mp hd).1

/-- Of the timers that wait at most one belongs to a handle. -/
theorem filter_of_nodup {r : Multiset Node} {n : Node} (h : ((n ::ₘ r).map Node.p).Nodup) :
    (n ::ₘ r).filter (·.p = n.p) = {n} ∧ (n ::ₘ r).filter (·.p ≠ n.p) = r := by
  rw [Multiset.map_cons, Multiset.nodup_cons] at h
  have hother : ∀ x ∈ r, x.p ≠ n.p := fun x hx heq => h.1 (heq ▸ Multiset.mem_map_of_mem Node.p hx)
  constructor
  · rw [Multiset.filter_cons_of_pos r (p := fun x : Node => x.p = n.p) rfl, Multiset.filter_eq_nil.mpr hother]
    rfl
  · rw [Multiset.filter_cons_of_neg _ (by simp), Multiset.filter_eq_self.mpr hother]

/-- `uv_timer_stop` takes the handle away wherever it waits. -/
theorem Waiting.uvTimerStop (h : Waiting s) (p : ℕ) :
    Shrinks s (s.uvTimerStop p) (s.pending.filter (·.p = p)) ∧
      (s.uvTimerStop p).pending = s.pending.filter (·.p ≠ p) := by
  unfold State.uvTimerStop
  split
  · rename_i i hi
    obtain ⟨hlt, hp, -⟩ := List.findIdx?_eq_some_iff_getElem.mp hi
    have hx : s.heap[i]? = some s.heap[i] := List.getElem?_eq_getElem hlt
    have hperm := Multiset.coe_eq_coe.mpr (MinHeap.remove_perm timerLessThan hx)
    have hsplit : s.pending = s.heap[i] ::ₘ ((MinHeap.remove timerLessThan s.heap i : Multiset Node) + s.ready) := by
      rw [State.pending, ← hperm, ← Multiset.cons_coe, Multiset.cons_add]
    have hd := h.distinct
    rw [hsplit] at hd
    have hpi : s.heap[i].p = p := by simpa using hp
    obtain ⟨hself, hrest⟩ := filter_of_nodup hd
    rw [← hsplit, hpi] at hself hrest
    refine ⟨⟨h.heap.remove timerLessThan_iff hlt, ?_, ?_, ⟨id, (List.map_id _).symm, fun _ => ⟨rfl, .refl _⟩⟩, rfl,
      rfl, ⟨[s.heap[i]], hself.symm, by rw [hx]; rfl⟩, rfl⟩, hrest.symm⟩
    · rw [hself, hsplit, ← Multiset.singleton_add, add_comm]
      rfl
    · rw [← hperm]
      exact Multiset.le_cons_self _ _
  · rename_i hnone
    rw [List.findIdx?_eq_none_iff] at hnone
    have hheap : ∀ n ∈ (s.heap : Multiset Node), n.p ≠ p := fun n hn => by simpa using hnone n hn
    have hready : ∀ passes : List Pass,
        (passes.map fun q => { q with ready := q.ready.filter (·.p ≠ p) }).flatMap Pass.ready =
          (passes.flatMap Pass.ready).filter (·.p ≠ p) := by
      intro passes
      rw [List.flatMap_map, List.filter_flatMap]
    have hself : s.pending.filter (·.p = p) = (s.ready.filter (·.p = p) : List Node) := by
      rw [State.pending, Multiset.filter_add, Multiset.filter_eq_nil.mpr hheap, zero_add, Multiset.filter_coe]
    have hrest : s.pending.filter (·.p ≠ p) = (s.heap : Multiset Node) + (s.ready.filter (·.p ≠ p) : List Node) := by
      rw [State.pending, Multiset.filter_add, Multiset.filter_eq_self.mpr hheap, Multiset.filter_coe]
    set t := ({ s with
      passes := s.passes.map fun q => { q with ready := q.ready.filter (·.p ≠ p) }
      events := s.events ++ (s.ready.filter (·.p = p)).map .stopped } : State α) with ht
    have hpending : t.pending = s.pending.filter (·.p ≠ p) := by
      rw [hrest]
      simp only [ht, State.pending, State.ready, hready]
    refine ⟨⟨h.heap, ?_, le_rfl, ⟨_, rfl, fun q => ⟨rfl, List.filter_sublist⟩⟩, rfl, rfl,
      ⟨s.ready.filter (·.p = p), hself.symm, rfl⟩, rfl⟩, hpending⟩
    rw [hpending, add_comm, Multiset.filter_add_not]

theorem Waiting.stopAll (h : Waiting s) (es : List ((_ : Str) × ℕ)) :
    ∃ m, Shrinks s (es.foldl (fun s e => s.uvTimerStop e.2) s) m ∧
      ∀ n ∈ (es.foldl (fun s e => s.uvTimerStop e.2) s).pending, ∀ e ∈ es, n.p ≠ e.2 := by
  induction es generalizing s with
  | nil => exact ⟨0, .refl h.heap, by simp⟩
  | cons e es ih =>
      obtain ⟨hshrinks, hpending⟩ := h.uvTimerStop e.2
      obtain ⟨m, hm, hes⟩ := ih (h.shrinks hshrinks)
      refine ⟨_, hshrinks.trans hm, fun n hn e' he' => ?_⟩
      rcases List.mem_cons.mp he' with rfl | he'
      · have hle : n ∈ (s.uvTimerStop e'.2).pending := by
          rw [hm.pending]
          exact Multiset.mem_add.mpr (.inl hn)
        rw [hpending] at hle
        exact (Multiset.mem_filter.mp hle).2
      · exact hes n hn e' he'

theorem Waiting.arm (h : Waiting s) {p : ℕ} (hp : ∀ n ∈ s.pending, n.p ≠ p) (delay : ℕ) :
    Waiting (s.arm p delay) ∧
      (s.arm p delay).pending = ⟨p, clampedTimeout s.time delay, s.timerCounter⟩ ::ₘ s.pending := by
  have hpending : (s.arm p delay).pending = ⟨p, clampedTimeout s.time delay, s.timerCounter⟩ ::ₘ s.pending := by
    simp only [State.arm, State.pending, State.ready]
    rw [Multiset.coe_eq_coe.mpr (MinHeap.insert_perm _ _ _), ← Multiset.cons_coe, Multiset.cons_add]
  refine ⟨⟨h.heap.insert timerLessThan_iff _, ?_⟩, hpending⟩
  rw [hpending, Multiset.map_cons, Multiset.nodup_cons]
  refine ⟨fun hm => ?_, h.distinct⟩
  obtain ⟨n, hn, hnp⟩ := Multiset.mem_map.mp hm
  exact hp n hn hnp

theorem timeout_le {a b : Node} (h : a.key ≤ b.key) : a.timeout ≤ b.timeout := by
  rw [Node.key, Node.key, Prod.Lex.toLex_le_toLex] at h
  omega

/-- What is due leaves the heap in its order, and nothing else does. -/
theorem collect_spec (now : ℕ) {k : ℕ} {heap : List Node} (h : MinHeap.Ordered Node.key heap)
    (hk : heap.length ≤ k) :
    ((collect now k heap).1 : Multiset Node) + (collect now k heap).2 = heap ∧
      MinHeap.Ordered Node.key (collect now k heap).2 ∧ (∀ n ∈ (collect now k heap).1, n.timeout ≤ now) ∧
        (∀ n ∈ (collect now k heap).2, now < n.timeout) ∧
          (collect now k heap).1.Pairwise (fun a b => a.key ≤ b.key) := by
  induction k generalizing heap with
  | zero =>
      obtain rfl := List.eq_nil_of_length_eq_zero (Nat.le_zero.mp hk)
      exact ⟨rfl, h, by simp [collect], by simp [collect], .nil⟩
  | succ k ih =>
      rw [collect]
      cases hmin : MinHeap.min heap with
      | none =>
          obtain rfl := MinHeap.min_eq_none.mp hmin
          exact ⟨rfl, h, by simp, by simp, .nil⟩
      | some n =>
          have hleast : ∀ x ∈ heap, n.key ≤ x.key := fun x hx => h.min_le hmin hx
          simp only
          split_ifs with hdue
          · have hperm := MinHeap.remove_perm timerLessThan hmin
            have hlen := hperm.length_eq
            have hpos : 0 < heap.length := (List.getElem?_eq_some_iff.mp hmin).1
            simp only [List.length_cons] at hlen
            obtain ⟨hsum, hord, hready, hrest, hsorted⟩ := ih (h.remove timerLessThan_iff hpos) (by omega)
            refine ⟨?_, hord, List.forall_mem_cons.mpr ⟨hdue, hready⟩, hrest, List.pairwise_cons.mpr ⟨?_, hsorted⟩⟩
            · rw [← Multiset.cons_coe, Multiset.cons_add, hsum, Multiset.cons_coe, Multiset.coe_eq_coe.mpr hperm]
            · intro x hx
              have hmem : x ∈ (MinHeap.remove timerLessThan heap 0 : Multiset Node) :=
                hsum ▸ Multiset.mem_add.mpr (.inl hx)
              exact hleast x (hperm.mem_iff.mp (List.mem_cons_of_mem _ hmem))
          · refine ⟨zero_add _, h, by simp, fun x hx => ?_, .nil⟩
            have hle := timeout_le (hleast x hx)
            omega

def Armed (u : UvScheduler α) (p : ℕ) : Prop := ∃ c : TimerCtx α, u.ctxs[p]? = some c ∧ c.active = true

variable {u : UvScheduler α} {p q : ℕ} {f : TimerCtx α → TimerCtx α}

theorem armed_modify (hf : ∀ c, (f c).active = false) : Armed (u.modifyCtx p f) q ↔ q ≠ p ∧ Armed u q := by
  unfold Armed UvScheduler.modifyCtx
  by_cases h : p = q
  · subst h
    rw [List.getElem?_modify_eq]
    cases u.ctxs[p]? <;> simp [hf]
  · rw [List.getElem?_modify_ne _ _ h]
    simp [Ne.symm h]

theorem armed_modify_same (hf : ∀ c, (f c).active = c.active) : Armed (u.modifyCtx p f) q ↔ Armed u q := by
  unfold Armed UvScheduler.modifyCtx
  by_cases h : p = q
  · subst h
    rw [List.getElem?_modify_eq]
    cases u.ctxs[p]? <;> simp [hf]
  · rw [List.getElem?_modify_ne _ _ h]

theorem armed_removeJob (name : Str) :
    Armed (u.removeJob name) q ↔ Armed u q ∧ u.timers.lookup name ≠ some q := by
  cases hp : u.timers.lookup name with
  | none => simp [Timers.removeJob_none hp]
  | some p =>
      rw [Timers.removeJob_some hp]
      have hmodify := armed_modify (u := u) (p := p) (q := q) (f := TimerCtx.retire) fun _ => rfl
      unfold Armed UvScheduler.modifyCtx at hmodify
      unfold Armed
      simp only at hmodify ⊢
      rw [hmodify, Option.some_inj.ne, ne_comm, and_comm]

theorem armed_install {ctx : TimerCtx α} (hctx : ctx.active = true) :
    Armed (u.install ctx) q ↔ q = u.ctxs.length ∨ Armed u q ∧ u.timers.lookup ctx.name ≠ some q := by
  rw [← armed_removeJob]
  have hlen : (u.removeJob ctx.name).ctxs.length = u.ctxs.length := by
    unfold UvScheduler.removeJob
    split <;> simp [UvScheduler.modifyCtx]
  unfold Armed
  rw [UvScheduler.install, List.getElem?_append, hlen]
  split_ifs with hlt
  · simp [hlt.ne]
  · by_cases hq : q = u.ctxs.length
    · subst hq
      simp [hctx]
    · have hnone : (u.removeJob ctx.name).ctxs[q]? = none := List.getElem?_eq_none (by omega)
      have hone : [ctx][q - u.ctxs.length]? = none := List.getElem?_eq_none (by simp; omega)
      simp [hnone, hone, hq]

theorem armed_oneshotTail : Armed (u.oneshotTail p) q ↔ q ≠ p ∧ Armed u q := by
  have hctxs : (u.oneshotTail p).ctxs = (u.modifyCtx p fun c => c.uvTimerStop.uvClose).ctxs := by
    cases hc : u.ctxs[p]? with
    | none =>
        have hlen := List.getElem?_eq_none_iff.mp hc
        simp [UvScheduler.oneshotTail, hc, UvScheduler.modifyCtx, List.modify_eq_self hlen]
    | some c =>
        rw [Timers.oneshotTail_eq hc]
        split <;> rfl
  have hmodify := armed_modify (u := u) (p := p) (q := q) (f := fun c => c.uvTimerStop.uvClose) fun _ => rfl
  unfold Armed at hmodify ⊢
  rw [hctxs, hmodify]

theorem armed_fire {v : Timers.State α} {c : TimerCtx α} (hs : Timers.Sound v.sched) (hc : v.sched.ctxs[p]? = some c)
    (ha : c.active = true) :
    Armed (Timers.fire v p c).sched q ↔ (q = p ∧ c.interval ≠ 0) ∨ (q ≠ p ∧ Armed v.sched q) := by
  have hself : Armed v.sched p := ⟨c, hc, ha⟩
  have hrearm : Armed (v.sched.modifyCtx p TimerCtx.rearm) q ↔
      (q = p ∧ c.interval ≠ 0) ∨ (q ≠ p ∧ Armed v.sched q) := by
    rcases Timers.rearm_cases hc ha with ⟨h0, heq⟩ | ⟨h0, heq⟩
    · rw [heq]
      by_cases hq : q = p
      · simp [hq, h0, hself]
      · simp [hq]
    · rw [heq, armed_modify fun _ => rfl]
      simp [h0]
  unfold Timers.fire
  split
  · exact hrearm
  · exact hrearm
  · rename_i ho
    have h0 : c.interval = 0 := hs.oneshot p c hc ho
    refine armed_oneshotTail.trans ((and_congr Iff.rfl hrearm).trans ?_)
    simp [h0]
  · exact hrearm

/-- An armed handle has not been closed. -/
def Unclosed (u : UvScheduler α) : Prop :=
  ∀ (p : ℕ) (c : TimerCtx α), u.ctxs[p]? = some c → c.active = true → c.closes = 0

theorem Unclosed.of_ctxs {v : UvScheduler α} (h : Unclosed u) (hv : v.ctxs = u.ctxs) : Unclosed v := by
  rw [Unclosed, hv]
  exact h

theorem Unclosed.modify (h : Unclosed u)
    (hf : ∀ c, (f c).active = true → c.active = true ∧ (f c).closes = c.closes) : Unclosed (u.modifyCtx p f) := by
  intro q c hc ha
  rcases Timers.getElem?_modify_cases hc with ⟨rfl, d, hd, rfl⟩ | ⟨-, hc⟩
  · obtain ⟨hda, hcloses⟩ := hf d ha
    rw [hcloses]
    exact h _ d hd hda
  · exact h q c hc ha

theorem Unclosed.removeJob (h : Unclosed u) (name : Str) : Unclosed (u.removeJob name) := by
  unfold UvScheduler.removeJob
  split
  · exact (h.modify (f := TimerCtx.retire) fun _ ha => by cases ha).of_ctxs rfl
  · exact h

theorem Unclosed.install {ctx : TimerCtx α} (h : Unclosed u) (hctx : ctx.closes = 0) : Unclosed (u.install ctx) := by
  intro q c hc ha
  rcases Timers.getElem?_append_cases hc with hc | ⟨-, rfl⟩
  · exact h.removeJob ctx.name q c hc ha
  · exact hctx

theorem Unclosed.oneshotTail {c : TimerCtx α} (h : Unclosed u) (hc : u.ctxs[p]? = some c) :
    Unclosed (u.oneshotTail p) := by
  have hmodify : Unclosed (u.modifyCtx p fun c => c.uvTimerStop.uvClose) := h.modify fun _ ha => by cases ha
  rw [Timers.oneshotTail_eq hc]
  split
  · exact hmodify.of_ctxs rfl
  · exact hmodify

theorem Unclosed.step {v w : Timers.State α} {l : Timers.Label α} (h : Unclosed v.sched) (hj : Timers.Jobs v)
    (hstep : Timers.step v l = some w) : Unclosed w.sched := by
  cases Timers.step_does hstep with
  | start => exact h.of_ctxs (Timers.start_sched _).1
  | stop =>
      by_cases hst : v.sched.started = true
      · intro q c hc ha
        rw [Timers.stop_inactive hj.sound hst hc] at ha
        cases ha
      · have heq : v.sched.stop = v.sched := by rw [UvScheduler.stop, if_neg hst]
        exact (congrArg Unclosed heq).mpr h
  | addJob name interval callback => exact h.install rfl
  | removeJob name => exact h.removeJob name
  | after callback =>
      have hcounter : Unclosed { v.sched with counter := UvScheduler.nextCounter v.sched.counter } := h.of_ctxs rfl
      exact hcounter.install rfl
  | otherAfter => exact h.of_ctxs rfl
  | fire p c hc ha =>
      have hrearm : Unclosed (v.sched.modifyCtx p TimerCtx.rearm) := by
        rcases Timers.rearm_cases hc ha with ⟨-, heq⟩ | ⟨-, heq⟩
        · rw [heq]
          exact h
        · rw [heq]
          exact h.modify fun _ ha => by cases ha
      have hc' : (v.sched.modifyCtx p TimerCtx.rearm).ctxs[p]? = some c.rearm := by
        simp [UvScheduler.modifyCtx, List.getElem?_modify_eq, hc]
      unfold Timers.fire
      split
      · exact hrearm
      · exact hrearm
      · exact hrearm.oneshotTail hc'
      · exact hrearm
  | timerCb p rest hst => exact h.modify fun _ ha => ⟨ha, rfl⟩
  | oneshotTimerCb p rest hst =>
      cases hc : v.sched.ctxs[p]? with
      | none =>
          have heq : v.sched.oneshotTail p = v.sched := by simp [UvScheduler.oneshotTail, hc]
          exact (congrArg Unclosed heq).mpr h
      | some c => exact h.oneshotTail hc
  | closeCb p c hc hcl hpos => exact h.modify fun _ ha => ⟨ha, rfl⟩

/-- What a step may do to the heap, the queues and the clock, apart from a look into the heap. -/
inductive Changes : State α → State α → Prop
  | timers (s : State α) (v : Timers.State α) : Changes s { s with timers := v }
  | shrinks {s t : State α} {m : Multiset Node} (h : Shrinks s t m) : Changes s t
  | arm (s : State α) (p delay : ℕ) (hp : ∀ n ∈ s.pending, n.p ≠ p) : Changes s (s.arm p delay)
  | counter (s : State α) : Changes s { s with timerCounter := s.timerCounter + 1 }
  | tick (s : State α) (now : ℕ) (h : s.time ≤ now) (hnow : now < 2 ^ 64) : Changes s { s with time := now }
  | pop (s : State α) (depth : ℕ) (n : Node) (rest : List Node) (passes : List Pass)
      (h : s.passes = ⟨depth, n :: rest⟩ :: passes) :
      Changes s { s with passes := ⟨depth, rest⟩ :: passes, events := s.events ++ [.fired n s.time] }
  | endPass (s : State α) (depth : ℕ) (passes : List Pass) (h : s.passes = ⟨depth, []⟩ :: passes) :
      Changes s { s with passes }

structure Inv (s : State α) : Prop extends Waiting s where
  jobs : Timers.Jobs s.timers
  unclosed : Unclosed s.sched
  /-- An armed timer waits, and nothing else does. -/
  agree : ∀ p, Armed s.sched p ↔ ∃ n ∈ s.pending, n.p = p

open Relation (ReflTransGen)

/-- A step keeps the invariant, it is a step of the timers or none at all, and it is made of changes of
the loop. -/
structure Good (s t : State α) : Prop where
  inv : Inv t
  refines : t.timers = s.timers ∨ ∃ k, Timers.step s.timers k = some t.timers
  changes : ReflTransGen Changes s t

theorem Inv.good {k : Timers.Label α} (h : Inv s) (hw : Waiting t) (hpath : ReflTransGen Changes s t)
    (hk : Timers.step s.timers k = some t.timers)
    (hagree : ∀ p, Armed t.sched p ↔ ∃ n ∈ t.pending, n.p = p) : Good s t where
  inv := { hw with
    jobs := (h.jobs.step hk).1
    unclosed := h.unclosed.step h.jobs hk
    agree := hagree }
  refines := .inr ⟨k, hk⟩
  changes := hpath

/-- Only the scheduler changes. -/
theorem Inv.good_timers {k : Timers.Label α} {v : Timers.State α} (h : Inv s)
    (hk : Timers.step s.timers k = some v) (harmed : ∀ p, Armed v.sched p ↔ Armed s.sched p) :
    Good s { s with timers := v } :=
  h.good ⟨h.heap, h.distinct⟩ (.single (.timers s v)) hk fun p => (harmed p).trans (h.agree p)

/-- Only the loop changes, and nothing leaves the timers that wait. -/
theorem Inv.good_loop (h : Inv s) (hc : Changes s t) (ht : t.timers = s.timers) (hheap : t.heap = s.heap)
    (hpending : t.pending = s.pending) : Good s t where
  inv := {
    heap := hheap ▸ h.heap
    distinct := hpending ▸ h.distinct
    jobs := ht ▸ h.jobs
    unclosed := by
      rw [State.sched, ht]
      exact h.unclosed
    agree := by
      rw [State.sched, ht, hpending]
      exact h.agree }
  refines := .inl ht
  changes := .single hc

theorem Waiting.uvTimerStop_absent (h : Waiting s) {p : ℕ} (hp : ∀ n ∈ s.pending, n.p ≠ p) :
    Shrinks s (s.uvTimerStop p) 0 ∧ (s.uvTimerStop p).pending = s.pending := by
  obtain ⟨hshrinks, hpending⟩ := h.uvTimerStop p
  rw [Multiset.filter_eq_nil.mpr hp] at hshrinks
  rw [Multiset.filter_eq_self.mpr hp] at hpending
  exact ⟨hshrinks, hpending⟩

/-- `uv_timer_start` with a handle that does not wait and is not closed. -/
theorem Waiting.uvTimerStart (h : Waiting s) {p : ℕ} (hp : ∀ n ∈ s.pending, n.p ≠ p)
    (hopen : s.isClosing p = false) (delay : ℕ) :
    Waiting (s.uvTimerStart p delay) ∧ (∃ n : Node, n.p = p ∧ (s.uvTimerStart p delay).pending = n ::ₘ s.pending) ∧
      (s.uvTimerStart p delay).timers = s.timers ∧ ReflTransGen Changes s (s.uvTimerStart p delay) := by
  obtain ⟨hshrinks, hpending⟩ := h.uvTimerStop_absent hp
  have hp' : ∀ n ∈ (s.uvTimerStop p).pending, n.p ≠ p := hpending ▸ hp
  obtain ⟨hw, harm⟩ := (h.shrinks hshrinks).arm hp' delay
  rw [State.uvTimerStart, hopen]
  exact ⟨hw, ⟨_, rfl, hpending ▸ harm⟩, hshrinks.timers, .tail (.single (.shrinks hshrinks)) (.arm _ p delay hp')⟩

/-- `remove_job` on the handle of a job. -/
theorem Inv.stopJob (h : Inv s) (name : Str) :
    Waiting (s.stopJob name) ∧ (s.stopJob name).timers = s.timers ∧ ReflTransGen Changes s (s.stopJob name) ∧
      ∀ n, n ∈ (s.stopJob name).pending ↔ n ∈ s.pending ∧ s.sched.timers.lookup name ≠ some n.p := by
  cases hp : s.sched.timers.lookup name with
  | none =>
      have heq : s.stopJob name = s := by simp [State.stopJob, hp]
      rw [heq]
      exact ⟨h.toWaiting, rfl, .refl, by simp⟩
  | some p =>
      have heq : s.stopJob name = s.uvTimerStop p := by simp [State.stopJob, hp]
      obtain ⟨hshrinks, hpending⟩ := h.uvTimerStop p
      rw [heq]
      refine ⟨h.shrinks hshrinks, hshrinks.timers, .single (.shrinks hshrinks), fun n => ?_⟩
      rw [hpending, Multiset.mem_filter, Option.some_inj.ne, ne_comm]

/-- `add_job` and `after`: the job of that name is stopped, a new handle comes behind all others and is
started. -/
theorem Inv.good_install (h : Inv s) {k : Timers.Label α} {v : Timers.State α} (ctx : TimerCtx α) (delay : ℕ)
    (hk : Timers.step s.timers k = some v) (hctxs : v.sched.ctxs = (s.sched.install ctx).ctxs)
    (hactive : ctx.active = true) (hcloses : ctx.closes = 0) :
    Good s ({ s.stopJob ctx.name with timers := v }.uvTimerStart s.sched.ctxs.length delay) := by
  obtain ⟨hw, -, hpath, hmem⟩ := h.stopJob ctx.name
  set u : State α := { s.stopJob ctx.name with timers := v } with hu
  have hwu : Waiting u := ⟨hw.heap, hw.distinct⟩
  have hpu : ∀ n, n ∈ u.pending ↔ n ∈ s.pending ∧ s.sched.timers.lookup ctx.name ≠ some n.p := hmem
  have hnew : ∀ n ∈ u.pending, n.p ≠ s.sched.ctxs.length := by
    intro n hn
    obtain ⟨c, hc, -⟩ := (h.agree n.p).mpr ⟨n, ((hpu n).mp hn).1, rfl⟩
    exact (List.getElem?_eq_some_iff.mp hc).1.ne
  have hlen : (s.sched.removeJob ctx.name).ctxs.length = s.sched.ctxs.length := by
    unfold UvScheduler.removeJob
    split <;> simp [UvScheduler.modifyCtx]
  have hopen : u.isClosing s.sched.ctxs.length = false := by
    have hget : v.sched.ctxs[s.sched.ctxs.length]? = some ctx := by
      rw [hctxs, UvScheduler.install, ← hlen]
      simp
    change (v.sched.ctxs[s.sched.ctxs.length]?).any (0 < ·.closes) = false
    rw [hget]
    simp [hcloses]
  obtain ⟨hwt, ⟨n, hnp, hpt⟩, hsame, hpath'⟩ := hwu.uvTimerStart hnew hopen delay
  have htimers : (u.uvTimerStart s.sched.ctxs.length delay).timers = v := hsame
  refine h.good hwt ((hpath.tail (.timers _ v)).trans hpath') (htimers.symm ▸ hk) fun p => ?_
  have harmed : Armed (u.uvTimerStart s.sched.ctxs.length delay).sched p ↔ Armed (s.sched.install ctx) p := by
    unfold Armed
    rw [State.sched, htimers, hctxs]
  rw [harmed, armed_install hactive, hpt, h.agree]
  simp only [Multiset.mem_cons, hpu]
  constructor
  · rintro (rfl | ⟨⟨m, hm, rfl⟩, hlookup⟩)
    · exact ⟨n, .inl rfl, hnp⟩
    · exact ⟨m, .inr ⟨hm, hlookup⟩, rfl⟩
  · rintro ⟨m, rfl | ⟨hm, hlookup⟩, rfl⟩
    · exact .inl hnp
    · exact .inr ⟨⟨m, hm, rfl⟩, hlookup⟩

theorem Inv.good_stop (h : Inv s) {t : State α} (hstep : step s .stop = some t) : Good s t := by
  obtain rfl := Option.some.inj hstep
  by_cases hst : s.sched.started = true
  · obtain ⟨m, hm, hnone⟩ := h.toWaiting.stopAll s.sched.timers.entries
    rw [if_pos hst]
    set u := s.sched.timers.entries.foldl (fun s e => s.uvTimerStop e.2) s with hu
    have hk : Timers.step s.timers .stop = some (u.withSched UvScheduler.stop).timers := by
      rw [State.withSched, hm.timers]
      rfl
    have hw := h.toWaiting.shrinks hm
    refine h.good ⟨hw.heap, hw.distinct⟩ (.tail (.single (.shrinks hm)) (.timers _ _)) hk fun p => ?_
    have hsched : (u.withSched UvScheduler.stop).sched = s.sched.stop := by
      rw [State.withSched, State.sched, hm.timers]
      rfl
    rw [hsched]
    refine iff_of_false ?_ ?_
    · rintro ⟨c, hc, ha⟩
      rw [Timers.stop_inactive h.jobs.sound hst hc] at ha
      cases ha
    · rintro ⟨n, hn, -⟩
      have hs : n ∈ s.pending := by
        rw [hm.pending]
        exact Multiset.mem_add.mpr (.inl hn)
      obtain ⟨c, hc, ha⟩ := (h.agree n.p).mpr ⟨n, hs, rfl⟩
      have hreg := h.jobs.sound.armed n.p c hc ha
      exact hnone n hn ⟨c.name, n.p⟩ (AList.mem_lookup_iff.mp hreg) rfl
  · rw [if_neg hst]
    refine h.good_timers (k := .stop) rfl fun p => ?_
    have heq : s.sched.stop = s.sched := by rw [UvScheduler.stop, if_neg hst]
    exact (congrArg (Armed · p) heq).to_iff

theorem Inv.good_fire (h : Inv s) {t : State α} (hstep : step s .fire = some t) : Good s t := by
  simp only [step] at hstep
  split at hstep
  · rename_i depth n rest passes hpasses
    simp only [Option.ite_none_right_eq_some, Option.map_eq_some_iff] at hstep
    obtain ⟨-, c, hc, rfl⟩ := hstep
    set u : State α :=
      { s with passes := ⟨depth, rest⟩ :: passes, events := s.events ++ [Event.fired n s.time] } with hu
    have hsplit : s.pending = n ::ₘ u.pending := by
      simp only [State.pending, State.ready, hpasses, hu, List.flatMap_cons, List.cons_append,
        ← Multiset.cons_coe, Multiset.add_cons]
    have hd := h.distinct
    rw [hsplit, Multiset.map_cons, Multiset.nodup_cons] at hd
    have hwu : Waiting u := ⟨h.heap, hd.2⟩
    have habsent : ∀ m ∈ u.pending, m.p ≠ n.p := fun m hm heq => hd.1 (heq ▸ Multiset.mem_map_of_mem Node.p hm)
    have ha : c.active = true := by
      obtain ⟨c', hc', ha⟩ := (h.agree n.p).mpr ⟨n, hsplit ▸ Multiset.mem_cons_self _ _, rfl⟩
      obtain rfl := Option.some.inj (hc.symm.trans hc')
      exact ha
    have hk : Timers.step s.timers (.fire n.p) = some (Timers.fire s.timers n.p c) := by
      have hc' : s.timers.sched.ctxs[n.p]? = some c := hc
      simp only [Timers.step, hc', ha, if_true]
    have hpop : ReflTransGen Changes s u := .single (.pop s depth n rest passes hpasses)
    have hagain : ∀ v : State α, Waiting v → ReflTransGen Changes s v →
        (∀ q, (∃ m ∈ v.pending, m.p = q) ↔ (q = n.p ∧ c.interval ≠ 0) ∨ ∃ m ∈ u.pending, m.p = q) →
        Good s { v with timers := Timers.fire s.timers n.p c } := by
      intro v hv hpath hpending
      refine h.good ⟨hv.heap, hv.distinct⟩ (hpath.tail (.timers v _)) hk fun q => ?_
      refine (armed_fire h.jobs.sound hc ha).trans (Iff.trans ?_ (hpending q).symm)
      refine or_congr_right ⟨?_, ?_⟩
      · rintro ⟨hq, harmed⟩
        obtain ⟨m, hm, rfl⟩ := (h.agree q).mp harmed
        rw [hsplit, Multiset.mem_cons] at hm
        exact ⟨m, hm.resolve_left fun heq => hq (congrArg Node.p heq), rfl⟩
      · rintro ⟨m, hm, rfl⟩
        exact ⟨habsent m hm, (h.agree m.p).mpr ⟨m, hsplit ▸ Multiset.mem_cons_of_mem hm, rfl⟩⟩
    unfold State.call State.timerCb State.uvTimerAgain
    obtain ⟨hshrinks, hsame⟩ := hwu.uvTimerStop_absent habsent
    by_cases h0 : c.interval = 0
    · rw [if_pos h0]
      by_cases hone : (c.oneshot && c.callback.isNone) = true
      · rw [if_pos hone]
        refine hagain _ (hwu.shrinks hshrinks) (hpop.tail (.shrinks hshrinks)) fun q => ?_
        rw [hsame]
        simp [h0]
      · rw [if_neg hone]
        exact hagain u hwu hpop fun q => by simp [h0]
    · have hone : ¬(c.oneshot && c.callback.isNone) = true := by
        intro hone
        exact h0 (h.jobs.sound.oneshot n.p c hc (Bool.and_eq_true_iff.mp hone).1)
      rw [if_neg h0, if_neg hone]
      have hopen : (u.uvTimerStop n.p).isClosing n.p = false := by
        have hget : (u.uvTimerStop n.p).sched.ctxs[n.p]? = some c := by
          rw [State.sched, hshrinks.timers]
          exact hc
        rw [State.isClosing, hget]
        simp [h.unclosed n.p c hc ha]
      obtain ⟨hw, ⟨m, hm, hpending⟩, -, hpath⟩ :=
        (hwu.shrinks hshrinks).uvTimerStart (hsame ▸ habsent) hopen c.interval
      refine hagain _ hw ((hpop.tail (.shrinks hshrinks)).trans hpath) fun q => ?_
      rw [hpending, hsame]
      simp only [Multiset.mem_cons, exists_eq_or_imp, hm]
      refine or_congr_left ?_
      simp [h0, eq_comm]
  · cases hstep

theorem Inv.good_ret (h : Inv s) {t : State α} (hstep : step s .ret = some t) : Good s t := by
  simp only [step, Option.ite_none_right_eq_some] at hstep
  obtain ⟨-, hstep⟩ := hstep
  split at hstep
  · rename_i p rest hst
    obtain rfl := Option.some.inj hstep
    have hk : Timers.step s.timers .ret =
        some { sched := s.sched.modifyCtx p TimerCtx.touch, stack := rest } := by
      simp only [Timers.step, hst]
      rfl
    exact h.good_timers hk fun q => armed_modify_same fun _ => rfl
  · rename_i p rest hst
    obtain rfl := Option.some.inj hstep
    have hk : Timers.step s.timers .ret = some { sched := s.sched.oneshotTail p, stack := rest } := by
      simp only [Timers.step, hst]
      rfl
    obtain ⟨hshrinks, hpending⟩ := h.uvTimerStop p
    have hw := h.toWaiting.shrinks hshrinks
    refine h.good ⟨hw.heap, hw.distinct⟩ (.tail (.single (.shrinks hshrinks)) (.timers _ _)) hk fun q => ?_
    have hmem : (∃ n ∈ (s.uvTimerStop p).pending, n.p = q) ↔ q ≠ p ∧ ∃ n ∈ s.pending, n.p = q := by
      rw [hpending]
      simp only [Multiset.mem_filter]
      constructor
      · rintro ⟨n, ⟨hn, hne⟩, rfl⟩
        exact ⟨hne, n, hn, rfl⟩
      · rintro ⟨hne, n, hn, rfl⟩
        exact ⟨n, ⟨hn, hne⟩, rfl⟩
    exact (armed_oneshotTail.trans (and_congr_right' (h.agree q))).trans hmem.symm
  · cases hstep

theorem Waiting.collects (h : Waiting s) : Waiting s.collects ∧ s.collects.pending = s.pending := by
  obtain ⟨hsum, hord, -, -, -⟩ := collect_spec s.time h.heap le_rfl
  have hpending : s.collects.pending = s.pending := by
    rw [State.pending, State.pending, ← hsum]
    simp only [State.collects, State.ready, List.flatMap_cons, ← Multiset.coe_add]
    abel
  exact ⟨⟨hord, hpending ▸ h.distinct⟩, hpending⟩

theorem install_counter (n : ℤ) (ctx : TimerCtx α) :
    ({ u with counter := n }.install ctx).ctxs = (u.install ctx).ctxs := by
  unfold UvScheduler.install UvScheduler.removeJob
  cases u.timers.lookup ctx.name <;> simp [UvScheduler.modifyCtx]

/-- What each step is. -/
theorem Inv.step (h : Inv s) {l : Label α} (hstep : step s l = some t) :
    Good s t ∨ l = .runTimers ∧ t = s.collects ∧ Inv t := by
  cases l with
  | start =>
      obtain rfl := Option.some.inj hstep
      refine .inl (h.good_timers (k := .start) rfl fun p => ?_)
      rw [Armed, Armed, Timers.State.withSched, (Timers.start_sched _).1]
      rfl
  | stop => exact .inl (h.good_stop hstep)
  | addJob name interval callback =>
      obtain rfl := Option.some.inj hstep
      have htimers := (h.stopJob name).2.1
      refine .inl ?_
      have hgood := h.good_install (k := .addJob name interval callback)
        { name, callback, oneshot := false, interval } interval rfl rfl rfl rfl
      rw [← htimers] at hgood
      exact hgood
  | removeJob name =>
      obtain rfl := Option.some.inj hstep
      obtain ⟨hw, htimers, hpath, hmem⟩ := h.stopJob name
      refine .inl (h.good (k := .removeJob name) ⟨hw.heap, hw.distinct⟩ (hpath.tail (.timers _ _)) ?_ fun p => ?_)
      · rw [State.withSched, htimers]
        rfl
      · have hsched : ((s.stopJob name).withSched (·.removeJob name)).sched = s.sched.removeJob name := by
          rw [State.withSched, State.sched, htimers]
          rfl
        rw [hsched, armed_removeJob, h.agree]
        constructor
        · rintro ⟨⟨n, hn, rfl⟩, hlookup⟩
          exact ⟨n, (hmem n).mpr ⟨hn, hlookup⟩, rfl⟩
        · rintro ⟨n, hn, rfl⟩
          obtain ⟨hn, hlookup⟩ := (hmem n).mp hn
          exact ⟨⟨n, hn, rfl⟩, hlookup⟩
  | after delay callback =>
      obtain rfl := Option.some.inj hstep
      have htimers := (h.stopJob (UvScheduler.afterName (UvScheduler.nextCounter s.sched.counter))).2.1
      refine .inl ?_
      have hgood := h.good_install (k := .after callback)
        { name := UvScheduler.afterName (UvScheduler.nextCounter s.sched.counter), callback, oneshot := true,
          interval := 0 } delay rfl (install_counter _ _) rfl rfl
      rw [← htimers] at hgood
      exact hgood
  | otherAfter =>
      obtain rfl := Option.some.inj hstep
      exact .inl (h.good (k := .otherAfter) ⟨h.heap, h.distinct⟩ (.tail (.single (.timers s _)) (.counter _)) rfl
        fun p => h.agree p)
  | updateTime now =>
      simp only [EventLoop.step, Option.ite_none_right_eq_some, Option.some.injEq] at hstep
      obtain ⟨⟨hle, hnow⟩, rfl⟩ := hstep
      exact .inl (h.good_loop (.tick s now hle hnow) rfl rfl rfl)
  | runTimers =>
      simp only [EventLoop.step, Option.ite_none_right_eq_some, Option.some.injEq] at hstep
      obtain ⟨-, rfl⟩ := hstep
      obtain ⟨hw, hpending⟩ := h.toWaiting.collects
      exact .inr ⟨rfl, rfl, { hw with
        jobs := h.jobs
        unclosed := h.unclosed
        agree := fun p => by
          have hagree := h.agree p
          rw [← hpending] at hagree
          exact hagree }⟩
  | fire => exact .inl (h.good_fire hstep)
  | endTimers =>
      simp only [EventLoop.step] at hstep
      split at hstep
      · rename_i depth passes hpasses
        simp only [Option.ite_none_right_eq_some, Option.some.injEq] at hstep
        obtain ⟨-, rfl⟩ := hstep
        refine .inl (h.good_loop (.endPass s depth passes hpasses) rfl rfl ?_)
        simp only [State.pending, State.ready, hpasses, List.flatMap_cons, List.nil_append]
      · cases hstep
  | ret => exact .inl (h.good_ret hstep)
  | closeCb p =>
      obtain ⟨v, hv, rfl⟩ := Option.map_eq_some_iff.mp hstep
      refine .inl (h.good_timers hv fun q => ?_)
      cases Timers.step_does hv with
      | closeCb p c hc hcl hpos => exact armed_modify_same fun _ => rfl

/-- The state of a loop that has no timer of the scheduler yet. -/
def init (n : ℤ) (time counter : ℕ) : State α := { timers := Timers.fresh n, time, timerCounter := counter }

theorem init_inv (n : ℤ) (time counter : ℕ) : Inv (init n time counter : State α) where
  heap := fun j x y _ hx _ => by simp [init] at hx
  distinct := by simp [init, State.pending, State.ready]
  jobs := Timers.jobs_fresh n
  unclosed := fun p c hc => by simp [init, State.sched, Timers.fresh] at hc
  agree := fun p => by simp [init, State.pending, State.ready, Armed, State.sched, Timers.fresh]

theorem step_inv (s : State α) (l : Label α) (t : State α) (h : Inv s) (hstep : step s l = some t) : Inv t := by
  rcases h.step hstep with hgood | ⟨-, -, hinv⟩
  · exact hgood.inv
  · exact hinv

theorem run_timers {ls : List (Label α)} (h : Inv s) (hr : Transition.run step s ls = some t) :
    Inv t ∧ ∃ ks, Transition.run Timers.step s.timers ks = some t.timers := by
  refine Transition.run_invariant (I := fun u => Inv u ∧ ∃ ks, Transition.run Timers.step s.timers ks = some u.timers)
    (fun u l v hu hv => ?_) ⟨h, [], rfl⟩ hr
  obtain ⟨hinv, ks, hks⟩ := hu
  rcases hinv.step hv with hgood | ⟨-, rfl, hcollects⟩
  · refine ⟨hgood.inv, ?_⟩
    rcases hgood.refines with heq | ⟨k, hk⟩
    · exact ⟨ks, heq ▸ hks⟩
    · exact ⟨ks ++ [k], Transition.run_append.mpr ⟨_, hks, Transition.run_cons.mpr ⟨_, hk, rfl⟩⟩⟩
  · exact ⟨hcollects, ks, hks⟩

/-- A run of the loop is a run of the timers, the armed timers are those that wait, and the timer that
comes next in a queue is a job that `timers_` holds and can be called. -/
theorem loop_refines {n : ℤ} {time counter : ℕ} {ls : List (Label α)} {s : State α}
    (hr : Transition.run step (init n time counter) ls = some s) :
    (∃ ks, Transition.run Timers.step (Timers.fresh n) ks = some s.timers) ∧
      (∀ p, Armed s.sched p ↔ ∃ m ∈ s.pending, m.p = p) ∧
        ∀ (depth : ℕ) (m : Node) (rest : List Node) (passes : List Pass),
          s.passes = ⟨depth, m :: rest⟩ :: passes → s.timers.stack.length = depth →
            ∃ (c : TimerCtx α) (t : State α), s.sched.ctxs[m.p]? = some c ∧
              s.sched.timers.lookup c.name = some m.p ∧ step s .fire = some t ∧
                t.timers = Timers.fire s.timers m.p c := by
  obtain ⟨hinv, hks⟩ := run_timers (init_inv n time counter) hr
  refine ⟨hks, hinv.agree, fun depth m rest passes hpasses hdepth => ?_⟩
  have hm : m ∈ s.pending := by simp [State.pending, State.ready, hpasses]
  obtain ⟨c, hc, ha⟩ := (hinv.agree m.p).mpr ⟨m, hm, rfl⟩
  have hstep : step s .fire = some ({ s with
      passes := ⟨depth, rest⟩ :: passes
      events := s.events ++ [Event.fired m s.time] }.call m.p c) := by
    simp only [step, hpasses, hdepth, if_true, hc, Option.map_some]
  exact ⟨c, _, hc, hinv.jobs.sound.armed m.p c hc ha, hstep, rfl⟩

/-- Two jobs are due at once; the callback of the first one removes the second. -/
def removing : List (Label ℕ) :=
  [.start, .addJob (str "a") 5 (some 1), .addJob (str "b") 5 (some 2), .after 5 (some 3), .updateTime 107,
    .runTimers, .fire, .removeJob (str "b"), .ret]

theorem loop_refines_removing : ∃ s : State ℕ,
    Transition.run step (init 0 100 7) removing = some s ∧ s.ready = [⟨2, 105, 9⟩] ∧ s.heap = [⟨0, 112, 10⟩] ∧
      ∃ ks, Transition.run Timers.step (Timers.fresh 0) ks = some s.timers :=
  ⟨_, rfl, rfl, rfl, (@loop_refines ℕ 0 100 7 removing _ rfl).1⟩

end LynneSocial.EventLoop
