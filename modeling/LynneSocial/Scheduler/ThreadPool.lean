import LynneSocial.Lib.Transition
import Mathlib.Data.Int.Basic
import Mathlib.Algebra.Order.Group.Multiset
import Mathlib.Data.Multiset.Range
import Mathlib.Tactic.Abel

/-!
# The thread pool

`uv_queue_work` puts a request into `wq`, a worker takes it out, runs it and
puts it into the queue of the loop, and the loop calls back from
`uv__work_done`. A worker that finds `wq` empty waits on a condition variable,
and `post` signals it only if a worker is idle. A worker is idle from before it
waits until it has the mutex again, so a signal may also be sent when nobody
waits any more; then it is lost.

The sections under a mutex are one step each. Wakeups without a reason are
steps too, and a callback may run the loop again, so that calls of
`uv__work_done` form a stack.

A request carries data which its work changes, with an outcome that the step
chooses, and which is read when it is done.
-/
namespace LynneSocial.ThreadPool

/-- Where a worker thread is. -/
inductive Worker where
  /-- It is about to lock `mutex`. -/
  | looking
  /-- Inside `uv_cond_wait`. -/
  | waiting
  /-- Woken inside `uv_cond_wait`, about to lock `mutex` again. -/
  | woken
  | running (p : ℕ)
  /-- The work is back, and the worker is about to lock `wq_mutex`. -/
  | finishing (p : ℕ)
deriving DecidableEq

/-- A call of `uv__work_done` that is not back. -/
inductive Frame where
  /-- The swap comes next. -/
  | awoken
  | draining (rest : List ℕ)
  | running (p : ℕ) (rest : List ℕ)

variable {ρ ο : Type}

inductive Event (ρ ο : Type) where
  | queued (p : ℕ) (data : ρ)
  /-- A worker takes the request and calls its work. -/
  | taken (p : ℕ)
  | worked (p : ℕ) (outcome : ο)
  /-- The loop calls back, and this is what the callback finds. -/
  | done (p : ℕ) (data : ρ)
  | deleted (p : ℕ)

def Event.request : Event ρ ο → ℕ
  | queued p _ | taken p | worked p _ | done p _ | deleted p => p

structure State (ρ ο : Type) where
  workers : List Worker
  wq : List ℕ := []
  idleThreads : ℕ := 0
  /-- `wq` of the loop. -/
  loopWq : List ℕ := []
  /-- The pending flag of `wq_async`. -/
  asyncPending : Bool := false
  activeReqs : ℕ := 0
  stack : List Frame := []
  /-- The data of every request so far; an address is an index. -/
  data : List ρ := []
  deleted : List ℕ := []
  events : List (Event ρ ο) := []

inductive Label (ρ ο : Type) where
  /-- `uv_queue_work`, and which worker a signal reaches. -/
  | queue (data : ρ) (signalled : Option ℕ)
  | spurious (i : ℕ)
  | look (i : ℕ)
  | workReturns (i : ℕ) (outcome : ο)
  | publish (i : ℕ)
  | wake
  | swap
  | call
  | ret
  | finish

/-- A step of the workers or of the loop that is not a spurious wakeup. -/
def Label.internal : Label ρ ο → Bool
  | queue _ _ | spurious _ => false
  | _ => true

/-- `init_threads`: the number of workers, where `UV_THREADPOOL_SIZE` may be set; what `atoi` makes of
it is put into an `unsigned int`. -/
def threadCount (size : Option ℤ) : ℕ :=
  let n := match size with
    | none => 4
    | some n => (n % 2 ^ 32).toNat
  if n = 0 then 1 else min n 1024

def init (size : Option ℤ) : State ρ ο := { workers := List.replicate (threadCount size) .looking }

namespace State

/-- `uv_cond_signal` wakes a thread that waits, if there is one. -/
def condSignal (s : State ρ ο) : Option ℕ → Option (State ρ ο)
  | some i => if s.workers[i]? = some .waiting then some { s with workers := s.workers.set i .woken } else none
  | none => if Worker.waiting ∈ s.workers then none else some s

/-- What a worker does that has locked `mutex`. -/
def next (s : State ρ ο) (i : ℕ) : State ρ ο :=
  match s.wq with
  | [] => { s with workers := s.workers.set i .waiting, idleThreads := s.idleThreads + 1 }
  | p :: rest =>
    { s with workers := s.workers.set i (.running p), wq := rest, events := s.events ++ [.taken p] }

/-- The loop runs outside the callbacks of `uv__work_done` or is run by one of them. -/
def polls (s : State ρ ο) : Bool :=
  match s.stack with
  | [] | .running _ _ :: _ => true
  | _ => false

end State

variable (work : ο → ρ → ρ)

def step (s : State ρ ο) : Label ρ ο → Option (State ρ ο)
  | .queue data signalled =>
    let p := s.data.length
    let t := { s with
      activeReqs := s.activeReqs + 1
      data := s.data ++ [data]
      wq := s.wq ++ [p]
      events := s.events ++ [.queued p data] }
    if 0 < s.idleThreads then t.condSignal signalled else some t
  | .spurious i =>
    if s.workers[i]? = some .waiting then some { s with workers := s.workers.set i .woken } else none
  | .look i =>
    match s.workers[i]? with
    | some .looking => some (s.next i)
    | some .woken => some ({ s with idleThreads := s.idleThreads - 1 }.next i)
    | _ => none
  | .workReturns i outcome =>
    match s.workers[i]? with
    | some (.running p) =>
      some { s with
        workers := s.workers.set i (.finishing p)
        data := s.data.modify p (work outcome)
        events := s.events ++ [.worked p outcome] }
    | _ => none
  | .publish i =>
    match s.workers[i]? with
    | some (.finishing p) =>
      some { s with
        workers := s.workers.set i .looking
        loopWq := s.loopWq ++ [p]
        asyncPending := true }
    | _ => none
  | .wake =>
    if s.polls && s.asyncPending then
      some { s with asyncPending := false, stack := .awoken :: s.stack }
    else none
  | .swap =>
    match s.stack with
    | .awoken :: rest => some { s with loopWq := [], stack := .draining s.loopWq :: rest }
    | _ => none
  | .call =>
    match s.stack with
    | .draining (p :: ps) :: rest =>
      (s.data[p]?).map fun data =>
        { s with
          activeReqs := s.activeReqs - 1
          stack := .running p ps :: rest
          events := s.events ++ [.done p data] }
    | _ => none
  | .ret =>
    match s.stack with
    | .running p ps :: rest =>
      some { s with
        stack := .draining ps :: rest
        deleted := s.deleted ++ [p]
        events := s.events ++ [.deleted p] }
    | _ => none
  | .finish =>
    match s.stack with
    | .draining [] :: rest => some { s with stack := rest }
    | _ => none

section
variable {work}

/-- What each step does, and when it can be taken. -/
inductive Does (work : ο → ρ → ρ) (s : State ρ ο) : Label ρ ο → State ρ ο → Prop
  | queue (data : ρ) (signalled : Option ℕ) (workers : List Worker)
      (h : workers = s.workers ∧ (s.idleThreads = 0 ∨ Worker.waiting ∉ s.workers) ∨
        ∃ i, s.workers[i]? = some .waiting ∧ workers = s.workers.set i .woken) :
      Does work s (.queue data signalled) { s with
        workers := workers
        activeReqs := s.activeReqs + 1
        data := s.data ++ [data]
        wq := s.wq ++ [s.data.length]
        events := s.events ++ [.queued s.data.length data] }
  | spurious (i : ℕ) (h : s.workers[i]? = some .waiting) :
      Does work s (.spurious i) { s with workers := s.workers.set i .woken }
  | look (i : ℕ) (h : s.workers[i]? = some .looking) : Does work s (.look i) (s.next i)
  | lookAgain (i : ℕ) (h : s.workers[i]? = some .woken) :
      Does work s (.look i) ({ s with idleThreads := s.idleThreads - 1 }.next i)
  | workReturns (i p : ℕ) (outcome : ο) (h : s.workers[i]? = some (.running p)) :
      Does work s (.workReturns i outcome) { s with
        workers := s.workers.set i (.finishing p)
        data := s.data.modify p (work outcome)
        events := s.events ++ [.worked p outcome] }
  | publish (i p : ℕ) (h : s.workers[i]? = some (.finishing p)) :
      Does work s (.publish i) { s with
        workers := s.workers.set i .looking
        loopWq := s.loopWq ++ [p]
        asyncPending := true }
  | wake (hpolls : s.polls = true) (hpending : s.asyncPending = true) :
      Does work s .wake { s with asyncPending := false, stack := .awoken :: s.stack }
  | swap (rest : List Frame) (h : s.stack = .awoken :: rest) :
      Does work s .swap { s with loopWq := [], stack := .draining s.loopWq :: rest }
  | call (p : ℕ) (ps : List ℕ) (rest : List Frame) (data : ρ) (h : s.stack = .draining (p :: ps) :: rest)
      (hdata : s.data[p]? = some data) :
      Does work s .call { s with
        activeReqs := s.activeReqs - 1
        stack := .running p ps :: rest
        events := s.events ++ [.done p data] }
  | ret (p : ℕ) (ps : List ℕ) (rest : List Frame) (h : s.stack = .running p ps :: rest) :
      Does work s .ret { s with
        stack := .draining ps :: rest
        deleted := s.deleted ++ [p]
        events := s.events ++ [.deleted p] }
  | finish (rest : List Frame) (h : s.stack = .draining [] :: rest) :
      Does work s .finish { s with stack := rest }

theorem step_does {s t : State ρ ο} {l : Label ρ ο} (hstep : step work s l = some t) : Does work s l t := by
  cases l with
  | queue data signalled =>
      simp only [step] at hstep
      split_ifs at hstep with hidle
      · cases signalled with
        | some i =>
            simp only [State.condSignal, Option.ite_none_right_eq_some, Option.some.injEq] at hstep
            obtain ⟨hi, rfl⟩ := hstep
            exact .queue data _ _ (.inr ⟨i, hi, rfl⟩)
        | none =>
            simp only [State.condSignal, Option.ite_none_left_eq_some, Option.some.injEq] at hstep
            obtain ⟨hnone, rfl⟩ := hstep
            exact .queue data _ _ (.inl ⟨rfl, .inr hnone⟩)
      · obtain rfl := Option.some.inj hstep
        exact .queue data _ _ (.inl ⟨rfl, .inl (by omega)⟩)
  | spurious i =>
      simp only [step, Option.ite_none_right_eq_some, Option.some.injEq] at hstep
      obtain ⟨hi, rfl⟩ := hstep
      exact .spurious i hi
  | look i =>
      simp only [step] at hstep
      split at hstep
      · rename_i hi
        exact Option.some.inj hstep ▸ .look i hi
      · rename_i hi
        exact Option.some.inj hstep ▸ .lookAgain i hi
      · cases hstep
  | workReturns i outcome =>
      simp only [step] at hstep
      split at hstep
      · rename_i p hi
        exact Option.some.inj hstep ▸ .workReturns i p outcome hi
      · cases hstep
  | publish i =>
      simp only [step] at hstep
      split at hstep
      · rename_i p hi
        exact Option.some.inj hstep ▸ .publish i p hi
      · cases hstep
  | wake =>
      simp only [step, Option.ite_none_right_eq_some, Option.some.injEq, Bool.and_eq_true] at hstep
      obtain ⟨⟨hpolls, hpending⟩, rfl⟩ := hstep
      exact .wake hpolls hpending
  | swap =>
      simp only [step] at hstep
      split at hstep
      · rename_i rest hst
        exact Option.some.inj hstep ▸ .swap rest hst
      · cases hstep
  | call =>
      simp only [step] at hstep
      split at hstep
      · rename_i p ps rest hst
        obtain ⟨data, hdata, rfl⟩ := Option.map_eq_some_iff.mp hstep
        exact .call p ps rest data hst hdata
      · cases hstep
  | ret =>
      simp only [step] at hstep
      split at hstep
      · rename_i p ps rest hst
        exact Option.some.inj hstep ▸ .ret p ps rest hst
      · cases hstep
  | finish =>
      simp only [step] at hstep
      split at hstep
      · rename_i rest hst
        exact Option.some.inj hstep ▸ .finish rest hst
      · cases hstep

end

/-- The life of a request: what happens to it, and the data it has then. -/
inductive Life (p : ℕ) : ℕ → List (Event ρ ο) → ρ → Prop
  | queued (d : ρ) : Life p 1 [.queued p d] d
  | taken (d : ρ) : Life p 2 [.queued p d, .taken p] d
  | worked (d : ρ) (o : ο) : Life p 3 [.queued p d, .taken p, .worked p o] (work o d)
  | done (d : ρ) (o : ο) :
      Life p 4 [.queued p d, .taken p, .worked p o, .done p (work o d)] (work o d)
  | deleted (d : ρ) (o : ο) :
      Life p 5 [.queued p d, .taken p, .worked p o, .done p (work o d), .deleted p] (work o d)

def Worker.place : Worker → Option (ℕ × ℕ)
  | running p => some (p, 2)
  | finishing p => some (p, 3)
  | _ => none

def Frame.places : Frame → List (ℕ × ℕ)
  | awoken => []
  | draining ps => ps.map (·, 3)
  | running p ps => (p, 4) :: ps.map (·, 3)

/-- The requests, each with how far its life has come. -/
def State.places (s : State ρ ο) : Multiset (ℕ × ℕ) :=
  (s.wq.map (·, 1) : Multiset (ℕ × ℕ)) + (s.workers.filterMap Worker.place : Multiset (ℕ × ℕ)) +
    (s.loopWq.map (·, 3) : Multiset (ℕ × ℕ)) + (s.stack.flatMap Frame.places : Multiset (ℕ × ℕ)) +
      (s.deleted.map (·, 5) : Multiset (ℕ × ℕ))

def State.eventsOf (s : State ρ ο) (p : ℕ) : List (Event ρ ο) := s.events.filter (·.request = p)

/-- Every request is in one place and has had the life that belongs to it. -/
structure Accounted (s : State ρ ο) : Prop where
  place : s.places.map Prod.fst = Multiset.range s.data.length
  lived : ∀ pk ∈ s.places, ∃ d, s.data[pk.1]? = some d ∧ Life work pk.1 pk.2 (s.eventsOf pk.1) d
  known : ∀ e ∈ s.events, e.request < s.data.length
  /-- The loop counts the requests whose callback it has not called. -/
  active : s.activeReqs = s.places.countP fun pk => pk.2 ≤ 3

variable {work}
variable {s t : State ρ ο}

theorem filterMap_set {α β : Type} {f : α → Option β} {xs : List α} {i : ℕ} {x : α}
    (h : xs[i]? = some x) : ∃ r : Multiset β,
      (xs.filterMap f : Multiset β) = ((f x).toList : Multiset β) + r ∧
        ∀ y, ((xs.set i y).filterMap f : Multiset β) = ((f y).toList : Multiset β) + r := by
  obtain ⟨hi, rfl⟩ := List.getElem?_eq_some_iff.mp h
  refine ⟨((xs.eraseIdx i).filterMap f : Multiset β), ?_, fun y => ?_⟩
  · rw [← Multiset.coe_eq_coe.mpr ((List.getElem_cons_eraseIdx_perm hi).filterMap f), List.filterMap_cons]
    cases f xs[i] <;> simp
  · rw [Multiset.coe_eq_coe.mpr ((List.set_perm_cons_eraseIdx hi y).filterMap f), List.filterMap_cons]
    cases f y <;> simp

/-- What a step means for the requests. -/
inductive Moves (work : ο → ρ → ρ) (s t : State ρ ο) : Prop
  | stays (places : t.places = s.places) (events : t.events = s.events) (data : t.data = s.data)
      (active : t.activeReqs = s.activeReqs)
  | comes (d : ρ) (places : t.places = (s.data.length, 1) ::ₘ s.places)
      (events : t.events = s.events ++ [.queued s.data.length d]) (data : t.data = s.data ++ [d])
      (active : t.activeReqs = s.activeReqs + 1)
  /-- One request comes one part further in its life. -/
  | moves (p k : ℕ) (r : Multiset (ℕ × ℕ)) (e : Event ρ ο) (before : s.places = (p, k) ::ₘ r)
      (after : t.places = (p, k + 1) ::ₘ r) (events : t.events = s.events ++ [e]) (request : e.request = p)
      (length : t.data.length = s.data.length) (others : ∀ q ≠ p, t.data[q]? = s.data[q]?)
      (active : t.activeReqs = if k = 3 then s.activeReqs - 1 else s.activeReqs)
      (life : ∀ es d, s.data[p]? = some d → Life work p k es d →
        ∃ d', t.data[p]? = some d' ∧ Life work p (k + 1) (es ++ [e]) d')

theorem Life.take_step {p : ℕ} {es : List (Event ρ ο)} {d : ρ} (h : Life work p 1 es d) :
    Life work p 2 (es ++ [.taken p]) d := by
  cases h
  exact .taken d

theorem Life.work_step {p : ℕ} {es : List (Event ρ ο)} {d : ρ} (h : Life work p 2 es d) (o : ο) :
    Life work p 3 (es ++ [.worked p o]) (work o d) := by
  cases h
  exact .worked d o

theorem Life.done_step {p : ℕ} {es : List (Event ρ ο)} {d : ρ} (h : Life work p 3 es d) :
    Life work p 4 (es ++ [.done p d]) d := by
  cases h
  exact .done _ _

theorem Life.delete_step {p : ℕ} {es : List (Event ρ ο)} {d : ρ} (h : Life work p 4 es d) :
    Life work p 5 (es ++ [.deleted p]) d := by
  cases h
  exact .deleted _ _

/-- What a callback finds is what the work of its request made of the data that was queued. -/
theorem Life.of_done {p k : ℕ} {es : List (Event ρ ο)} {d d' : ρ} (h : Life work p k es d) (hd : .done p d' ∈ es) :
    ∃ d₀ o, .queued p d₀ ∈ es ∧ .worked p o ∈ es ∧ d' = work o d₀ := by
  cases h with
  | queued d => simp at hd
  | taken d => simp at hd
  | worked d o => simp at hd
  | done d o => exact ⟨d, o, by simp, by simp, by simpa using hd⟩
  | deleted d o => exact ⟨d, o, by simp, by simp, by simpa using hd⟩

/-- A worker that holds no request before or after. -/
theorem places_workers {i : ℕ} {w v : Worker} (h : s.workers[i]? = some w) (hw : w.place = none)
    (hv : v.place = none) :
    ((s.workers.set i v).filterMap Worker.place : Multiset (ℕ × ℕ)) = (s.workers.filterMap Worker.place) := by
  obtain ⟨r, hr, hset⟩ := filterMap_set (f := Worker.place) h
  rw [hr, hset v, hw, hv]

theorem next_moves {i : ℕ} {w : Worker} (hi : s.workers[i]? = some w) (hw : w.place = none) :
    Moves work s (s.next i) := by
  cases hwq : s.wq with
  | nil =>
      refine .stays ?_ ?_ ?_ ?_
      · simp only [State.next, hwq, State.places]
        rw [places_workers hi hw rfl]
      all_goals simp only [State.next, hwq]
  | cons p rest =>
      obtain ⟨r, hr, hset⟩ := filterMap_set (f := Worker.place) hi
      refine .moves p 1 ((rest.map (·, 1) : Multiset (ℕ × ℕ)) + r + (s.loopWq.map (·, 3) : Multiset (ℕ × ℕ)) +
          (s.stack.flatMap Frame.places : Multiset (ℕ × ℕ)) + (s.deleted.map (·, 5) : Multiset (ℕ × ℕ)))
        (.taken p) ?_ ?_ ?_ rfl ?_ ?_ ?_ ?_
      · simp only [State.places, hwq, hr, hw, List.map_cons, ← Multiset.cons_coe, Option.toList_none,
          Multiset.coe_nil, zero_add, Multiset.cons_add]
      · simp only [State.places, State.next, hwq, hset, Worker.place, Option.toList_some,
          Multiset.coe_singleton, ← Multiset.singleton_add]
        abel
      · simp only [State.next, hwq]
      · simp only [State.next, hwq]
      · intro q _
        simp only [State.next, hwq]
      · simp only [State.next, hwq]
        rfl
      · intro es d hd hl
        exact ⟨d, by simpa only [State.next, hwq] using hd, hl.take_step⟩

theorem step_moves (l : Label ρ ο) (hstep : step work s l = some t) : Moves work s t := by
  cases step_does hstep with
  | queue data signalled workers hw =>
      have hworkers : (workers.filterMap Worker.place : Multiset (ℕ × ℕ)) = s.workers.filterMap Worker.place := by
        rcases hw with ⟨rfl, -⟩ | ⟨i, hi, rfl⟩
        · rfl
        · exact places_workers hi rfl rfl
      refine .comes data ?_ rfl rfl rfl
      simp only [State.places, hworkers, List.map_append, ← Multiset.coe_add, List.map_cons, List.map_nil,
        Multiset.coe_singleton, ← Multiset.singleton_add]
      abel
  | spurious i hi =>
      refine .stays ?_ rfl rfl rfl
      simp only [State.places]
      rw [places_workers hi rfl rfl]
  | look i hi => exact next_moves hi rfl
  | lookAgain i hi =>
      have hnext : Moves work { s with idleThreads := s.idleThreads - 1 } _ := next_moves hi rfl
      cases hnext with
      | stays places events data active => exact .stays places events data active
      | comes d places events data active => exact .comes d places events data active
      | moves p k r e before after events request length others active life =>
          exact .moves p k r e before after events request length others active life
  | workReturns i p o hi =>
      obtain ⟨r, hr, hset⟩ := filterMap_set (f := Worker.place) hi
      refine .moves p 2 ((s.wq.map (·, 1) : Multiset (ℕ × ℕ)) + r + (s.loopWq.map (·, 3) : Multiset (ℕ × ℕ)) +
          (s.stack.flatMap Frame.places : Multiset (ℕ × ℕ)) + (s.deleted.map (·, 5) : Multiset (ℕ × ℕ)))
        (.worked p o) ?_ ?_ rfl rfl (by simp) ?_ rfl ?_
      · simp only [State.places, hr, Worker.place, Option.toList_some, Multiset.coe_singleton,
          ← Multiset.singleton_add]
        abel
      · simp only [State.places, hset, Worker.place, Option.toList_some, Multiset.coe_singleton,
          ← Multiset.singleton_add]
        abel
      · exact fun q hq => List.getElem?_modify_ne _ _ hq.symm
      · intro es d hd hl
        exact ⟨_, by simp [List.getElem?_modify_eq, hd], hl.work_step o⟩
  | publish i p hi =>
      obtain ⟨r, hr, hset⟩ := filterMap_set (f := Worker.place) hi
      refine .stays ?_ rfl rfl rfl
      simp only [State.places, hr, hset, Worker.place, Option.toList_some, Option.toList_none,
        List.map_append, ← Multiset.coe_add, List.map_cons, List.map_nil, Multiset.coe_singleton,
        Multiset.coe_nil]
      abel
  | wake hpolls hpending => exact .stays rfl rfl rfl rfl
  | swap rest hst =>
      refine .stays ?_ rfl rfl rfl
      simp only [State.places, hst, List.flatMap_cons, Frame.places, List.nil_append, ← Multiset.coe_add,
        List.map_nil, Multiset.coe_nil]
      abel
  | call p ps rest d hst hd =>
      refine .moves p 3 ((s.wq.map (·, 1) : Multiset (ℕ × ℕ)) +
          (s.workers.filterMap Worker.place : Multiset (ℕ × ℕ)) + (s.loopWq.map (·, 3) : Multiset (ℕ × ℕ)) +
            (ps.map (·, 3) : Multiset (ℕ × ℕ)) + (rest.flatMap Frame.places : Multiset (ℕ × ℕ)) +
              (s.deleted.map (·, 5) : Multiset (ℕ × ℕ)))
        (.done p d) ?_ ?_ rfl rfl rfl (fun _ _ => rfl) rfl ?_
      · simp only [State.places, hst, List.flatMap_cons, Frame.places, List.map_cons, List.cons_append,
          ← Multiset.cons_coe, ← Multiset.coe_add, ← Multiset.singleton_add]
        abel
      · simp only [State.places, List.flatMap_cons, Frame.places, List.cons_append, ← Multiset.cons_coe,
          ← Multiset.coe_add, ← Multiset.singleton_add]
        abel
      · intro es d' hd' hl
        obtain rfl := Option.some.inj (hd.symm.trans hd')
        exact ⟨d, hd, hl.done_step⟩
  | ret p ps rest hst =>
      refine .moves p 4 ((s.wq.map (·, 1) : Multiset (ℕ × ℕ)) +
          (s.workers.filterMap Worker.place : Multiset (ℕ × ℕ)) + (s.loopWq.map (·, 3) : Multiset (ℕ × ℕ)) +
            (ps.map (·, 3) : Multiset (ℕ × ℕ)) + (rest.flatMap Frame.places : Multiset (ℕ × ℕ)) +
              (s.deleted.map (·, 5) : Multiset (ℕ × ℕ)))
        (.deleted p) ?_ ?_ rfl rfl rfl (fun _ _ => rfl) rfl ?_
      · simp only [State.places, hst, List.flatMap_cons, Frame.places, List.cons_append,
          ← Multiset.cons_coe, ← Multiset.coe_add, ← Multiset.singleton_add]
        abel
      · simp only [State.places, List.flatMap_cons, Frame.places, List.map_append, List.map_cons, List.map_nil,
          Multiset.coe_singleton, ← Multiset.coe_add, ← Multiset.singleton_add]
        abel
      · exact fun es d hd hl => ⟨d, hd, hl.delete_step⟩
  | finish rest hst =>
      refine .stays ?_ rfl rfl rfl
      simp only [State.places, hst, List.flatMap_cons, Frame.places, List.map_nil, List.nil_append]

theorem Accounted.stays (h : Accounted work s) (hplaces : t.places = s.places) (hevents : t.events = s.events)
    (hdata : t.data = s.data) (hactive : t.activeReqs = s.activeReqs) : Accounted work t := by
  refine ⟨?_, ?_, ?_, ?_⟩
  · rw [hplaces, hdata, h.place]
  · intro pk hpk
    rw [hplaces] at hpk
    simpa only [State.eventsOf, hevents, hdata] using h.lived pk hpk
  · rw [hevents, hdata]
    exact h.known
  · rw [hactive, hplaces, h.active]

theorem Accounted.comes (h : Accounted work s) {d : ρ} (hplaces : t.places = (s.data.length, 1) ::ₘ s.places)
    (hevents : t.events = s.events ++ [.queued s.data.length d]) (hdata : t.data = s.data ++ [d])
    (hactive : t.activeReqs = s.activeReqs + 1) : Accounted work t := by
  have hlen : t.data.length = s.data.length + 1 := by simp [hdata]
  refine ⟨?_, fun pk hpk => ?_, fun e he => ?_, ?_⟩
  · rw [hplaces, Multiset.map_cons, h.place, hlen, Multiset.range_succ]
  · rw [hplaces, Multiset.mem_cons] at hpk
    rcases hpk with rfl | hpk
    · have hnone : s.eventsOf s.data.length = [] := by
        simp only [State.eventsOf, List.filter_eq_nil_iff, decide_eq_true_eq]
        exact fun e he => (h.known e he).ne
      have hself : t.eventsOf s.data.length = [.queued s.data.length d] := by
        rw [State.eventsOf, hevents, List.filter_append, ← State.eventsOf, hnone]
        simp [Event.request]
      exact ⟨d, by simp [hdata], hself ▸ .queued d⟩
    · obtain ⟨d', hd, hl⟩ := h.lived pk hpk
      have hlt : pk.1 < s.data.length := (List.getElem?_eq_some_iff.mp hd).1
      have hother : t.eventsOf pk.1 = s.eventsOf pk.1 := by
        simp [State.eventsOf, hevents, Event.request, hlt.ne']
      exact ⟨d', by rwa [hdata, List.getElem?_append_left hlt], hother ▸ hl⟩
  · rw [hevents] at he
    rw [hlen]
    rcases List.mem_append.mp he with he | he
    · exact (h.known e he).trans (Nat.lt_succ_self _)
    · obtain rfl := List.mem_singleton.mp he
      exact Nat.lt_succ_self _
  · rw [hactive, hplaces, h.active]
    simp

theorem Accounted.moves (h : Accounted work s) {p k : ℕ} {r : Multiset (ℕ × ℕ)} {e : Event ρ ο}
    (hs : s.places = (p, k) ::ₘ r) (ht : t.places = (p, k + 1) ::ₘ r)
    (hevents : t.events = s.events ++ [e]) (he : e.request = p)
    (hlen : t.data.length = s.data.length) (hdata : ∀ q ≠ p, t.data[q]? = s.data[q]?)
    (hactive : t.activeReqs = if k = 3 then s.activeReqs - 1 else s.activeReqs)
    (hlife : ∀ es d, s.data[p]? = some d → Life work p k es d →
      ∃ d', t.data[p]? = some d' ∧ Life work p (k + 1) (es ++ [e]) d') : Accounted work t := by
  have hnodup : (p ::ₘ r.map Prod.fst).Nodup := by
    have hplace := h.place
    rw [hs, Multiset.map_cons] at hplace
    exact hplace ▸ Multiset.nodup_range _
  have hself : t.eventsOf p = s.eventsOf p ++ [e] := by simp [State.eventsOf, hevents, he]
  have hother : ∀ q ≠ p, t.eventsOf q = s.eventsOf q := by
    intro q hq
    simp [State.eventsOf, hevents, he, hq.symm]
  have hpk : (p, k) ∈ s.places := hs ▸ Multiset.mem_cons_self _ _
  refine ⟨?_, fun qj hqj => ?_, ?_, ?_⟩
  · rw [ht, hlen, ← h.place, hs, Multiset.map_cons, Multiset.map_cons]
  · rw [ht, Multiset.mem_cons] at hqj
    rcases hqj with rfl | hqj
    · obtain ⟨d, hd, hl⟩ := h.lived _ hpk
      rw [hself]
      exact hlife _ d hd hl
    · have hne : qj.1 ≠ p := by
        rintro rfl
        exact (Multiset.nodup_cons.mp hnodup).1 (Multiset.mem_map_of_mem Prod.fst hqj)
      rw [hother _ hne, hdata _ hne]
      exact h.lived qj (hs ▸ Multiset.mem_cons_of_mem hqj)
  · rw [hevents, hlen]
    intro e' he'
    rcases List.mem_append.mp he' with he' | he'
    · exact h.known e' he'
    · obtain rfl := List.mem_singleton.mp he'
      have hmem : p ∈ Multiset.range s.data.length :=
        h.place ▸ Multiset.mem_map_of_mem Prod.fst hpk
      exact he ▸ Multiset.mem_range.mp hmem
  · have hbefore := h.active
    rw [hs, Multiset.countP_cons] at hbefore
    rw [hactive, ht, Multiset.countP_cons]
    split_ifs at hbefore ⊢ <;> omega

theorem Accounted.step (s : State ρ ο) (l : Label ρ ο) (t : State ρ ο) (h : Accounted work s)
    (hstep : step work s l = some t) : Accounted work t := by
  cases step_moves l hstep with
  | stays places events data active => exact h.stays places events data active
  | comes d places events data active => exact h.comes places events data active
  | moves p k r e before after events request length others active life =>
      exact h.moves before after events request length others active life

def Event.taken? : Event ρ ο → Option ℕ
  | taken p => some p
  | _ => none

/-- The workers take the requests in the order in which they were queued. -/
def Ordered (s : State ρ ο) : Prop := s.events.filterMap Event.taken? ++ s.wq = List.range s.data.length

theorem Ordered.next (h : Ordered s) (i : ℕ) : Ordered (s.next i) := by
  cases hwq : s.wq with
  | nil => simpa only [Ordered, State.next, hwq] using h
  | cons p rest =>
      rw [Ordered, hwq] at h
      simpa [Ordered, State.next, hwq, Event.taken?] using h

theorem Ordered.step (s : State ρ ο) (l : Label ρ ο) (t : State ρ ο) (h : Ordered s)
    (hstep : step work s l = some t) : Ordered t := by
  cases step_does hstep with
  | queue data signalled workers hw =>
      rw [Ordered] at h
      simp [Ordered, List.filterMap_cons, Event.taken?, List.range_succ, ← h]
  | look i hi => exact h.next i
  | lookAgain i hi =>
      have hidle : Ordered { s with idleThreads := s.idleThreads - 1 } := h
      exact hidle.next i
  | workReturns i p o hi => simpa [Ordered, List.filterMap_cons, Event.taken?] using h
  | call p ps rest d hst hd => simpa [Ordered, List.filterMap_cons, Event.taken?] using h
  | ret p ps rest hst => simpa [Ordered, List.filterMap_cons, Event.taken?] using h
  | spurious => exact h
  | publish => exact h
  | wake => exact h
  | swap => exact h
  | finish => exact h

/-- No wakeup is lost. -/
structure Awake (s : State ρ ο) : Prop where
  idle : s.idleThreads = s.workers.count .waiting + s.workers.count .woken
  /-- A worker waits only if there is a woken one for every request in the queue. -/
  woken : .waiting ∈ s.workers → s.wq.length ≤ s.workers.count .woken
  polled : s.loopWq ≠ [] → s.asyncPending = true ∨ s.stack.head? = some .awoken

theorem count_set {xs : List Worker} {i : ℕ} {x : Worker} (h : xs[i]? = some x) (y z : Worker) :
    (xs.set i z).count y + (if x = y then 1 else 0) = xs.count y + if z = y then 1 else 0 := by
  obtain ⟨hi, rfl⟩ := List.getElem?_eq_some_iff.mp h
  rw [(List.set_perm_cons_eraseIdx hi z).count_eq, ← (List.getElem_cons_eraseIdx_perm hi).count_eq,
    List.count_cons, List.count_cons]
  simp only [beq_iff_eq]
  omega

theorem Awake.wakes (h : Awake s) {i : ℕ} (hi : s.workers[i]? = some .waiting) :
    s.idleThreads = (s.workers.set i .woken).count .waiting + (s.workers.set i .woken).count .woken ∧
      (s.workers.set i .woken).count .woken = s.workers.count .woken + 1 := by
  have hwaiting := count_set hi .waiting .woken
  have hwoken := count_set hi .woken .woken
  have hidle := h.idle
  simp only [reduceCtorEq, if_true, if_false] at hwaiting hwoken
  exact ⟨by omega, by omega⟩

/-- A worker locks the mutex; if it was woken it is counted out first. -/
theorem Awake.next {n i : ℕ} {w : Worker} (h : Awake s) (hi : s.workers[i]? = some w)
    (hw : w = .looking ∧ n = s.idleThreads ∨ w = .woken ∧ n = s.idleThreads - 1) :
    Awake ({ s with idleThreads := n }.next i) := by
  have hidle := h.idle
  have hwaiting := count_set hi .waiting
  have hwoken := count_set hi .woken
  have hmem : w = .woken → 0 < s.workers.count .woken := by
    rintro rfl
    exact List.count_pos_iff.mpr (List.mem_of_getElem? hi)
  cases hwq : s.wq with
  | nil =>
      simp only [State.next]
      refine ⟨?_, fun _ => Nat.zero_le _, h.polled⟩
      have h1 := hwaiting .waiting
      have h2 := hwoken .waiting
      rcases hw with ⟨rfl, rfl⟩ | ⟨rfl, rfl⟩
      · simp only [reduceCtorEq, if_true, if_false] at h1 h2
        simp only
        omega
      · have hpos := hmem rfl
        simp only [reduceCtorEq, if_true, if_false] at h1 h2
        simp only
        omega
  | cons p rest =>
      simp only [State.next]
      have h1 := hwaiting (.running p)
      have h2 := hwoken (.running p)
      have hkeep : .waiting ∈ s.workers.set i (.running p) → .waiting ∈ s.workers := by
        intro hm
        have hne := List.count_pos_iff.mpr hm
        refine List.count_pos_iff.mp ?_
        rcases hw with ⟨rfl, -⟩ | ⟨rfl, -⟩ <;> simp only [reduceCtorEq, if_false] at h1 <;> omega
      have hle := fun hm => h.woken (hkeep hm)
      simp only [hwq, List.length_cons] at hle
      rcases hw with ⟨rfl, rfl⟩ | ⟨rfl, rfl⟩
      · simp only [reduceCtorEq, if_false] at h1 h2
        refine ⟨?_, fun hm => ?_, h.polled⟩
        · simp only
          omega
        · have := hle hm
          simp only
          omega
      · have hpos := hmem rfl
        simp only [reduceCtorEq, if_true, if_false] at h1 h2
        refine ⟨?_, fun hm => ?_, h.polled⟩
        · simp only
          omega
        · have := hle hm
          simp only
          omega

/-- A worker that goes on without the mutex is neither idle before nor after. -/
theorem Awake.works (h : Awake s) {i : ℕ} {w v : Worker} (hi : s.workers[i]? = some w)
    (hw : w ≠ .waiting ∧ w ≠ .woken) (hv : v ≠ .waiting ∧ v ≠ .woken) :
    s.idleThreads = (s.workers.set i v).count .waiting + (s.workers.set i v).count .woken ∧
      (.waiting ∈ s.workers.set i v → s.wq.length ≤ (s.workers.set i v).count .woken) := by
  have hwaiting := count_set hi .waiting v
  have hwoken := count_set hi .woken v
  simp only [hw.1, hw.2, hv.1, hv.2, if_false, Nat.add_zero] at hwaiting hwoken
  rw [hwaiting, hwoken]
  refine ⟨h.idle, fun hm => h.woken (List.count_pos_iff.mp ?_)⟩
  rw [← hwaiting]
  exact List.count_pos_iff.mpr hm

theorem Awake.step (s : State ρ ο) (l : Label ρ ο) (t : State ρ ο) (h : Awake s)
    (hstep : step work s l = some t) : Awake t := by
  cases step_does hstep with
  | queue data signalled workers hw =>
      rcases hw with ⟨rfl, hw⟩ | ⟨i, hi, rfl⟩
      · refine ⟨h.idle, fun hm => ?_, h.polled⟩
        rcases hw with hzero | hnone
        · have hpos : 0 < s.workers.count .waiting := List.count_pos_iff.mpr hm
          have hidle := h.idle
          omega
        · exact absurd hm hnone
      · obtain ⟨hidle, hwoken⟩ := h.wakes hi
        refine ⟨hidle, fun _ => ?_, h.polled⟩
        have hle := h.woken (List.mem_of_getElem? hi)
        simp only [List.length_append, List.length_singleton]
        omega
  | spurious i hi =>
      obtain ⟨hidle, hwoken⟩ := h.wakes hi
      refine ⟨hidle, fun _ => ?_, h.polled⟩
      have hle := h.woken (List.mem_of_getElem? hi)
      simp only
      omega
  | look i hi => exact h.next hi (.inl ⟨rfl, rfl⟩)
  | lookAgain i hi => exact h.next hi (.inr ⟨rfl, rfl⟩)
  | workReturns i p o hi =>
      obtain ⟨hidle, hwoken⟩ := h.works (v := .finishing p) hi (by simp) (by simp)
      exact ⟨hidle, hwoken, h.polled⟩
  | publish i p hi =>
      obtain ⟨hidle, hwoken⟩ := h.works (v := .looking) hi (by simp) (by simp)
      exact ⟨hidle, hwoken, fun _ => .inl rfl⟩
  | wake hpolls hpending => exact ⟨h.idle, h.woken, fun _ => .inr rfl⟩
  | swap rest hst => exact ⟨h.idle, h.woken, fun hne => absurd rfl hne⟩
  | call p ps rest d hst hd =>
      exact ⟨h.idle, h.woken, fun hne => .inl ((h.polled hne).resolve_right (by simp [hst]))⟩
  | ret p ps rest hst =>
      exact ⟨h.idle, h.woken, fun hne => .inl ((h.polled hne).resolve_right (by simp [hst]))⟩
  | finish rest hst =>
      exact ⟨h.idle, h.woken, fun hne => .inl ((h.polled hne).resolve_right (by simp [hst]))⟩

def Worker.weight : Worker → ℕ
  | waiting => 0
  | looking => 1
  | woken => 2
  | finishing _ => 7
  | running _ => 8

def Frame.weight : Frame → ℕ
  | awoken => 2
  | draining ps => 1 + 2 * ps.length
  | running _ ps => 2 + 2 * ps.length

/-- More than the steps that the workers and the loop have before them. -/
def State.remaining (s : State ρ ο) : ℕ :=
  8 * s.wq.length + (s.workers.map Worker.weight).sum + 2 * s.loopWq.length +
    3 * s.asyncPending.toNat + (s.stack.map Frame.weight).sum

theorem weight_set {xs : List Worker} {i : ℕ} {x : Worker} (h : xs[i]? = some x) (y : Worker) :
    ((xs.set i y).map Worker.weight).sum + x.weight = (xs.map Worker.weight).sum + y.weight := by
  obtain ⟨hi, rfl⟩ := List.getElem?_eq_some_iff.mp h
  rw [((List.set_perm_cons_eraseIdx hi y).map Worker.weight).sum_nat,
    ← ((List.getElem_cons_eraseIdx_perm hi).map Worker.weight).sum_nat, List.map_cons, List.map_cons,
    List.sum_cons, List.sum_cons]
  omega

theorem next_remaining {n i : ℕ} {w : Worker} (hi : s.workers[i]? = some w) (hw : 0 < w.weight) :
    ({ s with idleThreads := n }.next i).remaining < s.remaining := by
  cases hwq : s.wq with
  | nil =>
      have hset := weight_set hi .waiting
      rw [show Worker.waiting.weight = 0 from rfl] at hset
      simp only [State.next, State.remaining, hwq, List.length_nil]
      omega
  | cons p rest =>
      have hset := weight_set hi (.running p)
      rw [show (Worker.running p).weight = 8 from rfl] at hset
      simp only [State.next, State.remaining, hwq, List.length_cons]
      omega

theorem step_remaining (l : Label ρ ο) (hl : l.internal = true) (hstep : step work s l = some t) :
    t.remaining < s.remaining := by
  cases step_does hstep with
  | queue => cases hl
  | spurious => cases hl
  | look i hi => exact next_remaining hi (by decide)
  | lookAgain i hi => exact next_remaining hi (by decide)
  | workReturns i p o hi =>
      have hset := weight_set hi (.finishing p)
      simp only [Worker.weight] at hset
      simp only [State.remaining]
      omega
  | publish i p hi =>
      have hset := weight_set hi .looking
      simp only [Worker.weight] at hset
      have hle := Bool.toNat_le s.asyncPending
      simp only [State.remaining, List.length_append, List.length_singleton, Bool.toNat_true]
      omega
  | wake hpolls hpending =>
      simp only [State.remaining, hpending, List.map_cons, List.sum_cons, Frame.weight, Bool.toNat_true,
        Bool.toNat_false]
      omega
  | swap rest hst =>
      simp only [State.remaining, hst, List.map_cons, List.sum_cons, Frame.weight, List.length_nil]
      omega
  | call p ps rest d hst hd =>
      simp only [State.remaining, hst, List.map_cons, List.sum_cons, Frame.weight, List.length_cons]
      omega
  | ret p ps rest hst =>
      simp only [State.remaining, hst, List.map_cons, List.sum_cons, Frame.weight]
      omega
  | finish rest hst =>
      simp only [State.remaining, hst, List.map_cons, List.sum_cons, Frame.weight]
      omega

/-- Neither the workers nor the loop have anything to do. -/
def Still (work : ο → ρ → ρ) (s : State ρ ο) : Prop := ∀ l : Label ρ ο, l.internal = true → step work s l = none

theorem Still.waiting [Nonempty ο] (h : Still work s) : ∀ w ∈ s.workers, w = .waiting := by
  intro w hw
  obtain ⟨i, hi⟩ := List.getElem?_of_mem hw
  cases w with
  | waiting => rfl
  | looking =>
      have hlook := h (.look i) rfl
      simp [step, hi] at hlook
  | woken =>
      have hlook := h (.look i) rfl
      simp [step, hi] at hlook
  | running p =>
      obtain ⟨o⟩ := ‹Nonempty ο›
      have hreturn := h (.workReturns i o) rfl
      simp [step, hi] at hreturn
  | finishing p =>
      have hpublish := h (.publish i) rfl
      simp [step, hi] at hpublish

theorem Still.stack (h : Still work s) (hdata : ∀ pk ∈ s.places, (s.data[pk.1]?).isSome) : s.stack = [] := by
  cases hst : s.stack with
  | nil => rfl
  | cons f rest =>
      cases f with
      | awoken =>
          have hswap := h .swap rfl
          simp [step, hst] at hswap
      | running p ps =>
          have hret := h .ret rfl
          simp [step, hst] at hret
      | draining ps =>
          cases ps with
          | nil =>
              have hfinish := h .finish rfl
              simp [step, hst] at hfinish
          | cons p ps =>
              have hcall := h .call rfl
              have hmem : (p, 3) ∈ s.places := by simp [State.places, hst, Frame.places]
              have hsome := hdata _ hmem
              simp only [step, hst, Option.map_eq_none_iff] at hcall
              rw [hcall] at hsome
              cases hsome

/-- A pool with a worker is not still before all is done. -/
theorem Still.places [Nonempty ο] (h : Still work s) (ha : Awake s) (hworkers : s.workers ≠ [])
    (hdata : ∀ pk ∈ s.places, (s.data[pk.1]?).isSome) :
    s.places = (s.deleted.map (·, 5) : Multiset (ℕ × ℕ)) := by
  have hwaiting := h.waiting
  have hstack := h.stack hdata
  obtain ⟨w, hw⟩ := List.exists_mem_of_ne_nil _ hworkers
  have hwq : s.wq = [] := by
    have hle := ha.woken (hwaiting w hw ▸ hw)
    have hzero : s.workers.count .woken = 0 := by
      rw [List.count_eq_zero]
      intro hm
      cases hwaiting _ hm
    exact List.eq_nil_of_length_eq_zero (by omega)
  have hloop : s.loopWq = [] := by
    by_contra hne
    have hwake := h .wake rfl
    rcases ha.polled hne with hpending | hawoken
    · simp [step, State.polls, hstack, hpending] at hwake
    · simp [hstack] at hawoken
  have hnone : s.workers.filterMap Worker.place = [] := by
    rw [List.filterMap_eq_nil_iff]
    intro w hw
    rw [hwaiting w hw]
    rfl
  simp [State.places, hwq, hloop, hstack, hnone]

theorem threadCount_pos (size : Option ℤ) : 0 < threadCount size := by
  unfold threadCount
  simp only
  split_ifs <;> omega

structure Inv (work : ο → ρ → ρ) (s : State ρ ο) : Prop extends Accounted work s, Awake s where
  order : Ordered s
  workers : s.workers ≠ []

theorem step_workers (l : Label ρ ο) (hstep : step work s l = some t) : t.workers.length = s.workers.length := by
  have hnext : ∀ (u : State ρ ο) (i : ℕ), (u.next i).workers.length = u.workers.length := by
    intro u i
    unfold State.next
    split <;> simp
  cases step_does hstep with
  | queue data signalled workers hw =>
      rcases hw with ⟨rfl, -⟩ | ⟨i, -, rfl⟩
      · rfl
      · simp
  | look i hi => exact hnext s i
  | lookAgain i hi => exact hnext _ i
  | spurious i hi => simp
  | workReturns i p o hi => simp
  | publish i p hi => simp
  | wake => rfl
  | swap => rfl
  | call => rfl
  | ret => rfl
  | finish => rfl

theorem init_inv (size : Option ℤ) : Inv work (init size) := by
  have hnone : (List.replicate (threadCount size) Worker.looking).filterMap Worker.place = [] := by
    rw [List.filterMap_eq_nil_iff]
    intro w hw
    rw [List.eq_of_mem_replicate hw]
    rfl
  have hcount : ∀ w, w ≠ Worker.looking → (List.replicate (threadCount size) Worker.looking).count w = 0 := by
    intro w hw
    rw [List.count_eq_zero]
    exact fun hm => hw (List.eq_of_mem_replicate hm)
  have hplaces : (init size : State ρ ο).places = 0 := by simp [State.places, init, hnone]
  exact {
    place := by rw [hplaces]; rfl
    lived := by simp [hplaces]
    known := by simp [init]
    active := by rw [hplaces]; rfl
    idle := by simp [init, hcount]
    woken := by simp [init]
    polled := fun h => absurd rfl h
    order := rfl
    workers := by
      have hpos := threadCount_pos size
      simp only [init, ne_eq, List.replicate_eq_nil_iff]
      omega }

theorem Inv.step (s : State ρ ο) (l : Label ρ ο) (t : State ρ ο) (h : Inv work s)
    (hstep : step work s l = some t) : Inv work t where
  toAccounted := h.toAccounted.step s l t hstep
  toAwake := h.toAwake.step s l t hstep
  order := h.order.step s l t hstep
  workers := by
    intro hnil
    have hlen := step_workers l hstep
    rw [hnil] at hlen
    exact h.workers (List.eq_nil_of_length_eq_zero hlen.symm)

theorem run_inv {size : Option ℤ} {ls : List (Label ρ ο)} (h : Transition.run (step work) (init size) ls = some s) :
    Inv work s :=
  Transition.run_invariant Inv.step (init_inv size) h

theorem Accounted.at (h : Accounted work s) {p : ℕ} (hp : p < s.data.length) : ∃ k, (p, k) ∈ s.places := by
  have hmem : p ∈ s.places.map Prod.fst := h.place ▸ Multiset.mem_range.mpr hp
  obtain ⟨pk, hpk, rfl⟩ := Multiset.mem_map.mp hmem
  exact ⟨pk.2, hpk⟩

/-- When all is still the loop has no request left, and every request has had its whole life. -/
theorem Inv.still [Nonempty ο] (h : Inv work s) (hstill : Still work s) :
    s.activeReqs = 0 ∧ ∀ p < s.data.length, ∃ d, s.data[p]? = some d ∧ Life work p 5 (s.eventsOf p) d := by
  have hplaces := hstill.places h.toAwake h.workers fun pk hpk => by
    obtain ⟨d, hd, -⟩ := h.lived pk hpk
    rw [hd]
    rfl
  constructor
  · rw [h.active, hplaces]
    simp
  · intro p hp
    obtain ⟨k, hk⟩ := h.at hp
    have hfive : k = 5 := by
      rw [hplaces] at hk
      simp only [Multiset.mem_coe, List.mem_map, Prod.mk.injEq] at hk
      obtain ⟨-, -, -, rfl⟩ := hk
      rfl
    exact hfive ▸ h.lived _ hk

/-- Every request that was queued is in one place and has had the life that belongs to it, in whatever
order the workers and the loop take their steps; the requests are taken in their order. -/
theorem requests_accounted (work : ο → ρ → ρ) (size : Option ℤ) (ls : List (Label ρ ο)) (s : State ρ ο)
    (h : Transition.run (step work) (init size) ls = some s) : Accounted work s ∧ Ordered s :=
  ⟨(run_inv h).toAccounted, (run_inv h).order⟩

/-- No wakeup is lost. From every state that can be reached the workers and the loop come to rest after
a bounded number of steps, and then every request is done. -/
theorem requests_finish [Nonempty ο] (work : ο → ρ → ρ) (size : Option ℤ) (ls : List (Label ρ ο)) (s : State ρ ο)
    (h : Transition.run (step work) (init size) ls = some s) :
    Awake s ∧ ∃ bound : ℕ, ∀ (ks : List (Label ρ ο)) (t : State ρ ο), (∀ k ∈ ks, k.internal = true) →
      Transition.run (step work) s ks = some t → ks.length ≤ bound ∧
        (Still work t → t.activeReqs = 0 ∧ ∀ p < t.data.length, ∃ d, t.data[p]? = some d ∧
          Life work p 5 (t.eventsOf p) d) := by
  refine ⟨(run_inv h).toAwake, s.remaining, fun ks t hks hrun => ⟨?_, fun hstill => ?_⟩⟩
  · have hlen := Transition.run_length_le (I := fun _ => True) (μ := State.remaining)
      (fun _ _ _ _ _ => trivial) (fun _ l _ _ hl hstep => step_remaining l hl hstep) trivial hks hrun
    omega
  · exact (Transition.run_invariant Inv.step (run_inv h) hrun).still hstill

/-- Two workers and two requests; the second one is queued when both workers are idle and one of them
has been signalled before. -/
def overlap : List (Label ℕ ℕ) :=
  [.look 0, .look 1, .queue 10 (some 0), .queue 20 (some 1), .look 1, .look 0, .workReturns 0 5, .publish 0,
    .wake, .workReturns 1 7, .swap, .call, .publish 1]

/-- The first request to be taken is the first that was queued, by the worker signalled last. -/
theorem requests_finish_overlap : ∃ s : State ℕ ℕ,
    Transition.run (step (· + ·)) (init (some 2)) overlap = some s ∧ s.data = [17, 25] ∧
      s.loopWq = [0] ∧ s.stack.length = 1 ∧ Awake s :=
  ⟨_, rfl, rfl, rfl, rfl, (requests_finish (· + ·) (some 2) overlap _ rfl).1⟩

/-- `requests_accounted` in the same run. -/
theorem requests_accounted_overlap : ∃ s : State ℕ ℕ,
    Transition.run (step (· + ·)) (init (some 2)) overlap = some s ∧ s.activeReqs = 1 ∧
      (s.events.filterMap Event.taken?) = [0, 1] ∧ Accounted (· + ·) s :=
  ⟨_, rfl, rfl, rfl, (requests_accounted (· + ·) (some 2) overlap _ rfl).1⟩

end LynneSocial.ThreadPool
