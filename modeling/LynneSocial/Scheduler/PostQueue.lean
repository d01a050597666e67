import LynneSocial.Lib.Transition
import LynneSocial.Scheduler.UvScheduler
import Mathlib.Logic.Function.Basic

/-!
# Posting to the scheduler from any number of threads

`post` is two atomic steps: the push under `post_mutex_`, then
`uv_async_send`. The loop first clears the pending flag of the async handle,
then `async_cb` enters `drain_post_queue`, which swaps the queue out under the
mutex and runs the batch, one callback after the other. Between any two of these
steps every other thread may take any of its own, and a callback may post. Thread
0 is the loop thread; it posts outside the loop or from inside a callback.

A session begins with `start()`, which leaves alone what an earlier session left
in the queue. The states record what was pushed, what was called and what each
drain swapped out.
-/
namespace LynneSocial.PostQueue

/-- Where the loop thread is. -/
inductive Loop (α : Type) where
  | idle
  /-- The flag is cleared and `async_cb` is running; the swap comes next. -/
  | awoken
  | draining (rest : List α)
  | running (callback : α) (rest : List α)

structure State (α : Type) where
  sched : UvScheduler α
  /-- The threads that are between their push and their send. -/
  posting : ℕ → Bool := fun _ => false
  loop : Loop α := .idle
  pushed : List α := []
  ran : List α := []
  /-- For each drain the number of pushes before its swap, and its batch. -/
  drains : List (ℕ × List α) := []

inductive Label (α : Type) where
  | push (thread : ℕ) (callback : α)
  | send (thread : ℕ)
  | wake
  | swap
  | call
  | ret
  /-- Into `catch (...) {}`: a callback that throws ends like one that returns. -/
  | throw
  | finish

variable {α : Type}

/-- The loop thread can post when it is outside the loop or inside a callback. -/
def Loop.open : Loop α → Bool
  | .idle => true
  | .running _ _ => true
  | _ => false

/-- The part of the batch whose callbacks have not been called yet. -/
def Loop.rest : Loop α → List α
  | .draining rest => rest
  | .running _ rest => rest
  | _ => []

def step (s : State α) : Label α → Option (State α)
  | .push t a =>
    if s.posting t = false ∧ (t = 0 → s.loop.open = true) then
      some { s with
        sched := s.sched.push a
        posting := Function.update s.posting t true
        pushed := s.pushed ++ [a] }
    else none
  | .send t =>
    if s.posting t = true then
      some { s with
        sched := s.sched.asyncSend
        posting := Function.update s.posting t false }
    else none
  | .wake =>
    match s.loop with
    | .idle =>
      if s.posting 0 = false ∧ s.sched.asyncInited = true ∧ s.sched.asyncPending = true then
        some { s with sched := { s.sched with asyncPending := false }, loop := .awoken }
      else none
    | _ => none
  | .swap =>
    match s.loop with
    | .awoken =>
      some { s with
        sched := { s.sched with postQueue := [] }
        loop := .draining s.sched.postQueue
        drains := s.drains ++ [(s.pushed.length, s.sched.postQueue)] }
    | _ => none
  | .call =>
    match s.loop with
    | .draining (a :: rest) => some { s with loop := .running a rest, ran := s.ran ++ [a] }
    | _ => none
  | .ret | .throw =>
    match s.loop with
    | .running _ rest =>
      if s.posting 0 = false then some { s with loop := .draining rest } else none
    | _ => none
  | .finish =>
    match s.loop with
    | .draining [] => some { s with loop := .idle }
    | _ => none

/-- The state right after `start()` of a scheduler whose queue holds `q`. -/
def session (q : List α) : State α := { sched := UvScheduler.start { postQueue := q } }

/-- What the drains so far have swapped out. -/
def State.taken (s : State α) : List α := (s.drains.map Prod.snd).flatten

/-- Delivery: `q` is what the queue held when the session began. -/
structure Delivered (q : List α) (s : State α) : Prop where
  /-- Called, then in hand, then queued: the pushes in their order, none lost and
  none twice. -/
  order : s.ran ++ s.loop.rest ++ s.sched.postQueue = q ++ s.pushed
  /-- Only what a drain swapped out is called, all of it before the next swap. -/
  batch : s.ran ++ s.loop.rest = s.taken
  /-- A drain gets exactly what was pushed before its swap and not drained earlier. -/
  exact : ∀ pre n b post, s.drains = pre ++ (n, b) :: post →
    (pre.map Prod.snd).flatten ++ b = (q ++ s.pushed).take (q.length + n)
  /-- No lost wake-up, from the first push of the session on. What an earlier session left gets none
  until then. -/
  wake : q = [] ∨ s.pushed ≠ [] → s.sched.postQueue ≠ [] →
    s.sched.asyncPending = true ∨ s.loop = .awoken ∨ ∃ t, s.posting t = true

/-- The invariant adds that the handle is open and that swaps count pushes that
have happened. -/
structure Inv (q : List α) (s : State α) : Prop extends Delivered q s where
  inited : s.sched.asyncInited = true
  counted : ∀ d ∈ s.drains, d.1 ≤ s.pushed.length

theorem session_inv (q : List α) : Inv q (session q) where
  order := by simp [session, UvScheduler.start, Loop.rest]
  batch := by simp [session, State.taken, Loop.rest]
  exact := by simp [session]
  wake := by
    intro h hq
    rcases h with h | h
    · exact absurd (by simp [session, UvScheduler.start, h]) hq
    · exact absurd rfl h
  inited := rfl
  counted := by simp [session]

/-- A push lands behind everything else and leaves every earlier swap as it was. -/
theorem push_inv {q : List α} {s t : State α} {thread : ℕ} {a : α} (h : Inv q s)
    (hstep : step s (.push thread a) = some t) : Inv q t := by
  simp only [step, Option.ite_none_right_eq_some, Option.some.injEq] at hstep
  obtain ⟨-, rfl⟩ := hstep
  refine ⟨⟨?_, h.batch, ?_, ?_⟩, h.inited, ?_⟩
  · simp only [UvScheduler.push_postQueue, ← List.append_assoc, h.order]
  · intro pre n b post hd
    have hn : n ≤ s.pushed.length :=
      h.counted (n, b) (hd ▸ List.mem_append_right pre List.mem_cons_self)
    have hle : q.length + n ≤ (q ++ s.pushed).length := by simpa using hn
    change _ = (q ++ (s.pushed ++ [a])).take (q.length + n)
    rw [h.exact pre n b post hd, ← List.append_assoc, List.take_append_of_le_length hle]
  · exact fun _ _ => .inr (.inr ⟨thread, Function.update_self ..⟩)
  · intro d hd
    have := h.counted d hd
    simp only [List.length_append, List.length_singleton]
    omega

/-- The wake-up a pushing thread owes becomes the pending flag. -/
theorem send_inv {q : List α} {s t : State α} {thread : ℕ} (h : Inv q s)
    (hstep : step s (.send thread) = some t) : Inv q t := by
  simp only [step, Option.ite_none_right_eq_some, Option.some.injEq] at hstep
  obtain ⟨-, rfl⟩ := hstep
  refine ⟨⟨h.order, h.batch, h.exact, ?_⟩, h.inited, h.counted⟩
  exact fun _ _ => .inl (by simp [h.inited])

theorem wake_inv {q : List α} {s t : State α} (h : Inv q s)
    (hstep : step s .wake = some t) : Inv q t := by
  cases hl : s.loop with
  | idle =>
      simp only [step, hl, Option.ite_none_right_eq_some, Option.some.injEq] at hstep
      obtain ⟨-, rfl⟩ := hstep
      have horder := h.order
      have hbatch := h.batch
      rw [hl] at horder hbatch
      exact ⟨⟨horder, hbatch, h.exact, fun _ _ => .inr (.inl rfl)⟩, h.inited, h.counted⟩
  | _ => simp [step, hl] at hstep

/-- The swap takes all that was pushed so far; nothing is left to wake for. -/
theorem swap_inv {q : List α} {s t : State α} (h : Inv q s)
    (hstep : step s .swap = some t) : Inv q t := by
  cases hl : s.loop with
  | awoken =>
      simp only [step, hl, Option.some.injEq] at hstep
      subst hstep
      have horder := h.order
      have hbatch := h.batch
      simp only [hl, Loop.rest, List.append_nil] at horder hbatch
      refine ⟨⟨?_, ?_, ?_, fun _ hne => absurd rfl hne⟩, h.inited, ?_⟩
      · simpa only [Loop.rest, List.append_nil] using horder
      · simp [Loop.rest, State.taken, hbatch]
      · intro pre n b post hd
        rcases List.eq_nil_or_concat post with rfl | ⟨post', d, rfl⟩
        · obtain ⟨rfl, hnb⟩ := List.append_inj' hd rfl
          obtain ⟨rfl, rfl⟩ := Prod.mk.inj (List.singleton_inj.mp hnb)
          rw [List.take_of_length_le (by simp), ← horder, hbatch]
          rfl
        · have hd' : s.drains ++ [(s.pushed.length, s.sched.postQueue)] =
              (pre ++ (n, b) :: post') ++ [d] := by simpa using hd
          exact h.exact pre n b post' (List.append_inj' hd' rfl).1
      · intro d hd
        rcases List.mem_append.mp hd with hd | hd
        · exact h.counted d hd
        · rw [List.mem_singleton.mp hd]
  | _ => simp [step, hl] at hstep

theorem call_inv {q : List α} {s t : State α} (h : Inv q s)
    (hstep : step s .call = some t) : Inv q t := by
  cases hl : s.loop with
  | draining rest =>
      cases rest with
      | nil => simp [step, hl] at hstep
      | cons a rest =>
          simp only [step, hl, Option.some.injEq] at hstep
          subst hstep
          have horder := h.order
          have hbatch := h.batch
          have hwake := h.wake
          simp only [hl, Loop.rest, reduceCtorEq, false_or] at horder hbatch hwake
          refine ⟨⟨?_, ?_, h.exact, ?_⟩, h.inited, h.counted⟩
          · simpa [Loop.rest] using horder
          · simpa [Loop.rest, State.taken] using hbatch
          · exact fun hp hne => (hwake hp hne).imp_right .inr
  | _ => simp [step, hl] at hstep

/-- How a callback ends makes no difference to what is left of the batch. -/
theorem return_inv {q : List α} {s t : State α} {l : Label α} (hret : l = .ret ∨ l = .throw)
    (h : Inv q s) (hstep : step s l = some t) : Inv q t := by
  cases hl : s.loop with
  | running a rest =>
      have ht : t = { s with loop := .draining rest } := by
        rcases hret with rfl | rfl <;> simp only [step, hl] at hstep <;> split at hstep <;>
          simp_all
      subst ht
      have horder := h.order
      have hbatch := h.batch
      have hwake := h.wake
      simp only [hl, Loop.rest, reduceCtorEq, false_or] at horder hbatch hwake
      exact ⟨⟨horder, hbatch, h.exact, fun hp hne => (hwake hp hne).imp_right .inr⟩,
        h.inited, h.counted⟩
  | _ => rcases hret with rfl | rfl <;> simp [step, hl] at hstep

theorem finish_inv {q : List α} {s t : State α} (h : Inv q s)
    (hstep : step s .finish = some t) : Inv q t := by
  cases hl : s.loop with
  | draining rest =>
      cases rest with
      | cons a rest => simp [step, hl] at hstep
      | nil =>
          simp only [step, hl, Option.some.injEq] at hstep
          subst hstep
          have horder := h.order
          have hbatch := h.batch
          have hwake := h.wake
          simp only [hl, Loop.rest, reduceCtorEq, false_or] at horder hbatch hwake
          exact ⟨⟨horder, hbatch, h.exact, fun hp hne => (hwake hp hne).imp_right .inr⟩,
            h.inited, h.counted⟩
  | _ => simp [step, hl] at hstep

theorem step_inv {q : List α} (s : State α) (l : Label α) (t : State α) (h : Inv q s)
    (hstep : step s l = some t) : Inv q t := by
  cases l with
  | push thread a => exact push_inv h hstep
  | send thread => exact send_inv h hstep
  | wake => exact wake_inv h hstep
  | swap => exact swap_inv h hstep
  | call => exact call_inv h hstep
  | ret => exact return_inv (.inl rfl) h hstep
  | throw => exact return_inv (.inr rfl) h hstep
  | finish => exact finish_inv h hstep

/-- A callback that throws takes nothing else with it. -/
theorem throw_keeps {s t : State α} (hstep : step s .throw = some t) :
    t.loop.rest = s.loop.rest ∧ t.sched = s.sched ∧ t.ran = s.ran := by
  cases hl : s.loop with
  | running a rest =>
      simp only [step, hl, Option.ite_none_right_eq_some, Option.some.injEq] at hstep
      obtain ⟨-, rfl⟩ := hstep
      exact ⟨rfl, rfl, rfl⟩
  | _ => simp [step, hl] at hstep

/-- Every interleaving of posting threads and drains within one session delivers
the posts in order and without a lost wake-up, also when callbacks post or throw. -/
theorem posts_delivered (q : List α) (ls : List (Label α)) (s : State α)
    (h : Transition.run step (session q) ls = some s) :
    Delivered q s ∧ ∀ t, step s .throw = some t →
      t.loop.rest = s.loop.rest ∧ t.sched = s.sched ∧ t.ran = s.ran :=
  ⟨(Transition.run_invariant step_inv (session_inv q) h).toDelivered, fun _ => throw_keeps⟩

/-- No wake-up is lost in a first session. -/
theorem posts_wake {ls : List (Label α)} {s : State α} (h : Transition.run step (session []) ls = some s)
    (hne : s.sched.postQueue ≠ []) :
    s.sched.asyncPending = true ∨ s.loop = .awoken ∨ ∃ t, s.posting t = true :=
  (Transition.run_invariant step_inv (session_inv []) h).wake (.inl rfl) hne

theorem pushed_le {s t : State α} {l : Label α} (h : step s l = some t) : s.pushed <+: t.pushed := by
  cases l <;> simp only [step] at h
  case push thread a =>
    split at h <;> cases h
    exact List.prefix_append _ _
  case send | wake | swap | call | ret | throw | finish =>
    repeat' split at h
    all_goals cases h <;> exact List.prefix_refl _

/-- What an earlier session left waits for the next push: nothing happens before it. -/
theorem leftovers_wait {q : List α} {ls : List (Label α)} {s : State α}
    (h : Transition.run step (session q) ls = some s) : s.pushed = [] → s = session q := by
  refine Transition.run_invariant (I := fun s : State α => s.pushed = [] → s = session q) ?_ (fun _ => rfl) h
  intro s l t hs ht hp
  obtain rfl := hs (List.prefix_nil.mp (hp ▸ pushed_le ht))
  cases l with
  | push thread a =>
      simp only [step, Option.ite_none_right_eq_some, Option.some.injEq] at ht
      obtain ⟨-, rfl⟩ := ht
      simp at hp
  | _ => simp [step, session, UvScheduler.start] at ht

/-- Two threads race with a drain whose first callback posts and throws. -/
def race : List (Label ℕ) :=
  [.push 1 10, .push 2 20, .send 2, .wake, .send 1, .swap, .push 1 30, .call, .push 0 40, .send 0,
    .throw, .call]

theorem posts_delivered_race : ∃ s, Transition.run step (session []) race = some s ∧
    s.ran = [10, 20] ∧ s.sched.postQueue = [30, 40] ∧ Delivered [] s :=
  ⟨_, rfl, rfl, rfl, (posts_delivered [] race _ rfl).1⟩

end LynneSocial.PostQueue
