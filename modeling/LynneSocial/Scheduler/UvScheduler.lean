import LynneSocial.Common.Std
import Mathlib.Data.Int.Basic

/-!
# UvScheduler

The scheduler object together with the part of `uv_default_loop()` that belongs
to it: the async handle and the timers it created. Callbacks are values of an
arbitrary type; running them is left to the systems built on top, which decide
what a callback does when it is called.

Of libuv the definitions take what its source does: `uv_async_send` sets the
pending flag of an open handle, `uv_timer_stop` and `uv_close` disarm a timer,
and a fired timer is armed again exactly when its repeat value is not zero.
-/
namespace LynneSocial

/-- A heap-allocated `TimerCtx` with its `uv_timer_t`. -/
structure TimerCtx (α : Type) where
  name : Str
  /-- `none` is an empty `std::function`. -/
  callback : Option α
  /-- `owner` points to `timers_` of the scheduler, or to nothing. -/
  owner : Bool := true
  /-- The handle was started with `oneshot_timer_cb`. -/
  oneshot : Bool
  interval : ℕ
  active : Bool := true
  /-- How often the handle was passed to `uv_close`. -/
  closes : ℕ := 0
  /-- `timer_close_cb` has run. -/
  closed : Bool := false
  deletes : ℕ := 0
  /-- The object was used after `timer_close_cb` had run. -/
  misused : Bool := false
deriving Repr, DecidableEq

namespace TimerCtx
variable {α : Type}

/-- Any access to the object; after the close callback it is freed memory. -/
def touch (c : TimerCtx α) : TimerCtx α := { c with misused := c.misused || c.closed }

theorem touch_of_open {c : TimerCtx α} (h : c.closed = false) : c.touch = c := by
  cases c
  simp_all [touch]

def uvTimerStop (c : TimerCtx α) : TimerCtx α := { c.touch with active := false }

def uvClose (c : TimerCtx α) : TimerCtx α :=
  { c.touch with active := false, closes := c.closes + 1 }

/-- What `stop` and `remove_job` do to a timer they take out of `timers_`. -/
def retire (c : TimerCtx α) : TimerCtx α := { c.uvTimerStop with owner := false }.uvClose

/-- `uv__run_timers`: the timer is stopped and started again if it repeats. -/
def rearm (c : TimerCtx α) : TimerCtx α := { c with active := c.interval != 0 }

/-- `timer_close_cb`. -/
def timerCloseCb (c : TimerCtx α) : TimerCtx α :=
  { c with closed := true, deletes := c.deletes + 1 }

end TimerCtx

structure UvScheduler (α : Type) where
  started : Bool := false
  asyncInited : Bool := false
  postQueue : List α := []
  timers : StdMap Str ℕ := ∅
  /-- The pending flag inside `async_handle_`. -/
  asyncPending : Bool := false
  /-- Every `TimerCtx` allocated so far; an address is an index. -/
  ctxs : List (TimerCtx α) := []
  /-- The `static std::atomic<int> counter` of `after`. -/
  counter : ℤ := 0

namespace UvScheduler
variable {α : Type}

def start (s : UvScheduler α) : UvScheduler α :=
  if s.started then s
  else { s with asyncPending := false, asyncInited := true, started := true }

def modifyCtx (s : UvScheduler α) (p : ℕ) (f : TimerCtx α → TimerCtx α) : UvScheduler α :=
  { s with ctxs := s.ctxs.modify p f }

/-- The loop of `stop` over `timers_`. -/
def retireAll (s : UvScheduler α) : UvScheduler α :=
  { s with
    ctxs := s.timers.entries.foldl (fun cs e => cs.modify e.2 TimerCtx.retire) s.ctxs
    timers := ∅ }

/-- The post queue is left as it is. -/
def stop (s : UvScheduler α) : UvScheduler α :=
  if s.started then { { s with started := false }.retireAll with asyncInited := false } else s

/-- The first half of `post`, under the mutex. -/
def push (s : UvScheduler α) (callback : α) : UvScheduler α :=
  { s with postQueue := s.postQueue ++ [callback] }

/-- `uv_async_send`; it has no effect on a handle that is not open. -/
def asyncSend (s : UvScheduler α) : UvScheduler α :=
  { s with asyncPending := s.asyncPending || s.asyncInited }

def post (s : UvScheduler α) (callback : α) : UvScheduler α := (s.push callback).asyncSend

def removeJob (s : UvScheduler α) (name : Str) : UvScheduler α :=
  match s.timers.lookup name with
  | some p => { s with timers := s.timers.erase name }.modifyCtx p TimerCtx.retire
  | none => s

/-- The common part of `add_job` and `after`: replace the job of that name. -/
def install (s : UvScheduler α) (ctx : TimerCtx α) : UvScheduler α :=
  let s := s.removeJob ctx.name
  { s with ctxs := s.ctxs ++ [ctx], timers := s.timers.insert ctx.name s.ctxs.length }

def addJob (s : UvScheduler α) (name : Str) (interval : ℕ) (callback : Option α) :
    UvScheduler α :=
  s.install { name, callback, oneshot := false, interval }

/-- `++counter` on a 32-bit atomic, which wraps. -/
def nextCounter (n : ℤ) : ℤ := if n = 2 ^ 31 - 1 then -2 ^ 31 else n + 1

/-- The internal job name of a delayed callback. -/
def afterName (n : ℤ) : Str := str "_a_" ++ str (toString n)

/-- The delay only decides when the loop finds the timer due. -/
def after (s : UvScheduler α) (callback : Option α) : UvScheduler α :=
  let n := nextCounter s.counter
  { s with counter := n }.install { name := afterName n, callback, oneshot := true, interval := 0 }

/-- What `oneshot_timer_cb` does once the callback is back. -/
def oneshotTail (s : UvScheduler α) (p : ℕ) : UvScheduler α :=
  match s.ctxs[p]? with
  | some c =>
    let s := s.modifyCtx p TimerCtx.uvTimerStop
    let s := if c.owner then { s with timers := s.timers.erase c.name } else s
    s.modifyCtx p TimerCtx.uvClose
  | none => s

@[simp] theorem push_postQueue (s : UvScheduler α) (a : α) :
    (s.push a).postQueue = s.postQueue ++ [a] := rfl
@[simp] theorem push_asyncPending (s : UvScheduler α) (a : α) :
    (s.push a).asyncPending = s.asyncPending := rfl
@[simp] theorem push_asyncInited (s : UvScheduler α) (a : α) :
    (s.push a).asyncInited = s.asyncInited := rfl
@[simp] theorem asyncSend_postQueue (s : UvScheduler α) :
    s.asyncSend.postQueue = s.postQueue := rfl
@[simp] theorem asyncSend_asyncInited (s : UvScheduler α) :
    s.asyncSend.asyncInited = s.asyncInited := rfl
@[simp] theorem asyncSend_asyncPending (s : UvScheduler α) :
    s.asyncSend.asyncPending = (s.asyncPending || s.asyncInited) := rfl

@[simp] theorem modifyCtx_timers (s : UvScheduler α) (p : ℕ) (f : TimerCtx α → TimerCtx α) :
    (s.modifyCtx p f).timers = s.timers := rfl

end UvScheduler

end LynneSocial
