import LynneSocial.Llm.DeepSeekEngine
import LynneSocial.Scheduler.ThreadPool

/-!
# Overlapping chats

An engine has any number of calls of `chat` in hand at once, from different
callers and from inside the callbacks of each other. Each has a `ChatCtx` of its
own; its worker lambda writes there and its completion lambda reads it, whatever
the workers and the loop do in between. The result of an HTTP exchange comes
with the step in which the worker lambda is back.

Neither `chat` nor the workers look at `started_`: calls before `start()` and
after `stop()` are handled like any other, as long as somebody runs the loop.
-/
namespace LynneSocial

namespace DeepSeekEngine

/-- What the two lambdas of a call of `chat` capture, and which call it is. -/
structure Lambdas where
  chat : ℕ
  ctx : ChatCtx
  callbacks : Callbacks

/-- A call of `chat`. -/
structure Call where
  messages : Json
  tools : Json
  callbacks : Callbacks
  env : Environment

structure Engine where
  started : Bool := false
  pool : ThreadPool.State Lambdas HttpOutcome
  calls : List Call := []
  /-- The calls of the functions that were passed to `chat`, and to which call of it. -/
  answers : List (ℕ × Callback) := []

namespace Engine

inductive Label where
  | start
  /-- What the loop does in the `step()` inside `stop()` are steps of their own. -/
  | stop
  | chat (call : Call) (signalled : Option ℕ)
  | pool (l : ThreadPool.Label Lambdas HttpOutcome)

/-- The completion lambda of the request that the loop takes next. -/
def completion (e : Engine) : List (ℕ × Callback) :=
  match e.pool.stack with
  | .draining (p :: _) :: _ =>
    match e.pool.data[p]? with
    | some d => (onDone d.callbacks d.ctx).map (d.chat, ·)
    | none => []
  | _ => []

variable (c : JsonCodec) (config : LLMConfig) (what : Str → Str)

/-- The worker lambda as it runs in the pool. -/
def workLambda (outcome : HttpOutcome) (d : Lambdas) : Lambdas := { d with ctx := work c what outcome d.ctx }

def reply (call : Call) : Except ChatError Started :=
  DeepSeekEngine.chat c config call.env call.callbacks call.messages call.tools

def step (e : Engine) : Label → Option Engine
  | .start => some { e with started := true }
  | .stop => some { e with started := false }
  | .chat call signalled =>
    let f := { e with calls := e.calls ++ [call] }
    match reply c config call with
    | .error _ => some f
    | .ok (.answered calls) => some { f with answers := e.answers ++ calls.map (e.calls.length, ·) }
    | .ok (.queued ctx) =>
      (ThreadPool.step (workLambda c what) e.pool
        (.queue ⟨e.calls.length, ctx, call.callbacks⟩ signalled)).map fun pool => { f with pool }
  | .pool (.queue _ _) => none
  | .pool .call =>
    (ThreadPool.step (workLambda c what) e.pool .call).map fun pool =>
      { e with pool, answers := e.answers ++ e.completion }
  | .pool l => (ThreadPool.step (workLambda c what) e.pool l).map fun pool => { e with pool }

def init (size : Option ℤ) : Engine := { pool := ThreadPool.init size }

/-- The answers that a call of `chat` has got. -/
def answersTo (e : Engine) (n : ℕ) : List Callback := (e.answers.filter (·.1 = n)).map Prod.snd

variable {c config what}
variable {e f : Engine}

/-- What each step does, and when it can be taken. -/
inductive Does (c : JsonCodec) (config : LLMConfig) (what : Str → Str) (e : Engine) : Label → Engine → Prop
  | start : Does c config what e .start { e with started := true }
  | stop : Does c config what e .stop { e with started := false }
  | throws (call : Call) (signalled : Option ℕ) (err : ChatError) (h : reply c config call = .error err) :
      Does c config what e (.chat call signalled) { e with calls := e.calls ++ [call] }
  | answered (call : Call) (signalled : Option ℕ) (calls : List Callback)
      (h : reply c config call = .ok (.answered calls)) :
      Does c config what e (.chat call signalled) { e with
        calls := e.calls ++ [call]
        answers := e.answers ++ calls.map (e.calls.length, ·) }
  | queued (call : Call) (signalled : Option ℕ) (ctx : ChatCtx) (pool : ThreadPool.State Lambdas HttpOutcome)
      (h : reply c config call = .ok (.queued ctx))
      (hpool : ThreadPool.step (workLambda c what) e.pool
        (.queue ⟨e.calls.length, ctx, call.callbacks⟩ signalled) = some pool) :
      Does c config what e (.chat call signalled) { e with calls := e.calls ++ [call], pool }
  | called (pool : ThreadPool.State Lambdas HttpOutcome)
      (hpool : ThreadPool.step (workLambda c what) e.pool .call = some pool) :
      Does c config what e (.pool .call) { e with pool, answers := e.answers ++ e.completion }
  | pool (l : ThreadPool.Label Lambdas HttpOutcome) (pool : ThreadPool.State Lambdas HttpOutcome)
      (hl : l.internal = false → ∃ i, l = .spurious i) (hcall : l ≠ .call)
      (hpool : ThreadPool.step (workLambda c what) e.pool l = some pool) :
      Does c config what e (.pool l) { e with pool }

theorem step_does {l : Label} (hstep : step c config what e l = some f) : Does c config what e l f := by
  cases l with
  | start => exact Option.some.inj hstep ▸ .start
  | stop => exact Option.some.inj hstep ▸ .stop
  | chat call signalled =>
      simp only [step] at hstep
      split at hstep
      · rename_i err hr
        exact Option.some.inj hstep ▸ .throws call signalled err hr
      · rename_i calls hr
        exact Option.some.inj hstep ▸ .answered call signalled calls hr
      · rename_i ctx hr
        obtain ⟨pool, hpool, rfl⟩ := Option.map_eq_some_iff.mp hstep
        exact .queued call signalled ctx pool hr hpool
  | pool l =>
      cases l with
      | queue d signalled => cases hstep
      | call =>
          obtain ⟨pool, hpool, rfl⟩ := Option.map_eq_some_iff.mp hstep
          exact .called pool hpool
      | spurious i =>
          obtain ⟨pool, hpool, rfl⟩ := Option.map_eq_some_iff.mp hstep
          exact .pool _ pool (fun _ => ⟨i, rfl⟩) (by simp) hpool
      | _ =>
          obtain ⟨pool, hpool, rfl⟩ := Option.map_eq_some_iff.mp hstep
          exact .pool _ pool (fun hl => by cases hl) (by simp) hpool

/-- What a step of the pool adds to its events. -/
inductive Adds (s t : ThreadPool.State Lambdas HttpOutcome) :
    ThreadPool.Label Lambdas HttpOutcome → Prop
  | queued (d : Lambdas) (signalled : Option ℕ) (h : t.events = s.events ++ [.queued s.data.length d]) :
      Adds s t (.queue d signalled)
  | done (p : ℕ) (ps : List ℕ) (rest : List ThreadPool.Frame) (d : Lambdas)
      (hst : s.stack = .draining (p :: ps) :: rest) (hd : s.data[p]? = some d)
      (h : t.events = s.events ++ [.done p d]) : Adds s t .call
  | other (l : ThreadPool.Label Lambdas HttpOutcome) (es : List (ThreadPool.Event Lambdas HttpOutcome))
      (h : t.events = s.events ++ es) (hqueued : ∀ p d, .queued p d ∉ es) (hdone : ∀ p d, .done p d ∉ es) :
      Adds s t l

theorem next_adds {s u : ThreadPool.State Lambdas HttpOutcome} {l : ThreadPool.Label Lambdas HttpOutcome}
    (hu : u.events = s.events) (i : ℕ) : Adds s (u.next i) l := by
  cases hwq : u.wq with
  | nil => exact .other _ [] (by simp [ThreadPool.State.next, hwq, hu]) (by simp) (by simp)
  | cons p rest => exact .other _ [.taken p] (by simp [ThreadPool.State.next, hwq, hu]) (by simp) (by simp)

theorem pool_adds {s t : ThreadPool.State Lambdas HttpOutcome} {l : ThreadPool.Label Lambdas HttpOutcome}
    (hstep : ThreadPool.step (workLambda c what) s l = some t) : Adds s t l := by
  cases ThreadPool.step_does hstep with
  | queue d signalled workers hw => exact .queued d signalled rfl
  | look i hi => exact next_adds rfl i
  | lookAgain i hi => exact @next_adds s { s with idleThreads := s.idleThreads - 1 } _ rfl i
  | workReturns i p o hi => exact .other _ [.worked p o] rfl (by simp) (by simp)
  | call p ps rest d hst hd => exact .done p ps rest d hst hd rfl
  | ret p ps rest hst => exact .other _ [.deleted p] rfl (by simp) (by simp)
  | spurious => exact .other _ [] (List.append_nil _).symm (by simp) (by simp)
  | publish => exact .other _ [] (List.append_nil _).symm (by simp) (by simp)
  | wake => exact .other _ [] (List.append_nil _).symm (by simp) (by simp)
  | swap => exact .other _ [] (List.append_nil _).symm (by simp) (by simp)
  | finish => exact .other _ [] (List.append_nil _).symm (by simp) (by simp)

/-- What a call is answered before it is back. -/
def atOnce (c : JsonCodec) (config : LLMConfig) (e : Engine) (n : ℕ) : List Callback :=
  match e.calls[n]? with
  | some call =>
    match reply c config call with
    | .ok (.answered calls) => calls
    | _ => []
  | none => []

/-- What an event of the pool answers to a call. -/
def fromPool (n : ℕ) : ThreadPool.Event Lambdas HttpOutcome → List Callback
  | .done _ d => if d.chat = n then onDone d.callbacks d.ctx else []
  | _ => []

structure Linked (c : JsonCodec) (config : LLMConfig) (what : Str → Str) (e : Engine) : Prop where
  pool : ThreadPool.Inv (workLambda c what) e.pool
  asked : ∀ n call ctx, e.calls[n]? = some call → reply c config call = .ok (.queued ctx) →
    ∃ p, .queued p ⟨n, ctx, call.callbacks⟩ ∈ e.pool.events
  known : ∀ p d, .queued p d ∈ e.pool.events →
    ∃ call ctx, e.calls[d.chat]? = some call ∧ reply c config call = .ok (.queued ctx)
  distinct : ∀ p q d d', .queued p d ∈ e.pool.events → .queued q d' ∈ e.pool.events → d.chat = d'.chat → p = q
  answers : ∀ n, e.answersTo n = atOnce c config e n ++ e.pool.events.flatMap (fromPool n)

theorem getElem?_calls {calls : List Call} {call new : Call} {n : ℕ} (h : (calls ++ [new])[n]? = some call) :
    calls[n]? = some call ∨ n = calls.length ∧ call = new := by
  rw [List.getElem?_append] at h
  split_ifs at h with hlt
  · exact .inl h
  · right
    obtain ⟨hn, rfl⟩ := List.getElem?_eq_some_iff.mp h
    have hzero : n - calls.length = 0 := by simpa using hn
    exact ⟨by omega, by simp [hzero]⟩

theorem getElem?_calls_of_some {calls : List Call} {call : Call} {n : ℕ} (new : Call) (h : calls[n]? = some call) :
    (calls ++ [new])[n]? = some call := by
  rw [List.getElem?_append_left (List.getElem?_eq_some_iff.mp h).1, h]

theorem Linked.chat_lt (h : Linked c config what e) {p : ℕ} {d : Lambdas}
    (hp : .queued p d ∈ e.pool.events) : d.chat < e.calls.length := by
  obtain ⟨call, -, hcall, -⟩ := h.known p d hp
  exact (List.getElem?_eq_some_iff.mp hcall).1

/-- What the events of the pool say of a request that is done. -/
theorem Linked.chat_of_done (h : Linked c config what e) {p : ℕ} {d : Lambdas}
    (hd : .done p d ∈ e.pool.events) : ∃ d', .queued p d' ∈ e.pool.events ∧ d'.chat = d.chat := by
  obtain ⟨k, hk⟩ := h.pool.at (h.pool.known _ hd)
  obtain ⟨d', -, hl⟩ := h.pool.lived _ hk
  have hmem : ThreadPool.Event.done p d ∈ e.pool.eventsOf p :=
    List.mem_filter.mpr ⟨hd, by simp [ThreadPool.Event.request]⟩
  obtain ⟨d₀, o, hqueued, -, rfl⟩ := hl.of_done hmem
  exact ⟨d₀, (List.mem_filter.mp hqueued).1, rfl⟩

/-- A call that is not known yet has got nothing from the pool. -/
theorem Linked.fromPool_new (h : Linked c config what e) :
    e.pool.events.flatMap (fromPool e.calls.length) = [] := by
  rw [List.flatMap_eq_nil_iff]
  intro ev hev
  cases ev with
  | done p d =>
      obtain ⟨d', hd', hchat⟩ := h.chat_of_done hev
      have hlt := h.chat_lt hd'
      exact if_neg (by omega)
  | _ => rfl

theorem atOnce_calls {new : Call} (hf : f.calls = e.calls ++ [new]) {n : ℕ} (hn : n ≠ e.calls.length) :
    atOnce c config f n = atOnce c config e n := by
  unfold atOnce
  rw [hf, List.getElem?_append]
  split_ifs with hlt
  · rfl
  · rw [List.getElem?_eq_none (by simp; omega), List.getElem?_eq_none (by omega)]

theorem answersTo_append (e : Engine) (n m : ℕ) (cbs : List Callback) :
    { e with answers := e.answers ++ cbs.map (m, ·) }.answersTo n =
      e.answersTo n ++ if m = n then cbs else [] := by
  simp only [answersTo, List.filter_append, List.map_append]
  split_ifs with h
  · subst h
    have hall : (cbs.map fun x => (m, x)).filter (fun a => decide (a.1 = m)) = cbs.map fun x => (m, x) := by
      rw [List.filter_eq_self]
      simp
    rw [hall, List.map_map]
    simp [Function.comp_def]
  · have hnone : (cbs.map fun x => (m, x)).filter (fun a => decide (a.1 = n)) = [] := by
      rw [List.filter_eq_nil_iff]
      simp [h]
    rw [hnone, List.map_nil]

/-- The pool takes a step that queues nothing. -/
theorem Linked.pool_step (h : Linked c config what e) {l : ThreadPool.Label Lambdas HttpOutcome}
    {pool : ThreadPool.State Lambdas HttpOutcome} {es : List (ThreadPool.Event Lambdas HttpOutcome)}
    (hpool : ThreadPool.step (workLambda c what) e.pool l = some pool) (hes : pool.events = e.pool.events ++ es)
    (hqueued : ∀ p d, .queued p d ∉ es) (hf : f.pool = pool) (hcalls : f.calls = e.calls)
    (hanswers : ∀ n, f.answersTo n = e.answersTo n ++ es.flatMap (fromPool n)) : Linked c config what f := by
  have hmem : ∀ p d, .queued p d ∈ pool.events ↔ .queued p d ∈ e.pool.events := by
    intro p d
    simp [hes, hqueued p d]
  subst hf
  refine ⟨h.pool.step _ _ _ hpool, ?_, ?_, ?_, ?_⟩
  · simpa only [hmem, hcalls] using h.asked
  · simpa only [hmem, hcalls] using h.known
  · simpa only [hmem] using h.distinct
  · intro n
    have hatOnce : atOnce c config f n = atOnce c config e n := by simp only [atOnce, hcalls]
    rw [hanswers, h.answers, hes, List.flatMap_append, hatOnce, List.append_assoc]

/-- A call that does not reach the pool. -/
theorem Linked.no_request (h : Linked c config what e) {call : Call} (hf : f.pool = e.pool)
    (hcalls : f.calls = e.calls ++ [call]) (hreply : ∀ ctx, reply c config call ≠ .ok (.queued ctx))
    (hanswers : ∀ n, f.answersTo n =
      e.answersTo n ++ if e.calls.length = n then atOnce c config f e.calls.length else []) :
    Linked c config what f := by
  refine ⟨hf ▸ h.pool, ?_, ?_, hf ▸ h.distinct, ?_⟩
  · intro n call' ctx hn hr
    rw [hcalls] at hn
    rcases getElem?_calls hn with hn | ⟨-, rfl⟩
    · exact hf ▸ h.asked n call' ctx hn hr
    · exact absurd hr (hreply ctx)
  · intro p d hp
    rw [hf] at hp
    obtain ⟨call', ctx, hn, hr⟩ := h.known p d hp
    exact ⟨call', ctx, hcalls ▸ getElem?_calls_of_some call hn, hr⟩
  · intro n
    rw [hanswers, h.answers, hf]
    split_ifs with hn
    · subst hn
      have hnew : atOnce c config e e.calls.length = [] := by simp [atOnce]
      rw [hnew, h.fromPool_new]
      simp
    · rw [atOnce_calls hcalls (Ne.symm hn), List.append_nil]

theorem Linked.request (h : Linked c config what e) {call : Call} {signalled : Option ℕ} {ctx : ChatCtx}
    {pool : ThreadPool.State Lambdas HttpOutcome} (hr : reply c config call = .ok (.queued ctx))
    (hpool : ThreadPool.step (workLambda c what) e.pool
      (.queue ⟨e.calls.length, ctx, call.callbacks⟩ signalled) = some pool) :
    Linked c config what { e with calls := e.calls ++ [call], pool } := by
  have hevents : pool.events = e.pool.events ++
      [.queued e.pool.data.length ⟨e.calls.length, ctx, call.callbacks⟩] := by
    cases ThreadPool.step_does hpool with
    | queue => rfl
  have hcases : ∀ p d, .queued p d ∈ pool.events → .queued p d ∈ e.pool.events ∨
      p = e.pool.data.length ∧ d = ⟨e.calls.length, ctx, call.callbacks⟩ := by
    intro p d hp
    simpa [hevents] using hp
  have hnew : (e.calls ++ [call])[e.calls.length]? = some call := by simp
  refine ⟨h.pool.step _ _ _ hpool, ?_, ?_, ?_, ?_⟩
  · intro n call' ctx' hn hr'
    rcases getElem?_calls hn with hn | ⟨rfl, rfl⟩
    · obtain ⟨p, hp⟩ := h.asked n call' ctx' hn hr'
      exact ⟨p, hevents ▸ List.mem_append_left _ hp⟩
    · obtain rfl : ctx' = ctx := by
        rw [hr] at hr'
        injection Except.ok.inj hr' with hctx
        exact hctx.symm
      exact ⟨e.pool.data.length, hevents ▸ List.mem_append_right _ List.mem_cons_self⟩
  · intro p d hp
    rcases hcases p d hp with hp | ⟨-, rfl⟩
    · obtain ⟨call', ctx', hn, hr'⟩ := h.known p d hp
      exact ⟨call', ctx', getElem?_calls_of_some call hn, hr'⟩
    · exact ⟨call, ctx, hnew, hr⟩
  · intro p q d d' hp hq hchat
    rcases hcases p d hp with hp | ⟨rfl, rfl⟩
    · rcases hcases q d' hq with hq | ⟨rfl, rfl⟩
      · exact h.distinct p q d d' hp hq hchat
      · exact absurd hchat (h.chat_lt hp).ne
    · rcases hcases q d' hq with hq | ⟨rfl, rfl⟩
      · exact absurd hchat (h.chat_lt hq).ne'
      · rfl
  · intro n
    have hflat : pool.events.flatMap (fromPool n) = e.pool.events.flatMap (fromPool n) := by
      simp [hevents, fromPool]
    have hsame : e.answersTo n = atOnce c config e n ++ pool.events.flatMap (fromPool n) := by
      rw [hflat, h.answers]
    refine hsame.trans ?_
    by_cases hn : n = e.calls.length
    · subst hn
      have hbefore : atOnce c config e e.calls.length = [] := by simp [atOnce]
      have hafter : atOnce c config { e with calls := e.calls ++ [call], pool } e.calls.length = [] := by
        simp only [atOnce, hnew, hr]
      rw [hbefore, hafter]
    · have hcalls : ({ e with calls := e.calls ++ [call], pool } : Engine).calls = e.calls ++ [call] := rfl
      rw [atOnce_calls hcalls hn]

theorem Linked.step (e : Engine) (l : Label) (f : Engine) (h : Linked c config what e)
    (hstep : step c config what e l = some f) : Linked c config what f := by
  cases step_does hstep with
  | start => exact ⟨h.pool, h.asked, h.known, h.distinct, h.answers⟩
  | stop => exact ⟨h.pool, h.asked, h.known, h.distinct, h.answers⟩
  | throws call signalled err hr =>
      refine h.no_request rfl rfl (by simp [hr]) fun n => ?_
      have hatOnce : atOnce c config { e with calls := e.calls ++ [call] } e.calls.length = [] := by
        simp [atOnce, hr]
      rw [hatOnce, ite_self, List.append_nil]
      rfl
  | answered call signalled calls hr =>
      refine h.no_request rfl rfl (by simp [hr]) fun n => ?_
      have hatOnce : ∀ g : Engine, g.calls = e.calls ++ [call] → atOnce c config g e.calls.length = calls := by
        intro g hg
        simp [atOnce, hg, hr]
      rw [hatOnce _ rfl]
      exact answersTo_append { e with calls := e.calls ++ [call] } n e.calls.length calls
  | queued call signalled ctx pool hr hpool => exact h.request hr hpool
  | called pool hpool =>
      cases ThreadPool.step_does hpool with
      | call p ps rest d hst hd =>
          have hev : e.pool.events ++ [.done p d] = e.pool.events ++ [.done p d] := rfl
          refine h.pool_step hpool hev (by simp) rfl rfl fun n => ?_
          have hcompletion : e.completion = (onDone d.callbacks d.ctx).map (d.chat, ·) := by
            simp only [completion, hst, hd]
          simp only [hcompletion, List.flatMap_cons, List.flatMap_nil, List.append_nil, fromPool]
          exact answersTo_append _ n d.chat _
  | pool l pool hl hcall hpool =>
      cases pool_adds hpool with
      | queued d signalled hev =>
          obtain ⟨i, hi⟩ := hl rfl
          cases hi
      | done p ps rest d hst hd hev => exact absurd rfl hcall
      | other l es hev hqueued hdone =>
          refine h.pool_step hpool hev hqueued rfl rfl fun n => ?_
          have hnone : es.flatMap (fromPool n) = [] := by
            rw [List.flatMap_eq_nil_iff]
            intro ev hev
            cases ev with
            | done p d => exact absurd hev (hdone p d)
            | _ => rfl
          rw [hnone, List.append_nil]
          rfl

theorem init_linked (size : Option ℤ) : Linked c config what (init size) where
  pool := ThreadPool.init_inv size
  asked n call ctx hn := by simp [init] at hn
  known p d hp := by simp [init, ThreadPool.init] at hp
  distinct p q d d' hp := by simp [init, ThreadPool.init] at hp
  answers n := by simp [init, ThreadPool.init, answersTo, atOnce]

/-- What a call of `chat` has been answered so far. -/
inductive Answered (c : JsonCodec) (config : LLMConfig) (what : Str → Str) (e : Engine) (n : ℕ) (call : Call) : Prop
  | throws (err : ChatError) (h : reply c config call = .error err) (answers : e.answersTo n = [])
  | atOnce (calls : List Callback) (h : reply c config call = .ok (.answered calls))
      (answers : e.answersTo n = calls)
  /-- The loop is alive. -/
  | pending (ctx : ChatCtx) (p : ℕ) (h : reply c config call = .ok (.queued ctx))
      (request : .queued p ⟨n, ctx, call.callbacks⟩ ∈ e.pool.events) (answers : e.answersTo n = [])
      (active : 0 < e.pool.activeReqs)
  /-- The answer is made of the call's own request and its own HTTP exchange. -/
  | done (ctx : ChatCtx) (p : ℕ) (outcome : HttpOutcome) (h : reply c config call = .ok (.queued ctx))
      (request : .queued p ⟨n, ctx, call.callbacks⟩ ∈ e.pool.events) (worked : .worked p outcome ∈ e.pool.events)
      (answers : e.answersTo n = onDone call.callbacks (work c what outcome ctx))

/-- The pool answers a call by the events of its request alone. -/
theorem Linked.fromPool_eq (h : Linked c config what e) {p : ℕ} {d : Lambdas}
    (hp : .queued p d ∈ e.pool.events) :
    e.pool.events.flatMap (fromPool d.chat) = (e.pool.eventsOf p).flatMap (fromPool d.chat) := by
  have hother : ∀ ev ∈ e.pool.events, ev.request ≠ p → fromPool d.chat ev = [] := by
    intro ev hev hne
    cases ev with
    | done q d' =>
        refine if_neg fun hchat => hne ?_
        obtain ⟨d₀, hd₀, hchat₀⟩ := h.chat_of_done hev
        exact h.distinct q p d₀ d hd₀ hp (hchat₀.trans hchat)
    | _ => rfl
  rw [ThreadPool.State.eventsOf]
  generalize e.pool.events = es at hother
  induction es with
  | nil => rfl
  | cons ev es ih =>
      obtain ⟨hev, hes⟩ := List.forall_mem_cons.mp hother
      rw [List.filter_cons, List.flatMap_cons, ih hes]
      by_cases hr : ev.request = p
      · simp [hr]
      · simp [hr, hev hr]

/-- The pool has nothing for a call that put no request into it. -/
theorem Linked.fromPool_eq_nil (h : Linked c config what e) {n : ℕ} {call : Call} (hn : e.calls[n]? = some call)
    (hr : ∀ ctx, reply c config call ≠ .ok (.queued ctx)) : e.pool.events.flatMap (fromPool n) = [] := by
  rw [List.flatMap_eq_nil_iff]
  intro ev hev
  cases ev with
  | done p d =>
      refine if_neg fun hchat => ?_
      obtain ⟨d₀, hd₀, hchat₀⟩ := h.chat_of_done hev
      obtain ⟨call', ctx, hn', hr'⟩ := h.known p d₀ hd₀
      rw [hchat₀, hchat, hn] at hn'
      exact hr ctx (Option.some.inj hn' ▸ hr')
  | _ => rfl

theorem answers_of_life {p k n : ℕ} {es : List (ThreadPool.Event Lambdas HttpOutcome)} {ctx : ChatCtx}
    {cb : Callbacks} {d : Lambdas} (h : ThreadPool.Life (workLambda c what) p k es d)
    (hq : .queued p ⟨n, ctx, cb⟩ ∈ es) :
    (k ≤ 3 ∧ es.flatMap (fromPool n) = []) ∨
      ∃ o, .worked p o ∈ es ∧ es.flatMap (fromPool n) = onDone cb (work c what o ctx) := by
  cases h with
  | queued d => exact .inl ⟨by omega, rfl⟩
  | taken d => exact .inl ⟨by omega, rfl⟩
  | worked d o => exact .inl ⟨by omega, rfl⟩
  | done d o =>
      obtain rfl : ⟨n, ctx, cb⟩ = d := by simpa using hq
      exact .inr ⟨o, by simp, by simp [fromPool, workLambda]⟩
  | deleted d o =>
      obtain rfl : ⟨n, ctx, cb⟩ = d := by simpa using hq
      exact .inr ⟨o, by simp, by simp [fromPool, workLambda]⟩

theorem Linked.answered (h : Linked c config what e) {n : ℕ} {call : Call} (hn : e.calls[n]? = some call) :
    Answered c config what e n call := by
  have hanswers := h.answers n
  cases hr : reply c config call with
  | error err =>
      refine .throws err hr ?_
      have hnone : e.pool.events.flatMap (fromPool n) = [] := h.fromPool_eq_nil hn (by simp [hr])
      rw [hanswers, hnone]
      simp [Engine.atOnce, hn, hr]
  | ok started =>
      cases started with
      | answered calls =>
          refine .atOnce calls hr ?_
          have hnone : e.pool.events.flatMap (fromPool n) = [] := h.fromPool_eq_nil hn (by simp [hr])
          rw [hanswers, hnone]
          simp [Engine.atOnce, hn, hr]
      | queued ctx =>
          obtain ⟨p, hp⟩ := h.asked n call ctx hn hr
          obtain ⟨k, hk⟩ := h.pool.at (h.pool.known _ hp)
          obtain ⟨d, -, hl⟩ := h.pool.lived _ hk
          have hqueued : ThreadPool.Event.queued p ⟨n, ctx, call.callbacks⟩ ∈ e.pool.eventsOf p :=
            List.mem_filter.mpr ⟨hp, by simp [ThreadPool.Event.request]⟩
          have hatOnce : Engine.atOnce c config e n = [] := by simp [Engine.atOnce, hn, hr]
          have heq : e.answersTo n = (e.pool.eventsOf p).flatMap (fromPool n) := by
            rw [hanswers, hatOnce, List.nil_append]
            exact h.fromPool_eq hp
          have hactive : k ≤ 3 → 0 < e.pool.activeReqs := by
            intro hle
            rw [h.pool.active]
            exact Multiset.countP_pos.mpr ⟨_, hk, hle⟩
          rcases answers_of_life hl hqueued with ⟨hle, hnil⟩ | ⟨o, ho, hdone⟩
          · exact .pending ctx p hr hp (heq.trans hnil) (hactive hle)
          · exact .done ctx p o hr hp (List.mem_filter.mp ho).1 (heq.trans hdone)

theorem complete_queued_length (outcome : HttpOutcome) {ctx : ChatCtx} (h : ctx.ok = false) :
    (complete c {} what outcome (.queued ctx)).length = 1 := by
  rcases complete_queued c what outcome h with ⟨text, htext⟩ | ⟨-, result, -, -, hresult⟩
  · rw [htext]
    rfl
  · rw [hresult]
    rfl

/-- Between them the two functions get one call. -/
theorem complete_length (what : Str → Str) (outcome : HttpOutcome) {call : Call} {started : Started}
    (hr : reply c config call = .ok started) (hcb : call.callbacks = {}) :
    (complete c call.callbacks what outcome started).length = 1 := by
  rw [reply, hcb, DeepSeekEngine.chat] at hr
  rw [hcb]
  split at hr
  · cases hr
  · obtain rfl := Except.ok.inj hr
    rfl
  · split at hr
    · cases hr
    · obtain rfl := Except.ok.inj hr
      exact complete_queued_length outcome rfl

/-- When nothing is active any more, a call that came back has been answered once. -/
theorem Answered.once {n : ℕ} {call : Call} (h : Answered c config what e n call)
    (hactive : e.pool.activeReqs = 0) (hcb : call.callbacks = {}) :
    (∃ err, reply c config call = .error err ∧ e.answersTo n = []) ∨ (e.answersTo n).length = 1 := by
  cases h with
  | throws err h answers => exact .inl ⟨err, h, answers⟩
  | atOnce calls h answers =>
      rw [answers]
      exact .inr (complete_length what .throwsOther h hcb)
  | pending ctx p h request answers active => omega
  | done ctx p outcome h request worked answers =>
      rw [answers]
      exact .inr (complete_length _ outcome h hcb)

/-- A step of the workers or the loop. -/
def Label.internal : Label → Bool
  | .pool l => l.internal
  | _ => false

theorem step_remaining {l : Label} (hl : l.internal = true) (hstep : step c config what e l = some f) :
    f.pool.remaining < e.pool.remaining := by
  cases step_does hstep with
  | start => cases hl
  | stop => cases hl
  | throws => cases hl
  | answered => cases hl
  | queued => cases hl
  | called pool hpool => exact ThreadPool.step_remaining _ rfl hpool
  | pool l pool _ _ hpool => exact ThreadPool.step_remaining _ hl hpool

/-- Overlapping chats do not disturb each other. In every run, each call has thrown, or has been
answered from its own request and its own exchange, or is pending while the loop is alive. The workers
and the loop come to rest after a bounded number of steps, and then each call that came back has been
answered exactly once. -/
theorem chats_answered (c : JsonCodec) (config : LLMConfig) (what : Str → Str) (size : Option ℤ) (ls : List Label)
    (e : Engine) (h : Transition.run (step c config what) (init size) ls = some e) :
    (∀ n call, e.calls[n]? = some call → Answered c config what e n call) ∧
      ∃ bound : ℕ, ∀ (ks : List Label) (f : Engine), (∀ k ∈ ks, k.internal = true) →
        Transition.run (step c config what) e ks = some f → ks.length ≤ bound ∧
          (ThreadPool.Still (workLambda c what) f.pool → ∀ n call, f.calls[n]? = some call → call.callbacks = {} →
            (∃ err, reply c config call = .error err ∧ f.answersTo n = []) ∨ (f.answersTo n).length = 1) := by
  have hlinked : Linked c config what e := Transition.run_invariant Linked.step (init_linked size) h
  refine ⟨fun n call hn => hlinked.answered hn, e.pool.remaining, fun ks f hks hrun => ⟨?_, ?_⟩⟩
  · have hlen := Transition.run_length_le (I := fun _ => True) (μ := fun e : Engine => e.pool.remaining)
      (fun _ _ _ _ _ => trivial) (fun _ l _ _ hl hstep => step_remaining hl hstep) trivial hks hrun
    omega
  · intro hstill n call hn hcb
    have hf : Linked c config what f := Transition.run_invariant Linked.step hlinked hrun
    have : Nonempty HttpOutcome := ⟨.throwsOther⟩
    exact (hf.answered hn).once (hf.pool.still hstill).1 hcb

def hello : Call := ⟨.arr [], .null, {}, {}⟩

/-- Two calls; the second exchange is over first. -/
def overtaking : List Label :=
  [.pool (.look 0), .pool (.look 1), .chat hello (some 0), .chat hello (some 1), .pool (.look 0), .pool (.look 1),
    .pool (.workReturns 1 (.failed (str "Timeout"))), .pool (.publish 1), .stop, .pool .wake, .pool .swap,
    .pool .call, .pool (.workReturns 0 (.response 401 (str "no key")))]

theorem chats_answered_overtaking : ∃ e : Engine,
    Transition.run (step (JsonText.codec JsonText.exactDigits) {} id) (init (some 2)) overtaking = some e ∧
      e.answersTo 1 = [.onError (str "LLM API connection failed: Timeout")] ∧ e.answersTo 0 = [] ∧
        ∀ n call, e.calls[n]? = some call → Answered (JsonText.codec JsonText.exactDigits) {} id e n call :=
  ⟨_, rfl, rfl, rfl, (chats_answered (JsonText.codec JsonText.exactDigits) {} id (some 2) overtaking _ rfl).1⟩

end Engine

end DeepSeekEngine

end LynneSocial
