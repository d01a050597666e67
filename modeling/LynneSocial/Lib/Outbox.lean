import Mathlib.Data.List.Basic

/-!
# Outboxes

An outbox is closed at first; what is put in waits. Flushing opens it: what waits
goes out in order, followed by one more item, and from then on everything goes
out at once. The two ways out make one stream, which is the items in the order
in which they came.
-/

/-- What has gone out and what waits; nothing waits in an open outbox. -/
structure Outbox (α : Type) where
  opened : Bool
  sent : List α
  queue : List α
  empty : opened = true → queue = []

namespace Outbox

variable {α : Type}

inductive Action (α : Type) where
  | put (item : α)
  | flush (item : α)

def Action.item : Action α → α
  | put x | flush x => x

def Action.isFlush : Action α → Bool
  | put _ => false
  | flush _ => true

def closed : Outbox α := ⟨false, [], [], nofun⟩

def put (o : Outbox α) (x : α) : Outbox α where
  opened := o.opened
  sent := if o.opened then o.sent ++ [x] else o.sent
  queue := if o.opened then [] else o.queue ++ [x]
  empty h := by simp [h]

def flush (o : Outbox α) (x : α) : Outbox α := ⟨true, o.sent ++ o.queue ++ [x], [], fun _ => rfl⟩

/-- The outbox after these actions, the latest first. -/
def perform : List (Action α) → Outbox α
  | [] => closed
  | .put x :: as => (perform as).put x
  | .flush x :: as => (perform as).flush x

/-- Everything that came in and was not forgotten. -/
def stream (o : Outbox α) : List α := o.sent ++ o.queue

theorem stream_put (o : Outbox α) (x : α) : (o.put x).stream = o.stream ++ [x] := by
  by_cases h : o.opened = true
  · simp [stream, put, h, o.empty h]
  · simp [stream, put, h]

theorem stream_flush (o : Outbox α) (x : α) : (o.flush x).stream = o.stream ++ [x] := by
  simp [stream, flush]

/-- The stream is what came in, in order. -/
theorem stream_perform (as : List (Action α)) : (perform as).stream = (as.map Action.item).reverse := by
  induction as with
  | nil => rfl
  | cons a as ih =>
      cases a with
      | put x =>
          rw [perform, stream_put, ih]
          simp [Action.item]
      | flush x =>
          rw [perform, stream_flush, ih]
          simp [Action.item]

theorem opened_perform (as : List (Action α)) : (perform as).opened = as.any Action.isFlush := by
  induction as with
  | nil => rfl
  | cons a as ih =>
      cases a with
      | put x => simp [perform, put, ih, Action.isFlush]
      | flush x => simp [perform, flush, Action.isFlush]

/-- Nothing goes out before the first flush. -/
theorem sent_eq_nil {as : List (Action α)} (h : as.any Action.isFlush = false) :
    (perform as).sent = [] := by
  induction as with
  | nil => rfl
  | cons a as ih =>
      simp only [List.any_cons, Bool.or_eq_false_iff] at h
      cases a with
      | put x => simp [perform, put, opened_perform, h.2, ih h.2]
      | flush x => cases h.1

/-- After a flush everything has gone out. -/
theorem sent_eq_stream {as : List (Action α)} (h : as.any Action.isFlush = true) :
    (perform as).sent = (as.map Action.item).reverse := by
  rw [← stream_perform, stream, (perform as).empty (by rw [opened_perform, h]), List.append_nil]

end Outbox
