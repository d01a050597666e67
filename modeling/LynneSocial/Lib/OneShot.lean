import Mathlib.Data.Nat.Notation
import Mathlib.Logic.Function.Basic

/-!
# One-shot registrations

A table holds at most one handler for a key. Registering a handler replaces the
one that is there, and an event takes the handler of its key out of the table
and calls it. The operations come at some of the positions of a history, which
may have other things at the rest of them.
-/
namespace OneShot

variable {κ η : Type}

inductive Op (κ η : Type) where
  | on (key : κ) (handler : η)
  | off (key : κ)
  | event (key : κ)

def Op.key : Op κ η → κ
  | on key _ | off key | event key => key

/-- What the operation leaves under its key. -/
def Op.handler : Op κ η → Option η
  | on _ handler => some handler
  | off _ | event _ => none

section Table
variable [DecidableEq κ]

def Op.apply (table : κ → Option η) (op : Op κ η) : κ → Option η :=
  Function.update table op.key op.handler

/-- The table before a position of the history. -/
def table (ops : ℕ → Option (Op κ η)) : ℕ → κ → Option η
  | 0 => fun _ => none
  | n + 1 =>
    match ops n with
    | some op => op.apply (table ops n)
    | none => table ops n

/-- The handler that is called at a position. -/
def fires (ops : ℕ → Option (Op κ η)) (n : ℕ) : Option η :=
  match ops n with
  | some (.event key) => table ops n key
  | _ => none

end Table

variable {ops : ℕ → Option (Op κ η)} {k : κ} {h : η} {j n : ℕ}

/-- What is registered at `j` is still there before `n`: no operation in between is about its key. -/
structure Current (ops : ℕ → Option (Op κ η)) (k : κ) (h : η) (j n : ℕ) : Prop where
  before : j < n
  registered : ops j = some (.on k h)
  alone : ∀ m, j < m → m < n → ∀ op ∈ ops m, op.key ≠ k

theorem Current.succ (hc : Current ops k h j n) (hop : ∀ op ∈ ops n, op.key ≠ k) :
    Current ops k h j (n + 1) := by
  refine ⟨by have := hc.before; omega, hc.registered, fun m hj hm => ?_⟩
  rcases Nat.lt_succ_iff_lt_or_eq.mp hm with hm | rfl
  · exact hc.alone m hj hm
  · exact hop

theorem Current.pred (hc : Current ops k h j (n + 1)) (hj : j ≠ n) : Current ops k h j n :=
  ⟨by have := hc.before; omega, hc.registered, fun m hm hn => hc.alone m hm (by omega)⟩

section Table
variable [DecidableEq κ]

theorem table_succ {op : Op κ η} (hn : ops n = some op) :
    table ops (n + 1) k = if k = op.key then op.handler else table ops n k := by
  simp only [table, hn, Op.apply, Function.update_apply]

theorem table_idle (hn : ops n = none) : table ops (n + 1) = table ops n := by
  simp only [table, hn]

theorem table_eq_some_iff : table ops n k = some h ↔ ∃ j, Current ops k h j n := by
  induction n with
  | zero =>
      refine iff_of_false nofun ?_
      rintro ⟨j, hc⟩
      exact absurd hc.before (Nat.not_lt_zero j)
  | succ n ih =>
      by_cases hop : ∀ op ∈ ops n, op.key ≠ k
      · have hsame : table ops (n + 1) k = table ops n k := by
          cases hn : ops n with
          | none => rw [table_idle hn]
          | some op => rw [table_succ hn, if_neg (hop op hn).symm]
        rw [hsame, ih]
        refine exists_congr fun j => ⟨fun hc => hc.succ hop, fun hc => hc.pred ?_⟩
        rintro rfl
        exact hop _ hc.registered rfl
      · simp only [not_forall, not_not] at hop
        obtain ⟨op, hn, rfl⟩ := hop
        have hn : ops n = some op := hn
        rw [table_succ hn, if_pos rfl]
        constructor
        · intro hh
          cases op with
          | on key handler =>
              obtain rfl := Option.some.inj hh
              exact ⟨n, Nat.lt_succ_self n, hn, fun m hj hm => by omega⟩
          | off key => cases hh
          | event key => cases hh
        · rintro ⟨j, hc⟩
          obtain rfl : j = n := by
            by_contra hj
            have := hc.before
            exact hc.alone n (by omega) (Nat.lt_succ_self n) op hn rfl
          exact congrArg Op.handler (Option.some.inj (hn.symm.trans hc.registered))

/-- An event calls the handler that was registered for its key last, unless it was removed or called
since. -/
theorem fires_eq_some_iff :
    fires ops n = some h ↔ ∃ k, ops n = some (.event k) ∧ ∃ j, Current ops k h j n := by
  unfold fires
  split
  · rename_i key hn
    rw [table_eq_some_iff]
    constructor
    · exact fun hc => ⟨key, hn, hc⟩
    · rintro ⟨k, hk, hc⟩
      obtain rfl : key = k := by simpa [hn] using hk
      exact hc
  · rename_i hne
    refine iff_of_false nofun ?_
    rintro ⟨k, hk, -⟩
    exact hne k hk

end Table

/-- What one-shot registrations promise of the handlers that are called at the positions of a
history. -/
structure Delivers (ops : ℕ → Option (Op κ η)) (called : ℕ → List η) : Prop where
  /-- An event calls the current registration of its key and nothing else. -/
  called_iff : ∀ n h, h ∈ called n ↔ ∃ k, ops n = some (.event k) ∧ ∃ j, Current ops k h j n
  single : ∀ n, (called n).length ≤ 1
  once : ∀ n n' h, h ∈ called n → h ∈ called n' → n = n'
  own : ∀ n h k k' j, h ∈ called n → ops n = some (.event k) → ops j = some (.on k' h) → k' = k

/-- No handler is registered twice. -/
def Fresh (ops : ℕ → Option (Op κ η)) : Prop :=
  ∀ j j' k k' h, ops j = some (.on k h) → ops j' = some (.on k' h) → j = j'

/-- The table delivers. -/
theorem delivers [DecidableEq κ] (hf : Fresh ops) : Delivers ops fun n => (fires ops n).toList := by
  have hiff : ∀ n h, h ∈ (fires ops n).toList ↔ ∃ k, ops n = some (.event k) ∧ ∃ j, Current ops k h j n :=
    fun n h => by rw [Option.mem_toList, fires_eq_some_iff]
  refine ⟨hiff, fun n => by cases fires ops n <;> simp, fun n n' h hn hn' => ?_, fun n h k k' j hn hk hj => ?_⟩
  · obtain ⟨k, hk, j, hc⟩ := (hiff n h).mp hn
    obtain ⟨k', hk', j', hc'⟩ := (hiff n' h).mp hn'
    obtain rfl := hf j j' k k' h hc.registered hc'.registered
    obtain rfl : k = k' := by simpa [hc.registered] using hc'.registered
    rcases Nat.lt_trichotomy n n' with hlt | heq | hlt
    · exact absurd rfl (hc'.alone n hc.before hlt _ hk)
    · exact heq
    · exact absurd rfl (hc.alone n' hc'.before hlt _ hk')
  · obtain ⟨k₀, hk₀, j', hc⟩ := (hiff n h).mp hn
    obtain rfl : k₀ = k := by simpa [hk₀] using hk
    obtain rfl := hf j j' k' k₀ h hj hc.registered
    simpa [hj] using hc.registered

end OneShot
