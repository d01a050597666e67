import Mathlib.Data.List.Basic

/-!
# Histories

A history is the list of the events of a run, the latest first. A temporal
property says of every event how it relates to the events before it. Such a
property holds of a longer history if it holds of the shorter one and of the
events that are new.
Events of one kind may cut a history into stretches; `since` is the last one.
-/
namespace History

variable {E : Type} {P : E → List E → Prop}

/-- Every event is related by `P` to the events before it. -/
def Always (P : E → List E → Prop) : List E → Prop
  | [] => True
  | e :: past => P e past ∧ Always P past

@[simp] theorem always_nil : Always P [] := trivial

@[simp] theorem always_cons {e : E} {past : List E} :
    Always P (e :: past) ↔ P e past ∧ Always P past := .rfl

theorem Always.append {es h : List E} (hes : ∀ e ∈ es, ∀ past, P e past) (h' : Always P h) :
    Always P (es ++ h) := by
  induction es with
  | nil => exact h'
  | cons e es ih =>
      rw [List.forall_mem_cons] at hes
      exact ⟨hes.1 _, ih hes.2⟩

theorem Always.imp {Q : E → List E → Prop} (hPQ : ∀ e past, P e past → Q e past) {h : List E}
    (h' : Always P h) : Always Q h := by
  induction h with
  | nil => trivial
  | cons e past ih => exact ⟨hPQ e past h'.1, ih h'.2⟩

variable {p : E → Bool} {d e : E} {es h b c : List E}

/-- The events behind the last one that `p` marks. -/
def since (p : E → Bool) (h : List E) : List E := h.takeWhile fun e => !p e

theorem since_append (hes : ∀ e ∈ es, p e = false) : since p (es ++ h) = es ++ since p h :=
  List.takeWhile_append_of_pos fun e he => by simp [hes e he]

theorem since_marked (he : p e = true) : since p (e :: h) = [] := by
  simp [since, he]

theorem since_eq_self (h' : ∀ e ∈ h, p e = false) : since p h = h := by
  have happ := since_append (h := []) h'
  simpa [since] using happ

theorem since_cons (hd : p d = false) : since p (d :: h) = d :: since p h :=
  since_append (by simp [hd] : ∀ e ∈ [d], p e = false)

/-- Whatever lies behind a marked event begins with the last stretch. -/
theorem since_start (he : p e = true) : ∃ x, b = since p (b ++ e :: c) ++ x := by
  induction b with
  | nil => exact ⟨[], by simp [since_marked he]⟩
  | cons d b ih =>
      obtain ⟨x, hx⟩ := ih
      cases hd : p d with
      | true => exact ⟨d :: b, by simp [since_marked hd]⟩
      | false => exact ⟨x, by rw [List.cons_append, since_cons hd, List.cons_append, ← hx]⟩

theorem since_rest (p : E → Bool) (h : List E) : ∃ c, h = since p h ++ c :=
  ⟨h.dropWhile fun e => !p e, List.takeWhile_append_dropWhile.symm⟩

/-- A history with a marked event is the last stretch behind one. -/
theorem exists_since (he : e ∈ h) (hp : p e = true) : ∃ m c, p m = true ∧ h = since p h ++ m :: c := by
  induction h with
  | nil => cases he
  | cons d h ih =>
      cases hd : p d with
      | true => exact ⟨d, h, hd, by rw [since_marked hd, List.nil_append]⟩
      | false =>
          have hmem : e ∈ h := by
            rcases List.mem_cons.mp he with rfl | hmem
            · rw [hp] at hd
              cases hd
            · exact hmem
          obtain ⟨m, c, hm, heq⟩ := ih hmem
          exact ⟨m, c, hm, by rw [since_cons hd, List.cons_append, ← heq]⟩

end History
