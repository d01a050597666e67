import Mathlib.Data.Finmap
import Mathlib.Tactic.Common

/-!
# Writing in place

A decoder writes into an object that is there already, or refuses. What it keeps
of the old object shows when two runs are compared: some pairs of old objects
become the same, and some do not. The ways in which one member is written are a
member that is set if a value is given for it, a list that grows and a map that
is assigned to.
-/
namespace InPlace

variable {β κ τ : Type}

/-- The old object does not show in what the write makes of it. -/
def Overwrites (write : τ → Option τ) : Prop := ∀ a b u, write a = some u → write b = some u

/-- The write refuses every object or none. It makes the same of two objects exactly if they are
alike, and changes nothing when it is made once more exactly if `Again` holds. -/
structure Spec (write : τ → Option τ) (Alike : τ → τ → Prop) (Again : Prop) : Prop where
  accepts : ∀ {a u} (b : τ), write a = some u → ∃ v, write b = some v
  same_iff : ∀ {a b u}, write a = some u → (write b = some u ↔ Alike a b)
  again_iff : ∀ {a u}, write a = some u → (write u = some u ↔ Again)

/-- The write overwrites objects if any two of them are alike. -/
theorem Spec.overwrites_iff {write : τ → Option τ} {Alike : τ → τ → Prop} {Again : Prop} (h : Spec write Alike Again) :
    Overwrites write ↔ ∀ a b, (write a).isSome → Alike a b := by
  constructor
  · intro ho a b ha
    obtain ⟨u, hu⟩ := Option.isSome_iff_exists.mp ha
    exact (h.same_iff hu).mp (ho a b u hu)
  · intro hA a b u hu
    exact (h.same_iff hu).mpr (hA a b (Option.isSome_iff_exists.mpr ⟨u, hu⟩))

/-- It is enough to look at one object that it accepts. -/
theorem Spec.isSome {write : τ → Option τ} {Alike : τ → τ → Prop} {Again : Prop} (h : Spec write Alike Again) {a : τ}
    (ha : (write a).isSome) (b : τ) : (write b).isSome := by
  obtain ⟨u, hu⟩ := Option.isSome_iff_exists.mp ha
  exact Option.isSome_iff_exists.mpr (h.accepts b hu)

/-- The member is set from the value, if there is one. -/
def set (get : β → Option τ) : Option β → τ → Option τ
  | some x, _ => get x
  | none, t => some t

theorem set_spec (get : β → Option τ) (m : Option β) :
    Spec (set get m) (fun a b => m = none → a = b) True := by
  constructor
  · intro a u b hu
    cases m with
    | none => exact ⟨b, rfl⟩
    | some x => exact ⟨u, hu⟩
  · intro a b u hu
    cases m with
    | none =>
        obtain rfl := Option.some.inj hu
        simp [set, eq_comm]
    | some x => exact iff_of_true hu nofun
  · intro a u hu
    refine iff_of_true ?_ trivial
    cases m with
    | none => rfl
    | some x => exact hu

/-- Every value is pushed to the back. -/
def push (get : β → Option τ) (xs : List β) (ts : List τ) : Option (List τ) :=
  xs.foldlM (fun ts x => (get x).map fun t => ts ++ [t]) ts

theorem push_cons (get : β → Option τ) (x : β) (xs : List β) (ts : List τ) :
    push get (x :: xs) ts = (get x).bind fun t => push get xs (ts ++ [t]) := by
  rw [push, List.foldlM_cons, Option.bind_eq_bind, Option.bind_map]
  rfl

theorem push_eq (get : β → Option τ) (xs : List β) (ts : List τ) :
    push get xs ts = (push get xs []).map (ts ++ ·) := by
  induction xs generalizing ts with
  | nil => simp [push]
  | cons x xs ih =>
      rw [push_cons, push_cons]
      cases get x with
      | none => rfl
      | some t =>
          rw [Option.bind_some, Option.bind_some, ih, ih ([] ++ [t]), Option.map_map]
          congr 1
          funext us
          simp

theorem push_length {get : β → Option τ} {xs : List β} {ts us : List τ} (h : push get xs ts = some us) :
    us.length = ts.length + xs.length := by
  induction xs generalizing ts with
  | nil =>
      obtain rfl := Option.some.inj h
      rfl
  | cons x xs ih =>
      rw [push_cons] at h
      obtain ⟨t, -, h⟩ := Option.bind_eq_some_iff.mp h
      rw [ih h, List.length_append, List.length_singleton, List.length_cons]
      omega

theorem push_spec (get : β → Option τ) (xs : List β) : Spec (push get xs) (· = ·) (xs = []) := by
  constructor
  · intro a u b hu
    rw [push_eq] at hu
    obtain ⟨us, hus, -⟩ := Option.map_eq_some_iff.mp hu
    exact ⟨b ++ us, by rw [push_eq, hus, Option.map_some]⟩
  · intro a b u hu
    constructor
    · intro hb
      rw [push_eq] at hu hb
      obtain ⟨us, hus, rfl⟩ := Option.map_eq_some_iff.mp hu
      rw [hus, Option.map_some, Option.some.injEq, List.append_left_inj] at hb
      exact hb.symm
    · rintro rfl
      exact hu
  · intro a u hu
    constructor
    · intro hagain
      have hlen := push_length hagain
      exact List.length_eq_zero_iff.mp (by omega)
    · rintro rfl
      rfl

section Assign
variable [DecidableEq κ]

/-- Every value is assigned to its key. -/
def assign (get : β → Option τ) (xs : List (κ × β)) (m : Finmap fun _ : κ => τ) : Option (Finmap fun _ : κ => τ) :=
  xs.foldlM (fun m x => (get x.2).map fun t => m.insert x.1 t) m

theorem assign_cons (get : β → Option τ) (x : κ × β) (xs : List (κ × β)) (m : Finmap fun _ : κ => τ) :
    assign get (x :: xs) m = (get x.2).bind fun t => assign get xs (m.insert x.1 t) := by
  rw [assign, List.foldlM_cons, Option.bind_eq_bind, Option.bind_map]
  rfl

/-- The other keys stay as they are. -/
theorem lookup_assign {get : β → Option τ} {xs : List (κ × β)} {m n : Finmap fun _ : κ => τ}
    (h : assign get xs m = some n) {k : κ} (hk : k ∉ xs.map Prod.fst) : n.lookup k = m.lookup k := by
  induction xs generalizing m with
  | nil =>
      obtain rfl := Option.some.inj h
      rfl
  | cons x xs ih =>
      rw [List.map_cons, List.mem_cons, not_or] at hk
      rw [assign_cons] at h
      obtain ⟨t, -, h⟩ := Option.bind_eq_some_iff.mp h
      rw [ih h hk.2, Finmap.lookup_insert_of_ne m hk.1]

theorem assign_accepts {get : β → Option τ} {xs : List (κ × β)} {a u : Finmap fun _ : κ => τ}
    (h : assign get xs a = some u) (b : Finmap fun _ : κ => τ) : ∃ v, assign get xs b = some v := by
  induction xs generalizing a b with
  | nil => exact ⟨b, rfl⟩
  | cons x xs ih =>
      rw [assign_cons] at h
      obtain ⟨t, ht, h⟩ := Option.bind_eq_some_iff.mp h
      obtain ⟨v, hv⟩ := ih h (b.insert x.1 t)
      exact ⟨v, by rw [assign_cons, ht, Option.bind_some, hv]⟩

theorem assign_same {get : β → Option τ} {xs : List (κ × β)} {a b u : Finmap fun _ : κ => τ}
    (h : assign get xs a = some u) (hab : ∀ k ∉ xs.map Prod.fst, a.lookup k = b.lookup k) :
    assign get xs b = some u := by
  induction xs generalizing a b with
  | nil =>
      have hkeys : a = b := Finmap.ext_lookup fun k => hab k List.not_mem_nil
      exact hkeys ▸ h
  | cons x xs ih =>
      rw [assign_cons] at h ⊢
      obtain ⟨t, ht, h⟩ := Option.bind_eq_some_iff.mp h
      rw [ht, Option.bind_some]
      refine ih h fun k hk => ?_
      by_cases hkx : k = x.1
      · rw [hkx, Finmap.lookup_insert, Finmap.lookup_insert]
      · rw [Finmap.lookup_insert_of_ne a hkx, Finmap.lookup_insert_of_ne b hkx]
        exact hab k (by simpa [hkx] using hk)

theorem assign_spec (get : β → Option τ) (xs : List (κ × β)) :
    Spec (assign get xs) (fun a b => ∀ k ∉ xs.map Prod.fst, a.lookup k = b.lookup k) True := by
  constructor
  · exact fun b hu => assign_accepts hu b
  · intro a b u hu
    constructor
    · intro hb k hk
      rw [← lookup_assign hu hk, lookup_assign hb hk]
    · exact assign_same hu
  · intro a u hu
    refine iff_of_true ?_ trivial
    exact assign_same hu fun k hk => (lookup_assign hu hk).symm

end Assign
end InPlace
