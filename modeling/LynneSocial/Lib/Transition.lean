import Mathlib.Order.Basic

/-!
# Runs of a partial step function

A component is given by one executable function `step : S → L → Option S`; a
label the component cannot perform in a state yields `none`. A run is a list of
labels. Invariants are proved of one step and carried to whole runs here, also
when the step lemma needs a condition on the state before the step. `Along`
says that every step of a run meets such a condition.
-/
namespace Transition

variable {S L : Type} {step : S → L → Option S}

/-- The state a list of labels leads to, if every label can be performed. -/
def run (step : S → L → Option S) : S → List L → Option S
  | s, [] => some s
  | s, l :: ls => (step s l).bind fun t => run step t ls

/-- Every step of the run from `s` along `ls` meets `C` in the state it is taken from. -/
def Along (step : S → L → Option S) (C : S → L → Prop) : S → List L → Prop
  | _, [] => True
  | s, l :: ls => C s l ∧ ∀ t, step s l = some t → Along step C t ls

@[simp] theorem run_nil (s : S) : run step s [] = some s := rfl

theorem run_cons {s t : S} {l : L} {ls : List L} :
    run step s (l :: ls) = some t ↔ ∃ u, step s l = some u ∧ run step u ls = some t := by
  simp [run, Option.bind_eq_some_iff]

theorem run_append {s t : S} {ls ks : List L} :
    run step s (ls ++ ks) = some t ↔ ∃ u, run step s ls = some u ∧ run step u ks = some t := by
  induction ls generalizing s with
  | nil => simp
  | cons l ls ih =>
      simp only [List.cons_append, run_cons, ih]
      constructor
      · rintro ⟨u, hu, v, hv, ht⟩
        exact ⟨v, ⟨u, hu, hv⟩, ht⟩
      · rintro ⟨v, ⟨u, hu, hv⟩, ht⟩
        exact ⟨u, hu, v, hv, ht⟩

theorem along_cons {C : S → L → Prop} {s u : S} {l : L} {ls : List L}
    (hu : step s l = some u) : Along step C s (l :: ls) ↔ C s l ∧ Along step C u ls := by
  constructor
  · rintro ⟨hc, h⟩
    exact ⟨hc, h u hu⟩
  · rintro ⟨hc, h⟩
    refine ⟨hc, fun t ht => ?_⟩
    rw [hu] at ht
    exact Option.some.inj ht ▸ h

theorem along_append {C : S → L → Prop} {s u : S} {ls ks : List L} (hu : run step s ls = some u) :
    Along step C s (ls ++ ks) ↔ Along step C s ls ∧ Along step C u ks := by
  induction ls generalizing s with
  | nil =>
      obtain rfl := Option.some.inj hu
      simp [Along]
  | cons l ls ih =>
      obtain ⟨v, hv, hr⟩ := run_cons.mp hu
      rw [List.cons_append, along_cons hv, along_cons hv, ih hr, and_assoc]

instance Along.decidable {C : S → L → Prop} [∀ s l, Decidable (C s l)] :
    ∀ (s : S) (ls : List L), Decidable (Along step C s ls)
  | _, [] => .isTrue trivial
  | s, l :: ls =>
    match h : step s l with
    | some u =>
      have := Along.decidable (C := C) u ls
      decidable_of_iff (C s l ∧ Along step C u ls) (along_cons h).symm
    | none => decidable_of_iff (C s l) ⟨fun hc => ⟨hc, by simp [h]⟩, And.left⟩

theorem Along.and {C D : S → L → Prop} {s : S} {ls : List L} (h : Along step C s ls)
    (k : Along step D s ls) : Along step (fun s l => C s l ∧ D s l) s ls := by
  induction ls generalizing s with
  | nil => trivial
  | cons l ls ih => exact ⟨⟨h.1, k.1⟩, fun t ht => ih (h.2 t ht) (k.2 t ht)⟩

theorem along_of_forall {C : L → Prop} {ls : List L} (h : ∀ l ∈ ls, C l) (s : S) :
    Along step (fun _ l => C l) s ls := by
  induction ls generalizing s with
  | nil => trivial
  | cons l ls ih =>
      rw [List.forall_mem_cons] at h
      exact ⟨h.1, fun t _ => ih h.2 t⟩

/-- A property every step preserves holds at the end of a run that starts with it. -/
theorem run_invariant {I : S → Prop} (hstep : ∀ s l t, I s → step s l = some t → I t)
    {s t : S} {ls : List L} (hs : I s) (h : run step s ls = some t) : I t := by
  induction ls generalizing s with
  | nil => exact Option.some.inj h ▸ hs
  | cons l ls ih =>
      obtain ⟨u, hu, hr⟩ := run_cons.mp h
      exact ih (hstep s l u hs hu) hr

/-- A run of steps that all make a measure smaller is not longer than the measure. -/
theorem run_length_le {I : S → Prop} {C : L → Prop} {μ : S → ℕ}
    (hkeep : ∀ s l t, I s → step s l = some t → I t)
    (hless : ∀ s l t, I s → C l → step s l = some t → μ t < μ s)
    {s t : S} {ls : List L} (hs : I s) (hC : ∀ l ∈ ls, C l) (h : run step s ls = some t) :
    ls.length + μ t ≤ μ s := by
  induction ls generalizing s with
  | nil =>
      obtain rfl := Option.some.inj h
      simp
  | cons l ls ih =>
      obtain ⟨u, hu, hr⟩ := run_cons.mp h
      obtain ⟨hl, hC⟩ := List.forall_mem_cons.mp hC
      have hlt := hless s l u hs hl hu
      have hle := ih (hkeep s l u hs hu) hC hr
      simp only [List.length_cons]
      omega

/-- The same when the step lemma needs a condition that every step of the run meets. -/
theorem run_invariant_along {C : S → L → Prop} {I : S → Prop}
    (hstep : ∀ s l t, I s → C s l → step s l = some t → I t)
    {s t : S} {ls : List L} (hs : I s) (hC : Along step C s ls)
    (h : run step s ls = some t) : I t := by
  induction ls generalizing s with
  | nil => exact Option.some.inj h ▸ hs
  | cons l ls ih =>
      obtain ⟨u, hu, hr⟩ := run_cons.mp h
      exact ih (hstep s l u hs hC.1 hu) (hC.2 u hu) hr

/-- Two conditions that are equivalent on the steps of a run, under an invariant that steps meeting
`D` preserve. -/
theorem along_congr {B C D : S → L → Prop} {I : S → Prop}
    (hkeep : ∀ s l t, I s → D s l → step s l = some t → I t)
    (hiff : ∀ s l t, I s → D s l → step s l = some t → (B s l ↔ C s l))
    {s t : S} {ls : List L} (hs : I s) (hD : Along step D s ls) (h : run step s ls = some t) :
    Along step B s ls ↔ Along step C s ls := by
  induction ls generalizing s with
  | nil => exact .rfl
  | cons l ls ih =>
      obtain ⟨u, hu, hr⟩ := run_cons.mp h
      obtain ⟨hd, hrest⟩ := (along_cons hu).mp hD
      rw [along_cons hu, along_cons hu, hiff s l u hs hd hu, ih (hkeep s l u hs hd hu) hrest hr]

/-- The same for one of the two conditions, if only steps that meet it preserve the invariant. -/
theorem along_iff {B C : S → L → Prop} {I : S → Prop}
    (hkeep : ∀ s l t, I s → C s l → step s l = some t → I t)
    (hiff : ∀ s l t, I s → step s l = some t → (B s l ↔ C s l))
    {s t : S} {ls : List L} (hs : I s) (h : run step s ls = some t) : Along step B s ls ↔ Along step C s ls := by
  induction ls generalizing s with
  | nil => exact .rfl
  | cons l ls ih =>
      obtain ⟨u, hu, hr⟩ := run_cons.mp h
      rw [along_cons hu, along_cons hu, hiff s l u hs hu]
      exact and_congr_right fun hc => ih (hkeep s l u hs hc hu) hr

/-- Exactness. If, under an invariant `I` that conforming steps preserve, a step that
violates `C` spoils `P` for good, then `P` at the end of a run means that every
step conformed. -/
theorem along_of_end {C : S → L → Prop} {I P : S → Prop}
    (hkeep : ∀ s l t, I s → C s l → step s l = some t → I t)
    (hspoil : ∀ s l t, I s → ¬ C s l → step s l = some t → ¬ P t)
    (hstay : ∀ s l t, ¬ P s → step s l = some t → ¬ P t)
    {s t : S} {ls : List L} (hs : I s) (h : run step s ls = some t) (hP : P t) :
    Along step C s ls := by
  induction ls generalizing s with
  | nil => trivial
  | cons l ls ih =>
      obtain ⟨u, hu, hr⟩ := run_cons.mp h
      have hc : C s l := by
        by_contra hc
        exact run_invariant (I := fun s => ¬ P s) hstay (hspoil s l u hs hc hu) hr hP
      exact (along_cons hu).mpr ⟨hc, ih (hkeep s l u hs hc hu) hr⟩

/-- Exactness for a property of every state reached, in runs whose steps meet `D`. If, under an
invariant `I` that implies `P`, a step that violates `C` leads to a state without `P`, then `P`
holds in every state of a run if and only if every step conforms. -/
theorem along_iff_prefixes_of {C D : S → L → Prop} {I P : S → Prop}
    (hkeep : ∀ s l t, I s → D s l → C s l → step s l = some t → I t) (hI : ∀ s, I s → P s)
    (hspoil : ∀ s l t, I s → D s l → ¬ C s l → step s l = some t → ¬ P t)
    {s t : S} {ls : List L} (hs : I s) (hD : Along step D s ls) (h : run step s ls = some t) :
    (∀ ks u, ks <+: ls → run step s ks = some u → P u) ↔ Along step C s ls := by
  induction ls generalizing s with
  | nil =>
      refine iff_of_true ?_ trivial
      intro ks u hks hu
      rw [List.prefix_nil.mp hks] at hu
      exact Option.some.inj hu ▸ hI s hs
  | cons l ls ih =>
      obtain ⟨v, hv, hr⟩ := run_cons.mp h
      obtain ⟨hd, hrest⟩ := (along_cons hv).mp hD
      rw [along_cons hv]
      constructor
      · intro hP
        have hc : C s l := by
          by_contra hc
          exact hspoil s l v hs hd hc hv (hP [l] v ⟨ls, rfl⟩ (run_cons.mpr ⟨v, hv, rfl⟩))
        refine ⟨hc, (ih (hkeep s l v hs hd hc hv) hrest hr).mp fun ks u hks hu => ?_⟩
        exact hP (l :: ks) u ((List.prefix_cons_inj l).mpr hks) (run_cons.mpr ⟨v, hv, hu⟩)
      · rintro ⟨hc, hall⟩ ks u hks hu
        cases ks with
        | nil => exact Option.some.inj hu ▸ hI s hs
        | cons k ks =>
            obtain ⟨rfl, hpre⟩ := List.cons_prefix_cons.mp hks
            obtain ⟨w, hw, hu⟩ := run_cons.mp hu
            rw [hv] at hw
            obtain rfl := Option.some.inj hw
            exact (ih (hkeep s k v hs hd hc hv) hrest hr).mpr hall ks u hpre hu

theorem along_iff_prefixes {C : S → L → Prop} {I P : S → Prop}
    (hkeep : ∀ s l t, I s → C s l → step s l = some t → I t) (hI : ∀ s, I s → P s)
    (hspoil : ∀ s l t, I s → ¬ C s l → step s l = some t → ¬ P t)
    {s t : S} {ls : List L} (hs : I s) (h : run step s ls = some t) :
    (∀ ks u, ks <+: ls → run step s ks = some u → P u) ↔ Along step C s ls :=
  along_iff_prefixes_of (D := fun _ _ => True) (fun s l t hs _ => hkeep s l t hs) hI
    (fun s l t hs _ => hspoil s l t hs) hs (along_of_forall (C := fun _ => True) (fun _ _ => trivial) s) h

end Transition
