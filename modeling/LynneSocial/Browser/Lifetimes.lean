import LynneSocial.Browser.Steps

/-!
# The life of a context

A context that was given away stays known to the application and is destroyed
once. As long as it is alive the cache owns it, so that `stop()`, which clears
the cache, leaves no such context alive.
-/
namespace LynneSocial.Browser

variable {ρ : Rules} {s t u : State}

theorem usable_iff {c : ℕ} :
    s.usable c = true ↔ ∃ x, s.heap[c]? = some x ∧ x.shared = true ∧ x.destroyed = false := by
  unfold State.usable
  cases hx : s.heap[c]? <;> simp

/-- Sharing and destroying a context is final. -/
def Ages (s t : State) : Prop :=
  ∀ (c : ℕ) (x : CdpBrowserContext), s.heap[c]? = some x → ∃ y : CdpBrowserContext, t.heap[c]? = some y ∧
    (x.shared = true → y.shared = true) ∧ (x.destroyed = true → y.destroyed = true)

/-- The cache owns the contexts the application can use. -/
def Leased (s : State) : Prop := ∀ c, s.usable c = true → ∃ p, s.contexts.lookup p = some c

/-- What becomes of the contexts. -/
structure Lives (s t : State) : Prop where
  ages : Ages s t
  leased : Leased s → Leased t

namespace Lives

theorem refl (s : State) : Lives s s := ⟨fun _ x hx => ⟨x, hx, id, id⟩, id⟩

theorem trans (h : Lives s t) (k : Lives t u) : Lives s u := by
  refine ⟨fun c x hx => ?_, k.leased ∘ h.leased⟩
  obtain ⟨y, hy, hs, hd⟩ := h.ages c x hx
  obtain ⟨z, hz, hs', hd'⟩ := k.ages c y hy
  exact ⟨z, hz, hs' ∘ hs, hd' ∘ hd⟩

theorem of_same (hh : t.heap = s.heap) (hc : t.contexts = s.contexts) : Lives s t := by
  refine ⟨fun c x hx => ⟨x, hh ▸ hx, id, id⟩, fun h c hu => ?_⟩
  rw [usable_iff, hh, ← usable_iff] at hu
  rw [hc]
  exact h c hu

theorem calm (h : Calm s t) : Lives s t := of_same h.heap h.contexts

theorem ages_modify (c : ℕ) {f : CdpBrowserContext → CdpBrowserContext}
    (hf : ∀ x, (x.shared = true → (f x).shared = true) ∧ (x.destroyed = true → (f x).destroyed = true)) :
    Ages s (s.modifyContext c f) := by
  intro d x hx
  by_cases hc : c = d
  · subst hc
    exact ⟨f x, by simp [State.modifyContext, hx], hf x⟩
  · exact ⟨x, (List.getElem?_modify_ne _ _ hc).trans hx, id, id⟩

theorem usable_destroy {c d : ℕ} : (s.destroy d).usable c = true ↔ c ≠ d ∧ s.usable c = true := by
  by_cases hc : d = c
  · subst hc
    cases hx : s.heap[d]? <;> simp [State.usable, State.destroy, State.modifyContext, hx]
  · have hsame : (s.destroy d).heap[c]? = s.heap[c]? := List.getElem?_modify_ne _ _ hc
    simp [State.usable, hsame, Ne.symm hc]

theorem ages_destroy (c : ℕ) : Ages s (s.destroy c) := ages_modify c fun _ => ⟨id, fun _ => rfl⟩

/-- The owner of a context changes, and a context is destroyed. -/
theorem evict {p : Str} {m : StdMap Str ℕ} {old : ℕ} (hold : s.contexts.lookup p = some old)
    (hm : ∀ q, q ≠ p → m.lookup q = s.contexts.lookup q) : Lives s ({ s with contexts := m }.destroy old) := by
  refine ⟨ages_destroy (s := { s with contexts := m }) old, fun h c hu => ?_⟩
  obtain ⟨hne, hu⟩ := usable_destroy.mp hu
  obtain ⟨q, hq⟩ := h c hu
  refine ⟨q, (hm q ?_).trans hq⟩
  rintro rfl
  exact hne (Option.some.inj (hq.symm.trans hold))

theorem resetContext (s : State) (p : Str) (c : ℕ) : Lives s (s.resetContext p c) := by
  unfold State.resetContext
  split
  · rename_i old hold
    exact evict hold fun q hq => by simp [hq]
  · rename_i hnone
    refine ⟨fun d x hx => ⟨x, hx, id, id⟩, fun h d hu => ?_⟩
    obtain ⟨q, hq⟩ := h d hu
    have hne : q ≠ p := by
      rintro rfl
      rw [hnone] at hq
      cases hq
    exact ⟨q, by simpa [hne] using hq⟩

theorem removeContext (s : State) (p : Str) : Lives s (s.removeContext p) := by
  unfold State.removeContext
  split
  · rename_i old hold
    exact evict hold fun q hq => by simp [hq]
  · exact refl s

theorem send (s : State) (method : Str) (params : Json) (r : PendingRequest) (sessionId : Str) :
    Lives s (s.sendCommand method params r sessionId).1 := by
  have hissue : Lives s (s.issue r) := of_same rfl rfl
  exact hissue.trans (calm (s.sendCommand_calm method params r sessionId))

theorem act (h : Act ρ s t) : Lives s t := by
  cases h with
  | send method params r sessionId => exact send s method params r sessionId
  | create platform targetId sid k method params sessionId =>
      refine .trans (t := { s with heap := s.heap ++ [{ platform, targetId, sessionId := sid }] }) ?_ (send _ _ _ _ _)
      refine ⟨fun c x hx => ⟨x, ?_, id, id⟩, fun h c hu => h c ?_⟩
      · exact (List.getElem?_append_left (List.getElem?_eq_some_iff.mp hx).1).trans hx
      · obtain ⟨x, hx, hs, hd⟩ := usable_iff.mp hu
        refine usable_iff.mpr ⟨x, ?_, hs, hd⟩
        rw [List.getElem?_append] at hx
        split at hx
        · exact hx
        · rw [List.getElem?_singleton] at hx
          split at hx
          · cases hx
            cases hs
          · cases hx
  | deliver platform c n hl =>
      refine ⟨ages_modify (s := s) c (f := fun x => { x with shared := true }) fun _ => ⟨fun _ => rfl, id⟩,
        fun h d hu => ?_⟩
      by_cases hd : c = d
      · exact ⟨platform, hd ▸ hl⟩
      · refine h d ?_
        obtain ⟨x, hx, hs⟩ := usable_iff.mp hu
        exact usable_iff.mpr ⟨x, (List.getElem?_modify_ne _ _ hd).symm.trans hx, hs⟩
  | close c =>
      refine ⟨ages_modify c fun _ => ⟨id, id⟩, fun h d hu => h d ?_⟩
      obtain ⟨y, hy, hs, hd⟩ := usable_iff.mp hu
      by_cases hc : c = d
      · subst hc
        obtain ⟨x, hx, rfl⟩ := Option.map_eq_some_iff.mp ((List.getElem?_modify_eq _ _ _).symm.trans hy)
        exact usable_iff.mpr ⟨x, hx, hs, hd⟩
      · exact usable_iff.mpr ⟨y, (List.getElem?_modify_ne _ _ hc).symm.trans hy, hs, hd⟩
  | read c => exact calm (s.readContext_calm c)
  | aside _ h => exact calm h.calm
  | _ => exact of_same rfl rfl

theorem settle (h : Settles s t) : Lives s t := by
  cases h <;> exact of_same rfl rfl

theorem touch {r : PendingRequest} {reply : Reply} (h : Touches r reply s t) : Lives s t := by
  cases h with
  | plain => exact refl s
  | cache platform c k result => exact (resetContext s platform c).trans (of_same rfl rfl)
  | reject platform c k text =>
      refine .trans (t := s.destroy c) ⟨ages_destroy c, fun h d hu => ?_⟩ (of_same rfl rfl)
      exact h d (usable_destroy.mp hu).2
  | remove c call result => exact (calm (s.readContext_calm c)).trans (removeContext _ _)

/-- `contexts_.clear()` leaves no context that the application can use. -/
theorem clearContexts (s : State) : Ages s s.clearContexts ∧ (Leased s → ∀ c, s.clearContexts.usable c = false) := by
  have hfold : ∀ (es : List (Sigma fun _ : Str => ℕ)) (u : State),
      Ages u (es.foldl (fun u e => u.destroy e.2) u) ∧
        ∀ c, (es.foldl (fun u e => u.destroy e.2) u).usable c = true → u.usable c = true ∧ ∀ e ∈ es, c ≠ e.2 := by
    intro es
    induction es with
    | nil => exact fun u => ⟨(refl u).ages, fun c hu => ⟨hu, by simp⟩⟩
    | cons e es ih =>
        intro u
        obtain ⟨hages, husable⟩ := ih (u.destroy e.2)
        refine ⟨fun c x hx => ?_, fun c hu => ?_⟩
        · obtain ⟨y, hy, hs, hd⟩ := ages_destroy e.2 c x hx
          obtain ⟨z, hz, hs', hd'⟩ := hages c y hy
          exact ⟨z, hz, hs' ∘ hs, hd' ∘ hd⟩
        · obtain ⟨hu, hes⟩ := husable c hu
          obtain ⟨hne, hu⟩ := usable_destroy.mp hu
          exact ⟨hu, List.forall_mem_cons.mpr ⟨hne, hes⟩⟩
  obtain ⟨hages, husable⟩ := hfold s.contexts.entries s
  refine ⟨hages, fun h c => ?_⟩
  by_contra hu
  obtain ⟨hu, hes⟩ := husable c (Bool.not_eq_false _ ▸ hu)
  obtain ⟨p, hp⟩ := h c hu
  exact hes ⟨p, c⟩ ((StdMap.mem_entries_iff _ _ _).mpr hp) rfl

theorem clear (s : State) : Lives s s.clearContexts := by
  obtain ⟨hages, hnone⟩ := clearContexts s
  refine ⟨hages, fun h c hu => ?_⟩
  rw [hnone h c] at hu
  cases hu

theorem moves (h : Moves ρ s t) : Lives s t :=
  Moves.invariant (I := fun u => Lives s u) (fun _ _ hs h => hs.trans (act h)) (fun _ _ hs h => hs.trans (calm h))
    h (refl s)

end Lives

theorem State.step_lives {l : Label} (hsh : Shape s.stack) (ht : s.step l = some t) : Lives s t := by
  rcases State.step_cases (ρ := {}) ht hsh (fun _ => trivial) (fun _ => trivial)
    (fun _ _ _ _ _ _ _ => trivial) (fun _ _ _ _ => trivial) (fun _ _ => trivial) (fun _ _ => trivial) with
    ⟨u, hu, hut⟩ | ⟨-, -, hc⟩ | ⟨-, conn, msg, batch, hst, rfl⟩
  · exact (Lives.moves hu).trans (.settle hut)
  · exact (Lives.clear s).trans (.calm hc)
  · rcases State.message_cases (ρ := {}) ⟨fun _ _ _ _ => trivial, fun _ => trivial⟩
      { s with stack := [.draining batch] } msg (fun _ _ _ _ _ _ => trivial) (fun _ _ _ _ _ _ _ => trivial) with
      ⟨hm, -⟩ | ⟨id, r, reply, u, v, -, -, -, htouch, hv, hvt⟩
    · have hlog : Lives s (({ s with stack := [.draining batch] } : State).log (.handling msg)) := .of_same rfl rfl
      exact hlog.trans (.moves hm.moves)
    · have hcall : Lives s ((({ s with stack := [.draining batch] } : State).log (.handling msg)).calling id r reply) :=
        .of_same rfl rfl
      exact hcall.trans ((Lives.touch htouch).trans ((Lives.moves hv.moves).trans (.settle hvt)))

/-- `stop()` takes every context from the application. -/
theorem State.stop_unusable (h : Leased s) (hst : s.started = true) (ht : s.step .stop = some t) (c : ℕ) :
    t.usable c = false := by
  simp only [step, Option.ite_none_right_eq_some, Option.some.injEq] at ht
  have hheap : t.heap = s.clearContexts.heap := by
    rw [← ht.2, stop, if_pos hst]
    unfold reapChrome
    split <;> rfl
  unfold usable
  rw [hheap]
  exact (Lives.clearContexts s).2 h c

theorem leased_init : Leased init := fun c hu => by simp [State.usable, init] at hu

end LynneSocial.Browser
