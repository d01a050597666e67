import LynneSocial.Browser.Chains
import LynneSocial.Browser.Processes

/-!
# The first session

Until `stop()` is called for the first time the manager is either started, or it
has never been, and then there is no context and no chain.
-/
namespace LynneSocial.Browser

variable {ρ : Rules} {s t : State}

theorem sendCommand_heap (s : State) (method : Str) (params : Json) (r : PendingRequest)
    (sessionId : Str) : (s.sendCommand method params r sessionId).1.heap = s.heap :=
  (State.sendCommand_calm s method params r sessionId).heap

/-- No command of a chain is sent. -/
def noRequests : Rules where
  send _ _ r := ∀ n, r.caller ≠ some (.request n)

/-- Before the manager is started for the first time there is no context, and no chain waits for
a response. -/
structure Unstarted (s : State) : Prop where
  noContext : ∀ c, s.identAt c = none
  noRequest : ∀ id r n, s.pending.lookup id = some r → r.caller ≠ some (.request n)

theorem Act.identAt (hρ : ∀ l cmd p c k, ¬ ρ.send l cmd (.addScript p c k)) (ha : Act ρ s t) (c : ℕ) :
    t.identAt c = s.identAt c := by
  cases ha with
  | send =>
      unfold State.identAt
      rw [sendCommand_heap]
  | create platform targetId sid k method params sessionId h => exact (hρ _ _ _ _ _ h).elim
  | deliver platform d n => exact map_getElem?_modify _ _ _ fun _ => rfl
  | close d => exact map_getElem?_modify _ _ _ fun _ => rfl
  | read d =>
      unfold State.identAt
      rw [(s.readContext_calm d).heap]
  | aside _ h =>
      unfold State.identAt
      rw [h.calm.heap]
  | _ => rfl

theorem Beside.identAt (h : Beside s t) (c : ℕ) : t.identAt c = s.identAt c := by
  unfold State.identAt
  rw [h.calm.heap]

theorem Unstarted.congr (h : Unstarted s) (hp : t.pending = s.pending)
    (hx : ∀ c, t.identAt c = s.identAt c) : Unstarted t :=
  ⟨fun c => (hx c).trans (h.noContext c), fun id r n hl => h.noRequest id r n (hp ▸ hl)⟩

theorem Unstarted.act (h : Unstarted s) (ha : Act noRequests s t) : Unstarted t := by
  refine ⟨fun c => ?_, ?_⟩
  · rw [Act.identAt (ρ := noRequests) (fun _ _ _ _ k h => h k.call rfl) ha, h.noContext]
  cases ha with
  | send method params r sessionId hr hreq =>
      intro id r' n hl
      rw [(s.sendCommand_calm method params r sessionId).pending, issue_lookup] at hl
      split at hl
      · cases hl
        exact hreq n
      · exact h.noRequest id r' n hl
  | create platform targetId sid k method params sessionId hreq => exact (hreq k.call rfl).elim
  | read c =>
      rw [(s.readContext_calm c).pending]
      exact h.noRequest
  | aside _ hb =>
      rw [hb.calm.pending]
      exact h.noRequest
  | _ => exact h.noRequest

theorem Unstarted.parts (h : Unstarted s) (hp : Parts noRequests s t) : Unstarted t :=
  Parts.invariant (fun _ _ h ha => Unstarted.act h ha)
    (fun _ _ h hb => h.congr hb.calm.pending hb.identAt) hp h

theorem Unstarted.settle (h : Unstarted s) (hs : Settles s t) : Unstarted t := by
  cases hs with
  | stay => exact h
  | erase id rest =>
      refine ⟨h.noContext, fun id' r n hl => h.noRequest id' r n ?_⟩
      have hl : AList.lookup id' (AList.erase id s.pending) = some r := hl
      rw [StdMap.lookup_erase_eq_ite] at hl
      split at hl
      · cases hl
      · exact hl
  | escape => exact h.congr rfl fun _ => rfl

theorem Unstarted.message (h : Unstarted s) (msg : Parsed) : Unstarted (s.onWsMessage (some msg)) := by
  have hlog : Unstarted (s.log (.handling msg)) := h.congr rfl fun _ => rfl
  rcases s.onWsMessage_cases (ρ := noRequests) msg with ⟨hm, -⟩ | ⟨id, r, reply, -, hr, -, heq⟩
  · exact hlog.parts hm
  · have hnone := fun n => h.noRequest id r n hr
    obtain ⟨u, hu, hv⟩ := ((s.log (.handling msg)).calling id r reply).invoke_cases (ρ := noRequests)
      r reply (fun _ _ => trivial) (fun _ => trivial) (fun _ _ => trivial)
      (fun _ cmd r' _ hc _ _ _ n => hc ▸ hnone n) (fun _ _ _ _ _ _ _ cmd r' _ hc _ _ _ n => hc ▸ nofun)
      (fun _ _ _ _ _ _ _ => trivial)
    have hc : Unstarted ((s.log (.handling msg)).calling id r reply) := hlog.congr rfl fun _ => rfl
    rw [heq]
    exact ((hc.congr hu.keeps.pending hu.identAt).parts hv.parts).settle (State.finish_settles _)

/-- No `stop()` is in progress, and what holds before the first session still does or the manager
is started. -/
structure OneSession (s : State) : Prop where
  shape : Shape s.stack
  running : .stopping ∉ s.stack
  unstarted : s.started = false → Unstarted s

theorem step_started {l : Label} (h : OneSession s) (ht : s.step l = some t)
    (hst : s.started = true) : t.started = true := by
  cases hl : s.ofSession l with
  | false =>
      rw [← hst]
      exact congrArg Processes.started (step_processes h.shape hl ht).1
  | true =>
      cases State.step_session ht h.shape hl with
      | stopReturn rest hs => exact absurd (hs ▸ List.mem_cons_self) h.running
      | openTask conn batch => exact (congrArg Processes.started (onOpen_processes _ conn)).trans hst
      | _ => first | exact hst | rfl

theorem OneSession.step {l : Label} (h : OneSession s) (hl : l.isStop = false)
    (ht : s.step l = some t) : OneSession t := by
  refine ⟨State.step_shape h.shape ht, ?_, fun hst => ?_⟩
  · refine (step_stopping h.shape h.running ht).resolve_right ?_
    simp [hl]
  have hs : s.started = false := by
    cases hss : s.started with
    | false => rfl
    | true => rw [step_started h ht hss] at hst; cases hst
  have hu := h.unstarted hs
  have hpop : ∀ st, Unstarted { s with stack := st } := fun st => hu.congr rfl fun _ => rfl
  cases hses : s.ofSession l with
  | true =>
      cases State.step_session ht h.shape hses with
      | stop => cases hl
      | openTask conn batch =>
          rw [State.onOpen_eq]
          split
          · refine Unstarted.act (s := (State.opening _ conn).emptied) ?_ (.send _ _ _ _ _ trivial ?_)
            · exact hu.congr rfl fun _ => rfl
            · exact fun n => by simp [PendingRequest.caller]
          · exact hu.congr rfl fun _ => rfl
      | _ => exact hu.congr rfl fun _ => rfl
  | false =>
      have hreq : s.issues l = true → l.isRequest = false := by
        intro hi
        cases l <;> simp_all [State.issues, Label.isRequest, State.asks]
        split at hi <;> simp_all
      rcases State.step_parts (ρ := noRequests) ht h.shape hses (fun _ => trivial) (fun _ => trivial)
        (fun hi cmd r _ hc _ _ _ n => by simp [hc, State.callerOf, hreq hi]) (fun _ _ _ _ => trivial)
        (fun _ _ _ _ => ⟨fun _ _ => trivial, fun _ cmd r _ hc _ _ _ n => by simp [hc]⟩)
        (fun _ _ => trivial) with
        hp | ⟨-, rest, -, rfl⟩ | ⟨-, rest, -, rfl⟩ | ⟨rfl, conn, msg, batch, hst, rfl⟩
      · exact hu.parts hp
      · exact (hpop rest).settle (State.resume_settles _)
      · exact (hpop rest).settle (State.unwind_settles _)
      · exact (hpop _).message msg

theorem OneSession.init : OneSession init :=
  ⟨trivial, by simp [LynneSocial.Browser.init], fun _ =>
    ⟨fun _ => by simp [State.identAt, LynneSocial.Browser.init], by simp [LynneSocial.Browser.init]⟩⟩

end LynneSocial.Browser
