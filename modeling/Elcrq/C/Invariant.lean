import Elcrq.C.Shape

/-! # The invariant of the machine of `ELCRQ.h`

`Inv` adds to the layout of memory the invariant of the queue the machine stands
for and the locals of the threads.  Each step within the ticket bound that does not
enqueue `EMPTY` keeps it and is a sequence of steps of that queue. -/

set_option autoImplicit false

namespace Elcrq.C

open Concurrent Concurrent.TicketRing Concurrent.RingList

/-! ## Steps keep the invariant and refine the queue -/

section Steps

variable {T : Type} [DecidableEq T]

def Exec.abs (pow : ℕ) (e : Exec T) : Queue T Word :=
  queueOf pow itemOf e.st.ring (fun p => (e.st.pc p).place) e.st.calls e.log

structure Inv (pow : ℕ) (e : Exec T) : Prop where
  small : pow < 63
  queue : (e.abs pow).Inv (2 ^ pow)
  layout : Layout e.st (rings e.log)
  rq : ∀ p, (e.st.pc p).rq ∈ rings e.log
  ok : ∀ p, (e.st.pc p).Ok pow ((e.st.ring (e.st.pc p).rq).abs pow itemOf)

/-- A step of the machine is a sequence of steps of the queue. -/
def Refines (pow : ℕ) (e e' : Exec T) : Prop :=
  Relation.ReflTransGen (Step (2 ^ pow)) (e.abs pow) (e'.abs pow)

variable {pow : ℕ} {e e' : Exec T} {p : T}

omit [DecidableEq T] in
theorem Exec.abs_ring {r : ℕ} (member : r ∈ rings e.log) :
    (e.abs pow).ring r = (e.st.ring r).abs pow itemOf := queueOf_ring member

omit [DecidableEq T] in
theorem Inv.ring (inv : Inv pow e) (w : T) :
    (e.abs pow).ring (e.st.pc w).rq = (e.st.ring (e.st.pc w).rq).abs pow itemOf :=
  Exec.abs_ring (inv.rq w)

omit [DecidableEq T] in
theorem Inv.shape (inv : Inv pow e) : Shape e := ⟨inv.layout, inv.queue.distinct, inv.rq⟩

theorem Inv.advance (inv : Inv pow e) (refines : Refines pow e e') (goes : e.Goes pow p e')
    (ok : (e'.st.pc p).Ok pow ((e'.st.ring (e'.st.pc p).rq).abs pow itemOf)) : Inv pow e' := by
  have shape := inv.shape.goes goes
  refine ⟨inv.small, steps_inv (Nat.two_pow_pos pow) inv.queue refines, shape.layout, shape.rq, ?_⟩
  intro w
  by_cases same : w = p
  · rw [same]
    exact ok
  · rw [goes.others same]
    have member := steps_rings refines _ (inv.rq w)
    obtain ⟨closed, head, _⟩ := steps_ring_le refines (inv.rq w)
    rw [inv.ring w, Exec.abs_ring member] at closed head
    exact (inv.ok w).mono closed head

section Accessed

variable {q : RingQueue ℕ Word} {pc : Pc} {events : List (Event Word)}

theorem Effect.refines (inv : Inv pow e)
    (effect : Effect pow (e.st.ring (e.st.pc p).rq) (e.st.pc p) q pc events) :
    Refines pow e (e.accessed p q pc events) := by
  have member := inv.rq p
  have others : ∀ w, w ≠ p →
      ((e.accessed p q pc events).st.pc w).place = (e.st.pc w).place := fun w other => by
    rw [Exec.accessed_pc_other other]
  have memory : ∀ r ∈ rings e.log, r ≠ (e.st.pc p).rq →
      (e.accessed p q pc events).st.ring r = e.st.ring r := fun r _ other =>
    Exec.accessed_ring_other other
  have only : (e.st.pc p).place.Only (e.st.pc p).rq := Or.inl rfl
  cases effect with
  | stay content phase view rq noEvents =>
      subst noEvents
      have same : (e.accessed p q pc []).abs pow = e.abs pow := by
        refine queueOf_same (u := p) (fun r _ => ?_) others ?_ fun r => ?_
        · by_cases here : r = (e.st.pc p).rq
          · rw [here, Exec.accessed_ring]
            exact content
          · rw [Exec.accessed_ring_other here]
        · rw [Exec.accessed_pc]
          exact phase
        · rw [Exec.accessed_pc]
          rcases rq with sameRing | out
          · have samePlace : pc.place = (e.st.pc p).place := by
              rw [Pc.place, sameRing, view, phase]
              rfl
            rw [samePlace]
          · rw [Place.viewAt_out (a := (e.st.pc p).place) out, Place.viewAt_out]
            exact view.trans out
      rw [Refines, same]
  | move m c move acts rq isEvent =>
      subst isEvent
      refine .single (queueOf_move (u := p) member only ?_ memory others ?_ ?_)
      · rw [Exec.accessed_pc]
        exact Or.inl rq
      · rw [Exec.accessed_pc, Exec.accessed_ring]
        exact move
      · rw [Exec.accessed_pc]
        exact acts
  | stored c t x move phase idle isEvent =>
      subst isEvent idle
      have acts : Acts (e.st.pc p).rq (some (.put t x)) c (e.st.pc p).place.phase (.enqDone c) := by
        show Acts _ _ _ (e.st.pc p).phase _
        rw [phase]
        exact .put
      refine queueOf_move_return (u := p) member only ?_ memory others ?_ acts
        (fun σ σ' frame before after calls log => ?_) fun _ => rfl
      · rw [Exec.accessed_pc]
        rfl
      · rw [Exec.accessed_ring]
        exact move
      · rw [Exec.accessed_pc] at after
        exact .retEnq p c frame before after calls log
  | taken c h x move phase idle isEvent =>
      subst isEvent idle
      have acts : Acts (e.st.pc p).rq (some (.took h x)) c (e.st.pc p).place.phase
          (.deqDone c (e.st.pc p).rq h x) := by
        show Acts _ _ _ (e.st.pc p).phase _
        rw [phase]
        exact .took
      refine queueOf_move_return (u := p) member only ?_ memory others ?_ acts
        (fun σ σ' frame before after calls log => ?_) fun _ => rfl
      · rw [Exec.accessed_pc]
        rfl
      · rw [Exec.accessed_ring]
        exact move
      · rw [Exec.accessed_pc] at after
        exact .retDeq p c _ h x frame before after calls log
  | empty c same phase out idle isEvent =>
      subst isEvent idle same
      refine .single (.retEmpty p c ?_ phase (fun r _ => Place.viewAt_out out r)
        (congrArg Pc.phase Exec.accessed_pc) rfl rfl)
      refine queueOf_plain rfl (fun r _ => ?_) others out (congrArg Pc.view Exec.accessed_pc)
      by_cases here : r = (e.st.pc p).rq
      · rw [here, Exec.accessed_ring]
      · rw [Exec.accessed_ring_other here]

omit [DecidableEq T] in
theorem Inv.accessed (inv : Inv pow e) (below : TicketsBelow pow e.st)
    (access : onRing pow (e.st.ring (e.st.pc p).rq) (e.st.pc p) = some (q, pc, events)) :
    Accessed pow (e.st.ring (e.st.pc p).rq) (e.st.pc p) q pc events := by
  obtain ⟨roomHead, roomTail⟩ := below _ (inv.layout.fresh _ (inv.rq p))
  exact onRing_accessed inv.small roomHead roomTail (inv.ok p) access

theorem Inv.onRing (inv : Inv pow e) (below : TicketsBelow pow e.st)
    (access : onRing pow (e.st.ring (e.st.pc p).rq) (e.st.pc p) = some (q, pc, events)) :
    Refines pow e (e.accessed p q pc events) ∧ Inv pow (e.accessed p q pc events) := by
  obtain ⟨effect, onward, _⟩ := inv.accessed below access
  have refines := effect.refines inv
  refine ⟨refines, inv.advance (p := p) refines (.access q pc events access) ?_⟩
  rw [Exec.accessed_pc]
  cases onward with
  | here rq ok =>
      rw [rq, Exec.accessed_ring]
      exact ok
  | next _ ok => exact ok _
  | done idle =>
      rw [idle]
      trivial

end Accessed

theorem Inv.hidden {s : State T} (inv : Inv pow e) (goes : e.Goes pow p ⟨s, e.log⟩)
    (memory : ∀ r ∈ rings e.log, s.ring r = e.st.ring r)
    (place : (s.pc p).place = (e.st.pc p).place) (calls : s.calls = e.st.calls)
    (ok : (s.pc p).Ok pow ((e.st.ring (e.st.pc p).rq).abs pow itemOf)) :
    Refines pow e ⟨s, e.log⟩ ∧ Inv pow ⟨s, e.log⟩ := by
  have same : Exec.abs pow ⟨s, e.log⟩ = e.abs pow := by
    show queueOf _ _ _ _ s.calls _ = _
    rw [calls]
    refine queueOf_same (u := p) (fun r member => by rw [memory r member])
      (fun w other => congrArg Pc.place (goes.others other)) (congrArg Place.phase place)
      fun r => congrArg (Place.viewAt · r) place
  have refines : Refines pow e ⟨s, e.log⟩ := by
    rw [Refines, same]
  have rq : (s.pc p).rq = (e.st.pc p).rq := congrArg Place.ring place
  refine ⟨refines, inv.advance (p := p) refines goes ?_⟩
  show (s.pc p).Ok pow ((s.ring (s.pc p).rq).abs pow itemOf)
  rw [rq, memory _ (inv.rq p)]
  exact ok

theorem Inv.fill {n : ℕ} {q : RingQueue ℕ Word} {pc : Pc} (inv : Inv pow e)
    (goes : e.Goes pow p ⟨(e.st.setRing n q).goto p pc, e.log⟩)
    (own : (e.st.pc p).nrq = some n) (unlinked : (e.st.pc p).linked = false)
    (place : pc.place = (e.st.pc p).place)
    (ok : pc.Ok pow ((e.st.ring (e.st.pc p).rq).abs pow itemOf)) :
    Refines pow e ⟨(e.st.setRing n q).goto p pc, e.log⟩ ∧
      Inv pow ⟨(e.st.setRing n q).goto p pc, e.log⟩ := by
  have notIn := (inv.layout.nrq_unlinked p n (inv.layout.own p n own).1 unlinked).1
  refine inv.hidden goes
    (fun r member => Function.update_of_ne (fun same : r = n => notIn (same ▸ member)) ..) ?_ rfl ?_
  · rw [State.goto_pc, place]
  · rw [State.goto_pc]
    exact ok

theorem Inv.plain (inv : Inv pow e) (goes : e.Goes pow p e') (event : Event Word)
    (log : e'.log = event :: e.log) (sameRings : rings (event :: e.log) = rings e.log)
    (memory : e'.st.ring = e.st.ring) (out : (e.st.pc p).view = .out)
    (out' : (e'.st.pc p).view = .out)
    (step : Frame p none (e.abs pow) (e'.abs pow) → Step (2 ^ pow) (e.abs pow) (e'.abs pow))
    (ok : ∀ ρ, (e'.st.pc p).Ok pow ρ) : Refines pow e e' ∧ Inv pow e' := by
  have refines : Refines pow e e' := by
    refine .single (step ?_)
    rw [Exec.abs, Exec.abs, log]
    exact queueOf_plain sameRings (fun r _ => by rw [memory])
      (fun w other => congrArg Pc.place (goes.others other)) out out'
  exact ⟨refines, inv.advance (p := p) refines goes (ok _)⟩

theorem Inv.call {event : Event Word} {pc : Pc} (inv : Inv pow e) (idle : e.st.pc p = .idle)
    (goes : e.Goes pow p ⟨{ e.st with calls := e.st.calls + 1 }.goto p pc, event :: e.log⟩)
    (sameRings : rings (event :: e.log) = rings e.log) (out : pc.view = .out)
    (ok : ∀ ρ, pc.Ok pow ρ)
    (step : ∀ σ', Frame p none (e.abs pow) σ' → (e.abs pow).phase p = .idle →
      σ'.phase p = pc.phase → σ'.calls = (e.abs pow).calls + 1 →
      σ'.log = event :: (e.abs pow).log → Step (2 ^ pow) (e.abs pow) σ') :
    Refines pow e ⟨{ e.st with calls := e.st.calls + 1 }.goto p pc, event :: e.log⟩ ∧
      Inv pow ⟨{ e.st with calls := e.st.calls + 1 }.goto p pc, event :: e.log⟩ := by
  refine inv.plain goes event rfl sameRings rfl (by rw [idle]; rfl) ?_
    (fun frame => step _ frame ?_ ?_ rfl rfl) ?_
  · rw [State.goto_pc]
    exact out
  · exact congrArg Pc.phase idle
  · exact congrArg Pc.phase (State.goto_pc ..)
  · rw [State.goto_pc]
    exact ok

/-- The `CASPTR` that links a filled ring. -/
theorem Inv.link {f : EnqFrame} {n : ℕ} (inv : Inv pow e) (here : e.st.pc p = .enqLink f n)
    (last : (e.st.ring f.tail).next = none) (goes : e.Goes pow p e')
    (after : e' = ⟨(e.st.setRing f.tail { e.st.ring f.tail with next := some n }).goto p
      (.enqSwing f n),
      .enqItem f.call n 0 f.arg :: .enqDraw f.call n 0 :: .link f.tail n :: e.log⟩) :
    Refines pow e e' ∧ Inv pow e' := by
  have unlinked : (e.st.pc p).linked = false := by rw [here]; rfl
  obtain ⟨has, filled⟩ := inv.layout.own p n (by rw [here]; rfl)
  obtain ⟨notIn, content⟩ := inv.layout.nrq_unlinked p n has unlinked
  rw [here] at filled
  have member : f.tail ∈ rings e.log := by
    have := inv.rq p
    rwa [here] at this
  have ok := inv.ok p
  rw [here] at ok
  obtain ⟨isItem, closed⟩ : f.arg ≠ EMPTY ∧ _ := ok
  obtain ⟨rest, newest⟩ := inv.layout.linked.next_none member last
  have pcSelf : e'.st.pc p = .enqSwing f n := by
    rw [after]
    exact Function.update_self ..
  have others : ∀ w, w ≠ p → e'.st.pc w = e.st.pc w := fun w => goes.others
  have ringSelf : e'.st.ring f.tail = { e.st.ring f.tail with next := some n } := by
    rw [after]
    exact Function.update_self ..
  have ringSame : ∀ r, r ≠ f.tail → e'.st.ring r = e.st.ring r := fun r other => by
    rw [after]
    exact Function.update_of_ne other ..
  have content' : ∀ r, (e'.st.ring r).abs pow itemOf = (e.st.ring r).abs pow itemOf := by
    intro r
    by_cases same : r = f.tail
    · rw [same, ringSelf]
      rfl
    · rw [ringSame r same]
  have log : e'.log = .enqItem f.call n 0 f.arg :: .enqDraw f.call n 0 :: .link f.tail n :: e.log := by
    rw [after]
  have newRings : rings e'.log = n :: rings e.log := by rw [log]; rfl
  have outP : ∀ r, ((e.st.pc p).place).viewAt r = .out := fun r =>
    Place.viewAt_out (by rw [here]; rfl) r
  have outP' : ∀ r, ((e'.st.pc p).place).viewAt r = .out := fun r =>
    Place.viewAt_out (by rw [pcSelf]; rfl) r
  have outN : ∀ w, ((e'.st.pc w).place).viewAt n = .out := by
    intro w
    by_cases same : w = p
    · rw [same]
      exact outP' n
    · rw [others w same]
      refine if_neg fun atN => notIn ?_
      have := inv.rq w
      rwa [← show n = (e.st.pc w).rq from atN] at this
  have refines : Refines pow e e' := by
    refine Step.solo (u := p) (r := f.tail) (n := n) (c := f.call) (x := f.arg) ?_ newest ?_ notIn
      ?_ ?_ ?_ outN (fun r _ => outP r) (by rw [after]; rfl) log
    · have frame : Frame p none (e.abs pow) (queueOf pow itemOf e'.st.ring
          (fun w => (e'.st.pc w).place) e'.st.calls ([.enqItem f.call n 0 f.arg,
            .enqDraw f.call n 0, .link f.tail n] ++ e.log)) := by
        refine queueOf_frame _ (fun r old => List.mem_cons_of_mem _ old) (fun r _ _ => content' r)
          (fun w other => by rw [others w other]) fun r _ _ => ?_
        rw [outP' r, outP r]
      rw [List.cons_append, List.cons_append, List.singleton_append, ← log] at frame
      exact frame
    · rw [Exec.abs_ring member]
      exact closed
    · show (e.st.pc p).phase = _
      rw [here]
      rfl
    · show (e'.st.pc p).phase = _
      rw [pcSelf]
      rfl
    · rw [Exec.abs, queueOf_ring (by rw [newRings]; exact List.mem_cons_self), content' n,
        content.filled filled.1 filled.2]
      exact soloRing_abs itemOf_empty (itemOf_some isItem) inv.small
  refine ⟨refines, inv.advance (p := p) refines goes ?_⟩
  rw [pcSelf]
  trivial

theorem Inv.swing {f : EnqFrame} {n : ℕ} (inv : Inv pow e) (here : e.st.pc p = .enqSwing f n) :
    Refines pow e ⟨(e.st.setNrq p none).goto p .idle, .enqRet f.call :: e.log⟩ ∧
      Inv pow ⟨(e.st.setNrq p none).goto p .idle, .enqRet f.call :: e.log⟩ := by
  refine inv.plain (.swing f n here) (.enqRet f.call) rfl rfl rfl (by rw [here]; rfl) ?_
    (fun frame => ?_) ?_
  · rw [State.goto_pc]
    rfl
  · exact .retEnq p f.call frame (congrArg Pc.phase here) (congrArg Pc.phase (State.goto_pc ..))
      rfl rfl
  · rw [State.goto_pc]
    exact fun _ => trivial

theorem Inv.run {s : State T} {events : List (Event Word)} (inv : Inv pow e)
    (below : TicketsBelow pow e.st) (taken : run pow e.st p = some (s, events)) :
    Refines pow e ⟨s, events ++ e.log⟩ ∧ Inv pow ⟨s, events ++ e.log⟩ := by
  have ok := inv.ok p
  have goes := run_goes taken
  generalize after : (⟨s, events ++ e.log⟩ : Exec T) = e' at goes ⊢
  have all := goes
  cases goes with
  | callEnq arg idle | callDeq idle =>
      rw [C.run, idle] at taken
      cases taken
  | reuse f n here has =>
      rw [here] at ok
      refine inv.hidden all (fun _ _ => rfl) ?_ rfl ?_
      · rw [State.goto_pc, here]
        rfl
      · rw [State.goto_pc, here]
        exact ok
  | alloc f here none_ =>
      rw [here] at ok
      refine inv.hidden all (fun r member => ?_) ?_ rfl ?_
      · exact Function.update_of_ne (inv.layout.fresh r member).ne ..
      · rw [State.goto_pc, here]
        rfl
      · rw [State.goto_pc, here]
        exact ok
  | soloTail f n here | soloVal f n here | soloIdx f n here =>
      refine inv.fill all (by rw [here]; rfl) (by rw [here]; rfl) (by rw [here]; rfl) ?_
      rw [here] at ok ⊢
      exact ok
  | link f n here last => exact inv.link here last all rfl
  | lost f n m here link =>
      rw [here] at ok
      refine inv.hidden all (fun _ _ => rfl) ?_ rfl ?_
      · rw [State.goto_pc, here]
        rfl
      · rw [State.goto_pc, here]
        exact ok.1
  | swing f n here => exact inv.swing here
  | access q pc events' access => exact inv.onRing below access

theorem Inv.next {a : Act} (inv : Inv pow e) (next : e.next pow p a = some e') :
    Refines pow e e' ∧ Inv pow e' := by
  unfold Exec.next at next
  split at next
  next allowed =>
    obtain ⟨below, allowed⟩ := allowed
    obtain ⟨⟨s, events⟩, taken, after⟩ := Option.map_eq_some_iff.mp next
    subst after
    cases a with
    | enq arg =>
        simp only [step] at taken
        split at taken
        next idle =>
          cases taken
          exact inv.call idle (.callEnq arg idle) rfl rfl (fun _ => allowed)
            fun σ' frame before after calls log => .callEnq p arg frame before after calls log
        next => cases taken
    | deq =>
        simp only [step] at taken
        split at taken
        next idle =>
          cases taken
          exact inv.call idle (.callDeq idle) rfl rfl (fun _ => trivial)
            fun σ' frame before after calls log => .callDeq p frame before after calls log
        next => cases taken
    | run => exact inv.run below taken
  next => cases next

omit [DecidableEq T] in
theorem inv_init (below : TicketsBelow pow (State.init : State T)) :
    Inv pow (Exec.init : Exec T) := by
  have bound := (below 0 Nat.zero_lt_one).1
  have small : pow < 63 := by
    refine (Nat.pow_lt_pow_iff_right (a := 2) (by decide)).mp ?_
    exact lt_of_le_of_lt (Nat.le_add_left _ _) bound
  have ring : (Exec.abs pow (Exec.init : Exec T)).ring 0 = CellRing.start :=
    (queueOf_ring List.mem_cons_self).trans (initRing_abs itemOf_empty small)
  exact ⟨small, Queue.Inv.init rfl ring (fun _ => rfl) fun _ => rfl, layout_init,
    fun _ => List.mem_cons_self, fun _ => trivial⟩

theorem reachable_inv (run : Reachable (system pow) e) : Inv pow e := by
  refine Reachable.invariant (I := Inv pow) ?_ ?_ run
  · rintro e ⟨rfl, below⟩
    exact inv_init below
  · rintro e e' inv ⟨p, a, next⟩
    exact (inv.next next).2

end Steps

end Elcrq.C
