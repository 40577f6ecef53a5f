import Elcrq.Cpp.Invariant

/-! # Every step of the machine of `LCRQueue.hpp` keeps the invariant

Each step within the ticket bound is a sequence of steps of the queue the machine
stands for. -/

set_option autoImplicit false

namespace Elcrq.Cpp

open Concurrent Concurrent.TicketRing Concurrent.RingList Concurrent.Hazard

section Steps

variable {n : ℕ} {A V : Type} {pow : ℕ} {e e' : Exec n A V} {p : Fin n} {a : A}

/-! ## Accesses to nodes -/

section Accesses

variable {q : RingQueue A (Option V)} {pc : Pc A V} {events : List (Event V)}

theorem Effect.refines (inv : Inv pow e) (guarded : (e.st.pc p).guarded = some a)
    (effect : Effect pow (e.st.nodeAt a) (e.st.node (e.st.nodeAt a)) (e.st.pc p) q pc events)
    (onward : Onward (e.st.pc p) pc) : Refines pow e (e.accessed p a q pc events) := by
  have member := (inv.layout.guarded guarded).2.2
  have others : ∀ w, w ≠ p → ((e.accessed p a q pc events).st.pc w).place e.st.nodeAt =
      (e.st.pc w).place e.st.nodeAt := fun w other => by rw [Exec.accessed_pc_other other]
  have memory : ∀ r ∈ rings e.log, r ≠ e.st.nodeAt a →
      (e.accessed p a q pc events).st.node r = e.st.node r := fun r _ other =>
    Exec.accessed_node_other other
  have only : ((e.st.pc p).place e.st.nodeAt).Only (e.st.nodeAt a) :=
    Or.inl (Pc.ring_of_guarded guarded)
  have only' : (pc.place e.st.nodeAt).Only (e.st.nodeAt a) := by
    cases onward with
    | keep same _ => exact Or.inl (Pc.ring_of_guarded (same.trans guarded))
    | leave unguarded _ => exact Or.inr (Pc.view_of_unguarded unguarded)
  cases effect with
  | stay content phase view noEvents =>
      subst noEvents
      have same : (e.accessed p a q pc []).abs pow = e.abs pow := by
        refine queueOf_same (u := p) (fun r _ => ?_) others ?_ fun r => ?_
        · by_cases here : r = e.st.nodeAt a
          · rw [here, Exec.accessed_node, content]
          · rw [Exec.accessed_node_other here]
        · rw [Exec.accessed_pc]
          exact phase
        · rw [Exec.accessed_pc]
          show (pc.place e.st.nodeAt).viewAt r = _
          by_cases here : r = e.st.nodeAt a
          · rw [here, only'.viewAt_self, only.viewAt_self]
            exact view
          · rw [only'.viewAt_other here, only.viewAt_other here]
      rw [Refines, same]
  | move m c move acts isEvent =>
      subst isEvent
      refine .single (queueOf_move (u := p) member only ?_ memory others ?_ ?_)
      · rw [Exec.accessed_pc]
        exact only'
      · rw [Exec.accessed_pc, Exec.accessed_node]
        exact move
      · rw [Exec.accessed_pc]
        exact acts

theorem Inv.room (inv : Inv pow e) (below : TicketsBelow pow e.st)
    (guarded : (e.st.pc p).guarded = some a) :
    (e.st.node (e.st.nodeAt a)).head.toNat + 2 ^ pow < 2 ^ 63 ∧
      (tailIndex (e.st.node (e.st.nodeAt a)).tail).toNat + 1 < 2 ^ 63 :=
  below _ (inv.heap.chain_lt _ (inv.layout.guarded guarded).2.2)

theorem Inv.accessed [DecidableEq V] (inv : Inv pow e) (below : TicketsBelow pow e.st)
    (guarded : (e.st.pc p).guarded = some a)
    (access : onNode pow (e.st.nodeAt a) (e.st.node (e.st.nodeAt a)) (e.st.pc p) =
      some (q, pc, events)) :
    Accessed pow (e.st.nodeAt a) (e.st.node (e.st.nodeAt a)) (e.st.pc p) q pc events := by
  obtain ⟨roomHead, roomTail⟩ := inv.room below guarded
  have ok := inv.ok p
  rw [Pc.ring_of_guarded guarded] at ok
  exact onNode_accessed inv.small roomHead roomTail ok access

theorem Inv.onNode [DecidableEq A] [DecidableEq V] (inv : Inv pow e)
    (below : TicketsBelow pow e.st) (guarded : (e.st.pc p).guarded = some a)
    (access : onNode pow (e.st.nodeAt a) (e.st.node (e.st.nodeAt a)) (e.st.pc p) =
      some (q, pc, events)) :
    Refines pow e (e.accessed p a q pc events) ∧ Inv pow (e.accessed p a q pc events) := by
  obtain ⟨effect, onward, ok, _, _⟩ := inv.accessed below guarded access
  have refines := effect.refines inv guarded onward
  refine ⟨refines, inv.advance refines (.access a q pc events guarded access) ?_⟩
  rw [Exec.accessed_pc]
  cases onward with
  | keep same _ =>
      rw [Pc.ring_of_guarded (same.trans guarded)]
      show pc.Ok pow (((e.accessed p a q pc events).st.node (e.st.nodeAt a)).abs pow itemOf)
      rw [Exec.accessed_node]
      exact ok
  | leave unguarded _ => exact Pc.ok_of_unguarded unguarded

theorem Inv.fill [DecidableEq A] [DecidableEq V] {pc' : Pc A V} {l m : A} (inv : Inv pow e)
    (here : e.st.pc p = pc) (guarded : pc.guarded = some l) (own : pc.own = some m)
    (goes : e.Goes pow p (e.accessed p m q pc' []))
    (place : pc'.place e.st.nodeAt = pc.place e.st.nodeAt) (guarded' : pc'.guarded = some l)
    (ok : ∀ ρ, pc.Ok pow ρ → pc'.Ok pow ρ) :
    Refines pow e (e.accessed p m q pc' []) ∧ Inv pow (e.accessed p m q pc' []) := by
  subst here
  have apart : ∀ i ∈ rings e.log, i ≠ e.st.nodeAt m := fun i member same =>
    inv.layout.own_apart own member same.symm
  have member := (inv.layout.guarded guarded).2.2
  have refines : Refines pow e (e.accessed p m q pc' []) := by
    have same : (e.accessed p m q pc' []).abs pow = e.abs pow := by
      refine queueOf_same (u := p) (fun r inRings => ?_) (fun w other => ?_) ?_ fun r => ?_
      · rw [Exec.accessed_node_other (apart r inRings)]
      · rw [Exec.accessed_pc_other other]
        rfl
      · rw [Exec.accessed_pc]
        exact congrArg Place.phase place
      · rw [Exec.accessed_pc]
        exact congrArg (Place.viewAt · r) place
    rw [Refines, same]
  refine ⟨refines, inv.advance refines goes ?_⟩
  have old := inv.ok p
  rw [Pc.ring_of_guarded guarded] at old
  rw [Exec.accessed_pc, Pc.ring_of_guarded guarded']
  show pc'.Ok pow (((e.accessed p m q pc' []).st.node (e.st.nodeAt l)).abs pow itemOf)
  rw [Exec.accessed_node_other (apart _ member)]
  exact ok _ old

/-- The `compare_exchange_strong` that links a filled node. -/
theorem Inv.link_refines {f : EnqFrame V} {l m : A} (inv : Inv pow e)
    (here : e.st.pc p = .enqLink f l m)
    (last : (e.st.node (e.st.nodeAt l)).next = none)
    (after : e' = e.accessed p l { e.st.node (e.st.nodeAt l) with next := some m }
      (.enqAdvance f l m) [.enqItem f.call (e.st.nodeAt m) 0 f.item,
        .enqDraw f.call (e.st.nodeAt m) 0, .link (e.st.nodeAt l) (e.st.nodeAt m)]) :
    Refines pow e e' := by
  have guarded : (e.st.pc p).guarded = some l := by rw [here]; rfl
  have own : (e.st.pc p).own = some m := by rw [here]; rfl
  have member := (inv.layout.guarded guarded).2.2
  have notIn : e.st.nodeAt m ∉ rings e.log := fun inRings => inv.layout.own_apart own inRings rfl
  obtain ⟨content, filled⟩ := inv.fresh p m own
  rw [here] at filled
  have closed : ((e.st.node (e.st.nodeAt l)).abs pow itemOf).closed = true := by
    have ok := inv.ok p
    rwa [Pc.ring_of_guarded guarded, here] at ok
  obtain ⟨rest, newest⟩ := inv.layout.newest member last
  have pcSelf : e'.st.pc p = .enqAdvance f l m := by rw [after, Exec.accessed_pc]
  have others : ∀ w, w ≠ p → e'.st.pc w = e.st.pc w := fun w other => by
    rw [after, Exec.accessed_pc_other other]
  have nodeSelf : e'.st.node (e.st.nodeAt l) =
      { e.st.node (e.st.nodeAt l) with next := some m } := by rw [after, Exec.accessed_node]
  have nodeSame : ∀ i, i ≠ e.st.nodeAt l → e'.st.node i = e.st.node i := fun i other => by
    rw [after, Exec.accessed_node_other other]
  have nodeAtSame : e'.st.nodeAt = e.st.nodeAt := by rw [after]; rfl
  have contentSame : ∀ r, (e'.st.node r).abs pow itemOf = (e.st.node r).abs pow itemOf := by
    intro r
    by_cases same : r = e.st.nodeAt l
    · rw [same, nodeSelf]
      rfl
    · rw [nodeSame r same]
  have log : e'.log = .enqItem f.call (e.st.nodeAt m) 0 f.item :: .enqDraw f.call (e.st.nodeAt m) 0 ::
      .link (e.st.nodeAt l) (e.st.nodeAt m) :: e.log := by rw [after]; rfl
  have newRings : rings e'.log = e.st.nodeAt m :: rings e.log := by rw [log]; rfl
  have outP : ∀ r, ((e.st.pc p).place e.st.nodeAt).viewAt r = .out := fun r =>
    Place.viewAt_out (by rw [here]; rfl) r
  have outP' : ∀ r, ((e'.st.pc p).place e.st.nodeAt).viewAt r = .out := fun r =>
    Place.viewAt_out (by rw [pcSelf]; rfl) r
  have outN : ∀ w, ((e'.st.pc w).place e.st.nodeAt).viewAt (e.st.nodeAt m) = .out := by
    intro w
    by_cases same : w = p
    · rw [same]
      exact outP' _
    · rw [others w same]
      cases isGuard : (e.st.pc w).guarded with
      | none => exact Place.viewAt_out (Pc.view_of_unguarded isGuard) _
      | some b =>
          refine if_neg fun atM => notIn ?_
          rw [atM]
          show (e.st.pc w).ring e.st.nodeAt ∈ rings e.log
          rw [Pc.ring_of_guarded isGuard]
          exact (inv.layout.guarded isGuard).2.2
  refine Step.solo (u := p) (r := e.st.nodeAt l) (n := e.st.nodeAt m) (c := f.call) (x := f.item)
    ?_ newest ?_ notIn ?_ ?_ ?_ ?_ (fun r _ => outP r) (by rw [after]; rfl) log
  · have frame : Frame p none (e.abs pow) (queueOf pow itemOf e'.st.node
        (fun w => (e'.st.pc w).place e.st.nodeAt) e'.st.calls
        ([.enqItem f.call (e.st.nodeAt m) 0 f.item, .enqDraw f.call (e.st.nodeAt m) 0,
          .link (e.st.nodeAt l) (e.st.nodeAt m)] ++ e.log)) := by
      refine queueOf_frame _ (fun r old => List.mem_cons_of_mem _ old)
        (fun r _ _ => contentSame r) (fun w other => by rw [others w other]) fun r _ _ => ?_
      rw [outP' r, outP r]
    rw [List.cons_append, List.cons_append, List.singleton_append, ← log, ← nodeAtSame] at frame
    exact frame
  · rw [Exec.abs, queueOf_ring member]
    exact closed
  · show (e.st.pc p).phase = _
    rw [here]
    rfl
  · show (e'.st.pc p).phase = _
    rw [pcSelf]
    rfl
  · rw [Exec.abs, queueOf_ring (by rw [newRings]; exact List.mem_cons_self), contentSame,
      content.filled filled.1 filled.2]
    exact soloRing_abs rfl rfl inv.small
  · intro w
    show ((e'.st.pc w).place e'.st.nodeAt).viewAt _ = _
    rw [nodeAtSame]
    exact outN w

end Accesses

/-! ## Steps that touch no node -/

variable [DecidableEq A] [DecidableEq V]

theorem Inv.quiet {s : State n A V} {pc pc' : Pc A V} {mem : List MemEvent} (inv : Inv pow e)
    (here : e.st.pc p = pc) (goes : e.Goes pow p ⟨s.goto p pc', e.log, mem⟩)
    (same : SameNodes e.st s) (calls : s.calls = e.st.calls) (phase : pc'.phase = pc.phase)
    (out : pc.view = .out) (out' : pc'.view = .out) (ok : ∀ ρ, pc'.Ok pow ρ) :
    Refines pow e ⟨s.goto p pc', e.log, mem⟩ ∧ Inv pow ⟨s.goto p pc', e.log, mem⟩ := by
  subst here
  have self : (s.goto p pc').pc p = pc' := State.goto_pc ..
  have refines : Refines pow e ⟨s.goto p pc', e.log, mem⟩ := by
    refine refines_same (p := p) same.node same.nodeAt calls rfl (fun w => goes.others) ?_ out ?_
    · exact (congrArg Pc.phase self).trans phase
    · exact (congrArg Pc.view self).trans out'
  refine ⟨refines, inv.advance refines goes ?_⟩
  show ((s.goto p pc').pc p).Ok pow _
  rw [self]
  exact ok _

theorem Inv.unguarded {s : State n A V} {pc pc' : Pc A V} {mem : List MemEvent} (inv : Inv pow e)
    (here : e.st.pc p = pc) (goes : e.Goes pow p ⟨s.goto p pc', e.log, mem⟩)
    (same : SameNodes e.st s) (calls : s.calls = e.st.calls) (phase : pc'.phase = pc.phase)
    (out : pc.view = .out) (unguarded : pc'.guarded = none) :
    Refines pow e ⟨s.goto p pc', e.log, mem⟩ ∧ Inv pow ⟨s.goto p pc', e.log, mem⟩ :=
  inv.quiet here goes same calls phase out (Pc.view_of_unguarded unguarded)
    fun _ => Pc.ok_of_unguarded unguarded

theorem Inv.plain {hp : ℕ → Option A} {calls : ℕ} {pc pc' : Pc A V} {event : Event V}
    (inv : Inv pow e) (here : e.st.pc p = pc)
    (after : e' = ⟨State.goto { e.st with hp := hp, calls := calls } p pc', event :: e.log, e.mem⟩)
    (goes : e.Goes pow p e') (sameRings : rings (event :: e.log) = rings e.log)
    (out : pc.view = .out) (unguarded : pc'.guarded = none)
    (step : Frame p none (e.abs pow) (e'.abs pow) → (e.abs pow).phase p = pc.phase →
      (e'.abs pow).phase p = pc'.phase → RingList.Step (2 ^ pow) (e.abs pow) (e'.abs pow)) :
    Refines pow e e' ∧ Inv pow e' := by
  subst here
  have self : e'.st.pc p = pc' := by
    rw [after]
    exact State.goto_pc ..
  have refines : Refines pow e e' := by
    refine .single (step ?_ rfl (congrArg Pc.phase self))
    subst after
    refine queueOf_plain sameRings (fun r _ => rfl) (fun w other => ?_) out ?_
    · exact congrArg (Pc.place e.st.nodeAt) (goes.others other)
    · exact (congrArg Pc.view self).trans (Pc.view_of_unguarded unguarded)
  refine ⟨refines, inv.advance refines goes ?_⟩
  rw [self]
  exact Pc.ok_of_unguarded unguarded

omit [DecidableEq A] [DecidableEq V] in
theorem scanFrom_unguarded (c : ℕ) (ptr : A) (iret size : ℕ) :
    (scanFrom c ptr iret size : Pc A V).phase = .deq c ∧
      (scanFrom c ptr iret size : Pc A V).guarded = none := by
  unfold scanFrom
  split <;> exact ⟨rfl, rfl⟩

omit [DecidableEq V] in
theorem scanSlot_unguarded (s : State n A V) (c : ℕ) (ptr obj : A) (iret tid : ℕ) :
    (scanSlot s p c ptr obj iret tid).phase = .deq c ∧
      (scanSlot s p c ptr obj iret tid).guarded = none := by
  unfold scanSlot
  split
  · exact scanFrom_unguarded ..
  · split <;> exact ⟨rfl, rfl⟩

omit [DecidableEq V] in
theorem Inv.construct_refines {f : EnqFrame V} {l : A} (inv : Inv pow e)
    (here : e.st.pc p = .enqConstruct f l) (unused : e.st.live a = false)
    (after : e' = ⟨(e.st.construct a).goto p (.soloTail f l a), e.log,
      .construct e.st.made :: e.mem⟩) : Refines pow e e' := by
  have guarded : (e.st.pc p).guarded = some l := by rw [here]; rfl
  obtain ⟨nodeAtSame, nodeSame, _⟩ : Constructed e e' a := after ▸ inv.layout.constructed unused
  have pcSelf := Exec.constructed_pc after
  have placeSame : ∀ w, (e'.st.pc w).place e'.st.nodeAt = (e.st.pc w).place e.st.nodeAt := by
    intro w
    by_cases same : w = p
    · rw [same, pcSelf, here]
      show Place.mk (e'.st.nodeAt l) _ _ = Place.mk (e.st.nodeAt l) _ _
      rw [nodeAtSame l (Exec.tracked_of_guarded guarded)]
      rfl
    · rw [Exec.constructed_pc_other after same, Pc.place, Pc.place]
      cases isGuard : (e.st.pc w).guarded with
      | none => rw [Pc.ring, Pc.ring, isGuard]; rfl
      | some b =>
          rw [Pc.ring_of_guarded isGuard, Pc.ring_of_guarded isGuard,
            nodeAtSame b (Exec.tracked_of_guarded isGuard)]
  have same : e'.abs pow = e.abs pow := by
    rw [Exec.abs, Exec.abs, show e'.log = e.log by rw [after],
      show e'.st.calls = e.st.calls by rw [after]; rfl]
    refine queueOf_same (u := p) (fun r member => ?_) (fun w _ => placeSame w) ?_ fun r => ?_
    · rw [nodeSame r (inv.heap.chain_lt r member)]
    · exact congrArg Place.phase (placeSame p)
    · exact congrArg (Place.viewAt · r) (placeSame p)
  rw [Refines, same]

theorem Inv.construct {f : EnqFrame V} {l : A} (inv : Inv pow e)
    (here : e.st.pc p = .enqConstruct f l) (unused : e.st.live a = false)
    (after : e' = ⟨(e.st.construct a).goto p (.soloTail f l a), e.log,
      .construct e.st.made :: e.mem⟩) : Refines pow e e' ∧ Inv pow e' := by
  have guarded : (e.st.pc p).guarded = some l := by rw [here]; rfl
  have tracked := Exec.tracked_of_guarded guarded
  have refines := inv.construct_refines here unused after
  obtain ⟨nodeAtSame, nodeSame, _⟩ : Constructed e e' a := after ▸ inv.layout.constructed unused
  have ok := inv.ok p
  rw [Pc.ring_of_guarded guarded, here] at ok
  have goes : e.Goes pow p e' := by
    rw [after]
    exact .construct f l a here unused
  refine ⟨refines, inv.advance refines goes ?_⟩
  rw [Exec.constructed_pc after, Pc.ring_of_guarded (a := l) rfl, nodeAtSame l tracked,
    nodeSame _ (inv.layout.tracked_alive tracked).1]
  exact ok

/-! ## All steps -/

/-- Every step within the ticket bound keeps the invariant and refines the queue. -/
theorem Inv.goes (inv : Inv pow e) (below : TicketsBelow pow e.st) (goes : e.Goes pow p e') :
    Refines pow e e' ∧ Inv pow e' := by
  have all := goes
  cases goes with
  | callEnq item idle =>
      exact inv.plain idle rfl all rfl rfl rfl fun frame before after =>
        .callEnq p item frame before after rfl rfl
  | callDeq idle =>
      exact inv.plain idle rfl all rfl rfl rfl fun frame before after =>
        .callDeq p frame before after rfl rfl
  | loadTail f here => exact inv.unguarded here all ⟨rfl, rfl, rfl, rfl⟩ rfl rfl rfl rfl
  | protectTail f l here => exact inv.unguarded here all ⟨rfl, rfl, rfl, rfl⟩ rfl rfl rfl rfl
  | validTail f here =>
      exact inv.quiet here all ⟨rfl, rfl, rfl, rfl⟩ rfl rfl rfl rfl fun _ => trivial
  | retryTail f l here => exact inv.unguarded here all ⟨rfl, rfl, rfl, rfl⟩ rfl rfl rfl rfl
  | help f l m here | advance f l m here =>
      exact inv.unguarded here all ⟨rfl, rfl, rfl, rfl⟩ rfl rfl rfl rfl
  | construct f l a here unused => exact inv.construct here unused rfl
  | soloTail f l m here | soloVal f l m here | soloIdx f l m here =>
      exact inv.fill here rfl rfl all rfl rfl fun _ => id
  | link f l m here last =>
      have refines := inv.link_refines here last rfl
      refine ⟨refines, inv.advance refines all ?_⟩
      rw [Exec.accessed_pc]
      trivial
  | lost f l m here => exact inv.unguarded here all ⟨rfl, rfl, rfl, rfl⟩ rfl rfl rfl rfl
  | discard f m here => exact inv.unguarded here all ⟨rfl, rfl, rfl, rfl⟩ rfl rfl rfl rfl
  | retEnq f here =>
      exact inv.plain here rfl all rfl rfl rfl fun frame before after =>
        .retEnq p f.call frame before after rfl rfl
  | loadHead c here => exact inv.unguarded here all ⟨rfl, rfl, rfl, rfl⟩ rfl rfl rfl rfl
  | protectHead c l here => exact inv.unguarded here all ⟨rfl, rfl, rfl, rfl⟩ rfl rfl rfl rfl
  | validHead c here =>
      exact inv.quiet here all ⟨rfl, rfl, rfl, rfl⟩ rfl rfl rfl rfl fun _ => trivial
  | retryHead c l here => exact inv.unguarded here all ⟨rfl, rfl, rfl, rfl⟩ rfl rfl rfl rfl
  | unlink c l m here isHead =>
      obtain ⟨phase, unguarded⟩ := scanFrom_unguarded (V := V) c l 0 (e.st.retiredList p ++ [l]).length
      exact inv.unguarded here all ⟨rfl, rfl, rfl, rfl⟩ rfl phase rfl unguarded
  | missed c l m here => exact inv.unguarded here all ⟨rfl, rfl, rfl, rfl⟩ rfl rfl rfl rfl
  | scan c ptr obj iret tid here looked =>
      obtain ⟨phase, unguarded⟩ := scanSlot_unguarded (p := p) e.st c ptr obj iret tid
      exact inv.unguarded here all ⟨rfl, rfl, rfl, rfl⟩ rfl phase rfl unguarded
  | destroy c ptr obj iret here looked =>
      obtain ⟨phase, unguarded⟩ :=
        scanFrom_unguarded (V := V) c ptr iret ((e.st.retiredList p).eraseIdx iret).length
      exact inv.unguarded here all ⟨rfl, rfl, rfl, rfl⟩ rfl phase rfl unguarded
  | retEmpty c here =>
      refine inv.plain here rfl all rfl rfl rfl fun frame before after => ?_
      exact .retEmpty p c frame before (fun r _ => Place.viewAt_out (congrArg Pc.view here) r) after
        rfl rfl
  | retDeq c x here =>
      exact inv.plain here rfl all rfl rfl rfl fun frame before after =>
        .retDeq p c x.node x.ticket x.val frame before after rfl rfl
  | access a q pc events guarded access => exact inv.onNode below guarded access

theorem next_inv {act : Act A V} (inv : Inv pow e) (next : e.next pow p act = some e') :
    Refines pow e e' ∧ Inv pow e' := inv.goes (next_below next) (next_goes next)

omit [DecidableEq V] in
theorem inv_init (sentinel : A) (below : TicketsBelow pow (State.init sentinel : State n A V)) :
    Inv pow (Exec.init sentinel : Exec n A V) := by
  have bound := (below 0 Nat.zero_lt_one).1
  have small : pow < 63 := by
    refine (Nat.pow_lt_pow_iff_right (a := 2) (by decide)).mp ?_
    exact lt_of_le_of_lt (Nat.le_add_left _ _) bound
  have ring : (Exec.abs pow (Exec.init sentinel : Exec n A V)).ring 0 = CellRing.start :=
    (queueOf_ring List.mem_cons_self).trans (initRing_abs rfl small)
  have layout : Layout (Exec.init sentinel : Exec n A V) := layout_init sentinel
  exact
    { small := small
      queue := Queue.Inv.init rfl ring (fun _ => rfl) fun _ => rfl
      heap := layout.heap
      occupied := layout.occupied
      tracked := layout.tracked
      next := layout.next
      lnext := layout.lnext
      fresh := layout.fresh
      ok := fun _ => trivial
      slot := layout.slot }

theorem reachable_inv (run : Reachable (system pow) e) : Inv pow e := by
  refine Reachable.invariant (I := Inv pow) ?_ ?_ run
  · rintro e ⟨⟨sentinel, rfl⟩, below⟩
    exact inv_init sentinel below
  · rintro e e' inv ⟨p, a, next⟩
    exact (next_inv inv next).2

end Steps

end Elcrq.Cpp
