import Elcrq.Cpp.Layout

/-! # The invariant of the machine of `LCRQueue.hpp`

The machine stands for a queue of rings, `Exec.abs`, and for a linked list under
hazard pointers, `Exec.heap`; both are read off its state and both keep their
invariants.  `Inv` adds to the layout of memory the invariant of the queue and the
locals of the threads. -/

set_option autoImplicit false

namespace Elcrq.Cpp

open Concurrent Concurrent.TicketRing Concurrent.RingList Concurrent.Hazard

section Invariant

variable {n : ℕ} {A V : Type}

def Exec.abs (pow : ℕ) (e : Exec n A V) : Queue (Fin n) V :=
  queueOf pow itemOf e.st.node (fun p => (e.st.pc p).place e.st.nodeAt) e.st.calls e.log

structure Inv (pow : ℕ) (e : Exec n A V) : Prop where
  small : pow < 63
  queue : (e.abs pow).Inv (2 ^ pow)
  heap : e.heap.Inv
  occupied : ∀ i, e.heap.Alive i →
    e.st.nodeAt (e.st.addr i) = i ∧ e.st.live (e.st.addr i) = true
  tracked : ∀ a, e.Tracked a → e.st.addr (e.st.nodeAt a) = a
  next : ∀ i ∈ rings e.log, (e.st.node i).next = (successor e.log i).map e.st.addr
  lnext : ∀ p a m, (e.st.pc p).guarded = some a → (e.st.pc p).lnext = some m →
    (e.st.node (e.st.nodeAt a)).next = some m
  fresh : ∀ p m, (e.st.pc p).own = some m → Unlinked none (e.st.node (e.st.nodeAt m)) ∧
    (e.st.pc p).Filled (e.st.node (e.st.nodeAt m))
  ok : ∀ p, (e.st.pc p).Ok pow ((e.st.node ((e.st.pc p).ring e.st.nodeAt)).abs pow itemOf)
  slot : ∀ p, (e.st.pc p).Local n (e.st.hp p)

/-- A step of the machine is a sequence of steps of the queue. -/
def Refines (pow : ℕ) (e e' : Exec n A V) : Prop :=
  Relation.ReflTransGen (RingList.Step (2 ^ pow)) (e.abs pow) (e'.abs pow)

variable {pow : ℕ} {e e' : Exec n A V} {p : Fin n} {a : A}

theorem Pc.ring_of_guarded {pc : Pc A V} {nodeAt : A → ℕ} (guarded : pc.guarded = some a) :
    pc.ring nodeAt = nodeAt a := by
  rw [Pc.ring, guarded]
  rfl

theorem Inv.layout (inv : Inv pow e) : Layout e where
  heap := inv.heap
  occupied := inv.occupied
  tracked := inv.tracked
  next := inv.next
  lnext := inv.lnext
  fresh := inv.fresh
  slot := inv.slot

theorem Inv.ring (inv : Inv pow e) (guarded : (e.st.pc p).guarded = some a) :
    (e.abs pow).ring (e.st.nodeAt a) = (e.st.node (e.st.nodeAt a)).abs pow itemOf :=
  queueOf_ring (inv.layout.guarded guarded).2.2

theorem Inv.advance [DecidableEq A] [DecidableEq V] (inv : Inv pow e) (refines : Refines pow e e')
    (goes : e.Goes pow p e')
    (ok : (e'.st.pc p).Ok pow ((e'.st.node ((e'.st.pc p).ring e'.st.nodeAt)).abs pow itemOf)) :
    Inv pow e' := by
  have layout := inv.layout.goes goes
  refine
    { small := inv.small
      queue := steps_inv (Nat.two_pow_pos pow) inv.queue refines
      heap := layout.heap
      occupied := layout.occupied
      tracked := layout.tracked
      next := layout.next
      lnext := layout.lnext
      fresh := layout.fresh
      ok := fun w => ?_
      slot := layout.slot }
  by_cases same : w = p
  · rw [same]
    exact ok
  · rw [goes.others same]
    cases guarded : (e.st.pc w).guarded with
    | none => exact Pc.ok_of_unguarded guarded
    | some a =>
        have member := (inv.layout.guarded guarded).2.2
        obtain ⟨closed, head, _⟩ := steps_ring_le refines member
        have ok := inv.ok w
        have nodeAt := goes.stepped.nodeAt inv.layout (Exec.tracked_of_guarded guarded)
        rw [Pc.ring_of_guarded guarded] at ok ⊢
        rw [nodeAt]
        rw [inv.ring guarded] at closed head
        have ring' : (e'.abs pow).ring (e.st.nodeAt a) =
            (e'.st.node (e.st.nodeAt a)).abs pow itemOf := queueOf_ring (steps_rings refines _ member)
        rw [ring'] at closed head
        exact ok.mono closed head

theorem refines_same (node : e'.st.node = e.st.node) (nodeAt : e'.st.nodeAt = e.st.nodeAt)
    (calls : e'.st.calls = e.st.calls) (log : e'.log = e.log)
    (others : ∀ w, w ≠ p → e'.st.pc w = e.st.pc w)
    (phase : (e'.st.pc p).phase = (e.st.pc p).phase) (out : (e.st.pc p).view = .out)
    (out' : (e'.st.pc p).view = .out) : Refines pow e e' := by
  have same : e'.abs pow = e.abs pow := by
    rw [Exec.abs, Exec.abs, node, nodeAt, calls, log]
    refine queueOf_same (u := p) (fun _ _ => rfl) (fun w other => by rw [others w other]) phase
      fun r => ?_
    rw [Place.viewAt_out (a := (e'.st.pc p).place e.st.nodeAt) out',
      Place.viewAt_out (a := (e.st.pc p).place e.st.nodeAt) out]
  rw [Refines, same]

end Invariant

end Elcrq.Cpp
