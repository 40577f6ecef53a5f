import Elcrq.Cpp.Items

/-! # First in, first out in `LCRQueue.hpp`

`dequeue` tests the tail a second time once it has seen `next` set, so it never
leaves a node behind that is not drained. -/

set_option autoImplicit false

namespace Elcrq.Cpp

open Concurrent Concurrent.TicketRing Concurrent.RingList Concurrent.Hazard

section Order

variable {n : ℕ} {A V : Type} [DecidableEq A] [DecidableEq V]

/-- A `dequeue` call in progress holds head ticket `t` of node `r`, in its inner loop or
with the item already taken; and in every continuation `x` is the only thing that is
returned from that ticket. -/
structure Exec.Awaited (pow : ℕ) (e : Exec n A V) (r t : ℕ) (x : V) : Prop where
  held : ∃ p, (e.st.pc p).holds e.st.nodeAt = some (r, t) ∨
    ∃ d, e.st.pc p = .deqClear d (some ⟨r, t, x⟩)
  only : ∀ e', Relation.ReflTransGen (system pow).step e e' →
    ∀ d y, .deqRet d r t y ∈ e'.log → y = x

/-- Whenever `b` was enqueued after `enqueue(a)` had returned and `b` is returned by a
`dequeue`, then `a` is returned or its ticket is held by a call that can only return
`a` from it. -/
def Exec.Fifo (pow : ℕ) (e : Exec n A V) : Prop :=
  ∀ a b d ra ta rb tb x y, Older e.log (.enqRet a) (.enqCall b y) →
    .enqItem a ra ta x ∈ e.log → .enqItem b rb tb y ∈ e.log → .deqRet d rb tb y ∈ e.log →
    e.Returned ra ta x ∨ e.Awaited pow ra ta x

variable {pow : ℕ} {e e' : Exec n A V}

theorem next_log {p : Fin n} {act : Act A V} (next : e.next pow p act = some e') {event : Event V}
    (member : event ∈ e.log) : event ∈ e'.log := by
  unfold Exec.next at next
  split at next
  next =>
    obtain ⟨⟨s, record⟩, _, rfl⟩ := Option.map_eq_some_iff.mp next
    exact List.mem_append_right _ member
  next => cases next

theorem returned_value {c d r t : ℕ} {x y : V} (run : Reachable (system pow) e)
    (item : .enqItem c r t x ∈ e.log) (ret : .deqRet d r t y ∈ e.log) : y = x := by
  have inv := reachable_inv run
  have taken := inv.queue.calls.take_returned d r t y ret
  obtain ⟨c', item'⟩ := inv.queue.take_stored d r t y taken
  obtain rfl := inv.queue.item_ticket_unique item item'
  exact (inv.queue.calls.item_unique c r t x r t y item item').2.2

theorem only_returned {c r t : ℕ} {x : V} (run : Reachable (system pow) e)
    (item : .enqItem c r t x ∈ e.log) (later : Relation.ReflTransGen (system pow).step e e') :
    ∀ d y, .deqRet d r t y ∈ e'.log → y = x := by
  have arrived : Reachable (system pow) e' ∧ .enqItem c r t x ∈ e'.log := by
    induction later with
    | refl => exact ⟨run, item⟩
    | tail _ step ih =>
        obtain ⟨p, act, next⟩ := step
        exact ⟨.step ih.1 ⟨p, act, next⟩, next_log next ih.2⟩
  exact fun d y ret => returned_value arrived.1 arrived.2 ret

theorem dequeue_in_order (run : Reachable (system pow) e) : e.Fifo pow := by
  have inv := reachable_inv run
  intro a b d ra ta rb tb x y before itemA itemB ret
  have taken := inv.queue.calls.take_returned d rb tb y ret
  have drained := (reachable_ordered run).taken d rb tb y taken
  rcases inv.queue.fifo itemA itemB before taken drained with ⟨d', takenA⟩ | held
  · refine (inv.taken_cases takenA).imp_right fun leaving => ?_
    obtain ⟨p, d'', atClear, _⟩ := leaving.taken
    exact ⟨⟨p, Or.inr ⟨d'', atClear⟩⟩, fun _ later => only_returned run itemA later⟩
  · obtain ⟨p, holds⟩ := Exec.held_iff.mp held
    exact Or.inr ⟨⟨p, Or.inl holds⟩, fun _ later => only_returned run itemA later⟩

end Order

/-- With one cell to a node: the second item goes into a new node, the first `dequeue`
stops with ticket `0` of the first node, and the second one returns the second item. -/
theorem dequeue_in_order_overtaking : ∃ e : Exec 3 ℕ ℕ, Reachable (system 0) e ∧
    (Older e.log (.enqRet 0) (.enqCall 1 6) ∧ .deqRet 3 1 0 6 ∈ e.log ∧
      (e.st.pc 2).holds e.st.nodeAt = some (0, 0)) ∧ e.Fifo 0 := by
  obtain ⟨e, run, found⟩ := schedule_reaches (show 0 < 63 by decide) 0
    ([burst 1 (.enqueue 5) 9, burst 1 (.enqueue 6) 14, burst 1 (.construct 1) 6,
      burst 2 .dequeue 5, burst 0 .dequeue 31] : List (List (Fin 3 × Act ℕ ℕ))).flatten
    (fun e => decide (Older e.log (.enqRet 0) (.enqCall 1 6) ∧ .deqRet 3 1 0 6 ∈ e.log ∧
      (e.st.pc 2).holds e.st.nodeAt = some (0, 0))) (by decide +kernel)
  exact ⟨e, run, of_decide_eq_true found, dequeue_in_order run⟩

end Elcrq.Cpp
