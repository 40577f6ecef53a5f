import Elcrq.C.Emptiness

/-! # The handshake on a ticket in `ELCRQ.h`

An `enq` and a `deq` that drew the same ticket of a ring meet at one cell.  If
the `deq` has given up, the `CAS2` of the `enq` fails from then on; if the item is
stored, the `deq` stays in its inner loop until it returns that item. -/

set_option autoImplicit false

namespace Elcrq.C

open Concurrent Concurrent.TicketRing Concurrent.RingList

section Handshake

variable {T : Type}

/-- Nothing was stored under ticket `n` of ring `r`, and a `CAS2` with it fails. -/
def Exec.Unfillable (pow : ℕ) (e : Exec T) (r n : ℕ) : Prop :=
  (∀ c x, .enqItem c r n x ∉ e.log) ∧
    ∀ p f t idx, e.st.pc p = .enqCas2 f t idx → f.tail = r → t.toNat = n →
      ((e.st.ring r).cas2 (cellOf pow t) EMPTY idx f.arg t).1 = false

/-- The item that call `c` stored under ticket `n` of ring `r` goes to the `deq`
that draws this ticket and to no other. -/
structure Exec.Matched (e : Exec T) (c r n : ℕ) (x : Word) : Prop where
  arg : .enqCall c x ∈ e.log
  kept : ∀ d, .deqLeft d r n ∉ e.log
  drawn : ∀ d, .deqDraw d r n ∈ e.log → e.HeldBy d r n ∨ .deqRet d r n x ∈ e.log
  returned : ∀ d y, .deqRet d r n y ∈ e.log → .deqDraw d r n ∈ e.log ∧ y = x
  once : ∀ d d' y y', .deqRet d r n y ∈ e.log → .deqRet d' r n y' ∈ e.log → d = d'

variable {pow : ℕ} {e e' : Exec T}

theorem Inv.left_unstored (inv : Inv pow e) {d c r n : ℕ} {x : Word}
    (left : .deqLeft d r n ∈ e.log) : .enqItem c r n x ∉ e.log := by
  intro item
  have member : r ∈ rings e.log := inv.queue.about _ left r rfl
  exact (inv.queue.ring r member).ring.left_unstored n ⟨d, left⟩ x ⟨c, item⟩

theorem Inv.cas2_fails (inv : Inv pow e) {d : ℕ} {p : T} {f : EnqFrame} {t idx : Word}
    (here : e.st.pc p = .enqCas2 f t idx) (left : .deqLeft d f.tail t.toNat ∈ e.log) :
    ((e.st.ring f.tail).cas2 (cellOf pow t) EMPTY idx f.arg t).1 = false := by
  have member := inv.rq p
  have ok := inv.ok p
  rw [here] at member ok
  have ring : (e.abs pow).ring f.tail = (e.st.ring f.tail).abs pow itemOf := queueOf_ring member
  have ringInv := inv.queue.ring f.tail member
  have view : ((e.abs pow).at f.tail).view p = .enq t.toNat (readyIdx idx) := by
    show (e.st.pc p).place.viewAt f.tail = _
    rw [here]
    exact if_pos rfl
  have viewOk := ringInv.views p
  rw [view] at viewOk
  rcases (e.st.ring f.tail).cas2_cases (cellOf pow t) EMPTY idx f.arg t with failed | ⟨cell, _⟩
  · rw [failed]
  · exfalso
    rw [cellOf_eq inv.small] at cell
    have content : ((e.abs pow).at f.tail).ring.cell (t.toNat % 2 ^ pow) =
        ⟨(nodeIndex idx).toNat, nodeUnsafe idx != 0, none⟩ := by
      show ((e.abs pow).ring f.tail).cell _ = _
      rw [ring, RingQueue.abs_cell, cell, RingNode.abs, itemOf_empty]
    have stored := RingInv.put ringInv.ring viewOk content f.arg
    exact stored.left_unstored t.toNat ⟨d, left⟩ f.arg (Set.mem_insert _ _)

theorem Inv.matched (inv : Inv pow e) {c r n : ℕ} {x : Word}
    (item : .enqItem c r n x ∈ e.log) : e.Matched c r n x := by
  have member : r ∈ rings e.log := inv.queue.about _ item r rfl
  refine ⟨inv.arg_item item, fun d left => inv.left_unstored left item, fun d draw => ?_,
    fun d y ret => ?_, fun d d' y y' ret ret' => ?_⟩
  · rcases inv.queue.item_of_drawn item (inv.queue.deqDraw_lt d r n draw) with
      ⟨d', taken⟩ | ⟨p, held⟩
    · obtain rfl := inv.queue.deqDraw_unique d d' r n draw (inv.queue.take_draw d' r n x taken)
      exact Or.inr (inv.returned taken)
    · obtain ⟨d', inCall, draw'⟩ := inv.queue.deq_held p r member n held
      obtain rfl := inv.queue.deqDraw_unique d d' r n draw draw'
      exact Or.inl ⟨p, (e.st.pc p).deqTicket_view.mp held, inCall⟩
  · have taken := inv.queue.calls.take_returned d r n y ret
    obtain ⟨c', item'⟩ := inv.queue.take_stored d r n y taken
    refine ⟨inv.queue.take_draw d r n y taken, ?_⟩
    exact (inv.queue.ring r member).ring.stored_unique n y x ⟨c', item'⟩ ⟨c, item⟩
  · have taken := inv.queue.calls.take_returned d r n y ret
    have taken' := inv.queue.calls.take_returned d' r n y' ret'
    exact inv.queue.take_ticket_unique taken taken'

variable [DecidableEq T]

theorem log_grows (later : Relation.ReflTransGen (system pow).step e e') {event : Event Word}
    (old : event ∈ e.log) : event ∈ e'.log := by
  induction later with
  | refl => exact old
  | tail _ step ih =>
      obtain ⟨p, a, next⟩ := step
      unfold Exec.next at next
      split at next
      next =>
        obtain ⟨⟨s, events⟩, _, rfl⟩ := Option.map_eq_some_iff.mp next
        exact List.mem_append_right events ih
      next => cases next

/-- Once the `deq` of a ticket has given up, no `enq` fills it; once the `enq` has
filled it, the `deq` returns its item. -/
theorem tickets_matched (run : Reachable (system pow) e)
    (later : Relation.ReflTransGen (system pow).step e e') :
    (∀ d r n, .deqLeft d r n ∈ e.log → e'.Unfillable pow r n) ∧
      ∀ c r n x, .enqItem c r n x ∈ e.log → e'.Matched c r n x := by
  have inv := reachable_inv (run.later later)
  constructor
  · intro d r n left
    have left := log_grows later left
    refine ⟨fun c x => inv.left_unstored left, fun p f t idx here ring ticket => ?_⟩
    subst ring ticket
    exact inv.cas2_fails here left
  · intro c r n x item
    exact inv.matched (log_grows later item)

end Handshake

/-- An `enq` stores under ticket `0` while a `deq` waits there; a second `deq`
gives up on ticket `1`. -/
theorem tickets_matched_both : ∃ e : Exec Bool, Reachable (system 1) e ∧
    (.enqItem 1 0 0 5 ∈ e.log ∧ .deqLeft 2 0 1 ∈ e.log) ∧
    e.Unfillable 1 0 1 ∧ e.Matched 1 0 0 5 := by
  obtain ⟨e, run, found⟩ := schedule_reaches (show 1 < 63 by decide)
    [[(false, .deq), (false, .run), (true, .enq 5)], List.replicate 5 (true, .run),
      List.replicate 3 (false, .run), [(false, .deq)], List.replicate 5 (false, .run)].flatten
    (fun e => decide (.enqItem 1 0 0 5 ∈ e.log ∧ .deqLeft 2 0 1 ∈ e.log)) (by decide +kernel)
  have both := of_decide_eq_true found
  have matched := tickets_matched run .refl
  exact ⟨e, run, both, matched.1 2 0 1 both.2, matched.2 1 0 0 5 both.1⟩

end Elcrq.C
