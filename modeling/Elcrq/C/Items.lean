import Elcrq.C.Invariant

/-! # Where the items of `ELCRQ.h` are

In every reachable state an item is returned by the one `deq` that drew its
ticket, or it is still in its cell, in a ring that `q->head` leads to. -/

set_option autoImplicit false

namespace Elcrq.C

open Concurrent Concurrent.TicketRing Concurrent.RingList

section Items

variable {T : Type}

/-- `r` is reached from `q->head` through `next`. -/
def State.Reaches (s : State T) (r : ℕ) : Prop :=
  Relation.ReflTransGen (fun a b => (s.ring a).next = some b) s.head r

/-- The item under ticket `t` of ring `r` was returned by one `deq`, which drew `t`. -/
def Exec.Returned (e : Exec T) (r t : ℕ) (x : Word) : Prop :=
  ∃ d, .deqRet d r t x ∈ e.log ∧ .deqDraw d r t ∈ e.log ∧
    ∀ d' y, .deqRet d' r t y ∈ e.log → d' = d ∧ y = x

/-- A `deq` call in its inner loop holds head ticket `t` of ring `r`. -/
def Exec.Held (e : Exec T) (r t : ℕ) : Prop := ∃ p, (e.st.pc p).holds = some (r, t)

structure Exec.Stored (pow : ℕ) (e : Exec T) (r t : ℕ) (x : Word) : Prop where
  unreturned : ∀ d y, .deqRet d r t y ∉ e.log
  val : ((e.st.ring r).array (t % 2 ^ pow)).val = x
  index : (nodeIndex ((e.st.ring r).array (t % 2 ^ pow)).idx).toNat = t
  reaches : e.st.Reaches r
  ticket : (e.st.ring r).head.toNat ≤ t ∨ e.Held r t

variable {pow : ℕ} {e : Exec T}

theorem Pc.deqTicket_view (pc : Pc) {r h : ℕ} :
    (pc.place.viewAt r).deqTicket = some h ↔ pc.holds = some (r, h) := by
  rw [Place.deqTicket_viewAt]
  cases pc <;> simp [Pc.place, Pc.view, Pc.holds, Pc.rq, View.deqTicket]

theorem Exec.held_iff {r h : ℕ} : (∃ p, (e.abs pow).Held p r h) ↔ e.Held r h :=
  exists_congr fun p => (e.st.pc p).deqTicket_view

theorem Inv.returned (inv : Inv pow e) {d r h : ℕ} {x : Word}
    (taken : .deqItem d r h x ∈ e.log) : .deqRet d r h x ∈ e.log := by
  rcases inv.queue.calls.take_pending d r h x taken with ret | ⟨p, done⟩
  · exact ret
  · have phase : (e.st.pc p).phase = .deqDone d r h x := done
    cases pc : e.st.pc p <;> rw [pc] at phase <;> cases phase

theorem Inv.returned_once (inv : Inv pow e) {d r h : ℕ} {x : Word}
    (taken : .deqItem d r h x ∈ e.log) : e.Returned r h x := by
  exact ⟨d, inv.returned taken, inv.queue.take_draw d r h x taken, fun d' y =>
    inv.queue.return_unique taken⟩

theorem Inv.item_cases (inv : Inv pow e) {c r t : ℕ} {x : Word}
    (item : .enqItem c r t x ∈ e.log) : e.Returned r t x ∨ e.Stored pow r t x := by
  have member : r ∈ rings e.log := inv.queue.about _ item r rfl
  rcases inv.queue.item_cases item with ⟨d, taken⟩ | ⟨untaken, index, content, ticket⟩
  · exact Or.inl (inv.returned_once taken)
  · have ring : (e.abs pow).ring r = (e.st.ring r).abs pow itemOf := queueOf_ring member
    have cell : ((e.st.ring r).abs pow itemOf).cell (t % 2 ^ pow) =
        ((e.st.ring r).array (t % 2 ^ pow)).abs itemOf :=
      if_pos (Nat.mod_lt _ (Nat.two_pow_pos pow))
    rw [ring, cell] at index content
    rw [ring] at ticket
    refine Or.inr ⟨fun d y ret => ?_, (itemOf_eq_some content).1, index, ?_,
      ticket.imp_right Exec.held_iff.mp⟩
    · exact untaken d y (inv.queue.calls.take_returned d r t y ret)
    · rw [State.Reaches, inv.layout.entry.1]
      refine inv.layout.linked.reach (fun _ _ _ link => link) ?_
      rcases older_total member (List.mem_of_getLast? inv.layout.oldest) with same | before | after
      · exact Or.inl same
      · exact absurd before (Older.not_oldest inv.queue.distinct inv.layout.oldest)
      · exact Or.inr after

theorem Inv.draw_lt (inv : Inv pow e) {c r t : ℕ} (draw : .enqDraw c r t ∈ e.log) :
    t < (tailIndex (e.st.ring r).tail).toNat := by
  have member : r ∈ rings e.log := inv.queue.about _ draw r rfl
  have below := (inv.queue.ring r member).ring.drawn_lt t ⟨c, draw⟩
  have ring : (e.abs pow).ring r = (e.st.ring r).abs pow itemOf := queueOf_ring member
  rwa [Queue.at, ring] at below

theorem Inv.arg_item (inv : Inv pow e) {c r t : ℕ} {x : Word}
    (item : .enqItem c r t x ∈ e.log) : .enqCall c x ∈ e.log := inv.queue.calls.item_call c r t x item

/-- Nothing is lost, duplicated or made up: an `enq` that has returned stands for
one item, which no other call stored; the item is returned once, by the `deq` that
drew its ticket, or still stored; and what a `deq` returns is an item. -/
structure Exec.Accounted (pow : ℕ) (e : Exec T) : Prop where
  enq : ∀ c, .enqRet c ∈ e.log → ∃ r t x, .enqCall c x ∈ e.log ∧ .enqItem c r t x ∈ e.log ∧
    (∀ r' t' x', .enqItem c r' t' x' ∈ e.log → r' = r ∧ t' = t ∧ x' = x) ∧
    (∀ c' x', .enqItem c' r t x' ∈ e.log → c' = c) ∧ (e.Returned r t x ∨ e.Stored pow r t x)
  deq : ∀ d r h x, .deqRet d r h x ∈ e.log →
    (∃ c, .enqCall c x ∈ e.log ∧ .enqItem c r h x ∈ e.log) ∧
    ∀ r' h' x', .deqRet d r' h' x' ∈ e.log → r' = r ∧ h' = h ∧ x' = x

variable [DecidableEq T]

theorem items_accounted (run : Reachable (system pow) e) : e.Accounted pow := by
  have inv := reachable_inv run
  constructor
  · intro c ret
    obtain ⟨r, t, x, stored⟩ := inv.queue.calls.ret_item c ret
    have item : .enqItem c r t x ∈ e.log := stored.mem_old
    refine ⟨r, t, x, inv.arg_item item, item, fun r' t' x' item' => ?_, fun c' x' item' => ?_,
      inv.item_cases item⟩
    · exact inv.queue.calls.item_unique c r t x r' t' x' item item'
    · exact inv.queue.item_ticket_unique item' item
  · intro d r h x ret
    have taken := inv.queue.calls.take_returned d r h x ret
    obtain ⟨c, item⟩ := inv.queue.take_stored d r h x taken
    refine ⟨⟨c, inv.arg_item item, item⟩, fun r' h' x' ret' => ?_⟩
    exact inv.queue.calls.take_unique d r h x r' h' x' taken
      (inv.queue.calls.take_returned d r' h' x' ret')

/-- Two items are enqueued and the first one is dequeued. -/
theorem items_accounted_after_deq : ∃ e : Exec Bool, Reachable (system 1) e ∧
    (.enqRet 0 ∈ e.log ∧ .enqRet 1 ∈ e.log ∧ .deqRet 2 0 0 5 ∈ e.log) ∧ e.Accounted 1 := by
  obtain ⟨e, run, found⟩ := schedule_reaches (show 1 < 63 by decide)
    [[(true, .enq 5)], List.replicate 5 (true, .run), [(true, .enq 6)],
      List.replicate 5 (true, .run), [(false, .deq)], List.replicate 4 (false, .run)].flatten
    (fun e => decide (.enqRet 0 ∈ e.log ∧ .enqRet 1 ∈ e.log ∧ .deqRet 2 0 0 5 ∈ e.log))
    (by decide +kernel)
  exact ⟨e, run, of_decide_eq_true found, items_accounted run⟩

end Items

end Elcrq.C
