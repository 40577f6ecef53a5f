import Elcrq.Cpp.Walk

/-! # Where the items of `LCRQueue.hpp` are

An item is returned by the one `dequeue` that drew its ticket, or it is still in its
cell.  A `dequeue` that has taken its item out of the cell clears its hazard slot
before it returns; in between the item is in neither place. -/

set_option autoImplicit false

namespace Elcrq.Cpp

open Concurrent Concurrent.TicketRing Concurrent.RingList Concurrent.Hazard

section Items

variable {n : ℕ} {A V : Type}

/-- The node and head ticket of a `dequeue` in its inner loop. -/
def Pc.holds (nodeAt : A → ℕ) : Pc A V → Option (ℕ × ℕ)
  | .deqIdx _ l h _ _ | .deqVal _ l h _ _ _ | .deqTail _ l h _ _ | .deqTake _ l h _ _ _ _
  | .deqMark _ l h _ _ _ _ | .deqSkipUnsafe _ l h _ _ _ | .deqSkip _ l h _ _ _ =>
      some (nodeAt l, h.toNat)
  | _ => none

/-- Node `r` is reached from `head` through `next`. -/
def State.Reaches (s : State n A V) (r : ℕ) : Prop :=
  Relation.ReflTransGen (fun i j => ∃ m, (s.node i).next = some m ∧ s.nodeAt m = j)
    (s.nodeAt s.head) r

/-- A `dequeue` call in its inner loop holds head ticket `t` of node `r`. -/
def Exec.Held (e : Exec n A V) (r t : ℕ) : Prop :=
  ∃ p, (e.st.pc p).holds e.st.nodeAt = some (r, t)

/-- The item under ticket `t` of node `r` was returned by one `dequeue`, which drew `t`. -/
def Exec.Returned (e : Exec n A V) (r t : ℕ) (x : V) : Prop :=
  ∃ d, .deqRet d r t x ∈ e.log ∧ .deqDraw d r t ∈ e.log ∧
    ∀ d' y, .deqRet d' r t y ∈ e.log → d' = d ∧ y = x

structure Exec.Stored (pow : ℕ) (e : Exec n A V) (r t : ℕ) (x : V) : Prop where
  unreturned : ∀ d y, .deqRet d r t y ∉ e.log
  val : ((e.st.node r).array (t % 2 ^ pow)).val = some x
  index : (nodeIndex ((e.st.node r).array (t % 2 ^ pow)).idx).toNat = t
  ticket : (e.st.Reaches r ∧ (e.st.node r).head.toNat ≤ t) ∨ e.Held r t

/-- The `dequeue` that drew `t` has taken the item and is at `hp->clear`, after which it
returns the item. -/
structure Exec.Leaving (e : Exec n A V) (r t : ℕ) (x : V) : Prop where
  unreturned : ∀ d y, .deqRet d r t y ∉ e.log
  taken : ∃ p d, e.st.pc p = .deqClear d (some ⟨r, t, x⟩) ∧ .deqDraw d r t ∈ e.log

variable {pow : ℕ} {e e' : Exec n A V} {p : Fin n}

theorem Pc.deqTicket_view (pc : Pc A V) {nodeAt : A → ℕ} {r h : ℕ} :
    ((pc.place nodeAt).viewAt r).deqTicket = some h ↔ pc.holds nodeAt = some (r, h) := by
  rw [Place.deqTicket_viewAt]
  cases pc <;> simp [Pc.place, Pc.view, Pc.holds, Pc.ring, Pc.guarded, View.deqTicket]

theorem Exec.held_iff {r h : ℕ} : (∃ p, (e.abs pow).Held p r h) ↔ e.Held r h :=
  exists_congr fun p => (e.st.pc p).deqTicket_view

theorem Pc.eq_deqClear {pc : Pc A V} {d r h : ℕ} {x : V} (done : pc.phase = .deqDone d r h x) :
    pc = .deqClear d (some ⟨r, h, x⟩) := by
  cases pc with
  | deqClear c taken =>
      cases taken with
      | none => cases done
      | some y =>
          cases done
          rfl
  | _ => cases done

theorem Inv.taken_cases (inv : Inv pow e) {d r h : ℕ} {x : V}
    (taken : .deqItem d r h x ∈ e.log) : e.Returned r h x ∨ e.Leaving r h x := by
  have drew := inv.queue.take_draw d r h x taken
  rcases inv.queue.calls.take_pending d r h x taken with ret | ⟨p, done⟩
  · exact Or.inl ⟨d, ret, drew, fun d' y => inv.queue.return_unique taken⟩
  · refine Or.inr ⟨fun d' y ret => ?_, p, d, Pc.eq_deqClear done, drew⟩
    have ok := inv.queue.calls.phase_ok p
    rw [done] at ok
    obtain ⟨rfl, _⟩ := inv.queue.return_unique taken ret
    exact ok.2 r h y ret

theorem Inv.reaches {r : ℕ} (inv : Inv pow e) (member : r ∈ rings e.log)
    (current : ¬ Older (rings e.log) r (e.st.nodeAt e.st.head)) : e.st.Reaches r := by
  refine inv.heap.linked.reach (fun i j from' link => ?_) ?_
  · have older := (inv.heap.next_older link).1
    have alive : e.heap.Alive j := by
      refine inv.heap.alive_of_not_older older.mem_new fun left => ?_
      rcases from' with rfl | newer
      · exact inv.heap.not_older_self _ (older.trans inv.heap.distinct left.1)
      · exact inv.heap.not_older_self _
          ((newer.trans inv.heap.distinct older).trans inv.heap.distinct left.1)
    refine ⟨e.st.addr j, ?_, (inv.occupied j alive).1⟩
    rw [inv.next i older.mem_old, show successor e.log i = some j from link]
    rfl
  · rcases older_total member inv.heap.head_mem with same | before | after
    · exact Or.inl same
    · exact absurd before current
    · exact Or.inr after

theorem Inv.item_cases (inv : Inv pow e) (ordered : Ordered pow e) {c r t : ℕ} {x : V}
    (item : .enqItem c r t x ∈ e.log) :
    e.Returned r t x ∨ e.Stored pow r t x ∨ e.Leaving r t x := by
  have member : r ∈ rings e.log := inv.queue.about _ item r rfl
  rcases inv.queue.item_cases item with ⟨d, taken⟩ | ⟨untaken, index, content, ticket⟩
  · exact (inv.taken_cases taken).imp_right Or.inr
  · have ring : (e.abs pow).ring r = (e.st.node r).abs pow itemOf := queueOf_ring member
    have cell : ((e.st.node r).abs pow itemOf).cell (t % 2 ^ pow) =
        ((e.st.node r).array (t % 2 ^ pow)).abs itemOf :=
      if_pos (Nat.mod_lt _ (Nat.two_pow_pos pow))
    rw [ring, cell] at index content
    refine Or.inr (Or.inl ⟨fun d y ret => ?_, content, index, ?_⟩)
    · exact untaken d y (inv.queue.calls.take_returned d r t y ret)
    · refine ticket.imp (fun undrawn => ?_) Exec.held_iff.mp
      refine ⟨inv.reaches member fun before => ?_, by rwa [ring] at undrawn⟩
      -- a node behind `head` is drained, so its tickets are drawn
      have drawn := ordered.head r before t ⟨c, inv.queue.item_draw c r t x item⟩
      exact absurd drawn (not_lt.mpr undrawn)

theorem Inv.held_of_drained {r i : ℕ} {x : V} (inv : Inv pow e) (member : r ∈ rings e.log)
    (drained : (e.abs pow).Drained r) (lt : i < 2 ^ pow)
    (content : ((e.st.node r).array i).val = some x) :
    e.Held r (nodeIndex ((e.st.node r).array i).idx).toNat := by
  have ring : (e.abs pow).ring r = (e.st.node r).abs pow itemOf := queueOf_ring member
  have cell : ((e.abs pow).ring r).cell i = ((e.st.node r).array i).abs itemOf := by
    rw [ring]
    exact if_pos lt
  obtain ⟨⟨c, item⟩, untaken⟩ := (inv.queue.ring r member).ring.occupied i lt x
    (by rw [Queue.at, cell]; exact content)
  rw [Queue.at, cell] at item untaken
  rcases inv.queue.item_of_drained item drained with ⟨d, taken⟩ | held
  · exact absurd ⟨d, x, taken⟩ untaken
  · exact Exec.held_iff.mp held

variable [DecidableEq A] [DecidableEq V]

/-- Nothing is lost, duplicated or made up.  `place r t x` says where the item `x`
under ticket `t` of node `r` is: an `enqueue` that has returned stands for one item,
which no other call stored and which has its place; what a `dequeue` returns is an
item; and when `head` moves on, what is still in the old node is held. -/
structure Exec.Accounted (pow : ℕ) (e : Exec n A V) (place : ℕ → ℕ → V → Prop) : Prop where
  enq : ∀ c, .enqRet c ∈ e.log → ∃ r t x, .enqCall c x ∈ e.log ∧ .enqItem c r t x ∈ e.log ∧
    (∀ r' t' x', .enqItem c r' t' x' ∈ e.log → r' = r ∧ t' = t ∧ x' = x) ∧
    (∀ c' x', .enqItem c' r t x' ∈ e.log → c' = c) ∧ place r t x
  deq : ∀ d r h x, .deqRet d r h x ∈ e.log →
    (∃ c, .enqCall c x ∈ e.log ∧ .enqItem c r h x ∈ e.log) ∧
    ∀ r' h' x', .deqRet d r' h' x' ∈ e.log → r' = r ∧ h' = h ∧ x' = x
  head : ∀ e', (system pow).step e e' → e'.st.head ≠ e.st.head → ∀ i < 2 ^ pow, ∀ x,
    ((e.st.node (e.st.nodeAt e.st.head)).array i).val = some x →
    e.Held (e.st.nodeAt e.st.head)
      (nodeIndex ((e.st.node (e.st.nodeAt e.st.head)).array i).idx).toNat

theorem Stepped.swing_of_head (stepped : Stepped pow e e' p) (moved : e'.st.head ≠ e.st.head) :
    ∃ c m, e.st.pc p = .deqSwing c e.st.head m := by
  cases stepped with
  | quiet _ _ same _ _ _ => exact absurd same moved
  | swing c l m here isHead _ _ _ _ => exact ⟨c, m, isHead ▸ here⟩
  | validate c here after => exact absurd (by rw [after]; rfl) moved
  | empty c here after => exact absurd (by rw [after]; rfl) moved
  | access a q pc events guarded access after => exact absurd (by rw [after]; rfl) moved
  | fill m q pc own after next notDeq => exact absurd (by rw [after]; rfl) moved
  | link f l m here last after => exact absurd (by rw [after]; rfl) moved
  | construct f l a here unused after => exact absurd (by rw [after]; rfl) moved

theorem enqueued_accounted (run : Reachable (system pow) e) : e.Accounted pow fun r t x =>
    e.Returned r t x ∨ e.Stored pow r t x ∨ e.Leaving r t x := by
  have inv := reachable_inv run
  have ordered := reachable_ordered run
  refine ⟨fun c ret => ?_, fun d r h x ret => ?_, fun e' step moved i lt x content => ?_⟩
  · obtain ⟨r, t, x, stored⟩ := inv.queue.calls.ret_item c ret
    have item : .enqItem c r t x ∈ e.log := stored.mem_old
    refine ⟨r, t, x, inv.queue.calls.item_call c r t x item, item, fun r' t' x' item' => ?_,
      fun c' x' item' => ?_, inv.item_cases ordered item⟩
    · exact inv.queue.calls.item_unique c r t x r' t' x' item item'
    · exact inv.queue.item_ticket_unique item' item
  · have taken := inv.queue.calls.take_returned d r h x ret
    obtain ⟨c, item⟩ := inv.queue.take_stored d r h x taken
    refine ⟨⟨c, inv.queue.calls.item_call c r h x item, item⟩, fun r' h' x' ret' => ?_⟩
    exact inv.queue.calls.take_unique d r h x r' h' x' taken
      (inv.queue.calls.take_returned d r' h' x' ret')
  · obtain ⟨p, act, next⟩ := step
    obtain ⟨c, m, here⟩ := (next_stepped next).swing_of_head moved
    exact inv.held_of_drained inv.heap.head_mem (ordered.swing p c _ m here) lt content

end Items

/-- Two items in two nodes, both dequeued; the first node is left behind. -/
theorem enqueued_accounted_next_node : ∃ e : Exec 2 ℕ ℕ, Reachable (system 0) e ∧
    (.enqRet 0 ∈ e.log ∧ .enqRet 1 ∈ e.log ∧ .deqRet 3 1 0 6 ∈ e.log ∧ .retire 0 ∈ e.mem) ∧
      e.Accounted 0 fun r t x => e.Returned r t x ∨ e.Stored 0 r t x ∨ e.Leaving r t x := by
  obtain ⟨e, run, found⟩ := schedule_reaches (show 0 < 63 by decide) 0
    ([burst 1 (.enqueue 5) 9, burst 1 (.enqueue 6) 14, burst 1 (.construct 1) 6,
      burst 0 .dequeue 8, burst 0 .dequeue 33] : List (List (Fin 2 × Act ℕ ℕ))).flatten
    (fun e => decide (.enqRet 0 ∈ e.log ∧ .enqRet 1 ∈ e.log ∧ .deqRet 3 1 0 6 ∈ e.log ∧
      .retire 0 ∈ e.mem)) (by decide +kernel)
  exact ⟨e, run, of_decide_eq_true found, enqueued_accounted run⟩

/-- Between the `CAS2` that takes an item and the return, the item is not in its cell
and not returned. -/
theorem item_leaving : ¬ ∀ e : Exec 2 ℕ ℕ, Reachable (system 1) e →
    e.Accounted 1 fun r t x => e.Returned r t x ∨ e.Stored 1 r t x := by
  intro accounted
  obtain ⟨e, run, found⟩ := schedule_reaches (show 1 < 63 by decide) 0
    ([burst 1 (.enqueue 5) 9, burst 0 .dequeue 7] : List (List (Fin 2 × Act ℕ ℕ))).flatten
    (fun e => decide (e.log = [.deqItem 1 0 0 5, .deqDraw 1 0 0, .deqCall 1, .enqRet 0,
      .enqItem 0 0 0 5, .enqDraw 0 0 0, .enqCall 0 5] ∧
      ((e.st.node 0).array 0).val = none)) (by decide +kernel)
  obtain ⟨log, taken⟩ := of_decide_eq_true found
  obtain ⟨r, t, x, _, _, only, _, place⟩ := (accounted e run).enq 0 (by rw [log]; decide)
  obtain ⟨rfl, rfl, rfl⟩ := only 0 0 5 (by rw [log]; decide)
  rcases place with ⟨d, ret, _⟩ | stored
  · rw [log] at ret
    simp at ret
  · have val := stored.val
    rw [Nat.zero_mod, taken] at val
    cases val

end Elcrq.Cpp
