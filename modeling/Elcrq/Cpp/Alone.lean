import Elcrq.Cpp.OneNode
import Elcrq.Cpp.Preservation

/-! # Calls of `LCRQueue.hpp` that run alone

With no steps of other threads in between, what a call has read is still there when
it writes.  An `enqueue` helps a lagging tail on once; each further round draws a
ticket that is nearer to `RING_SIZE` ahead of the head, where the ring is closed and
a new node linked.  A `dequeue` draws tickets up to the tail, leaves a drained node
behind and scans its retired nodes; then there is one node less in front of it. -/

set_option autoImplicit false

namespace Elcrq.Cpp

open Concurrent Concurrent.TicketRing Concurrent.RingList Concurrent.Hazard

/-! ## On one node -/

section Node

variable {A V : Type} [DecidableEq V] {pow i : ℕ} {q q' : RingQueue A (Option V)} {c : ℕ} {l : A}
  {h tt cellIdx : Word} {r : ℕ} {goal : RingQueue A (Option V) × Pc A V → Prop}

/-! ### `dequeue` -/

/-- What a dequeuer that leaves a cell has kept of the node. -/
structure Kept (q q' : RingQueue A (Option V)) : Prop where
  head : q'.head = q.head
  tail : tailIndex q'.tail = tailIndex q.tail

omit [DecidableEq V] in
theorem tailIndex_setUnsafe (t : Word) : tailIndex (setUnsafe t) = tailIndex t := by
  apply BitVec.eq_of_toNat_eq
  rw [tailIndex_toNat, tailIndex_toNat, setUnsafe_toNat]
  omega

def AfterCell (q : RingQueue A (Option V)) (c : ℕ) (l : A) (h : Word)
    (y : RingQueue A (Option V) × Pc A V) : Prop :=
  (∃ x, y.2 = .deqClear c (some x)) ∨ (y.2 = .deqExit c l h ∧ Kept q y.1)

theorem deq_atEmptyCell (here : q.array (cellOf pow h) = ⟨none, cellIdx⟩)
    (again : r ≤ 200000 →
      Inevitably (Follows (nodeNext pow i)) (AfterCell q c l h) (q, .deqIdx c l h tt (r + 1))) :
    Inevitably (Follows (nodeNext pow i)) (AfterCell q c l h)
      (q, atEmptyCell c l h tt r cellIdx) := by
  unfold atEmptyCell
  split
  next flagged =>
    refine .next (q.setNode (cellOf pow h) ⟨none, nodeUnsafe cellIdx ||| (h + ringSize pow)⟩,
      .deqExit c l h) ?_ (.now (Or.inr ⟨rfl, rfl, rfl⟩))
    simp only [nodeNext, onNode, RingQueue.cas2_succeeds here, Option.map_some]
  next safe =>
    split
    next skip =>
      have word : nodeIndex cellIdx = cellIdx := by
        rw [not_not, ← not_ne_iff, nodeUnsafe_ne_zero, not_le] at safe
        apply BitVec.eq_of_toNat_eq
        rw [nodeIndex_toNat, Nat.mod_eq_of_lt safe]
      rw [word]
      let q1 := q.setNode (cellOf pow h) ⟨none, h + ringSize pow⟩
      by_cases starving : r > 200000 ∧ tt > ringSize pow
      · refine .next (q1, .deqClose c l h) ?_ (.next ({ q1 with tail := setUnsafe q.tail },
          .deqExit c l h) rfl (.now (Or.inr ⟨rfl, rfl, tailIndex_setUnsafe _⟩)))
        simp only [nodeNext, onNode, RingQueue.cas2_succeeds here, if_pos starving, Option.map_some]
        rfl
      · refine .next (q1, .deqExit c l h) ?_ (.now (Or.inr ⟨rfl, rfl, rfl⟩))
        simp only [nodeNext, onNode, RingQueue.cas2_succeeds here, if_neg starving, Option.map_some]
        rfl
    next spin =>
      refine again ?_
      rw [not_or, not_or, not_lt] at spin
      exact spin.2.1

theorem deq_cell (q : RingQueue A (Option V)) (c : ℕ) (l : A) (h tt : Word) (r : ℕ) :
    Inevitably (Follows (nodeNext pow i)) (AfterCell q c l h) (q, .deqIdx c l h tt r) := by
  generalize left_ : 200001 - r = left
  induction left using Nat.strongRecOn generalizing r tt with
  | _ left ih =>
      generalize cell : q.array (cellOf pow h) = node
      obtain ⟨val, cellIdx⟩ := node
      have read : nodeNext pow i (q, .deqIdx c l h tt r) =
          some (q, .deqVal c l h tt r cellIdx) := by
        simp only [nodeNext, onNode, cell, Option.map_some]
      refine .next _ read ?_
      by_cases ahead : nodeIndex cellIdx > h
      · refine .next (q, .deqExit c l h) ?_ (.now (Or.inr ⟨rfl, rfl, rfl⟩))
        simp only [nodeNext, onNode, if_pos ahead, Option.map_some]
      · cases val with
        | none =>
            have retry : ∀ tt', r ≤ 200000 → Inevitably (Follows (nodeNext pow i))
                (AfterCell q c l h) (q, .deqIdx c l h tt' (r + 1)) := fun tt' few =>
              ih (200001 - (r + 1)) (by omega) tt' (r + 1) rfl
            by_cases reload : r &&& ((1 <<< 10) - 1) = 0
            · refine .next (q, .deqTail c l h r cellIdx) ?_ (.next
                (q, atEmptyCell c l h q.tail r cellIdx) rfl (deq_atEmptyCell cell (retry q.tail)))
              simp only [nodeNext, onNode, cell, if_neg ahead, if_pos reload, Option.map_some]
            · refine .next (q, atEmptyCell c l h tt r cellIdx) ?_ (deq_atEmptyCell cell (retry tt))
              simp only [nodeNext, onNode, cell, if_neg ahead, if_neg reload, Option.map_some]
        | some val =>
            by_cases mine : nodeIndex cellIdx = h
            · refine .next (q, .deqTake c l h tt r cellIdx val) ?_ (.next
                (q.setNode (cellOf pow h) ⟨none, nodeUnsafe cellIdx ||| (h + ringSize pow)⟩,
                  .deqClear c (some ⟨i, h.toNat, val⟩)) ?_ (.now (Or.inl ⟨_, rfl⟩)))
              · simp only [nodeNext, onNode, cell, if_neg ahead, if_pos mine, Option.map_some]
              · simp only [nodeNext, onNode, RingQueue.cas2_succeeds cell, Option.map_some]
            · refine .next (q, .deqMark c l h tt r cellIdx val) ?_ (.next
                (q.setNode (cellOf pow h) ⟨some val, setUnsafe (nodeIndex cellIdx)⟩,
                  .deqExit c l h) ?_ (.now (Or.inr ⟨rfl, rfl, rfl⟩)))
              · simp only [nodeNext, onNode, cell, if_neg ahead, if_neg mine, Option.map_some]
              · simp only [nodeNext, onNode, RingQueue.cas2_succeeds cell, Option.map_some]

def gap (q : RingQueue A (Option V)) : ℕ := (tailIndex q.tail).toNat - q.head.toNat

/-- What one ticket of a `dequeue` on the node `q` comes to. -/
inductive AfterDeqTicket (q : RingQueue A (Option V)) (c : ℕ) (l : A) :
    RingQueue A (Option V) × Pc A V → Prop
  | returns (q' : RingQueue A (Option V)) (x : Option (Taken V)) :
      AfterDeqTicket q c l (q', .deqClear c x)
  | swing (q' : RingQueue A (Option V)) (m : A) : AfterDeqTicket q c l (q', .deqSwing c l m)
  | again (q' : RingQueue A (Option V)) : gap q' < gap q → AfterDeqTicket q c l (q', .deqHead c)

theorem deq_next (passed : tailIndex q'.tail ≤ h + 1) :
    Inevitably (Follows (nodeNext pow i)) (AfterDeqTicket q c l) (q', .deqNext c l h) := by
  cases link : q'.next with
  | none =>
      refine .next (q', .deqClear c none) ?_ (.now (.returns q' none))
      simp only [nodeNext, onNode, link, Option.map_some]
  | some m =>
      refine .next (q', .deqTest c l h m) ?_ (.next (q', .deqSwing c l m) ?_ (.now (.swing q' m)))
      · simp only [nodeNext, onNode, link, Option.map_some]
      · simp only [nodeNext, onNode, if_pos passed, Option.map_some]

theorem deq_ticket (q : RingQueue A (Option V)) (c : ℕ) (l : A) (room : q.head.toNat + 1 < 2 ^ 63) :
    Inevitably (Follows (nodeNext pow i)) (AfterDeqTicket q c l) (q, .deqFaa c l) := by
  let q0 : RingQueue A (Option V) := { q with head := q.head + 1 }
  have above : (q.head + 1).toNat = q.head.toNat + 1 := add_one_toNat _ (by omega)
  refine .next (q0, .deqIdx c l q.head 0 0) rfl ((deq_cell q0 c l q.head 0 0).bind ?_)
  rintro ⟨q1, pc⟩ (⟨x, isClear⟩ | ⟨isExit, kept⟩)
  · cases isClear
    exact .now (.returns q1 _)
  · cases isExit
    have head1 : q1.head = q.head + 1 := kept.head
    by_cases passed : tailIndex q1.tail ≤ q.head + 1
    · refine .next (q1, .fixTail c l q.head) ?_ (.next (q1, .fixHead c l q.head q1.tail) rfl
        (.next (q1, .fixCheck c l q.head q1.tail q1.head) rfl ?_))
      · simp only [nodeNext, onNode, if_pos passed, Option.map_some]
      · by_cases behind : q1.head > q1.tail
        · refine .next (q1, .fixCas c l q.head q1.tail q1.head) ?_ (.next
            ({ q1 with tail := q1.head }, .deqNext c l q.head) ?_ (deq_next ?_))
          · simp only [nodeNext, onNode, ne_eq, not_true_eq_false, if_false, if_pos behind,
              Option.map_some]
          · simp only [nodeNext, onNode, RingQueue.casTail, if_true, Option.map_some]
          · show (tailIndex q1.head).toNat ≤ (q.head + 1).toNat
            rw [tailIndex_toNat, head1, above]
            omega
        · refine .next (q1, .deqNext c l q.head) ?_ (deq_next passed)
          simp only [nodeNext, onNode, ne_eq, not_true_eq_false, if_false, if_neg behind,
            Option.map_some]
    · refine .next (q1, .deqHead c) ?_ (.now (.again q1 ?_))
      · simp only [nodeNext, onNode, if_neg passed, Option.map_some]
      · have less : (q.head + 1).toNat < (tailIndex q1.tail).toNat := BitVec.not_le.mp passed
        have tail1 : tailIndex q1.tail = tailIndex q.tail := kept.tail
        rw [above, tail1] at less
        simp only [gap, head1, above, tail1]
        omega

/-! ### `enqueue` -/

variable {f : EnqFrame V}

/-- How far the tail is from `RING_SIZE` ahead of the head. -/
def fillRank (pow : ℕ) (q : RingQueue A (Option V)) : ℕ :=
  if crqIsClosed q.tail then 0 else 1 + (q.head.toNat + 2 ^ pow - q.tail.toNat)

/-- What one ticket of an `enqueue` on the node `q` comes to. -/
inductive AfterEnqTicket (pow : ℕ) (q : RingQueue A (Option V)) (f : EnqFrame V) (l : A) :
    RingQueue A (Option V) × Pc A V → Prop
  | stored (q' : RingQueue A (Option V)) : AfterEnqTicket pow q f l (q', .enqClear f)
  | closed (q' : RingQueue A (Option V)) : q'.next = q.next →
      AfterEnqTicket pow q f l (q', .enqConstruct f l)
  | again (q' : RingQueue A (Option V)) (tries : ℕ) : q'.next = q.next →
      fillRank pow q' < fillRank pow q →
      AfterEnqTicket pow q f l (q', .enqTail { f with tryClose := tries })

section Ticket

variable (small : pow < 63) (roomHead : q.head.toNat < 2 ^ 63)
  (roomTail : (tailIndex q.tail).toNat + 1 < 2 ^ 63)
include small roomHead roomTail

theorem enq_full (isOpen : crqIsClosed q.tail = false) :
    Inevitably (Follows (nodeNext pow i)) (AfterEnqTicket pow q f l)
      ({ q with tail := q.tail + 1 }, .enqFull f l q.tail) := by
  let q1 : RingQueue A (Option V) := { q with tail := q.tail + 1 }
  have smallTail := (crqIsClosed_false_iff q.tail).mp isOpen
  rw [tailIndex_toNat, Nat.mod_eq_of_lt smallTail] at roomTail
  have above : (q.tail + 1).toNat = q.tail.toNat + 1 := add_one_toNat _ (by omega)
  by_cases full : (ringSize pow).sle (q.tail - q.head) = true
  · let f1 : EnqFrame V := { f with tryClose := f.tryClose + 1 }
    refine .next (q1, .enqClose f1 l q.tail) ?_ (.next ({ q with tail := setUnsafe (q.tail + 1) },
      .enqTail f1) ?_ (.now (.again _ _ rfl ?_)))
    · simp only [nodeNext, onNode, if_pos full, Option.map_some]
      rfl
    · have closes : (q1.closeCrq q.tail f1.tryClose).2 =
          { q with tail := setUnsafe (q.tail + 1) } := by
        unfold RingQueue.closeCrq
        split
        · rw [RingQueue.casTail, if_pos rfl]
          rfl
        · rfl
      simp only [nodeNext, onNode, closes, Option.map_some]
    · have closed : crqIsClosed (setUnsafe (q.tail + 1)) = true := by
        rw [crqIsClosed_iff, setUnsafe_toNat]
        omega
      simp only [fillRank, closed, isOpen, if_true, Bool.false_eq_true, if_false]
      omega
  · refine .next (q1, .enqTail f) ?_ (.now (.again q1 f.tryClose rfl ?_))
    · simp only [nodeNext, onNode, if_neg full, Option.map_some]
      rfl
    · rw [ringSize_sle_sub small smallTail roomHead] at full
      have stillOpen : crqIsClosed (q.tail + 1) = false := by
        rw [crqIsClosed_false_iff]
        omega
      simp only [fillRank, q1, isOpen, stillOpen, Bool.false_eq_true, if_false, above]
      omega

theorem enq_ticket (f : EnqFrame V) (l : A) :
    Inevitably (Follows (nodeNext pow i)) (AfterEnqTicket pow q f l) (q, .enqFaa f l) := by
  let q1 : RingQueue A (Option V) := { q with tail := q.tail + 1 }
  cases isOpen : crqIsClosed q.tail with
  | true =>
      refine .next (q1, .enqConstruct f l) ?_ (.now (.closed q1 rfl))
      simp only [nodeNext, onNode, isOpen, if_true, Option.map_some]
      rfl
  | false =>
      have full : Inevitably (Follows (nodeNext pow i)) (AfterEnqTicket pow q f l)
          (q1, .enqFull f l q.tail) := enq_full small roomHead roomTail isOpen
      generalize cell : q.array (cellOf pow q.tail) = node
      obtain ⟨val, idx⟩ := node
      have here : q1.array (cellOf pow q.tail) = ⟨val, idx⟩ := cell
      refine .next (q1, .enqIdx f l q.tail) ?_ (.next (q1, .enqVal f l q.tail idx) ?_ ?_)
      · simp only [nodeNext, onNode, isOpen, Bool.false_eq_true, if_false, Option.map_some]
        rfl
      · simp only [nodeNext, onNode, here, Option.map_some]
      · by_cases usable : val = none ∧ nodeIndex idx ≤ q.tail
        · obtain ⟨rfl, fits⟩ := usable
          have store : Inevitably (Follows (nodeNext pow i)) (AfterEnqTicket pow q f l)
              (q1, .enqCas2 f l q.tail idx) := by
            refine .next (q1.setNode (cellOf pow q.tail) ⟨some f.item, q.tail⟩, .enqClear f) ?_
              (.now (.stored _))
            simp only [nodeNext, onNode, RingQueue.cas2_succeeds here, Option.map_some]
          by_cases safe : nodeUnsafe idx = 0
          · refine .next (q1, .enqCas2 f l q.tail idx) ?_ store
            simp only [nodeNext, onNode, here, if_true, if_pos fits, if_pos safe, Option.map_some]
          · refine .next (q1, .enqHead f l q.tail idx) ?_ ?_
            · simp only [nodeNext, onNode, here, if_true, if_pos fits, if_neg safe, Option.map_some]
            · by_cases ahead : q1.head.slt q.tail = true
              · refine .next (q1, .enqCas2 f l q.tail idx) ?_ store
                simp only [nodeNext, onNode, if_pos ahead, Option.map_some]
              · refine .next (q1, .enqFull f l q.tail) ?_ full
                simp only [nodeNext, onNode, if_neg ahead, Option.map_some]
        · refine .next (q1, .enqFull f l q.tail) ?_ full
          simp only [nodeNext, onNode, here]
          split
          next empty =>
            rw [if_neg fun fits => usable ⟨empty, fits⟩]
            rfl
          next => rfl

end Ticket

end Node

/-! ## In memory -/

section Memory

variable {n : ℕ} {A V : Type} [DecidableEq A] [DecidableEq V] {pow : ℕ} {e e' : Exec n A V}
  {p : Fin n} {goal : Exec n A V → Prop}

/-- The steps of thread `p`; the address of a new node is any that is free. -/
def Exec.Solo (pow : ℕ) (p : Fin n) (e e' : Exec n A V) : Prop :=
  ∃ act, e.next pow p act = some e'

theorem Exec.Solo.reachable (run : Reachable (system pow) e) (solo : e.Solo pow p e') :
    Reachable (system pow) e' := by
  obtain ⟨act, next⟩ := solo
  exact run.step ⟨p, act, next⟩

theorem solo_iff {s : State n A V} {record : Record V} (below : TicketsBelow pow e.st)
    (taken : run pow e.st p = some (s, record)) :
    e.Solo pow p e' ↔ e' = ⟨s, record.events ++ e.log, record.mem ++ e.mem⟩ := by
  constructor
  · rintro ⟨act, next⟩
    simp only [Exec.next, if_pos below] at next
    cases act with
    | enqueue item | dequeue =>
        exfalso
        simp only [step] at next
        split at next
        next idle =>
          simp only [run, idle] at taken
          cases taken
        next => cases next
    | construct a =>
        exfalso
        simp only [step] at next
        split at next
        next f l here =>
          simp only [run, here, Pc.guarded, onNode, Option.map_none] at taken
          cases taken
        next => cases next
    | run =>
        simp only [step, taken, Option.map_some, Option.some.injEq] at next
        exact next.symm
  · rintro rfl
    refine ⟨.run, ?_⟩
    simp only [Exec.next, if_pos below, step, taken, Option.map_some]

theorem solo_run {s : State n A V} {record : Record V}
    (out : ∀ e', ¬ TicketsBelow pow e'.st → goal e') (taken : run pow e.st p = some (s, record))
    (after : Inevitably (Exec.Solo pow p) goal ⟨s, record.events ++ e.log, record.mem ++ e.mem⟩) :
    Inevitably (Exec.Solo pow p) goal e := by
  by_cases below : TicketsBelow pow e.st
  · exact .only ((solo_iff below taken).mpr rfl) (fun e' other => (solo_iff below taken).mp other)
      after
  · exact .now (out e below)

/-! ### Accesses to one node -/

section OnNode

variable {a : A} {x : RingQueue A (Option V) × Pc A V}

theorem Exec.OnNode.inevitably {ends : RingQueue A (Option V) × Pc A V → Prop}
    (run : Inevitably (Follows (nodeNext pow (e.st.nodeAt a))) ends x) (on : e.OnNode p a x e')
    (reached : Reachable (system pow) e') :
    Inevitably (Exec.Solo pow p)
      (fun e'' => ¬ TicketsBelow pow e''.st ∨ ∃ y, ends y ∧ e.OnNode p a y e'') e' := by
  refine (run.lift (fun x e'' => e.OnNode p a x e'' ∧ Reachable (system pow) e'')
    (fun e'' => ¬ TicketsBelow pow e''.st) ?_ ⟨on, reached⟩).mono ?_
  · rintro x e' ⟨related, reached⟩ ⟨y, next⟩
    by_cases below : TicketsBelow pow e'.st
    · obtain ⟨s, record, taken, after⟩ := related.next next
      refine Or.inr ⟨⟨_, (solo_iff below taken).mpr rfl⟩, fun e'' other => ⟨y, next, ?_⟩⟩
      have reached' := other.reachable reached
      rw [(solo_iff below taken).mp other] at reached' ⊢
      exact ⟨after, reached'⟩
    · exact Or.inl below
  · rintro e'' (out | ⟨y, ends, related, _⟩)
    · exact Or.inl out
    · exact Or.inr ⟨y, ends, related⟩

end OnNode

/-! ### The scan of `retire` -/

section Scan

variable {c : ℕ} {ptr : A} {iret : ℕ}

/-- The call goes on at `pc`; what it has retired and the history are as before. -/
structure Scans (e : Exec n A V) (p : Fin n) (pc : Pc A V) (e' : Exec n A V) : Prop where
  pc : e'.st.pc p = pc
  retiredList : e'.st.retiredList p = e.st.retiredList p
  head : e'.st.head = e.st.head
  nodeAt : e'.st.nodeAt = e.st.nodeAt
  log : e'.log = e.log

theorem scan_slots {obj : A} (found : (e.st.retiredList p)[iret]? = some obj) (left tid : ℕ)
    (total : tid + left = n) (some_ : 0 < left) (here : e.st.pc p = .scan c ptr iret tid) :
    Inevitably (Exec.Solo pow p) (fun e' => ¬ TicketsBelow pow e'.st ∨
      Scans e p (scanFrom c ptr (iret + 1) (e.st.retiredList p).length) e' ∨
      Scans e p (.destroy c ptr iret) e') e := by
  induction left generalizing e tid with
  | zero => cases some_
  | succ left ih =>
      have taken : run pow e.st p =
          some (e.st.goto p (scanSlot e.st p c ptr obj iret tid), ⟨[], []⟩) := by
        simp only [run, here, found]
      refine solo_run (fun _ => Or.inl) taken ?_
      unfold scanSlot
      split
      next hazard => exact .now (Or.inr (Or.inl ⟨State.goto_pc .., rfl, rfl, rfl, rfl⟩))
      next =>
        split
        next more =>
          refine (ih (e := ⟨e.st.goto p (.scan c ptr iret (tid + 1)), e.log, e.mem⟩) found (tid + 1)
            (by omega) (by omega) (State.goto_pc ..)).mono ?_
          rintro e' (out | done | done)
          · exact Or.inl out
          · exact Or.inr (Or.inl ⟨done.pc, done.retiredList, done.head, done.nodeAt, done.log⟩)
          · exact Or.inr (Or.inr ⟨done.pc, done.retiredList, done.head, done.nodeAt, done.log⟩)
        next => exact .now (Or.inr (Or.inr ⟨State.goto_pc .., rfl, rfl, rfl, rfl⟩))

/-- The scan is over and the call goes back to its loop. -/
structure Scanned (e : Exec n A V) (p : Fin n) (c : ℕ) (e' : Exec n A V) : Prop where
  pc : e'.st.pc p = .deqHead c
  head : e'.st.head = e.st.head
  nodeAt : e'.st.nodeAt = e.st.nodeAt
  log : e'.log = e.log

omit [DecidableEq A] [DecidableEq V] in
theorem Scanned.after {pc : Pc A V} {e'' : Exec n A V} (first : Scans e p pc e')
    (second : Scanned e' p c e'') : Scanned e p c e'' :=
  ⟨second.pc, second.head.trans first.head, second.nodeAt.trans first.nodeAt,
    second.log.trans first.log⟩

theorem scan_ends (here : e.st.pc p = scanFrom c ptr iret (e.st.retiredList p).length) :
    Inevitably (Exec.Solo pow p) (fun e' => ¬ TicketsBelow pow e'.st ∨ Scanned e p c e') e := by
  generalize left_ : (e.st.retiredList p).length - iret = left
  induction left using Nat.strongRecOn generalizing e iret with
  | _ left ih =>
      by_cases more : iret < (e.st.retiredList p).length
      · rw [scanFrom, if_pos more] at here
        have found := List.getElem?_eq_getElem more
        refine (scan_slots found n 0 (Nat.zero_add n) p.pos here).bind ?_
        rintro e1 (out | next | destroy)
        · exact .now (Or.inl out)
        · refine (ih ((e1.st.retiredList p).length - (iret + 1)) ?_
            (by rw [next.retiredList, next.pc]) rfl).mono fun e2 => Or.imp_right (Scanned.after next)
          rw [next.retiredList]
          omega
        · -- the node is destroyed and the list is one shorter
          have found1 : (e1.st.retiredList p)[iret]? =
              some ((e.st.retiredList p).get ⟨iret, more⟩) := by
            rw [destroy.retiredList]
            exact found
          have length : ((e1.st.retiredList p).eraseIdx iret).length =
              (e.st.retiredList p).length - 1 := by
            rw [destroy.retiredList, List.length_eraseIdx_of_lt more]
          let obj := (e.st.retiredList p).get ⟨iret, more⟩
          let s2 : State n A V := ({ e1.st with
            retiredList := Function.update e1.st.retiredList p
              ((e1.st.retiredList p).eraseIdx iret) }.destroyPtr obj).goto p
                (scanFrom c ptr iret ((e1.st.retiredList p).eraseIdx iret).length)
          have taken : run pow e1.st p = some (s2, ⟨[], [.destroy (e1.st.nodeAt obj)]⟩) := by
            simp only [run, destroy.pc, found1]
            rfl
          have retired2 : s2.retiredList p = (e1.st.retiredList p).eraseIdx iret :=
            Function.update_self ..
          have at2 : s2.pc p = scanFrom c ptr iret (s2.retiredList p).length := by
            rw [retired2]
            exact Function.update_self ..
          refine solo_run (fun _ => Or.inl) taken ((ih ((s2.retiredList p).length - iret) ?_ at2
            rfl).mono fun e3 => Or.imp_right fun done => ?_)
          · rw [retired2, length]
            omega
          · exact ⟨done.pc, done.head.trans destroy.head, done.nodeAt.trans destroy.nodeAt,
              done.log.trans destroy.log⟩
      · rw [scanFrom, if_neg more] at here
        exact .now (Or.inr ⟨here, rfl, rfl, rfl⟩)

end Scan

/-! ### What a call comes to -/

/-- The call of thread `p` has returned; or tickets have come to `2^63`, or no address is
free for the node that the call asks for. -/
def Exec.Settled (pow : ℕ) (p : Fin n) (e : Exec n A V) : Prop :=
  e.st.pc p = .idle ∨ ¬ TicketsBelow pow e.st ∨
    ((∃ f l, e.st.pc p = .enqConstruct f l) ∧ ∀ a, e.st.live a = true)

def Exec.Returns (pow : ℕ) (p : Fin n) (e : Exec n A V) : Prop :=
  Inevitably (Exec.Solo pow p) (Exec.Settled pow p) e

theorem Exec.Returns.after (reached : Reachable (system pow) e)
    (part : Inevitably (Exec.Solo pow p) (fun e' => ¬ TicketsBelow pow e'.st ∨ goal e') e)
    (rest : ∀ e', Reachable (system pow) e' → goal e' → e'.Returns pow p) : e.Returns pow p := by
  refine (part.keeping (fun _ _ => Exec.Solo.reachable) reached).bind ?_
  rintro e' ⟨out | there, reached'⟩
  · exact .now (Or.inr (Or.inl out))
  · exact rest e' reached' there

theorem Exec.Returns.run {s : State n A V} {record : Record V} (reached : Reachable (system pow) e)
    (taken : Cpp.run pow e.st p = some (s, record))
    (after : Reachable (system pow) ⟨s, record.events ++ e.log, record.mem ++ e.mem⟩ →
      Exec.Returns pow p ⟨s, record.events ++ e.log, record.mem ++ e.mem⟩) : e.Returns pow p := by
  by_cases below : TicketsBelow pow e.st
  · have step := (solo_iff (e := e) below taken).mpr rfl
    exact .only step (fun e' other => (solo_iff below taken).mp other)
      (after (step.reachable reached))
  · exact .now (Or.inr (Or.inl below))

theorem enqClear_returns {f : EnqFrame V} (here : e.st.pc p = .enqClear f) : e.Returns pow p := by
  have taken : run pow e.st p =
      some ((e.st.setHp p none).goto p .idle, ⟨[.enqRet f.call], []⟩) := by
    simp only [run, here]
  exact solo_run (fun _ out => Or.inr (Or.inl out)) taken (.now (Or.inl (State.goto_pc ..)))

theorem deqClear_returns {c : ℕ} {x : Option (Taken V)} (here : e.st.pc p = .deqClear c x) :
    e.Returns pow p := by
  have taken : ∃ record, run pow e.st p = some ((e.st.setHp p none).goto p .idle, record) := by
    cases x with
    | none => exact ⟨⟨[.deqEmpty c], []⟩, by simp only [run, here]⟩
    | some x => exact ⟨⟨[.deqRet c x.node x.ticket x.val], []⟩, by simp only [run, here]⟩
  obtain ⟨record, taken⟩ := taken
  exact solo_run (fun _ out => Or.inr (Or.inl out)) taken (.now (Or.inl (State.goto_pc ..)))

/-- Thread `p` has come to `pc` and published a pointer on its way. -/
structure Exec.Moved (e : Exec n A V) (p : Fin n) (pc : Pc A V) (e' : Exec n A V) : Prop where
  pc : e'.st.pc p = pc
  nodes : SameNodes e.st e'.st
  head : e'.st.head = e.st.head
  tail : e'.st.tail = e.st.tail
  log : e'.log = e.log

theorem protect_moves {l : A} {protect validate valid : Pc A V}
    (reads : run pow e.st p = some (e.st.goto p protect, ⟨[], []⟩))
    (publishes : ∀ s : State n A V, s.pc p = protect →
      run pow s p = some ((s.setHp p (some l)).goto p validate, ⟨[], []⟩))
    (validates : ∀ s : State n A V, s.pc p = validate → s.head = e.st.head → s.tail = e.st.tail →
      run pow s p = some (s.goto p valid, ⟨[], []⟩)) :
    Inevitably (Exec.Solo pow p) (fun e' => ¬ TicketsBelow pow e'.st ∨ e.Moved p valid e') e := by
  let s1 := e.st.goto p protect
  let s2 := (s1.setHp p (some l)).goto p validate
  have published := publishes s1 (State.goto_pc ..)
  have validated := validates s2 (State.goto_pc ..) rfl rfl
  have moved : e.Moved p valid ⟨s2.goto p valid, e.log, e.mem⟩ := by
    refine ⟨State.goto_pc .., ⟨?_, ?_, ?_, ?_⟩, ?_, ?_, rfl⟩ <;>
      simp only [s1, s2, State.goto, State.setHp]
  exact solo_run (fun _ => Or.inl) reads (solo_run (fun _ => Or.inl) published
    (solo_run (fun _ => Or.inl) validated (.now (Or.inr moved))))

/-! ### `dequeue` along the nodes -/

section Dequeue

variable {c : ℕ} {l m : A}

theorem deq_protects (here : e.st.pc p = .deqHead c) :
    Inevitably (Exec.Solo pow p) (fun e' => ¬ TicketsBelow pow e'.st ∨
      e.Moved p (.deqFaa c e.st.head) e') e := by
  have reads : run pow e.st p = some (e.st.goto p (.deqProtect c e.st.head), ⟨[], []⟩) := by
    simp only [run, here]
  have publishes : ∀ s : State n A V, s.pc p = .deqProtect c e.st.head → run pow s p =
      some ((s.setHp p (some e.st.head)).goto p (.deqValidate c e.st.head), ⟨[], []⟩) := by
    intro s read
    simp only [run, read]
  refine protect_moves reads publishes fun s published same _ => ?_
  simp only [run, published, if_pos same.symm]

theorem swing_moves (inv : Inv pow e) (here : e.st.pc p = .deqSwing c l m)
    (isHead : e.st.head = l) :
    Inevitably (Exec.Solo pow p) (fun e' => ¬ TicketsBelow pow e'.st ∨
      (e'.st.pc p = .deqHead c ∧ e'.log = e.log ∧
        successor e.log (e.st.nodeAt l) = some (e'.st.nodeAt e'.st.head))) e := by
  have guarded : (e.st.pc p).guarded = some l := by rw [here]; rfl
  obtain ⟨j, link, isAddr⟩ := inv.layout.successor_of_lnext (m := m) guarded (by rw [here]; rfl)
  have alive := inv.heap.next_alive (i := e.st.nodeAt l) link (Or.inl (by rw [← isHead]; rfl))
  have arrives : e.st.nodeAt m = j := by
    rw [← isAddr]
    exact (inv.occupied j alive).1
  let retired := e.st.retiredList p ++ [l]
  let s1 : State n A V := { e.st with
    head := m
    retiredList := Function.update e.st.retiredList p retired }.goto p
      (scanFrom c l 0 retired.length)
  have taken : run pow e.st p = some (s1, ⟨[], [.retire (e.st.nodeAt l)]⟩) := by
    simp only [run, here, if_pos isHead]
    rfl
  have retired1 : s1.retiredList p = retired := Function.update_self ..
  have at1 : s1.pc p = scanFrom c l 0 (s1.retiredList p).length := by
    rw [retired1]
    exact Function.update_self ..
  refine solo_run (fun _ => Or.inl) taken
    ((scan_ends at1).mono fun e' => Or.imp_right fun done => ?_)
  refine ⟨done.pc, done.log, ?_⟩
  rw [done.head, done.nodeAt, link, ← arrives]
  rfl

/-- The outer loop of `dequeue`: by induction on the nodes behind the head, and on one node
on the tickets up to its tail. -/
theorem deqHead_returns (reached : Reachable (system pow) e) :
    ∀ i ∈ rings e.log, ∀ e' : Exec n A V,
    Reachable (system pow) e' → SameLinks e.log e'.log → e'.st.nodeAt e'.st.head = i →
    e'.st.pc p = .deqHead c → e'.Returns pow p := by
  refine (reachable_inv reached).heap.linked.induction (fun j newest => nomatch newest) ?_
  intro i _ behind e' reached' links isHead here
  generalize gap_ : gap (e'.st.node i) = left
  induction left using Nat.strongRecOn generalizing e' with
  | _ left again =>
      refine .after reached' (deq_protects here) fun e1 reached1 moved => ?_
      by_cases below : TicketsBelow pow e1.st
      · have inv1 := reachable_inv reached1
        have guarded : (e1.st.pc p).guarded = some e'.st.head := by rw [moved.pc]; rfl
        have node1 : e1.st.node (e1.st.nodeAt e'.st.head) = e'.st.node i := by
          rw [moved.nodes.node, moved.nodes.nodeAt, isHead]
        have room : (e'.st.node i).head.toNat + 1 < 2 ^ 63 := by
          have room := (inv1.room below guarded).1
          have := Nat.two_pow_pos pow
          rw [node1] at room
          omega
        have start := Exec.OnNode.start guarded
        rw [moved.pc, node1] at start
        refine .after reached1 (start.inevitably (deq_ticket (e'.st.node i) c e'.st.head room)
          reached1) ?_
        rintro e2 reached2 ⟨y, after, on⟩
        have links2 : SameLinks e.log e2.log := by
          refine links.trans ?_
          rw [← moved.log]
          exact on.links
        have head2 : e2.st.head = e'.st.head := by
          rw [on.st]
          exact moved.head
        have nodeAt2 : e2.st.nodeAt = e'.st.nodeAt := by
          rw [on.st]
          exact moved.nodes.nodeAt
        cases after with
        | returns q x => exact deqClear_returns on.pc
        | swing q m =>
            refine .after reached2 (swing_moves (reachable_inv reached2) on.pc head2) ?_
            rintro e3 reached3 ⟨at3, log3, link⟩
            refine behind (e3.st.nodeAt e3.st.head) ?_ e3 reached3 (log3 ▸ links2) rfl at3
            rw [links2.successor, nodeAt2, isHead] at link
            exact link
        | again q less =>
            refine again (gap (e2.st.node i)) ?_ e2 reached2 links2 ?_ on.pc rfl
            · have node2 : e2.st.node i = q := by
                have node2 := on.node
                rwa [moved.nodes.nodeAt, isHead] at node2
              rw [node2, ← gap_]
              exact less
            · rw [nodeAt2, head2, isHead]
      · exact .now (Or.inr (Or.inl below))

end Dequeue

/-! ### `enqueue` at the last node -/

section Enqueue

variable {f : EnqFrame V} {l m : A}

theorem enq_protects (here : e.st.pc p = .enqTail f) :
    Inevitably (Exec.Solo pow p) (fun e' => ¬ TicketsBelow pow e'.st ∨
      e.Moved p (.enqNext f e.st.tail) e') e := by
  have reads : run pow e.st p = some (e.st.goto p (.enqProtect f e.st.tail), ⟨[], []⟩) := by
    simp only [run, here]
  have publishes : ∀ s : State n A V, s.pc p = .enqProtect f e.st.tail → run pow s p =
      some ((s.setHp p (some e.st.tail)).goto p (.enqValidate f e.st.tail), ⟨[], []⟩) := by
    intro s read
    simp only [run, read]
  refine protect_moves reads publishes fun s published _ same => ?_
  simp only [run, published, if_pos same.symm]

theorem solo_returns (here : e.st.pc p = .soloTail f l m)
    (last : (e.st.node (e.st.nodeAt l)).next = none)
    (apart : e.st.nodeAt l ≠ e.st.nodeAt m) : e.Returns pow p := by
  have out : ∀ e' : Exec n A V, ¬ TicketsBelow pow e'.st → e'.Settled pow p :=
    fun _ out => Or.inr (Or.inl out)
  let i := e.st.nodeAt m
  -- a store to the new node does not touch the one it will be linked to
  have keeps : ∀ {node : ℕ → RingQueue A (Option V)} {q : RingQueue A (Option V)},
      (node (e.st.nodeAt l)).next = none →
      (Function.update node i q (e.st.nodeAt l)).next = none := by
    intro node q last
    rw [Function.update_of_ne apart, last]
  let s1 := (e.st.setNode m { e.st.node i with tail := 1 }).goto p (.soloVal f l m)
  let s2 := (s1.setNode m ((s1.node i).setNode 0 { (s1.node i).array 0 with
    val := some f.item })).goto p (.soloIdx f l m)
  let s3 := (s2.setNode m ((s2.node i).setNode 0 { (s2.node i).array 0 with
    idx := 0 })).goto p (.enqLink f l m)
  have at1 : s1.pc p = .soloVal f l m := State.goto_pc ..
  have at2 : s2.pc p = .soloIdx f l m := State.goto_pc ..
  have at3 : s3.pc p = .enqLink f l m := State.goto_pc ..
  have last3 : (s3.node (s3.nodeAt l)).next = none := keeps (keeps (keeps last))
  let s4 := (s3.setNode l { s3.node (s3.nodeAt l) with next := some m }).goto p (.enqAdvance f l m)
  let s5 := (s4.casTail l m).goto p (.enqClear f)
  have at4 : s4.pc p = .enqAdvance f l m := State.goto_pc ..
  have at5 : s5.pc p = .enqClear f := State.goto_pc ..
  have taken1 : run pow e.st p = some (s1, ⟨[], []⟩) := by simp only [run, here]; rfl
  have taken2 : run pow s1 p = some (s2, ⟨[], []⟩) := by simp only [run, at1]; rfl
  have taken3 : run pow s2 p = some (s3, ⟨[], []⟩) := by simp only [run, at2]; rfl
  have taken4 : run pow s3 p = some (s4, ⟨[.enqItem f.call (s3.nodeAt m) 0 f.item,
      .enqDraw f.call (s3.nodeAt m) 0, .link (s3.nodeAt l) (s3.nodeAt m)], []⟩) := by
    simp only [run, at3, last3]
    rfl
  have taken5 : run pow s4 p = some (s5, ⟨[], []⟩) := by simp only [run, at4]; rfl
  refine solo_run out taken1 (solo_run out taken2 (solo_run out taken3 (solo_run out taken4
    (solo_run out taken5 ?_))))
  exact enqClear_returns at5

theorem solo_construct (below : TicketsBelow pow e.st) (here : e.st.pc p = .enqConstruct f l) :
    e.Solo pow p e' ↔ ∃ a, e.st.live a = false ∧
      e' = ⟨(e.st.construct a).goto p (.soloTail f l a), e.log, .construct e.st.made :: e.mem⟩ := by
  constructor
  · rintro ⟨act, next⟩
    simp only [Exec.next, if_pos below] at next
    cases act with
    | enqueue item | dequeue =>
        simp only [step, here] at next
        cases next
    | run =>
        simp only [step, run, here, Pc.guarded, onNode] at next
        cases next
    | construct a =>
        simp only [step, here] at next
        split at next
        next free =>
          cases next
          exact ⟨a, free, rfl⟩
        next => cases next
  · rintro ⟨a, free, rfl⟩
    refine ⟨.construct a, ?_⟩
    simp only [Exec.next, if_pos below, step, here, if_pos free, Option.map_some]
    rfl

theorem construct_returns (reached : Reachable (system pow) e)
    (here : e.st.pc p = .enqConstruct f l) (last : (e.st.node (e.st.nodeAt l)).next = none) :
    e.Returns pow p := by
  by_cases below : TicketsBelow pow e.st
  · by_cases full : ∀ a, e.st.live a = true
    · exact .now (Or.inr (Or.inr ⟨⟨f, l, here⟩, full⟩))
    · obtain ⟨a, free⟩ := not_forall.mp full
      rw [Bool.not_eq_true] at free
      refine .later ⟨_, (solo_construct below here).mpr ⟨a, free, rfl⟩⟩ fun e' solo => ?_
      obtain ⟨b, free, rfl⟩ := (solo_construct below here).mp solo
      have inv := reachable_inv reached
      have guarded : (e.st.pc p).guarded = some l := by rw [here]; rfl
      have other : l ≠ b := by
        rintro rfl
        rw [inv.layout.tracked_live (Exec.tracked_of_guarded guarded)] at free
        cases free
      have old : e.st.nodeAt l ≠ e.st.made :=
        Nat.ne_of_lt (inv.heap.chain_lt _ (inv.layout.guarded guarded).2.2)
      have sameAt : Function.update e.st.nodeAt b e.st.made l = e.st.nodeAt l :=
        Function.update_of_ne other ..
      refine solo_returns (f := f) (l := l) (m := b) (State.goto_pc ..) ?_ ?_
      · show (Function.update e.st.node e.st.made _
          (Function.update e.st.nodeAt b e.st.made l)).next = none
        rw [sameAt, Function.update_of_ne old, last]
      · show Function.update e.st.nodeAt b e.st.made l ≠ Function.update e.st.nodeAt b e.st.made b
        rw [sameAt, Function.update_self]
        exact old
  · exact .now (Or.inr (Or.inl below))

theorem enqTail_last_returns (reached : Reachable (system pow) e) (here : e.st.pc p = .enqTail f)
    (last : (e.st.node (e.st.nodeAt e.st.tail)).next = none) : e.Returns pow p := by
  generalize rank_ : fillRank pow (e.st.node (e.st.nodeAt e.st.tail)) = rank
  induction rank using Nat.strongRecOn generalizing e f with
  | _ rank again =>
      refine .after reached (enq_protects here) fun e1 reached1 moved => ?_
      by_cases below : TicketsBelow pow e1.st
      · have inv1 := reachable_inv reached1
        have guarded : (e1.st.pc p).guarded = some e.st.tail := by rw [moved.pc]; rfl
        let q := e.st.node (e.st.nodeAt e.st.tail)
        have node1 : e1.st.node (e1.st.nodeAt e.st.tail) = q := by
          rw [moved.nodes.node, moved.nodes.nodeAt]
        obtain ⟨roomHead, roomTail⟩ := inv1.room below guarded
        rw [node1] at roomHead roomTail
        have roomHead' : q.head.toNat < 2 ^ 63 := Nat.lt_of_le_of_lt (Nat.le_add_right ..) roomHead
        have start := Exec.OnNode.start guarded
        rw [moved.pc, node1] at start
        have ticket : Inevitably (Follows (nodeNext pow (e1.st.nodeAt e.st.tail)))
            (AfterEnqTicket pow q f e.st.tail) (q, .enqNext f e.st.tail) := by
          refine .next (q, .enqFaa f e.st.tail) ?_ (enq_ticket inv1.small roomHead' roomTail f _)
          simp only [nodeNext, onNode, show q.next = none from last, Option.map_some]
        refine .after reached1 (start.inevitably ticket reached1) ?_
        rintro e2 reached2 ⟨y, after, on⟩
        have node2 := on.node
        have nodeAt2 : e2.st.nodeAt = e1.st.nodeAt := by rw [on.st]; rfl
        have tail2 : e2.st.tail = e.st.tail := by
          rw [on.st]
          exact moved.tail
        rw [← nodeAt2] at node2
        cases after with
        | stored q' => exact enqClear_returns on.pc
        | closed q' same =>
            refine construct_returns reached2 on.pc ?_
            rw [node2]
            exact same.trans last
        | again q' tries same less =>
            refine again (fillRank pow q') (rank_ ▸ less) reached2 on.pc ?_ ?_
            · rw [tail2, node2]
              exact same.trans last
            · rw [tail2, node2]
      · exact .now (Or.inr (Or.inl below))

theorem help_returns (reached : Reachable (system pow) e) (here : e.st.pc p = .enqHelp f l m)
    (isTail : e.st.tail = l) : e.Returns pow p := by
  have inv := reachable_inv reached
  have guarded : (e.st.pc p).guarded = some l := by rw [here]; rfl
  obtain ⟨j, link, isAddr⟩ := inv.layout.successor_of_lnext (m := m) guarded (by rw [here]; rfl)
  have tailLink : e.heap.next e.heap.tail = some j := by
    rw [← isTail] at link
    exact link
  have arrives : e.st.nodeAt m = j := by
    rw [← isAddr]
    exact (inv.occupied j (inv.heap.next_alive tailLink (Or.inr rfl))).1
  have last : (e.st.node j).next = none := by
    have newest : successor e.log j = none := inv.heap.next_newest tailLink
    rw [inv.next j (inv.heap.next_older tailLink).1.mem_new, newest]
    rfl
  have taken : run pow e.st p = some ((e.st.casTail l m).goto p (.enqTail f), ⟨[], []⟩) := by
    simp only [run, here]
  refine .run reached taken fun reached' =>
    enqTail_last_returns reached' (f := f) (State.goto_pc ..) ?_
  show (e.st.node (e.st.nodeAt (if e.st.tail = l then m else e.st.tail))).next = none
  rw [if_pos isTail, arrives, last]

theorem enqTail_returns (reached : Reachable (system pow) e) (here : e.st.pc p = .enqTail f) :
    e.Returns pow p := by
  cases link : (e.st.node (e.st.nodeAt e.st.tail)).next with
  | none => exact enqTail_last_returns reached here link
  | some m =>
      refine .after reached (enq_protects here) fun e1 reached1 moved => ?_
      have guarded : (e1.st.pc p).guarded = some e.st.tail := by rw [moved.pc]; rfl
      let q := e.st.node (e.st.nodeAt e.st.tail)
      have start := Exec.OnNode.start guarded
      rw [moved.pc, moved.nodes.node, moved.nodes.nodeAt] at start
      have reads : Inevitably (Follows (nodeNext pow (e1.st.nodeAt e.st.tail)))
          (fun y => y = (q, .enqHelp f e.st.tail m)) (q, .enqNext f e.st.tail) := by
        refine .next (q, .enqHelp f e.st.tail m) ?_ (.now rfl)
        simp only [nodeNext, onNode, show q.next = some m from link, Option.map_some]
      refine .after reached1 (start.inevitably reads reached1) ?_
      rintro e2 reached2 ⟨y, rfl, on⟩
      refine help_returns reached2 on.pc ?_
      rw [on.st]
      exact moved.tail

end Enqueue

/-- A call that is made in a reachable state and runs alone returns, as long as tickets
stay below `2^63` and there is memory for a new node. -/
theorem calls_return_alone (reached : Reachable (system pow) e) (idle : e.st.pc p = .idle)
    (below : TicketsBelow pow e.st) :
    (∀ item, ∃ called, e.next pow p (.enqueue item) = some called ∧
      Inevitably (Exec.Solo pow p) (Exec.Settled pow p) called) ∧
    ∃ called, e.next pow p .dequeue = some called ∧
      Inevitably (Exec.Solo pow p) (Exec.Settled pow p) called := by
  constructor
  · intro item
    let called : Exec n A V :=
      ⟨{ e.st with calls := e.st.calls + 1 }.goto p (.enqTail ⟨e.st.calls, item, 0⟩),
        .enqCall e.st.calls item :: e.log, e.mem⟩
    have next : e.next pow p (.enqueue item) = some called := by
      simp only [Exec.next, if_pos below, step, idle, Option.map_some]
      rfl
    exact ⟨called, next, enqTail_returns (reached.step ⟨p, _, next⟩) (State.goto_pc ..)⟩
  · let called : Exec n A V :=
      ⟨{ e.st with calls := e.st.calls + 1 }.goto p (.deqHead e.st.calls),
        .deqCall e.st.calls :: e.log, e.mem⟩
    have next : e.next pow p .dequeue = some called := by
      simp only [Exec.next, if_pos below, step, idle, Option.map_some]
      rfl
    have reached' : Reachable (system pow) called := reached.step ⟨p, _, next⟩
    exact ⟨called, next, deqHead_returns reached' _ (reachable_inv reached').heap.head_mem called
      reached' ⟨rfl, rfl⟩ rfl (State.goto_pc ..)⟩

end Memory

/-- Thread `p` is between calls and the tail has not followed the link behind node `0`. -/
def tailLags {n : ℕ} (p : Fin n) (e : Exec n ℕ ℕ) : Bool :=
  match e.st.pc p with
  | .idle => decide (TicketsBelow 0 e.st ∧ e.st.tail = 0 ∧ (e.st.node 0).next = some 1)
  | _ => false

theorem tailLags_idle {n : ℕ} {p : Fin n} {e : Exec n ℕ ℕ} (lags : tailLags p e = true) :
    e.st.pc p = .idle ∧ TicketsBelow 0 e.st ∧ e.st.tail = 0 ∧ (e.st.node 0).next = some 1 := by
  unfold tailLags at lags
  split at lags
  next idle => exact ⟨idle, of_decide_eq_true lags⟩
  next => cases lags

/-- Thread 1 is stopped between its link of a new node and its move of the tail. -/
theorem calls_return_alone_tail_lags : ∃ e : Exec 2 ℕ ℕ, Reachable (system 0) e ∧
    (e.st.pc 0 = .idle ∧ TicketsBelow 0 e.st ∧ e.st.tail = 0 ∧ (e.st.node 0).next = some 1) ∧
    (∀ item, ∃ called, e.next 0 0 (.enqueue item) = some called ∧
      Inevitably (Exec.Solo 0 0) (Exec.Settled 0 0) called) ∧
    ∃ called, e.next 0 0 .dequeue = some called ∧
      Inevitably (Exec.Solo 0 0) (Exec.Settled 0 0) called := by
  obtain ⟨e, reached, found⟩ := schedule_reaches (show 0 < 63 by decide) 0
    ([burst 1 (.enqueue 5) 9, burst 1 (.enqueue 6) 14, burst 1 (.construct 1) 4] :
      List (List (Fin 2 × Act ℕ ℕ))).flatten
    (tailLags 0) (by decide +kernel)
  obtain ⟨idle, below, lags⟩ := tailLags_idle found
  exact ⟨e, reached, ⟨idle, below, lags⟩, calls_return_alone reached idle below⟩

end Elcrq.Cpp
