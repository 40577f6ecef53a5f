import Elcrq.Words
import Elcrq.Concurrent.RingList

/-! # Rings in memory

A ring as both sources lay it out: two ticket words, a `next` pointer and an
array of cells of two words each.  `A` is the type of pointers and `P` the type
of a cell's value word, with `item` telling which values are items.  Each
atomic operation on a ring in memory is a move of the ring it stands for. -/

set_option autoImplicit false

namespace Elcrq

open Concurrent.TicketRing

structure RingNode (P : Type) where
  val : P
  idx : Word

structure RingQueue (A P : Type) where
  head : Word
  tail : Word
  next : Option A
  array : ℕ → RingNode P

section Operations

variable {A P : Type}

/-- The position of a ticket's cell: `t & (RING_SIZE-1)`. -/
def cellOf (pow : ℕ) (t : Word) : ℕ := (t &&& (ringSize pow - 1)).toNat

theorem cellOf_eq {pow : ℕ} (small : pow < 63) (t : Word) : cellOf pow t = t.toNat % 2 ^ pow :=
  and_ringSize_toNat t (by omega)

theorem cellOf_zero (t : Word) : cellOf 0 t = 0 := by
  rw [cellOf_eq (by decide), Nat.pow_zero, Nat.mod_one]

/-- `init_ring`, and the constructor of `Node`. -/
def initRing (empty : P) : RingQueue A P where
  head := 0
  tail := 0
  next := none
  array := fun i => ⟨empty, BitVec.ofNat 64 i⟩

def RingQueue.setNode (q : RingQueue A P) (i : ℕ) (c : RingNode P) : RingQueue A P :=
  { q with array := Function.update q.array i c }

/-- `CAS2` on cell `i`, with what it returns. -/
def RingQueue.cas2 [DecidableEq P] (q : RingQueue A P) (i : ℕ) (o1 : P) (o2 : Word) (n1 : P)
    (n2 : Word) : Bool × RingQueue A P :=
  if (q.array i).val = o1 ∧ (q.array i).idx = o2 then (true, q.setNode i ⟨n1, n2⟩) else (false, q)

/-- `CAS64` on the tail word. -/
def RingQueue.casTail (q : RingQueue A P) (old new : Word) : Bool × RingQueue A P :=
  if q.tail = old then (true, { q with tail := new }) else (false, q)

/-- `BIT_TEST_AND_SET(&rq->tail, 63)`: true when the bit was clear. -/
def RingQueue.btsTail (q : RingQueue A P) : Bool × RingQueue A P :=
  (!crqIsClosed q.tail, { q with tail := setUnsafe q.tail })

def RingQueue.closeCrq (q : RingQueue A P) (t : Word) (tries : ℕ) : Bool × RingQueue A P :=
  if tries < 10 then q.casTail (t + 1) ((t + 1) ||| (1#64 <<< 63)) else q.btsTail

theorem RingQueue.cas2_cases [DecidableEq P] (q : RingQueue A P) (i : ℕ) (o1 : P) (o2 : Word)
    (n1 : P) (n2 : Word) :
    q.cas2 i o1 o2 n1 n2 = (false, q) ∨
      (q.array i = ⟨o1, o2⟩ ∧ q.cas2 i o1 o2 n1 n2 = (true, q.setNode i ⟨n1, n2⟩)) := by
  unfold cas2
  split
  next same =>
    refine Or.inr ⟨?_, rfl⟩
    rw [← same.1, ← same.2]
  next => exact Or.inl rfl

theorem RingQueue.cas2_succeeds [DecidableEq P] {q : RingQueue A P} {i : ℕ} {o1 n1 : P}
    {o2 n2 : Word} (here : q.array i = ⟨o1, o2⟩) :
    q.cas2 i o1 o2 n1 n2 = (true, q.setNode i ⟨n1, n2⟩) := by
  rw [RingQueue.cas2, here, if_pos ⟨rfl, rfl⟩]

theorem RingQueue.cas2_tail [DecidableEq P] (q : RingQueue A P) (i : ℕ) (o1 : P) (o2 : Word)
    (n1 : P) (n2 : Word) : (q.cas2 i o1 o2 n1 n2).2.tail = q.tail := by
  unfold cas2
  split <;> rfl

theorem RingQueue.casTail_cases (q : RingQueue A P) (old new : Word) :
    q.casTail old new = (false, q) ∨
      (q.tail = old ∧ q.casTail old new = (true, { q with tail := new })) := by
  unfold casTail
  split
  next same => exact Or.inr ⟨same, rfl⟩
  next => exact Or.inl rfl

theorem RingQueue.closeCrq_cases (q : RingQueue A P) (t : Word) (tries : ℕ) :
    q.closeCrq t tries = (false, q) ∨
      (q.closeCrq t tries).2 = { q with tail := setUnsafe q.tail } := by
  unfold closeCrq
  split
  · rcases q.casTail_cases (t + 1) ((t + 1) ||| (1#64 <<< 63)) with failed | ⟨isTail, done⟩
    · exact Or.inl failed
    · rw [done, isTail]
      exact Or.inr rfl
  · exact Or.inr rfl

theorem RingQueue.cas2_tail_of [DecidableEq P] {q q' : RingQueue A P} {i : ℕ} {o1 : P}
    {o2 : Word} {n1 : P} {n2 : Word} {done : Bool}
    (result : q.cas2 i o1 o2 n1 n2 = (done, q')) : q'.tail = q.tail := by
  rw [← q.cas2_tail i o1 o2 n1 n2, result]

theorem RingQueue.cas2_next [DecidableEq P] {q q' : RingQueue A P} {i : ℕ} {o1 : P}
    {o2 : Word} {n1 : P} {n2 : Word} {done : Bool}
    (result : q.cas2 i o1 o2 n1 n2 = (done, q')) : q'.next = q.next := by
  unfold cas2 at result
  split at result <;> cases result <;> rfl

theorem RingQueue.casTail_next {q q' : RingQueue A P} {old new : Word} {done : Bool}
    (result : q.casTail old new = (done, q')) : q'.next = q.next := by
  unfold casTail at result
  split at result <;> cases result <;> rfl

theorem RingQueue.closeCrq_next (q : RingQueue A P) (t : Word) (tries : ℕ) :
    (q.closeCrq t tries).2.next = q.next := by
  rcases q.closeCrq_cases t tries with failed | closed
  · rw [failed]
  · rw [closed]

/-- A ring that only its owner knows: fresh but for its first cell and its tail. -/
def Unlinked (empty : P) (q : RingQueue A P) : Prop :=
  ∃ tail val, q = { (initRing empty).setNode 0 ⟨val, 0⟩ with tail := tail }

section Unlinked

variable {empty : P} {q : RingQueue A P}

theorem unlinked_init : Unlinked empty (initRing empty : RingQueue A P) := by
  refine ⟨0, empty, ?_⟩
  simp [RingQueue.setNode, initRing]

theorem Unlinked.next_none (unlinked : Unlinked empty q) : q.next = none := by
  obtain ⟨tail, val, rfl⟩ := unlinked
  rfl

theorem Unlinked.setTail (unlinked : Unlinked empty q) (t : Word) :
    Unlinked empty { q with tail := t } := by
  obtain ⟨tail, val, rfl⟩ := unlinked
  exact ⟨t, val, rfl⟩

theorem Unlinked.setVal (unlinked : Unlinked empty q) (v : P) :
    Unlinked empty (q.setNode 0 { q.array 0 with val := v }) := by
  obtain ⟨tail, val, rfl⟩ := unlinked
  exact ⟨tail, v, by simp [RingQueue.setNode]⟩

theorem Unlinked.setIdx (unlinked : Unlinked empty q) :
    Unlinked empty (q.setNode 0 { q.array 0 with idx := 0 }) := by
  obtain ⟨tail, val, rfl⟩ := unlinked
  exact ⟨tail, val, by simp [RingQueue.setNode]⟩

theorem Unlinked.filled {arg : P} (unlinked : Unlinked empty q) (isOne : q.tail = 1)
    (isArg : (q.array 0).val = arg) :
    q = { (initRing empty).setNode 0 ⟨arg, 0⟩ with tail := 1 } := by
  obtain ⟨tail, val, rfl⟩ := unlinked
  have isArg : val = arg := by simpa [RingQueue.setNode] using isArg
  have isOne : tail = 1 := isOne
  rw [isArg, isOne]

end Unlinked

end Operations

/-! ## The ring a memory state stands for -/

section Abstraction

variable {A P V : Type} {pow : ℕ} {item : P → Option V}

def RingNode.abs (item : P → Option V) (c : RingNode P) : Cell V :=
  ⟨(nodeIndex c.idx).toNat, nodeUnsafe c.idx != 0, item c.val⟩

/-- Only the first `2 ^ pow` cells exist. -/
def RingQueue.abs (pow : ℕ) (item : P → Option V) (q : RingQueue A P) : CellRing V where
  head := q.head.toNat
  tail := (tailIndex q.tail).toNat
  closed := crqIsClosed q.tail
  cell := fun i => if i < 2 ^ pow then (q.array i).abs item else ⟨i, false, none⟩

theorem cell_lt (t : Word) : t.toNat % 2 ^ pow < 2 ^ pow := Nat.mod_lt _ (Nat.two_pow_pos pow)

@[simp] theorem RingQueue.abs_cell (q : RingQueue A P) (t : Word) :
    (q.abs pow item).cell (t.toNat % 2 ^ pow) = (q.array (t.toNat % 2 ^ pow)).abs item :=
  if_pos (cell_lt t)

theorem RingQueue.abs_setNode (q : RingQueue A P) (t : Word) (c : RingNode P) :
    (q.setNode (t.toNat % 2 ^ pow) c).abs pow item =
      (q.abs pow item).setCell (t.toNat % 2 ^ pow) (c.abs item) := by
  simp only [RingQueue.abs, RingQueue.setNode, CellRing.setCell, CellRing.mk.injEq, true_and]
  funext i
  by_cases same : i = t.toNat % 2 ^ pow
  · subst same
    simp [cell_lt]
  · simp [same]

theorem nodeUnsafe_bne (i : Word) : (nodeUnsafe i != 0) = decide (2 ^ 63 ≤ i.toNat) := by
  rw [Bool.eq_iff_iff, bne_iff_ne, nodeUnsafe_ne_zero, decide_eq_true_iff]

theorem RingNode.abs_of_lt {c : RingNode P} (small : c.idx.toNat < 2 ^ 63) :
    c.abs item = ⟨c.idx.toNat, false, item c.val⟩ := by
  rw [RingNode.abs, nodeIndex_toNat, nodeUnsafe_bne, Nat.mod_eq_of_lt small,
    decide_eq_false (Nat.not_le.mpr small)]

theorem initRing_abs {empty : P} (noItem : item empty = none) (small : pow < 63) :
    (initRing empty : RingQueue A P).abs pow item = CellRing.start := by
  simp only [RingQueue.abs, initRing, CellRing.start, CellRing.mk.injEq]
  refine ⟨rfl, rfl, rfl, funext fun i => ?_⟩
  have bound : 2 ^ pow < 2 ^ 63 := Nat.pow_lt_pow_right (by decide) small
  by_cases inside : i < 2 ^ pow
  · have word : (BitVec.ofNat 64 i).toNat = i := by
      rw [BitVec.toNat_ofNat]
      omega
    rw [if_pos inside, RingNode.abs_of_lt (by rw [word]; omega), word, noItem]
  · rw [if_neg inside]

theorem soloRing_abs {empty arg : P} {x : V} (noItem : item empty = none)
    (isItem : item arg = some x) (small : pow < 63) :
    RingQueue.abs pow item { (initRing empty : RingQueue A P).setNode 0 ⟨arg, 0⟩ with tail := 1 } =
      Concurrent.RingList.soloRing x := by
  have cells := congrArg CellRing.cell (initRing_abs (A := A) noItem small)
  simp only [RingQueue.abs, Concurrent.RingList.soloRing, CellRing.mk.injEq] at cells ⊢
  refine ⟨rfl, rfl, rfl, funext fun i => ?_⟩
  have cell := congrFun cells i
  by_cases first : i = 0
  · subst first
    rw [if_pos (Nat.two_pow_pos pow)]
    simp only [RingQueue.setNode, Function.update_self]
    rw [RingNode.abs_of_lt (show (0 : Word).toNat < 2 ^ 63 by decide), isItem]
    rfl
  · simp only [RingQueue.setNode, Function.update_of_ne first]
    exact cell

/-! ### Moves of the ticket words -/

variable {q : RingQueue A P} {v : View}

section TicketWords

variable (pow item)

theorem RingQueue.move_drawTail (isOpen : crqIsClosed q.tail = false)
    (room : (tailIndex q.tail).toNat + 1 < 2 ^ 63) :
    Move (2 ^ pow) (q.abs pow item) .out (some (.drew q.tail.toNat))
      (RingQueue.abs pow item { q with tail := q.tail + 1 }) (.enq q.tail.toNat .start) := by
  have small := (crqIsClosed_false_iff q.tail).mp isOpen
  have index : (tailIndex q.tail).toNat = q.tail.toNat := by
    rw [tailIndex_toNat, Nat.mod_eq_of_lt small]
  have next : (q.tail + 1).toNat = q.tail.toNat + 1 := add_one_toNat _ (by omega)
  have stillOpen : crqIsClosed (q.tail + 1) = false := by
    rw [crqIsClosed_false_iff, next]
    omega
  have ring : RingQueue.abs pow item { q with tail := q.tail + 1 } =
      { q.abs pow item with tail := (q.abs pow item).tail + 1 } := by
    simp only [RingQueue.abs, CellRing.mk.injEq, true_and, and_true, tailIndex_toNat, next]
    refine ⟨?_, by rw [stillOpen, isOpen]⟩
    omega
  have move : Move (2 ^ pow) (q.abs pow item) _ _ _ _ := Move.drawTail isOpen
  have tail : (q.abs pow item).tail = q.tail.toNat := index
  rwa [← ring, tail] at move

theorem RingQueue.move_bumpTail (closed : crqIsClosed q.tail = true)
    (room : (tailIndex q.tail).toNat + 1 < 2 ^ 63) :
    Move (2 ^ pow) (q.abs pow item) .out none
      (RingQueue.abs pow item { q with tail := q.tail + 1 }) .out := by
  have large := (crqIsClosed_iff q.tail).mp closed
  rw [tailIndex_toNat] at room
  have next : (q.tail + 1).toNat = q.tail.toNat + 1 := add_one_toNat _ (by omega)
  have stillClosed : crqIsClosed (q.tail + 1) = true := by
    rw [crqIsClosed_iff, next]
    omega
  have ring : RingQueue.abs pow item { q with tail := q.tail + 1 } =
      { q.abs pow item with tail := (q.abs pow item).tail + 1 } := by
    simp only [RingQueue.abs, CellRing.mk.injEq, true_and, and_true, tailIndex_toNat, next]
    refine ⟨?_, by rw [stillClosed, closed]⟩
    omega
  rw [ring]
  exact Move.bumpTail closed

theorem RingQueue.move_close :
    Move (2 ^ pow) (q.abs pow item) v none
      (RingQueue.abs pow item { q with tail := setUnsafe q.tail }) v := by
  have ring : RingQueue.abs pow item { q with tail := setUnsafe q.tail } =
      { q.abs pow item with closed := true } := by
    simp only [RingQueue.abs, CellRing.mk.injEq, true_and, and_true, tailIndex_toNat,
      crqIsClosed_iff, setUnsafe_toNat]
    omega
  rw [ring]
  exact Move.close

theorem RingQueue.move_raiseTail {h : Word} (below : q.tail < h) (small : h.toNat < 2 ^ 63) :
    Move (2 ^ pow) (q.abs pow item) v none (RingQueue.abs pow item { q with tail := h }) v := by
  have less : q.tail.toNat < h.toNat := below
  have isOpen : crqIsClosed q.tail = false := (crqIsClosed_false_iff _).mpr (by omega)
  have ring : RingQueue.abs pow item { q with tail := h } =
      { q.abs pow item with tail := h.toNat } := by
    simp only [RingQueue.abs, CellRing.mk.injEq, true_and, and_true, tailIndex_toNat,
      Nat.mod_eq_of_lt small, isOpen, crqIsClosed_false_iff]
    exact small
  rw [ring]
  refine Move.raiseTail h.toNat isOpen ?_
  show (tailIndex q.tail).toNat < h.toNat
  rw [tailIndex_toNat]
  omega

theorem RingQueue.move_drawHead (room : q.head.toNat + 1 < 2 ^ 64) :
    Move (2 ^ pow) (q.abs pow item) .out (some (.drewHead q.head.toNat))
      (RingQueue.abs pow item { q with head := q.head + 1 }) (.deq q.head.toNat .start) := by
  have ring : RingQueue.abs pow item { q with head := q.head + 1 } =
      { q.abs pow item with head := (q.abs pow item).head + 1 } := by
    simp only [RingQueue.abs, add_one_toNat q.head room]
  rw [ring]
  exact Move.drawHead (ρ := q.abs pow item)

end TicketWords

/-! ### Moves of an enqueuer on its cell -/

/-- What an enqueuer knows after it has read `idx`. -/
def seenIdx (idx : Word) : EnqStage := .seen (nodeIndex idx).toNat (nodeUnsafe idx != 0)

def readyIdx (idx : Word) : EnqStage := .ready (nodeIndex idx).toNat (nodeUnsafe idx != 0)

theorem RingQueue.move_enqLook {t : Word} {stage : EnqStage} :
    Move (2 ^ pow) (q.abs pow item) (.enq t.toNat stage) none (q.abs pow item)
      (.enq t.toNat (seenIdx (q.array (t.toNat % 2 ^ pow)).idx)) := by
  have move : Move (2 ^ pow) (q.abs pow item) (.enq t.toNat stage) _ _ _ := Move.enqLook
  rwa [RingQueue.abs_cell] at move

theorem RingQueue.move_enqReady {t idx : Word} (fits : nodeIndex idx ≤ t)
    (safe : nodeUnsafe idx = 0) :
    Move (2 ^ pow) (q.abs pow item) (.enq t.toNat (seenIdx idx)) none (q.abs pow item)
      (.enq t.toNat (readyIdx idx)) := by
  have flag : (nodeUnsafe idx != 0) = false := by rw [safe]; rfl
  rw [seenIdx, readyIdx, flag]
  exact Move.enqReady fits

theorem RingQueue.move_enqFits {t idx : Word} (fits : nodeIndex idx ≤ t)
    (flagged : nodeUnsafe idx ≠ 0) :
    Move (2 ^ pow) (q.abs pow item) (.enq t.toNat (seenIdx idx)) none (q.abs pow item)
      (.enq t.toNat (.fits (nodeIndex idx).toNat)) := by
  have flag : (nodeUnsafe idx != 0) = true := bne_iff_ne.mpr flagged
  rw [seenIdx, flag]
  exact Move.enqFits fits

theorem RingQueue.move_enqAhead {t idx : Word} (ahead : q.head < t)
    (flagged : nodeUnsafe idx ≠ 0) :
    Move (2 ^ pow) (q.abs pow item) (.enq t.toNat (.fits (nodeIndex idx).toNat)) none
      (q.abs pow item) (.enq t.toNat (readyIdx idx)) := by
  have flag : (nodeUnsafe idx != 0) = true := bne_iff_ne.mpr flagged
  rw [readyIdx, flag]
  exact Move.enqAhead ahead

theorem RingQueue.move_put {t idx : Word} {empty arg : P} {x : V} (small : t.toNat < 2 ^ 63)
    (here : q.array (t.toNat % 2 ^ pow) = ⟨empty, idx⟩) (noItem : item empty = none)
    (isItem : item arg = some x) :
    Move (2 ^ pow) (q.abs pow item) (.enq t.toNat (readyIdx idx)) (some (.put t.toNat x))
      ((q.setNode (t.toNat % 2 ^ pow) ⟨arg, t⟩).abs pow item) .out := by
  rw [RingQueue.abs_setNode, RingNode.abs_of_lt (c := ⟨arg, t⟩) small, isItem]
  refine Move.put x ?_
  rw [RingQueue.abs_cell, here, RingNode.abs, noItem]

/-! ### Moves of a dequeuer on its cell -/

theorem RingQueue.move_deqLook {h : Word} {stage : DeqStage} :
    Move (2 ^ pow) (q.abs pow item) (.deq h.toNat stage) none (q.abs pow item)
      (.deq h.toNat (.seen (nodeIndex (q.array (h.toNat % 2 ^ pow)).idx).toNat)) := by
  have move : Move (2 ^ pow) (q.abs pow item) (.deq h.toNat stage) _ _ _ := Move.deqLook
  rwa [RingQueue.abs_cell] at move

section NextLap

variable {h idx : Word} (room : h.toNat + 2 ^ pow < 2 ^ 63)
include room

theorem lap_toNat : (h + ringSize pow).toNat = h.toNat + 2 ^ pow := by
  have small : pow < 64 := by
    by_contra large
    have := Nat.pow_le_pow_right (n := 2) (by decide) (not_lt.mp large)
    omega
  rw [BitVec.toNat_add, ringSize_toNat small]
  exact Nat.mod_eq_of_lt (by omega)

theorem RingNode.abs_lap {empty : P} (noItem : item empty = none) :
    RingNode.abs item ⟨empty, nodeUnsafe idx ||| (h + ringSize pow)⟩ =
      ⟨h.toNat + 2 ^ pow, nodeUnsafe idx != 0, none⟩ := by
  have lap := lap_toNat room
  have word := nodeUnsafe_or_toNat idx (h + ringSize pow) (by omega)
  rw [RingNode.abs, noItem, nodeIndex_toNat, nodeUnsafe_bne, nodeUnsafe_bne, word, lap]
  split
  next flagged =>
    simp only [flagged, decide_true, Cell.mk.injEq, and_true, decide_eq_true_eq]
    omega
  next clear =>
    simp only [clear, decide_false, Cell.mk.injEq, and_true, decide_eq_false_iff_not]
    omega

theorem RingQueue.move_take {stage : DeqStage} {empty val : P} {x : V}
    (here : q.array (h.toNat % 2 ^ pow) = ⟨val, idx⟩) (index : nodeIndex idx = h)
    (noItem : item empty = none) (isItem : item val = some x) :
    Move (2 ^ pow) (q.abs pow item) (.deq h.toNat stage) (some (.took h.toNat x))
      ((q.setNode (h.toNat % 2 ^ pow) ⟨empty, nodeUnsafe idx ||| (h + ringSize pow)⟩).abs pow item)
      .out := by
  rw [RingQueue.abs_setNode, RingNode.abs_lap room noItem]
  refine Move.take ?_
  rw [RingQueue.abs_cell, here, RingNode.abs, isItem, index]

theorem RingQueue.move_skip {empty : P} (here : q.array (h.toNat % 2 ^ pow) = ⟨empty, idx⟩)
    (noItem : item empty = none) :
    Move (2 ^ pow) (q.abs pow item) (.deq h.toNat (.fits (nodeIndex idx).toNat))
      (some (.gaveUp h.toNat))
      ((q.setNode (h.toNat % 2 ^ pow) ⟨empty, nodeUnsafe idx ||| (h + ringSize pow)⟩).abs pow item)
      .out := by
  rw [RingQueue.abs_setNode, RingNode.abs_lap room noItem]
  refine Move.skip ?_
  rw [RingQueue.abs_cell, here, RingNode.abs, noItem]

end NextLap

theorem RingQueue.move_flag {h idx : Word} {val : P} {x : V}
    (here : q.array (h.toNat % 2 ^ pow) = ⟨val, idx⟩) (other : nodeIndex idx ≠ h)
    (isItem : item val = some x) :
    Move (2 ^ pow) (q.abs pow item) (.deq h.toNat (.fits (nodeIndex idx).toNat))
      (some (.gaveUp h.toNat))
      ((q.setNode (h.toNat % 2 ^ pow) ⟨val, setUnsafe (nodeIndex idx)⟩).abs pow item) .out := by
  have cell : RingNode.abs item ⟨val, setUnsafe (nodeIndex idx)⟩ =
      ⟨(nodeIndex idx).toNat, true, some x⟩ := by
    have bound : idx.toNat % 2 ^ 63 < 2 ^ 63 := Nat.mod_lt _ (by decide)
    simp only [RingNode.abs, isItem, nodeUnsafe_bne, nodeIndex_toNat, setUnsafe_toNat,
      Cell.mk.injEq, and_true, decide_eq_true_eq]
    omega
  rw [RingQueue.abs_setNode, cell]
  have cellNow : (q.abs pow item).cell (h.toNat % 2 ^ pow) =
      ⟨(nodeIndex idx).toNat, nodeUnsafe idx != 0, some x⟩ := by
    rw [RingQueue.abs_cell, here, RingNode.abs, isItem]
  exact Move.flag (fun same => other (BitVec.eq_of_toNat_eq same)) cellNow

end Abstraction

end Elcrq
