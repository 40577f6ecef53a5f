import Elcrq.C.Ledger
import Elcrq.C.Walk
import Elcrq.Concurrent.Inevitable

/-! # Calls that run alone

With no steps of other threads in between, each `CAS2` and `CAS64` of a call
succeeds.  An `enq` draws tickets until its cell is free or the distance to the
head, as a word, is `RING_SIZE`; then it closes the ring and links a new one.  A
`deq` draws tickets from its ring until the tail is at most one past its ticket,
repairs the tail and goes on to `next`.  The tickets grow, and the exit test, which
compares words, holds at `2^64 - 1` at the latest: there it ends on a ring whose tail
is `0`, where `tail_index - 1` is the largest word. -/

set_option autoImplicit false

namespace Elcrq.C

open Concurrent Concurrent.TicketRing Concurrent.RingList

/-! ## On one ring -/

section Ring

variable {pow : ℕ} {q q' q'' : RingQueue ℕ Word} {f : DeqFrame} {h tt cellIdx : Word} {r : ℕ}
  {goal : RingQueue ℕ Word × Pc → Prop}

/-- One access to the ring, without what is recorded.  A call that reads `next` may
leave the ring. -/
def ringNext (pow : ℕ) (x : RingQueue ℕ Word × Pc) : Option (RingQueue ℕ Word × Pc) :=
  match x.2 with
  | .enqNext _ | .deqNext _ => none
  | pc => (onRing pow x.1 pc).map fun y => (y.1, y.2.1)

/-- The cell of ticket `h` holds an item with that index. -/
def HasItem (pow : ℕ) (q : RingQueue ℕ Word) (h : Word) : Prop :=
  (q.array (cellOf pow h)).val ≠ EMPTY ∧ nodeIndex (q.array (cellOf pow h)).idx = h

/-- What a dequeuer leaves of a ring that it takes nothing from. -/
structure Worn (pow : ℕ) (q q' : RingQueue ℕ Word) : Prop where
  head : q'.head = q.head
  tail : q'.tail = q.tail
  next : q'.next = q.next
  items : ∀ h, HasItem pow q' h → HasItem pow q h

theorem Worn.refl : Worn pow q q := ⟨rfl, rfl, rfl, fun _ => id⟩

theorem Worn.setNode {i : ℕ} {c : RingNode Word}
    (fewer : c.val ≠ EMPTY →
      (q.array i).val ≠ EMPTY ∧ nodeIndex c.idx = nodeIndex (q.array i).idx) :
    Worn pow q (q.setNode i c) := by
  refine ⟨rfl, rfl, rfl, fun h item => ?_⟩
  by_cases same : cellOf pow h = i
  · subst same
    simp only [HasItem, RingQueue.setNode, Function.update_self] at item ⊢
    obtain ⟨full, index⟩ := fewer item.1
    exact ⟨full, index.symm.trans item.2⟩
  · simpa only [HasItem, RingQueue.setNode, Function.update_of_ne same] using item

/-- The ring with the empty cell of ticket `h` moved on to the next lap. -/
def movedOn (pow : ℕ) (q : RingQueue ℕ Word) (h cellIdx : Word) : RingQueue ℕ Word :=
  q.setNode (cellOf pow h) ⟨EMPTY, nodeUnsafe cellIdx ||| (h + ringSize pow)⟩

theorem deq_atEmptyCell (here : q.array (cellOf pow h) = ⟨EMPTY, cellIdx⟩)
    (leave : Inevitably (Follows (ringNext pow)) goal (movedOn pow q h cellIdx, .deqExit f h))
    (again : r ≤ 200000 →
      Inevitably (Follows (ringNext pow)) goal (q, .deqIdx f h tt (r + 1))) :
    Inevitably (Follows (ringNext pow)) goal (q, atEmptyCell f h tt r cellIdx) := by
  unfold atEmptyCell
  split
  next flagged =>
    refine .next _ ?_ leave
    simp only [ringNext, onRing, RingQueue.cas2_succeeds here, Option.map_some, movedOn]
  next safe =>
    split
    next skip =>
      have noFlag : nodeUnsafe cellIdx ||| (h + ringSize pow) = h + ringSize pow := by
        rw [not_not.mp safe]
        exact BitVec.zero_or
      have word : nodeIndex cellIdx = cellIdx := by
        rw [not_not, ← not_ne_iff, nodeUnsafe_ne_zero, not_le] at safe
        apply BitVec.eq_of_toNat_eq
        rw [nodeIndex_toNat, Nat.mod_eq_of_lt safe]
      refine .next _ ?_ leave
      rw [word]
      simp only [ringNext, onRing, RingQueue.cas2_succeeds here, Option.map_some, movedOn, noFlag]
    next spin =>
      refine again ?_
      rw [not_or, not_or, not_lt] at spin
      exact spin.2.1

theorem deq_take {val : Word} (here : q.array (cellOf pow h) = ⟨val, cellIdx⟩)
    (there : goal (q.setNode (cellOf pow h) ⟨EMPTY, nodeUnsafe cellIdx ||| (h + ringSize pow)⟩,
      .idle)) : Inevitably (Follows (ringNext pow)) goal (q, .deqTake f h tt r cellIdx val) := by
  refine .next _ ?_ (.now there)
  simp only [ringNext, onRing, RingQueue.cas2_succeeds here, Option.map_some]

theorem deq_mark {val : Word} (here : q.array (cellOf pow h) = ⟨val, cellIdx⟩)
    (there : goal (q.setNode (cellOf pow h) ⟨val, setUnsafe (nodeIndex cellIdx)⟩,
      .deqExit f h)) :
    Inevitably (Follows (ringNext pow)) goal (q, .deqMark f h tt r cellIdx val) := by
  refine .next _ ?_ (.now there)
  simp only [ringNext, onRing, RingQueue.cas2_succeeds here, Option.map_some]

/-- The call has taken the item under its ticket, or has left the cell. -/
inductive AfterCell (pow : ℕ) (q : RingQueue ℕ Word) (f : DeqFrame) (h : Word) :
    RingQueue ℕ Word × Pc → Prop
  | took (q' : RingQueue ℕ Word) : HasItem pow q h → AfterCell pow q f h (q', .idle)
  | left (q' : RingQueue ℕ Word) : Worn pow q q' →
      (∀ cellIdx, q.array (cellOf pow h) = ⟨EMPTY, cellIdx⟩ → nodeIndex cellIdx ≤ h →
        q' = movedOn pow q h cellIdx) → AfterCell pow q f h (q', .deqExit f h)

/-- The inner loop of `deq`. -/
theorem deq_cell (q : RingQueue ℕ Word) (f : DeqFrame) (h tt : Word) (r : ℕ) :
    Inevitably (Follows (ringNext pow)) (AfterCell pow q f h) (q, .deqIdx f h tt r) := by
  generalize left_ : 200001 - r = left
  induction left using Nat.strongRecOn generalizing r tt with
  | _ left ih =>
      generalize cell : q.array (cellOf pow h) = c
      obtain ⟨val, cellIdx⟩ := c
      have read : ringNext pow (q, .deqIdx f h tt r) = some (q, .deqVal f h tt r cellIdx) := by
        simp only [ringNext, onRing, cell, Option.map_some]
      refine .next _ read ?_
      by_cases ahead : nodeIndex cellIdx > h
      · refine .next (q, .deqExit f h) ?_ (.now (.left q .refl ?_))
        · simp only [ringNext, onRing, if_pos ahead, Option.map_some]
        · intro cellIdx' isCell behind
          cases cell.symm.trans isCell
          exact absurd behind (BitVec.not_le.mpr ahead)
      · by_cases empty : val = EMPTY
        · subst empty
          have isEmpty_ : isEmpty EMPTY = true := by decide
          have retry : ∀ tt', r ≤ 200000 → Inevitably (Follows (ringNext pow))
              (AfterCell pow q f h) (q, .deqIdx f h tt' (r + 1)) := fun tt' few =>
            ih (200001 - (r + 1)) (by omega) tt' (r + 1) rfl
          have leave : Inevitably (Follows (ringNext pow)) (AfterCell pow q f h)
              (movedOn pow q h cellIdx, .deqExit f h) := by
            refine .now (.left _ (.setNode fun full => absurd rfl full) fun cellIdx' isCell _ => ?_)
            cases cell.symm.trans isCell
            rfl
          by_cases reload : r &&& ((1 <<< 10) - 1) = 0
          · refine .next (q, .deqTail f h r cellIdx) ?_ (.next
              (q, atEmptyCell f h q.tail r cellIdx) rfl
              (deq_atEmptyCell cell leave (retry q.tail)))
            simp only [ringNext, onRing, cell, if_neg ahead, isEmpty_, if_true, if_pos reload,
              Option.map_some]
          · refine .next (q, atEmptyCell f h tt r cellIdx) ?_
              (deq_atEmptyCell cell leave (retry tt))
            simp only [ringNext, onRing, cell, if_neg ahead, isEmpty_, if_true, if_neg reload,
              Option.map_some]
        · have full : isEmpty val = false := by
            rw [isEmpty, beq_eq_false_iff_ne]
            exact empty
          by_cases mine : nodeIndex cellIdx = h
          · refine .next (q, .deqTake f h tt r cellIdx val) ?_
              (deq_take cell (.took _ ?_))
            · simp only [ringNext, onRing, cell, if_neg ahead, full, Bool.false_eq_true, if_false,
                if_pos mine, Option.map_some]
            · rw [HasItem, cell]
              exact ⟨empty, mine⟩
          · refine .next (q, .deqMark f h tt r cellIdx val) ?_
              (deq_mark cell (.left _ (.setNode fun _ => ?_) ?_))
            · simp only [ringNext, onRing, cell, if_neg ahead, full, Bool.false_eq_true, if_false,
                if_neg mine, Option.map_some]
            · rw [cell]
              refine ⟨empty, ?_⟩
              apply BitVec.eq_of_toNat_eq
              rw [nodeIndex_toNat, setUnsafe_toNat, nodeIndex_toNat]
              omega
            · intro cellIdx' isCell
              cases cell.symm.trans isCell
              exact absurd rfl empty

def fixedRing (q : RingQueue ℕ Word) : RingQueue ℕ Word :=
  if q.head > q.tail then { q with tail := q.head } else q

theorem fixedRing_next (q : RingQueue ℕ Word) : (fixedRing q).next = q.next := by
  unfold fixedRing
  split <;> rfl

theorem deq_exit (q : RingQueue ℕ Word) (f : DeqFrame) (h : Word) :
    Inevitably (Follows (ringNext pow))
      (fun y => (y = (fixedRing q, .deqNext f) ∧ tailIndex q.tail - 1 ≤ h) ∨
        (y = (q, .deqFaa f) ∧ h < tailIndex q.tail - 1)) (q, .deqExit f h) := by
  by_cases test : tailIndex q.tail - 1 ≤ h
  · refine .next (q, .fixTail f) ?_ (.next (q, .fixHead f q.tail) rfl
      (.next (q, .fixCheck f q.tail q.head) rfl ?_))
    · simp only [ringNext, onRing, if_pos test, Option.map_some]
    · by_cases behind : q.head > q.tail
      · refine .next (q, .fixCas f q.tail q.head) ?_ (.next (fixedRing q, .deqNext f) ?_
          (.now (Or.inl ⟨rfl, test⟩)))
        · simp only [ringNext, onRing, ne_eq, not_true_eq_false, if_false, if_pos behind,
            Option.map_some]
        · simp only [ringNext, onRing, RingQueue.casTail, if_true, Option.map_some,
            fixedRing, if_pos behind]
      · refine .next (fixedRing q, .deqNext f) ?_ (.now (Or.inl ⟨rfl, test⟩))
        simp only [ringNext, onRing, ne_eq, not_true_eq_false, if_false, if_neg behind,
          Option.map_some, fixedRing]
  · refine .next (q, .deqFaa f) ?_ (.now (Or.inr ⟨rfl, BitVec.not_le.mp test⟩))
    simp only [ringNext, onRing, if_neg test, Option.map_some]

/-- A `deq` on one ring takes an item whose ticket was not drawn before, or comes to
the read of `next`. -/
theorem deq_ring (q : RingQueue ℕ Word) (f : DeqFrame) :
    Inevitably (Follows (ringNext pow))
      (fun y => (y.2 = .idle ∧ ∃ h, q.head ≤ h ∧ HasItem pow q h) ∨
        (y.2 = .deqNext f ∧ y.1.next = q.next)) (q, .deqFaa f) := by
  generalize left_ : 2 ^ 64 - q.head.toNat = left
  induction left using Nat.strongRecOn generalizing q with
  | _ left ih =>
      refine .next ({ q with head := q.head + 1 }, .deqIdx f q.head 0 0) rfl
        ((deq_cell _ f q.head 0 0).bind ?_)
      rintro _ (⟨_, item⟩ | ⟨q1, worn, _⟩)
      · exact .now (Or.inl ⟨rfl, q.head, BitVec.le_refl _, item⟩)
      · refine (deq_exit q1 f q.head).bind ?_
        rintro _ (⟨rfl, _⟩ | ⟨rfl, less⟩)
        · exact .now (Or.inr ⟨rfl, (fixedRing_next q1).trans worn.next⟩)
        · -- a ticket below another word is not the last one
          have above : (q.head + 1).toNat = q.head.toNat + 1 := by
            have less : q.head.toNat < _ := less
            have small := (tailIndex q1.tail - 1).isLt
            exact add_one_toNat _ (by omega)
          have head1 : q1.head.toNat = q.head.toNat + 1 := by rw [worn.head, above]
          have small := q.head.isLt
          refine (ih _ (by omega) q1 rfl).mono ?_
          rintro ⟨q', pc'⟩ (⟨isIdle, h, drawn, item⟩ | ⟨isNext, sameNext⟩)
          · have drawn : q1.head.toNat ≤ h.toNat := drawn
            refine Or.inl ⟨isIdle, h, ?_, worn.items h item⟩
            show q.head.toNat ≤ h.toNat
            omega
          · exact Or.inr ⟨isNext, sameNext.trans worn.next⟩

/-! ### Head tickets that wrap round -/

/-- A ring of one cell with `head` at `h` and nothing in it; `c` is the index of its cell. -/
def spentRing (h c : Word) : RingQueue ℕ Word :=
  { (initRing EMPTY).setNode 0 ⟨EMPTY, c⟩ with head := h }

/-- From ticket `2^63` on the cell's index carries the unsafe bit. -/
def Spent (h c : Word) : Prop :=
  (h.toNat < 2 ^ 63 → c.toNat ≤ h.toNat) ∧ (2 ^ 63 ≤ h.toNat → 2 ^ 63 ≤ c.toNat)

theorem spentRing_array (h c t : Word) : (spentRing h c).array (cellOf 0 t) = ⟨EMPTY, c⟩ := by
  simp only [cellOf_zero, spentRing, RingQueue.setNode, Function.update_self]

theorem movedOn_spentRing (h c t : Word) :
    movedOn 0 (spentRing h c) t c = spentRing h (nodeUnsafe c ||| (t + 1)) := by
  have one : ringSize 0 = 1 := by decide
  simp only [movedOn, spentRing, RingQueue.setNode, cellOf_zero, one, Function.update_idem]

theorem Spent.behind {h c : Word} (spent : Spent h c) : nodeIndex c ≤ h := by
  show (nodeIndex c).toNat ≤ h.toNat
  rw [nodeIndex_toNat]
  by_cases low : h.toNat < 2 ^ 63
  · have := spent.1 low
    omega
  · omega

theorem Spent.next {h c : Word} (spent : Spent h c) (room : h.toNat + 1 < 2 ^ 64) :
    Spent (h + 1) (nodeUnsafe c ||| (h + 1)) := by
  have above := add_one_toNat h room
  unfold Spent
  rw [nodeUnsafe_eq]
  split
  next flagged =>
    have bit : (1#64 <<< 63 ||| (h + 1)).toNat = (h.toNat + 1) % 2 ^ 63 + 2 ^ 63 := by
      rw [BitVec.or_comm, ← above]
      exact setUnsafe_toNat (h + 1)
    rw [bit, above]
    have := spent.1
    omega
  next plain =>
    have same : (0 ||| (h + 1) : Word) = h + 1 := BitVec.zero_or
    rw [same, above]
    omega

/-- The tail stays `0`, so `tail_index - 1` is the largest word and every ticket up to
`2^64 - 1` is drawn. -/
theorem deq_wraps (f : DeqFrame) (h c : Word) (spent : Spent h c) :
    Inevitably (Follows (ringNext 0))
      (fun y => y = (spentRing 0 (1#64 <<< 63), .deqNext f)) (spentRing h c, .deqFaa f) := by
  generalize left_ : 2 ^ 64 - h.toNat = left
  induction left using Nat.strongRecOn generalizing h c with
  | _ left ih =>
      have cell := spentRing_array (h + 1) c h
      refine .next (spentRing (h + 1) c, .deqIdx f h 0 0) rfl
        ((deq_cell (spentRing (h + 1) c) f h 0 0).bind ?_)
      rintro _ (⟨_, item⟩ | ⟨q, _, moved⟩)
      · rw [HasItem, cell] at item
        exact absurd rfl item.1
      · cases (moved c cell spent.behind).trans (movedOn_spentRing (h + 1) c h)
        refine (deq_exit (spentRing (h + 1) (nodeUnsafe c ||| (h + 1))) f h).bind ?_
        have last : tailIndex 0 - 1 = BitVec.ofNat 64 (2 ^ 64 - 1) := by decide
        have small := h.isLt
        rintro _ (⟨rfl, test⟩ | ⟨rfl, less⟩)
        · have isLast : h = BitVec.ofNat 64 (2 ^ 64 - 1) := by
            have test : (tailIndex 0 - 1).toNat ≤ h.toNat := test
            rw [last, BitVec.toNat_ofNat] at test
            apply BitVec.eq_of_toNat_eq
            rw [BitVec.toNat_ofNat]
            omega
          have flagged : 2 ^ 63 ≤ c.toNat := spent.2 (by rw [isLast]; decide)
          have zero : h + 1 = 0 := by
            rw [isLast]
            decide
          refine .now ?_
          rw [nodeUnsafe_eq, if_pos flagged, zero]
          rfl
        · have less : h.toNat < (tailIndex 0 - 1).toNat := less
          rw [last, BitVec.toNat_ofNat] at less
          have above := add_one_toNat h (by omega)
          exact ih _ (by omega) (h + 1) _ (spent.next (by omega)) rfl

/-! ### `enq` -/

section Enq

variable {g : EnqFrame}

/-- How far the newest ticket is from the head, up to `RING_SIZE`. -/
def fillRank (pow : ℕ) (q : RingQueue ℕ Word) : ℕ :=
  if crqIsClosed q.tail then 0 else 1 + ((ringSize pow).toNat - (q.tail - q.head).toNat)

inductive AfterTicket (pow : ℕ) (q : RingQueue ℕ Word) (g : EnqFrame) :
    RingQueue ℕ Word × Pc → Prop
  | stored (q' : RingQueue ℕ Word) : AfterTicket pow q g (q', .idle)
  | closed (q' : RingQueue ℕ Word) (tries : ℕ) : q'.next = q.next →
      AfterTicket pow q g (q', .enqAlloc { g with tryClose := tries })
  | again (q' : RingQueue ℕ Word) (tries : ℕ) : q'.next = q.next →
      fillRank pow q' < fillRank pow q →
      AfterTicket pow q g (q', .enqNext { g with tryClose := tries })

variable (pow g) in
/-- `enq` whose cell cannot be used: the ring is full, or the next ticket is nearer to it. -/
theorem enq_full (isOpen : crqIsClosed q.tail = false) :
    Inevitably (Follows (ringNext pow)) (AfterTicket pow q g)
      ({ q with tail := q.tail + 1 }, .enqFull g q.tail) := by
  let q1 : RingQueue ℕ Word := { q with tail := q.tail + 1 }
  by_cases full : ringSize pow ≤ q.tail - q.head
  · let g1 : EnqFrame := { g with tryClose := g.tryClose + 1 }
    refine .next (q1, .enqClose g1 q.tail) ?_ ?_
    · simp only [ringNext, onRing, if_pos full, Option.map_some]
      rfl
    · by_cases few : g1.tryClose < 10
      · refine .next ({ q with tail := (q.tail + 1) ||| (1#64 <<< 63) }, .enqAlloc g1) ?_
          (.now (.closed _ _ rfl))
        simp only [ringNext, onRing, RingQueue.closeCrq, if_pos few, RingQueue.casTail, q1, if_true,
          Option.map_some]
      · cases already : crqIsClosed q1.tail with
        | false =>
            refine .next ({ q with tail := setUnsafe q1.tail }, .enqAlloc g1) ?_
              (.now (.closed _ _ rfl))
            simp only [ringNext, onRing, RingQueue.closeCrq, if_neg few, RingQueue.btsTail, already,
              Bool.not_false, Option.map_some]
            rfl
        | true =>
            refine .next ({ q with tail := setUnsafe q1.tail }, .enqNext g1) ?_
              (.now (.again _ _ rfl ?_))
            · simp only [ringNext, onRing, RingQueue.closeCrq, if_neg few, RingQueue.btsTail,
                already, Bool.not_true, Option.map_some]
              rfl
            · have closed : crqIsClosed (setUnsafe q1.tail) = true := by
                rw [crqIsClosed_iff, setUnsafe_toNat]
                omega
              simp only [fillRank, closed, isOpen, if_true, Bool.false_eq_true, if_false]
              omega
  · refine .next (q1, .enqNext g) ?_ (.now (.again q1 g.tryClose rfl ?_))
    · simp only [ringNext, onRing, if_neg full, Option.map_some]
      rfl
    · have less : (q.tail - q.head).toNat < (ringSize pow).toNat := BitVec.not_le.mp full
      have next : (q1.tail - q1.head).toNat = (q.tail - q.head).toNat + 1 := by
        have shift : q1.tail - q1.head = q.tail - q.head + 1 := by
          show q.tail + 1 - q.head = _
          bv_omega
        have bound := (ringSize pow).isLt
        rw [shift, add_one_toNat _ (by omega)]
      simp only [fillRank, isOpen, Bool.false_eq_true, if_false]
      split <;> omega

theorem enq_ticket (q : RingQueue ℕ Word) (g : EnqFrame) :
    Inevitably (Follows (ringNext pow)) (AfterTicket pow q g) (q, .enqFaa g) := by
  let q1 : RingQueue ℕ Word := { q with tail := q.tail + 1 }
  cases isOpen : crqIsClosed q.tail with
  | true =>
      refine .next (q1, .enqAlloc g) ?_ (.now (.closed q1 g.tryClose rfl))
      simp only [ringNext, onRing, isOpen, if_true, Option.map_some]
      rfl
  | false =>
      have full := enq_full pow g isOpen
      generalize cell : q.array (cellOf pow q.tail) = c
      obtain ⟨val, idx⟩ := c
      have here : q1.array (cellOf pow q.tail) = ⟨val, idx⟩ := cell
      have store : Inevitably (Follows (ringNext pow)) (AfterTicket pow q g)
          (q1, .enqCas2 g q.tail idx) := by
        by_cases empty : val = EMPTY
        · subst empty
          refine .next (q1.setNode (cellOf pow q.tail) ⟨g.arg, q.tail⟩, .idle) ?_ (.now (.stored _))
          simp only [ringNext, onRing, RingQueue.cas2_succeeds here, Option.map_some]
        · refine .next (q1, .enqFull g q.tail) ?_ full
          have fails : q1.cas2 (cellOf pow q.tail) EMPTY idx g.arg q.tail = (false, q1) := by
            rw [RingQueue.cas2, here, if_neg fun same => empty same.1]
          simp only [ringNext, onRing, fails, Option.map_some]
      refine .next (q1, .enqIdx g q.tail) ?_ (.next (q1, .enqVal g q.tail idx) ?_ ?_)
      · simp only [ringNext, onRing, isOpen, Bool.false_eq_true, if_false, Option.map_some]
        rfl
      · simp only [ringNext, onRing, here, Option.map_some]
      · by_cases usable : isEmpty val = true ∧ nodeIndex idx ≤ q.tail
        · by_cases safe : nodeUnsafe idx = 0
          · refine .next (q1, .enqCas2 g q.tail idx) ?_ store
            simp only [ringNext, onRing, here, usable.1, if_true, if_pos usable.2, if_pos safe,
              Option.map_some]
          · refine .next (q1, .enqHead g q.tail idx) ?_ ?_
            · simp only [ringNext, onRing, here, usable.1, if_true, if_pos usable.2, if_neg safe,
                Option.map_some]
            · by_cases ahead : q1.head < q.tail
              · refine .next (q1, .enqCas2 g q.tail idx) ?_ store
                simp only [ringNext, onRing, if_pos ahead, Option.map_some]
              · refine .next (q1, .enqFull g q.tail) ?_ full
                simp only [ringNext, onRing, if_neg ahead, Option.map_some]
        · refine .next (q1, .enqFull g q.tail) ?_ full
          simp only [ringNext, onRing, here]
          split
          next isEmpty_ =>
            rw [if_neg fun fits => usable ⟨isEmpty_, fits⟩]
            rfl
          next => rfl

end Enq

end Ring

/-! ## In memory -/

section Memory

variable {T : Type} [DecidableEq T] {pow : ℕ} {e e' : Exec T} {p : T} {r : ℕ}

structure Exec.OnRing (e : Exec T) (p : T) (r : ℕ) (x : RingQueue ℕ Word × Pc) (e' : Exec T) :
    Prop where
  st : e'.st = (e.st.setRing r x.1).goto p x.2
  rq : x.2.rq = r ∨ x.2 = .idle

theorem ringNext_onRing {x y : RingQueue ℕ Word × Pc} (next : ringNext pow x = some y) :
    (∃ events, onRing pow x.1 x.2 = some (y.1, y.2, events)) ∧ (y.2.rq = x.2.rq ∨ y.2 = .idle) := by
  obtain ⟨q, pc⟩ := x
  unfold ringNext at next
  split at next
  next => cases next
  next => cases next
  next notEnq notDeq =>
    obtain ⟨⟨q', pc', events⟩, access, rfl⟩ := Option.map_eq_some_iff.mp next
    refine ⟨⟨events, access⟩, ?_⟩
    cases onRing_stays access with
    | here rq _ => exact Or.inl rq
    | hop reads _ _ =>
        cases pc with
        | enqNext f => exact absurd rfl (notEnq f)
        | deqNext f => exact absurd rfl (notDeq f)
        | _ => cases reads
    | back idle => exact Or.inr idle

theorem run_onRing {s : State T} {q : RingQueue ℕ Word} {pc : Pc} {events : List (Event Word)}
    (access : onRing pow (s.ring (s.pc p).rq) (s.pc p) = some (q, pc, events)) :
    run pow s p = some ((s.setRing (s.pc p).rq q).goto p pc, events) := by
  unfold run
  split
  case h_7 =>
    rw [access]
    rfl
  all_goals
    rename_i here
    rw [here] at access
    cases access

theorem Exec.OnRing.start (here : (e.st.pc p).rq = r) :
    e.OnRing p r (e.st.ring r, e.st.pc p) e := by
  refine ⟨?_, Or.inl here⟩
  simp only [State.goto, State.setRing, Function.update_eq_self]

theorem Exec.OnRing.pc {x : RingQueue ℕ Word × Pc} (on : e.OnRing p r x e') :
    e'.st.pc p = x.2 := by
  rw [on.st, State.goto_pc]

theorem Exec.OnRing.ring {x : RingQueue ℕ Word × Pc} (on : e.OnRing p r x e') :
    e'.st.ring r = x.1 := by
  rw [on.st]
  exact Function.update_self ..

theorem Exec.OnRing.other {x : RingQueue ℕ Word × Pc} (on : e.OnRing p r x e') {r' : ℕ}
    (other : r' ≠ r) : e'.st.ring r' = e.st.ring r' := by
  rw [on.st]
  exact Function.update_of_ne other ..

theorem Exec.OnRing.next {x y : RingQueue ℕ Word × Pc} (on : e.OnRing p r x e')
    (next : ringNext pow x = some y) :
    ∃ e'', e'.does pow p .run = some e'' ∧ e.OnRing p r y e'' := by
  obtain ⟨⟨events, access⟩, stays⟩ := ringNext_onRing next
  have here : x.2.rq = r := by
    refine on.rq.resolve_right fun isIdle => ?_
    rw [isIdle] at access
    cases access
  have taken : run pow e'.st p = some ((e'.st.setRing r y.1).goto p y.2, events) := by
    have rq : (e'.st.pc p).rq = r := by rw [on.pc, here]
    have found : onRing pow (e'.st.ring (e'.st.pc p).rq) (e'.st.pc p) =
        some (y.1, y.2, events) := by
      rw [rq, on.ring, on.pc]
      exact access
    rw [run_onRing found, rq]
  refine ⟨⟨(e'.st.setRing r y.1).goto p y.2, events ++ e'.log⟩, ?_, ?_, ?_⟩
  · simp only [Exec.does, step, taken, Option.map_some]
  · simp only [on.st, State.goto, State.setRing, Function.update_idem]
  · rw [← here]
    exact stays

theorem Exec.OnRing.inevitably {goal : RingQueue ℕ Word × Pc → Prop}
    {x : RingQueue ℕ Word × Pc} (run : Inevitably (Follows (ringNext pow)) goal x)
    (on : e.OnRing p r x e') :
    Inevitably (Follows (Exec.does pow p .run))
      (fun e'' => ∃ y, goal y ∧ e.OnRing p r y e'') e' := by
  refine (run.lift (e.OnRing p r) (fun _ => False) ?_ on).mono fun _ there => there.resolve_left id
  rintro x e' related ⟨y, next⟩
  obtain ⟨e'', taken, after⟩ := related.next next
  refine Or.inr ⟨⟨e'', taken⟩, fun e1 other => ⟨y, next, ?_⟩⟩
  rw [Option.some.inj (other.symm.trans taken)]
  exact after

/-! ## Along the rings -/

/-- Thread `p` has come to ring `a` since `e`; it changed no `next`, and nothing from
ring `a` on. -/
structure Exec.WalkedTo (e : Exec T) (rs : List ℕ) (a : ℕ) (e' : Exec T) : Prop where
  next : ∀ r, (e'.st.ring r).next = (e.st.ring r).next
  ring : ∀ r, r = a ∨ Older rs a r → e'.st.ring r = e.st.ring r

/-- Some ring holds an item whose ticket no dequeuer has drawn. -/
def Exec.Undrawn (pow : ℕ) (e : Exec T) (rs : List ℕ) : Prop :=
  ∃ r ∈ rs, ∃ h, (e.st.ring r).head ≤ h ∧ HasItem pow (e.st.ring r) h

/-- The call returns `EMPTY`, or something was there to be taken. -/
def Exec.DeqReturns (pow : ℕ) (e : Exec T) (rs : List ℕ) (p : T) (c : ℕ) (e' : Exec T) : Prop :=
  e'.st.pc p = .idle ∧ (.deqEmpty c ∈ e'.log ∨ e.Undrawn pow rs)

theorem does_deqNext_none {f : DeqFrame} (here : e.st.pc p = .deqNext f)
    (last : (e.st.ring f.head).next = none) :
    e.does pow p .run = some ⟨(e.st.setRing f.head (e.st.ring f.head)).goto p .idle,
      .deqEmpty f.call :: e.log⟩ := by
  simp only [Exec.does, step, run, here, Pc.rq, onRing, last, Option.map_some,
    List.singleton_append]

theorem does_deqNext_some {f : DeqFrame} {b : ℕ} (here : e.st.pc p = .deqNext f)
    (link : (e.st.ring f.head).next = some b) :
    e.does pow p .run =
      some ⟨(e.st.setRing f.head (e.st.ring f.head)).goto p (.deqFaa { f with head := b }),
        e.log⟩ := by
  simp only [Exec.does, step, run, here, Pc.rq, onRing, link, Option.map_some, List.nil_append]

theorem deq_walk {rs : List ℕ} (distinct : rs.Nodup)
    (linked : Linked (fun r => (e.st.ring r).next) none rs) :
    ∀ a ∈ rs, ∀ (e' : Exec T) (f : DeqFrame), e.WalkedTo rs a e' → e'.st.pc p = .deqFaa f →
      f.head = a →
      Inevitably (Follows (Exec.does pow p .run)) (e.DeqReturns pow rs p f.call) e' := by
  refine linked.induction (fun b newest => (nomatch newest)) ?_
  intro a member ih e' f walked here at_
  subst at_
  have start : e'.OnRing p f.head (e.st.ring f.head, .deqFaa f) e' := by
    have := Exec.OnRing.start (e := e') (p := p) (r := f.head) (by rw [here]; rfl)
    rwa [here, walked.ring f.head (Or.inl rfl)] at this
  refine (start.inevitably (deq_ring (e.st.ring f.head) f)).bind ?_
  rintro e1 ⟨⟨q, pc⟩, ⟨isIdle, h, free, item⟩ | ⟨isNext, sameNext⟩, on⟩
  · exact .now ⟨on.pc.trans isIdle, Or.inr ⟨f.head, member, h, free, item⟩⟩
  · have at1 : e1.st.pc p = .deqNext f := on.pc.trans isNext
    have link1 : (e1.st.ring f.head).next = (e.st.ring f.head).next := by
      rw [on.ring]
      exact sameNext
    cases link : (e.st.ring f.head).next with
    | none =>
        refine .next _ (does_deqNext_none at1 (link1.trans link)) (.now ⟨State.goto_pc .., ?_⟩)
        exact Or.inl List.mem_cons_self
    | some b =>
        have newer : Older rs f.head b ∧ ∀ c, Older rs c b → c = f.head ∨ Older rs c f.head :=
          (linked.next_some distinct member link).resolve_left fun newest => nomatch newest.1
        have same : ∀ r, (e1.st.setRing f.head (e1.st.ring f.head)).ring r = e1.st.ring r := by
          intro r
          simp only [State.setRing, Function.update_eq_self]
        refine .next _ (does_deqNext_some at1 (link1.trans link)) (ih b link _ { f with head := b }
          ⟨fun r => ?_, fun r later => ?_⟩ (State.goto_pc ..) rfl)
        · show ((e1.st.setRing f.head (e1.st.ring f.head)).ring r).next = _
          rw [same]
          by_cases here' : r = f.head
          · rw [here', link1]
          · rw [on.other here', walked.next]
        · show (e1.st.setRing f.head (e1.st.ring f.head)).ring r = _
          have after : Older rs f.head r := by
            rcases later with rfl | later
            · exact newer.1
            · exact newer.1.trans distinct later
          have other : r ≠ f.head := fun eq => Older.irrefl distinct (eq ▸ after)
          rw [same, on.other other, walked.ring r (Or.inr after)]

section Enq

variable {g : EnqFrame}

theorem alloc_alone (here : e.st.pc p = .enqAlloc g) (last : (e.st.ring g.tail).next = none)
    (own : ∀ n, e.st.nrq p = some n → n ≠ g.tail) (old : g.tail < e.st.fresh) :
    ∃ e' n, e.does pow p .run = some e' ∧ e'.st.pc p = .soloTail g n ∧ n ≠ g.tail ∧
      (e'.st.ring g.tail).next = none := by
  cases has : e.st.nrq p with
  | some n =>
      refine ⟨⟨e.st.goto p (.soloTail g n), e.log⟩, n, ?_, State.goto_pc .., own n has, last⟩
      simp only [Exec.does, step, run, here, has, Option.map_some, List.nil_append]
  | none =>
      have other : g.tail ≠ e.st.fresh := Nat.ne_of_lt old
      refine ⟨⟨(({ e.st with fresh := e.st.fresh + 1 }.setRing e.st.fresh
        (initRing EMPTY)).setNrq p (some e.st.fresh)).goto p (.soloTail g e.st.fresh), e.log⟩,
        e.st.fresh, ?_, State.goto_pc .., other.symm, ?_⟩
      · simp only [Exec.does, step, run, here, has, Option.map_some, List.nil_append]
      · show (Function.update e.st.ring e.st.fresh _ g.tail).next = none
        rw [Function.update_of_ne other, last]

theorem link_alone {n : ℕ} (here : e.st.pc p = .soloTail g n)
    (last : (e.st.ring g.tail).next = none) (apart : n ≠ g.tail) :
    Inevitably (Follows (Exec.does pow p .run)) (fun e' => e'.st.pc p = .idle) e := by
  -- a store to the new ring does not touch the one it will be linked to
  have keeps : ∀ {s : State T} {q : RingQueue ℕ Word} {pc : Pc}, (s.ring g.tail).next = none →
      (((s.setRing n q).goto p pc).ring g.tail).next = none := by
    intro s q pc last
    show (Function.update s.ring n q g.tail).next = none
    rw [Function.update_of_ne apart.symm, last]
  let s1 := (e.st.setRing n { e.st.ring n with tail := 1 }).goto p (.soloVal g n)
  let s2 := (s1.setRing n ((s1.ring n).setNode 0 { (s1.ring n).array 0 with val := g.arg })).goto p
    (.soloIdx g n)
  let s3 := (s2.setRing n ((s2.ring n).setNode 0 { (s2.ring n).array 0 with idx := 0 })).goto p
    (.enqLink g n)
  have at1 : s1.pc p = .soloVal g n := State.goto_pc ..
  have at2 : s2.pc p = .soloIdx g n := State.goto_pc ..
  have at3 : s3.pc p = .enqLink g n := State.goto_pc ..
  have last3 : (s3.ring g.tail).next = none := keeps (keeps (keeps last))
  let s4 := (s3.setRing g.tail { s3.ring g.tail with next := some n }).goto p (.enqSwing g n)
  have at4 : s4.pc p = .enqSwing g n := State.goto_pc ..
  let linked : List (Event Word) :=
    .enqItem g.call n 0 g.arg :: .enqDraw g.call n 0 :: .link g.tail n :: e.log
  refine .next ⟨s1, e.log⟩ ?_ (.next ⟨s2, e.log⟩ ?_ (.next ⟨s3, e.log⟩ ?_ (.next ⟨s4, linked⟩ ?_
    (.next ⟨(s4.setNrq p none).goto p .idle, .enqRet g.call :: linked⟩ ?_
      (.now (State.goto_pc ..))))))
  · simp only [Exec.does, step, run, here, Option.map_some, List.nil_append]
    rfl
  · simp only [Exec.does, step, run, at1, Option.map_some, List.nil_append]
    rfl
  · simp only [Exec.does, step, run, at2, Option.map_some, List.nil_append]
    rfl
  · simp only [Exec.does, step, run, at3, last3, Option.map_some]
    rfl
  · simp only [Exec.does, step, run, at4, Option.map_some]
    rfl

theorem does_enqNext_none (here : e.st.pc p = .enqNext g)
    (last : (e.st.ring g.tail).next = none) :
    e.does pow p .run =
      some ⟨(e.st.setRing g.tail (e.st.ring g.tail)).goto p (.enqFaa g), e.log⟩ := by
  simp only [Exec.does, step, run, here, Pc.rq, onRing, last, Option.map_some, List.nil_append]

theorem does_enqNext_some {b : ℕ} (here : e.st.pc p = .enqNext g)
    (link : (e.st.ring g.tail).next = some b) :
    e.does pow p .run =
      some ⟨(e.st.setRing g.tail (e.st.ring g.tail)).goto p (.enqNext { g with tail := b }),
        e.log⟩ := by
  simp only [Exec.does, step, run, here, Pc.rq, onRing, link, Option.map_some, List.nil_append]

theorem enq_last (here : e.st.pc p = .enqNext g) (last : (e.st.ring g.tail).next = none)
    (own : ∀ n, e.st.nrq p = some n → n ≠ g.tail) (old : g.tail < e.st.fresh) :
    Inevitably (Follows (Exec.does pow p .run)) (fun e' => e'.st.pc p = .idle) e := by
  generalize rank_ : fillRank pow (e.st.ring g.tail) = rank
  induction rank using Nat.strongRecOn generalizing e g with
  | _ rank ih =>
      let e1 : Exec T := ⟨(e.st.setRing g.tail (e.st.ring g.tail)).goto p (.enqFaa g), e.log⟩
      have at1 : e1.st.pc p = .enqFaa g := State.goto_pc ..
      have ring1 : e1.st.ring g.tail = e.st.ring g.tail := Function.update_self ..
      have start : e1.OnRing p g.tail (e.st.ring g.tail, .enqFaa g) e1 := by
        have start := Exec.OnRing.start (e := e1) (p := p) (r := g.tail) (by rw [at1]; rfl)
        rwa [at1, ring1] at start
      refine .next e1 (does_enqNext_none here last) ((start.inevitably
        (enq_ticket (e.st.ring g.tail) g)).bind ?_)
      rintro e2 ⟨y, after, on⟩
      have own2 : ∀ n, e2.st.nrq p = some n → n ≠ g.tail := by
        rw [on.st]
        exact own
      have old2 : g.tail < e2.st.fresh := by
        rw [on.st]
        exact old
      cases after with
      | stored q' => exact .now on.pc
      | closed q' tries sameNext =>
          have last2 : (e2.st.ring g.tail).next = none := by
            rw [on.ring]
            exact sameNext.trans last
          obtain ⟨e3, n, taken, at3, apart, last3⟩ := alloc_alone on.pc last2 own2 old2
          exact .next e3 taken (link_alone at3 last3 apart)
      | again q' tries sameNext less =>
          have last2 : (e2.st.ring g.tail).next = none := by
            rw [on.ring]
            exact sameNext.trans last
          refine ih (fillRank pow (e2.st.ring g.tail)) ?_ on.pc last2 own2 old2 rfl
          rw [on.ring, ← rank_]
          exact less

theorem enq_walk {rs : List ℕ} (linked : Linked (fun r => (e.st.ring r).next) none rs)
    (own : ∀ n, e.st.nrq p = some n → n ∉ rs) (old : ∀ r ∈ rs, r < e.st.fresh) :
    ∀ a ∈ rs, ∀ (e' : Exec T) (g : EnqFrame), e'.st.ring = e.st.ring → e'.st.nrq = e.st.nrq →
      e'.st.fresh = e.st.fresh → e'.st.pc p = .enqNext g → g.tail = a →
      Inevitably (Follows (Exec.does pow p .run)) (fun e'' => e''.st.pc p = .idle) e' := by
  refine linked.induction (fun b newest => (nomatch newest))
    fun a member ih e' g ring nrq fresh here at_ => ?_
  subst at_
  cases link : (e.st.ring g.tail).next with
  | none =>
      rw [← ring] at link
      refine enq_last here link (fun n has same => ?_) ?_
      · rw [nrq] at has
        exact own n has (same ▸ member)
      · rw [fresh]
        exact old g.tail member
  | some b =>
      have link' : (e'.st.ring g.tail).next = some b := by rw [ring, link]
      refine .next _ (does_enqNext_some here link') (ih b link _ { g with tail := b } ?_ nrq fresh
        (State.goto_pc ..) rfl)
      show Function.update e'.st.ring g.tail (e'.st.ring g.tail) = _
      rw [Function.update_eq_self, ring]

end Enq

/-- Every item is returned, or a dequeuer holds its ticket. -/
def Exec.NothingLeft (e : Exec T) : Prop :=
  ∀ c r t x, .enqItem c r t x ∈ e.log → e.Returned r t x ∨ e.Held r t

/-- No head has wrapped round: the tickets drawn lie below it. -/
def Exec.HeadsUnwrapped (e : Exec T) : Prop :=
  ∀ d r t, .deqDraw d r t ∈ e.log → t < (e.st.ring r).head.toNat

omit [DecidableEq T] in
theorem Exec.Traced.left_of_undrawn (traced : e.Traced) (unwrapped : e.HeadsUnwrapped)
    (undrawn : e.Undrawn pow (rings e.log)) : ¬ e.NothingLeft := by
  obtain ⟨r, member, h, free, full, index⟩ := undrawn
  have undrawn : ∀ d, .deqDraw d r h.toNat ∉ e.log := fun d draw =>
    absurd free (BitVec.not_le.mpr (unwrapped d r h.toNat draw))
  obtain ⟨c, item⟩ := traced.stored r member (cellOf pow h) full
  rw [index] at item
  intro nothing
  rcases nothing c r h.toNat _ item with ⟨d, _, draw, _⟩ | ⟨w, held⟩
  · exact undrawn d draw
  · obtain ⟨d, draw⟩ := traced.drawn w r h.toNat held
    exact undrawn d draw

/-- A `deq` that is called in a reachable state and runs alone returns, and returns
`EMPTY` if nothing is left and no head has wrapped round.  One call can wrap it: at tail
`0` the exit test's `tail_index(rq->tail) - 1` underflows. -/
theorem deq_alone (run : Reachable (machine pow) e) (idle : e.st.pc p = .idle) :
    ∃ called, e.does pow p .deq = some called ∧
      Inevitably (Follows (Exec.does pow p .run)) (fun e' => e'.st.pc p = .idle ∧
        (e.HeadsUnwrapped → e.NothingLeft → .deqEmpty e.st.calls ∈ e'.log)) called := by
  have shape := machine_shape run
  have traced := machine_traced run
  let called : Exec T :=
    ⟨{ e.st with calls := e.st.calls + 1 }.goto p (.deqFaa ⟨e.st.calls, e.st.head⟩),
      .deqCall e.st.calls :: e.log⟩
  refine ⟨called, ?_, ?_⟩
  · simp only [Exec.does, step, idle, Option.map_some, List.singleton_append]
    rfl
  · refine (deq_walk shape.distinct shape.layout.linked e.st.head ?_ called
      ⟨e.st.calls, e.st.head⟩ ⟨fun _ => rfl, fun _ _ => rfl⟩ (State.goto_pc ..) rfl).mono ?_
    · rw [shape.layout.entry.1]
      exact shape.zero_mem
    · rintro e' ⟨returned, result⟩
      exact ⟨returned, fun unwrapped nothing => result.resolve_right fun undrawn =>
        traced.left_of_undrawn unwrapped undrawn nothing⟩

end Memory

/-- The `deq` right after `init_queue`, which draws every ticket up to `2^64 - 1`: with
`tail` at `0` the test `tail_index(rq->tail) - 1 <= h` wraps round. -/
theorem deq_alone_after_init : ∃ called, (Exec.init : Exec Bool).does 1 true .deq = some called ∧
    Inevitably (Follows (Exec.does 1 true .run))
      (fun e' => e'.st.pc true = .idle ∧ .deqEmpty 0 ∈ e'.log) called := by
  have start : Reachable (machine 1) (Exec.init : Exec Bool) := .init rfl
  obtain ⟨called, taken, alone⟩ := deq_alone (p := true) start rfl
  refine ⟨called, taken, alone.mono fun e' returned => ⟨returned.1, returned.2 ?_ ?_⟩⟩
  · exact fun d r t draw => absurd draw List.not_mem_nil
  · exact fun c r t x item => absurd item List.not_mem_nil

/-! ## When the head has wrapped round -/

section Quiet

variable {T : Type} [DecidableEq T] {pow : ℕ} {e e' : Exec T} {p : T} {c : ℕ}

/-- Nothing was ever stored, and thread `p` is in call `c` of `deq`, the only one that
may have returned `EMPTY`, or has returned from it. -/
structure Exec.NothingStored (e : Exec T) (p : T) (c : ℕ) : Prop where
  items : ∀ c r t x, .enqItem c r t x ∉ e.log
  empties : ∀ d, .deqEmpty d ∈ e.log → d = c
  phase : (e.st.pc p).phase = .deq c ∨ e.st.pc p = .idle

theorem does_idle (idle : e.st.pc p = .idle) : e.does pow p .run = none := by
  simp only [Exec.does, step, run, idle, onRing, Option.map_none]

theorem Exec.NothingStored.next (quiet : e.NothingStored p c)
    (taken : e.does pow p .run = some e') : e'.NothingStored p c := by
  have phase : (e.st.pc p).phase = .deq c := quiet.phase.resolve_right fun idle => by
    rw [does_idle idle] at taken
    cases taken
  cases does_goes taken with
  | access q pc events access =>
      have noItem : ∀ c r t x, .enqItem c r t x ∉ events := by
        intro d r t x item
        generalize here : e.st.pc p = pc0 at access phase
        cases onRing_updates access with
        | reads _ _ _ minor => exact minor _ item
        | drawsTail _ _ _ minor => exact minor _ item
        | stores => cases phase
        | drawsHead | closes | raises | takes | marks | skips => simp at item
      refine ⟨fun d r t x item => ?_, fun d empty => ?_, ?_⟩
      · exact (List.mem_append.mp item).elim (noItem d r t x) (quiet.items d r t x)
      · rcases List.mem_append.mp empty with new | old
        · obtain ⟨f, here, isCall, _⟩ := onRing_empty access new
          rw [here] at phase
          cases phase
          exact isCall.symm
        · exact quiet.empties d old
      · rw [Exec.accessed_pc]
        cases onRing_stays access with
        | here _ same | hop _ _ same => exact Or.inl (same.trans phase)
        | back idle => exact Or.inr idle
  | callEnq arg here | callDeq here | reuse f n here | alloc f here | soloTail f n here
  | soloVal f n here | soloIdx f n here | link f n here | lost f n m here | swing f n here =>
      rw [here] at phase
      cases phase

theorem plays_log (schedule : List (T × Act)) (s : State T) (new old : List (Event Word)) :
    Exec.plays pow ⟨s, new ++ old⟩ schedule =
      (Exec.plays pow ⟨s, new⟩ schedule).map fun e => ⟨e.st, e.log ++ old⟩ := by
  induction schedule generalizing s new with
  | nil => rfl
  | cons a rest ih =>
      simp only [Exec.plays, runSchedule, Exec.does] at ih ⊢
      cases step pow s a.1 a.2 with
      | none => rfl
      | some result =>
          obtain ⟨s', events⟩ := result
          simp only [Option.map_some, Option.bind_some, ← List.append_assoc]
          exact ih s' (events ++ new)

theorem plays_any {schedule : List (T × Act)} {s : State T} {P : Exec T → Bool}
    (found : (Exec.plays pow ⟨s, []⟩ schedule).any P = true) (old : List (Event Word)) :
    ∃ e, P e = true ∧ Exec.plays pow ⟨s, old⟩ schedule = some ⟨e.st, e.log ++ old⟩ := by
  have same : Exec.plays pow ⟨s, old⟩ schedule =
      (Exec.plays pow ⟨s, []⟩ schedule).map fun e => ⟨e.st, e.log ++ old⟩ :=
    plays_log schedule s [] old
  cases done : Exec.plays pow ⟨s, []⟩ schedule with
  | none =>
      rw [done] at found
      cases found
  | some e =>
      rw [done] at found same
      exact ⟨e, found, same⟩

theorem plays_path {n : ℕ} (done : e.plays pow (List.replicate n (p, .run)) = some e') :
    Relation.ReflTransGen (Follows (Exec.does pow p .run)) e e' := by
  induction n generalizing e with
  | zero =>
      cases done
      exact .refl
  | succ n ih =>
      simp only [List.replicate_succ, Exec.plays, runSchedule] at done
      obtain ⟨middle, first, later⟩ := Option.bind_eq_some_iff.mp done
      exact .head first (ih later)

theorem machine_alone (run : Reachable (machine pow) e)
    (steps : Relation.ReflTransGen (Follows (Exec.does pow p .run)) e e') :
    Reachable (machine pow) e' := by
  induction steps with
  | refl => exact run
  | tail _ taken ih => exact .step ih ⟨p, .run, taken⟩

end Quiet

/-- With one cell to a ring: threads `0` and `1` draw head tickets `0` and `1` and
stop, and thread `2` calls `deq`. -/
def twoStop : List (Fin 3 × Act) := [(0, .deq), (0, .run), (1, .deq), (1, .run), (2, .deq)]

def stopped : Exec (Fin 3) := (Exec.init.plays 0 twoStop).getD Exec.init

/-- Thread `2` has drawn all other tickets and returned. -/
def wrapped : State (Fin 3) := (stopped.st.setRing 0 (spentRing 0 (1#64 <<< 63))).goto 2 .idle

theorem stopped_reachable : Reachable (machine 0) stopped := by
  have start : Reachable (machine 0) (Exec.init : Exec (Fin 3)) := .init rfl
  have done : Exec.init.plays 0 twoStop = some stopped := rfl
  exact machine_plays start done

theorem stopped_ring : stopped.st.ring 0 = spentRing 2 0 := by
  have cell : (⟨EMPTY, 0⟩ : RingNode Word) = (initRing EMPTY : RingQueue ℕ Word).array 0 := rfl
  have ring : stopped.st.ring 0 = { initRing EMPTY with head := 2 } := rfl
  rw [ring]
  simp only [spentRing, RingQueue.setNode, cell, Function.update_eq_self]

theorem stopped_quiet : stopped.NothingStored 2 2 := by
  have log : stopped.log =
    [.deqCall 2, .deqDraw 1 0 1, .deqCall 1, .deqDraw 0 0 0, .deqCall 0] := rfl
  refine ⟨?_, ?_, Or.inl rfl⟩
  · rw [log]
    simp
  · rw [log]
    simp

theorem wrapped_reachable :
    ∃ log, Reachable (machine 0) ⟨wrapped, log⟩ ∧ Exec.NothingStored ⟨wrapped, log⟩ 2 2 := by
  have start : stopped.OnRing 2 0 (spentRing 2 0, .deqFaa ⟨2, 0⟩) stopped := by
    have start := Exec.OnRing.start (e := stopped) (p := 2) (r := 0) rfl
    rwa [stopped_ring] at start
  have spent : Spent 2 0 := ⟨fun _ => Nat.zero_le _, fun above => absurd above (by decide)⟩
  have keeps : ∀ e e' : Exec (Fin 3), e.NothingStored 2 2 → Follows (Exec.does 0 2 .run) e e' →
      e'.NothingStored 2 2 := fun _ _ quiet taken => quiet.next taken
  obtain ⟨e, ⟨⟨_, rfl, on⟩, quiet⟩, steps⟩ :=
    ((start.inevitably (deq_wraps ⟨2, 0⟩ 2 0 spent)).keeping keeps stopped_quiet).path
  have last : (e.st.ring 0).next = none := by
    rw [on.ring]
    rfl
  have taken : e.does 0 2 .run = some _ := does_deqNext_none on.pc last
  have run := machine_alone stopped_reachable steps
  have st : (e.st.setRing 0 (e.st.ring 0)).goto 2 .idle = wrapped := by
    simp only [on.st, wrapped, State.goto, State.setRing, Function.update_idem, Function.update_self]
  refine ⟨.deqEmpty 2 :: e.log, ?_, ?_⟩
  · rw [← st]
    exact .step run ⟨2, .run, taken⟩
  · rw [← st]
    exact quiet.next taken

/-- Thread `2` enqueues `7`, under the ticket that thread `1` holds. -/
def enqueueSeven : List (Fin 3 × Act) := (2, .enq 7) :: List.replicate 12 (2, .run)

def dequeueAgain : List (Fin 3 × Act) := (2, .deq) :: List.replicate 8 (2, .run)

def storedHeld (e : Exec (Fin 3)) : Bool :=
  decide ((e.st.pc 2).phase.call = none ∧ e.st.calls = 4 ∧ (e.st.pc 1).holds = some (0, 1) ∧
    e.log = [.enqRet 3, .enqItem 3 0 1 7, .enqDraw 3 0 1, .enqDraw 3 0 0, .enqCall 3 7])

def tookSeven (e : Exec (Fin 3)) : Bool :=
  decide ((e.st.pc 2).phase.call = none ∧ e.log = [.deqRet 4 0 1 7, .deqItem 4 0 1 7,
    .deqDraw 4 0 1, .deqLeft 4 0 0, .deqDraw 4 0 0, .deqCall 4])

/-- Thread `2` takes the item although thread `1` holds its ticket.  The head wraps round
within one call, as `tail_index(rq->tail) - 1` does at `0`; `LCRQueue.hpp` adds `1` on the
other side of the test instead. -/
theorem deq_takes_held : ¬ ∀ (e : Exec (Fin 3)) (p : Fin 3), Reachable (machine 0) e →
    e.st.pc p = .idle → ∃ called, e.does 0 p .deq = some called ∧
      Inevitably (Follows (Exec.does 0 p .run)) (fun e' => e'.st.pc p = .idle ∧
        (e.NothingLeft → .deqEmpty e.st.calls ∈ e'.log)) called := by
  intro alone
  obtain ⟨old, run, quiet⟩ := wrapped_reachable
  have found : (Exec.plays 0 ⟨wrapped, []⟩ enqueueSeven).any (fun e =>
      storedHeld e && (Exec.plays 0 ⟨e.st, []⟩ dequeueAgain).any tookSeven) = true := by
    decide +kernel
  obtain ⟨e, found, enqueued⟩ := plays_any found old
  obtain ⟨stored, found⟩ := (Bool.and_eq_true _ _).mp found
  obtain ⟨idle, calls, held, log⟩ := of_decide_eq_true stored
  obtain ⟨e', taken, dequeued⟩ := plays_any found (e.log ++ old)
  obtain ⟨idle', took⟩ := of_decide_eq_true taken
  obtain ⟨called, calls_, comes⟩ := alone _ 2 (machine_plays run enqueued) (Pc.eq_idle idle)
  obtain ⟨called', first, later⟩ := Option.bind_eq_some_iff.mp dequeued
  cases calls_.symm.trans first
  obtain ⟨_, empty⟩ := comes.at_end (fun t there => Follows.ended (does_idle there.1))
    (plays_path later) (Follows.ended (does_idle (Pc.eq_idle idle')))
  have nothing : Exec.NothingLeft ⟨e.st, e.log ++ old⟩ := by
    intro c r t x item
    rcases List.mem_append.mp item with new | before
    · rw [log] at new
      simp only [List.mem_cons, reduceCtorEq, Event.enqItem.injEq, List.not_mem_nil, or_false,
        false_or] at new
      obtain ⟨-, rfl, rfl, -⟩ := new
      exact Or.inr ⟨1, held⟩
    · exact absurd before (quiet.items c r t x)
  have member : .deqEmpty e.st.calls ∈ e'.log ++ (e.log ++ old) := empty nothing
  rw [calls, log, took] at member
  rcases List.mem_append.mp member with new | before
  · simp at new
  · have before := (List.mem_append.mp before).resolve_left (by simp)
    exact absurd (quiet.empties 4 before) (by decide)

end Elcrq.C
