import Elcrq.C.Machine
import Elcrq.Concurrent.Linked

/-! # The machine of `ELCRQ.h` refines the list of ticket rings

`Pc.place` says what a thread's next access means for the queue.  `onRing_accessed`
is the one case analysis of the accesses to a ring; from it and the few accesses
outside `onRing`, `Inv` holds in every reachable state and every step of the
machine is a sequence of steps of the queue. -/

set_option autoImplicit false

namespace Elcrq.C

open Concurrent Concurrent.TicketRing Concurrent.RingList

def itemOf (v : Word) : Option Word := if v = EMPTY then none else some v

theorem itemOf_empty : itemOf EMPTY = none := if_pos rfl

theorem itemOf_some {v : Word} (isItem : v ≠ EMPTY) : itemOf v = some v := if_neg isItem

theorem itemOf_eq_some {v x : Word} (eq : itemOf v = some x) : v = x ∧ v ≠ EMPTY := by
  unfold itemOf at eq
  split at eq
  next => cases eq
  next isItem => exact ⟨Option.some.inj eq, isItem⟩

def Pc.view : Pc → View
  | .enqIdx _ t => .enq t.toNat .start
  | .enqVal _ t idx => .enq t.toNat (seenIdx idx)
  | .enqHead _ t idx => .enq t.toNat (.fits (nodeIndex idx).toNat)
  | .enqCas2 _ t idx => .enq t.toNat (readyIdx idx)
  | .deqIdx _ h _ _ => .deq h.toNat .start
  | .deqVal _ h _ _ cellIdx => .deq h.toNat (.seen (nodeIndex cellIdx).toNat)
  | .deqTail _ h _ cellIdx | .deqTake _ h _ _ cellIdx _ | .deqMark _ h _ _ cellIdx _
  | .deqSkipUnsafe _ h _ _ cellIdx | .deqSkip _ h _ _ cellIdx =>
      .deq h.toNat (.fits (nodeIndex cellIdx).toNat)
  | _ => .out

def Pc.phase : Pc → Phase Word
  | .idle => .idle
  | .enqSwing f _ => .enqDone f.call
  | .enqNext f | .enqFaa f | .enqAlloc f | .soloTail f _ | .soloVal f _ | .soloIdx f _
  | .enqLink f _ | .enqIdx f _ | .enqVal f _ _ | .enqHead f _ _ | .enqCas2 f _ _
  | .enqFull f _ | .enqClose f _ => .enq f.call f.arg
  | .deqFaa f | .deqIdx f _ _ _ | .deqVal f _ _ _ _ | .deqTail f _ _ _ | .deqTake f _ _ _ _ _
  | .deqMark f _ _ _ _ _ | .deqSkipUnsafe f _ _ _ _ | .deqSkip f _ _ _ _ | .deqExit f _
  | .fixTail f | .fixHead f _ | .fixCheck f _ _ | .fixCas f _ _ | .deqNext f => .deq f.call

def Pc.place (pc : Pc) : Place Word := ⟨pc.rq, pc.view, pc.phase⟩

/-- What holds of a thread's locals, given the ring `ρ` it works on. -/
def Pc.Ok (pow : ℕ) (ρ : CellRing Word) : Pc → Prop
  | .enqNext f | .enqFaa f | .enqFull f _ | .enqClose f _ => f.arg ≠ EMPTY
  | .enqAlloc f | .soloTail f _ | .soloVal f _ | .soloIdx f _ | .enqLink f _ =>
      f.arg ≠ EMPTY ∧ ρ.closed = true
  | .enqIdx f t | .enqVal f t _ | .enqCas2 f t _ => f.arg ≠ EMPTY ∧ t.toNat < 2 ^ 63
  | .enqHead f t idx => f.arg ≠ EMPTY ∧ t.toNat < 2 ^ 63 ∧ nodeUnsafe idx ≠ 0
  | .deqIdx _ h _ _ | .deqVal _ h _ _ _ | .deqTail _ h _ _ | .deqSkipUnsafe _ h _ _ _ =>
      h.toNat + 2 ^ pow < 2 ^ 63 ∧ h.toNat < ρ.head
  | .deqTake _ h _ _ cellIdx val =>
      (h.toNat + 2 ^ pow < 2 ^ 63 ∧ h.toNat < ρ.head) ∧ nodeIndex cellIdx = h ∧ val ≠ EMPTY
  | .deqMark _ h _ _ cellIdx val =>
      (h.toNat + 2 ^ pow < 2 ^ 63 ∧ h.toNat < ρ.head) ∧ nodeIndex cellIdx ≠ h ∧ val ≠ EMPTY
  | .deqSkip _ h _ _ idx =>
      (h.toNat + 2 ^ pow < 2 ^ 63 ∧ h.toNat < ρ.head) ∧ nodeUnsafe idx = 0
  | .deqExit _ h => h.toNat < ρ.head
  | .fixCheck _ _ h => h.toNat < 2 ^ 63
  | .fixCas _ t h => t < h ∧ h.toNat < 2 ^ 63
  | _ => True

theorem Pc.Ok.mono {pow : ℕ} {ρ ρ' : CellRing Word} {pc : Pc}
    (closed : ρ.closed = true → ρ'.closed = true) (head : ρ.head ≤ ρ'.head)
    (ok : pc.Ok pow ρ) : pc.Ok pow ρ' := by
  cases pc <;> first
    | exact ok
    | exact ⟨ok.1, closed ok.2⟩
    | exact ⟨ok.1, ok.2.trans_le head⟩
    | exact ⟨⟨ok.1.1, ok.1.2.trans_le head⟩, ok.2⟩
    | exact Nat.lt_of_lt_of_le ok head

/-- What an access to the ring means for the queue. -/
inductive Effect (pow : ℕ) (q : RingQueue ℕ Word) (pc : Pc) (q' : RingQueue ℕ Word) (pc' : Pc)
    (events : List (Event Word)) : Prop
  | stay : q'.abs pow itemOf = q.abs pow itemOf → pc'.phase = pc.phase → pc'.view = pc.view →
      (pc'.rq = pc.rq ∨ pc.view = .out) → events = [] → Effect pow q pc q' pc' events
  | move (m : Option (Mark Word)) (c : ℕ) :
      Move (2 ^ pow) (q.abs pow itemOf) pc.view m (q'.abs pow itemOf) pc'.view →
      Acts pc.rq m c pc.phase pc'.phase → pc'.rq = pc.rq → events = eventOf c pc.rq m →
      Effect pow q pc q' pc' events
  | stored (c t : ℕ) (x : Word) :
      Move (2 ^ pow) (q.abs pow itemOf) pc.view (some (.put t x)) (q'.abs pow itemOf) .out →
      pc.phase = .enq c x → pc' = .idle → events = [.enqRet c, .enqItem c pc.rq t x] →
      Effect pow q pc q' pc' events
  | taken (c h : ℕ) (x : Word) :
      Move (2 ^ pow) (q.abs pow itemOf) pc.view (some (.took h x)) (q'.abs pow itemOf) .out →
      pc.phase = .deq c → pc' = .idle →
      events = [.deqRet c pc.rq h x, .deqItem c pc.rq h x] → Effect pow q pc q' pc' events
  | empty (c : ℕ) : q' = q → pc.phase = .deq c → pc.view = .out → pc' = .idle →
      events = [.deqEmpty c] → Effect pow q pc q' pc' events

/-- Where a thread stands after an access to ring `q`. -/
inductive Onward (pow : ℕ) (q : RingQueue ℕ Word) (pc : Pc) (q' : RingQueue ℕ Word) (pc' : Pc) :
    Prop
  | here : pc'.rq = pc.rq → pc'.Ok pow (q'.abs pow itemOf) → Onward pow q pc q' pc'
  | next : q.next = some pc'.rq → (∀ ρ, pc'.Ok pow ρ) → Onward pow q pc q' pc'
  | done : pc' = .idle → Onward pow q pc q' pc'

section Accesses

variable {pow : ℕ} {q q' : RingQueue ℕ Word} {pc pc' : Pc} {events : List (Event Word)}

/-- What holds after an access to a ring. -/
structure Accessed (pow : ℕ) (q : RingQueue ℕ Word) (pc : Pc) (q' : RingQueue ℕ Word) (pc' : Pc)
    (events : List (Event Word)) : Prop where
  effect : Effect pow q pc q' pc' events
  onward : Onward pow q pc q' pc'
  next : q'.next = q.next

theorem Accessed.quiet {v : View} {p : Phase Word} (move : Move (2 ^ pow) (q.abs pow itemOf)
    pc.view none (q.abs pow itemOf) v) (rq : pc'.rq = pc.rq) (view : pc'.view = v)
    (phase : pc.phase = p) (phase' : pc'.phase = p) (ok : pc'.Ok pow (q.abs pow itemOf)) :
    Accessed pow q pc q pc' [] := by
  refine ⟨.move none 0 (by rw [view]; exact move) ?_ rq rfl, .here rq ok, rfl⟩
  rw [phase, phase']
  exact .quiet

theorem Accessed.stay (rq : pc'.rq = pc.rq) (view : pc'.view = pc.view)
    (phase : pc'.phase = pc.phase) (ok : pc'.Ok pow (q.abs pow itemOf)) :
    Accessed pow q pc q pc' [] :=
  ⟨.stay rfl phase view (Or.inl rq) rfl, .here rq ok, rfl⟩

theorem Accessed.retry {f : DeqFrame} {h tt : Word} {r : ℕ} {stage : DeqStage}
    (rq : pc.rq = f.head) (phase : pc.phase = .deq f.call) (view : pc.view = .deq h.toNat stage)
    (ok : h.toNat + 2 ^ pow < 2 ^ 63 ∧ h.toNat < (q.abs pow itemOf).head) :
    Accessed pow q pc q (.deqIdx f h tt r) [] := by
  refine Accessed.quiet (v := .deq h.toNat .start) ?_ rq.symm rfl phase rfl ok
  rw [view]
  exact Move.deqBack

/-- A dequeuer at an empty cell goes for its `CAS2` or starts over.  It comes here
with the tail it has just read, or straight from its cell. -/
theorem atEmptyCell_accessed {f : DeqFrame} {h tt : Word} {r : ℕ} {cellIdx : Word}
    {stage : DeqStage} (rq : pc.rq = f.head) (phase : pc.phase = .deq f.call)
    (view : pc.view = .deq h.toNat stage)
    (fits : stage = .fits (nodeIndex cellIdx).toNat ∨
      (stage = .seen (nodeIndex cellIdx).toNat ∧ (nodeIndex cellIdx).toNat ≤ h.toNat))
    (ok : h.toNat + 2 ^ pow < 2 ^ 63 ∧ h.toNat < (q.abs pow itemOf).head) :
    Accessed pow q pc q (atEmptyCell f h tt r cellIdx) [] := by
  have toFits : ∀ pc' : Pc, pc'.rq = f.head → pc'.phase = .deq f.call →
      pc'.view = .deq h.toNat (.fits (nodeIndex cellIdx).toNat) →
      pc'.Ok pow (q.abs pow itemOf) → Accessed pow q pc q pc' [] := by
    intro pc' rq' phase' view' ok'
    rcases fits with rfl | ⟨rfl, below⟩
    · exact Accessed.stay (rq'.trans rq.symm) (view'.trans view.symm) (phase'.trans phase.symm) ok'
    · refine Accessed.quiet ?_ (rq'.trans rq.symm) view' phase phase' ok'
      rw [view]
      exact Move.deqFits below
  unfold atEmptyCell
  split
  next => exact toFits _ rfl rfl rfl ok
  next safe =>
    split
    next =>
      refine toFits _ rfl rfl ?_ ⟨ok, nodeUnsafe_nodeIndex _⟩
      rw [Pc.view, nodeIndex_nodeIndex]
    next => exact Accessed.retry rq phase view ok

theorem Accessed.gaveUp {f : DeqFrame} {h : Word} (rq : pc.rq = f.head)
    (phase : pc.phase = .deq f.call)
    (move : Move (2 ^ pow) (q.abs pow itemOf) pc.view (some (.gaveUp h.toNat))
      (q'.abs pow itemOf) .out)
    (drawn : h.toNat < (q.abs pow itemOf).head) (next : q'.next = q.next) :
    Accessed pow q pc q' (.deqExit f h) [.deqLeft f.call f.head h.toNat] := by
  refine ⟨.move (some (.gaveUp h.toNat)) f.call move ?_ rq.symm ?_, .here rq.symm ?_, next⟩
  · rw [phase]
    exact .gaveUp
  · rw [rq]
    rfl
  · exact drawn.trans_le move.head_le

/-- One access to `rq`, by cases on where the thread stands. -/
theorem onRing_accessed (small : pow < 63) (roomHead : q.head.toNat + 2 ^ pow < 2 ^ 63)
    (roomTail : (tailIndex q.tail).toNat + 1 < 2 ^ 63) (ok : pc.Ok pow (q.abs pow itemOf))
    (access : onRing pow q pc = some (q', pc', events)) :
    Accessed pow q pc q' pc' events := by
  have cell := cellOf_eq small
  have pos := Nat.two_pow_pos pow
  cases pc with
  | idle | enqAlloc | soloTail | soloVal | soloIdx | enqLink | enqSwing =>
      cases access
  | enqNext f =>
      simp only [onRing] at access
      split at access
      next n link =>
        cases access
        exact ⟨.stay rfl rfl rfl (Or.inr rfl) rfl, .next link fun _ => ok, rfl⟩
      next =>
        cases access
        exact Accessed.stay rfl rfl rfl ok
  | enqFaa f =>
      simp only [onRing] at access
      split at access
      next closed =>
        cases access
        have move := RingQueue.move_bumpTail pow itemOf closed roomTail
        exact ⟨.move none 0 move .quiet rfl rfl, .here rfl ⟨ok, move.stays_closed closed⟩, rfl⟩
      next isOpen =>
        cases access
        have isOpen : crqIsClosed q.tail = false := Bool.not_eq_true _ ▸ isOpen
        have move := RingQueue.move_drawTail pow itemOf isOpen roomTail
        exact ⟨.move _ f.call move .drew rfl rfl,
          .here rfl ⟨ok, (crqIsClosed_false_iff _).mp isOpen⟩, rfl⟩
  | enqIdx f t =>
      cases access
      rw [cell]
      exact Accessed.quiet RingQueue.move_enqLook rfl rfl rfl rfl ok
  | enqVal f t idx =>
      have drop : Accessed pow q (.enqVal f t idx) q (.enqFull f t) [] :=
        Accessed.quiet Move.enqDrop rfl rfl rfl rfl ok.1
      simp only [onRing] at access
      split at access
      next =>
        split at access
        next fits =>
          split at access
          next safe =>
            cases access
            exact Accessed.quiet (RingQueue.move_enqReady fits safe) rfl rfl rfl rfl ok
          next flagged =>
            cases access
            exact Accessed.quiet (RingQueue.move_enqFits fits flagged) rfl rfl rfl rfl
              ⟨ok.1, ok.2, flagged⟩
        next =>
          cases access
          exact drop
      next =>
        cases access
        exact drop
  | enqHead f t idx =>
      simp only [onRing] at access
      split at access
      next ahead =>
        cases access
        exact Accessed.quiet (RingQueue.move_enqAhead ahead ok.2.2) rfl rfl rfl rfl ⟨ok.1, ok.2.1⟩
      next =>
        cases access
        exact Accessed.quiet Move.enqDrop rfl rfl rfl rfl ok.1
  | enqCas2 f t idx =>
      simp only [onRing] at access
      rcases q.cas2_cases (cellOf pow t) EMPTY idx f.arg t with failed | ⟨here, done⟩
      · rw [failed] at access
        cases access
        exact Accessed.quiet Move.enqDrop rfl rfl rfl rfl ok.1
      · rw [done] at access
        cases access
        rw [cell] at here ⊢
        exact ⟨.stored f.call t.toNat f.arg
          (RingQueue.move_put ok.2 here itemOf_empty (itemOf_some ok.1)) rfl rfl rfl, .done rfl, rfl⟩
  | enqFull f t =>
      simp only [onRing] at access
      split at access
      next =>
        cases access
        exact Accessed.stay rfl rfl rfl ok
      next =>
        cases access
        exact Accessed.stay rfl rfl rfl ok
  | enqClose f t =>
      simp only [onRing] at access
      rcases q.closeCrq_cases t f.tryClose with failed | tail
      · rw [failed] at access
        cases access
        exact Accessed.stay rfl rfl rfl ok
      · have move := RingQueue.move_close pow itemOf (q := q) (v := .out)
        split at access
        next q'' done =>
          cases access
          rw [done] at tail
          subst tail
          refine ⟨.move none 0 move .quiet rfl rfl, .here rfl ⟨ok, ?_⟩, rfl⟩
          exact (crqIsClosed_iff _).mpr (by rw [setUnsafe_toNat]; omega)
        next q'' done =>
          cases access
          rw [done] at tail
          subst tail
          exact ⟨.move none 0 move .quiet rfl rfl, .here rfl ok, rfl⟩
  | deqFaa f =>
      cases access
      have move := RingQueue.move_drawHead pow itemOf (q := q) (by omega)
      exact ⟨.move _ f.call move .drewHead rfl rfl,
        .here rfl ⟨roomHead, by rw [move.of_drewHead.2.1]; exact Nat.lt_succ_self _⟩, rfl⟩
  | deqIdx f h tt r =>
      cases access
      rw [cell]
      exact Accessed.quiet RingQueue.move_deqLook rfl rfl rfl rfl ok
  | deqVal f h tt r cellIdx =>
      simp only [onRing] at access
      split at access
      next behind =>
        cases access
        exact Accessed.gaveUp rfl rfl (Move.giveUp behind) ok.2 rfl
      next fits =>
        have fits : (nodeIndex cellIdx).toNat ≤ h.toNat := not_lt.mp fits
        have look : Move (2 ^ pow) (q.abs pow itemOf) (Pc.deqVal f h tt r cellIdx).view none
            (q.abs pow itemOf) (.deq h.toNat (.fits (nodeIndex cellIdx).toNat)) := Move.deqFits fits
        split at access
        next =>
          split at access
          next =>
            cases access
            exact Accessed.quiet look rfl rfl rfl rfl ok
          next =>
            cases access
            exact atEmptyCell_accessed rfl rfl rfl (Or.inr ⟨rfl, fits⟩) ok
        next full =>
          have isItem : (q.array (cellOf pow h)).val ≠ EMPTY := fun isEmpty' =>
            full (by rw [isEmpty']; rfl)
          split at access
          next index =>
            cases access
            exact Accessed.quiet look rfl rfl rfl rfl ⟨ok, index, isItem⟩
          next other =>
            cases access
            exact Accessed.quiet look rfl rfl rfl rfl ⟨ok, other, isItem⟩
  | deqTail f h r cellIdx =>
      cases access
      exact atEmptyCell_accessed rfl rfl rfl (Or.inl rfl) ok
  | deqTake f h tt r cellIdx val =>
      obtain ⟨ok, index, isItem⟩ := ok
      simp only [onRing] at access
      rcases q.cas2_cases (cellOf pow h) val cellIdx EMPTY (nodeUnsafe cellIdx ||| (h + ringSize pow))
        with failed | ⟨here, done⟩
      · rw [failed] at access
        cases access
        exact Accessed.retry rfl rfl rfl ok
      · rw [done] at access
        cases access
        rw [cell] at here ⊢
        exact ⟨.taken f.call h.toNat val
          (RingQueue.move_take ok.1 here index itemOf_empty (itemOf_some isItem)) rfl rfl rfl,
          .done rfl, rfl⟩
  | deqMark f h tt r cellIdx val =>
      obtain ⟨ok, other, isItem⟩ := ok
      simp only [onRing] at access
      rcases q.cas2_cases (cellOf pow h) val cellIdx val (setUnsafe (nodeIndex cellIdx))
        with failed | ⟨here, done⟩
      · rw [failed] at access
        cases access
        exact Accessed.retry rfl rfl rfl ok
      · rw [done] at access
        cases access
        rw [cell] at here ⊢
        exact Accessed.gaveUp rfl rfl (RingQueue.move_flag here other (itemOf_some isItem)) ok.2 rfl
  | deqSkipUnsafe f h tt r cellIdx =>
      simp only [onRing] at access
      rcases q.cas2_cases (cellOf pow h) EMPTY cellIdx EMPTY
        (nodeUnsafe cellIdx ||| (h + ringSize pow)) with failed | ⟨here, done⟩
      · rw [failed] at access
        cases access
        exact Accessed.retry rfl rfl rfl ok
      · rw [done] at access
        cases access
        rw [cell] at here ⊢
        exact Accessed.gaveUp rfl rfl (RingQueue.move_skip ok.1 here itemOf_empty) ok.2 rfl
  | deqSkip f h tt r idx =>
      obtain ⟨ok, safe⟩ := ok
      simp only [onRing] at access
      rcases q.cas2_cases (cellOf pow h) EMPTY idx EMPTY (h + ringSize pow) with
        failed | ⟨here, done⟩
      · rw [failed] at access
        cases access
        exact Accessed.retry rfl rfl rfl ok
      · rw [done] at access
        cases access
        rw [cell] at here ⊢
        have move : Move (2 ^ pow) (q.abs pow itemOf) _ _ _ _ :=
          RingQueue.move_skip ok.1 here itemOf_empty
        have sameWord : (0 : Word) ||| (h + ringSize pow) = h + ringSize pow := BitVec.zero_or
        rw [safe, sameWord] at move
        exact Accessed.gaveUp rfl rfl move ok.2 rfl
  | deqExit f h =>
      simp only [onRing] at access
      split at access
      next =>
        cases access
        exact Accessed.stay rfl rfl rfl trivial
      next =>
        cases access
        exact Accessed.stay rfl rfl rfl trivial
  | fixTail f =>
      cases access
      exact Accessed.stay rfl rfl rfl trivial
  | fixHead f t =>
      cases access
      exact Accessed.stay rfl rfl rfl (by show q.head.toNat < 2 ^ 63; omega)
  | fixCheck f t h =>
      simp only [onRing] at access
      split at access
      next =>
        cases access
        exact Accessed.stay rfl rfl rfl trivial
      next =>
        split at access
        next above =>
          cases access
          exact Accessed.stay rfl rfl rfl ⟨above, ok⟩
        next =>
          cases access
          exact Accessed.stay rfl rfl rfl trivial
  | fixCas f t h =>
      simp only [onRing] at access
      rcases q.casTail_cases t h with failed | ⟨isTail, done⟩
      · rw [failed] at access
        cases access
        exact Accessed.stay rfl rfl rfl trivial
      · rw [done] at access
        cases access
        have move := RingQueue.move_raiseTail pow itemOf (v := .out)
          (isTail ▸ ok.1) ok.2
        exact ⟨.move none 0 move .quiet rfl rfl, .here rfl trivial, rfl⟩
  | deqNext f =>
      simp only [onRing] at access
      split at access
      next =>
        cases access
        exact ⟨.empty f.call rfl rfl rfl rfl rfl, .done rfl, rfl⟩
      next n link =>
        cases access
        exact ⟨.stay rfl rfl rfl (Or.inr rfl) rfl, .next link fun _ => trivial, rfl⟩

end Accesses

end Elcrq.C
