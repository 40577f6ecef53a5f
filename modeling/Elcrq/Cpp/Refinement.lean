import Elcrq.Cpp.Machine

/-! # What the accesses of `LCRQueue.hpp` to a node mean

`Pc.place` says what a thread's next access means for the queue of rings,
`Pc.task` what it does with the linked list.  `onNode_accessed` is the one case
analysis of the accesses to a node. -/

set_option autoImplicit false

namespace Elcrq.Cpp

open Concurrent Concurrent.TicketRing Concurrent.RingList Concurrent.Hazard

section Reading

variable {A V : Type}

/-- A cell's value is an item unless it is null. -/
def itemOf (v : Option V) : Option V := v

def Pc.view : Pc A V → View
  | .enqIdx _ _ t => .enq t.toNat .start
  | .enqVal _ _ t idx => .enq t.toNat (seenIdx idx)
  | .enqHead _ _ t idx => .enq t.toNat (.fits (nodeIndex idx).toNat)
  | .enqCas2 _ _ t idx => .enq t.toNat (readyIdx idx)
  | .deqIdx _ _ h _ _ => .deq h.toNat .start
  | .deqVal _ _ h _ _ cellIdx => .deq h.toNat (.seen (nodeIndex cellIdx).toNat)
  | .deqTail _ _ h _ cellIdx | .deqTake _ _ h _ _ cellIdx _ | .deqMark _ _ h _ _ cellIdx _
  | .deqSkipUnsafe _ _ h _ _ cellIdx | .deqSkip _ _ h _ _ cellIdx =>
      .deq h.toNat (.fits (nodeIndex cellIdx).toNat)
  | _ => .out

def Pc.phase : Pc A V → Phase V
  | .idle => .idle
  | .enqAdvance f _ _ | .enqClear f => .enqDone f.call
  | .enqTail f | .enqProtect f _ | .enqValidate f _ | .enqNext f _ | .enqHelp f _ _ | .enqFaa f _
  | .enqConstruct f _ | .soloTail f _ _ | .soloVal f _ _ | .soloIdx f _ _ | .enqLink f _ _
  | .enqDestroy f _ | .enqIdx f _ _ | .enqVal f _ _ _ | .enqHead f _ _ _ | .enqCas2 f _ _ _
  | .enqFull f _ _ | .enqClose f _ _ => .enq f.call f.item
  | .deqClear c (some x) => .deqDone c x.node x.ticket x.val
  | .deqHead c | .deqProtect c _ | .deqValidate c _ | .deqFaa c _ | .deqIdx c _ _ _ _
  | .deqVal c _ _ _ _ _ | .deqTail c _ _ _ _ | .deqTake c _ _ _ _ _ _ | .deqMark c _ _ _ _ _ _
  | .deqSkipUnsafe c _ _ _ _ _ | .deqSkip c _ _ _ _ _ | .deqClose c _ _ | .deqExit c _ _
  | .fixTail c _ _ | .fixHead c _ _ _ | .fixCheck c _ _ _ _ | .fixCas c _ _ _ _ | .deqNext c _ _
  | .deqTest c _ _ _ | .deqSwing c _ _ | .scan c _ _ _ | .destroy c _ _ | .deqClear c none =>
      .deq c

def Pc.ring (nodeAt : A → ℕ) (pc : Pc A V) : ℕ := (pc.guarded.map nodeAt).getD 0

def Pc.place (nodeAt : A → ℕ) (pc : Pc A V) : Place V := ⟨pc.ring nodeAt, pc.view, pc.phase⟩

/-- What a thread does with the list of nodes. -/
def Pc.task (n : ℕ) (nodeAt : A → ℕ) : Pc A V → Task
  | .enqNext _ l | .enqHelp _ l _ | .enqFaa _ l | .enqConstruct _ l | .soloTail _ l _
  | .soloVal _ l _ | .soloIdx _ l _ | .enqLink _ l _ | .enqIdx _ l _ | .enqVal _ l _ _
  | .enqHead _ l _ _ | .enqCas2 _ l _ _ | .enqFull _ l _ | .enqClose _ l _ => .onTail (nodeAt l)
  | .enqAdvance _ l _ => .linked (nodeAt l)
  | .deqFaa _ l | .deqIdx _ l _ _ _ | .deqVal _ l _ _ _ _ | .deqTail _ l _ _ _
  | .deqTake _ l _ _ _ _ _ | .deqMark _ l _ _ _ _ _ | .deqSkipUnsafe _ l _ _ _ _
  | .deqSkip _ l _ _ _ _ | .deqClose _ l _ | .deqExit _ l _ | .fixTail _ l _ | .fixHead _ l _ _
  | .fixCheck _ l _ _ _ | .fixCas _ l _ _ _ | .deqNext _ l _ | .deqTest _ l _ _
  | .deqSwing _ l _ => .onHead (nodeAt l)
  | .scan _ ptr iret tid => .scan (nodeAt ptr) iret tid
  | .destroy _ ptr iret => .scan (nodeAt ptr) iret n
  | _ => .free

/-- The node that an `enqueue` has constructed and not linked. -/
def Pc.own : Pc A V → Option A
  | .soloTail _ _ m | .soloVal _ _ m | .soloIdx _ _ m | .enqLink _ _ m | .enqDestroy _ m => some m
  | _ => none

/-- The pointer that a call has loaded and not yet published. -/
def Pc.loaded : Pc A V → Option A
  | .enqProtect _ l | .deqProtect _ l => some l
  | _ => none

/-- The successor of the node a call guards, once the call has read or set it. -/
def Pc.lnext : Pc A V → Option A
  | .enqHelp _ _ m | .enqAdvance _ _ m | .deqTest _ _ _ m | .deqSwing _ _ m => some m
  | _ => none

/-- The pointers of a call that lead to a node in use, so that their addresses are
not handed out. -/
def Pc.pointers : Pc A V → List A
  | .scan _ ptr _ _ | .destroy _ ptr _ => [ptr]
  | pc => pc.guarded.toList ++ pc.own.toList

/-- What a call knows about its hazard slot before it validates, and about a scan. -/
def Pc.Local (n : ℕ) (slot : Option A) : Pc A V → Prop
  | .enqValidate _ l | .deqValidate _ l => slot = some l
  | .scan _ _ _ tid => tid < n
  | _ => True

theorem Pc.guard_task (n : ℕ) (nodeAt : A → ℕ) (pc : Pc A V) :
    (pc.task n nodeAt).guard = pc.guarded.map nodeAt := by
  cases pc <;> rfl

theorem Pc.view_of_unguarded {pc : Pc A V} (unguarded : pc.guarded = none) : pc.view = .out := by
  cases pc <;> first | rfl | cases unguarded

def Drawn (pow : ℕ) (ρ : CellRing V) (h : Word) : Prop := h.toNat + 2 ^ pow < 2 ^ 63 ∧ h.toNat < ρ.head

/-- What holds of a thread's locals, given the ring `ρ` of the node it guards. -/
def Pc.Ok (pow : ℕ) (ρ : CellRing V) : Pc A V → Prop
  | .enqConstruct _ _ | .soloTail _ _ _ | .soloVal _ _ _ | .soloIdx _ _ _ | .enqLink _ _ _ =>
      ρ.closed = true
  | .enqIdx _ _ t | .enqVal _ _ t _ | .enqCas2 _ _ t _ => t.toNat < 2 ^ 63
  | .enqHead _ _ t idx => t.toNat < 2 ^ 63 ∧ nodeUnsafe idx ≠ 0
  | .deqIdx _ _ h _ _ | .deqVal _ _ h _ _ _ | .deqTail _ _ h _ _ | .deqSkipUnsafe _ _ h _ _ _
  | .deqClose _ _ h | .deqExit _ _ h | .fixTail _ _ h | .fixHead _ _ h _ | .deqNext _ _ h
  | .deqTest _ _ h _ => Drawn pow ρ h
  | .deqTake _ _ h _ _ cellIdx _ => Drawn pow ρ h ∧ nodeIndex cellIdx = h
  | .deqMark _ _ h _ _ cellIdx _ => Drawn pow ρ h ∧ nodeIndex cellIdx ≠ h
  | .deqSkip _ _ h _ _ idx => Drawn pow ρ h ∧ nodeUnsafe idx = 0
  | .fixCheck _ _ h _ head => Drawn pow ρ h ∧ head.toNat < 2 ^ 63
  | .fixCas _ _ h t head => Drawn pow ρ h ∧ t < head ∧ head.toNat < 2 ^ 63
  | _ => True

theorem Drawn.mono {pow : ℕ} {ρ ρ' : CellRing V} {h : Word} (head : ρ.head ≤ ρ'.head)
    (drawn : Drawn pow ρ h) : Drawn pow ρ' h := ⟨drawn.1, drawn.2.trans_le head⟩

theorem Pc.Ok.mono {pow : ℕ} {ρ ρ' : CellRing V} {pc : Pc A V}
    (closed : ρ.closed = true → ρ'.closed = true) (head : ρ.head ≤ ρ'.head)
    (ok : pc.Ok pow ρ) : pc.Ok pow ρ' := by
  cases pc <;> first
    | exact ok
    | exact closed ok
    | exact Drawn.mono head ok
    | exact ⟨Drawn.mono head ok.1, ok.2⟩

theorem Pc.ok_of_unguarded {pow : ℕ} {ρ : CellRing V} {pc : Pc A V} (unguarded : pc.guarded = none) :
    pc.Ok pow ρ := by
  cases pc <;> trivial

end Reading

section Accesses

variable {A V : Type} {pow i : ℕ} {q q' : RingQueue A (Option V)} {pc pc' : Pc A V}
  {events : List (Event V)}

/-- What an access to node `i` means for the queue. -/
inductive Effect (pow i : ℕ) (q : RingQueue A (Option V)) (pc : Pc A V)
    (q' : RingQueue A (Option V)) (pc' : Pc A V) (events : List (Event V)) : Prop
  | stay : q' = q → pc'.phase = pc.phase → pc'.view = pc.view → events = [] →
      Effect pow i q pc q' pc' events
  | move (m : Option (Mark V)) (c : ℕ) :
      Move (2 ^ pow) (q.abs pow itemOf) pc.view m (q'.abs pow itemOf) pc'.view →
      Acts i m c pc.phase pc'.phase → events = eventOf c i m → Effect pow i q pc q' pc' events

/-- A call keeps to its node or lets go of it. -/
inductive Onward (pc pc' : Pc A V) : Prop
  | keep : pc'.guarded = pc.guarded → (∀ n nodeAt, pc'.task n nodeAt = pc.task n nodeAt) →
      Onward pc pc'
  | leave : pc'.guarded = none → (∀ n nodeAt, pc'.task n nodeAt = .free) → Onward pc pc'

/-- What holds after an access to a node. -/
structure Accessed (pow i : ℕ) (q : RingQueue A (Option V)) (pc : Pc A V)
    (q' : RingQueue A (Option V)) (pc' : Pc A V) (events : List (Event V)) : Prop where
  effect : Effect pow i q pc q' pc' events
  onward : Onward pc pc'
  ok : pc'.Ok pow (q'.abs pow itemOf)
  next : q'.next = q.next
  lnext : ∀ m, pc'.lnext = some m → q.next = some m ∨ pc.lnext = some m

theorem Accessed.quiet {v : View} {p : Phase V} (move : Move (2 ^ pow) (q.abs pow itemOf)
    pc.view none (q.abs pow itemOf) v) (view : pc'.view = v) (phase : pc.phase = p)
    (phase' : pc'.phase = p) (onward : Onward pc pc') (ok : pc'.Ok pow (q.abs pow itemOf))
    (noNext : pc'.lnext = none) : Accessed pow i q pc q pc' [] := by
  refine ⟨.move none 0 (by rw [view]; exact move) ?_ rfl, onward, ok, rfl, fun m has => ?_⟩
  · rw [phase, phase']
    exact .quiet
  · rw [noNext] at has
    cases has

theorem Accessed.stay (view : pc'.view = pc.view) (phase : pc'.phase = pc.phase)
    (onward : Onward pc pc') (ok : pc'.Ok pow (q.abs pow itemOf)) (noNext : pc'.lnext = none) :
    Accessed pow i q pc q pc' [] := by
  refine ⟨.stay rfl phase view rfl, onward, ok, rfl, fun m has => ?_⟩
  rw [noNext] at has
  cases has

theorem Accessed.retry {c : ℕ} {lhead : A} {h tt : Word} {r : ℕ} {stage : DeqStage}
    (phase : pc.phase = .deq c) (view : pc.view = .deq h.toNat stage)
    (guarded : pc.guarded = some lhead) (task : ∀ n nodeAt, pc.task n nodeAt = .onHead (nodeAt lhead))
    (ok : Drawn pow (q.abs pow itemOf) h) : Accessed pow i q pc q (.deqIdx c lhead h tt r) [] := by
  refine Accessed.quiet (v := .deq h.toNat .start) ?_ rfl phase rfl
    (.keep guarded.symm fun n nodeAt => (task n nodeAt).symm) ok rfl
  rw [view]
  exact Move.deqBack

/-- A dequeuer at an empty cell goes for its `CAS2` or starts over.  It comes here
with the tail it has just read, or straight from its cell. -/
theorem atEmptyCell_accessed {c : ℕ} {lhead : A} {h tt : Word} {r : ℕ} {cellIdx : Word}
    {stage : DeqStage} (phase : pc.phase = .deq c) (view : pc.view = .deq h.toNat stage)
    (guarded : pc.guarded = some lhead) (task : ∀ n nodeAt, pc.task n nodeAt = .onHead (nodeAt lhead))
    (fits : stage = .fits (nodeIndex cellIdx).toNat ∨
      (stage = .seen (nodeIndex cellIdx).toNat ∧ (nodeIndex cellIdx).toNat ≤ h.toNat))
    (ok : Drawn pow (q.abs pow itemOf) h) :
    Accessed pow i q pc q (atEmptyCell c lhead h tt r cellIdx) [] := by
  have toFits : ∀ pc' : Pc A V, pc'.phase = .deq c → pc'.guarded = some lhead →
      (∀ n nodeAt, pc'.task n nodeAt = .onHead (nodeAt lhead)) → pc'.lnext = none →
      pc'.view = .deq h.toNat (.fits (nodeIndex cellIdx).toNat) →
      pc'.Ok pow (q.abs pow itemOf) → Accessed pow i q pc q pc' [] := by
    intro pc' phase' guarded' task' noNext view' ok'
    have onward : Onward pc pc' := .keep (guarded'.trans guarded.symm) fun n nodeAt =>
      (task' n nodeAt).trans (task n nodeAt).symm
    rcases fits with rfl | ⟨rfl, below⟩
    · exact Accessed.stay (view'.trans view.symm) (phase'.trans phase.symm) onward ok' noNext
    · refine Accessed.quiet ?_ view' phase phase' onward ok' noNext
      rw [view]
      exact Move.deqFits below
  unfold atEmptyCell
  split
  next => exact toFits _ rfl rfl (fun _ _ => rfl) rfl rfl ok
  next safe =>
    split
    next =>
      refine toFits _ rfl rfl (fun _ _ => rfl) rfl ?_ ⟨ok, nodeUnsafe_nodeIndex _⟩
      rw [Pc.view, nodeIndex_nodeIndex]
    next => exact Accessed.retry phase view guarded task ok

theorem Accessed.gaveUp {c : ℕ} {lhead : A} {h : Word} (phase : pc.phase = .deq c)
    (guarded : pc.guarded = some lhead) (task : ∀ n nodeAt, pc.task n nodeAt = .onHead (nodeAt lhead))
    (move : Move (2 ^ pow) (q.abs pow itemOf) pc.view (some (.gaveUp h.toNat))
      (q'.abs pow itemOf) .out) (drawn : Drawn pow (q.abs pow itemOf) h) (next : q'.next = q.next)
    (isNext : pc' = .deqExit c lhead h ∨ pc' = .deqClose c lhead h) :
    Accessed pow i q pc q' pc' [.deqLeft c i h.toNat] := by
  have drawn' : Drawn pow (q'.abs pow itemOf) h := drawn.mono move.head_le
  rcases isNext with rfl | rfl
  · refine ⟨.move (some (.gaveUp h.toNat)) c move ?_ rfl,
      .keep guarded.symm fun n nodeAt => (task n nodeAt).symm, drawn', next, nofun⟩
    rw [phase]
    exact .gaveUp
  · refine ⟨.move (some (.gaveUp h.toNat)) c move ?_ rfl,
      .keep guarded.symm fun n nodeAt => (task n nodeAt).symm, drawn', next, nofun⟩
    rw [phase]
    exact .gaveUp

variable [DecidableEq V]

/-- One access to a node, by cases on where the thread stands. -/
theorem onNode_accessed (small : pow < 63) (roomHead : q.head.toNat + 2 ^ pow < 2 ^ 63)
    (roomTail : (tailIndex q.tail).toNat + 1 < 2 ^ 63) (ok : pc.Ok pow (q.abs pow itemOf))
    (access : onNode pow i q pc = some (q', pc', events)) :
    Accessed pow i q pc q' pc' events := by
  have cell := cellOf_eq small
  have pos := Nat.two_pow_pos pow
  cases pc with
  | idle | enqTail | enqProtect | enqValidate | enqHelp | enqConstruct | soloTail | soloVal
  | soloIdx | enqLink | enqAdvance | enqDestroy | enqClear | deqHead | deqProtect | deqValidate
  | deqSwing | scan | destroy | deqClear => cases access
  | enqNext f l =>
      simp only [onNode] at access
      split at access
      next m link =>
        cases access
        refine ⟨.stay rfl rfl rfl rfl, .keep rfl fun _ _ => rfl, trivial, rfl, fun m' has => ?_⟩
        cases has
        exact Or.inl link
      next =>
        cases access
        exact Accessed.stay rfl rfl (.keep rfl fun _ _ => rfl) trivial rfl
  | enqFaa f l =>
      simp only [onNode] at access
      split at access
      next closed =>
        cases access
        have move := RingQueue.move_bumpTail pow itemOf closed roomTail
        exact ⟨.move none 0 move .quiet rfl, .keep rfl fun _ _ => rfl, move.stays_closed closed, rfl,
          nofun⟩
      next isOpen =>
        cases access
        have isOpen : crqIsClosed q.tail = false := Bool.not_eq_true _ ▸ isOpen
        have move := RingQueue.move_drawTail pow itemOf isOpen roomTail
        exact ⟨.move _ f.call move .drew rfl, .keep rfl fun _ _ => rfl,
          (crqIsClosed_false_iff _).mp isOpen, rfl, nofun⟩
  | enqIdx f l t =>
      cases access
      rw [cell]
      exact Accessed.quiet RingQueue.move_enqLook rfl rfl rfl (.keep rfl fun _ _ => rfl) ok rfl
  | enqVal f l t idx =>
      have drop : Accessed pow i q (.enqVal f l t idx) q (.enqFull f l t) [] :=
        Accessed.quiet Move.enqDrop rfl rfl rfl (.keep rfl fun _ _ => rfl) trivial rfl
      simp only [onNode] at access
      split at access
      next =>
        split at access
        next fits =>
          split at access
          next safe =>
            cases access
            exact Accessed.quiet (RingQueue.move_enqReady fits safe) rfl rfl rfl
              (.keep rfl fun _ _ => rfl) ok rfl
          next flagged =>
            cases access
            exact Accessed.quiet (RingQueue.move_enqFits fits flagged) rfl rfl rfl
              (.keep rfl fun _ _ => rfl) ⟨ok, flagged⟩ rfl
        next =>
          cases access
          exact drop
      next =>
        cases access
        exact drop
  | enqHead f l t idx =>
      simp only [onNode] at access
      split at access
      next ahead =>
        cases access
        exact Accessed.quiet (RingQueue.move_enqAhead (lt_of_slt ahead (by omega) ok.1) ok.2) rfl rfl
          rfl (.keep rfl fun _ _ => rfl) ok.1 rfl
      next =>
        cases access
        exact Accessed.quiet Move.enqDrop rfl rfl rfl (.keep rfl fun _ _ => rfl) trivial rfl
  | enqCas2 f l t idx =>
      simp only [onNode] at access
      rcases q.cas2_cases (cellOf pow t) none idx (some f.item) t with failed | ⟨here, done⟩
      · rw [failed] at access
        cases access
        exact Accessed.quiet Move.enqDrop rfl rfl rfl (.keep rfl fun _ _ => rfl) trivial rfl
      · rw [done] at access
        cases access
        rw [cell] at here ⊢
        exact ⟨.move _ f.call (RingQueue.move_put ok here rfl rfl) .put rfl,
          .leave rfl fun _ _ => rfl, trivial, rfl, nofun⟩
  | enqFull f l t =>
      simp only [onNode] at access
      split at access
      next =>
        cases access
        exact Accessed.stay rfl rfl (.keep rfl fun _ _ => rfl) trivial rfl
      next =>
        cases access
        exact Accessed.stay rfl rfl (.leave rfl fun _ _ => rfl) trivial rfl
  | enqClose f l t =>
      cases access
      rcases q.closeCrq_cases t f.tryClose with failed | tail
      · rw [failed]
        exact Accessed.stay rfl rfl (.leave rfl fun _ _ => rfl) trivial rfl
      · rw [tail]
        exact ⟨.move none 0 (RingQueue.move_close pow itemOf) .quiet rfl,
          .leave rfl fun _ _ => rfl, trivial, rfl, nofun⟩
  | deqFaa c l =>
      cases access
      have move := RingQueue.move_drawHead pow itemOf (q := q) (by omega)
      exact ⟨.move _ c move .drewHead rfl, .keep rfl fun _ _ => rfl,
        ⟨roomHead, by rw [move.of_drewHead.2.1]; exact Nat.lt_succ_self _⟩, rfl, nofun⟩
  | deqIdx c l h tt r =>
      cases access
      rw [cell]
      exact Accessed.quiet RingQueue.move_deqLook rfl rfl rfl (.keep rfl fun _ _ => rfl) ok rfl
  | deqVal c l h tt r cellIdx =>
      simp only [onNode] at access
      split at access
      next behind =>
        cases access
        exact Accessed.gaveUp rfl rfl (fun _ _ => rfl) (Move.giveUp behind) ok rfl (Or.inl rfl)
      next fits =>
        have fits : (nodeIndex cellIdx).toNat ≤ h.toNat := not_lt.mp fits
        have look : Move (2 ^ pow) (q.abs pow itemOf) (Pc.deqVal c l h tt r cellIdx : Pc A V).view
            none (q.abs pow itemOf) (.deq h.toNat (.fits (nodeIndex cellIdx).toNat)) :=
          Move.deqFits fits
        split at access
        next val full =>
          split at access
          next index =>
            cases access
            exact Accessed.quiet look rfl rfl rfl (.keep rfl fun _ _ => rfl) ⟨ok, index⟩ rfl
          next other =>
            cases access
            exact Accessed.quiet look rfl rfl rfl (.keep rfl fun _ _ => rfl) ⟨ok, other⟩ rfl
        next =>
          split at access
          next =>
            cases access
            exact Accessed.quiet look rfl rfl rfl (.keep rfl fun _ _ => rfl) ok rfl
          next =>
            cases access
            exact atEmptyCell_accessed rfl rfl rfl (fun _ _ => rfl) (Or.inr ⟨rfl, fits⟩) ok
  | deqTail c l h r cellIdx =>
      cases access
      exact atEmptyCell_accessed rfl rfl rfl (fun _ _ => rfl) (Or.inl rfl) ok
  | deqTake c l h tt r cellIdx val =>
      obtain ⟨ok, index⟩ := ok
      simp only [onNode] at access
      rcases q.cas2_cases (cellOf pow h) (some val) cellIdx none
        (nodeUnsafe cellIdx ||| (h + ringSize pow)) with failed | ⟨here, done⟩
      · rw [failed] at access
        cases access
        exact Accessed.retry rfl rfl rfl (fun _ _ => rfl) ok
      · rw [done] at access
        cases access
        rw [cell] at here ⊢
        exact ⟨.move _ c (RingQueue.move_take ok.1 here index rfl rfl) .took rfl,
          .leave rfl fun _ _ => rfl, trivial, rfl, nofun⟩
  | deqMark c l h tt r cellIdx val =>
      obtain ⟨ok, other⟩ := ok
      simp only [onNode] at access
      rcases q.cas2_cases (cellOf pow h) (some val) cellIdx (some val)
        (setUnsafe (nodeIndex cellIdx)) with failed | ⟨here, done⟩
      · rw [failed] at access
        cases access
        exact Accessed.retry rfl rfl rfl (fun _ _ => rfl) ok
      · rw [done] at access
        cases access
        rw [cell] at here ⊢
        exact Accessed.gaveUp rfl rfl (fun _ _ => rfl) (RingQueue.move_flag here other rfl) ok rfl
          (Or.inl rfl)
  | deqSkipUnsafe c l h tt r cellIdx =>
      simp only [onNode] at access
      rcases q.cas2_cases (cellOf pow h) none cellIdx none
        (nodeUnsafe cellIdx ||| (h + ringSize pow)) with failed | ⟨here, done⟩
      · rw [failed] at access
        cases access
        exact Accessed.retry rfl rfl rfl (fun _ _ => rfl) ok
      · rw [done] at access
        cases access
        rw [cell] at here ⊢
        exact Accessed.gaveUp rfl rfl (fun _ _ => rfl) (RingQueue.move_skip ok.1 here rfl) ok rfl
          (Or.inl rfl)
  | deqSkip c l h tt r idx =>
      obtain ⟨ok, safe⟩ := ok
      simp only [onNode] at access
      rcases q.cas2_cases (cellOf pow h) none idx none (h + ringSize pow) with
        failed | ⟨here, done⟩
      · rw [failed] at access
        cases access
        exact Accessed.retry rfl rfl rfl (fun _ _ => rfl) ok
      · rw [done] at access
        rw [cell] at here access
        have move : Move (2 ^ pow) (q.abs pow itemOf) _ _ _ _ :=
          RingQueue.move_skip ok.1 here rfl
        have sameWord : (0 : Word) ||| (h + ringSize pow) = h + ringSize pow := BitVec.zero_or
        rw [safe, sameWord] at move
        dsimp only at access
        split at access
        · cases access
          exact Accessed.gaveUp rfl rfl (fun _ _ => rfl) move ok rfl (Or.inr rfl)
        · cases access
          exact Accessed.gaveUp rfl rfl (fun _ _ => rfl) move ok rfl (Or.inl rfl)
  | deqClose c l h =>
      cases access
      have move := RingQueue.move_close pow itemOf (q := q) (v := .out)
      exact ⟨.move none 0 move .quiet rfl, .keep rfl fun _ _ => rfl, Drawn.mono move.head_le ok, rfl,
        nofun⟩
  | deqExit c l h =>
      simp only [onNode] at access
      split at access
      next =>
        cases access
        exact Accessed.stay rfl rfl (.keep rfl fun _ _ => rfl) ok rfl
      next =>
        cases access
        exact Accessed.stay rfl rfl (.leave rfl fun _ _ => rfl) trivial rfl
  | fixTail c l h =>
      cases access
      exact Accessed.stay rfl rfl (.keep rfl fun _ _ => rfl) ok rfl
  | fixHead c l h t =>
      cases access
      exact Accessed.stay rfl rfl (.keep rfl fun _ _ => rfl)
        ⟨ok, by show q.head.toNat < 2 ^ 63; omega⟩ rfl
  | fixCheck c l h t head =>
      simp only [onNode] at access
      split at access
      next =>
        cases access
        exact Accessed.stay rfl rfl (.keep rfl fun _ _ => rfl) ok.1 rfl
      next =>
        split at access
        next above =>
          cases access
          exact Accessed.stay rfl rfl (.keep rfl fun _ _ => rfl) ⟨ok.1, above, ok.2⟩ rfl
        next =>
          cases access
          exact Accessed.stay rfl rfl (.keep rfl fun _ _ => rfl) ok.1 rfl
  | fixCas c l h t head =>
      simp only [onNode] at access
      rcases q.casTail_cases t head with failed | ⟨isTail, done⟩
      · rw [failed] at access
        cases access
        exact Accessed.stay rfl rfl (.keep rfl fun _ _ => rfl) ok.1 rfl
      · rw [done] at access
        cases access
        have move := RingQueue.move_raiseTail pow itemOf (v := .out) (isTail ▸ ok.2.1) ok.2.2
        exact ⟨.move none 0 move .quiet rfl, .keep rfl fun _ _ => rfl, ok.1.mono move.head_le, rfl,
          nofun⟩
  | deqNext c l h =>
      simp only [onNode] at access
      split at access
      next =>
        cases access
        exact Accessed.stay rfl rfl (.leave rfl fun _ _ => rfl) trivial rfl
      next m link =>
        cases access
        refine ⟨.stay rfl rfl rfl rfl, .keep rfl fun _ _ => rfl, ok, rfl, fun m' has => ?_⟩
        cases has
        exact Or.inl link
  | deqTest c l h m =>
      simp only [onNode] at access
      split at access
      next =>
        cases access
        exact ⟨.stay rfl rfl rfl rfl, .keep rfl fun _ _ => rfl, trivial, rfl, fun m' has => Or.inr has⟩
      next =>
        cases access
        exact Accessed.stay rfl rfl (.leave rfl fun _ _ => rfl) trivial rfl

omit [DecidableEq V] in
theorem atEmptyCell_plain (c : ℕ) (l : A) (h tt : Word) (r : ℕ) (cellIdx : Word) :
    (atEmptyCell c l h tt r cellIdx : Pc A V).guarded = some l ∧
      (atEmptyCell c l h tt r cellIdx : Pc A V).lnext = none ∧
      ∀ n nodeAt, (atEmptyCell c l h tt r cellIdx : Pc A V).task n nodeAt = .onHead (nodeAt l) := by
  unfold atEmptyCell
  split
  · exact ⟨rfl, rfl, fun _ _ => rfl⟩
  · split <;> exact ⟨rfl, rfl, fun _ _ => rfl⟩

/-- What an access does to the list of nodes: nothing, but for what the call learns. -/
structure Leads (q : RingQueue A (Option V)) (pc : Pc A V) (q' : RingQueue A (Option V))
    (pc' : Pc A V) (events : List (Event V)) : Prop where
  onward : Onward pc pc'
  next : q'.next = q.next
  lnext : ∀ m, pc'.lnext = some m → q.next = some m ∨ pc.lnext = some m
  unlinked : ∀ r m, .link r m ∉ events

theorem onNode_leads (access : onNode pow i q pc = some (q', pc', events)) :
    Leads q pc q' pc' events := by
  cases pc with
  | enqNext f l =>
      simp only [onNode] at access
      split at access <;> cases access
      next m link =>
        exact ⟨.keep rfl fun _ _ => rfl, rfl, fun m' has => Or.inl (link.trans has), by simp⟩
      next => exact ⟨.keep rfl fun _ _ => rfl, rfl, nofun, by simp⟩
  | deqNext c l h =>
      simp only [onNode] at access
      split at access <;> cases access
      next => exact ⟨.leave rfl fun _ _ => rfl, rfl, nofun, by simp⟩
      next m link =>
        exact ⟨.keep rfl fun _ _ => rfl, rfl, fun m' has => Or.inl (link.trans has), by simp⟩
  | deqTest c l h m =>
      simp only [onNode] at access
      split at access <;> cases access
      · exact ⟨.keep rfl fun _ _ => rfl, rfl, fun m' has => Or.inr has, by simp⟩
      · exact ⟨.leave rfl fun _ _ => rfl, rfl, nofun, by simp⟩
  | deqTail c l h r cellIdx =>
      cases access
      obtain ⟨guarded, noNext, task⟩ := atEmptyCell_plain (V := V) c l h q.tail r cellIdx
      refine ⟨.keep guarded task, rfl, fun m has => ?_, by simp⟩
      rw [noNext] at has
      cases has
  | deqVal c l h tt r cellIdx =>
      obtain ⟨guarded, noNext, task⟩ := atEmptyCell_plain (V := V) c l h tt r cellIdx
      have atEmpty : Leads q (.deqVal c l h tt r cellIdx) q (atEmptyCell c l h tt r cellIdx) [] := by
        refine ⟨.keep guarded task, rfl, fun m has => ?_, by simp⟩
        rw [noNext] at has
        cases has
      simp only [onNode] at access
      (repeat' split at access) <;> cases access <;>
        first | exact atEmpty | exact ⟨.keep rfl fun _ _ => rfl, rfl, nofun, by simp⟩
  | enqClose f l t =>
      cases access
      exact ⟨.leave rfl fun _ _ => rfl, q.closeCrq_next t f.tryClose, nofun, by simp⟩
  | enqCas2 f l t idx =>
      simp only [onNode] at access
      split at access <;> cases access
      · exact ⟨.leave rfl fun _ _ => rfl, RingQueue.cas2_next ‹_›, nofun, by simp⟩
      · exact ⟨.keep rfl fun _ _ => rfl, RingQueue.cas2_next ‹_›, nofun, by simp⟩
  | deqTake c l h tt r cellIdx val =>
      simp only [onNode] at access
      split at access <;> cases access
      · exact ⟨.leave rfl fun _ _ => rfl, RingQueue.cas2_next ‹_›, nofun, by simp⟩
      · exact ⟨.keep rfl fun _ _ => rfl, RingQueue.cas2_next ‹_›, nofun, by simp⟩
  | deqMark | deqSkipUnsafe | deqSkip =>
      simp only [onNode] at access
      (repeat' split at access) <;> cases access <;>
        exact ⟨.keep rfl fun _ _ => rfl, RingQueue.cas2_next ‹_›, nofun, by simp⟩
  | fixCas c l h t head =>
      simp only [onNode] at access
      split at access <;> cases access <;>
        exact ⟨.keep rfl fun _ _ => rfl, RingQueue.casTail_next ‹_›, nofun, by simp⟩
  | enqFaa | enqIdx | enqVal | enqHead | enqFull | deqFaa | deqIdx | deqClose | deqExit | fixTail
  | fixHead | fixCheck =>
      simp only [onNode] at access
      (repeat' split at access) <;> cases access <;>
        first
        | exact ⟨.keep rfl fun _ _ => rfl, rfl, nofun, by simp⟩
        | exact ⟨.leave rfl fun _ _ => rfl, rfl, nofun, by simp⟩
  | _ => cases access

theorem onNode_plain (access : onNode pow i q pc = some (q', pc', events)) :
    pc.own = none ∧ pc'.own = none ∧ pc'.loaded = none ∧ ∀ n slot, pc'.Local n slot := by
  have empty : ∀ c l h tt r cellIdx, (atEmptyCell c l h tt r cellIdx : Pc A V).own = none ∧
      (atEmptyCell c l h tt r cellIdx : Pc A V).loaded = none ∧
      ∀ n slot, (atEmptyCell c l h tt r cellIdx : Pc A V).Local n slot := by
    intro c l h tt r cellIdx
    unfold atEmptyCell
    split
    · exact ⟨rfl, rfl, fun _ _ => trivial⟩
    · split <;> exact ⟨rfl, rfl, fun _ _ => trivial⟩
  cases pc <;> simp only [onNode] at access <;> (repeat' split at access) <;> cases access <;>
    first | exact ⟨rfl, rfl, rfl, fun _ _ => trivial⟩ | exact ⟨rfl, empty ..⟩

end Accesses

end Elcrq.Cpp
