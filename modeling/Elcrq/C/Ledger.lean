import Elcrq.C.Shape

/-! # The counters of the rings

In the runs in which tickets stay below `2^63`, with no condition on what is
enqueued, heads and tails only grow and a closed tail stays closed.  `Ledger` says
which tickets are out: the tickets of the `enq` calls and of the stored items lie
below the tail, and the head tickets drawn are those below the head. -/

set_option autoImplicit false

namespace Elcrq.C

open Concurrent Concurrent.RingList

/-- What a call knows of the words it has read. -/
def Pc.Sound : Pc → Prop
  | .deqTake _ h _ _ cellIdx val => nodeIndex cellIdx = h ∧ val ≠ EMPTY
  | .fixCheck _ _ h => h.toNat < 2 ^ 63
  | .fixCas _ t h => t < h ∧ h.toNat < 2 ^ 63
  | _ => True

/-- The frame and tail ticket of an `enq`. -/
def Pc.tailTicket : Pc → Option (EnqFrame × Word)
  | .enqIdx f t | .enqVal f t _ | .enqHead f t _ | .enqCas2 f t _ | .enqFull f t
  | .enqClose f t => some (f, t)
  | _ => none

theorem Pc.tailTicket_rq {pc : Pc} {f : EnqFrame} {t : Word}
    (holds : pc.tailTicket = some (f, t)) : pc.rq = f.tail := by
  cases pc <;> cases holds <;> rfl

/-- The counters of a ring do not go back. -/
structure Grows (q q' : RingQueue ℕ Word) : Prop where
  closed : crqIsClosed q.tail = true → crqIsClosed q'.tail = true
  head : q.head.toNat ≤ q'.head.toNat
  tail : (tailIndex q.tail).toNat ≤ (tailIndex q'.tail).toNat

theorem Grows.same {q q' : RingQueue ℕ Word} (head : q'.head = q.head) (tail : q'.tail = q.tail) :
    Grows q q' := by
  refine ⟨fun closed => ?_, ?_, ?_⟩
  · rw [tail]
    exact closed
  · rw [head]
  · rw [tail]

theorem Grows.trans {q q' q'' : RingQueue ℕ Word} (first : Grows q q') (second : Grows q' q'') :
    Grows q q'' :=
  ⟨second.closed ∘ first.closed, first.head.trans second.head, first.tail.trans second.tail⟩

section Access

variable {pow : ℕ} {q q' : RingQueue ℕ Word} {pc pc' : Pc} {events : List (Event Word)}

theorem atEmptyCell_sound (f : DeqFrame) (h tt : Word) (r : ℕ) (cellIdx : Word) :
    (atEmptyCell f h tt r cellIdx).Sound ∧ (atEmptyCell f h tt r cellIdx).tailTicket = none ∧
      (atEmptyCell f h tt r cellIdx).holds = some (f.head, h.toNat) := by
  unfold atEmptyCell
  split
  · exact ⟨trivial, rfl, rfl⟩
  · split <;> exact ⟨trivial, rfl, rfl⟩

theorem onRing_sound (room : q.head.toNat < 2 ^ 63) (sound : pc.Sound)
    (access : onRing pow q pc = some (q', pc', events)) : pc'.Sound := by
  cases pc with
  | deqVal f h tt r cellIdx =>
      simp only [onRing] at access
      split at access
      next =>
        cases access
        trivial
      next =>
        split at access
        next =>
          split at access
          next =>
            cases access
            trivial
          next =>
            cases access
            exact (atEmptyCell_sound f h tt r cellIdx).1
        next isItem =>
          have isItem : (q.array (cellOf pow h)).val ≠ EMPTY := fun empty =>
            isItem (by rw [empty]; rfl)
          split at access
          next mine =>
            cases access
            exact ⟨mine, isItem⟩
          next =>
            cases access
            trivial
  | deqTail f h r cellIdx =>
      cases access
      exact (atEmptyCell_sound f h q.tail r cellIdx).1
  | fixHead f t =>
      cases access
      exact room
  | fixCheck f t h =>
      simp only [onRing] at access
      split at access
      next =>
        cases access
        trivial
      next =>
        split at access
        next above =>
          cases access
          exact ⟨above, sound⟩
        next =>
          cases access
          trivial
  | _ =>
      simp only [onRing] at access
      (repeat' split at access) <;> cases access <;> trivial

theorem onRing_tailTicket {f' : EnqFrame} {t : Word}
    (access : onRing pow q pc = some (q', pc', events)) (holds : pc'.tailTicket = some (f', t)) :
    (∃ f, pc.tailTicket = some (f, t) ∧ f'.tail = f.tail) ∨
      (∃ f, pc = .enqFaa f ∧ f' = f ∧ crqIsClosed t = false ∧ q.tail = t ∧ q'.tail = t + 1) := by
  cases pc with
  | enqFaa f =>
      simp only [onRing] at access
      split at access
      next =>
        cases access
        cases holds
      next isOpen =>
        cases access
        cases holds
        exact Or.inr ⟨_, rfl, rfl, Bool.not_eq_true _ ▸ isOpen, rfl, rfl⟩
  | deqVal f h tt r cellIdx =>
      have empty := (atEmptyCell_sound f h tt r cellIdx).2.1
      simp only [onRing] at access
      (repeat' split at access) <;> cases access <;>
        first
        | cases holds
        | rw [empty] at holds; cases holds
  | deqTail f h r cellIdx =>
      cases access
      rw [(atEmptyCell_sound f h q.tail r cellIdx).2.1] at holds
      cases holds
  | _ =>
      simp only [onRing] at access
      (repeat' split at access) <;> cases access <;> cases holds <;>
        exact Or.inl ⟨_, rfl, rfl⟩

theorem onRing_holds {r n : ℕ} (access : onRing pow q pc = some (q', pc', events))
    (holds : pc'.holds = some (r, n)) :
    pc.holds = some (r, n) ∨ ∃ d, .deqDraw d r n ∈ events := by
  cases pc with
  | deqFaa f =>
      cases access
      cases holds
      exact Or.inr ⟨f.call, List.mem_cons_self⟩
  | deqVal f h tt r' cellIdx =>
      have empty := (atEmptyCell_sound f h tt r' cellIdx).2.2
      simp only [onRing] at access
      (repeat' split at access) <;> cases access
      case deqVal.isFalse.isTrue.isFalse.refl => exact Or.inl (empty.symm.trans holds)
      all_goals
        first
        | cases holds; done
        | exact Or.inl holds
  | deqTail f h r' cellIdx =>
      cases access
      exact Or.inl ((atEmptyCell_sound f h q.tail r' cellIdx).2.2.symm.trans holds)
  | _ =>
      simp only [onRing] at access
      (repeat' split at access) <;> cases access <;>
        first
        | cases holds; done
        | exact Or.inl holds

theorem Update.grows (update : Update pow q pc q' pc' events) (sound : pc.Sound)
    (roomHead : q.head.toNat + 1 < 2 ^ 64) (roomTail : (tailIndex q.tail).toNat + 1 < 2 ^ 63) :
    Grows q q' := by
  cases update with
  | reads | stores | takes | marks | skips => exact .same rfl rfl
  | drawsTail f =>
      have small := q.tail.isLt
      rw [tailIndex_toNat] at roomTail
      have above : (q.tail + 1).toNat = q.tail.toNat + 1 := add_one_toNat _ (by omega)
      refine ⟨fun closed => ?_, le_refl _, ?_⟩
      · rw [crqIsClosed_iff] at closed ⊢
        rw [above]
        omega
      · show _ ≤ (tailIndex (q.tail + 1)).toNat
        rw [tailIndex_toNat, tailIndex_toNat, above]
        omega
  | drawsHead f =>
      refine ⟨id, ?_, le_refl _⟩
      show _ ≤ (q.head + 1).toNat
      rw [add_one_toNat _ roomHead]
      exact Nat.le_succ _
  | closes f t =>
      refine ⟨fun _ => ?_, le_refl _, ?_⟩
      · rw [crqIsClosed_iff, setUnsafe_toNat]
        omega
      · show _ ≤ (tailIndex (setUnsafe q.tail)).toNat
        rw [tailIndex_toNat, tailIndex_toNat, setUnsafe_toNat]
        omega
  | raises f t h isTail =>
      obtain ⟨above, small⟩ := sound
      have above : t.toNat < h.toNat := above
      refine ⟨fun closed => ?_, le_refl _, ?_⟩
      · rw [isTail, crqIsClosed_iff] at closed
        omega
      · show _ ≤ (tailIndex h).toNat
        rw [isTail, tailIndex_toNat, tailIndex_toNat]
        omega

theorem Update.cell (update : Update pow q pc q' pc' events) {i : ℕ}
    (isItem : (q'.array i).val ≠ EMPTY) :
    ((q.array i).val = (q'.array i).val ∧ nodeIndex (q'.array i).idx = nodeIndex (q.array i).idx) ∨
      ∃ f t idx, pc = .enqCas2 f t idx ∧ q'.array i = ⟨f.arg, t⟩ ∧
        .enqItem f.call f.tail t.toNat f.arg ∈ events := by
  -- one cell is written
  have write : ∀ (j : ℕ) (c : RingNode Word), q' = q.setNode j c →
      (c.val ≠ EMPTY → i = j → (q.array j).val = c.val ∧ nodeIndex c.idx = nodeIndex (q.array j).idx) →
      (q.array i).val = (q'.array i).val ∧
        nodeIndex (q'.array i).idx = nodeIndex (q.array i).idx := by
    intro j c after kept
    by_cases same : i = j
    · have here : q'.array i = c := by
        rw [after, same]
        exact Function.update_self ..
      rw [here] at isItem ⊢
      rw [same]
      exact kept isItem same
    · have here : q'.array i = q.array i := by
        rw [after]
        exact Function.update_of_ne same ..
      rw [here]
      exact ⟨rfl, rfl⟩
  cases update with
  | reads | drawsTail | drawsHead | closes | raises => exact Or.inl ⟨rfl, rfl⟩
  | stores f t idx here =>
      by_cases same : i = cellOf pow t
      · refine Or.inr ⟨f, t, idx, rfl, ?_, by simp⟩
        rw [same]
        exact Function.update_self ..
      · exact Or.inl (write _ _ rfl fun _ isCell => absurd isCell same)
  | takes f h tt r cellIdx val here => exact Or.inl (write _ _ rfl fun empty => absurd rfl empty)
  | skips _ f h idx' => exact Or.inl (write _ _ rfl fun empty => absurd rfl empty)
  | marks f h tt r cellIdx val here =>
      refine Or.inl (write _ _ rfl fun _ _ => ?_)
      rw [here]
      refine ⟨rfl, ?_⟩
      apply BitVec.eq_of_toNat_eq
      rw [nodeIndex_toNat, setUnsafe_toNat, nodeIndex_toNat]
      omega

theorem Update.deqDraw (update : Update pow q pc q' pc' events) :
    (∃ f, pc = .deqFaa f ∧ q'.head = q.head + 1 ∧
      events = [.deqDraw f.call f.head q.head.toNat]) ∨
    (q'.head = q.head ∧ ∀ d r n, .deqDraw d r n ∉ events) := by
  cases update with
  | drawsHead f => exact Or.inl ⟨f, rfl, rfl, rfl⟩
  | reads _ _ _ minor => exact Or.inr ⟨rfl, fun d r n draw => minor _ draw⟩
  | drawsTail _ _ _ minor => exact Or.inr ⟨rfl, fun d r n draw => minor _ draw⟩
  | closes | raises | stores | takes | marks | skips => exact Or.inr ⟨rfl, by simp⟩

end Access

/-! ## The steps -/

section Steps

variable {T : Type} [DecidableEq T] {pow : ℕ} {e e' : Exec T} {p : T}

/-- A step that is no access to a ring of the list: the counters and cells of these
rings stay, and there is nothing to know about where it leads. -/
structure Exec.OffRing (e : Exec T) (p : T) (e' : Exec T) : Prop where
  ring : ∀ r ∈ rings e.log, (e'.st.ring r).head = (e.st.ring r).head ∧
    (e'.st.ring r).tail = (e.st.ring r).tail ∧ (e'.st.ring r).array = (e.st.ring r).array
  rings : rings e'.log = rings e.log ∨ ∃ f n, e.st.pc p = .enqLink f n ∧
    RingList.rings e'.log = n :: RingList.rings e.log ∧ e'.st.ring n = e.st.ring n ∧
    .enqItem f.call n 0 f.arg ∈ e'.log
  sound : (e'.st.pc p).Sound
  noTicket : (e'.st.pc p).tailTicket = none ∧ (e'.st.pc p).holds = none
  draws : ∀ d r n, .deqDraw d r n ∈ e'.log ↔ .deqDraw d r n ∈ e.log

omit [DecidableEq T] in
theorem Shape.hidden (shape : Shape e) {pc : Pc} {n : ℕ} (here : e.st.pc p = pc)
    (own : pc.nrq = some n) (unlinked : pc.linked = false) : n ∉ rings e.log := by
  subst here
  exact (shape.layout.nrq_unlinked p n (shape.layout.own p n own).1 unlinked).1

theorem Exec.Goes.split (goes : e.Goes pow p e') (shape : Shape e) :
    (∃ q pc events, onRing pow (e.st.ring (e.st.pc p).rq) (e.st.pc p) = some (q, pc, events) ∧
      e' = e.accessed p q pc events) ∨ e.OffRing p e' := by
  -- a write to a hidden ring
  have write : ∀ (n : ℕ) (q : RingQueue ℕ Word), e'.st.ring = Function.update e.st.ring n q →
      n ∉ rings e.log → ∀ r ∈ rings e.log, (e'.st.ring r).head = (e.st.ring r).head ∧
        (e'.st.ring r).tail = (e.st.ring r).tail ∧ (e'.st.ring r).array = (e.st.ring r).array := by
    intro n q after hidden r member
    have other : r ≠ n := fun same => hidden (same ▸ member)
    rw [after, Function.update_of_ne other]
    exact ⟨rfl, rfl, rfl⟩
  have here' : ∀ {pc : Pc}, e'.st.pc p = pc → pc.Sound → pc.tailTicket = none ∧ pc.holds = none →
      (∀ r ∈ rings e.log, (e'.st.ring r).head = (e.st.ring r).head ∧
        (e'.st.ring r).tail = (e.st.ring r).tail ∧ (e'.st.ring r).array = (e.st.ring r).array) →
      rings e'.log = rings e.log →
      (∀ d r n, .deqDraw d r n ∈ e'.log ↔ .deqDraw d r n ∈ e.log) → e.OffRing p e' := by
    intro pc isAt sound noTicket ring sameRings draws
    subst isAt
    exact ⟨ring, Or.inl sameRings, sound, noTicket, draws⟩
  cases goes with
  | access q pc events access => exact Or.inl ⟨q, pc, events, access, rfl⟩
  | callEnq | callDeq | reuse | lost | swing =>
      exact Or.inr (here' (State.goto_pc ..) trivial ⟨rfl, rfl⟩ (fun r _ => ⟨rfl, rfl, rfl⟩) rfl
        (by simp))
  | alloc f =>
      refine Or.inr (here' (State.goto_pc ..) trivial ⟨rfl, rfl⟩
        (write e.st.fresh _ rfl fun member => ?_) rfl (by simp))
      exact lt_irrefl _ (shape.layout.fresh _ member)
  | soloTail f n here | soloVal f n here | soloIdx f n here =>
      exact Or.inr (here' (State.goto_pc ..) trivial ⟨rfl, rfl⟩
        (write n _ rfl (shape.hidden here rfl rfl)) rfl (by simp))
  | link f n here last =>
      have notIn := shape.hidden here rfl rfl
      have member := shape.rq p
      rw [here] at member
      have other : n ≠ f.tail := fun same => notIn (same ▸ member)
      refine Or.inr ⟨fun r _ => ?_,
        Or.inr ⟨f, n, here, rfl, Function.update_of_ne other .., List.mem_cons_self⟩, ?_, ?_, by simp⟩
      · simp only [State.goto, State.setRing, Function.update_apply]
        split
        next same =>
          rw [same]
          exact ⟨rfl, rfl, rfl⟩
        next => exact ⟨rfl, rfl, rfl⟩
      · rw [State.goto_pc]
        trivial
      · rw [State.goto_pc]
        exact ⟨rfl, rfl⟩

omit [DecidableEq T] in
theorem Shape.linked_ring (shape : Shape e) {f : EnqFrame} {n : ℕ}
    (here : e.st.pc p = .enqLink f n) :
    e.st.ring n = { (initRing EMPTY).setNode 0 ⟨f.arg, 0⟩ with tail := 1 } := by
  obtain ⟨has, filled⟩ := shape.layout.own p n (by rw [here]; rfl)
  rw [here] at filled
  exact (shape.layout.nrq_unlinked p n has (by rw [here]; rfl)).2.filled filled.1 filled.2

omit [DecidableEq T] in
theorem Shape.linked_cell (shape : Shape e) {f : EnqFrame} {n i : ℕ}
    (here : e.st.pc p = .enqLink f n) (isItem : ((e.st.ring n).array i).val ≠ EMPTY) :
    (e.st.ring n).tail = 1 ∧ (e.st.ring n).array i = ⟨f.arg, 0⟩ := by
  have ring := shape.linked_ring here
  have cell : (e.st.ring n).array i =
      if i = 0 then ⟨f.arg, 0⟩ else ⟨EMPTY, BitVec.ofNat 64 i⟩ := by
    rw [ring]
    simp only [RingQueue.setNode, initRing, Function.update_apply]
  rw [cell] at isItem ⊢
  split at isItem
  next first =>
    rw [if_pos first, ring]
    exact ⟨rfl, rfl⟩
  next => exact absurd rfl isItem

theorem Exec.Goes.log (goes : e.Goes pow p e') : e.log ⊆ e'.log := by
  cases goes with
  | access q pc events => exact List.subset_append_right _ _
  | callEnq | callDeq | swing => exact List.subset_cons_self _ _
  | link => exact List.subset_append_right [_, _, _] _
  | _ => exact List.Subset.refl _

end Steps

/-! ## Whatever the counters do -/

section Traced

variable {T : Type}

/-- Where the items and the tickets come from. -/
structure Exec.Traced (e : Exec T) : Prop where
  isOpen : ∀ p f t, (e.st.pc p).tailTicket = some (f, t) → crqIsClosed t = false
  stored : ∀ r ∈ rings e.log, ∀ i, ((e.st.ring r).array i).val ≠ EMPTY →
    ∃ c, .enqItem c r (nodeIndex ((e.st.ring r).array i).idx).toNat ((e.st.ring r).array i).val ∈
      e.log
  drawn : ∀ p r n, (e.st.pc p).holds = some (r, n) → ∃ d, .deqDraw d r n ∈ e.log

variable [DecidableEq T] {pow : ℕ} {e e' : Exec T} {p : T}

theorem Exec.Traced.tickets (traced : e.Traced) (shape : Shape e) (goes : e.Goes pow p e') :
    (∀ p f t, (e'.st.pc p).tailTicket = some (f, t) → crqIsClosed t = false) ∧
      ∀ p r n, (e'.st.pc p).holds = some (r, n) → ∃ d, .deqDraw d r n ∈ e'.log := by
  constructor
  · intro w f t holds
    by_cases same : w = p
    · subst same
      rcases goes.split shape with ⟨q, pc, events, access, rfl⟩ | off
      · rw [Exec.accessed_pc] at holds
        rcases onRing_tailTicket access holds with ⟨f', old, _⟩ | ⟨_, _, _, isOpen, _⟩
        · exact traced.isOpen w f' t old
        · exact isOpen
      · rw [off.noTicket.1] at holds
        cases holds
    · rw [goes.others same] at holds
      exact traced.isOpen w f t holds
  · intro w r n holds
    have keep : (e.st.pc w).holds = some (r, n) → ∃ d, .deqDraw d r n ∈ e'.log := fun old =>
      (traced.drawn w r n old).imp fun _ draw => goes.log draw
    by_cases same : w = p
    · subst same
      rcases goes.split shape with ⟨q, pc, events, access, rfl⟩ | off
      · rw [Exec.accessed_pc] at holds
        rcases onRing_holds access holds with old | ⟨d, draw⟩
        · exact keep old
        · exact ⟨d, List.mem_append_left _ draw⟩
      · rw [off.noTicket.2] at holds
        cases holds
    · rw [goes.others same] at holds
      exact keep holds

theorem Exec.Traced.items (traced : e.Traced) (shape : Shape e) (goes : e.Goes pow p e') :
    ∀ r ∈ rings e'.log, ∀ i, ((e'.st.ring r).array i).val ≠ EMPTY →
      ∃ c, .enqItem c r (nodeIndex ((e'.st.ring r).array i).idx).toNat
        ((e'.st.ring r).array i).val ∈ e'.log := by
  -- an item that was there before
  have keep : ∀ {r i : ℕ}, r ∈ rings e.log → ((e'.st.ring r).array i).val ≠ EMPTY →
      ((e.st.ring r).array i).val = ((e'.st.ring r).array i).val →
      nodeIndex ((e'.st.ring r).array i).idx = nodeIndex ((e.st.ring r).array i).idx →
      ∃ c, .enqItem c r (nodeIndex ((e'.st.ring r).array i).idx).toNat
        ((e'.st.ring r).array i).val ∈ e'.log := by
    intro r i member isItem val index
    rw [index, ← val]
    obtain ⟨c, item⟩ := traced.stored r member i (by rw [val]; exact isItem)
    exact ⟨c, goes.log item⟩
  rcases goes.split shape with ⟨q, pc, events, access, rfl⟩ | off
  · have update := onRing_updates access
    intro r member i isItem
    rw [Exec.accessed_rings access] at member
    have kept := keep (i := i) member isItem
    by_cases here : r = (e.st.pc p).rq
    · subst here
      rw [Exec.accessed_ring] at isItem kept ⊢
      rcases update.cell isItem with ⟨val, index⟩ | ⟨f, t, idx, at_, cell, item⟩
      · exact kept val index
      · have rq : (e.st.pc p).rq = f.tail := by rw [at_]; rfl
        have small := (crqIsClosed_false_iff t).mp (traced.isOpen p f t (by rw [at_]; rfl))
        rw [cell, nodeIndex_toNat, Nat.mod_eq_of_lt small, rq]
        exact ⟨f.call, List.mem_append_left _ item⟩
    · rw [Exec.accessed_ring_other here] at kept ⊢
      exact kept rfl rfl
  · have old : ∀ r ∈ rings e.log, ∀ i, ((e'.st.ring r).array i).val ≠ EMPTY →
        ∃ c, .enqItem c r (nodeIndex ((e'.st.ring r).array i).idx).toNat
          ((e'.st.ring r).array i).val ∈ e'.log := by
      intro r member i isItem
      refine keep member isItem ?_ ?_ <;> rw [(off.ring r member).2.2]
    rcases off.rings with same | ⟨f, n, here, new, content, item⟩
    · rw [same]
      exact old
    · rw [new]
      refine List.forall_mem_cons.mpr ⟨fun i isItem => ?_, old⟩
      obtain ⟨_, cell⟩ := shape.linked_cell here (content ▸ isItem)
      have ticket : (nodeIndex 0).toNat = 0 := by decide
      rw [content, cell, ticket]
      exact ⟨f.call, item⟩

theorem Exec.Traced.goes (traced : e.Traced) (shape : Shape e) (goes : e.Goes pow p e') :
    e'.Traced := by
  obtain ⟨isOpen, drawn⟩ := traced.tickets shape goes
  exact ⟨isOpen, traced.items shape goes, drawn⟩

theorem machine_traced (run : Reachable (machine pow) e) : e.Traced := by
  refine Reachable.invariant_along (I := Exec.Traced) ?_ ?_ run
  · rintro e rfl
    exact ⟨fun _ _ _ holds => (nomatch holds), fun _ _ _ isItem => absurd rfl isItem,
      fun _ _ _ holds => nomatch holds⟩
  · rintro e e' before traced ⟨p, a, does⟩
    exact traced.goes (machine_shape before) (does_goes does)

end Traced

/-! ## While the tickets are in range -/

section Ledger

variable {T : Type}

/-- The tail ticket of an `enq` lies below the tail of its ring. -/
def Exec.TicketsHeld (e : Exec T) : Prop :=
  ∀ p f t, (e.st.pc p).tailTicket = some (f, t) →
    t.toNat < (tailIndex (e.st.ring f.tail).tail).toNat

/-- The ticket of a stored item lies below the tail of its ring. -/
def Exec.CellsHeld (e : Exec T) : Prop :=
  ∀ r ∈ rings e.log, ∀ i, ((e.st.ring r).array i).val ≠ EMPTY →
    (nodeIndex ((e.st.ring r).array i).idx).toNat < (tailIndex (e.st.ring r).tail).toNat

/-- The head tickets that were drawn are those below the head. -/
structure Exec.HeadsDrawn (e : Exec T) : Prop where
  below : ∀ d r n, .deqDraw d r n ∈ e.log → r ∈ rings e.log ∧ n < (e.st.ring r).head.toNat
  all : ∀ r ∈ rings e.log, ∀ n < (e.st.ring r).head.toNat, ∃ d, .deqDraw d r n ∈ e.log

structure Exec.CallsApart (e : Exec T) : Prop where
  below : ∀ p c, (e.st.pc p).phase.call = some c → c < e.st.calls
  unique : ∀ p p' c, (e.st.pc p).phase.call = some c → (e.st.pc p').phase.call = some c → p = p'

structure Ledger (e : Exec T) : Prop where
  shape : Shape e
  sound : ∀ p, (e.st.pc p).Sound
  tickets : e.TicketsHeld
  cells : e.CellsHeld
  heads : e.HeadsDrawn
  calls : e.CallsApart

/-- The rings of the list stay, and their counters do not go back. -/
structure Exec.Grown (e e' : Exec T) : Prop where
  rings : ∀ r ∈ rings e.log, r ∈ RingList.rings e'.log
  ring : ∀ r ∈ RingList.rings e.log, Grows (e.st.ring r) (e'.st.ring r)

variable {pow : ℕ} {e e' : Exec T} {p : T}

theorem ledger_init : Ledger (Exec.init : Exec T) where
  shape := shape_init
  sound := fun _ => trivial
  tickets := fun _ _ _ holds => nomatch holds
  cells := fun _ _ _ isItem => absurd rfl isItem
  heads := ⟨fun _ _ _ draw => (nomatch draw), fun _ _ n less => absurd less (Nat.not_lt_zero n)⟩
  calls := ⟨fun _ _ call => (nomatch call), fun _ _ _ call => nomatch call⟩

/-- The next tickets lie below `2^63`, and the tail index is not about to overflow. -/
def TicketsInRange (s : State T) : Prop :=
  ∀ r < s.fresh, (s.ring r).head.toNat < 2 ^ 63 ∧ (tailIndex (s.ring r).tail).toNat + 1 < 2 ^ 63

instance (s : State T) : Decidable (TicketsInRange s) :=
  inferInstanceAs (Decidable (∀ r < s.fresh, _))

theorem Shape.room (shape : Shape e) (below : TicketsInRange e.st) (p : T) :
    (e.st.ring (e.st.pc p).rq).head.toNat < 2 ^ 63 ∧
      (tailIndex (e.st.ring (e.st.pc p).rq).tail).toNat + 1 < 2 ^ 63 :=
  below _ (shape.layout.fresh _ (shape.rq p))

variable [DecidableEq T]

/-- One step within the ticket bound. -/
def Exec.ticketed (pow : ℕ) (p : T) (a : Act) (e : Exec T) : Option (Exec T) :=
  if TicketsInRange e.st then e.does pow p a else none

def ticketSystem (pow : ℕ) : System (Exec T) where
  init := fun e => e = Exec.init
  step := fun e e' => ∃ p a, e.ticketed pow p a = some e'

theorem ticketed_goes {a : Act} (taken : e.ticketed pow p a = some e') :
    TicketsInRange e.st ∧ e.Goes pow p e' := by
  unfold Exec.ticketed at taken
  split at taken
  next below => exact ⟨below, does_goes taken⟩
  next => cases taken

theorem ticketed_reaches (pow : ℕ) (schedule : List (T × Act)) (P : Exec T → Bool)
    (found : (runSchedule (fun e a => e.ticketed pow a.1 a.2) Exec.init schedule).any P = true) :
    ∃ e, Reachable (ticketSystem pow) e ∧ P e = true := by
  have start : (ticketSystem pow).init (Exec.init : Exec T) := rfl
  refine runSchedule_any ?_ start schedule P found
  exact fun e a e' taken => ⟨a.1, a.2, taken⟩

theorem Ledger.grown (ledger : Ledger e) (below : TicketsInRange e.st)
    (goes : e.Goes pow p e') : e.Grown e' := by
  rcases goes.split ledger.shape with ⟨q, pc, events, access, rfl⟩ | off
  · have update := onRing_updates access
    constructor
    · intro r member
      rw [Exec.accessed_rings access]
      exact member
    · intro r member
      by_cases here : r = (e.st.pc p).rq
      · obtain ⟨roomHead, roomTail⟩ := ledger.shape.room below p
        rw [here, Exec.accessed_ring]
        exact update.grows (ledger.sound p) (by omega) roomTail
      · rw [Exec.accessed_ring_other here]
        exact .same rfl rfl
  · constructor
    · intro r member
      rcases off.rings with same | ⟨f, n, _, new, _, _⟩
      · rw [same]
        exact member
      · rw [new]
        exact List.mem_cons_of_mem _ member
    · intro r member
      obtain ⟨head, tail, _⟩ := off.ring r member
      exact .same head tail

theorem Exec.TicketsHeld.goes (ledger : Ledger e) (below : TicketsInRange e.st)
    (goes : e.Goes pow p e') : e'.TicketsHeld := by
  have grown := ledger.grown below goes
  have keep : ∀ w f t, (e.st.pc w).tailTicket = some (f, t) →
      t.toNat < (tailIndex (e'.st.ring f.tail).tail).toNat := by
    intro w f t holds
    have member : f.tail ∈ rings e.log := Pc.tailTicket_rq holds ▸ ledger.shape.rq w
    exact (ledger.tickets w f t holds).trans_le (grown.ring f.tail member).tail
  intro w f t holds
  by_cases same : w = p
  · subst same
    rcases goes.split ledger.shape with ⟨q, pc, events, access, rfl⟩ | off
    · rw [Exec.accessed_pc] at holds
      rcases onRing_tailTicket access holds with
        ⟨f', holds', rq⟩ | ⟨f', here, rfl, isOpen, isTail, tail⟩
      · rw [rq]
        exact keep w f' t holds'
      · have rq : (e.st.pc w).rq = f.tail := by rw [here]; rfl
        have room := (ledger.shape.room below w).2
        have small := (crqIsClosed_false_iff t).mp isOpen
        rw [isTail, tailIndex_toNat] at room
        rw [← rq, Exec.accessed_ring, tail, tailIndex_toNat, add_one_toNat t (by omega)]
        omega
    · rw [off.noTicket.1] at holds
      cases holds
  · rw [goes.others same] at holds
    exact keep w f t holds

theorem Exec.CellsHeld.goes (ledger : Ledger e) (below : TicketsInRange e.st)
    (goes : e.Goes pow p e') : e'.CellsHeld := by
  have grown := ledger.grown below goes
  -- an item that was there before
  have keep : ∀ {r i : ℕ}, r ∈ rings e.log → ((e'.st.ring r).array i).val ≠ EMPTY →
      ((e.st.ring r).array i).val = ((e'.st.ring r).array i).val →
      nodeIndex ((e'.st.ring r).array i).idx = nodeIndex ((e.st.ring r).array i).idx →
      (nodeIndex ((e'.st.ring r).array i).idx).toNat < (tailIndex (e'.st.ring r).tail).toNat := by
    intro r i member isItem val index
    rw [index]
    exact (ledger.cells r member i (by rw [val]; exact isItem)).trans_le (grown.ring r member).tail
  rcases goes.split ledger.shape with ⟨q, pc, events, access, rfl⟩ | off
  · have update := onRing_updates access
    intro r member i isItem
    rw [Exec.accessed_rings access] at member
    have kept := keep (i := i) member isItem
    by_cases here : r = (e.st.pc p).rq
    · subst here
      rw [Exec.accessed_ring] at isItem kept ⊢
      rcases update.cell isItem with ⟨val, index⟩ | ⟨f, t, idx, at_, cell, _⟩
      · exact kept val index
      · -- the ticket of the `enq` lies below the tail
        have rq : (e.st.pc p).rq = f.tail := by rw [at_]; rfl
        have ticket := ledger.tickets p f t (by rw [at_]; rfl)
        have tail := (grown.ring _ member).tail
        rw [Exec.accessed_ring, rq] at tail
        rw [cell, nodeIndex_toNat]
        exact lt_of_le_of_lt (Nat.mod_le _ _) (ticket.trans_le tail)
    · rw [Exec.accessed_ring_other here] at kept ⊢
      exact kept rfl rfl
  · have old : ∀ r ∈ rings e.log, ∀ i, ((e'.st.ring r).array i).val ≠ EMPTY →
        (nodeIndex ((e'.st.ring r).array i).idx).toNat < (tailIndex (e'.st.ring r).tail).toNat := by
      intro r member i isItem
      refine keep member isItem ?_ ?_ <;> rw [(off.ring r member).2.2]
    rcases off.rings with same | ⟨f, n, here, new, content, _⟩
    · rw [Exec.CellsHeld, same]
      exact old
    · rw [Exec.CellsHeld, new]
      refine List.forall_mem_cons.mpr ⟨fun i isItem => ?_, old⟩
      obtain ⟨tail, cell⟩ := ledger.shape.linked_cell here (content ▸ isItem)
      rw [content, cell, tail]
      exact show (nodeIndex 0).toNat < (tailIndex 1).toNat by decide

theorem Exec.HeadsDrawn.goes (ledger : Ledger e) (below : TicketsInRange e.st)
    (goes : e.Goes pow p e') : e'.HeadsDrawn := by
  have grown := ledger.grown below goes
  obtain ⟨heads, all⟩ := ledger.heads
  have keep : ∀ d r n, .deqDraw d r n ∈ e.log →
      r ∈ rings e'.log ∧ n < (e'.st.ring r).head.toNat := by
    intro d r n draw
    obtain ⟨member, less⟩ := heads d r n draw
    exact ⟨grown.rings r member, less.trans_le (grown.ring r member).head⟩
  rcases goes.split ledger.shape with ⟨q, pc, events, access, rfl⟩ | off
  · have update := onRing_updates access
    have member := ledger.shape.rq p
    have sameRings := Exec.accessed_rings access
    have older : ∀ {d r n}, .deqDraw d r n ∈ e.log →
        .deqDraw d r n ∈ (e.accessed p q pc events).log := List.mem_append_right _
    rcases update.deqDraw with ⟨f, here, head, rfl⟩ | ⟨head, noDraw⟩
    · have rq : (e.st.pc p).rq = f.head := by rw [here]; rfl
      have room := (ledger.shape.room below p).1
      have above : q.head.toNat = (e.st.ring (e.st.pc p).rq).head.toNat + 1 := by
        rw [head, add_one_toNat _ (by omega)]
      constructor
      · intro d r n draw
        rcases List.mem_cons.mp draw with new | old
        · cases new
          rw [sameRings, ← rq, Exec.accessed_ring, above]
          exact ⟨member, Nat.lt_succ_self _⟩
        · exact keep d r n old
      · intro r member' n less
        rw [sameRings] at member'
        by_cases onRing : r = (e.st.pc p).rq
        · subst onRing
          rw [Exec.accessed_ring, above] at less
          rcases Nat.lt_succ_iff_lt_or_eq.mp less with old | new
          · obtain ⟨d, draw⟩ := all _ member n old
            exact ⟨d, older draw⟩
          · rw [new]
            refine ⟨f.call, List.mem_append_left _ (List.mem_singleton.mpr ?_)⟩
            rw [rq]
        · rw [Exec.accessed_ring_other onRing] at less
          obtain ⟨d, draw⟩ := all r member' n less
          exact ⟨d, older draw⟩
    · constructor
      · intro d r n draw
        exact keep d r n ((List.mem_append.mp draw).resolve_left (noDraw d r n))
      · intro r member' n less
        rw [sameRings] at member'
        have sameHead : ((e.accessed p q pc events).st.ring r).head = (e.st.ring r).head := by
          by_cases onRing : r = (e.st.pc p).rq
          · rw [onRing, Exec.accessed_ring, head]
          · rw [Exec.accessed_ring_other onRing]
        rw [sameHead] at less
        obtain ⟨d, draw⟩ := all r member' n less
        exact ⟨d, older draw⟩
  · have old : ∀ r ∈ rings e.log, ∀ n < (e'.st.ring r).head.toNat, ∃ d, .deqDraw d r n ∈ e'.log := by
      intro r member n less
      rw [(off.ring r member).1] at less
      obtain ⟨d, draw⟩ := all r member n less
      exact ⟨d, (off.draws d r n).mpr draw⟩
    refine ⟨fun d r n draw => keep d r n ((off.draws d r n).mp draw), ?_⟩
    rcases off.rings with same | ⟨f, m, here, new, content, _⟩
    · rw [same]
      exact old
    · rw [new]
      refine List.forall_mem_cons.mpr ⟨fun n less => ?_, old⟩
      rw [content, ledger.shape.linked_ring here] at less
      exact absurd less (Nat.not_lt_zero n)

theorem Exec.Goes.call (goes : e.Goes pow p e') :
    (e'.st.calls = e.st.calls ∧ ((e'.st.pc p).phase.call = (e.st.pc p).phase.call ∨
      (e'.st.pc p).phase.call = none)) ∨
    (e'.st.calls = e.st.calls + 1 ∧ (e'.st.pc p).phase.call = some e.st.calls) := by
  cases goes with
  | callEnq | callDeq =>
      rw [State.goto_pc]
      exact Or.inr ⟨rfl, rfl⟩
  | swing f n here =>
      rw [State.goto_pc]
      exact Or.inl ⟨rfl, Or.inr rfl⟩
  | access q pc events access =>
      rw [Exec.accessed_pc]
      cases onRing_stays access with
      | here _ phase | hop _ _ phase => exact Or.inl ⟨rfl, Or.inl (congrArg Phase.call phase)⟩
      | back idle =>
          rw [idle]
          exact Or.inl ⟨rfl, Or.inr rfl⟩
  | reuse f n here | alloc f here | soloTail f n here | soloVal f n here | soloIdx f n here
  | link f n here | lost f n m here =>
      rw [State.goto_pc, here]
      exact Or.inl ⟨rfl, Or.inl rfl⟩

theorem Exec.CallsApart.goes (apart : e.CallsApart) (goes : e.Goes pow p e') : e'.CallsApart := by
  -- a call that runs after the step ran before, or is the new one
  have old : ∀ w c, (e'.st.pc w).phase.call = some c →
      (e.st.pc w).phase.call = some c ∨ (w = p ∧ c = e.st.calls ∧ e'.st.calls = e.st.calls + 1) := by
    intro w c call
    by_cases same : w = p
    · subst same
      rcases goes.call with ⟨_, isSame | isNone⟩ | ⟨more, isNew⟩
      · exact Or.inl (isSame ▸ call)
      · rw [isNone] at call
        cases call
      · exact Or.inr ⟨rfl, Option.some.inj (call.symm.trans isNew), more⟩
    · rw [goes.others same] at call
      exact Or.inl call
  have grows : e.st.calls ≤ e'.st.calls := by
    rcases goes.call with ⟨same, _⟩ | ⟨more, _⟩
    · exact same.ge
    · exact more ▸ Nat.le_succ _
  constructor
  · intro w c call
    rcases old w c call with before | ⟨_, isNew, more⟩
    · exact (apart.below w c before).trans_le grows
    · rw [isNew, more]
      exact Nat.lt_succ_self _
  · intro w w' c call call'
    rcases old w c call with before | ⟨isP, isNew, _⟩
    · rcases old w' c call' with before' | ⟨_, isNew', _⟩
      · exact apart.unique w w' c before before'
      · exact absurd (apart.below w c before) (isNew' ▸ lt_irrefl _)
    · rcases old w' c call' with before' | ⟨isP', _, _⟩
      · exact absurd (apart.below w' c before') (isNew ▸ lt_irrefl _)
      · rw [isP, isP']

theorem Ledger.goes (ledger : Ledger e) (below : TicketsInRange e.st)
    (goes : e.Goes pow p e') : Ledger e' where
  shape := ledger.shape.goes goes
  sound := by
    intro w
    by_cases same : w = p
    · subst same
      rcases goes.split ledger.shape with ⟨q, pc, events, access, rfl⟩ | off
      · have room := (ledger.shape.room below w).1
        rw [Exec.accessed_pc]
        exact onRing_sound room (ledger.sound w) access
      · exact off.sound
    · rw [goes.others same]
      exact ledger.sound w
  tickets := .goes ledger below goes
  cells := .goes ledger below goes
  heads := .goes ledger below goes
  calls := ledger.calls.goes goes

theorem reachable_ledger (run : Reachable (ticketSystem pow) e) : Ledger e := by
  refine Reachable.invariant (I := Ledger) ?_ ?_ run
  · rintro e rfl
    exact ledger_init
  · rintro e e' ledger ⟨p, a, taken⟩
    obtain ⟨below, goes⟩ := ticketed_goes taken
    exact ledger.goes below goes

end Ledger

end Elcrq.C
