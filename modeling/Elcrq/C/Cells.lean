import Elcrq.C.Invariant

/-! # The cells of a ring

Every cell keeps an index of its own residue, and its contents follow each other
in one order: by index, then empty before occupied, then safe before unsafe while
occupied.  So no content comes back, and a `CAS2` that succeeds finds the content
from which its call read `val`, up to an unsafe bit that was set on an occupied
cell: `deq` reads `idx` before `val`, and the `enq` between the two reads may
have cleared the bit. -/

set_option autoImplicit false

namespace Elcrq.C

open Concurrent Concurrent.TicketRing Concurrent.RingList

deriving instance DecidableEq for RingNode

/-! ## The order of the contents -/

/-- `(node_index(idx), occupied, unsafe while occupied)`, compared from the left. -/
def rank (c : RingNode Word) : ℕ ×ₗ Bool ×ₗ Bool :=
  toLex ((nodeIndex c.idx).toNat, toLex (!isEmpty c.val, !isEmpty c.val && nodeUnsafe c.idx != 0))

theorem itemOf_isSome (v : Word) : (itemOf v).isSome = !isEmpty v := by
  unfold itemOf isEmpty
  split
  next same =>
    rw [same]
    rfl
  next other => simp [other]

theorem rank_abs (c : RingNode Word) : (c.abs itemOf).rank = rank c := by
  rw [Cell.rank, RingNode.abs, rank, itemOf_isSome]

theorem word_ext {i j : Word} (index : nodeIndex i = nodeIndex j)
    (flag : (nodeUnsafe i != 0) = (nodeUnsafe j != 0)) : i = j := by
  apply BitVec.eq_of_toNat_eq
  have index := congrArg BitVec.toNat index
  rw [nodeIndex_toNat, nodeIndex_toNat] at index
  rw [nodeUnsafe_bne, nodeUnsafe_bne, decide_eq_decide] at flag
  have := i.isLt
  have := j.isLt
  omega

theorem itemOf_injective {v w : Word} (same : itemOf v = itemOf w) : v = w := by
  unfold itemOf at same
  split at same
  next isEmpty =>
    split at same
    next isEmpty' => rw [isEmpty, isEmpty']
    next => cases same
  next =>
    split at same
    next => cases same
    next => exact Option.some.inj same

theorem RingNode.ext_abs {c c' : RingNode Word} (same : c.abs itemOf = c'.abs itemOf) :
    c = c' := by
  obtain ⟨v, i⟩ := c
  obtain ⟨v', i'⟩ := c'
  simp only [RingNode.abs, Cell.mk.injEq] at same
  obtain ⟨index, flag, item⟩ := same
  rw [itemOf_injective item, word_ext (BitVec.eq_of_toNat_eq index) flag]

/-- `c'` is `c` or a later content of the same cell. -/
def Rises (c c' : RingNode Word) : Prop := c' = c ∨ rank c < rank c'

theorem Rises.trans {c c' c'' : RingNode Word} (first : Rises c c') (second : Rises c' c'') :
    Rises c c'' := by
  rcases second with rfl | larger
  · exact first
  · rcases first with rfl | larger'
    · exact Or.inr larger
    · exact Or.inr (larger'.trans larger)

theorem Rises.le {c c' : RingNode Word} (rises : Rises c c') : rank c ≤ rank c' := by
  rcases rises with rfl | larger
  · exact le_rfl
  · exact larger.le

theorem Rises.index_le {c c' : RingNode Word} (rises : Rises c c') :
    (nodeIndex c.idx).toNat ≤ (nodeIndex c'.idx).toNat := by
  rcases rises with rfl | larger
  · exact le_rfl
  · exact (Prod.Lex.lt_iff.mp larger).elim le_of_lt fun same => same.1.le

theorem rank_lt_same_index {c c' : RingNode Word} (less : rank c < rank c')
    (index : (nodeIndex c'.idx).toNat ≤ (nodeIndex c.idx).toNat) :
    (c.val = EMPTY ∧ c'.val ≠ EMPTY) ∨ (c.val ≠ EMPTY ∧ c'.val ≠ EMPTY ∧
      nodeUnsafe c.idx = 0 ∧ nodeUnsafe c'.idx ≠ 0) := by
  rw [rank, rank, Prod.Lex.toLex_lt_toLex] at less
  rcases less with less | ⟨_, less⟩
  · exact absurd less (Nat.not_lt.mpr index)
  · rw [Prod.Lex.toLex_lt_toLex] at less
    simp only [isEmpty, Bool.lt_iff] at less
    by_cases isEmpty : c.val = EMPTY <;> by_cases isEmpty' : c'.val = EMPTY <;>
      simp_all

theorem nodeIndex_setUnsafe (i : Word) : nodeIndex (setUnsafe i) = nodeIndex i := by
  apply BitVec.eq_of_toNat_eq
  have bound : i.toNat % 2 ^ 63 < 2 ^ 63 := Nat.mod_lt _ (by decide)
  rw [nodeIndex_toNat, nodeIndex_toNat, setUnsafe_toNat]
  omega

theorem nodeUnsafe_setUnsafe (i : Word) : nodeUnsafe (setUnsafe i) ≠ 0 := by
  rw [nodeUnsafe_ne_zero, setUnsafe_toNat]
  omega

theorem Rises.not_back {c c' c'' : RingNode Word} (first : Rises c c') (changed : c' ≠ c)
    (second : Rises c' c'') : c'' ≠ c := by
  rintro rfl
  have larger := first.resolve_left changed
  exact absurd (larger.trans_le second.le) (lt_irrefl _)

/-! ## The five `CAS2` -/

/-- A `CAS2`: its cell, the content it expects and the content it stores. -/
structure Swap where
  cell : ℕ
  old : RingNode Word
  new : RingNode Word

/-- The `CAS2` that a thread makes next. -/
def Pc.cas2 (pow : ℕ) : Pc → Option Swap
  | .enqCas2 f t idx => some ⟨cellOf pow t, ⟨EMPTY, idx⟩, ⟨f.arg, t⟩⟩
  | .deqTake _ h _ _ cellIdx val =>
      some ⟨cellOf pow h, ⟨val, cellIdx⟩, ⟨EMPTY, nodeUnsafe cellIdx ||| (h + ringSize pow)⟩⟩
  | .deqMark _ h _ _ cellIdx val =>
      some ⟨cellOf pow h, ⟨val, cellIdx⟩, ⟨val, setUnsafe (nodeIndex cellIdx)⟩⟩
  | .deqSkipUnsafe _ h _ _ cellIdx =>
      some ⟨cellOf pow h, ⟨EMPTY, cellIdx⟩, ⟨EMPTY, nodeUnsafe cellIdx ||| (h + ringSize pow)⟩⟩
  | .deqSkip _ h _ _ idx => some ⟨cellOf pow h, ⟨EMPTY, idx⟩, ⟨EMPTY, h + ringSize pow⟩⟩
  | _ => none

/-- The ticket of a call that is about to read `val`, and the `idx` it has read. -/
def Pc.seen : Pc → Option (Word × Word)
  | .enqVal _ t idx => some (t, idx)
  | .deqVal _ h _ _ cellIdx => some (h, cellIdx)
  | _ => none

/-- The ticket of a call that has read its cell, and what it has read. -/
def Pc.read : Pc → Option (Word × RingNode Word)
  | .enqHead _ t idx | .enqCas2 _ t idx => some (t, ⟨EMPTY, idx⟩)
  | .deqTail _ h _ cellIdx | .deqSkipUnsafe _ h _ _ cellIdx | .deqSkip _ h _ _ cellIdx =>
      some (h, ⟨EMPTY, cellIdx⟩)
  | .deqTake _ h _ _ cellIdx val | .deqMark _ h _ _ cellIdx val => some (h, ⟨val, cellIdx⟩)
  | _ => none

section Access

variable {pow : ℕ} {q q' : RingQueue ℕ Word} {pc pc' : Pc} {events : List (Event Word)}

theorem Pc.seen_of_read {found : Word × RingNode Word} (here : pc.read = some found) :
    pc.seen = none := by
  cases pc <;> first | rfl | cases here

theorem Pc.cas2_read {swap : Swap} (here : pc.cas2 pow = some swap) :
    ∃ t, pc.read = some (t, swap.old) ∧ swap.cell = cellOf pow t := by
  cases pc <;> cases here <;> exact ⟨_, rfl, rfl⟩

theorem onRing_cas2 {swap : Swap} (access : onRing pow q pc = some (q', pc', events))
    (here : pc.cas2 pow = some swap) (same : q.array swap.cell = swap.old) :
    q' = q.setNode swap.cell swap.new := by
  cases pc <;> cases here <;>
    simp only [onRing, RingQueue.cas2_succeeds same] at access <;> cases access <;> rfl

theorem atEmptyCell_read {f : DeqFrame} {h tt : Word} {r : ℕ} {cellIdx t : Word}
    {c : RingNode Word} (here : (atEmptyCell f h tt r cellIdx).read = some (t, c)) :
    t = h ∧ c.val = EMPTY ∧ nodeIndex c.idx = nodeIndex cellIdx := by
  unfold atEmptyCell at here
  split at here
  · cases here
    exact ⟨rfl, rfl, rfl⟩
  · split at here
    · cases here
      exact ⟨rfl, rfl, nodeIndex_nodeIndex _⟩
    · cases here

theorem onRing_read_rq {found : Word × RingNode Word}
    (access : onRing pow q pc = some (q', pc', events)) (here : pc'.read = some found) :
    pc'.rq = pc.rq := by
  cases onRing_stays access with
  | here rq => exact rq
  | hop readsNext =>
      cases pc with
      | enqNext | deqNext =>
          simp only [onRing] at access
          split at access <;> cases access <;> cases here
      | _ => cases readsNext
  | back idle =>
      rw [idle] at here
      cases here

/-- What a call has read of its cell it read just now, or it had read it before. -/
theorem onRing_read {t : Word} {c : RingNode Word}
    (access : onRing pow q pc = some (q', pc', events)) (here : pc'.read = some (t, c)) :
    (∃ idx, pc.seen = some (t, idx) ∧ nodeIndex c.idx = nodeIndex idx ∧
      c.val = (q.array (cellOf pow t)).val) ∨
    ∃ c', pc.read = some (t, c') ∧ nodeIndex c.idx = nodeIndex c'.idx ∧ c.val = c'.val := by
  cases pc with
  | enqVal f t' idx =>
      simp only [onRing] at access
      split at access
      next isEmpty' =>
        have isEmpty' : (q.array (cellOf pow t')).val = EMPTY := beq_iff_eq.mp isEmpty'
        (repeat' split at access) <;> cases access <;> cases here
        all_goals exact Or.inl ⟨idx, rfl, rfl, isEmpty'.symm⟩
      next =>
        cases access
        cases here
  | enqHead f t' idx =>
      simp only [onRing] at access
      split at access <;> cases access <;> cases here
      exact Or.inr ⟨_, rfl, rfl, rfl⟩
  | deqVal f h tt r cellIdx =>
      simp only [onRing] at access
      split at access
      next =>
        cases access
        cases here
      next =>
        split at access
        next isEmpty' =>
          have isEmpty' : (q.array (cellOf pow h)).val = EMPTY := beq_iff_eq.mp isEmpty'
          split at access
          next =>
            cases access
            cases here
            exact Or.inl ⟨cellIdx, rfl, rfl, isEmpty'.symm⟩
          next =>
            cases access
            obtain ⟨rfl, val, index⟩ := atEmptyCell_read here
            exact Or.inl ⟨cellIdx, rfl, index, val.trans isEmpty'.symm⟩
        next =>
          split at access <;> cases access <;> cases here <;>
            exact Or.inl ⟨cellIdx, rfl, rfl, rfl⟩
  | deqTail f h r cellIdx =>
      cases access
      obtain ⟨rfl, val, index⟩ := atEmptyCell_read here
      exact Or.inr ⟨_, rfl, index, val⟩
  | _ =>
      simp only [onRing] at access
      (repeat' split at access) <;> cases access <;> cases here

end Access

/-! ## Runs -/

section Runs

variable {T : Type}

/-- Cell `i` of every ring has an index that is `i` modulo `RING_SIZE`. -/
def Exec.Congruent (pow : ℕ) (e : Exec T) : Prop :=
  ∀ r, ∀ i < 2 ^ pow, (nodeIndex ((e.st.ring r).array i).idx).toNat % 2 ^ pow = i

/-- The next access of thread `p` is a `CAS2` that succeeds. -/
def Exec.Swaps (pow : ℕ) (e : Exec T) (p : T) (swap : Swap) : Prop :=
  (e.st.pc p).cas2 pow = some swap ∧ (e.st.ring (e.st.pc p).rq).array swap.cell = swap.old

/-- Thread `p` last read `val` in state `read`, and `since` are the states after it. -/
structure ReadIn (p : T) (past : List (Exec T)) (read : Exec T) (since : List (Exec T)) : Prop where
  split : ∃ older, past = since ++ read :: older
  reads : (read.st.pc p).seen ≠ none
  after : ∀ x ∈ since, (x.st.pc p).seen = none

/-- At a `CAS2` that succeeds, `same` holds between the content of the cell in any state
since the call has read its `val`, and the content now. -/
def SwapsKept (pow : ℕ) (same : RingNode Word → RingNode Word → Prop) (e : Exec T)
    (past : List (Exec T)) : Prop :=
  ∀ p swap, e.Swaps pow p swap → ∃ read since, ReadIn p past read since ∧
    ∀ x ∈ read :: since, same ((x.st.ring (e.st.pc p).rq).array swap.cell) swap.old

/-- `c'` is `c`, or `c` with the unsafe bit set while it is occupied. -/
def SameOrMarked (c c' : RingNode Word) : Prop :=
  c' = c ∨ (c.val ≠ EMPTY ∧ nodeUnsafe c.idx = 0 ∧ c' = ⟨c.val, setUnsafe c.idx⟩)

theorem sameOrMarked {first middle last : RingNode Word} (val : last.val = first.val)
    (index : (nodeIndex last.idx).toNat ≤ (nodeIndex first.idx).toNat) (up : Rises first middle)
    (up' : Rises middle last) : SameOrMarked middle last := by
  have below := up.index_le
  have above := up'.index_le
  rcases up' with same | larger
  · exact Or.inl same
  refine Or.inr ?_
  have word : nodeIndex last.idx = nodeIndex middle.idx := BitVec.eq_of_toNat_eq (by omega)
  rcases rank_lt_same_index larger (by omega) with
    ⟨isEmpty, full⟩ | ⟨full, fullLast, safe, marked⟩
  · -- the value was there at first, and a cell is not emptied without a larger index
    rcases up with same | larger'
    · rw [same, ← val] at isEmpty
      exact absurd isEmpty full
    · rcases rank_lt_same_index larger' (by omega) with ⟨_, full'⟩ | ⟨_, full', _⟩
      · exact absurd isEmpty full'
      · exact absurd isEmpty full'
  · rcases up with same | larger'
    · refine ⟨full, safe, ?_⟩
      obtain ⟨lastVal, lastIdx⟩ := last
      have isVal : lastVal = middle.val := by rw [same, ← val]
      have isIdx : lastIdx = setUnsafe middle.idx := by
        refine word_ext ?_ ?_
        · rw [nodeIndex_setUnsafe]
          exact word
        · rw [bne_iff_ne.mpr marked, bne_iff_ne.mpr (nodeUnsafe_setUnsafe _)]
      rw [isVal, isIdx]
    · rcases rank_lt_same_index larger' (by omega) with ⟨isEmpty, _⟩ | ⟨_, _, _, marked'⟩
      · rw [← val] at isEmpty
        exact absurd isEmpty fullLast
      · exact absurd safe marked'

variable [DecidableEq T]

/-- A `CAS2` that changes its cell raises the rank. -/
def SwapsRise (pow : ℕ) (e : Exec T) : Prop :=
  ∀ p swap e', e.Swaps pow p swap → e.next pow p .run = some e' →
    (e'.st.ring (e.st.pc p).rq).array swap.cell = swap.new ∧
      (swap.new ≠ swap.old → rank swap.old < rank swap.new)

/-- A content that was replaced does not come back. -/
def NoReturn (pow : ℕ) (e : Exec T) : Prop :=
  ∀ r ∈ rings e.log, ∀ i < 2 ^ pow, ∀ e' e'', Relation.ReflTransGen (system pow).step e e' →
    Relation.ReflTransGen (system pow).step e' e'' →
    (e'.st.ring r).array i ≠ (e.st.ring r).array i →
    (e''.st.ring r).array i ≠ (e.st.ring r).array i

variable {pow : ℕ} {e e' : Exec T} {past : List (Exec T)} {p : T} {a : Act}

omit [DecidableEq T] in
theorem Inv.congruent (inv : Inv pow e) {r : ℕ} (member : r ∈ rings e.log) {i : ℕ}
    (inside : i < 2 ^ pow) : (nodeIndex ((e.st.ring r).array i).idx).toNat % 2 ^ pow = i := by
  have congruent := (inv.queue.ring r member).ring.congruent i inside
  change (((e.abs pow).ring r).cell i).index % 2 ^ pow = i at congruent
  rw [Exec.abs_ring member] at congruent
  simpa only [RingQueue.abs, RingNode.abs, if_pos inside] using congruent

theorem Inv.rises (inv : Inv pow e) (next : e.next pow p a = some e') {r : ℕ}
    (member : r ∈ rings e.log) {i : ℕ} (inside : i < 2 ^ pow) :
    Rises ((e.st.ring r).array i) ((e'.st.ring r).array i) := by
  obtain ⟨refines, _⟩ := inv.next next
  have rises := steps_cell_rank (Nat.two_pow_pos pow) inv.queue refines member i
  rw [Exec.abs_ring member, Exec.abs_ring (steps_rings refines r member)] at rises
  simp only [RingQueue.abs, if_pos inside, rank_abs] at rises
  exact rises.imp_left RingNode.ext_abs

theorem steps_rise (inv : Inv pow e) (steps : Relation.ReflTransGen (system pow).step e e') :
    Inv pow e' ∧ ∀ r ∈ rings e.log, r ∈ rings e'.log ∧
      ∀ i < 2 ^ pow, Rises ((e.st.ring r).array i) ((e'.st.ring r).array i) := by
  induction steps with
  | refl => exact ⟨inv, fun r member => ⟨member, fun _ _ => Or.inl rfl⟩⟩
  | tail _ step ih =>
      obtain ⟨p, a, next⟩ := step
      obtain ⟨inv, rise⟩ := ih
      obtain ⟨refines, after⟩ := inv.next next
      refine ⟨after, fun r member => ?_⟩
      obtain ⟨member, before⟩ := rise r member
      refine ⟨steps_rings refines r member, fun i inside => ?_⟩
      exact (before i inside).trans (inv.rises next member inside)

omit [DecidableEq T] in
theorem Inv.cell_lt (inv : Inv pow e) (t : Word) : cellOf pow t < 2 ^ pow := by
  rw [cellOf_eq inv.small]
  exact Elcrq.cell_lt t

/-! ### Indices -/

theorem initRing_congruent (small : pow < 63) {i : ℕ} (inside : i < 2 ^ pow) :
    (nodeIndex ((initRing EMPTY : RingQueue ℕ Word).array i).idx).toNat % 2 ^ pow = i := by
  have bound : 2 ^ pow < 2 ^ 63 := Nat.pow_lt_pow_right (by decide) small
  have word : (BitVec.ofNat 64 i).toNat = i := by
    rw [BitVec.toNat_ofNat]
    omega
  show (nodeIndex (BitVec.ofNat 64 i)).toNat % 2 ^ pow = i
  rw [nodeIndex_toNat, word, Nat.mod_eq_of_lt (inside.trans bound), Nat.mod_eq_of_lt inside]

/-- Rings of the list keep their residues by the invariant of the queue, the others are
only filled. -/
theorem Exec.Congruent.goes (inv : Inv pow e) (after : Inv pow e') (congruent : e.Congruent pow)
    (goes : e.Goes pow p e') : e'.Congruent pow := by
  intro r i inside
  by_cases member : r ∈ rings e'.log
  · exact after.congruent member inside
  have same : (e'.st.ring r).array i = (e.st.ring r).array i →
      (nodeIndex ((e'.st.ring r).array i).idx).toNat % 2 ^ pow = i := fun same => by
    rw [same]
    exact congruent r i inside
  have write : ∀ (n : ℕ) (q : RingQueue ℕ Word), e'.st.ring = Function.update e.st.ring n q →
      (nodeIndex (q.array i).idx).toNat % 2 ^ pow = i →
      (nodeIndex ((e'.st.ring r).array i).idx).toNat % 2 ^ pow = i := by
    intro n q ring cell
    by_cases here : r = n
    · rw [ring, here, Function.update_self]
      exact cell
    · exact same (by rw [ring, Function.update_of_ne here])
  have fill : ∀ (n : ℕ) (c : RingNode Word), (nodeIndex c.idx).toNat % 2 ^ pow = 0 →
      (nodeIndex (((e.st.ring n).setNode 0 c).array i).idx).toNat % 2 ^ pow = i := by
    intro n c zero
    simp only [RingQueue.setNode, Function.update_apply]
    split
    next first =>
      rw [first]
      exact zero
    next => exact congruent n i inside
  cases goes with
  | callEnq | callDeq | reuse | lost | swing => exact same rfl
  | alloc f here => exact write e.st.fresh _ rfl (initRing_congruent inv.small inside)
  | soloTail f n => exact write n _ rfl (congruent n i inside)
  | soloVal f n => exact write n _ rfl (fill n _ (congruent n 0 (Nat.two_pow_pos pow)))
  | soloIdx f n =>
      have zero : (nodeIndex 0).toNat = 0 := by decide
      exact write n _ rfl (fill n _ (by rw [zero, Nat.zero_mod]))
  | link f n => exact write f.tail _ rfl (congruent f.tail i inside)
  | access q pc events access =>
      rw [Exec.accessed_rings access] at member
      have other : r ≠ (e.st.pc p).rq := fun here => member (here ▸ inv.rq p)
      exact same (by rw [Exec.accessed_ring_other other])

theorem reachable_congruent (run : Reachable (system pow) e) : e.Congruent pow := by
  refine Reachable.invariant_along (I := Exec.Congruent pow) ?_ ?_ run
  · rintro e ⟨rfl, below⟩ r i inside
    exact initRing_congruent (inv_init below).small inside
  · rintro e e' before congruent ⟨p, a, next⟩
    have inv := reachable_inv before
    exact congruent.goes inv (inv.next next).2 (next_goes next)

/-! ### Replaced contents -/

theorem Inv.swapsRise (inv : Inv pow e) : SwapsRise pow e := by
  intro p swap e' ⟨here, same⟩ next
  obtain ⟨t, _, cell⟩ := Pc.cas2_read here
  have goes := next_goes next
  have stored : (e'.st.ring (e.st.pc p).rq).array swap.cell = swap.new := by
    cases goes with
    | access q pc events access =>
        rw [Exec.accessed_ring, onRing_cas2 access here same]
        exact Function.update_self ..
    | callEnq _ isAt | callDeq isAt | reuse _ _ isAt | alloc _ isAt | soloTail _ _ isAt
    | soloVal _ _ isAt | soloIdx _ _ isAt | link _ _ isAt | lost _ _ _ isAt | swing _ _ isAt =>
        rw [isAt] at here
        cases here
  refine ⟨stored, fun changes => ?_⟩
  have rises := inv.rises next (inv.rq p) (cell ▸ inv.cell_lt t : swap.cell < 2 ^ pow)
  rw [stored, same] at rises
  exact rises.resolve_left changes

theorem Inv.noReturn (inv : Inv pow e) : NoReturn pow e := by
  intro r member i inside e' e'' first second changed
  obtain ⟨inv', rise⟩ := steps_rise inv first
  obtain ⟨member', before⟩ := rise r member
  have after := ((steps_rise inv' second).2 r member').2 i inside
  exact (before i inside).not_back changed after

/-! ### What a call has read -/

omit [DecidableEq T] in
theorem Inv.seen_le (inv : Inv pow e) {t idx : Word} (here : (e.st.pc p).seen = some (t, idx)) :
    (nodeIndex idx).toNat ≤
      (nodeIndex ((e.st.ring (e.st.pc p).rq).array (cellOf pow t)).idx).toNat := by
  have ok := (inv.queue.ring _ (inv.rq p)).views p
  have ring : ((e.abs pow).at (e.st.pc p).rq).ring = (e.st.ring (e.st.pc p).rq).abs pow itemOf :=
    Exec.abs_ring (inv.rq p)
  have view : ((e.abs pow).at (e.st.pc p).rq).view p = (e.st.pc p).view :=
    Place.Only.viewAt_self (Or.inl rfl)
  rw [ring, view] at ok
  rw [cellOf_eq inv.small]
  revert here ok
  generalize (e.st.ring (e.st.pc p).rq) = q
  cases e.st.pc p with
  | enqVal f t' idx' =>
      intro here ok
      cases here
      have seen := ok.2.2.1
      rw [RingQueue.abs_cell] at seen
      exact seen
  | deqVal f h tt r cellIdx =>
      intro here ok
      cases here
      have seen : _ ≤ _ := ok.2.2.2
      rw [RingQueue.abs_cell] at seen
      exact seen
  | _ => nofun

/-- The call of thread `p` has read content `c` with ticket `t`: since it read `val`, the
cell has only risen. -/
def HasRead (pow : ℕ) (e : Exec T) (past : List (Exec T)) (p : T) (t : Word)
    (c : RingNode Word) : Prop :=
  ∃ read since, ReadIn p past read since ∧
    c.val = ((read.st.ring (e.st.pc p).rq).array (cellOf pow t)).val ∧
    (nodeIndex c.idx).toNat ≤
      (nodeIndex ((read.st.ring (e.st.pc p).rq).array (cellOf pow t)).idx).toNat ∧
    ∀ x ∈ read :: since,
      Rises ((read.st.ring (e.st.pc p).rq).array (cellOf pow t))
        ((x.st.ring (e.st.pc p).rq).array (cellOf pow t)) ∧
      Rises ((x.st.ring (e.st.pc p).rq).array (cellOf pow t))
        ((e.st.ring (e.st.pc p).rq).array (cellOf pow t))

omit [DecidableEq T] in
theorem ReadIn.later {read : Exec T} {since : List (Exec T)} (readIn : ReadIn p past read since)
    (now : (e.st.pc p).seen = none) : ReadIn p (e :: past) read (e :: since) := by
  obtain ⟨⟨older, rfl⟩, reads, after⟩ := readIn
  exact ⟨⟨older, rfl⟩, reads, List.forall_mem_cons.mpr ⟨now, after⟩⟩

omit [DecidableEq T] in
theorem HasRead.later {t : Word} {c c' : RingNode Word}
    (hasRead : HasRead pow e past p t c) (here : (e.st.pc p).read = some (t, c))
    (rq : (e'.st.pc p).rq = (e.st.pc p).rq)
    (rises : Rises ((e.st.ring (e.st.pc p).rq).array (cellOf pow t))
      ((e'.st.ring (e.st.pc p).rq).array (cellOf pow t)))
    (val : c'.val = c.val) (index : nodeIndex c'.idx = nodeIndex c.idx) :
    HasRead pow e' (e :: past) p t c' := by
  obtain ⟨read, since, readIn, value, le, between⟩ := hasRead
  refine ⟨read, e :: since, readIn.later (Pc.seen_of_read here), ?_, ?_, fun x member => ?_⟩
  · rw [rq, val, value]
  · rw [rq, index]
    exact le
  · rw [rq]
    rcases List.mem_cons.mp member with rfl | member
    · have old := between x List.mem_cons_self
      exact ⟨old.1, old.2.trans rises⟩
    · rcases List.mem_cons.mp member with rfl | member
      · exact ⟨(between read List.mem_cons_self).2, rises⟩
      · have old := between x (List.mem_cons_of_mem _ member)
        exact ⟨old.1, old.2.trans rises⟩

theorem trace_hasRead (run : Trace (system pow) (e :: past)) :
    ∀ p t c, (e.st.pc p).read = some (t, c) → HasRead pow e past p t c := by
  generalize shape : e :: past = states at run
  induction run generalizing e past with
  | init isInit =>
      cases shape
      obtain ⟨rfl, _⟩ := isInit
      exact fun p t c here => nomatch here
  | @step before after past' run step ih =>
      cases shape
      obtain ⟨p, a, next⟩ := step
      have inv := reachable_inv run.reachable
      have rises : ∀ w t, Rises ((before.st.ring (before.st.pc w).rq).array (cellOf pow t))
          ((after.st.ring (before.st.pc w).rq).array (cellOf pow t)) := fun w t =>
        inv.rises next (inv.rq w) (inv.cell_lt t)
      intro w t c here
      by_cases same : w = p
      · subst same
        cases next_goes next with
        | access q pc events access =>
            rw [Exec.accessed_pc] at here
            have rq : ((before.accessed w q pc events).st.pc w).rq = (before.st.pc w).rq := by
              rw [Exec.accessed_pc]
              exact onRing_read_rq access here
            rcases onRing_read access here with ⟨idx, seen, index, val⟩ | ⟨c', old, index, val⟩
            · refine ⟨before, [], ⟨⟨past', rfl⟩, by rw [seen]; nofun, nofun⟩, ?_⟩
              rw [rq]
              refine ⟨val, ?_, fun x member => ?_⟩
              · rw [index]
                exact inv.seen_le seen
              · cases List.mem_singleton.mp member
                exact ⟨Or.inl rfl, rises w t⟩
            · exact (ih rfl w t c' old).later old rq (rises w t) val index
        | callEnq | callDeq | reuse | alloc | soloTail | soloVal | soloIdx | link | lost | swing =>
            rw [State.goto_pc] at here
            cases here
      · have others := (next_goes next).others same
        rw [others] at here
        exact (ih rfl w t c here).later here (by rw [others]) (rises w t) rfl rfl

theorem trace_swapsKept (run : Trace (system pow) (e :: past)) :
    SwapsKept pow SameOrMarked e past := by
  intro p swap ⟨here, same⟩
  obtain ⟨t, read, cell⟩ := Pc.cas2_read here
  obtain ⟨first, since, readIn, val, index, between⟩ := trace_hasRead run p t swap.old read
  rw [cell] at same ⊢
  refine ⟨first, since, readIn, fun x member => ?_⟩
  obtain ⟨up, up'⟩ := between x member
  rw [same] at up'
  exact sameOrMarked val index up up'

/-- The cells of a ring keep their residues, rise at every `CAS2` and never return to
an earlier content; a `CAS2` succeeds on the content that its call has read `val` from,
or on that content marked unsafe. -/
theorem cells_rise (run : Trace (system pow) (e :: past)) :
    e.Congruent pow ∧ SwapsRise pow e ∧ NoReturn pow e ∧ SwapsKept pow SameOrMarked e past := by
  have inv := reachable_inv run.reachable
  exact ⟨reachable_congruent run.reachable, inv.swapsRise, inv.noReturn, trace_swapsKept run⟩

theorem next_trace_reaches (small : pow < 63) (schedule : List (T × Act))
    (P : Exec T → List (Exec T) → Bool)
    (found : (runTrace (fun e a => e.next pow a.1 a.2) Exec.init [] schedule).any
      (fun (e, past) => P e past) = true) :
    ∃ e past, Trace (system pow) (e :: past) ∧ P e past = true := by
  have start : (system pow).init (Exec.init : Exec T) := ⟨rfl, init_below small⟩
  refine runTrace_any ?_ start schedule P found
  exact fun e a e' next => ⟨a.1, a.2, next⟩

/-- The content that thread `p`'s next `CAS2` replaces, if it succeeds, and the content of
the cell when the call read `val`. -/
def swapAt (pow : ℕ) (e : Exec T) (past : List (Exec T)) (p : T) :
    Option (RingNode Word × RingNode Word) :=
  match (e.st.pc p).cas2 pow with
  | some swap =>
      if (e.st.ring (e.st.pc p).rq).array swap.cell = swap.old then
        (past.find? fun x => (x.st.pc p).seen.isSome).map fun x =>
          (swap.old, (x.st.ring (e.st.pc p).rq).array swap.cell)
      else none
  | none => none

omit [DecidableEq T] in
theorem ReadIn.find {read : Exec T} {since : List (Exec T)} (readIn : ReadIn p past read since) :
    past.find? (fun x => (x.st.pc p).seen.isSome) = some read := by
  obtain ⟨⟨older, rfl⟩, reads, after⟩ := readIn
  have skipped : since.find? (fun x => (x.st.pc p).seen.isSome) = none :=
    List.find?_eq_none.mpr fun x member => by simp [after x member]
  have found : (read.st.pc p).seen.isSome = true := Option.isSome_iff_ne_none.mpr reads
  rw [List.find?_append, skipped, List.find?_cons, found]
  rfl

omit [DecidableEq T] in
theorem swapAt_some {now before : RingNode Word} (at_ : swapAt pow e past p = some (now, before)) :
    ∃ swap, e.Swaps pow p swap ∧ swap.old = now ∧ ∀ read since, ReadIn p past read since →
      (read.st.ring (e.st.pc p).rq).array swap.cell = before := by
  unfold swapAt at at_
  split at at_
  next swap here =>
    split at at_
    next same =>
      obtain ⟨x, found, pair⟩ := Option.map_eq_some_iff.mp at_
      cases pair
      refine ⟨swap, ⟨here, same⟩, rfl, fun read since readIn => ?_⟩
      rw [readIn.find] at found
      rw [Option.some.inj found]
    next => cases at_
  next => cases at_

end Runs

/-- With two cells to a ring: cell `0` is empty, unsafe and has index `6` when a `deq`
with that ticket reads `idx`.  An `enq` that has seen head `5` fills the cell and clears
the bit, the `deq` reads the value, and the `deq` with ticket `8` marks the cell.  The
word that the first `deq` read is there again. -/
def marked {T : Type} (p q r : T) : List (T × Act) :=
  [[(p, .enq 10)], List.replicate 5 (p, .run), [(q, .deq), (q, .run)],
    [(r, .deq)], List.replicate 11 (r, .run), [(r, .deq)], List.replicate 10 (r, .run),
    List.replicate 3 (q, .run), [(r, .deq)], List.replicate 11 (r, .run),
    [(r, .deq)], List.replicate 11 (r, .run), [(p, .enq 11)], List.replicate 5 (p, .run),
    [(p, .enq 12)], List.replicate 5 (p, .run), [(r, .deq)], List.replicate 4 (r, .run),
    [(q, .deq), (q, .run), (q, .run), (p, .run), (q, .run)],
    [(r, .deq)], List.replicate 11 (r, .run), [(r, .deq)], List.replicate 10 (r, .run)].flatten

theorem marked_reaches : ∃ (e : Exec (Fin 3)) (past : List (Exec (Fin 3))),
    Trace (system 1) (e :: past) ∧
      swapAt 1 e past 1 = some (⟨12, setUnsafe 6⟩, ⟨12, 6⟩) := by
  obtain ⟨e, past, run, found⟩ := next_trace_reaches (T := Fin 3) (show 1 < 63 by decide)
    (marked 0 1 2) (fun e past => decide (swapAt 1 e past 1 = some (⟨12, setUnsafe 6⟩, ⟨12, 6⟩)))
    (by decide +kernel)
  exact ⟨e, past, run, of_decide_eq_true found⟩

/-- The taken cell was marked after its value was read. -/
theorem cells_rise_marked : ∃ (e : Exec (Fin 3)) (past : List (Exec (Fin 3))),
    Trace (system 1) (e :: past) ∧
      swapAt 1 e past 1 = some (⟨12, setUnsafe 6⟩, ⟨12, 6⟩) ∧
      e.Congruent 1 ∧ SwapsRise 1 e ∧ NoReturn 1 e ∧ SwapsKept 1 SameOrMarked e past := by
  obtain ⟨e, past, run, found⟩ := marked_reaches
  exact ⟨e, past, run, found, cells_rise run⟩

theorem changed_since_read : ¬ ∀ (e : Exec (Fin 3)) (past : List (Exec (Fin 3))),
    Trace (system 1) (e :: past) →
      e.Congruent 1 ∧ SwapsRise 1 e ∧ NoReturn 1 e ∧ SwapsKept 1 (· = ·) e past := by
  intro kept
  obtain ⟨e, past, run, found⟩ := marked_reaches
  obtain ⟨swap, swaps, old, before⟩ := swapAt_some found
  obtain ⟨read, since, readIn, same⟩ := (kept e past run).2.2.2 1 swap swaps
  have contents := same read List.mem_cons_self
  rw [before read since readIn, old] at contents
  exact absurd contents (by decide)

end Elcrq.C
