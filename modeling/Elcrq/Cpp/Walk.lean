import Elcrq.Cpp.Preservation

/-! # The walk of `dequeue` along the nodes

A `dequeue` works on the node that it validated against `head`.  It leaves that
node behind when the tail was twice at most one past its ticket, the second time
with `next` set: then the node is closed and drained and stays so. -/

set_option autoImplicit false

namespace Elcrq.Cpp

open Concurrent Concurrent.TicketRing Concurrent.RingList Concurrent.Hazard

/-- The call has found the tail of its node at most one past its ticket. -/
def Pc.tested {A V : Type} : Pc A V → Bool
  | .fixTail _ _ _ | .fixHead _ _ _ _ | .fixCheck _ _ _ _ _ | .fixCas _ _ _ _ _
  | .deqNext _ _ _ => true
  | _ => false

/-- How a thread that is inside call `c` of `dequeue` got there in one access to its
node. -/
inductive Walks {A V : Type} (q : RingQueue A (Option V)) (c : ℕ) (pc pc' : Pc A V) : Prop
  | same : pc.phase = .deq c → pc'.guarded = pc.guarded → (pc'.tested = true → pc.tested = true) →
      (∀ l m, pc' ≠ .deqSwing c l m) → Walks q c pc pc'
  | leave : pc' = .deqHead c → Walks q c pc pc'
  | test (l : A) (h : Word) : pc = .deqExit c l h → tailIndex q.tail ≤ h + 1 →
      pc' = .fixTail c l h → Walks q c pc pc'
  | empty (l : A) (h : Word) : pc = .deqNext c l h → q.next = none → pc' = .deqClear c none →
      Walks q c pc pc'
  | retest (l : A) (h : Word) (m : A) : pc = .deqTest c l h m → tailIndex q.tail ≤ h + 1 →
      pc' = .deqSwing c l m → Walks q c pc pc'

section Access

variable {A V : Type} {pow i : ℕ} {q q' : RingQueue A (Option V)} {pc pc' : Pc A V}
  {events : List (Event V)}

theorem atEmptyCell_walks {c c' : ℕ} {l : A} {h tt : Word} {r : ℕ} {cellIdx : Word}
    (phase : pc.phase = .deq c') (guarded : pc.guarded = some l)
    (phase' : (atEmptyCell c' l h tt r cellIdx : Pc A V).phase = .deq c) :
    Walks q c pc (atEmptyCell c' l h tt r cellIdx) := by
  revert phase'
  unfold atEmptyCell
  split
  · rintro ⟨⟩
    exact .same phase guarded.symm nofun nofun
  · split
    · rintro ⟨⟩
      exact .same phase guarded.symm nofun nofun
    · rintro ⟨⟩
      exact .same phase guarded.symm nofun nofun

variable [DecidableEq V]

theorem onNode_walks {c : ℕ} (access : onNode pow i q pc = some (q', pc', events))
    (phase : pc'.phase = .deq c) : Walks q c pc pc' := by
  cases pc with
  | deqVal c' l h tt r cellIdx =>
      simp only [onNode] at access
      (repeat' split at access) <;> cases access
      case h_2.isFalse.refl => exact atEmptyCell_walks rfl rfl phase
      all_goals
        exact .same phase rfl (fun tested => by cases tested) fun _ _ swings => by cases swings
  | deqTail c' l h r cellIdx =>
      cases access
      exact atEmptyCell_walks rfl rfl phase
  | deqExit c' l h =>
      simp only [onNode] at access
      split at access
      next test =>
        cases access
        cases phase
        exact .test l h rfl test rfl
      next =>
        cases access
        cases phase
        exact .leave rfl
  | deqNext c' l h =>
      simp only [onNode] at access
      split at access
      next last =>
        cases access
        cases phase
        exact .empty l h rfl last rfl
      next =>
        cases access
        exact .same phase rfl (fun tested => by cases tested) fun _ _ swings => by cases swings
  | deqTest c' l h m =>
      simp only [onNode] at access
      split at access
      next test =>
        cases access
        cases phase
        exact .retest l h m rfl test rfl
      next =>
        cases access
        cases phase
        exact .leave rfl
  | _ =>
      simp only [onNode] at access
      (repeat' split at access) <;> cases access <;>
        first
        | cases phase; done
        | exact .same phase rfl (fun _ => rfl) fun _ _ swings => by cases swings
        | exact .same phase rfl (fun tested => by cases tested) fun _ _ swings => by cases swings

theorem onNode_events (access : onNode pow i q pc = some (q', pc', events)) :
    (∀ d r h x, .deqItem d r h x ∈ events → pc.phase = .deq d ∧ r = i) ∧
      ∀ c, .deqEmpty c ∉ events := by
  cases pc with
  | deqTake c l h tt r cellIdx val =>
      simp only [onNode] at access
      split at access <;> cases access
      · refine ⟨fun d r h x item => ?_, by simp⟩
        cases List.mem_singleton.mp item
        exact ⟨rfl, rfl⟩
      · exact ⟨by simp, by simp⟩
  | _ =>
      simp only [onNode] at access
      (repeat' split at access) <;> cases access <;> exact ⟨by simp, by simp⟩

end Access

section Ordered

variable {n : ℕ} {A V : Type}

/-- Everything before `head`, before a node that a `dequeue` works on and before a node
that an item was taken from is drained, and so is a node that is about to be left
behind. -/
structure Ordered (pow : ℕ) (e : Exec n A V) : Prop where
  head : (e.abs pow).DrainedBefore (e.st.nodeAt e.st.head)
  walk : ∀ p c a, (e.st.pc p).phase = .deq c → (e.st.pc p).guarded = some a →
    (e.abs pow).DrainedBefore (e.st.nodeAt a)
  swing : ∀ p c l m, e.st.pc p = .deqSwing c l m → (e.abs pow).Drained (e.st.nodeAt l)
  taken : ∀ d r h x, .deqItem d r h x ∈ e.log → (e.abs pow).DrainedBefore r

variable {pow : ℕ} {e e' : Exec n A V} {p : Fin n}

theorem Inv.drained_of_test {l : A} {h : Word} (inv : Inv pow e)
    (guarded : (e.st.pc p).guarded = some l)
    (drawn : Drawn pow ((e.st.node (e.st.nodeAt l)).abs pow itemOf) h)
    (test : tailIndex (e.st.node (e.st.nodeAt l)).tail ≤ h + 1) :
    (e.abs pow).Drained (e.st.nodeAt l) := by
  have member := (inv.layout.guarded guarded).2.2
  have ring := inv.ring guarded
  obtain ⟨room, below⟩ := drawn
  intro t handed
  have lt : t < (tailIndex (e.st.node (e.st.nodeAt l)).tail).toNat := by
    have := (inv.queue.ring _ member).ring.drawn_lt t handed
    rwa [Queue.at, ring] at this
  have test : (tailIndex (e.st.node (e.st.nodeAt l)).tail).toNat ≤ (h + 1).toNat := test
  have one : (1 : Word).toNat = 1 := rfl
  rw [BitVec.toNat_add, one] at test
  have below : h.toNat < (e.st.node (e.st.nodeAt l)).head.toNat := below
  rw [ring]
  show t < (e.st.node (e.st.nodeAt l)).head.toNat
  omega

theorem Inv.closed_of_lnext {l m : A} (inv : Inv pow e) (guarded : (e.st.pc p).guarded = some l)
    (lnext : (e.st.pc p).lnext = some m) :
    ∃ j, e.st.addr j = m ∧ Older (rings e.log) (e.st.nodeAt l) j ∧
      (∀ k, Older (rings e.log) k j → k = e.st.nodeAt l ∨ Older (rings e.log) k (e.st.nodeAt l)) ∧
      ((e.abs pow).ring (e.st.nodeAt l)).closed = true := by
  obtain ⟨j, link, isAddr⟩ := inv.layout.successor_of_lnext guarded lnext
  obtain ⟨older, between⟩ := inv.heap.next_older (i := e.st.nodeAt l) link
  exact ⟨j, isAddr, older, between, inv.queue.closed _ j older⟩

variable [DecidableEq A] [DecidableEq V] {act : Act A V}

theorem Stepped.head (inv : Inv pow e) (ordered : Ordered pow e) (stepped : Stepped pow e e' p) :
    e'.st.nodeAt e'.st.head ∈ rings e.log ∧
      (e.abs pow).DrainedBefore (e'.st.nodeAt e'.st.head) := by
  have same : e'.st.head = e.st.head → e'.st.nodeAt e'.st.head ∈ rings e.log ∧
      (e.abs pow).DrainedBefore (e'.st.nodeAt e'.st.head) := by
    intro sameHead
    rw [sameHead, stepped.nodeAt inv.layout (Or.inl rfl)]
    exact ⟨inv.heap.head_mem, ordered.head⟩
  cases stepped with
  | quiet _ _ sameHead _ _ _ => exact same sameHead
  | validate c here after => exact same (by rw [after]; rfl)
  | empty c here after => exact same (by rw [after]; rfl)
  | access a q pc events guarded access after => exact same (by rw [after]; rfl)
  | fill m q pc own after next notDeq => exact same (by rw [after]; rfl)
  | link f l m here last after => exact same (by rw [after]; rfl)
  | construct f l a here unused after => exact same (by rw [after]; rfl)
  | swing c l m here isHead newHead nodes _ _ =>
      have guarded : (e.st.pc p).guarded = some l := by rw [here]; rfl
      obtain ⟨j, link, isAddr⟩ := inv.layout.successor_of_lnext (m := m) guarded (by rw [here]; rfl)
      have headNode : e.heap.head = e.st.nodeAt l := congrArg e.st.nodeAt isHead
      have alive := inv.heap.next_alive (i := e.st.nodeAt l) link (Or.inl headNode.symm)
      obtain ⟨older, between⟩ := inv.heap.next_older (i := e.st.nodeAt l) link
      have arrives : e'.st.nodeAt e'.st.head = j := by
        rw [newHead, nodes.nodeAt, ← isAddr]
        exact (inv.occupied j alive).1
      rw [arrives]
      refine ⟨older.mem_new, fun r before => ?_⟩
      rcases between r before with rfl | deeper
      · exact ordered.swing p c l m here
      · refine ordered.head r ?_
        rw [isHead]
        exact deeper

/-- A step of a thread inside `dequeue`, seen before the step: it works on the node it
worked on or on the node `head` points to. -/
theorem Stepped.walk {c : ℕ} {a : A} (inv : Inv pow e) (ordered : Ordered pow e)
    (stepped : Stepped pow e e' p) (phase : (e'.st.pc p).phase = .deq c)
    (guarded : (e'.st.pc p).guarded = some a) :
    e.st.nodeAt a ∈ rings e.log ∧ e'.st.nodeAt a = e.st.nodeAt a ∧
      (e.abs pow).DrainedBefore (e.st.nodeAt a) := by
  have kept : (e.st.pc p).phase = .deq c → (e.st.pc p).guarded = some a →
      e.st.nodeAt a ∈ rings e.log ∧ e'.st.nodeAt a = e.st.nodeAt a ∧
        (e.abs pow).DrainedBefore (e.st.nodeAt a) := fun phase' guarded' =>
    ⟨(inv.layout.guarded guarded').2.2, stepped.nodeAt inv.layout (Exec.tracked_of_guarded guarded'),
      ordered.walk p c a phase' guarded'⟩
  cases stepped with
  | quiet _ _ _ rests _ _ =>
      rw [(rests c phase).1] at guarded
      cases guarded
  | swing _ _ _ _ _ _ _ rests _ =>
      rw [(rests c phase).1] at guarded
      cases guarded
  | empty c' here after =>
      rw [after, show (State.goto _ p _).pc p = _ from Function.update_self ..] at guarded
      cases guarded
  | validate c' here after =>
      rw [after, show (State.goto _ p _).pc p = _ from Function.update_self ..] at guarded
      cases guarded
      refine ⟨inv.heap.head_mem, ?_, ordered.head⟩
      rw [after]
      rfl
  | access b q pc events guarded' access after =>
      rw [after, Exec.accessed_pc] at phase guarded
      cases onNode_walks access phase with
      | same phase' sameGuard _ _ => exact kept phase' (sameGuard ▸ guarded)
      | leave isNext =>
          rw [isNext] at guarded
          cases guarded
      | test l h here _ isNext =>
          rw [isNext] at guarded
          exact kept (by rw [here]; rfl) (by rw [here]; exact guarded)
      | empty l h here _ isNext =>
          rw [isNext] at guarded
          cases guarded
      | retest l h m here _ isNext =>
          rw [isNext] at guarded
          exact kept (by rw [here]; rfl) (by rw [here]; exact guarded)
  | fill m q pc own after next notDeq =>
      rw [after, Exec.accessed_pc] at phase
      exact absurd phase (notDeq c)
  | link f l m here last after =>
      rw [after, Exec.accessed_pc] at phase
      cases phase
  | construct f l b here unused after =>
      rw [after, show (State.goto _ p _).pc p = _ from Function.update_self ..] at phase
      cases phase

theorem Stepped.retest {c : ℕ} {l m : A} (inv : Inv pow e) (stepped : Stepped pow e e' p)
    (here' : e'.st.pc p = .deqSwing c l m) :
    (e.abs pow).Drained (e.st.nodeAt l) ∧ ((e.abs pow).ring (e.st.nodeAt l)).closed = true ∧
      e.st.nodeAt l ∈ rings e.log ∧ e'.st.nodeAt l = e.st.nodeAt l := by
  have phase : (e'.st.pc p).phase = .deq c := by rw [here']; rfl
  have guarded : (e'.st.pc p).guarded = some l := by rw [here']; rfl
  have isSwing : ∀ pc, e'.st.pc p = pc → pc = .deqSwing c l m := fun pc isPc =>
    isPc.symm.trans here'
  have moved := fun a => stepped.nodeAt (a := a) inv.layout
  cases stepped with
  | quiet _ _ _ rests _ _ =>
      rw [(rests c phase).1] at guarded
      cases guarded
  | swing _ _ _ _ _ _ _ rests _ =>
      rw [(rests c phase).1] at guarded
      cases guarded
  | empty c' here after => cases isSwing .idle (by rw [after]; exact Function.update_self ..)
  | validate c' here after =>
      cases isSwing (.deqFaa c' e.st.head) (by rw [after]; exact Function.update_self ..)
  | access b q pc events guarded' access after =>
      have isPc := isSwing pc (by rw [after, Exec.accessed_pc])
      subst isPc
      cases onNode_walks access (c := c) rfl with
      | same _ _ _ notSwing => exact absurd rfl (notSwing l m)
      | leave isNext => cases isNext
      | test l' h _ _ isNext => cases isNext
      | empty l' h _ _ isNext => cases isNext
      | retest l' h m' before test isNext =>
          cases isNext
          have guardedL : (e.st.pc p).guarded = some l := by rw [before]; rfl
          cases Option.some.inj (guarded'.symm.trans guardedL)
          obtain ⟨j, _, _, _, closed⟩ := inv.closed_of_lnext (m := m) guardedL (by rw [before]; rfl)
          have ok := inv.ok p
          rw [Pc.ring_of_guarded guardedL, before] at ok
          exact ⟨inv.drained_of_test guardedL ok test, closed, (inv.layout.guarded guardedL).2.2,
            moved l (Exec.tracked_of_guarded guardedL)⟩
  | fill m q pc own after next notDeq =>
      rw [after, Exec.accessed_pc] at phase
      exact absurd phase (notDeq c)
  | link f l' m' here last after =>
      cases isSwing (.enqAdvance f l' m') (by rw [after, Exec.accessed_pc])
  | construct f l' b here unused after =>
      cases isSwing (.soloTail f l' b) (by rw [after]; exact Function.update_self ..)

theorem Stepped.taken {d r h : ℕ} {x : V} (inv : Inv pow e) (ordered : Ordered pow e)
    (stepped : Stepped pow e e' p) (item : .deqItem d r h x ∈ e'.log) :
    r ∈ rings e.log ∧ (e.abs pow).DrainedBefore r := by
  have old : .deqItem d r h x ∈ e.log → r ∈ rings e.log ∧ (e.abs pow).DrainedBefore r :=
    fun item => ⟨inv.queue.about _ item r rfl, ordered.taken d r h x item⟩
  cases stepped with
  | quiet events _ _ _ silent log =>
      rw [log] at item
      exact old ((List.mem_append.mp item).resolve_left (silent.1 d r h x))
  | swing _ _ _ _ _ _ _ _ log => exact old (log ▸ item)
  | empty c here after =>
      rw [after] at item
      exact old (by simpa using item)
  | validate c here after => exact old (by rw [after] at item; exact item)
  | access a q pc events guarded access after =>
      rw [after] at item
      rcases List.mem_append.mp item with new | isOld
      · obtain ⟨phase, isNode⟩ := (onNode_events access).1 d r h x new
        rw [isNode]
        exact ⟨(inv.layout.guarded guarded).2.2, ordered.walk p d a phase guarded⟩
      · exact old isOld
  | fill m q pc own after next notDeq => exact old (by rw [after] at item; exact item)
  | link f l m here last after =>
      rw [after] at item
      exact old (by simpa [Exec.accessed] using item)
  | construct f l a here unused after => exact old (by rw [after] at item; exact item)

theorem Ordered.next (inv : Inv pow e) (ordered : Ordered pow e)
    (next : e.next pow p act = some e') : Ordered pow e' := by
  have refines := (next_inv inv next).1
  have stepped := next_stepped next
  have keep : ∀ r ∈ rings e.log, (e.abs pow).DrainedBefore r → (e'.abs pow).DrainedBefore r :=
    fun r member => steps_drainedBefore (Nat.two_pow_pos pow) inv.queue refines member
  refine ⟨?_, fun w c a phase guarded => ?_, fun w c l m here => ?_, fun d r h x item => ?_⟩
  · obtain ⟨member, before⟩ := stepped.head inv ordered
    exact keep _ member before
  · by_cases same : w = p
    · subst same
      obtain ⟨member, nodeAt, before⟩ := stepped.walk inv ordered phase guarded
      rw [nodeAt]
      exact keep _ member before
    · rw [next_others next same] at phase guarded
      rw [stepped.nodeAt inv.layout (Exec.tracked_of_guarded guarded)]
      exact keep _ (inv.layout.guarded guarded).2.2 (ordered.walk w c a phase guarded)
  · by_cases same : w = p
    · subst same
      obtain ⟨drained, closed, member, nodeAt⟩ := stepped.retest inv here
      rw [nodeAt]
      exact steps_drained refines member closed drained
    · rw [next_others next same] at here
      have guarded : (e.st.pc w).guarded = some l := by rw [here]; rfl
      obtain ⟨j, _, _, _, closed⟩ := inv.closed_of_lnext (m := m) guarded (by rw [here]; rfl)
      rw [stepped.nodeAt inv.layout (Exec.tracked_of_guarded guarded)]
      exact steps_drained refines (inv.layout.guarded guarded).2.2 closed (ordered.swing w c l m here)
  · obtain ⟨member, before⟩ := stepped.taken inv ordered item
    exact keep r member before

theorem reachable_ordered (run : Reachable (system pow) e) : Ordered pow e := by
  induction run with
  | init isInit =>
      obtain ⟨⟨sentinel, rfl⟩, _⟩ := isInit
      refine ⟨fun r before => ?_, nofun, nofun, nofun⟩
      rcases before with ⟨_, member⟩ | deeper
      · cases member
      · exact deeper.elim
  | step before step ih =>
      obtain ⟨p, act, next⟩ := step
      exact ih.next (reachable_inv before) next

end Ordered

end Elcrq.Cpp
