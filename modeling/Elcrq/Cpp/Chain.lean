import Elcrq.Cpp.Closing
import Elcrq.Cpp.OneNode

/-! # The chain of nodes in `LCRQueue.hpp`

Nodes are linked one behind the other, each `next` is written once, and a node
with a successor is closed.  `tail` lags by at most one node and `head` is at most
one node ahead of it. -/

set_option autoImplicit false

namespace Elcrq.Cpp

open Concurrent Concurrent.TicketRing Concurrent.RingList Concurrent.Hazard

section Chain

variable {n : ℕ} {A V : Type}

/-- The `next` of each node of the list holds the address of the node before it, and
that of the first one is `last`. -/
def State.Joined (s : State n A V) : Option A → List ℕ → Prop
  | _, [] => True
  | last, i :: rest => (s.node i).next = last ∧ s.Joined (some (s.addr i)) rest

def Pc.enqueuing (pc : Pc A V) : Bool :=
  match pc.phase with
  | .enq _ _ | .enqDone _ => true
  | _ => false

theorem Pc.enqueuing_of_linked {pc : Pc A V} {nodeAt : A → ℕ} {i : ℕ}
    (linked : pc.task n nodeAt = .linked i) : pc.enqueuing = true := by
  cases pc <;> first | rfl | cases linked

theorem State.joined_of_linked {s : State n A V} {next : ℕ → Option ℕ} {last : Option ℕ}
    {l : List ℕ} (linked : Linked next last l)
    (field : ∀ i ∈ l, (s.node i).next = (next i).map s.addr) : s.Joined (last.map s.addr) l := by
  induction l generalizing last with
  | nil => trivial
  | cons i rest ih =>
      refine ⟨?_, ih linked.2 fun j member => field j (List.mem_cons_of_mem _ member)⟩
      rw [field i List.mem_cons_self, linked.1]

variable [DecidableEq A] [DecidableEq V] {pow : ℕ} {e : Exec n A V}

/-- The invariant of the chain, over constructions. -/
structure Exec.Chained (pow : ℕ) (e : Exec n A V) : Prop where
  distinct : (rings e.log).Nodup
  constructed : ∀ i ∈ rings e.log, i < e.st.made
  joined : e.st.Joined none (rings e.log)
  unlinked : ∀ i < e.st.made, i ∉ rings e.log → (e.st.node i).next = none
  addressed : ∀ i ∈ rings e.log, .destroy i ∉ e.mem → e.st.nodeAt (e.st.addr i) = i
  written_once : ∀ e', (machine pow).step e e' → ∀ i < e.st.made, (e.st.node i).next ≠ none →
    (e'.st.node i).next = (e.st.node i).next
  tail : ∃ rest, rings e.log = e.st.nodeAt e.st.tail :: rest ∨
    ∃ j, rings e.log = j :: e.st.nodeAt e.st.tail :: rest
  head : e.st.nodeAt e.st.head ∈ rings e.log ∧
    ∀ i, Older (rings e.log) (e.st.nodeAt e.st.tail) i →
      ¬ Older (rings e.log) i (e.st.nodeAt e.st.head)
  settled : (∀ p, (e.st.pc p).enqueuing = false) →
    ∃ rest, rings e.log = e.st.nodeAt e.st.tail :: rest

def Exec.LinkedClosed (e : Exec n A V) : Prop :=
  ∀ i < e.st.made, (e.st.node i).next ≠ none → crqIsClosed (e.st.node i).tail = true

/-- The chain in every run, and the closed bit in every run that counts no tail word
from `2^64 - 1` to `0`. -/
theorem nodes_chained (run : Reachable (machine pow) e) :
    e.Chained pow ∧ (Reachable (wraplessSystem pow) e → e.LinkedClosed) := by
  have layout := machine_layout run
  refine ⟨?_, fun wrapless => (wrapless_closing wrapless).linked⟩
  refine
    { distinct := layout.heap.distinct
      constructed := layout.heap.chain_lt
      joined := State.joined_of_linked layout.heap.linked layout.next
      unlinked := machine_looseEnds run
      addressed := fun i member notGone =>
        (layout.occupied i ⟨layout.heap.chain_lt i member, notGone⟩).1
      written_once := fun e' step i lt isSome => ?_
      tail := ?_
      head := ⟨layout.heap.head_mem, layout.heap.passed⟩
      settled := fun quiet => ?_ }
  · obtain ⟨p, act, does⟩ := step
    rcases (does_goes does).stepped.next_field lt with same | ⟨isNone, _⟩
    · exact same
    · exact absurd isNone isSome
  · rcases layout.heap.tail_position with ⟨rest, newest⟩ | ⟨j, rest, _, position⟩
    · exact ⟨rest, Or.inl newest⟩
    · exact ⟨rest, Or.inr ⟨j, position⟩⟩
  · rcases layout.heap.tail_position with newest | ⟨j, rest, link, _⟩
    · exact newest
    · obtain ⟨u, linked⟩ := layout.heap.pending j link
      have inEnqueue := quiet u
      rw [Pc.enqueuing_of_linked linked] at inEnqueue
      cases inEnqueue

def Exec.checkWrapping (e : Exec n A V) (p : Fin n) : Bool :=
  match e.st.pc p with
  | .enqFaa _ l => decide ((e.st.node (e.st.nodeAt l)).tail + 1 ≠ 0)
  | _ => true

omit [DecidableEq A] [DecidableEq V] in
theorem Exec.notWrapping_of_check {p : Fin n} (check : e.checkWrapping p = true) :
    e.NotWrapping p := by
  intro f l here
  simp only [Exec.checkWrapping, here] at check
  exact of_decide_eq_true check

end Chain

/-- A node is linked and `tail` has not moved yet; `head` goes on to the new node. -/
theorem nodes_chained_head_ahead : ∃ e : Exec 2 ℕ ℕ, Reachable (wraplessSystem 0) e ∧
    (e.st.nodeAt e.st.tail = 0 ∧ e.st.nodeAt e.st.head = 1 ∧ .retire 0 ∈ e.mem) ∧
      e.Chained 0 ∧ e.LinkedClosed := by
  have start : (wraplessSystem 0).init (Exec.init 0 : Exec 2 ℕ ℕ) := ⟨0, rfl⟩
  have sound : ∀ (e : Exec 2 ℕ ℕ) (a : Fin 2 × Act ℕ ℕ) (e' : Exec 2 ℕ ℕ),
      (if e.checkWrapping a.1 then e.does 0 a.1 a.2 else none) = some e' →
      (wraplessSystem 0).step e e' := by
    intro e a e' does
    split at does
    next check => exact ⟨a.1, a.2, Exec.notWrapping_of_check check, does⟩
    next => cases does
  obtain ⟨e, run, found⟩ := runSchedule_any sound start
    ([burst 1 (.enqueue 5) 9, burst 1 (.enqueue 6) 14, burst 1 (.construct 1) 4,
      burst 0 .dequeue 8, burst 0 .dequeue 24] : List (List (Fin 2 × Act ℕ ℕ))).flatten
    (fun e => decide (e.st.nodeAt e.st.tail = 0 ∧ e.st.nodeAt e.st.head = 1 ∧ .retire 0 ∈ e.mem))
    (by decide +kernel)
  obtain ⟨chained, closed⟩ := nodes_chained (wrapless_machine run)
  exact ⟨e, run, of_decide_eq_true found, chained, closed run⟩

/-! ## A tail word that is counted past its end -/

section Spent

variable {A V : Type}

/-- One cell, and every ticket below `k` was drawn by a `dequeue` that found it empty. -/
def spentNode (k : Word) : RingQueue A (Option V) :=
  { (initRing none).setNode 0 ⟨none, k⟩ with head := k, tail := k }

variable {k : Word} (room : k.toNat + 1 < 2 ^ 64)
include room

theorem flag_carried : nodeUnsafe k ||| (k + 1) = k + 1 := by
  have above := add_one_toNat k room
  rw [nodeUnsafe_eq]
  split
  next flagged =>
    have set := setUnsafe_toNat (k + 1)
    rw [setUnsafe, BitVec.or_comm] at set
    apply BitVec.eq_of_toNat_eq
    omega
  next => exact BitVec.zero_or

theorem deq_leaves [DecidableEq V] {q q' : RingQueue A (Option V)} (i c : ℕ) (l : A)
    (here : q.array (cellOf 0 k) = ⟨none, k⟩) (moved : q.setNode (cellOf 0 k) ⟨none, k + 1⟩ = q') :
    nodeNext 0 i (q, atEmptyCell c l k k 0 k) = some (q', .deqExit c l k) := by
  have one : ringSize 0 = 1 := rfl
  unfold atEmptyCell
  split
  next flagged =>
    simp only [nodeNext, onNode, RingQueue.cas2_succeeds here, one, flag_carried room, moved,
      Option.map_some]
  next safe =>
    have word : nodeIndex k = k := by
      rw [not_not, ← not_ne_iff, nodeUnsafe_ne_zero, not_le] at safe
      apply BitVec.eq_of_toNat_eq
      rw [nodeIndex_toNat, Nat.mod_eq_of_lt safe]
    have below : tailIndex k < k + 1 := by
      show (tailIndex k).toNat < (k + 1).toNat
      rw [tailIndex_toNat, add_one_toNat k room]
      omega
    simp only [if_pos (Or.inl below), word, nodeNext, onNode, RingQueue.cas2_succeeds here, one,
      moved, gt_iff_lt, Nat.not_lt_zero, false_and, if_false, Option.map_some]

theorem deq_spends [DecidableEq V] (i c : ℕ) (l : A) : Relation.ReflTransGen
    (Follows (nodeNext 0 i)) ((spentNode k : RingQueue A (Option V)), .deqFaa c l)
      (spentNode (k + 1), .deqClear c none) := by
  have above := add_one_toNat k room
  let q0 : RingQueue A (Option V) := { spentNode k with head := k + 1 }
  let q1 : RingQueue A (Option V) := { spentNode (k + 1) with tail := k }
  have cell : q0.array (cellOf 0 k) = ⟨none, k⟩ := by
    simp only [cellOf_zero, q0, spentNode, RingQueue.setNode, Function.update_self]
  have moved : q0.setNode (cellOf 0 k) ⟨none, k + 1⟩ = q1 := by
    simp only [cellOf_zero, q0, q1, spentNode, RingQueue.setNode, Function.update_idem]
  have notAhead : ¬ nodeIndex k > k := by
    show ¬ k.toNat < (nodeIndex k).toNat
    rw [nodeIndex_toNat]
    omega
  have passed : tailIndex k ≤ k + 1 := by
    show (tailIndex k).toNat ≤ (k + 1).toNat
    rw [tailIndex_toNat]
    omega
  have behind : k + 1 > k := by
    show k.toNat < (k + 1).toNat
    omega
  have draw : nodeNext 0 i ((spentNode k : RingQueue A (Option V)), .deqFaa c l) =
      some (q0, .deqIdx c l k 0 0) := rfl
  have idx : nodeNext 0 i (q0, .deqIdx c l k 0 0) = some (q0, .deqVal c l k 0 0 k) := by
    simp only [nodeNext, onNode, cell, Option.map_some]
  have val : nodeNext 0 i (q0, .deqVal c l k 0 0 k) = some (q0, .deqTail c l k 0 k) := by
    simp only [nodeNext, onNode, cell, if_neg notAhead, Nat.zero_and, if_true, Option.map_some]
  have reload : nodeNext 0 i (q0, .deqTail c l k 0 k) = some (q0, atEmptyCell c l k k 0 k) := rfl
  have exit : nodeNext 0 i (q1, .deqExit c l k) = some (q1, .fixTail c l k) := by
    simp only [nodeNext, onNode, q1, if_pos passed, Option.map_some]
  have check : nodeNext 0 i (q1, .fixCheck c l k k (k + 1)) =
      some (q1, .fixCas c l k k (k + 1)) := by
    simp only [nodeNext, onNode, q1, ne_eq, not_true_eq_false, if_false, if_pos behind,
      Option.map_some]
  have raise : nodeNext 0 i (q1, .fixCas c l k k (k + 1)) =
      some (spentNode (k + 1), .deqNext c l k) := by
    simp only [nodeNext, onNode, q1, RingQueue.casTail, if_true, Option.map_some]
    rfl
  have loadTail : nodeNext 0 i (q1, .fixTail c l k) = some (q1, .fixHead c l k k) := rfl
  have loadHead : nodeNext 0 i (q1, .fixHead c l k k) = some (q1, .fixCheck c l k k (k + 1)) := rfl
  have noNext : nodeNext 0 i ((spentNode (k + 1) : RingQueue A (Option V)), .deqNext c l k) =
      some (spentNode (k + 1), .deqClear c none) := rfl
  have drawn : Relation.ReflTransGen (Follows (nodeNext 0 i))
      ((spentNode k : RingQueue A (Option V)), .deqFaa c l) (q0, atEmptyCell c l k k 0 k) :=
    .head draw (.head idx (.head val (.single reload)))
  have skipped : Relation.ReflTransGen (Follows (nodeNext 0 i)) (q0, atEmptyCell c l k k 0 k)
      (q1, .fixTail c l k) :=
    .head (deq_leaves room i c l cell moved) (.single exit)
  have raised : Relation.ReflTransGen (Follows (nodeNext 0 i)) (q1, .fixTail c l k)
      (spentNode (k + 1), .deqClear c none) :=
    .head loadTail (.head loadHead (.head check (.head raise (.single noNext))))
  exact drawn.trans (skipped.trans raised)

end Spent

/-- After `k` calls of `dequeue` that returned nothing. -/
def spent (k : ℕ) : State 1 ℕ ℕ :=
  { (State.init 0 : State 1 ℕ ℕ) with
    node := Function.update (State.init 0 : State 1 ℕ ℕ).node 0 (spentNode (BitVec.ofNat 64 k))
    calls := k }

theorem spent_zero : (State.init 0 : State 1 ℕ ℕ) = spent 0 := by
  have cell : (⟨none, 0⟩ : RingNode (Option ℕ)) = (initRing none : RingQueue ℕ _).array 0 := rfl
  have first : spentNode (BitVec.ofNat 64 0) = (State.init 0 : State 1 ℕ ℕ).node 0 := by
    show spentNode 0 = initRing none
    rw [spentNode, RingQueue.setNode, cell, Function.update_eq_self]
    rfl
  rw [spent, first, Function.update_eq_self]
  rfl

theorem spent_next {k : ℕ} (room : k + 1 < 2 ^ 64) {e : Exec 1 ℕ ℕ} (here : e.st = spent k) :
    ∃ e', Relation.ReflTransGen (machine 0).step e e' ∧ e'.st = spent (k + 1) := by
  have word : (BitVec.ofNat 64 k).toNat = k := by
    rw [BitVec.toNat_ofNat]
    omega
  have above : BitVec.ofNat 64 k + 1 = BitVec.ofNat 64 (k + 1) := by
    apply BitVec.eq_of_toNat_eq
    rw [add_one_toNat _ (by omega), word, BitVec.toNat_ofNat]
    omega
  have begun := plays_st (e := e) 0 (burst 0 .dequeue 3) (by
    rw [here]
    rfl)
  obtain ⟨e1, calls, st1⟩ := begun
  have at1 : e1.st.pc 0 = .deqFaa k 0 := by
    rw [st1]
    exact State.goto_pc ..
  have on1 := Exec.OnNode.start (e := e1) (p := 0) (a := 0) (by rw [at1]; rfl)
  have node1 : e1.st.node (e1.st.nodeAt 0) = spentNode (BitVec.ofNat 64 k) := by
    rw [st1]
    rfl
  rw [node1, at1] at on1
  obtain ⟨e2, alone, on2⟩ := on1.steps (deq_spends (by omega) (e1.st.nodeAt 0) k 0)
  have returned : runSchedule (fun s a => (step 0 s a.1 a.2).map Prod.fst) e2.st [(0, .run)] =
      some ((e2.st.setHp (0 : Fin 1) none).goto 0 .idle) := by
    simp only [runSchedule, step, run, on2.pc]
    rfl
  obtain ⟨e3, returns, st3⟩ := plays_st _ _ returned
  refine ⟨e3, calls.trans (alone.trans returns), ?_⟩
  rw [st3, on2.st, st1, above]
  simp [spent, State.goto, State.setHp, State.setNode, State.init]

theorem spent_reachable (k : ℕ) (lt : k < 2 ^ 64) :
    ∃ e, Reachable (machine 0) e ∧ e.st = spent k := by
  induction k with
  | zero => exact ⟨Exec.init 0, .init ⟨0, rfl⟩, spent_zero⟩
  | succ k ih =>
      obtain ⟨e, run, here⟩ := ih (by omega)
      obtain ⟨e', steps, there⟩ := spent_next lt here
      exact ⟨e', run.later steps, there⟩

/-- After `2^64 - 1` calls of `dequeue` on the empty queue, the `fetch_add` of an
`enqueue` finds the closed bit set and leaves the tail word at `0`; then it links. -/
theorem linked_open : ¬ ∀ e : Exec 1 ℕ ℕ, Reachable (machine 0) e →
    e.Chained 0 ∧ e.LinkedClosed := by
  intro closed
  obtain ⟨e, run, here⟩ := spent_reachable (2 ^ 64 - 1) (by decide)
  have found : (runSchedule (fun s a => (step 0 s a.1 a.2).map Prod.fst) (spent (2 ^ 64 - 1))
      (burst 0 (.enqueue 7) 5 ++ burst 0 (.construct 1) 4)).any
        (fun s => decide (s.made = 2 ∧ (s.node 0).next = some 1 ∧ (s.node 0).tail = 0)) = true := by
    decide +kernel
  cases done : runSchedule (fun s a => (step 0 s a.1 a.2).map Prod.fst) (spent (2 ^ 64 - 1))
      (burst 0 (.enqueue 7) 5 ++ burst 0 (.construct 1) 4) with
  | none =>
      rw [done] at found
      cases found
  | some s =>
      rw [done] at found
      obtain ⟨made, next, tail⟩ := of_decide_eq_true found
      rw [← here] at done
      obtain ⟨e', steps, there⟩ := plays_st _ _ done
      rw [← there] at made next tail
      have bit := (closed e' (run.later steps)).2 0 (by omega) (by rw [next]; nofun)
      rw [tail] at bit
      exact absurd bit (by decide)

end Elcrq.Cpp
