import Elcrq.C.Emptiness

/-! # First in, first out in `ELCRQ.h`

`deq` tests the tail of its ring, runs `fixState` and then reads `next`.  Between
the test and the read other threads may fill the ring, close it and link a
successor; the call then goes on to the successor and leaves the items behind.
`LCRQueue.hpp` tests the tail a second time there.  Order holds in the runs in
which no call goes on from a ring that is not drained. -/

set_option autoImplicit false

namespace Elcrq.C

open Concurrent Concurrent.TicketRing Concurrent.RingList

section Order

variable {T : Type}

/-- Whenever `b` was enqueued after `enq(a)` had returned and `b` is returned by a
`deq`, then `a` is returned or its ticket is held. -/
def Exec.Fifo (e : Exec T) : Prop :=
  ∀ a b d ra ta rb tb x y, Older e.log (.enqRet a) (.enqCall b y) →
    .enqItem a ra ta x ∈ e.log → .enqItem b rb tb y ∈ e.log → .deqRet d rb tb y ∈ e.log →
    e.Returned ra ta x ∨ e.Held ra ta

/-- If thread `p` is about to follow `next`, every ticket that an `enq` has drawn
from the ring it leaves lies below that ring's head. -/
def Exec.LeavesDrained (e : Exec T) (p : T) : Prop :=
  ∀ f n, e.st.pc p = .deqNext f → (e.st.ring f.head).next = some n →
    ∀ c t, .enqDraw c f.head t ∈ e.log → t < (e.st.ring f.head).head.toNat

variable [DecidableEq T]

def drainedSystem (pow : ℕ) : System (Exec T) where
  init := (system pow).init
  step := fun e e' => ∃ p a, e.LeavesDrained p ∧ e.next pow p a = some e'

/-- Calls look only at rings before which all is drained. -/
structure Ordered (pow : ℕ) (e : Exec T) : Prop where
  walk : ∀ p c, (e.st.pc p).phase = .deq c → (e.abs pow).DrainedBefore (e.st.pc p).rq
  taken : ∀ d r h x, .deqItem d r h x ∈ e.log → (e.abs pow).DrainedBefore r

variable {pow : ℕ} {e e' : Exec T} {p : T}

omit [DecidableEq T] in
theorem Walks.ordered {c : ℕ} {pc : Pc} (inv : Inv pow e) (ordered : Ordered pow e)
    (drained : e.LeavesDrained p)
    (walks : Walks (e.st.ring (e.st.pc p).rq) c (e.st.pc p) pc) :
    (e.abs pow).DrainedBefore pc.rq ∧ pc.rq ∈ rings e.log := by
  have member := inv.rq p
  cases walks with
  | same phase rq _ =>
      rw [rq]
      exact ⟨ordered.walk p c phase, member⟩
  | test f h call here _ next =>
      subst call next
      have before := ordered.walk p f.call (by rw [here]; rfl)
      rw [here] at before member
      exact ⟨before, member⟩
  | hop f n call here link next =>
      subst call next
      have before := ordered.walk p f.call (by rw [here]; rfl)
      rw [here] at before member link
      rcases inv.layout.linked.next_some inv.queue.distinct member link with
        ⟨isNone, _⟩ | ⟨older, between⟩
      · cases isNone
      · refine ⟨fun r isBefore => ?_, older.mem_new⟩
        rcases between r isBefore with rfl | deeper
        · rintro t ⟨c, drawn⟩
          rw [Exec.abs_ring member]
          exact drained f n here link c t drawn
        · exact before r deeper

theorem Ordered.next {a : Act} (inv : Inv pow e) (ordered : Ordered pow e)
    (drained : e.LeavesDrained p) (next : e.next pow p a = some e') : Ordered pow e' := by
  obtain ⟨refines, _⟩ := inv.next next
  have keep : ∀ r ∈ rings e.log, (e.abs pow).DrainedBefore r → (e'.abs pow).DrainedBefore r :=
    fun r member => steps_drainedBefore (Nat.two_pow_pos pow) inv.queue refines member
  have keepTaken : ∀ d r h x, .deqItem d r h x ∈ e.log → (e'.abs pow).DrainedBefore r :=
    fun d r h x item => keep r (inv.queue.about _ item r rfl) (ordered.taken d r h x item)
  have other : ∀ w c, w ≠ p → (e'.st.pc w).phase = .deq c →
      (e'.abs pow).DrainedBefore (e'.st.pc w).rq := by
    intro w c isOther phase
    rw [next_others next isOther] at phase ⊢
    exact keep _ (inv.rq w) (ordered.walk w c phase)
  cases next_stepped next with
  | callDeq idle here log =>
      refine ⟨fun w c phase => ?_, fun d r h x item => ?_⟩
      · by_cases same : w = p
        · subst same
          rw [here]
          refine keep _ ?_ inv.drainedBefore_head
          rw [inv.layout.entry.1]
          exact List.mem_of_getLast? inv.layout.oldest
        · exact other w c same phase
      · rw [log] at item
        exact keepTaken d r h x (by simpa using item)
  | inEnq notDeq _ noItem =>
      refine ⟨fun w c phase => ?_, fun d r h x item => keepTaken d r h x (noItem d r h x item)⟩
      by_cases same : w = p
      · subst same
        exact absurd phase (notDeq c)
      · exact other w c same phase
  | access q pc events access after =>
      refine ⟨fun w c phase => ?_, fun d r h x item => ?_⟩
      · by_cases same : w = p
        · subst same
          have here : e'.st.pc w = pc := by rw [after, Exec.accessed_pc]
          rw [here] at phase ⊢
          obtain ⟨before, member⟩ := (onRing_walks access phase).ordered inv ordered drained
          exact keep _ member before
        · exact other w c same phase
      · have log : e'.log = events ++ e.log := by rw [after]; rfl
        rw [log] at item
        rcases List.mem_append.mp item with new | old
        · obtain ⟨phase, rfl⟩ := onRing_item access new
          exact keep _ (inv.rq p) (ordered.walk p d phase)
        · exact keepTaken d r h x old

theorem drained_ordered (run : Reachable (drainedSystem pow) e) : Inv pow e ∧ Ordered pow e := by
  refine Reachable.invariant (I := fun e => Inv pow e ∧ Ordered pow e) ?_ ?_ run
  · rintro e ⟨rfl, below⟩
    exact ⟨inv_init below, fun p c phase => (nomatch phase), fun d r h x item => (nomatch item)⟩
  · rintro e e' ⟨inv, ordered⟩ ⟨p, a, drained, next⟩
    exact ⟨(inv.next next).2, ordered.next inv drained next⟩

/-- First in, first out in every run in which no call leaves a ring that is not drained. -/
theorem fifo_of_leavesDrained (run : Reachable (drainedSystem pow) e) : e.Fifo := by
  obtain ⟨inv, ordered⟩ := drained_ordered run
  intro a b d ra ta rb tb x y before itemA itemB ret
  have taken := inv.queue.calls.take_returned d rb tb y ret
  rcases inv.queue.fifo itemA itemB before taken (ordered.taken d rb tb y taken) with
    ⟨d', taken'⟩ | held
  · exact Or.inl (inv.returned_once taken')
  · exact Or.inr (Exec.held_iff.mp held)

def Exec.checkDrained (e : Exec T) (p : T) : Bool :=
  match e.st.pc p with
  | .deqNext f =>
      e.log.all fun
        | .enqDraw _ r t => r != f.head || decide (t < (e.st.ring r).head.toNat)
        | _ => true
  | _ => true

omit [DecidableEq T] in
theorem Exec.leavesDrained_of_check (check : e.checkDrained p = true) : e.LeavesDrained p := by
  intro f n here _ c t drawn
  rw [Exec.checkDrained, here] at check
  simpa using List.all_eq_true.mp check _ drawn

theorem drained_schedule_reaches (bound : TicketsBelow pow (State.init : State T))
    (schedule : List (T × Act)) (P : Exec T → Bool)
    (found : (runSchedule (fun e a => if e.checkDrained a.1 then e.next pow a.1 a.2 else none)
      Exec.init schedule).any P = true) : ∃ e, Reachable (drainedSystem pow) e ∧ P e = true := by
  have start : (drainedSystem pow).init (Exec.init : Exec T) := ⟨rfl, bound⟩
  refine runSchedule_any ?_ start schedule P found
  intro e a e' next
  split at next
  next check => exact ⟨a.1, a.2, Exec.leavesDrained_of_check check, next⟩
  next => cases next

end Order

/-- With one cell to a ring: the second item goes into a new ring, and the second
`deq` follows `next` after the first ring is drained. -/
theorem fifo_of_leavesDrained_next_ring : ∃ e : Exec Bool, Reachable (drainedSystem 0) e ∧
    (Older e.log (.enqRet 0) (.enqCall 1 6) ∧ .deqRet 3 1 0 6 ∈ e.log) ∧ e.Fifo := by
  obtain ⟨e, run, found⟩ := drained_schedule_reaches (init_below (show 0 < 63 by decide))
    [[(true, .enq 5)], List.replicate 5 (true, .run), [(true, .enq 6)],
      List.replicate 12 (true, .run), [(false, .deq)], List.replicate 4 (false, .run),
      [(false, .deq)], List.replicate 14 (false, .run)].flatten
    (fun e => decide (Older e.log (.enqRet 0) (.enqCall 1 6) ∧ .deqRet 3 1 0 6 ∈ e.log))
    (by decide +kernel)
  exact ⟨e, run, of_decide_eq_true found, fifo_of_leavesDrained run⟩

/-- With two cells to a ring: a `deq` has found the ring empty and repaired its
tail; two items fill the ring, a third goes into a new ring, and the `deq` returns
the third one. -/
def overtaking : List (Bool × Act) :=
  (true, .enq 10) :: List.replicate 5 (true, .run) ++ (false, .deq) ::
    List.replicate 4 (false, .run) ++ (false, .deq) :: List.replicate 10 (false, .run) ++
    (true, .enq 11) :: List.replicate 5 (true, .run) ++ (true, .enq 12) ::
    List.replicate 5 (true, .run) ++ (true, .enq 13) :: List.replicate 12 (true, .run) ++
    List.replicate 5 (false, .run)

def ticketReturned : Event Word → Option (ℕ × ℕ)
  | .deqRet _ r h _ => some (r, h)
  | _ => none

theorem fifo_overtaken : ¬ ∀ e : Exec Bool, Reachable (system 1) e → e.Fifo := by
  intro fifo
  obtain ⟨e, run, found⟩ := schedule_reaches (show 1 < 63 by decide) overtaking
    (fun e => decide ((Older e.log (.enqRet 3) (.enqCall 5 13) ∧ .enqItem 3 0 2 11 ∈ e.log ∧
      .enqItem 5 1 0 13 ∈ e.log ∧ .deqRet 2 1 0 13 ∈ e.log) ∧
      (∀ event ∈ e.log, ticketReturned event ≠ some (0, 2)) ∧
      (e.st.pc true).holds ≠ some (0, 2) ∧ (e.st.pc false).holds ≠ some (0, 2))) (by decide +kernel)
  obtain ⟨⟨before, itemA, itemB, ret⟩, unreturned, unheldTrue, unheldFalse⟩ :=
    of_decide_eq_true found
  rcases fifo e run 3 5 2 0 2 1 0 11 13 before itemA itemB ret with ⟨d, ret', _⟩ | ⟨p, holds⟩
  · exact unreturned _ ret' rfl
  · cases p with
    | true => exact unheldTrue holds
    | false => exact unheldFalse holds

end Elcrq.C
