import Elcrq.C.Ledger

/-! # When `enq` closes a ring

`enq` closes its ring when `t - h >= RING_SIZE`, with `h` the head it has just
read.  The difference is unsigned: when dequeuers have overtaken the ticket it
wraps and the test passes on a ring that is not full.  `LCRQueue.hpp` compares
the difference as a signed number.  In the runs in which no ticket is overtaken
at its test, a ring is closed only when it is full. -/

set_option autoImplicit false

namespace Elcrq.C

open Concurrent Concurrent.RingList

/-- The call closes its ring or has found it closed. -/
def Pc.closing : Pc → Bool
  | .enqClose _ _ | .enqAlloc _ | .soloTail _ _ | .soloVal _ _ | .soloIdx _ _ | .enqLink _ _
  | .enqSwing _ _ => true
  | _ => false

section Access

variable {pow : ℕ} {q q' : RingQueue ℕ Word} {pc pc' : Pc} {events : List (Event Word)}

theorem onRing_enqClose {f' : EnqFrame} {t : Word}
    (access : onRing pow q pc = some (q', .enqClose f' t, events)) :
    ∃ f, pc = .enqFull f t ∧ ringSize pow ≤ t - q.head := by
  cases pc with
  | enqFull f t' =>
      simp only [onRing] at access
      split at access
      next full =>
        cases access
        exact ⟨f, rfl, full⟩
      next => cases access
  | deqVal f h tt r cellIdx =>
      simp only [onRing, atEmptyCell] at access
      (repeat' split at access) <;> cases access
  | deqTail f h r cellIdx =>
      simp only [onRing, atEmptyCell] at access
      (repeat' split at access) <;> cases access
  | _ =>
      simp only [onRing] at access
      (repeat' split at access) <;> cases access

/-- From a ring that is not closed and a ticket that does not pass the full test, no
access leads into closing. -/
theorem onRing_not_closing (access : onRing pow q pc = some (q', pc', events))
    (isOpen : crqIsClosed q.tail = false) (before : pc.closing = false)
    (notFull : ∀ f t, pc = .enqFull f t → ¬ ringSize pow ≤ t - q.head) : pc'.closing = false := by
  cases pc with
  | enqFaa f =>
      simp only [onRing, isOpen] at access
      cases access
      rfl
  | enqFull f t =>
      simp only [onRing, if_neg (notFull f t rfl)] at access
      cases access
      rfl
  | deqVal f h tt r cellIdx =>
      simp only [onRing, atEmptyCell] at access
      (repeat' split at access) <;> cases access <;> rfl
  | deqTail f h r cellIdx =>
      simp only [onRing, atEmptyCell] at access
      (repeat' split at access) <;> cases access <;> rfl
  | enqAlloc | soloTail | soloVal | soloIdx | enqLink | enqSwing | enqClose => cases before
  | _ =>
      simp only [onRing] at access
      (repeat' split at access) <;> cases access <;> rfl

theorem onRing_stays_open (sound : pc.Sound)
    (access : onRing pow q pc = some (q', pc', events)) (isOpen : crqIsClosed q.tail = false)
    (before : pc.closing = false) (room : (tailIndex q.tail).toNat + 1 < 2 ^ 63) :
    crqIsClosed q'.tail = false := by
  have small := (crqIsClosed_false_iff q.tail).mp isOpen
  have cas2 : ∀ {done : Bool} {i : ℕ} {o1 o2 n1 n2 : Word} {q'' : RingQueue ℕ Word},
      q.cas2 i o1 o2 n1 n2 = (done, q'') → crqIsClosed q''.tail = false := by
    intro done i o1 o2 n1 n2 q'' result
    have tail := q.cas2_tail i o1 o2 n1 n2
    rw [result] at tail
    rw [tail]
    exact isOpen
  cases pc with
  | enqFaa f =>
      have drawn : crqIsClosed (q.tail + 1) = false := by
        rw [tailIndex_toNat] at room
        rw [crqIsClosed_false_iff, add_one_toNat q.tail (by omega)]
        omega
      simp only [onRing] at access
      split at access <;> cases access <;> exact drawn
  | enqClose => cases before
  | fixCas f t h =>
      simp only [onRing] at access
      rcases q.casTail_cases t h with failed | ⟨_, done⟩
      · rw [failed] at access
        cases access
        exact isOpen
      · rw [done] at access
        cases access
        exact (crqIsClosed_false_iff h).mpr sound.2
  | enqCas2 | deqTake | deqMark | deqSkipUnsafe | deqSkip =>
      simp only [onRing] at access
      split at access <;> cases access <;> exact cas2 ‹_›
  | _ =>
      simp only [onRing] at access
      (repeat' split at access) <;> cases access <;> exact isOpen

theorem full_of_test {t h : Word} (small : pow < 64) (full : ringSize pow ≤ t - h) (behind : h ≤ t) :
    h.toNat + 2 ^ pow ≤ t.toNat := by
  have full : (ringSize pow).toNat ≤ (t - h).toNat := full
  have behind : h.toNat ≤ t.toNat := behind
  rw [ringSize_toNat small, BitVec.toNat_sub_of_le behind] at full
  omega

end Access

section Closing

variable {T : Type}

/-- The head that thread `p` read at its last full test. -/
def lastCompared (p : T) : List (Exec T) → Option Word
  | [] => none
  | e :: past =>
      match e.st.pc p with
      | .enqFull f _ => some (e.st.ring f.tail).head
      | _ => lastCompared p past

/-- An `enq` that is about to succeed in `close_crq` has compared its ticket with a
head that is at least `RING_SIZE` behind. -/
def ClosesFull (pow : ℕ) (e : Exec T) (past : List (Exec T)) : Prop :=
  ∀ p f t, e.st.pc p = .enqClose f t →
    ((e.st.ring f.tail).closeCrq t f.tryClose).1 = true →
    ∃ h, lastCompared p past = some h ∧ h.toNat + 2 ^ pow ≤ t.toNat

/-- No ring's tail index is `RING_SIZE` or more ahead of its head. -/
def Exec.NeverFull (pow : ℕ) (e : Exec T) : Prop :=
  ∀ r ∈ rings e.log,
    (tailIndex (e.st.ring r).tail).toNat < (e.st.ring r).head.toNat + 2 ^ pow

instance (pow : ℕ) (e : Exec T) : Decidable (e.NeverFull pow) :=
  inferInstanceAs (Decidable (∀ r ∈ rings e.log, _))

/-- If no state of the run has a full ring, there is one ring. -/
def StaysSingle (pow : ℕ) (e : Exec T) (past : List (Exec T)) : Prop :=
  (∀ x ∈ e :: past, x.NeverFull pow) → rings e.log = [0]

/-- If thread `p` is about to test whether its ring is full, no dequeuer has
overtaken its ticket. -/
def Exec.NotOvertaken (e : Exec T) (p : T) : Prop :=
  ∀ f t, e.st.pc p = .enqFull f t → (e.st.ring f.tail).head ≤ t

variable [DecidableEq T]

def paceSystem (pow : ℕ) : System (Exec T) where
  init := fun e => e = Exec.init
  step := fun e e' => ∃ p a, e.NotOvertaken p ∧ e.ticketed pow p a = some e'

variable {pow : ℕ} {e e' : Exec T} {past : List (Exec T)} {p : T}

/-- Every thread that is about to try `close_crq` has found its ring full. -/
def Compared (pow : ℕ) (e : Exec T) (past : List (Exec T)) : Prop :=
  ∀ p f t, e.st.pc p = .enqClose f t →
    ∃ h, lastCompared p past = some h ∧ h.toNat + 2 ^ pow ≤ t.toNat

theorem Compared.goes (small : pow < 64) (compared : Compared pow e past)
    (pace : e.NotOvertaken p) (goes : e.Goes pow p e') : Compared pow e' (e :: past) := by
  intro w f t here
  by_cases same : w = p
  · subst same
    cases goes with
    | access q pc events access =>
        rw [Exec.accessed_pc] at here
        subst here
        obtain ⟨f', isFull, full⟩ := onRing_enqClose access
        rw [isFull] at full
        refine ⟨(e.st.ring f'.tail).head, ?_, full_of_test small full (pace f' t isFull)⟩
        rw [lastCompared, isFull]
    | callEnq | callDeq | reuse | alloc | soloTail | soloVal | soloIdx | link | lost | swing =>
        rw [State.goto_pc] at here
        cases here
  · rw [goes.others same] at here
    obtain ⟨h, last, le⟩ := compared w f t here
    refine ⟨h, ?_, le⟩
    rw [lastCompared, here]
    exact last

/-- There is one ring, it is open, and no thread is about to change that. -/
structure Exec.Single (e : Exec T) : Prop where
  rings : rings e.log = [0]
  isOpen : crqIsClosed (e.st.ring 0).tail = false
  closing : ∀ p, (e.st.pc p).closing = false

theorem Exec.Single.goes (small : pow < 64) (ledger : Ledger e) (single : e.Single)
    (never : e.NeverFull pow) (pace : e.NotOvertaken p) (below : TicketsInRange e.st)
    (goes : e.Goes pow p e') : e'.Single := by
  have others : ∀ w, w ≠ p → e'.st.pc w = e.st.pc w := fun w => goes.others
  have notClosing : ∀ pc, e.st.pc p = pc → pc.closing = true → e'.Single := by
    intro pc here closing
    have := single.closing p
    rw [here, closing] at this
    cases this
  have moved : ∀ pc, e'.st.pc p = pc → pc.closing = false → ∀ w, (e'.st.pc w).closing = false := by
    intro pc here closing w
    by_cases same : w = p
    · rw [same, here]
      exact closing
    · rw [others w same]
      exact single.closing w
  cases goes with
  | callEnq arg => exact ⟨single.rings, single.isOpen, moved _ (State.goto_pc ..) rfl⟩
  | callDeq => exact ⟨single.rings, single.isOpen, moved _ (State.goto_pc ..) rfl⟩
  | reuse f n here | alloc f here | soloTail f n here | soloVal f n here | soloIdx f n here
  | link f n here | lost f n m here | swing f n here => exact notClosing _ here rfl
  | access q pc events access =>
      have rq : (e.st.pc p).rq = 0 := by
        have := ledger.shape.rq p
        rw [single.rings] at this
        exact List.mem_singleton.mp this
      have isOpen : crqIsClosed (e.st.ring (e.st.pc p).rq).tail = false := by
        rw [rq]
        exact single.isOpen
      refine ⟨(Exec.accessed_rings access).trans single.rings, ?_,
        moved _ Exec.accessed_pc ?_⟩
      · rw [← rq, Exec.accessed_ring]
        exact onRing_stays_open (ledger.sound p) access isOpen (single.closing p)
          (ledger.shape.room below p).2
      · refine onRing_not_closing access isOpen (single.closing p) fun f t here full => ?_
        -- the ticket is below the tail, and the tail is not a ring ahead of the head
        have rq : (e.st.pc p).rq = f.tail := by rw [here]; rfl
        have member : f.tail ∈ RingList.rings e.log := rq ▸ ledger.shape.rq p
        rw [rq] at full
        have ahead := full_of_test small full (pace f t here)
        have ticket := ledger.tickets p f t (by rw [here]; rfl)
        have gap := never f.tail member
        omega

structure PaceInv (pow : ℕ) (e : Exec T) (past : List (Exec T)) : Prop where
  ledger : Ledger e
  compared : Compared pow e past
  single : (∀ x ∈ past, x.NeverFull pow) → e.Single

theorem trace_paceInv (small : pow < 64) (run : Trace (paceSystem pow) (e :: past)) :
    PaceInv pow e past := by
  generalize shape : e :: past = states at run
  induction run generalizing e past with
  | init isInit =>
      cases shape
      cases isInit
      refine ⟨ledger_init, fun p f t here => ?_, fun _ => ⟨rfl, ?_, ?_⟩⟩
      · cases here
      · exact show crqIsClosed 0 = false by decide
      · exact fun _ => rfl
  | step before step ih =>
      cases shape
      obtain ⟨p, a, pace, taken⟩ := step
      obtain ⟨below, goes⟩ := ticketed_goes taken
      obtain ⟨ledger, compared, single⟩ := ih rfl
      refine ⟨ledger.goes below goes, compared.goes small pace goes, fun never => ?_⟩
      obtain ⟨neverNow, neverBefore⟩ := List.forall_mem_cons.mp never
      exact (single neverBefore).goes small ledger neverNow pace below goes

/-- In every run in which no ticket is overtaken at its full test, a ring is closed
only when it is full, and without a full ring there is only one ring. -/
theorem closes_full_of_notOvertaken (small : pow < 64)
    (run : Trace (paceSystem pow) (e :: past)) :
    ClosesFull pow e past ∧ StaysSingle pow e past := by
  obtain ⟨_, compared, single⟩ := trace_paceInv small run
  refine ⟨fun p f t here _ => compared p f t here, fun never => ?_⟩
  exact (single (List.forall_mem_cons.mp never).2).rings

def Exec.checkPace (e : Exec T) (p : T) : Bool :=
  match e.st.pc p with
  | .enqFull f t => decide ((e.st.ring f.tail).head ≤ t)
  | _ => true

omit [DecidableEq T] in
theorem Exec.notOvertaken_of_check (check : e.checkPace p = true) : e.NotOvertaken p := by
  intro f t here
  rw [Exec.checkPace, here] at check
  exact of_decide_eq_true check

theorem trace_reaches (pow : ℕ) (schedule : List (T × Act))
    (P : Exec T → List (Exec T) → Bool)
    (found : (runTrace (fun e a => e.ticketed pow a.1 a.2) Exec.init [] schedule).any
      (fun (e, past) => P e past) = true) :
    ∃ e past, Trace (ticketSystem pow) (e :: past) ∧ P e past = true := by
  have start : (ticketSystem pow).init (Exec.init : Exec T) := rfl
  refine runTrace_any ?_ start schedule P found
  exact fun e a e' taken => ⟨a.1, a.2, taken⟩

theorem pace_trace_reaches (pow : ℕ) (schedule : List (T × Act))
    (P : Exec T → List (Exec T) → Bool)
    (found : (runTrace (fun e a => if e.checkPace a.1 then e.ticketed pow a.1 a.2 else none)
      Exec.init [] schedule).any (fun (e, past) => P e past) = true) :
    ∃ e past, Trace (paceSystem pow) (e :: past) ∧ P e past = true := by
  have start : (paceSystem pow).init (Exec.init : Exec T) := rfl
  refine runTrace_any ?_ start schedule P found
  intro e a e' taken
  split at taken
  next check => exact ⟨a.1, a.2, Exec.notOvertaken_of_check check, taken⟩
  next => cases taken

/-- The head compared and the ticket, when thread `p` is about to succeed in `close_crq`. -/
def closeAt (e : Exec T) (past : List (Exec T)) (p : T) : Option (Word × Word) :=
  match e.st.pc p with
  | .enqClose f t =>
      if ((e.st.ring f.tail).closeCrq t f.tryClose).1 then
        (lastCompared p past).map fun h => (h, t)
      else none
  | _ => none

omit [DecidableEq T] in
theorem closeAt_some {h t : Word} (at_ : closeAt e past p = some (h, t)) :
    ∃ f, e.st.pc p = .enqClose f t ∧
      ((e.st.ring f.tail).closeCrq t f.tryClose).1 = true ∧ lastCompared p past = some h := by
  unfold closeAt at at_
  split at at_
  next f t' here =>
    split at at_
    next done =>
      obtain ⟨h', last, pair⟩ := Option.map_eq_some_iff.mp at_
      cases pair
      exact ⟨f, here, done, last⟩
    next => cases at_
  next => cases at_

end Closing

/-- With one cell to a ring: the second `enq` finds its cell taken and closes the
ring, one ring's length ahead of the head. -/
theorem closes_full_of_notOvertaken_second : ∃ (e : Exec Bool) (past : List (Exec Bool)),
    Trace (paceSystem 0) (e :: past) ∧ closeAt e past true = some (0, 1) ∧ ClosesFull 0 e past ∧
      StaysSingle 0 e past := by
  obtain ⟨e, past, run, found⟩ := pace_trace_reaches 0
    [[(true, .enq 5)], List.replicate 5 (true, .run), [(true, .enq 6)],
      List.replicate 5 (true, .run)].flatten
    (fun e past => decide (closeAt e past true = some (0, 1))) (by decide +kernel)
  exact ⟨e, past, run, of_decide_eq_true found,
    closes_full_of_notOvertaken (by decide) run⟩

/-- With two cells to a ring: an `enq` draws ticket `0` and stops, a `deq` draws
ticket `0`, moves the cell on and returns `EMPTY`.  The `enq` then finds its cell
used up, reads head `1`, and closes a ring that holds nothing. -/
def overtaken : List (Bool × Act) :=
  [[(true, .enq 5)], List.replicate 2 (true, .run), [(false, .deq)],
    List.replicate 10 (false, .run), List.replicate 3 (true, .run)].flatten

theorem closes_empty_ring : ¬ ∀ (e : Exec Bool) (past : List (Exec Bool)),
    Trace (ticketSystem 1) (e :: past) → ClosesFull 1 e past ∧ StaysSingle 1 e past := by
  intro closes
  obtain ⟨e, past, run, found⟩ := trace_reaches 1 overtaken
    (fun e past => decide (closeAt e past true = some (1, 0))) (by decide +kernel)
  obtain ⟨f, here, done, last⟩ := closeAt_some (of_decide_eq_true found)
  obtain ⟨h, last', full⟩ := (closes e past run).1 true f 0 here done
  cases last.symm.trans last'
  exact absurd full (by decide)

end Elcrq.C
