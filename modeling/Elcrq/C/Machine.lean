import Elcrq.Threads

/-! # `enq` and `deq` of `ELCRQ.h` as a machine

One step of a thread is one atomic access to shared memory together with the
local computation up to the next access.  `onRing` holds the accesses to the
ring `rq` a call works on, `run` adds the accesses to the thread's own `nrq` and
the link of a new ring.  The queue passes `q->tail` and `q->head` by value, so a
call advances only its own copy.  Events record what a step means for the calls;
the code does not read them. -/

set_option autoImplicit false

namespace Elcrq.C

open Concurrent Concurrent.RingList

def EMPTY : Word := -1

def isEmpty (v : Word) : Bool := v == EMPTY

/-- The locals of `enq` that live through its loop; `tail` is also `rq`. -/
structure EnqFrame where
  call : ℕ
  arg : Word
  tail : ℕ
  tryClose : ℕ

/-- The locals of `deq` that live through its loop; `head` is also `rq`. -/
structure DeqFrame where
  call : ℕ
  head : ℕ

/-- The access a thread makes next.  `tt` is read before its first use because
`r` starts at `0`. -/
inductive Pc
  | idle
  | enqNext (f : EnqFrame)
  | enqFaa (f : EnqFrame)
  | enqAlloc (f : EnqFrame)
  | soloTail (f : EnqFrame) (n : ℕ)
  | soloVal (f : EnqFrame) (n : ℕ)
  | soloIdx (f : EnqFrame) (n : ℕ)
  | enqLink (f : EnqFrame) (n : ℕ)
  | enqSwing (f : EnqFrame) (n : ℕ)
  | enqIdx (f : EnqFrame) (t : Word)
  | enqVal (f : EnqFrame) (t idx : Word)
  | enqHead (f : EnqFrame) (t idx : Word)
  | enqCas2 (f : EnqFrame) (t idx : Word)
  | enqFull (f : EnqFrame) (t : Word)
  | enqClose (f : EnqFrame) (t : Word)
  | deqFaa (f : DeqFrame)
  | deqIdx (f : DeqFrame) (h tt : Word) (r : ℕ)
  | deqVal (f : DeqFrame) (h tt : Word) (r : ℕ) (cellIdx : Word)
  | deqTail (f : DeqFrame) (h : Word) (r : ℕ) (cellIdx : Word)
  | deqTake (f : DeqFrame) (h tt : Word) (r : ℕ) (cellIdx val : Word)
  | deqMark (f : DeqFrame) (h tt : Word) (r : ℕ) (cellIdx val : Word)
  | deqSkipUnsafe (f : DeqFrame) (h tt : Word) (r : ℕ) (cellIdx : Word)
  | deqSkip (f : DeqFrame) (h tt : Word) (r : ℕ) (idx : Word)
  | deqExit (f : DeqFrame) (h : Word)
  | fixTail (f : DeqFrame)
  | fixHead (f : DeqFrame) (t : Word)
  | fixCheck (f : DeqFrame) (t h : Word)
  | fixCas (f : DeqFrame) (t h : Word)
  | deqNext (f : DeqFrame)

/-- The ring `rq` of the current call. -/
def Pc.rq : Pc → ℕ
  | .idle => 0
  | .enqNext f | .enqFaa f | .enqAlloc f | .soloTail f _ | .soloVal f _ | .soloIdx f _
  | .enqLink f _ | .enqSwing f _ | .enqIdx f _ | .enqVal f _ _ | .enqHead f _ _ | .enqCas2 f _ _
  | .enqFull f _ | .enqClose f _ => f.tail
  | .deqFaa f | .deqIdx f _ _ _ | .deqVal f _ _ _ _ | .deqTail f _ _ _ | .deqTake f _ _ _ _ _
  | .deqMark f _ _ _ _ _ | .deqSkipUnsafe f _ _ _ _ | .deqSkip f _ _ _ _ | .deqExit f _
  | .fixTail f | .fixHead f _ | .fixCheck f _ _ | .fixCas f _ _ | .deqNext f => f.head

/-- The inner loop of `deq` at an empty cell, once `tt` is there. -/
def atEmptyCell (f : DeqFrame) (h tt : Word) (r : ℕ) (cellIdx : Word) : Pc :=
  if nodeUnsafe cellIdx ≠ 0 then .deqSkipUnsafe f h tt r cellIdx
  else if tailIndex tt - 1 ≤ h ∨ r > 200000 ∨ crqIsClosed tt then
    .deqSkip f h tt r (nodeIndex cellIdx)
  else .deqIdx f h tt (r + 1)

/-- The accesses to `rq`: its new content, where the call goes on, what is recorded. -/
def onRing (pow : ℕ) (q : RingQueue ℕ Word) :
    Pc → Option (RingQueue ℕ Word × Pc × List (Event Word))
  | .enqNext f =>
      match q.next with
      | some next => some (q, .enqNext { f with tail := next }, [])
      | none => some (q, .enqFaa f, [])
  | .enqFaa f =>
      let t := q.tail
      if crqIsClosed t then some ({ q with tail := t + 1 }, .enqAlloc f, [])
      else some ({ q with tail := t + 1 }, .enqIdx f t, [.enqDraw f.call f.tail t.toNat])
  | .enqIdx f t => some (q, .enqVal f t (q.array (cellOf pow t)).idx, [])
  | .enqVal f t idx =>
      if isEmpty (q.array (cellOf pow t)).val then
        if nodeIndex idx ≤ t then
          if nodeUnsafe idx = 0 then some (q, .enqCas2 f t idx, [])
          else some (q, .enqHead f t idx, [])
        else some (q, .enqFull f t, [])
      else some (q, .enqFull f t, [])
  | .enqHead f t idx =>
      if q.head < t then some (q, .enqCas2 f t idx, []) else some (q, .enqFull f t, [])
  | .enqCas2 f t idx =>
      match q.cas2 (cellOf pow t) EMPTY idx f.arg t with
      | (true, q') =>
          some (q', .idle, [.enqRet f.call, .enqItem f.call f.tail t.toNat f.arg])
      | (false, q') => some (q', .enqFull f t, [])
  | .enqFull f t =>
      if ringSize pow ≤ t - q.head then
        some (q, .enqClose { f with tryClose := f.tryClose + 1 } t, [])
      else some (q, .enqNext f, [])
  | .enqClose f t =>
      match q.closeCrq t f.tryClose with
      | (true, q') => some (q', .enqAlloc f, [])
      | (false, q') => some (q', .enqNext f, [])
  | .deqFaa f =>
      let h := q.head
      some ({ q with head := h + 1 }, .deqIdx f h 0 0, [.deqDraw f.call f.head h.toNat])
  | .deqIdx f h tt r => some (q, .deqVal f h tt r (q.array (cellOf pow h)).idx, [])
  | .deqVal f h tt r cellIdx =>
      let val := (q.array (cellOf pow h)).val
      if nodeIndex cellIdx > h then some (q, .deqExit f h, [.deqLeft f.call f.head h.toNat])
      else if isEmpty val then
        if r &&& ((1 <<< 10) - 1) = 0 then some (q, .deqTail f h r cellIdx, [])
        else some (q, atEmptyCell f h tt r cellIdx, [])
      else if nodeIndex cellIdx = h then some (q, .deqTake f h tt r cellIdx val, [])
      else some (q, .deqMark f h tt r cellIdx val, [])
  | .deqTail f h r cellIdx => some (q, atEmptyCell f h q.tail r cellIdx, [])
  | .deqTake f h tt r cellIdx val =>
      match q.cas2 (cellOf pow h) val cellIdx EMPTY (nodeUnsafe cellIdx ||| (h + ringSize pow)) with
      | (true, q') =>
          some (q', .idle, [.deqRet f.call f.head h.toNat val, .deqItem f.call f.head h.toNat val])
      | (false, q') => some (q', .deqIdx f h tt r, [])
  | .deqMark f h tt r cellIdx val =>
      match q.cas2 (cellOf pow h) val cellIdx val (setUnsafe (nodeIndex cellIdx)) with
      | (true, q') => some (q', .deqExit f h, [.deqLeft f.call f.head h.toNat])
      | (false, q') => some (q', .deqIdx f h tt r, [])
  | .deqSkipUnsafe f h tt r cellIdx =>
      match q.cas2 (cellOf pow h) EMPTY cellIdx EMPTY
        (nodeUnsafe cellIdx ||| (h + ringSize pow)) with
      | (true, q') => some (q', .deqExit f h, [.deqLeft f.call f.head h.toNat])
      | (false, q') => some (q', .deqIdx f h tt r, [])
  | .deqSkip f h tt r idx =>
      match q.cas2 (cellOf pow h) EMPTY idx EMPTY (h + ringSize pow) with
      | (true, q') => some (q', .deqExit f h, [.deqLeft f.call f.head h.toNat])
      | (false, q') => some (q', .deqIdx f h tt r, [])
  | .deqExit f h =>
      if tailIndex q.tail - 1 ≤ h then some (q, .fixTail f, []) else some (q, .deqFaa f, [])
  | .fixTail f => some (q, .fixHead f q.tail, [])
  | .fixHead f t => some (q, .fixCheck f t q.head, [])
  | .fixCheck f t h =>
      if q.tail ≠ t then some (q, .fixTail f, [])
      else if h > t then some (q, .fixCas f t h, [])
      else some (q, .deqNext f, [])
  | .fixCas f t h =>
      match q.casTail t h with
      | (true, q') => some (q', .deqNext f, [])
      | (false, q') => some (q', .fixTail f, [])
  | .deqNext f =>
      match q.next with
      | none => some (q, .idle, [.deqEmpty f.call])
      | some next => some (q, .deqFaa { f with head := next }, [])
  | _ => none

/-- Shared memory, the thread-local `nrq`, and where each thread is. -/
structure State (T : Type) where
  ring : ℕ → RingQueue ℕ Word
  fresh : ℕ
  head : ℕ
  tail : ℕ
  nrq : T → Option ℕ
  pc : T → Pc
  calls : ℕ

section Steps

variable {T : Type} [DecidableEq T]

def State.goto (s : State T) (p : T) (pc : Pc) : State T :=
  { s with pc := Function.update s.pc p pc }

@[simp] theorem State.goto_pc (s : State T) (p : T) (pc : Pc) : (s.goto p pc).pc p = pc :=
  Function.update_self ..

def State.setRing (s : State T) (r : ℕ) (q : RingQueue ℕ Word) : State T :=
  { s with ring := Function.update s.ring r q }

def State.setNrq (s : State T) (p : T) (n : Option ℕ) : State T :=
  { s with nrq := Function.update s.nrq p n }

/-- `getMemory` hands out memory that was never used before. -/
def run (pow : ℕ) (s : State T) (p : T) : Option (State T × List (Event Word)) :=
  match s.pc p with
  | .enqAlloc f =>
      match s.nrq p with
      | some n => some (s.goto p (.soloTail f n), [])
      | none =>
          let n := s.fresh
          some (({ s with fresh := n + 1 }.setRing n (initRing EMPTY)).setNrq p (some n)
            |>.goto p (.soloTail f n), [])
  | .soloTail f n => some ((s.setRing n { s.ring n with tail := 1 }).goto p (.soloVal f n), [])
  | .soloVal f n =>
      some ((s.setRing n ((s.ring n).setNode 0 { (s.ring n).array 0 with val := f.arg })).goto p
        (.soloIdx f n), [])
  | .soloIdx f n =>
      some ((s.setRing n ((s.ring n).setNode 0 { (s.ring n).array 0 with idx := 0 })).goto p
        (.enqLink f n), [])
  | .enqLink f n =>
      match (s.ring f.tail).next with
      | none =>
          some ((s.setRing f.tail { s.ring f.tail with next := some n }).goto p (.enqSwing f n),
            [.enqItem f.call n 0 f.arg, .enqDraw f.call n 0, .link f.tail n])
      | some _ => some (s.goto p (.enqNext f), [])
  | .enqSwing f _ => some ((s.setNrq p none).goto p .idle, [.enqRet f.call])
  | pc =>
      (onRing pow (s.ring pc.rq) pc).map fun (q, pc', events) =>
        ((s.setRing pc.rq q).goto p pc', events)

inductive Act
  | enq (arg : Word)
  | deq
  | run

def step (pow : ℕ) (s : State T) (p : T) : Act → Option (State T × List (Event Word))
  | .enq arg =>
      match s.pc p with
      | .idle =>
          some ({ s with calls := s.calls + 1 }.goto p (.enqNext ⟨s.calls, arg, s.tail, 0⟩),
            [.enqCall s.calls arg])
      | _ => none
  | .deq =>
      match s.pc p with
      | .idle =>
          some ({ s with calls := s.calls + 1 }.goto p (.deqFaa ⟨s.calls, s.head⟩),
            [.deqCall s.calls])
      | _ => none
  | .run => run pow s p

/-- `init_queue`. -/
def State.init : State T where
  ring := fun _ => initRing EMPTY
  fresh := 1
  head := 0
  tail := 0
  nrq := fun _ => none
  pc := fun _ => .idle
  calls := 0

/-- Tickets stay below `2^63`, those that a dequeuer writes into its cell for the
next lap included. -/
def TicketsBelow (pow : ℕ) (s : State T) : Prop :=
  ∀ r < s.fresh, (s.ring r).head.toNat + 2 ^ pow < 2 ^ 63 ∧
    (tailIndex (s.ring r).tail).toNat + 1 < 2 ^ 63

instance (pow : ℕ) (s : State T) : Decidable (TicketsBelow pow s) :=
  inferInstanceAs (Decidable (∀ r < s.fresh, _))

/-- `EMPTY` is not enqueued. -/
def Act.Allowed : Act → Prop
  | .enq arg => arg ≠ EMPTY
  | _ => True

instance (a : Act) : Decidable a.Allowed := by
  cases a with
  | enq arg => exact inferInstanceAs (Decidable (arg ≠ EMPTY))
  | deq => exact inferInstanceAs (Decidable True)
  | run => exact inferInstanceAs (Decidable True)

structure Exec (T : Type) where
  st : State T
  log : List (Event Word)

def Exec.next (pow : ℕ) (e : Exec T) (p : T) (a : Act) : Option (Exec T) :=
  if TicketsBelow pow e.st ∧ a.Allowed then
    (step pow e.st p a).map fun (s, events) => ⟨s, events ++ e.log⟩
  else none

def Exec.init : Exec T := ⟨State.init, []⟩

def system (pow : ℕ) : System (Exec T) where
  init := fun e => e = Exec.init ∧ TicketsBelow pow e.st
  step := fun e e' => ∃ p a, e.next pow p a = some e'

omit [DecidableEq T] in
theorem init_below {pow : ℕ} (small : pow < 63) : TicketsBelow pow (State.init : State T) := by
  have bound : 0 + 2 ^ pow < 2 ^ 63 := by
    rw [Nat.zero_add]
    exact Nat.pow_lt_pow_right (by decide) small
  have room : (tailIndex 0).toNat + 1 < 2 ^ 63 := by decide
  exact fun r _ => ⟨bound, room⟩

theorem schedule_reaches {pow : ℕ} (small : pow < 63) (schedule : List (T × Act))
    (P : Exec T → Bool)
    (found : (runSchedule (fun e a => e.next pow a.1 a.2) Exec.init schedule).any P = true) :
    ∃ e, Reachable (system pow) e ∧ P e = true := by
  have start : (system pow).init (Exec.init : Exec T) := ⟨rfl, init_below small⟩
  refine runSchedule_any ?_ start schedule P found
  exact fun e a e' next => ⟨a.1, a.2, next⟩

end Steps

/-- Ring and head ticket of a `deq` call in its inner loop. -/
def Pc.holds : Pc → Option (ℕ × ℕ)
  | .deqIdx f h _ _ | .deqVal f h _ _ _ | .deqTail f h _ _ | .deqTake f h _ _ _ _
  | .deqMark f h _ _ _ _ | .deqSkipUnsafe f h _ _ _ | .deqSkip f h _ _ _ => some (f.head, h.toNat)
  | _ => none

end Elcrq.C
