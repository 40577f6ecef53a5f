import Elcrq.Concurrent.Runs
import Mathlib.Data.Fintype.Prod
import Mathlib.Data.Fintype.Card
import Mathlib.Data.Fintype.Fin

/-! # The round trip of `main.c`

Senders, intermediates and receivers pass items through four queues.  A queue is
an atomic FIFO list with an event count: `enq`, `deq`, `notify`, `prepareWait` and
the test of `await` are one step each, and a thread that sleeps in `await` is woken
by a `notify` only.  Items carry the path they have taken; the code does not see
it. -/

set_option autoImplicit false

namespace Elcrq.Roundtrip

open Concurrent

structure Config where
  numThread : ℕ
  numIters : ℕ
  numRuns : ℕ

def MAX_PATIENCE : ℕ := 1000

inductive Role
  | sender
  | intermediate
  | receiver
  deriving DecidableEq

instance : Fintype Role := ⟨{.sender, .intermediate, .receiver}, by intro r; cases r <;> decide⟩

inductive QueueId
  | queue12
  | queue23
  | queue32
  | queue21
  deriving DecidableEq

inductive Param
  | q12
  | q23
  | q32
  | q21
  deriving DecidableEq

/-- The wiring in `main`; every thread gets the same. -/
def params : Param → QueueId
  | .q12 => .queue12
  | .q23 => .queue23
  | .q32 => .queue32
  | .q21 => .queue23

inductive Hop
  | put (role : Role) (q : Param)
  | took (role : Role) (q : Param)
  deriving DecidableEq

/-- The `k` of a sender with its path, newest hop first. -/
structure Item where
  val : ℕ
  path : List Hop
  deriving DecidableEq

/-- What the queues hold and `deq` returns.  A sender's `k` is a non-negative `int`
and never has the bit pattern of `EMPTY`. -/
abbrev Object := Option Item

def EMPTY : Object := none

def Item.mark (h : Hop) (x : Item) : Item := { x with path := h :: x.path }

def Object.mark (h : Hop) (x : Object) : Object := Option.map (Item.mark h) x

/-- The argument of an `enqueue`: the loop counter or the local `deq`. -/
inductive Arg
  | k
  | deq
  deriving DecidableEq

inductive Op
  | enqueue (arg : Arg) (q : Param)
  | spinEnqueue (arg : Arg) (q : Param)
  | dequeue (q : Param)
  | spinDequeue (q : Param)
  deriving DecidableEq

/-- The bodies of the inner loops. -/
def sender : List Op := [.enqueue .k .q12, .spinDequeue .q21]

def intermediate : List Op :=
  [.dequeue .q12, .enqueue .deq .q23, .spinDequeue .q32, .spinEnqueue .deq .q21]

def receiver : List Op := [.dequeue .q23, .spinEnqueue .deq .q32]

def Role.body : Role → List Op
  | .sender => Roundtrip.sender
  | .intermediate => Roundtrip.intermediate
  | .receiver => Roundtrip.receiver

def Role.iterations (c : Config) : Role → ℕ
  | .sender => c.numIters
  | .intermediate => c.numIters - 1
  | .receiver => c.numIters

/-- The locals of a thread inside its inner loop, with what is left of the body. -/
structure Frame where
  j : ℕ
  k : ℕ
  todo : List Op
  deq : Object

def Frame.arg (f : Frame) : Arg → Object
  | .k => some ⟨f.k, []⟩
  | .deq => f.deq

/-- `run` is before the test `j < NUM_RUNS`, `iter` before the test of `k`; `spin`
is inside `spinDequeue`, `deq` to `cancelWait` inside `dequeue`. -/
inductive Pc
  | run (j : ℕ)
  | barrier (j gen : ℕ)
  | iter (j k : ℕ)
  | body (f : Frame)
  | notify (f : Frame) (q : Param)
  | spin (f : Frame) (q : Param) (patience : ℕ)
  | deq (f : Frame) (q : Param)
  | prepareWait (f : Frame) (q : Param)
  | retry (f : Frame) (q : Param) (key : ℕ)
  | await (f : Frame) (q : Param) (key : ℕ)
  | asleep (f : Frame) (q : Param) (key : ℕ)
  | cancelWait (f : Frame) (element : Object)
  | done

def Pc.asleepOn : Pc → Option QueueId
  | .asleep _ q _ => some (params q)
  | _ => none

/-- The argument, when the next step calls `enqueue` or `spinEnqueue`. -/
def Pc.enqueues : Pc → Option Object
  | .body f =>
      match f.todo with
      | .enqueue arg _ :: _ | .spinEnqueue arg _ :: _ => some (f.arg arg)
      | _ => none
  | _ => none

abbrev Thread (n : ℕ) := Role × Fin n

/-- `arrived` and `generation` are the barrier's; `got` records the items that
senders have received. -/
structure State (n : ℕ) where
  queue : QueueId → List Object
  epoch : QueueId → ℕ
  arrived : ℕ
  generation : ℕ
  pc : Thread n → Pc
  got : List Item

section Steps

variable {n : ℕ}

def State.goto (s : State n) (p : Thread n) (pc : Pc) : State n :=
  { s with pc := Function.update s.pc p pc }

@[simp] theorem State.goto_pc (s : State n) (p : Thread n) (pc : Pc) : (s.goto p pc).pc p = pc :=
  Function.update_self ..

@[simp] theorem State.goto_goto (s : State n) (p : Thread n) (pc pc' : Pc) :
    (s.goto p pc).goto p pc' = s.goto p pc' := by
  simp only [State.goto, Function.update_idem]

def State.enq (s : State n) (p : Thread n) (q : Param) (x : Object) : State n :=
  let items := s.queue (params q) ++ [x.mark (.put p.1 q)]
  { s with queue := Function.update s.queue (params q) items }

def State.deq (s : State n) (p : Thread n) (q : Param) : Object × State n :=
  match s.queue (params q) with
  | [] => (EMPTY, s)
  | x :: rest =>
      (x.mark (.took p.1 q), { s with queue := Function.update s.queue (params q) rest })

/-- `notify` on an event count, with the sleeper it wakes. -/
def State.notify (s : State n) (q : QueueId) (woken : Option (Thread n)) : Option (State n) :=
  let s' : State n := { s with epoch := Function.update s.epoch q (s.epoch q + 1) }
  match woken with
  | none => if ∀ w, (s.pc w).asleepOn ≠ some q then some s' else none
  | some w =>
      match s.pc w with
      | .asleep f q' key => if params q' = q then some (s'.goto w (.await f q' key)) else none
      | _ => none

/-- A sender keeps what `spinDequeue` returned. -/
def State.receive (s : State n) (p : Thread n) (x : Object) : State n :=
  if p.1 = .sender then { s with got := x.toList ++ s.got } else s

def step (c : Config) (s : State c.numThread) (p : Thread c.numThread)
    (woken : Option (Thread c.numThread)) : Option (State c.numThread) :=
  match s.pc p with
  | .run j =>
      if j < c.numRuns then
        if s.arrived + 1 = c.numThread * 3 then
          some ({ s with arrived := 0, generation := s.generation + 1 }.goto p (.iter j 0))
        else some ({ s with arrived := s.arrived + 1 }.goto p (.barrier j s.generation))
      else some (s.goto p .done)
  | .barrier j gen => if s.generation = gen then none else some (s.goto p (.iter j 0))
  | .iter j k =>
      if k < p.1.iterations c then some (s.goto p (.body ⟨j, k, p.1.body, EMPTY⟩))
      else some (s.goto p (.run (j + 1)))
  | .body f =>
      match f.todo with
      | [] => some (s.goto p (.iter f.j (f.k + 1)))
      | .enqueue arg q :: rest =>
          some ((s.enq p q (f.arg arg)).goto p (.notify { f with todo := rest } q))
      | .spinEnqueue arg q :: rest =>
          some ((s.enq p q (f.arg arg)).goto p (.body { f with todo := rest }))
      | .dequeue q :: rest => some (s.goto p (.deq { f with todo := rest } q))
      | .spinDequeue q :: rest => some (s.goto p (.spin { f with todo := rest } q 0))
  | .notify f q => (s.notify (params q) woken).map fun s' => s'.goto p (.body f)
  | .spin f q patience =>
      let (element, s') := s.deq p q
      if element = EMPTY ∧ patience < MAX_PATIENCE then some (s'.goto p (.spin f q (patience + 1)))
      else some ((s'.receive p element).goto p (.body { f with deq := element }))
  | .deq f q =>
      let (element, s') := s.deq p q
      if element = EMPTY then some (s'.goto p (.prepareWait f q))
      else some (s'.goto p (.body { f with deq := element }))
  | .prepareWait f q => some (s.goto p (.retry f q (s.epoch (params q))))
  | .retry f q key =>
      let (element, s') := s.deq p q
      if element = EMPTY then some (s'.goto p (.await f q key))
      else some (s'.goto p (.cancelWait f element))
  | .await f q key =>
      if s.epoch (params q) = key then some (s.goto p (.asleep f q key))
      else some (s.goto p (.prepareWait f q))
  | .asleep _ _ _ => none
  | .cancelWait f element => some (s.goto p (.body { f with deq := element }))
  | .done => none

def State.init : State n where
  queue := fun _ => []
  epoch := fun _ => 0
  arrived := 0
  generation := 0
  pc := fun _ => .run 0
  got := []

def system (c : Config) : System (State c.numThread) where
  init := fun s => s = State.init
  step := fun s s' => ∃ p woken, step c s p woken = some s'

end Steps

/-! ## What is asked of a run -/

section Properties

variable {c : Config}

/-- Some thread is not finished and no thread can take a step. -/
def Deadlocked (s : State c.numThread) : Prop :=
  (∃ p, s.pc p ≠ .done) ∧ ∀ p woken, step c s p woken = none

/-- The sender took the item from where an intermediate had put it on `q21`, after an
intermediate took it from `q12`, a receiver from `q23` and an intermediate from `q32`. -/
def Item.RoundTrip (x : Item) : Prop :=
  ∃ older, x.path = .took .sender .q21 :: .put .intermediate .q21 :: older ∧
    [Hop.took .intermediate .q32, .took .receiver .q23, .took .intermediate .q12].Sublist older

end Properties

end Elcrq.Roundtrip
