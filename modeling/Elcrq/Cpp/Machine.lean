import Elcrq.Threads
import Elcrq.Concurrent.Hazard

/-! # `enqueue` and `dequeue` of `LCRQueue.hpp` as a machine

One step of a thread is one access to shared memory together with the local
computation up to the next one.  Threads are their `tid`s.  Nodes are kept by
construction: `addr` is where a node was put and `nodeAt` which node was put last
at an address, so that a pointer to an address that is used again leads to the
new node.  `onNode` holds the accesses to the node that a call has protected and
validated, `run` all others: `head` and `tail`, the hazard slots, the new node of
an `enqueue` and the scan of `retire`.  `maxHPs` is `1`.  Events record what a step
means for calls and memory; the code does not read them. -/

set_option autoImplicit false

namespace Elcrq.Cpp

open Concurrent Concurrent.RingList Concurrent.Hazard

/-- The locals of `enqueue` that live through its loop. -/
structure EnqFrame (V : Type) where
  call : ℕ
  item : V
  tryClose : ℕ

/-- An item on its way out of `dequeue`, with the node and ticket it was taken from. -/
structure Taken (V : Type) where
  node : ℕ
  ticket : ℕ
  val : V

/-- The access a thread makes next.  `tt` is read before its first use because
`r` starts at `0`. -/
inductive Pc (A V : Type)
  | idle
  | enqTail (f : EnqFrame V)
  | enqProtect (f : EnqFrame V) (ltail : A)
  | enqValidate (f : EnqFrame V) (ltail : A)
  | enqNext (f : EnqFrame V) (ltail : A)
  | enqHelp (f : EnqFrame V) (ltail lnext : A)
  | enqFaa (f : EnqFrame V) (ltail : A)
  | enqConstruct (f : EnqFrame V) (ltail : A)
  | soloTail (f : EnqFrame V) (ltail newNode : A)
  | soloVal (f : EnqFrame V) (ltail newNode : A)
  | soloIdx (f : EnqFrame V) (ltail newNode : A)
  | enqLink (f : EnqFrame V) (ltail newNode : A)
  | enqAdvance (f : EnqFrame V) (ltail newNode : A)
  | enqDestroy (f : EnqFrame V) (newNode : A)
  | enqIdx (f : EnqFrame V) (ltail : A) (t : Word)
  | enqVal (f : EnqFrame V) (ltail : A) (t idx : Word)
  | enqHead (f : EnqFrame V) (ltail : A) (t idx : Word)
  | enqCas2 (f : EnqFrame V) (ltail : A) (t idx : Word)
  | enqFull (f : EnqFrame V) (ltail : A) (t : Word)
  | enqClose (f : EnqFrame V) (ltail : A) (t : Word)
  | enqClear (f : EnqFrame V)
  | deqHead (c : ℕ)
  | deqProtect (c : ℕ) (lhead : A)
  | deqValidate (c : ℕ) (lhead : A)
  | deqFaa (c : ℕ) (lhead : A)
  | deqIdx (c : ℕ) (lhead : A) (h tt : Word) (r : ℕ)
  | deqVal (c : ℕ) (lhead : A) (h tt : Word) (r : ℕ) (cellIdx : Word)
  | deqTail (c : ℕ) (lhead : A) (h : Word) (r : ℕ) (cellIdx : Word)
  | deqTake (c : ℕ) (lhead : A) (h tt : Word) (r : ℕ) (cellIdx : Word) (val : V)
  | deqMark (c : ℕ) (lhead : A) (h tt : Word) (r : ℕ) (cellIdx : Word) (val : V)
  | deqSkipUnsafe (c : ℕ) (lhead : A) (h tt : Word) (r : ℕ) (cellIdx : Word)
  | deqSkip (c : ℕ) (lhead : A) (h tt : Word) (r : ℕ) (idx : Word)
  | deqClose (c : ℕ) (lhead : A) (h : Word)
  | deqExit (c : ℕ) (lhead : A) (h : Word)
  | fixTail (c : ℕ) (lhead : A) (h : Word)
  | fixHead (c : ℕ) (lhead : A) (h t : Word)
  | fixCheck (c : ℕ) (lhead : A) (h t head : Word)
  | fixCas (c : ℕ) (lhead : A) (h t head : Word)
  | deqNext (c : ℕ) (lhead : A) (h : Word)
  | deqTest (c : ℕ) (lhead : A) (h : Word) (lnext : A)
  | deqSwing (c : ℕ) (lhead lnext : A)
  | scan (c : ℕ) (ptr : A) (iret tid : ℕ)
  | destroy (c : ℕ) (ptr : A) (iret : ℕ)
  | deqClear (c : ℕ) (taken : Option (Taken V))

section Accesses

variable {A V : Type}

/-- The inner loop of `dequeue` at an empty cell, once `tt` is there. -/
def atEmptyCell (c : ℕ) (lhead : A) (h tt : Word) (r : ℕ) (cellIdx : Word) : Pc A V :=
  if nodeUnsafe cellIdx ≠ 0 then .deqSkipUnsafe c lhead h tt r cellIdx
  else if tailIndex tt < h + 1 ∨ r > 200000 ∨ crqIsClosed tt then
    .deqSkip c lhead h tt r (nodeIndex cellIdx)
  else .deqIdx c lhead h tt (r + 1)

/-- The accesses to the node `ltail` or `lhead` points to, which is node number
`i`: its new content, where the call goes on, what is recorded. -/
def onNode [DecidableEq V] (pow i : ℕ) (q : RingQueue A (Option V)) :
    Pc A V → Option (RingQueue A (Option V) × Pc A V × List (Event V))
  | .enqNext f ltail =>
      match q.next with
      | some lnext => some (q, .enqHelp f ltail lnext, [])
      | none => some (q, .enqFaa f ltail, [])
  | .enqFaa f ltail =>
      let t := q.tail
      if crqIsClosed t then some ({ q with tail := t + 1 }, .enqConstruct f ltail, [])
      else some ({ q with tail := t + 1 }, .enqIdx f ltail t, [.enqDraw f.call i t.toNat])
  | .enqIdx f ltail t => some (q, .enqVal f ltail t (q.array (cellOf pow t)).idx, [])
  | .enqVal f ltail t idx =>
      if (q.array (cellOf pow t)).val = none then
        if nodeIndex idx ≤ t then
          if nodeUnsafe idx = 0 then some (q, .enqCas2 f ltail t idx, [])
          else some (q, .enqHead f ltail t idx, [])
        else some (q, .enqFull f ltail t, [])
      else some (q, .enqFull f ltail t, [])
  | .enqHead f ltail t idx =>
      if q.head.slt t then some (q, .enqCas2 f ltail t idx, [])
      else some (q, .enqFull f ltail t, [])
  | .enqCas2 f ltail t idx =>
      match q.cas2 (cellOf pow t) none idx (some f.item) t with
      | (true, q') => some (q', .enqClear f, [.enqItem f.call i t.toNat f.item])
      | (false, q') => some (q', .enqFull f ltail t, [])
  | .enqFull f ltail t =>
      if (ringSize pow).sle (t - q.head) then
        some (q, .enqClose { f with tryClose := f.tryClose + 1 } ltail t, [])
      else some (q, .enqTail f, [])
  | .enqClose f _ t => some ((q.closeCrq t f.tryClose).2, .enqTail f, [])
  | .deqFaa c lhead =>
      let h := q.head
      some ({ q with head := h + 1 }, .deqIdx c lhead h 0 0, [.deqDraw c i h.toNat])
  | .deqIdx c lhead h tt r => some (q, .deqVal c lhead h tt r (q.array (cellOf pow h)).idx, [])
  | .deqVal c lhead h tt r cellIdx =>
      if nodeIndex cellIdx > h then some (q, .deqExit c lhead h, [.deqLeft c i h.toNat])
      else
        match (q.array (cellOf pow h)).val with
        | some val =>
            if nodeIndex cellIdx = h then some (q, .deqTake c lhead h tt r cellIdx val, [])
            else some (q, .deqMark c lhead h tt r cellIdx val, [])
        | none =>
            if r &&& ((1 <<< 10) - 1) = 0 then some (q, .deqTail c lhead h r cellIdx, [])
            else some (q, atEmptyCell c lhead h tt r cellIdx, [])
  | .deqTail c lhead h r cellIdx => some (q, atEmptyCell c lhead h q.tail r cellIdx, [])
  | .deqTake c lhead h tt r cellIdx val =>
      match q.cas2 (cellOf pow h) (some val) cellIdx none
        (nodeUnsafe cellIdx ||| (h + ringSize pow)) with
      | (true, q') =>
          some (q', .deqClear c (some ⟨i, h.toNat, val⟩), [.deqItem c i h.toNat val])
      | (false, q') => some (q', .deqIdx c lhead h tt r, [])
  | .deqMark c lhead h tt r cellIdx val =>
      match q.cas2 (cellOf pow h) (some val) cellIdx (some val) (setUnsafe (nodeIndex cellIdx)) with
      | (true, q') => some (q', .deqExit c lhead h, [.deqLeft c i h.toNat])
      | (false, q') => some (q', .deqIdx c lhead h tt r, [])
  | .deqSkipUnsafe c lhead h tt r cellIdx =>
      match q.cas2 (cellOf pow h) none cellIdx none
        (nodeUnsafe cellIdx ||| (h + ringSize pow)) with
      | (true, q') => some (q', .deqExit c lhead h, [.deqLeft c i h.toNat])
      | (false, q') => some (q', .deqIdx c lhead h tt r, [])
  | .deqSkip c lhead h tt r idx =>
      match q.cas2 (cellOf pow h) none idx none (h + ringSize pow) with
      | (true, q') =>
          if r > 200000 ∧ tt > ringSize pow then
            some (q', .deqClose c lhead h, [.deqLeft c i h.toNat])
          else some (q', .deqExit c lhead h, [.deqLeft c i h.toNat])
      | (false, q') => some (q', .deqIdx c lhead h tt r, [])
  | .deqClose c lhead h => some (q.btsTail.2, .deqExit c lhead h, [])
  | .deqExit c lhead h =>
      if tailIndex q.tail ≤ h + 1 then some (q, .fixTail c lhead h, []) else some (q, .deqHead c, [])
  | .fixTail c lhead h => some (q, .fixHead c lhead h q.tail, [])
  | .fixHead c lhead h t => some (q, .fixCheck c lhead h t q.head, [])
  | .fixCheck c lhead h t head =>
      if q.tail ≠ t then some (q, .fixTail c lhead h, [])
      else if head > t then some (q, .fixCas c lhead h t head, [])
      else some (q, .deqNext c lhead h, [])
  | .fixCas c lhead h t head =>
      match q.casTail t head with
      | (true, q') => some (q', .deqNext c lhead h, [])
      | (false, q') => some (q', .fixTail c lhead h, [])
  | .deqNext c lhead h =>
      match q.next with
      | none => some (q, .deqClear c none, [])
      | some lnext => some (q, .deqTest c lhead h lnext, [])
  | .deqTest c lhead h lnext =>
      if tailIndex q.tail ≤ h + 1 then some (q, .deqSwing c lhead lnext, [])
      else some (q, .deqHead c, [])
  | _ => none

/-- The validated pointer a call may still access. -/
def Pc.guarded : Pc A V → Option A
  | .enqNext _ l | .enqHelp _ l _ | .enqFaa _ l | .enqConstruct _ l | .soloTail _ l _
  | .soloVal _ l _ | .soloIdx _ l _ | .enqLink _ l _ | .enqAdvance _ l _ | .enqIdx _ l _
  | .enqVal _ l _ _ | .enqHead _ l _ _ | .enqCas2 _ l _ _ | .enqFull _ l _ | .enqClose _ l _
  | .deqFaa _ l | .deqIdx _ l _ _ _ | .deqVal _ l _ _ _ _ | .deqTail _ l _ _ _
  | .deqTake _ l _ _ _ _ _ | .deqMark _ l _ _ _ _ _ | .deqSkipUnsafe _ l _ _ _ _
  | .deqSkip _ l _ _ _ _ | .deqClose _ l _ | .deqExit _ l _ | .fixTail _ l _ | .fixHead _ l _ _
  | .fixCheck _ l _ _ _ | .fixCas _ l _ _ _ | .deqNext _ l _ | .deqTest _ l _ _
  | .deqSwing _ l _ => some l
  | _ => none

/-- The loop of `retire` over the retired nodes, which ends where `dequeue` goes on. -/
def scanFrom (c : ℕ) (ptr : A) (iret size : ℕ) : Pc A V :=
  if iret < size then .scan c ptr iret 0 else .deqHead c

end Accesses

/-- Shared memory, the threads' own retired nodes, and where each thread is. -/
structure State (n : ℕ) (A V : Type) where
  node : ℕ → RingQueue A (Option V)
  addr : ℕ → A
  made : ℕ
  nodeAt : A → ℕ
  live : A → Bool
  head : A
  tail : A
  hp : ℕ → Option A
  retiredList : Fin n → List A
  pc : Fin n → Pc A V
  calls : ℕ

structure Record (V : Type) where
  events : List (Event V)
  mem : List MemEvent

section Steps

variable {n : ℕ} {A V : Type} [DecidableEq A] [DecidableEq V]

def State.goto (s : State n A V) (p : Fin n) (pc : Pc A V) : State n A V :=
  { s with pc := Function.update s.pc p pc }

omit [DecidableEq A] [DecidableEq V] in
@[simp] theorem State.goto_pc (s : State n A V) (p : Fin n) (pc : Pc A V) :
    (s.goto p pc).pc p = pc := Function.update_self ..

/-- Writes to the node that `a` leads to. -/
def State.setNode (s : State n A V) (a : A) (q : RingQueue A (Option V)) : State n A V :=
  { s with node := Function.update s.node (s.nodeAt a) q }

def State.setHp (s : State n A V) (p : Fin n) (a : Option A) : State n A V :=
  { s with hp := Function.update s.hp p a }

/-- `tail.compare_exchange_strong`. -/
def State.casTail (s : State n A V) (old new : A) : State n A V :=
  { s with tail := if s.tail = old then new else s.tail }

def State.destroyPtr (s : State n A V) (a : A) : State n A V :=
  { s with live := Function.update s.live a false }

/-- `shm->construct<Node>` at an address the allocator has chosen. -/
def State.construct (s : State n A V) (a : A) : State n A V :=
  { s with
    node := Function.update s.node s.made (initRing none)
    addr := Function.update s.addr s.made a
    made := s.made + 1
    nodeAt := Function.update s.nodeAt a s.made
    live := Function.update s.live a true }

/-- The comparison of one hazard slot in `retire`. -/
def scanSlot (s : State n A V) (p : Fin n) (c : ℕ) (ptr obj : A) (iret tid : ℕ) : Pc A V :=
  if s.hp tid = some obj then scanFrom c ptr (iret + 1) (s.retiredList p).length
  else if tid + 1 < n then .scan c ptr iret (tid + 1)
  else .destroy c ptr iret

def run (pow : ℕ) (s : State n A V) (p : Fin n) : Option (State n A V × Record V) :=
  match s.pc p with
  | .enqTail f => some (s.goto p (.enqProtect f s.tail), ⟨[], []⟩)
  | .enqProtect f ltail => some ((s.setHp p (some ltail)).goto p (.enqValidate f ltail), ⟨[], []⟩)
  | .enqValidate f ltail =>
      if ltail = s.tail then some (s.goto p (.enqNext f ltail), ⟨[], []⟩)
      else some (s.goto p (.enqTail f), ⟨[], []⟩)
  | .enqHelp f ltail lnext => some ((s.casTail ltail lnext).goto p (.enqTail f), ⟨[], []⟩)
  | .soloTail f ltail m =>
      some ((s.setNode m { s.node (s.nodeAt m) with tail := 1 }).goto p (.soloVal f ltail m),
        ⟨[], []⟩)
  | .soloVal f ltail m =>
      let q := s.node (s.nodeAt m)
      some ((s.setNode m (q.setNode 0 { q.array 0 with val := some f.item })).goto p
        (.soloIdx f ltail m), ⟨[], []⟩)
  | .soloIdx f ltail m =>
      let q := s.node (s.nodeAt m)
      some ((s.setNode m (q.setNode 0 { q.array 0 with idx := 0 })).goto p (.enqLink f ltail m),
        ⟨[], []⟩)
  | .enqLink f ltail m =>
      let q := s.node (s.nodeAt ltail)
      match q.next with
      | none =>
          some ((s.setNode ltail { q with next := some m }).goto p (.enqAdvance f ltail m),
            ⟨[.enqItem f.call (s.nodeAt m) 0 f.item, .enqDraw f.call (s.nodeAt m) 0,
              .link (s.nodeAt ltail) (s.nodeAt m)], []⟩)
      | some _ => some (s.goto p (.enqDestroy f m), ⟨[], []⟩)
  | .enqAdvance f ltail m => some ((s.casTail ltail m).goto p (.enqClear f), ⟨[], []⟩)
  | .enqDestroy f m =>
      some ((s.destroyPtr m).goto p (.enqTail f), ⟨[], [.destroy (s.nodeAt m)]⟩)
  | .enqClear f => some ((s.setHp p none).goto p .idle, ⟨[.enqRet f.call], []⟩)
  | .deqHead c => some (s.goto p (.deqProtect c s.head), ⟨[], []⟩)
  | .deqProtect c lhead => some ((s.setHp p (some lhead)).goto p (.deqValidate c lhead), ⟨[], []⟩)
  | .deqValidate c lhead =>
      if lhead = s.head then some (s.goto p (.deqFaa c lhead), ⟨[], []⟩)
      else some (s.goto p (.deqHead c), ⟨[], []⟩)
  | .deqSwing c lhead lnext =>
      if s.head = lhead then
        let retired := s.retiredList p ++ [lhead]
        some ({ s with
          head := lnext
          retiredList := Function.update s.retiredList p retired }.goto p
            (scanFrom c lhead 0 retired.length), ⟨[], [.retire (s.nodeAt lhead)]⟩)
      else some (s.goto p (.deqHead c), ⟨[], []⟩)
  | .scan c ptr iret tid =>
      match (s.retiredList p)[iret]? with
      | some obj => some (s.goto p (scanSlot s p c ptr obj iret tid), ⟨[], []⟩)
      | none => none
  | .destroy c ptr iret =>
      match (s.retiredList p)[iret]? with
      | some obj =>
          let retired := (s.retiredList p).eraseIdx iret
          some (({ s with retiredList := Function.update s.retiredList p retired }.destroyPtr
            obj).goto p (scanFrom c ptr iret retired.length), ⟨[], [.destroy (s.nodeAt obj)]⟩)
      | none => none
  | .deqClear c none => some ((s.setHp p none).goto p .idle, ⟨[.deqEmpty c], []⟩)
  | .deqClear c (some x) =>
      some ((s.setHp p none).goto p .idle, ⟨[.deqRet c x.node x.ticket x.val], []⟩)
  | pc =>
      match pc.guarded with
      | some a =>
          (onNode pow (s.nodeAt a) (s.node (s.nodeAt a)) pc).map fun (q, pc', events) =>
            ((s.setNode a q).goto p pc', ⟨events, []⟩)
      | none => none

/-- `construct` is the step of a thread whose `enqueue` asks for a new node. -/
inductive Act (A V : Type)
  | enqueue (item : V)
  | dequeue
  | construct (a : A)
  | run

def step (pow : ℕ) (s : State n A V) (p : Fin n) : Act A V → Option (State n A V × Record V)
  | .enqueue item =>
      match s.pc p with
      | .idle =>
          some ({ s with calls := s.calls + 1 }.goto p (.enqTail ⟨s.calls, item, 0⟩),
            ⟨[.enqCall s.calls item], []⟩)
      | _ => none
  | .dequeue =>
      match s.pc p with
      | .idle =>
          some ({ s with calls := s.calls + 1 }.goto p (.deqHead s.calls),
            ⟨[.deqCall s.calls], []⟩)
      | _ => none
  | .construct a =>
      match s.pc p with
      | .enqConstruct f ltail =>
          if s.live a = false then
            some ((s.construct a).goto p (.soloTail f ltail a), ⟨[], [.construct s.made]⟩)
          else none
      | _ => none
  | .run => run pow s p

/-- The constructor, with the address of the first node. -/
def State.init (sentinel : A) : State n A V where
  node := fun _ => initRing none
  addr := fun _ => sentinel
  made := 1
  nodeAt := fun _ => 0
  live := fun a => decide (a = sentinel)
  head := sentinel
  tail := sentinel
  hp := fun _ => none
  retiredList := fun _ => []
  pc := fun _ => .idle
  calls := 0

/-- Tickets stay below `2^63`, those that a dequeuer writes into its cell for the
next lap included. -/
def TicketsBelow (pow : ℕ) (s : State n A V) : Prop :=
  ∀ i < s.made, (s.node i).head.toNat + 2 ^ pow < 2 ^ 63 ∧
    (tailIndex (s.node i).tail).toNat + 1 < 2 ^ 63

instance (pow : ℕ) (s : State n A V) : Decidable (TicketsBelow pow s) :=
  inferInstanceAs (Decidable (∀ i < s.made, _))

structure Exec (n : ℕ) (A V : Type) where
  st : State n A V
  log : List (Event V)
  mem : List MemEvent

def Exec.next (pow : ℕ) (e : Exec n A V) (p : Fin n) (a : Act A V) : Option (Exec n A V) :=
  if TicketsBelow pow e.st then
    (step pow e.st p a).map fun (s, record) => ⟨s, record.events ++ e.log, record.mem ++ e.mem⟩
  else none

def Exec.init (sentinel : A) : Exec n A V := ⟨State.init sentinel, [], [.construct 0]⟩

def system (pow : ℕ) : System (Exec n A V) where
  init := fun e => (∃ sentinel, e = Exec.init sentinel) ∧ TicketsBelow pow e.st
  step := fun e e' => ∃ p a, e.next pow p a = some e'

def burst (p : Fin n) (a : Act A V) (k : ℕ) : List (Fin n × Act A V) :=
  (p, a) :: List.replicate k (p, .run)

theorem schedule_reaches {pow : ℕ} (small : pow < 63) (sentinel : A)
    (schedule : List (Fin n × Act A V)) (P : Exec n A V → Bool)
    (found : (runSchedule (fun e a => e.next pow a.1 a.2) (Exec.init sentinel) schedule).any P =
      true) : ∃ e, Reachable (system pow) e ∧ P e = true := by
  have bound : 0 + 2 ^ pow < 2 ^ 63 := by
    rw [Nat.zero_add]
    exact Nat.pow_lt_pow_right (by decide) small
  have room : (tailIndex 0).toNat + 1 < 2 ^ 63 := by decide
  have start : (system pow).init (Exec.init sentinel : Exec n A V) :=
    ⟨⟨sentinel, rfl⟩, fun i _ => ⟨bound, room⟩⟩
  refine runSchedule_any ?_ start schedule P found
  exact fun e a e' next => ⟨a.1, a.2, next⟩

end Steps

end Elcrq.Cpp
