import Elcrq.EventCount

/-! # The blocking queue

`enqueue` and `dequeue` of `ELCRQ.h` over the event count.  `enq` and `deq` are
single steps on a queue; everything else is a step of the event count.  The
result is that no item waits while all that could take it are asleep: every item
beyond the notifies still to come is matched by a wake that is under way or by a
thread that will call `deq` before it sleeps. -/

set_option autoImplicit false

namespace Elcrq.Blocking

open Concurrent EventCount

/-- Where a thread is in `enqueue` or `dequeue`.  Inside `notify` and `await` the
event count has the details. -/
inductive Client
  | out
  | enq (arg : Word)
  | notify
  | deq
  | prepare
  | retry
  | await
  | cancel (element : Word)

structure State (T : Type) where
  ec : EventCount.State T
  queue : List Word
  client : T → Client

inductive Act (T : Type)
  | enqueue (arg : Word)
  | dequeue
  | run
  | wake (chosen : Finset T)
  | wakeUp

/-- The call of the event count that comes next. -/
def Client.call (T : Type) : Client → Pc → Option (EventCount.Act T)
  | .notify, _ => some (.notify 1)
  | .prepare, _ => some .prepareWait
  | .cancel _, _ => some .cancelWait
  | .await, .ready _ => some .await
  | .await, _ => some .run
  | _, _ => none

/-- Where a thread goes on after a step of the event count that left it at `pc`. -/
def Client.resume : Client → Pc → Client
  | .notify, .idle => .out
  | .prepare, _ => .retry
  | .cancel _, _ => .out
  | .await, .idle => .prepare
  | c, _ => c

section Steps

variable {T : Type} [DecidableEq T] [Fintype T]

def State.goto (s : State T) (p : T) (c : Client) : State T :=
  { s with client := Function.update s.client p c }

/-- A step of the event count by thread `p`. -/
def State.onEc (s : State T) (p : T) (a : EventCount.Act T) : Option (State T) :=
  (EventCount.step s.ec p a).map fun ec =>
    { s with ec := ec }.goto p ((s.client p).resume (ec.pc p))

def step (s : State T) (p : T) : Act T → Option (State T)
  | .enqueue arg =>
      match s.client p with
      | .out => some (s.goto p (.enq arg))
      | _ => none
  | .dequeue =>
      match s.client p with
      | .out => some (s.goto p .deq)
      | _ => none
  | .run =>
      match s.client p with
      | .enq arg => some ({ s with queue := s.queue ++ [arg] }.goto p .notify)
      | .deq =>
          match s.queue with
          | [] => some (s.goto p .prepare)
          | _ :: rest => some ({ s with queue := rest }.goto p .out)
      | .retry =>
          match s.queue with
          | [] => some (s.goto p .await)
          | x :: rest => some ({ s with queue := rest }.goto p (.cancel x))
      | c => (c.call T (s.ec.pc p)).bind (s.onEc p)
  | .wake chosen =>
      match s.client p with
      | .notify => s.onEc p (.wake chosen)
      | _ => none
  | .wakeUp =>
      match s.client p with
      | .await => s.onEc p .wakeUp
      | _ => none

def State.init : State T where
  ec := EventCount.State.init
  queue := []
  client := fun _ => .out

/-- Fewer than `2^32` notifies during any one wait. -/
def FewNotifies (s : State T) : Prop :=
  ∀ p, ∀ w ∈ (s.ec.pc p).wait, s.ec.notifies < w.since + 2 ^ 32

instance (s : State T) : Decidable (FewNotifies s) :=
  inferInstanceAs (Decidable (∀ p, ∀ w ∈ (s.ec.pc p).wait, _))

/-- Fewer than `2^32` threads are registered. -/
def FewWaiters (s : State T) : Prop := s.ec.registered.card < 2 ^ 32

/-- The runs whose states all meet `few`. -/
def system (few : State T → Prop) : System (State T) where
  init := fun s => s = State.init
  step := fun s s' => (∃ p a, step s p a = some s') ∧ few s'

/-- An item is there and everybody in a call is asleep. -/
def Stranded (s : State T) : Prop :=
  s.queue ≠ [] ∧ (∃ p, (s.ec.pc p).isAsleep = true) ∧
    ∀ p, s.client p = .out ∨ (s.ec.pc p).isAsleep = true

end Steps

/-! ## Items against wakes -/

/-- Which places in the event count go with which places in a call. -/
def Agrees : Client → Pc → Prop
  | .out, .idle | .enq _, .idle | .notify, .idle | .deq, .idle | .prepare, .idle => True
  | .notify, .wake n w => n = 1 ∧ w = none
  | .retry, .ready _ | .cancel _, .ready _ => True
  | .await, .ready _ | .await, .check _ | .await, .futexWait _ | .await, .asleep _
  | .await, .leave _ => True
  | _, _ => False

/-- The thread will notify, wake a sleeper or call `deq` before it can sleep. -/
def Busy (notifies : ℕ) : Client → Pc → Prop
  | .notify, _ | .deq, _ | .prepare, _ | .retry, _ => True
  | .await, .leave _ => True
  | .await, .ready w | .await, .check w | .await, .futexWait w => w.since ≠ notifies
  | _, _ => False

/-- The thread has enqueued and not yet notified. -/
def Owes : Client → Pc → Prop
  | .notify, .idle => True
  | _, _ => False

/-- The thread has found the queue empty and there was no notify since its `prepareWait`. -/
def Fresh (notifies : ℕ) : Client → Pc → Prop
  | .await, .ready w | .await, .check w | .await, .futexWait w | .await, .asleep w =>
      w.since = notifies
  | _, _ => False

instance (n : ℕ) (c : Client) (pc : Pc) : Decidable (Busy n c pc) := by
  cases c <;> cases pc <;> unfold Busy <;> infer_instance

instance (c : Client) (pc : Pc) : Decidable (Owes c pc) := by
  cases c <;> cases pc <;> unfold Owes <;> infer_instance

theorem Owes.busy {n : ℕ} {c : Client} {pc : Pc} (owes : Owes c pc) : Busy n c pc := by
  cases c <;> cases pc <;> first | exact owes.elim | trivial

theorem not_busy_of_asleep {n : ℕ} {c : Client} {pc : Pc} (agrees : Agrees c pc)
    (asleep : pc.isAsleep = true) : ¬ Busy n c pc := by
  cases pc <;> cases asleep
  cases c <;> first | exact agrees.elim | exact id

section Counting

variable {T : Type} [DecidableEq T] [Fintype T]

def State.busy (s : State T) : Finset T :=
  Finset.univ.filter fun p => Busy s.ec.notifies (s.client p) (s.ec.pc p)

def State.owing (s : State T) : Finset T := Finset.univ.filter fun p => Owes (s.client p) (s.ec.pc p)

variable {s s' : State T} {p : T}

omit [DecidableEq T] in
theorem mem_busy : p ∈ s.busy ↔ Busy s.ec.notifies (s.client p) (s.ec.pc p) := by
  simp [State.busy]

omit [DecidableEq T] in
theorem mem_owing : p ∈ s.owing ↔ Owes (s.client p) (s.ec.pc p) := by simp [State.owing]

omit [DecidableEq T] in
theorem owing_le_busy : s.owing.card ≤ s.busy.card := by
  refine Finset.card_le_card fun q owes => ?_
  exact mem_busy.mpr (mem_owing.mp owes).busy

omit [Fintype T] in
theorem card_of_same_others {A B : Finset T} (others : ∀ q, q ≠ p → (q ∈ A ↔ q ∈ B)) :
    A.card + (if p ∈ B then 1 else 0) = B.card + (if p ∈ A then 1 else 0) := by
  have erased : A.erase p = B.erase p := by
    ext q
    by_cases same : q = p
    · simp [same]
    · simp [same, others q same]
  have count : ∀ C : Finset T, C.card = (C.erase p).card + if p ∈ C then 1 else 0 := by
    intro C
    split
    next member => exact (Finset.card_erase_add_one member).symm
    next missing => rw [Finset.erase_eq_of_notMem missing, Nat.add_zero]
  rw [count A, count B, erased]
  omega

structure Inv (s : State T) : Prop where
  ec : EventCount.Inv s.ec
  few : FewNotifies s
  agrees : ∀ p, Agrees (s.client p) (s.ec.pc p)
  /-- Without a notify since a thread found the queue empty, items come only from
  threads that still owe theirs. -/
  fresh : ∀ p, Fresh s.ec.notifies (s.client p) (s.ec.pc p) → s.queue.length ≤ s.owing.card
  asleep : ∀ p, (s.ec.pc p).isAsleep = true → s.queue.length ≤ s.busy.card

omit [DecidableEq T] in
theorem Inv.key_iff {w : Wait} (inv : Inv s) (wait : (s.ec.pc p).wait = some w) :
    s.ec.val >>> kEpochShift = w.key.setWidth 64 ↔ w.since = s.ec.notifies := by
  obtain ⟨key, le⟩ := inv.ec.key p w wait
  have few := inv.few p w wait
  have epoch := inv.ec.epoch
  have keyLt := w.key.isLt
  rw [← BitVec.toNat_inj, epoch, BitVec.toNat_setWidth, key]
  omega

omit [DecidableEq T] in
theorem Inv.upper_iff {w : Wait} (inv : Inv s) (wait : (s.ec.pc p).wait = some w) :
    s.ec.val.extractLsb' 32 32 = w.key ↔ w.since = s.ec.notifies := by
  obtain ⟨key, le⟩ := inv.ec.key p w wait
  have few := inv.few p w wait
  have epoch := inv.ec.epoch
  rw [shift_toNat] at epoch
  rw [← BitVec.toNat_inj, upper_toNat, epoch, key]
  omega

theorem Inv.local (inv : Inv s) (ec : EventCount.Inv s'.ec) (few : FewNotifies s')
    (notifies : s'.ec.notifies = s.ec.notifies)
    (others : ∀ q, q ≠ p → s'.client q = s.client q ∧ s'.ec.pc q = s.ec.pc q)
    (agrees : Agrees (s'.client p) (s'.ec.pc p))
    (fresh : Fresh s'.ec.notifies (s'.client p) (s'.ec.pc p) →
      s'.queue = [] ∨ Fresh s.ec.notifies (s.client p) (s.ec.pc p))
    (asleep : (s'.ec.pc p).isAsleep = true →
      (s.ec.pc p).isAsleep = true ∨ Fresh s.ec.notifies (s.client p) (s.ec.pc p))
    (items : s'.queue = [] ∨
      (s'.queue.length + (if Busy s.ec.notifies (s.client p) (s.ec.pc p) then 1 else 0) ≤
          s.queue.length + (if Busy s.ec.notifies (s'.client p) (s'.ec.pc p) then 1 else 0) ∧
        s'.queue.length + (if Owes (s.client p) (s.ec.pc p) then 1 else 0) ≤
          s.queue.length + (if Owes (s'.client p) (s'.ec.pc p) then 1 else 0))) : Inv s' := by
  have busyCard : s.busy.card + (if p ∈ s'.busy then 1 else 0) =
      s'.busy.card + (if p ∈ s.busy then 1 else 0) :=
    card_of_same_others fun q other => by
      rw [mem_busy, mem_busy, notifies, (others q other).1, (others q other).2]
  have owingCard : s.owing.card + (if p ∈ s'.owing then 1 else 0) =
      s'.owing.card + (if p ∈ s.owing then 1 else 0) :=
    card_of_same_others fun q other => by
      rw [mem_owing, mem_owing, (others q other).1, (others q other).2]
  simp only [mem_busy, mem_owing, notifies] at busyCard owingCard
  have keepOwing : s.queue.length ≤ s.owing.card → s'.queue.length ≤ s'.owing.card := by
    intro le
    rcases items with empty | ⟨_, owing⟩
    · simp [empty]
    · omega
  have keepBusy : s.queue.length ≤ s.busy.card → s'.queue.length ≤ s'.busy.card := by
    intro le
    rcases items with empty | ⟨busy, _⟩
    · simp [empty]
    · omega
  refine ⟨ec, few, fun q => ?_, fun q isFresh => ?_, fun q isAsleep => ?_⟩
  · by_cases same : q = p
    · rw [same]
      exact agrees
    · rw [(others q same).1, (others q same).2]
      exact inv.agrees q
  · by_cases same : q = p
    · rw [same] at isFresh
      rcases fresh isFresh with empty | before
      · simp [empty]
      · exact keepOwing (inv.fresh p before)
    · rw [notifies, (others q same).1, (others q same).2] at isFresh
      exact keepOwing (inv.fresh q isFresh)
  · by_cases same : q = p
    · rw [same] at isAsleep
      rcases asleep isAsleep with before | before
      · exact keepBusy (inv.asleep p before)
      · exact (keepOwing (inv.fresh p before)).trans owing_le_busy
    · rw [(others q same).2] at isAsleep
      exact keepBusy (inv.asleep q isAsleep)

omit [DecidableEq T] [Fintype T] in
theorem FewNotifies.congr (few : FewNotifies s) (notifies : s'.ec.notifies = s.ec.notifies)
    (wait : ∀ q, (s'.ec.pc q).wait = (s.ec.pc q).wait) : FewNotifies s' := by
  intro q w registered
  rw [wait q] at registered
  rw [notifies]
  exact few q w registered

theorem Inv.onQueue {c : Client} {queue : List Word} (inv : Inv s)
    (agrees : Agrees c (s.ec.pc p)) (notAwait : c = .await → queue = [])
    (items : queue = [] ∨
      (queue.length + (if Busy s.ec.notifies (s.client p) (s.ec.pc p) then 1 else 0) ≤
          s.queue.length + (if Busy s.ec.notifies c (s.ec.pc p) then 1 else 0) ∧
        queue.length + (if Owes (s.client p) (s.ec.pc p) then 1 else 0) ≤
          s.queue.length + (if Owes c (s.ec.pc p) then 1 else 0))) :
    Inv ({ s with queue := queue }.goto p c) := by
  generalize after : ({ s with queue := queue } : State T).goto p c = s'
  have ecSame : s'.ec = s.ec := by rw [← after]; rfl
  have queueSame : s'.queue = queue := by rw [← after]; rfl
  have clientSelf : s'.client p = c := by
    rw [← after]
    exact Function.update_self ..
  refine inv.local (p := p) (by rw [ecSame]; exact inv.ec) (inv.few.congr ?_ ?_) ?_ (fun q other => ?_)
    ?_ (fun isFresh => Or.inl ?_) (fun isAsleep => Or.inl ?_) ?_
  · rw [ecSame]
  · intro q
    rw [ecSame]
  · rw [ecSame]
  · refine ⟨?_, by rw [ecSame]⟩
    rw [← after]
    exact Function.update_of_ne other ..
  · rw [clientSelf, ecSame]
    exact agrees
  · rw [queueSame]
    rw [clientSelf] at isFresh
    refine notAwait ?_
    cases c <;> first | rfl | exact isFresh.elim
  · rwa [ecSame] at isAsleep
  · rw [queueSame, clientSelf, ecSame]
    exact items

theorem Inv.onEc {a : EventCount.Act T} {ec : EventCount.State T} {c : Client} {pc : Pc}
    (inv : Inv s) (next : EventCount.step s.ec p a = some ec)
    (few : FewNotifies ({ s with ec := ec }.goto p c)) (room : ec.registered.card < 2 ^ 32)
    (notifies : ec.notifies = s.ec.notifies) (here : ec.pc p = pc)
    (others : ∀ q, q ≠ p → ec.pc q = s.ec.pc q) (agrees : Agrees c pc)
    (fresh : Fresh s.ec.notifies c pc → Fresh s.ec.notifies (s.client p) (s.ec.pc p))
    (asleep : pc.isAsleep = true → Fresh s.ec.notifies (s.client p) (s.ec.pc p))
    (busy : Busy s.ec.notifies (s.client p) (s.ec.pc p) → Busy s.ec.notifies c pc)
    (owes : ¬ Owes (s.client p) (s.ec.pc p)) : Inv ({ s with ec := ec }.goto p c) := by
  have clientSelf : (({ s with ec := ec } : State T).goto p c).client p = c :=
    Function.update_self ..
  refine inv.local (p := p) (inv.ec.step room next) few notifies
    (fun q other => ⟨Function.update_of_ne other .., others q other⟩) ?_ (fun isFresh => Or.inr ?_)
    (fun isAsleep => Or.inr ?_) (Or.inr ⟨?_, ?_⟩)
  · rw [clientSelf]
    show Agrees c (ec.pc p)
    rwa [here]
  · rw [clientSelf] at isFresh
    refine fresh ?_
    rw [← notifies, ← here]
    exact isFresh
  · refine asleep ?_
    rw [← here]
    exact isAsleep
  · rw [clientSelf]
    show s.queue.length + _ ≤ s.queue.length + if Busy s.ec.notifies c (ec.pc p) then 1 else 0
    rw [here]
    split
    next isBusy => rw [if_pos (busy isBusy)]
    next => exact Nat.le_add_right _ _
  · rw [if_neg owes]
    exact Nat.le_add_right _ _

/-- `notify` up to the wake: everyone who waits has now been notified, and if
anyone is asleep a wake follows. -/
theorem Inv.notify {w : Option Wait} {s' : State T} (inv : Inv s) (few : FewNotifies s')
    (client : s.client p = .notify) (here : s.ec.pc p = .afterWake w)
    (ec : s'.ec = s.ec.doNotify p 1 w) (queue : s'.queue = s.queue)
    (others : ∀ q, q ≠ p → s'.client q = s.client q)
    (goesOn : s'.client p = Client.notify.resume (s'.ec.pc p)) : Inv s' := by
  have agreesP := inv.agrees p
  rw [client, here] at agreesP
  obtain rfl : w = none := by
    cases w with
    | none => rfl
    | some w => exact agreesP.elim
  have pcOther : ∀ q, q ≠ p → s'.ec.pc q = s.ec.pc q := by
    intro q other
    rw [ec, EventCount.State.doNotify]
    split
    next => exact Function.update_of_ne other ..
    next => rfl
  have notifies : s'.ec.notifies = s.ec.notifies + 1 := by
    rw [ec, EventCount.State.doNotify]
    split <;> rfl
  have ecInv : EventCount.Inv s'.ec := inv.ec.notify here ec
  have since : ∀ q w, (s.ec.pc q).wait = some w → w.since ≠ s'.ec.notifies := by
    intro q w wait
    have := (inv.ec.key q w wait).2
    omega
  refine ⟨ecInv, few, fun q => ?_, fun q isFresh => ?_, fun q isAsleep => ?_⟩
  · by_cases same : q = p
    · rw [same, goesOn, ec, EventCount.State.doNotify]
      split
      next =>
        have pcSelf : (EventCount.State.goto { s.ec with
            val := s.ec.val + kAddEpoch
            notifies := s.ec.notifies + 1
            log := .notified s.ec.notifies :: s.ec.log } p (.wake 1 none)).pc p = .wake 1 none :=
          Function.update_self ..
        rw [pcSelf]
        exact ⟨rfl, rfl⟩
      next =>
        show Agrees (Client.notify.resume (s.ec.pc p)) (s.ec.pc p)
        rw [here]
        trivial
    · rw [others q same, pcOther q same]
      exact inv.agrees q
  · -- nobody has found the queue empty since this notify
    exfalso
    by_cases same : q = p
    · rw [same, goesOn] at isFresh
      cases pcP : s'.ec.pc p <;> rw [pcP] at isFresh <;> exact isFresh
    · rw [others q same, pcOther q same] at isFresh
      cases clientQ : s.client q <;> rw [clientQ] at isFresh <;>
        first
        | exact isFresh.elim
        | cases pcQ : s.ec.pc q <;> rw [pcQ] at isFresh <;>
            first
            | exact isFresh.elim
            | exact since q _ (by rw [pcQ]; rfl) isFresh
  · rw [queue]
    have notP : q ≠ p := by
      rintro rfl
      rw [ec, EventCount.State.doNotify] at isAsleep
      split at isAsleep
      next =>
        simp [EventCount.State.goto, Pc.isAsleep] at isAsleep
      next =>
        rw [show (s.ec.pc q).isAsleep = false by rw [here]; rfl] at isAsleep
        cases isAsleep
    rw [pcOther q notP] at isAsleep
    refine (inv.asleep q isAsleep).trans (Finset.card_le_card fun r isBusy => ?_)
    rw [mem_busy] at isBusy ⊢
    by_cases same : r = p
    · -- a thread is asleep, so the notify does not skip the wake
      have some' : s.ec.val &&& kWaiterMask ≠ 0 := by
        intro isZero
        have waiters := inv.ec.waiters
        rw [isZero] at waiters
        have member : q ∈ s.ec.registered := by
          cases pcQ : s.ec.pc q <;> rw [pcQ] at isAsleep <;> cases isAsleep
          exact mem_registered.mpr (by rw [pcQ]; rfl)
        rw [Finset.card_eq_zero.mp waiters.symm] at member
        exact absurd member (Finset.notMem_empty q)
      have pcSelf : s'.ec.pc p = .wake 1 none := by
        rw [ec, EventCount.State.doNotify, if_pos some']
        exact Function.update_self ..
      rw [same, goesOn, pcSelf]
      trivial
    · rw [others r same, pcOther r same]
      cases clientR : s.client r <;> rw [clientR] at isBusy <;>
        first
        | exact isBusy.elim
        | trivial
        | cases pcR : s.ec.pc r <;> rw [pcR] at isBusy <;>
            first
            | exact isBusy.elim
            | trivial
            | exact since r _ (by rw [pcR]; rfl)

omit [DecidableEq T] in
theorem mem_sleepers {s : EventCount.State T} : p ∈ s.sleepers ↔ (s.pc p).isAsleep = true := by
  simp [EventCount.State.sleepers]

/-- The wake of one sleeper.  A sleeper that was not notified since it found the
queue empty is no help, but then the items are those of threads that owe a notify. -/
theorem Inv.wake {n : ℕ} {w : Option Wait} {chosen : Finset T} {s' : State T} (inv : Inv s)
    (few : FewNotifies s') (client : s.client p = .notify) (here : s.ec.pc p = .wake n w)
    (asleep : chosen ⊆ s.ec.sleepers) (count : chosen.card = min n s.ec.sleepers.card)
    (ec : s'.ec = s.ec.futexWake p chosen w) (ecInv : EventCount.Inv s'.ec)
    (queue : s'.queue = s.queue) (others : ∀ q, q ≠ p → s'.client q = s.client q)
    (goesOn : s'.client p = .out) : Inv s' := by
  have agreesP := inv.agrees p
  rw [client, here] at agreesP
  obtain ⟨rfl, rfl⟩ := agreesP
  have pcSelf : s'.ec.pc p = .idle := by simp [ec, EventCount.State.futexWake, Pc.afterWake]
  have pcOther : ∀ q, q ≠ p → s'.ec.pc q = if q ∈ chosen then (s.ec.pc q).woken else s.ec.pc q := by
    intro q other
    simp [ec, EventCount.State.futexWake, other]
  have notifies : s'.ec.notifies = s.ec.notifies := by rw [ec]; rfl
  have isAwait : ∀ q, (s.ec.pc q).isAsleep = true → s.client q = .await := by
    intro q isAsleep
    have agrees := inv.agrees q
    cases pcQ : s.ec.pc q <;> rw [pcQ] at isAsleep agrees <;> cases isAsleep
    cases clientQ : s.client q <;> rw [clientQ] at agrees <;> first | rfl | exact agrees.elim
  -- a thread other than `p` is where it was, or it was asleep and is back in the loop
  have cases' : ∀ q, q ≠ p → s'.ec.pc q = s.ec.pc q ∨
      ∃ w, s.ec.pc q = .asleep w ∧ s'.ec.pc q = .check w ∧ s.client q = .await := by
    intro q other
    rw [pcOther q other]
    split
    next member =>
      have isAsleep := mem_sleepers.mp (asleep member)
      have await := isAwait q isAsleep
      cases pcQ : s.ec.pc q <;> rw [pcQ] at isAsleep <;> cases isAsleep
      exact Or.inr ⟨_, rfl, rfl, await⟩
    next => exact Or.inl rfl
  have owing : s'.owing = s.owing := by
    ext q
    rw [mem_owing, mem_owing]
    by_cases same : q = p
    · rw [same, goesOn, pcSelf, client, here]
      exact Iff.rfl
    · rw [others q same]
      rcases cases' q same with pc | ⟨w, before, after, await⟩
      · rw [pc]
      · rw [before, after, await]
        exact Iff.rfl
  have fresh : ∀ q, Fresh s'.ec.notifies (s'.client q) (s'.ec.pc q) →
      Fresh s.ec.notifies (s.client q) (s.ec.pc q) := by
    intro q isFresh
    by_cases same : q = p
    · rw [same, goesOn] at isFresh
      exact isFresh.elim
    · rw [others q same, notifies] at isFresh
      rcases cases' q same with pc | ⟨w, before, after, await⟩
      · rwa [pc] at isFresh
      · rw [after, await] at isFresh
        rw [before, await]
        exact isFresh
  refine ⟨ecInv, few, fun q => ?_, fun q isFresh => ?_, fun q isAsleep => ?_⟩
  · by_cases same : q = p
    · rw [same, goesOn, pcSelf]
      trivial
    · have agrees := inv.agrees q
      rw [others q same]
      rcases cases' q same with pc | ⟨w, before, after, await⟩
      · rwa [pc]
      · rw [after, await]
        trivial
  · rw [queue, owing]
    exact inv.fresh q (fresh q isFresh)
  · have notP : q ≠ p := by
      rintro rfl
      rw [pcSelf] at isAsleep
      cases isAsleep
    have sleeper : q ∈ s.ec.sleepers := by
      rw [mem_sleepers]
      rcases cases' q notP with pc | ⟨w, before, _, _⟩
      · rwa [pc] at isAsleep
      · rw [before]
        rfl
    have one : chosen.card = 1 := by
      have := Finset.card_pos.mpr ⟨q, sleeper⟩
      omega
    obtain ⟨taken, rfl⟩ := Finset.card_eq_one.mp one
    have takenAsleep := mem_sleepers.mp (asleep (Finset.mem_singleton_self taken))
    have takenAwait := isAwait taken takenAsleep
    have takenNotP : taken ≠ p := by
      rintro rfl
      rw [here] at takenAsleep
      cases takenAsleep
    cases pcT : s.ec.pc taken <;> rw [pcT] at takenAsleep <;> cases takenAsleep
    next w =>
      have now : s'.ec.pc taken = .check w := by
        rw [pcOther taken takenNotP, if_pos (Finset.mem_singleton_self taken), pcT]
        rfl
      rw [queue]
      by_cases since : w.since = s.ec.notifies
      · have isFresh : Fresh s.ec.notifies (s.client taken) (s.ec.pc taken) := by
          rw [takenAwait, pcT]
          exact since
        have le := inv.fresh taken isFresh
        rw [← owing] at le
        exact le.trans owing_le_busy
      · -- the woken thread takes the place of the one that woke it
        have takenBusy : taken ∈ s'.busy := by
          rw [mem_busy, others taken takenNotP, takenAwait, now, notifies]
          exact since
        have takenNotBusy : taken ∉ s.busy := by
          rw [mem_busy, takenAwait, pcT]
          exact id
        have pBusy : p ∈ s.busy := by
          rw [mem_busy, client]
          trivial
        have subset : insert taken (s.busy.erase p) ⊆ s'.busy := by
          intro r member
          rcases Finset.mem_insert.mp member with rfl | inBusy
          · exact takenBusy
          · obtain ⟨notP', isBusy⟩ := Finset.mem_erase.mp inBusy
            rw [mem_busy] at isBusy ⊢
            rw [others r notP', notifies]
            rcases cases' r notP' with pc | ⟨w', before, after, await⟩
            · rwa [pc]
            · rw [before, await] at isBusy
              exact isBusy.elim
        have card := Finset.card_le_card subset
        rw [Finset.card_insert_of_notMem fun member =>
          takenNotBusy (Finset.mem_of_mem_erase member), Finset.card_erase_add_one pBusy] at card
        have isAsleep' := mem_sleepers.mp sleeper
        exact (inv.asleep q isAsleep').trans card

/-- A step of `await`: the loop is left when there was a notify, and entered or
slept in only while there was none. -/
theorem Inv.await {a : EventCount.Act T} {ec : EventCount.State T} (inv : Inv s)
    (client : s.client p = .await) (next : EventCount.step s.ec p a = some ec)
    (isAwait : a = .await ∨ a = .run ∨ a = .wakeUp)
    (few : FewNotifies ({ s with ec := ec }.goto p (Client.await.resume (ec.pc p))))
    (room : ec.registered.card < 2 ^ 32) :
    Inv ({ s with ec := ec }.goto p (Client.await.resume (ec.pc p))) := by
  have owes : ¬ Owes (s.client p) (s.ec.pc p) := by
    rw [client]
    exact id
  have goes : ∀ {pc : Pc} {w : Wait}, s.ec.pc p = pc → pc.wait = some w → ∀ pc' : Pc,
      ec = s.ec.goto p pc' → Agrees .await pc' →
      (Fresh s.ec.notifies .await pc' → Fresh s.ec.notifies .await pc) →
      (pc'.isAsleep = true → Fresh s.ec.notifies .await pc) →
      (Busy s.ec.notifies .await pc → Busy s.ec.notifies .await pc') →
      Inv ({ s with ec := ec }.goto p (Client.await.resume (ec.pc p))) := by
    intro pc w here _ pc' isGoto agrees fresh asleep busy
    have pcSelf : ec.pc p = pc' := by
      rw [isGoto]
      exact Function.update_self ..
    have resume : Client.await.resume (ec.pc p) = .await := by
      rw [pcSelf]
      cases pc' <;> first | rfl | exact agrees.elim
    rw [resume] at few ⊢
    refine inv.onEc next few room (by rw [isGoto]; rfl) pcSelf
      (fun q other => by rw [isGoto]; exact Function.update_of_ne other ..) agrees ?_ ?_ ?_ owes <;>
      (rw [client, here]; assumption)
  have load : ∀ {pc : Pc} {w : Wait}, s.ec.pc p = pc → pc = .ready w ∨ pc = .check w →
      ec = s.ec.load p w → Inv ({ s with ec := ec }.goto p (Client.await.resume (ec.pc p))) := by
    intro pc w here isLoad after
    have wait : pc.wait = some w := by rcases isLoad with rfl | rfl <;> rfl
    have iff := inv.key_iff (p := p) (by rw [here]; exact wait)
    unfold EventCount.State.load at after
    split at after
    next same =>
      have isFresh : Fresh s.ec.notifies .await pc := by
        rcases isLoad with rfl | rfl <;> exact iff.mp same
      refine goes here wait _ after trivial (fun _ => isFresh) (fun asleep => by cases asleep)
        fun busy => ?_
      rcases isLoad with rfl | rfl <;> exact absurd (iff.mp same) busy
    next =>
      exact goes here wait _ after trivial (fun fresh => fresh.elim) (fun asleep => by cases asleep)
        fun _ => trivial
  rcases isAwait with rfl | rfl | rfl
  · simp only [EventCount.step] at next
    split at next
    next w here => exact load here (Or.inl rfl) (Option.some.inj next).symm
    next => cases next
  · have taken := next
    simp only [EventCount.step] at next
    split at next
    next w here => exact load here (Or.inr rfl) (Option.some.inj next).symm
    next w here =>
      have iff := inv.upper_iff (p := p) (by rw [here]; rfl)
      split at next
      next same =>
        exact goes here rfl _ (Option.some.inj next).symm trivial (fun _ => iff.mp same)
          (fun _ => iff.mp same) fun busy => absurd (iff.mp same) busy
      next =>
        exact goes here rfl _ (Option.some.inj next).symm trivial id
          (fun asleep => by cases asleep) id
    next w here =>
      have after := (Option.some.inj next).symm
      have pcSelf : ec.pc p = .idle := by simp [after, EventCount.State.goto]
      rw [pcSelf] at few ⊢
      refine inv.onEc taken few room (by simp [after, EventCount.State.goto]) pcSelf
        (fun q other => by simp [after, EventCount.State.goto, other]) trivial
        (fun fresh => fresh.elim) (fun asleep => by cases asleep) ?_ owes
      exact fun _ => trivial
    next => cases next
  · simp only [EventCount.step] at next
    split at next
    next w here =>
      exact goes here rfl _ (Option.some.inj next).symm trivial id (fun asleep => by cases asleep)
        fun busy => busy.elim
    next => cases next

theorem Inv.startNotify {ec : EventCount.State T} (inv : Inv s) (client : s.client p = .notify)
    (taken : EventCount.step s.ec p (.notify 1) = some ec)
    (few : FewNotifies ({ s with ec := ec }.goto p (Client.notify.resume (ec.pc p)))) :
    Inv ({ s with ec := ec }.goto p (Client.notify.resume (ec.pc p))) := by
  have notify : ∀ w, s.ec.pc p = .afterWake w → ec = s.ec.doNotify p 1 w →
      Inv ({ s with ec := ec }.goto p (Client.notify.resume (ec.pc p))) := fun w here after =>
    inv.notify few client here after rfl (fun q other => Function.update_of_ne other ..)
      (Function.update_self ..)
  simp only [EventCount.step] at taken
  split at taken
  next here => exact notify none here (Option.some.inj taken).symm
  next w here => exact notify (some w) here (Option.some.inj taken).symm
  next => cases taken

theorem Inv.prepareWait {ec : EventCount.State T} (inv : Inv s) (client : s.client p = .prepare)
    (taken : EventCount.step s.ec p .prepareWait = some ec)
    (few : FewNotifies ({ s with ec := ec }.goto p .retry)) (room : ec.registered.card < 2 ^ 32) :
    Inv ({ s with ec := ec }.goto p .retry) := by
  have prepared := taken
  simp only [EventCount.step] at taken
  split at taken
  next here =>
    have after := (Option.some.inj taken).symm
    obtain ⟨w, pcSelf⟩ : ∃ w, ec.pc p = .ready w :=
      ⟨_, by rw [after]; exact Function.update_self ..⟩
    refine inv.onEc (c := .retry) prepared few room (by simp [after, EventCount.State.goto]) pcSelf
      (fun q other => by simp [after, EventCount.State.goto, other]) trivial
      (fun fresh => fresh.elim) (fun asleep => by cases asleep) (fun _ => trivial) ?_
    rw [client]
    exact id
  next => cases taken

theorem Inv.cancelWait {ec : EventCount.State T} {x : Word} (inv : Inv s)
    (client : s.client p = .cancel x) (taken : EventCount.step s.ec p .cancelWait = some ec)
    (few : FewNotifies ({ s with ec := ec }.goto p .out)) (room : ec.registered.card < 2 ^ 32) :
    Inv ({ s with ec := ec }.goto p .out) := by
  have cancelled := taken
  simp only [EventCount.step] at taken
  split at taken
  next w here =>
    have after := (Option.some.inj taken).symm
    have pcSelf : ec.pc p = .idle := by simp [after, EventCount.State.goto]
    refine inv.onEc (c := .out) cancelled few room (by simp [after, EventCount.State.goto]) pcSelf
      (fun q other => by simp [after, EventCount.State.goto, other]) trivial
      (fun fresh => fresh.elim) (fun asleep => by cases asleep) (fun busy => ?_) ?_
    · rw [client] at busy
      exact busy.elim
    · rw [client]
      exact id
  next => cases taken

theorem Inv.call {act : EventCount.Act T} {ec : EventCount.State T} (inv : Inv s)
    (isCall : (s.client p).call T (s.ec.pc p) = some act)
    (taken : EventCount.step s.ec p act = some ec)
    (few : FewNotifies ({ s with ec := ec }.goto p ((s.client p).resume (ec.pc p))))
    (room : ec.registered.card < 2 ^ 32) :
    Inv ({ s with ec := ec }.goto p ((s.client p).resume (ec.pc p))) := by
  cases client : s.client p with
  | notify =>
      rw [client] at isCall few
      cases isCall
      exact inv.startNotify client taken few
  | prepare =>
      rw [client] at isCall few
      cases isCall
      exact inv.prepareWait client taken few room
  | cancel x =>
      rw [client] at isCall few
      cases isCall
      exact inv.cancelWait client taken few room
  | await =>
      rw [client] at isCall few
      refine inv.await client taken ?_ few room
      cases pc : s.ec.pc p <;> rw [pc] at isCall <;> cases Option.some.inj isCall <;> simp
  | _ =>
      rw [client] at isCall
      cases isCall

theorem Inv.step {a : Act T} (inv : Inv s) (few : FewNotifies s') (room : FewWaiters s')
    (next : step s p a = some s') : Inv s' := by
  have agrees := inv.agrees p
  cases a with
  | enqueue arg =>
      simp only [Blocking.step] at next
      split at next
      next out =>
        obtain rfl := Option.some.inj next
        rw [out] at agrees
        refine inv.onQueue (p := p) (c := .enq arg) ?_ (fun awaits => by cases awaits) (Or.inr ?_)
        · cases pc : s.ec.pc p <;> rw [pc] at agrees <;> trivial
        · simp [out, Busy, Owes]
      next => cases next
  | dequeue =>
      simp only [Blocking.step] at next
      split at next
      next out =>
        obtain rfl := Option.some.inj next
        rw [out] at agrees
        refine inv.onQueue (p := p) (c := .deq) ?_ (fun awaits => by cases awaits) (Or.inr ?_)
        · cases pc : s.ec.pc p <;> rw [pc] at agrees <;> trivial
        · simp [out, Busy, Owes]
      next => cases next
  | run =>
      simp only [Blocking.step] at next
      split at next
      next arg client =>
        obtain rfl := Option.some.inj next
        rw [client] at agrees
        have idle : s.ec.pc p = .idle := by
          cases pc : s.ec.pc p <;> rw [pc] at agrees <;> first | rfl | exact agrees.elim
        refine inv.onQueue (p := p) (c := .notify) (by rw [idle]; trivial)
          (fun awaits => by cases awaits) (Or.inr ?_)
        simp [client, idle, Busy, Owes]
      next client =>
        rw [client] at agrees
        have idle : s.ec.pc p = .idle := by
          cases pc : s.ec.pc p <;> rw [pc] at agrees <;> first | rfl | exact agrees.elim
        split at next
        next empty =>
          obtain rfl := Option.some.inj next
          exact inv.onQueue (p := p) (c := .prepare) (by rw [idle]; trivial)
            (fun awaits => by cases awaits) (Or.inl empty)
        next x rest queue =>
          obtain rfl := Option.some.inj next
          refine inv.onQueue (p := p) (c := .out) (by rw [idle]; trivial)
            (fun awaits => by cases awaits) (Or.inr ?_)
          simp [client, idle, queue, Busy, Owes]
      next client =>
        rw [client] at agrees
        obtain ⟨w, ready⟩ : ∃ w, s.ec.pc p = .ready w := by
          cases pc : s.ec.pc p <;> rw [pc] at agrees <;> first | exact ⟨_, rfl⟩ | exact agrees.elim
        split at next
        next empty =>
          obtain rfl := Option.some.inj next
          exact inv.onQueue (p := p) (c := .await) (by rw [ready]; trivial) (fun _ => empty)
            (Or.inl empty)
        next x rest queue =>
          obtain rfl := Option.some.inj next
          refine inv.onQueue (p := p) (c := .cancel x) (by rw [ready]; trivial)
            (fun awaits => by cases awaits) (Or.inr ?_)
          simp [client, ready, queue, Busy, Owes]
      next =>
        obtain ⟨act, isCall, onEc⟩ := Option.bind_eq_some_iff.mp next
        obtain ⟨ec, taken, rfl⟩ := Option.map_eq_some_iff.mp onEc
        exact inv.call isCall taken few room
  | wake chosen =>
      simp only [Blocking.step] at next
      split at next
      next client =>
        obtain ⟨ec, taken, rfl⟩ := Option.map_eq_some_iff.mp next
        have ecInv := inv.ec.step room taken
        simp only [EventCount.step] at taken
        split at taken
        next n w here =>
          split at taken
          next chosenOk =>
            have after := (Option.some.inj taken).symm
            refine inv.wake (p := p) few client here chosenOk.1 chosenOk.2 after ecInv rfl
              (fun q other => Function.update_of_ne other ..) ?_
            rw [client, here] at agrees
            have pcSelf : ec.pc p = .idle := by
              simp [after, EventCount.State.futexWake, agrees.2, Pc.afterWake]
            refine (Function.update_self ..).trans ?_
            rw [client, pcSelf]
            rfl
          next => cases taken
        next => cases taken
      next => cases next
  | wakeUp =>
      simp only [Blocking.step] at next
      split at next
      next client =>
        obtain ⟨ec, taken, rfl⟩ := Option.map_eq_some_iff.mp next
        rw [client] at few ⊢
        exact inv.await client taken (Or.inr (Or.inr rfl)) few room
      next => cases next

omit [DecidableEq T] in
theorem inv_init : Inv (State.init : State T) :=
  ⟨EventCount.inv_init, nofun, fun _ => trivial, fun _ isFresh => isFresh.elim, nofun⟩

/-- No wakeup is lost while fewer than `2^32` threads are registered. -/
theorem not_stranded (run : Reachable (system fun s => FewNotifies s ∧ FewWaiters s) s) :
    ¬ Stranded s := by
  have inv : Inv s := by
    refine Reachable.invariant (I := Inv) ?_ ?_ run
    · rintro s rfl
      exact inv_init
    · rintro s s' inv ⟨⟨p, a, next⟩, few, room⟩
      exact inv.step few room next
  rintro ⟨items, ⟨p, asleep⟩, all⟩
  have le := inv.asleep p asleep
  have nobody : s.busy = ∅ := by
    refine Finset.eq_empty_of_forall_notMem fun q isBusy => ?_
    rw [mem_busy] at isBusy
    rcases all q with out | isAsleep
    · rw [out] at isBusy
      exact isBusy
    · exact not_busy_of_asleep (inv.agrees q) isAsleep isBusy
  rw [nobody, Finset.card_empty] at le
  exact items (List.eq_nil_of_length_eq_zero (Nat.le_zero.mp le))

instance (s : State T) : Decidable (FewWaiters s) := inferInstanceAs (Decidable (_ < _))

/-- A step into a state that meets both bounds. -/
def stepFew (s : State T) (a : T × Act T) : Option (State T) :=
  (step s a.1 a.2).filter fun s' => FewNotifies s' ∧ FewWaiters s'

theorem stepFew_sound (s : State T) (a : T × Act T) (s' : State T) (next : stepFew s a = some s') :
    (system fun s : State T => FewNotifies s ∧ FewWaiters s).step s s' := by
  obtain ⟨taken, few⟩ := Option.filter_eq_some_iff.mp next
  exact ⟨⟨a.1, a.2, taken⟩, of_decide_eq_true few⟩

/-- A thread sleeps and there is an item, with the wake still to come. -/
theorem not_stranded_before_wake : ∃ s : State Bool,
    Reachable (system fun s => FewNotifies s ∧ FewWaiters s) s ∧ s.queue = [7] ∧
      (s.ec.pc false).isAsleep = true ∧ ¬ Stranded s := by
  obtain ⟨s, run, found⟩ := runSchedule_any stepFew_sound rfl
    [(false, .dequeue), (false, .run), (false, .run), (false, .run), (false, .run), (false, .run),
      (true, .enqueue 7), (true, .run), (true, .run)]
    (fun s => decide (s.queue = [7] ∧ (s.ec.pc false).isAsleep = true)) (by decide +kernel)
  obtain ⟨queue, asleep⟩ := of_decide_eq_true found
  exact ⟨s, run, queue, asleep, not_stranded run⟩

end Counting

/-! ## The limit of the waiter count

With `2^32` threads registered the lower half of the word is zero again, and a
notify goes without the wake. -/

section Limit

variable {N : ℕ}

/-- Threads below `k` are asleep, thread `k` is at `x`, thread `k + 1` at `y`, all
others are out. -/
def scene (N k : ℕ) (val : Word) (waits notifies : ℕ) (log : List EventCount.Event)
    (queue : List Word) (x y : Client × Pc) : State (Fin N) where
  ec :=
    { val := val
      pc := fun q => if q.val < k then .asleep ⟨q.val, 0, 0⟩ else if q.val = k then x.2
        else if q.val = k + 1 then y.2 else .idle
      waits := waits
      notifies := notifies
      log := log }
  queue := queue
  client := fun q => if q.val < k then .await else if q.val = k then x.1
    else if q.val = k + 1 then y.1 else .out

section Scene

variable {k waits notifies : ℕ} {val : Word} {log : List EventCount.Event} {queue : List Word}
  {x y : Client × Pc} {K E : Fin N}

theorem scene_client (atK : K.val = k) :
    (scene N k val waits notifies log queue x y).client K = x.1 := by simp [scene, atK]

theorem scene_pc (atK : K.val = k) :
    (scene N k val waits notifies log queue x y).ec.pc K = x.2 := by simp [scene, atK]

theorem scene_client_next (atE : E.val = k + 1) :
    (scene N k val waits notifies log queue x y).client E = y.1 := by simp [scene, atE]

theorem scene_pc_next (atE : E.val = k + 1) :
    (scene N k val waits notifies log queue x y).ec.pc E = y.2 := by simp [scene, atE]

theorem scene_update {α : Type} (f : Fin N → α) (a b c : α) (atK : K.val = k) :
    Function.update (fun q => if q.val < k then f q else if q.val = k then a
      else if q.val = k + 1 then b else c) K =
      fun a' q => if q.val < k then f q else if q.val = k then a'
        else if q.val = k + 1 then b else c := by
  funext a' q
  by_cases same : q = K
  · simp [same, atK]
  · have : q.val ≠ k := fun eq => same (Fin.ext (eq.trans atK.symm))
    simp [same, this]

theorem scene_update_next {α : Type} (f : Fin N → α) (a b c : α) (atE : E.val = k + 1) :
    Function.update (fun q => if q.val < k then f q else if q.val = k then a
      else if q.val = k + 1 then b else c) E =
      fun b' q => if q.val < k then f q else if q.val = k then a
        else if q.val = k + 1 then b' else c := by
  funext b' q
  by_cases same : q = E
  · simp [same, atE]
  · have : q.val ≠ k + 1 := fun eq => same (Fin.ext (eq.trans atE.symm))
    simp [same, this]

theorem scene_goto (c : Client) (atK : K.val = k) :
    (scene N k val waits notifies log queue x y).goto K c =
      scene N k val waits notifies log queue (c, x.2) y := by
  simp only [State.goto, scene, scene_update _ _ _ _ atK]

theorem scene_goto_next (c : Client) (atE : E.val = k + 1) :
    (scene N k val waits notifies log queue x y).goto E c =
      scene N k val waits notifies log queue x (c, y.2) := by
  simp only [State.goto, scene, scene_update_next _ _ _ _ atE]

theorem scene_few (few : notifies < 2 ^ 32) (fewX : ∀ w ∈ x.2.wait, notifies < w.since + 2 ^ 32)
    (fewY : ∀ w ∈ y.2.wait, notifies < w.since + 2 ^ 32) :
    FewNotifies (scene N k val waits notifies log queue x y) := by
  intro q w wait
  show notifies < _
  simp only [scene] at wait
  split at wait
  next =>
    cases wait
    simpa using few
  next =>
    split at wait
    next => exact fewX w wait
    next =>
      split at wait
      next => exact fewY w wait
      next => cases wait

theorem scene_asleep :
    scene N k val waits notifies log queue (.await, .asleep ⟨k, 0, 0⟩) (.out, .idle) =
      scene N (k + 1) val waits notifies log queue (.out, .idle) (.out, .idle) := by
  simp only [scene, State.mk.injEq, EventCount.State.mk.injEq, true_and, and_true]
  constructor <;>
  · funext q
    by_cases below : q.val < k
    · simp [below, Nat.lt_succ_of_lt below]
    · by_cases same : q.val = k
      · simp [same]
      · have above : ¬ q.val < k + 1 := by omega
        simp [below, same, above]

theorem scene_pc_goto (pc : Pc) (atK : K.val = k) :
    (scene N k val waits notifies log queue x y).ec.goto K pc =
      (scene N k val waits notifies log queue (x.1, pc) y).ec := by
  simp only [EventCount.State.goto, scene, scene_update _ _ _ _ atK]

theorem scene_ec_goto {v : Word} {w n : ℕ} {l : List EventCount.Event} (pc : Pc)
    (atK : K.val = k) :
    EventCount.State.goto { (scene N k val waits notifies log queue x y).ec with
      val := v, waits := w, notifies := n, log := l } K pc =
      (scene N k v w n l queue (x.1, pc) y).ec := by
  simp only [EventCount.State.goto, scene, scene_update _ _ _ _ atK]

theorem scene_onEc {a : EventCount.Act (Fin N)} {v : Word} {w n : ℕ} {l : List EventCount.Event}
    {pc : Pc} (atK : K.val = k)
    (next : EventCount.step (scene N k val waits notifies log queue x y).ec K a =
      some (scene N k v w n l queue (x.1, pc) y).ec) :
    (scene N k val waits notifies log queue x y).onEc K a =
      some (scene N k v w n l queue (x.1.resume pc, pc) y) := by
  rw [State.onEc, next, Option.map_some, scene_client atK, scene_pc atK]
  exact congrArg some (scene_goto (x := (x.1, pc)) _ atK)

theorem scene_prepareWait (atK : K.val = k) :
    step (scene N k val waits notifies log queue (.prepare, .idle) y) K .run =
      some (scene N k (val + kAddWaiter) (waits + 1) notifies (.prepared waits :: log) queue
        (.retry, .ready ⟨waits, (val >>> kEpochShift).setWidth 32, notifies⟩) y) := by
  simp only [step, scene_client atK, Client.call, Option.bind_some]
  refine scene_onEc atK ?_
  simp only [EventCount.step, scene_pc atK]
  exact congrArg some (scene_ec_goto _ atK)

theorem scene_load {w : Wait} (atK : K.val = k) (same : val >>> kEpochShift = w.key.setWidth 64) :
    step (scene N k val waits notifies log queue (.await, .ready w) y) K .run =
      some (scene N k val waits notifies log queue (.await, .futexWait w) y) := by
  simp only [step, scene_client atK, scene_pc atK, Client.call, Option.bind_some]
  refine scene_onEc atK ?_
  simp only [EventCount.step, scene_pc atK, EventCount.State.load]
  exact congrArg some ((if_pos same).trans (scene_pc_goto _ atK))

theorem scene_sleep {w : Wait} (atK : K.val = k) (same : val.extractLsb' 32 32 = w.key) :
    step (scene N k val waits notifies log queue (.await, .futexWait w) y) K .run =
      some (scene N k val waits notifies log queue (.await, .asleep w) y) := by
  simp only [step, scene_client atK, scene_pc atK, Client.call, Option.bind_some]
  refine scene_onEc atK ?_
  simp only [EventCount.step, scene_pc atK]
  exact (if_pos same).trans (congrArg some (scene_pc_goto _ atK))

theorem scene_cancelWait {w : Wait} {element : Word} (atK : K.val = k) :
    step (scene N k val waits notifies log queue (.cancel element, .ready w) y) K .run =
      some (scene N k (val + kSubWaiter) waits notifies log queue (.out, .idle) y) := by
  simp only [step, scene_client atK, Client.call, Option.bind_some]
  refine scene_onEc atK ?_
  simp only [EventCount.step, scene_pc atK]
  exact congrArg some (scene_ec_goto _ atK)

theorem scene_skip (atE : E.val = k + 1) (zero : val &&& kWaiterMask = 0) :
    step (scene N k val waits notifies log queue x (.notify, .idle)) E .run =
      some (scene N k (val + kAddEpoch) waits (notifies + 1) (.notified notifies :: log) queue x
        (.out, .idle)) := by
  have skipped : (scene N k val waits notifies log queue x (.notify, .idle)).ec.doNotify E 1 none =
      (scene N k (val + kAddEpoch) waits (notifies + 1) (.notified notifies :: log) queue x
        (.notify, .idle)).ec := if_neg (not_not.mpr zero)
  simp only [step, scene_client_next atE, scene_pc_next atE, Client.call, Option.bind_some,
    State.onEc, EventCount.step, skipped, Option.map_some]
  exact congrArg some (scene_goto_next (y := (.notify, .idle)) .out atE)

theorem scene_dequeue {pc : Pc} (atK : K.val = k) :
    step (scene N k val waits notifies log queue (.out, pc) y) K .dequeue =
      some (scene N k val waits notifies log queue (.deq, pc) y) := by
  simp only [step, scene_client atK]
  exact congrArg some (scene_goto _ atK)

theorem scene_deq_empty {pc : Pc} (atK : K.val = k) :
    step (scene N k val waits notifies log [] (.deq, pc) y) K .run =
      some (scene N k val waits notifies log [] (.prepare, pc) y) := by
  simp only [step, scene_client atK]
  exact congrArg some (scene_goto _ atK)

theorem scene_retry_empty {pc : Pc} (atK : K.val = k) :
    step (scene N k val waits notifies log [] (.retry, pc) y) K .run =
      some (scene N k val waits notifies log [] (.await, pc) y) := by
  simp only [step, scene_client atK]
  exact congrArg some (scene_goto _ atK)

theorem scene_retry {element : Word} {pc : Pc} (atK : K.val = k) :
    step (scene N k val waits notifies log (element :: queue) (.retry, pc) y) K .run =
      some (scene N k val waits notifies log queue (.cancel element, pc) y) := by
  simp only [step, scene_client atK]
  exact congrArg some (scene_goto _ atK)

theorem scene_enqueue (arg : Word) {pc : Pc} (atE : E.val = k + 1) :
    step (scene N k val waits notifies log queue x (.out, pc)) E (.enqueue arg) =
      some (scene N k val waits notifies log queue x (.enq arg, pc)) := by
  simp only [step, scene_client_next atE]
  exact congrArg some (scene_goto_next _ atE)

theorem scene_enq {arg : Word} {pc : Pc} (atE : E.val = k + 1) :
    step (scene N k val waits notifies log queue x (.enq arg, pc)) E .run =
      some (scene N k val waits notifies log (queue ++ [arg]) x (.notify, pc)) := by
  simp only [step, scene_client_next atE]
  exact congrArg some (scene_goto_next _ atE)

end Scene

theorem waiters_key {k : ℕ} (small : k < 2 ^ 32) : (BitVec.ofNat 64 k) >>> kEpochShift = 0 := by
  rw [← BitVec.toNat_inj, shift_toNat, BitVec.toNat_ofNat]
  show _ = 0
  omega

theorem waiters_upper {k : ℕ} (small : k < 2 ^ 32) :
    (BitVec.ofNat 64 k).extractLsb' 32 32 = 0 := by
  rw [← BitVec.toNat_inj, upper_toNat, BitVec.toNat_ofNat]
  show _ = 0
  omega

theorem waiters_add (k : ℕ) : BitVec.ofNat 64 k + kAddWaiter = BitVec.ofNat 64 (k + 1) :=
  (BitVec.ofNat_add k 1).symm

theorem scene_few_of_lt {k waits notifies : ℕ} {val : Word} {log : List EventCount.Event}
    {queue : List Word} {x y : Client × Pc} (few : notifies < 2 ^ 32) :
    FewNotifies (scene N k val waits notifies log queue x y) :=
  scene_few few (fun _ _ => Nat.lt_add_left _ few) (fun _ _ => Nat.lt_add_left _ few)

theorem reachable_registered {k : ℕ} {log : List EventCount.Event} {K : Fin N} (atK : K.val = k)
    (small : k < 2 ^ 32)
    (run : Reachable (system FewNotifies)
      (scene N k (BitVec.ofNat 64 k) k 0 log [] (.out, .idle) (.out, .idle))) :
    Reachable (system FewNotifies)
      (scene N k (BitVec.ofNat 64 (k + 1)) (k + 1) 0 (.prepared k :: log) []
        (.retry, .ready ⟨k, 0, 0⟩) (.out, .idle)) := by
  have few := Nat.two_pow_pos 32
  have key : ((BitVec.ofNat 64 k) >>> kEpochShift).setWidth 32 = 0 := by
    rw [waiters_key small]
    rfl
  have deq := run.step ⟨⟨_, _, scene_dequeue atK⟩, scene_few_of_lt few⟩
  have prepare := deq.step ⟨⟨_, _, scene_deq_empty atK⟩, scene_few_of_lt few⟩
  have retry := prepare.step ⟨⟨_, _, scene_prepareWait atK⟩, scene_few_of_lt few⟩
  rwa [key, waiters_add] at retry

theorem reachable_sleeper {k : ℕ} {log : List EventCount.Event} {K : Fin N} (atK : K.val = k)
    (small : k + 1 < 2 ^ 32)
    (run : Reachable (system FewNotifies)
      (scene N k (BitVec.ofNat 64 k) k 0 log [] (.out, .idle) (.out, .idle))) :
    Reachable (system FewNotifies)
      (scene N (k + 1) (BitVec.ofNat 64 (k + 1)) (k + 1) 0 (.prepared k :: log) []
        (.out, .idle) (.out, .idle)) := by
  have few := Nat.two_pow_pos 32
  have retry := reachable_registered atK (Nat.lt_of_succ_lt small) run
  have await := retry.step ⟨⟨_, _, scene_retry_empty atK⟩, scene_few_of_lt few⟩
  have futexWait := await.step ⟨⟨_, _, scene_load atK (waiters_key small)⟩, scene_few_of_lt few⟩
  have asleep := futexWait.step
    ⟨⟨_, _, scene_sleep atK (waiters_upper small)⟩, scene_few_of_lt few⟩
  rwa [scene_asleep] at asleep

theorem scene_init : scene N 0 0 0 0 [] [] (.out, .idle) (.out, .idle) = State.init := by
  simp [scene, State.init, EventCount.State.init]

theorem reachable_sleepers (many : 2 ^ 32 ≤ N) : ∀ k, k < 2 ^ 32 → ∃ log,
    Reachable (system FewNotifies)
      (scene N k (BitVec.ofNat 64 k) k 0 log [] (.out, .idle) (.out, .idle)) := by
  intro k
  induction k with
  | zero => exact fun _ => ⟨[], .init scene_init⟩
  | succ k ih =>
      intro small
      obtain ⟨log, run⟩ := ih (Nat.lt_of_succ_lt small)
      exact ⟨_, reachable_sleeper (K := ⟨k, by omega⟩) rfl small run⟩

theorem reachable_enqueued {k waits notifies : ℕ} {val : Word} {log : List EventCount.Event}
    {queue : List Word} {x : Client × Pc} {E : Fin N} (arg : Word) (atE : E.val = k + 1)
    (few : notifies + 1 < 2 ^ 32) (zero : val &&& kWaiterMask = 0)
    (run : Reachable (system FewNotifies)
      (scene N k val waits notifies log queue x (.out, .idle))) :
    Reachable (system FewNotifies)
      (scene N k (val + kAddEpoch) waits (notifies + 1) (.notified notifies :: log)
        (queue ++ [arg]) x (.out, .idle)) := by
  have enq := run.step ⟨⟨_, _, scene_enqueue arg atE⟩,
    scene_few_of_lt (Nat.lt_of_succ_lt few)⟩
  have notify := enq.step ⟨⟨_, _, scene_enq atE⟩, scene_few_of_lt (Nat.lt_of_succ_lt few)⟩
  exact notify.step ⟨⟨_, _, scene_skip atE zero⟩, scene_few_of_lt few⟩

/-- All but two of `2^32 + 1` threads sleep.  One more registers, so that the waiter
count reads zero, the last enqueues twice without a wake, and the other takes one
of the two items. -/
theorem stranded_at_limit :
    ¬ ∀ s : State (Fin (2 ^ 32 + 1)), Reachable (system FewNotifies) s → ¬ Stranded s := by
  intro never
  have ⟨k, limit⟩ : ∃ k, k + 1 = 2 ^ 32 := ⟨2 ^ 32 - 1, rfl⟩
  obtain ⟨log, sleepers⟩ := reachable_sleepers (N := 2 ^ 32 + 1) (Nat.le_succ _) k (by omega)
  have atK : (⟨k, by omega⟩ : Fin (2 ^ 32 + 1)).val = k := rfl
  have atE : (⟨k + 1, by omega⟩ : Fin (2 ^ 32 + 1)).val = k + 1 := rfl
  have registered := reachable_registered atK (by omega) sleepers
  rw [limit] at registered
  have one := reachable_enqueued 1 atE (by decide) (by decide) registered
  have two := reachable_enqueued 2 atE (by decide) (by decide) one
  have taken := two.step ⟨⟨_, _, scene_retry atK⟩, scene_few_of_lt (by decide)⟩
  have left := taken.step ⟨⟨_, _, scene_cancelWait atK⟩, scene_few_of_lt (by decide)⟩
  refine never _ left ⟨by simp [scene], ⟨⟨0, by decide⟩, ?_⟩, fun q => ?_⟩
  · have below : 0 < k := by omega
    simp [scene, below, Pc.isAsleep]
  · by_cases below : q.val < k
    · exact Or.inr (by simp [scene, below, Pc.isAsleep])
    · exact Or.inl (by simp [scene, below])

end Limit

end Elcrq.Blocking
