import Elcrq.Words
import Elcrq.Concurrent.Runs
import Mathlib.Data.Finset.Card
import Mathlib.Data.Fintype.Card

/-! # The event count

`EventCount.h` keeps an epoch and a waiter count in one 64-bit word: notifiers add
to the upper half, waiters to the lower half.  A thread that has called
`prepareWait` goes on to `cancelWait` or `await`; in between it may notify others.
The futex compares the upper half and puts the caller to sleep in one step; a wake
takes as many sleepers as it asks for, or all, and a sleeper may wake up without
one. -/

set_option autoImplicit false

namespace Elcrq.EventCount

open Concurrent

def kAddWaiter : Word := 1

def kSubWaiter : Word := -1

def kEpochShift : ℕ := 32

def kAddEpoch : Word := 1 <<< kEpochShift

def kWaiterMask : Word := kAddEpoch - 1

/-- A wait from `prepareWait` on: its number, its `Key`, and how many notifies
there had been. -/
structure Wait where
  id : ℕ
  key : BitVec 32
  since : ℕ

/-- Where a thread is.  `wake` is inside `doNotify`, before the call of the futex. -/
inductive Pc
  | idle
  | ready (w : Wait)
  | check (w : Wait)
  | futexWait (w : Wait)
  | asleep (w : Wait)
  | leave (w : Wait)
  | wake (n : ℕ) (w : Option Wait)

/-- The wait a thread is registered for: from `prepareWait` to the decrement. -/
def Pc.wait : Pc → Option Wait
  | .idle => none
  | .ready w | .check w | .futexWait w | .asleep w | .leave w => some w
  | .wake _ w => w

def Pc.isAsleep : Pc → Bool
  | .asleep _ => true
  | _ => false

def Pc.afterWake : Option Wait → Pc
  | none => .idle
  | some w => .ready w

def Pc.woken : Pc → Pc
  | .asleep w => .check w
  | pc => pc

inductive Event
  | prepared (id : ℕ)
  | notified (n : ℕ)
  | returned (id : ℕ)
  deriving DecidableEq

/-- The word, the threads, and for the record how many waits and notifies there
have been. -/
structure State (T : Type) where
  val : Word
  pc : T → Pc
  waits : ℕ
  notifies : ℕ
  log : List Event

inductive Act (T : Type)
  | prepareWait
  | cancelWait
  | await
  | notify (n : ℕ)
  | run
  | wake (chosen : Finset T)
  | wakeUp

section Steps

variable {T : Type} [DecidableEq T] [Fintype T]

def State.goto (s : State T) (p : T) (pc : Pc) : State T :=
  { s with pc := Function.update s.pc p pc }

omit [Fintype T] in
theorem State.goto_self {s : State T} {p : T} {pc : Pc} : (s.goto p pc).pc p = pc :=
  Function.update_self ..

omit [Fintype T] in
theorem State.goto_other {s : State T} {p q : T} {pc : Pc} (other : q ≠ p) :
    (s.goto p pc).pc q = s.pc q := Function.update_of_ne other ..

def State.sleepers (s : State T) : Finset T := Finset.univ.filter fun p => (s.pc p).isAsleep

/-- The test of the loop in `await`. -/
def State.load (s : State T) (p : T) (w : Wait) : State T :=
  if s.val >>> kEpochShift = w.key.setWidth 64 then s.goto p (.futexWait w) else s.goto p (.leave w)

def State.doNotify (s : State T) (p : T) (n : ℕ) (w : Option Wait) : State T :=
  let prev := s.val
  let s' : State T := { s with
    val := prev + kAddEpoch
    notifies := s.notifies + 1
    log := .notified s.notifies :: s.log }
  if prev &&& kWaiterMask ≠ 0 then s'.goto p (.wake n w) else s'

/-- `nativeFutexWake` with the sleepers it takes. -/
def State.futexWake (s : State T) (p : T) (chosen : Finset T) (w : Option Wait) : State T :=
  let woken : T → Pc := fun q => if q ∈ chosen then (s.pc q).woken else s.pc q
  { s with pc := Function.update woken p (.afterWake w) }

def step (s : State T) (p : T) : Act T → Option (State T)
  | .prepareWait =>
      match s.pc p with
      | .idle =>
          let prev := s.val
          let w : Wait := ⟨s.waits, (prev >>> kEpochShift).setWidth 32, s.notifies⟩
          some ({ s with
            val := prev + kAddWaiter
            waits := s.waits + 1
            log := .prepared s.waits :: s.log }.goto p (.ready w))
      | _ => none
  | .cancelWait =>
      match s.pc p with
      | .ready _ => some ({ s with val := s.val + kSubWaiter }.goto p .idle)
      | _ => none
  | .await =>
      match s.pc p with
      | .ready w => some (s.load p w)
      | _ => none
  | .notify n =>
      match s.pc p with
      | .idle => some (s.doNotify p n none)
      | .ready w => some (s.doNotify p n (some w))
      | _ => none
  | .run =>
      match s.pc p with
      | .check w => some (s.load p w)
      | .futexWait w =>
          if s.val.extractLsb' 32 32 = w.key then some (s.goto p (.asleep w))
          else some (s.goto p (.check w))
      | .leave w =>
          some ({ s with val := s.val + kSubWaiter, log := .returned w.id :: s.log }.goto p .idle)
      | _ => none
  | .wake chosen =>
      match s.pc p with
      | .wake n w =>
          if chosen ⊆ s.sleepers ∧ chosen.card = min n s.sleepers.card then
            some (s.futexWake p chosen w)
          else none
      | _ => none
  | .wakeUp =>
      match s.pc p with
      | .asleep w => some (s.goto p (.check w))
      | _ => none

/-- `initEventCount`. -/
def State.init : State T where
  val := 0
  pc := fun _ => .idle
  waits := 0
  notifies := 0
  log := []

def system : System (State T) where
  init := fun s => s = State.init
  step := fun s s' => ∃ p a, step s p a = some s'

/-- The threads between their `prepareWait` and the decrement. -/
def State.registered (s : State T) : Finset T := Finset.univ.filter fun p => (s.pc p).wait.isSome

end Steps

/-! ## The two halves of the word -/

section Packing

variable {T : Type} [DecidableEq T] [Fintype T]

/-- The word as two counters, and what each wait has seen. -/
structure Inv (s : State T) : Prop where
  packed : s.val.toNat = s.registered.card + 2 ^ 32 * (s.notifies % 2 ^ 32)
  room : s.registered.card < 2 ^ 32
  key : ∀ p w, (s.pc p).wait = some w → w.key.toNat = w.since % 2 ^ 32 ∧ w.since ≤ s.notifies
  prepared : ∀ p w, (s.pc p).wait = some w → .prepared w.id ∈ s.log ∧
    ∀ n, w.since ≤ n → n < s.notifies → Older s.log (.prepared w.id) (.notified n)
  left : ∀ p w, s.pc p = .leave w → w.since < s.notifies
  returned : ∀ id, .returned id ∈ s.log → ∃ n, Older s.log (.prepared id) (.notified n) ∧
    Older s.log (.notified n) (.returned id)

variable {s s' : State T} {p : T}

theorem kAddEpoch_toNat : kAddEpoch.toNat = 2 ^ 32 := by decide

theorem kSubWaiter_toNat : kSubWaiter.toNat = 2 ^ 64 - 1 := by decide

theorem shift_toNat (val : Word) : (val >>> kEpochShift).toNat = val.toNat / 2 ^ 32 := by
  rw [BitVec.toNat_ushiftRight, kEpochShift, Nat.shiftRight_eq_div_pow]

theorem waiters_toNat (val : Word) : (val &&& kWaiterMask).toNat = val.toNat % 2 ^ 32 := by
  have mask : kWaiterMask.toNat = 2 ^ 32 - 1 := by decide
  rw [BitVec.toNat_and, mask, Nat.and_two_pow_sub_one_eq_mod]

theorem upper_toNat (val : Word) : (val.extractLsb' 32 32).toNat = val.toNat / 2 ^ 32 := by
  have := val.isLt
  rw [BitVec.extractLsb'_toNat, Nat.shiftRight_eq_div_pow]
  omega

namespace Inv

omit [DecidableEq T] in
theorem waiters (inv : Inv s) : (s.val &&& kWaiterMask).toNat = s.registered.card := by
  have := inv.packed
  have := inv.room
  rw [waiters_toNat]
  omega

omit [DecidableEq T] in
theorem epoch (inv : Inv s) : (s.val >>> kEpochShift).toNat = s.notifies % 2 ^ 32 := by
  have := inv.packed
  have := inv.room
  rw [shift_toNat]
  omega

omit [DecidableEq T] in
theorem since_lt (inv : Inv s) {w : Wait} (registered : (s.pc p).wait = some w)
    (differs : s.val >>> kEpochShift ≠ w.key.setWidth 64) : w.since < s.notifies := by
  obtain ⟨key, le⟩ := inv.key p w registered
  refine lt_of_le_of_ne le fun same => differs ?_
  apply BitVec.eq_of_toNat_eq
  have := w.key.isLt
  rw [inv.epoch, BitVec.toNat_setWidth, ← same, ← key]
  omega

end Inv

/-- The steps, as far as the word and the registrations are concerned. -/
inductive Stepped (s s' : State T) (p : T) : Prop
  | prepare : s.pc p = .idle →
      s' = { s with
        val := s.val + kAddWaiter
        waits := s.waits + 1
        log := .prepared s.waits :: s.log }.goto p
          (.ready ⟨s.waits, (s.val >>> kEpochShift).setWidth 32, s.notifies⟩) → Stepped s s' p
  | cancel (w : Wait) : s.pc p = .ready w →
      s' = { s with val := s.val + kSubWaiter }.goto p .idle → Stepped s s' p
  | leave (w : Wait) : s.pc p = .leave w →
      s' = { s with val := s.val + kSubWaiter, log := .returned w.id :: s.log }.goto p .idle →
      Stepped s s' p
  | notify (n : ℕ) (w : Option Wait) : s.pc p = .afterWake w → s' = s.doNotify p n w →
      Stepped s s' p
  | quiet : s'.val = s.val → s'.notifies = s.notifies → s'.log = s.log →
      (∀ q, (s'.pc q).wait = (s.pc q).wait) →
      (∀ q w, s'.pc q = .leave w → s.pc q = .leave w ∨ s.val >>> kEpochShift ≠ w.key.setWidth 64) →
      Stepped s s' p

omit [Fintype T] in
theorem Stepped.goto {pc : Pc} (wait : pc.wait = (s.pc p).wait)
    (leave : ∀ w, pc = .leave w → s.val >>> kEpochShift ≠ w.key.setWidth 64) :
    Stepped s (s.goto p pc) p := by
  refine .quiet rfl rfl rfl (fun q => ?_) fun q w isLeave => ?_
  · by_cases same : q = p
    · subst same
      simpa [State.goto] using wait
    · simp [State.goto, same]
  · by_cases same : q = p
    · subst same
      exact Or.inr (leave w (by simpa [State.goto] using isLeave))
    · exact Or.inl (by simpa [State.goto, same] using isLeave)

omit [Fintype T] in
theorem Stepped.load {w : Wait} (wait : (s.pc p).wait = some w) : Stepped s (s.load p w) p := by
  unfold State.load
  split
  next => exact Stepped.goto wait.symm nofun
  next differs =>
    refine Stepped.goto wait.symm fun w' isLeave => ?_
    cases isLeave
    exact differs

theorem Pc.woken_wait (pc : Pc) : pc.woken.wait = pc.wait := by
  cases pc <;> rfl

theorem Pc.afterWake_wait (w : Option Wait) : (Pc.afterWake w).wait = w := by
  cases w <;> rfl

omit [Fintype T] in
theorem Stepped.futexWake {n : ℕ} {w : Option Wait} {chosen : Finset T}
    (here : s.pc p = .wake n w) : Stepped s (s.futexWake p chosen w) p := by
  have pcSelf : (s.futexWake p chosen w).pc p = .afterWake w := by simp [State.futexWake]
  have pcOther : ∀ q, q ≠ p → (s.futexWake p chosen w).pc q =
      if q ∈ chosen then (s.pc q).woken else s.pc q := fun q other => by
    simp [State.futexWake, other]
  refine .quiet rfl rfl rfl (fun q => ?_) fun q w' isLeave => ?_
  · by_cases same : q = p
    · rw [same, pcSelf, here, Pc.afterWake_wait]
      rfl
    · rw [pcOther q same]
      split
      next => exact Pc.woken_wait _
      next => rfl
  · by_cases same : q = p
    · rw [same, pcSelf] at isLeave
      cases w <;> cases isLeave
    · rw [pcOther q same] at isLeave
      split at isLeave
      next =>
        left
        cases pcQ : s.pc q <;> rw [pcQ] at isLeave <;> cases isLeave
        rfl
      next => exact Or.inl isLeave

theorem step_stepped {a : Act T} (next : step s p a = some s') : Stepped s s' p := by
  cases a with
  | prepareWait =>
      simp only [step] at next
      split at next
      next idle => exact .prepare idle (Option.some.inj next).symm
      next => cases next
  | cancelWait =>
      simp only [step] at next
      split at next
      next w here => exact .cancel w here (Option.some.inj next).symm
      next => cases next
  | await =>
      simp only [step] at next
      split at next
      next w here =>
        obtain rfl := Option.some.inj next
        exact Stepped.load (by rw [here]; rfl)
      next => cases next
  | notify n =>
      simp only [step] at next
      split at next
      next here => exact .notify n none here (Option.some.inj next).symm
      next w here => exact .notify n (some w) here (Option.some.inj next).symm
      next => cases next
  | run =>
      simp only [step] at next
      split at next
      next w here =>
        obtain rfl := Option.some.inj next
        exact Stepped.load (by rw [here]; rfl)
      next w here =>
        split at next <;> obtain rfl := Option.some.inj next <;>
          exact Stepped.goto (by rw [here]; rfl) nofun
      next w here => exact .leave w here (Option.some.inj next).symm
      next => cases next
  | wake chosen =>
      simp only [step] at next
      split at next
      next n w here =>
        split at next
        next =>
          obtain rfl := Option.some.inj next
          exact Stepped.futexWake here
        next => cases next
      next => cases next
  | wakeUp =>
      simp only [step] at next
      split at next
      next w here =>
        obtain rfl := Option.some.inj next
        exact Stepped.goto (by rw [here]; rfl) nofun
      next => cases next

/-! ### Counting registrations -/

omit [DecidableEq T] in
theorem mem_registered : p ∈ s.registered ↔ (s.pc p).wait.isSome = true := by
  simp [State.registered]

omit [DecidableEq T] in
theorem registered_same (wait : ∀ q, (s'.pc q).wait = (s.pc q).wait) :
    s'.registered = s.registered := by
  simp [State.registered, wait]

theorem registered_insert {w : Wait} (idle : (s.pc p).wait = none) (now : (s'.pc p).wait = some w)
    (others : ∀ q, q ≠ p → s'.pc q = s.pc q) :
    s'.registered.card = s.registered.card + 1 := by
  have grown : s'.registered = insert p s.registered := by
    ext q
    by_cases same : q = p
    · simp [State.registered, same, now]
    · simp [State.registered, same, others q same]
  rw [grown, Finset.card_insert_of_notMem]
  simp [State.registered, idle]

theorem registered_erase {w : Wait} (before : (s.pc p).wait = some w) (now : (s'.pc p).wait = none)
    (others : ∀ q, q ≠ p → s'.pc q = s.pc q) :
    s'.registered.card + 1 = s.registered.card :=
  (registered_insert now before fun q other => (others q other).symm).symm

/-! ### Steps keep the invariant -/

theorem Pc.wait_of_leave {pc : Pc} {w : Wait} (isLeave : pc = .leave w) : pc.wait = some w := by
  rw [isLeave]
  rfl

theorem Inv.prepare (inv : Inv s) (room : s'.registered.card < 2 ^ 32) (idle : s.pc p = .idle)
    (after : s' = { s with
      val := s.val + kAddWaiter
      waits := s.waits + 1
      log := .prepared s.waits :: s.log }.goto p
        (.ready ⟨s.waits, (s.val >>> kEpochShift).setWidth 32, s.notifies⟩)) : Inv s' := by
  have pcSelf : s'.pc p = .ready ⟨s.waits, (s.val >>> kEpochShift).setWidth 32, s.notifies⟩ := by
    simp [after, State.goto]
  have pcOther : ∀ q, q ≠ p → s'.pc q = s.pc q := fun q other => by simp [after, State.goto, other]
  have notifies : s'.notifies = s.notifies := by simp [after, State.goto]
  have val : s'.val = s.val + kAddWaiter := by simp [after, State.goto]
  have log : s'.log = .prepared s.waits :: s.log := by simp [after, State.goto]
  have card : s'.registered.card = s.registered.card + 1 :=
    registered_insert (by rw [idle]; rfl) (by rw [pcSelf]; rfl) pcOther
  have packed := inv.packed
  refine ⟨?_, room, fun q w wait => ?_, fun q w wait => ?_, fun q w isLeave => ?_,
    fun id ret => ?_⟩
  · have one : kAddWaiter.toNat = 1 := rfl
    rw [val, notifies, card, BitVec.toNat_add, one]
    omega
  · rw [notifies]
    by_cases same : q = p
    · rw [same, pcSelf] at wait
      cases wait
      refine ⟨?_, le_rfl⟩
      show ((s.val >>> kEpochShift).setWidth 32).toNat = s.notifies % 2 ^ 32
      rw [BitVec.toNat_setWidth, inv.epoch]
      omega
    · rw [pcOther q same] at wait
      exact inv.key q w wait
  · rw [notifies, log]
    by_cases same : q = p
    · rw [same, pcSelf] at wait
      cases wait
      exact ⟨List.mem_cons_self, fun n from_ to_ => absurd from_ (Nat.not_le.mpr to_)⟩
    · rw [pcOther q same] at wait
      obtain ⟨member, seen⟩ := inv.prepared q w wait
      exact ⟨List.mem_cons_of_mem _ member, fun n from_ to_ => (seen n from_ to_).cons⟩
  · rw [notifies]
    by_cases same : q = p
    · rw [same, pcSelf] at isLeave
      cases isLeave
    · rw [pcOther q same] at isLeave
      exact inv.left q w isLeave
  · rw [log] at ret ⊢
    obtain ⟨n, first, second⟩ := inv.returned id (by simpa using ret)
    exact ⟨n, first.cons, second.cons⟩

theorem Inv.decrement {w : Wait} (inv : Inv s) (new : List Event) (wait : (s.pc p).wait = some w)
    (val : s'.val = s.val + kSubWaiter) (pcSelf : s'.pc p = .idle)
    (pcOther : ∀ q, q ≠ p → s'.pc q = s.pc q) (notifies : s'.notifies = s.notifies)
    (log : s'.log = new ++ s.log)
    (returned : ∀ id, .returned id ∈ new → ∃ n, Older s'.log (.prepared id) (.notified n) ∧
      Older s'.log (.notified n) (.returned id)) : Inv s' := by
  have card : s'.registered.card + 1 = s.registered.card :=
    registered_erase wait (by rw [pcSelf]; rfl) pcOther
  have packed := inv.packed
  have room := inv.room
  have notSelf : ∀ q, s'.pc q ≠ .idle → q ≠ p := fun q busy same => busy (same ▸ pcSelf)
  have registered : ∀ q w, (s'.pc q).wait = some w → (s.pc q).wait = some w := by
    intro q w wait
    have other : q ≠ p := notSelf q fun idle => by rw [idle] at wait; cases wait
    rwa [pcOther q other] at wait
  refine ⟨?_, by omega, fun q w wait => ?_, fun q w wait => ?_, fun q w isLeave => ?_,
    fun id ret => ?_⟩
  · rw [val, notifies, BitVec.toNat_add, kSubWaiter_toNat]
    omega
  · rw [notifies]
    exact inv.key q w (registered q w wait)
  · rw [notifies, log]
    obtain ⟨member, seen⟩ := inv.prepared q w (registered q w wait)
    exact ⟨List.mem_append_right _ member, fun n from_ to_ => (seen n from_ to_).append _⟩
  · rw [notifies]
    have other : q ≠ p := notSelf q fun idle => by rw [idle] at isLeave; cases isLeave
    rw [pcOther q other] at isLeave
    exact inv.left q w isLeave
  · rw [log] at ret
    rcases List.mem_append.mp ret with now | old
    · exact returned id now
    · obtain ⟨n, first, second⟩ := inv.returned id old
      rw [log]
      exact ⟨n, first.append _, second.append _⟩

theorem Inv.notify {n : ℕ} {w : Option Wait} (inv : Inv s) (here : s.pc p = .afterWake w)
    (after : s' = s.doNotify p n w) : Inv s' := by
  have wait : ∀ q, (s'.pc q).wait = (s.pc q).wait := by
    intro q
    rw [after, State.doNotify]
    split
    next =>
      by_cases same : q = p
      · simp [State.goto, same, here, Pc.wait]
        cases w <;> rfl
      · simp [State.goto, same]
    next => rfl
  have leave : ∀ q w, s'.pc q = .leave w → s.pc q = .leave w := by
    intro q w' isLeave
    rw [after, State.doNotify] at isLeave
    split at isLeave
    next =>
      by_cases same : q = p
      · simp [State.goto, same] at isLeave
      · simpa [State.goto, same] using isLeave
    next => exact isLeave
  have notifies : s'.notifies = s.notifies + 1 := by
    rw [after, State.doNotify]
    split <;> rfl
  have val : s'.val = s.val + kAddEpoch := by
    rw [after, State.doNotify]
    split <;> rfl
  have log : s'.log = .notified s.notifies :: s.log := by
    rw [after, State.doNotify]
    split <;> rfl
  have sameSet := registered_same wait
  have packed := inv.packed
  have room := inv.room
  refine ⟨?_, by rw [sameSet]; exact room, fun q w wait' => ?_, fun q w wait' => ?_,
    fun q w isLeave => ?_, fun id ret => ?_⟩
  · rw [val, notifies, sameSet, BitVec.toNat_add, kAddEpoch_toNat]
    omega
  · rw [wait q] at wait'
    obtain ⟨key, le⟩ := inv.key q w wait'
    exact ⟨key, by omega⟩
  · rw [wait q] at wait'
    obtain ⟨member, seen⟩ := inv.prepared q w wait'
    rw [log]
    refine ⟨List.mem_cons_of_mem _ member, fun m from_ to_ => ?_⟩
    rcases Nat.lt_or_ge m s.notifies with old | new
    · exact (seen m from_ old).cons
    · have now : m = s.notifies := by omega
      exact Or.inl ⟨by rw [now], member⟩
  · have := inv.left q w (leave q w isLeave)
    omega
  · rw [log] at ret ⊢
    obtain ⟨m, first, second⟩ := inv.returned id (by simpa using ret)
    exact ⟨m, first.cons, second.cons⟩

theorem Inv.step {a : Act T} (inv : Inv s) (room : s'.registered.card < 2 ^ 32)
    (next : step s p a = some s') : Inv s' := by
  cases step_stepped next with
  | prepare idle after => exact inv.prepare room idle after
  | cancel w here after =>
      refine inv.decrement (p := p) (w := w) [] (by rw [here]; rfl) ?_ ?_ ?_ ?_ ?_ nofun <;>
        simp +contextual [after, State.goto]
  | leave w here after =>
      have log : s'.log = .returned w.id :: s.log := by simp [after, State.goto]
      refine inv.decrement (p := p) (w := w) [.returned w.id] (by rw [here]; rfl)
        (by simp [after, State.goto]) (by simp [after, State.goto])
        (fun q other => by simp [after, State.goto, other]) (by simp [after, State.goto]) log ?_
      intro id member
      cases List.mem_singleton.mp member
      obtain ⟨prepared, seen⟩ := inv.prepared p w (Pc.wait_of_leave here)
      have since := inv.left p w here
      have notified := seen w.since le_rfl since
      rw [log]
      exact ⟨w.since, notified.cons, Or.inl ⟨rfl, notified.mem_new⟩⟩
  | notify n w here after => exact inv.notify here after
  | quiet val notifies log wait leave =>
      have sameSet := registered_same wait
      refine ⟨?_, room, fun q w wait' => ?_, fun q w wait' => ?_, fun q w isLeave => ?_,
        fun id ret => ?_⟩
      · rw [val, notifies, sameSet]
        exact inv.packed
      · rw [wait q] at wait'
        rw [notifies]
        exact inv.key q w wait'
      · rw [wait q] at wait'
        rw [notifies, log]
        exact inv.prepared q w wait'
      · rw [notifies]
        have registered := Pc.wait_of_leave isLeave
        rw [wait q] at registered
        rcases leave q w isLeave with already | differs
        · exact inv.left q w already
        · exact inv.since_lt registered differs
      · rw [log] at ret ⊢
        exact inv.returned id ret

omit [DecidableEq T] in
theorem inv_init : Inv (State.init : State T) := by
  have none' : (State.init : State T).registered = ∅ := by
    simp [State.registered, State.init, Pc.wait]
  refine ⟨?_, ?_, nofun, nofun, nofun, nofun⟩
  · rw [none']
    rfl
  · rw [none']
    exact Nat.two_pow_pos 32

/-- What the word says about the threads and the notifies, and what follows for
`await` and `doNotify`. -/
structure Packed (s : State T) : Prop where
  waiters : (s.val &&& kWaiterMask).toNat = s.registered.card
  epoch : (s.val >>> kEpochShift).toNat = s.notifies % 2 ^ 32
  /-- Between a `prepareWait` and the return of its `await` there was a notify. -/
  returned : ∀ id, .returned id ∈ s.log → ∃ n, Older s.log (.prepared id) (.notified n) ∧
    Older s.log (.notified n) (.returned id)
  /-- A notify that goes without the futex finds nobody registered. -/
  skipped : ∀ p n s', step s p (.notify n) = some s' → (∀ w, s'.pc p ≠ .wake n w) →
    s.registered = ∅

theorem Inv.packed_word (inv : Inv s) : Packed s := by
  refine ⟨inv.waiters, inv.epoch, inv.returned, fun p n s' next noWake => ?_⟩
  have skips : s.val &&& kWaiterMask = 0 := by
    by_contra some'
    have wakes : ∀ w, (s.doNotify p n w).pc p = .wake n w := fun w => by
      rw [State.doNotify, if_pos some']
      exact Function.update_self ..
    simp only [EventCount.step] at next
    split at next
    next =>
      obtain rfl := Option.some.inj next
      exact noWake none (wakes none)
    next w _ =>
      obtain rfl := Option.some.inj next
      exact noWake (some w) (wakes (some w))
    next => cases next
  have waiters := inv.waiters
  rw [skips] at waiters
  exact Finset.card_eq_zero.mp waiters.symm

/-- The halves of the word never run into each other, however long the run is. -/
theorem word_packed (few : Fintype.card T < 2 ^ 32) (run : Reachable system s) : Packed s := by
  have inv : Inv s := by
    refine Reachable.invariant (I := Inv) ?_ ?_ run
    · rintro s rfl
      exact inv_init
    · rintro s s' inv ⟨p, a, next⟩
      exact inv.step (lt_of_le_of_lt (Finset.card_le_univ _) few) next
  exact inv.packed_word

/-- A thread goes to sleep, is notified and returns. -/
theorem word_packed_after_wake : ∃ s : State Bool, Reachable system s ∧ .returned 0 ∈ s.log ∧
    Packed s := by
  obtain ⟨s, run, found⟩ := runSchedule_any (M := system) (fun s a s' next => ⟨a.1, a.2, next⟩)
    (s := (State.init : State Bool)) rfl
    [(true, .prepareWait), (true, .await), (true, .run), (false, .notify 1), (false, .wake {true}),
      (true, .run), (true, .run)]
    (fun s => decide (.returned 0 ∈ s.log)) (by decide +kernel)
  exact ⟨s, run, of_decide_eq_true found, word_packed (by decide) run⟩

end Packing

/-! ## What a step leaves alone -/

section Frame

variable {T : Type} [DecidableEq T] [Fintype T] {s s' : State T} {p : T}

/-- The wait of a thread that is not notifying. -/
def Pc.awaits : Pc → Option Wait
  | .ready w | .check w | .futexWait w | .asleep w | .leave w => some w
  | _ => none

theorem Pc.wait_of_awaits {pc : Pc} {w : Wait} (awaits : pc.awaits = some w) : pc.wait = some w := by
  cases pc <;> first | exact awaits | cases awaits

theorem Pc.woken_awaits (pc : Pc) : pc.woken.awaits = pc.awaits := by
  cases pc <;> rfl

theorem step_notifies {a : Act T} (next : step s p a = some s') : s.notifies ≤ s'.notifies := by
  cases step_stepped next with
  | prepare _ after | cancel _ _ after | leave _ _ after =>
      simp [after, State.goto]
  | notify n w _ after =>
      have more : s'.notifies = s.notifies + 1 := by
        rw [after, State.doNotify]
        split <;> rfl
      omega
  | quiet _ notifies => exact notifies.ge

/-- A step of thread `p` does nothing to another thread, or wakes it up. -/
theorem step_others {a : Act T} (next : step s p a = some s') {q : T} (other : q ≠ p) :
    s'.pc q = s.pc q ∨ s'.pc q = (s.pc q).woken := by
  have load : ∀ w, (s.load p w).pc q = s.pc q := by
    intro w
    rw [State.load]
    split <;> exact State.goto_other other
  have doNotify : ∀ n w, (s.doNotify p n w).pc q = s.pc q := by
    intro n w
    rw [State.doNotify]
    split
    next => exact State.goto_other other
    next => rfl
  cases a with
  | wake chosen =>
      simp only [step] at next
      split at next
      next n w here =>
        split at next
        next =>
          cases next
          have after : (s.futexWake p chosen w).pc q =
              if q ∈ chosen then (s.pc q).woken else s.pc q := by simp [State.futexWake, other]
          rw [after]
          split
          · exact Or.inr rfl
          · exact Or.inl rfl
        next => cases next
      next => cases next
  | await =>
      simp only [step] at next
      split at next
      next =>
        obtain rfl := Option.some.inj next
        exact Or.inl (load _)
      next => cases next
  | notify n =>
      simp only [step] at next
      split at next
      next =>
        obtain rfl := Option.some.inj next
        exact Or.inl (doNotify _ _)
      next =>
        obtain rfl := Option.some.inj next
        exact Or.inl (doNotify _ _)
      next => cases next
  | run =>
      simp only [step] at next
      split at next
      next =>
        obtain rfl := Option.some.inj next
        exact Or.inl (load _)
      next =>
        split at next <;> obtain rfl := Option.some.inj next <;>
          exact Or.inl (State.goto_other other)
      next =>
        obtain rfl := Option.some.inj next
        simp [State.goto, other]
      next => cases next
  | prepareWait | cancelWait | wakeUp =>
      simp only [step] at next
      split at next
      next =>
        obtain rfl := Option.some.inj next
        simp [State.goto, other]
      next => cases next

theorem step_prepareWait (next : step s p .prepareWait = some s') :
    ∃ w, s'.pc p = .ready w ∧ w.since = s.notifies ∧ s'.notifies = s.notifies := by
  simp only [step] at next
  split at next
  next =>
    obtain rfl := Option.some.inj next
    refine ⟨⟨s.waits, (s.val >>> kEpochShift).setWidth 32, s.notifies⟩, ?_, rfl, ?_⟩ <;>
      simp [State.goto]
  next => cases next

/-- Inside `await` a thread keeps its wait, until it decrements the waiter count. -/
theorem step_awaits {a : Act T} {w : Wait} (inside : a = .await ∨ a = .run ∨ a = .wakeUp)
    (awaits : (s.pc p).awaits = some w) (next : step s p a = some s') :
    (s'.pc p).awaits = some w ∨ (s.pc p = .leave w ∧ s'.notifies = s.notifies) := by
  have load : ∀ w, ((s.load p w).pc p).awaits = some w := by
    intro w
    rw [State.load]
    split <;> rw [State.goto_self] <;> rfl
  have goto : ∀ pc, pc.awaits = some w → ((s.goto p pc).pc p).awaits = some w := by
    intro pc same
    rw [State.goto_self]
    exact same
  have decrement : ∀ val log, ({ s with val := val, log := log }.goto p .idle).notifies =
      s.notifies := fun _ _ => rfl
  rcases inside with rfl | rfl | rfl
  · simp only [step] at next
    split at next
    next w' here =>
      obtain rfl := Option.some.inj next
      rw [here] at awaits
      cases awaits
      exact Or.inl (load w)
    next => cases next
  · simp only [step] at next
    split at next
    next w' here =>
      obtain rfl := Option.some.inj next
      rw [here] at awaits
      cases awaits
      exact Or.inl (load w)
    next w' here =>
      rw [here] at awaits
      cases awaits
      split at next <;> obtain rfl := Option.some.inj next <;> exact Or.inl (goto _ rfl)
    next w' here =>
      obtain rfl := Option.some.inj next
      rw [here] at awaits
      cases awaits
      exact Or.inr ⟨here, decrement _ _⟩
    next => cases next
  · simp only [step] at next
    split at next
    next w' here =>
      obtain rfl := Option.some.inj next
      rw [here] at awaits
      cases awaits
      exact Or.inl (goto _ rfl)
    next => cases next

end Frame

end Elcrq.EventCount
