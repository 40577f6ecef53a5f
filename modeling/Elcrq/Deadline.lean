import Elcrq.EventCount
import Mathlib.Algebra.Group.Int.Defs
import Mathlib.Data.Nat.Find

/-! # `waitUntil` of `EventCount.hpp`

`waitUntil` reads nothing but the word of the event count, so a run of it is given by
the word it starts with, by what other threads do to the word before each of its
accesses, and by what the system call of `nativeFutexWaitImpl` gives each time.  The loop
drops the result of `futexWaitUntil`: after `TIMEDOUT` it loads the word like after any
other result and waits again if the epoch is still the key's. -/

set_option autoImplicit false

namespace Elcrq.Deadline

open EventCount (kAddWaiter kSubWaiter kAddEpoch kEpochShift)

/-! ## The futex -/

inductive FutexResult
  | VALUE_CHANGED
  | AWOKEN
  | INTERRUPTED
  | TIMEDOUT
  deriving DecidableEq

inductive Errno
  | ETIMEDOUT
  | EINTR
  | EWOULDBLOCK
  | other
  deriving DecidableEq

structure Syscall where
  rv : ℤ
  errno : Errno

structure Timespec where
  sec : ℕ
  nsec : ℕ

/-- The argument is in nanoseconds. -/
def timeSpecFromTimePoint (absTime : ℤ) : Timespec :=
  let epoch := if absTime < 0 then 0 else absTime
  ⟨(epoch / 10 ^ 9).toNat, (epoch % 10 ^ 9).toNat⟩

/-- The clock of the deadline only selects the flag `FUTEX_CLOCK_REALTIME`. -/
def nativeFutexWaitImpl (kernel : Option Timespec → Syscall) (absTime : Option ℤ) : FutexResult :=
  let call := kernel (absTime.map timeSpecFromTimePoint)
  if call.rv = 0 then .AWOKEN
  else
    match call.errno with
    | .ETIMEDOUT => .TIMEDOUT
    | .EINTR => .INTERRUPTED
    | .EWOULDBLOCK => .VALUE_CHANGED
    | .other => .VALUE_CHANGED

def futexWaitImpl (kernel : Option Timespec → Syscall) (absTime : Option ℤ) : FutexResult :=
  nativeFutexWaitImpl kernel absTime

/-- `none` is `time_point::max()`, for which there is no timeout. -/
def futexWaitUntil (kernel : Option Timespec → Syscall) (deadline : Option ℤ) : FutexResult :=
  match deadline with
  | none => futexWaitImpl kernel none
  | some converted => futexWaitImpl kernel (some converted)

/-! ## The loop -/

/-- What another thread does to the word. -/
inductive Op
  | notify
  | addWaiter
  | subWaiter

def Op.on (val : Word) : Op → Word
  | .notify => val + kAddEpoch
  | .addWaiter => val + kAddWaiter
  | .subWaiter => val + kSubWaiter

/-- The surroundings of a call: the word it finds, what the others do to it before its
`k`-th access, and the system calls. -/
structure Env where
  start : Word
  others : ℕ → List Op
  kernel : ℕ → Option Timespec → Syscall

inductive Pc
  | load
  | futexWait
  | leave
  | returned
  deriving DecidableEq

/-- `waits` are the futex waits made, `subs` the decrements of the waiter count. -/
structure State where
  val : Word
  pc : Pc
  waits : ℕ
  timedOut : Bool
  subs : ℕ

/-- The test of the loop. -/
def keyHolds (key : BitVec 32) (val : Word) : Bool := val >>> kEpochShift == key.setWidth 64

/-- One access of `waitUntil`; `timedOut` is for the record. -/
def waitUntil (env : Env) (key : BitVec 32) (deadline : Option ℤ) (k : ℕ) (s : State) : State :=
  let val := (env.others k).foldl Op.on s.val
  match s.pc with
  | .load => { s with val := val, pc := if keyHolds key val then .futexWait else .leave }
  | .futexWait =>
      let result := futexWaitUntil (env.kernel s.waits) deadline
      { s with
        val := val
        pc := .load
        waits := s.waits + 1
        timedOut := s.timedOut || result == .TIMEDOUT }
  | .leave => { s with val := val + kSubWaiter, pc := .returned, subs := s.subs + 1 }
  | .returned => { s with val := val }

def run (env : Env) (key : BitVec 32) (deadline : Option ℤ) : ℕ → State
  | 0 => ⟨env.start, .load, 0, false, 0⟩
  | k + 1 => waitUntil env key deadline k (run env key deadline k)

/-- Once a futex wait has timed out there is no other one, and the call returns, with
one decrement. -/
def Honours (env : Env) (key : BitVec 32) (deadline : Option ℤ) : Prop :=
  ∀ k, (run env key deadline k).timedOut = true →
    (∀ m, k ≤ m → (run env key deadline m).waits = (run env key deadline k).waits) ∧
    ∃ m, (run env key deadline m).pc = .returned ∧ (run env key deadline m).subs = 1

/-- The word at the `k`-th access, as far as the others are concerned. -/
def Env.word (env : Env) : ℕ → Word
  | 0 => (env.others 0).foldl Op.on env.start
  | k + 1 => (env.others (k + 1)).foldl Op.on (env.word k)

/-- After each timeout of a call that is still in its loop the next load finds another
epoch. -/
def NotifiedInTime (env : Env) (key : BitVec 32) (deadline : Option ℤ) : Prop :=
  ∀ i, (∀ j ≤ i, keyHolds key (env.word (2 * j)) = true) →
    futexWaitUntil (env.kernel i) deadline = .TIMEDOUT →
    keyHolds key (env.word (2 * i + 2)) = false

section Runs

variable {env : Env} {key : BitVec 32} {deadline : Option ℤ}

/-- A call in its loop: the word is what the others made of it. -/
structure Looping (env : Env) (deadline : Option ℤ) (i : ℕ) (s : State) : Prop where
  word : (env.others (2 * i)).foldl Op.on s.val = env.word (2 * i)
  pc : s.pc = .load
  waits : s.waits = i
  timedOut : s.timedOut = true ↔ ∃ j < i, futexWaitUntil (env.kernel j) deadline = .TIMEDOUT
  subs : s.subs = 0

theorem looping_start : Looping env deadline 0 (run env key deadline 0) :=
  ⟨rfl, rfl, rfl, by simp [run], rfl⟩

theorem Looping.next {i : ℕ} (looping : Looping env deadline i (run env key deadline (2 * i)))
    (holds : keyHolds key (env.word (2 * i)) = true) :
    run env key deadline (2 * i + 1) =
      { run env key deadline (2 * i) with val := env.word (2 * i), pc := .futexWait } ∧
    Looping env deadline (i + 1) (run env key deadline (2 * (i + 1))) := by
  obtain ⟨word, pc, waits, timedOut, subs⟩ := looping
  have first : run env key deadline (2 * i + 1) =
      { run env key deadline (2 * i) with val := env.word (2 * i), pc := .futexWait } := by
    rw [run, waitUntil, pc]
    simp only [word, holds]
    rfl
  refine ⟨first, ?_⟩
  have second : run env key deadline (2 * i + 2) =
      { run env key deadline (2 * i) with
        val := env.word (2 * i + 1)
        pc := .load
        waits := i + 1
        timedOut := (run env key deadline (2 * i)).timedOut ||
          futexWaitUntil (env.kernel i) deadline == .TIMEDOUT } := by
    rw [run, waitUntil, first]
    simp only [waits]
    rfl
  rw [Nat.mul_add, second]
  refine ⟨rfl, rfl, rfl, ?_, subs⟩
  simp only [Bool.or_eq_true, timedOut, beq_iff_eq]
  constructor
  · rintro (⟨j, less, result⟩ | result)
    · exact ⟨j, Nat.lt_succ_of_lt less, result⟩
    · exact ⟨i, Nat.lt_succ_self i, result⟩
  · rintro ⟨j, less, result⟩
    rcases Nat.lt_succ_iff_lt_or_eq.mp less with before | rfl
    · exact Or.inl ⟨j, before, result⟩
    · exact Or.inr result

theorem looping {i : ℕ} (holds : ∀ j < i, keyHolds key (env.word (2 * j)) = true) :
    Looping env deadline i (run env key deadline (2 * i)) := by
  induction i with
  | zero => exact looping_start
  | succ i ih =>
      have before := ih fun j less => holds j (Nat.lt_succ_of_lt less)
      exact (before.next (holds i (Nat.lt_succ_self i))).2

/-- The call has left its loop: it makes no more futex waits, and decrements once. -/
structure Left (i : ℕ) (timedOut : Bool) (s : State) : Prop where
  waits : s.waits = i
  timedOut : s.timedOut = timedOut
  ended : s.pc = .leave ∧ s.subs = 0 ∨ s.pc = .returned ∧ s.subs = 1

theorem Left.next {i k : ℕ} {timedOut : Bool}
    (left : Left i timedOut (run env key deadline k)) :
    Left i timedOut (run env key deadline (k + 1)) ∧
      (run env key deadline (k + 1)).pc = .returned ∧ (run env key deadline (k + 1)).subs = 1 := by
  obtain ⟨waits, isTimedOut, ⟨pc, subs⟩ | ⟨pc, subs⟩⟩ := left
  · have after : run env key deadline (k + 1) =
        { run env key deadline k with
          val := (env.others k).foldl Op.on (run env key deadline k).val + kSubWaiter
          pc := .returned
          subs := (run env key deadline k).subs + 1 } := by
      rw [run, waitUntil, pc]
    have returned : (run env key deadline (k + 1)).pc = .returned ∧
        (run env key deadline (k + 1)).subs = 1 := by
      rw [after]
      exact ⟨rfl, congrArg (· + 1) subs⟩
    refine ⟨⟨?_, ?_, Or.inr returned⟩, returned⟩
    · rw [after]
      exact waits
    · rw [after]
      exact isTimedOut
  · have after : run env key deadline (k + 1) =
        { run env key deadline k with
          val := (env.others k).foldl Op.on (run env key deadline k).val
          pc := .returned } := by
      rw [run, waitUntil, pc]
    rw [after]
    exact ⟨⟨waits, isTimedOut, Or.inr ⟨rfl, subs⟩⟩, rfl, subs⟩

theorem Looping.left {i : ℕ} (looping : Looping env deadline i (run env key deadline (2 * i)))
    (differs : keyHolds key (env.word (2 * i)) = false) (m : ℕ) :
    Left i (run env key deadline (2 * i)).timedOut (run env key deadline (2 * i + 1 + m)) := by
  induction m with
  | zero =>
      obtain ⟨word, pc, waits, _, subs⟩ := looping
      have after : run env key deadline (2 * i + 1) =
          { run env key deadline (2 * i) with val := env.word (2 * i), pc := .leave } := by
        rw [run, waitUntil, pc]
        simp only [word, differs]
        rfl
      rw [Nat.add_zero, after]
      exact ⟨waits, rfl, Or.inl ⟨rfl, subs⟩⟩
  | succ m ih => exact ih.next.1

theorem timedOut_cases {k : ℕ} (timedOut : (run env key deadline k).timedOut = true) :
    ∃ i, 2 * i + 2 ≤ k ∧ (∀ j ≤ i, keyHolds key (env.word (2 * j)) = true) ∧
      futexWaitUntil (env.kernel i) deadline = .TIMEDOUT := by
  -- a wait before the `i`-th load, all earlier loads having found the key's epoch
  have found : ∀ i, 2 * i ≤ k → (∀ j < i, keyHolds key (env.word (2 * j)) = true) →
      (run env key deadline (2 * i)).timedOut = true →
      ∃ i, 2 * i + 2 ≤ k ∧ (∀ j ≤ i, keyHolds key (env.word (2 * j)) = true) ∧
        futexWaitUntil (env.kernel i) deadline = .TIMEDOUT := by
    intro i le holds isTimedOut
    obtain ⟨j, less, result⟩ := (looping holds).timedOut.mp isTimedOut
    exact ⟨j, by omega, fun j' le' => holds j' (by omega), result⟩
  by_cases exits : ∃ i, 2 * i < k ∧ keyHolds key (env.word (2 * i)) = false
  · have exists_ : ∃ i, keyHolds key (env.word (2 * i)) = false := exits.imp fun _ => And.right
    have holds : ∀ j < Nat.find exists_, keyHolds key (env.word (2 * j)) = true := fun j less =>
      (Bool.not_eq_false _).mp (Nat.find_min exists_ less)
    obtain ⟨i, less, differs⟩ := exits
    have first : Nat.find exists_ ≤ i := Nat.find_min' exists_ differs
    have loops : Looping env deadline (Nat.find exists_)
        (run env key deadline (2 * Nat.find exists_)) := looping holds
    have left := loops.left (Nat.find_spec exists_) (k - (2 * Nat.find exists_ + 1))
    rw [Nat.add_sub_cancel' (by omega)] at left
    exact found _ (by omega) holds (left.timedOut.symm.trans timedOut)
  · have holds : ∀ j, 2 * j < k → keyHolds key (env.word (2 * j)) = true := fun j less =>
      (Bool.not_eq_false _).mp fun differs => exits ⟨j, less, differs⟩
    obtain ⟨i, rfl | rfl⟩ : ∃ i, k = 2 * i ∨ k = 2 * i + 1 := ⟨k / 2, by omega⟩
    · exact found i le_rfl (fun j less => holds j (by omega)) timedOut
    · have before : ∀ j < i, keyHolds key (env.word (2 * j)) = true := fun j less =>
        holds j (by omega)
      rw [((looping before).next (holds i (Nat.lt_succ_self _))).1] at timedOut
      exact found i (Nat.le_succ _) before timedOut

theorem Honours.inTime (honours : Honours env key deadline) : NotifiedInTime env key deadline := by
  intro i holds result
  by_contra still
  have still : keyHolds key (env.word (2 * (i + 1))) = true := (Bool.not_eq_false _).mp still
  have first : Looping env deadline (i + 1) (run env key deadline (2 * (i + 1))) :=
    looping fun j less => holds j (Nat.lt_succ_iff.mp less)
  have second := (first.next still).2
  have isTimedOut := first.timedOut.mpr ⟨i, Nat.lt_succ_self i, result⟩
  have same := (honours _ isTimedOut).1 (2 * (i + 1 + 1)) (by omega)
  rw [first.waits, second.waits] at same
  omega

theorem NotifiedInTime.honours (inTime : NotifiedInTime env key deadline) :
    Honours env key deadline := by
  intro k timedOut
  obtain ⟨i, le, holds, result⟩ := timedOut_cases timedOut
  have first : Looping env deadline (i + 1) (run env key deadline (2 * (i + 1))) :=
    looping fun j less => holds j (Nat.lt_succ_iff.mp less)
  have left := first.left (inTime i holds result)
  have waits : ∀ m, 2 * i + 2 ≤ m → (run env key deadline m).waits = i + 1 := by
    intro m from_
    rcases Nat.eq_or_lt_of_le from_ with rfl | after
    · exact first.waits
    · have later := left (m - (2 * (i + 1) + 1))
      rw [Nat.add_sub_cancel' (by omega)] at later
      exact later.waits
  refine ⟨fun m after => (waits m (le.trans after)).trans (waits k le).symm, ?_⟩
  exact ⟨_, (left 0).next.2⟩

/-- `waitUntil` honours its deadline exactly when a notify saves it: after a timeout the
next load has to find another epoch. -/
theorem waitUntil_honours_iff (env : Env) (key : BitVec 32) (deadline : Option ℤ) :
    Honours env key deadline ↔ NotifiedInTime env key deadline :=
  ⟨Honours.inTime, NotifiedInTime.honours⟩

end Runs

/-- Nobody notifies, and every futex wait times out. -/
def quiet : Env where
  start := kAddWaiter
  others := fun _ => []
  kernel := fun _ _ => ⟨-1, .ETIMEDOUT⟩

theorem quiet_word (k : ℕ) : quiet.word k = kAddWaiter := by
  induction k with
  | zero => rfl
  | succ k ih => exact ih

/-- The deadline passes without a notify: the call waits again and again and does not
return. -/
theorem waitUntil_overruns : ¬ Honours quiet 0 (some 0) ∧
    ∀ k, (run quiet 0 (some 0) k).pc ≠ .returned := by
  have holds : ∀ j, keyHolds 0 (quiet.word (2 * j)) = true := by
    intro j
    rw [quiet_word]
    decide
  constructor
  · intro honours
    have differs := honours.inTime 0 (fun j _ => holds j) rfl
    rw [holds 1] at differs
    cases differs
  · intro k
    obtain ⟨i, rfl | rfl⟩ : ∃ i, k = 2 * i ∨ k = 2 * i + 1 := ⟨k / 2, by omega⟩
    · rw [(looping fun j _ => holds j).pc]
      decide
    · rw [((looping fun j _ => holds j).next (holds i)).1]
      exact Pc.noConfusion

end Elcrq.Deadline
