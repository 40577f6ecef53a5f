import Elcrq.WaitLoop

/-! # `dequeue` of `SCRQueue.hpp` and `await` of `EventCount.hpp`

Both are loops that wait on an event count.  An evaluation of the first is an attempt
`queue->dequeue(tid)`, of which nothing is assumed; `enqueue` is to the event count one
`notify`.  An evaluation of the second is a call of `condition`, which may also throw:
outside the loop the exception passes, inside the `catch` block cancels the wait that
`prepareWait` has begun. -/

set_option autoImplicit false

namespace Elcrq.Waiting

open Concurrent WaitLoop
open EventCount (Pc Wait kAddWaiter kSubWaiter kAddEpoch kWaiterMask kEpochShift kAddEpoch_toNat
  kSubWaiter_toNat shift_toNat waiters_toNat)

/-! ## `SCRQueue::dequeue` -/

def MAX_PATIENCE : ℕ := 1000

/-- `none` is `nullptr`.  `patience++` is reached only when the attempt gave `nullptr`. -/
def dequeue {V : Type} : Loop (Option V) ℕ (Option V) where
  first := fun temp => if temp.isNone then .again 0 else .exit temp
  inside := fun patience temp =>
    if temp.isNone ∧ patience < MAX_PATIENCE then .again (patience + 1) else .exit temp

section Patience

variable {V : Type}

variable {T : Type} [DecidableEq T] [Fintype T] {s : State T (Option V) ℕ (Option V)}

end Patience

section GivingUp

end GivingUp

/-! ## `EventCount::await` -/

/-- What a call of `condition` does. -/
inductive Outcome
  | holds
  | fails
  | throws
  deriving DecidableEq

/-- How `await` ends. -/
inductive Ending
  | returns
  | rethrows
  deriving DecidableEq

def await : Loop Outcome Unit Ending where
  first
    | .holds => .exit .returns
    | .fails => .again ()
    | .throws => .exit .rethrows
  inside
    | _, .holds => .exit .returns
    | _, .fails => .again ()
    | _, .throws => .exit .rethrows

section Await

theorem await_ran {outcomes : List Outcome} {l : Unit}
    (ran : await.Ran outcomes l) : ∀ o ∈ outcomes, o = .fails := by
  induction ran with
  | @first o _ test =>
      cases o with
      | fails => simp
      | holds | throws => cases test
  | @inside o _ _ _ _ test ih =>
      cases o with
      | fails => exact List.forall_mem_cons.mpr ⟨rfl, ih⟩
      | holds | throws => cases test

theorem await_exits {outcomes : List Outcome} {ending : Ending}
    (exits : await.Exits outcomes ending) :
    ∃ o before, outcomes = o :: before ∧ (∀ o' ∈ before, o' = .fails) ∧
      (o = .holds ∧ ending = .returns ∨ o = .throws ∧ ending = .rethrows) := by
  cases exits with
  | @first o _ test =>
      cases o <;> cases test
      · exact ⟨_, [], rfl, nofun, Or.inl ⟨rfl, rfl⟩⟩
      · exact ⟨_, [], rfl, nofun, Or.inr ⟨rfl, rfl⟩⟩
  | @inside o before _ _ ran test =>
      cases o <;> cases test
      · exact ⟨_, before, rfl, await_ran ran, Or.inl ⟨rfl, rfl⟩⟩
      · exact ⟨_, before, rfl, await_ran ran, Or.inr ⟨rfl, rfl⟩⟩

/-- The call is balanced and ends as its evaluations say. -/
structure EndsWell (x : Returned Outcome Ending) : Prop where
  balanced : x.adds = x.subs
  returns : x.result = .returns → x.outcomes.head? = some .holds
  rethrows : x.result = .rethrows ↔ .throws ∈ x.outcomes

/-- For any two consecutive evaluations inside the loop there was a notify between the
`prepareWait` before the first and the second. -/
def NotifiedBetween (evals : List (Eval Outcome)) : Prop :=
  evals.dropLast.IsChain fun later earlier => ∃ n, earlier.prepared = some n ∧ n < later.made

variable {T : Type} [DecidableEq T] [Fintype T]

/-- However many threads use the event count, `await` is balanced on every exit and ends
as its evaluations say; while fewer than `2^32` threads are registered, a notify comes
between its evaluations. -/
theorem await_ends_well :
    (∀ (few : State T Outcome Unit Ending → Prop) (s : State T Outcome Unit Ending),
      Reachable (system await few) s → ∀ x ∈ s.returned, EndsWell x) ∧
    (∀ s : State T Outcome Unit Ending, Reachable (system await FewWaiters) s →
      (∀ x ∈ s.returned, NotifiedBetween x.evals) ∧
      ∀ p, ∀ c ∈ (s.client p).call, NotifiedBetween c.evals) := by
  constructor
  · intro few s run x member
    obtain ⟨exits, balanced⟩ := (returned_fits run).returned x member
    obtain ⟨o, before, outcomes, fails, ends⟩ := await_exits exits
    refine ⟨balanced, fun returns => ?_, ?_⟩
    · rcases ends with ⟨rfl, _⟩ | ⟨_, rethrows⟩
      · rw [outcomes]
        rfl
      · rw [returns] at rethrows
        cases rethrows
    · rw [outcomes]
      rcases ends with ⟨rfl, returns⟩ | ⟨rfl, rethrows⟩
      · refine ⟨fun rethrows => ?_, fun throws => ?_⟩
        · rw [returns] at rethrows
          cases rethrows
        · rcases List.mem_cons.mp throws with now | old
          · cases now
          · cases fails _ old
      · exact ⟨fun _ => List.mem_cons_self, fun _ => rethrows⟩
  · intro s run
    have timing := returned_timed run
    refine ⟨fun x member => ?_, fun p c member => ?_⟩
    · exact spaced_inside (timing.returned x member).spaced
    · exact spaced_inside ((timing.client p).spaced c member)

/-- A condition that fails twice and then throws, with a notify while it waits. -/
theorem await_ends_well_throwing : ∃ s : State Bool Outcome Unit Ending,
    Reachable (system await FewWaiters) s ∧ ∃ x ∈ s.returned,
      x.outcomes = [.throws, .fails, .fails] ∧ x.adds = 2 ∧ EndsWell x ∧
      NotifiedBetween x.evals := by
  obtain ⟨s, run, found⟩ := runSchedule_any (M := system await FewWaiters)
    (fun s a s' next => ⟨⟨a.1, a.2, next⟩, lt_of_le_of_lt (Finset.card_le_univ _) (by decide)⟩)
    (s := (State.init : State Bool Outcome Unit Ending)) rfl
    [(true, .call), (true, .eval .fails), (true, .run), (true, .eval .fails), (true, .run),
      (true, .run), (false, .other (.notify 1)), (false, .other (.wake {true})), (true, .run),
      (true, .run), (true, .run), (true, .eval .throws), (true, .run)]
    (fun s => decide (∃ x ∈ s.returned, x.outcomes = [.throws, .fails, .fails] ∧ x.adds = 2))
    (by decide +kernel)
  obtain ⟨x, member, outcomes, adds⟩ := of_decide_eq_true found
  exact ⟨s, run, x, member, outcomes, adds, await_ends_well.1 _ s run x member,
    (await_ends_well.2 s run).1 x member⟩

/-- Thread `zero` waits after its condition has failed twice, the threads up to `k` have
registered, and nobody has notified. -/
structure Crowd (N k : ℕ) (zero : Fin N) (s : State (Fin N) Outcome Unit Ending) : Prop where
  run : Reachable (system await fun _ => True) s
  client : ∃ c, s.client zero = .wait c () ∧
    c.evals = [⟨.fails, some 0, 0⟩, ⟨.fails, none, 0⟩]
  pc : ∃ w, s.ec.pc zero = .ready w ∧ w.key = 0
  others : ∀ q, k < q.val → s.client q = .out ∧ s.ec.pc q = .idle
  val : s.ec.val = BitVec.ofNat 64 (k + 1)
  notifies : s.ec.notifies = 0

section Limit

variable {N : ℕ} {zero : Fin N}

theorem crowd_start (isZero : zero.val = 0) : ∃ s, Crowd N 0 zero s := by
  obtain ⟨s1, call⟩ := takes_call await (s := State.init) (p := zero) rfl rfl
  obtain ⟨s2, first⟩ := takes_first await (o := .fails) call.client call.pc rfl
  obtain ⟨s3, prepare⟩ := takes_prepareWait await first.client first.pc
  obtain ⟨s4, again⟩ := takes_again await (o := .fails) prepare.client prepare.pc rfl
  have run1 : Reachable (system await fun _ => True) s1 := call.reach (.init rfl) trivial
  have run2 := first.reach run1 trivial
  have run3 := prepare.reach run2 trivial
  have run4 := again.reach run3 trivial
  have notifies1 : s1.ec.notifies = 0 := call.notifies
  have notifies2 : s2.ec.notifies = 0 := first.notifies.trans notifies1
  have notifies3 : s3.ec.notifies = 0 := prepare.notifies.trans notifies2
  have val2 : s2.ec.val = 0 := first.val.trans call.val
  refine ⟨s4, run4, ⟨_, again.client, ?_⟩, ⟨_, again.pc, ?_⟩, fun q after => ?_, ?_,
    again.notifies.trans notifies3⟩
  · simp only [Call.evaluated, Call.added, notifies1, notifies2, notifies3]
  · show (s2.ec.val >>> kEpochShift).setWidth 32 = 0
    rw [val2]
    decide
  · have other : q ≠ zero := fun same => by omega
    obtain ⟨client1, pc1⟩ := call.others q other
    obtain ⟨client2, pc2⟩ := first.others q other
    obtain ⟨client3, pc3⟩ := prepare.others q other
    obtain ⟨client4, pc4⟩ := again.others q other
    rw [client4, client3, client2, client1, pc4, pc3, pc2, pc1]
    exact ⟨rfl, rfl⟩
  · rw [again.val, prepare.val, val2]
    decide

theorem crowd_next {k : ℕ} {s : State (Fin N) Outcome Unit Ending} (isZero : zero.val = 0)
    (crowd : Crowd N k zero s) (room : k + 1 < N) : ∃ s', Crowd N (k + 1) zero s' := by
  obtain ⟨run, client, pc, others, val, notifies⟩ := crowd
  obtain ⟨out, idle⟩ := others ⟨k + 1, room⟩ (Nat.lt_succ_self k)
  obtain ⟨s', w, register⟩ := takes_register await out idle
  have apart : zero ≠ ⟨k + 1, room⟩ := fun same => by
    rw [same] at isZero
    cases isZero
  obtain ⟨clientZero, pcZero⟩ := register.others zero apart
  refine ⟨s', register.reach run trivial, ?_, ?_, fun q after => ?_, ?_,
    register.notifies.trans notifies⟩
  · rw [clientZero]
    exact client
  · rw [pcZero]
    exact pc
  · have other : q ≠ ⟨k + 1, room⟩ := fun same => by
      rw [same] at after
      exact lt_irrefl _ after
    obtain ⟨clientQ, pcQ⟩ := register.others q other
    rw [clientQ, pcQ]
    exact others q (Nat.lt_of_succ_lt after)
  · rw [register.val, val]
    exact (BitVec.ofNat_add (k + 1) 1).symm

theorem crowd_reached (isZero : zero.val = 0) : ∀ k < N, ∃ s, Crowd N k zero s := by
  intro k
  induction k with
  | zero => exact fun _ => crowd_start isZero
  | succ k ih =>
      intro room
      obtain ⟨s, crowd⟩ := ih (Nat.lt_of_succ_lt room)
      exact crowd_next isZero crowd room

end Limit

/-- When `2^32` threads are registered the waiter count has run into the epoch: the first
of them leaves its wait, and evaluates its condition again, without any notify. -/
theorem await_without_notify :
    ¬ ∀ s : State (Fin (2 ^ 32)) Outcome Unit Ending, Reachable (system await fun _ => True) s →
      ∀ x ∈ s.returned, EndsWell x ∧ NotifiedBetween x.evals := by
  intro always
  obtain ⟨k, limit⟩ : ∃ k, k + 1 = 2 ^ 32 := ⟨2 ^ 32 - 1, rfl⟩
  have first : (⟨0, Nat.two_pow_pos 32⟩ : Fin (2 ^ 32)).val = 0 := rfl
  obtain ⟨s, run, ⟨c, client, evals⟩, ⟨w, pc, key⟩, _, val, notifies⟩ :=
    crowd_reached first k (by omega)
  rw [limit] at val
  obtain ⟨s1, load⟩ := takes_load await client pc (by rw [val, key]; decide)
  obtain ⟨s2, leave⟩ := takes_leave await load.client load.pc
  obtain ⟨s3, prepare⟩ := takes_prepareWait await leave.client leave.pc
  obtain ⟨s4, exit⟩ := takes_exit await (o := .holds) prepare.client prepare.pc rfl
  obtain ⟨s5, cancel, member⟩ := takes_cancelWait await exit.client exit.pc
  have run1 := load.reach run trivial
  have run2 := leave.reach run1 trivial
  have run3 := prepare.reach run2 trivial
  have run4 := exit.reach run3 trivial
  have run5 : Reachable (system await fun _ => True) s5 := run4.step ⟨⟨_, _, cancel⟩, trivial⟩
  obtain ⟨_, between⟩ := always s5 run5 _ member
  have none_ : s3.ec.notifies = 0 := by
    rw [prepare.notifies, leave.notifies, load.notifies, notifies]
  simp only [NotifiedBetween, Call.evaluated, Call.added, Call.subtracted, evals, none_,
    List.dropLast, List.isChain_cons_cons] at between
  obtain ⟨⟨n, isPrepared, less⟩, _⟩ := between
  exact Nat.not_lt_zero n less

end Await

end Elcrq.Waiting
