import Elcrq.EventCount
import Mathlib.Data.List.Chain

/-! # Loops that wait on an event count

`dequeue` of `SCRQueue.hpp` and `await` of `EventCount.hpp` have one shape.  Something
is evaluated; if that does not settle the call, each round calls `prepareWait`,
evaluates again, and either calls `cancelWait` and leaves or calls `wait` with the key
and goes round.  `wait` is the `await` of the event count, which `EventCount.hpp` has
step for step as `EventCount.h`.  What an evaluation gives is arbitrary, and a thread
outside such a call may do with the event count whatever its protocol allows. -/

set_option autoImplicit false

namespace Elcrq.WaitLoop

open Concurrent EventCount

/-- What the code does after an evaluation. -/
inductive Next (L R : Type)
  | again (locals : L)
  | exit (result : R)

/-- The tests of a loop: on the evaluation before it and on those inside it. -/
structure Loop (O L R : Type) where
  first : O → Next L R
  inside : L → O → Next L R

/-- An evaluation, for the record: what it gave, how many notifies there had been at the
`prepareWait` before it, if there was one, and how many when it was made. -/
structure Eval (O : Type) where
  outcome : O
  prepared : Option ℕ
  made : ℕ

/-- What a call has done, for the record: its evaluations, the latest first, and how
often it has added to and subtracted from the waiter count. -/
structure Call (O : Type) where
  start : ℕ
  evals : List (Eval O)
  adds : ℕ
  subs : ℕ

/-- Where a thread is in a call.  Inside `wait` the event count has the details. -/
inductive Client (O L R : Type)
  | out
  | first (c : Call O)
  | prepare (c : Call O) (l : L)
  | evaluate (c : Call O) (l : L)
  | wait (c : Call O) (l : L)
  | cancel (c : Call O) (r : R)

def Client.call {O L R : Type} : Client O L R → Option (Call O)
  | .out => none
  | .first c | .prepare c _ | .evaluate c _ | .wait c _ | .cancel c _ => some c

/-- A call that is over, with the number of notifies at its return. -/
structure Returned (O R : Type) extends Call O where
  result : R
  finish : ℕ

structure State (T O L R : Type) where
  ec : EventCount.State T
  client : T → Client O L R
  returned : List (Returned O R)

inductive Act (T O : Type)
  | call
  | eval (o : O)
  | run
  | wakeUp
  | other (a : EventCount.Act T)

def Call.evaluated {O : Type} (c : Call O) (e : Eval O) : Call O := { c with evals := e :: c.evals }

def Call.added {O : Type} (c : Call O) : Call O := { c with adds := c.adds + 1 }

def Call.subtracted {O : Type} (c : Call O) : Call O := { c with subs := c.subs + 1 }

def Call.outcomes {O : Type} (c : Call O) : List O := c.evals.map Eval.outcome

/-- The next step inside `wait`. -/
def waitAct (T : Type) : Pc → EventCount.Act T
  | .ready _ => .await
  | _ => .run

theorem waitAct_cases {T : Type} {pc : Pc} {a : EventCount.Act T}
    (act : a = waitAct T pc ∨ a = .wakeUp) : a = .await ∨ a = .run ∨ a = .wakeUp := by
  rcases act with rfl | rfl
  · unfold waitAct
    split
    · exact Or.inl rfl
    · exact Or.inr (Or.inl rfl)
  · exact Or.inr (Or.inr rfl)

section Steps

variable {T O L R : Type} [DecidableEq T] [Fintype T]

def State.goto (s : State T O L R) (p : T) (c : Client O L R) : State T O L R :=
  { s with client := Function.update s.client p c }

omit [Fintype T] in
theorem State.goto_self {s : State T O L R} {p : T} {c : Client O L R} :
    (s.goto p c).client p = c := Function.update_self ..

omit [Fintype T] in
theorem State.goto_other {s : State T O L R} {p q : T} {c : Client O L R} (other : q ≠ p) :
    (s.goto p c).client q = s.client q := Function.update_of_ne other ..

def State.finish (s : State T O L R) (p : T) (c : Call O) (r : R) : State T O L R :=
  { s with returned := ⟨c, r, s.ec.notifies⟩ :: s.returned }.goto p .out

def step (loop : Loop O L R) (s : State T O L R) (p : T) : Act T O → Option (State T O L R)
  | .call =>
      match s.client p, s.ec.pc p with
      | .out, .idle => some (s.goto p (.first ⟨s.ec.notifies, [], 0, 0⟩))
      | _, _ => none
  | .eval o =>
      match s.client p with
      | .first c =>
          match loop.first o with
          | .again l => some (s.goto p (.prepare (c.evaluated ⟨o, none, s.ec.notifies⟩) l))
          | .exit r => some (s.finish p (c.evaluated ⟨o, none, s.ec.notifies⟩) r)
      | .evaluate c l =>
          let e : Eval O := ⟨o, (s.ec.pc p).wait.map Wait.since, s.ec.notifies⟩
          match loop.inside l o with
          | .again l => some (s.goto p (.wait (c.evaluated e) l))
          | .exit r => some (s.goto p (.cancel (c.evaluated e) r))
      | _ => none
  | .run =>
      match s.client p with
      | .prepare c l => (EventCount.step s.ec p .prepareWait).map fun ec =>
          { s with ec := ec }.goto p (.evaluate c.added l)
      | .cancel c r => (EventCount.step s.ec p .cancelWait).map fun ec =>
          { s with ec := ec }.finish p c.subtracted r
      | .wait c l => (EventCount.step s.ec p (waitAct T (s.ec.pc p))).map fun ec =>
          match ec.pc p with
          | .idle => { s with ec := ec }.goto p (.prepare c.subtracted l)
          | _ => { s with ec := ec }
      | _ => none
  | .wakeUp =>
      match s.client p with
      | .wait _ _ => (EventCount.step s.ec p .wakeUp).map fun ec => { s with ec := ec }
      | _ => none
  | .other a =>
      match s.client p with
      | .out => (EventCount.step s.ec p a).map fun ec => { s with ec := ec }
      | _ => none

def State.init : State T O L R where
  ec := EventCount.State.init
  client := fun _ => .out
  returned := []

/-- Fewer than `2^32` threads are registered. -/
def FewWaiters (s : State T O L R) : Prop := s.ec.registered.card < 2 ^ 32

/-- The runs whose states all meet `few`. -/
def system (loop : Loop O L R) (few : State T O L R → Prop) : System (State T O L R) where
  init := fun s => s = State.init
  step := fun s s' => (∃ p a, step loop s p a = some s') ∧ few s'

end Steps

/-! ## What a step does -/

section Goes

variable {T O L R : Type} [DecidableEq T] [Fintype T] {loop : Loop O L R} {s s' : State T O L R}
  {p : T}

theorem step_leave {ec ec' : EventCount.State T} {a : EventCount.Act T} {w : Wait}
    (leaves : ec.pc p = .leave w) (act : a = waitAct T (ec.pc p) ∨ a = .wakeUp)
    (next : EventCount.step ec p a = some ec') : ec'.pc p = .idle := by
  rw [leaves] at act
  rcases act with rfl | rfl
  · simp only [waitAct, EventCount.step, leaves] at next
    obtain rfl := Option.some.inj next
    exact EventCount.State.goto_self
  · simp only [EventCount.step, leaves] at next
    cases next

/-- Everything that one step of thread `p` can do. -/
inductive Goes (loop : Loop O L R) (s : State T O L R) (p : T) : State T O L R → Prop
  | call : s.client p = .out → Goes loop s p (s.goto p (.first ⟨s.ec.notifies, [], 0, 0⟩))
  | first (c : Call O) (o : O) (l : L) : s.client p = .first c → loop.first o = .again l →
      Goes loop s p (s.goto p (.prepare (c.evaluated ⟨o, none, s.ec.notifies⟩) l))
  | firstExit (c : Call O) (o : O) (r : R) : s.client p = .first c → loop.first o = .exit r →
      Goes loop s p (s.finish p (c.evaluated ⟨o, none, s.ec.notifies⟩) r)
  | prepare (c : Call O) (l : L) (ec : EventCount.State T) : s.client p = .prepare c l →
      EventCount.step s.ec p .prepareWait = some ec →
      Goes loop s p ({ s with ec := ec }.goto p (.evaluate c.added l))
  | again (c : Call O) (l : L) (o : O) (l' : L) : s.client p = .evaluate c l →
      loop.inside l o = .again l' →
      Goes loop s p (s.goto p (.wait
        (c.evaluated ⟨o, (s.ec.pc p).wait.map Wait.since, s.ec.notifies⟩) l'))
  | exit (c : Call O) (l : L) (o : O) (r : R) : s.client p = .evaluate c l →
      loop.inside l o = .exit r →
      Goes loop s p (s.goto p (.cancel
        (c.evaluated ⟨o, (s.ec.pc p).wait.map Wait.since, s.ec.notifies⟩) r))
  | cancel (c : Call O) (r : R) (ec : EventCount.State T) : s.client p = .cancel c r →
      EventCount.step s.ec p .cancelWait = some ec →
      Goes loop s p ({ s with ec := ec }.finish p c.subtracted r)
  | waiting (c : Call O) (l : L) (a : EventCount.Act T) (ec : EventCount.State T) :
      s.client p = .wait c l → a = waitAct T (s.ec.pc p) ∨ a = .wakeUp →
      EventCount.step s.ec p a = some ec → ec.pc p ≠ .idle → Goes loop s p { s with ec := ec }
  | left (c : Call O) (l : L) (ec : EventCount.State T) : s.client p = .wait c l →
      EventCount.step s.ec p (waitAct T (s.ec.pc p)) = some ec → ec.pc p = .idle →
      Goes loop s p ({ s with ec := ec }.goto p (.prepare c.subtracted l))
  | other (a : EventCount.Act T) (ec : EventCount.State T) : s.client p = .out →
      EventCount.step s.ec p a = some ec → Goes loop s p { s with ec := ec }

theorem step_goes {a : Act T O} (next : step loop s p a = some s') : Goes loop s p s' := by
  cases a with
  | call =>
      simp only [step] at next
      split at next
      next out idle =>
        cases next
        exact .call out
      next => cases next
  | eval o =>
      simp only [step] at next
      split at next
      next c here =>
        split at next
        next l test =>
          cases next
          exact .first c o l here test
        next r test =>
          cases next
          exact .firstExit c o r here test
      next c l here =>
        split at next
        next l' test =>
          cases next
          exact .again c l o l' here test
        next r test =>
          cases next
          exact .exit c l o r here test
      next => cases next
  | run =>
      simp only [step] at next
      split at next
      next c l here =>
        obtain ⟨ec, taken, rfl⟩ := Option.map_eq_some_iff.mp next
        exact .prepare c l ec here taken
      next c r here =>
        obtain ⟨ec, taken, rfl⟩ := Option.map_eq_some_iff.mp next
        exact .cancel c r ec here taken
      next c l here =>
        obtain ⟨ec, taken, after⟩ := Option.map_eq_some_iff.mp next
        split at after
        next idle =>
          subst after
          exact .left c l ec here taken idle
        next busy =>
          subst after
          exact .waiting c l _ ec here (Or.inl rfl) taken busy
      next => cases next
  | wakeUp =>
      simp only [step] at next
      split at next
      next c l here =>
        obtain ⟨ec, taken, rfl⟩ := Option.map_eq_some_iff.mp next
        refine .waiting c l _ ec here (Or.inr rfl) taken ?_
        simp only [EventCount.step] at taken
        split at taken <;> cases taken
        simp [EventCount.State.goto]
      next => cases next
  | other a =>
      simp only [step] at next
      split at next
      next here =>
        obtain ⟨ec, taken, rfl⟩ := Option.map_eq_some_iff.mp next
        exact .other a ec here taken
      next => cases next

end Goes

/-! ## The tests that were passed, and the balance -/

section Balance

variable {T O L R : Type} {loop : Loop O L R}

/-- The evaluations, latest first, have brought the loop to its local state. -/
inductive Loop.Ran (loop : Loop O L R) : List O → L → Prop
  | first {o : O} {l : L} : loop.first o = .again l → loop.Ran [o] l
  | inside {o : O} {os : List O} {l l' : L} : loop.Ran os l → loop.inside l o = .again l' →
      loop.Ran (o :: os) l'

/-- The last of the evaluations has ended the call. -/
inductive Loop.Exits (loop : Loop O L R) : List O → R → Prop
  | first {o : O} {r : R} : loop.first o = .exit r → loop.Exits [o] r
  | inside {o : O} {os : List O} {l : L} {r : R} : loop.Ran os l → loop.inside l o = .exit r →
      loop.Exits (o :: os) r

/-- How far a call is, and by how much its additions are ahead. -/
def Client.Fits (loop : Loop O L R) : Client O L R → Prop
  | .out => True
  | .first c => c.evals = [] ∧ c.adds = c.subs
  | .prepare c l => loop.Ran c.outcomes l ∧ c.adds = c.subs
  | .evaluate c l | .wait c l => loop.Ran c.outcomes l ∧ c.adds = c.subs + 1
  | .cancel c r => loop.Exits c.outcomes r ∧ c.adds = c.subs + 1

structure Fitting (loop : Loop O L R) (s : State T O L R) : Prop where
  client : ∀ p, (s.client p).Fits loop
  returned : ∀ x ∈ s.returned, loop.Exits x.outcomes x.result ∧ x.adds = x.subs

variable [DecidableEq T] [Fintype T] {s s' : State T O L R} {p : T}

omit [Fintype T] in
theorem Fitting.goto {c : Client O L R} (fitting : Fitting loop s) (fits : c.Fits loop) :
    Fitting loop (s.goto p c) := by
  refine ⟨fun q => ?_, fitting.returned⟩
  by_cases same : q = p
  · rw [same, State.goto_self]
    exact fits
  · rw [State.goto_other same]
    exact fitting.client q

omit [Fintype T] in
theorem Fitting.finish {c : Call O} {r : R} (fitting : Fitting loop s)
    (exits : loop.Exits c.outcomes r) (balanced : c.adds = c.subs) :
    Fitting loop (s.finish p c r) :=
  .goto ⟨fitting.client, List.forall_mem_cons.mpr ⟨⟨exits, balanced⟩, fitting.returned⟩⟩ trivial

theorem Fitting.goes (fitting : Fitting loop s) (goes : Goes loop s p s') : Fitting loop s' := by
  have here := fitting.client p
  have onEc : ∀ ec, Fitting loop { s with ec := ec } := fun _ => ⟨fitting.client, fitting.returned⟩
  cases goes with
  | call => exact fitting.goto ⟨rfl, rfl⟩
  | first c o l at_ test =>
      rw [at_] at here
      obtain ⟨none_, balanced⟩ := here
      refine fitting.goto ⟨?_, balanced⟩
      rw [Call.outcomes, Call.evaluated, none_]
      exact .first test
  | firstExit c o r at_ test =>
      rw [at_] at here
      obtain ⟨none_, balanced⟩ := here
      refine fitting.finish ?_ balanced
      rw [Call.outcomes, Call.evaluated, none_]
      exact .first test
  | prepare c l ec at_ =>
      rw [at_] at here
      exact (onEc ec).goto ⟨here.1, congrArg (· + 1) here.2⟩
  | again c l o l' at_ test =>
      rw [at_] at here
      exact fitting.goto ⟨.inside here.1 test, here.2⟩
  | exit c l o r at_ test =>
      rw [at_] at here
      exact fitting.goto ⟨.inside here.1 test, here.2⟩
  | cancel c r ec at_ =>
      rw [at_] at here
      exact (onEc ec).finish here.1 here.2
  | waiting c l a ec => exact onEc ec
  | left c l ec at_ =>
      rw [at_] at here
      exact (onEc ec).goto ⟨here.1, here.2⟩
  | other a ec => exact onEc ec

/-- A call that is over has ended with its last evaluation, and has subtracted from the
waiter count as often as it has added to it. -/
theorem returned_fits {few : State T O L R → Prop} (run : Reachable (system loop few) s) :
    Fitting loop s := by
  refine Reachable.invariant (I := Fitting loop) ?_ ?_ run
  · rintro s rfl
    exact ⟨fun _ => trivial, nofun⟩
  · rintro s s' fitting ⟨⟨p, a, next⟩, _⟩
    exact fitting.goes (step_goes next)

end Balance

/-! ## Notifies between the evaluations -/

section Pace

variable {T O L R : Type} {loop : Loop O L R}

/-- The later of two evaluations has a `prepareWait` before it, and between that of the
earlier one, if it has one, and the later evaluation there was a notify. -/
def Spaced (later earlier : Eval O) : Prop :=
  later.prepared.isSome ∧ ∀ n ∈ earlier.prepared, n < later.made

theorem spaced_inside {evals : List (Eval O)} (spaced : evals.IsChain Spaced) :
    evals.dropLast.IsChain fun later earlier => ∃ n, earlier.prepared = some n ∧ n < later.made := by
  induction evals with
  | nil => exact .nil
  | cons e2 rest ih =>
      cases rest with
      | nil => exact .nil
      | cons e1 rest =>
          obtain ⟨pair, tail⟩ := List.isChain_cons_cons.mp spaced
          cases rest with
          | nil => exact .singleton _
          | cons e0 rest =>
              obtain ⟨n, isPrepared⟩ := Option.isSome_iff_exists.mp (List.isChain_cons_cons.mp tail).1.1
              exact List.isChain_cons_cons.mpr ⟨⟨n, isPrepared, pair.2 n isPrepared⟩, ih tail⟩

/-- The evaluations are spaced, one made now would be, and there was a notify for every
wait. -/
structure Call.Paced (c : Call O) (now : ℕ) : Prop where
  spaced : c.evals.IsChain Spaced
  latest : ∀ e ∈ c.evals.head?, ∀ n ∈ e.prepared, n < now
  counted : c.start + c.evals.length ≤ now + 1

theorem Call.Paced.mono {c : Call O} {now later : ℕ} (paced : c.Paced now) (le : now ≤ later) :
    c.Paced later where
  spaced := paced.spaced
  latest := fun e member n isPrepared => (paced.latest e member n isPrepared).trans_le le
  counted := paced.counted.trans (Nat.succ_le_succ le)

theorem Call.Paced.evaluated {c : Call O} {since now : ℕ} (paced : c.Paced since)
    (le : since ≤ now) (o : O) : (c.evaluated ⟨o, some since, now⟩).Paced (since + 1) where
  spaced := by
    refine List.isChain_cons.mpr ⟨fun e member => ⟨rfl, fun n isPrepared => ?_⟩, paced.spaced⟩
    exact (paced.latest e member n isPrepared).trans_le le
  latest := by
    intro e member n isPrepared
    cases member
    cases isPrepared
    exact Nat.lt_succ_self _
  counted := by
    have := paced.counted
    simp only [Call.evaluated, List.length_cons]
    omega

theorem Call.Paced.added {c : Call O} {now : ℕ} (paced : c.Paced now) : c.added.Paced now :=
  ⟨paced.spaced, paced.latest, paced.counted⟩

theorem Call.Paced.subtracted {c : Call O} {now : ℕ} (paced : c.Paced now) :
    c.subtracted.Paced now :=
  ⟨paced.spaced, paced.latest, paced.counted⟩

theorem Call.Paced.first {c : Call O} {now : ℕ} (none_ : c.evals = []) (le : c.start ≤ now)
    (o : O) : (c.evaluated ⟨o, none, now⟩).Paced now where
  spaced := by
    rw [Call.evaluated, none_]
    exact List.isChain_singleton _
  latest := by
    intro e member n isPrepared
    cases member
    cases isPrepared
  counted := by
    rw [Call.evaluated, none_]
    exact Nat.succ_le_succ le

/-- What a call has to show for the notifies there have been. -/
def Client.Timed (notifies : ℕ) : Client O L R → Pc → Prop
  | .out, _ => True
  | .first c, _ => c.evals = [] ∧ c.start ≤ notifies
  | .prepare c _, _ => c.Paced notifies
  | .evaluate c _, pc => ∃ w, pc.awaits = some w ∧ c.Paced w.since
  | .wait c _, pc => ∃ w, pc.awaits = some w ∧ c.Paced (w.since + 1)
  | .cancel c _, _ => c.Paced (notifies + 1)

theorem Client.Timed.mono {c : Client O L R} {pc pc' : Pc} {notifies later : ℕ}
    (timed : c.Timed notifies pc) (le : notifies ≤ later) (awaits : pc'.awaits = pc.awaits) :
    c.Timed later pc' := by
  cases c with
  | out => trivial
  | first c => exact ⟨timed.1, timed.2.trans le⟩
  | prepare c l => exact Call.Paced.mono timed le
  | cancel c r => exact Call.Paced.mono timed (Nat.succ_le_succ le)
  | evaluate c l | wait c l =>
      rw [Client.Timed, awaits]
      exact timed

theorem Client.Timed.spaced {c : Client O L R} {pc : Pc} {notifies : ℕ}
    (timed : c.Timed notifies pc) : ∀ call ∈ c.call, call.evals.IsChain Spaced := by
  intro call member
  cases c with
  | out => cases member
  | first c =>
      cases member
      rw [timed.1]
      exact .nil
  | prepare c l | cancel c l =>
      cases member
      exact Call.Paced.spaced timed
  | evaluate c l | wait c l =>
      cases member
      obtain ⟨w, _, paced⟩ := timed
      exact paced.spaced

variable [DecidableEq T] [Fintype T] {s s' : State T O L R} {p : T}

structure Timing (s : State T O L R) : Prop where
  ec : EventCount.Inv s.ec
  client : ∀ p, (s.client p).Timed s.ec.notifies (s.ec.pc p)
  returned : ∀ x ∈ s.returned, x.toCall.Paced (x.finish + 1)

theorem Timing.moved (timing : Timing s) (inv : EventCount.Inv s'.ec)
    (frame : s.ec.notifies ≤ s'.ec.notifies ∧ ∀ q, q ≠ p →
      (s'.ec.pc q).awaits = (s.ec.pc q).awaits)
    (others : ∀ q, q ≠ p → s'.client q = s.client q)
    (here : (s'.client p).Timed s'.ec.notifies (s'.ec.pc p))
    (returned : ∀ x ∈ s'.returned, x.toCall.Paced (x.finish + 1)) : Timing s' := by
  refine ⟨inv, fun q => ?_, returned⟩
  by_cases same : q = p
  · rw [same]
    exact here
  · rw [others q same]
    exact (timing.client q).mono frame.1 (frame.2 q same)

theorem Timing.goes (timing : Timing s) (few : FewWaiters s') (goes : Goes loop s p s') :
    Timing s' := by
  have here := timing.client p
  have still : s.ec.notifies ≤ s.ec.notifies ∧ ∀ q, q ≠ p →
      (s.ec.pc q).awaits = (s.ec.pc q).awaits := ⟨le_rfl, fun _ _ => rfl⟩
  have frame : ∀ {a ec}, EventCount.step s.ec p a = some ec → s.ec.notifies ≤ ec.notifies ∧
      ∀ q, q ≠ p → (ec.pc q).awaits = (s.ec.pc q).awaits := by
    intro a ec next
    refine ⟨step_notifies next, fun q other => ?_⟩
    rcases step_others next other with same | woken
    · rw [same]
    · rw [woken, Pc.woken_awaits]
  -- the wait of a thread began before now
  have began : ∀ {w}, (s.ec.pc p).awaits = some w → w.since ≤ s.ec.notifies := fun awaits =>
    (timing.ec.key p _ (Pc.wait_of_awaits awaits)).2
  cases goes with
  | call =>
      refine timing.moved timing.ec still (fun _ => State.goto_other) ?_ timing.returned
      rw [State.goto_self]
      exact ⟨rfl, le_rfl⟩
  | first c o l at_ =>
      rw [at_] at here
      refine timing.moved timing.ec still (fun _ => State.goto_other) ?_ timing.returned
      rw [State.goto_self]
      exact .first here.1 here.2 o
  | firstExit c o r at_ =>
      rw [at_] at here
      refine timing.moved timing.ec still (fun _ => State.goto_other) ?_
        (List.forall_mem_cons.mpr ⟨?_, timing.returned⟩)
      · rw [State.finish, State.goto_self]
        trivial
      · exact (Call.Paced.first here.1 here.2 o).mono (Nat.le_succ _)
  | prepare c l ec at_ next =>
      rw [at_] at here
      obtain ⟨w, ready, since, _⟩ := step_prepareWait next
      refine timing.moved (timing.ec.step few next) (frame next) (fun _ => State.goto_other) ?_
        timing.returned
      rw [State.goto_self]
      refine ⟨w, congrArg Pc.awaits ready, ?_⟩
      rw [since]
      exact Call.Paced.added here
  | again c l o l' at_ =>
      rw [at_] at here
      obtain ⟨w, awaits, paced⟩ := here
      refine timing.moved timing.ec still (fun _ => State.goto_other) ?_ timing.returned
      rw [State.goto_self, Pc.wait_of_awaits awaits]
      exact ⟨w, awaits, paced.evaluated (began awaits) o⟩
  | exit c l o r at_ =>
      rw [at_] at here
      obtain ⟨w, awaits, paced⟩ := here
      refine timing.moved timing.ec still (fun _ => State.goto_other) ?_ timing.returned
      rw [State.goto_self, Pc.wait_of_awaits awaits]
      exact (paced.evaluated (began awaits) o).mono (Nat.succ_le_succ (began awaits))
  | cancel c r ec at_ next =>
      rw [at_] at here
      refine timing.moved (timing.ec.step few next) (frame next) (fun _ => State.goto_other) ?_
        (List.forall_mem_cons.mpr ⟨?_, timing.returned⟩)
      · rw [State.finish, State.goto_self]
        trivial
      · exact (Call.Paced.subtracted here).mono (Nat.succ_le_succ (step_notifies next))
  | waiting c l a ec at_ act next busy =>
      rw [at_] at here
      obtain ⟨w, awaits, paced⟩ := here
      refine timing.moved (timing.ec.step few next) (frame next) (fun _ _ => rfl) ?_
        timing.returned
      rw [show (State.client { s with ec := ec } p) = .wait c l from at_]
      rcases step_awaits (waitAct_cases act) awaits next with inside | ⟨leaves, _⟩
      · exact ⟨w, inside, paced⟩
      · exact absurd (step_leave leaves act next) busy
  | left c l ec at_ next idle =>
      rw [at_] at here
      obtain ⟨w, awaits, paced⟩ := here
      refine timing.moved (timing.ec.step few next) (frame next) (fun _ => State.goto_other) ?_
        timing.returned
      rw [State.goto_self]
      rcases step_awaits (waitAct_cases (Or.inl rfl)) awaits next with inside | ⟨leaves, same⟩
      · rw [idle] at inside
        cases inside
      · -- the key was out of date
        have notified := timing.ec.left p w leaves
        refine Call.Paced.mono (Call.Paced.subtracted paced) ?_
        exact notified.trans_eq same.symm
  | other a ec at_ next =>
      refine timing.moved (timing.ec.step few next) (frame next) (fun _ _ => rfl) ?_
        timing.returned
      rw [show (State.client { s with ec := ec } p) = .out from at_]
      trivial

theorem returned_timed (run : Reachable (system loop FewWaiters) s) : Timing s := by
  refine Reachable.invariant (I := Timing) ?_ ?_ run
  · rintro s rfl
    exact ⟨inv_init, fun _ => trivial, nofun⟩
  · rintro s s' timing ⟨⟨p, a, next⟩, few⟩
    exact timing.goes few (step_goes next)

end Pace

/-! ## Steps that can be taken -/

section Takes

variable {T O L R : Type} [DecidableEq T] [Fintype T] (loop : Loop O L R) {s : State T O L R}
  {p : T} {c : Call O} {l : L}

/-- A step that brings thread `p` to `client` and `pc` and changes no other thread. -/
structure Takes (loop : Loop O L R) (s : State T O L R) (p : T) (a : Act T O)
    (client : Client O L R) (pc : Pc) (val : Word) (notifies : ℕ) (s' : State T O L R) : Prop where
  step : step loop s p a = some s'
  client : s'.client p = client
  pc : s'.ec.pc p = pc
  others : ∀ q, q ≠ p → s'.client q = s.client q ∧ s'.ec.pc q = s.ec.pc q
  val : s'.ec.val = val
  notifies : s'.ec.notifies = notifies

omit loop in
theorem Takes.reach {loop : Loop O L R} {few : State T O L R → Prop} {a : Act T O}
    {client : Client O L R} {pc : Pc} {val : Word} {notifies : ℕ} {s' : State T O L R}
    (takes : Takes loop s p a client pc val notifies s') (run : Reachable (system loop few) s)
    (isFew : few s') : Reachable (system loop few) s' := run.step ⟨⟨p, a, takes.step⟩, isFew⟩

theorem takes_goto {a : Act T O} {client : Client O L R}
    (taken : step loop s p a = some (s.goto p client)) :
    ∃ s', Takes loop s p a client (s.ec.pc p) s.ec.val s.ec.notifies s' :=
  ⟨_, taken, State.goto_self, rfl, fun _ other => ⟨State.goto_other other, rfl⟩, rfl, rfl⟩

theorem takes_ec {a : Act T O} {client : Client O L R} {pc : Pc} {val : Word} {notifies : ℕ}
    (waits : ℕ) (log : List EventCount.Event)
    (taken : step loop s p a = some ({ s with
      ec := EventCount.State.goto ⟨val, s.ec.pc, waits, notifies, log⟩ p pc }.goto p client)) :
    ∃ s', Takes loop s p a client pc val notifies s' :=
  ⟨_, taken, State.goto_self, EventCount.State.goto_self,
    fun _ other => ⟨State.goto_other other, EventCount.State.goto_other other⟩, rfl, rfl⟩

theorem takes_inside {a : Act T O} {pc : Pc} {val : Word} {notifies : ℕ}
    (waits : ℕ) (log : List EventCount.Event)
    (taken : step loop s p a = some { s with
      ec := EventCount.State.goto ⟨val, s.ec.pc, waits, notifies, log⟩ p pc }) :
    ∃ s', Takes loop s p a (s.client p) pc val notifies s' :=
  ⟨_, taken, rfl, EventCount.State.goto_self,
    fun _ other => ⟨rfl, EventCount.State.goto_other other⟩, rfl, rfl⟩

theorem takes_call (out : s.client p = .out) (idle : s.ec.pc p = .idle) :
    ∃ s', Takes loop s p .call (.first ⟨s.ec.notifies, [], 0, 0⟩) .idle s.ec.val
      s.ec.notifies s' := by
  rw [← idle]
  refine takes_goto loop ?_
  simp only [step, out, idle]

theorem takes_first {o : O} (client : s.client p = .first c) (idle : s.ec.pc p = .idle)
    (test : loop.first o = .again l) :
    ∃ s', Takes loop s p (.eval o) (.prepare (c.evaluated ⟨o, none, s.ec.notifies⟩) l) .idle
      s.ec.val s.ec.notifies s' := by
  rw [← idle]
  refine takes_goto loop ?_
  simp only [step, client, test]

theorem takes_prepareWait (client : s.client p = .prepare c l) (idle : s.ec.pc p = .idle) :
    ∃ s', Takes loop s p .run (.evaluate c.added l)
      (.ready ⟨s.ec.waits, (s.ec.val >>> kEpochShift).setWidth 32, s.ec.notifies⟩)
      (s.ec.val + kAddWaiter) s.ec.notifies s' := by
  refine takes_ec loop (s.ec.waits + 1) (.prepared s.ec.waits :: s.ec.log) ?_
  simp only [step, client, EventCount.step, idle, Option.map_some]

theorem takes_again {o : O} {w : Wait} {l' : L} (client : s.client p = .evaluate c l)
    (ready : s.ec.pc p = .ready w) (test : loop.inside l o = .again l') :
    ∃ s', Takes loop s p (.eval o) (.wait (c.evaluated ⟨o, some w.since, s.ec.notifies⟩) l')
      (.ready w) s.ec.val s.ec.notifies s' := by
  rw [← ready]
  refine takes_goto loop ?_
  simp only [step, client, test, ready, Pc.wait, Option.map_some]

theorem takes_exit {o : O} {w : Wait} {r : R} (client : s.client p = .evaluate c l)
    (ready : s.ec.pc p = .ready w) (test : loop.inside l o = .exit r) :
    ∃ s', Takes loop s p (.eval o) (.cancel (c.evaluated ⟨o, some w.since, s.ec.notifies⟩) r)
      (.ready w) s.ec.val s.ec.notifies s' := by
  rw [← ready]
  refine takes_goto loop ?_
  simp only [step, client, test, ready, Pc.wait, Option.map_some]

theorem takes_load {w : Wait} (client : s.client p = .wait c l) (ready : s.ec.pc p = .ready w)
    (late : s.ec.val >>> kEpochShift ≠ w.key.setWidth 64) :
    ∃ s', Takes loop s p .run (.wait c l) (.leave w) s.ec.val s.ec.notifies s' := by
  rw [← client]
  refine takes_inside loop s.ec.waits s.ec.log ?_
  simp only [step, client, ready, waitAct, EventCount.step, EventCount.State.load, if_neg late,
    Option.map_some, EventCount.State.goto_self]

theorem takes_leave {w : Wait} (client : s.client p = .wait c l) (leave : s.ec.pc p = .leave w) :
    ∃ s', Takes loop s p .run (.prepare c.subtracted l) .idle (s.ec.val + kSubWaiter)
      s.ec.notifies s' := by
  refine takes_ec loop s.ec.waits (.returned w.id :: s.ec.log) ?_
  simp only [step, client, leave, waitAct, EventCount.step, Option.map_some,
    EventCount.State.goto_self]

theorem takes_cancelWait {w : Wait} {r : R} (client : s.client p = .cancel c r)
    (ready : s.ec.pc p = .ready w) :
    ∃ s', step loop s p .run = some s' ∧ ⟨c.subtracted, r, s.ec.notifies⟩ ∈ s'.returned := by
  have recorded : ∀ val, ⟨c.subtracted, r, s.ec.notifies⟩ ∈ ({ s with
      ec := EventCount.State.goto ⟨val, s.ec.pc, s.ec.waits, s.ec.notifies, s.ec.log⟩ p
        .idle }.finish p c.subtracted r).returned := fun _ => List.mem_cons_self
  refine ⟨_, ?_, recorded (s.ec.val + kSubWaiter)⟩
  simp only [step, client, ready, EventCount.step, Option.map_some]

theorem takes_register (out : s.client p = .out) (idle : s.ec.pc p = .idle) :
    ∃ s' w, Takes loop s p (.other .prepareWait) .out (.ready w) (s.ec.val + kAddWaiter)
      s.ec.notifies s' := by
  have taken : ∃ s', Takes loop s p (.other .prepareWait) (s.client p)
      (.ready ⟨s.ec.waits, (s.ec.val >>> kEpochShift).setWidth 32, s.ec.notifies⟩)
      (s.ec.val + kAddWaiter) s.ec.notifies s' := by
    refine takes_inside loop (s.ec.waits + 1) (.prepared s.ec.waits :: s.ec.log) ?_
    simp only [step, out, EventCount.step, idle, Option.map_some]
  obtain ⟨s', takes⟩ := taken
  rw [out] at takes
  exact ⟨s', _, takes⟩

end Takes

end Elcrq.WaitLoop
