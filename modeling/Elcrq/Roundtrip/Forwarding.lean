import Elcrq.Roundtrip.Calls

/-! # What is passed on

`main` gives the threads `queue23` as their `q21`, so a sender may take an item
that is on its way to a receiver; and an intermediate passes on what `spinDequeue`
returned, `EMPTY` included.  Both need an intermediate that runs its loop at least
once. -/

set_option autoImplicit false

namespace Elcrq.Roundtrip

open Concurrent

variable {c : Config}

/-- Every item that a sender received has made the round trip. -/
def RepliesOnly (c : Config) : Prop :=
  ∀ s, Reachable (system c) s → ∀ x ∈ s.got, x.RoundTrip

/-- No call of `enqueue` or `spinEnqueue` gets `EMPTY`. -/
def NeverEnqueuesEmpty (c : Config) : Prop :=
  ∀ s, Reachable (system c) s → ∀ p, (s.pc p).enqueues ≠ some EMPTY

/-! ## Some intermediate runs its loop -/

section Forwards

/-- Item `k`, on its way to a receiver. -/
def forwarded (k : ℕ) : Item :=
  ⟨k, [.put .intermediate .q23, .took .intermediate .q12, .put .sender .q12]⟩

/-- The threads with number `i` are about to begin iteration `k`, and all queues are empty. -/
structure Ready (i : Fin c.numThread) (k : ℕ) (s : State c.numThread) : Prop where
  pc : ∀ role, s.pc (role, i) = .iter 0 k
  queue : s.queue = fun _ => []
  awake : Awake s

/-- The sender has sent item `k` and the intermediate has put it on `q23`. -/
structure Forwarded (i : Fin c.numThread) (k : ℕ) (s : State c.numThread) : Prop where
  sender : s.pc (.sender, i) = .body ⟨0, k, [.spinDequeue .q21], EMPTY⟩
  intermediate : s.pc (.intermediate, i) = .body ⟨0, k, [.spinDequeue .q32, .spinEnqueue .deq .q21],
    some ⟨k, [.took .intermediate .q12, .put .sender .q12]⟩⟩
  receiver : s.pc (.receiver, i) = .iter 0 k
  queue : s.queue = Function.update (fun _ => []) QueueId.queue23 [some (forwarded k)]
  awake : Awake s

variable {i : Fin c.numThread} {k : ℕ} {s : State c.numThread}

theorem role_apart {role role' : Role} (other : role ≠ role') :
    ((role, i) : Thread c.numThread) ≠ (role', i) := fun same => other (Prod.mk.inj same).1

theorem Ready.forward (ready : Ready i k s) (more : k + 1 < c.numIters) :
    ∃ s', Steps c s s' ∧ Forwarded i k s' := by
  -- the sender enqueues `k`
  obtain ⟨s1, enter⟩ := does_iter (ready.pc .sender) (show k < c.numIters by omega)
  obtain ⟨s2, send⟩ := does_enqueue (enter.awake ready.awake rfl) enter.self
  have byS := enter.trans send
  have awake2 := byS.awake ready.awake rfl
  -- the intermediate takes it and puts it on `q23`
  obtain ⟨s3, enterI⟩ := does_iter (s := s2) (p := (.intermediate, i)) (j := 0) (k := k)
    (by rw [byS.others (role_apart (by decide)), ready.pc]) (show k < c.numIters - 1 by omega)
  have queue3 : s3.queue = Function.update (fun _ => []) QueueId.queue12
      [some ⟨k, [.put .sender .q12]⟩] := by
    rw [enterI.queue, byS.queue, enter.queue, ready.queue]
    rfl
  have head : s3.queue .queue12 = some ⟨k, [.put .sender .q12]⟩ :: [] := by
    rw [queue3]
    rfl
  obtain ⟨s4, take⟩ := does_dequeue enterI.self head
  obtain ⟨s5, pass⟩ := does_enqueue (take.awake (enterI.awake awake2 rfl) rfl) take.self
  have byI := enterI.trans (take.trans pass)
  refine ⟨s5, byS.steps.trans byI.steps, ?_, byI.self, ?_, ?_, byI.awake awake2 rfl⟩
  · rw [byI.others (role_apart (by decide))]
    exact byS.self
  · rw [byI.others (role_apart (by decide)), byS.others (role_apart (by decide)), ready.pc]
  · rw [pass.queue, take.queue, queue3]
    funext q
    cases q <;> rfl

/-- The item goes on to the receiver, back over the intermediate and to the sender. -/
theorem Forwarded.comeBack (sent : Forwarded i k s) (more : k + 1 < c.numIters) :
    ∃ s', Steps c s s' ∧ Ready i (k + 1) s' := by
  -- the receiver passes it on to `q32`
  obtain ⟨s1, enter⟩ := does_iter sent.receiver (show k < c.numIters by omega)
  have head1 : s1.queue .queue23 = some (forwarded k) :: [] := by
    rw [enter.queue, sent.queue]
    rfl
  obtain ⟨s2, take⟩ := does_dequeue enter.self head1
  obtain ⟨s3, pass⟩ := does_spinEnqueue take.self
  obtain ⟨s4, endR⟩ := does_body_end pass.self
  have byR := enter.trans (take.trans (pass.trans endR))
  let returned : Item := (forwarded k).mark (.took .receiver .q23)
  have queue4 : s4.queue = Function.update (fun _ => []) QueueId.queue32
      [some (returned.mark (.put .receiver .q32))] := by
    rw [endR.queue, pass.queue, take.queue, enter.queue, sent.queue]
    funext q
    cases q <;> rfl
  -- the intermediate puts it on `q21`
  have atI : s4.pc (.intermediate, i) = _ :=
    (byR.others (role_apart (by decide))).trans sent.intermediate
  have head4 : s4.queue .queue32 = some (returned.mark (.put .receiver .q32)) :: [] := by
    rw [queue4]
    rfl
  obtain ⟨s5, takeI, _⟩ := does_spinDequeue atI head4
  obtain ⟨s6, passI⟩ := does_spinEnqueue takeI.self
  obtain ⟨s7, endI⟩ := does_body_end passI.self
  have byI := takeI.trans (passI.trans endI)
  let back : Item := (returned.mark (.put .receiver .q32)).mark (.took .intermediate .q32)
  have queue7 : s7.queue = Function.update (fun _ => []) QueueId.queue23
      [some (back.mark (.put .intermediate .q21))] := by
    rw [endI.queue, passI.queue, takeI.queue, queue4]
    funext q
    cases q <;> rfl
  -- the sender takes it
  have atS : s7.pc (.sender, i) = _ := ((byI.others (role_apart (by decide))).trans
    (byR.others (role_apart (by decide)))).trans sent.sender
  have head7 : s7.queue .queue23 = some (back.mark (.put .intermediate .q21)) :: [] := by
    rw [queue7]
    rfl
  obtain ⟨s8, takeS, _⟩ := does_spinDequeue atS head7
  obtain ⟨s9, endS⟩ := does_body_end takeS.self
  have byS := takeS.trans endS
  refine ⟨s9, byR.steps.trans (byI.steps.trans byS.steps), fun role => ?_, ?_, ?_⟩
  · cases role with
    | sender => exact byS.self
    | intermediate => exact (byS.others (role_apart (by decide))).trans byI.self
    | receiver =>
        exact ((byS.others (role_apart (by decide))).trans
          (byI.others (role_apart (by decide)))).trans byR.self
  · rw [endS.queue, takeS.queue, queue7]
    funext q
    cases q <;> rfl
  · exact byS.awake (byI.awake (byR.awake sent.awake rfl) rfl) rfl

theorem reaches_forwarded (threads : 0 < c.numThread) (runs : 0 < c.numRuns) (k : ℕ)
    (more : k + 1 < c.numIters) : ∃ i s, Reachable (system c) s ∧ Forwarded i k s := by
  obtain ⟨s0, run, started⟩ := reaches_started threads runs
  let i : Fin c.numThread := ⟨0, threads⟩
  have ready : ∀ k, k < c.numIters → ∃ s, Steps c s0 s ∧ Ready i k s := by
    intro k inside
    induction k with
    | zero =>
        refine ⟨s0, .refl, fun role => by rw [started.pc], started.queue, fun w => ?_⟩
        rw [started.pc]
        rfl
    | succ k ih =>
        obtain ⟨s, steps, ready⟩ := ih (by omega)
        obtain ⟨s1, out, sent⟩ := ready.forward inside
        obtain ⟨s2, back, again⟩ := sent.comeBack inside
        exact ⟨s2, steps.trans (out.trans back), again⟩
  obtain ⟨s, steps, ready⟩ := ready k (by omega)
  obtain ⟨s1, out, sent⟩ := ready.forward more
  exact ⟨i, s1, (run.later steps).later out, sent⟩

theorem not_repliesOnly (threads : 0 < c.numThread) (iters : 1 < c.numIters)
    (runs : 0 < c.numRuns) : ¬ RepliesOnly c := by
  intro replies
  obtain ⟨i, s, run, sent⟩ := reaches_forwarded threads runs 0 iters
  have head : s.queue .queue23 = some (forwarded 0) :: [] := by
    rw [sent.queue]
    rfl
  obtain ⟨s', does, got⟩ := does_spinDequeue sent.sender head
  obtain ⟨older, path, _⟩ := replies s' (run.later does.steps) _ (got rfl)
  have second := congrArg List.tail path
  cases second

theorem not_neverEnqueuesEmpty (threads : 0 < c.numThread) (runs : 0 < c.numRuns) (k : ℕ)
    (more : k + 1 < c.numIters) : ¬ NeverEnqueuesEmpty c := by
  intro never
  obtain ⟨i, s, run, sent⟩ := reaches_forwarded threads runs k more
  obtain ⟨s', does⟩ := does_giveUp sent.intermediate (by rw [sent.queue]; rfl)
  refine never s' (run.later does.steps) (.intermediate, i) ?_
  rw [does.self]
  rfl

end Forwards

/-! ## No intermediate runs its loop -/

section Inert

/-- No thread gets past the barrier, or the intermediates have no iteration to run. -/
def Config.Idle (c : Config) : Prop := c.numThread = 0 ∨ c.numIters ≤ 1 ∨ c.numRuns = 0

/-- Where a thread can be when no intermediate runs its loop: nothing comes out of
`queue23`, so a receiver stays in its first `dequeue`. -/
def Pc.Inert (c : Config) : Role → Pc → Prop
  | _, .run _ | _, .done => True
  | .intermediate, .barrier _ _ | .intermediate, .iter _ _ => c.numIters ≤ 1
  | _, .barrier _ _ | _, .iter _ _ => True
  | .sender, .body f => f.todo = sender ∨ f.todo = [.spinDequeue .q21] ∨ f.todo = []
  | .sender, .notify f _ => f.todo = [.spinDequeue .q21]
  | .sender, .spin f q _ => f.todo = [] ∧ q = .q21
  | .receiver, .body f => f.todo = receiver
  | .receiver, .deq _ q | .receiver, .prepareWait _ q | .receiver, .retry _ q _
  | .receiver, .await _ q _ | .receiver, .asleep _ q _ => q = .q23
  | _, _ => False

structure Inert (s : State c.numThread) : Prop where
  pc : ∀ p, (s.pc p).Inert c p.1
  queue23 : s.queue .queue23 = []
  got : s.got = []

variable {s s' : State c.numThread} {p : Thread c.numThread}

theorem Inert.goto {pc : Pc} (inert : Inert s) (own : pc.Inert c p.1) : Inert (s.goto p pc) := by
  refine ⟨fun w => ?_, inert.queue23, inert.got⟩
  by_cases same : w = p
  · subst same
    rw [State.goto_pc]
    exact own
  · have other : (s.goto p pc).pc w = s.pc w := Function.update_of_ne same ..
    rw [other]
    exact inert.pc w

theorem Inert.notify {q : QueueId} {woken : Option (Thread c.numThread)} (inert : Inert s)
    (notified : s.notify q woken = some s') : Inert s' := by
  have bumped : Inert { s with epoch := Function.update s.epoch q (s.epoch q + 1) } :=
    ⟨inert.pc, inert.queue23, inert.got⟩
  unfold State.notify at notified
  split at notified
  next =>
    split at notified <;> cases notified
    exact bumped
  next w =>
    split at notified
    next f q' key here =>
      split at notified <;> cases notified
      refine bumped.goto ?_
      have own := inert.pc w
      rw [here] at own
      generalize w.1 = role at own ⊢
      cases role <;> exact own
    next => cases notified

/-- A step of a thread that is not in a call. -/
theorem Inert.outside {woken : Option (Thread c.numThread)} (idle : c.Idle) (inert : Inert s)
    (taken : step c s p woken = some s')
    (outside : (∃ j, s.pc p = .run j) ∨ (∃ j gen, s.pc p = .barrier j gen) ∨
      ∃ j k, s.pc p = .iter j k) : Inert s' := by
  have own := inert.pc p
  have threads : c.numThread ≠ 0 := fun none_ => (none_ ▸ p.2).elim0
  have few : 0 < c.numRuns → c.numIters ≤ 1 := fun runs =>
    (idle.resolve_left threads).resolve_right runs.ne'
  rcases outside with ⟨j, here⟩ | ⟨j, gen, here⟩ | ⟨j, k, here⟩
  · simp only [step, here] at taken
    split at taken
    next runs =>
      have runs : 0 < c.numRuns := (Nat.zero_le j).trans_lt runs
      split at taken
      · cases taken
        refine Inert.goto ⟨inert.pc, inert.queue23, inert.got⟩ ?_
        generalize p.1 = role
        cases role <;> first | trivial | exact few runs
      · cases taken
        refine Inert.goto ⟨inert.pc, inert.queue23, inert.got⟩ ?_
        generalize p.1 = role
        cases role <;> first | trivial | exact few runs
    next =>
      cases taken
      exact inert.goto trivial
  · rw [here] at own
    simp only [step, here] at taken
    split at taken <;> cases taken
    refine inert.goto ?_
    generalize p.1 = role at own ⊢
    cases role <;> exact own
  · rw [here] at own
    simp only [step, here] at taken
    split at taken
    next more =>
      cases taken
      refine inert.goto ?_
      generalize p.1 = role at own more ⊢
      cases role with
      | sender => exact Or.inl rfl
      | intermediate =>
          have few : c.numIters ≤ 1 := own
          have more : k < c.numIters - 1 := more
          omega
      | receiver => exact rfl
    next =>
      cases taken
      exact inert.goto trivial

theorem Inert.sender {woken : Option (Thread c.numThread)} {i : Fin c.numThread} (inert : Inert s)
    (taken : step c s (.sender, i) woken = some s')
    (inside : (∃ f, s.pc (.sender, i) = .body f) ∨ (∃ f q, s.pc (.sender, i) = .notify f q) ∨
      ∃ f q patience, s.pc (.sender, i) = .spin f q patience) : Inert s' := by
  have own := inert.pc (.sender, i)
  rcases inside with ⟨f, here⟩ | ⟨f, q, here⟩ | ⟨f, q, patience, here⟩
  · rw [here] at own
    rcases own with todo | todo | todo
    · simp only [step, here, todo, Roundtrip.sender] at taken
      cases taken
      refine Inert.goto ⟨inert.pc, inert.queue23, inert.got⟩ rfl
    · simp only [step, here, todo] at taken
      cases taken
      exact inert.goto ⟨rfl, rfl⟩
    · simp only [step, here, todo] at taken
      cases taken
      exact inert.goto trivial
  · rw [here] at own
    simp only [step, here] at taken
    obtain ⟨s1, notified, rfl⟩ := Option.map_eq_some_iff.mp taken
    exact (inert.notify notified).goto (Or.inr (Or.inl own))
  · rw [here] at own
    obtain ⟨todo, rfl⟩ := own
    have nothing : s.deq (.sender, i) .q21 = (EMPTY, s) := deq_empty inert.queue23
    simp only [step, here, nothing] at taken
    split at taken
    · cases taken
      exact inert.goto ⟨todo, rfl⟩
    · cases taken
      refine Inert.goto ⟨inert.pc, inert.queue23, inert.got⟩ ?_
      exact Or.inr (Or.inr todo)

theorem Inert.receiver {woken : Option (Thread c.numThread)} {i : Fin c.numThread} (inert : Inert s)
    (taken : step c s (.receiver, i) woken = some s') {pc : Pc} (here : s.pc (.receiver, i) = pc)
    (own : pc.Inert c .receiver) (inside : ∀ j k, pc ≠ .run j ∧ pc ≠ .barrier j k ∧ pc ≠ .iter j k) :
    Inert s' := by
  have nothing : s.deq (.receiver, i) .q23 = (EMPTY, s) := deq_empty inert.queue23
  cases pc with
  | run j => exact absurd rfl (inside j 0).1
  | barrier j gen => exact absurd rfl (inside j gen).2.1
  | iter j k => exact absurd rfl (inside j k).2.2
  | body f =>
      have todo : f.todo = Roundtrip.receiver := own
      simp only [step, here, todo, Roundtrip.receiver] at taken
      cases taken
      exact inert.goto rfl
  | deq f q =>
      obtain rfl : q = .q23 := own
      simp only [step, here, nothing, if_true] at taken
      cases taken
      exact inert.goto rfl
  | prepareWait f q =>
      simp only [step, here] at taken
      cases taken
      exact inert.goto own
  | retry f q key =>
      obtain rfl : q = .q23 := own
      simp only [step, here, nothing, if_true] at taken
      cases taken
      exact inert.goto rfl
  | await f q key =>
      simp only [step, here] at taken
      split at taken <;> cases taken
      · exact inert.goto own
      · exact inert.goto own
  | asleep f q key => simp [step, here] at taken
  | done => simp [step, here] at taken
  | notify | spin | cancelWait => exact own.elim

theorem Inert.step {woken : Option (Thread c.numThread)} (idle : c.Idle) (inert : Inert s)
    (taken : step c s p woken = some s') : Inert s' := by
  have own := inert.pc p
  obtain ⟨role, i⟩ := p
  cases here : s.pc (role, i) with
  | run j => exact inert.outside idle taken (Or.inl ⟨j, here⟩)
  | barrier j gen => exact inert.outside idle taken (Or.inr (Or.inl ⟨j, gen, here⟩))
  | iter j k => exact inert.outside idle taken (Or.inr (Or.inr ⟨j, k, here⟩))
  | done => simp [Roundtrip.step, here] at taken
  | body f =>
      rw [here] at own
      cases role with
      | sender => exact inert.sender taken (Or.inl ⟨f, here⟩)
      | intermediate => exact own.elim
      | receiver => exact inert.receiver taken here own (by simp)
  | notify f q =>
      rw [here] at own
      cases role with
      | sender => exact inert.sender taken (Or.inr (Or.inl ⟨f, q, here⟩))
      | intermediate | receiver => exact own.elim
  | spin f q patience =>
      rw [here] at own
      cases role with
      | sender => exact inert.sender taken (Or.inr (Or.inr ⟨f, q, patience, here⟩))
      | intermediate | receiver => exact own.elim
  | deq | prepareWait | retry | await | asleep | cancelWait =>
      rw [here] at own
      cases role with
      | sender | intermediate => exact own.elim
      | receiver => exact inert.receiver taken here own (by simp)

theorem reachable_inert (idle : c.Idle) (run : Reachable (system c) s) : Inert s := by
  refine Reachable.invariant (I := Inert) ?_ ?_ run
  · rintro s rfl
    exact ⟨fun _ => trivial, rfl, rfl⟩
  · rintro s s' inert ⟨p, woken, taken⟩
    exact inert.step idle taken

theorem Pc.Inert.enqueues {role : Role} {pc : Pc} (inert : pc.Inert c role) :
    pc.enqueues ≠ some EMPTY := by
  cases pc with
  | body f =>
      cases role with
      | sender =>
          rcases inert with todo | todo | todo <;>
            simp [Pc.enqueues, todo, Roundtrip.sender, Frame.arg, EMPTY]
      | intermediate => exact inert.elim
      | receiver =>
          have todo : f.todo = Roundtrip.receiver := inert
          simp [Pc.enqueues, todo, Roundtrip.receiver]
  | _ => nofun

end Inert

/-! ## Exactly when -/

theorem idle_or_runs (c : Config) :
    c.Idle ∨ (0 < c.numThread ∧ 1 < c.numIters ∧ 0 < c.numRuns) := by
  unfold Config.Idle
  omega

/-- Senders receive only items that have made the round trip if and only if no
intermediate runs its loop. -/
theorem repliesOnly_iff (c : Config) :
    RepliesOnly c ↔ c.numThread = 0 ∨ c.numIters ≤ 1 ∨ c.numRuns = 0 := by
  constructor
  · intro replies
    rcases idle_or_runs c with idle | ⟨threads, iters, runs⟩
    · exact idle
    · exact absurd replies (not_repliesOnly threads iters runs)
  · intro idle s run x member
    rw [(reachable_inert idle run).got] at member
    cases member

/-- With the numbers of `main.c`, a sender takes an item that no receiver has seen. -/
theorem sender_takes_forwarded : ¬ ∀ c, RepliesOnly c := fun replies =>
  not_repliesOnly (c := ⟨6, 100, 1⟩) (by decide) (by decide) (by decide) (replies _)

/-- `EMPTY` is never enqueued if and only if no intermediate runs its loop. -/
theorem neverEnqueuesEmpty_iff (c : Config) :
    NeverEnqueuesEmpty c ↔ c.numThread = 0 ∨ c.numIters ≤ 1 ∨ c.numRuns = 0 := by
  constructor
  · intro never
    rcases idle_or_runs c with idle | ⟨threads, iters, runs⟩
    · exact idle
    · exact absurd never (not_neverEnqueuesEmpty threads runs 0 iters)
  · intro idle s run p
    exact ((reachable_inert idle run).pc p).enqueues

/-- With the numbers of `main.c`, an intermediate enqueues `EMPTY` in its second iteration, after
item `0` has made the round trip. -/
theorem intermediate_enqueues_empty : ¬ ∀ c, NeverEnqueuesEmpty c := fun never =>
  not_neverEnqueuesEmpty (c := ⟨6, 100, 1⟩) (by decide) (by decide) 1 (by decide) (never _)

end Elcrq.Roundtrip
