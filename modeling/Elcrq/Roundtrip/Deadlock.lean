import Elcrq.Roundtrip.Calls

/-! # The round trip gets stuck

A receiver calls `dequeue` once more than an intermediate calls `enqueue`, and the
other items that come to `queue23` are those that senders take from `q21`.  So
there is a run for every choice of numbers: all items but the last of each sender
make the round trip, the senders give up on their last one, the intermediates are
through, and every receiver sleeps. -/

set_option autoImplicit false

namespace Elcrq.Roundtrip

open Concurrent

variable {c : Config}

/-! ## One round of three threads -/

section Rounds

/-- The three threads with number `i` have run from `s0` to `s`, and stand at `at_`. -/
structure Triple (i : Fin c.numThread) (s0 : State c.numThread) (at_ : Role → Pc)
    (queue : QueueId → List Object) (s : State c.numThread) : Prop where
  steps : Steps c s0 s
  pc : ∀ role, s.pc (role, i) = at_ role
  others : ∀ role i', i' ≠ i → s.pc (role, i') = s0.pc (role, i')
  queue : s.queue = queue
  awake : Awake s
  arrived : s.arrived = s0.arrived
  generation : s.generation = s0.generation

variable {i : Fin c.numThread} {s0 s s' : State c.numThread} {at_ : Role → Pc}
  {queue queue' : QueueId → List Object} {role : Role} {pc : Pc}

theorem Triple.does (triple : Triple i s0 at_ queue s) (does : Does c s (role, i) pc queue' s')
    (own : pc.asleepOn = none) : Triple i s0 (Function.update at_ role pc) queue' s' := by
  refine ⟨triple.steps.trans does.steps, fun role' => ?_, fun role' i' other => ?_, does.queue,
    does.awake triple.awake own, does.arrived.trans triple.arrived,
    does.generation.trans triple.generation⟩
  · by_cases same : role' = role
    · rw [same, does.self, Function.update_self]
    · rw [does.others (by simp [same]), Function.update_of_ne same, triple.pc]
  · rw [does.others (by simp [other]), triple.others role' i' other]

variable {j k : ℕ} {d : Object} {rest : List Op} {arg : Arg} {q : Param} {x : Item}
  {items : List Object}

variable (role) in
theorem Triple.iter (triple : Triple i s0 at_ queue s) (here : at_ role = .iter j k)
    (more : k < role.iterations c) :
    ∃ s', Triple i s0 (Function.update at_ role (.body ⟨j, k, role.body, EMPTY⟩)) queue s' := by
  obtain ⟨s', does⟩ := does_iter (p := (role, i)) ((triple.pc role).trans here) more
  rw [triple.queue] at does
  exact ⟨s', triple.does does rfl⟩

variable (role) in
theorem Triple.bodyEnd (triple : Triple i s0 at_ queue s) (here : at_ role = .body ⟨j, k, [], d⟩) :
    ∃ s', Triple i s0 (Function.update at_ role (.iter j (k + 1))) queue s' := by
  obtain ⟨s', does⟩ := does_body_end ((triple.pc role).trans here)
  rw [triple.queue] at does
  exact ⟨s', triple.does does rfl⟩

variable (role) in
theorem Triple.enqueue (triple : Triple i s0 at_ queue s)
    (here : at_ role = .body ⟨j, k, .enqueue arg q :: rest, d⟩) :
    ∃ s', Triple i s0 (Function.update at_ role (.body ⟨j, k, rest, d⟩))
      (Function.update queue (params q)
        (queue (params q) ++ [(Frame.arg ⟨j, k, [], d⟩ arg).mark (.put role q)])) s' := by
  obtain ⟨s', does⟩ := does_enqueue triple.awake ((triple.pc role).trans here)
  rw [triple.queue] at does
  exact ⟨s', triple.does does rfl⟩

variable (role) in
theorem Triple.spinEnqueue (triple : Triple i s0 at_ queue s)
    (here : at_ role = .body ⟨j, k, .spinEnqueue arg q :: rest, d⟩) :
    ∃ s', Triple i s0 (Function.update at_ role (.body ⟨j, k, rest, d⟩))
      (Function.update queue (params q)
        (queue (params q) ++ [(Frame.arg ⟨j, k, [], d⟩ arg).mark (.put role q)])) s' := by
  obtain ⟨s', does⟩ := does_spinEnqueue ((triple.pc role).trans here)
  rw [triple.queue] at does
  exact ⟨s', triple.does does rfl⟩

variable (role) in
theorem Triple.dequeue (triple : Triple i s0 at_ queue s)
    (here : at_ role = .body ⟨j, k, .dequeue q :: rest, d⟩)
    (head : queue (params q) = some x :: items) :
    ∃ s', Triple i s0 (Function.update at_ role (.body ⟨j, k, rest, some (x.mark (.took role q))⟩))
      (Function.update queue (params q) items) s' := by
  obtain ⟨s', does⟩ := does_dequeue ((triple.pc role).trans here) (by rw [triple.queue]; exact head)
  rw [triple.queue] at does
  exact ⟨s', triple.does does rfl⟩

variable (role) in
theorem Triple.spinDequeue (triple : Triple i s0 at_ queue s)
    (here : at_ role = .body ⟨j, k, .spinDequeue q :: rest, d⟩)
    (head : queue (params q) = some x :: items) :
    ∃ s', Triple i s0 (Function.update at_ role (.body ⟨j, k, rest, some (x.mark (.took role q))⟩))
      (Function.update queue (params q) items) s' := by
  obtain ⟨s', does, _⟩ := does_spinDequeue ((triple.pc role).trans here)
    (by rw [triple.queue]; exact head)
  rw [triple.queue] at does
  exact ⟨s', triple.does does rfl⟩

theorem Triple.round (triple : Triple i s0 (fun _ => .iter 0 k) (fun _ => []) s)
    (more : k < c.numIters - 1) :
    ∃ s', Triple i s0 (fun _ => .iter 0 (k + 1)) (fun _ => []) s' := by
  obtain ⟨s1, t1⟩ := triple.iter .sender rfl (show k < c.numIters by omega)
  obtain ⟨s2, t2⟩ := t1.enqueue .sender rfl
  obtain ⟨s3, t3⟩ := t2.iter .intermediate rfl more
  obtain ⟨s4, t4⟩ := t3.dequeue .intermediate rfl rfl
  obtain ⟨s5, t5⟩ := t4.enqueue .intermediate rfl
  obtain ⟨s6, t6⟩ := t5.iter .receiver rfl (show k < c.numIters by omega)
  obtain ⟨s7, t7⟩ := t6.dequeue .receiver rfl rfl
  obtain ⟨s8, t8⟩ := t7.spinEnqueue .receiver rfl
  obtain ⟨s9, t9⟩ := t8.bodyEnd .receiver rfl
  obtain ⟨s10, t10⟩ := t9.spinDequeue .intermediate rfl rfl
  obtain ⟨s11, t11⟩ := t10.spinEnqueue .intermediate rfl
  obtain ⟨s12, t12⟩ := t11.bodyEnd .intermediate rfl
  -- `q21` is `queue23`, and the receiver does not ask for the item in time
  obtain ⟨s13, t13⟩ := t12.spinDequeue .sender rfl rfl
  obtain ⟨s14, t14⟩ := t13.bodyEnd .sender rfl
  refine ⟨s14, t14.steps, fun role => ?_, t14.others, ?_, t14.awake, t14.arrived, t14.generation⟩
  · rw [t14.pc]
    cases role <;> rfl
  · rw [t14.queue]
    funext q
    cases q <;> rfl

theorem Triple.rounds (triple : Triple i s0 (fun _ => .iter 0 0) (fun _ => []) s) {n : ℕ}
    (few : n ≤ c.numIters - 1) :
    ∃ s', Triple i s0 (fun _ => .iter 0 n) (fun _ => []) s' := by
  induction n with
  | zero => exact ⟨s, triple⟩
  | succ n ih =>
      obtain ⟨s', before⟩ := ih (by omega)
      exact before.round few

/-- The threads with a number in `F` have one iteration left, the others all. -/
structure Rounded (F : Finset (Fin c.numThread)) (s : State c.numThread) : Prop where
  pc : ∀ p, s.pc p = .iter 0 (if p.2 ∈ F then c.numIters - 1 else 0)
  queue : s.queue = fun _ => []
  arrived : s.arrived = 0
  generation : s.generation = 1

theorem Rounded.advance {F : Finset (Fin c.numThread)} (new : i ∉ F) (rounded : Rounded F s) :
    ∃ s', Steps c s s' ∧ Rounded (insert i F) s' := by
  have start : Triple i s (fun _ => .iter 0 0) (fun _ => []) s := by
    refine ⟨.refl, fun role => ?_, fun _ _ _ => rfl, rounded.queue, fun w => ?_, rfl, rfl⟩
    · rw [rounded.pc, if_neg new]
    · rw [rounded.pc]
      rfl
  obtain ⟨s', triple⟩ := start.rounds (Nat.le_refl _)
  refine ⟨s', triple.steps, fun p => ?_, triple.queue, triple.arrived.trans rounded.arrived,
    triple.generation.trans rounded.generation⟩
  obtain ⟨role, i'⟩ := p
  by_cases same : i' = i
  · rw [same, triple.pc, if_pos (Finset.mem_insert_self i F)]
  · rw [triple.others role i' same, rounded.pc]
    simp only [Finset.mem_insert, same, false_or]

theorem reaches_rounded (threads : 0 < c.numThread) (runs : 0 < c.numRuns) :
    ∃ s, Reachable (system c) s ∧ Rounded (c := c) Finset.univ s := by
  obtain ⟨s, reachable, started⟩ := reaches_started threads runs
  have none_ : Rounded ∅ s := by
    refine ⟨fun p => ?_, started.queue, started.arrived, started.generation⟩
    rw [started.pc, if_neg (Finset.notMem_empty _)]
  obtain ⟨s', steps, rounded⟩ := forEach (system c).step Rounded Finset.univ none_
    fun _ _ _ _ _ new rounded => rounded.advance new
  exact ⟨s', reachable.later steps, rounded⟩

end Rounds

/-! ## Senders and intermediates leave -/

section Parking

variable {s s' : State c.numThread} {p : Thread c.numThread} {F : Finset (Thread c.numThread)}

/-- Where a thread stands that has finished its first run before the receivers. -/
def parked (c : Config) : Pc := if c.numRuns = 1 then .done else .barrier 1 1

theorem parked_asleepOn : (parked c).asleepOn = none := by
  rw [parked]
  split <;> rfl

/-- The threads of `F` are parked, the others have one iteration left. -/
structure Parking (F : Finset (Thread c.numThread)) (s : State c.numThread) : Prop where
  pc : ∀ p, s.pc p = if p ∈ F then parked c else .iter 0 (c.numIters - 1)
  queue : s.queue .queue23 = []
  arrived : s.arrived ≤ F.card
  generation : s.generation = 1

theorem Parking.awake (parking : Parking F s) : Awake s := by
  intro w
  rw [parking.pc]
  split
  · exact parked_asleepOn
  · rfl

theorem park (here : s.pc p = .run 1) (runs : 0 < c.numRuns) (first : s.generation = 1)
    (room : s.arrived + 1 < c.numThread * 3) :
    ∃ s', Steps c s s' ∧ s'.pc = Function.update s.pc p (parked c) ∧ s'.queue = s.queue ∧
      s'.arrived ≤ s.arrived + 1 ∧ s'.generation = s.generation := by
  by_cases one : c.numRuns = 1
  · have taken : step c s p none = some (s.goto p .done) := by
      simp only [step, here, one, Nat.lt_irrefl, if_false]
    refine ⟨_, .single ⟨p, none, taken⟩, ?_, rfl, Nat.le_succ _, rfl⟩
    rw [parked, if_pos one]
    rfl
  · have more : 1 < c.numRuns := by omega
    have notLast : s.arrived + 1 ≠ c.numThread * 3 := by omega
    have taken : step c s p none =
        some ({ s with arrived := s.arrived + 1 }.goto p (.barrier 1 s.generation)) := by
      simp only [step, here, if_pos more, if_neg notLast]
    refine ⟨_, .single ⟨p, none, taken⟩, ?_, rfl, Nat.le_refl _, rfl⟩
    rw [parked, if_neg one, first]
    rfl

theorem leaves (notReceiver : p.1 ≠ .receiver) (iters : 0 < c.numIters) (awake : Awake s)
    (here : s.pc p = .iter 0 (c.numIters - 1)) (drained : s.queue .queue23 = []) :
    ∃ s' queue, Does c s p (.run 1) queue s' ∧ queue .queue23 = [] := by
  obtain ⟨role, i⟩ := p
  cases role with
  | sender =>
      have more : c.numIters - 1 < c.numIters := by omega
      obtain ⟨s1, d1⟩ := does_iter here more
      obtain ⟨s2, d2⟩ := does_enqueue (d1.awake awake rfl) d1.self
      have still : s2.queue .queue23 = [] := by
        rw [d2.queue, d1.queue]
        exact drained
      obtain ⟨s3, d3⟩ := does_giveUp d2.self still
      obtain ⟨s4, d4⟩ := does_body_end d3.self
      have last : ¬ c.numIters - 1 + 1 < c.numIters := by omega
      obtain ⟨s5, d5⟩ := does_iter_end d4.self last
      refine ⟨s5, _, d1.trans (d2.trans (d3.trans (d4.trans d5))), ?_⟩
      rw [d4.queue, d3.queue]
      exact still
  | intermediate =>
      obtain ⟨s', does⟩ := does_iter_end here (Nat.lt_irrefl _)
      exact ⟨s', _, does, drained⟩
  | receiver => exact absurd rfl notReceiver

theorem Parking.advance (notReceiver : p.1 ≠ .receiver) (iters : 0 < c.numIters)
    (runs : 0 < c.numRuns) (room : F.card + 1 < c.numThread * 3) (new : p ∉ F)
    (parking : Parking F s) : ∃ s', Steps c s s' ∧ Parking (insert p F) s' := by
  have here : s.pc p = .iter 0 (c.numIters - 1) := by
    rw [parking.pc, if_neg new]
  obtain ⟨s1, queue, does, drained⟩ := leaves notReceiver iters parking.awake here parking.queue
  have few := parking.arrived
  have arrived1 := does.arrived
  obtain ⟨s2, steps, pc2, queue2, arrived2, generation2⟩ := park does.self runs
    (does.generation.trans parking.generation) (by omega)
  refine ⟨s2, does.steps.trans steps, fun w => ?_, ?_, ?_, ?_⟩
  · by_cases same : w = p
    · rw [pc2, same, Function.update_self, if_pos (Finset.mem_insert_self p F)]
    · rw [pc2, Function.update_of_ne same, does.others same, parking.pc]
      simp only [Finset.mem_insert, same, false_or]
  · rw [queue2, does.queue]
    exact drained
  · rw [Finset.card_insert_of_notMem new]
    omega
  · rw [generation2, does.generation, parking.generation]

/-- Everybody but the receivers. -/
def forwarders (n : ℕ) : Finset (Thread n) := Finset.univ.filter fun p => p.1 ≠ .receiver

theorem mem_forwarders {n : ℕ} {p : Thread n} : p ∈ forwarders n ↔ p.1 ≠ .receiver := by
  simp only [forwarders, Finset.mem_filter, Finset.mem_univ, true_and]

theorem reaches_parking (threads : 0 < c.numThread) (iters : 0 < c.numIters)
    (runs : 0 < c.numRuns) :
    ∃ s, Reachable (system c) s ∧ Parking (forwarders c.numThread) s := by
  obtain ⟨s, reachable, rounded⟩ := reaches_rounded threads runs
  have start : Parking ∅ s := by
    refine ⟨fun p => ?_, ?_, Nat.le_of_eq rounded.arrived, rounded.generation⟩
    · rw [rounded.pc, if_pos (Finset.mem_univ _), if_neg (Finset.notMem_empty _)]
    · rw [rounded.queue]
  -- a receiver is missing, so the next barrier does not open
  let missing : Thread c.numThread := (.receiver, ⟨0, threads⟩)
  have outside : missing ∉ forwarders c.numThread := fun member => mem_forwarders.mp member rfl
  obtain ⟨s', steps, parking⟩ := forEach (system c).step Parking (forwarders c.numThread) start
    fun F p s member inside new parking => by
      refine parking.advance (mem_forwarders.mp member) iters runs ?_ new
      have smaller : (insert p F).card < (Finset.univ : Finset (Thread c.numThread)).card :=
        Finset.card_lt_card (Finset.ssubset_iff.mpr
          ⟨missing, fun here => outside (Finset.insert_subset member inside here),
            Finset.subset_univ _⟩)
      rwa [Finset.card_insert_of_notMem new, card_threads] at smaller
  exact ⟨s', reachable.later steps, parking⟩

end Parking

/-! ## The receivers fall asleep -/

section Sleeping

variable {s s' : State c.numThread} {p : Thread c.numThread} {F : Finset (Thread c.numThread)}

/-- Senders and intermediates are parked, the receivers in `F` sleep. -/
structure Sleeping (F : Finset (Thread c.numThread)) (s : State c.numThread) : Prop where
  others : ∀ p, p.1 ≠ .receiver → s.pc p = parked c
  asleep : ∀ p, p ∈ F → ∃ f q key, s.pc p = .asleep f q key
  waiting : ∀ p, p.1 = .receiver → p ∉ F → s.pc p = .iter 0 (c.numIters - 1)
  queue : s.queue .queue23 = []
  generation : s.generation = 1

theorem Sleeping.advance (isReceiver : p.1 = .receiver) (iters : 0 < c.numIters) (new : p ∉ F)
    (sleeping : Sleeping F s) : ∃ s', Steps c s s' ∧ Sleeping (insert p F) s' := by
  have here := sleeping.waiting p isReceiver new
  have more : c.numIters - 1 < p.1.iterations c := by
    rw [isReceiver]
    exact Nat.sub_one_lt_of_lt iters
  obtain ⟨s1, d1⟩ := does_iter here more
  have body : s1.pc p = .body ⟨0, c.numIters - 1, receiver, EMPTY⟩ := by
    rw [d1.self, isReceiver]
    rfl
  have drained : s1.queue .queue23 = [] := by
    rw [d1.queue]
    exact sleeping.queue
  obtain ⟨s2, d2⟩ := does_sleep body drained
  have does := d1.trans d2
  have still : ∀ w, w ≠ p → s2.pc w = s.pc w := fun w other => does.others other
  refine ⟨s2, does.steps, fun w notReceiver => ?_, fun w member => ?_, fun w role outside => ?_,
    ?_, does.generation.trans sleeping.generation⟩
  · rw [still w fun same => notReceiver (same ▸ isReceiver)]
    exact sleeping.others w notReceiver
  · by_cases same : w = p
    · rw [same]
      exact ⟨_, _, _, does.self⟩
    · rw [still w same]
      exact sleeping.asleep w ((Finset.mem_insert.mp member).resolve_left same)
  · rw [Finset.mem_insert, not_or] at outside
    rw [still w outside.1]
    exact sleeping.waiting w role outside.2
  · rw [does.queue]
    exact drained

theorem Sleeping.deadlocked (threads : 0 < c.numThread)
    (sleeping : Sleeping (Finset.univ.filter fun p => p.1 = .receiver) s) : Deadlocked s := by
  have asleep : ∀ p : Thread c.numThread, p.1 = .receiver →
      ∃ f q key, s.pc p = .asleep f q key := fun p isReceiver =>
    sleeping.asleep p (Finset.mem_filter.mpr ⟨Finset.mem_univ p, isReceiver⟩)
  constructor
  · refine ⟨(.receiver, ⟨0, threads⟩), ?_⟩
    obtain ⟨f, q, key, here⟩ := asleep (.receiver, ⟨0, threads⟩) rfl
    rw [here]
    exact Pc.noConfusion
  · intro p woken
    by_cases isReceiver : p.1 = .receiver
    · obtain ⟨f, q, key, here⟩ := asleep p isReceiver
      simp only [step, here]
    · have here := sleeping.others p isReceiver
      rw [parked] at here
      split at here
      · simp only [step, here]
      · simp only [step, here, if_pos sleeping.generation]

theorem reaches_deadlock (threads : 0 < c.numThread) (iters : 0 < c.numIters)
    (runs : 0 < c.numRuns) : ∃ s, Reachable (system c) s ∧ Deadlocked s := by
  obtain ⟨s, reachable, parking⟩ := reaches_parking threads iters runs
  have start : Sleeping ∅ s := by
    refine ⟨fun p notReceiver => ?_, fun p member => ?_, fun p isReceiver _ => ?_, parking.queue,
      parking.generation⟩
    · rw [parking.pc, if_pos (mem_forwarders.mpr notReceiver)]
    · exact absurd member (Finset.notMem_empty p)
    · rw [parking.pc, if_neg fun member => mem_forwarders.mp member isReceiver]
  obtain ⟨s', steps, sleeping⟩ := forEach (system c).step Sleeping
    (Finset.univ.filter fun p => p.1 = .receiver) start
    fun F p s member _ new sleeping =>
      sleeping.advance (Finset.mem_filter.mp member).2 iters new
  exact ⟨s', reachable.later steps, sleeping.deadlocked threads⟩

end Sleeping

/-! ## No choice of numbers helps -/

/-- A thread that is not finished can run, or another one can. -/
def NeverDeadlocks (c : Config) : Prop := ∀ s, Reachable (system c) s → ¬ Deadlocked s

theorem deadlocks (c : Config) (threads : 0 < c.numThread) (iters : 0 < c.numIters)
    (runs : 0 < c.numRuns) : ¬ NeverDeadlocks c := by
  intro never
  obtain ⟨s, reachable, stuck⟩ := reaches_deadlock threads iters runs
  exact never s reachable stuck

/-- The numbers of `main.c`. -/
theorem deadlocks_main : ¬ NeverDeadlocks ⟨6, 100, 1⟩ :=
  deadlocks ⟨6, 100, 1⟩ (by decide) (by decide) (by decide)

theorem not_forall_neverDeadlocks :
    ¬ ∀ c : Config, 0 < c.numThread → 0 < c.numIters → 0 < c.numRuns → NeverDeadlocks c := by
  intro all
  obtain ⟨s, reachable, stuck⟩ :=
    reaches_deadlock (c := ⟨6, 100, 1⟩) (by decide) (by decide) (by decide)
  exact all ⟨6, 100, 1⟩ (by decide) (by decide) (by decide) s reachable stuck

end Elcrq.Roundtrip
