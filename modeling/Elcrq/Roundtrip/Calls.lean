import Elcrq.Roundtrip.Machine

/-! # Whole calls of one thread

What a thread does when it runs one call after the other while the others stand
still: each call of `main.c` as a sequence of steps, and the first barrier. -/

set_option autoImplicit false

namespace Elcrq.Roundtrip

open Concurrent

section Does

variable {c : Config} {s s' s'' : State c.numThread} {p : Thread c.numThread} {pc pc' : Pc}
  {queue queue' : QueueId → List Object}

def Steps (c : Config) : State c.numThread → State c.numThread → Prop :=
  Relation.ReflTransGen (system c).step

/-- Thread `p` runs from `s` to `s'`; it ends at `pc` and the queues hold `queue`. -/
structure Does (c : Config) (s : State c.numThread) (p : Thread c.numThread) (pc : Pc)
    (queue : QueueId → List Object) (s' : State c.numThread) : Prop where
  steps : Steps c s s'
  pc : s'.pc = Function.update s.pc p pc
  queue : s'.queue = queue
  arrived : s'.arrived = s.arrived
  generation : s'.generation = s.generation

theorem Does.self (does : Does c s p pc queue s') : s'.pc p = pc := by
  rw [does.pc, Function.update_self]

theorem Does.others (does : Does c s p pc queue s') {w : Thread c.numThread} (other : w ≠ p) :
    s'.pc w = s.pc w := by
  rw [does.pc, Function.update_of_ne other]

theorem Does.trans (first : Does c s p pc queue s') (second : Does c s' p pc' queue' s'') :
    Does c s p pc' queue' s'' := by
  refine ⟨first.steps.trans second.steps, ?_, second.queue, second.arrived.trans first.arrived,
    second.generation.trans first.generation⟩
  rw [second.pc, first.pc, Function.update_idem]

theorem Does.single {woken : Option (Thread c.numThread)} (taken : step c s p woken = some s')
    (isPc : s'.pc = Function.update s.pc p pc) (isQueue : s'.queue = queue)
    (arrived : s'.arrived = s.arrived) (generation : s'.generation = s.generation) :
    Does c s p pc queue s' := ⟨.single ⟨p, woken, taken⟩, isPc, isQueue, arrived, generation⟩

theorem Does.goto (taken : step c s p none = some (s.goto p pc)) :
    Does c s p pc s.queue (s.goto p pc) := .single taken rfl rfl rfl rfl

variable (s pc pc') in
theorem Does.goto_goto (taken : step c (s.goto p pc) p none = some (s.goto p pc')) :
    Does c (s.goto p pc) p pc' s.queue (s.goto p pc') := by
  refine .single taken ?_ rfl rfl rfl
  simp only [State.goto, Function.update_idem]

def Awake (s : State c.numThread) : Prop := ∀ w, (s.pc w).asleepOn = none

theorem Does.awake (does : Does c s p pc queue s') (awake : Awake s) (own : pc.asleepOn = none) :
    Awake s' := by
  intro w
  by_cases same : w = p
  · rw [same, does.self]
    exact own
  · rw [does.others same]
    exact awake w

end Does

section Calls

variable {c : Config} {s : State c.numThread} {p : Thread c.numThread} {j k : ℕ} {d : Object}
  {rest : List Op} {arg : Arg} {q : Param}

theorem does_iter (here : s.pc p = .iter j k) (more : k < p.1.iterations c) :
    ∃ s', Does c s p (.body ⟨j, k, p.1.body, EMPTY⟩) s.queue s' := by
  refine ⟨_, .goto ?_⟩
  simp only [step, here, if_pos more]

theorem does_iter_end (here : s.pc p = .iter j k) (last : ¬ k < p.1.iterations c) :
    ∃ s', Does c s p (.run (j + 1)) s.queue s' := by
  refine ⟨_, .goto ?_⟩
  simp only [step, here, if_neg last]

theorem does_body_end (here : s.pc p = .body ⟨j, k, [], d⟩) :
    ∃ s', Does c s p (.iter j (k + 1)) s.queue s' := by
  refine ⟨_, .goto ?_⟩
  simp only [step, here]

theorem does_spinEnqueue (here : s.pc p = .body ⟨j, k, .spinEnqueue arg q :: rest, d⟩) :
    ∃ s', Does c s p (.body ⟨j, k, rest, d⟩)
      (Function.update s.queue (params q)
        (s.queue (params q) ++ [(Frame.arg ⟨j, k, [], d⟩ arg).mark (.put p.1 q)])) s' := by
  have taken : step c s p none =
      some ((s.enq p q (Frame.arg ⟨j, k, [], d⟩ arg)).goto p (.body ⟨j, k, rest, d⟩)) := by
    simp only [step, here]
    cases arg <;> rfl
  exact ⟨_, .single taken rfl rfl rfl rfl⟩

theorem does_enqueue (awake : Awake s)
    (here : s.pc p = .body ⟨j, k, .enqueue arg q :: rest, d⟩) :
    ∃ s', Does c s p (.body ⟨j, k, rest, d⟩)
      (Function.update s.queue (params q)
        (s.queue (params q) ++ [(Frame.arg ⟨j, k, [], d⟩ arg).mark (.put p.1 q)])) s' := by
  let s1 := (s.enq p q (Frame.arg ⟨j, k, [], d⟩ arg)).goto p (.notify ⟨j, k, rest, d⟩ q)
  let s2 := { s1 with epoch := Function.update s1.epoch (params q) (s1.epoch (params q) + 1) }
  have taken : step c s p none = some s1 := by
    simp only [step, here]
    cases arg <;> rfl
  have first : Does c s p (.notify ⟨j, k, rest, d⟩ q) s1.queue s1 := .single taken rfl rfl rfl rfl
  have notified : step c s1 p none = some (s2.goto p (.body ⟨j, k, rest, d⟩)) := by
    have nobody : ∀ w, (s1.pc w).asleepOn ≠ some (params q) := by
      intro w asleep
      rw [first.awake awake rfl w] at asleep
      cases asleep
    simp only [step, first.self, State.notify, if_pos nobody, Option.map_some]
    rfl
  exact ⟨_, first.trans (.single notified rfl rfl rfl rfl)⟩

variable {x : Item} {items : List Object}

theorem deq_some (head : s.queue (params q) = some x :: items) :
    s.deq p q = (some (x.mark (.took p.1 q)),
      { s with queue := Function.update s.queue (params q) items }) := by
  rw [State.deq, head]
  rfl

theorem deq_empty (none_ : s.queue (params q) = []) : s.deq p q = (EMPTY, s) := by
  rw [State.deq, none_]

theorem does_dequeue (here : s.pc p = .body ⟨j, k, .dequeue q :: rest, d⟩)
    (head : s.queue (params q) = some x :: items) :
    ∃ s', Does c s p (.body ⟨j, k, rest, some (x.mark (.took p.1 q))⟩)
      (Function.update s.queue (params q) items) s' := by
  have first : Does c s p (.deq ⟨j, k, rest, d⟩ q) s.queue (s.goto p (.deq ⟨j, k, rest, d⟩ q)) := by
    refine .goto ?_
    simp only [step, here]
  have head' : (s.goto p (.deq ⟨j, k, rest, d⟩ q)).queue (params q) = some x :: items := head
  have taken : step c (s.goto p (.deq ⟨j, k, rest, d⟩ q)) p none =
      some (State.goto { s.goto p (.deq ⟨j, k, rest, d⟩ q) with
        queue := Function.update s.queue (params q) items } p
        (.body ⟨j, k, rest, some (x.mark (.took p.1 q))⟩)) := by
    simp only [step, first.self, deq_some head']
    rfl
  exact ⟨_, first.trans (.single taken rfl rfl rfl rfl)⟩

theorem does_spinDequeue (here : s.pc p = .body ⟨j, k, .spinDequeue q :: rest, d⟩)
    (head : s.queue (params q) = some x :: items) :
    ∃ s', Does c s p (.body ⟨j, k, rest, some (x.mark (.took p.1 q))⟩)
      (Function.update s.queue (params q) items) s' ∧
      (p.1 = .sender → x.mark (.took p.1 q) ∈ s'.got) := by
  have first : Does c s p (.spin ⟨j, k, rest, d⟩ q 0) s.queue
      (s.goto p (.spin ⟨j, k, rest, d⟩ q 0)) := by
    refine .goto ?_
    simp only [step, here]
  have head' : (s.goto p (.spin ⟨j, k, rest, d⟩ q 0)).queue (params q) = some x :: items := head
  let s' : State c.numThread :=
    { s.goto p (.spin ⟨j, k, rest, d⟩ q 0) with
      queue := Function.update s.queue (params q) items }
  let found : Object := some (x.mark (.took p.1 q))
  have taken : step c (s.goto p (.spin ⟨j, k, rest, d⟩ q 0)) p none =
      some ((s'.receive p found).goto p (.body ⟨j, k, rest, found⟩)) := by
    simp only [step, first.self, deq_some head']
    rfl
  refine ⟨_, first.trans (.single taken ?_ ?_ ?_ ?_), fun isSender => ?_⟩
  all_goals simp only [State.receive, State.goto]
  · split <;> rfl
  · split <;> rfl
  · split <;> rfl
  · split <;> rfl
  · rw [if_pos isSender]
    exact List.mem_cons_self

theorem does_spin_empty (none_ : s.queue (params q) = []) {patience : ℕ} (left : ℕ)
    (total : patience + left = MAX_PATIENCE)
    (here : s.pc p = .spin ⟨j, k, rest, d⟩ q patience) :
    ∃ s', Does c s p (.body ⟨j, k, rest, EMPTY⟩) s.queue s' := by
  induction left generalizing s patience with
  | zero =>
      have taken : step c s p none =
          some ((s.receive p EMPTY).goto p (.body ⟨j, k, rest, EMPTY⟩)) := by
        have spent : ¬ patience < MAX_PATIENCE := by omega
        simp only [step, here, deq_empty none_, spent, and_false, if_false]
      refine ⟨_, .single taken ?_ ?_ ?_ ?_⟩
      all_goals
        simp only [State.receive, State.goto]
        split <;> rfl
  | succ left ih =>
      have first : Does c s p (.spin ⟨j, k, rest, d⟩ q (patience + 1)) s.queue
          (s.goto p (.spin ⟨j, k, rest, d⟩ q (patience + 1))) := by
        refine .goto ?_
        have more : patience < MAX_PATIENCE := by omega
        simp only [step, here, deq_empty none_, more, and_self, if_true]
      obtain ⟨s', later⟩ := ih (s := s.goto p (.spin ⟨j, k, rest, d⟩ q (patience + 1))) none_
        (by omega) first.self
      exact ⟨s', first.trans later⟩

theorem does_giveUp (here : s.pc p = .body ⟨j, k, .spinDequeue q :: rest, d⟩)
    (none_ : s.queue (params q) = []) :
    ∃ s', Does c s p (.body ⟨j, k, rest, EMPTY⟩) s.queue s' := by
  have first : Does c s p (.spin ⟨j, k, rest, d⟩ q 0) s.queue
      (s.goto p (.spin ⟨j, k, rest, d⟩ q 0)) := by
    refine .goto ?_
    simp only [step, here]
  obtain ⟨s', later⟩ := does_spin_empty (s := s.goto p (.spin ⟨j, k, rest, d⟩ q 0)) none_
    MAX_PATIENCE (Nat.zero_add _) first.self
  exact ⟨s', first.trans later⟩

theorem does_sleep (here : s.pc p = .body ⟨j, k, .dequeue q :: rest, d⟩)
    (none_ : s.queue (params q) = []) :
    ∃ s', Does c s p (.asleep ⟨j, k, rest, d⟩ q (s.epoch (params q))) s.queue s' := by
  have empty : ∀ pc, (s.goto p pc).deq p q = (EMPTY, s.goto p pc) := fun pc =>
    deq_empty (s := s.goto p pc) none_
  have enter : Does c s p (.deq ⟨j, k, rest, d⟩ q) s.queue (s.goto p (.deq ⟨j, k, rest, d⟩ q)) := by
    refine .goto ?_
    simp only [step, here]
  have prepare : Does c _ p (.prepareWait ⟨j, k, rest, d⟩ q) s.queue _ :=
    .goto_goto s (.deq ⟨j, k, rest, d⟩ q) _ (by simp [step, empty])
  have register : Does c _ p (.retry ⟨j, k, rest, d⟩ q (s.epoch (params q))) s.queue _ :=
    .goto_goto s (.prepareWait ⟨j, k, rest, d⟩ q) _ (by simp [step, State.goto])
  have again : Does c _ p (.await ⟨j, k, rest, d⟩ q (s.epoch (params q))) s.queue _ :=
    .goto_goto s (.retry ⟨j, k, rest, d⟩ q (s.epoch (params q))) _ (by simp [step, empty])
  have sleep : Does c _ p (.asleep ⟨j, k, rest, d⟩ q (s.epoch (params q))) s.queue _ :=
    .goto_goto s (.await ⟨j, k, rest, d⟩ q (s.epoch (params q))) _ (by simp [step, State.goto])
  exact ⟨_, enter.trans (prepare.trans (register.trans (again.trans sleep)))⟩

end Calls

/-! ## The first barrier -/

section Barrier

variable {c : Config}

structure Started (s : State c.numThread) : Prop where
  pc : s.pc = fun _ => .iter 0 0
  queue : s.queue = fun _ => []
  arrived : s.arrived = 0
  generation : s.generation = 1

structure Arriving (F : Finset (Thread c.numThread)) (s : State c.numThread) : Prop where
  pc : s.pc = fun p => if p ∈ F then .barrier 0 0 else .run 0
  queue : s.queue = fun _ => []
  arrived : s.arrived = F.card
  generation : s.generation = 0

/-- The last thread and those of `F` have left the barrier. -/
structure Leaving (last : Thread c.numThread) (F : Finset (Thread c.numThread))
    (s : State c.numThread) : Prop where
  pc : s.pc = fun p => if p = last ∨ p ∈ F then .iter 0 0 else .barrier 0 0
  queue : s.queue = fun _ => []
  arrived : s.arrived = 0
  generation : s.generation = 1

theorem card_threads (n : ℕ) : (Finset.univ : Finset (Thread n)).card = n * 3 := by
  rw [Finset.card_univ, Fintype.card_prod, Fintype.card_fin, Nat.mul_comm]
  rfl

theorem Arriving.advance {F : Finset (Thread c.numThread)} {i : Thread c.numThread}
    {s : State c.numThread} (runs : 0 < c.numRuns) (room : F.card + 1 < c.numThread * 3)
    (new : i ∉ F) (arriving : Arriving F s) : ∃ s', Steps c s s' ∧ Arriving (insert i F) s' := by
  have here : s.pc i = .run 0 := by
    rw [arriving.pc]
    exact if_neg new
  have taken : step c s i none =
      some ({ s with arrived := s.arrived + 1 }.goto i (.barrier 0 s.generation)) := by
    have notLast : s.arrived + 1 ≠ c.numThread * 3 := by
      rw [arriving.arrived]
      omega
    simp only [step, here, if_pos runs, if_neg notLast]
  refine ⟨_, .single ⟨i, none, taken⟩, ?_, arriving.queue, ?_, arriving.generation⟩
  · funext p
    by_cases same : p = i
    · subst same
      simp [State.goto, arriving.generation]
    · simp [State.goto, same, arriving.pc]
  · rw [Finset.card_insert_of_notMem new, ← arriving.arrived]
    rfl

theorem Leaving.advance {last i : Thread c.numThread} {F : Finset (Thread c.numThread)}
    {s : State c.numThread} (other : i ≠ last) (new : i ∉ F) (leaving : Leaving last F s) :
    ∃ s', Steps c s s' ∧ Leaving last (insert i F) s' := by
  have here : s.pc i = .barrier 0 0 := by
    rw [leaving.pc]
    exact if_neg (not_or.mpr ⟨other, new⟩)
  have taken : step c s i none = some (s.goto i (.iter 0 0)) := by
    have passed : s.generation ≠ 0 := by
      rw [leaving.generation]
      exact Nat.one_ne_zero
    simp only [step, here, if_neg passed]
  refine ⟨_, .single ⟨i, none, taken⟩, ?_, leaving.queue, leaving.arrived, leaving.generation⟩
  funext p
  by_cases same : p = i
  · subst same
    simp [State.goto]
  · simp [State.goto, same, leaving.pc]

theorem reaches_started (threads : 0 < c.numThread) (runs : 0 < c.numRuns) :
    ∃ s, Reachable (system c) s ∧ Started s := by
  let last : Thread c.numThread := (.receiver, ⟨0, threads⟩)
  have count : (Finset.univ.erase last).card + 1 = c.numThread * 3 := by
    rw [Finset.card_erase_add_one (Finset.mem_univ last), card_threads]
  obtain ⟨s, arrive, arriving⟩ := forEach (system c).step Arriving
    (Finset.univ.erase last) (s := State.init) ⟨rfl, rfl, rfl, rfl⟩
    fun F i s member inside new arriving => by
      have smaller := Finset.card_lt_card (Finset.ssubset_iff.mpr
        ⟨i, new, Finset.insert_subset member inside⟩)
      exact arriving.advance runs (by omega) new
  have here : s.pc last = .run 0 := by
    rw [arriving.pc]
    exact if_neg (Finset.notMem_erase last _)
  have taken : step c s last none =
      some ({ s with arrived := 0, generation := s.generation + 1 }.goto last (.iter 0 0)) := by
    have isLast : s.arrived + 1 = c.numThread * 3 := by
      rw [arriving.arrived]
      exact count
    simp only [step, here, if_pos runs, if_pos isLast]
  have first : Leaving last ∅
      ({ s with arrived := 0, generation := s.generation + 1 }.goto last (.iter 0 0)) := by
    refine ⟨?_, arriving.queue, rfl, ?_⟩
    · funext p
      by_cases same : p = last
      · simp [State.goto, same]
      · simp [State.goto, same, arriving.pc]
    · show s.generation + 1 = 1
      rw [arriving.generation]
  obtain ⟨s', leave, leaving⟩ := forEach (system c).step (Leaving last)
    (Finset.univ.erase last) first fun F i s member _ new leaving =>
      leaving.advance (Finset.ne_of_mem_erase member) new
  refine ⟨s', ?_, ?_, leaving.queue, leaving.arrived, leaving.generation⟩
  · have begun : Reachable (system c) (State.init : State c.numThread) := .init rfl
    exact ((begun.later arrive).step ⟨last, none, taken⟩).later leave
  · rw [leaving.pc]
    funext p
    by_cases same : p = last
    · simp [same]
    · simp [same]

end Barrier

end Elcrq.Roundtrip
