import Elcrq.Cpp.Layout
import Elcrq.Concurrent.Inevitable

/-! # Accesses to one node of `LCRQueue.hpp`

A call that runs alone on the node it guards changes that node and its own place.
What it comes to can be found on the node and carried over to memory. -/

set_option autoImplicit false

namespace Elcrq.Cpp

open Concurrent Concurrent.RingList Concurrent.Hazard

section OneNode

variable {n : ℕ} {A V : Type} [DecidableEq A] [DecidableEq V] {pow : ℕ} {e e' : Exec n A V}
  {p : Fin n}

omit [DecidableEq A] in
/-- One access to the node, without what is recorded. -/
def nodeNext (pow i : ℕ) (x : RingQueue A (Option V) × Pc A V) :
    Option (RingQueue A (Option V) × Pc A V) :=
  (onNode pow i x.1 x.2).map fun y => (y.1, y.2.1)

/-- The history links no node that it did not link before. -/
structure SameLinks (log log' : List (Event V)) : Prop where
  rings : rings log' = rings log
  successor : successor log' = successor log

omit [DecidableEq V] in
theorem SameLinks.trans {log log' log'' : List (Event V)} (first : SameLinks log log')
    (second : SameLinks log' log'') : SameLinks log log'' :=
  ⟨second.rings.trans first.rings, second.successor.trans first.successor⟩

omit [DecidableEq A] in
theorem onNode_unguarded {i : ℕ} {q : RingQueue A (Option V)} {pc : Pc A V}
    (unguarded : pc.guarded = none) : onNode pow i q pc = none := by
  cases pc with
  | _ =>
      first
      | rfl
      | cases unguarded

/-- Thread `p` has worked on the node that `a` leads to since `e`. -/
structure Exec.OnNode (e : Exec n A V) (p : Fin n) (a : A) (x : RingQueue A (Option V) × Pc A V)
    (e' : Exec n A V) : Prop where
  st : e'.st = (e.st.setNode a x.1).goto p x.2
  links : SameLinks e.log e'.log
  guarded : x.2.guarded = some a ∨ x.2.guarded = none

theorem run_onNode {s : State n A V} {a : A} {q : RingQueue A (Option V)} {pc : Pc A V}
    {events : List (Event V)} (guarded : (s.pc p).guarded = some a)
    (access : onNode pow (s.nodeAt a) (s.node (s.nodeAt a)) (s.pc p) = some (q, pc, events)) :
    run pow s p = some ((s.setNode a q).goto p pc, ⟨events, []⟩) := by
  unfold run
  split
  case h_20 =>
    rw [guarded]
    simp only [access, Option.map_some]
  all_goals
    rename_i here
    rw [here] at access
    cases access

section OnNode

variable {a : A} {x : RingQueue A (Option V) × Pc A V}

section Reading

omit [DecidableEq A] [DecidableEq V]

theorem Exec.OnNode.pc (on : e.OnNode p a x e') : e'.st.pc p = x.2 := by
  rw [on.st]
  exact State.goto_pc ..

theorem Exec.OnNode.node (on : e.OnNode p a x e') : e'.st.node (e.st.nodeAt a) = x.1 := by
  rw [on.st]
  exact Function.update_self ..

theorem Exec.OnNode.start (guarded : (e.st.pc p).guarded = some a) :
    e.OnNode p a (e.st.node (e.st.nodeAt a), e.st.pc p) e := by
  refine ⟨?_, ⟨rfl, rfl⟩, Or.inl guarded⟩
  simp only [State.goto, State.setNode, Function.update_eq_self]

end Reading

theorem Exec.OnNode.next {y : RingQueue A (Option V) × Pc A V} (on : e.OnNode p a x e')
    (next : nodeNext pow (e.st.nodeAt a) x = some y) :
    ∃ s record, run pow e'.st p = some (s, record) ∧
      e.OnNode p a y ⟨s, record.events ++ e'.log, record.mem ++ e'.mem⟩ := by
  obtain ⟨⟨q, pc, events⟩, access, rfl⟩ := Option.map_eq_some_iff.mp next
  have guarded : (e'.st.pc p).guarded = some a := by
    rw [on.pc]
    refine on.guarded.resolve_right fun unguarded => ?_
    rw [onNode_unguarded unguarded] at access
    cases access
  have sameAt : e'.st.nodeAt = e.st.nodeAt := by rw [on.st]; rfl
  have found : onNode pow (e'.st.nodeAt a) (e'.st.node (e'.st.nodeAt a)) (e'.st.pc p) =
      some (q, pc, events) := by
    rw [sameAt, on.node, on.pc]
    exact access
  obtain ⟨onward, _, _, unlinked⟩ := onNode_leads found
  obtain ⟨sameRings, sameSuccessor⟩ := same_links unlinked e'.log
  refine ⟨_, _, run_onNode guarded found, ?_, on.links.trans ⟨sameRings, sameSuccessor⟩, ?_⟩
  · simp only [on.st, State.goto, State.setNode, Function.update_idem]
  · cases onward with
    | keep same _ => exact Or.inl (same.trans guarded)
    | leave unguarded _ => exact Or.inr unguarded

theorem Exec.OnNode.steps {y : RingQueue A (Option V) × Pc A V} (on : e.OnNode p a x e')
    (run : Relation.ReflTransGen (Follows (nodeNext pow (e.st.nodeAt a))) x y) :
    ∃ e'', Relation.ReflTransGen (machine pow).step e' e'' ∧ e.OnNode p a y e'' := by
  induction run with
  | refl => exact ⟨e', .refl, on⟩
  | tail _ next ih =>
      obtain ⟨e1, steps, on1⟩ := ih
      obtain ⟨s, record, taken, on2⟩ := on1.next next
      refine ⟨_, steps.tail ⟨p, .run, ?_⟩, on2⟩
      simp only [Exec.does, step, taken, Option.map_some]

end OnNode

theorem plays_st (pow : ℕ) (schedule : List (Fin n × Act A V)) {s : State n A V}
    (done : runSchedule (fun s a => (step pow s a.1 a.2).map Prod.fst) e.st schedule = some s) :
    ∃ e', Relation.ReflTransGen (machine pow).step e e' ∧ e'.st = s := by
  induction schedule generalizing e with
  | nil => exact ⟨e, .refl, Option.some.inj done⟩
  | cons a rest ih =>
      obtain ⟨s1, first, later⟩ := Option.bind_eq_some_iff.mp done
      obtain ⟨⟨s2, record⟩, taken, same⟩ := Option.map_eq_some_iff.mp first
      obtain rfl : s2 = s1 := same
      let e1 : Exec n A V := ⟨s2, record.events ++ e.log, record.mem ++ e.mem⟩
      obtain ⟨e', steps, here⟩ := ih (e := e1) later
      refine ⟨e', .head ⟨a.1, a.2, ?_⟩ steps, here⟩
      simp only [Exec.does, taken, Option.map_some, e1]

end OneNode

end Elcrq.Cpp
