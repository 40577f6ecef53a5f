import Elcrq.C.Items

/-! # The walk of `deq` along the rings

A `deq` call looks at one ring after the other.  It leaves a ring when the tail
was at most one past its ticket and `next`, read some accesses later, is set.
Here is what each step of a thread does to its place on this walk. -/

set_option autoImplicit false

namespace Elcrq.C

open Concurrent Concurrent.TicketRing Concurrent.RingList

/-- The call has found the tail of its ring behind its ticket. -/
def Pc.tested : Pc → Bool
  | .fixTail _ | .fixHead _ _ | .fixCheck _ _ _ | .fixCas _ _ _ | .deqNext _ => true
  | _ => false

/-- How a thread that is inside call `c` of `deq` got there in one access. -/
inductive Walks (q : RingQueue ℕ Word) (c : ℕ) (pc pc' : Pc) : Prop
  | same : pc.phase = .deq c → pc'.rq = pc.rq → (pc'.tested = true → pc.tested = true) →
      Walks q c pc pc'
  | test (f : DeqFrame) (h : Word) : f.call = c → pc = .deqExit f h →
      tailIndex q.tail - 1 ≤ h → pc' = .fixTail f → Walks q c pc pc'
  | hop (f : DeqFrame) (n : ℕ) : f.call = c → pc = .deqNext f → q.next = some n →
      pc' = .deqFaa { f with head := n } → Walks q c pc pc'

section Access

variable {pow : ℕ} {q q' : RingQueue ℕ Word} {pc pc' : Pc} {events : List (Event Word)}

theorem atEmptyCell_tested (f : DeqFrame) (h tt : Word) (r : ℕ) (cellIdx : Word) :
    (atEmptyCell f h tt r cellIdx).tested = false := by
  unfold atEmptyCell
  split
  · rfl
  · split <;> rfl

theorem onRing_walks {c : ℕ} (access : onRing pow q pc = some (q', pc', events))
    (phase : pc'.phase = .deq c) : Walks q c pc pc' := by
  cases pc with
  | deqVal f h tt r cellIdx =>
      obtain ⟨emptyPhase, emptyRq⟩ := atEmptyCell_phase f h tt r cellIdx
      have emptyTested := atEmptyCell_tested f h tt r cellIdx
      simp only [onRing] at access
      (repeat' split at access) <;> cases access
      case deqVal.isFalse.isTrue.isFalse.refl =>
        refine .same (emptyPhase.symm.trans phase) emptyRq fun tested => ?_
        rw [emptyTested] at tested
        cases tested
      all_goals exact .same phase rfl fun tested => by cases tested
  | deqTail f h r cellIdx =>
      obtain ⟨emptyPhase, emptyRq⟩ := atEmptyCell_phase f h q.tail r cellIdx
      have emptyTested := atEmptyCell_tested f h q.tail r cellIdx
      cases access
      refine .same (emptyPhase.symm.trans phase) emptyRq fun tested => ?_
      rw [emptyTested] at tested
      cases tested
  | deqExit f h =>
      simp only [onRing] at access
      split at access
      next test =>
        cases access
        cases phase
        exact .test f h rfl rfl test rfl
      next =>
        cases access
        exact .same phase rfl fun tested => by cases tested
  | deqNext f =>
      simp only [onRing] at access
      split at access
      next =>
        cases access
        cases phase
      next n link =>
        cases access
        cases phase
        exact .hop f n rfl rfl link rfl
  | _ =>
      simp only [onRing] at access
      (repeat' split at access) <;> cases access <;>
        first
        | cases phase; done
        | exact .same phase rfl fun _ => rfl
        | exact .same phase rfl fun tested => by cases tested

theorem onRing_empty {c : ℕ} (access : onRing pow q pc = some (q', pc', events))
    (empty : .deqEmpty c ∈ events) : ∃ f, pc = .deqNext f ∧ f.call = c ∧ q.next = none := by
  cases pc with
  | deqNext f =>
      simp only [onRing] at access
      split at access
      next last =>
        cases access
        cases List.mem_singleton.mp empty
        exact ⟨f, rfl, rfl, last⟩
      next =>
        cases access
        cases empty
  | _ =>
      simp only [onRing] at access
      (repeat' split at access) <;> cases access <;> simp at empty

theorem onRing_item {d r h : ℕ} {x : Word} (access : onRing pow q pc = some (q', pc', events))
    (item : .deqItem d r h x ∈ events) : pc.phase = .deq d ∧ pc.rq = r := by
  cases pc with
  | deqTake f h' tt r' cellIdx val =>
      simp only [onRing] at access
      split at access <;> cases access
      · simp only [List.mem_cons, reduceCtorEq, Event.deqItem.injEq, List.not_mem_nil, or_false,
          false_or] at item
        obtain ⟨rfl, rfl, -⟩ := item
        exact ⟨rfl, rfl⟩
      · cases item
  | _ =>
      simp only [onRing] at access
      (repeat' split at access) <;> cases access <;> simp at item

end Access

section Step

variable {T : Type} [DecidableEq T] {pow : ℕ} {e e' : Exec T} {p : T} {a : Act}

/-- The steps of a thread, as far as `deq` is concerned. -/
inductive Stepped (pow : ℕ) (e e' : Exec T) (p : T) : Prop
  | callDeq : e.st.pc p = .idle → e'.st.pc p = .deqFaa ⟨e.st.calls, e.st.head⟩ →
      e'.log = .deqCall e.st.calls :: e.log → Stepped pow e e' p
  | inEnq : (∀ c, (e'.st.pc p).phase ≠ .deq c) → (∀ c, .deqEmpty c ∈ e'.log → .deqEmpty c ∈ e.log) →
      (∀ d r h x, .deqItem d r h x ∈ e'.log → .deqItem d r h x ∈ e.log) → Stepped pow e e' p
  | access (q : RingQueue ℕ Word) (pc : Pc) (events : List (Event Word)) :
      onRing pow (e.st.ring (e.st.pc p).rq) (e.st.pc p) = some (q, pc, events) →
      e' = e.accessed p q pc events → Stepped pow e e' p

theorem next_stepped (next : e.next pow p a = some e') : Stepped pow e e' p := by
  have inEnq : ∀ (s : State T) (pc : Pc) (events : List (Event Word)), s.pc p = pc →
      (∀ c, pc.phase ≠ .deq c) → (∀ c, .deqEmpty c ∉ events) →
      (∀ d r h x, .deqItem d r h x ∉ events) → Stepped pow e ⟨s, events ++ e.log⟩ p := by
    intro s pc events here notDeq noEmpty noItem
    refine .inEnq (fun c => ?_) (fun c member => ?_) fun d r h x member => ?_
    · show (s.pc p).phase ≠ _
      rw [here]
      exact notDeq c
    · exact (List.mem_append.mp member).resolve_left (noEmpty c)
    · exact (List.mem_append.mp member).resolve_left (noItem d r h x)
  cases next_goes next with
  | callDeq idle => exact .callDeq idle (Function.update_self ..) rfl
  | access q pc events access => exact .access q pc events access rfl
  | callEnq arg => exact inEnq _ _ [_] (Function.update_self ..) nofun (by simp) (by simp)
  | link f n => exact inEnq _ _ [_, _, _] (Function.update_self ..) nofun (by simp) (by simp)
  | swing f n => exact inEnq _ _ [_] (Function.update_self ..) nofun (by simp) (by simp)
  | _ => exact inEnq _ _ [] (Function.update_self ..) nofun (by simp) (by simp)

end Step

end Elcrq.C
