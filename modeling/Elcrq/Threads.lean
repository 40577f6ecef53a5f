import Elcrq.RingMemory

/-! # Threads over a memory of rings

`queueOf` reads the queue of `RingList` off a memory of rings and the places of
the threads.  A place says which ring a thread works on, what it knows about its
cell there and where its call stands.  The lemmas turn a change of one ring and
one thread into steps of that queue. -/

set_option autoImplicit false

namespace Elcrq

open Concurrent Concurrent.TicketRing Concurrent.RingList

structure Place (V : Type) where
  ring : ℕ
  view : View
  phase : Phase V

section Places

variable {V : Type} {a : Place V} {r r' : ℕ}

def Place.viewAt (a : Place V) (r : ℕ) : View := if r = a.ring then a.view else .out

def Place.Only (a : Place V) (r : ℕ) : Prop := a.ring = r ∨ a.view = .out

theorem Place.Only.viewAt_self (only : a.Only r) : a.viewAt r = a.view := by
  rcases only with rfl | out
  · exact if_pos rfl
  · rw [Place.viewAt, out, ite_self]

theorem Place.Only.viewAt_other (only : a.Only r) (other : r' ≠ r) : a.viewAt r' = .out := by
  rcases only with rfl | out
  · exact if_neg other
  · rw [Place.viewAt, out, ite_self]

theorem Place.viewAt_out (out : a.view = .out) (r : ℕ) : a.viewAt r = .out := by
  rw [Place.viewAt, out, ite_self]

theorem Place.deqTicket_viewAt {h : ℕ} :
    (a.viewAt r).deqTicket = some h ↔ a.ring = r ∧ a.view.deqTicket = some h := by
  unfold Place.viewAt
  split
  next same => simp [same]
  next other => simp [View.deqTicket, Ne.symm other]

end Places

section QueueOf

variable {T A P V : Type}

/-- Rings that are not linked yet do not count. -/
def queueOf (pow : ℕ) (item : P → Option V) (mem : ℕ → RingQueue A P) (place : T → Place V)
    (calls : ℕ) (log : List (Event V)) : Queue T V where
  ring := fun r => if r ∈ rings log then (mem r).abs pow item else CellRing.start
  view := fun u r => (place u).viewAt r
  phase := fun u => (place u).phase
  calls := calls
  log := log

variable {pow : ℕ} {item : P → Option V} {mem mem' : ℕ → RingQueue A P} {place place' : T → Place V}
  {calls : ℕ} {log : List (Event V)} {u : T} {r c : ℕ}

theorem queueOf_ring (member : r ∈ rings log) :
    (queueOf pow item mem place calls log).ring r = (mem r).abs pow item := if_pos member

theorem queueOf_same (memory : ∀ r ∈ rings log, (mem' r).abs pow item = (mem r).abs pow item)
    (others : ∀ w, w ≠ u → place' w = place w) (phase : (place' u).phase = (place u).phase)
    (view : ∀ r, (place' u).viewAt r = (place u).viewAt r) :
    queueOf pow item mem' place' calls log = queueOf pow item mem place calls log := by
  simp only [queueOf, Queue.mk.injEq, and_true]
  refine ⟨funext fun r => ?_, funext fun w => funext fun r => ?_, funext fun w => ?_⟩
  · split
    next member => exact memory r member
    next => rfl
  · by_cases same : w = u
    · rw [same, view r]
    · rw [others w same]
  · by_cases same : w = u
    · rw [same, phase]
    · rw [others w same]

theorem queueOf_frame {touched : Option ℕ} {calls' : ℕ} (new : List (Event V))
    (grown : ∀ r ∈ rings log, r ∈ rings (new ++ log))
    (memory : ∀ r ∈ rings log, touched ≠ some r → (mem' r).abs pow item = (mem r).abs pow item)
    (others : ∀ w, w ≠ u → place' w = place w)
    (view : ∀ r ∈ rings log, touched ≠ some r → (place' u).viewAt r = (place u).viewAt r) :
    Frame u touched (queueOf pow item mem place calls log)
      (queueOf pow item mem' place' calls' (new ++ log)) := by
  refine ⟨fun r member apart => ?_, fun w r member apart => ?_, fun w other => ?_⟩
  · have old : r ∈ rings log := member
    rw [queueOf_ring old, queueOf_ring (grown r old), memory r old apart]
  · by_cases same : w = u
    · subst same
      exact view r member (apart.resolve_left fun h => h rfl)
    · show (place' w).viewAt r = (place w).viewAt r
      rw [others w same]
  · show (place' w).phase = (place w).phase
    rw [others w other]

theorem queueOf_move {m : Option (Mark V)} (member : r ∈ rings log) (only : (place u).Only r)
    (only' : (place' u).Only r) (memory : ∀ r' ∈ rings log, r' ≠ r → mem' r' = mem r')
    (others : ∀ w, w ≠ u → place' w = place w)
    (move : Move (2 ^ pow) ((mem r).abs pow item) (place u).view m ((mem' r).abs pow item)
      (place' u).view)
    (acts : Acts r m c (place u).phase (place' u).phase) :
    Step (2 ^ pow) (queueOf pow item mem place calls log)
      (queueOf pow item mem' place' calls (eventOf c r m ++ log)) := by
  have grown : ∀ r' ∈ rings log, r' ∈ rings (eventOf c r m ++ log) := fun r' old => by
    rwa [rings_eventOf]
  refine .move u r c m ?_ member ?_ ?_ acts rfl rfl
  · refine queueOf_frame _ grown (fun r' old apart => ?_) others fun r' old apart => ?_
    · rw [memory r' old fun same => apart (same ▸ rfl)]
    · have other : r' ≠ r := fun same => apart (same ▸ rfl)
      rw [only.viewAt_other other, only'.viewAt_other other]
  · intro r' _ other
    exact only.viewAt_other other
  · rw [queueOf_ring member, queueOf_ring (grown r member)]
    show Move _ _ ((place u).viewAt r) _ _ ((place' u).viewAt r)
    rwa [only.viewAt_self, only'.viewAt_self]

section Plain

variable {e : Event V} {calls' : ℕ}

theorem queueOf_plain (plain : rings (e :: log) = rings log)
    (memory : ∀ r ∈ rings log, (mem' r).abs pow item = (mem r).abs pow item)
    (others : ∀ w, w ≠ u → place' w = place w) (out : (place u).view = .out)
    (out' : (place' u).view = .out) :
    Frame u none (queueOf pow item mem place calls log)
      (queueOf pow item mem' place' calls' (e :: log)) := by
  refine queueOf_frame [e] (fun r old => ?_) (fun r old _ => memory r old) others
    fun r _ _ => ?_
  · rwa [List.singleton_append, plain]
  · rw [Place.viewAt_out out, Place.viewAt_out out']

end Plain

variable [DecidableEq T]

theorem queueOf_move_return {m : Option (Mark V)} {p : Phase V} {e : Event V}
    (member : r ∈ rings log) (only : (place u).Only r) (out : (place' u).view = .out)
    (memory : ∀ r' ∈ rings log, r' ≠ r → mem' r' = mem r')
    (others : ∀ w, w ≠ u → place' w = place w)
    (move : Move (2 ^ pow) ((mem r).abs pow item) (place u).view m ((mem' r).abs pow item) .out)
    (acts : Acts r m c (place u).phase p)
    (ret : ∀ σ σ' : Queue T V, Frame u none σ σ' → σ.phase u = p →
      σ'.phase u = (place' u).phase → σ'.calls = σ.calls → σ'.log = e :: σ.log →
      Step (2 ^ pow) σ σ')
    (plain : ∀ l : List (Event V), rings (e :: l) = rings l) :
    Relation.ReflTransGen (Step (2 ^ pow)) (queueOf pow item mem place calls log)
      (queueOf pow item mem' place' calls (e :: (eventOf c r m ++ log))) := by
  let middle : T → Place V := Function.update place u { place' u with phase := p }
  have middleSelf : middle u = { place' u with phase := p } := Function.update_self ..
  have first : Step (2 ^ pow) (queueOf pow item mem place calls log)
      (queueOf pow item mem' middle calls (eventOf c r m ++ log)) := by
    refine queueOf_move (c := c) (m := m) member only (Or.inr ?_) memory (fun w other => ?_) ?_ ?_
    · rw [middleSelf]
      exact out
    · exact Function.update_of_ne other ..
    · rw [middleSelf]
      show Move _ _ _ _ _ (place' u).view
      rwa [out]
    · rw [middleSelf]
      exact acts
  have second : Step (2 ^ pow) (queueOf pow item mem' middle calls (eventOf c r m ++ log))
      (queueOf pow item mem' place' calls (e :: (eventOf c r m ++ log))) := by
    refine ret _ _ (queueOf_plain (plain _) (fun _ _ => rfl) (fun w other => ?_) ?_ out) ?_ rfl rfl
      rfl
    · rw [others w other]
      exact (Function.update_of_ne other ..).symm
    · rw [middleSelf]
      exact out
    · show (middle u).phase = p
      rw [middleSelf]
  exact .tail (.single first) second

end QueueOf

end Elcrq
