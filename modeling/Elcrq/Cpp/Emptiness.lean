import Elcrq.Cpp.Items

/-! # `nullptr` is sound in `LCRQueue.hpp`

A `dequeue` that returns `nullptr` has seen a moment at which every item of an
`enqueue` that had returned was returned or held by another `dequeue`.  The moment
is the first test of the tail, before `fixState` and the read of `next`: `next` was
not set at the test, because it is not set later and is never reset. -/

set_option autoImplicit false

namespace Elcrq.Cpp

open Concurrent Concurrent.TicketRing Concurrent.RingList Concurrent.Hazard

section Empty

variable {n : ℕ} {A V : Type}

/-- Call `d` of `dequeue` is in progress and holds head ticket `t` of node `r`: it is in
its inner loop or has taken the item and not returned yet. -/
def Exec.HeldBy (e : Exec n A V) (d r t : ℕ) : Prop :=
  ∃ p, ((e.st.pc p).holds e.st.nodeAt = some (r, t) ∧ (e.st.pc p).phase = .deq d) ∨
    ∃ x, e.st.pc p = .deqClear d (some ⟨r, t, x⟩)

/-- In this state call `c` of `dequeue` is running and finds nothing that is left for it. -/
structure Exec.EmptyFor (c : ℕ) (e : Exec n A V) : Prop where
  called : .deqCall c ∈ e.log
  running : .deqEmpty c ∉ e.log
  gone : ∀ a r t x, .enqRet a ∈ e.log → .enqItem a r t x ∈ e.log →
    e.Returned r t x ∨ ∃ d, d ≠ c ∧ e.HeldBy d r t

variable {pow : ℕ} {e e' : Exec n A V} {past : List (Exec n A V)} {p : Fin n} {c : ℕ}

theorem Inv.not_newer {i j : ℕ} (inv : Inv pow e) (member : i ∈ rings e.log)
    (last : (e.st.node i).next = none) : ¬ Older (rings e.log) i j := by
  rw [inv.next i member] at last
  exact inv.heap.linked.not_newer inv.heap.distinct member (Option.map_eq_none_iff.mp last)

theorem Inv.emptyFor {l : A} {h : Word} (inv : Inv pow e) (ordered : Ordered pow e)
    (here : e.st.pc p = .deqExit c l h)
    (test : tailIndex (e.st.node (e.st.nodeAt l)).tail ≤ h + 1)
    (last : (e.st.node (e.st.nodeAt l)).next = none) : e.EmptyFor c := by
  have guarded : (e.st.pc p).guarded = some l := by rw [here]; rfl
  have member := (inv.layout.guarded guarded).2.2
  have inCall : (e.abs pow).phase p = .deq c := congrArg Pc.phase here
  have callOk := inv.queue.calls.phase_ok p
  rw [inCall] at callOk
  have otherCall : ∀ w d, ((e.abs pow).phase w).call = some d → w ≠ p → d ≠ c := by
    rintro w d isCall other rfl
    exact other (inv.queue.calls.phase_unique w p d isCall (by rw [inCall]; rfl))
  refine ⟨callOk.1, callOk.2.2, fun a r t x _ item => ?_⟩
  have ringMember : r ∈ rings e.log := inv.queue.about _ item r rfl
  have drained : (e.abs pow).Drained r := by
    rcases older_total ringMember member with rfl | older | newer
    · have ok := inv.ok p
      rw [Pc.ring_of_guarded guarded, here] at ok
      exact inv.drained_of_test guarded ok test
    · exact ordered.walk p c l inCall guarded r older
    · -- nothing is newer than the node without a successor
      exact absurd newer (inv.not_newer member last)
  rcases inv.queue.item_of_drained item drained with ⟨d, taken⟩ | ⟨w, held⟩
  · rcases inv.taken_cases taken with returned | leaving
    · exact Or.inl returned
    · obtain ⟨w, d', atClear, _⟩ := leaving.taken
      refine Or.inr ⟨d', otherCall w d' ?_ ?_, w, Or.inr ⟨x, atClear⟩⟩
      · show (e.st.pc w).phase.call = _
        rw [atClear]
        rfl
      · rintro rfl
        cases here.symm.trans atClear
  · obtain ⟨d, inCall', _⟩ := inv.queue.deq_held w r ringMember t held
    have holds := (e.st.pc w).deqTicket_view.mp held
    refine Or.inr ⟨d, otherCall w d (by rw [inCall']; rfl) ?_, w, Or.inl ⟨holds, inCall'⟩⟩
    rintro rfl
    rw [here] at holds
    cases holds

/-- A call that has tested the tail, and one that is about to return `nullptr`, has seen
its empty moment, unless its node had a successor at the test. -/
structure Searched (e : Exec n A V) (past : List (Exec n A V)) : Prop where
  tested : ∀ p c l, (e.st.pc p).phase = .deq c → (e.st.pc p).tested = true →
    (e.st.pc p).guarded = some l →
    (∃ x ∈ e :: past, Exec.EmptyFor c x) ∨ ∃ j, Older (rings e.log) (e.st.nodeAt l) j
  answer : ∀ p c, e.st.pc p = .deqClear c none → ∃ x ∈ e :: past, Exec.EmptyFor c x
  empty : ∀ c, .deqEmpty c ∈ e.log → ∃ x ∈ e :: past, Exec.EmptyFor c x

theorem Found.later (found : ∃ x ∈ e :: past, Exec.EmptyFor c x) :
    ∃ x ∈ e' :: e :: past, Exec.EmptyFor c x := by
  obtain ⟨x, member, empty⟩ := found
  exact ⟨x, List.mem_cons_of_mem _ member, empty⟩

theorem Pc.guarded_of_tested {pc : Pc A V} (tested : pc.tested = true) : pc.guarded ≠ none := by
  cases pc <;> first | cases tested; done | exact Option.some_ne_none _

variable [DecidableEq A] [DecidableEq V] {act : Act A V}

/-- The tests and answers of the thread that steps. -/
theorem Stepped.searched (inv : Inv pow e) (ordered : Ordered pow e)
    (searched : Searched e past) (stepped : Stepped pow e e' p)
    (phase : (e'.st.pc p).phase = .deq c) :
    (∀ l, (e'.st.pc p).tested = true → (e'.st.pc p).guarded = some l →
      (∃ x ∈ e :: past, Exec.EmptyFor c x) ∨
        (e.Tracked l ∧ ∃ j, Older (rings e.log) (e.st.nodeAt l) j)) ∧
      (e'.st.pc p = .deqClear c none → ∃ x ∈ e :: past, Exec.EmptyFor c x) := by
  have idle : (e'.st.pc p).guarded = none → e'.st.pc p ≠ .deqClear c none →
      (∀ l, (e'.st.pc p).tested = true → (e'.st.pc p).guarded = some l →
        (∃ x ∈ e :: past, Exec.EmptyFor c x) ∨
          (e.Tracked l ∧ ∃ j, Older (rings e.log) (e.st.nodeAt l) j)) ∧
        (e'.st.pc p = .deqClear c none → ∃ x ∈ e :: past, Exec.EmptyFor c x) :=
    fun unguarded notClear => ⟨fun l tested _ => absurd unguarded (Pc.guarded_of_tested tested),
      fun isClear => absurd isClear notClear⟩
  cases stepped with
  | quiet _ _ _ rests _ _ => exact idle (rests c phase).1 (rests c phase).2
  | swing _ _ _ _ _ _ _ rests _ => exact idle (rests c phase).1 (rests c phase).2
  | validate c' here after =>
      rw [after, show (State.goto _ p _).pc p = _ from Function.update_self ..]
      exact ⟨nofun, nofun⟩
  | empty c' here after =>
      rw [after, show (State.goto _ p _).pc p = _ from Function.update_self ..] at phase
      cases phase
  | access a q pc events guarded access after =>
      have isPc : e'.st.pc p = pc := by rw [after, Exec.accessed_pc]
      have member := (inv.layout.guarded guarded).2.2
      have tracked : e.Tracked a := Exec.tracked_of_guarded guarded
      rw [isPc] at phase idle ⊢
      cases onNode_walks access phase with
      | same phase' sameGuard tested _ =>
          refine ⟨fun l isTested guarded' => ?_, fun isClear => ?_⟩
          · rw [sameGuard] at guarded'
            refine (searched.tested p c l phase' (tested isTested) guarded').imp_right fun older => ?_
            exact ⟨Exec.tracked_of_guarded guarded', older⟩
          · rw [isClear, guarded] at sameGuard
            cases sameGuard
      | leave isNext =>
          rw [isNext] at idle ⊢
          exact idle rfl nofun
      | test l h here test isNext =>
          have isL : a = l := by
            rw [here] at guarded
            exact (Option.some.inj guarded).symm
          subst isL
          rw [isNext]
          refine ⟨fun l _ guarded' => ?_, nofun⟩
          cases guarded'
          cases link : (e.st.node (e.st.nodeAt a)).next with
          | none => exact Or.inl ⟨e, List.mem_cons_self, inv.emptyFor ordered here test link⟩
          | some m =>
              rw [inv.next _ member] at link
              obtain ⟨j, isNextNode, _⟩ := Option.map_eq_some_iff.mp link
              exact Or.inr ⟨tracked, j, (inv.heap.next_older (i := e.st.nodeAt a) isNextNode).1⟩
      | empty l h here last isNext =>
          have isL : a = l := by
            rw [here] at guarded
            exact (Option.some.inj guarded).symm
          subst isL
          rw [isNext]
          refine ⟨nofun, fun _ => ?_⟩
          have phase' : (e.st.pc p).phase = .deq c := by rw [here]; rfl
          rcases searched.tested p c a phase' (by rw [here]; rfl) guarded with found | ⟨j, older⟩
          · exact found
          · exact absurd older (inv.not_newer member last)
      | retest l h m here _ isNext =>
          rw [isNext]
          exact ⟨nofun, nofun⟩
  | fill m q pc own after next notDeq =>
      rw [after, Exec.accessed_pc] at phase
      exact absurd phase (notDeq c)
  | link f l m here last after =>
      rw [after, Exec.accessed_pc] at phase
      cases phase
  | construct f l a here unused after =>
      rw [after, show (State.goto _ p _).pc p = _ from Function.update_self ..] at phase
      cases phase

theorem Stepped.empty_cases (stepped : Stepped pow e e' p) (empty : .deqEmpty c ∈ e'.log) :
    .deqEmpty c ∈ e.log ∨ e.st.pc p = .deqClear c none := by
  cases stepped with
  | quiet events _ _ _ silent log =>
      rw [log] at empty
      exact Or.inl ((List.mem_append.mp empty).resolve_left (silent.2.1 c))
  | swing _ _ _ _ _ _ _ _ log => exact Or.inl (log ▸ empty)
  | validate c' here after => exact Or.inl (by rw [after] at empty; exact empty)
  | empty c' here after =>
      rw [after] at empty
      rcases List.mem_cons.mp empty with isNew | old
      · cases isNew
        exact Or.inr here
      · exact Or.inl old
  | access a q pc events guarded access after =>
      rw [after] at empty
      exact Or.inl ((List.mem_append.mp empty).resolve_left ((onNode_events access).2 c))
  | fill m q pc own after next notDeq => exact Or.inl (by rw [after] at empty; exact empty)
  | link f l m here last after =>
      rw [after] at empty
      exact Or.inl (by simpa [Exec.accessed] using empty)
  | construct f l a here unused after => exact Or.inl (by rw [after] at empty; exact empty)

theorem Searched.next (inv : Inv pow e) (ordered : Ordered pow e) (searched : Searched e past)
    (next : e.next pow p act = some e') : Searched e' (e :: past) := by
  have refines := (next_inv inv next).1
  have stepped := next_stepped next
  have grow : ∀ i j, Older (rings e.log) i j → Older (rings e'.log) i j := fun i j older =>
    (steps_older refines older.mem_new).mpr older
  refine ⟨fun w c l phase tested guarded => ?_, fun w c here => ?_, fun c empty => ?_⟩
  · by_cases same : w = p
    · subst same
      refine ((stepped.searched inv ordered searched phase).1 l tested guarded).imp Found.later ?_
      rintro ⟨tracked, j, older⟩
      rw [stepped.nodeAt inv.layout tracked]
      exact ⟨j, grow _ j older⟩
    · rw [next_others next same] at phase tested guarded
      refine (searched.tested w c l phase tested guarded).imp Found.later ?_
      rintro ⟨j, older⟩
      rw [stepped.nodeAt inv.layout (Exec.tracked_of_guarded guarded)]
      exact ⟨j, grow _ j older⟩
  · by_cases same : w = p
    · subst same
      have phase : (e'.st.pc w).phase = .deq c := by rw [here]; rfl
      exact Found.later ((stepped.searched inv ordered searched phase).2 here)
    · rw [next_others next same] at here
      exact Found.later (searched.answer w c here)
  · rcases stepped.empty_cases empty with old | here
    · exact Found.later (searched.empty c old)
    · exact Found.later (searched.answer p c here)

theorem trace_searched (run : Trace (system pow) (e :: past)) : Searched e past := by
  generalize shape : e :: past = states at run
  induction run generalizing e past with
  | init isInit =>
      cases shape
      obtain ⟨⟨sentinel, rfl⟩, _⟩ := isInit
      exact ⟨nofun, nofun, nofun⟩
  | step before step ih =>
      cases shape
      obtain ⟨p, act, next⟩ := step
      exact (ih rfl).next (reachable_inv before.reachable) (reachable_ordered before.reachable) next

/-- When a `dequeue` returns `nullptr`, some state since its call was empty for it. -/
theorem nullptr_sound (run : Trace (system pow) (e :: past)) (empty : .deqEmpty c ∈ e.log) :
    ∃ x ∈ e :: past, Exec.EmptyFor c x :=
  (trace_searched run).empty c empty

end Empty

/-- An item is enqueued and dequeued, and the next `dequeue` returns `nullptr`. -/
theorem nullptr_sound_after_dequeue : ∃ (e : Exec 2 ℕ ℕ) (past : List (Exec 2 ℕ ℕ)),
    Trace (system 1) (e :: past) ∧ .deqEmpty 2 ∈ e.log ∧ ∃ x ∈ e :: past, Exec.EmptyFor 2 x := by
  obtain ⟨e, run, found⟩ := schedule_reaches (show 1 < 63 by decide) 0
    ([burst 1 (.enqueue 5) 9, burst 0 .dequeue 8, burst 0 .dequeue 15] :
      List (List (Fin 2 × Act ℕ ℕ))).flatten
    (fun e => decide (.deqEmpty 2 ∈ e.log)) (by decide +kernel)
  obtain ⟨past, trace⟩ := run.trace
  have empty := of_decide_eq_true found
  exact ⟨e, past, trace, empty, nullptr_sound trace empty⟩

end Elcrq.Cpp
