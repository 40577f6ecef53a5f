import Elcrq.C.Walk

/-! # `EMPTY` is sound in `ELCRQ.h`

A `deq` that returns `EMPTY` has seen a moment at which every item of an `enq`
that had returned was returned or held by another `deq`.  The moment is the test
of the tail in the first ring on its walk that had no successor at the test: the
rings before it were closed and drained when they were tested, and stay so. -/

set_option autoImplicit false

namespace Elcrq.C

open Concurrent Concurrent.TicketRing Concurrent.RingList

variable {T : Type}

/-- Call `d` of `deq` is in its inner loop with head ticket `t` of ring `r`. -/
def Exec.HeldBy (e : Exec T) (d r t : ℕ) : Prop :=
  ∃ p, (e.st.pc p).holds = some (r, t) ∧ (e.st.pc p).phase = .deq d

/-- In this state call `c` of `deq` is running and finds nothing that is left for it. -/
structure Exec.EmptyFor (c : ℕ) (e : Exec T) : Prop where
  called : .deqCall c ∈ e.log
  running : .deqEmpty c ∉ e.log
  gone : ∀ a r t x, .enqRet a ∈ e.log → .enqItem a r t x ∈ e.log →
    e.Returned r t x ∨ ∃ d, d ≠ c ∧ e.HeldBy d r t

section Test

variable {pow : ℕ} {e : Exec T} {p : T} {f : DeqFrame} {h : Word}

theorem Inv.drained_of_test (inv : Inv pow e) (here : e.st.pc p = .deqExit f h)
    (test : tailIndex (e.st.ring f.head).tail - 1 ≤ h) : (e.abs pow).Drained f.head := by
  have member := inv.rq p
  have ok := inv.ok p
  rw [here] at member ok
  have drawn : h.toNat < (e.st.ring f.head).head.toNat := ok
  have ring : (e.abs pow).ring f.head = (e.st.ring f.head).abs pow itemOf := queueOf_ring member
  rintro t ⟨c, handed⟩
  have below : t < (tailIndex (e.st.ring f.head).tail).toNat := inv.draw_lt handed
  have test : (tailIndex (e.st.ring f.head).tail - 1).toNat ≤ h.toNat := test
  have one : (1 : Word).toNat = 1 := rfl
  rw [BitVec.toNat_sub, one] at test
  rw [ring]
  show t < (e.st.ring f.head).head.toNat
  omega

theorem Inv.drainedBefore_head (inv : Inv pow e) : (e.abs pow).DrainedBefore e.st.head := by
  intro r before
  rw [inv.layout.entry.1] at before
  exact absurd before (Older.not_oldest inv.queue.distinct inv.layout.oldest)

theorem Inv.emptyFor (inv : Inv pow e) (here : e.st.pc p = .deqExit f h)
    (test : tailIndex (e.st.ring f.head).tail - 1 ≤ h)
    (before : (e.abs pow).DrainedBefore f.head) (last : (e.st.ring f.head).next = none) :
    e.EmptyFor f.call := by
  have member := inv.rq p
  rw [here] at member
  have inCall : (e.abs pow).phase p = .deq f.call := congrArg Pc.phase here
  have ok := inv.queue.calls.phase_ok p
  rw [inCall] at ok
  refine ⟨ok.1, ok.2.2, fun a r t x _ item => ?_⟩
  have drained : (e.abs pow).Drained r := by
    have ringMember : r ∈ rings e.log := inv.queue.about _ item r rfl
    rcases older_total ringMember member with rfl | older | newer
    · exact inv.drained_of_test here test
    · exact before r older
    · -- nothing is newer than the ring without a successor
      exact absurd newer (inv.layout.linked.not_newer inv.queue.distinct member last)
  rcases inv.queue.item_of_drained item drained with ⟨d, taken⟩ | ⟨w, held⟩
  · exact Or.inl (inv.returned_once taken)
  · obtain ⟨d, inCall', _⟩ := inv.queue.deq_held w r (inv.queue.about _ item r rfl) t held
    have holds : (e.st.pc w).holds = some (r, t) := (e.st.pc w).deqTicket_view.mp held
    refine Or.inr ⟨d, ?_, w, holds, inCall'⟩
    rintro rfl
    have same : w = p := inv.queue.calls.phase_unique w p f.call (by rw [inCall']; rfl)
      (by rw [inCall]; rfl)
    rw [same, here] at holds
    cases holds

end Test

section Search

variable {pow : ℕ} {e e' : Exec T} {past : List (Exec T)} {p : T} {c : ℕ}

/-- Everything before the ring a call looks at is drained, and that ring too once
the call has tested it and a successor was there. -/
def Exec.OnWalk (pow : ℕ) (e : Exec T) (pc : Pc) : Prop :=
  (e.abs pow).DrainedBefore pc.rq ∧ (pc.tested = true →
    (e.abs pow).Drained pc.rq ∧ ∃ n, Older (rings e.log) pc.rq n)

/-- Each running `deq` has seen its empty moment or is still on its walk. -/
structure Searched (pow : ℕ) (e : Exec T) (past : List (Exec T)) : Prop where
  walk : ∀ p c, (e.st.pc p).phase = .deq c →
    (∃ x ∈ e :: past, Exec.EmptyFor c x) ∨ e.OnWalk pow (e.st.pc p)
  empty : ∀ c, .deqEmpty c ∈ e.log → ∃ x ∈ e :: past, Exec.EmptyFor c x

theorem Exec.OnWalk.keep (inv : Inv pow e) (refines : Refines pow e e') {pc : Pc}
    (member : pc.rq ∈ rings e.log) (walk : e.OnWalk pow pc) : e'.OnWalk pow pc := by
  refine ⟨steps_drainedBefore (Nat.two_pow_pos pow) inv.queue refines member walk.1,
    fun tested => ?_⟩
  obtain ⟨drained, n, older⟩ := walk.2 tested
  refine ⟨steps_drained refines member (inv.queue.closed _ n older) drained, n, ?_⟩
  exact (steps_older refines older.mem_new).mpr older

theorem Found.later (found : ∃ x ∈ e :: past, Exec.EmptyFor c x) :
    ∃ x ∈ e' :: e :: past, Exec.EmptyFor c x := by
  obtain ⟨x, member, empty⟩ := found
  exact ⟨x, List.mem_cons_of_mem _ member, empty⟩

/-- A step of a call on its walk: the test in a ring without a successor is the
moment that is looked for. -/
theorem Walks.searched [DecidableEq T] {pc : Pc} (inv : Inv pow e) (refines : Refines pow e e')
    (walks : Walks (e.st.ring (e.st.pc p).rq) c (e.st.pc p) pc)
    (searched : Searched pow e past) :
    (∃ x ∈ e' :: e :: past, Exec.EmptyFor c x) ∨ e'.OnWalk pow pc := by
  have member := inv.rq p
  cases walks with
  | same phase rq tested =>
      refine (searched.walk p c phase).imp Found.later fun walk => ?_
      have moved : e.OnWalk pow pc := by
        refine ⟨by rw [rq]; exact walk.1, fun isTested => ?_⟩
        rw [rq]
        exact walk.2 (tested isTested)
      exact moved.keep inv refines (by rw [rq]; exact member)
  | test f h call here test next =>
      subst call next
      rw [here] at member test
      refine (searched.walk p f.call (by rw [here]; rfl)).elim
        (fun found => Or.inl (Found.later found)) fun walk => ?_
      rw [here] at walk
      cases link : (e.st.ring f.head).next with
      | none =>
          exact Or.inl ⟨e, List.mem_cons_of_mem _ List.mem_cons_self,
            inv.emptyFor here test walk.1 link⟩
      | some n =>
          have older : Older (rings e.log) f.head n := by
            rcases inv.layout.linked.next_some inv.queue.distinct member link with
              ⟨isNone, _⟩ | ⟨older, _⟩
            · cases isNone
            · exact older
          have moved : e.OnWalk pow (.fixTail f) :=
            ⟨walk.1, fun _ => ⟨inv.drained_of_test here test, n, older⟩⟩
          exact Or.inr (moved.keep inv refines member)
  | hop f n call here link next =>
      subst call next
      rw [here] at member link
      refine (searched.walk p f.call (by rw [here]; rfl)).imp Found.later fun walk => ?_
      rw [here] at walk
      obtain ⟨drained, _⟩ := walk.2 rfl
      rcases inv.layout.linked.next_some inv.queue.distinct member link with
        ⟨isNone, _⟩ | ⟨older, between⟩
      · cases isNone
      · have moved : e.OnWalk pow (.deqFaa { f with head := n }) := by
          refine ⟨fun r before => ?_, nofun⟩
          rcases between r before with rfl | deeper
          · exact drained
          · exact walk.1 r deeper
        exact moved.keep inv refines older.mem_new

theorem Searched.next [DecidableEq T] {a : Act} (inv : Inv pow e) (searched : Searched pow e past)
    (next : e.next pow p a = some e') : Searched pow e' (e :: past) := by
  obtain ⟨refines, _⟩ := inv.next next
  have other : ∀ w c, w ≠ p → (e'.st.pc w).phase = .deq c →
      (∃ x ∈ e' :: e :: past, Exec.EmptyFor c x) ∨ e'.OnWalk pow (e'.st.pc w) := by
    intro w c isOther phase
    rw [next_others next isOther] at phase ⊢
    exact (searched.walk w c phase).imp Found.later fun walk => walk.keep inv refines (inv.rq w)
  cases next_stepped next with
  | callDeq idle here log =>
      refine ⟨fun w c phase => ?_, fun c empty => ?_⟩
      · by_cases same : w = p
        · subst same
          have start : e.OnWalk pow (.deqFaa ⟨e.st.calls, e.st.head⟩) :=
            ⟨inv.drainedBefore_head, nofun⟩
          rw [here]
          refine Or.inr (start.keep inv refines ?_)
          show e.st.head ∈ rings e.log
          rw [inv.layout.entry.1]
          exact List.mem_of_getLast? inv.layout.oldest
        · exact other w c same phase
      · rw [log] at empty
        exact Found.later (searched.empty c (by simpa using empty))
  | inEnq notDeq noEmpty _ =>
      refine ⟨fun w c phase => ?_, fun c empty => Found.later (searched.empty c (noEmpty c empty))⟩
      by_cases same : w = p
      · subst same
        exact absurd phase (notDeq c)
      · exact other w c same phase
  | access q pc events access after =>
      refine ⟨fun w c phase => ?_, fun c empty => ?_⟩
      · by_cases same : w = p
        · subst same
          have here : e'.st.pc w = pc := by rw [after, Exec.accessed_pc]
          rw [here] at phase ⊢
          exact (onRing_walks access phase).searched inv refines searched
        · exact other w c same phase
      · have log : e'.log = events ++ e.log := by rw [after]; rfl
        rw [log] at empty
        rcases List.mem_append.mp empty with new | old
        · obtain ⟨f, here, call, last⟩ := onRing_empty access new
          rw [here] at last
          refine (searched.walk p c ?_).elim Found.later fun walk => ?_
          · rw [here, ← call]
            rfl
          · -- a successor that was there at the test is still there
            exfalso
            have member := inv.rq p
            rw [here] at walk member
            obtain ⟨_, n, older⟩ := walk.2 rfl
            exact inv.layout.linked.not_newer inv.queue.distinct member last older
        · exact Found.later (searched.empty c old)

theorem trace_searched [DecidableEq T] (run : Trace (system pow) (e :: past)) :
    Searched pow e past := by
  generalize shape : e :: past = states at run
  induction run generalizing e past with
  | init isInit =>
      cases shape
      obtain ⟨rfl, _⟩ := isInit
      exact ⟨fun p c phase => (nomatch phase), fun c empty => (nomatch empty)⟩
  | step before step ih =>
      cases shape
      obtain ⟨p, a, next⟩ := step
      exact (ih rfl).next (reachable_inv before.reachable) next

/-- When a `deq` returns `EMPTY`, some state since its call was empty for it. -/
theorem empty_sound [DecidableEq T] (run : Trace (system pow) (e :: past))
    (empty : .deqEmpty c ∈ e.log) : ∃ x ∈ e :: past, Exec.EmptyFor c x :=
  (trace_searched run).empty c empty

/-- An item is enqueued and dequeued, and the next `deq` returns `EMPTY`. -/
theorem empty_sound_after_deq : ∃ (e : Exec Bool) (past : List (Exec Bool)),
    Trace (system 1) (e :: past) ∧ .deqEmpty 2 ∈ e.log ∧ ∃ x ∈ e :: past, Exec.EmptyFor 2 x := by
  obtain ⟨e, run, found⟩ := schedule_reaches (show 1 < 63 by decide)
    [[(true, .enq 5)], List.replicate 5 (true, .run), [(false, .deq)],
      List.replicate 4 (false, .run), [(false, .deq)], List.replicate 11 (false, .run)].flatten
    (fun e => decide (.deqEmpty 2 ∈ e.log)) (by decide +kernel)
  obtain ⟨past, trace⟩ := run.trace
  have empty := of_decide_eq_true found
  exact ⟨e, past, trace, empty, empty_sound trace empty⟩

end Search

end Elcrq.C
