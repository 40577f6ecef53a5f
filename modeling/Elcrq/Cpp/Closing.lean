import Elcrq.Cpp.Layout

/-! # The closed bit in `LCRQueue.hpp`

The exchange that links a node is the only write to a `next` field, and its thread has
found the closed bit set.  The bit stays until an `enqueue` counts the tail word from
`2^64 - 1` to `0`; up to there both hold whatever the tickets are. -/

set_option autoImplicit false

namespace Elcrq.Cpp

open Concurrent Concurrent.TicketRing Concurrent.RingList Concurrent.Hazard

/-! ## The `next` fields -/

section Next

variable {n : ℕ} {A V : Type} [DecidableEq A] [DecidableEq V] {pow : ℕ} {e e' : Exec n A V}
  {p : Fin n}

theorem Stepped.next_field (stepped : Stepped pow e e' p) {i : ℕ} (lt : i < e.st.made) :
    (e'.st.node i).next = (e.st.node i).next ∨
      ((e.st.node i).next = none ∧ ∃ f l m, e.st.pc p = .enqLink f l m ∧ i = e.st.nodeAt l) := by
  cases stepped with
  | quiet _ same _ _ _ _ => exact Or.inl (by rw [same.node])
  | swing _ _ _ _ _ _ same _ _ => exact Or.inl (by rw [same.node])
  | validate c here after => exact Or.inl (by rw [after]; rfl)
  | empty c here after => exact Or.inl (by rw [after]; rfl)
  | access a q pc events guarded access after =>
      left
      rw [after]
      by_cases here : i = e.st.nodeAt a
      · rw [here, Exec.accessed_node]
        exact (onNode_leads access).next
      · rw [Exec.accessed_node_other here]
  | fill m q pc own after field notDeq =>
      left
      rw [after]
      by_cases here : i = e.st.nodeAt m
      · rw [here, Exec.accessed_node, field]
      · rw [Exec.accessed_node_other here]
  | link f l m here last after =>
      by_cases isL : i = e.st.nodeAt l
      · rw [isL]
        exact Or.inr ⟨last, f, l, m, here, rfl⟩
      · left
        rw [after, Exec.accessed_node_other isL]
  | construct f l a here unused after =>
      left
      rw [after]
      exact congrArg RingQueue.next (Function.update_of_ne lt.ne ..)

theorem Stepped.next_made (stepped : Stepped pow e e' p) {i : ℕ} (lt : i < e'.st.made) :
    i < e.st.made ∨ (e'.st.node i).next = none := by
  cases stepped with
  | quiet _ same _ _ _ _ => exact Or.inl (by rwa [← same.made])
  | swing _ _ _ _ _ _ same _ _ => exact Or.inl (by rwa [← same.made])
  | validate c here after => subst after; exact Or.inl lt
  | empty c here after => subst after; exact Or.inl lt
  | access a q pc events guarded access after => subst after; exact Or.inl lt
  | fill m q pc own after field notDeq => subst after; exact Or.inl lt
  | link f l m here last after => subst after; exact Or.inl lt
  | construct f l a here unused after =>
      subst after
      have lt : i < e.st.made + 1 := lt
      by_cases isNew : i = e.st.made
      · right
        show (Function.update e.st.node e.st.made (initRing none) i).next = none
        rw [isNew, Function.update_self]
        rfl
      · left
        omega

omit [DecidableEq A] [DecidableEq V] in
theorem mem_rings_append {log : List (Event V)} {i : ℕ} (member : i ∈ rings log)
    (events : List (Event V)) : i ∈ rings (events ++ log) := by
  induction events with
  | nil => exact member
  | cons event rest ih =>
      cases event with
      | link r m => exact List.mem_cons_of_mem _ ih
      | _ => exact ih

theorem Stepped.linked (stepped : Stepped pow e e' p) {i : ℕ} (member : i ∈ rings e.log) :
    i ∈ rings e'.log := by
  cases stepped with
  | quiet events _ _ _ _ log => rw [log]; exact mem_rings_append member events
  | swing _ _ _ _ _ _ _ _ log => rwa [log]
  | validate c here after => rwa [after]
  | empty c here after => rw [after]; exact mem_rings_append member [_]
  | access a q pc events guarded access after => rw [after]; exact mem_rings_append member events
  | fill m q pc own after field notDeq => rwa [after]
  | link f l m here last after => rw [after]; exact mem_rings_append member [_, _, _]
  | construct f l a here unused after => rwa [after]

def Exec.LooseEnds (e : Exec n A V) : Prop :=
  ∀ i < e.st.made, i ∉ rings e.log → (e.st.node i).next = none

omit [DecidableEq A] [DecidableEq V] in
theorem Layout.linker (layout : Layout e) {f : EnqFrame V} {l m : A}
    (here : e.st.pc p = .enqLink f l m) : e.st.nodeAt l ∈ rings e.log :=
  (layout.guarded (p := p) (by rw [here]; rfl)).2.2

theorem machine_looseEnds (run : Reachable (machine pow) e) : e.LooseEnds := by
  refine Reachable.invariant_along (M := machine pow) (I := Exec.LooseEnds) ?_ ?_ run
  · rintro e ⟨sentinel, rfl⟩ i _ _
    rfl
  · rintro e e' before loose ⟨p, act, does⟩ i lt notIn
    have stepped := (does_goes does).stepped
    have notBefore : i ∉ rings e.log := fun member => notIn (stepped.linked member)
    rcases stepped.next_made lt with old | isNone
    · rcases stepped.next_field old with same | ⟨_, f, l, m, here, rfl⟩
      · rw [same]
        exact loose i old notBefore
      · exact absurd ((machine_layout before).linker here) notBefore
    · exact isNone

end Next

/-! ## The tail words -/

section Tail

variable {A V : Type} {q q' : RingQueue A (Option V)} {pc pc' : Pc A V} {events : List (Event V)}
  {pow i : ℕ}

/-- What a call knows about the tail word of the node `q` it guards. -/
def Pc.TailOk (q : RingQueue A (Option V)) : Pc A V → Prop
  | .enqConstruct _ _ | .soloTail _ _ _ | .soloVal _ _ _ | .soloIdx _ _ _ | .enqLink _ _ _ =>
      crqIsClosed q.tail = true
  | .fixCas _ _ _ t head => t < head
  | _ => True

theorem Pc.TailOk.mono (ok : pc.TailOk q)
    (closed : crqIsClosed q.tail = true → crqIsClosed q'.tail = true) : pc.TailOk q' := by
  cases pc <;> first | trivial | exact closed ok

theorem atEmptyCell_tailOk (c : ℕ) (l : A) (h tt : Word) (r : ℕ) (cellIdx : Word) :
    (atEmptyCell c l h tt r cellIdx).TailOk q := by
  unfold atEmptyCell
  split
  · trivial
  · split <;> trivial

theorem crqIsClosed_setUnsafe (t : Word) : crqIsClosed (setUnsafe t) = true := by
  rw [crqIsClosed_iff, setUnsafe_toNat]
  omega

/-- An access keeps the closed bit unless it counts the tail word to `0`. -/
theorem onNode_tail [DecidableEq V] (ok : pc.TailOk q)
    (room : ∀ f l, pc = .enqFaa f l → q.tail + 1 ≠ 0)
    (access : onNode pow i q pc = some (q', pc', events)) :
    (crqIsClosed q.tail = true → crqIsClosed q'.tail = true) ∧ pc'.TailOk q' := by
  cases pc with
  | enqFaa f l =>
      have kept : crqIsClosed q.tail = true → crqIsClosed (q.tail + 1) = true := by
        have moves := room f l rfl
        rw [crqIsClosed_iff, crqIsClosed_iff]
        intro closed
        have room : q.tail.toNat + 1 < 2 ^ 64 := by
          by_contra full
          apply moves
          have bound := q.tail.isLt
          bv_omega
        rw [add_one_toNat _ room]
        omega
      simp only [onNode] at access
      split at access <;> cases access
      next closed => exact ⟨kept, kept closed⟩
      next => exact ⟨kept, trivial⟩
  | fixCas c l h t head =>
      have less : t.toNat < head.toNat := ok
      simp only [onNode] at access
      rcases q.casTail_cases t head with failed | ⟨isTail, done⟩
      · rw [failed] at access
        cases access
        exact ⟨id, trivial⟩
      · rw [done] at access
        cases access
        refine ⟨fun closed => ?_, trivial⟩
        rw [crqIsClosed_iff] at closed ⊢
        show 2 ^ 63 ≤ head.toNat
        rw [isTail] at closed
        omega
  | enqClose f l t =>
      cases access
      refine ⟨fun closed => ?_, trivial⟩
      rcases q.closeCrq_cases t f.tryClose with failed | set
      · rw [failed]
        exact closed
      · rw [set]
        exact crqIsClosed_setUnsafe q.tail
  | deqClose c l h =>
      cases access
      exact ⟨fun _ => crqIsClosed_setUnsafe q.tail, trivial⟩
  | deqTail c l h r cellIdx =>
      cases access
      exact ⟨id, atEmptyCell_tailOk ..⟩
  | deqVal c l h tt r cellIdx =>
      simp only [onNode] at access
      (repeat' split at access) <;> cases access <;>
        first | exact ⟨id, trivial⟩ | exact ⟨id, atEmptyCell_tailOk ..⟩
  | enqCas2 | deqTake | deqMark | deqSkipUnsafe | deqSkip =>
      simp only [onNode] at access
      (repeat' split at access) <;> cases access <;>
        (have same : q'.tail = q.tail := RingQueue.cas2_tail_of ‹_›
         rw [same]
         exact ⟨id, trivial⟩)
  | fixCheck c l h t head =>
      simp only [onNode] at access
      (repeat' split at access) <;> cases access
      · exact ⟨id, trivial⟩
      next behind => exact ⟨id, behind⟩
      · exact ⟨id, trivial⟩
  | enqNext | enqIdx | enqVal | enqHead | enqFull | deqFaa | deqIdx | deqExit | fixTail | fixHead
  | deqNext | deqTest =>
      simp only [onNode] at access
      (repeat' split at access) <;> cases access <;> exact ⟨id, trivial⟩
  | _ => cases access

end Tail

section Closing

variable {n : ℕ} {A V : Type} [DecidableEq A] [DecidableEq V] {pow : ℕ} {e e' : Exec n A V}
  {p : Fin n}

/-- Every linked node but the last one is closed, and so is the node behind which a
thread is about to link. -/
structure Exec.Closing (e : Exec n A V) : Prop where
  linked : ∀ i < e.st.made, (e.st.node i).next ≠ none → crqIsClosed (e.st.node i).tail = true
  ok : ∀ w a, (e.st.pc w).guarded = some a → (e.st.pc w).TailOk (e.st.node (e.st.nodeAt a))

/-- Thread `p` does not count a tail word from `2^64 - 1` to `0`. -/
def Exec.NotWrapping (e : Exec n A V) (p : Fin n) : Prop :=
  ∀ f l, e.st.pc p = .enqFaa f l → (e.st.node (e.st.nodeAt l)).tail + 1 ≠ 0

/-- The runs in which no tail word is counted from `2^64 - 1` to `0`. -/
def wraplessSystem (pow : ℕ) : System (Exec n A V) where
  init := fun e => ∃ sentinel, e = Exec.init sentinel
  step := fun e e' => ∃ p act, e.NotWrapping p ∧ e.does pow p act = some e'

theorem Stepped.tail (layout : Layout e) (closing : e.Closing) (room : e.NotWrapping p)
    (stepped : Stepped pow e e' p) {i : ℕ} (member : i ∈ rings e.log)
    (closed : crqIsClosed (e.st.node i).tail = true) : crqIsClosed (e'.st.node i).tail = true := by
  cases stepped with
  | quiet _ same _ _ _ _ => rwa [same.node]
  | swing _ _ _ _ _ _ same _ _ => rwa [same.node]
  | validate c here after => rwa [after]
  | empty c here after => rwa [after]
  | access a q pc events guarded access after =>
      rw [after]
      by_cases here : i = e.st.nodeAt a
      · rw [here] at closed ⊢
        rw [Exec.accessed_node]
        refine (onNode_tail (closing.ok p a guarded) (fun f l at_ => ?_) access).1 closed
        rw [at_] at guarded
        cases guarded
        exact room f a at_
      · rwa [Exec.accessed_node_other here]
  | fill m q pc own after field notDeq =>
      rw [after, Exec.accessed_node_other (layout.own_apart own member).symm]
      exact closed
  | link f l m here last after =>
      rw [after]
      by_cases isL : i = e.st.nodeAt l
      · rw [isL] at closed ⊢
        rwa [Exec.accessed_node]
      · rwa [Exec.accessed_node_other isL]
  | construct f l a here unused after =>
      have lt : i < e.st.made := layout.heap.chain_lt i member
      have same : e'.st.node i = e.st.node i := by
        rw [after]
        exact Function.update_of_ne lt.ne ..
      rwa [same]

omit [DecidableEq A] [DecidableEq V] in
theorem scanFrom_tailOk {q : RingQueue A (Option V)} (c : ℕ) (ptr : A) (iret size : ℕ) :
    (scanFrom c ptr iret size).TailOk q := by
  unfold scanFrom
  split <;> trivial

omit [DecidableEq V] in
theorem scanSlot_tailOk {q : RingQueue A (Option V)} (s : State n A V) (c : ℕ) (ptr obj : A)
    (iret tid : ℕ) : (scanSlot s p c ptr obj iret tid).TailOk q := by
  unfold scanSlot
  split
  · exact scanFrom_tailOk ..
  · split <;> trivial

/-- What thread `p` knows after its step. -/
theorem Exec.Goes.tailOk (layout : Layout e) (closing : e.Closing) (room : e.NotWrapping p)
    (goes : e.Goes pow p e') {a : A} (guarded : (e'.st.pc p).guarded = some a) :
    (e'.st.pc p).TailOk (e'.st.node (e'.st.nodeAt a)) := by
  have stays : ∀ {pc : Pc A V} {l : A}, e.st.pc p = pc → pc.guarded = some l →
      (pc.TailOk (e.st.node (e.st.nodeAt l)) →
        crqIsClosed (e.st.node (e.st.nodeAt l)).tail = true) →
      crqIsClosed (e'.st.node (e'.st.nodeAt l)).tail = true := by
    rintro pc l rfl guarded closed
    rw [goes.stepped.nodeAt layout (Exec.tracked_of_guarded guarded)]
    exact goes.stepped.tail layout closing room (layout.guarded guarded).2.2
      (closed (closing.ok p l guarded))
  cases goes with
  | access l q pc events before access =>
      have same : l = a := by
        rw [Exec.accessed_pc] at guarded
        cases (onNode_leads access).onward with
        | keep same _ => exact Option.some.inj (before.symm.trans (same.symm.trans guarded))
        | leave unguarded _ => cases unguarded.symm.trans guarded
      subst same
      show ((e.accessed p l q pc events).st.pc p).TailOk ((e.accessed p l q pc events).st.node
        (e.st.nodeAt l))
      rw [Exec.accessed_pc, Exec.accessed_node]
      refine (onNode_tail (closing.ok p l before) (fun f m at_ => ?_) access).2
      rw [at_] at before
      cases before
      exact room f l at_
  | construct f l m here unused =>
      rw [State.goto_pc] at guarded ⊢
      cases guarded
      exact stays here rfl id
  | soloTail f l m here | soloVal f l m here | soloIdx f l m here =>
      rw [Exec.accessed_pc] at guarded ⊢
      cases guarded
      exact stays here rfl id
  | link f l m here last =>
      rw [Exec.accessed_pc]
      trivial
  | unlink c l m here isHead =>
      rw [State.goto_pc]
      exact scanFrom_tailOk ..
  | destroy c ptr obj iret here looked =>
      rw [State.goto_pc]
      exact scanFrom_tailOk ..
  | scan c ptr obj iret tid here looked =>
      rw [State.goto_pc]
      exact scanSlot_tailOk ..
  | _ =>
      rw [State.goto_pc]
      trivial

theorem Exec.Closing.goes (layout : Layout e) (loose : e.LooseEnds) (closing : e.Closing)
    (room : e.NotWrapping p) (goes : e.Goes pow p e') : e'.Closing := by
  have stays := fun {i} => goes.stepped.tail layout closing room (i := i)
  refine ⟨fun i lt isSome => ?_, fun w a guarded => ?_⟩
  · rcases goes.stepped.next_made lt with old | isNone
    · rcases goes.stepped.next_field old with same | ⟨last, f, l, m, here, rfl⟩
      · rw [same] at isSome
        refine stays ?_ (closing.linked i old isSome)
        by_contra missing
        exact isSome (loose i old missing)
      · refine stays (layout.linker here) ?_
        have ok := closing.ok p l (by rw [here]; rfl)
        rw [here] at ok
        exact ok
    · exact absurd isNone isSome
  · by_cases same : w = p
    · subst same
      exact goes.tailOk layout closing room guarded
    · rw [goes.others same] at guarded ⊢
      rw [goes.stepped.nodeAt layout (Exec.tracked_of_guarded guarded)]
      exact (closing.ok w a guarded).mono (stays (layout.guarded guarded).2.2)

theorem wrapless_machine (run : Reachable (wraplessSystem pow) e) : Reachable (machine pow) e := by
  induction run with
  | init isInit => exact .init isInit
  | step _ step ih =>
      obtain ⟨p, act, _, does⟩ := step
      exact .step ih ⟨p, act, does⟩

theorem wrapless_closing (run : Reachable (wraplessSystem pow) e) : e.Closing := by
  refine Reachable.invariant_along (M := wraplessSystem pow) (I := Exec.Closing) ?_ ?_ run
  · rintro e ⟨sentinel, rfl⟩
    exact ⟨fun i _ isSome => absurd rfl isSome, nofun⟩
  · rintro e e' before closing ⟨p, act, room, does⟩
    have run := wrapless_machine before
    exact closing.goes (machine_layout run) (machine_looseEnds run) room (does_goes does)

end Closing

end Elcrq.Cpp
