import Elcrq.C.Emptiness
import Elcrq.C.Alone

/-! # Calls one at a time

When calls of `enq` and `deq` do not overlap, `ELCRQ.h` is a FIFO list.  Items are
stored in the order of rings and tickets, and a call that runs alone takes the
first one of them that is left: the rings before the one it works on are drained.
Each call returns, since it runs alone. -/

set_option autoImplicit false

namespace Elcrq.C

open Concurrent Concurrent.TicketRing Concurrent.RingList

/-! ## The specification -/

inductive Op
  | enq (arg : Word)
  | deq

/-- What the calls of `deq` on a mathematical queue with content `q` return. -/
def fifo : List Word → List Op → List Word
  | _, [] => []
  | q, .enq x :: ops => fifo (q ++ [x]) ops
  | [], .deq :: ops => EMPTY :: fifo [] ops
  | x :: q, .deq :: ops => x :: fifo q ops

/-! ## What the history says -/

section History

/-- The marks that `f` finds in the history, oldest first. -/
def history {α : Type} (f : Event Word → Option α) (log : List (Event Word)) : List α :=
  (log.filterMap f).reverse

def resultOf : Event Word → Option Word
  | .deqRet _ _ _ x => some x
  | .deqEmpty _ => some EMPTY
  | _ => none

/-- Ring, ticket and value of an item that is stored. -/
def storedOf : Event Word → Option (ℕ × ℕ × Word)
  | .enqItem _ r t x => some (r, t, x)
  | _ => none

def takenOf : Event Word → Option (ℕ × ℕ × Word)
  | .deqItem _ r h x => some (r, h, x)
  | _ => none

variable {α : Type} {f : Event Word → Option α} {log events : List (Event Word)}

theorem history_append : history f (events ++ log) = history f log ++ history f events := by
  simp only [history, List.filterMap_append, List.reverse_append]

theorem mem_history {a : α} : a ∈ history f log ↔ ∃ event ∈ log, f event = some a := by
  simp only [history, List.mem_reverse, List.mem_filterMap]

theorem mem_stored {r t : ℕ} {x : Word} :
    (r, t, x) ∈ history storedOf log ↔ ∃ c, .enqItem c r t x ∈ log := by
  rw [mem_history]
  constructor
  · rintro ⟨event, member, found⟩
    cases event <;> cases found
    exact ⟨_, member⟩
  · rintro ⟨c, member⟩
    exact ⟨_, member, rfl⟩

theorem mem_taken {r h : ℕ} {x : Word} :
    (r, h, x) ∈ history takenOf log ↔ ∃ d, .deqItem d r h x ∈ log := by
  rw [mem_history]
  constructor
  · rintro ⟨event, member, found⟩
    cases event <;> cases found
    exact ⟨_, member⟩
  · rintro ⟨d, member⟩
    exact ⟨_, member, rfl⟩

def silent (event : Event Word) : Prop :=
  storedOf event = none ∧ takenOf event = none ∧ resultOf event = none

theorem history_silent (quiet : ∀ event ∈ events, f event = none) :
    history f (events ++ log) = history f log := by
  have none_ : events.filterMap f = [] := List.filterMap_eq_nil_iff.mpr quiet
  rw [history_append, history, history, none_, List.reverse_nil, List.append_nil]

/-- An item lies ahead of another one: in the same ring with a smaller ticket, or in
an older ring. -/
def Ahead (rs : List ℕ) (a b : ℕ × ℕ × Word) : Prop :=
  (a.1 = b.1 ∧ a.2.1 < b.2.1) ∨ Older rs a.1 b.1

theorem Ahead.irrefl {rs : List ℕ} (distinct : rs.Nodup) {a : ℕ × ℕ × Word} : ¬ Ahead rs a a := by
  rintro (⟨_, less⟩ | older)
  · exact Nat.lt_irrefl _ less
  · exact Older.irrefl distinct older

end History

/-! ## What a step means for the call -/

section Outcomes

/-- The call that is running and has not taken effect. -/
def Pc.pending (pc : Pc) : List Op :=
  match pc.phase with
  | .enq _ x => [.enq x]
  | .deq _ => [.deq]
  | _ => []

/-- What an access of a running call records. -/
inductive Outcome (next : Option ℕ) (pc pc' : Pc) (events : List (Event Word)) : Prop
  | silent : (∀ event ∈ events, silent event) → pc'.pending = pc.pending →
      (∀ c x, pc'.phase = .enq c x → pc.phase = .enq c x) → Outcome next pc pc' events
  | store (c r t : ℕ) (x : Word) : pc.phase = .enq c x → pc'.pending = [] →
      (∀ c x, pc'.phase ≠ .enq c x) → .enqItem c r t x ∈ events →
      history storedOf events = [(r, t, x)] → (∀ event ∈ events, takenOf event = none) →
      (∀ event ∈ events, resultOf event = none) → Outcome next pc pc' events
  | take (d h : ℕ) (x : Word) : pc.phase = .deq d → pc' = .idle →
      events = [.deqRet d pc.rq h x, .deqItem d pc.rq h x] → Outcome next pc pc' events
  | empty (f : DeqFrame) : pc = .deqNext f → next = none → pc' = .idle →
      events = [.deqEmpty f.call] → Outcome next pc pc' events

variable {pow : ℕ} {q q' : RingQueue ℕ Word} {pc pc' : Pc} {events : List (Event Word)}

theorem atEmptyCell_pending (f : DeqFrame) (h tt : Word) (r : ℕ) (cellIdx : Word) :
    (atEmptyCell f h tt r cellIdx).pending = [.deq] := by
  rw [Pc.pending, (atEmptyCell_phase f h tt r cellIdx).1]

theorem Outcome.quiet {next : Option ℕ} (pending : pc'.pending = pc.pending)
    (phase : ∀ c x, pc'.phase = .enq c x → pc.phase = .enq c x) : Outcome next pc pc' [] :=
  .silent (fun _ member => absurd member List.not_mem_nil) pending phase

theorem Outcome.one {next : Option ℕ} {event : Event Word} (isSilent : C.silent event)
    (pending : pc'.pending = pc.pending)
    (phase : ∀ c x, pc'.phase = .enq c x → pc.phase = .enq c x) : Outcome next pc pc' [event] := by
  refine .silent (fun other member => ?_) pending phase
  rw [List.mem_singleton.mp member]
  exact isSilent

theorem onRing_outcome (access : onRing pow q pc = some (q', pc', events)) :
    Outcome q.next pc pc' events := by
  cases pc with
  | enqCas2 f t idx =>
      simp only [onRing] at access
      split at access <;> cases access
      · refine .store f.call f.tail t.toNat f.arg rfl rfl (fun _ _ phase => ?_) ?_ rfl ?_ ?_
        · cases phase
        · exact List.mem_cons_of_mem _ List.mem_cons_self
        · simp [takenOf]
        · simp [resultOf]
      · exact .quiet rfl fun _ _ => id
  | deqTake f h tt r cellIdx val =>
      simp only [onRing] at access
      split at access <;> cases access
      · exact .take f.call h.toNat val rfl rfl rfl
      · exact .quiet rfl fun _ _ => id
  | deqNext f =>
      simp only [onRing] at access
      split at access
      next last =>
        cases access
        exact .empty f rfl last rfl rfl
      next =>
        cases access
        exact .quiet rfl fun _ _ phase => by cases phase
  | deqVal f h tt r cellIdx =>
      simp only [onRing] at access
      (repeat' split at access) <;> cases access
      case deqVal.isFalse.isTrue.isFalse.refl =>
        refine .quiet (atEmptyCell_pending f h tt r cellIdx) fun c x phase => ?_
        rw [(atEmptyCell_phase f h tt r cellIdx).1] at phase
        cases phase
      all_goals
        first
        | exact .quiet rfl fun _ _ phase => by cases phase
        | exact .one ⟨rfl, rfl, rfl⟩ rfl fun _ _ phase => by cases phase
  | deqTail f h r cellIdx =>
      cases access
      refine .quiet (atEmptyCell_pending f h q.tail r cellIdx) fun c x phase => ?_
      rw [(atEmptyCell_phase f h q.tail r cellIdx).1] at phase
      cases phase
  | _ =>
      simp only [onRing] at access
      (repeat' split at access) <;> cases access <;>
        first
        | exact .quiet rfl fun _ _ => id
        | exact .one ⟨rfl, rfl, rfl⟩ rfl fun _ _ => id

variable {T : Type} [DecidableEq T] {e e' : Exec T} {p : T}

theorem Exec.Goes.outcome (goes : e.Goes pow p e') (busy : e.st.pc p ≠ .idle) :
    ∃ events, e'.log = events ++ e.log ∧
      Outcome (e.st.ring (e.st.pc p).rq).next (e.st.pc p) (e'.st.pc p) events := by
  cases goes with
  | callEnq arg idle => exact absurd idle busy
  | callDeq idle => exact absurd idle busy
  | access q pc events access =>
      rw [Exec.accessed_pc]
      exact ⟨events, rfl, onRing_outcome access⟩
  | link f n here last =>
      rw [State.goto_pc, here]
      refine ⟨[_, _, _], rfl, .store f.call n 0 f.arg rfl rfl nofun List.mem_cons_self rfl ?_ ?_⟩
      · simp [takenOf]
      · simp [resultOf]
  | swing f n here =>
      rw [State.goto_pc, here]
      exact ⟨[_], rfl, .one ⟨rfl, rfl, rfl⟩ rfl nofun⟩
  | reuse f n here | alloc f here | soloTail f n here | soloVal f n here | soloIdx f n here
  | lost f n m here =>
      rw [State.goto_pc, here]
      exact ⟨[], rfl, .quiet rfl fun _ _ => id⟩

/-- A step of thread `p`, as far as calls and their effects are concerned. -/
inductive Exec.Turn (e : Exec T) (p : T) (e' : Exec T) : Act → Prop
  | enq (arg : Word) : e.st.pc p = .idle →
      e'.st.pc p = .enqNext ⟨e.st.calls, arg, e.st.tail, 0⟩ →
      e'.log = [.enqCall e.st.calls arg] ++ e.log → e.Turn p e' (.enq arg)
  | deq : e.st.pc p = .idle → e'.st.pc p = .deqFaa ⟨e.st.calls, e.st.head⟩ →
      e'.log = [.deqCall e.st.calls] ++ e.log → e.Turn p e' .deq
  | run (events : List (Event Word)) : e.st.pc p ≠ .idle → e'.log = events ++ e.log →
      Outcome (e.st.ring (e.st.pc p).rq).next (e.st.pc p) (e'.st.pc p) events → e.Turn p e' .run

theorem next_turn {a : Act} (next : e.next pow p a = some e') : e.Turn p e' a := by
  unfold Exec.next at next
  split at next
  next =>
    obtain ⟨⟨s, events⟩, taken, rfl⟩ := Option.map_eq_some_iff.mp next
    cases a with
    | enq arg =>
        simp only [step] at taken
        split at taken
        next idle =>
          cases taken
          exact .enq arg idle (State.goto_pc ..) rfl
        next => cases taken
    | deq =>
        simp only [step] at taken
        split at taken
        next idle =>
          cases taken
          exact .deq idle (State.goto_pc ..) rfl
        next => cases taken
    | run =>
        have busy : e.st.pc p ≠ .idle := by
          intro idle
          simp only [step, run, idle, onRing, Option.map_none] at taken
          cases taken
        obtain ⟨events', log, outcome⟩ := (run_goes taken).outcome busy
        exact .run events' busy log outcome
  next => cases next

end Outcomes

/-! ## The invariant -/

section Invariant

variable {T : Type} {pow : ℕ} {e e' : Exec T} {p : T}

structure Sequential (pow : ℕ) (e : Exec T) : Prop where
  inv : Inv pow e
  /-- A `deq` looks at rings before which all is drained. -/
  walk : ∀ p c, (e.st.pc p).phase = .deq c → (e.abs pow).DrainedBefore (e.st.pc p).rq ∧
    ((e.st.pc p).tested = true → (e.abs pow).Drained (e.st.pc p).rq)
  /-- All items were stored before the running `enq` was called. -/
  since : ∀ p c x, (e.st.pc p).phase = .enq c x → ∀ a r t y, .enqItem a r t y ∈ e.log →
    Older e.log (.enqItem a r t y) (.enqCall c x)
  ordered : (history storedOf e.log).Pairwise (Ahead (rings e.log))

theorem rings_append (events log : List (Event Word)) :
    ∃ new, rings (events ++ log) = new ++ rings log := by
  induction events with
  | nil => exact ⟨[], rfl⟩
  | cons event rest ih =>
      obtain ⟨new, grown⟩ := ih
      cases event with
      | link r n => exact ⟨n :: new, by rw [List.cons_append, rings, grown, List.cons_append]⟩
      | _ => exact ⟨new, grown⟩

theorem Ahead.grow {events log : List (Event Word)} {a b : ℕ × ℕ × Word}
    (ahead : Ahead (rings log) a b) : Ahead (rings (events ++ log)) a b := by
  obtain ⟨new, grown⟩ := rings_append events log
  rw [grown]
  exact ahead.imp_right fun older => older.append new

theorem Sequential.init (below : TicketsBelow pow (State.init : State T)) [DecidableEq T] :
    Sequential pow (Exec.init : Exec T) :=
  ⟨inv_init below, nofun, nofun, .nil⟩

theorem Inv.stored_behind (inv : Inv pow e') {c r t : ℕ} {x : Word}
    (item : .enqItem c r t x ∈ e'.log) {a ra ta : ℕ} {y : Word}
    (before : Older e'.log (.enqItem a ra ta y) (.enqCall c x)) :
    Ahead (rings e'.log) (ra, ta, y) (r, t, x) := by
  obtain ⟨x', called⟩ := inv.queue.calls.draw_call c r t (inv.queue.item_draw c r t x item)
  obtain rfl := inv.queue.calls.call_unique c x x' before.mem_new called.mem_old
  exact inv.queue.order a ra ta y c r t (before.trans inv.queue.calls.nodup called)

variable [DecidableEq T]

theorem Sequential.ordered_next {a : Act} (seq : Sequential pow e)
    (next : e.next pow p a = some e') :
    (history storedOf e'.log).Pairwise (Ahead (rings e'.log)) := by
  obtain ⟨_, inv'⟩ := seq.inv.next next
  have silent : ∀ events, e'.log = events ++ e.log → (∀ event ∈ events, storedOf event = none) →
      (history storedOf e'.log).Pairwise (Ahead (rings e'.log)) := by
    intro events log quiet
    rw [log, history_silent quiet]
    exact seq.ordered.imp Ahead.grow
  cases next_turn next with
  | enq arg _ _ log => exact silent _ log (by simp [storedOf])
  | deq _ _ log => exact silent _ log (by simp [storedOf])
  | run events busy log outcome =>
      cases outcome with
      | silent quiet => exact silent events log fun event member => (quiet event member).1
      | take d h x _ _ isEvents => exact silent events log (by simp [isEvents, storedOf])
      | empty f _ _ _ isEvents => exact silent events log (by simp [isEvents, storedOf])
      | store c r t x phase _ _ member stored =>
          have item : .enqItem c r t x ∈ e'.log := by
            rw [log]
            exact List.mem_append_left _ member
          rw [log, history_append, stored, List.pairwise_append]
          refine ⟨seq.ordered.imp Ahead.grow, List.pairwise_singleton .., ?_⟩
          rintro ⟨ra, ta, y⟩ old new isNew
          obtain rfl := List.mem_singleton.mp isNew
          obtain ⟨b, itemB⟩ := mem_stored.mp old
          rw [← log]
          refine inv'.stored_behind item (a := b) ?_
          rw [log]
          exact (seq.since p c x phase b ra ta y itemB).append events

theorem Sequential.since_next {a : Act} (seq : Sequential pow e)
    (next : e.next pow p a = some e') {c : ℕ} {x : Word} (phase : (e'.st.pc p).phase = .enq c x)
    {b r t : ℕ} {y : Word} (item : .enqItem b r t y ∈ e'.log) :
    Older e'.log (.enqItem b r t y) (.enqCall c x) := by
  cases next_turn next with
  | enq arg _ here log =>
      rw [here] at phase
      cases phase
      rw [log] at item ⊢
      exact Or.inl ⟨rfl, by simpa using item⟩
  | deq _ here _ =>
      rw [here] at phase
      cases phase
  | run events busy log outcome =>
      cases outcome with
      | silent quiet _ before =>
          rw [log] at item ⊢
          rcases List.mem_append.mp item with new | old
          · cases (quiet _ new).1
          · exact (seq.since p c x (before c x phase) b r t y old).append events
      | store c' r' t' x' _ _ notEnq => exact absurd phase (notEnq c x)
      | take d h x' _ isIdle =>
          rw [isIdle] at phase
          cases phase
      | empty f _ _ isIdle =>
          rw [isIdle] at phase
          cases phase

omit [DecidableEq T] in
theorem onRing_draws {q q' : RingQueue ℕ Word} {pc pc' : Pc} {events : List (Event Word)}
    (access : onRing pow q pc = some (q', pc', events)) {c r t d : ℕ}
    (draw : .enqDraw c r t ∈ events) : pc.phase ≠ .deq d := by
  cases pc with
  | enqFaa f => nofun
  | _ =>
      simp only [onRing] at access
      (repeat' split at access) <;> cases access <;> simp at draw

omit [DecidableEq T] in
theorem Refines.drained {r : ℕ} (refines : Refines pow e e') (member : r ∈ rings e.log)
    (noDraw : ∀ c t, .enqDraw c r t ∈ e'.log → .enqDraw c r t ∈ e.log)
    (drained : (e.abs pow).Drained r) : (e'.abs pow).Drained r := by
  rintro t ⟨c, drawn⟩
  exact (drained t ⟨c, noDraw c t drawn⟩).trans_le (steps_ring_le refines member).2.1

theorem Sequential.walk_next {a : Act} (seq : Sequential pow e)
    (next : e.next pow p a = some e') {c : ℕ} (phase : (e'.st.pc p).phase = .deq c) :
    (e'.abs pow).DrainedBefore (e'.st.pc p).rq ∧
      ((e'.st.pc p).tested = true → (e'.abs pow).Drained (e'.st.pc p).rq) := by
  obtain ⟨refines, _⟩ := seq.inv.next next
  have keep : ∀ r ∈ rings e.log, (e.abs pow).DrainedBefore r → (e'.abs pow).DrainedBefore r :=
    fun r member => steps_drainedBefore (Nat.two_pow_pos pow) seq.inv.queue refines member
  cases next_stepped next with
  | callDeq idle here log =>
      rw [here]
      refine ⟨keep _ ?_ seq.inv.drainedBefore_head, nofun⟩
      rw [seq.inv.layout.entry.1]
      exact List.mem_of_getLast? seq.inv.layout.oldest
  | inEnq notDeq => exact absurd phase (notDeq c)
  | access q pc events access after =>
      have here : e'.st.pc p = pc := by rw [after, Exec.accessed_pc]
      have log : e'.log = events ++ e.log := by rw [after]; rfl
      rw [here] at phase ⊢
      have member := seq.inv.rq p
      have drained : ∀ d, (e.st.pc p).phase = .deq d → (e.abs pow).Drained (e.st.pc p).rq →
          (e'.abs pow).Drained (e.st.pc p).rq := by
        refine fun d inDeq => refines.drained member fun c t drawn => ?_
        rw [log] at drawn
        exact (List.mem_append.mp drawn).resolve_left fun new => onRing_draws access new inDeq
      cases onRing_walks access phase with
      | same before rq tested =>
          obtain ⟨walked, drainedHere⟩ := seq.walk p c before
          rw [rq]
          exact ⟨keep _ member walked, fun isTested => drained c before (drainedHere (tested isTested))⟩
      | test f h call at_ test isNext =>
          subst call isNext
          have inDeq : (e.st.pc p).phase = .deq f.call := by rw [at_]; rfl
          have tested := seq.inv.drained_of_test at_ (by rw [at_] at test; exact test)
          have walked := (seq.walk p f.call inDeq).1
          rw [at_] at walked member
          refine ⟨keep _ member walked, fun _ => ?_⟩
          have := drained f.call inDeq
          rw [at_] at this
          exact this tested
      | hop f n call at_ link isNext =>
          subst call isNext
          obtain ⟨walked, drainedHere⟩ := seq.walk p f.call (by rw [at_]; rfl)
          rw [at_] at walked drainedHere member link
          rcases seq.inv.layout.linked.next_some seq.inv.queue.distinct member link with
            ⟨isNone, _⟩ | ⟨older, between⟩
          · cases isNone
          · refine ⟨keep n older.mem_new fun r before => ?_, nofun⟩
            rcases between r before with rfl | deeper
            · exact drainedHere rfl
            · exact walked r deeper

theorem Sequential.next {a : Act} (seq : Sequential pow e)
    (alone : ∀ w, w ≠ p → e.st.pc w = .idle) (next : e.next pow p a = some e') :
    Sequential pow e' := by
  have own : ∀ w, (e'.st.pc w).phase ≠ .idle → w = p := by
    intro w phase
    by_contra other
    rw [next_others next other, alone w other] at phase
    exact phase rfl
  refine ⟨(seq.inv.next next).2, fun w c phase => ?_, fun w c x phase b r t y item => ?_,
    seq.ordered_next next⟩
  · obtain rfl := own w (by rw [phase]; nofun)
    exact seq.walk_next next phase
  · obtain rfl := own w (by rw [phase]; nofun)
    exact seq.since_next next phase item

end Invariant

/-! ## The first item that is left -/

section First

variable {T : Type} {pow : ℕ} {e e' : Exec T} {p : T} {rest : List (ℕ × ℕ × Word)}

theorem Exec.unheld {r h : ℕ} (free : ∀ w, (e.st.pc w).holds = none) :
    ¬ ∃ u, (e.abs pow).Held u r h := by
  rintro ⟨u, held⟩
  have holds : (e.st.pc u).holds = some (r, h) := (e.st.pc u).deqTicket_view.mp held
  rw [free u] at holds
  cases holds

theorem Sequential.rest_untaken (seq : Sequential pow e)
    (split : history storedOf e.log = history takenOf e.log ++ rest) {r t d : ℕ} {x : Word}
    (member : (r, t, x) ∈ rest) : .deqItem d r t x ∉ e.log := by
  intro taken
  have ordered := seq.ordered
  rw [split, List.pairwise_append] at ordered
  exact Ahead.irrefl seq.inv.queue.distinct
    (ordered.2.2 _ (mem_taken.mpr ⟨d, taken⟩) _ member)

theorem Sequential.rest_stored (split : history storedOf e.log = history takenOf e.log ++ rest)
    {r t : ℕ} {x : Word} (member : (r, t, x) ∈ rest) : ∃ c, .enqItem c r t x ∈ e.log := by
  refine mem_stored.mp ?_
  rw [split]
  exact List.mem_append_right _ member

theorem Sequential.nothing_left (seq : Sequential pow e)
    (alone : ∀ w, w ≠ p → e.st.pc w = .idle) {f : DeqFrame} (here : e.st.pc p = .deqNext f)
    (last : (e.st.ring f.head).next = none)
    (split : history storedOf e.log = history takenOf e.log ++ rest) : rest = [] := by
  refine List.eq_nil_iff_forall_not_mem.mpr ?_
  rintro ⟨r, t, x⟩ member
  obtain ⟨c, item⟩ := Sequential.rest_stored split member
  obtain ⟨walked, drained⟩ := seq.walk p f.call (by rw [here]; rfl)
  have at_ := seq.inv.rq p
  rw [here] at walked drained at_
  have drained : (e.abs pow).Drained r := by
    rcases older_total (seq.inv.queue.about _ item r rfl) at_ with rfl | older | newer
    · exact drained rfl
    · exact walked r older
    · exact absurd newer (seq.inv.layout.linked.not_newer seq.inv.queue.distinct at_ last)
  rcases seq.inv.queue.item_of_drained item drained with ⟨d, taken⟩ | held
  · exact seq.rest_untaken split member taken
  · refine Exec.unheld (fun w => ?_) held
    by_cases same : w = p
    · rw [same, here]
      rfl
    · rw [alone w same]
      rfl

/-- What a `deq` takes is the first item that is left. -/
theorem Sequential.takes_first [DecidableEq T] (seq : Sequential pow e)
    (alone : ∀ w, w ≠ p → e.st.pc w = .idle) (next : e.next pow p .run = some e') {d h : ℕ}
    {x : Word} (phase : (e.st.pc p).phase = .deq d) (isIdle : e'.st.pc p = .idle)
    (log : e'.log = [.deqRet d (e.st.pc p).rq h x, .deqItem d (e.st.pc p).rq h x] ++ e.log)
    (split : history storedOf e.log = history takenOf e.log ++ rest) :
    ∃ left, rest = ((e.st.pc p).rq, h, x) :: left := by
  generalize rq : (e.st.pc p).rq = r at log
  obtain ⟨refines, inv'⟩ := seq.inv.next next
  have grown : ∀ event ∈ e.log, event ∈ e'.log := by
    rw [log]
    exact fun event => List.mem_append_right _
  have taken : .deqItem d r h x ∈ e'.log := by
    rw [log]
    exact List.mem_append_left _ (by simp)
  have member : (r, h, x) ∈ rest := by
    obtain ⟨c, item⟩ := inv'.queue.take_stored d r h x taken
    have item : .enqItem c r h x ∈ e'.log := item
    rw [log] at item
    have stored : (r, h, x) ∈ history storedOf e.log := mem_stored.mpr ⟨c, by simpa using item⟩
    rw [split] at stored
    refine (List.mem_append.mp stored).resolve_left fun before => ?_
    obtain ⟨d', before⟩ := mem_taken.mp before
    obtain rfl := inv'.queue.take_ticket_unique taken (grown _ before)
    have ok := seq.inv.queue.calls.phase_ok p
    rw [show (e.abs pow).phase p = .deq d from phase] at ok
    exact ok.2.1 r h x before
  cases rest with
  | nil => cases member
  | cons a left =>
      rcases List.mem_cons.mp member with rfl | inLeft
      · exact ⟨left, rfl⟩
      · -- the first item lies ahead of the one taken, so its ticket was drawn
        exfalso
        obtain ⟨ra, ta, y⟩ := a
        have ordered := seq.ordered
        rw [split, List.pairwise_append, List.pairwise_cons] at ordered
        have ahead : Ahead (rings e.log) (ra, ta, y) (r, h, x) := ordered.2.1.1 _ inLeft
        obtain ⟨c, item⟩ := Sequential.rest_stored split List.mem_cons_self
        have drawn : (∃ d, .deqItem d ra ta y ∈ e'.log) ∨ ∃ u, (e'.abs pow).Held u ra ta := by
          rcases ahead with ⟨same, less⟩ | older
          · have same : ra = r := same
            have less : ta < h := less
            subst same
            have below := inv'.queue.deqDraw_lt d ra h (inv'.queue.take_draw d ra h x taken)
            exact inv'.queue.item_of_drawn (grown _ item) (less.trans below)
          · have walked := (seq.walk p d phase).1
            have onRing := seq.inv.rq p
            rw [rq] at walked onRing
            have walked' := steps_drainedBefore (Nat.two_pow_pos pow) seq.inv.queue refines onRing
              walked
            exact inv'.queue.item_of_drained (grown _ item)
              (walked' ra ((steps_older refines onRing).mpr older))
        rcases drawn with ⟨d', taken'⟩ | held
        · have taken' : .deqItem d' ra ta y ∈ e'.log := taken'
          rw [log] at taken'
          rcases List.mem_append.mp taken' with new | old
          · have same : (ra, ta, y) = (r, h, x) := by
              simp only [List.mem_cons, reduceCtorEq, Event.deqItem.injEq, List.not_mem_nil,
                or_false, false_or] at new
              simp only [new]
            rw [same] at ahead
            exact Ahead.irrefl seq.inv.queue.distinct ahead
          · exact seq.rest_untaken split List.mem_cons_self old
        · refine Exec.unheld (fun w => ?_) held
          have idle : e'.st.pc w = .idle := by
            by_cases same : w = p
            · rw [same, isIdle]
            · rw [next_others next same, alone w same]
          rw [idle]
          rfl

end First

/-! ## Scripts -/

section Scripts

variable {T : Type} {pow : ℕ} {e e' : Exec T} {p : T}

def Op.act : Op → Act
  | .enq x => .enq x
  | .deq => .deq

/-- A queue and the calls that are still to be made, each by some thread. -/
structure Script (T : Type) where
  exec : Exec T
  todo : List (T × Op)

def Script.ops (σ : Script T) : List Op := σ.todo.map Prod.snd

def Script.results (σ : Script T) : List Word := history resultOf σ.exec.log

variable [DecidableEq T]

/-- A thread in a call goes on with it; when no call is running the next one is made.
Steps are those of `next`, with or without a bound on the tickets. -/
inductive Script.Step (next : Exec T → T → Act → Option (Exec T)) : Script T → Script T → Prop
  | goOn (p : T) (e e' : Exec T) (todo : List (T × Op)) : e.st.pc p ≠ .idle →
      next e p .run = some e' → Script.Step next ⟨e, todo⟩ ⟨e', todo⟩
  | call (p : T) (op : Op) (e e' : Exec T) (todo : List (T × Op)) : (∀ w, e.st.pc w = .idle) →
      next e p op.act = some e' → Script.Step next ⟨e, (p, op) :: todo⟩ ⟨e', todo⟩

/-- The calls that are running and have not taken effect: at most one. -/
def Exec.Running (e : Exec T) (ops : List Op) : Prop :=
  ((∀ p, e.st.pc p = .idle) ∧ ops = []) ∨
    ∃ p, e.st.pc p ≠ .idle ∧ (∀ w, w ≠ p → e.st.pc w = .idle) ∧ ops = (e.st.pc p).pending

/-- The items that are left are what is left in the mathematical queue. -/
structure Script.Agrees (pow : ℕ) (ops : List Op) (σ : Script T) : Prop where
  seq : Sequential pow σ.exec
  args : ∀ p x, (p, .enq x) ∈ σ.todo → x ≠ EMPTY
  spec : ∃ rest running, history storedOf σ.exec.log = history takenOf σ.exec.log ++ rest ∧
    σ.exec.Running running ∧
    fifo [] ops = σ.results ++ fifo (rest.map fun item => item.2.2) (running ++ σ.ops)

theorem Exec.Running.after {ops : List Op} (alone : ∀ w, w ≠ p → e.st.pc w = .idle)
    (pending : ops = (e.st.pc p).pending) : e.Running ops := by
  by_cases idle : e.st.pc p = .idle
  · refine Or.inl ⟨fun w => ?_, ?_⟩
    · by_cases same : w = p
      · rw [same, idle]
      · exact alone w same
    · rw [pending, idle]
      rfl
  · exact Or.inr ⟨p, idle, alone, pending⟩

theorem Script.Agrees.goOn {ops : List Op} {todo : List (T × Op)}
    (agrees : Script.Agrees pow ops ⟨e, todo⟩) (busy : e.st.pc p ≠ .idle)
    (next : e.next pow p .run = some e') : Script.Agrees pow ops ⟨e', todo⟩ := by
  obtain ⟨rest, running, split, isRunning, spec⟩ := agrees.spec
  obtain ⟨alone, rfl⟩ : (∀ w, w ≠ p → e.st.pc w = .idle) ∧ running = (e.st.pc p).pending := by
    rcases isRunning with ⟨idle, _⟩ | ⟨p', busy', alone, pending⟩
    · exact absurd (idle p) busy
    · obtain rfl : p = p' := by
        by_contra other
        exact busy (alone p other)
      exact ⟨alone, pending⟩
  have alone' : ∀ w, w ≠ p → e'.st.pc w = .idle := fun w other => by
    rw [next_others next other, alone w other]
  refine ⟨agrees.seq.next alone next, agrees.args, ?_⟩
  have seq : Sequential pow e := agrees.seq
  simp only [Script.results, Script.ops] at spec split ⊢
  cases next_turn next with
  | run events _ log outcome =>
      cases outcome with
      | silent quiet pending =>
          refine ⟨rest, _, ?_, .after alone' rfl, ?_⟩
          · rw [log, history_silent fun event member => (quiet event member).1,
              history_silent fun event member => (quiet event member).2.1]
            exact split
          · rw [log, history_silent fun event member => (quiet event member).2.2, pending]
            exact spec
      | store c r t x phase pending _ _ stored untaken noResult =>
          refine ⟨rest ++ [(r, t, x)], _, ?_, .after alone' rfl, ?_⟩
          · rw [log, history_append, stored, history_silent untaken, split, List.append_assoc]
          · rw [Pc.pending, phase] at spec
            rw [log, history_silent noResult, pending, spec, List.map_append]
            rfl
      | take d h x phase isIdle isEvents =>
          subst isEvents
          obtain ⟨left, rfl⟩ := seq.takes_first alone next phase isIdle log split
          refine ⟨left, _, ?_, .after alone' rfl, ?_⟩
          · rw [log, history_append, history_append, split]
            show _ ++ _ :: left ++ [] = _ ++ [_] ++ left
            rw [List.append_nil, List.append_assoc, List.singleton_append]
          · rw [Pc.pending, phase] at spec
            rw [log, history_append, isIdle, spec, List.append_assoc]
            rfl
      | empty f here last isIdle isEvents =>
          subst isEvents
          rw [here] at last
          obtain rfl := seq.nothing_left alone here last split
          refine ⟨[], _, ?_, .after alone' rfl, ?_⟩
          · rw [log, history_append, history_append, split]
            rfl
          · rw [here] at spec
            rw [log, history_append, isIdle, spec, List.append_assoc]
            rfl

theorem Script.Agrees.call {ops : List Op} {op : Op} {todo : List (T × Op)}
    (agrees : Script.Agrees pow ops ⟨e, (p, op) :: todo⟩) (idle : ∀ w, e.st.pc w = .idle)
    (next : e.next pow p op.act = some e') : Script.Agrees pow ops ⟨e', todo⟩ := by
  obtain ⟨rest, running, split, isRunning, spec⟩ := agrees.spec
  obtain rfl : running = [] := by
    rcases isRunning with ⟨_, none_⟩ | ⟨p', busy, _⟩
    · exact none_
    · exact absurd (idle p') busy
  have alone' : ∀ w, w ≠ p → e'.st.pc w = .idle := fun w other => by
    rw [next_others next other, idle w]
  have silent : ∀ event, e'.log = [event] ++ e.log → silent event → (e'.st.pc p).pending = [op] →
      Script.Agrees pow ops ⟨e', todo⟩ := by
    intro event log quiet pending
    refine ⟨agrees.seq.next (fun w _ => idle w) next, fun w x member =>
      agrees.args w x (List.mem_cons_of_mem _ member), rest, [op], ?_, .after alone' pending.symm, ?_⟩
    · show history storedOf e'.log = history takenOf e'.log ++ rest
      rw [log, history_silent (by simpa using quiet.1), history_silent (by simpa using quiet.2.1)]
      exact split
    · show _ = history resultOf e'.log ++ _
      rw [log, history_silent (by simpa using quiet.2.2)]
      exact spec
  have turn := next_turn next
  cases op with
  | enq x =>
      cases turn with
      | enq _ _ here log =>
          refine silent _ log (by simp [C.silent, storedOf, takenOf, resultOf]) ?_
          rw [here]
          rfl
  | deq =>
      cases turn with
      | deq _ here log =>
          refine silent _ log (by simp [C.silent, storedOf, takenOf, resultOf]) ?_
          rw [here]
          rfl

theorem Script.Agrees.step {ops : List Op} {σ σ' : Script T} (agrees : σ.Agrees pow ops)
    (step : Script.Step (Exec.next pow) σ σ') : σ'.Agrees pow ops := by
  cases step with
  | goOn p e e' todo busy next => exact agrees.goOn busy next
  | call p op e e' todo idle next => exact agrees.call idle next

/-! ### Every call returns -/

/-- The steps of `next` are steps of the machine, and up to states of `out` all that the
script needs. -/
structure Upto (pow : ℕ) (next : Exec T → T → Act → Option (Exec T)) (out : Exec T → Prop)
    (script : List (T × Op)) : Prop where
  does : ∀ e p a e', next e p a = some e' → e.does pow p a = some e'
  run : ∀ e p, ¬ out e → next e p .run = e.does pow p .run
  call : ∀ e p op, (p, op) ∈ script → ¬ out e → next e p op.act = e.does pow p op.act

theorem upto_next (pow : ℕ) (script : List (T × Op))
    (args : ∀ p x, (p, .enq x) ∈ script → x ≠ EMPTY) :
    Upto pow (Exec.next pow) (fun e => ¬ TicketsBelow pow e.st) script := by
  refine ⟨fun e p a e' next => ?_, fun e p below => ?_, fun e p op member below => ?_⟩
  · unfold Exec.next at next
    split at next
    next => exact next
    next => cases next
  · exact if_pos ⟨not_not.mp below, trivial⟩
  · refine if_pos ⟨not_not.mp below, ?_⟩
    cases op with
    | enq x => exact args p x member
    | deq => trivial

theorem upto_does (script : List (T × Op)) :
    Upto pow (fun e p a => e.does pow p a) (fun _ : Exec T => False) script :=
  ⟨fun _ _ _ _ does => does, fun _ _ _ => rfl, fun _ _ _ _ _ => rfl⟩

theorem does_busy (taken : e.does pow p .run = some e') : e.st.pc p ≠ .idle := by
  intro idle
  rw [does_idle idle] at taken
  cases taken

theorem next_busy (next : e.next pow p .run = some e') : e.st.pc p ≠ .idle := by
  unfold Exec.next at next
  split at next
  next => exact does_busy next
  next => cases next

theorem does_others {a : Act} (taken : e.does pow p a = some e') {w : T} (other : w ≠ p) :
    e'.st.pc w = e.st.pc w := (does_goes taken).others other

section Upto

variable {next : Exec T → T → Act → Option (Exec T)} {out : Exec T → Prop}
  {todo : List (T × Op)}

theorem Script.runs_alone {goal : Exec T → Prop} {script : List (T × Op)}
    (upto : Upto pow next out script) (alone : ∀ w, w ≠ p → e.st.pc w = .idle)
    (run : Inevitably (Follows (Exec.does pow p .run)) goal e) :
    Inevitably (Script.Step next) (fun σ => out σ.exec ∨
      ∃ e', goal e' ∧ σ = ⟨e', todo⟩ ∧ ∀ w, w ≠ p → e'.st.pc w = .idle) ⟨e, todo⟩ := by
  refine run.lift (fun (e : Exec T) (σ : Script T) => σ = ⟨e, todo⟩ ∧
    ∀ w, w ≠ p → e.st.pc w = .idle) (fun σ => out σ.exec) ?_ ⟨rfl, alone⟩
  rintro e σ ⟨rfl, alone⟩ ⟨e', taken⟩
  by_cases cut : out e
  · exact Or.inl cut
  · have taken : e.does pow p .run = some e' := taken
    have busy := does_busy taken
    have step : next e p .run = some e' := (upto.run e p cut).trans taken
    refine Or.inr ⟨⟨_, .goOn p e e' todo busy step⟩, fun σ' step' => ⟨e', taken, ?_⟩⟩
    cases step' with
    | goOn p' _ e'' _ busy' next' =>
        obtain rfl : p' = p := by
          by_contra other
          exact busy' (alone p' other)
        rw [step] at next'
        cases next'
        exact ⟨rfl, fun w other => by rw [does_others taken other, alone w other]⟩
    | call p' op _ e'' _ idle next' => exact absurd (idle p) busy

theorem call_returns (pow : ℕ) (shape : Shape e) (idle : e.st.pc p = .idle) (op : Op) :
    ∃ called, e.does pow p op.act = some called ∧
      Inevitably (Follows (Exec.does pow p .run)) (fun e' => e'.st.pc p = .idle) called := by
  have entry : e.st.head ∈ rings e.log ∧ e.st.tail ∈ rings e.log := by
    rw [shape.layout.entry.1, shape.layout.entry.2]
    exact ⟨shape.zero_mem, shape.zero_mem⟩
  cases op with
  | enq x =>
      let called : Exec T :=
        ⟨{ e.st with calls := e.st.calls + 1 }.goto p (.enqNext ⟨e.st.calls, x, e.st.tail, 0⟩),
          .enqCall e.st.calls x :: e.log⟩
      refine ⟨called, ?_, enq_walk shape.layout.linked (fun n has => ?_) shape.layout.fresh
        e.st.tail entry.2 called ⟨e.st.calls, x, e.st.tail, 0⟩ rfl rfl rfl (State.goto_pc ..) rfl⟩
      · simp only [Exec.does, step, Op.act, idle, Option.map_some, List.singleton_append]
        rfl
      · exact (shape.layout.nrq_unlinked p n has (by rw [idle]; rfl)).1
  | deq =>
      let called : Exec T :=
        ⟨{ e.st with calls := e.st.calls + 1 }.goto p (.deqFaa ⟨e.st.calls, e.st.head⟩),
          .deqCall e.st.calls :: e.log⟩
      refine ⟨called, ?_, (deq_walk shape.distinct shape.layout.linked e.st.head entry.1 called
        ⟨e.st.calls, e.st.head⟩ ⟨fun _ => rfl, fun _ _ => rfl⟩ (State.goto_pc ..) rfl).mono
        fun _ returned => returned.1⟩
      simp only [Exec.does, step, Op.act, idle, Option.map_some, List.singleton_append]
      rfl

def Script.Finished (σ : Script T) : Prop := σ.todo = [] ∧ ∀ p, σ.exec.st.pc p = .idle

theorem Script.finishes (upto : Upto pow next out todo) (shape : Shape e)
    (idle : ∀ p, e.st.pc p = .idle) :
    Inevitably (Script.Step next) (fun σ => out σ.exec ∨ σ.Finished) ⟨e, todo⟩ := by
  induction todo generalizing e with
  | nil => exact .now (Or.inr ⟨rfl, idle⟩)
  | cons call todo ih =>
      obtain ⟨p, op⟩ := call
      by_cases cut : out e
      · exact .now (Or.inl cut)
      · obtain ⟨called, taken, returns⟩ := call_returns pow shape (idle p) op
        have step : next e p op.act = some called :=
          (upto.call e p op List.mem_cons_self cut).trans taken
        refine .only (.call p op e called todo idle step) (fun σ other => ?_) ?_
        · cases other with
          | goOn p' _ _ _ busy => exact absurd (idle p') busy
          | call _ _ _ e'' _ _ step' =>
              rw [step] at step'
              cases step'
              rfl
        · have alone : ∀ w, w ≠ p → called.st.pc w = .idle := fun w other => by
            rw [does_others taken other, idle w]
          have keeps : ∀ e e' : Exec T, Shape e → Follows (Exec.does pow p .run) e e' → Shape e' :=
            fun _ _ shape taken => shape.goes (does_goes taken)
          refine (Script.runs_alone upto alone
            (returns.keeping keeps (shape.goes (does_goes taken)))).bind ?_
          rintro σ (out | ⟨e', ⟨returned, shape'⟩, rfl, others⟩)
          · exact .now (Or.inl out)
          · refine ih ⟨upto.does, upto.run, fun e p op member =>
              upto.call e p op (List.mem_cons_of_mem _ member)⟩ shape' fun w => ?_
            by_cases same : w = p
            · rw [same, returned]
            · exact others w same

end Upto

/-- Calls that are made one at a time all return, whatever the arguments are and however
many tickets are drawn. -/
theorem calls_return (script : List (T × Op)) :
    Inevitably (Script.Step fun e p a => e.does pow p a) Script.Finished ⟨Exec.init, script⟩ :=
  (Script.finishes (upto_does script) shape_init fun _ => rfl).mono fun _ ended =>
    ended.resolve_left id

/-- Calls that are made one at a time return the results of a mathematical FIFO queue,
unless the tickets of a ring are used up. -/
theorem calls_refine_fifo (script : List (T × Op)) (args : ∀ p x, (p, .enq x) ∈ script → x ≠ EMPTY) :
    Inevitably (Script.Step (Exec.next pow)) (fun σ => ¬ TicketsBelow pow σ.exec.st ∨
      (σ.Finished ∧ σ.results = fifo [] (script.map Prod.snd))) ⟨Exec.init, script⟩ := by
  by_cases below : TicketsBelow pow (State.init : State T)
  · have start : Script.Agrees pow (script.map Prod.snd) ⟨(Exec.init : Exec T), script⟩ :=
      ⟨.init below, args, [], [], rfl, Or.inl ⟨fun _ => rfl, rfl⟩, rfl⟩
    have ends := Script.finishes (upto_next pow script args) (shape_init (T := T)) fun _ => rfl
    refine (ends.keeping (fun _ _ agrees step => agrees.step step) start).mono ?_
    rintro σ ⟨out | finished, agrees⟩
    · exact Or.inl out
    · obtain ⟨rest, running, _, isRunning, spec⟩ := agrees.spec
      obtain rfl : running = [] := by
        rcases isRunning with ⟨_, none_⟩ | ⟨p, busy, _⟩
        · exact none_
        · exact absurd (finished.2 p) busy
      refine Or.inr ⟨finished, ?_⟩
      rw [spec, Script.ops, finished.1]
      exact (List.append_nil _).symm
  · exact .now (Or.inl below)

/-! ### Scripts that are executed -/

omit [DecidableEq T] in
theorem Script.Finished.ended {next : Exec T → T → Act → Option (Exec T)} {σ : Script T}
    (finished : σ.Finished) (σ' : Script T) : ¬ Script.Step next σ σ' := by
  rintro (⟨p, e, e', todo, busy, _⟩ | _)
  · exact busy (finished.2 p)
  · cases finished.1

theorem Script.used_up {σ : Script T} (used : ¬ TicketsBelow pow σ.exec.st) (σ' : Script T) :
    ¬ Script.Step (Exec.next pow) σ σ' := by
  have stuck : ∀ p a, σ.exec.next pow p a = none := fun p a => if_neg fun allowed => used allowed.1
  rintro (⟨p, e, e', todo, _, next⟩ | ⟨p, op, e, e', todo, _, next⟩)
  · cases (stuck p .run).symm.trans next
  · cases (stuck p op.act).symm.trans next

/-- A call that returns within the accesses it is given. -/
def Exec.playCall (pow : ℕ) (e : Exec T) (call : T × Op × ℕ) : Option (Exec T) :=
  (runSchedule (fun e a => e.next pow a.1 a.2) e
    ((call.1, call.2.1.act) :: List.replicate call.2.2 (call.1, .run))).filter fun e' =>
      (e'.st.pc call.1).phase.call.isNone

theorem goOn_path {k : ℕ} (todo : List (T × Op)) (alone : ∀ w, w ≠ p → e.st.pc w = .idle)
    (done : runSchedule (fun (e : Exec T) a => e.next pow a.1 a.2) e
      (List.replicate k (p, .run)) = some e') :
    Relation.ReflTransGen (Script.Step (Exec.next pow)) ⟨e, todo⟩ ⟨e', todo⟩ ∧
      ∀ w, w ≠ p → e'.st.pc w = .idle := by
  induction k generalizing e with
  | zero =>
      cases done
      exact ⟨.refl, alone⟩
  | succ k ih =>
      obtain ⟨e1, next, later⟩ := Option.bind_eq_some_iff.mp done
      have alone1 : ∀ w, w ≠ p → e1.st.pc w = .idle := fun w other => by
        rw [next_others next other, alone w other]
      obtain ⟨steps, alone'⟩ := ih alone1 later
      exact ⟨.head (.goOn p e e1 todo (next_busy next) next) steps, alone'⟩

theorem playCall_path {call : T × Op × ℕ} (todo : List (T × Op)) (idle : ∀ w, e.st.pc w = .idle)
    (done : e.playCall pow call = some e') : Relation.ReflTransGen (Script.Step (Exec.next pow))
      ⟨e, (call.1, call.2.1) :: todo⟩ ⟨e', todo⟩ ∧ ∀ w, e'.st.pc w = .idle := by
  obtain ⟨played, returned⟩ := Option.filter_eq_some_iff.mp done
  obtain ⟨e1, called, later⟩ := Option.bind_eq_some_iff.mp played
  obtain ⟨steps, alone⟩ := goOn_path todo (fun w other => by
    rw [next_others called other, idle w]) later
  refine ⟨.head (.call call.1 call.2.1 e e1 todo idle called) steps, fun w => ?_⟩
  by_cases same : w = call.1
  · rw [same]
    exact Pc.eq_idle (Option.isNone_iff_eq_none.mp returned)
  · exact alone w same

theorem plays_script (calls : List (T × Op × ℕ)) (idle : ∀ w, e.st.pc w = .idle)
    (done : runSchedule (Exec.playCall pow) e calls = some e') :
    Relation.ReflTransGen (Script.Step (Exec.next pow))
      ⟨e, calls.map fun call => (call.1, call.2.1)⟩ ⟨e', []⟩ ∧ ∀ w, e'.st.pc w = .idle := by
  induction calls generalizing e with
  | nil =>
      cases done
      exact ⟨.refl, idle⟩
  | cons call rest ih =>
      obtain ⟨e1, first, later⟩ := Option.bind_eq_some_iff.mp done
      obtain ⟨steps, idle1⟩ := playCall_path (rest.map fun call => (call.1, call.2.1))
        idle first
      obtain ⟨more, idle'⟩ := ih idle1 later
      exact ⟨steps.trans more, idle'⟩

end Scripts

/-- With one cell to a ring: the second item goes into a new ring, and the last `deq`
walks through both. -/
def twoRingCalls : List (Bool × Op × ℕ) :=
  [(true, .enq 5, 5), (true, .enq 6, 12), (false, .deq, 4), (false, .deq, 14), (true, .deq, 21)]

theorem calls_refine_fifo_two_rings : ∃ σ, Relation.ReflTransGen (Script.Step (Exec.next 0))
    ⟨Exec.init, twoRingCalls.map fun call => (call.1, call.2.1)⟩ σ ∧ σ.Finished ∧
      σ.results = [5, 6, EMPTY] := by
  have args : ∀ p x, (p, Op.enq x) ∈ twoRingCalls.map (fun call => (call.1, call.2.1)) →
      x ≠ EMPTY := by
    intro p x member
    simp only [twoRingCalls, List.map_cons, List.map_nil, List.mem_cons, Prod.mk.injEq,
      Op.enq.injEq, reduceCtorEq, and_false, or_false, List.not_mem_nil] at member
    rcases member with ⟨_, rfl⟩ | ⟨_, rfl⟩ <;> decide
  have found : (runSchedule (Exec.playCall 0) Exec.init twoRingCalls).any (fun e =>
      decide (TicketsBelow 0 e.st)) = true := by
    decide +kernel
  cases done : runSchedule (Exec.playCall 0) (Exec.init : Exec Bool) twoRingCalls with
  | none =>
      rw [done] at found
      cases found
  | some e =>
      rw [done] at found
      obtain ⟨steps, idle⟩ := plays_script twoRingCalls (fun _ => rfl) done
      have finished : Script.Finished ⟨e, []⟩ := ⟨rfl, idle⟩
      have ends := (calls_refine_fifo _ args).at_end
        (fun σ there => there.elim Script.used_up fun ended => ended.1.ended) steps finished.ended
      have results := ends.resolve_left fun used => used (of_decide_eq_true found)
      exact ⟨_, steps, results⟩

end Elcrq.C
