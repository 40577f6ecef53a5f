import Elcrq.C.Refinement

/-! # The steps of `ELCRQ.h`

`Exec.Goes` says what one step of a thread can do, `Update` and `Stays` what an
access does to the ring and where the call goes on.  `machine` is the code with
no bound on the tickets and no condition on what is enqueued. -/

set_option autoImplicit false

namespace Elcrq.C

open Concurrent Concurrent.RingList

/-! ## What an access does to a ring -/

section Access

variable {pow : ℕ} {q q' : RingQueue ℕ Word} {pc pc' : Pc} {events : List (Event Word)}

theorem atEmptyCell_phase (f : DeqFrame) (h tt : Word) (r : ℕ) (cellIdx : Word) :
    (atEmptyCell f h tt r cellIdx).phase = .deq f.call ∧
      (atEmptyCell f h tt r cellIdx).rq = f.head := by
  unfold atEmptyCell
  split
  · exact ⟨rfl, rfl⟩
  · split <;> exact ⟨rfl, rfl⟩

/-- The events of an access that draws no head ticket, stores nothing and links nothing. -/
def Event.Minor : Event Word → Prop
  | .deqDraw _ _ _ | .enqItem _ _ _ _ | .link _ _ => False
  | _ => True

/-- How one access changes the ring. -/
inductive Update (pow : ℕ) (q : RingQueue ℕ Word) :
    Pc → RingQueue ℕ Word → Pc → List (Event Word) → Prop
  | reads (pc pc' : Pc) (events : List (Event Word)) : (∀ event ∈ events, Event.Minor event) →
      Update pow q pc q pc' events
  | drawsTail (f : EnqFrame) (pc' : Pc) (events : List (Event Word)) :
      (∀ event ∈ events, Event.Minor event) →
      Update pow q (.enqFaa f) { q with tail := q.tail + 1 } pc' events
  | drawsHead (f : DeqFrame) :
      Update pow q (.deqFaa f) { q with head := q.head + 1 } (.deqIdx f q.head 0 0)
        [.deqDraw f.call f.head q.head.toNat]
  | closes (f : EnqFrame) (t : Word) (pc' : Pc) :
      Update pow q (.enqClose f t) { q with tail := setUnsafe q.tail } pc' []
  | raises (f : DeqFrame) (t h : Word) : q.tail = t →
      Update pow q (.fixCas f t h) { q with tail := h } (.deqNext f) []
  | stores (f : EnqFrame) (t idx : Word) : q.array (cellOf pow t) = ⟨EMPTY, idx⟩ →
      Update pow q (.enqCas2 f t idx) (q.setNode (cellOf pow t) ⟨f.arg, t⟩) .idle
        [.enqRet f.call, .enqItem f.call f.tail t.toNat f.arg]
  | takes (f : DeqFrame) (h tt : Word) (r : ℕ) (cellIdx val : Word) :
      q.array (cellOf pow h) = ⟨val, cellIdx⟩ →
      Update pow q (.deqTake f h tt r cellIdx val)
        (q.setNode (cellOf pow h) ⟨EMPTY, nodeUnsafe cellIdx ||| (h + ringSize pow)⟩) .idle
        [.deqRet f.call f.head h.toNat val, .deqItem f.call f.head h.toNat val]
  | marks (f : DeqFrame) (h tt : Word) (r : ℕ) (cellIdx val : Word) :
      q.array (cellOf pow h) = ⟨val, cellIdx⟩ →
      Update pow q (.deqMark f h tt r cellIdx val)
        (q.setNode (cellOf pow h) ⟨val, setUnsafe (nodeIndex cellIdx)⟩) (.deqExit f h)
        [.deqLeft f.call f.head h.toNat]
  | skips (pc : Pc) (f : DeqFrame) (h idx' : Word) :
      Update pow q pc (q.setNode (cellOf pow h) ⟨EMPTY, idx'⟩) (.deqExit f h)
        [.deqLeft f.call f.head h.toNat]

theorem onRing_updates (access : onRing pow q pc = some (q', pc', events)) :
    Update pow q pc q' pc' events := by
  cases pc with
  | enqFaa f =>
      simp only [onRing] at access
      split at access <;> cases access
      · exact .drawsTail f _ _ (by simp)
      · exact .drawsTail f _ _ (by simp [Event.Minor])
  | deqFaa f =>
      cases access
      exact .drawsHead f
  | enqClose f t =>
      simp only [onRing] at access
      rcases q.closeCrq_cases t f.tryClose with failed | done
      · rw [failed] at access
        cases access
        exact .reads _ _ _ (by simp)
      · split at access <;> cases access
        next result =>
          rw [result] at done
          subst done
          exact .closes f t _
        next result =>
          rw [result] at done
          subst done
          exact .closes f t _
  | fixCas f t h =>
      simp only [onRing] at access
      rcases q.casTail_cases t h with failed | ⟨isTail, done⟩
      · rw [failed] at access
        cases access
        exact .reads _ _ _ (by simp)
      · rw [done] at access
        cases access
        exact .raises f t h isTail
  | enqCas2 f t idx =>
      simp only [onRing] at access
      rcases q.cas2_cases (cellOf pow t) EMPTY idx f.arg t with failed | ⟨here, done⟩
      · rw [failed] at access
        cases access
        exact .reads _ _ _ (by simp)
      · rw [done] at access
        cases access
        exact .stores f t idx here
  | deqTake f h tt r cellIdx val =>
      simp only [onRing] at access
      rcases q.cas2_cases (cellOf pow h) val cellIdx EMPTY
        (nodeUnsafe cellIdx ||| (h + ringSize pow)) with failed | ⟨here, done⟩
      · rw [failed] at access
        cases access
        exact .reads _ _ _ (by simp)
      · rw [done] at access
        cases access
        exact .takes f h tt r cellIdx val here
  | deqMark f h tt r cellIdx val =>
      simp only [onRing] at access
      rcases q.cas2_cases (cellOf pow h) val cellIdx val (setUnsafe (nodeIndex cellIdx)) with
        failed | ⟨here, done⟩
      · rw [failed] at access
        cases access
        exact .reads _ _ _ (by simp)
      · rw [done] at access
        cases access
        exact .marks f h tt r cellIdx val here
  | deqSkipUnsafe f h tt r cellIdx =>
      simp only [onRing] at access
      rcases q.cas2_cases (cellOf pow h) EMPTY cellIdx EMPTY
        (nodeUnsafe cellIdx ||| (h + ringSize pow)) with failed | ⟨_, done⟩
      · rw [failed] at access
        cases access
        exact .reads _ _ _ (by simp)
      · rw [done] at access
        cases access
        exact .skips _ f h _
  | deqSkip f h tt r idx =>
      simp only [onRing] at access
      rcases q.cas2_cases (cellOf pow h) EMPTY idx EMPTY (h + ringSize pow) with failed | ⟨_, done⟩
      · rw [failed] at access
        cases access
        exact .reads _ _ _ (by simp)
      · rw [done] at access
        cases access
        exact .skips _ f h _
  | _ =>
      simp only [onRing] at access
      (repeat' split at access) <;> cases access <;>
        exact .reads _ _ _ (by simp [Event.Minor])

theorem Update.next (update : Update pow q pc q' pc' events) : q'.next = q.next := by
  cases update <;> rfl

theorem Update.rings (update : Update pow q pc q' pc' events) (log : List (Event Word)) :
    rings (events ++ log) = rings log := by
  have minor : ∀ events : List (Event Word), (∀ event ∈ events, Event.Minor event) →
      RingList.rings (events ++ log) = RingList.rings log := by
    intro events minor
    induction events with
    | nil => rfl
    | cons event rest ih =>
        have later := ih fun event member => minor event (List.mem_cons_of_mem _ member)
        cases event with
        | link r m => exact absurd (minor _ List.mem_cons_self) id
        | _ => exact later
  cases update with
  | reads _ _ _ isMinor => exact minor events isMinor
  | drawsTail _ _ _ isMinor => exact minor events isMinor
  | drawsHead | closes | raises | stores | takes | marks | skips => rfl

def Pc.readsNext : Pc → Bool
  | .enqNext _ | .deqNext _ => true
  | _ => false

/-- A call stays on its ring, follows `next`, or returns. -/
inductive Stays (q : RingQueue ℕ Word) (pc pc' : Pc) : Prop
  | here : pc'.rq = pc.rq → pc'.phase = pc.phase → Stays q pc pc'
  | hop : pc.readsNext = true → q.next = some pc'.rq → pc'.phase = pc.phase → Stays q pc pc'
  | back : pc' = .idle → Stays q pc pc'

theorem onRing_stays (access : onRing pow q pc = some (q', pc', events)) : Stays q pc pc' := by
  cases pc with
  | enqNext f =>
      simp only [onRing] at access
      split at access
      next n link =>
        cases access
        exact .hop rfl link rfl
      next =>
        cases access
        exact .here rfl rfl
  | deqNext f =>
      simp only [onRing] at access
      split at access
      next =>
        cases access
        exact .back rfl
      next n link =>
        cases access
        exact .hop rfl link rfl
  | deqVal f h tt r cellIdx =>
      obtain ⟨phase, rq⟩ := atEmptyCell_phase f h tt r cellIdx
      simp only [onRing] at access
      (repeat' split at access) <;> cases access
      case deqVal.isFalse.isTrue.isFalse.refl => exact .here rq phase
      all_goals exact .here rfl rfl
  | deqTail f h r cellIdx =>
      obtain ⟨phase, rq⟩ := atEmptyCell_phase f h q.tail r cellIdx
      cases access
      exact .here rq phase
  | _ =>
      simp only [onRing] at access
      (repeat' split at access) <;> cases access <;>
        first
        | exact .here rfl rfl
        | exact .back rfl

theorem Pc.eq_idle {pc : Pc} (noCall : pc.phase.call = none) : pc = .idle := by
  cases pc <;> first | rfl | cases noCall

end Access

/-! ## What a step does -/

section Step

variable {T : Type} [DecidableEq T] {pow : ℕ} {e e' : Exec T} {p : T} {a : Act}

/-- The state after an access to the ring a thread works on. -/
def Exec.accessed (e : Exec T) (p : T) (q : RingQueue ℕ Word) (pc : Pc)
    (events : List (Event Word)) : Exec T :=
  ⟨(e.st.setRing (e.st.pc p).rq q).goto p pc, events ++ e.log⟩

section Accessed

variable {q : RingQueue ℕ Word} {pc : Pc} {events : List (Event Word)}

@[simp] theorem Exec.accessed_pc : (e.accessed p q pc events).st.pc p = pc :=
  Function.update_self ..

theorem Exec.accessed_pc_other {w : T} (other : w ≠ p) :
    (e.accessed p q pc events).st.pc w = e.st.pc w := Function.update_of_ne other ..

@[simp] theorem Exec.accessed_ring : (e.accessed p q pc events).st.ring (e.st.pc p).rq = q :=
  Function.update_self ..

theorem Exec.accessed_ring_other {r : ℕ} (other : r ≠ (e.st.pc p).rq) :
    (e.accessed p q pc events).st.ring r = e.st.ring r := Function.update_of_ne other ..

theorem Exec.accessed_rings
    (access : onRing pow (e.st.ring (e.st.pc p).rq) (e.st.pc p) = some (q, pc, events)) :
    rings (e.accessed p q pc events).log = rings e.log := (onRing_updates access).rings e.log

end Accessed

/-- Everything that one step of thread `p` can do. -/
inductive Exec.Goes (pow : ℕ) (e : Exec T) (p : T) : Exec T → Prop
  | callEnq (arg : Word) : e.st.pc p = .idle →
      e.Goes pow p ⟨{ e.st with calls := e.st.calls + 1 }.goto p
        (.enqNext ⟨e.st.calls, arg, e.st.tail, 0⟩), .enqCall e.st.calls arg :: e.log⟩
  | callDeq : e.st.pc p = .idle →
      e.Goes pow p ⟨{ e.st with calls := e.st.calls + 1 }.goto p (.deqFaa ⟨e.st.calls, e.st.head⟩),
        .deqCall e.st.calls :: e.log⟩
  | reuse (f : EnqFrame) (n : ℕ) : e.st.pc p = .enqAlloc f → e.st.nrq p = some n →
      e.Goes pow p ⟨e.st.goto p (.soloTail f n), e.log⟩
  | alloc (f : EnqFrame) : e.st.pc p = .enqAlloc f → e.st.nrq p = none →
      e.Goes pow p ⟨(({ e.st with fresh := e.st.fresh + 1 }.setRing e.st.fresh
        (initRing EMPTY)).setNrq p (some e.st.fresh)).goto p (.soloTail f e.st.fresh), e.log⟩
  | soloTail (f : EnqFrame) (n : ℕ) : e.st.pc p = .soloTail f n →
      e.Goes pow p ⟨(e.st.setRing n { e.st.ring n with tail := 1 }).goto p (.soloVal f n), e.log⟩
  | soloVal (f : EnqFrame) (n : ℕ) : e.st.pc p = .soloVal f n →
      e.Goes pow p ⟨(e.st.setRing n ((e.st.ring n).setNode 0
        { (e.st.ring n).array 0 with val := f.arg })).goto p (.soloIdx f n), e.log⟩
  | soloIdx (f : EnqFrame) (n : ℕ) : e.st.pc p = .soloIdx f n →
      e.Goes pow p ⟨(e.st.setRing n ((e.st.ring n).setNode 0
        { (e.st.ring n).array 0 with idx := 0 })).goto p (.enqLink f n), e.log⟩
  | link (f : EnqFrame) (n : ℕ) : e.st.pc p = .enqLink f n → (e.st.ring f.tail).next = none →
      e.Goes pow p ⟨(e.st.setRing f.tail { e.st.ring f.tail with next := some n }).goto p
        (.enqSwing f n), .enqItem f.call n 0 f.arg :: .enqDraw f.call n 0 :: .link f.tail n :: e.log⟩
  | lost (f : EnqFrame) (n m : ℕ) : e.st.pc p = .enqLink f n →
      (e.st.ring f.tail).next = some m → e.Goes pow p ⟨e.st.goto p (.enqNext f), e.log⟩
  | swing (f : EnqFrame) (n : ℕ) : e.st.pc p = .enqSwing f n →
      e.Goes pow p ⟨(e.st.setNrq p none).goto p .idle, .enqRet f.call :: e.log⟩
  | access (q : RingQueue ℕ Word) (pc : Pc) (events : List (Event Word)) :
      onRing pow (e.st.ring (e.st.pc p).rq) (e.st.pc p) = some (q, pc, events) →
      e.Goes pow p (e.accessed p q pc events)

theorem run_goes {s : State T} {events : List (Event Word)}
    (taken : run pow e.st p = some (s, events)) : e.Goes pow p ⟨s, events ++ e.log⟩ := by
  unfold run at taken
  split at taken
  next f here =>
    split at taken
    next n has =>
      cases taken
      exact .reuse f n here has
    next none_ =>
      cases taken
      exact .alloc f here none_
  next f n here =>
    cases taken
    exact .soloTail f n here
  next f n here =>
    cases taken
    exact .soloVal f n here
  next f n here =>
    cases taken
    exact .soloIdx f n here
  next f n here =>
    split at taken
    next last =>
      cases taken
      exact .link f n here last
    next m link =>
      cases taken
      exact .lost f n m here link
  next f n here =>
    cases taken
    exact .swing f n here
  next =>
    obtain ⟨⟨q, pc, events'⟩, access, result⟩ := Option.map_eq_some_iff.mp taken
    cases result
    exact .access _ _ _ access

theorem Exec.Goes.others (goes : e.Goes pow p e') {w : T} (other : w ≠ p) :
    e'.st.pc w = e.st.pc w := by
  cases goes <;> exact Function.update_of_ne other ..

/-- An access or a call of thread `p`, whatever the number of tickets and whatever is
enqueued. -/
def Exec.does (pow : ℕ) (p : T) (a : Act) (e : Exec T) : Option (Exec T) :=
  (step pow e.st p a).map fun (s, events) => ⟨s, events ++ e.log⟩

def machine (pow : ℕ) : System (Exec T) where
  init := fun e => e = Exec.init
  step := fun e e' => ∃ p a, e.does pow p a = some e'

def Exec.plays (pow : ℕ) (e : Exec T) (schedule : List (T × Act)) : Option (Exec T) :=
  runSchedule (fun e a => e.does pow a.1 a.2) e schedule

theorem machine_plays {schedule : List (T × Act)} (run : Reachable (machine pow) e)
    (done : e.plays pow schedule = some e') : Reachable (machine pow) e' := by
  refine runSchedule_reachable ?_ schedule run done
  exact fun e a e' does => ⟨a.1, a.2, does⟩

theorem machine_reaches (pow : ℕ) (schedule : List (T × Act)) (P : Exec T → Bool)
    (found : (Exec.init.plays pow schedule).any P = true) :
    ∃ e, Reachable (machine pow) e ∧ P e = true := by
  have start : Reachable (machine pow) (Exec.init : Exec T) := .init rfl
  cases done : Exec.init.plays pow schedule with
  | none =>
      rw [done] at found
      cases found
  | some e =>
      rw [done] at found
      exact ⟨e, machine_plays start done, found⟩

theorem does_goes (does : e.does pow p a = some e') : e.Goes pow p e' := by
  obtain ⟨⟨s, events⟩, taken, rfl⟩ := Option.map_eq_some_iff.mp does
  cases a with
  | enq arg =>
      simp only [step] at taken
      split at taken
      next idle =>
        cases taken
        exact .callEnq arg idle
      next => cases taken
  | deq =>
      simp only [step] at taken
      split at taken
      next idle =>
        cases taken
        exact .callDeq idle
      next => cases taken
  | run => exact run_goes taken

theorem next_below (next : e.next pow p a = some e') : TicketsBelow pow e.st := by
  unfold Exec.next at next
  split at next
  next allowed => exact allowed.1
  next => cases next

theorem next_does (next : e.next pow p a = some e') : e.does pow p a = some e' := by
  unfold Exec.next at next
  split at next
  next => exact next
  next => cases next

theorem next_goes (next : e.next pow p a = some e') : e.Goes pow p e' := does_goes (next_does next)

theorem next_others (next : e.next pow p a = some e') {w : T} (other : w ≠ p) :
    e'.st.pc w = e.st.pc w := (next_goes next).others other

end Step

end Elcrq.C
