import Elcrq.C.Shape

/-! # The end pointers of `ELCRQ.h`

`enqueue` and `spinEnqueue` pass `q->tail` to `enq` by value, `dequeue` and
`spinDequeue` pass `q->head` to `deq`; nothing else of these four functions
touches the rings.  The `CASPTR` on `tail` and `head` inside `enq` and `deq`
therefore act on the call's own copy, where `LCRQueue.hpp` has them on the
queue's pointers: `q->tail` is the last ring as long as there is one ring, and
never again after a second one was linked. -/

set_option autoImplicit false

namespace Elcrq.C

open Concurrent Concurrent.RingList

section Ends

variable {T : Type}

/-- `q->head` when call `d` of `deq` began. -/
def headAtCall (d : ℕ) : List (Exec T) → Option ℕ
  | e' :: e :: past =>
      if .deqCall d ∈ e'.log ∧ .deqCall d ∉ e.log then some e.st.head else headAtCall d (e :: past)
  | _ => none

/-- With no call in progress `q->tail` is the last ring; and after a `deq` has
returned an item of a ring later than the one `q->head` pointed to at its call,
`q->head` has moved on. -/
structure EndsFollow (e : Exec T) (past : List (Exec T)) : Prop where
  tail : (∀ p, e.st.pc p = .idle) → (e.st.ring e.st.tail).next = none
  head : ∀ d r h x r', .deqRet d r h x ∈ e.log → headAtCall d (e :: past) = some r' →
    Older (rings e.log) r' r → e.st.head ≠ r'

variable {pow : ℕ} {e e' : Exec T} {past : List (Exec T)} {p : T}

theorem Shape.tail_last_iff (shape : Shape e) :
    (e.st.ring e.st.tail).next = none ↔ rings e.log = [0] := by
  rw [shape.layout.entry.2]
  constructor
  · intro last
    obtain ⟨rest, newest⟩ := shape.layout.linked.next_none shape.zero_mem last
    rw [newest]
    cases rest with
    | nil => rfl
    | cons r older =>
        have distinct := shape.distinct
        have oldest := shape.layout.oldest
        rw [newest, List.getLast?_cons_cons] at oldest
        rw [newest] at distinct
        exact absurd (List.mem_of_getLast? oldest) (List.nodup_cons.mp distinct).1
  · intro single
    have linked := shape.layout.linked
    rw [single] at linked
    exact linked.1

/-- Thread `p` is not about to link a new ring. -/
def Exec.NotLinking (e : Exec T) (p : T) : Prop :=
  ∀ f n, e.st.pc p = .enqLink f n → (e.st.ring f.tail).next ≠ none

variable [DecidableEq T]

def singleSystem (pow : ℕ) : System (Exec T) where
  init := fun e => e = Exec.init
  step := fun e e' => ∃ p a, e.NotLinking p ∧ e.does pow p a = some e'

theorem rings_unchanged (notLinking : e.NotLinking p) (goes : e.Goes pow p e') :
    rings e'.log = rings e.log := by
  cases goes with
  | link f n here last => exact absurd last (notLinking f n here)
  | access q pc events access => exact Exec.accessed_rings access
  | callEnq | callDeq | reuse | alloc | soloTail | soloVal | soloIdx | lost | swing => rfl

theorem single_reachable (run : Reachable (singleSystem pow) e) :
    Shape e ∧ rings e.log = [0] := by
  refine Reachable.invariant (I := fun e => Shape e ∧ rings e.log = [0]) ?_ ?_ run
  · rintro e rfl
    exact ⟨shape_init, rfl⟩
  · rintro e e' ⟨shape, single⟩ ⟨p, a, notLinking, does⟩
    have goes := does_goes does
    exact ⟨shape.goes goes, (rings_unchanged notLinking goes).trans single⟩

/-- The end pointers follow the list in every run in which no ring is linked. -/
theorem ends_follow_of_notLinking (run : Trace (singleSystem pow) (e :: past)) :
    EndsFollow e past := by
  obtain ⟨shape, single⟩ := single_reachable run.reachable
  refine ⟨fun _ => shape.tail_last_iff.mpr single, fun d r h x r' _ _ older => ?_⟩
  rw [single] at older
  rcases older with ⟨_, member⟩ | deeper
  · cases member
  · cases deeper

def Exec.checkLinking (e : Exec T) (p : T) : Bool :=
  match e.st.pc p with
  | .enqLink f _ => (e.st.ring f.tail).next.isSome
  | _ => true

omit [DecidableEq T] in
theorem Exec.notLinking_of_check (check : e.checkLinking p = true) : e.NotLinking p := by
  intro f n here last
  simp only [Exec.checkLinking, here, last] at check
  cases check

end Ends

/-- Two items are enqueued and one is dequeued within one ring. -/
theorem ends_follow_of_notLinking_one_ring : ∃ (e : Exec Bool) (past : List (Exec Bool)),
    Trace (singleSystem 1) (e :: past) ∧ .deqRet 2 0 0 5 ∈ e.log ∧ EndsFollow e past := by
  have start : (singleSystem 1).init (Exec.init : Exec Bool) := rfl
  have sound : ∀ (e : Exec Bool) (a : Bool × Act) (e' : Exec Bool),
      (if e.checkLinking a.1 then e.does 1 a.1 a.2 else none) = some e' →
      (singleSystem 1).step e e' := by
    intro e a e' does
    split at does
    next check => exact ⟨a.1, a.2, Exec.notLinking_of_check check, does⟩
    next => cases does
  obtain ⟨e, run, found⟩ := runSchedule_any sound start
    [[(true, .enq 5)], List.replicate 5 (true, .run), [(true, .enq 6)],
      List.replicate 5 (true, .run), [(false, .deq)], List.replicate 4 (false, .run)].flatten
    (fun e => decide (.deqRet 2 0 0 5 ∈ e.log)) (by decide +kernel)
  obtain ⟨past, trace⟩ := run.trace
  exact ⟨e, past, trace, of_decide_eq_true found, ends_follow_of_notLinking trace⟩

/-- With one cell to a ring: two `spinEnqueue`, two `spinDequeue`.  The second item
is in a second ring; `q->tail` stays at the first one, and so does `q->head` after
the second item was returned from the second ring. -/
def twoRings : List (Bool × Act) :=
  [[(true, .enq 5)], List.replicate 5 (true, .run), [(true, .enq 6)], List.replicate 12 (true, .run),
    [(false, .deq)], List.replicate 4 (false, .run), [(false, .deq)],
    List.replicate 14 (false, .run)].flatten

theorem ends_left_behind : ¬ ∀ (e : Exec Bool) (past : List (Exec Bool)),
    Trace (machine 0) (e :: past) → EndsFollow e past := by
  intro follow
  obtain ⟨e, run, found⟩ := machine_reaches 0 twoRings
    (fun e => decide ((∀ p, (e.st.pc p).phase.call = none) ∧
      (e.st.ring e.st.tail).next = some 1 ∧ .deqRet 3 1 0 6 ∈ e.log)) (by decide +kernel)
  obtain ⟨noCall, link, _⟩ := of_decide_eq_true found
  obtain ⟨past, trace⟩ := run.trace
  have last := (follow e past trace).tail fun p => Pc.eq_idle (noCall p)
  rw [link] at last
  cases last

end Elcrq.C
