import Elcrq.C.Steps

/-! # The list of rings

`Layout` is about memory: the linked rings, and the ring each thread has
allocated and not linked yet.  Whatever the counters do, the linked rings form one
list and every call works on a ring of it; this takes no argument about tickets. -/

set_option autoImplicit false

namespace Elcrq.C

open Concurrent Concurrent.TicketRing Concurrent.RingList

/-- The new ring a call is about to link or has just linked. -/
def Pc.nrq : Pc → Option ℕ
  | .soloTail _ n | .soloVal _ n | .soloIdx _ n | .enqLink _ n | .enqSwing _ n => some n
  | _ => none

/-- The call has linked its new ring and not yet returned. -/
def Pc.linked : Pc → Bool
  | .enqSwing _ _ => true
  | _ => false

def Pc.Filled (q : RingQueue ℕ Word) : Pc → Prop
  | .soloVal _ _ => q.tail = 1
  | .soloIdx f _ | .enqLink f _ => q.tail = 1 ∧ (q.array 0).val = f.arg
  | _ => True

section Layout

variable {T : Type}

structure Layout (s : State T) (rs : List ℕ) : Prop where
  linked : Linked (fun r => (s.ring r).next) none rs
  fresh : ∀ r ∈ rs, r < s.fresh
  oldest : rs.getLast? = some 0
  entry : s.head = 0 ∧ s.tail = 0
  nrq_fresh : ∀ p n, s.nrq p = some n → n < s.fresh
  nrq_unique : ∀ p p' n, s.nrq p = some n → s.nrq p' = some n → p = p'
  nrq_unlinked : ∀ p n, s.nrq p = some n → (s.pc p).linked = false →
    n ∉ rs ∧ Unlinked EMPTY (s.ring n)
  own : ∀ p n, (s.pc p).nrq = some n → s.nrq p = some n ∧ (s.pc p).Filled (s.ring n)

variable {s s' : State T} {rs : List ℕ} {p : T}

theorem Layout.keep (layout : Layout s rs) (next : ∀ r, (s'.ring r).next = (s.ring r).next)
    (hidden : ∀ r, r ∉ rs → s'.ring r = s.ring r) (fresh : s'.fresh = s.fresh)
    (nrq : s'.nrq = s.nrq) (entry : s'.head = s.head ∧ s'.tail = s.tail)
    (others : ∀ w, w ≠ p → s'.pc w = s.pc w) (unlinked : (s.pc p).linked = false)
    (unlinked' : (s'.pc p).linked = false)
    (own : ∀ n, (s'.pc p).nrq = some n → s.nrq p = some n ∧ (s'.pc p).Filled (s.ring n)) :
    Layout s' rs := by
  have stillUnlinked : ∀ w n, s'.nrq w = some n → (s'.pc w).linked = false →
      n ∉ rs ∧ Unlinked EMPTY (s.ring n) := by
    intro w n has isFree
    rw [nrq] at has
    by_cases same : w = p
    · subst same
      exact layout.nrq_unlinked w n has unlinked
    · rw [others w same] at isFree
      exact layout.nrq_unlinked w n has isFree
  refine
    { linked := layout.linked.congr fun r _ => next r
      fresh := by rw [fresh]; exact layout.fresh
      oldest := layout.oldest
      entry := by rw [entry.1, entry.2]; exact layout.entry
      nrq_fresh := by rw [fresh, nrq]; exact layout.nrq_fresh
      nrq_unique := by rw [nrq]; exact layout.nrq_unique
      nrq_unlinked := ?_
      own := ?_ }
  · intro w n has isFree
    obtain ⟨notIn, content⟩ := stillUnlinked w n has isFree
    exact ⟨notIn, by rw [hidden n notIn]; exact content⟩
  · intro w n has
    by_cases same : w = p
    · subst same
      obtain ⟨holds, filled⟩ := own n has
      have notIn := (layout.nrq_unlinked w n holds unlinked).1
      exact ⟨by rw [nrq]; exact holds, by rw [hidden n notIn]; exact filled⟩
    · rw [others w same] at has ⊢
      obtain ⟨holds, filled⟩ := layout.own w n has
      refine ⟨by rw [nrq]; exact holds, ?_⟩
      cases linked : (s.pc w).linked with
      | false =>
          rw [hidden n (layout.nrq_unlinked w n holds linked).1]
          exact filled
      | true =>
          -- once linked, nothing is said about the content any more
          cases at_ : s.pc w <;> rw [at_] at linked <;> cases linked
          trivial

variable [DecidableEq T]

theorem Layout.fill {n : ℕ} {q : RingQueue ℕ Word} {pc : Pc} (layout : Layout s rs)
    (has : s.nrq p = some n) (unlinked : (s.pc p).linked = false) (content : Unlinked EMPTY q)
    (isOwn : pc.nrq = some n) (filled : pc.Filled q) :
    Layout ((s.setRing n q).goto p pc) rs := by
  have notIn := (layout.nrq_unlinked p n has unlinked).1
  have ringSame : ∀ r, r ≠ n → ((s.setRing n q).goto p pc).ring r = s.ring r := fun r other =>
    Function.update_of_ne other ..
  have ringSelf : ((s.setRing n q).goto p pc).ring n = q := Function.update_self ..
  have pcSelf : ((s.setRing n q).goto p pc).pc p = pc := Function.update_self ..
  have pcSame : ∀ w, w ≠ p → ((s.setRing n q).goto p pc).pc w = s.pc w := fun w other =>
    Function.update_of_ne other ..
  have apart : ∀ w m, w ≠ p → s.nrq w = some m → m ≠ n := fun w m other holds same =>
    other (layout.nrq_unique w p n (same ▸ holds) has)
  refine
    { linked := layout.linked.congr fun r member => ?_
      fresh := layout.fresh
      oldest := layout.oldest
      entry := layout.entry
      nrq_fresh := layout.nrq_fresh
      nrq_unique := layout.nrq_unique
      nrq_unlinked := ?_
      own := ?_ }
  · rw [ringSame r fun same => notIn (same ▸ member)]
  · intro w m holds isFree
    by_cases same : w = p
    · subst same
      cases Option.some.inj (holds.symm.trans has)
      exact ⟨notIn, by rw [ringSelf]; exact content⟩
    · rw [pcSame w same] at isFree
      rw [ringSame m (apart w m same holds)]
      exact layout.nrq_unlinked w m holds isFree
  · intro w m holds
    by_cases same : w = p
    · subst same
      rw [pcSelf] at holds ⊢
      cases Option.some.inj (holds.symm.trans isOwn)
      exact ⟨has, by rw [ringSelf]; exact filled⟩
    · rw [pcSame w same] at holds ⊢
      obtain ⟨has', filled'⟩ := layout.own w m holds
      rw [ringSame m (apart w m same has')]
      exact ⟨has', filled'⟩

/-- `getMemory` and `init_ring`. -/
theorem Layout.alloc {pc : Pc} (layout : Layout s rs) (isOwn : pc.nrq = some s.fresh)
    (filled : ∀ q, pc.Filled q) :
    Layout ((({ s with fresh := s.fresh + 1 }.setRing s.fresh (initRing EMPTY)).setNrq p
      (some s.fresh)).goto p pc) rs := by
  generalize shape : (({ s with fresh := s.fresh + 1 }.setRing s.fresh (initRing EMPTY)).setNrq p
    (some s.fresh)).goto p pc = s'
  have ringSame : ∀ r, r ≠ s.fresh → s'.ring r = s.ring r := fun r other => by
    rw [← shape]
    exact Function.update_of_ne other ..
  have ringSelf : s'.ring s.fresh = initRing EMPTY := by
    rw [← shape]
    exact Function.update_self ..
  have pcSelf : s'.pc p = pc := by
    rw [← shape]
    exact Function.update_self ..
  have pcSame : ∀ w, w ≠ p → s'.pc w = s.pc w := fun w other => by
    rw [← shape]
    exact Function.update_of_ne other ..
  have nrqSelf : s'.nrq p = some s.fresh := by
    rw [← shape]
    exact Function.update_self ..
  have nrqSame : ∀ w, w ≠ p → s'.nrq w = s.nrq w := fun w other => by
    rw [← shape]
    exact Function.update_of_ne other ..
  have freshSucc : s'.fresh = s.fresh + 1 := by rw [← shape]; rfl
  have fresh_ne : ∀ w m, s.nrq w = some m → m ≠ s.fresh := fun w m has =>
    (layout.nrq_fresh w m has).ne
  refine
    { linked := layout.linked.congr fun r member => ?_
      fresh := fun r member => by rw [freshSucc]; exact (layout.fresh r member).trans (Nat.lt_succ_self _)
      oldest := layout.oldest
      entry := by rw [← shape]; exact layout.entry
      nrq_fresh := ?_
      nrq_unique := ?_
      nrq_unlinked := ?_
      own := ?_ }
  · rw [ringSame r (layout.fresh r member).ne]
  · intro w m has
    rw [freshSucc]
    by_cases same : w = p
    · subst same
      cases Option.some.inj (has.symm.trans nrqSelf)
      exact Nat.lt_succ_self _
    · rw [nrqSame w same] at has
      exact (layout.nrq_fresh w m has).trans (Nat.lt_succ_self _)
  · intro w w' m first second
    by_cases isP : w = p
    · by_cases isP' : w' = p
      · rw [isP, isP']
      · subst isP
        cases Option.some.inj (first.symm.trans nrqSelf)
        rw [nrqSame w' isP'] at second
        exact absurd rfl (fresh_ne w' _ second)
    · by_cases isP' : w' = p
      · subst isP'
        cases Option.some.inj (second.symm.trans nrqSelf)
        rw [nrqSame w isP] at first
        exact absurd rfl (fresh_ne w _ first)
      · rw [nrqSame w isP] at first
        rw [nrqSame w' isP'] at second
        exact layout.nrq_unique w w' m first second
  · intro w m has isFree
    by_cases same : w = p
    · subst same
      cases Option.some.inj (has.symm.trans nrqSelf)
      exact ⟨fun member => lt_irrefl _ (layout.fresh _ member), by rw [ringSelf]; exact unlinked_init⟩
    · rw [nrqSame w same] at has
      rw [pcSame w same] at isFree
      rw [ringSame m (fresh_ne w m has)]
      exact layout.nrq_unlinked w m has isFree
  · intro w m has
    by_cases same : w = p
    · subst same
      rw [pcSelf] at has ⊢
      cases Option.some.inj (has.symm.trans isOwn)
      exact ⟨nrqSelf, filled _⟩
    · rw [pcSame w same] at has ⊢
      obtain ⟨has', filled'⟩ := layout.own w m has
      rw [nrqSame w same, ringSame m (fresh_ne w m has')]
      exact ⟨has', filled'⟩

/-- The link of a new ring behind the newest one. -/
theorem Layout.link {f : EnqFrame} {n r : ℕ} {rest : List ℕ} (layout : Layout s (r :: rest))
    (distinct : (r :: rest).Nodup) (has : s.nrq p = some n) (unlinked : (s.pc p).linked = false) :
    Layout ((s.setRing r { s.ring r with next := some n }).goto p (.enqSwing f n))
      (n :: r :: rest) := by
  obtain ⟨notIn, content⟩ := layout.nrq_unlinked p n has unlinked
  have notR : n ≠ r := fun same => notIn (same ▸ List.mem_cons_self)
  generalize shape : (s.setRing r { s.ring r with next := some n }).goto p (.enqSwing f n) = s'
  have ringSame : ∀ r', r' ≠ r → s'.ring r' = s.ring r' := fun r' other => by
    rw [← shape]
    exact Function.update_of_ne other ..
  have ringSelf : s'.ring r = { s.ring r with next := some n } := by
    rw [← shape]
    exact Function.update_self ..
  have pcSelf : s'.pc p = .enqSwing f n := by
    rw [← shape]
    exact Function.update_self ..
  have pcSame : ∀ w, w ≠ p → s'.pc w = s.pc w := fun w other => by
    rw [← shape]
    exact Function.update_of_ne other ..
  have nrqSame : s'.nrq = s.nrq := by rw [← shape]; rfl
  have freshSame : s'.fresh = s.fresh := by rw [← shape]; rfl
  refine
    { linked := ?_
      fresh := ?_
      oldest := by rw [List.getLast?_cons_cons]; exact layout.oldest
      entry := by rw [← shape]; exact layout.entry
      nrq_fresh := by rw [nrqSame, freshSame]; exact layout.nrq_fresh
      nrq_unique := by rw [nrqSame]; exact layout.nrq_unique
      nrq_unlinked := ?_
      own := ?_ }
  · refine layout.linked.push (fun r' member => ?_) (by rw [ringSelf]) ?_
    · have other : r' ≠ r := fun same => (List.nodup_cons.mp distinct).1 (same ▸ member)
      rw [ringSame r' other]
    · rw [ringSame n notR]
      exact content.next_none
  · intro r' member
    rw [freshSame]
    rcases List.mem_cons.mp member with rfl | old
    · exact layout.nrq_fresh p r' has
    · exact layout.fresh r' old
  · intro w m holds isFree
    rw [nrqSame] at holds
    by_cases same : w = p
    · subst same
      rw [pcSelf] at isFree
      cases isFree
    · rw [pcSame w same] at isFree
      obtain ⟨notIn', content'⟩ := layout.nrq_unlinked w m holds isFree
      have other : m ≠ n := fun eq => same (layout.nrq_unique w p n (eq ▸ holds) has)
      refine ⟨fun member => ?_, ?_⟩
      · rcases List.mem_cons.mp member with eq | old
        · exact other eq
        · exact notIn' old
      · rw [ringSame m fun eq => notIn' (eq ▸ List.mem_cons_self)]
        exact content'
  · intro w m holds
    by_cases same : w = p
    · subst same
      rw [pcSelf] at holds ⊢
      cases holds
      exact ⟨by rw [nrqSame]; exact has, trivial⟩
    · rw [pcSame w same] at holds ⊢
      obtain ⟨has', filled'⟩ := layout.own w m holds
      refine ⟨by rw [nrqSame]; exact has', ?_⟩
      cases linked : (s.pc w).linked with
      | false =>
          have notIn' := (layout.nrq_unlinked w m has' linked).1
          rw [ringSame m fun eq => notIn' (eq ▸ List.mem_cons_self)]
          exact filled'
      | true =>
          cases at_ : s.pc w <;> rw [at_] at linked <;> cases linked
          trivial

theorem Layout.release (layout : Layout s rs) : Layout ((s.setNrq p none).goto p .idle) rs := by
  have pcSelf : ((s.setNrq p none).goto p .idle).pc p = .idle := Function.update_self ..
  have pcSame : ∀ w, w ≠ p → ((s.setNrq p none).goto p .idle).pc w = s.pc w := fun w other =>
    Function.update_of_ne other ..
  have nrqSelf : ((s.setNrq p none).goto p .idle).nrq p = none := Function.update_self ..
  have nrqSame : ∀ w, w ≠ p → ((s.setNrq p none).goto p .idle).nrq w = s.nrq w := fun w other =>
    Function.update_of_ne other ..
  have notP : ∀ w n, ((s.setNrq p none).goto p .idle).nrq w = some n → w ≠ p := by
    rintro w n has rfl
    rw [nrqSelf] at has
    cases has
  refine
    { linked := layout.linked
      fresh := layout.fresh
      oldest := layout.oldest
      entry := layout.entry
      nrq_fresh := fun w n has => ?_
      nrq_unique := fun w w' n first second => ?_
      nrq_unlinked := fun w n has isFree => ?_
      own := fun w n has => ?_ }
  · rw [nrqSame w (notP w n has)] at has
    exact layout.nrq_fresh w n has
  · rw [nrqSame w (notP w n first)] at first
    rw [nrqSame w' (notP w' n second)] at second
    exact layout.nrq_unique w w' n first second
  · have other := notP w n has
    rw [nrqSame w other] at has
    rw [pcSame w other] at isFree
    exact layout.nrq_unlinked w n has isFree
  · have other : w ≠ p := by
      rintro rfl
      rw [pcSelf] at has
      cases has
    rw [pcSame w other] at has ⊢
    rw [nrqSame w other]
    exact layout.own w n has

omit [DecidableEq T] in
theorem layout_init : Layout (State.init : State T) [0] := by
  refine
    { linked := ⟨rfl, trivial⟩
      fresh := fun r member => ?_
      oldest := rfl
      entry := ⟨rfl, rfl⟩
      nrq_fresh := fun p n has => by cases has
      nrq_unique := fun p p' n has => by cases has
      nrq_unlinked := fun p n has => by cases has
      own := fun p n has => by cases has }
  cases List.mem_singleton.mp member
  exact Nat.zero_lt_one

end Layout

theorem Pc.linked_of_nrq {pc : Pc} (noNrq : pc.nrq = none) : pc.linked = false := by
  cases pc <;> first | rfl | cases noNrq

theorem onRing_nrq {pow : ℕ} {q q' : RingQueue ℕ Word} {pc pc' : Pc}
    {events : List (Event Word)} (access : onRing pow q pc = some (q', pc', events)) :
    pc.nrq = none ∧ pc'.nrq = none := by
  have empty : ∀ f h tt r cellIdx, (atEmptyCell f h tt r cellIdx).nrq = none := by
    intro f h tt r cellIdx
    unfold atEmptyCell
    split
    · rfl
    · split <;> rfl
  cases pc <;> simp only [onRing] at access <;> (repeat' split at access) <;> cases access <;>
    first | exact ⟨rfl, rfl⟩ | exact ⟨rfl, empty ..⟩

/-! ## Steps keep the list -/

section Shape

variable {T : Type}

/-- Memory as `Layout` has it; no ring is in the list twice, and the calls are on it. -/
structure Shape (e : Exec T) : Prop where
  layout : Layout e.st (rings e.log)
  distinct : (rings e.log).Nodup
  rq : ∀ p, (e.st.pc p).rq ∈ rings e.log

variable {pow : ℕ} {e e' : Exec T} {p : T} {a : Act}

theorem Shape.zero_mem (shape : Shape e) : 0 ∈ rings e.log :=
  List.mem_of_getLast? shape.layout.oldest

theorem shape_init : Shape (Exec.init : Exec T) :=
  ⟨layout_init, List.nodup_singleton 0, fun _ => List.mem_cons_self⟩

variable [DecidableEq T]

theorem Shape.moved (shape : Shape e) (sameRings : rings e'.log = rings e.log)
    (layout : Layout e'.st (rings e.log)) (others : ∀ w, w ≠ p → e'.st.pc w = e.st.pc w)
    (rq : (e'.st.pc p).rq ∈ rings e.log) : Shape e' := by
  refine ⟨by rw [sameRings]; exact layout, by rw [sameRings]; exact shape.distinct, fun w => ?_⟩
  rw [sameRings]
  by_cases same : w = p
  · rw [same]
    exact rq
  · rw [others w same]
    exact shape.rq w

theorem Shape.access {q : RingQueue ℕ Word} {pc : Pc} {events : List (Event Word)}
    (shape : Shape e)
    (access : onRing pow (e.st.ring (e.st.pc p).rq) (e.st.pc p) = some (q, pc, events)) :
    Shape (e.accessed p q pc events) := by
  have update := onRing_updates access
  obtain ⟨noNrq, noNrq'⟩ := onRing_nrq access
  have member := shape.rq p
  refine shape.moved (Exec.accessed_rings access) ?_ (fun w other => Exec.accessed_pc_other other) ?_
  · refine shape.layout.keep (p := p) (fun r => ?_) (fun r hidden => ?_) rfl rfl ⟨rfl, rfl⟩
      (fun w other => Exec.accessed_pc_other other) (Pc.linked_of_nrq noNrq) ?_ ?_
    · by_cases here : r = (e.st.pc p).rq
      · rw [here, Exec.accessed_ring, update.next]
      · rw [Exec.accessed_ring_other here]
    · exact Exec.accessed_ring_other fun here => hidden (here ▸ member)
    · rw [Exec.accessed_pc]
      exact Pc.linked_of_nrq noNrq'
    · intro n has
      rw [Exec.accessed_pc, noNrq'] at has
      cases has
  · rw [Exec.accessed_pc]
    cases onRing_stays access with
    | here rq _ =>
        rw [rq]
        exact member
    | hop _ link _ =>
        rcases shape.layout.linked.next_some shape.distinct member link with ⟨isNone, _⟩ | isOlder
        · cases isNone
        · exact isOlder.1.mem_new
    | back idle =>
        rw [idle]
        exact shape.zero_mem

theorem Shape.fill {n : ℕ} {q : RingQueue ℕ Word} {pc : Pc} (shape : Shape e)
    (own : (e.st.pc p).nrq = some n) (unlinked : (e.st.pc p).linked = false)
    (content : Unlinked EMPTY q) (own' : pc.nrq = some n) (filled : pc.Filled q)
    (rq : pc.rq = (e.st.pc p).rq) : Shape ⟨(e.st.setRing n q).goto p pc, e.log⟩ := by
  have has := (shape.layout.own p n own).1
  refine shape.moved (p := p) rfl (shape.layout.fill has unlinked content own' filled)
    (fun w other => Function.update_of_ne other ..) ?_
  rw [State.goto_pc, rq]
  exact shape.rq p

theorem Shape.goto {s : State T} {pc : Pc} {log : List (Event Word)} (shape : Shape e)
    (sameRings : rings log = rings e.log) (ring : s.ring = e.st.ring) (fresh : s.fresh = e.st.fresh)
    (nrq : s.nrq = e.st.nrq) (entry : s.head = e.st.head ∧ s.tail = e.st.tail)
    (pcs : s.pc = e.st.pc) (unlinked : (e.st.pc p).linked = false) (unlinked' : pc.linked = false)
    (own : ∀ n, pc.nrq = some n → e.st.nrq p = some n ∧ pc.Filled (e.st.ring n))
    (rq : pc.rq ∈ rings e.log) : Shape ⟨s.goto p pc, log⟩ := by
  have others : ∀ w, w ≠ p → (s.goto p pc).pc w = e.st.pc w := fun w other => by
    rw [← pcs]
    exact Function.update_of_ne other ..
  refine shape.moved (p := p) sameRings ?_ others ?_
  · refine shape.layout.keep (p := p) (fun r => ?_) (fun r _ => ?_) fresh nrq entry others unlinked
      ?_ ?_
    · show (s.ring r).next = _
      rw [ring]
    · show s.ring r = _
      rw [ring]
    · rw [State.goto_pc]
      exact unlinked'
    · rw [State.goto_pc]
      exact own
  · rw [State.goto_pc]
    exact rq

theorem Shape.goes (shape : Shape e) (goes : e.Goes pow p e') : Shape e' := by
  have onList : ∀ {pc : Pc}, e.st.pc p = pc → pc.rq ∈ rings e.log := fun here => here ▸ shape.rq p
  have others : ∀ w, w ≠ p → e'.st.pc w = e.st.pc w := fun w => goes.others
  cases goes with
  | callEnq arg idle =>
      refine shape.goto (s := { e.st with calls := e.st.calls + 1 }) rfl rfl rfl rfl ⟨rfl, rfl⟩ rfl
        (by rw [idle]; rfl) rfl (fun _ own => by cases own) ?_
      show e.st.tail ∈ _
      rw [shape.layout.entry.2]
      exact shape.zero_mem
  | callDeq idle =>
      refine shape.goto (s := { e.st with calls := e.st.calls + 1 }) rfl rfl rfl rfl ⟨rfl, rfl⟩ rfl
        (by rw [idle]; rfl) rfl (fun _ own => by cases own) ?_
      show e.st.head ∈ _
      rw [shape.layout.entry.1]
      exact shape.zero_mem
  | reuse f n here has =>
      have member : f.tail ∈ rings e.log := onList here
      refine shape.goto rfl rfl rfl rfl ⟨rfl, rfl⟩ rfl (by rw [here]; rfl) rfl ?_ member
      rintro m isOwn
      cases isOwn
      exact ⟨has, trivial⟩
  | alloc f here =>
      have member : f.tail ∈ rings e.log := onList here
      refine shape.moved (p := p) rfl (shape.layout.alloc rfl fun _ => trivial) others ?_
      rw [State.goto_pc]
      exact member
  | soloTail f n here =>
      have own : (e.st.pc p).nrq = some n := by rw [here]; rfl
      have unlinked : (e.st.pc p).linked = false := by rw [here]; rfl
      have content := (shape.layout.nrq_unlinked p n (shape.layout.own p n own).1 unlinked).2
      exact shape.fill own unlinked (content.setTail 1) rfl rfl (by rw [here]; rfl)
  | soloVal f n here =>
      have own : (e.st.pc p).nrq = some n := by rw [here]; rfl
      have unlinked : (e.st.pc p).linked = false := by rw [here]; rfl
      obtain ⟨has, filled⟩ := shape.layout.own p n own
      have content := (shape.layout.nrq_unlinked p n has unlinked).2
      rw [here] at filled
      refine shape.fill own unlinked (content.setVal f.arg) rfl ⟨filled, ?_⟩ (by rw [here]; rfl)
      simp [RingQueue.setNode]
  | soloIdx f n here =>
      have own : (e.st.pc p).nrq = some n := by rw [here]; rfl
      have unlinked : (e.st.pc p).linked = false := by rw [here]; rfl
      obtain ⟨has, filled⟩ := shape.layout.own p n own
      have content := (shape.layout.nrq_unlinked p n has unlinked).2
      rw [here] at filled
      refine shape.fill own unlinked content.setIdx rfl ⟨filled.1, ?_⟩ (by rw [here]; rfl)
      simpa [RingQueue.setNode] using filled.2
  | link f n here last =>
      have unlinked : (e.st.pc p).linked = false := by rw [here]; rfl
      obtain ⟨has, _⟩ := shape.layout.own p n (by rw [here]; rfl)
      have notIn := (shape.layout.nrq_unlinked p n has unlinked).1
      have member : f.tail ∈ rings e.log := onList here
      obtain ⟨rest, newest⟩ := shape.layout.linked.next_none member last
      refine ⟨?_, List.nodup_cons.mpr ⟨notIn, shape.distinct⟩, fun w => ?_⟩
      · have layout := shape.layout
        have distinct := shape.distinct
        show Layout _ (n :: rings e.log)
        rw [newest] at layout distinct ⊢
        exact layout.link distinct has unlinked
      · show _ ∈ n :: rings e.log
        by_cases same : w = p
        · rw [same, State.goto_pc]
          exact List.mem_cons_of_mem _ member
        · rw [others w same]
          exact List.mem_cons_of_mem _ (shape.rq w)
  | lost f n m here =>
      have member : f.tail ∈ rings e.log := onList here
      exact shape.goto rfl rfl rfl rfl ⟨rfl, rfl⟩ rfl (by rw [here]; rfl) rfl
        (fun _ own => by cases own) member
  | swing f n here =>
      refine shape.moved (p := p) rfl shape.layout.release others ?_
      rw [State.goto_pc]
      exact shape.zero_mem
  | access q pc events access => exact shape.access access

theorem machine_shape (run : Reachable (machine pow) e) : Shape e := by
  refine Reachable.invariant (I := Shape) ?_ ?_ run
  · rintro e rfl
    exact shape_init
  · rintro e e' shape ⟨p, a, does⟩
    exact shape.goes (does_goes does)

end Shape

end Elcrq.C
