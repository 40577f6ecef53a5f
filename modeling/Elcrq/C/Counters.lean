import Elcrq.C.Ledger

/-! # Tickets and the closed bit

The tail of a ring holds the next ticket and the closed bit, and four operations
write it: the `FAA64` of `enq`, the two ways to close in `close_crq` and the
`CAS64` of `fixState`.  While the tickets are in range none of them hands out a
ticket twice or opens a closed ring again, and the next ring is linked only
behind a closed one. -/

set_option autoImplicit false

namespace Elcrq.C

open Concurrent Concurrent.RingList

/-- Ring and ticket of an `enq` that found its ring open. -/
def tailDraw : Event Word → Option (ℕ × ℕ)
  | .enqDraw _ r t => some (r, t)
  | _ => none

def headDraw : Event Word → Option (ℕ × ℕ)
  | .deqDraw _ r h => some (r, h)
  | _ => none

/-- The call has found its ring closed and is about to link another one. -/
def Pc.extends : Pc → Bool
  | .enqAlloc _ | .soloTail _ _ | .soloVal _ _ | .soloIdx _ _ | .enqLink _ _ => true
  | _ => false

section Access

variable {pow : ℕ} {q q' : RingQueue ℕ Word} {pc pc' : Pc} {events : List (Event Word)}

theorem onRing_tailDraw (access : onRing pow q pc = some (q', pc', events)) :
    (∃ f, pc = .enqFaa f ∧ crqIsClosed q.tail = false ∧ q'.tail = q.tail + 1 ∧
      events.filterMap tailDraw = [(f.tail, q.tail.toNat)]) ∨
    events.filterMap tailDraw = [] := by
  cases pc with
  | enqFaa f =>
      simp only [onRing] at access
      split at access
      next =>
        cases access
        exact Or.inr rfl
      next isOpen =>
        cases access
        exact Or.inl ⟨f, rfl, Bool.not_eq_true _ ▸ isOpen, rfl, rfl⟩
  | _ =>
      simp only [onRing] at access
      (repeat' split at access) <;> cases access <;> exact Or.inr rfl

theorem Update.headDraw (update : Update pow q pc q' pc' events) :
    (∃ f, pc = .deqFaa f ∧ events.filterMap headDraw = [(f.head, q.head.toNat)]) ∨
    events.filterMap headDraw = [] := by
  rcases update.deqDraw with ⟨f, here, _, rfl⟩ | ⟨_, noDraw⟩
  · exact Or.inl ⟨f, here, rfl⟩
  · refine Or.inr (List.filterMap_eq_nil_iff.mpr fun event member => ?_)
    cases event with
    | deqDraw d r n => exact absurd member (noDraw d r n)
    | _ => rfl

theorem closeCrq_closes {t : Word} {tries : ℕ} (done : q.closeCrq t tries = (true, q')) :
    crqIsClosed q'.tail = true := by
  rcases q.closeCrq_cases t tries with failed | after
  · rw [failed] at done
    cases done
  · rw [done] at after
    have tail : q'.tail = setUnsafe q.tail := by rw [show q' = _ from after]
    rw [tail, crqIsClosed_iff, setUnsafe_toNat]
    omega

theorem onRing_extends (grows : Grows q q') (access : onRing pow q pc = some (q', pc', events))
    (extends_ : pc'.extends = true) : pc'.rq = pc.rq ∧ crqIsClosed q'.tail = true := by
  cases pc with
  | enqFaa f =>
      simp only [onRing] at access
      split at access
      next closed =>
        cases access
        exact ⟨rfl, grows.closed closed⟩
      next =>
        cases access
        cases extends_
  | enqClose f t =>
      simp only [onRing] at access
      split at access
      next q'' done =>
        cases access
        exact ⟨rfl, closeCrq_closes done⟩
      next =>
        cases access
        cases extends_
  | deqVal f h tt r cellIdx =>
      simp only [onRing, atEmptyCell] at access
      (repeat' split at access) <;> cases access <;> cases extends_
  | deqTail f h r cellIdx =>
      simp only [onRing, atEmptyCell] at access
      (repeat' split at access) <;> cases access <;> cases extends_
  | _ =>
      simp only [onRing] at access
      (repeat' split at access) <;> cases access <;> cases extends_

end Access

/-! ## The steps -/

section Issued

variable {T : Type}

/-- Every ticket is out once, and a ring that has or is about to get a next one is closed. -/
structure Exec.Issued (e : Exec T) : Prop where
  below : ∀ draw ∈ e.log.filterMap tailDraw,
    draw.1 ∈ rings e.log ∧ draw.2 < (tailIndex (e.st.ring draw.1).tail).toNat
  tails : (e.log.filterMap tailDraw).Nodup
  heads : (e.log.filterMap headDraw).Nodup
  extending : ∀ p, (e.st.pc p).extends = true →
    crqIsClosed (e.st.ring (e.st.pc p).rq).tail = true
  links : ∀ r ∈ rings e.log, (e.st.ring r).next ≠ none → crqIsClosed (e.st.ring r).tail = true

variable [DecidableEq T] {pow : ℕ} {e e' : Exec T} {p : T}

theorem Ledger.tailDraws (ledger : Ledger e) (below : TicketsInRange e.st)
    (goes : e.Goes pow p e') :
    e'.log.filterMap tailDraw = e.log.filterMap tailDraw ∨
    ∃ r t, e'.log.filterMap tailDraw = (r, t) :: e.log.filterMap tailDraw ∧
      r ∈ rings e'.log ∧ t < (tailIndex (e'.st.ring r).tail).toNat ∧
      (r ∈ rings e.log → (tailIndex (e.st.ring r).tail).toNat ≤ t ∧
        crqIsClosed (e.st.ring r).tail = false) := by
  cases goes with
  | access q pc events access =>
      have log : (e.accessed p q pc events).log.filterMap tailDraw =
          events.filterMap tailDraw ++ e.log.filterMap tailDraw := List.filterMap_append
      rcases onRing_tailDraw access with ⟨f, here, isOpen, tail, drawn⟩ | none_
      · have rq : (e.st.pc p).rq = f.tail := by rw [here]; rfl
        have room := (ledger.shape.room below p).2
        have small := (crqIsClosed_false_iff _).mp isOpen
        rw [tailIndex_toNat, Nat.mod_eq_of_lt small] at room
        refine Or.inr ⟨f.tail, _, by rw [log, drawn]; rfl, ?_, ?_, fun _ => ?_⟩
        · rw [Exec.accessed_rings access, ← rq]
          exact ledger.shape.rq p
        · rw [← rq, Exec.accessed_ring, tail, tailIndex_toNat, add_one_toNat _ (by omega)]
          omega
        · rw [← rq, tailIndex_toNat, Nat.mod_eq_of_lt small]
          exact ⟨le_refl _, isOpen⟩
      · rw [log, none_]
        exact Or.inl rfl
  | link f n here last =>
      have notIn := ledger.shape.hidden here rfl rfl
      have other : n ≠ f.tail := by
        have member := ledger.shape.rq p
        rw [here] at member
        exact fun same => notIn (same ▸ member)
      refine Or.inr ⟨n, 0, rfl, List.mem_cons_self, ?_, fun member => absurd member notIn⟩
      show 0 < (tailIndex (Function.update e.st.ring f.tail _ n).tail).toNat
      rw [Function.update_of_ne other, ledger.shape.linked_ring here]
      exact show 0 < (tailIndex 1).toNat by decide
  | _ => exact Or.inl rfl

theorem Ledger.headDraws (ledger : Ledger e) (goes : e.Goes pow p e') :
    e'.log.filterMap headDraw = e.log.filterMap headDraw ∨
    ∃ r h, e'.log.filterMap headDraw = (r, h) :: e.log.filterMap headDraw ∧
      ∀ d, .deqDraw d r h ∉ e.log := by
  cases goes with
  | access q pc events access =>
      have log : (e.accessed p q pc events).log.filterMap headDraw =
          events.filterMap headDraw ++ e.log.filterMap headDraw := List.filterMap_append
      rcases (onRing_updates access).headDraw with ⟨f, here, drawn⟩ | none_
      · have rq : (e.st.pc p).rq = f.head := by rw [here]; rfl
        refine Or.inr ⟨f.head, _, by rw [log, drawn]; rfl, fun d draw => ?_⟩
        obtain ⟨_, less⟩ := ledger.heads.below d _ _ draw
        rw [rq] at less
        exact lt_irrefl _ less
      · rw [log, none_]
        exact Or.inl rfl
  | _ => exact Or.inl rfl

omit [DecidableEq T] in
theorem Ledger.close_open (ledger : Ledger e) {f : EnqFrame} {t : Word}
    (here : e.st.pc p = .enqClose f t)
    (done : ((e.st.ring f.tail).closeCrq t f.tryClose).1 = true) :
    crqIsClosed (e.st.ring f.tail).tail = false := by
  have ticket := ledger.tickets p f t (by rw [here]; rfl)
  unfold RingQueue.closeCrq at done
  split at done
  · rcases (e.st.ring f.tail).casTail_cases (t + 1) ((t + 1) ||| (1#64 <<< 63)) with
      failed | ⟨isTail, _⟩
    · rw [failed] at done
      cases done
    · -- the tail is `t + 1`, and `t` lies below its index
      rw [isTail, tailIndex_toNat, BitVec.toNat_add] at ticket
      rw [isTail, crqIsClosed_false_iff, BitVec.toNat_add]
      have one : (1 : Word).toNat = 1 := rfl
      have small := t.isLt
      omega
  · exact Bool.not_eq_true' _ ▸ done

omit [DecidableEq T] in
theorem issued_init : (Exec.init : Exec T).Issued where
  below := fun _ member => nomatch member
  tails := List.nodup_nil
  heads := List.nodup_nil
  extending := fun _ extends_ => nomatch extends_
  links := fun _ _ next => absurd rfl next

theorem Exec.Issued.extending_goes (issued : e.Issued) (ledger : Ledger e)
    (below : TicketsInRange e.st) (goes : e.Goes pow p e') :
    ∀ w, (e'.st.pc w).extends = true → crqIsClosed (e'.st.ring (e'.st.pc w).rq).tail = true := by
  have grown := ledger.grown below goes
  have keep : ∀ w, (e.st.pc w).extends = true →
      crqIsClosed (e'.st.ring (e.st.pc w).rq).tail = true := fun w extends_ =>
    (grown.ring _ (ledger.shape.rq w)).closed (issued.extending w extends_)
  -- thread `p` goes on with its frame
  have onward : ∀ {pc pc' : Pc}, e.st.pc p = pc → e'.st.pc p = pc' → pc.extends = true →
      pc'.rq = pc.rq → crqIsClosed (e'.st.ring (e'.st.pc p).rq).tail = true := by
    intro pc pc' here there extends_ rq
    subst here there
    rw [rq]
    exact keep p extends_
  intro w extends_
  by_cases same : w = p
  · subst same
    cases goes with
    | access q pc events access =>
        have grows := grown.ring _ (ledger.shape.rq w)
        rw [Exec.accessed_ring] at grows
        rw [Exec.accessed_pc] at extends_ ⊢
        obtain ⟨rq, closed⟩ := onRing_extends grows access extends_
        rw [rq, Exec.accessed_ring]
        exact closed
    | callEnq | callDeq | lost | swing | link =>
        rw [State.goto_pc] at extends_
        cases extends_
    | reuse f n here | alloc f here | soloTail f n here | soloVal f n here | soloIdx f n here =>
        exact onward here (State.goto_pc ..) rfl rfl
  · rw [goes.others same] at extends_ ⊢
    exact keep w extends_

theorem Exec.Goes.next_cases (goes : e.Goes pow p e') (shape : Shape e) {r : ℕ}
    (member : r ∈ rings e'.log) (next : (e'.st.ring r).next ≠ none) :
    r ∈ rings e.log ∧ ((e.st.ring r).next ≠ none ∨
      (e.st.pc p).extends = true ∧ (e.st.pc p).rq = r) := by
  -- a write to a hidden ring
  have write : ∀ (n : ℕ) (q : RingQueue ℕ Word), e'.st.ring = Function.update e.st.ring n q →
      n ∉ rings e.log → r ∈ rings e.log → (e.st.ring r).next ≠ none := by
    intro n q after hidden isRing
    have other : r ≠ n := fun same => hidden (same ▸ isRing)
    rw [after, Function.update_of_ne other] at next
    exact next
  cases goes with
  | access q pc events access =>
      rw [Exec.accessed_rings access] at member
      refine ⟨member, Or.inl ?_⟩
      by_cases here : r = (e.st.pc p).rq
      · rw [here, Exec.accessed_ring, (onRing_updates access).next] at next
        rw [here]
        exact next
      · rw [Exec.accessed_ring_other here] at next
        exact next
  | callEnq | callDeq | reuse | lost | swing => exact ⟨member, Or.inl next⟩
  | alloc f =>
      refine ⟨member, Or.inl (write e.st.fresh _ rfl (fun isRing => ?_) member)⟩
      exact lt_irrefl _ (shape.layout.fresh _ isRing)
  | soloTail f n here | soloVal f n here | soloIdx f n here =>
      exact ⟨member, Or.inl (write n _ rfl (shape.hidden here rfl rfl) member)⟩
  | link f n here last =>
      by_cases isOld : r = f.tail
      · have isRing := shape.rq p
        rw [here] at isRing ⊢
        exact ⟨isOld ▸ isRing, Or.inr ⟨rfl, isOld.symm⟩⟩
      · have same : (Function.update e.st.ring f.tail { e.st.ring f.tail with next := some n } r) =
            e.st.ring r := Function.update_of_ne isOld ..
        have hasNext : (e.st.ring r).next ≠ none := same ▸ next
        rcases List.mem_cons.mp member with rfl | old
        · rw [shape.linked_ring here] at hasNext
          exact absurd rfl hasNext
        · exact ⟨old, Or.inl hasNext⟩

theorem Exec.Issued.goes (issued : e.Issued) (ledger : Ledger e) (below : TicketsInRange e.st)
    (goes : e.Goes pow p e') : e'.Issued := by
  have grown := ledger.grown below goes
  have keep : ∀ draw ∈ e.log.filterMap tailDraw, draw.1 ∈ rings e'.log ∧
      draw.2 < (tailIndex (e'.st.ring draw.1).tail).toNat := by
    intro draw member
    obtain ⟨isRing, less⟩ := issued.below draw member
    exact ⟨grown.rings _ isRing, less.trans_le (grown.ring _ isRing).tail⟩
  have tails : (∀ draw ∈ e'.log.filterMap tailDraw, draw.1 ∈ rings e'.log ∧
      draw.2 < (tailIndex (e'.st.ring draw.1).tail).toNat) ∧
      (e'.log.filterMap tailDraw).Nodup := by
    rcases ledger.tailDraws below goes with same | ⟨r, t, new, isRing, less, fresh⟩
    · rw [same]
      exact ⟨keep, issued.tails⟩
    · rw [new]
      refine ⟨List.forall_mem_cons.mpr ⟨⟨isRing, less⟩, keep⟩,
        List.nodup_cons.mpr ⟨fun old => ?_, issued.tails⟩⟩
      obtain ⟨isRing', less'⟩ := issued.below _ old
      exact absurd less' (Nat.not_lt.mpr (fresh isRing').1)
  refine ⟨tails.1, tails.2, ?_, issued.extending_goes ledger below goes, fun r member next => ?_⟩
  · rcases ledger.headDraws goes with same | ⟨r, h, new, fresh⟩
    · rw [same]
      exact issued.heads
    · rw [new]
      refine List.nodup_cons.mpr ⟨fun old => ?_, issued.heads⟩
      obtain ⟨event, member, isDraw⟩ := List.mem_filterMap.mp old
      cases event with
      | deqDraw d =>
          cases isDraw
          exact fresh d member
      | _ => cases isDraw
  · obtain ⟨old, linked | ⟨extends_, rfl⟩⟩ := goes.next_cases ledger.shape member next
    · exact (grown.ring r old).closed (issued.links r old linked)
    · exact (grown.ring _ old).closed (issued.extending p extends_)

theorem reachable_issued (run : Reachable (ticketSystem pow) e) : e.Issued := by
  refine Reachable.invariant_along (I := Exec.Issued) ?_ ?_ run
  · rintro e rfl
    exact issued_init
  · rintro e e' before issued ⟨p, a, taken⟩
    obtain ⟨below, goes⟩ := ticketed_goes taken
    exact issued.goes (reachable_ledger before) below goes

end Issued

/-! ## The runs -/

section Runs

variable {T : Type} [DecidableEq T] {pow : ℕ} {e e' : Exec T} {p : T}

theorem grown_along (run : Reachable (ticketSystem pow) e)
    (later : Relation.ReflTransGen (ticketSystem pow).step e e') : e.Grown e' := by
  induction later with
  | refl => exact ⟨fun _ member => member, fun _ _ => .same rfl rfl⟩
  | @tail mid last steps next ih =>
      obtain ⟨p, a, taken⟩ := next
      obtain ⟨below, goes⟩ := ticketed_goes taken
      have grown := (reachable_ledger (run.later steps)).grown below goes
      refine ⟨fun r member => grown.rings r (ih.rings r member), fun r member => ?_⟩
      exact (ih.ring r member).trans (grown.ring r (ih.rings r member))

theorem draws_over (run : Reachable (ticketSystem pow) e)
    (later : Relation.ReflTransGen (ticketSystem pow).step e e') {r t : ℕ}
    (member : r ∈ rings e.log) (closed : crqIsClosed (e.st.ring r).tail = true)
    (draw : (r, t) ∈ e'.log.filterMap tailDraw) : (r, t) ∈ e.log.filterMap tailDraw := by
  induction later with
  | refl => exact draw
  | @tail mid last steps next ih =>
      obtain ⟨p, a, taken⟩ := next
      obtain ⟨below, goes⟩ := ticketed_goes taken
      have grown := grown_along run steps
      rcases (reachable_ledger (run.later steps)).tailDraws below goes with
        same | ⟨r', t', new, _, _, fresh⟩
      · exact ih (same ▸ draw)
      · rw [new] at draw
        rcases List.mem_cons.mp draw with isNew | old
        · cases isNew
          have isOpen := (fresh (grown.rings r member)).2
          rw [(grown.ring r member).closed closed] at isOpen
          cases isOpen
        · exact ih old

/-- Thread `p` is about to make a call of `close_crq` on ring `r` that reports success. -/
def Exec.closes (e : Exec T) (p : T) (r : ℕ) : Bool :=
  match e.st.pc p with
  | .enqClose f t => f.tail == r && ((e.st.ring f.tail).closeCrq t f.tryClose).1
  | _ => false

omit [DecidableEq T] in
theorem Exec.closes_at {r : ℕ} (closes : e.closes p r = true) : ∃ f t, e.st.pc p = .enqClose f t ∧
    f.tail = r ∧ ((e.st.ring f.tail).closeCrq t f.tryClose).1 = true := by
  unfold Exec.closes at closes
  split at closes
  next f t here =>
    obtain ⟨isRing, done⟩ := (Bool.and_eq_true ..).mp closes
    exact ⟨f, t, here, beq_iff_eq.mp isRing, done⟩
  next => cases closes

theorem closed_by (goes : e.Goes pow p e') {r : ℕ} (closes : e.closes p r = true) :
    crqIsClosed (e'.st.ring r).tail = true := by
  obtain ⟨f, t, here, rfl, done⟩ := Exec.closes_at closes
  cases goes with
  | access q pc events access =>
      have rq : (e.st.pc p).rq = f.tail := by rw [here]; rfl
      obtain ⟨q', result⟩ : ∃ q', (e.st.ring f.tail).closeCrq t f.tryClose = (true, q') :=
        ⟨_, Prod.ext done rfl⟩
      rw [here] at access
      simp only [onRing, Pc.rq, result] at access
      cases access
      show crqIsClosed (Function.update e.st.ring (e.st.pc p).rq _ f.tail).tail = true
      rw [rq, Function.update_self]
      exact closeCrq_closes result
  | callEnq arg at_ | callDeq at_ | reuse f n at_ | alloc f at_ | soloTail f n at_
  | soloVal f n at_ | soloIdx f n at_ | link f n at_ | lost f n m at_ | swing f n at_ =>
      rw [here] at at_
      cases at_

/-- Along every run: each ticket is handed out once, the counters of a ring do not go
back, a closed ring stays closed and gives out no tickets, only one `close_crq` of a
ring reports success, and a ring that has a next one is closed. -/
theorem ring_counters (run : Reachable (ticketSystem pow) e)
    (later : Relation.ReflTransGen (ticketSystem pow).step e e') :
    (e.log.filterMap tailDraw).Nodup ∧ (e.log.filterMap headDraw).Nodup ∧
    (∀ r ∈ rings e.log,
      (e.st.ring r).head.toNat ≤ (e'.st.ring r).head.toNat ∧
      (tailIndex (e.st.ring r).tail).toNat ≤ (tailIndex (e'.st.ring r).tail).toNat ∧
      (crqIsClosed (e.st.ring r).tail = true → crqIsClosed (e'.st.ring r).tail = true ∧
        ∀ t, (r, t) ∈ e'.log.filterMap tailDraw → (r, t) ∈ e.log.filterMap tailDraw) ∧
      ((e.st.ring r).next ≠ none → crqIsClosed (e.st.ring r).tail = true)) ∧
    (∀ r p a mid, e.closes p r = true → e.ticketed pow p a = some mid →
      ∀ last, Relation.ReflTransGen (ticketSystem pow).step mid last →
        ∀ p', last.closes p' r = false) := by
  have issued := reachable_issued run
  have grown := grown_along run later
  refine ⟨issued.tails, issued.heads, fun r member => ?_, ?_⟩
  · obtain ⟨closed, head, tail⟩ := grown.ring r member
    exact ⟨head, tail, fun isClosed => ⟨closed isClosed, fun t =>
      draws_over run later member isClosed⟩, issued.links r member⟩
  · intro r p a mid closes taken last steps p'
    obtain ⟨below, goes⟩ := ticketed_goes taken
    have ledger := reachable_ledger run
    have member : r ∈ rings mid.log := by
      obtain ⟨f, t, here, isRing, _⟩ := Exec.closes_at closes
      have := ledger.shape.rq p
      rw [here] at this
      exact (ledger.grown below goes).rings r (isRing ▸ this)
    have runMid : Reachable (ticketSystem pow) mid := run.step ⟨p, a, taken⟩
    have closed : crqIsClosed (last.st.ring r).tail = true :=
      ((grown_along runMid steps).ring r member).closed (closed_by goes closes)
    by_contra again
    obtain ⟨f, t, here, rfl, done⟩ := Exec.closes_at ((Bool.not_eq_false _).mp again)
    rw [(reachable_ledger (runMid.later steps)).close_open here done] at closed
    cases closed

end Runs

/-- A full ring of one cell: its `enq` closes it, and links the next one. -/
theorem ring_counters_full_ring :
    (∃ e : Exec Bool, Reachable (ticketSystem 0) e ∧ e.closes true 0 = true ∧
      (e.log.filterMap tailDraw).Nodup ∧ ∀ mid, e.ticketed 0 true .run = some mid →
        ∀ p', mid.closes p' 0 = false) ∧
    ∃ e : Exec Bool, Reachable (ticketSystem 0) e ∧ (e.st.ring 0).next = some 1 ∧
      crqIsClosed (e.st.ring 0).tail = true := by
  constructor
  · obtain ⟨e, run, found⟩ := ticketed_reaches 0
      [[(true, .enq 5)], List.replicate 5 (true, .run), [(true, .enq 6)],
        List.replicate 5 (true, .run)].flatten
      (fun e : Exec Bool => e.closes true 0) (by decide +kernel)
    obtain ⟨tails, _, _, once⟩ := ring_counters run .refl
    exact ⟨e, run, found, tails, fun mid taken => once 0 true .run mid found taken mid .refl⟩
  · obtain ⟨e, run, found⟩ := ticketed_reaches 0
      [[(true, .enq 5)], List.replicate 5 (true, .run), [(true, .enq 6)],
        List.replicate 11 (true, .run)].flatten
      (fun e : Exec Bool => decide ((e.st.ring 0).next = some 1 ∧ 0 ∈ rings e.log))
      (by decide +kernel)
    obtain ⟨linked, member⟩ := of_decide_eq_true found
    obtain ⟨_, _, ring, _⟩ := ring_counters run .refl
    exact ⟨e, run, linked, (ring 0 member).2.2.2 (by rw [linked]; exact Option.some_ne_none 1)⟩

end Elcrq.C
