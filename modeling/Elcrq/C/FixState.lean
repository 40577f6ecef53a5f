import Elcrq.C.Ledger

/-! # `fixState` keeps the head behind the tail

A `deq` that finds its ring empty may have drawn tickets beyond the tail.  It
leaves the ring only after `fixState`, which raises the tail to a head it read
after its last draw, or with an item, whose ticket lies below the tail.  So when
no call that drew from a ring is still there, the ring's head is not beyond its
tail, unless the ring is closed. -/

set_option autoImplicit false

namespace Elcrq.C

open Concurrent Concurrent.RingList

/-- The tickets that the call drew from its ring lie below this number: its last
ticket is the one in hand, and `fixState` reads the head after the last draw. -/
def Pc.bound : Pc → Option ℕ
  | .deqIdx _ h _ _ | .deqVal _ h _ _ _ | .deqTail _ h _ _ | .deqTake _ h _ _ _ _
  | .deqMark _ h _ _ _ _ | .deqSkipUnsafe _ h _ _ _ | .deqSkip _ h _ _ _ => some (h.toNat + 1)
  | .fixCheck _ _ h | .fixCas _ _ h => some h.toNat
  | _ => none

def Pc.atNext : Pc → Bool
  | .deqNext _ => true
  | _ => false

def Pc.inFixState : Pc → Bool
  | .fixTail _ | .fixHead _ _ | .fixCheck _ _ _ | .fixCas _ _ _ => true
  | _ => false

/-- What an access of a `deq` means for the tickets it has drawn. -/
inductive Repairs (q : RingQueue ℕ Word) (pc : Pc) (q' : RingQueue ℕ Word) (pc' : Pc)
    (events : List (Event Word)) : Prop
  | on : pc'.phase = pc.phase → pc'.rq = pc.rq → pc'.atNext = false →
      (∀ c r h, .deqDraw c r h ∉ events) →
      (pc'.bound = none ∨ pc'.bound = pc.bound ∨ pc'.bound = some q.head.toNat) →
      Repairs q pc q' pc' events
  | draw (f : DeqFrame) : pc = .deqFaa f → pc' = .deqIdx f q.head 0 0 →
      events = [.deqDraw f.call f.head q.head.toNat] → Repairs q pc q' pc' events
  | fixed (b : ℕ) : pc.bound = some b → pc'.bound = none → events = [] →
      (crqIsClosed q'.tail = true ∨ b ≤ (tailIndex q'.tail).toNat) → Repairs q pc q' pc' events
  | took (i h : ℕ) : pc.bound = some (h + 1) → pc' = .idle → (∀ c r h, .deqDraw c r h ∉ events) →
      (q.array i).val ≠ EMPTY → (nodeIndex (q.array i).idx).toNat = h → q'.tail = q.tail →
      Repairs q pc q' pc' events
  | left : pc.atNext = true → pc'.bound = none → (∀ c r h, .deqDraw c r h ∉ events) →
      Repairs q pc q' pc' events

section Access

variable {pow : ℕ} {q q' : RingQueue ℕ Word} {pc pc' : Pc} {events : List (Event Word)}

theorem atEmptyCell_bound (f : DeqFrame) (h tt : Word) (r : ℕ) (cellIdx : Word) :
    (atEmptyCell f h tt r cellIdx).atNext = false ∧
      (atEmptyCell f h tt r cellIdx).bound = some (h.toNat + 1) := by
  unfold atEmptyCell
  split
  · exact ⟨rfl, rfl⟩
  · split <;> exact ⟨rfl, rfl⟩

theorem closed_or_le {h t : Word} (notAbove : ¬ h > t) :
    crqIsClosed t = true ∨ h.toNat ≤ (tailIndex t).toNat := by
  have le : h.toNat ≤ t.toNat := not_lt.mp notAbove
  rw [crqIsClosed_iff, tailIndex_toNat]
  omega

theorem onRing_repairs {c : ℕ} (sound : pc.Sound) (phase : pc.phase = .deq c)
    (access : onRing pow q pc = some (q', pc', events)) : Repairs q pc q' pc' events := by
  cases pc with
  | deqFaa f =>
      cases access
      exact .draw f rfl rfl rfl
  | deqVal f h tt r cellIdx =>
      obtain ⟨emptyPhase, emptyRq⟩ := atEmptyCell_phase f h tt r cellIdx
      obtain ⟨emptyNext, emptyBound⟩ := atEmptyCell_bound f h tt r cellIdx
      simp only [onRing] at access
      (repeat' split at access) <;> cases access
      case deqVal.isFalse.isTrue.isFalse.refl =>
        exact .on emptyPhase emptyRq emptyNext (by simp) (Or.inr (Or.inl emptyBound))
      all_goals
        first
        | exact .on rfl rfl rfl (by simp) (Or.inr (Or.inl rfl))
        | exact .on rfl rfl rfl (by simp) (Or.inl rfl)
  | deqTail f h r cellIdx =>
      obtain ⟨emptyPhase, emptyRq⟩ := atEmptyCell_phase f h q.tail r cellIdx
      obtain ⟨emptyNext, emptyBound⟩ := atEmptyCell_bound f h q.tail r cellIdx
      cases access
      exact .on emptyPhase emptyRq emptyNext (by simp) (Or.inr (Or.inl emptyBound))
  | deqTake f h tt r cellIdx val =>
      simp only [onRing] at access
      rcases q.cas2_cases (cellOf pow h) val cellIdx EMPTY
        (nodeUnsafe cellIdx ||| (h + ringSize pow)) with failed | ⟨here, done⟩
      · rw [failed] at access
        cases access
        exact .on rfl rfl rfl (by simp) (Or.inr (Or.inl rfl))
      · rw [done] at access
        cases access
        obtain ⟨mine, isItem⟩ := sound
        refine .took (cellOf pow h) h.toNat rfl rfl (by simp) ?_ ?_ rfl
        · rw [here]
          exact isItem
        · rw [here, mine]
  | fixHead f t =>
      cases access
      exact .on rfl rfl rfl (by simp) (Or.inr (Or.inr rfl))
  | fixCheck f t h =>
      simp only [onRing] at access
      split at access
      next =>
        cases access
        exact .on rfl rfl rfl (by simp) (Or.inl rfl)
      next isTail =>
        split at access
        next =>
          cases access
          exact .on rfl rfl rfl (by simp) (Or.inr (Or.inl rfl))
        next notAbove =>
          cases access
          refine .fixed h.toNat rfl rfl rfl ?_
          rw [not_not.mp isTail]
          exact closed_or_le notAbove
  | fixCas f t h =>
      simp only [onRing] at access
      rcases q.casTail_cases t h with failed | ⟨isTail, done⟩
      · rw [failed] at access
        cases access
        exact .on rfl rfl rfl (by simp) (Or.inl rfl)
      · rw [done] at access
        cases access
        exact .fixed h.toNat rfl rfl rfl (closed_or_le (BitVec.lt_irrefl h))
  | deqNext f =>
      simp only [onRing] at access
      split at access <;> cases access
      · exact .left rfl rfl (by simp)
      · exact .left rfl rfl (by simp)
  | idle | enqNext | enqFaa | enqAlloc | soloTail | soloVal | soloIdx | enqLink | enqSwing | enqIdx
  | enqVal | enqHead | enqCas2 | enqFull | enqClose => cases phase
  | _ =>
      simp only [onRing] at access
      (repeat' split at access) <;> cases access <;>
        first
        | exact .on rfl rfl rfl (by simp) (Or.inr (Or.inl rfl))
        | exact .on rfl rfl rfl (by simp) (Or.inl rfl)

theorem onRing_enq_draws (notDeq : ∀ c, pc.phase ≠ .deq c)
    (access : onRing pow q pc = some (q', pc', events)) :
    pc'.bound = none ∧ ∀ c r h, .deqDraw c r h ∉ events := by
  cases pc with
  | deqFaa f | deqIdx f | deqVal f | deqTail f | deqTake f | deqMark f | deqSkipUnsafe f | deqSkip f
  | deqExit f | fixTail f | fixHead f | fixCheck f | fixCas f | deqNext f =>
      exact absurd rfl (notDeq f.call)
  | _ =>
      simp only [onRing] at access
      (repeat' split at access) <;> cases access <;> exact ⟨rfl, by simp⟩

theorem onRing_fixState (sound : pc.Sound) (inside : pc.inFixState = true)
    (access : onRing pow q pc = some (q', pc', events)) :
    tailIndex q.tail ≤ tailIndex q'.tail ∧ (crqIsClosed q.tail = true → q'.tail = q.tail) := by
  cases pc with
  | fixCas f t h =>
      simp only [onRing] at access
      rcases q.casTail_cases t h with failed | ⟨isTail, done⟩
      · rw [failed] at access
        cases access
        exact ⟨BitVec.le_refl _, fun _ => rfl⟩
      · rw [done] at access
        cases access
        obtain ⟨above, small⟩ := sound
        have above : t.toNat < h.toNat := above
        refine ⟨?_, fun closed => ?_⟩
        · show (tailIndex q.tail).toNat ≤ (tailIndex h).toNat
          rw [isTail, tailIndex_toNat, tailIndex_toNat]
          omega
        · rw [isTail, crqIsClosed_iff] at closed
          omega
  | fixTail f | fixHead f t =>
      cases access
      exact ⟨BitVec.le_refl _, fun _ => rfl⟩
  | fixCheck f t h =>
      simp only [onRing] at access
      (repeat' split at access) <;> cases access <;> exact ⟨BitVec.le_refl _, fun _ => rfl⟩
  | _ => cases inside

end Access

section Repair

variable {T : Type}

/-- The ring is closed, or ticket `n` lies below its tail. -/
def Exec.Passed (e : Exec T) (r n : ℕ) : Prop :=
  crqIsClosed (e.st.ring r).tail = true ∨ n < (tailIndex (e.st.ring r).tail).toNat

/-- A head ticket is passed, or the call that drew it still works on the ring and
has yet to finish `fixState`. -/
structure Exec.Repaired (e : Exec T) : Prop where
  below : ∀ p c b, (e.st.pc p).phase = .deq c → (e.st.pc p).bound = some b →
    ∀ n, .deqDraw c (e.st.pc p).rq n ∈ e.log → n < b
  passed : ∀ d r n, .deqDraw d r n ∈ e.log → e.Passed r n ∨
    ∃ p, (e.st.pc p).phase = .deq d ∧ (e.st.pc p).rq = r ∧ (e.st.pc p).atNext = false

variable [DecidableEq T] {pow : ℕ} {e e' : Exec T} {p : T}

omit [DecidableEq T] in
theorem Exec.Passed.keep {r n : ℕ} (grown : e.Grown e') (member : r ∈ rings e.log)
    (passed : e.Passed r n) : e'.Passed r n := by
  have grows := grown.ring r member
  exact passed.imp grows.closed fun below => below.trans_le grows.tail

omit [DecidableEq T] in
theorem Exec.Repaired.quiet (heads : e.HeadsDrawn) (grown : e.Grown e') (repaired : e.Repaired)
    (others : ∀ w, w ≠ p → e'.st.pc w = e.st.pc w) (notDeq : ∀ c, (e.st.pc p).phase ≠ .deq c)
    (noBound : (e'.st.pc p).bound = none)
    (draws : ∀ c r n, .deqDraw c r n ∈ e'.log → .deqDraw c r n ∈ e.log) : e'.Repaired := by
  constructor
  · intro w c b phase bound n draw
    by_cases same : w = p
    · rw [same, noBound] at bound
      cases bound
    · rw [others w same] at phase bound draw
      exact repaired.below w c b phase bound n (draws _ _ _ draw)
  · intro d r n draw
    have draw := draws d r n draw
    rcases repaired.passed d r n draw with passed | ⟨w, phase, rq, atNext⟩
    · exact Or.inl (passed.keep grown (heads.below d r n draw).1)
    · have other : w ≠ p := fun same => notDeq d (same ▸ phase)
      refine Or.inr ⟨w, ?_⟩
      rw [others w other]
      exact ⟨phase, rq, atNext⟩

/-- Thread `p` makes an access in a `deq` that draws no ticket: either it goes on,
or all its tickets are passed. -/
theorem Exec.Repaired.access {c : ℕ} {q : RingQueue ℕ Word} {pc : Pc}
    {events : List (Event Word)} (heads : e.HeadsDrawn)
    (grown : e.Grown (e.accessed p q pc events)) (repaired : e.Repaired)
    (phase : (e.st.pc p).phase = .deq c) (noDraw : ∀ c r h, .deqDraw c r h ∉ events)
    (below : ∀ c' b, pc.phase = .deq c' → pc.bound = some b →
      ∀ n, .deqDraw c' pc.rq n ∈ e.log → n < b)
    (gone : (pc.phase = .deq c ∧ pc.rq = (e.st.pc p).rq ∧ pc.atNext = false) ∨
      (e.st.pc p).atNext = true ∨ ∀ n, .deqDraw c (e.st.pc p).rq n ∈ e.log →
        (e.accessed p q pc events).Passed (e.st.pc p).rq n) :
    (e.accessed p q pc events).Repaired := by
  have draws : ∀ c r n, .deqDraw c r n ∈ events ++ e.log → .deqDraw c r n ∈ e.log :=
    fun c r n draw => (List.mem_append.mp draw).resolve_left (noDraw c r n)
  constructor
  · intro w c' b phase' bound n draw
    have draw := draws _ _ _ draw
    by_cases same : w = p
    · subst same
      rw [Exec.accessed_pc] at phase' bound draw
      exact below c' b phase' bound n draw
    · rw [Exec.accessed_pc_other same] at phase' bound draw
      exact repaired.below w c' b phase' bound n draw
  · intro d r n draw
    have old := draws d r n draw
    rcases repaired.passed d r n old with passed | ⟨w, phase', rq, atNext⟩
    · exact Or.inl (passed.keep grown (heads.below d r n old).1)
    · by_cases same : w = p
      · subst same
        cases phase.symm.trans phase'
        subst rq
        rcases gone with ⟨phase', rq, onward⟩ | next | passed
        · refine Or.inr ⟨w, ?_⟩
          rw [Exec.accessed_pc]
          exact ⟨phase', rq, onward⟩
        · rw [next] at atNext
          cases atNext
        · exact Or.inl (passed n old)
      · refine Or.inr ⟨w, ?_⟩
        rw [Exec.accessed_pc_other same]
        exact ⟨phase', rq, atNext⟩

theorem Repairs.repaired {c : ℕ} {q : RingQueue ℕ Word} {pc : Pc} {events : List (Event Word)}
    (ledger : Ledger e) (grown : e.Grown (e.accessed p q pc events)) (repaired : e.Repaired)
    (phase : (e.st.pc p).phase = .deq c)
    (repairs : Repairs (e.st.ring (e.st.pc p).rq) (e.st.pc p) q pc events) :
    (e.accessed p q pc events).Repaired := by
  have heads := ledger.heads
  have drawn : ∀ n, .deqDraw c (e.st.pc p).rq n ∈ e.log →
      n < (e.st.ring (e.st.pc p).rq).head.toNat := fun n draw => (heads.below _ _ _ draw).2
  cases repairs with
  | on phase' rq onward noDraw bound =>
      refine repaired.access heads grown phase noDraw (fun c' b inCall isBound n draw => ?_)
        (Or.inl ⟨phase'.trans phase, rq, onward⟩)
      cases (phase'.trans phase).symm.trans inCall
      rw [rq] at draw
      rcases bound with none_ | same | head
      · rw [none_] at isBound
        cases isBound
      · exact repaired.below p c b phase (same.symm.trans isBound) n draw
      · cases head.symm.trans isBound
        exact drawn n draw
  | draw f here next isEvent =>
      subst next isEvent
      rw [here] at phase drawn
      cases phase
      have atHead : ∀ n, .deqDraw f.call f.head n ∈
          (.deqDraw f.call f.head (e.st.ring (e.st.pc p).rq).head.toNat :: e.log : List _) →
          n < (e.st.ring (e.st.pc p).rq).head.toNat + 1 := by
        intro n draw
        rcases List.mem_cons.mp draw with new | old
        · cases new
          exact Nat.lt_succ_self _
        · rw [here]
          exact (drawn n old).trans (Nat.lt_succ_self _)
      constructor
      · intro w c' b phase' bound n draw
        by_cases same : w = p
        · subst same
          rw [Exec.accessed_pc] at phase' bound draw
          cases phase'
          cases bound
          exact atHead n draw
        · rw [Exec.accessed_pc_other same] at phase' bound draw
          refine repaired.below w c' b phase' bound n ((List.mem_cons.mp draw).resolve_left ?_)
          intro new
          -- the new ticket belongs to the call of `p`
          obtain ⟨rfl, -, -⟩ := Event.deqDraw.inj new
          have inCall : (e.st.pc p).phase.call = some f.call := by rw [here]; rfl
          exact same (ledger.calls.unique w p f.call (congrArg Phase.call phase') inCall)
      · intro d r n draw
        rcases List.mem_cons.mp draw with new | old
        · cases new
          refine Or.inr ⟨p, ?_⟩
          rw [Exec.accessed_pc]
          exact ⟨rfl, rfl, rfl⟩
        · rcases repaired.passed d r n old with passed | ⟨w, phase', rq, atNext⟩
          · exact Or.inl (passed.keep grown (heads.below d r n old).1)
          · refine Or.inr ⟨w, ?_⟩
            by_cases same : w = p
            · subst same
              rw [here] at phase' rq
              rw [Exec.accessed_pc]
              exact ⟨phase', rq, rfl⟩
            · rw [Exec.accessed_pc_other same]
              exact ⟨phase', rq, atNext⟩
  | fixed b bound noBound noEvents tail =>
      subst noEvents
      refine repaired.access heads grown phase (by simp) (fun c' b' _ isBound => ?_)
        (Or.inr (Or.inr fun n draw => ?_))
      · rw [noBound] at isBound
        cases isBound
      · have below := repaired.below p c b phase bound n draw
        rw [Exec.Passed, Exec.accessed_ring]
        exact tail.imp_right below.trans_le
  | took i h bound idle noDraw isItem ticket tail =>
      subst idle
      refine repaired.access heads grown phase noDraw (fun c' b inCall => nomatch inCall)
        (Or.inr (Or.inr fun n draw => Or.inr ?_))
      -- the item was stored under ticket `h`, so `h` lies below the tail
      have below := repaired.below p c (h + 1) phase bound n draw
      have stored := ledger.cells _ (ledger.shape.rq p) i isItem
      rw [ticket] at stored
      rw [Exec.accessed_ring, tail]
      exact lt_of_le_of_lt (Nat.lt_succ_iff.mp below) stored
  | left next noBound noDraw =>
      refine repaired.access heads grown phase noDraw (fun c' b _ isBound => ?_) (Or.inr (Or.inl next))
      rw [noBound] at isBound
      cases isBound

theorem Exec.Repaired.goes (ledger : Ledger e) (grown : e.Grown e') (repaired : e.Repaired)
    (goes : e.Goes pow p e') : e'.Repaired := by
  have others : ∀ w, w ≠ p → e'.st.pc w = e.st.pc w := fun w => goes.others
  have quiet : ∀ pc pc' : Pc, e.st.pc p = pc → e'.st.pc p = pc' → (∀ c, pc.phase ≠ .deq c) →
      pc'.bound = none → (∀ c r n, .deqDraw c r n ∈ e'.log → .deqDraw c r n ∈ e.log) →
      e'.Repaired := by
    intro pc pc' here here' notDeq noBound draws
    refine repaired.quiet ledger.heads grown others ?_ ?_ draws
    · rw [here]
      exact notDeq
    · rw [here']
      exact noBound
  cases goes with
  | callEnq arg here => exact quiet _ _ here (Function.update_self ..) nofun rfl (by simp)
  | callDeq here => exact quiet _ _ here (Function.update_self ..) nofun rfl (by simp)
  | link f n here => exact quiet _ _ here (Function.update_self ..) nofun rfl (by simp)
  | swing f n here => exact quiet _ _ here (Function.update_self ..) nofun rfl (by simp)
  | reuse f n here | alloc f here | soloTail f n here | soloVal f n here | soloIdx f n here
  | lost f n m here => exact quiet _ _ here (Function.update_self ..) nofun rfl fun _ _ _ => id
  | access q pc events access =>
      cases phase : (e.st.pc p).phase with
      | deq c =>
          exact (onRing_repairs (ledger.sound p) phase access).repaired ledger grown repaired phase
      | _ =>
          have notDeq : ∀ c, (e.st.pc p).phase ≠ .deq c := fun c isDeq => by
            rw [phase] at isDeq
            cases isDeq
          obtain ⟨noBound, noDraw⟩ := onRing_enq_draws notDeq access
          refine quiet _ _ rfl Exec.accessed_pc notDeq noBound fun c r n draw => ?_
          exact (List.mem_append.mp draw).resolve_left (noDraw c r n)

/-- Rings that are not linked have handed out no head ticket. -/
def Exec.HiddenUnused (e : Exec T) : Prop := ∀ r, r ∉ rings e.log → (e.st.ring r).head = 0

theorem Exec.HiddenUnused.goes (shape : Shape e) (grown : e.Grown e') (unused : e.HiddenUnused)
    (goes : e.Goes pow p e') : e'.HiddenUnused := by
  -- one ring is written, and if it is not linked its head stays or is fresh
  have write : ∀ (n : ℕ) (q : RingQueue ℕ Word), e'.st.ring = Function.update e.st.ring n q →
      (n ∈ rings e.log ∨ q.head = 0) → e'.HiddenUnused := by
    intro n q memory own r hidden
    have hidden : r ∉ rings e.log := fun member => hidden (grown.rings r member)
    rw [memory]
    by_cases same : r = n
    · subst same
      rw [Function.update_self]
      exact own.resolve_left hidden
    · rw [Function.update_of_ne same]
      exact unused r hidden
  have stays : e'.st.ring = e.st.ring → e'.HiddenUnused := fun memory r hidden => by
    rw [memory]
    exact unused r fun member => hidden (grown.rings r member)
  have own : ∀ n, n ∈ rings e.log ∨ (e.st.ring n).head = 0 := fun n =>
    or_iff_not_imp_left.mpr (unused n)
  cases goes with
  | callEnq | callDeq | reuse | lost | swing => exact stays rfl
  | alloc f => exact write _ _ rfl (Or.inr rfl)
  | soloTail f n => exact write n _ rfl (own n)
  | soloVal f n => exact write n _ rfl (own n)
  | soloIdx f n => exact write n _ rfl (own n)
  | link f n => exact write f.tail _ rfl (own f.tail)
  | access q pc events => exact write _ q rfl (Or.inl (shape.rq p))

theorem reachable_repaired (run : Reachable (ticketSystem pow) e) : e.Repaired ∧ e.HiddenUnused := by
  refine Reachable.invariant_along (I := fun e => e.Repaired ∧ e.HiddenUnused) ?_ ?_ run
  · rintro e rfl
    exact ⟨⟨fun p c b phase => (nomatch phase), fun d r n draw => (nomatch draw)⟩, fun r _ => rfl⟩
  · rintro e e' before ⟨repaired, unused⟩ ⟨p, a, taken⟩
    have ledger := reachable_ledger before
    obtain ⟨below, goes⟩ := ticketed_goes taken
    have grown := ledger.grown below goes
    exact ⟨repaired.goes ledger grown goes, unused.goes ledger.shape grown goes⟩

/-- When no `deq` that has drawn a ticket on ring `r` still works there, the ring is
closed or its head is not beyond its tail; and no step of `fixState` lowers a tail
or changes a closed one. -/
theorem fixState_restores (run : Reachable (ticketSystem pow) e) :
    (∀ r, (∀ p c n, (e.st.pc p).phase = .deq c → (e.st.pc p).rq = r → .deqDraw c r n ∉ e.log) →
      crqIsClosed (e.st.ring r).tail = true ∨ (e.st.ring r).head ≤ (e.st.ring r).tail) ∧
    ∀ p e', (e.st.pc p).inFixState = true → e.ticketed pow p .run = some e' →
      ∀ r, tailIndex (e.st.ring r).tail ≤ tailIndex (e'.st.ring r).tail ∧
        (crqIsClosed (e.st.ring r).tail = true → (e'.st.ring r).tail = (e.st.ring r).tail) := by
  have ledger := reachable_ledger run
  obtain ⟨repaired, unused⟩ := reachable_repaired run
  constructor
  · intro r left
    by_cases member : r ∈ rings e.log
    · by_contra broken
      obtain ⟨isOpen, beyond⟩ := not_or.mp broken
      have beyond : (e.st.ring r).tail.toNat < (e.st.ring r).head.toNat := not_le.mp beyond
      -- the last ticket was drawn by a call that has left
      obtain ⟨d, draw⟩ := ledger.heads.all r member ((e.st.ring r).head.toNat - 1) (by omega)
      rcases repaired.passed d r _ draw with (closed | below) | ⟨p, phase, rq, _⟩
      · exact isOpen closed
      · rw [tailIndex_toNat] at below
        omega
      · exact left p d _ phase rq draw
    · right
      rw [unused r member]
      exact Nat.zero_le _
  · intro p e' inside taken r
    cases (ticketed_goes taken).2 with
    | access q pc events access =>
        by_cases here : r = (e.st.pc p).rq
        · rw [here, Exec.accessed_ring]
          exact onRing_fixState (ledger.sound p) inside access
        · rw [Exec.accessed_ring_other here]
          exact ⟨BitVec.le_refl _, fun _ => rfl⟩
    | callEnq arg here | callDeq here | reuse f n here | alloc f here | soloTail f n here
    | soloVal f n here | soloIdx f n here | link f n here | lost f n m here | swing f n here =>
        rw [here] at inside
        cases inside

end Repair

/-- An item is enqueued and dequeued; a second `deq` draws a ticket beyond the tail
and returns `EMPTY`. -/
theorem fixState_restores_after_empty : ∃ e : Exec Bool, Reachable (ticketSystem 1) e ∧
    (.deqEmpty 2 ∈ e.log ∧ (e.st.ring 0).head = 2) ∧ (e.st.ring 0).head ≤ (e.st.ring 0).tail := by
  obtain ⟨e, run, found⟩ := ticketed_reaches 1
    [[(true, .enq 5)], List.replicate 5 (true, .run), [(false, .deq)],
      List.replicate 4 (false, .run), [(false, .deq)], List.replicate 11 (false, .run)].flatten
    (fun e => decide ((.deqEmpty 2 ∈ e.log ∧ (e.st.ring 0).head = 2) ∧
      crqIsClosed (e.st.ring 0).tail = false ∧ ∀ p, (e.st.pc p).phase.call = none))
    (by decide +kernel)
  obtain ⟨both, isOpen, idle⟩ := of_decide_eq_true found
  refine ⟨e, run, both, ((fixState_restores run).1 0 fun p c n phase => ?_).resolve_left ?_⟩
  · have := idle p
    rw [phase] at this
    cases this
  · rw [isOpen]
    exact Bool.false_ne_true

end Elcrq.C
