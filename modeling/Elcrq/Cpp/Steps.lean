import Elcrq.Cpp.Refinement

/-! # What a step of `LCRQueue.hpp` does

`Exec.Goes` says what one step of a thread can do.  `Stepped` sorts the steps by
what they do to the nodes, to `head`, to the history and to the place of a `dequeue`
call.  `machine` is the code with no bound on the tickets. -/

set_option autoImplicit false

namespace Elcrq.Cpp

open Concurrent Concurrent.TicketRing Concurrent.RingList Concurrent.Hazard

/-! ## The steps of a thread -/

section Goes

variable {n : ℕ} {A V : Type} {e e' : Exec n A V} {p : Fin n} {a : A}

/-- The state after an access to the node that `a` leads to. -/
def Exec.accessed (e : Exec n A V) (p : Fin n) (a : A) (q : RingQueue A (Option V)) (pc : Pc A V)
    (events : List (Event V)) : Exec n A V :=
  ⟨(e.st.setNode a q).goto p pc, events ++ e.log, e.mem⟩

section Accessed

variable {q : RingQueue A (Option V)} {pc : Pc A V} {events : List (Event V)}

@[simp] theorem Exec.accessed_pc : (e.accessed p a q pc events).st.pc p = pc :=
  Function.update_self ..

theorem Exec.accessed_pc_other {w : Fin n} (other : w ≠ p) :
    (e.accessed p a q pc events).st.pc w = e.st.pc w := Function.update_of_ne other ..

@[simp] theorem Exec.accessed_node :
    (e.accessed p a q pc events).st.node (e.st.nodeAt a) = q := Function.update_self ..

theorem Exec.accessed_node_other {i : ℕ} (other : i ≠ e.st.nodeAt a) :
    (e.accessed p a q pc events).st.node i = e.st.node i := Function.update_of_ne other ..

end Accessed

variable [DecidableEq A] [DecidableEq V]

/-- Everything that one step of thread `p` can do. -/
inductive Exec.Goes (pow : ℕ) (e : Exec n A V) (p : Fin n) : Exec n A V → Prop
  | callEnq (item : V) : e.st.pc p = .idle →
      e.Goes pow p ⟨{ e.st with calls := e.st.calls + 1 }.goto p (.enqTail ⟨e.st.calls, item, 0⟩),
        .enqCall e.st.calls item :: e.log, e.mem⟩
  | callDeq : e.st.pc p = .idle →
      e.Goes pow p ⟨{ e.st with calls := e.st.calls + 1 }.goto p (.deqHead e.st.calls),
        .deqCall e.st.calls :: e.log, e.mem⟩
  | loadTail (f : EnqFrame V) : e.st.pc p = .enqTail f →
      e.Goes pow p ⟨e.st.goto p (.enqProtect f e.st.tail), e.log, e.mem⟩
  | protectTail (f : EnqFrame V) (l : A) : e.st.pc p = .enqProtect f l →
      e.Goes pow p ⟨(e.st.setHp p (some l)).goto p (.enqValidate f l), e.log, e.mem⟩
  | validTail (f : EnqFrame V) : e.st.pc p = .enqValidate f e.st.tail →
      e.Goes pow p ⟨e.st.goto p (.enqNext f e.st.tail), e.log, e.mem⟩
  | retryTail (f : EnqFrame V) (l : A) : e.st.pc p = .enqValidate f l →
      e.Goes pow p ⟨e.st.goto p (.enqTail f), e.log, e.mem⟩
  | help (f : EnqFrame V) (l m : A) : e.st.pc p = .enqHelp f l m →
      e.Goes pow p ⟨(e.st.casTail l m).goto p (.enqTail f), e.log, e.mem⟩
  | construct (f : EnqFrame V) (l a : A) : e.st.pc p = .enqConstruct f l → e.st.live a = false →
      e.Goes pow p ⟨(e.st.construct a).goto p (.soloTail f l a), e.log,
        .construct e.st.made :: e.mem⟩
  | soloTail (f : EnqFrame V) (l m : A) : e.st.pc p = .soloTail f l m →
      e.Goes pow p (e.accessed p m { e.st.node (e.st.nodeAt m) with tail := 1 } (.soloVal f l m) [])
  | soloVal (f : EnqFrame V) (l m : A) : e.st.pc p = .soloVal f l m →
      e.Goes pow p (e.accessed p m ((e.st.node (e.st.nodeAt m)).setNode 0
        { (e.st.node (e.st.nodeAt m)).array 0 with val := some f.item }) (.soloIdx f l m) [])
  | soloIdx (f : EnqFrame V) (l m : A) : e.st.pc p = .soloIdx f l m →
      e.Goes pow p (e.accessed p m ((e.st.node (e.st.nodeAt m)).setNode 0
        { (e.st.node (e.st.nodeAt m)).array 0 with idx := 0 }) (.enqLink f l m) [])
  | link (f : EnqFrame V) (l m : A) : e.st.pc p = .enqLink f l m →
      (e.st.node (e.st.nodeAt l)).next = none →
      e.Goes pow p (e.accessed p l { e.st.node (e.st.nodeAt l) with next := some m }
        (.enqAdvance f l m) [.enqItem f.call (e.st.nodeAt m) 0 f.item,
          .enqDraw f.call (e.st.nodeAt m) 0, .link (e.st.nodeAt l) (e.st.nodeAt m)])
  | lost (f : EnqFrame V) (l m : A) : e.st.pc p = .enqLink f l m →
      e.Goes pow p ⟨e.st.goto p (.enqDestroy f m), e.log, e.mem⟩
  | advance (f : EnqFrame V) (l m : A) : e.st.pc p = .enqAdvance f l m →
      e.Goes pow p ⟨(e.st.casTail l m).goto p (.enqClear f), e.log, e.mem⟩
  | discard (f : EnqFrame V) (m : A) : e.st.pc p = .enqDestroy f m →
      e.Goes pow p ⟨(e.st.destroyPtr m).goto p (.enqTail f), e.log,
        .destroy (e.st.nodeAt m) :: e.mem⟩
  | retEnq (f : EnqFrame V) : e.st.pc p = .enqClear f →
      e.Goes pow p ⟨(e.st.setHp p none).goto p .idle, .enqRet f.call :: e.log, e.mem⟩
  | loadHead (c : ℕ) : e.st.pc p = .deqHead c →
      e.Goes pow p ⟨e.st.goto p (.deqProtect c e.st.head), e.log, e.mem⟩
  | protectHead (c : ℕ) (l : A) : e.st.pc p = .deqProtect c l →
      e.Goes pow p ⟨(e.st.setHp p (some l)).goto p (.deqValidate c l), e.log, e.mem⟩
  | validHead (c : ℕ) : e.st.pc p = .deqValidate c e.st.head →
      e.Goes pow p ⟨e.st.goto p (.deqFaa c e.st.head), e.log, e.mem⟩
  | retryHead (c : ℕ) (l : A) : e.st.pc p = .deqValidate c l →
      e.Goes pow p ⟨e.st.goto p (.deqHead c), e.log, e.mem⟩
  | unlink (c : ℕ) (l m : A) : e.st.pc p = .deqSwing c l m → e.st.head = l →
      e.Goes pow p ⟨{ e.st with
        head := m
        retiredList := Function.update e.st.retiredList p (e.st.retiredList p ++ [l]) }.goto p
          (scanFrom c l 0 (e.st.retiredList p ++ [l]).length), e.log,
        .retire (e.st.nodeAt l) :: e.mem⟩
  | missed (c : ℕ) (l m : A) : e.st.pc p = .deqSwing c l m →
      e.Goes pow p ⟨e.st.goto p (.deqHead c), e.log, e.mem⟩
  | scan (c : ℕ) (ptr obj : A) (iret tid : ℕ) : e.st.pc p = .scan c ptr iret tid →
      (e.st.retiredList p)[iret]? = some obj →
      e.Goes pow p ⟨e.st.goto p (scanSlot e.st p c ptr obj iret tid), e.log, e.mem⟩
  | destroy (c : ℕ) (ptr obj : A) (iret : ℕ) : e.st.pc p = .destroy c ptr iret →
      (e.st.retiredList p)[iret]? = some obj →
      e.Goes pow p ⟨({ e.st with
        retiredList := Function.update e.st.retiredList p ((e.st.retiredList p).eraseIdx iret)
        }.destroyPtr obj).goto p (scanFrom c ptr iret ((e.st.retiredList p).eraseIdx iret).length),
        e.log, .destroy (e.st.nodeAt obj) :: e.mem⟩
  | retEmpty (c : ℕ) : e.st.pc p = .deqClear c none →
      e.Goes pow p ⟨(e.st.setHp p none).goto p .idle, .deqEmpty c :: e.log, e.mem⟩
  | retDeq (c : ℕ) (x : Taken V) : e.st.pc p = .deqClear c (some x) →
      e.Goes pow p ⟨(e.st.setHp p none).goto p .idle,
        .deqRet c x.node x.ticket x.val :: e.log, e.mem⟩
  | access (a : A) (q : RingQueue A (Option V)) (pc : Pc A V) (events : List (Event V)) :
      (e.st.pc p).guarded = some a →
      onNode pow (e.st.nodeAt a) (e.st.node (e.st.nodeAt a)) (e.st.pc p) = some (q, pc, events) →
      e.Goes pow p (e.accessed p a q pc events)

variable {pow : ℕ} {act : Act A V}

theorem run_goes {s : State n A V} {record : Record V}
    (taken : run pow e.st p = some (s, record)) :
    e.Goes pow p ⟨s, record.events ++ e.log, record.mem ++ e.mem⟩ := by
  unfold Cpp.run at taken
  split at taken
  next f here => cases taken; exact .loadTail f here
  next f l here => cases taken; exact .protectTail f l here
  next f l here =>
    split at taken
    next isTail =>
      cases taken
      subst isTail
      exact .validTail f here
    next =>
      cases taken
      exact .retryTail f l here
  next f l m here => cases taken; exact .help f l m here
  next f l m here => cases taken; exact .soloTail f l m here
  next f l m here => cases taken; exact .soloVal f l m here
  next f l m here => cases taken; exact .soloIdx f l m here
  next f l m here =>
    dsimp only at taken
    split at taken
    next last =>
      cases taken
      exact .link f l m here last
    next =>
      cases taken
      exact .lost f l m here
  next f l m here => cases taken; exact .advance f l m here
  next f m here => cases taken; exact .discard f m here
  next f here => cases taken; exact .retEnq f here
  next c here => cases taken; exact .loadHead c here
  next c l here => cases taken; exact .protectHead c l here
  next c l here =>
    split at taken
    next isHead =>
      cases taken
      subst isHead
      exact .validHead c here
    next =>
      cases taken
      exact .retryHead c l here
  next c l m here =>
    split at taken
    next isHead =>
      cases taken
      exact .unlink c l m here isHead
    next =>
      cases taken
      exact .missed c l m here
  next c ptr iret tid here =>
    split at taken
    next obj looked =>
      cases taken
      exact .scan c ptr obj iret tid here looked
    next => cases taken
  next c ptr iret here =>
    split at taken
    next obj looked =>
      cases taken
      exact .destroy c ptr obj iret here looked
    next => cases taken
  next c here => cases taken; exact .retEmpty c here
  next c x here => cases taken; exact .retDeq c x here
  next =>
    split at taken
    next l guarded =>
      obtain ⟨⟨q, pc, events⟩, access, result⟩ := Option.map_eq_some_iff.mp taken
      cases result
      exact .access l q pc events guarded access
    next => cases taken

/-- An access or a call of thread `p`, whatever the number of tickets. -/
def Exec.does (pow : ℕ) (e : Exec n A V) (p : Fin n) (act : Act A V) : Option (Exec n A V) :=
  (step pow e.st p act).map fun (s, record) => ⟨s, record.events ++ e.log, record.mem ++ e.mem⟩

def machine (pow : ℕ) : System (Exec n A V) where
  init := fun e => ∃ sentinel, e = Exec.init sentinel
  step := fun e e' => ∃ p act, e.does pow p act = some e'

theorem machine_reaches (pow : ℕ) (sentinel : A) (schedule : List (Fin n × Act A V))
    (P : Exec n A V → Bool)
    (found : (runSchedule (fun e a => e.does pow a.1 a.2) (Exec.init sentinel) schedule).any P =
      true) : ∃ e, Reachable (machine pow) e ∧ P e = true := by
  have start : (machine pow).init (Exec.init sentinel : Exec n A V) := ⟨sentinel, rfl⟩
  refine runSchedule_any ?_ start schedule P found
  exact fun e a e' does => ⟨a.1, a.2, does⟩

theorem does_goes (does : e.does pow p act = some e') : e.Goes pow p e' := by
  obtain ⟨⟨s, record⟩, taken, rfl⟩ := Option.map_eq_some_iff.mp does
  cases act with
  | enqueue item =>
      simp only [step] at taken
      split at taken
      next idle =>
        cases taken
        exact .callEnq item idle
      next => cases taken
  | dequeue =>
      simp only [step] at taken
      split at taken
      next idle =>
        cases taken
        exact .callDeq idle
      next => cases taken
  | construct a =>
      simp only [step] at taken
      split at taken
      next f l here =>
        split at taken
        next unused =>
          cases taken
          exact .construct f l a here unused
        next => cases taken
      next => cases taken
  | run => exact run_goes taken

theorem next_below (next : e.next pow p act = some e') : TicketsBelow pow e.st := by
  unfold Exec.next at next
  split at next
  next below => exact below
  next => cases next

theorem next_goes (next : e.next pow p act = some e') : e.Goes pow p e' := by
  unfold Exec.next at next
  split at next
  next => exact does_goes next
  next => cases next

theorem Exec.Goes.others (goes : e.Goes pow p e') {w : Fin n} (other : w ≠ p) :
    e'.st.pc w = e.st.pc w := by
  cases goes <;> exact Function.update_of_ne other ..

theorem next_others (next : e.next pow p act = some e') {w : Fin n} (other : w ≠ p) :
    e'.st.pc w = e.st.pc w := (next_goes next).others other

end Goes

/-! ## What the steps are for -/

section Step

variable {n : ℕ} {A V : Type}

/-- Outside `dequeue`, or inside with no node to access and no answer yet. -/
def Pc.Rests (pc : Pc A V) : Prop :=
  ∀ c, pc.phase = .deq c → pc.guarded = none ∧ pc ≠ .deqClear c none

/-- Events of a step that takes no item, links no node and does not answer empty. -/
def Silent (events : List (Event V)) : Prop :=
  (∀ d r h x, .deqItem d r h x ∉ events) ∧ (∀ c, .deqEmpty c ∉ events) ∧ ∀ r m, .link r m ∉ events

structure SameNodes (s s' : State n A V) : Prop where
  node : s'.node = s.node
  addr : s'.addr = s.addr
  made : s'.made = s.made
  nodeAt : s'.nodeAt = s.nodeAt

inductive Stepped [DecidableEq A] [DecidableEq V] (pow : ℕ) (e e' : Exec n A V) (p : Fin n) : Prop
  | quiet (events : List (Event V)) : SameNodes e.st e'.st → e'.st.head = e.st.head →
      (e'.st.pc p).Rests → Silent events → e'.log = events ++ e.log → Stepped pow e e' p
  | validate (c : ℕ) : e.st.pc p = .deqValidate c e.st.head →
      e' = ⟨e.st.goto p (.deqFaa c e.st.head), e.log, e.mem⟩ → Stepped pow e e' p
  | swing (c : ℕ) (l m : A) : e.st.pc p = .deqSwing c l m → e.st.head = l → e'.st.head = m →
      SameNodes e.st e'.st → (e'.st.pc p).Rests → e'.log = e.log → Stepped pow e e' p
  | empty (c : ℕ) : e.st.pc p = .deqClear c none →
      e' = ⟨(e.st.setHp p none).goto p .idle, .deqEmpty c :: e.log, e.mem⟩ → Stepped pow e e' p
  | access (a : A) (q : RingQueue A (Option V)) (pc : Pc A V) (events : List (Event V)) :
      (e.st.pc p).guarded = some a →
      onNode pow (e.st.nodeAt a) (e.st.node (e.st.nodeAt a)) (e.st.pc p) = some (q, pc, events) →
      e' = e.accessed p a q pc events → Stepped pow e e' p
  | fill (m : A) (q : RingQueue A (Option V)) (pc : Pc A V) : (e.st.pc p).own = some m →
      e' = e.accessed p m q pc [] → q.next = (e.st.node (e.st.nodeAt m)).next →
      (∀ c, pc.phase ≠ .deq c) → Stepped pow e e' p
  | link (f : EnqFrame V) (l m : A) : e.st.pc p = .enqLink f l m →
      (e.st.node (e.st.nodeAt l)).next = none →
      e' = e.accessed p l { e.st.node (e.st.nodeAt l) with next := some m } (.enqAdvance f l m)
        [.enqItem f.call (e.st.nodeAt m) 0 f.item, .enqDraw f.call (e.st.nodeAt m) 0,
          .link (e.st.nodeAt l) (e.st.nodeAt m)] → Stepped pow e e' p
  | construct (f : EnqFrame V) (l a : A) : e.st.pc p = .enqConstruct f l → e.st.live a = false →
      e' = ⟨(e.st.construct a).goto p (.soloTail f l a), e.log, .construct e.st.made :: e.mem⟩ →
      Stepped pow e e' p

variable [DecidableEq A] [DecidableEq V] {pow : ℕ} {e e' : Exec n A V} {p : Fin n} {act : Act A V}

omit [DecidableEq A] [DecidableEq V] in
theorem silent_nil : Silent ([] : List (Event V)) := ⟨by simp, by simp, by simp⟩

omit [DecidableEq A] [DecidableEq V] in
theorem Pc.rests_of_phase {pc : Pc A V} (notDeq : ∀ c, pc.phase ≠ .deq c) : pc.Rests :=
  fun c phase => absurd phase (notDeq c)

omit [DecidableEq A] [DecidableEq V] in
theorem scanFrom_rests (c : ℕ) (ptr : A) (iret size : ℕ) :
    (scanFrom c ptr iret size : Pc A V).Rests := by
  intro c' _
  unfold scanFrom
  split <;> exact ⟨rfl, nofun⟩

omit [DecidableEq V] in
theorem scanSlot_rests (s : State n A V) (c : ℕ) (ptr obj : A) (iret tid : ℕ) :
    (scanSlot s p c ptr obj iret tid).Rests := by
  unfold scanSlot
  split
  · exact scanFrom_rests _ _ _ _
  · split <;> exact fun _ _ => ⟨rfl, nofun⟩

theorem Exec.Goes.stepped (goes : e.Goes pow p e') : Stepped pow e e' p := by
  have rests : ∀ {s : State n A V} {pc : Pc A V}, pc.Rests → ((s.goto p pc).pc p).Rests :=
    fun {s} {pc} rests => by
      rw [State.goto_pc]
      exact rests
  have outside : ∀ {s : State n A V} {pc : Pc A V}, (∀ c, pc.phase ≠ .deq c) →
      ((s.goto p pc).pc p).Rests := fun notDeq => rests (Pc.rests_of_phase notDeq)
  cases goes with
  | callEnq item =>
      exact .quiet [.enqCall e.st.calls item] ⟨rfl, rfl, rfl, rfl⟩ rfl (outside nofun)
        ⟨by simp, by simp, by simp⟩ rfl
  | callDeq =>
      exact .quiet [.deqCall e.st.calls] ⟨rfl, rfl, rfl, rfl⟩ rfl (rests fun _ _ => ⟨rfl, nofun⟩)
        ⟨by simp, by simp, by simp⟩ rfl
  | loadTail | protectTail | validTail | retryTail | help | lost | advance | discard =>
      exact .quiet [] ⟨rfl, rfl, rfl, rfl⟩ rfl (outside nofun) silent_nil rfl
  | construct f l a here unused => exact .construct f l a here unused rfl
  | soloTail f l m here | soloVal f l m here | soloIdx f l m here =>
      exact .fill m _ _ (by rw [here]; rfl) rfl rfl nofun
  | link f l m here last => exact .link f l m here last rfl
  | retEnq f =>
      exact .quiet [.enqRet f.call] ⟨rfl, rfl, rfl, rfl⟩ rfl (outside nofun)
        ⟨by simp, by simp, by simp⟩ rfl
  | loadHead | protectHead | retryHead | missed =>
      exact .quiet [] ⟨rfl, rfl, rfl, rfl⟩ rfl (rests fun _ _ => ⟨rfl, nofun⟩) silent_nil rfl
  | validHead c here => exact .validate c here rfl
  | unlink c l m here isHead =>
      exact .swing c l m here isHead rfl ⟨rfl, rfl, rfl, rfl⟩ (rests (scanFrom_rests _ _ _ _)) rfl
  | scan =>
      exact .quiet [] ⟨rfl, rfl, rfl, rfl⟩ rfl (rests (scanSlot_rests _ _ _ _ _ _)) silent_nil rfl
  | destroy =>
      exact .quiet [] ⟨rfl, rfl, rfl, rfl⟩ rfl (rests (scanFrom_rests _ _ _ _)) silent_nil rfl
  | retEmpty c here => exact .empty c here rfl
  | retDeq c x =>
      exact .quiet [.deqRet c x.node x.ticket x.val] ⟨rfl, rfl, rfl, rfl⟩ rfl (outside nofun)
        ⟨by simp, by simp, by simp⟩ rfl
  | access a q pc events guarded access => exact .access a q pc events guarded access rfl

theorem next_stepped (next : e.next pow p act = some e') : Stepped pow e e' p :=
  (next_goes next).stepped

end Step

end Elcrq.Cpp
