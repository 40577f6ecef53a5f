import Elcrq.Concurrent.TicketRing

/-! # A queue made of a growing list of ticket rings

Agents call `enq` and `deq`; each call works on rings of a list that grows at
its new end.  A closed ring may get a successor.  The history records calls,
draws, items and returns; the tickets of a ring and the list of rings are read
off the history.  `Queue.Inv` ties the calls to the rings, and the results at
the end say where each item is and in which order items were stored. -/

set_option autoImplicit false

namespace Elcrq.Concurrent.RingList

open TicketRing

/-- The history of a queue.  `c` names a call, `r` a ring, `t` and `h` tickets. -/
inductive Event (V : Type)
  | enqCall (c : ℕ) (x : V)
  | enqDraw (c r t : ℕ)
  | enqItem (c r t : ℕ) (x : V)
  | enqRet (c : ℕ)
  | deqCall (c : ℕ)
  | deqDraw (c r h : ℕ)
  | deqLeft (c r h : ℕ)
  | deqItem (c r h : ℕ) (x : V)
  | deqRet (c r h : ℕ) (x : V)
  | deqEmpty (c : ℕ)
  | link (r n : ℕ)
  deriving DecidableEq

section Log

variable {V : Type}

def Event.call : Event V → Option ℕ
  | .enqCall c _ | .enqDraw c _ _ | .enqItem c _ _ _ | .enqRet c | .deqCall c
  | .deqDraw c _ _ | .deqLeft c _ _ | .deqItem c _ _ _ | .deqRet c _ _ _ | .deqEmpty c => some c
  | .link _ _ => none

def Event.ring : Event V → Option ℕ
  | .enqDraw _ r _ | .enqItem _ r _ _ | .deqDraw _ r _ | .deqLeft _ r _ | .deqItem _ r _ _
  | .deqRet _ r _ _ => some r
  | _ => none

/-- The rings linked so far, newest first; ring `0` is there from the start. -/
def rings : List (Event V) → List ℕ
  | [] => [0]
  | .link _ n :: rest => n :: rings rest
  | _ :: rest => rings rest

def ticketsOf (log : List (Event V)) (r : ℕ) : Tickets V where
  drawn := {t | ∃ c, .enqDraw c r t ∈ log}
  stored := {p | ∃ c, .enqItem c r p.1 p.2 ∈ log}
  taken := {h | ∃ c x, .deqItem c r h x ∈ log}
  left := {h | ∃ c, .deqLeft c r h ∈ log}

def eventOf (c r : ℕ) : Option (Mark V) → List (Event V)
  | none => []
  | some (.drew t) => [.enqDraw c r t]
  | some (.put t x) => [.enqItem c r t x]
  | some (.drewHead h) => [.deqDraw c r h]
  | some (.took h x) => [.deqItem c r h x]
  | some (.gaveUp h) => [.deqLeft c r h]

@[simp] theorem rings_eventOf (c r : ℕ) (m : Option (Mark V)) (log : List (Event V)) :
    rings (eventOf c r m ++ log) = rings log := by
  rcases m with - | m
  · rfl
  · cases m <;> rfl

theorem ticketsOf_eventOf (c r : ℕ) (m : Option (Mark V)) (log : List (Event V)) :
    ticketsOf (eventOf c r m ++ log) r = (ticketsOf log r).record m := by
  rcases m with - | m
  · rfl
  · cases m <;>
      simp [ticketsOf, eventOf, Tickets.record, Set.ext_iff, exists_or]

theorem ticketsOf_eventOf_other (c : ℕ) {r r' : ℕ} (m : Option (Mark V))
    (log : List (Event V)) (other : r' ≠ r) :
    ticketsOf (eventOf c r m ++ log) r' = ticketsOf log r' := by
  rcases m with - | m
  · rfl
  · cases m <;> simp [ticketsOf, eventOf, other]

/-- Calls, returns and links say nothing about tickets. -/
def Event.plain : Event V → Bool
  | .enqCall _ _ | .enqRet _ | .deqCall _ | .deqRet _ _ _ _ | .deqEmpty _ | .link _ _ => true
  | _ => false

theorem ticketsOf_plain {e : Event V} (plain : e.plain = true) (log : List (Event V)) (r : ℕ) :
    ticketsOf (e :: log) r = ticketsOf log r := by
  cases e <;> simp_all [ticketsOf, Event.plain]

end Log

/-- Where an agent stands in its current call. -/
inductive Phase (V : Type)
  | idle
  | enq (c : ℕ) (x : V)
  | enqDone (c : ℕ)
  | deq (c : ℕ)
  | deqDone (c r h : ℕ) (x : V)

structure Queue (T V : Type) where
  ring : ℕ → CellRing V
  view : T → ℕ → View
  phase : T → Phase V
  calls : ℕ
  log : List (Event V)

section Steps

variable {T V : Type}

def Phase.call : Phase V → Option ℕ
  | .idle => none
  | .enq c _ | .enqDone c | .deq c | .deqDone c _ _ _ => some c

/-- One ring of the queue, with its tickets and agents. -/
def Queue.at (σ : Queue T V) (r : ℕ) : Config T V :=
  ⟨σ.ring r, ticketsOf σ.log r, fun u => σ.view u r⟩

/-- Which calls may make a mark, and how the call goes on. -/
inductive Acts (r : ℕ) : Option (Mark V) → ℕ → Phase V → Phase V → Prop
  | quiet {c : ℕ} {p : Phase V} : Acts r none c p p
  | drew {c t : ℕ} {x : V} : Acts r (some (.drew t)) c (.enq c x) (.enq c x)
  | put {c t : ℕ} {x : V} : Acts r (some (.put t x)) c (.enq c x) (.enqDone c)
  | drewHead {c h : ℕ} : Acts r (some (.drewHead h)) c (.deq c) (.deq c)
  | gaveUp {c h : ℕ} : Acts r (some (.gaveUp h)) c (.deq c) (.deq c)
  | took {c h : ℕ} {x : V} : Acts r (some (.took h x)) c (.deq c) (.deqDone c r h x)

section Acts

variable {r c t h : ℕ} {x : V} {p p' : Phase V}

theorem Acts.of_quiet (acts : Acts r none c p p') : p' = p := by
  cases acts
  rfl

theorem Acts.of_drew (acts : Acts r (some (.drew t)) c p p') : ∃ x, p' = .enq c x := by
  cases acts
  exact ⟨_, rfl⟩

theorem Acts.of_put (acts : Acts r (some (.put t x)) c p p') : p = .enq c x := by
  cases acts
  rfl

theorem Acts.of_drewHead (acts : Acts r (some (.drewHead h)) c p p') : p' = .deq c := by
  cases acts
  rfl

theorem Acts.of_took (acts : Acts r (some (.took h x)) c p p') : p = .deq c := by
  cases acts
  rfl

end Acts

/-- Everything outside ring `touched` and agent `u` stays as it is. -/
structure Frame (u : T) (touched : Option ℕ) (σ σ' : Queue T V) : Prop where
  ring : ∀ r ∈ rings σ.log, touched ≠ some r → σ'.ring r = σ.ring r
  view : ∀ w, ∀ r ∈ rings σ.log, (w ≠ u ∨ touched ≠ some r) → σ'.view w r = σ.view w r
  phase : ∀ w, w ≠ u → σ'.phase w = σ.phase w

inductive Step (size : ℕ) (σ σ' : Queue T V) : Prop
  | callEnq (u : T) (x : V) : Frame u none σ σ' → σ.phase u = .idle →
      σ'.phase u = .enq σ.calls x → σ'.calls = σ.calls + 1 →
      σ'.log = .enqCall σ.calls x :: σ.log → Step size σ σ'
  | callDeq (u : T) : Frame u none σ σ' → σ.phase u = .idle →
      σ'.phase u = .deq σ.calls → σ'.calls = σ.calls + 1 →
      σ'.log = .deqCall σ.calls :: σ.log → Step size σ σ'
  | move (u : T) (r c : ℕ) (m : Option (Mark V)) : Frame u (some r) σ σ' →
      r ∈ rings σ.log → (∀ r' ∈ rings σ.log, r' ≠ r → σ.view u r' = .out) →
      Move size (σ.ring r) (σ.view u r) m (σ'.ring r) (σ'.view u r) →
      Acts r m c (σ.phase u) (σ'.phase u) → σ'.calls = σ.calls →
      σ'.log = eventOf c r m ++ σ.log → Step size σ σ'
  | link (u : T) (r n : ℕ) (rest : List ℕ) : Frame u none σ σ' → rings σ.log = r :: rest →
      (σ.ring r).closed = true → n ∉ rings σ.log → σ'.ring n = CellRing.start →
      (∀ w, σ'.view w n = .out) → σ'.phase u = σ.phase u → σ'.calls = σ.calls →
      σ'.log = .link r n :: σ.log → Step size σ σ'
  | retEnq (u : T) (c : ℕ) : Frame u none σ σ' → σ.phase u = .enqDone c →
      σ'.phase u = .idle → σ'.calls = σ.calls → σ'.log = .enqRet c :: σ.log → Step size σ σ'
  | retDeq (u : T) (c r h : ℕ) (x : V) : Frame u none σ σ' → σ.phase u = .deqDone c r h x →
      σ'.phase u = .idle → σ'.calls = σ.calls → σ'.log = .deqRet c r h x :: σ.log →
      Step size σ σ'
  | retEmpty (u : T) (c : ℕ) : Frame u none σ σ' → σ.phase u = .deq c →
      (∀ r ∈ rings σ.log, σ.view u r = .out) → σ'.phase u = .idle → σ'.calls = σ.calls →
      σ'.log = .deqEmpty c :: σ.log → Step size σ σ'

end Steps

/-! ## The discipline of calls -/

section Calls

variable {T V : Type}

def Phase.Ok (log : List (Event V)) : Phase V → Prop
  | .idle => True
  | .enq c x => .enqCall c x ∈ log ∧ (∀ r t y, .enqItem c r t y ∉ log) ∧ .enqRet c ∉ log
  | .enqDone c => (∃ r t x, .enqItem c r t x ∈ log) ∧ .enqRet c ∉ log
  | .deq c => .deqCall c ∈ log ∧ (∀ r h x, .deqItem c r h x ∉ log) ∧ .deqEmpty c ∉ log
  | .deqDone c r h x => .deqItem c r h x ∈ log ∧ ∀ r h x, .deqRet c r h x ∉ log

structure CallInv (phase : T → Phase V) (calls : ℕ) (log : List (Event V)) : Prop where
  nodup : log.Nodup
  call_lt : ∀ e ∈ log, ∀ c, e.call = some c → c < calls
  phase_lt : ∀ u c, (phase u).call = some c → c < calls
  phase_unique : ∀ u w c, (phase u).call = some c → (phase w).call = some c → u = w
  phase_ok : ∀ u, (phase u).Ok log
  call_unique : ∀ c x y, .enqCall c x ∈ log → .enqCall c y ∈ log → x = y
  item_unique : ∀ c r t x r' t' x', .enqItem c r t x ∈ log → .enqItem c r' t' x' ∈ log →
    r' = r ∧ t' = t ∧ x' = x
  item_call : ∀ c r t x, .enqItem c r t x ∈ log → .enqCall c x ∈ log
  ret_item : ∀ c, .enqRet c ∈ log → ∃ r t x, Older log (.enqItem c r t x) (.enqRet c)
  draw_call : ∀ c r t, .enqDraw c r t ∈ log → ∃ x, Older log (.enqCall c x) (.enqDraw c r t)
  take_unique : ∀ c r h x r' h' x', .deqItem c r h x ∈ log → .deqItem c r' h' x' ∈ log →
    r' = r ∧ h' = h ∧ x' = x
  take_returned : ∀ c r h x, .deqRet c r h x ∈ log → .deqItem c r h x ∈ log
  take_pending : ∀ c r h x, .deqItem c r h x ∈ log →
    .deqRet c r h x ∈ log ∨ ∃ u, phase u = .deqDone c r h x

variable {phase phase' : T → Phase V} {calls calls' : ℕ} {log : List (Event V)} {e : Event V}

theorem Phase.Ok.push {p : Phase V} (ok : p.Ok log)
    (other : ∀ c, p.call = some c → e.call ≠ some c) : p.Ok (e :: log) := by
  cases p with
  | idle => trivial
  | enq c x =>
      have noCall : e.call ≠ some c := other c rfl
      refine ⟨List.mem_cons_of_mem _ ok.1, fun r t y item => ?_, fun ret => ?_⟩
      · rcases List.mem_cons.mp item with rfl | old
        · exact noCall rfl
        · exact ok.2.1 r t y old
      · rcases List.mem_cons.mp ret with rfl | old
        · exact noCall rfl
        · exact ok.2.2 old
  | enqDone c =>
      obtain ⟨⟨r, t, x, item⟩, noRet⟩ := ok
      refine ⟨⟨r, t, x, List.mem_cons_of_mem _ item⟩, fun ret => ?_⟩
      rcases List.mem_cons.mp ret with rfl | old
      · exact other c rfl rfl
      · exact noRet old
  | deq c =>
      have noCall : e.call ≠ some c := other c rfl
      refine ⟨List.mem_cons_of_mem _ ok.1, fun r h x item => ?_, fun ret => ?_⟩
      · rcases List.mem_cons.mp item with rfl | old
        · exact noCall rfl
        · exact ok.2.1 r h x old
      · rcases List.mem_cons.mp ret with rfl | old
        · exact noCall rfl
        · exact ok.2.2 old
  | deqDone c r h x =>
      refine ⟨List.mem_cons_of_mem _ ok.1, fun r' h' x' ret => ?_⟩
      rcases List.mem_cons.mp ret with rfl | old
      · exact other c rfl rfl
      · exact ok.2 r' h' x' old

/-- What the call that records `e` must already have done. -/
def Event.Preceded (log : List (Event V)) : Event V → Prop
  | .enqCall c _ => ∀ y, .enqCall c y ∉ log
  | .enqDraw c _ _ => ∃ x, .enqCall c x ∈ log
  | .enqItem c _ _ x => (∀ r t y, .enqItem c r t y ∉ log) ∧ .enqCall c x ∈ log
  | .enqRet c => ∃ r t x, .enqItem c r t x ∈ log
  | .deqItem c _ _ _ => ∀ r h x, .deqItem c r h x ∉ log
  | .deqRet c r h x => .deqItem c r h x ∈ log
  | _ => True

theorem CallInv.push {u : T} (inv : CallInv phase calls log) (fresh : e ∉ log)
    (preceded : e.Preceded log) (grow : calls ≤ calls')
    (others : ∀ w, w ≠ u → phase' w = phase w)
    (eventCall : ∀ c, e.call = some c → c < calls')
    (ownCall : ∀ c, (phase' u).call = some c → c < calls')
    (apart : ∀ w, w ≠ u → ∀ c, (phase w).call = some c →
      e.call ≠ some c ∧ (phase' u).call ≠ some c)
    (pending : ∀ d r h x, phase u = .deqDone d r h x ∨ e = .deqItem d r h x →
      e = .deqRet d r h x ∨ phase' u = .deqDone d r h x)
    (ok : (phase' u).Ok (e :: log)) : CallInv phase' calls' (e :: log) := by
  refine
    { nodup := List.nodup_cons.mpr ⟨fresh, inv.nodup⟩
      call_lt := ?_
      phase_lt := ?_
      phase_unique := ?_
      phase_ok := ?_
      call_unique := ?_
      item_unique := ?_
      item_call := ?_
      ret_item := ?_
      draw_call := ?_
      take_unique := ?_
      take_returned := ?_
      take_pending := ?_ }
  · intro e' member c call
    rcases List.mem_cons.mp member with rfl | old
    · exact eventCall c call
    · exact (inv.call_lt e' old c call).trans_le grow
  · intro w c call
    by_cases same : w = u
    · subst same
      exact ownCall c call
    · rw [others w same] at call
      exact (inv.phase_lt w c call).trans_le grow
  · intro w w' c first second
    by_cases isU : w = u
    · by_cases isU' : w' = u
      · rw [isU, isU']
      · subst isU
        rw [others w' isU'] at second
        exact absurd first (apart w' isU' c second).2
    · by_cases isU' : w' = u
      · subst isU'
        rw [others w isU] at first
        exact absurd second (apart w isU c first).2
      · rw [others w isU] at first
        rw [others w' isU'] at second
        exact inv.phase_unique w w' c first second
  · intro w
    by_cases same : w = u
    · subst same
      exact ok
    · rw [others w same]
      exact (inv.phase_ok w).push fun c call => (apart w same c call).1
  · intro c x y first second
    rcases List.mem_cons.mp first with rfl | old
    · rcases List.mem_cons.mp second with new' | old'
      · cases new'
        rfl
      · exact absurd old' (preceded y)
    · rcases List.mem_cons.mp second with rfl | old'
      · exact absurd old (preceded x)
      · exact inv.call_unique c x y old old'
  · intro c r t x r' t' x' first second
    rcases List.mem_cons.mp first with rfl | old
    · rcases List.mem_cons.mp second with new' | old'
      · cases new'
        exact ⟨rfl, rfl, rfl⟩
      · exact absurd old' (preceded.1 r' t' x')
    · rcases List.mem_cons.mp second with rfl | old'
      · exact absurd old (preceded.1 r t x)
      · exact inv.item_unique c r t x r' t' x' old old'
  · intro c r t x member
    rcases List.mem_cons.mp member with rfl | old
    · exact List.mem_cons_of_mem _ preceded.2
    · exact List.mem_cons_of_mem _ (inv.item_call c r t x old)
  · intro c member
    rcases List.mem_cons.mp member with rfl | old
    · obtain ⟨r, t, x, item⟩ := preceded
      exact ⟨r, t, x, Or.inl ⟨rfl, item⟩⟩
    · obtain ⟨r, t, x, older⟩ := inv.ret_item c old
      exact ⟨r, t, x, older.cons⟩
  · intro c r t member
    rcases List.mem_cons.mp member with rfl | old
    · obtain ⟨x, call⟩ := preceded
      exact ⟨x, Or.inl ⟨rfl, call⟩⟩
    · obtain ⟨x, older⟩ := inv.draw_call c r t old
      exact ⟨x, older.cons⟩
  · intro c r h x r' h' x' first second
    rcases List.mem_cons.mp first with rfl | old
    · rcases List.mem_cons.mp second with new' | old'
      · cases new'
        exact ⟨rfl, rfl, rfl⟩
      · exact absurd old' (preceded r' h' x')
    · rcases List.mem_cons.mp second with rfl | old'
      · exact absurd old (preceded r h x)
      · exact inv.take_unique c r h x r' h' x' old old'
  · intro c r h x member
    rcases List.mem_cons.mp member with rfl | old
    · exact List.mem_cons_of_mem _ preceded
    · exact List.mem_cons_of_mem _ (inv.take_returned c r h x old)
  · have now : ∀ c r h x, phase u = .deqDone c r h x ∨ e = .deqItem c r h x →
        .deqRet c r h x ∈ e :: log ∨ ∃ u, phase' u = .deqDone c r h x := by
      intro c r h x cause
      rcases pending c r h x cause with rfl | isDone
      · exact Or.inl List.mem_cons_self
      · exact Or.inr ⟨u, isDone⟩
    intro c r h x member
    rcases List.mem_cons.mp member with new | old
    · exact now c r h x (Or.inr new.symm)
    · rcases inv.take_pending c r h x old with ret | ⟨w, isDone⟩
      · exact Or.inl (List.mem_cons_of_mem _ ret)
      · by_cases same : w = u
        · subst same
          exact now c r h x (Or.inl isDone)
        · exact Or.inr ⟨w, by rw [others w same]; exact isDone⟩

theorem CallInv.fresh_call (inv : CallInv phase calls log) (call : e.call = some calls) :
    e ∉ log := fun member => lt_irrefl _ (inv.call_lt e member calls call)

theorem CallInv.apart (inv : CallInv phase calls log) {u : T} {c : ℕ}
    (own : (phase u).call = some c) {w : T} (other : w ≠ u) {c' : ℕ}
    (call : (phase w).call = some c') : c ≠ c' := by
  rintro rfl
  exact other (inv.phase_unique w u c call own)

/-- An event of the call that agent `u` is in. -/
theorem CallInv.push_own {u : T} {c : ℕ} (inv : CallInv phase calls log)
    (own : (phase u).call = some c) (eventCall : e.call = some c) (fresh : e ∉ log)
    (preceded : e.Preceded log) (others : ∀ w, w ≠ u → phase' w = phase w)
    (own' : ∀ c', (phase' u).call = some c' → c' = c)
    (pending : ∀ d r h x, phase u = .deqDone d r h x ∨ e = .deqItem d r h x →
      e = .deqRet d r h x ∨ phase' u = .deqDone d r h x) (ok : (phase' u).Ok (e :: log)) :
    CallInv phase' calls (e :: log) := by
  have bound := inv.phase_lt u c own
  refine inv.push fresh preceded le_rfl others ?_ ?_ ?_ pending ok
  · intro c' call
    rw [eventCall] at call
    cases call
    exact bound
  · intro c' call
    rw [own' c' call]
    exact bound
  · intro w other c' call
    have different := inv.apart own other call
    refine ⟨?_, fun call' => different (own' c' call').symm⟩
    rw [eventCall]
    exact fun same => different (Option.some.inj same)

end Calls

/-! ## The invariant of the queue -/

section Queue

variable {T V : Type}

structure Queue.Inv (size : ℕ) (σ : Queue T V) : Prop where
  calls : CallInv σ.phase σ.calls σ.log
  distinct : (rings σ.log).Nodup
  ring : ∀ r ∈ rings σ.log, (σ.at r).Inv size
  about : ∀ e ∈ σ.log, ∀ r, e.ring = some r → r ∈ rings σ.log
  /-- Only the newest ring may be open. -/
  closed : ∀ r r', Older (rings σ.log) r r' → (σ.ring r).closed = true
  enq_held : ∀ u, ∀ r ∈ rings σ.log, ∀ t, (σ.view u r).enqTicket = some t →
    ∃ c x, σ.phase u = .enq c x ∧ .enqDraw c r t ∈ σ.log
  deq_held : ∀ u, ∀ r ∈ rings σ.log, ∀ h, (σ.view u r).deqTicket = some h →
    ∃ c, σ.phase u = .deq c ∧ .deqDraw c r h ∈ σ.log
  draw_unique : ∀ c c' r t, .enqDraw c r t ∈ σ.log → .enqDraw c' r t ∈ σ.log → c = c'
  item_draw : ∀ c r t x, .enqItem c r t x ∈ σ.log → .enqDraw c r t ∈ σ.log
  deqDraw_lt : ∀ c r h, .deqDraw c r h ∈ σ.log → h < (σ.ring r).head
  deqDraw_unique : ∀ c c' r h, .deqDraw c r h ∈ σ.log → .deqDraw c' r h ∈ σ.log → c = c'
  take_draw : ∀ c r h x, .deqItem c r h x ∈ σ.log → .deqDraw c r h ∈ σ.log
  take_stored : ∀ c r h x, .deqItem c r h x ∈ σ.log → ∃ c', .enqItem c' r h x ∈ σ.log
  /-- A ticket drawn after an item was stored lies behind that item. -/
  order : ∀ c r t x c' r' t', Older σ.log (.enqItem c r t x) (.enqDraw c' r' t') →
    (r = r' ∧ t < t') ∨ Older (rings σ.log) r r'

variable {size : ℕ} {σ σ' : Queue T V}

/-- An agent that is in no `enq` and no `deq` holds no ticket. -/
theorem Queue.Inv.no_tickets {u : T} (inv : σ.Inv size)
    (notEnq : ∀ c x, σ.phase u ≠ .enq c x) (notDeq : ∀ c, σ.phase u ≠ .deq c) :
    ∀ r ∈ rings σ.log, (σ.view u r).enqTicket = none ∧ (σ.view u r).deqTicket = none := by
  intro r member
  constructor
  · cases held : (σ.view u r).enqTicket with
    | none => rfl
    | some t =>
        obtain ⟨c, x, phase, _⟩ := inv.enq_held u r member t held
        exact absurd phase (notEnq c x)
  · cases held : (σ.view u r).deqTicket with
    | none => rfl
    | some h =>
        obtain ⟨c, phase, _⟩ := inv.deq_held u r member h held
        exact absurd phase (notDeq c)

/-- Nothing happens on the rings: one event that says nothing about tickets is recorded,
and `new` rings may come to the list. -/
theorem Queue.Inv.still {e : Event V} (inv : σ.Inv size) (new : List ℕ)
    (calls : CallInv σ'.phase σ'.calls σ'.log) (log : σ'.log = e :: σ.log) (plain : e.plain = true)
    (ring : ∀ r ∈ rings σ.log, σ'.ring r = σ.ring r)
    (view : ∀ w, ∀ r ∈ rings σ.log, σ'.view w r = σ.view w r)
    (phase : ∀ w, σ'.phase w = σ.phase w ∨ ∀ r ∈ rings σ.log,
      (σ.view w r).enqTicket = none ∧ (σ.view w r).deqTicket = none)
    (grow : rings σ'.log = new ++ rings σ.log) (distinct : (rings σ'.log).Nodup)
    (fresh : ∀ r ∈ new, (σ'.at r).Inv size ∧ ∀ w, σ'.view w r = .out)
    (about : ∀ r, e.ring = some r → r ∈ rings σ.log)
    (closed : ∀ r r', Older (rings σ'.log) r r' → (σ'.ring r).closed = true) : σ'.Inv size := by
  have isNew : ∀ r ∈ rings σ'.log, r ∈ new ∨ r ∈ rings σ.log := fun r member =>
    List.mem_append.mp (grow ▸ member)
  have oldEvent : ∀ e' : Event V, e'.plain = false → e' ∈ σ'.log → e' ∈ σ.log := by
    intro e' notPlain member
    rw [log] at member
    rcases List.mem_cons.mp member with rfl | old
    · rw [plain] at notPlain
      cases notPlain
    · exact old
  have keep : ∀ e' ∈ σ.log, e' ∈ σ'.log := by
    intro e' member
    rw [log]
    exact List.mem_cons_of_mem _ member
  refine
    { calls := calls
      distinct := distinct
      ring := fun r member => ?_
      about := fun e' isIn r isRing => ?_
      closed := closed
      enq_held := fun w r member t held => ?_
      deq_held := fun w r member h held => ?_
      draw_unique := fun c c' r t first second =>
        inv.draw_unique c c' r t (oldEvent _ rfl first) (oldEvent _ rfl second)
      item_draw := fun c r t x item => keep _ (inv.item_draw c r t x (oldEvent _ rfl item))
      deqDraw_lt := fun c r h draw => ?_
      deqDraw_unique := fun c c' r h first second =>
        inv.deqDraw_unique c c' r h (oldEvent _ rfl first) (oldEvent _ rfl second)
      take_draw := fun c r h x item => keep _ (inv.take_draw c r h x (oldEvent _ rfl item))
      take_stored := fun c r h x item => ?_
      order := fun c r t x c' r' t' older => ?_ }
  · rcases isNew r member with inNew | old
    · exact (fresh r inNew).1
    · have same : σ'.at r = σ.at r := by
        have tickets : ticketsOf σ'.log r = ticketsOf σ.log r := by
          rw [log, ticketsOf_plain plain]
        simp only [Queue.at, ring r old, tickets, Config.mk.injEq, true_and]
        exact funext fun w => view w r old
      rw [same]
      exact inv.ring r old
  · rw [grow]
    refine List.mem_append_right _ ?_
    rw [log] at isIn
    rcases List.mem_cons.mp isIn with rfl | old
    · exact about r isRing
    · exact inv.about e' old r isRing
  · rcases isNew r member with inNew | old
    · rw [(fresh r inNew).2 w] at held
      cases held
    · rw [view w r old] at held
      obtain ⟨c, x, inPhase, draw⟩ := inv.enq_held w r old t held
      rcases phase w with same | free
      · exact ⟨c, x, by rw [same]; exact inPhase, keep _ draw⟩
      · rw [(free r old).1] at held
        cases held
  · rcases isNew r member with inNew | old
    · rw [(fresh r inNew).2 w] at held
      cases held
    · rw [view w r old] at held
      obtain ⟨c, inPhase, draw⟩ := inv.deq_held w r old h held
      rcases phase w with same | free
      · exact ⟨c, by rw [same]; exact inPhase, keep _ draw⟩
      · rw [(free r old).2] at held
        cases held
  · have old := oldEvent _ rfl draw
    rw [ring r (inv.about _ old r rfl)]
    exact inv.deqDraw_lt c r h old
  · obtain ⟨c', stored⟩ := inv.take_stored c r h x (oldEvent _ rfl item)
    exact ⟨c', keep _ stored⟩
  · rw [log] at older
    rcases older with ⟨rfl, _⟩ | older
    · cases plain
    · rw [grow]
      exact (inv.order c r t x c' r' t' older).imp_right fun below => below.append new

/-- A call or a return. -/
theorem Queue.Inv.plain {u : T} {e : Event V} (inv : σ.Inv size) (frame : Frame u none σ σ')
    (calls : CallInv σ'.phase σ'.calls σ'.log) (log : σ'.log = e :: σ.log)
    (plain : e.plain = true) (sameRings : rings (e :: σ.log) = rings σ.log)
    (about : ∀ r, e.ring = some r → r ∈ rings σ.log)
    (free : ∀ r ∈ rings σ.log, (σ.view u r).enqTicket = none ∧ (σ.view u r).deqTicket = none) :
    σ'.Inv size := by
  have memRings : rings σ'.log = rings σ.log := by rw [log, sameRings]
  have ringSame : ∀ r ∈ rings σ.log, σ'.ring r = σ.ring r :=
    fun r member => frame.ring r member nofun
  refine inv.still [] calls log plain ringSame
    (fun w r member => frame.view w r member (Or.inr nofun)) (fun w => ?_) memRings
    (by rw [memRings]; exact inv.distinct) nofun about fun r r' older => ?_
  · by_cases same : w = u
    · exact Or.inr (same ▸ free)
    · exact Or.inl (frame.phase w same)
  · rw [memRings] at older
    rw [ringSame r older.mem_old]
    exact inv.closed r r' older

theorem Queue.Inv.tickets_of_new {n : ℕ} (inv : σ.Inv size) (new : n ∉ rings σ.log) :
    ticketsOf σ.log n = Tickets.start := by
  have absent : ∀ e : Event V, e.ring = some n → e ∉ σ.log :=
    fun e isRing member => new (inv.about e member n isRing)
  simp only [ticketsOf, Tickets.start, Tickets.mk.injEq, Set.eq_empty_iff_forall_notMem,
    Set.mem_ofPred_eq, not_exists]
  exact ⟨fun t c => absent _ rfl, fun p c => absent _ rfl, fun h c x => absent _ rfl,
    fun h c => absent _ rfl⟩

theorem rings_of_link {r n : ℕ} {log : List (Event V)} (linked : .link r n ∈ log) :
    n ∈ rings log := by
  induction log with
  | nil => cases linked
  | cons e log ih =>
      rcases List.mem_cons.mp linked with rfl | old
      · exact List.mem_cons_self
      · cases e <;> first | exact ih old | exact List.mem_cons_of_mem _ (ih old)

/-- The newest ring is closed and gets a successor, which is empty. -/
theorem Queue.Inv.link {u : T} {r n : ℕ} {rest : List ℕ} (inv : σ.Inv size)
    (frame : Frame u none σ σ') (newest : rings σ.log = r :: rest)
    (closed : (σ.ring r).closed = true) (new : n ∉ rings σ.log) (empty : σ'.ring n = CellRing.start)
    (out : ∀ w, σ'.view w n = .out) (phase : σ'.phase u = σ.phase u)
    (callsSame : σ'.calls = σ.calls) (log : σ'.log = .link r n :: σ.log) : σ'.Inv size := by
  have memRings : rings σ'.log = n :: rings σ.log := by rw [log]; rfl
  have ringSame : ∀ r' ∈ rings σ.log, σ'.ring r' = σ.ring r' :=
    fun r' member => frame.ring r' member nofun
  have phaseSame : ∀ w, σ'.phase w = σ.phase w := by
    intro w
    by_cases same : w = u
    · subst same
      exact phase
    · exact frame.phase w same
  have calls : CallInv σ'.phase σ'.calls σ'.log := by
    rw [log, callsSame]
    refine inv.calls.push (u := u) (fun member => new (rings_of_link member)) trivial le_rfl
      (fun w _ => phaseSame w) nofun ?_ ?_ (fun d r h x cause => Or.inr ?_) ?_
    · intro c call
      rw [phase] at call
      exact inv.calls.phase_lt u c call
    · intro w other c call
      refine ⟨nofun, fun own => ?_⟩
      rw [phase] at own
      exact inv.calls.apart own other call rfl
    · rw [phase]
      exact cause.resolve_right nofun
    · rw [phase]
      exact (inv.calls.phase_ok u).push nofun
  refine inv.still [n] calls log rfl ringSame
    (fun w r' member => frame.view w r' member (Or.inr nofun)) (fun w => Or.inl (phaseSame w))
    memRings (by rw [memRings]; exact List.nodup_cons.mpr ⟨new, inv.distinct⟩)
    (fun r' isNew => ?_) nofun fun a b older => ?_
  · rw [List.mem_singleton.mp isNew]
    refine ⟨Config.Inv.idle ?_ ?_ out, out⟩
    · show RingInv size (σ'.ring n) (ticketsOf σ'.log n)
      rw [empty, log, ticketsOf_plain rfl, inv.tickets_of_new new]
      exact ringInv_start
    · show (σ'.ring n).head = 0
      rw [empty]
      rfl
  · rw [memRings] at older
    rcases older with ⟨_, member⟩ | older
    · rw [ringSame a member]
      rw [newest] at member
      rcases List.mem_cons.mp member with rfl | below
      · exact closed
      · exact inv.closed a r (by rw [newest]; exact Or.inl ⟨rfl, below⟩)
    · rw [ringSame a older.mem_old]
      exact inv.closed a b older

/-! ## Moves on one ring of the queue -/

theorem eventOf_about {c r : ℕ} {m : Option (Mark V)} {e : Event V}
    (member : e ∈ eventOf c r m) : e.ring = some r := by
  rcases m with - | m
  · cases member
  · cases m <;> (cases List.mem_singleton.mp member; rfl)

theorem mem_eventOf {c r : ℕ} {m : Option (Mark V)} {e : Event V} (member : e ∈ eventOf c r m) :
    ∃ k, m = some k ∧ eventOf c r (some k) = [e] := by
  rcases m with - | k
  · cases member
  · refine ⟨k, rfl, ?_⟩
    cases k <;> rw [List.mem_singleton.mp member] <;> rfl

/-- The calls after a move: the recorded event is new and its call is entitled to it. -/
theorem Queue.Inv.move_calls {u : T} {r c : ℕ} {m : Option (Mark V)} (inv : σ.Inv size)
    (frame : Frame u (some r) σ σ') (member : r ∈ rings σ.log)
    (move : Move size (σ.ring r) (σ.view u r) m (σ'.ring r) (σ'.view u r))
    (acts : Acts r m c (σ.phase u) (σ'.phase u)) (callsSame : σ'.calls = σ.calls)
    (log : σ'.log = eventOf c r m ++ σ.log) : CallInv σ'.phase σ'.calls σ'.log := by
  have ok := inv.calls.phase_ok u
  have viewOk := (inv.ring r member).views u
  rw [log, callsSame]
  generalize phaseU : σ.phase u = p at acts ok
  generalize phaseU' : σ'.phase u = p' at acts
  cases acts with
  | quiet =>
      have phaseSame : σ'.phase = σ.phase := by
        funext w
        by_cases same : w = u
        · subst same
          rw [phaseU, phaseU']
        · exact frame.phase w same
      rw [phaseSame]
      exact inv.calls
  | @drew _ t x =>
      refine inv.calls.push_own (c := c) (by rw [phaseU]; rfl) rfl ?_ ⟨x, ok.1⟩ frame.phase ?_
        (by simp [phaseU]) ?_
      · intro old
        have := (inv.ring r member).ring.drawn_lt t ⟨c, old⟩
        rw [move.of_drew.1] at this
        exact lt_irrefl _ this
      · simp [phaseU', Phase.call, eq_comm]
      · simpa [phaseU', Phase.Ok] using ok
  | @put _ t x =>
      refine inv.calls.push_own (c := c) (by rw [phaseU]; rfl) rfl (ok.2.1 r t x)
        ⟨ok.2.1, ok.1⟩ frame.phase ?_ (by simp [phaseU]) ?_
      · simp [phaseU', Phase.call, eq_comm]
      · rw [phaseU']
        exact ⟨⟨r, t, x, List.mem_cons_self⟩, by simpa using ok.2.2⟩
  | @drewHead _ h =>
      refine inv.calls.push_own (c := c) (by rw [phaseU]; rfl) rfl ?_ trivial frame.phase ?_
        (by simp [phaseU]) ?_
      · intro old
        have := inv.deqDraw_lt c r h old
        rw [move.of_drewHead.1] at this
        exact lt_irrefl _ this
      · simp [phaseU', Phase.call, eq_comm]
      · simpa [phaseU', Phase.Ok] using ok
  | @gaveUp _ h =>
      refine inv.calls.push_own (c := c) (by rw [phaseU]; rfl) rfl ?_ trivial frame.phase ?_
        (by simp [phaseU]) ?_
      · exact fun old => viewOk.not_left move.of_gaveUp.1 ⟨c, old⟩
      · simp [phaseU', Phase.call, eq_comm]
      · simpa [phaseU', Phase.Ok] using ok
  | @took _ h x =>
      refine inv.calls.push_own (c := c) (by rw [phaseU]; rfl) rfl (ok.2.1 r h x) ok.2.1
        frame.phase ?_ (by simp [phaseU, phaseU']) ?_
      · simp [phaseU', Phase.call, eq_comm]
      · rw [phaseU']
        refine ⟨List.mem_cons_self, fun r' h' x' ret => ?_⟩
        simp only [List.mem_cons, reduceCtorEq, false_or] at ret
        exact ok.2.1 r' h' x' (inv.calls.take_returned c r' h' x' ret)

section Move

variable {u : T} {r c : ℕ} {m : Option (Mark V)}

theorem Queue.recorded (log : σ'.log = eventOf c r m ++ σ.log) {e : Event V} (isIn : e ∈ σ'.log) :
    e ∈ σ.log ∨ ∃ k, m = some k ∧ eventOf c r (some k) = [e] := by
  rw [log] at isIn
  rcases List.mem_append.mp isIn with new | old
  · exact Or.inr (mem_eventOf new)
  · exact Or.inl old

theorem Queue.recorded_unique (log : σ'.log = eventOf c r m ++ σ.log) {f : ℕ → Event V}
    (injective : Function.Injective f)
    (fresh : ∀ k a, m = some k → eventOf c r (some k) = [f a] → ∀ b, f b ∉ σ.log)
    (unique : ∀ a b, f a ∈ σ.log → f b ∈ σ.log → a = b) {a b : ℕ} (first : f a ∈ σ'.log)
    (second : f b ∈ σ'.log) : a = b := by
  rcases Queue.recorded log first with oldA | ⟨k, isMark, single⟩
  · rcases Queue.recorded log second with oldB | ⟨k, isMark, single⟩
    · exact unique a b oldA oldB
    · exact absurd oldA (fresh k b isMark single a)
  · rcases Queue.recorded log second with oldB | ⟨k', isMark', single'⟩
    · exact absurd oldB (fresh k a isMark single b)
    · cases isMark.symm.trans isMark'
      exact injective (List.singleton_inj.mp (single.symm.trans single'))

theorem Frame.view_cases (frame : Frame u (some r) σ σ')
    (alone : ∀ r' ∈ rings σ.log, r' ≠ r → σ.view u r' = .out) (w : T) {r' : ℕ}
    (member' : r' ∈ rings σ.log) : σ'.view w r' = σ.view w r' ∧ w ≠ u ∨
      σ'.view w r' = .out ∨ (w = u ∧ r' = r) := by
  by_cases isU : w = u
  · by_cases same : r' = r
    · exact Or.inr (Or.inr ⟨isU, same⟩)
    · subst isU
      have unchanged := frame.view w r' member' (Or.inr fun eq => same (Option.some.inj eq).symm)
      rw [alone r' member' same] at unchanged
      exact Or.inr (Or.inl unchanged)
  · exact Or.inl ⟨frame.view w r' member' (Or.inl isU), isU⟩

variable (inv : σ.Inv size) (frame : Frame u (some r) σ σ') (member : r ∈ rings σ.log)
  (alone : ∀ r' ∈ rings σ.log, r' ≠ r → σ.view u r' = .out)
  (move : Move size (σ.ring r) (σ.view u r) m (σ'.ring r) (σ'.view u r))
  (acts : Acts r m c (σ.phase u) (σ'.phase u)) (log : σ'.log = eventOf c r m ++ σ.log)

include frame in
theorem Frame.ring_other {r' : ℕ} (member' : r' ∈ rings σ.log) (other : r' ≠ r) :
    σ'.ring r' = σ.ring r' :=
  frame.ring r' member' fun same => other (Option.some.inj same).symm

include inv frame member move log in
theorem Queue.Inv.move_ring (pos : 0 < size) {r' : ℕ} (member' : r' ∈ rings σ.log) :
    (σ'.at r').Inv size := by
  by_cases same : r' = r
  · subst same
    refine Config.Step.inv pos (u := u) (m := m) (inv.ring r' member)
      ⟨move, ?_, fun w other => frame.view w r' member (Or.inl other)⟩
    show ticketsOf σ'.log r' = _
    rw [log, ticketsOf_eventOf]
    rfl
  · have unchanged : σ'.at r' = σ.at r' := by
      have tickets : ticketsOf σ'.log r' = ticketsOf σ.log r' := by
        rw [log, ticketsOf_eventOf_other c m _ same]
      simp only [Queue.at, frame.ring_other member' same, tickets, Config.mk.injEq, true_and]
      exact funext fun w =>
        frame.view w r' member' (Or.inr fun eq => same (Option.some.inj eq).symm)
    rw [unchanged]
    exact inv.ring r' member'

include inv frame alone move acts log in
theorem Queue.Inv.move_enq_held {w : T} {r' t : ℕ} (member' : r' ∈ rings σ.log)
    (held : (σ'.view w r').enqTicket = some t) :
    ∃ c x, σ'.phase w = .enq c x ∧ .enqDraw c r' t ∈ σ'.log := by
  have keep : ∀ e ∈ σ.log, e ∈ σ'.log := fun e old => log ▸ List.mem_append_right _ old
  rcases frame.view_cases alone w member' with ⟨unchanged, other⟩ | isOut | ⟨rfl, rfl⟩
  · rw [unchanged] at held
    obtain ⟨c', x, phase, draw⟩ := inv.enq_held w r' member' t held
    exact ⟨c', x, by rw [frame.phase w other]; exact phase, keep _ draw⟩
  · rw [isOut] at held
    cases held
  · rcases move.enqTicket_cases held with ⟨rfl, before⟩ | rfl
    · obtain ⟨c', x, phase, draw⟩ := inv.enq_held w r' member' t before
      exact ⟨c', x, by rw [acts.of_quiet]; exact phase, keep _ draw⟩
    · obtain ⟨x, phase⟩ := acts.of_drew
      exact ⟨c, x, phase, by rw [log]; exact List.mem_cons_self⟩

include inv frame alone move acts log in
theorem Queue.Inv.move_deq_held {w : T} {r' h : ℕ} (member' : r' ∈ rings σ.log)
    (held : (σ'.view w r').deqTicket = some h) :
    ∃ c, σ'.phase w = .deq c ∧ .deqDraw c r' h ∈ σ'.log := by
  have keep : ∀ e ∈ σ.log, e ∈ σ'.log := fun e old => log ▸ List.mem_append_right _ old
  rcases frame.view_cases alone w member' with ⟨unchanged, other⟩ | isOut | ⟨rfl, rfl⟩
  · rw [unchanged] at held
    obtain ⟨c', phase, draw⟩ := inv.deq_held w r' member' h held
    exact ⟨c', by rw [frame.phase w other]; exact phase, keep _ draw⟩
  · rw [isOut] at held
    cases held
  · rcases move.deqTicket_cases held with ⟨rfl, before⟩ | rfl
    · obtain ⟨c', phase, draw⟩ := inv.deq_held w r' member' h before
      exact ⟨c', by rw [acts.of_quiet]; exact phase, keep _ draw⟩
    · exact ⟨c, acts.of_drewHead, by rw [log]; exact List.mem_cons_self⟩

include inv member move log in
/-- The ring that a ticket is drawn on is open, so that no ring of an item is newer. -/
theorem Queue.Inv.move_order {d a t d' b t' : ℕ} {x : V}
    (older : Older σ'.log (.enqItem d a t x) (.enqDraw d' b t')) :
    (a = b ∧ t < t') ∨ Older (rings σ.log) a b := by
  rw [log] at older
  rcases m with - | k
  · exact inv.order d a t x d' b t' older
  · cases k with
    | drew t'' =>
        simp only [eventOf, List.singleton_append, older_cons, Event.enqDraw.injEq] at older
        rcases older with ⟨⟨rfl, rfl, rfl⟩, item⟩ | older
        · obtain ⟨isTail, isOpen, _⟩ := move.of_drew
          rcases older_total (inv.about _ item a rfl) member with rfl | below | above
          · refine Or.inl ⟨rfl, ?_⟩
            rw [isTail]
            exact (inv.ring a member).ring.drawn_lt t ⟨d, inv.item_draw d a t x item⟩
          · exact Or.inr below
          · rw [inv.closed b a above] at isOpen
            cases isOpen
        · exact inv.order d a t x d' b t' older
    | _ =>
        simp only [eventOf, List.singleton_append, older_cons, reduceCtorEq, false_and,
          false_or] at older
        exact inv.order d a t x d' b t' older

end Move

theorem Queue.Inv.move {u : T} {r c : ℕ} {m : Option (Mark V)} (pos : 0 < size)
    (inv : σ.Inv size) (frame : Frame u (some r) σ σ') (member : r ∈ rings σ.log)
    (alone : ∀ r' ∈ rings σ.log, r' ≠ r → σ.view u r' = .out)
    (move : Move size (σ.ring r) (σ.view u r) m (σ'.ring r) (σ'.view u r))
    (acts : Acts r m c (σ.phase u) (σ'.phase u)) (callsSame : σ'.calls = σ.calls)
    (log : σ'.log = eventOf c r m ++ σ.log) : σ'.Inv size := by
  have memRings : rings σ'.log = rings σ.log := by rw [log, rings_eventOf]
  have ringInv := inv.ring r member
  have keep : ∀ e ∈ σ.log, e ∈ σ'.log := fun e old => log ▸ List.mem_append_right _ old
  refine
    { calls := inv.move_calls frame member move acts callsSame log
      distinct := by rw [memRings]; exact inv.distinct
      ring := fun r' member' => inv.move_ring frame member move log pos (memRings ▸ member')
      about := fun e isIn r' isRing => ?_
      closed := fun a b older => ?_
      enq_held := fun w r' member' t =>
        inv.move_enq_held frame alone move acts log (memRings ▸ member')
      deq_held := fun w r' member' h =>
        inv.move_deq_held frame alone move acts log (memRings ▸ member')
      draw_unique := fun a b r' t => ?_
      item_draw := fun d r' t x item => ?_
      deqDraw_lt := fun d r' h draw => ?_
      deqDraw_unique := fun a b r' h => ?_
      take_draw := fun d r' h x item => ?_
      take_stored := fun d r' h x item => ?_
      order := fun d a t x d' b t' older => by
        rw [memRings]
        exact inv.move_order member move log older }
  · rw [memRings]
    rcases Queue.recorded log isIn with old | ⟨k, rfl, single⟩
    · exact inv.about e old r' isRing
    · rw [eventOf_about (single ▸ List.mem_singleton_self e)] at isRing
      cases isRing
      exact member
  · rw [memRings] at older
    have closed := inv.closed a b older
    by_cases same : a = r
    · subst same
      exact move.stays_closed closed
    · rw [frame.ring_other older.mem_old same]
      exact closed
  · refine Queue.recorded_unique log (f := fun d => .enqDraw d r' t)
      (fun _ _ same => by cases same; rfl) (fun k d isMark single d' old => ?_)
      fun a b => inv.draw_unique a b r' t
    subst isMark
    cases k <;> cases single
    have less := ringInv.ring.drawn_lt _ ⟨d', old⟩
    rw [move.of_drew.1] at less
    exact lt_irrefl _ less
  · rcases Queue.recorded log item with old | ⟨k, rfl, single⟩
    · exact keep _ (inv.item_draw d r' t x old)
    · cases k <;> cases single
      obtain ⟨c', y, phase, draw⟩ := inv.enq_held u r member _ move.of_put.1
      cases acts.of_put.symm.trans phase
      exact keep _ draw
  · rcases Queue.recorded log draw with old | ⟨k, rfl, single⟩
    · refine (inv.deqDraw_lt d r' h old).trans_le ?_
      by_cases same : r' = r
      · subst same
        exact move.head_le
      · rw [frame.ring_other (inv.about _ old r' rfl) same]
    · cases k <;> cases single
      rw [move.of_drewHead.2.1]
      exact Nat.lt_succ_self _
  · refine Queue.recorded_unique log (f := fun d => .deqDraw d r' h)
      (fun _ _ same => by cases same; rfl) (fun k d isMark single d' old => ?_)
      fun a b => inv.deqDraw_unique a b r' h
    subst isMark
    cases k <;> cases single
    have less := inv.deqDraw_lt d' r _ old
    rw [move.of_drewHead.1] at less
    exact lt_irrefl _ less
  · rcases Queue.recorded log item with old | ⟨k, rfl, single⟩
    · exact keep _ (inv.take_draw d r' h x old)
    · cases k <;> cases single
      obtain ⟨c', phase, draw⟩ := inv.deq_held u r member _ move.of_took.1
      cases acts.of_took.symm.trans phase
      exact keep _ draw
  · rcases Queue.recorded log item with old | ⟨k, rfl, single⟩
    · obtain ⟨c', stored⟩ := inv.take_stored d r' h x old
      exact ⟨c', keep _ stored⟩
    · cases k <;> cases single
      obtain ⟨f, here⟩ := move.of_took.2.2
      have occupied := ringInv.ring.occupied (h % size) (Nat.mod_lt _ pos) x
        (by show ((σ.ring r).cell (h % size)).item = some x; rw [here])
      obtain ⟨c', stored⟩ := occupied.1
      refine ⟨c', keep _ ?_⟩
      simpa only [Queue.at, here] using stored

theorem Step.inv (pos : 0 < size) (inv : σ.Inv size) (step : Step size σ σ') :
    σ'.Inv size := by
  cases step with
  | callEnq u x frame idle enq grow log =>
      refine inv.plain frame ?_ log rfl rfl nofun
        (inv.no_tickets (by rw [idle]; nofun) (by rw [idle]; nofun))
      rw [log, grow]
      refine inv.calls.push (u := u) (inv.calls.fresh_call rfl)
        (fun y => inv.calls.fresh_call rfl) (Nat.le_succ _) frame.phase ?_ ?_ ?_ (by simp [idle]) ?_
      · rintro _ ⟨⟩
        exact Nat.lt_succ_self _
      · rw [enq]
        rintro _ ⟨⟩
        exact Nat.lt_succ_self _
      · rw [enq]
        intro w _ c call
        have := inv.calls.phase_lt w c call
        exact ⟨by rintro ⟨⟩; omega, by rintro ⟨⟩; omega⟩
      · rw [enq]
        refine ⟨List.mem_cons_self, fun r t y item => ?_, fun ret => ?_⟩
        · rcases List.mem_cons.mp item with isCall | old
          · cases isCall
          · exact inv.calls.fresh_call rfl old
        · rcases List.mem_cons.mp ret with isCall | old
          · cases isCall
          · exact inv.calls.fresh_call rfl old
  | callDeq u frame idle deq grow log =>
      refine inv.plain frame ?_ log rfl rfl nofun
        (inv.no_tickets (by rw [idle]; nofun) (by rw [idle]; nofun))
      rw [log, grow]
      refine inv.calls.push (u := u) (inv.calls.fresh_call rfl) trivial (Nat.le_succ _)
        frame.phase ?_ ?_ ?_ (by simp [idle]) ?_
      · rintro _ ⟨⟩
        exact Nat.lt_succ_self _
      · rw [deq]
        rintro _ ⟨⟩
        exact Nat.lt_succ_self _
      · rw [deq]
        intro w _ c call
        have := inv.calls.phase_lt w c call
        exact ⟨by rintro ⟨⟩; omega, by rintro ⟨⟩; omega⟩
      · rw [deq]
        refine ⟨List.mem_cons_self, fun r h x item => ?_, fun ret => ?_⟩
        · rcases List.mem_cons.mp item with isCall | old
          · cases isCall
          · exact inv.calls.fresh_call rfl old
        · rcases List.mem_cons.mp ret with isCall | old
          · cases isCall
          · exact inv.calls.fresh_call rfl old
  | move u r c m frame member alone move acts callsSame log =>
      exact inv.move pos frame member alone move acts callsSame log
  | link u r n rest frame newest closed new empty out phase callsSame log =>
      exact inv.link frame newest closed new empty out phase callsSame log
  | retEnq u c frame done idle callsSame log =>
      refine inv.plain frame ?_ log rfl rfl nofun
        (inv.no_tickets (by rw [done]; nofun) (by rw [done]; nofun))
      have ok := inv.calls.phase_ok u
      rw [done] at ok
      rw [log, callsSame]
      exact inv.calls.push_own (c := c) (by rw [done]; rfl) rfl ok.2 ok.1 frame.phase
        (by rw [idle]; nofun) (by simp [done]) (by rw [idle]; trivial)
  | retDeq u c r h x frame done idle callsSame log =>
      have ok := inv.calls.phase_ok u
      rw [done] at ok
      refine inv.plain frame ?_ log rfl rfl ?_
        (inv.no_tickets (by rw [done]; nofun) (by rw [done]; nofun))
      · rw [log, callsSame]
        refine inv.calls.push_own (c := c) (by rw [done]; rfl) rfl (ok.2 r h x) ok.1 frame.phase
          (by rw [idle]; nofun) ?_ (by rw [idle]; trivial)
        rintro d r' h' x' (isDone | isItem)
        · rw [done] at isDone
          cases isDone
          exact Or.inl rfl
        · cases isItem
      · rintro _ ⟨⟩
        exact inv.about _ ok.1 r rfl
  | retEmpty u c frame inDeq out idle callsSame log =>
      refine inv.plain frame ?_ log rfl rfl nofun ?_
      · have ok := inv.calls.phase_ok u
        rw [inDeq] at ok
        rw [log, callsSame]
        exact inv.calls.push_own (c := c) (by rw [inDeq]; rfl) rfl ok.2.2 trivial frame.phase
          (by rw [idle]; nofun) (by simp [inDeq]) (by rw [idle]; trivial)
      · intro r member
        rw [out r member]
        exact ⟨rfl, rfl⟩

/-! ## How the list grows -/

theorem Step.rings_grow (step : Step size σ σ') :
    rings σ'.log = rings σ.log ∨ ∃ n, n ∉ rings σ.log ∧ rings σ'.log = n :: rings σ.log := by
  cases step with
  | callEnq u x _ _ _ _ log => left; rw [log]; rfl
  | callDeq u _ _ _ _ log => left; rw [log]; rfl
  | move u r c m _ _ _ _ _ _ log => left; rw [log, rings_eventOf]
  | link u r n rest _ _ _ new _ _ _ _ log => right; exact ⟨n, new, by rw [log]; rfl⟩
  | retEnq u c _ _ _ _ log => left; rw [log]; rfl
  | retDeq u c r h x _ _ _ _ log => left; rw [log]; rfl
  | retEmpty u c _ _ _ _ _ log => left; rw [log]; rfl

/-- Seen from one ring of the list, a step is a move or changes nothing. -/
theorem Step.on_ring (step : Step size σ σ') {r : ℕ} (member : r ∈ rings σ.log) :
    (σ'.ring r = σ.ring r ∧ ticketsOf σ'.log r = ticketsOf σ.log r) ∨
      ∃ v m v', Move size (σ.ring r) v m (σ'.ring r) v' ∧
        ticketsOf σ'.log r = (ticketsOf σ.log r).record m := by
  have plain : ∀ (u : T) (e : Event V), Frame u none σ σ' → σ'.log = e :: σ.log →
      e.plain = true → σ'.ring r = σ.ring r ∧ ticketsOf σ'.log r = ticketsOf σ.log r :=
    fun u e frame log plain => ⟨frame.ring r member nofun, by rw [log, ticketsOf_plain plain]⟩
  cases step with
  | callEnq u x frame _ _ _ log => exact Or.inl (plain u _ frame log rfl)
  | callDeq u frame _ _ _ log => exact Or.inl (plain u _ frame log rfl)
  | move u r' c m frame _ _ move _ _ log =>
      by_cases same : r = r'
      · subst same
        exact Or.inr ⟨_, m, _, move, by rw [log, ticketsOf_eventOf]⟩
      · refine Or.inl ⟨frame.ring r member fun eq => same (Option.some.inj eq).symm, ?_⟩
        rw [log, ticketsOf_eventOf_other c m _ same]
  | link u r' n rest frame _ _ _ _ _ _ _ log => exact Or.inl (plain u _ frame log rfl)
  | retEnq u c frame _ _ _ log => exact Or.inl (plain u _ frame log rfl)
  | retDeq u c r' h x frame _ _ _ log => exact Or.inl (plain u _ frame log rfl)
  | retEmpty u c frame _ _ _ _ log => exact Or.inl (plain u _ frame log rfl)

/-- A step that changes a cell makes its rank larger. -/
theorem Step.cell_rank (pos : 0 < size) (inv : σ.Inv size) (step : Step size σ σ') {r : ℕ}
    (member : r ∈ rings σ.log) (i : ℕ) : (σ'.ring r).cell i = (σ.ring r).cell i ∨
      ((σ.ring r).cell i).rank < ((σ'.ring r).cell i).rank := by
  have same : σ'.ring r = σ.ring r → (σ'.ring r).cell i = (σ.ring r).cell i ∨
      ((σ.ring r).cell i).rank < ((σ'.ring r).cell i).rank := fun same => Or.inl (by rw [same])
  cases step with
  | move u r' c m frame _ _ move =>
      by_cases here : r = r'
      · subst here
        exact move.cell_rank pos ((inv.ring r member).views u) i
      · exact same (frame.ring r member fun eq => here (Option.some.inj eq).symm)
  | callEnq u x frame => exact same (frame.ring r member nofun)
  | callDeq u frame => exact same (frame.ring r member nofun)
  | link u r' n rest frame => exact same (frame.ring r member nofun)
  | retEnq u c frame => exact same (frame.ring r member nofun)
  | retDeq u c r' h x frame => exact same (frame.ring r member nofun)
  | retEmpty u c frame => exact same (frame.ring r member nofun)

def Queue.Drained (σ : Queue T V) (r : ℕ) : Prop :=
  TicketRing.Drained (σ.ring r) (ticketsOf σ.log r)

def Queue.DrainedBefore (σ : Queue T V) (r : ℕ) : Prop :=
  ∀ r', Older (rings σ.log) r' r → σ.Drained r'

theorem Step.drained (step : Step size σ σ') {r : ℕ} (member : r ∈ rings σ.log)
    (closed : (σ.ring r).closed = true) (drained : σ.Drained r) : σ'.Drained r := by
  rcases step.on_ring member with ⟨ring, tickets⟩ | ⟨v, m, v', move, tickets⟩
  · simpa only [Queue.Drained, ring, tickets] using drained
  · have := TicketRing.Drained.move drained closed move
    simpa only [Queue.Drained, tickets] using this

theorem Step.older {r r' : ℕ} (step : Step size σ σ') (member : r ∈ rings σ.log) :
    Older (rings σ'.log) r' r ↔ Older (rings σ.log) r' r := by
  rcases step.rings_grow with same | ⟨n, new, grown⟩
  · rw [same]
  · rw [grown, older_cons]
    constructor
    · rintro (⟨rfl, _⟩ | older)
      · exact absurd member new
      · exact older
    · exact Or.inr

theorem Step.drainedBefore (step : Step size σ σ') (inv : σ.Inv size) {r : ℕ}
    (member : r ∈ rings σ.log) (before : σ.DrainedBefore r) : σ'.DrainedBefore r := by
  intro r' older
  rw [step.older member] at older
  exact step.drained older.mem_old (inv.closed r' r older) (before r' older)

/-! ### Several steps -/

section Several

open Relation

theorem steps_inv (pos : 0 < size) (inv : σ.Inv size) (steps : ReflTransGen (Step size) σ σ') :
    σ'.Inv size := by
  induction steps with
  | refl => exact inv
  | tail _ step ih => exact step.inv pos ih

theorem steps_rings (steps : ReflTransGen (Step size) σ σ') :
    ∀ r ∈ rings σ.log, r ∈ rings σ'.log := by
  intro r member
  induction steps with
  | refl => exact member
  | tail _ step ih =>
      rcases step.rings_grow with same | ⟨n, _, grown⟩
      · rwa [same]
      · rw [grown]
        exact List.mem_cons_of_mem _ ih

theorem steps_older (steps : ReflTransGen (Step size) σ σ') {r r' : ℕ} (member : r ∈ rings σ.log) :
    Older (rings σ'.log) r' r ↔ Older (rings σ.log) r' r := by
  induction steps with
  | refl => rfl
  | tail before step ih => rw [step.older (steps_rings before r member), ih]

theorem steps_ring_le (steps : ReflTransGen (Step size) σ σ') {r : ℕ} (member : r ∈ rings σ.log) :
    ((σ.ring r).closed = true → (σ'.ring r).closed = true) ∧
      (σ.ring r).head ≤ (σ'.ring r).head ∧ (σ.ring r).tail ≤ (σ'.ring r).tail := by
  induction steps with
  | refl => exact ⟨id, le_rfl, le_rfl⟩
  | tail before step ih =>
      obtain ⟨closed, head, tail⟩ := ih
      rcases step.on_ring (steps_rings before r member) with ⟨ring, _⟩ | ⟨v, m, v', move, _⟩
      · rw [ring]
        exact ⟨closed, head, tail⟩
      · exact ⟨fun wasClosed => move.stays_closed (closed wasClosed), head.trans move.head_le,
          tail.trans move.tail_le⟩

theorem steps_cell_rank (pos : 0 < size) (inv : σ.Inv size)
    (steps : ReflTransGen (Step size) σ σ') {r : ℕ} (member : r ∈ rings σ.log) (i : ℕ) :
    (σ'.ring r).cell i = (σ.ring r).cell i ∨
      ((σ.ring r).cell i).rank < ((σ'.ring r).cell i).rank := by
  induction steps with
  | refl => exact Or.inl rfl
  | tail before step ih =>
      rcases step.cell_rank pos (steps_inv pos inv before) (steps_rings before r member) i with
        same | larger
      · rwa [same]
      · rcases ih with same' | larger'
        · rw [same'] at larger
          exact Or.inr larger
        · exact Or.inr (larger'.trans larger)

theorem steps_drained (steps : ReflTransGen (Step size) σ σ') {r : ℕ} (member : r ∈ rings σ.log)
    (closed : (σ.ring r).closed = true) (drained : σ.Drained r) : σ'.Drained r := by
  induction steps with
  | refl => exact drained
  | tail before step ih =>
      exact step.drained (steps_rings before r member) ((steps_ring_le before member).1 closed) ih

theorem steps_drainedBefore (pos : 0 < size) (inv : σ.Inv size)
    (steps : ReflTransGen (Step size) σ σ') {r : ℕ} (member : r ∈ rings σ.log)
    (before : σ.DrainedBefore r) : σ'.DrainedBefore r := by
  induction steps with
  | refl => exact before
  | tail first step ih =>
      exact step.drainedBefore (steps_inv pos inv first) (steps_rings first r member) ih

end Several

/-! ## Where the items are, and in which order they were stored -/

/-- An agent's call holds head ticket `h` of ring `r` and has not left the cell. -/
def Queue.Held (σ : Queue T V) (u : T) (r h : ℕ) : Prop := (σ.view u r).deqTicket = some h

theorem Queue.Inv.item_cases (inv : σ.Inv size) {c r t : ℕ} {x : V}
    (item : .enqItem c r t x ∈ σ.log) :
    (∃ d, .deqItem d r t x ∈ σ.log) ∨
      ((∀ d y, .deqItem d r t y ∉ σ.log) ∧
        ((σ.ring r).cell (t % size)).index = t ∧ ((σ.ring r).cell (t % size)).item = some x ∧
        ((σ.ring r).head ≤ t ∨ ∃ u, σ.Held u r t)) := by
  have member := inv.about _ item r rfl
  have ringInv := inv.ring r member
  rcases ringInv.item_cases (t := t) (x := x) ⟨c, item⟩ with ⟨d, y, taken⟩ | ⟨free, here⟩
  · obtain ⟨c', stored⟩ := inv.take_stored d r t y taken
    have same : y = x := ringInv.ring.stored_unique t y x ⟨c', stored⟩ ⟨c, item⟩
    exact Or.inl ⟨d, same ▸ taken⟩
  · exact Or.inr ⟨fun d y taken => free ⟨d, y, taken⟩, here⟩

theorem Queue.Inv.item_of_drawn (inv : σ.Inv size) {c r t : ℕ} {x : V}
    (item : .enqItem c r t x ∈ σ.log) (drawn : t < (σ.ring r).head) :
    (∃ d, .deqItem d r t x ∈ σ.log) ∨ ∃ u, σ.Held u r t := by
  rcases inv.item_cases item with taken | ⟨_, _, _, undrawn | held⟩
  · exact Or.inl taken
  · exact absurd drawn (not_lt.mpr undrawn)
  · exact Or.inr held

theorem Queue.Inv.item_of_drained (inv : σ.Inv size) {c r t : ℕ} {x : V}
    (item : .enqItem c r t x ∈ σ.log) (drained : σ.Drained r) :
    (∃ d, .deqItem d r t x ∈ σ.log) ∨ ∃ u, σ.Held u r t :=
  inv.item_of_drawn item (drained t ⟨c, inv.item_draw c r t x item⟩)

theorem Queue.Inv.item_ticket_unique (inv : σ.Inv size) {c c' r t : ℕ} {x x' : V}
    (first : .enqItem c r t x ∈ σ.log) (second : .enqItem c' r t x' ∈ σ.log) : c = c' :=
  inv.draw_unique c c' r t (inv.item_draw c r t x first) (inv.item_draw c' r t x' second)

theorem Queue.Inv.take_ticket_unique (inv : σ.Inv size) {d d' r h : ℕ} {x x' : V}
    (first : .deqItem d r h x ∈ σ.log) (second : .deqItem d' r h x' ∈ σ.log) : d = d' :=
  inv.deqDraw_unique d d' r h (inv.take_draw d r h x first) (inv.take_draw d' r h x' second)

theorem Queue.Inv.return_unique (inv : σ.Inv size) {d d' r h : ℕ} {x y : V}
    (taken : .deqItem d r h x ∈ σ.log) (ret : .deqRet d' r h y ∈ σ.log) : d' = d ∧ y = x := by
  have taken' := inv.calls.take_returned d' r h y ret
  obtain rfl := inv.take_ticket_unique taken taken'
  exact ⟨rfl, (inv.calls.take_unique d r h x r h y taken taken').2.2⟩

/-- If `enq` call `a` returned before `b` was made, the item of `a` is ahead of
the item of `b`: in the same ring with a smaller ticket, or in an older ring. -/
theorem Queue.Inv.stored_in_order (inv : σ.Inv size) {a b ra ta rb tb : ℕ} {x y z : V}
    (itemA : .enqItem a ra ta x ∈ σ.log) (itemB : .enqItem b rb tb y ∈ σ.log)
    (before : Older σ.log (.enqRet a) (.enqCall b z)) :
    (ra = rb ∧ ta < tb) ∨ Older (rings σ.log) ra rb := by
  obtain ⟨r, t, x', stored⟩ := inv.calls.ret_item a before.mem_old
  obtain ⟨rfl, rfl, rfl⟩ := inv.calls.item_unique a ra ta x r t x' itemA stored.mem_old
  obtain ⟨z', called⟩ := inv.calls.draw_call b rb tb (inv.item_draw b rb tb y itemB)
  obtain rfl := inv.calls.call_unique b z z' before.mem_new called.mem_old
  have nodup := inv.calls.nodup
  exact inv.order a r t x' b rb tb
    (Older.trans nodup (Older.trans nodup stored before) called)

theorem Queue.Inv.fifo (inv : σ.Inv size) {a b d ra ta rb tb : ℕ} {x y z : V}
    (itemA : .enqItem a ra ta x ∈ σ.log) (itemB : .enqItem b rb tb y ∈ σ.log)
    (before : Older σ.log (.enqRet a) (.enqCall b z)) (taken : .deqItem d rb tb y ∈ σ.log)
    (drained : σ.DrainedBefore rb) :
    (∃ d, .deqItem d ra ta x ∈ σ.log) ∨ ∃ u, σ.Held u ra ta := by
  rcases inv.stored_in_order itemA itemB before with ⟨rfl, earlier⟩ | older
  · have drawn := inv.deqDraw_lt d ra tb (inv.take_draw d ra tb y taken)
    exact inv.item_of_drawn itemA (earlier.trans drawn)
  · exact inv.item_of_drained itemA (drained ra older)

/-! ## A ring that is linked with an item in it -/

def soloRing (x : V) : CellRing V :=
  { head := 0, tail := 1, closed := false
    cell := Function.update (fun i => ⟨i, false, none⟩) 0 ⟨0, false, some x⟩ }

/-- `σ` while agent `u` is still enqueuing `x` into ring `n`: that ring, the
agent's view of it and the history are as given. -/
def Queue.midway [DecidableEq T] (σ : Queue T V) (u : T) (n c : ℕ) (x : V) (ρ : CellRing V) (v : View)
    (log : List (Event V)) : Queue T V where
  ring := Function.update σ.ring n ρ
  view := Function.update σ.view u (Function.update (σ.view u) n v)
  phase := Function.update σ.phase u (.enq c x)
  calls := σ.calls
  log := log

section Midway

variable [DecidableEq T] (σ : Queue T V) (u : T) (n c : ℕ) (x : V) (ρ ρ' : CellRing V) (v v' : View)
  (log log' : List (Event V))

@[simp] theorem Queue.midway_ring : (σ.midway u n c x ρ v log).ring n = ρ := by
  simp [Queue.midway]

theorem Queue.midway_ring_other {r : ℕ} (other : r ≠ n) :
    (σ.midway u n c x ρ v log).ring r = σ.ring r := by simp [Queue.midway, other]

@[simp] theorem Queue.midway_view : (σ.midway u n c x ρ v log).view u n = v := by
  simp [Queue.midway]

theorem Queue.midway_view_other {w : T} {r : ℕ} (other : w ≠ u ∨ r ≠ n) :
    (σ.midway u n c x ρ v log).view w r = σ.view w r := by
  by_cases isU : w = u
  · subst isU
    have : r ≠ n := other.resolve_left (fun h => h rfl)
    simp [Queue.midway, this]
  · simp [Queue.midway, isU]

@[simp] theorem Queue.midway_phase : (σ.midway u n c x ρ v log).phase u = .enq c x := by
  simp [Queue.midway]

theorem Queue.midway_phase_other {w : T} (other : w ≠ u) :
    (σ.midway u n c x ρ v log).phase w = σ.phase w := by simp [Queue.midway, other]

theorem Frame.midway :
    Frame u (some n) (σ.midway u n c x ρ v log) (σ.midway u n c x ρ' v' log') := by
  refine ⟨fun r _ other => ?_, fun w r _ other => ?_, fun w other => ?_⟩
  · have : r ≠ n := fun eq => other (eq ▸ rfl)
    rw [Queue.midway_ring_other _ _ _ _ _ _ _ _ this, Queue.midway_ring_other _ _ _ _ _ _ _ _ this]
  · have : w ≠ u ∨ r ≠ n := other.imp_right fun apart eq => apart (eq ▸ rfl)
    rw [Queue.midway_view_other _ _ _ _ _ _ _ _ this, Queue.midway_view_other _ _ _ _ _ _ _ _ this]
  · rw [Queue.midway_phase_other _ _ _ _ _ _ _ _ other,
      Queue.midway_phase_other _ _ _ _ _ _ _ _ other]

variable (size) in
theorem Step.midway {m : Option (Mark V)} (member : n ∈ rings log)
    (out : ∀ r ∈ rings log, σ.view u r = .out) (move : Move size ρ v m ρ' v')
    (acts : Acts n m c (.enq c x) (.enq c x)) :
    Step size (σ.midway u n c x ρ v log) (σ.midway u n c x ρ' v' (eventOf c n m ++ log)) := by
  refine .move u n c m (Frame.midway ..) member (fun r old other => ?_) ?_ ?_ rfl rfl
  · rw [Queue.midway_view_other _ _ _ _ _ _ _ _ (Or.inr other)]
    exact out r old
  · simpa only [Queue.midway_ring, Queue.midway_view] using move
  · simpa only [Queue.midway_phase] using acts

end Midway

/-- Linking a ring that already holds the caller's item under ticket `0` is
linking an empty ring and enqueuing into it. -/
theorem Step.solo {u : T} {r n c : ℕ} {rest : List ℕ} {x : V} (frame : Frame u none σ σ')
    (newest : rings σ.log = r :: rest) (closed : (σ.ring r).closed = true)
    (new : n ∉ rings σ.log) (inEnq : σ.phase u = .enq c x) (done : σ'.phase u = .enqDone c)
    (solo : σ'.ring n = soloRing x) (outN : ∀ w, σ'.view w n = .out)
    (outU : ∀ r' ∈ rings σ.log, σ.view u r' = .out) (callsSame : σ'.calls = σ.calls)
    (log : σ'.log = .enqItem c n 0 x :: .enqDraw c n 0 :: .link r n :: σ.log) :
    Relation.ReflTransGen (Step size) σ σ' := by
  classical
  have outU' : ∀ r', r' ∈ n :: rings σ.log → σ'.view u r' = .out := by
    intro r' member
    rcases List.mem_cons.mp member with rfl | old
    · exact outN u
    · rw [frame.view u r' old (Or.inr nofun), outU r' old]
  have apart : ∀ r' ∈ rings σ.log, r' ≠ n := fun r' old eq => new (eq ▸ old)
  let linked : List (Event V) := .link r n :: σ.log
  let ρ : CellRing V := { (CellRing.start : CellRing V) with tail := 1 }
  have link : Step size σ (σ'.midway u n c x CellRing.start .out linked) := by
    refine .link u r n rest ⟨fun r' old _ => ?_, fun w r' old _ => ?_, fun w other => ?_⟩
      newest closed new (Queue.midway_ring ..) (fun w => ?_) ?_ callsSame rfl
    · rw [Queue.midway_ring_other _ _ _ _ _ _ _ _ (apart r' old)]
      exact frame.ring r' old nofun
    · rw [Queue.midway_view_other _ _ _ _ _ _ _ _ (Or.inr (apart r' old))]
      exact frame.view w r' old (Or.inr nofun)
    · rw [Queue.midway_phase_other _ _ _ _ _ _ _ _ other]
      exact frame.phase w other
    · by_cases isU : w = u
      · subst isU
        simp
      · rw [Queue.midway_view_other _ _ _ _ _ _ _ _ (Or.inl isU)]
        exact outN w
    · rw [Queue.midway_phase, inEnq]
  have draw := Step.midway size σ' u n c x _ ρ _ _ linked List.mem_cons_self outU'
    (Move.drawTail (ρ := CellRing.start) rfl) Acts.drew
  have lookMove : Move size ρ (.enq 0 .start) none _ _ := Move.enqLook
  have look := Step.midway size σ' u n c x ρ ρ _ _ (.enqDraw c n 0 :: linked)
    List.mem_cons_self outU' lookMove Acts.quiet
  have cellZero : ρ.cell (0 % size) = ⟨0, false, none⟩ := by simp [ρ, CellRing.start]
  rw [cellZero] at look
  have ready := Step.midway size σ' u n c x ρ ρ _ _ (.enqDraw c n 0 :: linked)
    List.mem_cons_self outU' (Move.enqReady (t := 0) (i := 0) le_rfl) Acts.quiet
  have put : Step size (σ'.midway u n c x ρ (.enq 0 (.ready 0 false)) (.enqDraw c n 0 :: linked))
      σ' := by
    refine .move u n c (some (.put 0 x)) ⟨fun r' _ other => ?_, fun w r' _ other => ?_,
      fun w other => ?_⟩ List.mem_cons_self (fun r' member other => ?_) ?_ ?_ rfl log
    · exact (Queue.midway_ring_other _ _ _ _ _ _ _ _ fun eq : r' = n => other (by rw [eq])).symm
    · exact (Queue.midway_view_other _ _ _ _ _ _ _ _
        (other.imp_right fun apart eq => apart (eq ▸ rfl))).symm
    · exact (Queue.midway_phase_other _ _ _ _ _ _ _ _ other).symm
    · rw [Queue.midway_view_other _ _ _ _ _ _ _ _ (Or.inr other)]
      exact outU' r' member
    · have step : Move size _ _ _ _ _ := Move.put (t := 0) x cellZero
      simpa [ρ, CellRing.start, CellRing.setCell, soloRing, outN u, solo] using step
    · rw [Queue.midway_phase, done]
      exact Acts.put
  exact .tail (.tail (.tail (.tail (.single link) draw) look) ready) put

/-! ## The empty queue -/

theorem Queue.Inv.init {σ : Queue T V} (log : σ.log = []) (ring : σ.ring 0 = CellRing.start)
    (out : ∀ u, σ.view u 0 = .out) (idle : ∀ u, σ.phase u = .idle) : σ.Inv size := by
  have onlyZero : ∀ r ∈ rings σ.log, r = 0 := by
    intro r member
    rw [log] at member
    exact List.mem_singleton.mp member
  have none_ : ∀ e : Event V, e ∉ σ.log := by
    intro e
    rw [log]
    exact List.not_mem_nil
  refine
    { calls := ?_
      distinct := by rw [log]; simp [rings]
      ring := ?_
      about := fun e member => absurd member (none_ e)
      closed := ?_
      enq_held := ?_
      deq_held := ?_
      draw_unique := fun c c' r t member => absurd member (none_ _)
      item_draw := fun c r t x member => absurd member (none_ _)
      deqDraw_lt := fun c r h member => absurd member (none_ _)
      deqDraw_unique := fun c c' r h member => absurd member (none_ _)
      take_draw := fun c r h x member => absurd member (none_ _)
      take_stored := fun c r h x member => absurd member (none_ _)
      order := fun c r t x c' r' t' older => absurd older.mem_old (none_ _) }
  · refine
      { nodup := by rw [log]; exact List.nodup_nil
        call_lt := fun e member => absurd member (none_ e)
        phase_lt := fun u c call => by rw [idle u] at call; cases call
        phase_unique := fun u w c call => by rw [idle u] at call; cases call
        phase_ok := fun u => by rw [idle u]; trivial
        call_unique := fun c x y member => absurd member (none_ _)
        item_unique := fun c r t x r' t' x' member => absurd member (none_ _)
        item_call := fun c r t x member => absurd member (none_ _)
        ret_item := fun c member => absurd member (none_ _)
        draw_call := fun c r t member => absurd member (none_ _)
        take_unique := fun c r h x r' h' x' member => absurd member (none_ _)
        take_returned := fun c r h x member => absurd member (none_ _)
        take_pending := fun c r h x member => absurd member (none_ _) }
  · intro r member
    cases onlyZero r member
    refine Config.Inv.idle ?_ ?_ out
    · show RingInv size (σ.ring 0) (ticketsOf σ.log 0)
      have tickets : ticketsOf σ.log 0 = Tickets.start := by
        rw [log]
        simp [ticketsOf, Tickets.start]
      rw [ring, tickets]
      exact ringInv_start
    · show (σ.ring 0).head = 0
      rw [ring]
      rfl
  · intro r r' older
    rw [log] at older
    simp [rings, Older] at older
  · intro u r member t held
    cases onlyZero r member
    rw [out u] at held
    cases held
  · intro u r member h held
    cases onlyZero r member
    rw [out u] at held
    cases held

end Queue

end Elcrq.Concurrent.RingList
