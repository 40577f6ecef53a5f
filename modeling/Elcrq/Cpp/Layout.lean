import Elcrq.Cpp.Steps
import Mathlib.Data.List.InsertIdx

/-! # The nodes of `LCRQueue.hpp` in memory

`Exec.heap` reads a linked list under hazard pointers off the machine's state.
`Layout` says that this list keeps its invariant and what ties it to memory:
pointers in use lead to the node they were made for, and `next` fields say what the
history of links says.  It holds in every run, whatever the tickets are. -/

set_option autoImplicit false

namespace Elcrq.Cpp

open Concurrent Concurrent.TicketRing Concurrent.RingList Concurrent.Hazard

section History

variable {V : Type}

def successor : List (Event V) → ℕ → Option ℕ
  | [], _ => none
  | .link r m :: rest, i => if i = r then some m else successor rest i
  | _ :: rest, i => successor rest i

theorem same_links {events : List (Event V)} (unlinked : ∀ r m, .link r m ∉ events)
    (log : List (Event V)) :
    rings (events ++ log) = rings log ∧ successor (events ++ log) = successor log := by
  induction events with
  | nil => exact ⟨rfl, rfl⟩
  | cons event rest ih =>
      have later := ih fun r m member => unlinked r m (List.mem_cons_of_mem _ member)
      cases event with
      | link r m => exact absurd List.mem_cons_self (unlinked r m)
      | _ => exact later

end History

section Reading

variable {n : ℕ} {A V : Type}

def Exec.heap (e : Exec n A V) : Heap n A where
  addr := e.st.addr
  made := e.st.made
  next := successor e.log
  chain := rings e.log
  head := e.st.nodeAt e.st.head
  tail := e.st.nodeAt e.st.tail
  slot := e.st.hp
  task := fun p => (e.st.pc p).task n e.st.nodeAt
  own := fun p => (e.st.pc p).own.map e.st.nodeAt
  retired := fun p => (e.st.retiredList p).map e.st.nodeAt
  mem := e.mem

def Pc.Filled (q : RingQueue A (Option V)) : Pc A V → Prop
  | .soloVal _ _ _ => q.tail = 1
  | .soloIdx f _ _ | .enqLink f _ _ => q.tail = 1 ∧ (q.array 0).val = some f.item
  | _ => True

/-- The pointers whose nodes must not be destroyed. -/
def Exec.Tracked (e : Exec n A V) (a : A) : Prop :=
  a = e.st.head ∨ a = e.st.tail ∨ (∃ p, a ∈ (e.st.pc p).pointers) ∨ ∃ p, a ∈ e.st.retiredList p

structure Layout (e : Exec n A V) : Prop where
  heap : e.heap.Inv
  occupied : ∀ i, e.heap.Alive i →
    e.st.nodeAt (e.st.addr i) = i ∧ e.st.live (e.st.addr i) = true
  tracked : ∀ a, e.Tracked a → e.st.addr (e.st.nodeAt a) = a
  next : ∀ i ∈ rings e.log, (e.st.node i).next = (successor e.log i).map e.st.addr
  lnext : ∀ p a m, (e.st.pc p).guarded = some a → (e.st.pc p).lnext = some m →
    (e.st.node (e.st.nodeAt a)).next = some m
  fresh : ∀ p m, (e.st.pc p).own = some m → Unlinked none (e.st.node (e.st.nodeAt m)) ∧
    (e.st.pc p).Filled (e.st.node (e.st.nodeAt m))
  slot : ∀ p, (e.st.pc p).Local n (e.st.hp p)

variable {e e' : Exec n A V} {p : Fin n} {a : A}

theorem Pc.mem_pointers_of_guarded {pc : Pc A V} (guarded : pc.guarded = some a) :
    a ∈ pc.pointers := by
  cases pc <;> cases guarded <;> exact List.mem_append_left _ (List.mem_singleton_self _)

theorem Pc.mem_pointers_of_own {pc : Pc A V} (own : pc.own = some a) : a ∈ pc.pointers := by
  cases pc <;> cases own <;> exact List.mem_append_right _ (List.mem_singleton_self _)

theorem Pc.pointers_cases {pc : Pc A V} (member : a ∈ pc.pointers) :
    pc.guarded = some a ∨ pc.own = some a ∨
      ∃ iret tid, ∀ nodeAt, pc.task n nodeAt = .scan (nodeAt a) iret tid := by
  cases pc with
  | scan c ptr iret tid =>
      rw [List.mem_singleton.mp member]
      exact Or.inr (Or.inr ⟨iret, tid, fun _ => rfl⟩)
  | destroy c ptr iret =>
      rw [List.mem_singleton.mp member]
      exact Or.inr (Or.inr ⟨iret, n, fun _ => rfl⟩)
  | _ =>
      rcases List.mem_append.mp member with guarded | own
      · exact Or.inl (Option.mem_toList.mp guarded)
      · exact Or.inr (Or.inl (Option.mem_toList.mp own))

theorem Pc.task_congr {pc : Pc A V} {f g : A → ℕ} (same : ∀ b ∈ pc.pointers, f b = g b) :
    pc.task n f = pc.task n g := by
  cases pc with
  | enqAdvance f l m => exact congrArg Task.linked (same l (Pc.mem_pointers_of_guarded rfl))
  | scan c ptr iret tid =>
      exact congrArg (Task.scan · iret tid) (same ptr (List.mem_singleton_self _))
  | destroy c ptr iret =>
      exact congrArg (Task.scan · iret n) (same ptr (List.mem_singleton_self _))
  | _ =>
      first
      | rfl
      | exact congrArg Task.onTail (same _ (Pc.mem_pointers_of_guarded rfl))
      | exact congrArg Task.onHead (same _ (Pc.mem_pointers_of_guarded rfl))

theorem Exec.heap_task {pc : Pc A V} (here : e.st.pc p = pc) :
    e.heap.task p = pc.task n e.st.nodeAt := congrArg (Pc.task n e.st.nodeAt) here

theorem Exec.heap_own (own : (e.st.pc p).own = some a) : e.heap.own p = some (e.st.nodeAt a) :=
  congrArg (Option.map e.st.nodeAt) own

theorem Layout.guarded (layout : Layout e) (guarded : (e.st.pc p).guarded = some a) :
    e.st.hp p = some (e.st.addr (e.st.nodeAt a)) ∧ .destroy (e.st.nodeAt a) ∉ e.mem ∧
      e.st.nodeAt a ∈ rings e.log := by
  refine layout.heap.guarded p (e.st.nodeAt a) ?_
  show ((e.st.pc p).task n e.st.nodeAt).guard = _
  rw [Pc.guard_task, guarded]
  rfl

theorem Layout.tracked_alive (layout : Layout e) (tracked : e.Tracked a) :
    e.heap.Alive (e.st.nodeAt a) := by
  have retired : ∀ p, e.st.nodeAt a ∈ e.heap.retired p → e.heap.Alive (e.st.nodeAt a) :=
    fun p member => ⟨layout.heap.retired_lt member, (layout.heap.retired p _ member).1⟩
  rcases tracked with rfl | rfl | ⟨p, member⟩ | ⟨p, member⟩
  · exact layout.heap.head_alive
  · exact layout.heap.tail_alive
  · rcases Pc.pointers_cases (n := n) member with guarded | own | ⟨iret, tid, task⟩
    · obtain ⟨_, notGone, inChain⟩ := layout.guarded guarded
      exact ⟨layout.heap.chain_lt _ inChain, notGone⟩
    · exact (layout.heap.own p _ (Exec.heap_own own)).1
    · exact retired p (layout.heap.scans p _ iret tid (task _)).latest
  · exact retired p (List.mem_map_of_mem member)

theorem Layout.tracked_live (layout : Layout e) (tracked : e.Tracked a) : e.st.live a = true := by
  have live := (layout.occupied _ (layout.tracked_alive tracked)).2
  rwa [layout.tracked a tracked] at live

theorem Exec.tracked_of_guarded (guarded : (e.st.pc p).guarded = some a) : e.Tracked a :=
  Or.inr (Or.inr (Or.inl ⟨p, Pc.mem_pointers_of_guarded guarded⟩))

theorem Exec.tracked_of_own (own : (e.st.pc p).own = some a) : e.Tracked a :=
  Or.inr (Or.inr (Or.inl ⟨p, Pc.mem_pointers_of_own own⟩))

theorem Exec.tracked_of_retired (member : a ∈ e.st.retiredList p) : e.Tracked a :=
  Or.inr (Or.inr (Or.inr ⟨p, member⟩))

theorem Layout.tracked_inj (layout : Layout e) {b : A} (first : e.Tracked a) (second : e.Tracked b)
    (same : e.st.nodeAt a = e.st.nodeAt b) : a = b := by
  rw [← layout.tracked a first, ← layout.tracked b second, same]

/-! ## Steps that construct no node -/

theorem Layout.steady (layout : Layout e) (heap : e'.heap.Inv)
    (nodeAt : e'.st.nodeAt = e.st.nodeAt) (addr : e'.st.addr = e.st.addr)
    (occupied : ∀ i, e'.heap.Alive i →
      e.heap.Alive i ∧ e'.st.live (e.st.addr i) = e.st.live (e.st.addr i))
    (tracked : ∀ a, e'.Tracked a → e.Tracked a ∨ e.st.addr (e.st.nodeAt a) = a)
    (next : ∀ i ∈ rings e'.log, (e'.st.node i).next = (successor e'.log i).map e.st.addr)
    (others : ∀ w, w ≠ p → e'.st.pc w = e.st.pc w ∧ e'.st.hp w = e.st.hp w)
    (keep : ∀ i m, i ∈ rings e.log → (e.st.node i).next = some m → (e'.st.node i).next = some m)
    (hidden : ∀ w m, w ≠ p → (e.st.pc w).own = some m →
      e'.st.node (e.st.nodeAt m) = e.st.node (e.st.nodeAt m))
    (lnext : ∀ a m, (e'.st.pc p).guarded = some a → (e'.st.pc p).lnext = some m →
      (e'.st.node (e.st.nodeAt a)).next = some m)
    (fresh : ∀ m, (e'.st.pc p).own = some m → Unlinked none (e'.st.node (e.st.nodeAt m)) ∧
      (e'.st.pc p).Filled (e'.st.node (e.st.nodeAt m)))
    (slot : (e'.st.pc p).Local n (e'.st.hp p)) : Layout e' := by
  refine
    { heap := heap
      occupied := fun i alive => ?_
      tracked := fun a isTracked => ?_
      next := fun i member => by rw [addr]; exact next i member
      lnext := fun w a m guarded has => ?_
      fresh := fun w m own => ?_
      slot := fun w => ?_ }
  · obtain ⟨before, live⟩ := occupied i alive
    rw [nodeAt, addr, live]
    exact layout.occupied i before
  · rw [nodeAt, addr]
    exact (tracked a isTracked).elim (layout.tracked a) id
  · rw [nodeAt]
    by_cases same : w = p
    · rw [same] at guarded has
      exact lnext a m guarded has
    · rw [(others w same).1] at guarded has
      exact keep _ m (layout.guarded guarded).2.2 (layout.lnext w a m guarded has)
  · rw [nodeAt]
    by_cases same : w = p
    · rw [same] at own ⊢
      exact fresh m own
    · rw [(others w same).1] at own ⊢
      rw [hidden w m same own]
      exact layout.fresh w m own
  · by_cases same : w = p
    · rw [same]
      exact slot
    · rw [(others w same).1, (others w same).2]
      exact layout.slot w

theorem Exec.Tracked.from {Q : A → Prop} (tracked : e'.Tracked a)
    (head : e.Tracked e'.st.head ∨ Q e'.st.head) (tail : e.Tracked e'.st.tail ∨ Q e'.st.tail)
    (others : ∀ w, w ≠ p → e'.st.pc w = e.st.pc w ∧ e'.st.retiredList w = e.st.retiredList w)
    (pointers : ∀ b ∈ (e'.st.pc p).pointers, e.Tracked b ∨ Q b)
    (retired : ∀ b ∈ e'.st.retiredList p, e.Tracked b ∨ Q b) : e.Tracked a ∨ Q a := by
  rcases tracked with rfl | rfl | ⟨w, member⟩ | ⟨w, member⟩
  · exact head
  · exact tail
  · by_cases same : w = p
    · exact pointers a (same ▸ member)
    · rw [(others w same).1] at member
      exact Or.inl (Or.inr (Or.inr (Or.inl ⟨w, member⟩)))
  · by_cases same : w = p
    · exact retired a (same ▸ member)
    · rw [(others w same).2] at member
      exact Or.inl (Or.inr (Or.inr (Or.inr ⟨w, member⟩)))

end Reading

section Heaps

variable {n : ℕ} {A V : Type} {s : State n A V} {log : List (Event V)} {mem : List MemEvent}
  {p : Fin n} {pc : Pc A V}

theorem goto_task {nodeAt : A → ℕ} {t : Task} (task : pc.task n nodeAt = t) :
    (fun q => ((s.goto p pc).pc q).task n nodeAt) =
      Function.update (fun q => (s.pc q).task n nodeAt) p t := by
  rw [← task]
  exact funext fun q => Function.apply_update (fun _ pc => Pc.task n nodeAt pc) s.pc p pc q

theorem goto_own {nodeAt : A → ℕ} {i : Option ℕ} (own : pc.own.map nodeAt = i) :
    (fun q => ((s.goto p pc).pc q).own.map nodeAt) =
      Function.update (fun q => (s.pc q).own.map nodeAt) p i := by
  rw [← own]
  exact funext fun q => Function.apply_update (fun _ pc => (Pc.own pc).map nodeAt) s.pc p pc q

theorem goto_task_same {nodeAt : A → ℕ} (task : pc.task n nodeAt = (s.pc p).task n nodeAt) :
    (fun q => ((s.goto p pc).pc q).task n nodeAt) = fun q => (s.pc q).task n nodeAt := by
  rw [goto_task task]
  exact Function.update_eq_self ..

theorem goto_own_same {nodeAt : A → ℕ} (own : pc.own = (s.pc p).own) :
    (fun q => ((s.goto p pc).pc q).own.map nodeAt) = fun q => (s.pc q).own.map nodeAt := by
  rw [goto_own (congrArg (Option.map nodeAt) own)]
  exact Function.update_eq_self ..

theorem Exec.heap_goto_task (own : pc.own = (s.pc p).own) :
    Exec.heap ⟨s.goto p pc, log, mem⟩ =
      (Exec.heap ⟨s, log, mem⟩).setTask p (pc.task n s.nodeAt) :=
  Heap.ext rfl rfl rfl rfl rfl rfl rfl (goto_task rfl) (goto_own_same own) rfl rfl

theorem Exec.heap_goto_same (own : pc.own = (s.pc p).own)
    (task : pc.task n s.nodeAt = (s.pc p).task n s.nodeAt) :
    Exec.heap ⟨s.goto p pc, log, mem⟩ = Exec.heap ⟨s, log, mem⟩ :=
  Heap.ext rfl rfl rfl rfl rfl rfl rfl (goto_task_same task) (goto_own_same own) rfl rfl

end Heaps

section Steps

variable {n : ℕ} {A V : Type} {e e' : Exec n A V} {p : Fin n} {a : A}

theorem Layout.control {s : State n A V} {pc : Pc A V} {log : List (Event V)}
    {mem : List MemEvent} (layout : Layout e) (same : SameNodes e.st s) (pcs : s.pc = e.st.pc)
    (links : rings log = rings e.log ∧ successor log = successor e.log)
    (heap : Exec.heap ⟨s.goto p pc, log, mem⟩ = e.heap ∨
      Hazard.Step e.heap (Exec.heap ⟨s.goto p pc, log, mem⟩))
    (occupied : ∀ i, i < e.st.made → .destroy i ∉ mem →
      e.heap.Alive i ∧ s.live (e.st.addr i) = e.st.live (e.st.addr i))
    (head : s.head = e.st.head ∨ e.st.addr (e.st.nodeAt s.head) = s.head)
    (tail : s.tail = e.st.tail ∨ e.st.addr (e.st.nodeAt s.tail) = s.tail)
    (lists : ∀ w, w ≠ p → s.retiredList w = e.st.retiredList w)
    (retired : ∀ b ∈ s.retiredList p, e.Tracked b)
    (slots : ∀ w, w ≠ p → s.hp w = e.st.hp w)
    (pointers : ∀ b ∈ pc.pointers, e.Tracked b) (noNext : pc.lnext = none)
    (own : ∀ m, pc.own = some m → (e.st.pc p).own = some m) (filled : ∀ q, pc.Filled q)
    (slot : pc.Local n (s.hp p)) : Layout ⟨s.goto p pc, log, mem⟩ := by
  have self : (s.goto p pc).pc p = pc := State.goto_pc ..
  have others : ∀ w, w ≠ p → (s.goto p pc).pc w = e.st.pc w := fun w other => by
    rw [← pcs]
    exact Function.update_of_ne other ..
  have heap' : (Exec.heap ⟨s.goto p pc, log, mem⟩).Inv := by
    rcases heap with same | step
    · rw [same]
      exact layout.heap
    · exact step.inv layout.heap
  refine layout.steady (p := p) heap' same.nodeAt same.addr (fun i alive => ?_)
    (fun a tracked => ?_) (fun i member => ?_) (fun w other => ⟨others w other, slots w other⟩)
    (fun i m _ link => ?_) (fun w m _ _ => ?_) (fun a m _ has => ?_) (fun m isOwn => ?_) ?_
  · exact occupied i (same.made ▸ alive.1) alive.2
  · exact tracked.from (Q := fun b => e.st.addr (e.st.nodeAt b) = b) (p := p)
      (head.imp_left Or.inl) (tail.imp_left fun same => Or.inr (Or.inl same))
      (fun w other => ⟨others w other, lists w other⟩)
      (fun b member => Or.inl (pointers b (self ▸ member)))
      fun b member => Or.inl (retired b member)
  · have member : i ∈ rings e.log := links.1 ▸ member
    show (s.node i).next = (successor log i).map e.st.addr
    rw [same.node, links.2]
    exact layout.next i member
  · show (s.node i).next = some m
    rw [same.node]
    exact link
  · show s.node _ = _
    rw [same.node]
  · have has : ((s.goto p pc).pc p).lnext = some m := has
    rw [self, noNext] at has
    cases has
  · have isOwn : ((s.goto p pc).pc p).own = some m := isOwn
    rw [self] at isOwn
    show Unlinked none (s.node _) ∧ ((s.goto p pc).pc p).Filled _
    rw [self, same.node]
    exact ⟨(layout.fresh p m (own m isOwn)).1, filled _⟩
  · show ((s.goto p pc).pc p).Local n (s.hp p)
    rw [self]
    exact slot

theorem Layout.goto {pc : Pc A V} (layout : Layout e)
    (heap : Exec.heap ⟨e.st.goto p pc, e.log, e.mem⟩ = e.heap ∨
      Hazard.Step e.heap (Exec.heap ⟨e.st.goto p pc, e.log, e.mem⟩))
    (pointers : ∀ a ∈ pc.pointers, e.Tracked a) (noNext : pc.lnext = none)
    (own : ∀ m, pc.own = some m → (e.st.pc p).own = some m) (filled : ∀ q, pc.Filled q)
    (slot : pc.Local n (e.st.hp p)) : Layout ⟨e.st.goto p pc, e.log, e.mem⟩ :=
  layout.control ⟨rfl, rfl, rfl, rfl⟩ rfl ⟨rfl, rfl⟩ heap (fun _ lt alive => ⟨⟨lt, alive⟩, rfl⟩)
    (Or.inl rfl) (Or.inl rfl) (fun _ _ => rfl) (fun _ => Exec.tracked_of_retired) (fun _ _ => rfl)
    pointers noNext own filled slot

theorem Layout.rest {pc pc' : Pc A V} (layout : Layout e) (here : e.st.pc p = pc)
    (free : pc.task n e.st.nodeAt = .free) (free' : pc'.task n e.st.nodeAt = .free)
    (noOwn : pc.own = none) (noOwn' : pc'.own = none) (pointers : pc'.pointers = [])
    (noNext : pc'.lnext = none) (filled : ∀ q, pc'.Filled q) (slot : pc'.Local n (e.st.hp p)) :
    Layout ⟨e.st.goto p pc', e.log, e.mem⟩ := by
  refine layout.goto (Or.inl (Exec.heap_goto_same ?_ ?_)) ?_ noNext ?_ filled slot
  · rw [here, noOwn, noOwn']
  · rw [here, free, free']
  · rw [pointers]
    nofun
  · rw [noOwn']
    nofun

theorem Layout.publish {pc pc' : Pc A V} {log : List (Event V)} (v : Option A) (layout : Layout e)
    (here : e.st.pc p = pc) (links : rings log = rings e.log ∧ successor log = successor e.log)
    (free : pc.task n e.st.nodeAt = .free) (free' : pc'.task n e.st.nodeAt = .free)
    (noOwn : pc.own = none) (noOwn' : pc'.own = none) (pointers : pc'.pointers = [])
    (noNext : pc'.lnext = none) (filled : ∀ q, pc'.Filled q) (slot : pc'.Local n v) :
    Layout ⟨(e.st.setHp p v).goto p pc', log, e.mem⟩ := by
  refine layout.control (s := e.st.setHp p v) ⟨rfl, rfl, rfl, rfl⟩ rfl links (Or.inr ?_)
    (fun i lt alive => ⟨⟨lt, alive⟩, rfl⟩) (Or.inl rfl) (Or.inl rfl) (fun _ _ => rfl)
    (fun b => Exec.tracked_of_retired)
    (fun w other => Function.update_of_ne (Fin.val_ne_of_ne other) ..) ?_ noNext ?_ filled ?_
  · refine .publish p v ((Exec.heap_task here).trans free) ?_
    refine Heap.ext rfl rfl links.2 links.1 rfl rfl rfl (goto_task_same ?_) (goto_own_same ?_) rfl rfl
    · show pc'.task n e.st.nodeAt = (e.st.pc p).task n e.st.nodeAt
      rw [here, free, free']
    · show pc'.own = (e.st.pc p).own
      rw [here, noOwn, noOwn']
  · rw [pointers]
    nofun
  · rw [noOwn']
    nofun
  · rw [show (e.st.setHp p v).hp p = v from Function.update_self ..]
    exact slot

theorem Layout.call {pc : Pc A V} {event : Event V} {calls : ℕ} (layout : Layout e)
    (idle : e.st.pc p = .idle)
    (links : rings (event :: e.log) = rings e.log ∧
      successor (event :: e.log) = successor e.log)
    (rest : (∃ f, pc = .enqTail f) ∨ ∃ c, pc = .deqHead c) :
    Layout ⟨{ e.st with calls := calls }.goto p pc, event :: e.log, e.mem⟩ := by
  obtain ⟨noOwn, free, pointers, noNext, filled, slot⟩ : pc.own = none ∧
      pc.task n e.st.nodeAt = .free ∧ pc.pointers = [] ∧ pc.lnext = none ∧ (∀ q, pc.Filled q) ∧
      pc.Local n (e.st.hp p) := by
    rcases rest with ⟨f, rfl⟩ | ⟨c, rfl⟩ <;>
      exact ⟨rfl, rfl, rfl, rfl, fun _ => trivial, trivial⟩
  refine layout.control ⟨rfl, rfl, rfl, rfl⟩ rfl links (Or.inl ?_)
    (fun i lt alive => ⟨⟨lt, alive⟩, rfl⟩) (Or.inl rfl) (Or.inl rfl) (fun _ _ => rfl)
    (fun b => Exec.tracked_of_retired) (fun _ _ => rfl) ?_ noNext ?_ filled slot
  · refine Heap.ext rfl rfl links.2 links.1 rfl rfl rfl (goto_task_same ?_) (goto_own_same ?_) rfl rfl
    · show pc.task n e.st.nodeAt = (e.st.pc p).task n e.st.nodeAt
      rw [idle, free]
      rfl
    · show pc.own = (e.st.pc p).own
      rw [idle, noOwn]
      rfl
  · rw [pointers]
    nofun
  · rw [noOwn]
    nofun

theorem Layout.successor_of_lnext {l m : A} (layout : Layout e)
    (guarded : (e.st.pc p).guarded = some l) (lnext : (e.st.pc p).lnext = some m) :
    ∃ j, successor e.log (e.st.nodeAt l) = some j ∧ e.st.addr j = m := by
  have link := layout.lnext p l m guarded lnext
  rw [layout.next _ (layout.guarded guarded).2.2] at link
  exact Option.map_eq_some_iff.mp link

section Retire

variable {c iret tid : ℕ} {ptr obj l m : A}

theorem scanFrom_task (nodeAt : A → ℕ) (size : ℕ) :
    (scanFrom c ptr iret size : Pc A V).task n nodeAt = .scanFrom (nodeAt ptr) iret size := by
  unfold scanFrom Task.scanFrom
  split <;> rfl

theorem scanFrom_pointers {size : ℕ} {b : A}
    (member : b ∈ (scanFrom c ptr iret size : Pc A V).pointers) : b = ptr := by
  unfold scanFrom at member
  split at member
  · exact List.mem_singleton.mp member
  · cases member

theorem scanFrom_plain (c : ℕ) (ptr : A) (iret size : ℕ) (pos : 0 < n) (slot : Option A) :
    (scanFrom c ptr iret size : Pc A V).own = none ∧
      (scanFrom c ptr iret size : Pc A V).lnext = none ∧
      (∀ q, (scanFrom c ptr iret size : Pc A V).Filled q) ∧
      (scanFrom c ptr iret size : Pc A V).Local n slot := by
  unfold scanFrom
  split
  · exact ⟨rfl, rfl, fun _ => trivial, pos⟩
  · exact ⟨rfl, rfl, fun _ => trivial, trivial⟩

/-- `head.compare_exchange_strong` succeeds and the old node is retired. -/
theorem Layout.unlink (layout : Layout e) (here : e.st.pc p = .deqSwing c l m)
    (isHead : e.st.head = l) :
    Layout ⟨{ e.st with
      head := m
      retiredList := Function.update e.st.retiredList p (e.st.retiredList p ++ [l]) }.goto p
        (scanFrom c l 0 (e.st.retiredList p ++ [l]).length), e.log,
      .retire (e.st.nodeAt l) :: e.mem⟩ := by
  have guarded : (e.st.pc p).guarded = some l := by rw [here]; rfl
  obtain ⟨j, link, isAddr⟩ := layout.successor_of_lnext (m := m) guarded (by rw [here]; rfl)
  have headNode : e.heap.head = e.st.nodeAt l := congrArg e.st.nodeAt isHead
  have alive := layout.heap.next_alive (i := e.st.nodeAt l) link (Or.inl headNode.symm)
  have arrives : e.st.nodeAt m = j := by
    rw [← isAddr]
    exact (layout.occupied j alive).1
  obtain ⟨noOwn, noNext, filled, slot⟩ :=
    scanFrom_plain (V := V) c l 0 (e.st.retiredList p ++ [l]).length p.pos (e.st.hp p)
  refine layout.control ⟨rfl, rfl, rfl, rfl⟩ rfl ⟨rfl, rfl⟩ (Or.inr ?_) (fun i lt notGone => ?_)
    (Or.inr ?_) (Or.inl rfl) (fun w other => Function.update_of_ne other ..) (fun b member => ?_)
    (fun _ _ => rfl) (fun b member => ?_) noNext (fun k isOwn => ?_) filled slot
  · refine .unlink p j ?_ (headNode ▸ link) ?_
    · rw [headNode]
      exact Exec.heap_task here
    · have scans : (scanFrom c l 0 (e.st.retiredList p ++ [l]).length : Pc A V).task n
          e.st.nodeAt = .scan (e.st.nodeAt l) 0 0 := by
        rw [scanFrom_task, Task.scanFrom, if_pos (by simp)]
      rw [headNode]
      refine Heap.ext rfl rfl rfl rfl arrives rfl rfl (goto_task scans) (goto_own_same ?_)
        (funext fun q => ?_) rfl
      · show _ = (e.st.pc p).own
        rw [noOwn, here]
        rfl
      · refine (Function.apply_update (fun _ => List.map e.st.nodeAt) ..).trans ?_
        rw [List.map_append]
        rfl
  · exact ⟨⟨lt, fun gone => notGone (List.mem_cons_of_mem _ gone)⟩, rfl⟩
  · show e.st.addr (e.st.nodeAt m) = m
    rw [arrives, isAddr]
  · have member : b ∈ Function.update e.st.retiredList p (e.st.retiredList p ++ [l]) p := member
    rw [Function.update_self] at member
    rcases List.mem_append.mp member with old | new
    · exact Exec.tracked_of_retired old
    · rw [List.mem_singleton.mp new]
      exact Exec.tracked_of_guarded guarded
  · rw [scanFrom_pointers member]
    exact Exec.tracked_of_guarded guarded
  · rw [noOwn] at isOwn
    cases isOwn

end Retire

variable [DecidableEq A]

theorem Layout.casTail {pc : Pc A V} {l m : A} (layout : Layout e)
    (guarded : (e.st.pc p).guarded = some l) (lnext : (e.st.pc p).lnext = some m)
    (fromTail : ((e.st.pc p).task n e.st.nodeAt).fromTail = some (e.st.nodeAt l))
    (noOwn : (e.st.pc p).own = none) (noOwn' : pc.own = none)
    (free : pc.task n e.st.nodeAt = .free) (pointers : pc.pointers = []) (noNext : pc.lnext = none)
    (filled : ∀ q, pc.Filled q) (slot : ∀ v, pc.Local n v) :
    Layout ⟨(e.st.casTail l m).goto p pc, e.log, e.mem⟩ := by
  obtain ⟨j, link, isAddr⟩ := layout.successor_of_lnext guarded lnext
  have tailTracked : e.Tracked e.st.tail := Or.inr (Or.inl rfl)
  have sameIff : e.st.tail = l ↔ e.st.nodeAt e.st.tail = e.st.nodeAt l :=
    ⟨fun same => by rw [same], layout.tracked_inj tailTracked (Exec.tracked_of_guarded guarded)⟩
  -- a successful exchange finds the tail where it was, so its successor is not destroyed
  have arrives : e.st.tail = l → e.st.nodeAt m = j := by
    intro isTail
    have alive := layout.heap.next_alive (i := e.st.nodeAt l) link (Or.inr (by rw [← isTail]; rfl))
    rw [← isAddr]
    exact (layout.occupied j alive).1
  refine layout.control (s := e.st.casTail l m) ⟨rfl, rfl, rfl, rfl⟩ rfl ⟨rfl, rfl⟩ (Or.inr ?_)
    (fun i lt alive => ⟨⟨lt, alive⟩, rfl⟩) (Or.inl rfl) ?_ (fun _ _ => rfl)
    (fun b => Exec.tracked_of_retired) (fun _ _ => rfl) (by rw [pointers]; nofun) noNext
    (by rw [noOwn']; nofun) filled (slot _)
  · refine .advance p (e.st.nodeAt l) j fromTail link ?_
    have newTail : e.st.nodeAt (e.st.casTail l m).tail =
        if e.heap.tail = e.st.nodeAt l then j else e.heap.tail := by
      show e.st.nodeAt (if e.st.tail = l then m else e.st.tail) =
        if e.st.nodeAt e.st.tail = e.st.nodeAt l then j else e.st.nodeAt e.st.tail
      split
      next isTail => rw [if_pos (sameIff.mp isTail), arrives isTail]
      next notTail => rw [if_neg fun same => notTail (sameIff.mpr same)]
    rw [Exec.heap_goto_task (s := e.st.casTail l m) (noOwn'.trans noOwn.symm), ← newTail,
      show pc.task n (e.st.casTail l m).nodeAt = .free from free]
    rfl
  · by_cases isTail : e.st.tail = l
    · right
      rw [show (e.st.casTail l m).tail = m from if_pos isTail, arrives isTail, isAddr]
    · exact Or.inl (if_neg isTail)

theorem Layout.occupied_destroy {mem : List MemEvent} {s : State n A V} (layout : Layout e)
    (live : s.live = Function.update e.st.live a false)
    (mem' : mem = .destroy (e.st.nodeAt a) :: e.mem) (i : ℕ) (lt : i < e.st.made)
    (notGone : .destroy i ∉ mem) :
    e.heap.Alive i ∧ s.live (e.st.addr i) = e.st.live (e.st.addr i) := by
  have alive : e.heap.Alive i := by
    refine ⟨lt, fun gone => notGone ?_⟩
    rw [mem']
    exact List.mem_cons_of_mem _ gone
  refine ⟨alive, ?_⟩
  rw [live]
  refine Function.update_of_ne (fun same => notGone ?_) ..
  rw [mem', ← (layout.occupied i alive).1, same]
  exact List.mem_cons_self

theorem Layout.discard {f : EnqFrame V} {m : A} (layout : Layout e)
    (here : e.st.pc p = .enqDestroy f m) :
    Layout ⟨(e.st.destroyPtr m).goto p (.enqTail f), e.log, .destroy (e.st.nodeAt m) :: e.mem⟩ := by
  have own : (e.st.pc p).own = some m := by rw [here]; rfl
  refine layout.control (s := e.st.destroyPtr m) ⟨rfl, rfl, rfl, rfl⟩ rfl ⟨rfl, rfl⟩ (Or.inr ?_)
    (layout.occupied_destroy rfl rfl) (Or.inl rfl) (Or.inl rfl) (fun _ _ => rfl)
    (fun b => Exec.tracked_of_retired) (fun _ _ => rfl) nofun rfl nofun (fun _ => trivial) trivial
  refine .discard p (e.st.nodeAt m) (Exec.heap_own own) ?_
  exact Heap.ext rfl rfl rfl rfl rfl rfl rfl (goto_task_same (Exec.heap_task here).symm)
    (goto_own rfl) rfl rfl

section Scan

variable {c iret tid : ℕ} {ptr obj : A}

omit [DecidableEq A] in
theorem Exec.heap_retired_get (looked : (e.st.retiredList p)[iret]? = some obj) :
    (e.heap.retired p)[iret]? = some (e.st.nodeAt obj) := by
  show ((e.st.retiredList p).map e.st.nodeAt)[iret]? = _
  rw [List.getElem?_map, looked]
  rfl

/-- One comparison in the scan of `retire`. -/
theorem Layout.scan (layout : Layout e) (here : e.st.pc p = .scan c ptr iret tid)
    (looked : (e.st.retiredList p)[iret]? = some obj) :
    Layout ⟨e.st.goto p (scanSlot e.st p c ptr obj iret tid), e.log, e.mem⟩ := by
  have isScan : e.heap.task p = .scan (e.st.nodeAt ptr) iret tid := Exec.heap_task here
  have objExact : e.st.addr (e.st.nodeAt obj) = obj :=
    layout.tracked obj (Exec.tracked_of_retired (List.mem_of_getElem? looked))
  have ptrTracked : e.Tracked ptr := by
    refine Or.inr (Or.inr (Or.inl ⟨p, ?_⟩))
    rw [here]
    exact List.mem_singleton_self _
  have noOwn : (e.st.pc p).own = none := by rw [here]; rfl
  have tidLt : tid < n := by
    have slot := layout.slot p
    rwa [here] at slot
  have pass : e.st.hp tid ≠ some obj → ∀ pc' : Pc A V,
      pc'.task n e.st.nodeAt = .scan (e.st.nodeAt ptr) iret (tid + 1) → pc'.own = none →
      Hazard.Step e.heap (Exec.heap ⟨e.st.goto p pc', e.log, e.mem⟩) := by
    intro differs pc' task own
    refine .pass p _ iret tid _ isScan (Exec.heap_retired_get looked) ?_ ?_
    · rw [show e.heap.addr _ = obj from objExact]
      exact differs
    · rw [Exec.heap_goto_task (own.trans noOwn.symm), task]
  unfold scanSlot
  split
  next found =>
    obtain ⟨noOwn', noNext, filled, slot⟩ :=
      scanFrom_plain (V := V) c ptr (iret + 1) (e.st.retiredList p).length p.pos (e.st.hp p)
    refine layout.goto (Or.inr ?_) (fun b member => ?_) noNext
      (fun k isOwn => by rw [noOwn'] at isOwn; cases isOwn) filled slot
    · refine .skip p _ iret tid isScan ?_
      rw [Exec.heap_goto_task (noOwn'.trans noOwn.symm), scanFrom_task,
        show (e.heap.retired p).length = _ from List.length_map ..]
    · rw [scanFrom_pointers member]
      exact ptrTracked
  next differs =>
    have pointers : ∀ b ∈ [ptr], e.Tracked b := fun b member => by
      rw [List.mem_singleton.mp member]
      exact ptrTracked
    split
    next more =>
      exact layout.goto (Or.inr (pass differs _ rfl rfl)) pointers rfl nofun (fun _ => trivial) more
    next last =>
      have done : tid + 1 = n := by omega
      refine layout.goto (Or.inr (pass differs _ ?_ rfl)) pointers rfl nofun (fun _ => trivial)
        trivial
      rw [done]
      rfl

theorem Layout.destroy (layout : Layout e) (here : e.st.pc p = .destroy c ptr iret)
    (looked : (e.st.retiredList p)[iret]? = some obj) :
    Layout ⟨({ e.st with
      retiredList := Function.update e.st.retiredList p ((e.st.retiredList p).eraseIdx iret)
      }.destroyPtr obj).goto p (scanFrom c ptr iret ((e.st.retiredList p).eraseIdx iret).length),
      e.log, .destroy (e.st.nodeAt obj) :: e.mem⟩ := by
  have isScan : e.heap.task p = .scan (e.st.nodeAt ptr) iret n := Exec.heap_task here
  have erased : (e.heap.retired p).eraseIdx iret =
      ((e.st.retiredList p).eraseIdx iret).map e.st.nodeAt := List.eraseIdx_map ..
  obtain ⟨noOwn, noNext, filled, slot⟩ :=
    scanFrom_plain (V := V) c ptr iret ((e.st.retiredList p).eraseIdx iret).length p.pos (e.st.hp p)
  refine layout.control ⟨rfl, rfl, rfl, rfl⟩ rfl ⟨rfl, rfl⟩ (Or.inr ?_)
    (layout.occupied_destroy rfl rfl) (Or.inl rfl) (Or.inl rfl)
    (fun w other => Function.update_of_ne other ..) (fun b member => ?_) (fun _ _ => rfl)
    (fun b member => ?_) noNext (fun k isOwn => by rw [noOwn] at isOwn; cases isOwn) filled slot
  · refine .destroy p _ iret _ isScan (Exec.heap_retired_get looked) ?_
    rw [erased, List.length_map]
    refine Heap.ext rfl rfl rfl rfl rfl rfl rfl (goto_task (scanFrom_task _ _)) (goto_own_same ?_)
      (funext fun q => ?_) rfl
    · show _ = (e.st.pc p).own
      rw [noOwn, here]
      rfl
    · exact Function.apply_update (fun _ => List.map e.st.nodeAt) ..
  · have member : b ∈ Function.update e.st.retiredList p ((e.st.retiredList p).eraseIdx iret) p :=
      member
    rw [Function.update_self] at member
    exact Exec.tracked_of_retired (List.mem_of_mem_eraseIdx member)
  · rw [scanFrom_pointers member]
    refine Or.inr (Or.inr (Or.inl ⟨p, ?_⟩))
    rw [here]
    exact List.mem_singleton_self _

end Scan

/-! ## Accesses to nodes -/

section Accesses

variable {q : RingQueue A (Option V)} {pc : Pc A V} {events : List (Event V)}

omit [DecidableEq A] in
theorem Exec.accessed_tracked {b : A} (pointers : ∀ b ∈ pc.pointers, e.Tracked b)
    (tracked : (e.accessed p a q pc events).Tracked b) : e.Tracked b := by
  have kept : e.Tracked b ∨ False := by
    refine tracked.from (e := e) (Q := fun _ => False) (p := p) (Or.inl (Or.inl rfl))
      (Or.inl (Or.inr (Or.inl rfl))) (fun w other => ⟨Exec.accessed_pc_other other, rfl⟩)
      (fun c member => ?_) fun c member => Or.inl (Or.inr (Or.inr (Or.inr ⟨p, member⟩)))
    rw [Exec.accessed_pc] at member
    exact Or.inl (pointers c member)
  exact kept.resolve_right id

omit [DecidableEq A] in
theorem Layout.own_apart {w : Fin n} {m : A} (layout : Layout e) (own : (e.st.pc w).own = some m)
    {i : ℕ} (member : i ∈ rings e.log) : e.st.nodeAt m ≠ i := by
  rintro rfl
  exact (layout.heap.own w (e.st.nodeAt m) (Exec.heap_own own)).2 member

omit [DecidableEq A] in
/-- An access to the node that a thread guards. -/
theorem Layout.onNode [DecidableEq V] {pow : ℕ} (layout : Layout e)
    (guarded : (e.st.pc p).guarded = some a)
    (access : onNode pow (e.st.nodeAt a) (e.st.node (e.st.nodeAt a)) (e.st.pc p) =
      some (q, pc, events)) : Layout (e.accessed p a q pc events) := by
  have member := (layout.guarded guarded).2.2
  obtain ⟨onward, next, lnext, unlinked⟩ := onNode_leads access
  obtain ⟨noOwn, noOwn', -, slot⟩ := onNode_plain access
  obtain ⟨sameRings, sameSuccessor⟩ := same_links unlinked e.log
  have heap : (e.accessed p a q pc events).heap.Inv := by
    cases onward with
    | keep _ task =>
        rw [show (e.accessed p a q pc events).heap = e.heap from
          Heap.ext rfl rfl sameSuccessor sameRings rfl rfl rfl (goto_task_same (task _ _))
            (goto_own_same (noOwn'.trans noOwn.symm)) rfl rfl]
        exact layout.heap
    | leave _ task =>
        have drop : Hazard.Step e.heap (e.accessed p a q pc events).heap := by
          refine .drop p (e.st.nodeAt a) ?_ (Heap.ext rfl rfl sameSuccessor sameRings rfl rfl rfl
            (goto_task (task _ _)) (goto_own_same (noOwn'.trans noOwn.symm)) rfl rfl)
          show (e.st.pc p).task n e.st.nodeAt = _ ∨ (e.st.pc p).task n e.st.nodeAt = _
          cases here : e.st.pc p <;> rw [here] at guarded access <;> cases guarded <;>
            first | exact Or.inl rfl | exact Or.inr rfl | cases access
        exact drop.inv layout.heap
  have guarded' : ∀ b, pc.guarded = some b → b = a := by
    intro b isGuard
    cases onward with
    | keep same _ => exact Option.some.inj ((isGuard.symm.trans same).trans guarded)
    | leave unguarded _ =>
        rw [unguarded] at isGuard
        cases isGuard
  have nextSame : ∀ i, ((e.accessed p a q pc events).st.node i).next = (e.st.node i).next := by
    intro i
    by_cases here : i = e.st.nodeAt a
    · rw [here, Exec.accessed_node, next]
    · rw [Exec.accessed_node_other here]
  refine layout.steady (p := p) heap rfl rfl (fun i alive => ⟨alive, rfl⟩)
    (fun b tracked => Or.inl (Exec.accessed_tracked (fun c isPointer => ?_) tracked))
    (fun i inRings => ?_) (fun w other => ⟨Exec.accessed_pc_other other, rfl⟩)
    (fun i m _ link => (nextSame i).trans link)
    (fun w m _ own => Exec.accessed_node_other (layout.own_apart own member))
    (fun b m isGuard has => ?_) (fun m isOwn => ?_) (by rw [Exec.accessed_pc]; exact slot _ _)
  · rcases Pc.pointers_cases (n := n) isPointer with isGuard | isOwn | ⟨iret, tid, task⟩
    · rw [guarded' c isGuard]
      exact Exec.tracked_of_guarded guarded
    · rw [noOwn'] at isOwn
      cases isOwn
    · cases onward with
      | keep _ same =>
          have guard := Pc.guard_task n e.st.nodeAt (e.st.pc p)
          rw [← same, task, guarded] at guard
          cases guard
      | leave _ free =>
          have isFree := free n e.st.nodeAt
          rw [task] at isFree
          cases isFree
  · have inRings : i ∈ rings e.log := by
      rwa [show rings (e.accessed p a q pc events).log = rings e.log from sameRings] at inRings
    rw [nextSame, layout.next i inRings, show successor (e.accessed p a q pc events).log =
      successor e.log from sameSuccessor]
  · rw [Exec.accessed_pc] at isGuard has
    rw [guarded' b isGuard, nextSame]
    exact (lnext m has).elim id (layout.lnext p a m guarded)
  · rw [Exec.accessed_pc, noOwn'] at isOwn
    cases isOwn

omit [DecidableEq A] in
theorem Layout.fill {pc' : Pc A V} {l m : A} (layout : Layout e) (here : e.st.pc p = pc)
    (guarded : pc.guarded = some l) (own : pc.own = some m) (content : Unlinked none q)
    (filled : pc'.Filled q) (task : pc'.task n e.st.nodeAt = pc.task n e.st.nodeAt)
    (guarded' : pc'.guarded = some l) (own' : pc'.own = some m) (noNext : pc'.lnext = none)
    (slot : ∀ v, pc'.Local n v) : Layout (e.accessed p m q pc' []) := by
  subst here
  have apart : ∀ i ∈ rings e.log, i ≠ e.st.nodeAt m := fun i member same =>
    layout.own_apart own member same.symm
  have heap : (e.accessed p m q pc' []).heap = e.heap :=
    Heap.ext rfl rfl rfl rfl rfl rfl rfl (goto_task_same task) (goto_own_same (own'.trans own.symm))
      rfl rfl
  refine layout.steady (p := p) (by rw [heap]; exact layout.heap) rfl rfl
    (fun i alive => ⟨alive, rfl⟩)
    (fun b tracked => Or.inl (Exec.accessed_tracked (fun c isPointer => ?_) tracked))
    (fun i inRings => ?_) (fun w other => ⟨Exec.accessed_pc_other other, rfl⟩)
    (fun i k inRings link => ?_) (fun w k other isOwn => ?_) (fun b k _ has => ?_)
    (fun k isOwn => ?_) (by rw [Exec.accessed_pc]; exact slot _)
  · rcases Pc.pointers_cases (n := n) isPointer with isGuard | isOwn | ⟨iret, tid, isScan⟩
    · rw [Option.some.inj (isGuard.symm.trans guarded')]
      exact Exec.tracked_of_guarded guarded
    · rw [Option.some.inj (isOwn.symm.trans own')]
      exact Exec.tracked_of_own own
    · have guard := Pc.guard_task n e.st.nodeAt (e.st.pc p)
      rw [← task, isScan, guarded] at guard
      cases guard
  · rw [Exec.accessed_node_other (apart i inRings)]
    exact layout.next i inRings
  · rw [Exec.accessed_node_other (apart i inRings)]
    exact link
  · refine Exec.accessed_node_other fun same => other ?_
    refine layout.heap.own_unique w p (e.st.nodeAt m) ?_ (Exec.heap_own own)
    rw [Exec.heap_own isOwn, same]
  · rw [Exec.accessed_pc, noNext] at has
    cases has
  · rw [Exec.accessed_pc] at isOwn ⊢
    rw [Option.some.inj (isOwn.symm.trans own'), Exec.accessed_node]
    exact ⟨content, filled⟩

omit [DecidableEq A] in
theorem Layout.newest {i : ℕ} (layout : Layout e) (member : i ∈ rings e.log)
    (last : (e.st.node i).next = none) : ∃ rest, rings e.log = i :: rest := by
  refine layout.heap.linked.next_none member ?_
  rw [layout.next i member] at last
  exact Option.map_eq_none_iff.mp last

theorem successor_link (r m : ℕ) (log : List (Event V)) :
    successor (.link r m :: log) = Function.update (successor log) r (some m) := by
  funext i
  by_cases same : i = r
  · rw [same, Function.update_self]
    exact if_pos rfl
  · rw [Function.update_of_ne same]
    exact if_neg same

omit [DecidableEq A] in
/-- The `compare_exchange_strong` that links a filled node. -/
theorem Layout.link {f : EnqFrame V} {l m : A} (layout : Layout e)
    (here : e.st.pc p = .enqLink f l m) (last : (e.st.node (e.st.nodeAt l)).next = none)
    (after : e' = e.accessed p l { e.st.node (e.st.nodeAt l) with next := some m }
      (.enqAdvance f l m) [.enqItem f.call (e.st.nodeAt m) 0 f.item,
        .enqDraw f.call (e.st.nodeAt m) 0, .link (e.st.nodeAt l) (e.st.nodeAt m)]) :
    Layout e' := by
  have guarded : (e.st.pc p).guarded = some l := by rw [here]; rfl
  have own : (e.st.pc p).own = some m := by rw [here]; rfl
  have member := (layout.guarded guarded).2.2
  have notIn : e.st.nodeAt m ∉ rings e.log := fun inRings => layout.own_apart own inRings rfl
  obtain ⟨content, _⟩ := layout.fresh p m own
  obtain ⟨rest, newest⟩ := layout.newest member last
  have pcSelf : e'.st.pc p = .enqAdvance f l m := by rw [after, Exec.accessed_pc]
  have nodeSelf : e'.st.node (e.st.nodeAt l) =
      { e.st.node (e.st.nodeAt l) with next := some m } := by rw [after, Exec.accessed_node]
  have nodeSame : ∀ i, i ≠ e.st.nodeAt l → e'.st.node i = e.st.node i := fun i other => by
    rw [after, Exec.accessed_node_other other]
  have newRings : rings e'.log = e.st.nodeAt m :: rings e.log := by rw [after]; rfl
  have newSuccessor : successor e'.log =
      Function.update (successor e.log) (e.st.nodeAt l) (some (e.st.nodeAt m)) := by
    rw [after]
    exact successor_link ..
  have heap : Hazard.Step e.heap e'.heap := by
    refine .link p (e.st.nodeAt l) (e.st.nodeAt m) rest (Exec.heap_task here) (Exec.heap_own own)
      newest ?_
    subst after
    exact Heap.ext rfl rfl newSuccessor newRings rfl rfl rfl (goto_task rfl) (goto_own rfl) rfl rfl
  refine layout.steady (p := p) (heap.inv layout.heap) (by rw [after]; rfl) (by rw [after]; rfl)
    (fun i alive => ?_) (fun b tracked => ?_) (fun i inRings => ?_) (fun w other => ?_)
    (fun i k _ link => ?_) (fun w k other isOwn => nodeSame _ (layout.own_apart isOwn member))
    (fun b k isGuard has => ?_) (fun k isOwn => ?_) (by rw [pcSelf]; trivial)
  · subst after
    exact ⟨alive, rfl⟩
  · subst after
    refine Or.inl (Exec.accessed_tracked (fun c isPointer => ?_) tracked)
    have isL : c = l := by simpa [Pc.pointers, Pc.guarded, Pc.own] using isPointer
    rw [isL]
    exact Exec.tracked_of_guarded guarded
  · rw [newRings] at inRings
    rw [newSuccessor]
    by_cases same : i = e.st.nodeAt l
    · rw [same, nodeSelf, Function.update_self]
      show some m = some (e.st.addr (e.st.nodeAt m))
      rw [layout.tracked m (Exec.tracked_of_own own)]
    · rw [nodeSame i same, Function.update_of_ne same]
      rcases List.mem_cons.mp inRings with rfl | old
      · rw [content.next_none, show successor e.log _ = none from layout.heap.next_out _ notIn]
        rfl
      · exact layout.next i old
  · rw [after]
    exact ⟨Exec.accessed_pc_other other, rfl⟩
  · by_cases same : i = e.st.nodeAt l
    · rw [same, last] at link
      cases link
    · rw [nodeSame i same]
      exact link
  · rw [pcSelf] at isGuard has
    cases isGuard
    cases has
    rw [nodeSelf]
  · rw [pcSelf] at isOwn
    cases isOwn

end Accesses

/-! ## A new node -/

/-- What `construct` leaves alone: pointers in use and the nodes they lead to. -/
structure Constructed (e e' : Exec n A V) (a : A) : Prop where
  nodeAt : ∀ b, e.Tracked b → e'.st.nodeAt b = e.st.nodeAt b
  node : ∀ i, i < e.st.made → e'.st.node i = e.st.node i
  addr : ∀ i, i < e.st.made → e'.st.addr i = e.st.addr i

theorem Layout.constructed {pc : Pc A V} {mem : List MemEvent} (layout : Layout e)
    (unused : e.st.live a = false) :
    Constructed e ⟨(e.st.construct a).goto p pc, e.log, mem⟩ a where
  nodeAt := fun b tracked => by
    refine Function.update_of_ne (fun same => ?_) ..
    rw [← same, layout.tracked_live tracked] at unused
    cases unused
  node := fun i lt => Function.update_of_ne lt.ne ..
  addr := fun i lt => Function.update_of_ne lt.ne ..

section Construct

variable {f : EnqFrame V} {l : A} (layout : Layout e) (here : e.st.pc p = .enqConstruct f l)
  (unused : e.st.live a = false)
  (after : e' = ⟨(e.st.construct a).goto p (.soloTail f l a), e.log, .construct e.st.made :: e.mem⟩)

include after

theorem Exec.constructed_pc : e'.st.pc p = .soloTail f l a := by
  rw [after]
  exact Function.update_self ..

theorem Exec.constructed_pc_other {w : Fin n} (other : w ≠ p) : e'.st.pc w = e.st.pc w := by
  rw [after]
  exact Function.update_of_ne other ..

theorem Exec.constructed_nodeAt : e'.st.nodeAt a = e.st.made := by
  rw [after]
  exact Function.update_self ..

include layout here unused

theorem Layout.construct_heap : Hazard.Step e.heap e'.heap := by
  have guarded : (e.st.pc p).guarded = some l := by rw [here]; rfl
  have noOwn : (e.st.pc p).own = none := by rw [here]; rfl
  have nodeAtSame : ∀ b, e.Tracked b → e'.st.nodeAt b = e.st.nodeAt b :=
    (after ▸ layout.constructed unused : Constructed e e' a).nodeAt
  have pcSelf := Exec.constructed_pc after
  have sameHead : e'.st.head = e.st.head := by rw [after]; rfl
  have sameTail : e'.st.tail = e.st.tail := by rw [after]; rfl
  have sameRetired : e'.st.retiredList = e.st.retiredList := by rw [after]; rfl
  have log : e'.log = e.log := by rw [after]
  refine .construct p a (fun i alive isA => ?_) (congrArg (Option.map e.st.nodeAt) noOwn) ?_
  · have live := (layout.occupied i alive).2
    rw [show e.st.addr i = a from isA, unused] at live
    cases live
  · refine Heap.ext (by rw [after]; rfl) (by rw [after]; rfl) (congrArg successor log)
      (congrArg rings log) ?_ ?_ (by rw [after]; rfl) (funext fun w => ?_) (funext fun w => ?_)
      (funext fun w => ?_) (by rw [after]; rfl)
    · show e'.st.nodeAt e'.st.head = _
      rw [sameHead]
      exact nodeAtSame _ (Or.inl rfl)
    · show e'.st.nodeAt e'.st.tail = _
      rw [sameTail]
      exact nodeAtSame _ (Or.inr (Or.inl rfl))
    · show (e'.st.pc w).task n e'.st.nodeAt = (e.st.pc w).task n e.st.nodeAt
      by_cases same : w = p
      · rw [same, pcSelf, here]
        show Task.onTail (e'.st.nodeAt l) = Task.onTail (e.st.nodeAt l)
        rw [nodeAtSame l (Exec.tracked_of_guarded guarded)]
      · rw [Exec.constructed_pc_other after same]
        exact Pc.task_congr fun b member =>
          nodeAtSame b (Or.inr (Or.inr (Or.inl ⟨w, member⟩)))
    · show (e'.st.pc w).own.map e'.st.nodeAt = Function.update e.heap.own p (some e.st.made) w
      by_cases same : w = p
      · rw [same, pcSelf, Function.update_self]
        exact congrArg some (Exec.constructed_nodeAt after)
      · rw [Exec.constructed_pc_other after same, Function.update_of_ne same]
        refine Option.map_congr fun b isOwn => ?_
        exact nodeAtSame b (Exec.tracked_of_own isOwn)
    · show (e'.st.retiredList w).map e'.st.nodeAt = (e.st.retiredList w).map e.st.nodeAt
      rw [sameRetired]
      exact List.map_congr_left fun b member =>
        nodeAtSame b (Or.inr (Or.inr (Or.inr ⟨w, member⟩)))

theorem Layout.construct : Layout e' := by
  have guarded : (e.st.pc p).guarded = some l := by rw [here]; rfl
  have sameHead : e'.st.head = e.st.head := by rw [after]; rfl
  have sameTail : e'.st.tail = e.st.tail := by rw [after]; rfl
  obtain ⟨nodeAtSame, nodeSame, addrSame⟩ : Constructed e e' a :=
    after ▸ layout.constructed unused
  have pcSelf := Exec.constructed_pc after
  have others : ∀ w, w ≠ p → e'.st.pc w = e.st.pc w := fun w => Exec.constructed_pc_other after
  have nodeAtSelf := Exec.constructed_nodeAt after
  have nodeSelf : e'.st.node e.st.made = initRing none := by
    rw [after]
    exact Function.update_self ..
  have addrSelf : e'.st.addr e.st.made = a := by
    rw [after]
    exact Function.update_self ..
  have sameRetired : e'.st.retiredList = e.st.retiredList := by rw [after]; rfl
  have sameHp : e'.st.hp = e.st.hp := by rw [after]; rfl
  have log : e'.log = e.log := by rw [after]
  have ringsLt : ∀ i ∈ rings e.log, i < e.st.made := layout.heap.chain_lt
  have trackedLt : ∀ b, e.Tracked b → e.st.nodeAt b < e.st.made := fun b tracked =>
    (layout.tracked_alive tracked).1
  refine
    { heap := (layout.construct_heap here unused after).inv layout.heap
      occupied := fun i alive => ?_
      tracked := fun b tracked => ?_
      next := fun i member => ?_
      lnext := fun w b m isGuard has => ?_
      fresh := fun w m isOwn => ?_
      slot := fun w => ?_ }
  · by_cases isNew : i = e.st.made
    · rw [isNew, addrSelf]
      refine ⟨nodeAtSelf, ?_⟩
      rw [after]
      exact Function.update_self ..
    · have alive : e.heap.Alive i := by
        subst after
        have lt : i < e.st.made + 1 := alive.1
        exact ⟨by show i < e.st.made; omega, fun gone => alive.2 (List.mem_cons_of_mem _ gone)⟩
      obtain ⟨nodeAt, live⟩ := layout.occupied i alive
      have other : e.st.addr i ≠ a := by
        intro isA
        rw [isA, unused] at live
        cases live
      rw [addrSame i alive.1, after]
      exact ⟨(Function.update_of_ne other ..).trans nodeAt,
        (Function.update_of_ne other ..).trans live⟩
  · have isOld : e.Tracked b ∨ b = a := by
      refine tracked.from (Q := (· = a)) (p := p) (Or.inl (Or.inl sameHead))
        (Or.inl (Or.inr (Or.inl sameTail))) (fun w other => ⟨others w other, by rw [sameRetired]⟩)
        (fun c member => ?_) fun c member => Or.inl (Or.inr (Or.inr (Or.inr ⟨p, ?_⟩)))
      · rw [pcSelf] at member
        have isPointer : c = l ∨ c = a := by simpa [Pc.pointers, Pc.guarded, Pc.own] using member
        refine isPointer.imp_left fun isL => ?_
        rw [isL]
        exact Exec.tracked_of_guarded guarded
      · rwa [sameRetired] at member
    rcases isOld with old | rfl
    · rw [nodeAtSame b old, addrSame _ (trackedLt b old)]
      exact layout.tracked b old
    · rw [nodeAtSelf, addrSelf]
  · rw [log] at member ⊢
    rw [nodeSame i (ringsLt i member), layout.next i member]
    refine Option.map_congr fun j link => (addrSame j ?_).symm
    exact ringsLt j (layout.heap.next_older (h := e.heap) link).1.mem_new
  · by_cases same : w = p
    · rw [same, pcSelf] at has
      cases has
    · rw [others w same] at isGuard has
      have tracked := Exec.tracked_of_guarded isGuard
      rw [nodeAtSame b tracked, nodeSame _ (trackedLt b tracked)]
      exact layout.lnext w b m isGuard has
  · by_cases same : w = p
    · rw [same, pcSelf] at isOwn ⊢
      cases isOwn
      rw [nodeAtSelf, nodeSelf]
      exact ⟨unlinked_init, trivial⟩
    · rw [others w same] at isOwn ⊢
      have tracked := Exec.tracked_of_own isOwn
      rw [nodeAtSame m tracked, nodeSame _ (trackedLt m tracked)]
      exact layout.fresh w m isOwn
  · rw [sameHp]
    by_cases same : w = p
    · rw [same, pcSelf]
      trivial
    · rw [others w same]
      exact layout.slot w

end Construct

/-! ## All steps -/

variable [DecidableEq V] {pow : ℕ}

theorem Layout.goes (layout : Layout e) (goes : e.Goes pow p e') : Layout e' := by
  have slot := layout.slot p
  cases goes with
  | callEnq item idle => exact layout.call idle ⟨rfl, rfl⟩ (Or.inl ⟨_, rfl⟩)
  | callDeq idle => exact layout.call idle ⟨rfl, rfl⟩ (Or.inr ⟨_, rfl⟩)
  | loadTail f here => exact layout.rest here rfl rfl rfl rfl rfl rfl (fun _ => trivial) trivial
  | protectTail f l here =>
      exact layout.publish (some l) here ⟨rfl, rfl⟩ rfl rfl rfl rfl rfl rfl (fun _ => trivial) rfl
  | validTail f here =>
      have tailExact := layout.tracked e.st.tail (Or.inr (Or.inl rfl))
      rw [here] at slot
      refine layout.goto (Or.inr ?_) (fun b member => ?_) rfl (fun _ own => by cases own)
        (fun _ => trivial) trivial
      · refine .guardTail p (Exec.heap_task here) ?_ (Exec.heap_goto_task (by rw [here]; rfl))
        exact slot.trans (congrArg some tailExact.symm)
      · have isTail : b = e.st.tail := by simpa [Pc.pointers, Pc.guarded, Pc.own] using member
        exact Or.inr (Or.inl isTail)
  | retryTail f l here => exact layout.rest here rfl rfl rfl rfl rfl rfl (fun _ => trivial) trivial
  | help f l m here | advance f l m here =>
      exact layout.casTail (by rw [here]; rfl) (by rw [here]; rfl) (by rw [here]; rfl)
        (by rw [here]; rfl) rfl rfl rfl rfl (fun _ => trivial) fun _ => trivial
  | construct f l a here unused => exact layout.construct here unused rfl
  | soloTail f l m here =>
      have own : (e.st.pc p).own = some m := by rw [here]; rfl
      exact layout.fill here rfl rfl ((layout.fresh p m own).1.setTail 1) rfl rfl rfl rfl rfl
        fun _ => trivial
  | soloVal f l m here =>
      have own : (e.st.pc p).own = some m := by rw [here]; rfl
      obtain ⟨content, filled⟩ := layout.fresh p m own
      rw [here] at filled
      refine layout.fill here rfl rfl (content.setVal (some f.item)) ⟨filled, ?_⟩ rfl rfl rfl rfl
        fun _ => trivial
      simp [RingQueue.setNode]
  | soloIdx f l m here =>
      have own : (e.st.pc p).own = some m := by rw [here]; rfl
      obtain ⟨content, filled⟩ := layout.fresh p m own
      rw [here] at filled
      refine layout.fill here rfl rfl content.setIdx ⟨filled.1, ?_⟩ rfl rfl rfl rfl fun _ => trivial
      simpa [RingQueue.setNode] using filled.2
  | link f l m here last => exact layout.link here last rfl
  | lost f l m here =>
      have own : (e.st.pc p).own = some m := by rw [here]; rfl
      refine layout.goto (Or.inr ?_) (fun b member => ?_) rfl (fun k isOwn => ?_) (fun _ => trivial)
        trivial
      · exact .drop p (e.st.nodeAt l) (Or.inl (Exec.heap_task here))
          (Exec.heap_goto_task (by rw [here]; rfl))
      · have isM : b = m := by simpa [Pc.pointers, Pc.guarded, Pc.own] using member
        rw [isM]
        exact Exec.tracked_of_own own
      · rw [here]
        exact isOwn
  | discard f m here => exact layout.discard here
  | retEnq f here =>
      exact layout.publish none here ⟨rfl, rfl⟩ rfl rfl rfl rfl rfl rfl (fun _ => trivial) trivial
  | loadHead c here => exact layout.rest here rfl rfl rfl rfl rfl rfl (fun _ => trivial) trivial
  | protectHead c l here =>
      exact layout.publish (some l) here ⟨rfl, rfl⟩ rfl rfl rfl rfl rfl rfl (fun _ => trivial) rfl
  | validHead c here =>
      have headExact := layout.tracked e.st.head (Or.inl rfl)
      rw [here] at slot
      refine layout.goto (Or.inr ?_) (fun b member => ?_) rfl (fun _ own => by cases own)
        (fun _ => trivial) trivial
      · refine .guardHead p (Exec.heap_task here) ?_ (Exec.heap_goto_task (by rw [here]; rfl))
        exact slot.trans (congrArg some headExact.symm)
      · have isHead : b = e.st.head := by simpa [Pc.pointers, Pc.guarded, Pc.own] using member
        exact Or.inl isHead
  | retryHead c l here => exact layout.rest here rfl rfl rfl rfl rfl rfl (fun _ => trivial) trivial
  | unlink c l m here isHead => exact layout.unlink here isHead
  | missed c l m here =>
      refine layout.goto (Or.inr ?_) (fun _ member => by cases member) rfl
        (fun _ own => by cases own) (fun _ => trivial) trivial
      exact .drop p (e.st.nodeAt l) (Or.inr (Exec.heap_task here))
        (Exec.heap_goto_task (by rw [here]; rfl))
  | scan c ptr obj iret tid here looked => exact layout.scan here looked
  | destroy c ptr obj iret here looked => exact layout.destroy here looked
  | retEmpty c here =>
      exact layout.publish none here ⟨rfl, rfl⟩ rfl rfl rfl rfl rfl rfl (fun _ => trivial) trivial
  | retDeq c x here =>
      exact layout.publish none here ⟨rfl, rfl⟩ rfl rfl rfl rfl rfl rfl (fun _ => trivial) trivial
  | access a q pc events guarded access => exact layout.onNode guarded access

theorem Stepped.nodeAt (layout : Layout e) (stepped : Stepped pow e e' p)
    (tracked : e.Tracked a) : e'.st.nodeAt a = e.st.nodeAt a := by
  cases stepped with
  | quiet _ same _ _ _ _ => rw [same.nodeAt]
  | swing _ _ _ _ _ _ same _ _ => rw [same.nodeAt]
  | validate c here after => rw [after]; rfl
  | empty c here after => rw [after]; rfl
  | access b q pc events guarded access after => rw [after]; rfl
  | fill m q pc own after next notDeq => rw [after]; rfl
  | link f l m here last after => rw [after]; rfl
  | construct f l b here unused after =>
      rw [after]
      refine Function.update_of_ne (fun same => ?_) ..
      rw [← same, layout.tracked_live tracked] at unused
      cases unused

omit [DecidableEq V] in
theorem layout_init (sentinel : A) : Layout (Exec.init sentinel : Exec n A V) := by
  refine
    { heap := Heap.Inv.init rfl (fun _ => rfl) rfl rfl rfl (fun _ => rfl) (fun _ => rfl)
        (fun _ => rfl) rfl
      occupied := fun i alive => ?_
      tracked := fun a tracked => ?_
      next := fun i _ => rfl
      lnext := nofun
      fresh := nofun
      slot := fun _ => trivial }
  · have first : i = 0 := Nat.lt_one_iff.mp alive.1
    exact ⟨first.symm, decide_eq_true rfl⟩
  · rcases tracked with rfl | rfl | ⟨p, member⟩ | ⟨p, member⟩
    · rfl
    · rfl
    · cases member
    · cases member

theorem machine_layout (run : Reachable (machine pow) e) : Layout e := by
  refine Reachable.invariant (I := Layout) ?_ ?_ run
  · rintro e ⟨sentinel, rfl⟩
    exact layout_init sentinel
  · rintro e e' layout ⟨p, act, does⟩
    exact layout.goes (does_goes does)

end Steps

end Elcrq.Cpp
