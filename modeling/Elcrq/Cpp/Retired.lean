import Elcrq.Cpp.Layout
import Elcrq.Cpp.Retire
import Mathlib.Data.Finset.Option
import Mathlib.Algebra.Order.BigOperators.Group.Finset

/-! # How many nodes wait to be destroyed in `LCRQueue.hpp`

A scan keeps the nodes that it finds in a slot, and a slot may change during the
scan.  But a thread publishes only what it has loaded, and `head` and `tail` have left
the nodes of the list, but for the one just retired.  So whatever a slot shows of the
list during a scan is what its thread had published or loaded when the scan began:
two nodes at most. -/

set_option autoImplicit false

namespace Elcrq.Cpp

open Concurrent Concurrent.TicketRing Concurrent.RingList Concurrent.Hazard

theorem length_le_of_covered {n k : ℕ} {A : Type} [DecidableEq A] {p : Fin n} {ptr : A}
    {list : List A} {known : Fin n → Finset A} (distinct : list.Nodup)
    (small : ∀ w, (known w).card ≤ k)
    (covered : ∀ x ∈ list, x = ptr ∨ ∃ w, w ≠ p ∧ x ∈ known w) :
    list.length ≤ (n - 1) * k + 1 := by
  have inside : list.toFinset ⊆ insert ptr ((Finset.univ.erase p).biUnion known) := by
    intro x member
    rcases covered x (List.mem_toFinset.mp member) with isPtr | ⟨w, other, inKnown⟩
    · exact Finset.mem_insert.mpr (Or.inl isPtr)
    · refine Finset.mem_insert_of_mem (Finset.mem_biUnion.mpr ⟨w, ?_, inKnown⟩)
      exact Finset.mem_erase.mpr ⟨other, Finset.mem_univ w⟩
  have others : (Finset.univ.erase p).card = n - 1 := by
    rw [Finset.card_erase_of_mem (Finset.mem_univ p), Finset.card_fin]
  calc list.length = list.toFinset.card := (List.toFinset_card_of_nodup distinct).symm
    _ ≤ (insert ptr ((Finset.univ.erase p).biUnion known)).card := Finset.card_le_card inside
    _ ≤ ((Finset.univ.erase p).biUnion known).card + 1 := Finset.card_insert_le ..
    _ ≤ (Finset.univ.erase p).card * k + 1 :=
        Nat.succ_le_succ (Finset.card_biUnion_le_card_mul _ _ _ fun w _ => small w)
    _ = (n - 1) * k + 1 := by rw [others]

section Reading

variable {n : ℕ} {A V : Type}

/-- The node that `retire` was called with, and where its loop is. -/
def Pc.scanning : Pc A V → Option (A × ℕ)
  | .scan _ ptr iret _ | .destroy _ ptr iret => some (ptr, iret)
  | _ => none

theorem Pc.task_of_scanning {pc : Pc A V} {ptr : A} {iret : ℕ}
    (scanning : pc.scanning = some (ptr, iret)) (nodeAt : A → ℕ) :
    ∃ tid, pc.task n nodeAt = .scan (nodeAt ptr) iret tid := by
  cases pc <;> cases scanning <;> exact ⟨_, rfl⟩

theorem Pc.not_scanning_of_guarded {pc : Pc A V} {a : A} (guarded : pc.guarded = some a) :
    pc.scanning = none := by
  cases pc <;> first | rfl | cases guarded

theorem Onward.not_scanning {pc pc' : Pc A V} {a : A} (onward : Onward pc pc')
    (guarded : pc.guarded = some a) : pc'.scanning = none := by
  cases onward with
  | keep same _ => exact Pc.not_scanning_of_guarded (same.trans guarded)
  | leave _ free =>
      cases scanning : pc'.scanning with
      | none => rfl
      | some at_ =>
          obtain ⟨tid, task⟩ := Pc.task_of_scanning (n := 0) scanning fun _ => 0
          rw [free] at task
          cases task

theorem scanFrom_loaded (c : ℕ) (ptr : A) (iret size : ℕ) :
    (scanFrom c ptr iret size : Pc A V).loaded = none := by
  unfold scanFrom
  split <;> rfl

variable {e e' : Exec n A V} {p u w : Fin n} {ptr x : A} {iret : ℕ}

theorem Layout.head_not_retired (layout : Layout e) : e.st.head ∉ e.st.retiredList p := by
  intro member
  have old := layout.heap.retire_old _ (layout.heap.retired p _ (List.mem_map_of_mem member)).2
  exact layout.heap.not_older_self _ old

theorem Layout.scans (layout : Layout e) (scanning : (e.st.pc p).scanning = some (ptr, iret)) :
    ∃ tid, Scanning e.heap p (e.st.nodeAt ptr) iret tid := by
  obtain ⟨tid, task⟩ := Pc.task_of_scanning (n := n) scanning e.st.nodeAt
  exact ⟨tid, layout.heap.scans p _ iret tid task⟩

theorem Exec.tracked_of_scanning (scanning : (e.st.pc p).scanning = some (ptr, iret)) :
    e.Tracked ptr := by
  refine Or.inr (Or.inr (Or.inl ⟨p, ?_⟩))
  cases here : e.st.pc p <;> rw [here] at scanning <;> cases scanning <;>
    exact List.mem_singleton_self _

theorem Layout.tail_of_retired (layout : Layout e)
    (scanning : (e.st.pc p).scanning = some (ptr, iret)) (member : e.st.tail ∈ e.st.retiredList p) :
    e.st.tail = ptr := by
  obtain ⟨tid, scans⟩ := layout.scans scanning
  rcases scans.settled _ (List.mem_map_of_mem member) with latest | older
  · exact layout.tracked_inj (Or.inr (Or.inl rfl)) (Exec.tracked_of_scanning scanning) latest
  · exact absurd older (layout.heap.not_older_self _)

theorem Layout.scan_slot (layout : Layout e) (scanning : (e.st.pc p).scanning = some (ptr, iret)) :
    e.st.hp p = some ptr := by
  obtain ⟨tid, scans⟩ := layout.scans scanning
  have slot : e.st.hp p = some (e.st.addr (e.st.nodeAt ptr)) := scans.slot
  rw [slot, layout.tracked ptr (Exec.tracked_of_scanning scanning)]

theorem Layout.retired_nodup (layout : Layout e) (p : Fin n) : (e.st.retiredList p).Nodup :=
  List.Nodup.of_map _ (layout.heap.retired_nodup p)

variable [DecidableEq A]

theorem scanSlot_loaded (s : State n A V) (c : ℕ) (ptr obj : A) (iret tid : ℕ) :
    (scanSlot s p c ptr obj iret tid).loaded = none := by
  unfold scanSlot
  split
  · exact scanFrom_loaded _ _ _ _
  · split <;> rfl

/-- What thread `w` has published, and what it has loaded and may publish. -/
def Exec.held (e : Exec n A V) (w : Fin n) : Finset A :=
  (e.st.hp w).toFinset ∪ (e.st.pc w).loaded.toFinset

theorem Exec.mem_held : x ∈ e.held w ↔ e.st.hp w = some x ∨ (e.st.pc w).loaded = some x := by
  rw [Exec.held, Finset.mem_union, Option.mem_toFinset, Option.mem_toFinset, Option.mem_def,
    Option.mem_def]

theorem Exec.held_card (e : Exec n A V) (w : Fin n) : (e.held w).card ≤ 2 := by
  have one : ∀ o : Option A, o.toFinset.card ≤ 1 := by
    intro o
    cases o <;> simp
  exact (Finset.card_union_le _ _).trans (Nat.add_le_add (one _) (one _))

theorem Exec.hp_of_held {pc : Pc A V} (here : e.st.pc w = pc) (none_ : pc.loaded = none)
    (held : x ∈ e.held w) : e.st.hp w = some x := by
  refine (Exec.mem_held.mp held).resolve_right fun loaded => ?_
  rw [here, none_] at loaded
  cases loaded

/-- A scan of thread `p`, when the threads held what `known` says as it began: what
they hold of the list now, and what the scan has kept, was known. -/
structure Scan (e : Exec n A V) (p : Fin n) (ptr : A) (iret : ℕ) (known : Fin n → Finset A) :
    Prop where
  small : ∀ w, (known w).card ≤ 2
  held : ∀ w, w ≠ p → ∀ x ∈ e.st.retiredList p, x ∈ e.held w → x = ptr ∨ x ∈ known w
  kept : ∀ x ∈ (e.st.retiredList p).take iret, x = ptr ∨ ∃ w, w ≠ p ∧ x ∈ known w

/-- The list of thread `p` outside and inside a scan. -/
inductive Bounded (e : Exec n A V) (p : Fin n) : Prop
  | rest : (e.st.pc p).scanning = none → (e.st.retiredList p).length < 2 * n → Bounded e p
  | scan (ptr : A) (iret : ℕ) (known : Fin n → Finset A) :
      (e.st.pc p).scanning = some (ptr, iret) → (e.st.retiredList p).length ≤ 2 * n →
      Scan e p ptr iret known → Bounded e p

theorem Bounded.length_le (bounded : Bounded e p) : (e.st.retiredList p).length ≤ 2 * n := by
  cases bounded with
  | rest _ less => exact less.le
  | scan _ _ _ _ le _ => exact le

theorem Bounded.length_lt (bounded : Bounded e p) (rests : (e.st.pc p).scanning = none) :
    (e.st.retiredList p).length < 2 * n := by
  cases bounded with
  | rest _ less => exact less
  | scan _ _ _ scanning _ _ =>
      rw [rests] at scanning
      cases scanning

theorem Bounded.scan_of (bounded : Bounded e p)
    (scanning : (e.st.pc p).scanning = some (ptr, iret)) :
    (e.st.retiredList p).length ≤ 2 * n ∧ ∃ known, Scan e p ptr iret known := by
  cases bounded with
  | rest rests _ =>
      rw [rests] at scanning
      cases scanning
  | scan _ _ known scanning' le scan =>
      cases scanning.symm.trans scanning'
      exact ⟨le, known, scan⟩

theorem Scan.trans {iret' : ℕ} {known : Fin n → Finset A} (scan : Scan e p ptr iret known)
    (fewer : ∀ x ∈ e'.st.retiredList p, x ∈ e.st.retiredList p)
    (held : ∀ w, w ≠ p → ∀ x ∈ e'.st.retiredList p, x ∈ e'.held w → x = ptr ∨ x ∈ e.held w)
    (kept : ∀ x ∈ (e'.st.retiredList p).take iret',
      x ∈ (e.st.retiredList p).take iret ∨ x = ptr ∨ ∃ w, w ≠ p ∧ x ∈ known w) :
    Scan e' p ptr iret' known where
  small := scan.small
  held := fun w other x member holds =>
    (held w other x member holds).elim Or.inl (scan.held w other x (fewer x member))
  kept := fun x member => (kept x member).elim (scan.kept x) id

theorem Scan.start (held : ∀ w, w ≠ p → e'.held w = e.held w) : Scan e' p ptr 0 e.held where
  small := e.held_card
  held := fun w other x _ holds => Or.inr (held w other ▸ holds)
  kept := fun x member => by cases member

section Own

variable {known : Fin n → Finset A} (scan : Scan e p ptr iret known)
  (held : ∀ w, w ≠ p → e'.held w = e.held w)
include scan held

theorem Scan.own {iret' : ℕ} (fewer : ∀ x ∈ e'.st.retiredList p, x ∈ e.st.retiredList p)
    (kept : ∀ x ∈ (e'.st.retiredList p).take iret',
      x ∈ (e.st.retiredList p).take iret ∨ x = ptr ∨ ∃ w, w ≠ p ∧ x ∈ known w) :
    Scan e' p ptr iret' known :=
  scan.trans fewer (fun w other _ _ holds => Or.inr (held w other ▸ holds)) kept

theorem Scan.same (list : e'.st.retiredList p = e.st.retiredList p) : Scan e' p ptr iret known :=
  scan.own held (fun _ member => list ▸ member) fun _ member => Or.inl (list ▸ member)

theorem Scan.skip {obj : A} (looked : (e.st.retiredList p)[iret]? = some obj)
    (found : obj = ptr ∨ ∃ w, w ≠ p ∧ obj ∈ known w)
    (list : e'.st.retiredList p = e.st.retiredList p) : Scan e' p ptr (iret + 1) known := by
  refine scan.own held (fun _ member => list ▸ member) fun x member => ?_
  rw [list, List.take_add_one, looked] at member
  rcases List.mem_append.mp member with old | last
  · exact Or.inl old
  · rw [List.mem_singleton.mp last]
    exact Or.inr found

theorem Scan.erase (list : e'.st.retiredList p = (e.st.retiredList p).eraseIdx iret) :
    Scan e' p ptr iret known := by
  refine scan.own held (fun x member => ?_) fun x member => Or.inl ?_
  · rw [list] at member
    exact List.mem_of_mem_eraseIdx member
  · rwa [list, List.take_eraseIdx_eq_take_of_le _ _ _ (Nat.le_refl iret)] at member

end Own

theorem Scan.found {known : Fin n → Finset A} {tid : ℕ} (scan : Scan e p ptr iret known)
    (own : e.st.hp p = some ptr) (inside : tid < n) (slot : e.st.hp tid = some x)
    (member : x ∈ e.st.retiredList p) : x = ptr ∨ ∃ w, w ≠ p ∧ x ∈ known w := by
  by_cases self : tid = p
  · rw [self, own] at slot
    exact Or.inl (Option.some.inj slot).symm
  · have other : (⟨tid, inside⟩ : Fin n) ≠ p := fun same => self (congrArg Fin.val same)
    rcases scan.held ⟨tid, inside⟩ other x member (Exec.mem_held.mpr (Or.inl slot)) with
      isPtr | inKnown
    · exact Or.inl isPtr
    · exact Or.inr ⟨_, other, inKnown⟩

theorem Scan.bounded {c : ℕ} {known : Fin n → Finset A} {list : List A}
    (scan : Scan e p ptr iret known) (isList : e.st.retiredList p = list)
    (here : e.st.pc p = scanFrom c ptr iret list.length) (distinct : (e.st.retiredList p).Nodup)
    (le : list.length ≤ 2 * n) : Bounded e p := by
  subst isList
  unfold scanFrom at here
  split at here
  next => exact .scan ptr iret known (by rw [here]; rfl) le scan
  next ended =>
    have kept := scan.kept
    rw [List.take_of_length_le (Nat.not_lt.mp ended)] at kept
    have short := length_le_of_covered distinct scan.small kept
    have some_ : 0 < n := Fin.pos p
    exact .rest (by rw [here]; rfl) (by omega)

end Reading

/-! ## Steps -/

section Steps

variable {n : ℕ} {A V : Type} [DecidableEq A] [DecidableEq V] {pow : ℕ} {e e' : Exec n A V}
  {p u w : Fin n} {ptr obj x : A} {iret : ℕ} {known : Fin n → Finset A}

theorem Exec.Goes.retired_other (goes : e.Goes pow u e') (other : w ≠ u) :
    e'.st.retiredList w = e.st.retiredList w := by
  cases goes <;> first | rfl | exact Function.update_of_ne other ..

theorem Exec.Goes.hp_other (goes : e.Goes pow u e') (other : w ≠ u) : e'.st.hp w = e.st.hp w := by
  cases goes <;> first | rfl | exact Function.update_of_ne (Fin.val_ne_of_ne other) ..

theorem Exec.Goes.held_other (goes : e.Goes pow u e') (other : w ≠ u) : e'.held w = e.held w := by
  rw [Exec.held, Exec.held, goes.hp_other other, goes.others other]

theorem Exec.Goes.held_self (goes : e.Goes pow u e') (held : x ∈ e'.held u) :
    x ∈ e.held u ∨ x = e.st.head ∨ x = e.st.tail := by
  have published : e.st.hp u = some x → x ∈ e.held u ∨ x = e.st.head ∨ x = e.st.tail :=
    fun slot => Or.inl (Exec.mem_held.mpr (Or.inl slot))
  cases goes with
  | loadTail f here =>
      rcases Exec.mem_held.mp held with slot | loaded
      · exact published slot
      · rw [State.goto_pc] at loaded
        exact Or.inr (Or.inr (Option.some.inj loaded).symm)
  | loadHead c here =>
      rcases Exec.mem_held.mp held with slot | loaded
      · exact published slot
      · rw [State.goto_pc] at loaded
        exact Or.inr (Or.inl (Option.some.inj loaded).symm)
  | protectTail f l here | protectHead c l here =>
      have slot : Function.update e.st.hp u (some l) u = some x :=
        Exec.hp_of_held (State.goto_pc ..) rfl held
      rw [Function.update_self] at slot
      refine Or.inl (Exec.mem_held.mpr (Or.inr ?_))
      rw [here]
      exact slot
  | retEnq f here | retEmpty c here | retDeq c y here =>
      have slot : Function.update e.st.hp u none u = some x :=
        Exec.hp_of_held (State.goto_pc ..) rfl held
      rw [Function.update_self] at slot
      cases slot
  | unlink | destroy =>
      have slot := Exec.hp_of_held (State.goto_pc ..) (scanFrom_loaded ..) held
      exact published slot
  | scan =>
      have slot := Exec.hp_of_held (State.goto_pc ..) (scanSlot_loaded ..) held
      exact published slot
  | access a q pc events guarded access =>
      have slot := Exec.hp_of_held Exec.accessed_pc (onNode_plain access).2.2.1 held
      exact published slot
  | _ =>
      have slot := Exec.hp_of_held (State.goto_pc ..) rfl held
      exact published slot

theorem Bounded.other (layout : Layout e) (bounded : Bounded e p) (goes : e.Goes pow u e')
    (other : p ≠ u) : Bounded e' p := by
  have list := goes.retired_other other
  have place := goes.others other
  cases bounded with
  | rest rests less => exact .rest (by rw [place, rests]) (by rw [list]; exact less)
  | scan ptr iret known scanning le scan =>
      refine .scan ptr iret known (by rw [place, scanning]) (by rw [list]; exact le) ?_
      refine scan.trans (fun x member => list ▸ member) (fun w isOther x member holds => ?_)
        fun x member => Or.inl (list ▸ member)
      rw [list] at member
      by_cases same : w = u
      · subst same
        rcases goes.held_self holds with old | isHead | isTail
        · exact Or.inr old
        · exact absurd (isHead ▸ member) layout.head_not_retired
        · exact Or.inl (isTail.trans (layout.tail_of_retired scanning (isTail ▸ member)))
      · rw [goes.held_other same] at holds
        exact Or.inr holds

theorem Bounded.own (layout : Layout e) (bounded : Bounded e p) (goes : e.Goes pow p e')
    (distinct : (e'.st.retiredList p).Nodup) : Bounded e' p := by
  have held : ∀ w, w ≠ p → e'.held w = e.held w := fun w other => goes.held_other other
  have rests : ∀ {s : State n A V} {pc : Pc A V}, pc.scanning = none →
      ((s.goto p pc).pc p).scanning = none := fun {s} {pc} none_ => by
    rw [State.goto_pc]
    exact none_
  cases goes with
  | unlink c l m here isHead =>
      have less := bounded.length_lt (by rw [here]; rfl)
      refine (Scan.start held).bounded (Function.update_self ..) (State.goto_pc ..) distinct ?_
      rw [List.length_append]
      exact less
  | scan c ptr obj iret tid here looked =>
      have scanning : (e.st.pc p).scanning = some (ptr, iret) := by rw [here]; rfl
      have inside : tid < n := by
        have slot := layout.slot p
        rw [here] at slot
        exact slot
      obtain ⟨le, known, scan⟩ := bounded.scan_of scanning
      by_cases found : e.st.hp tid = some obj
      · have wasKnown := scan.found (layout.scan_slot scanning) inside found
          (List.mem_of_getElem? looked)
        refine (scan.skip held looked wasKnown rfl).bounded (c := c) rfl ?_ distinct le
        exact (State.goto_pc ..).trans (if_pos found)
      · refine .scan ptr iret known ?_ le (scan.same held rfl)
        rw [State.goto_pc, scanSlot, if_neg found]
        split <;> rfl
  | destroy c ptr obj iret here looked =>
      have scanning : (e.st.pc p).scanning = some (ptr, iret) := by rw [here]; rfl
      obtain ⟨le, known, scan⟩ := bounded.scan_of scanning
      have list : Function.update e.st.retiredList p ((e.st.retiredList p).eraseIdx iret) p =
          (e.st.retiredList p).eraseIdx iret := Function.update_self ..
      refine (scan.erase held list).bounded list (State.goto_pc ..) distinct ?_
      exact (List.length_eraseIdx_le ..).trans le
  | access a q pc events guarded access =>
      refine .rest ?_ (bounded.length_lt (Pc.not_scanning_of_guarded guarded))
      rw [Exec.accessed_pc]
      exact (onNode_leads access).onward.not_scanning guarded
  | callEnq item here | callDeq here | loadTail f here | protectTail f l here | validTail f here
  | retryTail f l here | help f l m here | construct f l a here unused | soloTail f l m here
  | soloVal f l m here | soloIdx f l m here | link f l m here last | lost f l m here
  | advance f l m here | discard f m here | retEnq f here | loadHead c here | protectHead c l here
  | validHead c here | retryHead c l here | missed c l m here | retEmpty c here
  | retDeq c x here => exact .rest (rests rfl) (bounded.length_lt (by rw [here]; rfl))

/-! ## Runs -/

theorem machine_bounded (run : Reachable (machine pow) e) (p : Fin n) : Bounded e p := by
  refine Reachable.invariant_along (I := fun e => Bounded e p) ?_ ?_ run
  · rintro e ⟨sentinel, rfl⟩
    exact .rest rfl (Nat.mul_pos Nat.two_pos (Fin.pos p))
  · rintro e e' before bounded ⟨u, act, does⟩
    have layout := machine_layout before
    have goes := does_goes does
    by_cases same : p = u
    · subst same
      exact bounded.own layout goes ((layout.goes goes).retired_nodup p)
    · exact bounded.other layout goes same

/-- At most two nodes for each thread are retired and not destroyed, which is less than
`retiredList` has room for. -/
theorem retired_bounded (small : n ≤ HP_MAX_THREADS) (run : Reachable (machine pow) e)
    (p : Fin n) : (e.st.retiredList p).length ≤ MAX_RETIRED := by
  calc (e.st.retiredList p).length ≤ 2 * n := (machine_bounded run p).length_le
    _ ≤ HP_MAX_HPS * HP_MAX_THREADS := Nat.mul_le_mul (by decide) small
    _ = MAX_RETIRED := Nat.mul_comm ..

end Steps

/-- With one cell to a node, thread `p` enqueues and dequeues and retires three nodes.
Thread `w` has published the first one and loaded the second, and publishes that while
the scan is between the two, so that its slot keeps both of them. -/
def stale {n : ℕ} (p w : Fin n) : List (Fin n × Act ℕ ℕ) :=
  [burst w .dequeue 2, burst p (.enqueue 5) 9, burst p (.enqueue 6) 14, burst p (.construct 1) 6,
    burst p .dequeue 8, burst p .dequeue 33, burst w .run 1, burst p (.enqueue 7) 9,
    burst p (.enqueue 8) 14, burst p (.construct 2) 6, burst p .dequeue 8, burst p .dequeue 35,
    burst p (.enqueue 9) 9, burst p (.enqueue 10) 14, burst p (.construct 3) 6, burst p .dequeue 8,
    burst p .dequeue 26, burst w .run 0, burst p .run 10].flatten

theorem retired_bounded_stale : 2 ≤ HP_MAX_THREADS ∧ ∃ e : Exec 2 ℕ ℕ, Reachable (machine 0) e ∧
    (e.st.retiredList 0 = [0, 1, 2] ∧ e.st.hp 0 = none) ∧
      (e.st.retiredList 0).length ≤ MAX_RETIRED := by
  obtain ⟨e, run, found⟩ := machine_reaches (n := 2) 0 0 (stale 0 1)
    (fun e => decide (e.st.retiredList 0 = [0, 1, 2] ∧ e.st.hp 0 = none)) (by decide +kernel)
  exact ⟨by decide, e, run, of_decide_eq_true found, retired_bounded (by decide) run 0⟩

end Elcrq.Cpp
