import Elcrq.Cpp.Layout

/-! # Memory reclamation in `LCRQueue.hpp`

Nodes that `head`, `tail` or a validated `ltail` or `lhead` point to are not
destroyed, although `dequeue` may retire a node that `tail` still points to. -/

set_option autoImplicit false

namespace Elcrq.Cpp

open Concurrent Concurrent.TicketRing Concurrent.RingList Concurrent.Hazard

section Memory

variable {n : ℕ} {A V : Type}

/-- The pointers the queue works with: `head`, `tail`, and the `ltail` or `lhead` that a
call has validated and may still access. -/
def Exec.InUse (e : Exec n A V) (a : A) : Prop :=
  a = e.st.head ∨ a = e.st.tail ∨ ∃ p, (e.st.pc p).guarded = some a

theorem Exec.InUse.tracked {e : Exec n A V} {a : A} (inUse : e.InUse a) : e.Tracked a := by
  rcases inUse with isHead | isTail | ⟨p, guarded⟩
  · exact Or.inl isHead
  · exact Or.inr (Or.inl isTail)
  · exact Exec.tracked_of_guarded guarded

variable [DecidableEq A] [DecidableEq V]

/-- A pointer in use leads to a node that is not destroyed, and goes on to lead to
that node and no other constructed in its place; validated pointers are published;
and each construction is retired at most once and destroyed at most once. -/
structure Exec.Safe (pow : ℕ) (e : Exec n A V) : Prop where
  intact : ∀ a, e.InUse a → e.st.live a = true ∧ e.st.nodeAt a < e.st.made ∧
    .destroy (e.st.nodeAt a) ∉ e.mem
  stable : ∀ a e', e.InUse a → (machine pow).step e e' → e'.st.nodeAt a = e.st.nodeAt a
  published : ∀ p a, (e.st.pc p).guarded = some a → e.st.hp p = some a
  retired_once : ∀ i, e.mem.count (.retire i) ≤ 1
  destroyed_once : ∀ i, e.mem.count (.destroy i) ≤ 1
  constructed : ∀ i, .retire i ∈ e.mem ∨ .destroy i ∈ e.mem → i < e.st.made

variable {pow : ℕ} {e : Exec n A V}

theorem reclamation_safe (run : Reachable (machine pow) e) : e.Safe pow := by
  have layout := machine_layout run
  have once := List.nodup_iff_count_le_one.mp layout.heap.nodup
  refine
    { intact := fun a inUse => ?_
      stable := fun a e' inUse step => ?_
      published := fun p a guarded => ?_
      retired_once := fun i => once _
      destroyed_once := fun i => once _
      constructed := fun i member => ?_ }
  · obtain ⟨lt, notGone⟩ := layout.tracked_alive inUse.tracked
    exact ⟨layout.tracked_live inUse.tracked, lt, notGone⟩
  · obtain ⟨p, act, does⟩ := step
    exact (does_goes does).stepped.nodeAt layout inUse.tracked
  · rw [(layout.guarded guarded).1, layout.tracked a (Exec.tracked_of_guarded guarded)]
  · rcases member with retired | destroyed
    · exact layout.heap.mem_lt _ retired
    · exact layout.heap.mem_lt _ destroyed

end Memory

/-- With one cell to a node, thread `1` enqueues and thread `0` dequeues; the first
node is retired, the second one too, the scan then destroys the first node, and a
fourth node is constructed at its address and becomes the tail. -/
def reuse : List (Fin 2 × Act ℕ ℕ) :=
  [burst 1 (.enqueue 5) 9, burst 1 (.enqueue 6) 14, burst 1 (.construct 1) 6, burst 0 .dequeue 8,
    burst 0 .dequeue 33, burst 1 (.enqueue 7) 9, burst 1 (.enqueue 8) 14, burst 1 (.construct 2) 6,
    burst 0 .dequeue 8, burst 0 .dequeue 36, burst 1 (.enqueue 9) 9, burst 1 (.enqueue 10) 14,
    burst 1 (.construct 0) 6].flatten

theorem reclamation_safe_reuse : ∃ e : Exec 2 ℕ ℕ, Reachable (machine 0) e ∧
    (.destroy 0 ∈ e.mem ∧ e.st.tail = 0 ∧ e.st.nodeAt 0 = 3) ∧ e.Safe 0 := by
  obtain ⟨e, run, found⟩ := machine_reaches 0 0 reuse
    (fun e => decide (.destroy 0 ∈ e.mem ∧ e.st.tail = 0 ∧ e.st.nodeAt 0 = 3)) (by decide +kernel)
  exact ⟨e, run, of_decide_eq_true found, reclamation_safe run⟩

end Elcrq.Cpp
