import Elcrq.Malloc.Effects
import Mathlib.Logic.Relation

/-! # What the threads can rely on

The consequences of the invariant, without the lists that it speaks of: what holds for
the memory, the locks and the counters in every state that threads can reach together,
whatever the order of their steps. -/

set_option autoImplicit false

namespace Elcrq.Malloc

open Elcrq.Store

universe u

/-! ### The counters -/

/-- The length that the first list is not to exceed. A thread that has never refilled a class has the
target zero, and its `unsigned short` counts to 2^16 before it meets that. -/
def limit (target : ℕ) : ℕ := if target = 0 then 2 ^ 16 else target

variable {τ : Type u} {uses : Call τ → Prop} {os : ℕ → Bool} {s s' : State τ} {t : τ} {l p a : ℕ}

def Separate (x y : ℕ × ℕ) : Prop := x.1 + x.2 ≤ y.1 ∨ y.1 + y.2 ≤ x.1

theorem SysInv.apart {Q : Tally} {g : Ghost τ} (inv : SysInv Q s g) : s.live.Pairwise Separate := by
  have distinct : s.live.Pairwise fun x y => x.1 ≠ y.1 := List.pairwise_map.mp inv.nodup
  refine distinct.imp_of_mem fun {x y} memberX memberY other => ?_
  exact ((inv.live x.1 x.2).mp memberX).1.disjoint inv.heap.inv ((inv.live y.1 y.2).mp memberY).1 other

/-- The thread has the lock of the class and is about to ask for a page. -/
def refilling : State Bool := (init.called roomy true (.malloc 2048)).ran roomy true 1

def oneBlock : State Bool := refilling.ran roomy true 5

variable [DecidableEq τ]

end Elcrq.Malloc
