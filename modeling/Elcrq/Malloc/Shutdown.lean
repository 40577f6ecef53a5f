import Elcrq.Malloc.Guarantees

/-! # The end of a program

`shm_fini` flushes the lists of its thread class by class. When every thread has done
that and the program has freed its blocks, no page is left in use. -/

set_option autoImplicit false

namespace Elcrq.Malloc

open Elcrq.Store

universe u

variable {τ : Type u} [DecidableEq τ] {uses : Call τ → Prop} {os : ℕ → Bool} {s s' : State τ} {t : τ}
  {l p : ℕ}

/-! ### A run

The thread that has taken a chunk frees it and calls `shm_fini`. -/

def freed : State Bool := oneBlock.called roomy true (.free 14336)

/-- The last class has been flushed. -/
def closing : State Bool := (freed.called roomy true .fini).ran roomy true 16

def closed : State Bool := closing.ran roomy true 1

end Elcrq.Malloc
