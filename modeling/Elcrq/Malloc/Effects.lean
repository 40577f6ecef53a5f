import Elcrq.Malloc.Safety

/-! # What one step changes

A step of a thread gives the program at most one block and leaves the lists of the
other threads alone. `shm_fini` empties the lists of one class after the other, and they
stay empty until it is done. -/

set_option autoImplicit false

namespace Elcrq.Malloc

universe u

/-- The number of classes whose lists `shm_fini` has emptied. -/
def Pc.emptied : Pc → ℕ
  | .fini l => l
  | .lockFlush l _ _ .fini => l
  | .flush l _ _ .fini => l
  | .release l .fini => l
  | .freePage l _ .fini => l
  | _ => 0

def LocalFree.Empty (f : LocalFree) : Prop := f.free = 0 ∧ f.aux = 0 ∧ f.count = 0

variable {τ : Type u} [DecidableEq τ] {os : ℕ → Bool} {s s' : State τ} {t : τ} {l : ℕ}

/-- What a step of thread `t` inside a call does. -/
structure Effect (s s' : State τ) (t : τ) : Prop where
  live : s'.live = s.live ∨ ∃ x, s'.live = x :: s.live
  pc : ∀ u, u ≠ t → s'.pc u = s.pc u
  lists : ∀ u, u ≠ t → s'.lists u = s.lists u
  emptied : ∀ k < (s'.pc t).emptied, (s'.lists t k).Empty ∨
    k < (s.pc t).emptied ∧ s'.lists t k = s.lists t k

/-- The state after a `free` has taken its block from the program. -/
def State.taken (s : State τ) : Call τ → State τ
  | .free old => { s with live := s.live.filter (·.1 ≠ old) }
  | _ => s

end Elcrq.Malloc
