import Mathlib.Logic.Relation

/-! # What every run comes to

`Inevitably step goal s` says that from `s` no run of `step` gets stuck or goes on
for ever before it has come to a state of `goal`.  For a thread that runs alone
this is termination with a postcondition. -/

set_option autoImplicit false

namespace Elcrq.Concurrent

universe u v

/-- From `s` every run comes to a state of `goal` after finitely many steps. -/
inductive Inevitably {S : Type u} (step : S → S → Prop) (goal : S → Prop) : S → Prop
  | now {s : S} : goal s → Inevitably step goal s
  | later {s : S} : (∃ s', step s s') → (∀ s', step s s' → Inevitably step goal s') →
      Inevitably step goal s

section Rules

variable {S : Type u} {step : S → S → Prop} {goal goal' : S → Prop} {s s' : S}

theorem Inevitably.bind (first : Inevitably step goal s)
    (second : ∀ s', goal s' → Inevitably step goal' s') : Inevitably step goal' s := by
  induction first with
  | now there => exact second _ there
  | later enabled _ ih => exact .later enabled ih

theorem Inevitably.mono (run : Inevitably step goal s) (weaker : ∀ s', goal s' → goal' s') :
    Inevitably step goal' s := run.bind fun s' there => .now (weaker s' there)

theorem Inevitably.only (taken : step s s') (unique : ∀ t, step s t → t = s')
    (after : Inevitably step goal s') : Inevitably step goal s := by
  refine .later ⟨s', taken⟩ fun t other => ?_
  rw [unique t other]
  exact after

theorem Inevitably.path (run : Inevitably step goal s) :
    ∃ t, goal t ∧ Relation.ReflTransGen step s t := by
  induction run with
  | now there => exact ⟨_, there, .refl⟩
  | later enabled _ ih =>
      obtain ⟨s', taken⟩ := enabled
      obtain ⟨t, there, steps⟩ := ih s' taken
      exact ⟨t, there, .head taken steps⟩

theorem Inevitably.keeping {I : S → Prop} (keeps : ∀ s s', I s → step s s' → I s')
    (run : Inevitably step goal s) (start : I s) : Inevitably step (fun s => goal s ∧ I s) s := by
  induction run with
  | now there => exact .now ⟨there, start⟩
  | @later s enabled _ ih =>
      exact .later enabled fun s' taken => ih s' taken (keeps s s' start taken)

/-- The goal, if runs end there, is met where the run ends. -/
theorem Inevitably.at_end (run : Inevitably step goal s)
    (final : ∀ t, goal t → ∀ t', ¬ step t t') (steps : Relation.ReflTransGen step s s')
    (stuck : ∀ t, ¬ step s' t) : goal s' := by
  induction run with
  | @now s there =>
      rcases steps.cases_head with rfl | ⟨t, taken, _⟩
      · exact there
      · exact absurd taken (final s there t)
  | later enabled _ ih =>
      rcases steps.cases_head with rfl | ⟨t, taken, more⟩
      · obtain ⟨t, taken⟩ := enabled
        exact absurd taken (stuck t)
      · exact ih t taken more

end Rules

/-- A run of `step` carried over to states that stand in relation `R`; it may be cut
short where `escape` holds. -/
theorem Inevitably.lift {S : Type u} {S' : Type v} {step : S → S → Prop} {goal : S → Prop}
    {step' : S' → S' → Prop} (R : S → S' → Prop) (escape : S' → Prop)
    (sim : ∀ x e, R x e → (∃ y, step x y) → escape e ∨
      ((∃ e', step' e e') ∧ ∀ e', step' e e' → ∃ y, step x y ∧ R y e'))
    {x : S} {e : S'} (run : Inevitably step goal x) (related : R x e) :
    Inevitably step' (fun e' => escape e' ∨ ∃ y, goal y ∧ R y e') e := by
  induction run generalizing e with
  | now there => exact .now (Or.inr ⟨_, there, related⟩)
  | later enabled _ ih =>
      rcases sim _ e related enabled with out | ⟨enabled', follows⟩
      · exact .now (Or.inl out)
      · refine .later enabled' fun e' taken => ?_
        obtain ⟨y, step, related'⟩ := follows e' taken
        exact ih y step related'

/-! ## Deterministic runs -/

section Follows

variable {S : Type u} {succ : S → Option S} {goal : S → Prop} {s s' : S}

def Follows (succ : S → Option S) (s s' : S) : Prop := succ s = some s'

variable (s') in
theorem Inevitably.next (taken : succ s = some s') (after : Inevitably (Follows succ) goal s') :
    Inevitably (Follows succ) goal s := by
  refine .only taken (fun t other => ?_) after
  exact Option.some.inj (other.symm.trans taken)

theorem Follows.ended (ends : succ s = none) (t : S) : ¬ Follows succ s t := by
  intro taken
  cases ends.symm.trans taken

end Follows

end Elcrq.Concurrent
