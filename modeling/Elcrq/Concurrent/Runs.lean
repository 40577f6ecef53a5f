import Mathlib.Logic.Relation
import Mathlib.Data.List.Basic
import Mathlib.Data.Finset.Insert

/-! # Runs of a system and their histories

A system is a set of initial states and a step relation.  `Reachable` holds of
the states a run passes through, `Trace` of the whole list of them, newest
first.  Histories are lists of events, newest first as well, and `Older l a b`
says that `a` was recorded before `b`. -/

set_option autoImplicit false

namespace Elcrq.Concurrent

universe u v

section System

variable {S : Type u}

structure System (S : Type u) where
  init : S → Prop
  step : S → S → Prop

inductive Reachable (M : System S) : S → Prop
  | init {s : S} : M.init s → Reachable M s
  | step {s s' : S} : Reachable M s → M.step s s' → Reachable M s'

/-- All states of a run, the latest at the front. -/
inductive Trace (M : System S) : List S → Prop
  | init {s : S} : M.init s → Trace M [s]
  | step {s s' : S} {past : List S} :
      Trace M (s :: past) → M.step s s' → Trace M (s' :: s :: past)

theorem Reachable.invariant_along {M : System S} {I : S → Prop}
    (start : ∀ s, M.init s → I s)
    (keep : ∀ s s', Reachable M s → I s → M.step s s' → I s') :
    ∀ {s : S}, Reachable M s → I s := by
  intro s run
  induction run with
  | init isInit => exact start _ isInit
  | step before next ih => exact keep _ _ before ih next

theorem Reachable.invariant {M : System S} {I : S → Prop}
    (start : ∀ s, M.init s → I s) (keep : ∀ s s', I s → M.step s s' → I s') :
    ∀ {s : S}, Reachable M s → I s :=
  Reachable.invariant_along start fun s s' _ => keep s s'

theorem Trace.reachable {M : System S} {s : S} {past : List S}
    (run : Trace M (s :: past)) : Reachable M s := by
  generalize shape : s :: past = states at run
  induction run generalizing s past with
  | init isInit =>
      cases shape
      exact .init isInit
  | step _ next ih =>
      cases shape
      exact .step (ih rfl) next

theorem Reachable.trace {M : System S} {s : S} (run : Reachable M s) :
    ∃ past, Trace M (s :: past) := by
  induction run with
  | init isInit => exact ⟨[], .init isInit⟩
  | step _ next ih =>
      obtain ⟨past, trace⟩ := ih
      exact ⟨_, .step trace next⟩

theorem Reachable.later {M : System S} {s s' : S} (run : Reachable M s)
    (steps : Relation.ReflTransGen M.step s s') : Reachable M s' := by
  induction steps with
  | refl => exact run
  | tail _ next ih => exact .step ih next

theorem forEach {ι : Type v} [DecidableEq ι] (step : S → S → Prop) (P : Finset ι → S → Prop)
    (target : Finset ι) {s : S} (start : P ∅ s)
    (advance : ∀ (F : Finset ι) (i : ι) (s : S), i ∈ target → F ⊆ target → i ∉ F → P F s →
      ∃ s', Relation.ReflTransGen step s s' ∧ P (insert i F) s') :
    ∃ s', Relation.ReflTransGen step s s' ∧ P target s' := by
  refine Finset.induction_on' (motive := fun F => ∃ s', Relation.ReflTransGen step s s' ∧ P F s')
    target ⟨s, .refl, start⟩ fun i F member inside new ih => ?_
  obtain ⟨s', steps, holds⟩ := ih
  obtain ⟨s'', more, holds'⟩ := advance F i s' member inside new holds
  exact ⟨s'', steps.trans more, holds'⟩

end System

section Schedule

variable {S : Type u} {A : Type v}

/-- Executes a schedule action by action; `none` when an action is not enabled. -/
def runSchedule (next : S → A → Option S) : S → List A → Option S
  | s, [] => some s
  | s, a :: rest => (next s a).bind fun s' => runSchedule next s' rest

theorem runSchedule_reachable {M : System S} {next : S → A → Option S}
    (sound : ∀ s a s', next s a = some s' → M.step s s') :
    ∀ (schedule : List A) {s s' : S}, Reachable M s →
      runSchedule next s schedule = some s' → Reachable M s' := by
  intro schedule
  induction schedule with
  | nil =>
      intro s s' run done
      cases Option.some.inj done
      exact run
  | cons a rest ih =>
      intro s s' run done
      simp only [runSchedule] at done
      obtain ⟨middle, first, later⟩ := Option.bind_eq_some_iff.mp done
      exact ih (.step run (sound _ _ _ first)) later

theorem runSchedule_any {M : System S} {next : S → A → Option S}
    (sound : ∀ s a s', next s a = some s' → M.step s s') {s : S} (start : M.init s)
    (schedule : List A) (P : S → Bool) (found : (runSchedule next s schedule).any P = true) :
    ∃ s', Reachable M s' ∧ P s' = true := by
  cases done : runSchedule next s schedule with
  | none =>
      rw [done] at found
      cases found
  | some s' =>
      rw [done] at found
      exact ⟨s', runSchedule_reachable sound schedule (.init start) done, found⟩

/-- Executes a schedule and keeps all states, the latest at the front. -/
def runTrace (next : S → A → Option S) : S → List S → List A → Option (S × List S)
  | s, past, [] => some (s, past)
  | s, past, a :: rest => (next s a).bind fun s' => runTrace next s' (s :: past) rest

theorem runTrace_trace {M : System S} {next : S → A → Option S}
    (sound : ∀ s a s', next s a = some s' → M.step s s') :
    ∀ (schedule : List A) {s s' : S} {past past' : List S}, Trace M (s :: past) →
      runTrace next s past schedule = some (s', past') → Trace M (s' :: past') := by
  intro schedule
  induction schedule with
  | nil =>
      intro s s' past past' run done
      cases Option.some.inj done
      exact run
  | cons a rest ih =>
      intro s s' past past' run done
      simp only [runTrace] at done
      obtain ⟨middle, first, later⟩ := Option.bind_eq_some_iff.mp done
      exact ih (.step run (sound _ _ _ first)) later

theorem runTrace_any {M : System S} {next : S → A → Option S}
    (sound : ∀ s a s', next s a = some s' → M.step s s') {s : S} (start : M.init s)
    (schedule : List A) (P : S → List S → Bool)
    (found : (runTrace next s [] schedule).any (fun (s', past) => P s' past) = true) :
    ∃ s' past, Trace M (s' :: past) ∧ P s' past = true := by
  cases done : runTrace next s [] schedule with
  | none =>
      rw [done] at found
      cases found
  | some result =>
      rw [done] at found
      exact ⟨result.1, result.2, runTrace_trace sound schedule (.init start) done, found⟩

end Schedule

section Older

variable {α : Type u}

/-- In a newest-first list, some occurrence of `a` lies below one of `b`. -/
def Older : List α → α → α → Prop
  | [], _, _ => False
  | x :: rest, a, b => (b = x ∧ a ∈ rest) ∨ Older rest a b

instance Older.decidable [DecidableEq α] : (l : List α) → (a b : α) → Decidable (Older l a b)
  | [], _, _ => isFalse id
  | _ :: rest, a, b =>
      let _ := Older.decidable rest a b
      inferInstanceAs (Decidable ((_ ∧ _) ∨ Older rest a b))

theorem older_cons {x a b : α} {l : List α} :
    Older (x :: l) a b ↔ (b = x ∧ a ∈ l) ∨ Older l a b := Iff.rfl

theorem Older.cons {x a b : α} {l : List α} (h : Older l a b) : Older (x :: l) a b := Or.inr h

theorem Older.append {a b : α} {l : List α} (h : Older l a b) :
    ∀ m : List α, Older (m ++ l) a b := by
  intro m
  induction m with
  | nil => exact h
  | cons x rest ih => exact Older.cons ih

theorem Older.mem_old {a b : α} {l : List α} (h : Older l a b) : a ∈ l := by
  induction l with
  | nil => exact h.elim
  | cons x rest ih =>
      rcases h with ⟨_, member⟩ | deeper
      · exact List.mem_cons_of_mem _ member
      · exact List.mem_cons_of_mem _ (ih deeper)

theorem Older.mem_new {a b : α} {l : List α} (h : Older l a b) : b ∈ l := by
  induction l with
  | nil => exact h.elim
  | cons x rest ih =>
      rcases h with ⟨here, _⟩ | deeper
      · exact here ▸ List.mem_cons_self
      · exact List.mem_cons_of_mem _ (ih deeper)

theorem Older.irrefl {a : α} {l : List α} (distinct : l.Nodup) : ¬ Older l a a := by
  induction l with
  | nil => exact id
  | cons x rest ih =>
      obtain ⟨fresh, restDistinct⟩ := List.nodup_cons.mp distinct
      rintro (⟨here, member⟩ | deeper)
      · exact fresh (here ▸ member)
      · exact ih restDistinct deeper

theorem Older.trans {a b c : α} {l : List α} (distinct : l.Nodup)
    (first : Older l a b) (second : Older l b c) : Older l a c := by
  induction l with
  | nil => exact first.elim
  | cons x rest ih =>
      obtain ⟨fresh, restDistinct⟩ := List.nodup_cons.mp distinct
      rcases first with ⟨here, member⟩ | first
      · rcases second with ⟨_, member'⟩ | second
        · exact absurd member' (here ▸ fresh)
        · exact absurd (here ▸ second.mem_old) fresh
      · rcases second with ⟨here', _⟩ | second
        · exact Or.inl ⟨here', first.mem_old⟩
        · exact Or.inr (ih restDistinct first second)

theorem Older.not_newest {a b : α} {l : List α} (distinct : (a :: l).Nodup) :
    ¬ Older (a :: l) a b := by
  have fresh := (List.nodup_cons.mp distinct).1
  rintro (⟨_, member⟩ | deeper)
  · exact fresh member
  · exact fresh deeper.mem_old

/-- Nothing is older than the oldest member. -/
theorem Older.not_oldest {a b : α} {l : List α} (distinct : l.Nodup) (oldest : l.getLast? = some b) :
    ¬ Older l a b := by
  induction l with
  | nil => exact id
  | cons x rest ih =>
      obtain ⟨fresh, restDistinct⟩ := List.nodup_cons.mp distinct
      cases rest with
      | nil => rintro (⟨_, member⟩ | deeper) <;> contradiction
      | cons y older =>
          have oldest' : (y :: older).getLast? = some b := by
            rwa [List.getLast?_cons_cons] at oldest
          rintro (⟨rfl, _⟩ | deeper)
          · exact fresh (List.mem_of_getLast? oldest')
          · exact ih restDistinct oldest' deeper

/-- Two members of a list are equal or one is older. -/
theorem older_total {a b : α} {l : List α} (ha : a ∈ l) (hb : b ∈ l) :
    a = b ∨ Older l a b ∨ Older l b a := by
  induction l with
  | nil => simp at ha
  | cons x rest ih =>
      rcases List.mem_cons.mp ha with rfl | aRest
      · rcases List.mem_cons.mp hb with rfl | bRest
        · exact Or.inl rfl
        · exact Or.inr (Or.inr (Or.inl ⟨rfl, bRest⟩))
      · rcases List.mem_cons.mp hb with rfl | bRest
        · exact Or.inr (Or.inl (Or.inl ⟨rfl, aRest⟩))
        · rcases ih aRest bRest with same | below | above
          · exact Or.inl same
          · exact Or.inr (Or.inl below.cons)
          · exact Or.inr (Or.inr above.cons)

end Older

end Elcrq.Concurrent
