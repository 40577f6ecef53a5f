import Mathlib.Data.List.Nodup
import Mathlib.Logic.Function.Basic
import Mathlib.Tactic.Common

/-! # Null-terminated chains in a memory

`Segment next nil p l q` walks from the pointer `p` along `next`, visits exactly
the members of `l`, none of them `nil`, and arrives at `q`. A `Chain` arrives at
`nil`. Which list a chain visits is determined by the memory, so a chain never
visits a member twice. -/

set_option autoImplicit false

namespace Elcrq.Store

universe u

variable {α : Type u} {next next' : α → α} {nil p q r : α} {l l₁ l₂ : List α}

def Segment (next : α → α) (nil : α) : α → List α → α → Prop
  | p, [], q => p = q
  | p, a :: rest, q => p = a ∧ a ≠ nil ∧ Segment next nil (next a) rest q

def Chain (next : α → α) (nil p : α) (l : List α) : Prop := Segment next nil p l nil

@[simp] theorem segment_nil : Segment next nil p [] q ↔ p = q := Iff.rfl

@[simp] theorem segment_cons {a : α} :
    Segment next nil p (a :: l) q ↔ p = a ∧ a ≠ nil ∧ Segment next nil (next a) l q := Iff.rfl

@[simp] theorem chain_nil : Chain next nil p [] ↔ p = nil := Iff.rfl

@[simp] theorem chain_cons {a : α} :
    Chain next nil p (a :: l) ↔ p = a ∧ a ≠ nil ∧ Chain next nil (next a) l := Iff.rfl

theorem segment_append :
    Segment next nil p (l₁ ++ l₂) q ↔ ∃ m, Segment next nil p l₁ m ∧ Segment next nil m l₂ q := by
  induction l₁ generalizing p with
  | nil => simp
  | cons a rest ih =>
      simp only [List.cons_append, segment_cons, ih]
      constructor
      · rintro ⟨start, real, m, front, back⟩
        exact ⟨m, ⟨start, real, front⟩, back⟩
      · rintro ⟨m, ⟨start, real, front⟩, back⟩
        exact ⟨start, real, m, front, back⟩

theorem chain_append :
    Chain next nil p (l₁ ++ l₂) ↔ ∃ m, Segment next nil p l₁ m ∧ Chain next nil m l₂ :=
  segment_append

theorem segment_snoc {a : α} :
    Segment next nil p (l ++ [a]) q ↔ Segment next nil p l a ∧ a ≠ nil ∧ next a = q := by
  rw [segment_append]
  constructor
  · rintro ⟨m, front, rfl, real, out⟩
    exact ⟨front, real, out⟩
  · rintro ⟨front, real, out⟩
    exact ⟨a, front, rfl, real, out⟩

theorem Segment.ne_nil {a : α} (segment : Segment next nil p l q) (member : a ∈ l) : a ≠ nil := by
  induction l generalizing p with
  | nil => cases member
  | cons x rest ih =>
      rcases List.mem_cons.mp member with rfl | inRest
      · exact segment.2.1
      · exact ih segment.2.2 inRest

theorem Chain.ne_nil {a : α} (chain : Chain next nil p l) (member : a ∈ l) : a ≠ nil :=
  Segment.ne_nil chain member

theorem Segment.congr (same : ∀ a ∈ l, next' a = next a) (segment : Segment next nil p l q) :
    Segment next' nil p l q := by
  induction l generalizing p with
  | nil => exact segment
  | cons x rest ih =>
      refine ⟨segment.1, segment.2.1, ?_⟩
      rw [same x List.mem_cons_self]
      exact ih (fun a member => same a (List.mem_cons_of_mem _ member)) segment.2.2

theorem Chain.congr (same : ∀ a ∈ l, next' a = next a) (chain : Chain next nil p l) :
    Chain next' nil p l := Segment.congr same chain

/-- The memory determines the list. -/
theorem Chain.unique (first : Chain next nil p l₁) (second : Chain next nil p l₂) : l₁ = l₂ := by
  induction l₁ generalizing p l₂ with
  | nil =>
      cases l₂ with
      | nil => rfl
      | cons b rest => exact absurd (second.1.symm.trans first) second.2.1
  | cons a rest ih =>
      cases l₂ with
      | nil => exact absurd (first.1.symm.trans second) first.2.1
      | cons b rest' =>
          obtain rfl : a = b := first.1.symm.trans second.1
          rw [ih first.2.2 second.2.2]

/-- A member met again would be followed by the same list again. -/
theorem Chain.nodup (chain : Chain next nil p l) : l.Nodup := by
  induction l generalizing p with
  | nil => exact List.nodup_nil
  | cons a rest ih =>
      refine List.nodup_cons.mpr ⟨fun again => ?_, ih chain.2.2⟩
      obtain ⟨before, after, parts⟩ := List.append_of_mem again
      have whole : Chain next nil a (a :: rest) := ⟨rfl, chain.2.1, chain.2.2⟩
      have tail : Chain next nil (next a) (before ++ a :: after) := parts ▸ chain.2.2
      obtain ⟨m, -, fromA⟩ := chain_append.mp tail
      obtain rfl : m = a := fromA.1
      have same := congrArg List.length (fromA.unique whole)
      rw [parts] at same
      simp only [List.length_cons, List.length_append] at same
      omega

theorem Chain.eq_nil (chain : Chain next nil nil l) : l = [] :=
  chain.unique rfl

theorem Chain.head_mem (chain : Chain next nil p l) (some : p ≠ nil) : ∃ rest, l = p :: rest := by
  cases l with
  | nil => exact absurd chain some
  | cons a rest => exact ⟨rest, by rw [chain.1]⟩

section Update
variable [DecidableEq α]

theorem Segment.update {a b : α} (outside : a ∉ l) (segment : Segment next nil p l q) :
    Segment (Function.update next a b) nil p l q :=
  segment.congr fun _ member =>
    Function.update_of_ne (ne_of_mem_of_not_mem member outside) _ _

theorem Chain.update {a b : α} (outside : a ∉ l) (chain : Chain next nil p l) :
    Chain (Function.update next a b) nil p l := Segment.update outside chain

theorem Chain.push {a : α} (chain : Chain next nil p l) (real : a ≠ nil) (outside : a ∉ l) :
    Chain (Function.update next a p) nil a (a :: l) := by
  refine ⟨rfl, real, ?_⟩
  rw [Function.update_self]
  exact chain.update outside

end Update

end Elcrq.Store
