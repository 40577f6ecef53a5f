import Mathlib.Data.List.Chain
import Mathlib.Data.Nat.Basic
import Mathlib.Tactic.Common

/-! # Tilings of an interval

A list of tiles, each with a start, a positive length and a kind, that lie end to
end from `a` to `b`. Splitting, joining and relabelling are all one operation:
another run of tiles in the place of a run that covers the same interval. -/

set_option autoImplicit false

namespace Elcrq.Store

universe u

/-- `len` places from `start` on. -/
structure Tile (κ : Type u) where
  start : ℕ
  len : ℕ
  kind : κ
  deriving DecidableEq, Repr

variable {κ : Type u} {a b m : ℕ} {l l₁ l₂ old new : List (Tile κ)} {x y : Tile κ}

def Tile.stop (x : Tile κ) : ℕ := x.start + x.len

def Tiling (a : ℕ) : List (Tile κ) → ℕ → Prop
  | [], b => a = b
  | x :: rest, b => x.start = a ∧ 0 < x.len ∧ Tiling (a + x.len) rest b

@[simp] theorem tiling_nil : Tiling (κ := κ) a [] b ↔ a = b := Iff.rfl

@[simp] theorem tiling_cons :
    Tiling a (x :: l) b ↔ x.start = a ∧ 0 < x.len ∧ Tiling (a + x.len) l b := Iff.rfl

theorem tiling_append : Tiling a (l₁ ++ l₂) b ↔ ∃ m, Tiling a l₁ m ∧ Tiling m l₂ b := by
  induction l₁ generalizing a with
  | nil => simp
  | cons x rest ih =>
      simp only [List.cons_append, tiling_cons, ih]
      constructor
      · rintro ⟨here, some, m, front, back⟩
        exact ⟨m, ⟨here, some, front⟩, back⟩
      · rintro ⟨m, ⟨here, some, front⟩, back⟩
        exact ⟨here, some, m, front, back⟩

theorem Tiling.le (tiling : Tiling a l b) : a ≤ b := by
  induction l generalizing a with
  | nil => exact Nat.le_of_eq tiling
  | cons x rest ih =>
      have := ih tiling.2.2
      omega

theorem Tiling.mem_bounds (tiling : Tiling a l b) (member : x ∈ l) :
    a ≤ x.start ∧ 0 < x.len ∧ x.stop ≤ b := by
  induction l generalizing a with
  | nil => cases member
  | cons y rest ih =>
      obtain ⟨here, some, onward⟩ := tiling
      rcases List.mem_cons.mp member with rfl | later
      · have := onward.le
        rw [Tile.stop]
        omega
      · have := ih onward later
        omega

theorem Tiling.replace (tiling : Tiling a (l₁ ++ (old ++ l₂)) b)
    (same : ∀ s t, Tiling s old t → Tiling s new t) : Tiling a (l₁ ++ (new ++ l₂)) b := by
  obtain ⟨s, front, later⟩ := tiling_append.mp tiling
  obtain ⟨t, middle, back⟩ := tiling_append.mp later
  exact tiling_append.mpr ⟨s, front, tiling_append.mpr ⟨t, same s t middle, back⟩⟩

theorem Tiling.around (tiling : Tiling a (l₁ ++ x :: l₂) b) :
    Tiling a l₁ x.start ∧ 0 < x.len ∧ Tiling x.stop l₂ b := by
  obtain ⟨s, front, here, some, back⟩ := tiling_append.mp tiling
  rw [Tile.stop, here]
  exact ⟨front, some, back⟩

theorem Tiling.pairwise (tiling : Tiling a l b) : l.Pairwise fun x y => x.stop ≤ y.start := by
  induction l generalizing a with
  | nil => exact List.Pairwise.nil
  | cons x rest ih =>
      obtain ⟨here, some, onward⟩ := tiling
      refine List.pairwise_cons.mpr ⟨fun y member => ?_, ih onward⟩
      rw [Tile.stop, here]
      exact (onward.mem_bounds member).1

theorem Tiling.nodup (tiling : Tiling a l b) : l.Nodup := by
  refine tiling.pairwise.imp_of_mem fun {x y} member _ before same => ?_
  have := tiling.mem_bounds member
  rw [← same, Tile.stop] at before
  omega

/-- Different tiles have no place in common. -/
theorem Tiling.disjoint (tiling : Tiling a l b) (memberX : x ∈ l) (memberY : y ∈ l) (other : x ≠ y) :
    x.stop ≤ y.start ∨ y.stop ≤ x.start := by
  induction l generalizing a with
  | nil => cases memberX
  | cons z rest ih =>
      have order := (List.pairwise_cons.mp tiling.pairwise).1
      rcases List.mem_cons.mp memberX with rfl | laterX
      · rcases List.mem_cons.mp memberY with rfl | laterY
        · exact absurd rfl other
        · exact Or.inl (order y laterY)
      · rcases List.mem_cons.mp memberY with rfl | laterY
        · exact Or.inr (order x laterX)
        · exact ih tiling.2.2 laterX laterY

/-- The tile of a place. -/
theorem Tiling.cover {n : ℕ} (tiling : Tiling a l b) (above : a ≤ n) (below : n < b) :
    ∃ x ∈ l, x.start ≤ n ∧ n < x.stop := by
  induction l generalizing a with
  | nil =>
      have : a = b := tiling
      omega
  | cons x rest ih =>
      obtain ⟨here, some, onward⟩ := tiling
      by_cases inside : n < a + x.len
      · exact ⟨x, List.mem_cons_self, by omega, by rw [Tile.stop]; omega⟩
      · obtain ⟨y, member, bounds⟩ := ih onward (by omega)
        exact ⟨y, List.mem_cons_of_mem _ member, bounds⟩

theorem Tiling.unique {n : ℕ} (tiling : Tiling a l b) (memberX : x ∈ l) (memberY : y ∈ l)
    (inX : x.start ≤ n ∧ n < x.stop) (inY : y.start ≤ n ∧ n < y.stop) : x = y := by
  by_contra other
  have := tiling.disjoint memberX memberY other
  omega

theorem Tiling.eq_of_start (tiling : Tiling a l b) (memberX : x ∈ l) (memberY : y ∈ l)
    (same : x.start = y.start) : x = y := by
  have boundsX := tiling.mem_bounds memberX
  have boundsY := tiling.mem_bounds memberY
  refine tiling.unique memberX memberY ⟨le_refl x.start, ?_⟩ ⟨by omega, ?_⟩
  · rw [Tile.stop]
    omega
  · rw [Tile.stop]
    omega

end Elcrq.Store
