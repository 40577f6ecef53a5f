import Mathlib.Data.List.Nodup
import Mathlib.Logic.Function.Basic
import Mathlib.Tactic.Common

/-! # Lists linked through slots

A node is reached through a slot: a place in memory that holds a pointer. The
node knows the slot that holds it (`parent`), and has a slot of its own (`out`)
that holds the next node, so that a node is put in or taken out at its slot,
whatever the slot is part of. `Path link parent out nil t l u` starts at slot `t`,
visits exactly `l` and ends at slot `u`, which the path does not read. -/

set_option autoImplicit false

namespace Elcrq.Store

universe u v

variable {α : Type u} {σ : Type v} {link link' : σ → α} {parent parent' : α → σ} {out : α → σ}
variable {nil a b : α} {t s w : σ} {l l₁ l₂ : List α}

def Path (link : σ → α) (parent : α → σ) (out : α → σ) (nil : α) : σ → List α → σ → Prop
  | t, [], w => t = w
  | t, a :: rest, w => link t = a ∧ a ≠ nil ∧ parent a = t ∧ Path link parent out nil (out a) rest w

/-- The slots a path reads: all of its slots but the last. -/
def reads (out : α → σ) : σ → List α → List σ
  | _, [] => []
  | t, a :: rest => t :: reads out (out a) rest

@[simp] theorem path_nil : Path link parent out nil t [] w ↔ t = w := Iff.rfl

@[simp] theorem path_cons : Path link parent out nil t (a :: l) w ↔
    link t = a ∧ a ≠ nil ∧ parent a = t ∧ Path link parent out nil (out a) l w := Iff.rfl

theorem mem_reads (read : s ∈ reads out t l) : s = t ∨ ∃ a ∈ l, s = out a := by
  induction l generalizing t with
  | nil => cases read
  | cons a rest ih =>
      rcases List.mem_cons.mp read with here | later
      · exact Or.inl here
      · rcases ih later with first | ⟨b, member, inside⟩
        · exact Or.inr ⟨a, List.mem_cons_self, first⟩
        · exact Or.inr ⟨b, List.mem_cons_of_mem _ member, inside⟩

theorem Path.last (path : Path link parent out nil t l w) : w = t ∨ ∃ a ∈ l, w = out a := by
  induction l generalizing t with
  | nil => exact Or.inl path.symm
  | cons a rest ih =>
      right
      rcases ih path.2.2.2 with first | ⟨b, member, inside⟩
      · exact ⟨a, List.mem_cons_self, first⟩
      · exact ⟨b, List.mem_cons_of_mem _ member, inside⟩

theorem Path.last_unique {w' : σ} (path : Path link parent out nil t l w)
    (path' : Path link parent out nil t l w') : w = w' := by
  induction l generalizing t with
  | nil => exact path.symm.trans path'
  | cons a rest ih => exact ih path.2.2.2 path'.2.2.2

theorem Path.ne_nil (path : Path link parent out nil t l w) (member : a ∈ l) : a ≠ nil := by
  induction l generalizing t with
  | nil => cases member
  | cons b rest ih =>
      rcases List.mem_cons.mp member with rfl | inRest
      · exact path.2.1
      · exact ih path.2.2.2 inRest

theorem Path.congr (path : Path link parent out nil t l w)
    (links : ∀ s ∈ reads out t l, link' s = link s) (parents : ∀ a ∈ l, parent' a = parent a) :
    Path link' parent' out nil t l w := by
  induction l generalizing t with
  | nil => exact path
  | cons a rest ih =>
      obtain ⟨here, real, back, onward⟩ := path
      refine ⟨(links t List.mem_cons_self).trans here, real,
        (parents a List.mem_cons_self).trans back, ih onward ?_ ?_⟩
      · exact fun s read => links s (List.mem_cons_of_mem _ read)
      · exact fun b member => parents b (List.mem_cons_of_mem _ member)

theorem Path.move {t' : σ} (path : Path link parent out nil t (a :: l) w) (holds : link' t' = a)
    (back : parent' a = t') (links : ∀ s ∈ reads out (out a) l, link' s = link s)
    (parents : ∀ b ∈ l, parent' b = parent b) :
    Path link' parent' out nil t' (a :: l) w :=
  ⟨holds, path.2.1, back, path.2.2.2.congr links parents⟩

/-- Each slot is read once: a path whose members are distinct does not read its last slot. -/
theorem Path.last_notMem_reads (injective : Function.Injective out) (distinct : l.Nodup)
    (outside : ∀ a ∈ l, out a ≠ t) (path : Path link parent out nil t l w) :
    w ∉ reads out t l := by
  induction l generalizing t with
  | nil => exact List.not_mem_nil
  | cons a rest ih =>
      obtain ⟨fresh, restDistinct⟩ := List.nodup_cons.mp distinct
      have onward : ∀ b ∈ rest, out b ≠ out a := fun b member same =>
        fresh (injective same ▸ member)
      intro read
      rcases List.mem_cons.mp read with here | later
      · rcases path.2.2.2.last with first | ⟨b, member, inside⟩
        · exact outside a List.mem_cons_self (first.symm.trans here)
        · exact outside b (List.mem_cons_of_mem _ member) (inside.symm.trans here)
      · exact ih restDistinct onward path.2.2.2 later

/-- A path whose last slot holds `nil`. -/
def Ended (link : σ → α) (parent : α → σ) (out : α → σ) (nil : α) : σ → List α → Prop
  | t, [] => link t = nil
  | t, a :: rest => link t = a ∧ a ≠ nil ∧ parent a = t ∧ Ended link parent out nil (out a) rest

@[simp] theorem ended_nil : Ended link parent out nil t [] ↔ link t = nil := Iff.rfl

@[simp] theorem ended_cons : Ended link parent out nil t (a :: l) ↔
    link t = a ∧ a ≠ nil ∧ parent a = t ∧ Ended link parent out nil (out a) l := Iff.rfl

theorem ended_append : Ended link parent out nil t (l₁ ++ l₂) ↔
    ∃ m, Path link parent out nil t l₁ m ∧ Ended link parent out nil m l₂ := by
  induction l₁ generalizing t with
  | nil => simp
  | cons a rest ih =>
      simp only [List.cons_append, ended_cons, path_cons, ih]
      constructor
      · rintro ⟨here, real, back, m, front, rest⟩
        exact ⟨m, ⟨here, real, back, front⟩, rest⟩
      · rintro ⟨m, ⟨here, real, back, front⟩, rest⟩
        exact ⟨here, real, back, m, front, rest⟩

theorem Ended.ne_nil (ended : Ended link parent out nil t l) (member : a ∈ l) : a ≠ nil := by
  induction l generalizing t with
  | nil => cases member
  | cons b rest ih =>
      rcases List.mem_cons.mp member with rfl | inRest
      · exact ended.2.1
      · exact ih ended.2.2.2 inRest

theorem Ended.first (ended : Ended link parent out nil t l) :
    link t = l.headD nil ∧ (l = [] ↔ link t = nil) := by
  cases l with
  | nil => exact ⟨ended, iff_of_true rfl ended⟩
  | cons b rest =>
      refine ⟨ended.1, iff_of_false (List.cons_ne_nil _ _) ?_⟩
      rw [ended.1]
      exact ended.2.1

/-- The list hangs from another slot once that slot holds its first member and that member knows. -/
theorem Ended.rehang {t' : σ} (ended : Ended link parent out nil t l) (holds : link' t' = link t)
    (back : ∀ b, l.head? = some b → parent' b = t') (links : ∀ b ∈ l, link' (out b) = link (out b))
    (parents : ∀ b ∈ l.tail, parent' b = parent b) : Ended link' parent' out nil t' l := by
  induction l generalizing t t' with
  | nil => exact holds.trans ended
  | cons a rest ih =>
      obtain ⟨here, real, -, onward⟩ := ended
      refine ⟨holds.trans here, real, back a rfl, ?_⟩
      refine ih onward (links a List.mem_cons_self) ?_ ?_ ?_
      · intro b first
        rw [parents b (List.mem_of_head? first)]
        cases rest with
        | nil => cases first
        | cons c rest =>
            cases first
            exact onward.2.2.1
      · exact fun b member => links b (List.mem_cons_of_mem _ member)
      · exact fun b member => parents b (List.mem_of_mem_tail member)

theorem Ended.congr (ended : Ended link parent out nil t l) (holds : link' t = link t)
    (links : ∀ b ∈ l, link' (out b) = link (out b)) (parents : ∀ b ∈ l, parent' b = parent b) :
    Ended link' parent' out nil t l := by
  refine ended.rehang holds ?_ links fun b member => parents b (List.mem_of_mem_tail member)
  intro b first
  rw [parents b (List.mem_of_head? first)]
  cases l with
  | nil => cases first
  | cons a rest =>
      cases first
      exact ended.2.2.1

end Elcrq.Store
