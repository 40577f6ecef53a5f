import Elcrq.Concurrent.Runs
import Mathlib.Data.Prod.Lex
import Mathlib.Data.Set.Insert
import Mathlib.Logic.Function.Basic

/-! # A ring of ticketed cells

One ring of `size` cells, two ticket counters and any number of agents.  An
enqueuer draws a tail ticket, a dequeuer a head ticket; ticket `n` works on
cell `n % size`.  `Move` lists everything one agent can do to the ring in one
atomic step, together with what the agent knows before and after (`View`) and
what is recorded about tickets (`Mark`).  `Config.Inv` is the handshake: a cell
only advances, an item stays in its cell until the dequeuer with the same
ticket takes it, and a ticket whose dequeuer gave up is never filled. -/

set_option autoImplicit false

namespace Elcrq.Concurrent.TicketRing

structure Cell (V : Type) where
  index : ℕ
  flagged : Bool
  item : Option V

structure CellRing (V : Type) where
  head : ℕ
  tail : ℕ
  closed : Bool
  cell : ℕ → Cell V

/-- What has happened to the tickets of a ring: handed to an enqueuer, used to
store an item, used to take an item, given up by its dequeuer. -/
structure Tickets (V : Type) where
  drawn : Set ℕ
  stored : Set (ℕ × V)
  taken : Set ℕ
  left : Set ℕ

inductive Mark (V : Type)
  | drew (t : ℕ)
  | put (t : ℕ) (v : V)
  | drewHead (h : ℕ)
  | took (h : ℕ) (v : V)
  | gaveUp (h : ℕ)

def Tickets.record {V : Type} (k : Tickets V) : Option (Mark V) → Tickets V
  | none => k
  | some (.drew t) => { k with drawn := insert t k.drawn }
  | some (.put t v) => { k with stored := insert (t, v) k.stored }
  | some (.drewHead _) => k
  | some (.took h _) => { k with taken := insert h k.taken }
  | some (.gaveUp h) => { k with left := insert h k.left }

/-- What an enqueuer has read of its cell so far. -/
inductive EnqStage
  | start
  | seen (i : ℕ) (f : Bool)
  | fits (i : ℕ)
  | ready (i : ℕ) (f : Bool)

inductive DeqStage
  | start
  | seen (i : ℕ)
  | fits (i : ℕ)

inductive View
  | out
  | enq (t : ℕ) (stage : EnqStage)
  | deq (h : ℕ) (stage : DeqStage)

def View.enqTicket : View → Option ℕ
  | .enq t _ => some t
  | _ => none

def View.deqTicket : View → Option ℕ
  | .deq h _ => some h
  | _ => none

section Moves

variable {V : Type}

def CellRing.setCell (ρ : CellRing V) (i : ℕ) (c : Cell V) : CellRing V :=
  { ρ with cell := Function.update ρ.cell i c }

/-- One atomic step of one agent on a ring of `size` cells. -/
inductive Move (size : ℕ) : CellRing V → View → Option (Mark V) → CellRing V → View → Prop
  | drawTail {ρ : CellRing V} : ρ.closed = false →
      Move size ρ .out (some (.drew ρ.tail)) { ρ with tail := ρ.tail + 1 }
        (.enq ρ.tail .start)
  | bumpTail {ρ : CellRing V} : ρ.closed = true →
      Move size ρ .out none { ρ with tail := ρ.tail + 1 } .out
  | raiseTail {ρ : CellRing V} {v : View} (h : ℕ) : ρ.closed = false → ρ.tail < h →
      Move size ρ v none { ρ with tail := h } v
  | close {ρ : CellRing V} {v : View} : Move size ρ v none { ρ with closed := true } v
  | enqLook {ρ : CellRing V} {t : ℕ} {stage : EnqStage} :
      Move size ρ (.enq t stage) none ρ
        (.enq t (.seen (ρ.cell (t % size)).index (ρ.cell (t % size)).flagged))
  | enqReady {ρ : CellRing V} {t i : ℕ} : i ≤ t →
      Move size ρ (.enq t (.seen i false)) none ρ (.enq t (.ready i false))
  | enqFits {ρ : CellRing V} {t i : ℕ} : i ≤ t →
      Move size ρ (.enq t (.seen i true)) none ρ (.enq t (.fits i))
  | enqAhead {ρ : CellRing V} {t i : ℕ} : ρ.head < t →
      Move size ρ (.enq t (.fits i)) none ρ (.enq t (.ready i true))
  | put {ρ : CellRing V} {t i : ℕ} {f : Bool} (v : V) : ρ.cell (t % size) = ⟨i, f, none⟩ →
      Move size ρ (.enq t (.ready i f)) (some (.put t v))
        (ρ.setCell (t % size) ⟨t, false, some v⟩) .out
  | enqDrop {ρ : CellRing V} {t : ℕ} {stage : EnqStage} :
      Move size ρ (.enq t stage) none ρ .out
  | drawHead {ρ : CellRing V} :
      Move size ρ .out (some (.drewHead ρ.head)) { ρ with head := ρ.head + 1 }
        (.deq ρ.head .start)
  | deqLook {ρ : CellRing V} {h : ℕ} {stage : DeqStage} :
      Move size ρ (.deq h stage) none ρ (.deq h (.seen (ρ.cell (h % size)).index))
  | deqFits {ρ : CellRing V} {h i : ℕ} : i ≤ h →
      Move size ρ (.deq h (.seen i)) none ρ (.deq h (.fits i))
  | deqBack {ρ : CellRing V} {h : ℕ} {stage : DeqStage} :
      Move size ρ (.deq h stage) none ρ (.deq h .start)
  | giveUp {ρ : CellRing V} {h i : ℕ} : h < i →
      Move size ρ (.deq h (.seen i)) (some (.gaveUp h)) ρ .out
  | take {ρ : CellRing V} {h : ℕ} {stage : DeqStage} {f : Bool} {v : V} :
      ρ.cell (h % size) = ⟨h, f, some v⟩ →
      Move size ρ (.deq h stage) (some (.took h v))
        (ρ.setCell (h % size) ⟨h + size, f, none⟩) .out
  | flag {ρ : CellRing V} {h i : ℕ} {f : Bool} {v : V} : i ≠ h →
      ρ.cell (h % size) = ⟨i, f, some v⟩ →
      Move size ρ (.deq h (.fits i)) (some (.gaveUp h))
        (ρ.setCell (h % size) ⟨i, true, some v⟩) .out
  | skip {ρ : CellRing V} {h i : ℕ} {f : Bool} : ρ.cell (h % size) = ⟨i, f, none⟩ →
      Move size ρ (.deq h (.fits i)) (some (.gaveUp h))
        (ρ.setCell (h % size) ⟨h + size, f, none⟩) .out

end Moves

/-! ## Cells only advance -/

section Cells

variable {V : Type}

/-- `c'` is `c` or a later content of the same cell.  A cell that is emptied
changes its index, so an empty content never comes back. -/
structure Cell.Le (c c' : Cell V) : Prop where
  index_le : c.index ≤ c'.index
  emptied : c'.item = none → c.index < c'.index ∨ c' = c
  kept : c'.index = c.index → c.item ≠ none → c'.item ≠ none

theorem Cell.Le.refl (c : Cell V) : Cell.Le c c := ⟨le_rfl, fun _ => Or.inr rfl, fun _ h => h⟩

/-- The contents of a cell in the order in which they follow each other: by index,
then empty before occupied, then clear before flagged while occupied. -/
def Cell.rank (c : Cell V) : ℕ ×ₗ Bool ×ₗ Bool :=
  toLex (c.index, toLex (c.item.isSome, c.item.isSome && c.flagged))

/-- The index and flag were read from this cell, and as long as the cell is
empty with that index it also still has that flag. -/
def Snapshot (c : Cell V) (i : ℕ) (f : Bool) : Prop :=
  i ≤ c.index ∧ (c.index = i → c.item = none → c.flagged = f)

/-- The cell can no longer be empty with index `i`. -/
def Beyond (c : Cell V) (i : ℕ) : Prop :=
  i < c.index ∨ (c.index = i ∧ c.item ≠ none)

theorem Snapshot.mono {c c' : Cell V} (le : Cell.Le c c') {i : ℕ} {f : Bool}
    (seen : Snapshot c i f) : Snapshot c' i f := by
  refine ⟨le_trans seen.1 le.index_le, fun sameIndex isEmpty => ?_⟩
  have := seen.1
  rcases le.emptied isEmpty with moved | rfl
  · omega
  · exact seen.2 sameIndex isEmpty

theorem Beyond.mono {c c' : Cell V} (le : Cell.Le c c') {i : ℕ}
    (beyond : Beyond c i) : Beyond c' i := by
  have := le.index_le
  rcases beyond with above | ⟨atIndex, full⟩
  · exact Or.inl (by omega)
  · rcases Nat.lt_or_ge i c'.index with above | below
    · exact Or.inl above
    · have same : c'.index = c.index := by omega
      exact Or.inr ⟨by omega, le.kept same full⟩

theorem Beyond.not_empty {c : Cell V} {i : ℕ} {f : Bool} (beyond : Beyond c i) :
    c ≠ ⟨i, f, none⟩ := by
  rintro rfl
  rcases beyond with above | ⟨_, full⟩
  · exact lt_irrefl _ above
  · exact full rfl

@[simp] theorem CellRing.setCell_same (ρ : CellRing V) (i : ℕ) (c : Cell V) :
    (ρ.setCell i c).cell i = c := by simp [CellRing.setCell]

theorem CellRing.setCell_other (ρ : CellRing V) {i j : ℕ} (c : Cell V) (h : j ≠ i) :
    (ρ.setCell i c).cell j = ρ.cell j := by simp [CellRing.setCell, h]

@[simp] theorem CellRing.setCell_head (ρ : CellRing V) (i : ℕ) (c : Cell V) :
    (ρ.setCell i c).head = ρ.head := rfl

@[simp] theorem CellRing.setCell_tail (ρ : CellRing V) (i : ℕ) (c : Cell V) :
    (ρ.setCell i c).tail = ρ.tail := rfl

@[simp] theorem CellRing.setCell_closed (ρ : CellRing V) (i : ℕ) (c : Cell V) :
    (ρ.setCell i c).closed = ρ.closed := rfl

theorem CellRing.setCell_le (ρ : CellRing V) {i : ℕ} {c : Cell V} (le : Cell.Le (ρ.cell i) c)
    (j : ℕ) : Cell.Le (ρ.cell j) ((ρ.setCell i c).cell j) := by
  by_cases same : j = i
  · subst same
    simpa using le
  · rw [CellRing.setCell_other ρ c same]
    exact Cell.Le.refl _

end Cells

/-! ## The invariant -/

section Invariant

variable {T V : Type}

structure RingInv (size : ℕ) (ρ : CellRing V) (k : Tickets V) : Prop where
  congruent : ∀ i, i < size → (ρ.cell i).index % size = i
  drawn_lt : ∀ t ∈ k.drawn, t < ρ.tail
  stored_drawn : ∀ t v, (t, v) ∈ k.stored → t ∈ k.drawn
  stored_unique : ∀ t v w, (t, v) ∈ k.stored → (t, w) ∈ k.stored → v = w
  taken_lt : ∀ h ∈ k.taken, h < ρ.head
  taken_stored : ∀ h ∈ k.taken, ∃ v, (h, v) ∈ k.stored
  left_lt : ∀ h ∈ k.left, h < ρ.head
  left_unstored : ∀ h ∈ k.left, ∀ v, (h, v) ∉ k.stored
  /-- A ticket given up by its dequeuer cannot be filled any more. -/
  blocked : ∀ h ∈ k.left,
    h < (ρ.cell (h % size)).index ∨ (ρ.cell (h % size)).flagged = true
  /-- An item stays in its cell until it is taken. -/
  present : ∀ t v, (t, v) ∈ k.stored → t ∉ k.taken →
    (ρ.cell (t % size)).index = t ∧ (ρ.cell (t % size)).item = some v
  occupied : ∀ i, i < size → ∀ v, (ρ.cell i).item = some v →
    ((ρ.cell i).index, v) ∈ k.stored ∧ (ρ.cell i).index ∉ k.taken

def EnqStage.Ok (size : ℕ) (ρ : CellRing V) (k : Tickets V) (t : ℕ) : EnqStage → Prop
  | .start => True
  | .seen i f => Snapshot (ρ.cell (t % size)) i f
  | .fits i => Snapshot (ρ.cell (t % size)) i true ∧ i ≤ t
  | .ready i f => Snapshot (ρ.cell (t % size)) i f ∧ i ≤ t ∧
      (f = true → ∀ n ∈ k.left, t ≤ n → n % size = t % size → Beyond (ρ.cell (t % size)) i)

def DeqStage.Ok (size : ℕ) (ρ : CellRing V) (h : ℕ) : DeqStage → Prop
  | .start => True
  | .seen i => i ≤ (ρ.cell (h % size)).index
  | .fits i => i ≤ h

def View.Ok (size : ℕ) (ρ : CellRing V) (k : Tickets V) : View → Prop
  | .out => True
  | .enq t stage => t ∈ k.drawn ∧ (∀ v, (t, v) ∉ k.stored) ∧ stage.Ok size ρ k t
  | .deq h stage => h < ρ.head ∧ h ∉ k.taken ∧ h ∉ k.left ∧ stage.Ok size ρ h

/-- A ring together with its tickets and the agents working on it. -/
structure Config (T V : Type) where
  ring : CellRing V
  tickets : Tickets V
  view : T → View

structure Config.Inv (size : ℕ) (σ : Config T V) : Prop where
  ring : RingInv size σ.ring σ.tickets
  views : ∀ u, (σ.view u).Ok size σ.ring σ.tickets
  enq_unique : ∀ u w t, (σ.view u).enqTicket = some t → (σ.view w).enqTicket = some t → u = w
  deq_unique : ∀ u w h, (σ.view u).deqTicket = some h → (σ.view w).deqTicket = some h → u = w
  /-- Every head ticket drawn so far is used up or held. -/
  accounted : ∀ h, h < σ.ring.head →
    h ∈ σ.tickets.taken ∨ h ∈ σ.tickets.left ∨ ∃ u, (σ.view u).deqTicket = some h

structure Config.Step (size : ℕ) (u : T) (m : Option (Mark V)) (σ σ' : Config T V) : Prop where
  move : Move size σ.ring (σ.view u) m σ'.ring (σ'.view u)
  tickets : σ'.tickets = σ.tickets.record m
  others : ∀ w, w ≠ u → σ'.view w = σ.view w

/-! ## Moves keep the ring's invariant -/

variable {size : ℕ} {ρ : CellRing V} {k : Tickets V}

/-- The enqueuer of `t` writes its item.  No dequeuer of this cell that the
item would be visible to has given up: with the flag clear by `blocked`, with
the flag set by what the enqueuer knows since it read the head. -/
theorem RingInv.put {t i : ℕ} {f : Bool} (inv : RingInv size ρ k)
    (ok : (View.enq t (.ready i f)).Ok size ρ k)
    (here : ρ.cell (t % size) = ⟨i, f, none⟩) (v : V) :
    RingInv size (ρ.setCell (t % size) ⟨t, false, some v⟩)
      { k with stored := insert (t, v) k.stored } := by
  obtain ⟨drawn, unstored, snapshot, below, ahead⟩ := ok
  have untaken : t ∉ k.taken := fun taken => by
    obtain ⟨w, stored⟩ := inv.taken_stored t taken
    exact unstored w stored
  have notLeft : ∀ n ∈ k.left, n % size = t % size → n < t := by
    intro n left sameCell
    by_contra later
    have later : t ≤ n := not_lt.mp later
    cases f with
    | false =>
        rcases inv.blocked n left with above | flagged
        · rw [sameCell, here] at above
          have : n < i := above
          omega
        · rw [sameCell, here] at flagged
          exact Bool.false_ne_true flagged
    | true => exact (ahead rfl n left later sameCell).not_empty here
  refine
    { congruent := ?_
      drawn_lt := inv.drawn_lt
      stored_drawn := ?_
      stored_unique := ?_
      taken_lt := inv.taken_lt
      taken_stored := ?_
      left_lt := inv.left_lt
      left_unstored := ?_
      blocked := ?_
      present := ?_
      occupied := ?_ }
  · intro j bound
    by_cases same : j = t % size
    · subst same
      simp
    · rw [CellRing.setCell_other ρ _ same]
      exact inv.congruent j bound
  · intro n w stored
    rcases Set.mem_insert_iff.mp stored with new | old
    · cases new
      exact drawn
    · exact inv.stored_drawn n w old
  · intro n w w' first second
    rcases Set.mem_insert_iff.mp first with new | old
    · rcases Set.mem_insert_iff.mp second with new' | old'
      · cases new
        cases new'
        rfl
      · cases new
        exact absurd old' (unstored w')
    · rcases Set.mem_insert_iff.mp second with new' | old'
      · cases new'
        exact absurd old (unstored w)
      · exact inv.stored_unique n w w' old old'
  · intro h taken
    obtain ⟨w, stored⟩ := inv.taken_stored h taken
    exact ⟨w, Set.mem_insert_of_mem _ stored⟩
  · intro h left w stored
    rcases Set.mem_insert_iff.mp stored with new | old
    · cases new
      exact lt_irrefl _ (notLeft t left rfl)
    · exact inv.left_unstored h left w old
  · intro h left
    by_cases same : h % size = t % size
    · left
      rw [same, CellRing.setCell_same]
      exact notLeft h left same
    · rw [CellRing.setCell_other ρ _ same]
      exact inv.blocked h left
  · intro n w stored free
    rcases Set.mem_insert_iff.mp stored with new | old
    · cases new
      simp
    · have atCell := inv.present n w old free
      by_cases same : n % size = t % size
      · rw [same, here] at atCell
        cases atCell.2
      · rw [CellRing.setCell_other ρ _ same]
        exact atCell
  · intro j bound w full
    by_cases same : j = t % size
    · subst same
      simp only [CellRing.setCell_same, Option.some.injEq] at full ⊢
      subst full
      exact ⟨Set.mem_insert _ _, untaken⟩
    · rw [CellRing.setCell_other ρ _ same] at full ⊢
      obtain ⟨stored, free⟩ := inv.occupied j bound w full
      exact ⟨Set.mem_insert_of_mem _ stored, free⟩

theorem RingInv.take {h : ℕ} {f : Bool} {v : V} (pos : 0 < size) (inv : RingInv size ρ k)
    (drawn : h < ρ.head) (here : ρ.cell (h % size) = ⟨h, f, some v⟩) :
    RingInv size (ρ.setCell (h % size) ⟨h + size, f, none⟩)
      { k with taken := insert h k.taken } := by
  have bound : h % size < size := Nat.mod_lt _ pos
  have stored : (h, v) ∈ k.stored := by
    have := (inv.occupied (h % size) bound v (by rw [here])).1
    rwa [here] at this
  refine
    { congruent := ?_
      drawn_lt := inv.drawn_lt
      stored_drawn := inv.stored_drawn
      stored_unique := inv.stored_unique
      taken_lt := ?_
      taken_stored := ?_
      left_lt := inv.left_lt
      left_unstored := inv.left_unstored
      blocked := ?_
      present := ?_
      occupied := ?_ }
  · intro j jBound
    by_cases same : j = h % size
    · subst same
      simp
    · rw [CellRing.setCell_other ρ _ same]
      exact inv.congruent j jBound
  · intro n taken
    rcases Set.mem_insert_iff.mp taken with rfl | old
    · exact drawn
    · exact inv.taken_lt n old
  · intro n taken
    rcases Set.mem_insert_iff.mp taken with rfl | old
    · exact ⟨v, stored⟩
    · exact inv.taken_stored n old
  · intro n left
    have before := inv.blocked n left
    by_cases same : n % size = h % size
    · rw [same, here] at before
      rw [same, CellRing.setCell_same]
      rcases before with above | flagged
      · exact Or.inl (by
          have : n < h := above
          show n < h + size
          omega)
      · exact Or.inr flagged
    · rw [CellRing.setCell_other ρ _ same]
      exact before
  · intro n w stored' free
    have free' : n ∉ k.taken := fun old => free (Set.mem_insert_of_mem _ old)
    have atCell := inv.present n w stored' free'
    by_cases same : n % size = h % size
    · rw [same, here] at atCell
      have : h = n := atCell.1
      exact absurd (this ▸ Set.mem_insert h k.taken) free
    · rw [CellRing.setCell_other ρ _ same]
      exact atCell
  · intro j jBound w full
    by_cases same : j = h % size
    · subst same
      simp at full
    · rw [CellRing.setCell_other ρ _ same] at full ⊢
      obtain ⟨storedJ, free⟩ := inv.occupied j jBound w full
      refine ⟨storedJ, fun taken => ?_⟩
      rcases Set.mem_insert_iff.mp taken with eq | old
      · have := inv.congruent j jBound
        rw [eq] at this
        exact same this.symm
      · exact free old

/-- A dequeuer leaves its cell: either the index is already past its ticket, or
it has just replaced the cell by one that blocks the ticket. -/
theorem RingInv.gaveUp {h : ℕ} (inv : RingInv size ρ k) (drawn : h < ρ.head)
    (unstored : ∀ v, (h, v) ∉ k.stored)
    (blocks : h < (ρ.cell (h % size)).index ∨ (ρ.cell (h % size)).flagged = true) :
    RingInv size ρ { k with left := insert h k.left } := by
  refine { inv with
    left_lt := ?_
    left_unstored := ?_
    blocked := ?_ }
  · intro n left
    rcases Set.mem_insert_iff.mp left with rfl | old
    · exact drawn
    · exact inv.left_lt n old
  · intro n left
    rcases Set.mem_insert_iff.mp left with rfl | old
    · exact unstored
    · exact inv.left_unstored n old
  · intro n left
    rcases Set.mem_insert_iff.mp left with rfl | old
    · exact blocks
    · exact inv.blocked n old

theorem RingInv.flag {h i : ℕ} {f : Bool} {v : V} (inv : RingInv size ρ k)
    (here : ρ.cell (h % size) = ⟨i, f, some v⟩) :
    RingInv size (ρ.setCell (h % size) ⟨i, true, some v⟩) k := by
  refine
    { congruent := ?_
      drawn_lt := inv.drawn_lt
      stored_drawn := inv.stored_drawn
      stored_unique := inv.stored_unique
      taken_lt := inv.taken_lt
      taken_stored := inv.taken_stored
      left_lt := inv.left_lt
      left_unstored := inv.left_unstored
      blocked := ?_
      present := ?_
      occupied := ?_ }
  · intro j bound
    by_cases same : j = h % size
    · subst same
      have := inv.congruent _ bound
      rw [here] at this
      simpa using this
    · rw [CellRing.setCell_other ρ _ same]
      exact inv.congruent j bound
  · intro n left
    by_cases same : n % size = h % size
    · rw [same, CellRing.setCell_same]
      exact Or.inr rfl
    · rw [CellRing.setCell_other ρ _ same]
      exact inv.blocked n left
  · intro n w stored free
    have atCell := inv.present n w stored free
    by_cases same : n % size = h % size
    · rw [same, here] at atCell
      rw [same, CellRing.setCell_same]
      exact atCell
    · rw [CellRing.setCell_other ρ _ same]
      exact atCell
  · intro j bound w full
    by_cases same : j = h % size
    · subst same
      rw [CellRing.setCell_same] at full ⊢
      have := inv.occupied _ bound w (by rw [here]; exact full)
      rwa [here] at this
    · rw [CellRing.setCell_other ρ _ same] at full ⊢
      exact inv.occupied j bound w full

theorem RingInv.skip {h i : ℕ} {f : Bool} (inv : RingInv size ρ k)
    (below : i ≤ h) (here : ρ.cell (h % size) = ⟨i, f, none⟩) :
    RingInv size (ρ.setCell (h % size) ⟨h + size, f, none⟩) k := by
  refine
    { congruent := ?_
      drawn_lt := inv.drawn_lt
      stored_drawn := inv.stored_drawn
      stored_unique := inv.stored_unique
      taken_lt := inv.taken_lt
      taken_stored := inv.taken_stored
      left_lt := inv.left_lt
      left_unstored := inv.left_unstored
      blocked := ?_
      present := ?_
      occupied := ?_ }
  · intro j bound
    by_cases same : j = h % size
    · subst same
      simp
    · rw [CellRing.setCell_other ρ _ same]
      exact inv.congruent j bound
  · intro n left
    have before := inv.blocked n left
    by_cases same : n % size = h % size
    · rw [same, here] at before
      rw [same, CellRing.setCell_same]
      rcases before with above | flagged
      · exact Or.inl (by
          have : n < i := above
          show n < h + size
          omega)
      · exact Or.inr flagged
    · rw [CellRing.setCell_other ρ _ same]
      exact before
  · intro n w stored free
    have atCell := inv.present n w stored free
    by_cases same : n % size = h % size
    · rw [same, here] at atCell
      cases atCell.2
    · rw [CellRing.setCell_other ρ _ same]
      exact atCell
  · intro j bound w full
    by_cases same : j = h % size
    · subst same
      simp at full
    · rw [CellRing.setCell_other ρ _ same] at full ⊢
      exact inv.occupied j bound w full

theorem RingInv.unstored_of_cell {h : ℕ} (inv : RingInv size ρ k) (free : h ∉ k.taken)
    (elsewhere : (ρ.cell (h % size)).index ≠ h ∨ (ρ.cell (h % size)).item = none) :
    ∀ v, (h, v) ∉ k.stored := by
  intro v stored
  obtain ⟨atIndex, full⟩ := inv.present h v stored free
  rcases elsewhere with other | empty
  · exact other atIndex
  · rw [full] at empty
    cases empty

theorem Move.ringInv {v v' : View} {m : Option (Mark V)} {ρ' : CellRing V} (pos : 0 < size)
    (inv : RingInv size ρ k) (ok : v.Ok size ρ k) (move : Move size ρ v m ρ' v') :
    RingInv size ρ' (k.record m) := by
  cases move with
  | drawTail open_ =>
      refine { inv with drawn_lt := ?_, stored_drawn := ?_ }
      · intro t drawn
        rcases Set.mem_insert_iff.mp drawn with rfl | old
        · exact Nat.lt_succ_self _
        · exact Nat.lt_succ_of_lt (inv.drawn_lt t old)
      · intro t w stored
        exact Set.mem_insert_of_mem _ (inv.stored_drawn t w stored)
  | bumpTail => exact { inv with drawn_lt := fun t drawn => Nat.lt_succ_of_lt (inv.drawn_lt t drawn) }
  | raiseTail h _ higher =>
      exact { inv with drawn_lt := fun t drawn => (inv.drawn_lt t drawn).trans higher }
  | close => exact { inv with }
  | enqLook | enqReady | enqFits | enqAhead | enqDrop | deqLook | deqFits | deqBack => exact inv
  | put w here => exact inv.put ok here w
  | drawHead =>
      exact { inv with
        taken_lt := fun h taken => Nat.lt_succ_of_lt (inv.taken_lt h taken)
        left_lt := fun h left => Nat.lt_succ_of_lt (inv.left_lt h left) }
  | @giveUp h i above =>
      obtain ⟨drawn, free, _, seen⟩ := ok
      have passed : h < (ρ.cell (h % size)).index := lt_of_lt_of_le above seen
      exact inv.gaveUp drawn (inv.unstored_of_cell free (Or.inl (Nat.ne_of_gt passed)))
        (Or.inl passed)
  | take here => exact inv.take pos ok.1 here
  | @flag h i f w other here =>
      obtain ⟨drawn, free, _, below⟩ := ok
      refine (inv.flag here).gaveUp drawn ?_ (Or.inr (by simp))
      exact inv.unstored_of_cell free (Or.inl (by rw [here]; exact other))
  | @skip h i f here =>
      obtain ⟨drawn, free, _, below⟩ := ok
      refine (inv.skip below here).gaveUp drawn ?_ (Or.inl (by simp [pos]))
      exact inv.unstored_of_cell free (Or.inr (by rw [here]))

/-! ## What a move means to the other agents -/

variable {v v' : View} {m : Option (Mark V)} {ρ' : CellRing V}

theorem Move.head_le (move : Move size ρ v m ρ' v') : ρ.head ≤ ρ'.head := by
  cases move <;> simp

theorem Move.tail_le (move : Move size ρ v m ρ' v') : ρ.tail ≤ ρ'.tail := by
  cases move with
  | raiseTail h _ below => exact below.le
  | _ => simp

theorem Move.stays_closed (move : Move size ρ v m ρ' v') (closed : ρ.closed = true) :
    ρ'.closed = true := by
  cases move <;> simp_all

theorem Move.cell_le (pos : 0 < size) (ok : v.Ok size ρ k) (move : Move size ρ v m ρ' v')
    (j : ℕ) : Cell.Le (ρ.cell j) (ρ'.cell j) := by
  cases move with
  | @put t i f w here =>
      have below : i ≤ t := ok.2.2.2.1
      refine CellRing.setCell_le ρ ?_ j
      rw [here]
      exact ⟨below, nofun, fun _ full => absurd rfl full⟩
  | @take h stage f w here =>
      refine CellRing.setCell_le ρ ?_ j
      rw [here]
      exact ⟨Nat.le_add_right _ _, fun _ => Or.inl (Nat.lt_add_of_pos_right pos),
        fun same => absurd same (by simp; omega)⟩
  | @flag h i f w other here =>
      refine CellRing.setCell_le ρ ?_ j
      rw [here]
      exact ⟨le_rfl, nofun, fun _ full => full⟩
  | @skip h i f here =>
      have below : i ≤ h := ok.2.2.2
      refine CellRing.setCell_le ρ ?_ j
      rw [here]
      exact ⟨Nat.le_add_right_of_le below, fun _ => Or.inl (by simp; omega),
        fun _ full => absurd rfl full⟩
  | _ => exact Cell.Le.refl _

/-- A move that changes a cell makes its rank larger. -/
theorem Move.cell_rank (pos : 0 < size) (ok : v.Ok size ρ k) (move : Move size ρ v m ρ' v')
    (j : ℕ) : ρ'.cell j = ρ.cell j ∨ (ρ.cell j).rank < (ρ'.cell j).rank := by
  have set : ∀ i c, (c = ρ.cell i ∨ (ρ.cell i).rank < c.rank) →
      (ρ.setCell i c).cell j = ρ.cell j ∨ (ρ.cell j).rank < ((ρ.setCell i c).cell j).rank := by
    intro i c rises
    by_cases same : j = i
    · subst same
      simpa using rises
    · exact Or.inl (CellRing.setCell_other ρ c same)
  cases move with
  | @put t i f w here =>
      have below : i ≤ t := ok.2.2.2.1
      refine set _ _ (Or.inr ?_)
      rw [here]
      rcases below.lt_or_eq with less | rfl
      · exact Prod.Lex.left _ _ less
      · exact Prod.Lex.right _ (Prod.Lex.left _ _ rfl)
  | @take h stage f w here =>
      refine set _ _ (Or.inr ?_)
      rw [here]
      exact Prod.Lex.left _ _ (Nat.lt_add_of_pos_right pos)
  | @flag h i f w other here =>
      refine set _ _ ?_
      rw [here]
      cases f with
      | false => exact Or.inr (Prod.Lex.right _ (Prod.Lex.right _ rfl))
      | true => exact Or.inl rfl
  | @skip h i f here =>
      have below : i ≤ h := ok.2.2.2
      refine set _ _ (Or.inr ?_)
      rw [here]
      exact Prod.Lex.left _ _ (below.trans_lt (Nat.lt_add_of_pos_right pos))
  | _ => exact Or.inl rfl

theorem Move.drawn_subset (move : Move size ρ v m ρ' v') {t : ℕ} (drawn : t ∈ k.drawn) :
    t ∈ (k.record m).drawn := by
  cases move <;> simp_all [Tickets.record]

theorem Move.drawn_of_closed (move : Move size ρ v m ρ' v') (closed : ρ.closed = true)
    {t : ℕ} (drawn : t ∈ (k.record m).drawn) : t ∈ k.drawn := by
  cases move <;> simp_all [Tickets.record]

theorem Move.stored_new (move : Move size ρ v m ρ' v') {t : ℕ} {x : V}
    (stored : (t, x) ∈ (k.record m).stored) : (t, x) ∈ k.stored ∨ v.enqTicket = some t := by
  cases move with
  | put w here =>
      rcases Set.mem_insert_iff.mp stored with new | old
      · cases new
        exact Or.inr rfl
      · exact Or.inl old
  | _ => exact Or.inl stored

theorem Move.taken_new (move : Move size ρ v m ρ' v') {h : ℕ}
    (taken : h ∈ (k.record m).taken) : h ∈ k.taken ∨ v.deqTicket = some h := by
  cases move with
  | take here =>
      rcases Set.mem_insert_iff.mp taken with rfl | old
      · exact Or.inr rfl
      · exact Or.inl old
  | _ => exact Or.inl taken

/-- When a dequeuer gives up, its cell has moved past every content that an
enqueuer with the same or an earlier ticket could have read. -/
theorem Move.left_new (ok : v.Ok size ρ k) (pos : 0 < size)
    (move : Move size ρ v m ρ' v') {n : ℕ} (left : n ∈ (k.record m).left) :
    n ∈ k.left ∨ (v.deqTicket = some n ∧
      ∀ i, i ≤ (ρ.cell (n % size)).index → i ≤ n → Beyond (ρ'.cell (n % size)) i) := by
  cases move with
  | @giveUp h i above =>
      rcases Set.mem_insert_iff.mp left with rfl | old
      · have seen : i ≤ (ρ.cell (n % size)).index := ok.2.2.2
        exact Or.inr ⟨rfl, fun j _ below => Or.inl (by omega)⟩
      · exact Or.inl old
  | @flag h i f w other here =>
      rcases Set.mem_insert_iff.mp left with rfl | old
      · refine Or.inr ⟨rfl, fun j read _ => ?_⟩
        rw [here] at read
        rw [CellRing.setCell_same]
        rcases Nat.lt_or_eq_of_le read with above | same
        · exact Or.inl above
        · exact Or.inr ⟨same.symm, by simp⟩
      · exact Or.inl old
  | @skip h i f here =>
      rcases Set.mem_insert_iff.mp left with rfl | old
      · refine Or.inr ⟨rfl, fun j _ below => Or.inl ?_⟩
        rw [CellRing.setCell_same]
        show j < n + size
        omega
      · exact Or.inl old
  | _ => exact Or.inl left

theorem EnqStage.Ok.stable {stage : EnqStage} {t : ℕ} (pos : 0 < size)
    (ok : v.Ok size ρ k) (move : Move size ρ v m ρ' v') (held : stage.Ok size ρ k t) :
    stage.Ok size ρ' (k.record m) t := by
  have le := move.cell_le pos ok (t % size)
  cases stage with
  | start => trivial
  | seen i f => exact Snapshot.mono le held
  | fits i => exact ⟨Snapshot.mono le held.1, held.2⟩
  | ready i f =>
      obtain ⟨snapshot, below, ahead⟩ := held
      refine ⟨snapshot.mono le, below, fun flagged n left later sameCell => ?_⟩
      rcases move.left_new ok pos left with old | ⟨_, beyond⟩
      · exact (ahead flagged n old later sameCell).mono le
      · rw [sameCell] at beyond
        exact beyond i snapshot.1 (below.trans later)

theorem View.Ok.stable {w : View} (pos : 0 < size)
    (ok : v.Ok size ρ k) (move : Move size ρ v m ρ' v') (held : w.Ok size ρ k)
    (enqOther : ∀ t, w.enqTicket = some t → v.enqTicket ≠ some t)
    (deqOther : ∀ h, w.deqTicket = some h → v.deqTicket ≠ some h) :
    w.Ok size ρ' (k.record m) := by
  cases w with
  | out => trivial
  | enq t stage =>
      obtain ⟨drawn, unstored, stageOk⟩ := held
      refine ⟨move.drawn_subset drawn, fun x stored => ?_, stageOk.stable pos ok move⟩
      rcases move.stored_new stored with old | own
      · exact unstored x old
      · exact enqOther t rfl own
  | deq h stage =>
      obtain ⟨drawn, free, stays, stageOk⟩ := held
      refine ⟨drawn.trans_le move.head_le, fun taken => ?_, fun left => ?_, ?_⟩
      · rcases move.taken_new taken with old | own
        · exact free old
        · exact deqOther h rfl own
      · rcases move.left_new ok pos left with old | ⟨own, _⟩
        · exact stays old
        · exact deqOther h rfl own
      · cases stage with
        | start => trivial
        | seen i => exact le_trans stageOk (move.cell_le pos ok _).index_le
        | fits i => exact stageOk

/-- The moving agent's own view after the move. -/
theorem Move.ok_after (inv : RingInv size ρ k) (ok : v.Ok size ρ k)
    (move : Move size ρ v m ρ' v') : v'.Ok size ρ' (k.record m) := by
  cases move with
  | drawTail open_ =>
      refine ⟨Set.mem_insert _ _, fun x stored => ?_, trivial⟩
      exact lt_irrefl _ (inv.drawn_lt _ (inv.stored_drawn _ x stored))
  | raiseTail h _ _ =>
      cases v with
      | out => trivial
      | enq t stage => cases stage <;> exact ok
      | deq n stage => cases stage <;> exact ok
  | close =>
      cases v with
      | out => trivial
      | enq t stage => cases stage <;> exact ok
      | deq n stage => cases stage <;> exact ok
  | enqLook => exact ⟨ok.1, ok.2.1, le_rfl, fun _ _ => rfl⟩
  | enqReady below => exact ⟨ok.1, ok.2.1, ok.2.2, below, fun flagged => by cases flagged⟩
  | enqFits below => exact ⟨ok.1, ok.2.1, ok.2.2, below⟩
  | enqAhead ahead =>
      refine ⟨ok.1, ok.2.1, ok.2.2.1, ok.2.2.2, fun _ n left later _ => ?_⟩
      -- no dequeuer at or after this ticket has even started
      have := inv.left_lt n left
      omega
  | drawHead =>
      refine ⟨Nat.lt_succ_self _, fun taken => ?_, fun left => ?_, trivial⟩
      · exact lt_irrefl _ (inv.taken_lt _ taken)
      · exact lt_irrefl _ (inv.left_lt _ left)
  | deqLook => exact ⟨ok.1, ok.2.1, ok.2.2.1, le_rfl⟩
  | deqFits below => exact ⟨ok.1, ok.2.1, ok.2.2.1, below⟩
  | deqBack => exact ⟨ok.1, ok.2.1, ok.2.2.1, trivial⟩
  | _ => trivial

theorem Move.enqTicket_after (move : Move size ρ v m ρ' v') {t : ℕ}
    (holds : v'.enqTicket = some t) : v.enqTicket = some t ∨ t = ρ.tail := by
  cases move <;> simp_all [View.enqTicket]

theorem Move.deqTicket_after (move : Move size ρ v m ρ' v') {h : ℕ}
    (holds : v'.deqTicket = some h) : v.deqTicket = some h ∨ h = ρ.head := by
  cases move <;> simp_all [View.deqTicket]

theorem View.Ok.enq_lt {w : View} (inv : RingInv size ρ k) (ok : w.Ok size ρ k) {t : ℕ}
    (holds : w.enqTicket = some t) : t < ρ.tail := by
  cases w with
  | enq n stage =>
      cases holds
      exact inv.drawn_lt t ok.1
  | _ => cases holds

theorem View.Ok.deq_lt {w : View} (ok : w.Ok size ρ k) {h : ℕ}
    (holds : w.deqTicket = some h) : h < ρ.head := by
  cases w with
  | deq n stage =>
      cases holds
      exact ok.1
  | _ => cases holds

theorem Move.ticket_released (move : Move size ρ v m ρ' v') {h : ℕ}
    (holds : v.deqTicket = some h) :
    v'.deqTicket = some h ∨ h ∈ (k.record m).taken ∨ h ∈ (k.record m).left := by
  cases move <;> simp_all [View.deqTicket, Tickets.record]

theorem Move.head_new (move : Move size ρ v m ρ' v') {h : ℕ} (drawn : h < ρ'.head) :
    h < ρ.head ∨ v'.deqTicket = some h := by
  cases move with
  | drawHead =>
      rcases Nat.lt_succ_iff_lt_or_eq.mp drawn with old | rfl
      · exact Or.inl old
      · exact Or.inr rfl
  | _ => exact Or.inl drawn

theorem Move.taken_subset (move : Move size ρ v m ρ' v') {h : ℕ} (taken : h ∈ k.taken) :
    h ∈ (k.record m).taken := by
  cases move <;> simp_all [Tickets.record]

theorem Move.left_subset (move : Move size ρ v m ρ' v') {h : ℕ} (left : h ∈ k.left) :
    h ∈ (k.record m).left := by
  cases move <;> simp_all [Tickets.record]

/-! Inversion by the mark a move leaves. -/

theorem Move.of_drew {t : ℕ} (move : Move size ρ v (some (.drew t)) ρ' v') :
    t = ρ.tail ∧ ρ.closed = false ∧ v' = .enq t .start := by
  cases move with
  | drawTail isOpen => exact ⟨rfl, isOpen, rfl⟩

theorem Move.of_put {t : ℕ} {x : V} (move : Move size ρ v (some (.put t x)) ρ' v') :
    v.enqTicket = some t ∧ v' = .out := by
  cases move with
  | put => exact ⟨rfl, rfl⟩

theorem Move.of_drewHead {h : ℕ} (move : Move size ρ v (some (.drewHead h)) ρ' v') :
    h = ρ.head ∧ ρ'.head = h + 1 ∧ v' = .deq h .start := by
  cases move with
  | drawHead => exact ⟨rfl, rfl, rfl⟩

theorem Move.of_gaveUp {h : ℕ} (move : Move size ρ v (some (.gaveUp h)) ρ' v') :
    v.deqTicket = some h ∧ v' = .out := by
  cases move <;> exact ⟨rfl, rfl⟩

theorem Move.of_took {h : ℕ} {x : V} (move : Move size ρ v (some (.took h x)) ρ' v') :
    v.deqTicket = some h ∧ v' = .out ∧ ∃ f, ρ.cell (h % size) = ⟨h, f, some x⟩ := by
  cases move with
  | take here => exact ⟨rfl, rfl, _, here⟩

theorem Move.enqTicket_cases (move : Move size ρ v m ρ' v') {t : ℕ}
    (holds : v'.enqTicket = some t) : m = none ∧ v.enqTicket = some t ∨ m = some (.drew t) := by
  cases move <;> simp_all [View.enqTicket]

theorem Move.deqTicket_cases (move : Move size ρ v m ρ' v') {h : ℕ}
    (holds : v'.deqTicket = some h) :
    m = none ∧ v.deqTicket = some h ∨ m = some (.drewHead h) := by
  cases move <;> simp_all [View.deqTicket]

theorem View.Ok.not_left {w : View} (ok : w.Ok size ρ k) {h : ℕ}
    (holds : w.deqTicket = some h) : h ∉ k.left := by
  cases w with
  | deq n stage =>
      cases holds
      exact ok.2.2.1
  | _ => cases holds

theorem Config.Step.inv {u : T} {σ σ' : Config T V} (pos : 0 < size)
    (inv : σ.Inv size) (step : Config.Step size u m σ σ') : σ'.Inv size := by
  classical
  obtain ⟨move, tickets, others⟩ := step
  have own := inv.views u
  have ringInv := move.ringInv pos inv.ring own
  have distinctEnq : ∀ w t, w ≠ u → (σ.view w).enqTicket = some t →
      (σ.view u).enqTicket ≠ some t :=
    fun w t other holds holds' => other (inv.enq_unique w u t holds holds')
  have distinctDeq : ∀ w h, w ≠ u → (σ.view w).deqTicket = some h →
      (σ.view u).deqTicket ≠ some h :=
    fun w h other holds holds' => other (inv.deq_unique w u h holds holds')
  refine
    { ring := ?_
      views := ?_
      enq_unique := ?_
      deq_unique := ?_
      accounted := ?_ }
  · rw [tickets]
    exact ringInv
  · intro w
    rw [tickets]
    by_cases same : w = u
    · subst same
      exact move.ok_after inv.ring own
    · rw [others w same]
      exact View.Ok.stable pos own move (inv.views w) (fun t => distinctEnq w t same)
        (fun h => distinctDeq w h same)
  · -- a ticket that appears in the moving agent's view is its own or the next one
    have fresh : ∀ w t, w ≠ u → (σ'.view u).enqTicket = some t →
        (σ.view w).enqTicket ≠ some t := by
      intro w t other holds holds'
      rcases move.enqTicket_after holds with old | rfl
      · exact distinctEnq w t other holds' old
      · exact lt_irrefl _ ((inv.views w).enq_lt inv.ring holds')
    intro w w' t first second
    by_cases isU : w = u
    · by_cases isU' : w' = u
      · rw [isU, isU']
      · subst isU
        rw [others w' isU'] at second
        exact absurd second (fresh w' t isU' first)
    · by_cases isU' : w' = u
      · subst isU'
        rw [others w isU] at first
        exact absurd first (fresh w t isU second)
      · rw [others w isU] at first
        rw [others w' isU'] at second
        exact inv.enq_unique w w' t first second
  · have fresh : ∀ w h, w ≠ u → (σ'.view u).deqTicket = some h →
        (σ.view w).deqTicket ≠ some h := by
      intro w h other holds holds'
      rcases move.deqTicket_after holds with old | rfl
      · exact distinctDeq w h other holds' old
      · exact lt_irrefl _ ((inv.views w).deq_lt holds')
    intro w w' h first second
    by_cases isU : w = u
    · by_cases isU' : w' = u
      · rw [isU, isU']
      · subst isU
        rw [others w' isU'] at second
        exact absurd second (fresh w' h isU' first)
    · by_cases isU' : w' = u
      · subst isU'
        rw [others w isU] at first
        exact absurd first (fresh w h isU second)
      · rw [others w isU] at first
        rw [others w' isU'] at second
        exact inv.deq_unique w w' h first second
  · intro h drawn
    rw [tickets]
    rcases move.head_new drawn with old | held
    · rcases inv.accounted h old with taken | left | ⟨w, holds⟩
      · exact Or.inl (move.taken_subset taken)
      · exact Or.inr (Or.inl (move.left_subset left))
      · by_cases same : w = u
        · subst same
          rcases move.ticket_released (k := σ.tickets) holds with kept | taken | left
          · exact Or.inr (Or.inr ⟨w, kept⟩)
          · exact Or.inl taken
          · exact Or.inr (Or.inl left)
        · exact Or.inr (Or.inr ⟨w, by rw [others w same]; exact holds⟩)
    · exact Or.inr (Or.inr ⟨u, held⟩)

/-! ## Where an item is -/

/-- An item is taken, or still in its cell with its ticket undrawn or held. -/
theorem Config.Inv.item_cases {σ : Config T V} (inv : σ.Inv size) {t : ℕ} {x : V}
    (stored : (t, x) ∈ σ.tickets.stored) :
    t ∈ σ.tickets.taken ∨
      (t ∉ σ.tickets.taken ∧ (σ.ring.cell (t % size)).index = t ∧
        (σ.ring.cell (t % size)).item = some x ∧
        (σ.ring.head ≤ t ∨ ∃ u, (σ.view u).deqTicket = some t)) := by
  by_cases taken : t ∈ σ.tickets.taken
  · exact Or.inl taken
  · obtain ⟨atIndex, full⟩ := inv.ring.present t x stored taken
    refine Or.inr ⟨taken, atIndex, full, ?_⟩
    rcases Nat.lt_or_ge t σ.ring.head with drawn | undrawn
    · rcases inv.accounted t drawn with taken' | left | held
      · exact absurd taken' taken
      · exact absurd stored (inv.ring.left_unstored t left x)
      · exact Or.inr held
    · exact Or.inl undrawn

/-- Every ticket handed to an enqueuer has been drawn by a dequeuer as well. -/
def Drained (ρ : CellRing V) (k : Tickets V) : Prop := ∀ t ∈ k.drawn, t < ρ.head

theorem Drained.move (drained : Drained ρ k) (closed : ρ.closed = true)
    (move : Move size ρ v m ρ' v') : Drained ρ' (k.record m) :=
  fun t drawn => (drained t (move.drawn_of_closed closed drawn)).trans_le move.head_le

/-! ## Initial rings -/

def CellRing.start : CellRing V :=
  { head := 0, tail := 0, closed := false, cell := fun i => ⟨i, false, none⟩ }

def Tickets.start : Tickets V := { drawn := ∅, stored := ∅, taken := ∅, left := ∅ }

theorem Config.Inv.idle {σ : Config T V} (ring : RingInv size σ.ring σ.tickets)
    (undrawn : σ.ring.head = 0) (out : ∀ u, σ.view u = .out) : σ.Inv size := by
  refine ⟨ring, fun u => ?_, fun u w t holds _ => ?_, fun u w h holds _ => ?_, fun h drawn => ?_⟩
  · rw [out u]
    trivial
  · rw [out u] at holds
    cases holds
  · rw [out u] at holds
    cases holds
  · rw [undrawn] at drawn
    exact absurd drawn (Nat.not_lt_zero h)

theorem ringInv_start : RingInv size (CellRing.start : CellRing V) Tickets.start := by
  constructor <;> simp [CellRing.start, Tickets.start]
  exact fun i bound => Nat.mod_eq_of_lt bound

end Invariant

end Elcrq.Concurrent.TicketRing
