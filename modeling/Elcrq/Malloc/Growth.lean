import Elcrq.Malloc.Coalesce

/-! # Growing the heap

When no free extent is long enough, `valloc` moves the break and gives the new pages
descriptors. The descriptors may need new pages of their own, which come from the free
extents while there are any and from the break after that. -/

set_option autoImplicit false

namespace Elcrq.Malloc

open Elcrq.Store

section Frame

variable {h h' : Heap} {T : List Block} {top p n e : ℕ} {k k' : Kind}

theorem Inv.congr (inv : Inv h T top) (lists : h'.lists = h.lists)
    (desc : ∀ n, n < top → h'.desc n = h.desc n) : Inv h' T top := by
  refine ⟨inv.tiling, inv.origin, inv.coalesced, fun x member => ?_, lists ▸ inv.listed⟩
  refine (inv.described x member).congr (inv.len_pos member) fun n _ below => desc n ?_
  have := inv.tiling.mem_bounds member
  omega

theorem Change.congr {h'' : Heap} {T' : List Block} {gone come : Block → Prop}
    (change : Change h h' T T' gone come) (inv : Inv h T top)
    (desc : ∀ n, n < top → h''.desc n = h'.desc n) : Change h h'' T T' gone come := by
  refine ⟨change.stays, change.source, fun x member busy stays n above below => ?_⟩
  have := inv.tiling.mem_bounds member
  rw [desc n (by omega), change.desc x member busy stays n above below]

theorem Inv.relabel (h' : Heap) (inv : Inv h T top) (member : (⟨p, n, k⟩ : Block) ∈ T) (busy : k ≠ .free)
    (busy' : k' ≠ .free) (notOrigin : p ≠ 0) (lists : h'.lists = h.lists)
    (desc : ∀ m, m < p ∨ p + n ≤ m → h'.desc m = h.desc m)
    (described : Described h'.desc ⟨p, n, k'⟩) :
    ∃ T', Inv h' T' top ∧ (⟨p, n, k'⟩ : Block) ∈ T' ∧
      (∀ x, x.kind = .free → (x ∈ T' ↔ x ∈ T)) ∧
      Change h h' T T' (fun x => x = ⟨p, n, k⟩) (fun x => x = ⟨p, n, k'⟩) := by
  obtain ⟨T₁, T₂, rfl⟩ := List.append_of_mem member
  change Inv h (T₁ ++ ([⟨p, n, k⟩] ++ T₂)) top at inv
  have frame : ∀ y, y ∈ T₁ ∨ y ∈ T₂ → ∀ m, y.start ≤ m → m < y.stop → h'.desc m = h.desc m :=
    fun y other m above below => desc m (inv.outside other above below)
  have sameFree : ∀ x : Block, x.kind = .free →
      (x ∈ T₁ ++ ([⟨p, n, k'⟩] ++ T₂) ↔ x ∈ T₁ ++ ([⟨p, n, k⟩] ++ T₂)) := by
    intro x free
    have notOld : x ≠ ⟨p, n, k⟩ := fun same => busy (by rw [same] at free; exact free)
    have notNew : x ≠ ⟨p, n, k'⟩ := fun same => busy' (by rw [same] at free; exact free)
    simp [notOld, notNew]
  refine ⟨T₁ ++ ([⟨p, n, k'⟩] ++ T₂), inv.replace ?_ ?_ ?_ frame ?_ ?_, by simp, sameFree,
    Change.of_replace frame (fun x here _ => List.mem_singleton.mp here)
      (fun x here _ => List.mem_singleton.mp here) ?_⟩
  · intro s t tiled
    exact tiled
  · obtain ⟨first, later, -⟩ := List.isChain_append.mp inv.coalesced
    refine List.isChain_append.mpr ⟨first, List.isChain_cons.mpr
      ⟨fun y _ both => busy' both.1, (List.isChain_cons.mp later).2⟩, ?_⟩
    intro y _ z head both
    simp only [List.cons_append, List.head?_cons, Option.mem_def, Option.some.injEq] at head
    subst head
    exact busy' both.2
  · intro same
    have := List.mem_singleton.mp same
    simp only [Tile.mk.injEq] at this
    omega
  · intro y here
    rw [List.mem_singleton.mp here]
    exact described
  · obtain ⟨gs, good, listed⟩ := inv.listed
    refine ⟨gs, lists ▸ good, fun i j => ?_⟩
    rw [listed, sameFree _ rfl]
  · rintro x other - rfl
    have := inv.len_pos (x := ⟨p, n, k⟩) (by simp)
    simp only at this
    have := inv.outside other (n := p) le_rfl (by simp only [Tile.stop]; omega)
    simp only [Tile.stop] at this
    omega

end Frame

section Grow

variable {os : ℕ → Bool} {h : Heap} {T : List Block} {e i : ℕ}

theorem sbrk_up (os : ℕ → Bool) {d : ℕ} (positive : 0 < d) :
    sbrk os h d = if os (h.brk + d) = true then some (h.brk, { h with brk := h.brk + d }) else none := by
  have notNegative : ¬ ((h.brk : ℤ) + d < 0) := by omega
  have notBelow : ¬ ((h.brk : ℤ) + d ≤ h.brk) := by omega
  have natural : ((h.brk : ℤ) + d).toNat = h.brk + d := by omega
  simp only [sbrk, notNegative, if_false, notBelow, false_or, natural]

/-- One page of descriptors more, without descriptors in it. -/
def addTable (h : Heap) (i p : ℕ) : Heap :=
  { h with
    pages := Function.update h.pages i p
    desc := fun n => if i1 n = i then ⟨0, 0, 0, 0⟩ else h.desc n }

theorem addTable_desc {p n : ℕ} (below : n < i * perTable) : (addTable h i p).desc n = h.desc n := by
  refine if_neg ?_
  have : n / perTable < i := Nat.div_lt_of_lt_mul (by rwa [Nat.mul_comm])
  simp only [i1]
  omega

/-- What `added` more pages of descriptors from the break do, from the one with index `i` on. -/
structure Tables (h h' : Heap) (i left : ℕ) : Prop where
  lists : h'.lists = h.lists
  endPage : h'.endPage = h.endPage
  master : h'.master = h.master
  brk : h'.brk = h.brk + left * pageSize
  desc : ∀ n, n < i * perTable → h'.desc n = h.desc n
  pages : ∀ j, j < left → h'.pages (i + j) = h.brk / pageSize + j
  unused : ∀ j, i ≤ j → j < i + left → h.pages j = 0
  others : ∀ j, j < i ∨ i + left ≤ j → h'.pages j = h.pages j

/-- Without free extents, all the pages of descriptors come from the break. -/
theorem addTables_exhausted (left : ℕ) : ∀ {h : Heap} {i : ℕ} (added : ℕ), Inv h T e →
    e ≤ h.endPage → e ≤ i * perTable → (∀ x ∈ T, x.kind ≠ .free) → h.brk % pageSize = 0 →
    (∃ h', addTables os left h i added = some (h', added + left) ∧ Tables h h' i left ∧
      (0 < left → os (h.brk + left * pageSize) = true)) ∨
    (addTables os left h i added = none ∧
      ((∃ j, i ≤ j ∧ j < i + left ∧ h.pages j ≠ 0) ∨
        ∃ b, h.brk < b ∧ b ≤ h.brk + left * pageSize ∧ os b = false)) := by
  induction left with
  | zero =>
      intro h i added _ _ _ _ _
      exact Or.inl ⟨h, rfl, ⟨rfl, rfl, rfl, by simp, fun _ _ => rfl, by simp,
        fun j from' below => absurd below (by omega), fun _ _ => rfl⟩, by simp⟩
  | succ left ih =>
      intro h i added inv room above none aligned
      have nothing : allocPages h 1 = some (0, h) := by
        rcases inv.alloc 1 room (by omega) (by omega) with ⟨call, -⟩ |
          ⟨p, n, h', T', -, -, free, -⟩
        · exact call
        · exact absurd rfl (none _ free)
      by_cases used : h.pages i = 0
      · by_cases granted : os (h.brk + pageSize) = true
        · -- the state after one round of the loop
          have round : addTables os (left + 1) h i added =
              addTables os left (addTable { h with brk := h.brk + pageSize } i (h.brk / pageSize))
                (i + 1) (added + 1) := by
            have up := sbrk_up (h := h) os (d := pageSize) (by decide)
            rw [if_pos granted] at up
            simp only [addTables, used, ne_eq, not_true, if_false]
            simp only [nothing, Option.bind_eq_bind, Option.bind_some, not_true, if_false, up,
              Option.map_some]
            rfl
          have inv' : Inv (addTable { h with brk := h.brk + pageSize } i (h.brk / pageSize)) T e :=
            inv.congr rfl fun n below => addTable_desc (by omega)
          have aligned' : (h.brk + pageSize) % pageSize = 0 := by
            rw [Nat.add_mod_right, aligned]
          have next : (h.brk + pageSize) / pageSize = h.brk / pageSize + 1 :=
            Nat.add_div_right _ (by decide)
          rw [round]
          rcases ih (added + 1) inv' room (above.trans (Nat.mul_le_mul_right _ (Nat.le_succ i))) none aligned'
            with ⟨h', call, tables, grants⟩ | ⟨call, why⟩
          · left
            refine ⟨h', by rw [call, Nat.add_assoc, Nat.add_comm 1], ?_, fun _ => ?_⟩
            · refine ⟨tables.lists, tables.endPage, tables.master, ?_, fun n below => ?_,
                fun j below => ?_, fun j from' below => ?_, fun j outside => ?_⟩
              · rw [tables.brk]
                simp only [addTable, pageSize]
                omega
              · rw [tables.desc n (below.trans_le (Nat.mul_le_mul_right _ (Nat.le_succ i)))]
                exact addTable_desc below
              · by_cases first : j = 0
                · subst first
                  rw [tables.others _ (Or.inl (by omega))]
                  simp [addTable]
                · obtain ⟨j, rfl⟩ := Nat.exists_eq_succ_of_ne_zero first
                  have there := tables.pages j (by omega)
                  simp only [addTable, next] at there
                  rw [Nat.succ_eq_add_one, Nat.add_comm j 1, ← Nat.add_assoc, there, Nat.add_assoc]
              · by_cases first : j = i
                · rw [first, used]
                · have there := tables.unused j (by omega) (by omega)
                  simp only [addTable] at there
                  rwa [Function.update_of_ne first] at there
              · rw [tables.others j (by omega)]
                exact Function.update_of_ne (by omega) _ _
            · by_cases last : left = 0
              · subst last
                simpa using granted
              · have := grants (by omega)
                simp only [addTable] at this
                rwa [Nat.add_assoc, Nat.add_comm pageSize, ← Nat.succ_mul] at this
          · right
            refine ⟨call, ?_⟩
            rcases why with ⟨j, from', below, used'⟩ | ⟨b, more, near, refused⟩
            · refine Or.inl ⟨j, by omega, by omega, ?_⟩
              simp only [addTable] at used'
              rwa [Function.update_of_ne (by omega)] at used'
            · simp only [addTable] at more near
              refine Or.inr ⟨b, by omega, ?_, refused⟩
              rw [Nat.succ_mul]
              omega
        · right
          have near : h.brk + pageSize ≤ h.brk + (left + 1) * pageSize := by
            rw [Nat.succ_mul]
            omega
          refine ⟨?_, Or.inr ⟨h.brk + pageSize, by simp only [pageSize]; omega, near, by simpa using granted⟩⟩
          have up := sbrk_up (h := h) os (d := pageSize) (by decide)
          rw [if_neg granted] at up
          simp only [addTables, used, ne_eq, not_true, if_false, nothing, Option.bind_eq_bind,
            Option.bind_some, up, Option.map_none, Option.bind_none]
      · right
        refine ⟨?_, Or.inl ⟨i, le_rfl, by omega, used⟩⟩
        simp [addTables, used]

/-- The pages of descriptors from `i` on, `left` of them, of which the last `k` come from the break and
the others from the free extents. -/
structure Tabled (h h' : Heap) (T T' : List Block) (e i left k : ℕ) : Prop where
  inv : Inv h' T' e
  change : Change h h' T T' (fun _ => False) (fun x => x.kind = .base)
  endPage : h'.endPage = h.endPage
  master : h'.master = h.master
  brk : h'.brk = h.brk + k * pageSize
  few : k ≤ left
  last : ∀ j, j < k → h'.pages (i + left - k + j) = h.brk / pageSize + j
  present : ∀ j, i ≤ j → j < i + left → h'.pages j ≠ 0
  held : ∀ j, i ≤ j → j < i + left - k → (⟨h'.pages j, 1, .base⟩ : Block) ∈ T'
  unused : ∀ j, i ≤ j → j < i + left → h.pages j = 0
  others : ∀ j, j < i ∨ i + left ≤ j → h'.pages j = h.pages j

theorem addTables_spec (left : ℕ) : ∀ {h : Heap} {T : List Block} {i : ℕ} (added : ℕ), Inv h T e →
    e ≤ h.endPage → e ≤ i * perTable → h.brk % pageSize = 0 → 0 < h.brk / pageSize →
    (∃ h' T' k, addTables os left h i added = some (h', added + k) ∧ Tabled h h' T T' e i left k ∧
      (0 < k → os (h.brk + k * pageSize) = true)) ∨
    (addTables os left h i added = none ∧
      ((∃ j, i ≤ j ∧ j < i + left ∧ h.pages j ≠ 0) ∨
        ∃ b, h.brk < b ∧ b ≤ h.brk + left * pageSize ∧ os b = false)) := by
  induction left with
  | zero =>
      intro h T i added inv _ _ _ _
      exact Or.inl ⟨h, T, 0, rfl, ⟨inv, Change.refl h T, rfl, rfl, by simp, le_rfl, by simp,
        fun j from' below => absurd below (by omega), fun j from' below => absurd below (by omega),
        fun j from' below => absurd below (by omega), fun _ _ => rfl⟩, by simp⟩
  | succ left ih =>
      intro h T i added inv room above aligned positive
      rcases inv.alloc 1 room (by omega) (by omega) with ⟨-, none⟩ |
        ⟨p, n, h₁, T₁, call, real, free, large, -, allocated⟩
      · -- nothing is free: the rest comes from the break
        have noneFree : ∀ x ∈ T, x.kind ≠ .free := by
          rintro ⟨q, m, kind⟩ member rfl
          have := none m q member
          have := inv.len_pos member
          simp only at this
          omega
        rcases addTables_exhausted (left + 1) added inv room above noneFree aligned with
          ⟨h', tables, is, grants⟩ | fails
        · left
          have inv' : Inv h' T e := inv.congr is.lists fun m below => is.desc m (by omega)
          refine ⟨h', T, left + 1, tables, ⟨inv', ?_, is.endPage, is.master, is.brk, le_rfl, ?_, ?_,
            fun j from' below => absurd below (by omega), is.unused, is.others⟩, grants⟩
          · exact (Change.refl h T).congr inv fun m below => is.desc m (by omega)
          · intro j below
            rw [Nat.add_sub_cancel]
            exact is.pages j below
          · intro j from' below
            have there := is.pages (j - i) (by omega)
            rw [Nat.add_sub_cancel' from'] at there
            omega
        · exact Or.inr fails
      · by_cases used : h.pages i = 0
        · have call₁ : allocPages h 1 = some (p, h₁) := call
          have below := allocated.inv.tiling.mem_bounds allocated.member
          simp only [Tile.stop] at below
          have round : addTables os (left + 1) h i added =
              addTables os left (addTable (h₁.setCode p base) i p) (i + 1) added := by
            simp only [addTables, used, ne_eq, not_true, if_false, call₁, Option.bind_eq_bind,
              Option.bind_some, real, not_false_eq_true, if_true]
            rfl
          have elsewhere : ∀ m, m < p ∨ p + 1 ≤ m → (h₁.setCode p base).desc m = h₁.desc m :=
            fun m other => Function.update_of_ne (by omega) _ _
          have marked : Described (h₁.setCode p base).desc ⟨p, 1, .base⟩ :=
            ⟨rfl, by simp [Heap.setCode]⟩
          obtain ⟨T₂, inv₂, member₂, -, change₂⟩ :=
            allocated.inv.relabel (h₁.setCode p base) allocated.member (by simp) (by simp) real rfl
              elsewhere marked
          have inv₃ : Inv (addTable (h₁.setCode p base) i p) T₂ e :=
            inv₂.congr rfl fun m below => addTable_desc (by omega)
          have change₃ : Change h (addTable (h₁.setCode p base) i p) T T₂ (fun _ => False)
              (fun x => x.kind = .base) := by
            refine Change.congr ?_ inv fun m below => addTable_desc (by omega)
            refine allocated.change.trans change₂ (fun x member busy => ?_)
              (fun x new notGone => absurd new notGone) (fun x new => by rw [new])
            refine ⟨fun _ => ⟨not_false, ?_⟩, And.left⟩
            -- the page was free, so no block in use starts there
            rintro rfl
            have same := inv.tiling.unique (n := p) member free ⟨le_rfl, by simp [Tile.stop]⟩
              ⟨le_rfl, by simp only [Tile.stop]; omega⟩
            simp at same
          have brk₁ : h₁.brk = h.brk := allocated.bounds.brk
          rw [round]
          rcases ih added inv₃ (by rw [show (addTable (h₁.setCode p base) i p).endPage = h₁.endPage
              from rfl, allocated.bounds.endPage]; exact room)
              (above.trans (Nat.mul_le_mul_right _ (Nat.le_succ i))) (brk₁ ▸ aligned)
              (brk₁ ▸ positive) with ⟨h', T', k, call', tabled, grants⟩ | ⟨call', why⟩
          · left
            have startBrk : (addTable (h₁.setCode p base) i p).brk = h.brk := brk₁
            refine ⟨h', T', k, call', ⟨tabled.inv, ?_, ?_, ?_, ?_, by have := tabled.few; omega,
              ?_, ?_, ?_, ?_, ?_⟩, startBrk ▸ grants⟩
            · exact change₃.trans tabled.change (fun x _ _ => by simp) (fun x new _ => new)
                (fun x new => new)
            · rw [tabled.endPage]
              exact allocated.bounds.endPage
            · rw [tabled.master]
              exact allocated.bounds.master
            · rw [tabled.brk, startBrk]
            · intro j below'
              have there := tabled.last j below'
              have few := tabled.few
              rw [startBrk] at there
              rwa [show i + (left + 1) - k + j = i + 1 + left - k + j by omega]
            · intro j from' below'
              by_cases first : j = i
              · subst first
                rw [tabled.others j (Or.inl (Nat.lt_succ_self j))]
                simpa [addTable] using real
              · exact tabled.present j (by omega) (by omega)
            · intro j from' below'
              by_cases first : j = i
              · subst first
                rw [tabled.others j (Or.inl (Nat.lt_succ_self j))]
                simp only [addTable, Function.update_self]
                exact tabled.change.stays _ member₂ (by simp) not_false
              · exact tabled.held j (by omega) (by omega)
            · intro j from' below'
              by_cases first : j = i
              · rw [first, used]
              · have there := tabled.unused j (by omega) (by omega)
                simp only [addTable] at there
                rw [Function.update_of_ne first] at there
                rwa [← allocated.bounds.pages]
            · intro j outside
              rw [tabled.others j (by omega)]
              simp only [addTable]
              rw [Function.update_of_ne (by omega)]
              exact congrFun allocated.bounds.pages j
          · right
            refine ⟨call', ?_⟩
            rcases why with ⟨j, from', below', used'⟩ | ⟨b, more, near, refused⟩
            · refine Or.inl ⟨j, by omega, by omega, ?_⟩
              simp only [addTable] at used'
              rw [Function.update_of_ne (by omega)] at used'
              rwa [← allocated.bounds.pages]
            · have brk₂ : (addTable (h₁.setCode p base) i p).brk = h.brk := brk₁
              rw [brk₂] at more near
              refine Or.inr ⟨b, more, near.trans ?_, refused⟩
              exact Nat.add_le_add_left (Nat.mul_le_mul_right _ (Nat.le_succ left)) _
        · right
          refine ⟨?_, Or.inl ⟨i, le_rfl, by omega, used⟩⟩
          simp [addTables, used]

theorem markTables_spec (k : ℕ) : ∀ {h : Heap} {i b : ℕ}, k ≤ i + 1 →
    (∀ j, j < k → h.pages (i + 1 - k + j) = b + j) →
    (markTables k h i).lists = h.lists ∧ SameBounds h (markTables k h i) ∧
    (∀ n, b ≤ n → n < b + k → ((markTables k h i).desc n).code = base) ∧
    ∀ n, n < b ∨ b + k ≤ n → (markTables k h i).desc n = h.desc n := by
  induction k with
  | zero =>
      intro h i b _ _
      exact ⟨rfl, SameBounds.refl h, fun n above below => absurd below (by omega), fun _ _ => rfl⟩
  | succ k ih =>
      intro h i b enough there
      have here : h.pages i = b + k := by
        have := there k (by omega)
        rwa [show i + 1 - (k + 1) + k = i by omega] at this
      obtain ⟨lists, bounds, codes, others⟩ :=
        ih (h := h.setCode (h.pages i) base) (i := i - 1) (b := b) (by omega) fun j below => by
          have := there j (by omega)
          rw [← this]
          change h.pages _ = _
          congr 1
          omega
      refine ⟨lists, ⟨bounds.endPage, bounds.brk, bounds.pages, bounds.master⟩, fun n above below => ?_,
        fun n outside => ?_⟩
      · by_cases last : n = b + k
        · rw [markTables, others n (by omega), here, last]
          simp [Heap.setCode]
        · exact codes n above (by omega)
      · rw [markTables, others n (by omega), here]
        exact Function.update_of_ne (by omega) _ _

/-- Room in the page table for the pages up to `last`, and for the `k` pages behind it that the table
itself has taken from the break. -/
structure Expanded (h h' : Heap) (T T' : List Block) (e last k : ℕ) : Prop where
  inv : Inv h' T' e
  change : Change h h' T T' (fun _ => False) (fun x => x.kind = .base)
  endPage : h'.endPage = last + 1 + k
  master : h'.master = h.master
  brk : h'.brk = h'.endPage * pageSize
  small : h'.endPage ≤ 2 ^ 18
  bases : ∀ n, last < n → n < h'.endPage → (h'.desc n).code = base
  present : ∀ j, i1 (h.endPage - 1) < j → j ≤ i1 (h'.endPage - 1) → h'.pages j ≠ 0
  held : ∀ j, i1 (h.endPage - 1) < j → j ≤ i1 (h'.endPage - 1) →
    (⟨h'.pages j, 1, .base⟩ : Block) ∈ T' ∨ last < h'.pages j ∧ h'.pages j < h'.endPage
  unused : ∀ j, i1 (h.endPage - 1) < j → j ≤ i1 (h'.endPage - 1) → h.pages j = 0
  others : ∀ j, j ≤ i1 (h.endPage - 1) ∨ i1 (h'.endPage - 1) < j → h'.pages j = h.pages j

/-- The recursion ends: the pages that `k` tables take need fewer than `k` tables, except that one
table may need one more, which then needs none. -/
def levels (old last : ℕ) : ℕ :=
  if i1 last = i1 old then 1 else i1 last - i1 old + (if last % perTable = 0 then 1 else 2)

theorem levels_lt {old last k : ℕ} (few : k ≤ i1 last - i1 old) (positive : 0 < k) :
    levels last (last + k) < levels old last := by
  have index : ∀ n, i1 n = n / 512 := fun _ => rfl
  have table : perTable = 512 := rfl
  have other : ¬ i1 last = i1 old := by omega
  rw [levels, levels, if_neg other]
  by_cases same : i1 (last + k) = i1 last
  · rw [if_pos same]
    split <;> omega
  · rw [if_neg same, index, index, index, table]
    rw [index, index] at same few
    split <;> split <;> omega

/-- What a call may stop at: a page of descriptors that is behind the end of the heap, or a break in
the next `room` pages that the operating system refuses. -/
def Obstructed (os : ℕ → Bool) (h : Heap) (room : ℕ) : Prop :=
  (∃ j, i1 (h.endPage - 1) < j ∧ h.pages j ≠ 0) ∨
    ∃ b, h.brk < b ∧ b ≤ h.brk + room * pageSize ∧ os b = false

/-- `expand_page_table`, as long as the heap stays within 2^18 pages: there is no longer top-level
table then. -/
theorem expandPageTable_spec (grants : ∀ b, os b = true → b ≤ 2 ^ 18 * pageSize) (fuel : ℕ) :
    ∀ {h : Heap} {T : List Block} {last : ℕ}, Inv h T e → e ≤ h.endPage → 0 < e →
    h.endPage ≤ last + 1 → h.brk = (last + 1) * pageSize → last < 2 ^ 18 →
    levels (h.endPage - 1) last ≤ fuel →
    (∃ h' T' k, expandPageTable os fuel h last = some h' ∧ Expanded h h' T T' e last k) ∨
    (expandPageTable os fuel h last = none ∧
      Obstructed os h (perTable - i1 (h.endPage - 1))) := by
  induction fuel with
  | zero =>
      intro h T last _ _ _ _ _ _ enough
      simp only [levels] at enough
      split_ifs at enough <;> omega
  | succ fuel ih =>
      intro h T last inv room someE upTo brk small enough
      have master : growMaster os h (h.endPage - 1) last = some (h, last, 0) := by
        rw [growMaster, if_pos]
        simp only [i1, perTable]
        omega
      have aligned : h.brk % pageSize = 0 := by rw [brk, Nat.mul_mod_left]
      have place : h.brk / pageSize = last + 1 := by rw [brk, Nat.mul_div_cancel _ (by decide)]
      have ordered : i1 (h.endPage - 1) ≤ i1 last := Nat.div_le_div_right (by omega)
      have few : i1 last < perTable := Nat.div_lt_of_lt_mul (by simp only [perTable]; omega)
      have above : e ≤ (i1 (h.endPage - 1) + 1) * perTable := by
        simp only [i1, perTable]
        omega
      have index : i1 (h.endPage - 1) + 1 + (i1 last - i1 (h.endPage - 1)) = i1 last + 1 := by omega
      rcases addTables_spec (i1 last - i1 (h.endPage - 1)) 0 inv room above aligned
          (by omega) with ⟨h₁, T₁, k, tables, tabled, granted⟩ | ⟨call, why⟩
      · have never : ∀ n, ¬ (h₁.master ≤ n ∧ n < h₁.master + 0) := fun n => by omega
        have step : expandPageTable os (fuel + 1) h last =
            if k = 0 then some { h₁ with endPage := last + 1 } else
              (expandPageTable os fuel { h₁ with endPage := last + 1 } (last + k)).map
                fun h' => markTables k h' (i1 last) := by
          rw [expandPageTable]
          simp only [Option.bind_eq_bind]
          rw [master, Option.bind_some]
          simp only
          rw [tables, Option.bind_some]
          simp only [Nat.zero_add, never, if_false]
          split_ifs
          · rfl
          · cases expandPageTable os fuel { h₁ with endPage := last + 1 } (last + k) <;> rfl
        have inv₁ : Inv { h₁ with endPage := last + 1 } T₁ e := tabled.inv.congr rfl fun _ _ => rfl
        have change₁ : Change h { h₁ with endPage := last + 1 } T T₁ (fun _ => False)
            (fun x => x.kind = .base) := tabled.change.congr inv fun _ _ => rfl
        have brk₁ : h₁.brk = (last + 1 + k) * pageSize := by rw [tabled.brk, brk, ← Nat.add_mul]
        rw [step]
        by_cases none : k = 0
        · subst none
          left
          refine ⟨_, T₁, 0, if_pos rfl, inv₁, change₁, rfl, tabled.master, brk₁, ?_, ?_, ?_, ?_, ?_,
            ?_⟩
          · simp only
            omega
          · intro n after before
            simp only at before
            omega
          · intro j from' below
            exact tabled.present j from' (by simp only [Nat.add_sub_cancel] at below; omega)
          · intro j from' below
            exact Or.inl (tabled.held j from' (by simp only [Nat.add_sub_cancel] at below; omega))
          · intro j from' below
            exact tabled.unused j from' (by simp only [Nat.add_sub_cancel] at below; omega)
          · intro j outside
            exact tabled.others j (by simp only [Nat.add_sub_cancel] at outside; omega)
        · rw [if_neg none]
          have within : last + k < 2 ^ 18 := by
            have := grants _ (granted (by omega))
            rw [brk, ← Nat.add_mul] at this
            have := Nat.le_of_mul_le_mul_right this (by decide)
            omega
          have fewer := levels_lt tabled.few (by omega)
          rcases ih (h := { h₁ with endPage := last + 1 }) inv₁ (by simp only; omega)
              someE (by simp only; omega) (by simp only; rw [brk₁]; congr 1; omega) within
              (by simp only [Nat.add_sub_cancel]; omega) with
            ⟨h₂, T₂, k', call, expanded⟩ | ⟨call, why⟩
          · left
            have few := tabled.few
            have pages : ∀ j, j < k → h₂.pages (i1 last + 1 - k + j) = last + 1 + j := by
              intro j below
              rw [expanded.others _ (Or.inl (by simp only [Nat.add_sub_cancel]; omega))]
              have there := tabled.last j below
              rw [index] at there
              rw [there, place]
            obtain ⟨lists, bounds, codes, others⟩ := markTables_spec k (by omega) pages
            have end₂ := expanded.endPage
            have last₂ : (markTables k h₂ (i1 last)).endPage = last + k + 1 + k' := by
              rw [bounds.endPage, end₂]
            refine ⟨markTables k h₂ (i1 last), T₂, k + k', by rw [call]; rfl, ?_⟩
            refine ⟨?_, ?_, by omega, ?_, ?_, ?_, ?_, ?_, ?_, ?_, ?_⟩
            · exact expanded.inv.congr lists fun n below => others n (by omega)
            · refine Change.congr ?_ inv fun n below => others n (by omega)
              exact change₁.trans expanded.change (fun x _ _ => by simp) (fun x new _ => new)
                (fun x new => new)
            · rw [bounds.master, expanded.master]
              exact tabled.master
            · rw [bounds.brk, bounds.endPage]
              exact expanded.brk
            · rw [bounds.endPage]
              exact expanded.small
            · intro n after before
              by_cases own : n < last + 1 + k
              · exact codes n after own
              · rw [others n (by omega)]
                exact expanded.bases n (by omega) (by rw [← bounds.endPage]; exact before)
            · intro j from' below
              rw [bounds.pages]
              rw [bounds.endPage] at below
              by_cases own : j ≤ i1 last
              · rw [expanded.others j (Or.inl (by simpa using own))]
                exact tabled.present j from' (by omega)
              · exact expanded.present j (by simp only [Nat.add_sub_cancel]; omega) below
            · intro j from' below
              rw [bounds.pages, bounds.endPage]
              rw [bounds.endPage] at below
              by_cases own : j ≤ i1 last
              · rw [expanded.others j (Or.inl (by simpa using own))]
                by_cases found : j < i1 last + 1 - k
                · exact Or.inl (expanded.change.stays _ (tabled.held j from' (by omega)) (by simp)
                    not_false)
                · right
                  have there := tabled.last (j - (i1 last + 1 - k)) (by omega)
                  rw [index, Nat.add_sub_cancel' (by omega), place] at there
                  simp only [there]
                  omega
              · rcases expanded.held j (by simp only [Nat.add_sub_cancel]; omega) below with
                  inside | behind
                · exact Or.inl inside
                · exact Or.inr (by omega)
            · intro j from' below
              rw [bounds.endPage] at below
              by_cases own : j ≤ i1 last
              · exact tabled.unused j from' (by omega)
              · rw [← tabled.others j (by omega)]
                exact expanded.unused j (by simp only [Nat.add_sub_cancel]; omega) below
            · intro j outside
              rw [bounds.pages]
              rw [bounds.endPage] at outside
              have further : i1 last ≤ i1 (h₂.endPage - 1) := Nat.div_le_div_right (by omega)
              rw [expanded.others j (by simp only [Nat.add_sub_cancel]; omega)]
              exact tabled.others j (by omega)
          · right
            refine ⟨by rw [call]; rfl, ?_⟩
            rcases why with ⟨j, from', used⟩ | ⟨b, more, near, refused⟩
            · refine Or.inl ⟨j, by simp only [Nat.add_sub_cancel] at from'; omega, ?_⟩
              rwa [← tabled.others j (by simp only [Nat.add_sub_cancel] at from'; omega)]
            · have few := tabled.few
              simp only [Nat.add_sub_cancel] at more near
              rw [tabled.brk] at more near
              refine Or.inr ⟨b, by omega, near.trans ?_, refused⟩
              rw [Nat.add_assoc, ← Nat.add_mul]
              exact Nat.add_le_add_left (Nat.mul_le_mul_right _ (by omega)) _
      · right
        refine ⟨?_, ?_⟩
        · rw [expandPageTable]
          simp only [Option.bind_eq_bind]
          rw [master, Option.bind_some]
          simp only
          rw [call, Option.bind_none]
        · rcases why with ⟨j, from', -, used⟩ | ⟨b, more, near, refused⟩
          · exact Or.inl ⟨j, from', used⟩
          · refine Or.inr ⟨b, more, near.trans ?_, refused⟩
            exact Nat.add_le_add_left (Nat.mul_le_mul_right _ (by omega)) _

end Grow

section Valloc

variable {os : ℕ → Bool} {h h' : Heap} {T : List Block} {e p size : ℕ}

theorem Inv.append {tail : List Block} {top : ℕ} (inv : Inv h T e) (lists : h'.lists = h.lists)
    (desc : ∀ n, n < e → h'.desc n = h.desc n) (tiling : Tiling e tail top)
    (busy : ∀ x ∈ tail, x.kind ≠ .free) (described : ∀ x ∈ tail, Described h'.desc x) :
    Inv h' (T ++ tail) top := by
  have inv' := inv.congr lists desc
  refine ⟨tiling_append.mpr ⟨e, inv'.tiling, tiling⟩, List.mem_append_left _ inv'.origin, ?_, ?_, ?_⟩
  · refine List.isChain_append.mpr ⟨inv'.coalesced, ?_, fun x _ y head both =>
      busy y (List.mem_of_mem_head? head) both.2⟩
    refine List.Pairwise.isChain (List.Pairwise.imp_of_mem ?_ (List.pairwise_of_forall fun _ _ => trivial))
    exact fun {x y} member _ _ both => busy x member both.1
  · intro x member
    rcases List.mem_append.mp member with inside | new
    · exact inv'.described x inside
    · exact described x new
  · obtain ⟨gs, good, listed⟩ := inv'.listed
    refine ⟨gs, good, fun n q => ?_⟩
    rw [listed, List.mem_append, or_iff_left]
    exact fun new => busy _ new rfl

/-- The pages of the allocator at the end of the heap. -/
def basePages (p : ℕ) : ℕ → List Block
  | 0 => []
  | k + 1 => ⟨p, 1, .base⟩ :: basePages (p + 1) k

theorem tiling_basePages (k : ℕ) : ∀ p, Tiling p (basePages p k) (p + k) := by
  induction k with
  | zero => exact fun p => rfl
  | succ k ih =>
      intro p
      refine ⟨rfl, Nat.one_pos, ?_⟩
      have := ih (p + 1)
      rwa [Nat.add_assoc, Nat.add_comm 1] at this

theorem mem_basePages {x : Block} {k : ℕ} : ∀ {p : ℕ}, x ∈ basePages p k ↔
    ∃ n, p ≤ n ∧ n < p + k ∧ x = ⟨n, 1, .base⟩ := by
  induction k with
  | zero =>
      intro p
      simp only [basePages, List.not_mem_nil, false_iff]
      rintro ⟨n, above, below, -⟩
      omega
  | succ k ih =>
      intro p
      simp only [basePages, List.mem_cons, ih]
      constructor
      · rintro (rfl | ⟨n, above, below, rfl⟩)
        · exact ⟨p, le_rfl, by omega, rfl⟩
        · exact ⟨n, by omega, by omega, rfl⟩
      · rintro ⟨n, above, below, rfl⟩
        by_cases first : n = p
        · exact Or.inl (by rw [first])
        · exact Or.inr ⟨n, by omega, by omega, rfl⟩

theorem setupExtentDescriptor_desc (positive : 0 < size) :
    Described (setupExtentDescriptor h p size).desc ⟨p, size, .used (p + size)⟩ ∧
    ∀ n, n < p ∨ p + size ≤ n → (setupExtentDescriptor h p size).desc n = h.desc n := by
  simp only [setupExtentDescriptor]
  refine ⟨⟨?_, ?_, le_rfl, fun n above below => ?_⟩, fun n outside => ?_⟩
  · simp [Heap.setCode]
  · simp [Heap.setCode, Heap.setPage, setLink]
  · simp only [Tile.stop] at above below ⊢
    rw [if_pos ⟨above, below⟩]
    exact ⟨rfl, rfl⟩
  · rw [if_neg (by omega)]
    simp only [Heap.setCode, Heap.setPage, setLink]
    rw [Function.update_of_ne (by omega), Function.update_of_ne (by omega)]

/-- The extent of `size` pages at `p` has come from `valloc`; its descriptor says that it ends before
page `e`. Besides it, there may be new pages of descriptors. -/
structure Vallocated (h h' : Heap) (T T' : List Block) (p size e : ℕ) : Prop where
  ok : HeapOk h' T'
  member : (⟨p, size, .used e⟩ : Block) ∈ T'
  change : Change h h' T T' (fun _ => False) (fun x => x = ⟨p, size, .used e⟩ ∨ x.kind = .base)
  grows : h.endPage ≤ h'.endPage
  pages : ∀ j, h.pages j ≠ 0 → h'.pages j = h.pages j
  fresh : ∀ j, i1 (h.endPage - 1) < j → j ≤ i1 (h'.endPage - 1) → h.pages j = 0
  new : ∀ x ∈ T, x.kind ≠ .free → x.start ≠ p

/-- The extent behind the end of the heap, once it has descriptors. -/
theorem HeapOk.claimed {T' : List Block} {k : ℕ} (ok : HeapOk h T) (positive : 0 < size)
    (expanded : Expanded h h' T T' h.endPage (h.endPage + size - 1) k) :
    ∃ T'', Vallocated h (setupExtentDescriptor h' h.endPage size) T T'' h.endPage size
      (h.endPage + size) := by
  obtain ⟨described, others⟩ :=
    setupExtentDescriptor_desc (h := h') (p := h.endPage) positive
  have ends : h'.endPage = h.endPage + size + k := by
    rw [expanded.endPage]
    omega
  let tail : List Block := ⟨h.endPage, size, .used (h.endPage + size)⟩ :: basePages (h.endPage + size) k
  have tiling : Tiling h.endPage tail h'.endPage := by
    rw [ends]
    exact ⟨rfl, positive, tiling_basePages k _⟩
  have inv' : Inv (setupExtentDescriptor h' h.endPage size) (T' ++ tail) h'.endPage := by
    refine expanded.inv.append rfl (fun n below => others n (Or.inl below)) tiling ?_ ?_
    · intro x member
      rcases List.mem_cons.mp member with rfl | later
      · simp
      · obtain ⟨n, -, -, rfl⟩ := mem_basePages.mp later
        simp
    · intro x member
      rcases List.mem_cons.mp member with rfl | later
      · exact described
      · obtain ⟨n, above, below, rfl⟩ := mem_basePages.mp later
        refine ⟨rfl, ?_⟩
        rw [others n (Or.inr above)]
        exact expanded.bases n (by omega) (by omega)
  refine ⟨T' ++ tail, ⟨⟨inv', expanded.brk, expanded.small⟩, ?_, ?_⟩, ?_, ?_, ?_, ?_, ?_, ?_⟩
  · intro j below
    by_cases old : j ≤ i1 (h.endPage - 1)
    · have same : h'.pages j = h.pages j := expanded.others j (Or.inl old)
      exact same ▸ ok.tables j old
    · exact expanded.present j (by omega) below
  · intro j used
    by_cases new : i1 (h.endPage - 1) < j ∧ j ≤ i1 (h'.endPage - 1)
    · rcases expanded.held j new.1 new.2 with inside | ⟨behind, before⟩
      · exact List.mem_append_left _ inside
      · refine List.mem_append_right _ (List.mem_cons_of_mem _ (mem_basePages.mpr ⟨_, ?_, ?_, rfl⟩))
        · change h.endPage + size ≤ h'.pages j
          omega
        · change h'.pages j < h.endPage + size + k
          omega
    · have same : h'.pages j = h.pages j := expanded.others j (by omega)
      refine List.mem_append_left _ (expanded.change.stays _ ?_ (by simp) not_false)
      change (⟨h'.pages j, 1, .base⟩ : Block) ∈ T
      rw [same]
      exact ok.held j (same ▸ used)
  · exact List.mem_append_right _ List.mem_cons_self
  · refine Change.congr ⟨fun x member busy stays => ?_, fun x member busy => ?_, expanded.change.desc⟩
      ok.inv fun n below => others n (Or.inl below)
    · exact List.mem_append_left _ (expanded.change.stays x member busy stays)
    · rcases List.mem_append.mp member with inside | new
      · exact (expanded.change.source x inside busy).imp_right Or.inr
      · rcases List.mem_cons.mp new with rfl | later
        · exact Or.inr (Or.inl rfl)
        · obtain ⟨n, -, -, rfl⟩ := mem_basePages.mp later
          exact Or.inr (Or.inr rfl)
  · change h.endPage ≤ h'.endPage
    omega
  · intro j used
    refine expanded.others j ?_
    by_contra inside
    exact used (expanded.unused j (by omega) (by omega))
  · exact expanded.unused
  · intro x member _ same
    have := ok.inv.tiling.mem_bounds member
    rw [Tile.stop] at this
    omega

theorem Inv.top_pos {top : ℕ} (inv : Inv h T top) : 0 < top := by
  have := inv.tiling.mem_bounds inv.origin
  simp only [Tile.stop] at this
  omega

/-- The part of `valloc` behind a successful `sbrk`. -/
theorem HeapOk.claimPages (grants : ∀ b, os b = true → b ≤ 2 ^ 18 * pageSize) (ok : HeapOk h T)
    (positive : 0 < size) (granted : os ((h.endPage + size) * pageSize) = true) :
    (∃ h' T', claimPages os { h with brk := (h.endPage + size) * pageSize } h.endPage size =
        some (h.endPage, h') ∧ Vallocated h h' T T' h.endPage size (h.endPage + size)) ∨
    (claimPages os { h with brk := (h.endPage + size) * pageSize } h.endPage size = none ∧
      Obstructed os h (size + perTable)) := by
  have small : h.endPage + size ≤ 2 ^ 18 :=
    Nat.le_of_mul_le_mul_right (grants _ granted) (by decide)
  have some := ok.inv.top_pos
  have inv' : Inv { h with brk := (h.endPage + size) * pageSize } T h.endPage :=
    ok.inv.congr rfl fun _ _ => rfl
  rw [Malloc.claimPages]
  by_cases same : i1 (h.endPage + size - 1) = i1 (h.endPage - 1)
  · left
    have expanded : Expanded h { h with brk := (h.endPage + size) * pageSize, endPage := h.endPage + size }
        T T h.endPage (h.endPage + size - 1) 0 := by
      refine ⟨ok.inv.congr rfl fun _ _ => rfl, (Change.refl h T).congr ok.inv fun _ _ => rfl, ?_, rfl,
        rfl, small, ?_, ?_, ?_, ?_, fun _ _ => rfl⟩
      · simp only
        omega
      · intro n after before
        simp only at before
        omega
      · exact fun j from' below => absurd (same ▸ below) (by omega)
      · exact fun j from' below => absurd (same ▸ below) (by omega)
      · exact fun j from' below => absurd (same ▸ below) (by omega)
    obtain ⟨T', claimed⟩ := ok.claimed positive expanded
    exact ⟨_, T', if_pos same, claimed⟩
  · rw [if_neg same]
    have enough : levels (h.endPage - 1) (h.endPage + size - 1) ≤ h.endPage + size := by
      have index : ∀ n, i1 n = n / 512 := fun _ => rfl
      rw [levels, if_neg same, index, index]
      split <;> omega
    rcases expandPageTable_spec (h := { h with brk := (h.endPage + size) * pageSize }) grants
        (h.endPage + size) inv' le_rfl some (by simp only; omega)
        (by simp only; congr 1; omega) (by omega) enough with ⟨h', T', k, call, expanded⟩ | ⟨call, why⟩
    · left
      have expanded' : Expanded h h' T T' h.endPage (h.endPage + size - 1) k :=
        ⟨expanded.inv, ⟨expanded.change.stays, expanded.change.source, expanded.change.desc⟩,
          expanded.endPage, expanded.master, expanded.brk, expanded.small, expanded.bases,
          expanded.present, expanded.held, expanded.unused, expanded.others⟩
      obtain ⟨T'', claimed⟩ := ok.claimed positive expanded'
      exact ⟨_, T'', by rw [call]; rfl, claimed⟩
    · right
      refine ⟨by rw [call]; rfl, why.imp_right ?_⟩
      rintro ⟨b, more, near, refused⟩
      rw [ok.brk, ← Nat.add_mul]
      simp only [← Nat.add_mul] at near
      refine ⟨b, lt_of_le_of_lt ?_ more, near.trans ?_, refused⟩
      · exact Nat.mul_le_mul_right _ (Nat.le_add_right _ _)
      · exact Nat.mul_le_mul_right _ (by omega)

theorem pages_of_bytes {bytes : ℕ} (pages : (bytes + pageSize - 1) / pageSize = size)
    (bound : size * pageSize < 2 ^ 31) :
    (bytes + pageSize - 1) % 2 ^ 64 / pageSize = size ∧ toInt (size : ℤ) = size ∧
      toInt ((size : ℤ) * (pageSize : ℤ)) = ((size * pageSize : ℕ) : ℤ) := by
  have page : pageSize = 4096 := rfl
  refine ⟨?_, toInt_of_small (by omega) (by rw [page] at bound; omega), ?_⟩
  · rw [Nat.mod_eq_of_lt (by rw [page] at pages bound ⊢; omega), pages]
  · rw [← Int.natCast_mul]
    exact toInt_of_small (by omega) (by omega)

theorem valloc_grow (os : ℕ → Bool) {bytes : ℕ} (pages : (bytes + pageSize - 1) / pageSize = size)
    (positive : 0 < size) (bound : size * pageSize < 2 ^ 31)
    (alloc : allocPages h (size : ℤ) = some (0, h)) (aligned : h.brk % pageSize = 0) :
    valloc os h bytes = if os (h.brk + size * pageSize) = true then
      claimPages os { h with brk := h.brk + size * pageSize } (h.brk / pageSize) size
      else some (0, h) := by
  obtain ⟨count, int, int'⟩ := pages_of_bytes pages bound
  have up := sbrk_up (h := h) os (d := size * pageSize) (Nat.mul_pos positive (by decide))
  rw [valloc, count, vallocPages, int, alloc, Option.bind_eq_bind, Option.bind_some, int']
  simp only [ne_eq, not_true, if_false]
  by_cases granted : os (h.brk + size * pageSize) = true
  · rw [if_pos granted] at up ⊢
    rw [up]
    simp only [aligned, if_true]
  · rw [if_neg granted] at up ⊢
    rw [up]

/-- `valloc` for a size of `size` pages, less than 2^31 bytes. It finds a free extent or grows the heap;
it gives up when the operating system refuses to. It stops at a failed assertion when there is a page
of descriptors behind the end of the heap, left there by a `free` that has moved the end back. -/
theorem HeapOk.valloc {bytes : ℕ} (grants : ∀ b, os b = true → b ≤ 2 ^ 18 * pageSize)
    (ok : HeapOk h T) (pages : (bytes + pageSize - 1) / pageSize = size) (positive : 0 < size)
    (bound : size * pageSize < 2 ^ 31) :
    (valloc os h bytes = some (0, h) ∧ (∀ m q, (⟨q, m, .free⟩ : Block) ∈ T → m < size) ∧
      os ((h.endPage + size) * pageSize) = false) ∨
    (∃ p e h' T', valloc os h bytes = some (p, h') ∧ p ≠ 0 ∧ Vallocated h h' T T' p size e ∧
      (e = p + size ∨ ∃ n, (⟨p, n, .free⟩ : Block) ∈ T ∧ size < n ∧ e = p + n)) ∨
    (valloc os h bytes = none ∧ Obstructed os h (size + perTable)) := by
  obtain ⟨count, int, -⟩ := pages_of_bytes pages bound
  have small : size < 2 ^ 31 := (Nat.le_mul_of_pos_right size (by decide)).trans_lt bound
  rcases ok.inv.alloc size le_rfl positive small with
    ⟨alloc, none⟩ | ⟨p, n, h', T', alloc, real, free, large, -, allocated⟩
  · have aligned : h.brk % pageSize = 0 := by rw [ok.brk, Nat.mul_mod_left]
    have place : h.brk / pageSize = h.endPage := by rw [ok.brk, Nat.mul_div_cancel _ (by decide)]
    have call := valloc_grow os pages positive bound alloc aligned
    rw [place, show h.brk + size * pageSize = (h.endPage + size) * pageSize by
      rw [ok.brk, Nat.add_mul]] at call
    by_cases granted : os ((h.endPage + size) * pageSize) = true
    · right
      rw [if_pos granted] at call
      rw [call]
      rcases ok.claimPages grants positive granted with ⟨h', T', claim, vallocated⟩ | fails
      · have := ok.inv.top_pos
        exact Or.inl ⟨_, _, h', T', claim, by omega, vallocated, Or.inl rfl⟩
      · exact Or.inr fails
    · left
      rw [if_neg granted] at call
      exact ⟨call, none, by simpa using granted⟩
  · right
    left
    have bounds := allocated.bounds
    have bounded : Bounded h' T' :=
      ⟨bounds.endPage ▸ allocated.inv, by rw [bounds.brk, bounds.endPage]; exact ok.brk,
        bounds.endPage ▸ ok.small⟩
    have ok' := ok.of_change bounded allocated.change (by simp) bounds.pages (le_of_eq bounds.endPage)
    have change : Change h h' T T' (fun _ => False)
        (fun x => x = ⟨p, size, .used (p + n)⟩ ∨ x.kind = .base) :=
      ⟨allocated.change.stays, fun x member busy => (allocated.change.source x member busy).imp_right
        Or.inl, allocated.change.desc⟩
    refine ⟨p, p + n, h', T', ?_, real, ⟨ok', allocated.member, change, le_of_eq bounds.endPage.symm,
      fun j _ => by rw [bounds.pages], fun j from' below => ?_, fun x member busy same => ?_⟩, ?_⟩
    · rw [Malloc.valloc, count, vallocPages, int, alloc, Option.bind_eq_bind, Option.bind_some]
      simp only [ne_eq, real, not_false_eq_true, if_true]
    · rw [bounds.endPage] at below
      omega
    · exact busy (by rw [ok.inv.tiling.eq_of_start member free same])
    · by_cases exact : n = size
      · exact Or.inl (by rw [exact])
      · exact Or.inr ⟨n, free, by omega, rfl⟩

end Valloc

/-! ### The start -/

theorem Bounded.one_table {h : Heap} {T : List Block} (bounded : Bounded h T)
    (pages : ∀ i, h.pages i = if i = 0 then 2 else 0) (few : h.endPage ≤ perTable)
    (table : (⟨2, 1, .base⟩ : Block) ∈ T) : HeapOk h T := by
  refine ⟨bounded, fun j below => ?_, fun j used => ?_⟩
  · have first : j = 0 := by
      simp only [i1, perTable] at below few
      omega
    rw [pages, if_pos first]
    decide
  · rw [pages] at used ⊢
    split_ifs at used ⊢ with first
    · exact table
    · exact absurd rfl used

theorem heapOk_msetup : HeapOk msetup (basePages 0 3) := by
  refine Bounded.one_table ⟨⟨tiling_basePages 3 0, by decide, ?_, ?_, [], ?_, ?_⟩, rfl, by decide⟩
    (fun _ => rfl) (by decide) (by decide)
  · simp [basePages, Apart]
  · intro x member
    obtain ⟨n, -, below, rfl⟩ := mem_basePages.mp member
    refine ⟨rfl, ?_⟩
    simp only [msetup]
    rw [if_pos (by omega)]
  · refine ⟨rfl, ?_, ?_, ?_, List.Pairwise.nil, ?_⟩ <;> simp
  · intro n p
    simp [extents, basePages]

/-- An operating system that lets the break grow to one gigabyte. -/
def roomy (b : ℕ) : Bool := b ≤ 2 ^ 18 * pageSize

theorem le_of_roomy (b : ℕ) (granted : roomy b = true) : b ≤ 2 ^ 18 * pageSize := by
  simpa [roomy] using granted

end Elcrq.Malloc
