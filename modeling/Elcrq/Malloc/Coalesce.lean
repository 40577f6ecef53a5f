import Elcrq.Malloc.Extents

/-! # Giving extents back

`free_pages` joins a freed extent with the free extents before and behind it, so that
no two free extents are ever neighbours. In between the extent floats: it is described
as free and is on no list. -/

set_option autoImplicit false

namespace Elcrq.Malloc

open Elcrq.Store

/-- The free extent of `n` pages at `p` is between the blocks `T₁` and `T₂`, on no list yet. -/
structure Floating (h : Heap) (T₁ T₂ : List Block) (p n top : ℕ) : Prop where
  tiling : Tiling 0 (T₁ ++ ([⟨p, n, .free⟩] ++ T₂)) top
  origin : ⟨0, 1, .base⟩ ∈ T₁
  before : T₁.IsChain Apart
  after : T₂.IsChain Apart
  described : ∀ x, x ∈ T₁ ∨ x ∈ T₂ → Described h.desc x
  here : Described h.desc ⟨p, n, .free⟩
  listed : ∃ gs, Lists h.lists gs ∧
    ∀ m q, (m, q) ∈ extents gs ↔ (⟨q, m, .free⟩ : Block) ∈ T₁ ∨ (⟨q, m, .free⟩ : Block) ∈ T₂

section Join

variable {h : Heap} {T T₁ T₂ : List Block} {p n m top : ℕ}

theorem Floating.outside (floating : Floating h T₁ T₂ p n top) {y : Block} (other : y ∈ T₁ ∨ y ∈ T₂)
    {k : ℕ} (above : y.start ≤ k) (below : k < y.stop) : k < p ∨ p + n ≤ k := by
  obtain ⟨-, later, cross⟩ := List.pairwise_append.mp floating.tiling.pairwise
  rcases other with before | after
  · have := cross y before ⟨p, n, .free⟩ (by simp)
    simp only at this
    omega
  · have := (List.pairwise_append.mp later).2.2 ⟨p, n, .free⟩ (by simp) y after
    simp only [Tile.stop] at this above
    omega

theorem Floating.len_pos (floating : Floating h T₁ T₂ p n top) {y : Block}
    (other : y ∈ T₁ ∨ y ∈ T₂) : 0 < y.len := by
  refine (floating.tiling.mem_bounds (x := y) ?_).2.1
  simp only [List.mem_append]
  tauto

theorem Floating.pos (floating : Floating h T₁ T₂ p n top) : 0 < p ∧ 0 < n ∧ p + n ≤ top := by
  have bounds := floating.tiling.mem_bounds (x := ⟨p, n, .free⟩) (by simp)
  have start := (List.pairwise_append.mp floating.tiling.pairwise).2.2 _ floating.origin
    ⟨p, n, .free⟩ (by simp)
  simp only [Tile.stop] at bounds start
  omega

theorem Inv.float (inv : Inv h (T₁ ++ ([⟨p, n, .used (p + n)⟩] ++ T₂)) top) :
    Floating (h.setCode p bigFree) T₁ T₂ p n top := by
  have member : (⟨p, n, .used (p + n)⟩ : Block) ∈ T₁ ++ ([⟨p, n, .used (p + n)⟩] ++ T₂) := by simp
  have positive := inv.len_pos member
  obtain ⟨-, page, -, middles⟩ := (inv.described _ member).used rfl
  have elsewhere : ∀ k, k ≠ p → (h.setCode p bigFree).desc k = h.desc k := fun k other =>
    Function.update_of_ne other _ _
  obtain ⟨first, later, -⟩ := List.isChain_append.mp inv.coalesced
  have origin : (⟨0, 1, .base⟩ : Block) ∈ T₁ := by
    obtain ⟨front, some, back⟩ := inv.tiling.around
    rcases List.mem_append.mp inv.origin with before | other
    · exact before
    · rcases List.mem_append.mp other with here | after
      · simp at here
      · have := (back.mem_bounds after).1
        simp only [Tile.stop] at this some
        omega
  refine ⟨inv.tiling.replace fun s t tiled => tiled, origin, first, (List.isChain_cons.mp later).2,
    ?_, ⟨?_, ?_, ?_⟩, ?_⟩
  · intro y outside
    have member' : y ∈ T₁ ++ ([⟨p, n, .used (p + n)⟩] ++ T₂) := by
      simp only [List.mem_append]
      tauto
    refine (inv.described y member').congr (inv.len_pos member') fun k above below =>
      elsewhere k ?_
    have := inv.outside outside above below
    simp only [Tile.stop] at this positive
    omega
  · simp [Heap.setCode]
  · simpa [Heap.setCode, Tile.stop] using page
  · intro k above below
    rw [elsewhere k (Nat.ne_of_gt above)]
    exact middles k above below
  · obtain ⟨gs, lists, listed⟩ := inv.listed
    refine ⟨gs, lists, fun k q => ?_⟩
    rw [listed]
    simp

/-- The state in which two neighbouring free extents, at `adj` and `p`, have become one. -/
def joined (h : Heap) (gone adj p stop : ℕ) : Heap :=
  ((((h.remove gone).setCode p middle).setPage adj stop).linkPages p stop adj).setSize adj (stop - adj)

theorem joined_desc (h : Heap) (gone adj p stop : ℕ) (before : adj < p) (behind : p < stop) :
    (joined h gone adj p stop).desc adj = { h.desc adj with page := stop } ∧
    (joined h gone adj p stop).desc p = { h.desc p with page := adj, code := middle } ∧
    (∀ k, p < k → k < stop → (joined h gone adj p stop).desc k = { h.desc k with page := adj }) ∧
    ∀ k, k ≠ adj → k < p ∨ stop ≤ k → (joined h gone adj p stop).desc k = h.desc k := by
  simp only [joined, Heap.setSize, Heap.linkPages, Heap.setPage, Heap.setCode, Heap.remove, setLink]
  refine ⟨?_, ?_, fun k above below => ?_, fun k other outside => ?_⟩
  · rw [if_neg (by omega), Function.update_self, Function.update_of_ne (by omega)]
  · rw [if_pos (by omega), Function.update_of_ne (by omega), Function.update_self]
  · rw [if_pos (by omega), Function.update_of_ne (by omega), Function.update_of_ne (by omega)]
  · rw [if_neg (by omega), Function.update_of_ne other, Function.update_of_ne (by omega)]

theorem joined_described {gone : ℕ} (left : Described h.desc ⟨p, m, .free⟩)
    (right : Described h.desc ⟨p + m, n, .free⟩) (someLeft : 0 < m) (someRight : 0 < n) :
    Described (joined h gone p (p + m) (p + m + n)).desc ⟨p, m + n, .free⟩ := by
  obtain ⟨code, -, middlesLeft⟩ := left.free rfl
  obtain ⟨-, -, middlesRight⟩ := right.free rfl
  simp only [Middles, Tile.stop] at code middlesLeft middlesRight
  obtain ⟨first, second, third, rest⟩ :=
    joined_desc h gone p (p + m) (p + m + n) (by omega) (by omega)
  refine ⟨?_, ?_, fun k above below => ?_⟩
  · rw [first]
    exact code
  · rw [first]
    simp only [Tile.stop]
    omega
  · simp only [Tile.stop] at above below ⊢
    by_cases inLeft : k < p + m
    · rw [rest k (by omega) (Or.inl inLeft)]
      exact middlesLeft k above inLeft
    · by_cases atRight : k = p + m
      · rw [atRight, second]
        exact ⟨rfl, rfl⟩
      · rw [third k (by omega) (by omega)]
        exact ⟨(middlesRight k (by omega) (by omega)).1, rfl⟩

/-- What the joins leave alone. -/
structure Joined (h h' : Heap) (p n : ℕ) : Prop where
  desc : ∀ k, k < p ∨ p + n ≤ k → h'.desc k = h.desc k
  bounds : SameBounds h h'
  size : h'.lists.size p = n

theorem joined_frame (gone : ℕ) (someLeft : 0 < m) (someRight : 0 < n) :
    Joined h (joined h gone p (p + m) (p + m + n)) p (m + n) := by
  obtain ⟨-, -, -, rest⟩ :=
    joined_desc h gone p (p + m) (p + m + n) (by omega) (by omega)
  refine ⟨fun k outside => rest k (by omega) (by omega), ⟨rfl, rfl, rfl, rfl⟩, ?_⟩
  simp only [joined, Heap.setSize, FreeLists.setSize_size, Function.update_self]
  omega

theorem Floating.start_ne (floating : Floating h T₁ T₂ p n top) {q : ℕ} {k : Kind}
    (other : (⟨q, m, k⟩ : Block) ∈ T₁ ∨ (⟨q, m, k⟩ : Block) ∈ T₂) : q ≠ p := by
  rintro rfl
  have some := floating.len_pos other
  have := floating.outside other (k := q) le_rfl (by simp only [Tile.stop] at some ⊢; omega)
  have := floating.pos
  omega

/-- Joining with the free extent before. -/
theorem Floating.join_left {front : List Block}
    (floating : Floating h (front ++ [⟨p, m, .free⟩]) T₂ (p + m) n top) :
    Floating (joined h p p (p + m) (p + m + n)) front T₂ p (m + n) top := by
  obtain ⟨gs, lists, listed⟩ := floating.listed
  have inside : (⟨p, m, .free⟩ : Block) ∈ front ++ [⟨p, m, .free⟩] := by simp
  have someLeft : 0 < m := floating.len_pos (Or.inl inside)
  have someRight := floating.pos.2.1
  have left := floating.described _ (Or.inl inside)
  obtain ⟨gs', lists', listed'⟩ := lists.fpRemove ((listed m p).mpr (Or.inl inside))
  have outer : ∀ y, y ∈ front ∨ y ∈ T₂ → y ∈ front ++ [⟨p, m, .free⟩] ∨ y ∈ T₂ := fun y other => by
    simp only [List.mem_append]
    tauto
  have tiling : Tiling 0 (front ++ ([⟨p, m + n, .free⟩] ++ T₂)) top := by
    have whole := floating.tiling
    rw [List.append_assoc, ← List.append_assoc [_]] at whole
    refine whole.replace fun s t tiled => ?_
    obtain ⟨start, -, -, -, stop⟩ := tiled
    simp only [tiling_cons, tiling_nil] at stop ⊢
    exact ⟨start, by omega, by omega⟩
  -- the others are outside both
  have apart : ∀ y, y ∈ front ∨ y ∈ T₂ → ∀ k, y.start ≤ k → k < y.stop → k < p ∨ p + (m + n) ≤ k := by
    intro y other k above below
    obtain ⟨-, later, cross⟩ := List.pairwise_append.mp tiling.pairwise
    rcases other with before | after
    · have := cross y before ⟨p, m + n, .free⟩ (by simp)
      simp only at this
      omega
    · have := (List.pairwise_append.mp later).2.2 ⟨p, m + n, .free⟩ (by simp) y after
      simp only [Tile.stop] at this above
      omega
  have frame := joined_frame (h := h) (p := p) p someLeft someRight
  refine ⟨tiling, ?_, (List.isChain_append.mp floating.before).1, floating.after, ?_,
    joined_described left floating.here someLeft someRight, gs', ?_, fun k q => ?_⟩
  · simpa using floating.origin
  · intro y other
    refine (floating.described y (outer y other)).congr (floating.len_pos (outer y other)) ?_
    exact fun k above below => frame.desc k (apart y other k above below)
  · exact lists'.setSize fun k found => ((listed' k p).mp found).2 rfl
  · rw [listed', listed]
    simp only [List.mem_append, List.mem_singleton, Tile.mk.injEq, and_true]
    constructor
    · rintro ⟨(before | here) | after, other⟩
      · exact Or.inl before
      · exact absurd here.1 other
      · exact Or.inr after
    · intro other
      refine ⟨by tauto, ?_⟩
      rintro rfl
      have some := floating.len_pos (outer _ other)
      have := apart _ other q le_rfl (by simp only [Tile.stop] at some ⊢; omega)
      omega

/-- Joining with the free extent behind. -/
theorem Floating.join_right (floating : Floating h T₁ (⟨p + m, n, .free⟩ :: T₂) p m top) :
    Floating (joined h (p + m) p (p + m) (p + m + n)) T₁ T₂ p (m + n) top := by
  obtain ⟨gs, lists, listed⟩ := floating.listed
  have inside : (⟨p + m, n, .free⟩ : Block) ∈ (⟨p + m, n, .free⟩ : Block) :: T₂ := List.mem_cons_self
  have someRight : 0 < n := floating.len_pos (Or.inr inside)
  have someLeft := floating.pos.2.1
  have right := floating.described _ (Or.inr inside)
  obtain ⟨gs', lists', listed'⟩ := lists.fpRemove ((listed n (p + m)).mpr (Or.inr inside))
  have outer : ∀ y, y ∈ T₁ ∨ y ∈ T₂ → y ∈ T₁ ∨ y ∈ (⟨p + m, n, .free⟩ : Block) :: T₂ :=
    fun y other => other.imp_right (List.mem_cons_of_mem _)
  have tiling : Tiling 0 (T₁ ++ ([⟨p, m + n, .free⟩] ++ T₂)) top := by
    have whole := floating.tiling
    rw [List.append_cons [_] ⟨p + m, n, .free⟩ T₂] at whole
    refine whole.replace fun s t tiled => ?_
    obtain ⟨start, -, -, -, stop⟩ := tiled
    simp only [tiling_cons, tiling_nil] at stop ⊢
    exact ⟨start, by omega, by omega⟩
  have apart : ∀ y, y ∈ T₁ ∨ y ∈ T₂ → ∀ k, y.start ≤ k → k < y.stop → k < p ∨ p + (m + n) ≤ k := by
    intro y other k above below
    obtain ⟨-, later, cross⟩ := List.pairwise_append.mp tiling.pairwise
    rcases other with before | after
    · have := cross y before ⟨p, m + n, .free⟩ (by simp)
      simp only at this
      omega
    · have := (List.pairwise_append.mp later).2.2 ⟨p, m + n, .free⟩ (by simp) y after
      simp only [Tile.stop] at this above
      omega
  have frame := joined_frame (h := h) (p := p) (p + m) someLeft someRight
  refine ⟨tiling, floating.origin, floating.before, (List.isChain_cons.mp floating.after).2, ?_,
    joined_described floating.here right someLeft someRight, gs', ?_, fun k q => ?_⟩
  · intro y other
    refine (floating.described y (outer y other)).congr (floating.len_pos (outer y other)) ?_
    exact fun k above below => frame.desc k (apart y other k above below)
  · refine lists'.setSize fun k found => ?_
    exact floating.start_ne ((listed k p).mp ((listed' k p).mp found).1) rfl
  · rw [listed', listed]
    simp only [List.mem_cons, Tile.mk.injEq, and_true]
    constructor
    · rintro ⟨before | here | after, other⟩
      · exact Or.inl before
      · exact absurd here.1 other
      · exact Or.inr after
    · intro other
      refine ⟨by tauto, ?_⟩
      rintro rfl
      have some := floating.len_pos (outer _ other)
      have := apart _ other (p + m) le_rfl (by simp only [Tile.stop] at some ⊢; omega)
      omega

theorem joinPrevious_free {adj : ℕ} (before : adj < p)
    (found : (if (h.desc (p - 1)).code = middle then (h.desc (p - 1)).page else p - 1) = adj)
    (code : (h.desc adj).code = bigFree) (page : (h.desc p).page = p + n) :
    joinPrevious h p = (adj, joined h adj adj p (p + n)) := by
  have other : adj ≠ p := Nat.ne_of_lt before
  have stored : ((((h.remove adj).setPage adj (p + n)).setCode p middle).desc adj).page = p + n := by
    simp [Heap.setCode, Heap.setPage, setLink, Function.update_of_ne other]
  have swap : ((h.remove adj).setPage adj (p + n)).setCode p middle =
      ((h.remove adj).setCode p middle).setPage adj (p + n) := by
    simp only [Heap.setCode, Heap.setPage, setLink, Function.update_of_ne other,
      Function.update_of_ne other.symm, Function.update_comm other]
  have again : ((((h.remove adj).setPage adj (p + n)).setCode p middle).linkPages p (p + n) adj).desc
      adj = (((h.remove adj).setPage adj (p + n)).setCode p middle).desc adj := if_neg (by omega)
  have pageRemoved : ((h.remove adj).desc p).page = p + n := page
  simp only [joinPrevious, found, code, if_true, pageRemoved, stored, again]
  rw [swap]
  rfl

theorem joinNext_free (positive : 0 < m) (page : (h.desc p).page = p + m)
    (below : p + m < h.endPage) (code : (h.desc (p + m)).code = bigFree)
    (next : (h.desc (p + m)).page = p + m + n) :
    joinNext h p = joined h (p + m) p (p + m) (p + m + n) := by
  have other : p ≠ p + m := by omega
  have stored : (((h.remove (p + m)).setCode (p + m) middle).desc (p + m)).page = p + m + n := by
    simpa [Heap.setCode, Heap.remove] using next
  have again : ((((h.remove (p + m)).setCode (p + m) middle).setPage p (p + m + n)).desc p).page =
      p + m + n := by
    simp [Heap.setPage, setLink]
  have last : ((((h.remove (p + m)).setCode (p + m) middle).setPage p (p + m + n)).linkPages (p + m)
      (p + m + n) p).desc p =
      (((h.remove (p + m)).setCode (p + m) middle).setPage p (p + m + n)).desc p := if_neg (by omega)
  simp only [joinNext, page, below, code, and_self, if_true, stored, again, last]
  rfl

/-- After the first join the block before is not free. -/
theorem Floating.joinPrevious (floating : Floating h T₁ T₂ p n top) :
    ∃ T₁' p' n' h', joinPrevious h p = (p', h') ∧ Floating h' T₁' T₂ p' n' top ∧ p' ≤ p ∧
      p' + n' = p + n ∧ (∀ y, T₁'.getLast? = some y → y.kind ≠ .free) ∧
      Joined h h' p' n' ∧ ∀ x, x.kind ≠ .free → (x ∈ T₁' ↔ x ∈ T₁) := by
  obtain ⟨positive, someHere, -⟩ := floating.pos
  obtain ⟨-, page, -⟩ := floating.here.free rfl
  simp only [Tile.stop] at page
  have nonempty := List.ne_nil_of_mem floating.origin
  obtain ⟨front, y, rfl⟩ : ∃ front y, T₁ = front ++ [y] :=
    ⟨_, _, (List.dropLast_append_getLast nonempty).symm⟩
  have inside : y ∈ front ++ [y] ∨ y ∈ T₂ := Or.inl (by simp)
  have someY := floating.len_pos inside
  have stopY : y.stop = p := by
    obtain ⟨s, tiled, here, -⟩ := tiling_append.mp floating.tiling
    obtain ⟨t, -, startY, -, stop⟩ := tiling_append.mp tiled
    simp only [tiling_nil, Tile.stop] at here stop ⊢
    omega
  have describedY := floating.described y inside
  have adj := describedY.last someY
  rw [stopY] at adj
  by_cases free : y.kind = .free
  · obtain ⟨start, len, kind⟩ := y
    simp only at free someY
    subst free
    simp only [Tile.stop] at stopY adj
    subst stopY
    refine ⟨front, start, len + n, _,
      joinPrevious_free (by omega) adj (describedY.free rfl).1 page, floating.join_left,
      by omega, by omega, ?_, joined_frame _ someY someHere, ?_⟩
    · intro z last kind
      exact (List.isChain_append.mp floating.before).2.2 z last _ rfl ⟨kind, rfl⟩
    · intro x busy
      have : x ≠ ⟨start, len, .free⟩ := fun same => busy (same ▸ rfl)
      simp [this]
  · have notFree : ¬ (h.desc y.start).code = bigFree := fun code => free (describedY.code.2.mp code)
    refine ⟨front ++ [y], p, n, h.setSize p n, ?_, ?_, le_rfl, rfl, ?_, ?_, fun x _ => Iff.rfl⟩
    · simp [Malloc.joinPrevious, adj, notFree, page]
    · obtain ⟨gs, lists, listed⟩ := floating.listed
      exact { floating with
        listed := ⟨gs, lists.setSize fun k found => floating.start_ne ((listed k p).mp found) rfl,
          listed⟩ }
    · intro z last
      simp only [List.getLast?_append, List.getLast?_singleton, Option.some_or,
        Option.some.injEq] at last
      exact last ▸ free
    · exact ⟨fun _ _ => rfl, ⟨rfl, rfl, rfl, rfl⟩, by simp [Heap.setSize]⟩

/-- After the second join the block behind is not free. -/
theorem Floating.joinNext (floating : Floating h T₁ T₂ p n top) (bound : h.endPage = top)
    (sized : h.lists.size p = n) :
    ∃ T₂' n', Floating (joinNext h p) T₁ T₂' p n' top ∧ n ≤ n' ∧
      (∀ y, T₂'.head? = some y → y.kind ≠ .free) ∧ Joined h (joinNext h p) p n' ∧
      ∀ x, x.kind ≠ .free → (x ∈ T₂' ↔ x ∈ T₂) := by
  obtain ⟨positive, someHere, -⟩ := floating.pos
  obtain ⟨-, page, -⟩ := floating.here.free rfl
  simp only [Tile.stop] at page
  have behind : Tiling (p + n) T₂ top := by
    obtain ⟨-, -, back⟩ := floating.tiling.around
    exact back
  have stay : Malloc.joinNext h p = h → (∀ y, T₂.head? = some y → y.kind ≠ .free) →
      ∃ T₂' n', Floating (Malloc.joinNext h p) T₁ T₂' p n' top ∧ n ≤ n' ∧
        (∀ y, T₂'.head? = some y → y.kind ≠ .free) ∧ Joined h (Malloc.joinNext h p) p n' ∧
        ∀ x, x.kind ≠ .free → (x ∈ T₂' ↔ x ∈ T₂) := by
    intro same notFree
    rw [same]
    exact ⟨T₂, n, floating, le_rfl, notFree, ⟨fun _ _ => rfl, SameBounds.refl h, sized⟩,
      fun x _ => Iff.rfl⟩
  cases T₂ with
  | nil =>
      have last : p + n = top := behind
      refine stay ?_ (by simp)
      simp [Malloc.joinNext, page, bound, last]
  | cons z T₂ =>
      obtain ⟨startZ, someZ, rest⟩ := behind
      have inside : z ∈ T₁ ∨ z ∈ z :: T₂ := Or.inr List.mem_cons_self
      have describedZ := floating.described z inside
      by_cases free : z.kind = .free
      · obtain ⟨start, len, kind⟩ := z
        simp only at free startZ someZ
        subst free startZ
        obtain ⟨code, next, -⟩ := describedZ.free rfl
        have below : p + n < h.endPage := by
          have := rest.le
          simp only at this
          omega
        rw [joinNext_free someHere page below code next]
        refine ⟨T₂, n + len, floating.join_right, by omega, ?_, joined_frame _ someHere someZ, ?_⟩
        · intro y first kind
          exact (List.isChain_cons.mp floating.after).1 y first ⟨rfl, kind⟩
        · intro x busy
          have : x ≠ ⟨p + n, len, .free⟩ := fun same => busy (same ▸ rfl)
          simp [this]
      · have notFree : ¬ (h.desc (p + n)).code = bigFree := by
          rw [← startZ]
          exact fun code => free (describedZ.code.2.mp code)
        refine stay ?_ ?_
        · simp [Malloc.joinNext, page, notFree]
        · intro y first
          cases first
          exact free

theorem Floating.add (floating : Floating h T₁ T₂ p n top) (bound : h.endPage = top)
    (sized : h.lists.size p = n) (before : ∀ y, T₁.getLast? = some y → y.kind ≠ .free)
    (after : ∀ y, T₂.head? = some y → y.kind ≠ .free) :
    ∃ h', h.add p = some h' ∧ Inv h' (T₁ ++ ([⟨p, n, .free⟩] ++ T₂)) top ∧ h'.desc = h.desc ∧
      h'.lists.size p = n ∧ SameBounds h h' := by
  obtain ⟨gs, lists, listed⟩ := floating.listed
  have fresh : ∀ k, (k, p) ∉ extents gs := fun k found =>
    floating.start_ne ((listed k p).mp found) rfl
  have few : (extents gs).length < top := by
    have := floating.pos
    refine lists.few (by omega) fun k q found => ?_
    have whole : (⟨q, k, .free⟩ : Block) ∈ T₁ ++ ([⟨p, n, .free⟩] ++ T₂) := by
      have := (listed k q).mp found
      simp only [List.mem_append]
      tauto
    have := floating.tiling.mem_bounds whole
    simp only [Tile.stop] at this
    omega
  obtain ⟨f', gs', add, lists', sizes, listed'⟩ :=
    lists.fpAdd (n := n) (p := p) h.endPage (by omega) (Nat.ne_of_gt floating.pos.1) sized
      fresh
  refine ⟨{ h with lists := f' }, by simp [Heap.add, add], ⟨floating.tiling, ?_, ?_, ?_, gs', lists',
    fun k q => ?_⟩, rfl, ?_, ⟨rfl, rfl, rfl, rfl⟩⟩
  · exact List.mem_append_left _ floating.origin
  · refine List.isChain_append.mpr ⟨floating.before, List.isChain_cons.mpr
      ⟨fun y first both => after y first both.2, floating.after⟩, ?_⟩
    exact fun y last z _ both => before y last both.1
  · intro y member
    rcases List.mem_append.mp member with first | later
    · exact floating.described y (Or.inl first)
    · rcases List.mem_cons.mp later with rfl | last
      · exact floating.here
      · exact floating.described y (Or.inr last)
  · rw [listed', listed]
    simp only [List.mem_append, List.mem_singleton, Tile.mk.injEq, and_true, Prod.mk.injEq]
    tauto
  · show f'.size p = n
    rw [sizes, sized]

/-- `free_pages` on an extent whose descriptor gives its true end: the extent becomes part of one free
extent that no free extent touches, and no other block changes. -/
theorem Inv.freePages (inv : Inv h (T₁ ++ ([⟨p, n, .used (p + n)⟩] ++ T₂)) top)
    (bound : h.endPage = top) :
    ∃ T₁' T₂' q k h', freePages h p = some (q, h') ∧
      Inv h' (T₁' ++ ([⟨q, k, .free⟩] ++ T₂')) top ∧ q ≤ p ∧ p + n ≤ q + k ∧
      h'.lists.size q = k ∧ SameBounds h h' ∧
      (∀ x, x.kind ≠ .free → (x ∈ T₁' ↔ x ∈ T₁)) ∧ (∀ x, x.kind ≠ .free → (x ∈ T₂' ↔ x ∈ T₂)) ∧
      ∀ i, i < q ∨ q + k ≤ i → h'.desc i = h.desc i := by
  have code : (h.desc p).code = big :=
    ((inv.described (⟨p, n, .used (p + n)⟩ : Block) (by simp)).used rfl).1
  obtain ⟨T₁', q, n', h₁, first, floating₁, before, end₁, notBefore, joined₁, same₁⟩ :=
    inv.float.joinPrevious
  obtain ⟨T₂', k, floating₂, longer, notAfter, joined₂, same₂⟩ :=
    floating₁.joinNext (joined₁.bounds.endPage.trans bound) joined₁.size
  obtain ⟨h', add, inv', desc, size, bounds⟩ :=
    floating₂.add ((joined₂.bounds.endPage.trans joined₁.bounds.endPage).trans bound) joined₂.size
      notBefore notAfter
  have some := inv.float.pos.2.1
  have start : SameBounds h (h.setCode p bigFree) := ⟨rfl, rfl, rfl, rfl⟩
  refine ⟨T₁', T₂', q, k, h', ?_, inv', before, by omega, size, ?_, same₁, same₂, ?_⟩
  · simp [Malloc.freePages, code, first, add]
  · exact (start.trans joined₁.bounds).trans (joined₂.bounds.trans bounds)
  · intro i outside
    rw [desc, joined₂.desc i outside, joined₁.desc i (by omega)]
    exact Function.update_of_ne (by omega) _ _

end Join

/-! ### Whole calls -/

/-- The blocks tile the heap up to its end, which is the break. The heap stays within 2^18 pages, one
gigabyte: then the top-level page table is one page, and every distance fits in an `int`. -/
structure Bounded (h : Heap) (T : List Block) : Prop where
  inv : Inv h T h.endPage
  brk : h.brk = h.endPage * pageSize
  small : h.endPage ≤ 2 ^ 18

/-- Every page has a descriptor, and the pages of descriptors are pages of the allocator itself. -/
structure HeapOk (h : Heap) (T : List Block) : Prop extends Bounded h T where
  tables : ∀ j, j ≤ i1 (h.endPage - 1) → h.pages j ≠ 0
  held : ∀ j, h.pages j ≠ 0 → (⟨h.pages j, 1, .base⟩ : Block) ∈ T

theorem HeapOk.of_change {h h' : Heap} {T T' : List Block} {gone come : Block → Prop}
    (ok : HeapOk h T) (bounded : Bounded h' T') (change : Change h h' T T' gone come)
    (notBase : ∀ x, gone x → x.kind ≠ .base) (pages : h'.pages = h.pages)
    (lower : h'.endPage ≤ h.endPage) : HeapOk h' T' := by
  refine ⟨bounded, fun j below => ?_, fun j used => ?_⟩
  · rw [pages]
    exact ok.tables j (below.trans (Nat.div_le_div_right (by omega)))
  · rw [pages] at used ⊢
    exact change.stays _ (ok.held j used) (by simp) fun gone => notBase _ gone rfl

section Calls

variable {os : ℕ → Bool} {h : Heap} {T T₁ T₂ : List Block} {p n m size : ℕ}

theorem toInt_of_small {k : ℤ} (lower : -2 ^ 31 ≤ k) (upper : k < 2 ^ 31) : toInt k = k :=
  Int.bmod_eq_of_le (by omega) (by omega)

/-- The last block of the heap, if it is free, goes back to the operating system. -/
theorem Bounded.shrink (os : ℕ → Bool) {q k : ℕ} (ok : Bounded h (T₁ ++ ([⟨q, k, .free⟩] ++ T₂)))
    (last : q + k = h.endPage) :
    T₂ = [] ∧ ∃ h', sbrk os (h.remove q) (toInt (q * pageSize - h.endPage * pageSize)) =
      some (h.brk, h') ∧ Bounded { h' with endPage := q } T₁ ∧ h'.desc = h.desc := by
  have member : (⟨q, k, .free⟩ : Block) ∈ T₁ ++ ([⟨q, k, .free⟩] ++ T₂) := by simp
  obtain ⟨front, -, back⟩ := ok.inv.tiling.around
  simp only [Tile.stop] at front back
  have ended : T₂ = [] := by
    cases T₂ with
    | nil => rfl
    | cons y T₂ =>
        have := (back.mem_bounds (x := y) List.mem_cons_self)
        rw [Tile.stop] at this
        omega
  subst ended
  have bound := ok.small
  have delta : toInt (q * pageSize - h.endPage * pageSize) = q * pageSize - h.endPage * pageSize := by
    simp only [pageSize]
    exact toInt_of_small (by omega) (by omega)
  refine ⟨rfl, { h.remove q with brk := q * pageSize }, ?_, ⟨⟨front, ?_, ?_, ?_, ?_⟩, rfl, ?_⟩, rfl⟩
  · have value : ((h.remove q).brk : ℤ) + ((q : ℤ) * pageSize - h.endPage * pageSize) = q * pageSize := by
      have := ok.brk
      simp only [Heap.remove, this]
      push_cast
      omega
    have notAbove : (q * pageSize : ℤ) ≤ (h.remove q).brk := by
      have := ok.brk
      simp only [Heap.remove, this, pageSize]
      omega
    have natural : ((q : ℤ) * pageSize).toNat = q * pageSize := by
      simp only [pageSize]
      omega
    have notNegative : ¬ ((q : ℤ) * pageSize < 0) := by
      simp only [pageSize]
      omega
    simp only [sbrk, delta, value, notNegative, if_false, notAbove, true_or, if_true, natural]
    rfl
  · have origin := ok.inv.origin
    simpa using origin
  · exact (List.isChain_append.mp ok.inv.coalesced).1
  · exact fun y inside => ok.inv.described y (List.mem_append_left _ inside)
  · obtain ⟨gs, lists, listed⟩ := ok.inv.listed
    obtain ⟨gs', lists', listed'⟩ := lists.fpRemove ((listed k q).mpr member)
    refine ⟨gs', lists', fun i j => ?_⟩
    rw [listed', listed]
    simp only [List.append_nil, List.mem_append, List.mem_singleton, Tile.mk.injEq, and_true]
    constructor
    · rintro ⟨before | here, other⟩
      · exact before
      · exact absurd here.1 other
    · intro before
      refine ⟨Or.inl before, ?_⟩
      have := front.mem_bounds before
      simp only [Tile.stop] at this
      omega
  · have := ok.inv.tiling.mem_bounds member
    simp only [Tile.stop] at this ⊢
    omega

/-- `free` on an extent whose descriptor gives its true end takes away that block and no other. -/
theorem HeapOk.freeExtent (os : ℕ → Bool) (ok : HeapOk h T) (member : (⟨p, n, .used (p + n)⟩ : Block) ∈ T) :
    ∃ h' T', freeExtent os h p = some h' ∧ HeapOk h' T' ∧
      Change h h' T T' (fun x => x = ⟨p, n, .used (p + n)⟩) (fun _ => False) ∧
      h'.endPage ≤ h.endPage ∧ h'.pages = h.pages ∧ h'.master = h.master := by
  obtain ⟨T₁, T₂, rfl⟩ := List.append_of_mem member
  have inv : Inv h (T₁ ++ ([⟨p, n, .used (p + n)⟩] ++ T₂)) h.endPage := ok.inv
  obtain ⟨T₁', T₂', q, k, h₁, call, inv₁, before, behind, size, bounds, same₁, same₂, desc⟩ :=
    inv.freePages rfl
  have ok₁ : Bounded h₁ (T₁' ++ ([⟨q, k, .free⟩] ++ T₂')) :=
    ⟨bounds.endPage ▸ inv₁, by rw [bounds.brk, bounds.endPage]; exact ok.brk,
      bounds.endPage ▸ ok.small⟩
  -- the blocks in use before and after, wherever the last free extent goes
  have change : ∀ (h' : Heap) (T' : List Block), h'.desc = h₁.desc →
      (∀ x, x.kind ≠ .free → (x ∈ T' ↔ x ∈ T₁' ∨ x ∈ T₂')) →
      Change h h' (T₁ ++ ([⟨p, n, .used (p + n)⟩] ++ T₂)) T'
        (fun x => x = ⟨p, n, .used (p + n)⟩) (fun _ => False) := by
    intro h' T' sameDesc sameBlocks
    refine ⟨fun x memberX busy stays => ?_, fun x memberX busy => ?_, fun x memberX busy stays i => ?_⟩
    · rw [sameBlocks x busy, same₁ x busy, same₂ x busy]
      simp only [List.mem_append, List.mem_singleton] at memberX
      tauto
    · left
      rw [sameBlocks x busy, same₁ x busy, same₂ x busy] at memberX
      refine ⟨by simp only [List.mem_append]; tauto, ?_⟩
      rintro rfl
      have := inv.len_pos (x := ⟨p, n, .used (p + n)⟩) (by simp)
      simp only at this
      have := inv.outside memberX (n := p) le_rfl (by simp only [Tile.stop]; omega)
      simp only [Tile.stop] at this
      omega
    · intro above below
      rw [sameDesc]
      refine desc i ?_
      have outside : x ∈ T₁' ∨ x ∈ T₂' := by
        rw [same₁ x busy, same₂ x busy]
        simp only [List.mem_append, List.mem_singleton] at memberX
        tauto
      exact inv₁.outside outside above below
  by_cases last : q + k = h₁.endPage
  · obtain ⟨rfl, h₂, shrink, ok₂, sameDesc⟩ := ok₁.shrink os last
    have samePages : h₂.pages = h.pages ∧ h₂.master = h.master := by
      simp only [sbrk] at shrink
      split_ifs at shrink
      obtain ⟨-, rfl⟩ := Prod.mk.inj (Option.some.inj shrink)
      exact ⟨bounds.pages, bounds.master⟩
    have lower : q ≤ h.endPage := by
      rw [← bounds.endPage]
      omega
    have change' := change { h₂ with endPage := q } T₁' sameDesc (by simp)
    refine ⟨{ h₂ with endPage := q }, T₁', ?_, ok.of_change ok₂ change' (by rintro _ rfl; simp)
      samePages.1 lower, change', lower, samePages⟩
    · simp only [Malloc.freeExtent, call, Option.bind_eq_bind, Option.bind_some, size]
      rw [if_pos ⟨last, ok₁.brk⟩]
      simp only [Heap.remove] at shrink ⊢
      rw [shrink]
      rfl
  · have change' := change h₁ (T₁' ++ ([⟨q, k, .free⟩] ++ T₂')) rfl fun x busy => by
      have : x ≠ ⟨q, k, .free⟩ := fun same => busy (same ▸ rfl)
      simp [this]
    refine ⟨h₁, _, ?_, ok.of_change ok₁ change' (by rintro _ rfl; simp) bounds.pages
      (le_of_eq bounds.endPage), change', le_of_eq bounds.endPage, bounds.pages, bounds.master⟩
    · simp only [Malloc.freeExtent, call, Option.bind_eq_bind, Option.bind_some, size]
      rw [if_neg fun both => last both.1]

end Calls

end Elcrq.Malloc
