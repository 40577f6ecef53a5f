import Elcrq.Malloc.Growth

/-! # Extents that are used and free at once

When `alloc_pages` cuts a free extent in two, the descriptor of the first part keeps the
end of the whole. `free_pages` takes the size from that descriptor, so that a `free` of the
first part puts pages on the free lists that are there already, or ends the heap in front
of them. A request of no pages cuts nothing off, and the extent it gets stays on its list. -/

set_option autoImplicit false

namespace Elcrq.Malloc

open Elcrq.Store

variable {os : ℕ → Bool} {h : Heap} {T : List Block} {p n k size top : ℕ}

theorem Inv.free_of_code (inv : Inv h T top) (below : p < top) (code : (h.desc p).code = bigFree) :
    ∃ m, (⟨p, m, .free⟩ : Block) ∈ T := by
  obtain ⟨y, member, first⟩ := inv.block_of_code below (by rw [code]; decide)
  have described := inv.described y member
  obtain ⟨start, len, kind⟩ := y
  simp only at first
  subst first
  obtain rfl : kind = .free := described.code.2.mp code
  exact ⟨len, member⟩

theorem Inv.block_before (inv : Inv h T top) {x : Block} (member : x ∈ T) (later : 0 < x.start) :
    ∃ y ∈ T, y.stop = x.start := by
  have bounds := inv.tiling.mem_bounds member
  obtain ⟨y, memberY, start, stop⟩ := inv.tiling.cover (Nat.zero_le (x.start - 1))
    (show x.start - 1 < top by rw [Tile.stop] at bounds; omega)
  have other : y ≠ x := by
    rintro rfl
    omega
  rcases inv.tiling.disjoint memberY member other with before | behind
  · exact ⟨y, memberY, by omega⟩
  · rw [Tile.stop] at behind
    omega

theorem Inv.block_after (inv : Inv h T top) {x : Block} (member : x ∈ T) (below : x.stop < top) :
    ∃ y ∈ T, y.start = x.stop := by
  obtain ⟨y, memberY, start, stop⟩ := inv.tiling.cover (Nat.zero_le x.stop) below
  have other : x ≠ y := by
    rintro rfl
    exact absurd stop (Nat.lt_irrefl _)
  have apart := inv.tiling.disjoint member memberY other
  have someX := inv.len_pos member
  refine ⟨y, memberY, ?_⟩
  simp only [Tile.stop] at apart start stop ⊢
  omega

/-- `free_pages` on an extent whose descriptor gives the end `p + n`, with no free extent in front of it or
at that end: it goes on its list with `n` pages, whatever its own size. -/
theorem Inv.freePages_stale (inv : Inv h T h.endPage) (block : (⟨p, size, .used (p + n)⟩ : Block) ∈ T)
    (before : ∀ y ∈ T, y.stop = p → y.kind ≠ .free) (behind : ∀ m, (⟨p + n, m, .free⟩ : Block) ∉ T) :
    ∃ h' gs, Malloc.freePages h p = some (p, h') ∧ h'.endPage = h.endPage ∧ h'.lists.size p = n ∧
      Lists h'.lists gs ∧
      ∀ m x, (m, x) ∈ extents gs ↔ (⟨x, m, .free⟩ : Block) ∈ T ∨ (m, x) = (n, p) := by
  have used := (inv.described _ block).used rfl
  have positive := inv.len_pos block
  simp only [Tile.stop] at used positive
  obtain ⟨code, page, ends, -⟩ := used
  have real : p ≠ 0 := by
    rintro rfl
    have same := inv.tiling.eq_of_start block inv.origin rfl
    simp at same
  -- the join with the block before
  obtain ⟨y, memberY, stopY⟩ := inv.block_before block (Nat.pos_of_ne_zero real)
  simp only at stopY
  have someY := inv.len_pos memberY
  have describedY : Described (h.setCode p bigFree).desc y := by
    refine (inv.described y memberY).congr someY fun m _ below => ?_
    exact Function.update_of_ne (by omega) _ _
  have adj := describedY.last someY
  rw [stopY] at adj
  have notFreeY : ¬ ((h.setCode p bigFree).desc y.start).code = bigFree :=
    fun free => before y memberY stopY (describedY.code.2.mp free)
  have page' : ((h.setCode p bigFree).desc p).page = p + n := by
    simpa [Heap.setCode] using page
  have previous : joinPrevious (h.setCode p bigFree) p =
      (p, (h.setCode p bigFree).setSize p n) := by
    simp [joinPrevious, adj, notFreeY, page']
  -- the join with the block behind
  have next : joinNext ((h.setCode p bigFree).setSize p n) p = (h.setCode p bigFree).setSize p n := by
    have notFree : ¬ (p + n < h.endPage ∧ ((h.setCode p bigFree).desc (p + n)).code = bigFree) := by
      rintro ⟨below, free⟩
      have same : (h.setCode p bigFree).desc (p + n) = h.desc (p + n) :=
        Function.update_of_ne (by omega) _ _
      rw [same] at free
      obtain ⟨m, member⟩ := inv.free_of_code below free
      exact behind m member
    have stored : (((h.setCode p bigFree).setSize p n).desc p).page = p + n := page'
    rw [joinNext]
    simp only [stored]
    exact if_neg notFree
  obtain ⟨gs, lists, listed⟩ := inv.listed
  have fresh : ∀ m, (m, p) ∉ extents gs := by
    intro m found
    have same := inv.tiling.eq_of_start ((listed m p).mp found) block rfl
    simp at same
  have few := inv.few lists fun m x => (listed m x).mp
  obtain ⟨f', gs', add, lists', sizes, listed'⟩ :=
    (lists.setSize (n := n) fresh).fpAdd (n := n) h.endPage few real (by simp) fresh
  refine ⟨{ (h.setCode p bigFree).setSize p n with lists := f' }, gs', ?_, rfl, ?_, lists', fun m x => ?_⟩
  · have adding : ((h.setCode p bigFree).setSize p n).add p =
        some { (h.setCode p bigFree).setSize p n with lists := f' } := by
      have call : fpAdd ((h.setCode p bigFree).setSize p n).endPage
          ((h.setCode p bigFree).setSize p n).lists p = some f' := add
      rw [Heap.add, call]
      rfl
    simp [Malloc.freePages, code, previous, next, adding]
  · show f'.size p = n
    rw [sizes]
    simp
  · rw [listed', listed]

theorem sbrk_lists (os : ℕ → Bool) (h : Heap) (d : ℤ) :
    (((sbrk os h d).map Prod.snd).getD h).lists = h.lists := by
  simp only [sbrk]
  split_ifs <;> rfl

/-- `free` of such an extent, when the page behind its true end is free: the free extent there stays on its
list, and is then inside another one or behind the end of the heap. -/
theorem Inv.freeExtent_stale (os : ℕ → Bool) (inv : Inv h T h.endPage)
    (block : (⟨p, size, .used (p + n)⟩ : Block) ∈ T) (rest : (⟨p + size, k, .free⟩ : Block) ∈ T)
    (before : ∀ y ∈ T, y.stop = p → y.kind ≠ .free) (behind : ∀ m, (⟨p + n, m, .free⟩ : Block) ∉ T) :
    ∃ h' gs, Malloc.freeExtent os h p = some h' ∧ Lists h'.lists gs ∧ (k, p + size) ∈ extents gs ∧
      ((n, p) ∈ extents gs ∨ h'.endPage = p) := by
  obtain ⟨h₁, gs, call, ends, sized, lists, listed⟩ := inv.freePages_stale block before behind
  have here : (n, p) ∈ extents gs := (listed n p).mpr (Or.inr rfl)
  have remains : (k, p + size) ∈ extents gs := (listed k (p + size)).mpr (Or.inl rest)
  have positive := inv.len_pos block
  simp only at positive
  rw [Malloc.freeExtent, call, Option.bind_eq_bind, Option.bind_some]
  by_cases last : p + h₁.lists.size p = h₁.endPage ∧ h₁.brk = h₁.endPage * pageSize
  · obtain ⟨gs', lists', listed'⟩ := lists.fpRemove here
    refine ⟨_, gs', if_pos last, ?_, (listed' k (p + size)).mpr ⟨remains, by omega⟩, Or.inr rfl⟩
    simp only [sbrk_lists]
    exact lists'
  · exact ⟨h₁, gs, if_neg last, lists, remains, Or.inl here⟩

theorem Inv.apart (inv : Inv h T top) {x y : Block} (memberX : x ∈ T) (memberY : y ∈ T)
    (neighbours : x.stop = y.start) (freeX : x.kind = .free) : y.kind ≠ .free := by
  have someX := inv.len_pos memberX
  have someY := inv.len_pos memberY
  obtain ⟨T₁, T₂, rfl⟩ := List.append_of_mem memberX
  obtain ⟨-, -, back⟩ := inv.tiling.around
  have order := inv.tiling.pairwise
  rcases List.mem_append.mp memberY with front | later
  · have := (List.pairwise_append.mp order).2.2 y front x List.mem_cons_self
    simp only [Tile.stop] at this neighbours
    omega
  · rcases List.mem_cons.mp later with rfl | behind
    · rw [Tile.stop] at neighbours
      omega
    · cases T₂ with
      | nil => cases behind
      | cons z T₂ =>
          obtain rfl : y = z := inv.tiling.eq_of_start memberY (by simp)
            (by rw [← neighbours]; exact back.1.symm)
          have chain := (List.isChain_append.mp inv.coalesced).2.1
          exact fun freeY => (List.isChain_cons_cons.mp chain).1 ⟨freeX, freeY⟩

theorem HeapOk.valloc_best (os : ℕ → Bool) {bytes : ℕ} (ok : HeapOk h T)
    (pages : (bytes + pageSize - 1) / pageSize = size) (positive : 0 < size)
    (free : (⟨p, n, .free⟩ : Block) ∈ T) (large : size ≤ n)
    (best : ∀ m q, (⟨q, m, .free⟩ : Block) ∈ T → size ≤ m → n < m ∨ (n = m ∧ p ≤ q)) :
    ∃ h₁ T', Malloc.valloc os h bytes = some (p, h₁) ∧ p ≠ 0 ∧
      Allocated h h₁ T T' h.endPage p size (p + n) := by
  have bounds := ok.inv.tiling.mem_bounds free
  have small := ok.small
  simp only [Tile.stop] at bounds
  have bound : size * pageSize < 2 ^ 31 :=
    (Nat.mul_le_mul_right pageSize (show size ≤ 2 ^ 18 by omega)).trans_lt (by decide)
  obtain ⟨count, int, -⟩ := pages_of_bytes pages bound
  rcases ok.inv.alloc size le_rfl positive (by omega) with
    ⟨-, none⟩ | ⟨p', n', h₁, T', alloc, real, free', large', best', allocated⟩
  · have := none n p free
    omega
  · obtain ⟨rfl, rfl⟩ : p' = p ∧ n' = n := by
      have one := best n' p' free' large'
      have two := best' n p free large
      omega
    refine ⟨h₁, T', ?_, real, allocated⟩
    rw [Malloc.valloc, count, vallocPages, int, alloc, Option.bind_eq_bind, Option.bind_some]
    simp only [ne_eq, real, not_false_eq_true, if_true]

section Cut

variable {h₁ : Heap} {T' : List Block} (inv : Inv h T top) (free : (⟨p, n, .free⟩ : Block) ∈ T)
  (allocated : Allocated h h₁ T T' top p size (p + n))
include inv free allocated

theorem Allocated.before (real : p ≠ 0) {y : Block} (member : y ∈ T') (stop : y.stop = p) :
    y.kind ≠ .free := by
  intro freeY
  obtain ⟨z, memberZ, stopZ⟩ := inv.block_before free (Nat.pos_of_ne_zero real)
  have busy : z.kind ≠ .free := fun freeZ => inv.apart memberZ free stopZ freeZ rfl
  have someY := allocated.inv.len_pos member
  have someZ := inv.len_pos memberZ
  have same := allocated.inv.tiling.unique (n := p - 1) member
    (allocated.change.stays z memberZ busy not_false)
    (by simp only [Tile.stop] at stop ⊢; omega) (by simp only [Tile.stop] at stopZ ⊢; omega)
  exact busy (same ▸ freeY)

theorem Allocated.after (below : p + n < top) : ∃ z ∈ T', z.start = p + n ∧ z.kind ≠ .free := by
  obtain ⟨z, memberZ, start⟩ := inv.block_after free below
  have busy := inv.apart free memberZ start.symm rfl
  exact ⟨z, allocated.change.stays z memberZ busy not_false, start, busy⟩

/-- What follows the first part is the rest of the extent. -/
theorem Allocated.rest (cut : size < n) : (⟨p + size, n - size, .free⟩ : Block) ∈ T' := by
  have bounds := inv.tiling.mem_bounds free
  simp only [Tile.stop] at bounds
  obtain ⟨x, memberX, start⟩ := allocated.inv.block_after allocated.member
    (show p + size < top by omega)
  simp only [Tile.stop] at start
  have positive := allocated.inv.len_pos allocated.member
  have some := allocated.inv.len_pos memberX
  simp only at positive
  have boundsX := allocated.inv.tiling.mem_bounds memberX
  have inside : ∀ y ∈ T', y.kind ≠ .free → p < y.start → p + n ≤ y.start := by
    intro y memberY busy later
    by_contra within
    rcases allocated.change.source y memberY busy with ⟨old, -⟩ | rfl
    · have someY := allocated.inv.len_pos memberY
      have same := inv.tiling.unique (n := y.start) free old
        ⟨by simp only; omega, by simp only [Tile.stop]; omega⟩
        ⟨le_rfl, by rw [Tile.stop]; omega⟩
      exact busy (same ▸ rfl)
    · exact absurd later (Nat.lt_irrefl _)
  have freeX : x.kind = .free := by
    by_contra busy
    have := inside x memberX busy (by omega)
    omega
  have stop : x.stop = p + n := by
    rcases Nat.lt_trichotomy x.stop (p + n) with less | same | more
    · obtain ⟨y, memberY, startY⟩ := allocated.inv.block_after memberX (by omega)
      have busy := allocated.inv.apart memberX memberY startY.symm freeX
      have := inside y memberY busy (by rw [startY, Tile.stop]; omega)
      omega
    · exact same
    · obtain ⟨z, memberZ, startZ, busy⟩ := allocated.after inv free (by omega)
      have someZ := allocated.inv.len_pos memberZ
      have same := allocated.inv.tiling.unique (n := p + n) memberX memberZ
        ⟨by omega, more⟩ ⟨startZ.le, by rw [Tile.stop]; omega⟩
      exact absurd freeX (same ▸ busy)
  obtain ⟨startX, len, kind⟩ := x
  simp only [Tile.stop] at start freeX stop
  subst start freeX
  obtain rfl : len = n - size := by omega
  exact memberX

end Cut

/-- Whenever `valloc` has to cut a free extent, a `free` of what it gave breaks the free lists: the rest of
the cut extent stays on its list, and is then inside another free extent or behind the end of the heap. -/
theorem HeapOk.free_cut (os os' : ℕ → Bool) {bytes : ℕ} (ok : HeapOk h T)
    (pages : (bytes + pageSize - 1) / pageSize = size) (positive : 0 < size)
    (free : (⟨p, n, .free⟩ : Block) ∈ T) (cut : size < n)
    (best : ∀ m q, (⟨q, m, .free⟩ : Block) ∈ T → size ≤ m → n < m ∨ (n = m ∧ p ≤ q)) :
    ∃ h₁ h₂ gs, Malloc.valloc os h bytes = some (p, h₁) ∧ Malloc.freeExtent os' h₁ p = some h₂ ∧
      Lists h₂.lists gs ∧ (n - size, p + size) ∈ extents gs ∧
      ((n, p) ∈ extents gs ∨ h₂.endPage = p) := by
  obtain ⟨h₁, T', call, real, allocated⟩ := ok.valloc_best os pages positive free cut.le best
  have behind : ∀ m, (⟨p + n, m, .free⟩ : Block) ∉ T' := by
    intro m member
    have bounds := allocated.inv.tiling.mem_bounds member
    have some := allocated.inv.len_pos member
    simp only [Tile.stop] at bounds some
    obtain ⟨z, memberZ, start, busy⟩ := allocated.after ok.inv free (by omega)
    have same := allocated.inv.tiling.eq_of_start member memberZ start.symm
    exact busy (same ▸ rfl)
  have inv' : Inv h₁ T' h₁.endPage := allocated.bounds.endPage ▸ allocated.inv
  obtain ⟨h₂, gs, freed, lists, remains, fate⟩ := inv'.freeExtent_stale os' allocated.member
    (allocated.rest ok.inv free cut) (fun y => allocated.before ok.inv free real) behind
  exact ⟨h₁, h₂, gs, call, freed, lists, remains, fate⟩

/-- Three pages free between the pages of the allocator and an extent in use. -/
def gapped : Heap where
  desc n :=
    if n < 3 then ⟨0, 0, 0, base⟩
    else if n = 3 then ⟨6, 0, 0, bigFree⟩
    else if n < 6 then ⟨3, 0, 0, middle⟩
    else ⟨7, 0, 0, big⟩
  lists := ⟨fun t => if t = .freepages then 3 else 0, fun _ => .freepages, fun _ => 3⟩
  endPage := 7
  brk := 7 * pageSize
  pages i := if i = 0 then 2 else 0
  master := 1

def gappedBlocks : List Block := basePages 0 3 ++ [⟨3, 3, .free⟩, ⟨6, 1, .used 7⟩]

theorem heapOk_gapped : HeapOk gapped gappedBlocks := by
  refine Bounded.one_table ⟨⟨?_, by decide, ?_, ?_, [⟨3, 3, []⟩], ?_, fun m q => ?_⟩, rfl, by decide⟩
    (fun _ => rfl) (by decide) (by decide)
  · exact tiling_append.mpr ⟨3, tiling_basePages 3 0, rfl, by decide, rfl, by decide, rfl⟩
  · simp [gappedBlocks, basePages, Apart]
  · intro x member
    simp only [gappedBlocks, basePages, List.cons_append, List.nil_append, List.mem_cons,
      List.not_mem_nil, or_false] at member
    rcases member with rfl | rfl | rfl | rfl | rfl
    · exact ⟨rfl, rfl⟩
    · exact ⟨rfl, rfl⟩
    · exact ⟨rfl, rfl⟩
    · refine ⟨rfl, rfl, fun n above below => ?_⟩
      simp only [Tile.stop] at above below
      obtain rfl | rfl : n = 4 ∨ n = 5 := by omega
      · exact ⟨rfl, rfl⟩
      · exact ⟨rfl, rfl⟩
    · refine ⟨rfl, rfl, by decide, fun n above below => ?_⟩
      simp only [Tile.stop] at above below
      omega
  · refine ⟨⟨rfl, by decide, rfl, rfl⟩, ?_, ?_, ?_, ?_, ?_⟩ <;> simp [gapped, Group.pages]
  · simp [extents, gappedBlocks, basePages, Group.pages]
    tauto

/-- One page of the three, given and taken back: the other two are on the free lists twice. -/
theorem HeapOk.free_cut_gapped : ∃ h₁ h₂ gs, Malloc.valloc roomy gapped 4096 = some (3, h₁) ∧
    Malloc.freeExtent roomy h₁ 3 = some h₂ ∧ Lists h₂.lists gs ∧ (3 - 1, 3 + 1) ∈ extents gs ∧
    ((3, 3) ∈ extents gs ∨ h₂.endPage = 3) := by
  refine heapOk_gapped.free_cut roomy roomy (by decide) (by decide) (by decide) (by decide) ?_
  intro m q member large
  simp [gappedBlocks, basePages] at member
  omega

/-! ### A request of no pages -/

theorem cutHeap_zero {h : Heap} (described : Described h.desc ⟨p, n, .free⟩) (i : ℕ) :
    (cutHeap (h.remove p) p 0 n).desc i = h.desc i := by
  obtain ⟨code, page, middles⟩ := described.free rfl
  simp only [Tile.stop] at code page
  simp only [cutHeap, Heap.linkPages, Heap.setSize, Heap.setPage, Heap.setCode, Heap.remove, setLink,
    Nat.add_zero]
  by_cases inside : p + 1 ≤ i ∧ i < p + n
  · have behind : (h.desc i).page = p := (middles i inside.1 inside.2).2
    have other : i ≠ p := by omega
    rw [if_pos inside, Function.update_of_ne other, Function.update_of_ne other,
      Function.update_of_ne other, ← behind]
  · rw [if_neg inside]
    by_cases first : i = p
    · subst first
      simp only [Function.update_self, ← code, ← page]
    · rw [Function.update_of_ne first, Function.update_of_ne first, Function.update_of_ne first]

theorem allocPages_zero (find : fpFind h.endPage h.lists 0 = some (p, fpRemove h.lists p))
    (real : p ≠ 0) (page : (h.desc p).page = p + n) (some : 0 < n) :
    allocPages h 0 = ((cutHeap (h.remove p) p 0 n).add p).map fun h' => (p, h') := by
  have pages : ((0 : ℤ) % 2 ^ 32).toNat = 0 := by decide
  have removed : { h with lists := fpRemove h.lists p } = h.remove p := rfl
  have first : (((h.remove p).setCode p big).desc p).page = p + n := by
    simpa [Heap.setCode, Heap.remove] using page
  have second : ((((h.remove p).setCode p big).setCode p bigFree).desc p).page = p + n := by
    simpa [Heap.setCode, Heap.remove] using page
  have third : (((((h.remove p).setCode p big).setCode p bigFree).setPage p (p + n)).desc p).page =
      p + n := by
    simp [Heap.setPage, setLink]
  simp only [allocPages, find, Option.bind_eq_bind, Option.bind_some, if_neg real, pages, removed,
    first, second, third, Nat.add_sub_cancel_left, Nat.add_zero, gt_iff_lt, if_pos some]
  change ((cutHeap (h.remove p) p 0 n).add p).bind _ = _
  cases (cutHeap (h.remove p) p 0 n).add p with
  | none => rfl
  | some h' => rfl

/-- `valloc` of no bytes gives the first page of the least free extent and leaves the extent on its list: the
heap has the same blocks as before, and the next request that fits gets the same pages. -/
theorem HeapOk.valloc_zero (os : ℕ → Bool) {q m : ℕ} (ok : HeapOk h T)
    (free : (⟨q, m, .free⟩ : Block) ∈ T) :
    ∃ p n h', Malloc.valloc os h 0 = some (p, h') ∧ p ≠ 0 ∧ (⟨p, n, .free⟩ : Block) ∈ T ∧
      (∀ m x, (⟨x, m, .free⟩ : Block) ∈ T → n < m ∨ (n = m ∧ p ≤ x)) ∧ HeapOk h' T ∧
      ∀ os' bytes, 0 < bytes → bytes ≤ n * pageSize → ∃ h'', Malloc.valloc os' h' bytes = some (p, h'') := by
  obtain ⟨gs, lists, listed⟩ := ok.inv.listed
  have few := ok.inv.few lists fun n p => (listed n p).mp
  rcases lists.fpFind h.endPage 0 few with
    ⟨-, none⟩ | ⟨n, p, gs', find, real, found, -, least, lists', listed'⟩
  · have := none m q ((listed m q).mpr free)
    omega
  · have member := (listed n p).mp found
    have positive := ok.inv.len_pos member
    have page := ((ok.inv.described _ member).free rfl).2.1
    have fresh : ∀ k, (k, p) ∉ extents gs' := fun k inside => ((listed' k p).mp inside).2 rfl
    have few' : (extents gs').length < h.endPage := by
      have shorter := lists'.extents_length_le (l := extents gs) fun k x inside =>
        ((listed' k x).mp inside).1
      omega
    obtain ⟨f', gs'', add, lists'', -, listed''⟩ :=
      (lists'.setSize (n := n) fresh).fpAdd (n := n) h.endPage few' real (by simp) fresh
    have adding : (cutHeap (h.remove p) p 0 n).add p =
        some { cutHeap (h.remove p) p 0 n with lists := f' } := by
      have call : fpAdd (cutHeap (h.remove p) p 0 n).endPage (cutHeap (h.remove p) p 0 n).lists p =
          some f' := add
      rw [Heap.add, call]
      rfl
    have best : ∀ m x, (⟨x, m, .free⟩ : Block) ∈ T → n < m ∨ (n = m ∧ p ≤ x) := fun m x inside =>
      least m x ((listed m x).mpr inside) (by omega)
    let h₁ : Heap := { cutHeap (h.remove p) p 0 n with lists := f' }
    have call : Malloc.valloc os h 0 = some (p, h₁) := by
      have none : (0 + pageSize - 1) % 2 ^ 64 / pageSize = 0 := by decide
      have zero : toInt ((0 : ℕ) : ℤ) = 0 := by decide
      rw [Malloc.valloc, none, vallocPages, zero, allocPages_zero find real page positive, adding]
      simp [real, h₁]
    have ok' : HeapOk h₁ T := by
      -- every list has the extents that it had
      have again : ∀ k x, (k, x) ∈ extents gs'' ↔ (⟨x, k, .free⟩ : Block) ∈ T := by
        intro k x
        rw [listed'', listed', listed]
        constructor
        · rintro (⟨inside, -⟩ | same)
          · exact inside
          · cases same
            exact member
        · intro inside
          by_cases same : x = p
          · subst same
            have whole := ok.inv.tiling.eq_of_start inside member rfl
            simp only [Tile.mk.injEq, and_true, true_and] at whole
            exact Or.inr (by rw [whole])
          · exact Or.inl ⟨inside, same⟩
      refine ⟨⟨⟨ok.inv.tiling, ok.inv.origin, ok.inv.coalesced, fun x inside => ?_, gs'', lists'',
        again⟩, ok.brk, ok.small⟩, ok.tables, ok.held⟩
      exact (ok.inv.described x inside).congr (ok.inv.len_pos inside) fun i _ _ =>
        cutHeap_zero (ok.inv.described _ member) i
    refine ⟨p, n, h₁, call, real, member, best, ok', fun os' bytes some fits => ?_⟩
    have page : pageSize = 4096 := rfl
    rw [page] at fits
    have positive : 0 < (bytes + pageSize - 1) / pageSize := by
      rw [page]
      omega
    have large : (bytes + pageSize - 1) / pageSize ≤ n := by
      rw [page]
      omega
    obtain ⟨h₂, _, given, _⟩ :=
      ok'.valloc_best os' rfl positive member large fun m x inside _ => best m x inside
    exact ⟨h₂, given⟩

theorem HeapOk.valloc_zero_gapped : ∃ p n h', Malloc.valloc roomy gapped 0 = some (p, h') ∧ p ≠ 0 ∧
    (⟨p, n, .free⟩ : Block) ∈ gappedBlocks ∧
    (∀ m x, (⟨x, m, .free⟩ : Block) ∈ gappedBlocks → n < m ∨ (n = m ∧ p ≤ x)) ∧
    HeapOk h' gappedBlocks ∧ ∀ os' bytes, 0 < bytes → bytes ≤ n * pageSize →
      ∃ h'', Malloc.valloc os' h' bytes = some (p, h'') :=
  heapOk_gapped.valloc_zero roomy (show (⟨3, 3, .free⟩ : Block) ∈ gappedBlocks by decide)

end Elcrq.Malloc
