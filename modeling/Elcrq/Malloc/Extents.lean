import Elcrq.Malloc.Pages
import Elcrq.Store.Tiling

/-! # The extents tile the heap

The pages of the heap are cut into blocks: free extents, extents in use, pages of
chunks, and pages of the allocator itself. `Inv` says that the blocks tile the heap,
that the descriptors describe them, that no two free extents are neighbours and that
the free lists hold exactly the free extents.

An extent in use carries the end that its descriptor gives for it. `alloc_pages` does
not correct that end when it cuts a free extent in two, so it may lie behind the true
one. -/

set_option autoImplicit false

namespace Elcrq.Malloc

open Elcrq.Store

/-- What a block of pages is for. `used e` is an extent in use whose descriptor says that it ends
before page `e`; `small l` is a page of chunks of class `l`. -/
inductive Kind
  | free
  | used (e : ℕ)
  | small (l : ℕ)
  | base
  deriving DecidableEq, Repr

abbrev Block := Tile Kind

/-- The pages of a block behind the first. -/
def Middles (desc : ℕ → Page) (x : Block) : Prop :=
  ∀ n, x.start < n → n < x.stop → (desc n).code = middle ∧ (desc n).page = x.start

def Described (desc : ℕ → Page) (x : Block) : Prop :=
  match x.kind with
  | .free => (desc x.start).code = bigFree ∧ (desc x.start).page = x.stop ∧ Middles desc x
  | .used e => (desc x.start).code = big ∧ (desc x.start).page = e ∧ x.stop ≤ e ∧ Middles desc x
  | .small l => x.len = 1 ∧ l < numSmall ∧ (desc x.start).code = l
  | .base => x.len = 1 ∧ (desc x.start).code = base

/-- Two neighbours that are not both free. -/
def Apart (x y : Block) : Prop := ¬ (x.kind = .free ∧ y.kind = .free)

structure Inv (h : Heap) (T : List Block) (top : ℕ) : Prop where
  tiling : Tiling 0 T top
  origin : ⟨0, 1, .base⟩ ∈ T
  coalesced : T.IsChain Apart
  described : ∀ x ∈ T, Described h.desc x
  listed : ∃ gs, Lists h.lists gs ∧ ∀ n p, (n, p) ∈ extents gs ↔ ⟨p, n, .free⟩ ∈ T

section Described

variable {desc desc' : ℕ → Page} {x y : Block}

theorem Described.congr (described : Described desc x) (some : 0 < x.len)
    (same : ∀ n, x.start ≤ n → n < x.stop → desc' n = desc n) : Described desc' x := by
  have first : desc' x.start = desc x.start := same _ le_rfl (by rw [Tile.stop]; omega)
  have middles : Middles desc x → Middles desc' x := fun middles n above below => by
    rw [same n (Nat.le_of_lt above) below]
    exact middles n above below
  unfold Described at described ⊢
  cases kind : x.kind with
  | free =>
      simp only [kind, first] at described ⊢
      exact ⟨described.1, described.2.1, middles described.2.2⟩
  | used e =>
      simp only [kind, first] at described ⊢
      exact ⟨described.1, described.2.1, described.2.2.1, middles described.2.2.2⟩
  | small l =>
      simp only [kind, first] at described ⊢
      exact described
  | base =>
      simp only [kind, first] at described ⊢
      exact described

theorem Described.free (described : Described desc x) (kind : x.kind = .free) :
    (desc x.start).code = bigFree ∧ (desc x.start).page = x.stop ∧ Middles desc x := by
  unfold Described at described
  rwa [kind] at described

theorem Described.used {e : ℕ} (described : Described desc x) (kind : x.kind = .used e) :
    (desc x.start).code = big ∧ (desc x.start).page = e ∧ x.stop ≤ e ∧ Middles desc x := by
  unfold Described at described
  rwa [kind] at described

theorem Described.small {l : ℕ} (described : Described desc x) (kind : x.kind = .small l) :
    x.len = 1 ∧ l < numSmall ∧ (desc x.start).code = l := by
  unfold Described at described
  rwa [kind] at described

theorem Described.base (described : Described desc x) (kind : x.kind = .base) :
    x.len = 1 ∧ (desc x.start).code = Malloc.base := by
  unfold Described at described
  rwa [kind] at described

theorem Described.code (described : Described desc x) :
    (desc x.start).code ≠ middle ∧ ((desc x.start).code = bigFree ↔ x.kind = .free) := by
  cases kind : x.kind with
  | free =>
      rw [(described.free kind).1]
      exact ⟨by decide, by simp⟩
  | used e =>
      rw [(described.used kind).1]
      exact ⟨by decide, by simp [big, bigFree]⟩
  | small l =>
      obtain ⟨-, small, code⟩ := described.small kind
      rw [code]
      simp only [middle, bigFree, big, numSmall] at small ⊢
      exact ⟨by omega, iff_of_false (by omega) (by simp)⟩
  | base =>
      rw [(described.base kind).2]
      exact ⟨by decide, by simp [Malloc.base, big, bigFree]⟩

theorem Described.last (described : Described desc x) (some : 0 < x.len) :
    (if (desc (x.stop - 1)).code = middle then (desc (x.stop - 1)).page else x.stop - 1) =
      x.start := by
  have stop : x.stop = x.start + x.len := rfl
  have middles : x.len = 1 ∨ Middles desc x := by
    cases kind : x.kind with
    | free => exact Or.inr (described.free kind).2.2
    | used e => exact Or.inr (described.used kind).2.2.2
    | small l => exact Or.inl (described.small kind).1
    | base => exact Or.inl (described.base kind).1
  by_cases single : x.len = 1
  · have same : x.stop - 1 = x.start := by omega
    rw [same, if_neg described.code.1]
  · have inside := (middles.resolve_left single) (x.stop - 1) (by omega) (by omega)
    rw [if_pos inside.1, inside.2]

end Described

namespace Inv

variable {h h' : Heap} {T T₁ T₂ old new : List Block} {top : ℕ} {x y : Block}

theorem len_pos (inv : Inv h T top) (member : x ∈ T) : 0 < x.len := (inv.tiling.mem_bounds member).2.1

theorem few {gs : List Group} (inv : Inv h T top) (lists : Lists h.lists gs)
    (same : ∀ n p, (n, p) ∈ extents gs → ⟨p, n, .free⟩ ∈ T) : (extents gs).length < top := by
  have first := inv.tiling.mem_bounds inv.origin
  simp only [Tile.stop] at first
  refine lists.few (by omega) fun n p listed => ?_
  have := inv.tiling.mem_bounds (same n p listed)
  simp only [Tile.stop] at this
  omega

theorem block_of_code {p : ℕ} (inv : Inv h T top) (below : p < top) (code : (h.desc p).code ≠ middle) :
    ∃ x ∈ T, x.start = p := by
  obtain ⟨x, member, start, stop⟩ := inv.tiling.cover (Nat.zero_le p) below
  have described := inv.described x member
  refine ⟨x, member, ?_⟩
  by_contra other
  have notInside : ¬ Middles h.desc x := fun middles => code (middles p (by omega) stop).1
  have notSingle : x.len ≠ 1 := by
    intro single
    rw [Tile.stop, single] at stop
    omega
  cases kind : x.kind with
  | free => exact notInside (described.free kind).2.2
  | used e => exact notInside (described.used kind).2.2.2
  | small l => exact notSingle (described.small kind).1
  | base => exact notSingle (described.base kind).1

theorem replace (inv : Inv h (T₁ ++ (old ++ T₂)) top)
    (same : ∀ s t, Tiling s old t → Tiling s new t)
    (coalesced : (T₁ ++ (new ++ T₂)).IsChain Apart)
    (notOrigin : ⟨0, 1, .base⟩ ∉ old)
    (frame : ∀ y, y ∈ T₁ ∨ y ∈ T₂ → ∀ n, y.start ≤ n → n < y.stop → h'.desc n = h.desc n)
    (described : ∀ y ∈ new, Described h'.desc y)
    (listed : ∃ gs, Lists h'.lists gs ∧
      ∀ n p, (n, p) ∈ extents gs ↔ ⟨p, n, .free⟩ ∈ T₁ ++ (new ++ T₂)) :
    Inv h' (T₁ ++ (new ++ T₂)) top := by
  refine ⟨inv.tiling.replace same, ?_, coalesced, ?_, listed⟩
  · have origin := inv.origin
    simp only [List.mem_append] at origin ⊢
    tauto
  · intro y member
    have outside : ∀ y, y ∈ T₁ ∨ y ∈ T₂ → Described h'.desc y := by
      intro y outside
      have member : y ∈ T₁ ++ (old ++ T₂) := by
        simp only [List.mem_append]
        tauto
      exact (inv.described y member).congr (inv.len_pos member) (frame y outside)
    rcases List.mem_append.mp member with first | later
    · exact outside y (Or.inl first)
    · rcases List.mem_append.mp later with here | last
      · exact described y here
      · exact outside y (Or.inr last)

theorem outside (inv : Inv h (T₁ ++ ([x] ++ T₂)) top) (other : y ∈ T₁ ∨ y ∈ T₂) {n : ℕ}
    (above : y.start ≤ n) (below : n < y.stop) : n < x.start ∨ x.stop ≤ n := by
  have order := inv.tiling.pairwise
  obtain ⟨-, later, cross⟩ := List.pairwise_append.mp order
  rcases other with before | after
  · have := cross y before x (by simp)
    omega
  · have := (List.pairwise_append.mp later).2.2 x (by simp) y after
    omega

end Inv

/-- What an operation does to the blocks that are not free: `gone` are taken away and `come` are new.
The descriptors of the others are as before. -/
structure Change (h h' : Heap) (T T' : List Block) (gone come : Block → Prop) : Prop where
  stays : ∀ x ∈ T, x.kind ≠ .free → ¬ gone x → x ∈ T'
  source : ∀ x ∈ T', x.kind ≠ .free → (x ∈ T ∧ ¬ gone x) ∨ come x
  desc : ∀ x ∈ T, x.kind ≠ .free → ¬ gone x → ∀ n, x.start ≤ n → n < x.stop → h'.desc n = h.desc n

theorem Change.of_replace {h h' : Heap} {T₁ T₂ old new : List Block}
    {gone come : Block → Prop} (frame : ∀ y, y ∈ T₁ ∨ y ∈ T₂ → ∀ n, y.start ≤ n → n < y.stop →
      h'.desc n = h.desc n)
    (goneOld : ∀ x ∈ old, x.kind ≠ .free → gone x) (comeNew : ∀ x ∈ new, x.kind ≠ .free → come x)
    (notGone : ∀ x, x ∈ T₁ ∨ x ∈ T₂ → x.kind ≠ .free → ¬ gone x) :
    Change h h' (T₁ ++ (old ++ T₂)) (T₁ ++ (new ++ T₂)) gone come := by
  have kept : ∀ x ∈ T₁ ++ (old ++ T₂), x.kind ≠ .free → ¬ gone x → x ∈ T₁ ∨ x ∈ T₂ := by
    intro x member busy stays
    rcases List.mem_append.mp member with first | later
    · exact Or.inl first
    · rcases List.mem_append.mp later with here | last
      · exact absurd (goneOld x here busy) stays
      · exact Or.inr last
  refine ⟨fun x member busy stays => ?_, fun x member busy => ?_, ?_⟩
  · have := kept x member busy stays
    simp only [List.mem_append]
    tauto
  · have outside : x ∈ T₁ ∨ x ∈ T₂ → x ∈ T₁ ++ (old ++ T₂) ∧ ¬ gone x := fun outside =>
      ⟨by simp only [List.mem_append]; tauto, notGone x outside busy⟩
    rcases List.mem_append.mp member with first | later
    · exact Or.inl (outside (Or.inl first))
    · rcases List.mem_append.mp later with here | last
      · exact Or.inr (comeNew x here busy)
      · exact Or.inl (outside (Or.inr last))
  · exact fun x member busy stays => frame x (kept x member busy stays)

theorem Change.refl (h : Heap) (T : List Block) {come : Block → Prop} :
    Change h h T T (fun _ => False) come :=
  ⟨fun _ member _ _ => member, fun _ member _ => Or.inl ⟨member, not_false⟩,
    fun _ _ _ _ _ _ _ => rfl⟩

theorem Change.trans {h h' h'' : Heap} {T T' T'' : List Block} {g c g' c' G C : Block → Prop}
    (first : Change h h' T T' g c) (second : Change h' h'' T' T'' g' c')
    (gone : ∀ x ∈ T, x.kind ≠ .free → (¬ G x ↔ ¬ g x ∧ ¬ g' x))
    (come : ∀ x, c x → ¬ g' x → C x) (come' : ∀ x, c' x → C x) : Change h h'' T T'' G C := by
  refine ⟨fun x member busy stays => ?_, fun x member busy => ?_, fun x member busy stays n above
    below => ?_⟩
  · obtain ⟨stays₁, stays₂⟩ := (gone x member busy).mp stays
    exact second.stays x (first.stays x member busy stays₁) busy stays₂
  · rcases second.source x member busy with ⟨member', stays₂⟩ | new
    · rcases first.source x member' busy with ⟨member, stays₁⟩ | new
      · exact Or.inl ⟨member, (gone x member busy).mpr ⟨stays₁, stays₂⟩⟩
      · exact Or.inr (come x new stays₂)
    · exact Or.inr (come' x new)
  · obtain ⟨stays₁, stays₂⟩ := (gone x member busy).mp stays
    rw [second.desc x (first.stays x member busy stays₁) busy stays₂ n above below,
      first.desc x member busy stays₁ n above below]

/-- Only descriptors and free lists have changed. -/
structure SameBounds (h h' : Heap) : Prop where
  endPage : h'.endPage = h.endPage
  brk : h'.brk = h.brk
  pages : h'.pages = h.pages
  master : h'.master = h.master

theorem SameBounds.refl (h : Heap) : SameBounds h h := ⟨rfl, rfl, rfl, rfl⟩

theorem SameBounds.trans {h h' h'' : Heap} (first : SameBounds h h') (second : SameBounds h' h'') :
    SameBounds h h'' :=
  ⟨second.endPage.trans first.endPage, second.brk.trans first.brk, second.pages.trans first.pages,
    second.master.trans first.master⟩

/-! ### Allocating -/

section Alloc

variable {h : Heap} {T T₁ T₂ : List Block} {top n p size : ℕ}

theorem isChain_split {x a b : Block} (chain : (T₁ ++ ([x] ++ T₂)).IsChain Apart)
    (free : x.kind = .free) (used : a.kind ≠ .free) : (T₁ ++ ([a, b] ++ T₂)).IsChain Apart := by
  obtain ⟨first, later, -⟩ := List.isChain_append.mp chain
  have tail := List.isChain_cons.mp later
  refine List.isChain_append.mpr ⟨first, ?_, ?_⟩
  · refine List.isChain_cons_cons.mpr ⟨fun both => used both.1, List.isChain_cons.mpr ⟨?_, tail.2⟩⟩
    exact fun y next both => tail.1 y next ⟨free, both.2⟩
  · intro y _ z head both
    simp only [List.cons_append, List.head?_cons, Option.mem_def, Option.some.injEq] at head
    exact used (head ▸ both.2)

/-- The state in which `alloc_pages` has cut the free extent at `p`, with the second part not on the
free lists yet. -/
def cutHeap (h : Heap) (p size n : ℕ) : Heap :=
  ((((h.setCode p big).setCode (p + size) bigFree).setPage (p + size) (p + n)).setSize
    (p + size) (n - size)).linkPages (p + size + 1) (p + n) (p + size)

theorem cutHeap_desc (h : Heap) {p size n : ℕ} (positive : 0 < size) (larger : size < n) :
    (cutHeap h p size n).desc p = { h.desc p with code := big } ∧
    ((cutHeap h p size n).desc (p + size)).code = bigFree ∧
    ((cutHeap h p size n).desc (p + size)).page = p + n ∧
    (∀ m, p + size < m → m < p + n →
      (cutHeap h p size n).desc m = { h.desc m with page := p + size }) ∧
    ∀ m, m ≠ p → m < p + size ∨ p + n ≤ m → (cutHeap h p size n).desc m = h.desc m := by
  have apart : p ≠ p + size := by omega
  simp only [cutHeap, Heap.linkPages, Heap.setSize, Heap.setPage, Heap.setCode, setLink]
  refine ⟨?_, ?_, ?_, fun m above below => ?_, fun m notFirst outside => ?_⟩
  · rw [if_neg (by omega), Function.update_of_ne apart, Function.update_of_ne apart,
      Function.update_self]
  · rw [if_neg (by omega), Function.update_self, Function.update_self]
  · rw [if_neg (by omega), Function.update_self]
  · rw [if_pos (by omega), Function.update_of_ne (by omega), Function.update_of_ne (by omega),
      Function.update_of_ne (by omega)]
  · have notExtra : m ≠ p + size := by omega
    rw [if_neg (by omega), Function.update_of_ne notExtra, Function.update_of_ne notExtra,
      Function.update_of_ne notFirst]

/-- The extent of `size` pages at `p` has been taken from the free extents. -/
structure Allocated (h h' : Heap) (T T' : List Block) (top p size e : ℕ) : Prop where
  inv : Inv h' T' top
  member : (⟨p, size, .used e⟩ : Block) ∈ T'
  change : Change h h' T T' (fun _ => False) fun x => x = ⟨p, size, .used e⟩
  bounds : SameBounds h h'

/-- Taking a free extent as it is. -/
theorem Inv.alloc_whole (inv : Inv h (T₁ ++ ([⟨p, n, .free⟩] ++ T₂)) top) {gs : List Group}
    (lists : Lists (fpRemove h.lists p) gs)
    (listed : ∀ m q, (m, q) ∈ extents gs ↔
      (⟨q, m, .free⟩ : Block) ∈ T₁ ++ ([⟨p, n, .free⟩] ++ T₂) ∧ q ≠ p)
    (onlyHere : ∀ m q, (⟨q, m, .free⟩ : Block) ∈ T₁ ∨ (⟨q, m, .free⟩ : Block) ∈ T₂ → q ≠ p) :
    Allocated h ((h.remove p).setCode p big) (T₁ ++ ([⟨p, n, .free⟩] ++ T₂))
      (T₁ ++ ([⟨p, n, .used (p + n)⟩] ++ T₂)) top p n (p + n) := by
  have member : (⟨p, n, .free⟩ : Block) ∈ T₁ ++ ([⟨p, n, .free⟩] ++ T₂) := by simp
  obtain ⟨-, page, middles⟩ := (inv.described _ member).free rfl
  have positive := inv.len_pos member
  simp only [Tile.stop] at page positive
  have elsewhere : ∀ m, m ≠ p → ((h.remove p).setCode p big).desc m = h.desc m := fun m other =>
    Function.update_of_ne other _ _
  have frame : ∀ y, y ∈ T₁ ∨ y ∈ T₂ → ∀ m, y.start ≤ m → m < y.stop →
      ((h.remove p).setCode p big).desc m = h.desc m := by
    intro y outside m above below
    refine elsewhere m fun same => ?_
    have := inv.outside outside above below
    simp only [Tile.stop] at this
    omega
  refine ⟨inv.replace ?_ ?_ (by simp) frame ?_ ⟨gs, lists, fun m q => ?_⟩, by simp,
    Change.of_replace frame (by simp) (by simp) (by simp),
    ⟨rfl, rfl, rfl, rfl⟩⟩
  · intro s t tiled
    exact tiled
  · obtain ⟨first, later, -⟩ := List.isChain_append.mp inv.coalesced
    refine List.isChain_append.mpr ⟨first, List.isChain_cons.mpr
      ⟨fun y _ both => absurd both.1 (by simp), (List.isChain_cons.mp later).2⟩, ?_⟩
    intro y _ z head both
    simp only [List.cons_append, List.head?_cons, Option.mem_def, Option.some.injEq] at head
    subst head
    exact absurd both.2 (by simp)
  · intro y here
    rw [List.mem_singleton.mp here]
    refine ⟨?_, ?_, le_rfl, fun m above below => ?_⟩
    · simp [Heap.setCode]
    · simpa [Heap.setCode, Heap.remove] using page
    · rw [elsewhere m (Nat.ne_of_gt above)]
      exact middles m above below
  · rw [listed]
    simp only [List.mem_append, List.mem_singleton, Tile.mk.injEq, and_true, reduceCtorEq, and_false,
      false_or]
    constructor
    · rintro ⟨first | here | last, other⟩
      · exact Or.inl first
      · exact absurd here.1 other
      · exact Or.inr last
    · intro outside
      exact ⟨by tauto, onlyHere m q outside⟩

/-- Cutting a free extent in two. The first part is in use, and its descriptor keeps the end of the
whole extent. -/
theorem Inv.alloc_cut (inv : Inv h (T₁ ++ ([⟨p, n, .free⟩] ++ T₂)) top) (room : top ≤ h.endPage)
    (positive : 0 < size) (larger : size < n) {gs : List Group}
    (lists : Lists (fpRemove h.lists p) gs)
    (listed : ∀ m q, (m, q) ∈ extents gs ↔
      (⟨q, m, .free⟩ : Block) ∈ T₁ ++ ([⟨p, n, .free⟩] ++ T₂) ∧ q ≠ p)
    (onlyHere : ∀ m q, (⟨q, m, .free⟩ : Block) ∈ T₁ ∨ (⟨q, m, .free⟩ : Block) ∈ T₂ → q ≠ p) :
    ∃ h', (cutHeap (h.remove p) p size n).add (p + size) = some h' ∧
      Allocated h h' (T₁ ++ ([⟨p, n, .free⟩] ++ T₂))
        (T₁ ++ ([⟨p, size, .used (p + n)⟩, ⟨p + size, n - size, .free⟩] ++ T₂)) top p size (p + n) := by
  have member : (⟨p, n, .free⟩ : Block) ∈ T₁ ++ ([⟨p, n, .free⟩] ++ T₂) := by simp
  obtain ⟨-, page, middles⟩ := (inv.described _ member).free rfl
  have bounds := inv.tiling.mem_bounds member
  simp only [Tile.stop] at page bounds
  -- no other free extent starts inside this one
  have fresh : ∀ m, (m, p + size) ∉ extents gs := by
    intro m found
    have member' := ((listed m (p + size)).mp found).1
    have positive' := inv.len_pos member'
    have same := inv.tiling.unique (n := p + size) member member'
      ⟨by simp only; omega, by simp only [Tile.stop]; omega⟩
      ⟨le_rfl, by simp only [Tile.stop] at positive' ⊢; omega⟩
    simp only [Tile.mk.injEq] at same
    omega
  have few : (extents gs).length < top := by
    obtain ⟨gs₀, lists₀, listed₀⟩ := inv.listed
    have few₀ := inv.few lists₀ fun m q => (listed₀ m q).mp
    have shorter := lists.extents_length_le (l := extents gs₀) fun m q found =>
      (listed₀ m q).mpr ((listed m q).mp found).1
    omega
  obtain ⟨f', gs', add, lists', -, listed'⟩ :=
    (lists.setSize (n := n - size) fresh).fpAdd (n := n - size) h.endPage (by omega)
      (by omega) (by simp) fresh
  obtain ⟨first, cutCode, cutPage, cutMiddles, cutElse⟩ :=
    cutHeap_desc (h.remove p) (p := p) positive larger
  have adding : (cutHeap (h.remove p) p size n).add (p + size) =
      some { cutHeap (h.remove p) p size n with lists := f' } := by
    have call : fpAdd (cutHeap (h.remove p) p size n).endPage (cutHeap (h.remove p) p size n).lists
        (p + size) = some f' := add
    rw [Heap.add, call]
    rfl
  have elsewhere : ∀ m, m < p ∨ p + n ≤ m → (cutHeap (h.remove p) p size n).desc m = h.desc m :=
    fun m outside => cutElse m (by omega) (by omega)
  have frame : ∀ y, y ∈ T₁ ∨ y ∈ T₂ → ∀ m, y.start ≤ m → m < y.stop →
      (cutHeap (h.remove p) p size n).desc m = h.desc m :=
    fun y outside m above below => elsewhere m (inv.outside outside above below)
  refine ⟨_, adding, ?_⟩
  refine ⟨inv.replace ?_ (isChain_split inv.coalesced rfl (by simp)) (by simp) frame ?_
    ⟨gs', lists', fun m q => ?_⟩, by simp,
    Change.of_replace frame (by simp) (by simp) (by simp),
    ⟨rfl, rfl, rfl, rfl⟩⟩
  · rintro s t ⟨rfl, -, tiled⟩
    refine ⟨rfl, positive, rfl, by simp only; omega, ?_⟩
    simp only [tiling_nil] at tiled ⊢
    omega
  · intro y here
    rcases List.mem_cons.mp here with rfl | second
    · refine ⟨?_, ?_, by simp only [Tile.stop]; omega, fun m above below => ?_⟩
      · exact congrArg Page.code first
      · exact (congrArg Page.page first).trans page
      · simp only [Tile.stop] at above below ⊢
        rw [cutElse m (by omega) (by omega)]
        exact middles m above (by simp only [Tile.stop]; omega)
    · rw [List.mem_singleton.mp second]
      refine ⟨cutCode, ?_, fun m above below => ?_⟩
      · simp only [cutPage, Tile.stop]
        omega
      · simp only [Tile.stop] at above below ⊢
        rw [cutMiddles m above (by omega)]
        exact ⟨(middles m (by simp only; omega) (by simp only [Tile.stop]; omega)).1, rfl⟩
  · rw [listed', listed]
    simp only [List.mem_append, List.mem_cons, List.not_mem_nil, or_false, Tile.mk.injEq, and_true,
      reduceCtorEq, and_false, false_or, Prod.mk.injEq]
    constructor
    · rintro (⟨first | here | last, other⟩ | ⟨rfl, rfl⟩)
      · exact Or.inl first
      · exact absurd here.1 other
      · exact Or.inr (Or.inr last)
      · exact Or.inr (Or.inl ⟨rfl, rfl⟩)
    · rintro (first | ⟨rfl, rfl⟩ | last)
      · exact Or.inl ⟨Or.inl first, onlyHere m q (Or.inl first)⟩
      · exact Or.inr ⟨rfl, rfl⟩
      · exact Or.inl ⟨Or.inr (Or.inr last), onlyHere m q (Or.inr last)⟩

theorem allocPages_found (find : fpFind h.endPage h.lists size = some (p, fpRemove h.lists p))
    (real : p ≠ 0) (page : (h.desc p).page = p + n) (positive : 0 < size) (small : size < 2 ^ 31) :
    allocPages h size = if size < n then
        ((cutHeap (h.remove p) p size n).add (p + size)).map fun h' => (p, h')
      else some (p, (h.remove p).setCode p big) := by
  have pages : ((size : ℤ) % 2 ^ 32).toNat = size := by omega
  have first : (((h.remove p).setCode p big).desc p).page = p + n := by
    simpa [Heap.setCode, Heap.remove] using page
  have second : ((((h.remove p).setCode p big).setCode (p + size) bigFree).desc p).page = p + n := by
    have other : p ≠ p + size := by omega
    simpa [Heap.setCode, Heap.remove, Function.update_of_ne other] using page
  have third : (((((h.remove p).setCode p big).setCode (p + size) bigFree).setPage (p + size)
      (p + n)).desc p).page = p + n := by
    rw [← second]
    exact congrArg Page.page (Function.update_of_ne (by omega) _ _)
  have removed : { h with lists := fpRemove h.lists p } = h.remove p := rfl
  simp only [allocPages, find, Option.bind_eq_bind, Option.bind_some, if_neg real, pages, removed,
    first, second, third, Nat.add_sub_cancel_left]
  by_cases larger : size < n
  · have rest : p + size + (p + n - (p + size)) = p + n := by omega
    rw [if_pos larger, if_pos larger, rest, Nat.add_sub_add_left]
    change ((cutHeap (h.remove p) p size n).add (p + size)).bind _ = _
    cases (cutHeap (h.remove p) p size n).add (p + size) with
    | none => rfl
    | some h' => rfl
  · rw [if_neg larger, if_neg larger]

/-- `alloc_pages` finds nothing, or takes the smallest free extent that is large enough. If that is
larger, the extent handed out keeps the end of the whole free extent in its descriptor. -/
theorem Inv.alloc (size : ℕ) (inv : Inv h T top) (room : top ≤ h.endPage) (positive : 0 < size)
    (small : size < 2 ^ 31) :
    (allocPages h size = some (0, h) ∧ ∀ m q, (⟨q, m, .free⟩ : Block) ∈ T → m < size) ∨
    ∃ p n h' T', allocPages h size = some (p, h') ∧ p ≠ 0 ∧ (⟨p, n, .free⟩ : Block) ∈ T ∧ size ≤ n ∧
      (∀ m q, (⟨q, m, .free⟩ : Block) ∈ T → size ≤ m → n < m ∨ (n = m ∧ p ≤ q)) ∧
      Allocated h h' T T' top p size (p + n) := by
  obtain ⟨gs, lists, listed⟩ := inv.listed
  have few := inv.few lists fun n p => (listed n p).mp
  rcases lists.fpFind h.endPage size (by omega) with
    ⟨find, none⟩ | ⟨n, p, gs', find, real, found, large, least, lists', listed'⟩
  · left
    refine ⟨?_, fun m q member => ?_⟩
    · simp [allocPages, find]
    · have := none m q ((listed m q).mpr member)
      omega
  · right
    have member := (listed n p).mp found
    have best : ∀ m q, (⟨q, m, .free⟩ : Block) ∈ T → size ≤ m → n < m ∨ (n = m ∧ p ≤ q) :=
      fun m q member' large' => least m q ((listed m q).mpr member') (by omega)
    have removed : ∀ m q, (m, q) ∈ extents gs' ↔ (⟨q, m, .free⟩ : Block) ∈ T ∧ q ≠ p := fun m q => by
      rw [listed', listed]
    obtain ⟨-, page, -⟩ := (inv.described _ member).free rfl
    simp only [Tile.stop] at page
    have pages : ((size : ℤ) % 2 ^ 32).toNat = size := by omega
    obtain ⟨T₁, T₂, rfl⟩ := List.append_of_mem member
    change Inv h (T₁ ++ ([⟨p, n, .free⟩] ++ T₂)) top at inv
    have onlyHere : ∀ m q, (⟨q, m, .free⟩ : Block) ∈ T₁ ∨ (⟨q, m, .free⟩ : Block) ∈ T₂ → q ≠ p := by
      rintro m q outside rfl
      have positive' := inv.len_pos (x := ⟨q, m, .free⟩) (by simp only [List.mem_append]; tauto)
      have := inv.outside outside (n := q) le_rfl (by simp only [Tile.stop] at positive' ⊢; omega)
      simp only [Tile.stop] at this
      have := inv.len_pos (x := ⟨q, n, .free⟩) (by simp)
      simp only at this
      omega
    have found' := allocPages_found find real page positive small
    by_cases exact : n = size
    · subst exact
      rw [if_neg (Nat.lt_irrefl n)] at found'
      exact ⟨p, n, _, _, found', real, member, le_rfl, best, inv.alloc_whole lists' removed onlyHere⟩
    · have larger : size < n := by omega
      obtain ⟨h', add, allocated⟩ := inv.alloc_cut room positive larger lists' removed onlyHere
      rw [if_pos larger, add, Option.map_some] at found'
      exact ⟨p, n, h', _, found', real, member, by omega, best, allocated⟩

end Alloc

end Elcrq.Malloc
