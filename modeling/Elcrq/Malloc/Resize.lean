import Elcrq.Malloc.Growth

/-! # Resizing in place

`mresize` lets an extent grow over the free extent behind it and cuts off what is not
needed. -/

set_option autoImplicit false

namespace Elcrq.Malloc

open Elcrq.Store

variable {os : ℕ → Bool} {h : Heap} {T T₁ T₂ : List Block} {p n m size : ℕ}

/-- The state in which the extent at `p` has taken the free extent behind it. -/
def grown (h : Heap) (p next stop : ℕ) : Heap :=
  (((h.remove next).setCode next middle).setPage p stop).linkPages next stop p

theorem grown_desc (h : Heap) (p next stop : ℕ) :
    (grown h p next stop).desc = (joined h next p next stop).desc := rfl

theorem growExtent_free (size : ℕ) (some : 0 < n) (page : (h.desc p).page = p + n) (below : p + n < h.endPage)
    (code : (h.desc (p + n)).code = bigFree) (next : (h.desc (p + n)).page = p + n + m) :
    growExtent h p size =
      if n + m < size then none else Option.some (grown h p (p + n) (p + n + m)) := by
  have stored : (((h.remove (p + n)).setCode (p + n) middle).desc (p + n)).page = p + n + m := by
    simpa [Heap.setCode, Heap.remove] using next
  have distance : p + n + m - p = n + m := by omega
  have notEnd : ¬ p + n = h.endPage := by omega
  simp only [growExtent, page, notEnd, code, ne_eq, not_true, next, distance, false_or, stored]
  rfl

/-- An extent and the free extent behind it make one extent in use. -/
theorem Inv.grow {top : ℕ}
    (inv : Inv h (T₁ ++ ([⟨p, n, .used (p + n)⟩, ⟨p + n, m, .free⟩] ++ T₂)) top) :
    Inv (grown h p (p + n) (p + n + m)) (T₁ ++ ([⟨p, n + m, .used (p + n + m)⟩] ++ T₂)) top ∧
    Change h (grown h p (p + n) (p + n + m))
      (T₁ ++ ([⟨p, n, .used (p + n)⟩, ⟨p + n, m, .free⟩] ++ T₂))
      (T₁ ++ ([⟨p, n + m, .used (p + n + m)⟩] ++ T₂)) (fun x => x = ⟨p, n, .used (p + n)⟩)
      (fun x => x = ⟨p, n + m, .used (p + n + m)⟩) := by
  have memberX : (⟨p, n, .used (p + n)⟩ : Block) ∈
      T₁ ++ ([⟨p, n, .used (p + n)⟩, ⟨p + n, m, .free⟩] ++ T₂) := by simp
  have memberZ : (⟨p + n, m, .free⟩ : Block) ∈
      T₁ ++ ([⟨p, n, .used (p + n)⟩, ⟨p + n, m, .free⟩] ++ T₂) := by simp
  have someX : 0 < n := inv.len_pos memberX
  have someZ : 0 < m := inv.len_pos memberZ
  obtain ⟨code, -, -, middlesX⟩ := (inv.described _ memberX).used rfl
  obtain ⟨-, -, middlesZ⟩ := (inv.described _ memberZ).free rfl
  simp only [Middles, Tile.stop] at code middlesX middlesZ
  obtain ⟨first, second, third, rest⟩ := joined_desc h (p + n) p (p + n)
    (p + n + m) (by omega) (by omega)
  rw [← grown_desc] at first second third rest
  have elsewhere : ∀ k, k < p ∨ p + n + m ≤ k → (grown h p (p + n) (p + n + m)).desc k = h.desc k :=
    fun k outside => rest k (by omega) (by omega)
  have tiling : Tiling 0 (T₁ ++ ([⟨p, n + m, .used (p + n + m)⟩] ++ T₂)) top := by
    refine inv.tiling.replace fun s t tiled => ?_
    obtain ⟨start, -, -, -, stop⟩ := tiled
    simp only [tiling_cons, tiling_nil] at stop ⊢
    exact ⟨start, by omega, by omega⟩
  have frame : ∀ y, y ∈ T₁ ∨ y ∈ T₂ → ∀ k, y.start ≤ k → k < y.stop →
      (grown h p (p + n) (p + n + m)).desc k = h.desc k := by
    intro y other k above below
    obtain ⟨-, later, cross⟩ := List.pairwise_append.mp tiling.pairwise
    refine elsewhere k ?_
    rcases other with before | after
    · have := cross y before ⟨p, n + m, .used (p + n + m)⟩ (by simp)
      simp only at this
      omega
    · have := (List.pairwise_append.mp later).2.2 ⟨p, n + m, .used (p + n + m)⟩ (by simp) y after
      simp only [Tile.stop] at this above
      omega
  refine ⟨inv.replace ?_ ?_ (by simp) frame ?_ ?_, Change.of_replace frame
    (by simp) (by simp) ?_⟩
  · intro s t tiled
    obtain ⟨start, -, -, -, stop⟩ := tiled
    simp only [tiling_cons, tiling_nil] at stop ⊢
    exact ⟨start, by omega, by omega⟩
  · obtain ⟨before, later, -⟩ := List.isChain_append.mp inv.coalesced
    have after := (List.isChain_cons_cons.mp later).2
    refine List.isChain_append.mpr ⟨before, List.isChain_cons.mpr
      ⟨fun y _ both => absurd both.1 (by simp), (List.isChain_cons.mp after).2⟩, ?_⟩
    intro y _ z head both
    simp only [List.cons_append, List.head?_cons, Option.mem_def, Option.some.injEq] at head
    subst head
    exact absurd both.2 (by simp)
  · intro y here
    rw [List.mem_singleton.mp here]
    refine ⟨?_, ?_, by simp only [Tile.stop]; omega, fun k above below => ?_⟩
    · simp only [first]
      exact code
    · simp only [first]
    · simp only [Tile.stop] at above below ⊢
      by_cases inX : k < p + n
      · rw [rest k (by omega) (Or.inl inX)]
        exact middlesX k above inX
      · by_cases atZ : k = p + n
        · rw [atZ, second]
          exact ⟨rfl, rfl⟩
        · rw [third k (by omega) (by omega)]
          exact ⟨(middlesZ k (by omega) (by omega)).1, rfl⟩
  · obtain ⟨gs, lists, listed⟩ := inv.listed
    obtain ⟨gs', lists', listed'⟩ := lists.fpRemove ((listed m (p + n)).mpr memberZ)
    refine ⟨gs', lists', fun i j => ?_⟩
    rw [listed', listed]
    simp only [List.mem_append, List.mem_cons, List.not_mem_nil, or_false, Tile.mk.injEq, and_true,
      reduceCtorEq, and_false, false_or]
    constructor
    · rintro ⟨before | here | after, other⟩
      · exact Or.inl before
      · exact absurd here.1 other
      · exact Or.inr after
    · intro other
      refine ⟨by tauto, ?_⟩
      rintro rfl
      have member : (⟨p + n, i, .free⟩ : Block) ∈ T₁ ++ ([⟨p, n + m, .used (p + n + m)⟩] ++ T₂) := by
        simp only [List.mem_append]
        tauto
      have some := (tiling.mem_bounds member).2.1
      have same := tiling.unique (n := p + n) member (y := ⟨p, n + m, .used (p + n + m)⟩) (by simp)
        ⟨le_rfl, by simp only [Tile.stop] at some ⊢; omega⟩
        ⟨by simp only; omega, by simp only [Tile.stop]; omega⟩
      simp only [Tile.mk.injEq] at same
      omega
  · rintro x other busy rfl
    have := inv.tiling.nodup
    rcases other with before | after
    · exact (List.nodup_append.mp this).2.2 _ before _ (by simp) rfl
    · have later := (List.nodup_append.mp this).2.1
      exact (List.nodup_cons.mp later).1 (by simp [after])

theorem splitExtent_desc (positive : 0 < size) (smaller : size < n) (page : (h.desc p).page = p + n) :
    (splitExtent h p size).desc p = { h.desc p with page := p + size } ∧
    (splitExtent h p size).desc (p + size) =
      { h.desc (p + size) with code := big, page := p + n } ∧
    (∀ k, p + size < k → k < p + n →
      (splitExtent h p size).desc k = { h.desc k with page := p + size }) ∧
    ∀ k, k ≠ p → k < p + size ∨ p + n ≤ k → (splitExtent h p size).desc k = h.desc k := by
  have other : p ≠ p + size := by omega
  have first : ((h.setCode (p + size) big).desc p).page = p + n := by
    simpa [Heap.setCode, Function.update_of_ne other] using page
  have second : (((h.setCode (p + size) big).setPage (p + size) (p + n)).desc p).page = p + n := by
    rw [← first]
    exact congrArg Page.page (Function.update_of_ne other _ _)
  simp only [splitExtent, first, second]
  simp only [Heap.linkPages, Heap.setPage, Heap.setCode, setLink]
  refine ⟨?_, ?_, fun k above below => ?_, fun k notFirst outside => ?_⟩
  · rw [Function.update_self, if_neg (by omega), Function.update_of_ne other,
      Function.update_of_ne other]
  · rw [Function.update_of_ne other.symm, if_neg (by omega), Function.update_self,
      Function.update_self]
  · rw [Function.update_of_ne (by omega), if_pos (by omega), Function.update_of_ne (by omega),
      Function.update_of_ne (by omega)]
  · rw [Function.update_of_ne notFirst, if_neg (by omega), Function.update_of_ne (by omega),
      Function.update_of_ne (by omega)]

/-- Both parts of an extent that `mresize` has cut have their true ends in their descriptors. -/
theorem Inv.split {top : ℕ} (inv : Inv h (T₁ ++ ([⟨p, n, .used (p + n)⟩] ++ T₂)) top)
    (positive : 0 < size) (smaller : size < n) :
    Inv (splitExtent h p size)
      (T₁ ++ ([⟨p, size, .used (p + size)⟩, ⟨p + size, n - size, .used (p + n)⟩] ++ T₂)) top ∧
    Change h (splitExtent h p size) (T₁ ++ ([⟨p, n, .used (p + n)⟩] ++ T₂))
      (T₁ ++ ([⟨p, size, .used (p + size)⟩, ⟨p + size, n - size, .used (p + n)⟩] ++ T₂))
      (fun x => x = ⟨p, n, .used (p + n)⟩)
      (fun x => x = ⟨p, size, .used (p + size)⟩ ∨ x = ⟨p + size, n - size, .used (p + n)⟩) := by
  have member : (⟨p, n, .used (p + n)⟩ : Block) ∈ T₁ ++ ([⟨p, n, .used (p + n)⟩] ++ T₂) := by simp
  obtain ⟨code, page, -, middles⟩ := (inv.described _ member).used rfl
  simp only at code page
  obtain ⟨first, second, third, rest⟩ := splitExtent_desc positive smaller page
  have elsewhere : ∀ k, k < p ∨ p + n ≤ k → (splitExtent h p size).desc k = h.desc k :=
    fun k outside => rest k (by omega) (by omega)
  have frame : ∀ y, y ∈ T₁ ∨ y ∈ T₂ → ∀ k, y.start ≤ k → k < y.stop →
      (splitExtent h p size).desc k = h.desc k :=
    fun y outside k above below => elsewhere k (inv.outside outside above below)
  refine ⟨inv.replace ?_ ?_ (by simp) frame ?_ ?_, Change.of_replace frame
    (by simp) (by simp) ?_⟩
  · rintro s t ⟨rfl, -, tiled⟩
    refine ⟨rfl, positive, rfl, by simp only; omega, ?_⟩
    simp only [tiling_nil] at tiled ⊢
    omega
  · obtain ⟨before, later, -⟩ := List.isChain_append.mp inv.coalesced
    refine List.isChain_append.mpr ⟨before, List.isChain_cons_cons.mpr
      ⟨fun both => absurd both.1 (by simp), List.isChain_cons.mpr
        ⟨fun y _ both => absurd both.1 (by simp), (List.isChain_cons.mp later).2⟩⟩, ?_⟩
    intro y _ z head both
    simp only [List.cons_append, List.head?_cons, Option.mem_def, Option.some.injEq] at head
    subst head
    exact absurd both.2 (by simp)
  · intro y here
    rcases List.mem_cons.mp here with rfl | here
    · refine ⟨?_, ?_, le_rfl, fun k above below => ?_⟩
      · simp only [first]
        exact code
      · simp only [first]
      · simp only [Tile.stop] at above below ⊢
        rw [rest k (by omega) (Or.inl below)]
        exact middles k above (by simp only [Tile.stop]; omega)
    · rw [List.mem_singleton.mp here]
      refine ⟨?_, ?_, by simp only [Tile.stop]; omega, fun k above below => ?_⟩
      · simp only [second]
      · simp only [second]
      · simp only [Tile.stop] at above below ⊢
        rw [third k above (by omega)]
        exact ⟨(middles k (by simp only; omega) (by simp only [Tile.stop]; omega)).1, rfl⟩
  · obtain ⟨gs, lists, listed⟩ := inv.listed
    refine ⟨gs, lists, fun i j => ?_⟩
    rw [listed]
    simp
  · rintro x other busy rfl
    have := inv.outside other (n := p) le_rfl (by simp only [Tile.stop]; omega)
    simp only [Tile.stop] at this
    omega

/-- The first locked part of `mresize` on an extent whose descriptor gives its true end. -/
theorem HeapOk.growExtent (ok : HeapOk h T) (member : (⟨p, n, .used (p + n)⟩ : Block) ∈ T) :
    (growExtent h p size = none ∧ ∀ m, (⟨p + n, m, .free⟩ : Block) ∈ T → n + m < size) ∨
    ∃ m h' T', growExtent h p size = some h' ∧ (⟨p + n, m, .free⟩ : Block) ∈ T ∧ size ≤ n + m ∧
      HeapOk h' T' ∧ (⟨p, n + m, .used (p + n + m)⟩ : Block) ∈ T' ∧
      Change h h' T T' (fun x => x = ⟨p, n, .used (p + n)⟩)
        (fun x => x = ⟨p, n + m, .used (p + n + m)⟩) ∧ SameBounds h h' := by
  obtain ⟨-, page, -⟩ := (ok.inv.described _ member).used rfl
  simp only at page
  have someX : 0 < n := ok.inv.len_pos member
  obtain ⟨T₁, T₂, rfl⟩ := List.append_of_mem member
  obtain ⟨-, -, back⟩ := ok.inv.tiling.around
  simp only [Tile.stop] at back
  cases T₂ with
  | nil =>
      -- the extent is the last one
      left
      rw [tiling_nil] at back
      refine ⟨?_, fun m behind => ?_⟩
      · simp [Malloc.growExtent, page, back]
      · have := ok.inv.tiling.mem_bounds behind
        simp only [Tile.stop] at this
        omega
  | cons z T₂ =>
      have memberZ : z ∈ T₁ ++ ⟨p, n, .used (p + n)⟩ :: z :: T₂ := by simp
      obtain ⟨start, someZ, onward⟩ := back
      have below : p + n < h.endPage := by
        have := onward.le
        omega
      have describedZ := ok.inv.described z memberZ
      by_cases free : z.kind = .free
      · obtain ⟨startZ, m, kind⟩ := z
        simp only at start free
        subst start free
        obtain ⟨code, next, -⟩ := describedZ.free rfl
        simp only [Tile.stop] at code next
        have grow := growExtent_free size someX page below code next
        by_cases short : n + m < size
        · left
          rw [if_pos short] at grow
          refine ⟨grow, fun m' behind => ?_⟩
          have some' := ok.inv.len_pos behind
          have same := ok.inv.tiling.unique (n := p + n) memberZ behind
            ⟨le_rfl, by simp only [Tile.stop] at someZ ⊢; omega⟩
            ⟨le_rfl, by simp only [Tile.stop] at some' ⊢; omega⟩
          simp only [Tile.mk.injEq, true_and, and_true] at same
          omega
        · right
          rw [if_neg short] at grow
          obtain ⟨inv', change⟩ := Inv.grow ok.inv
          exact ⟨m, _, _, grow, memberZ, by omega, ok.of_change ⟨inv', ok.brk, ok.small⟩ change
            (by rintro _ rfl; simp) rfl le_rfl, by simp, change, rfl, rfl, rfl, rfl⟩
      · left
        have code : (h.desc (p + n)).code ≠ bigFree := by
          rw [← start]
          exact fun same => free (describedZ.code.2.mp same)
        refine ⟨?_, fun m behind => ?_⟩
        · simp [Malloc.growExtent, page, code]
        · have some' := ok.inv.len_pos behind
          have same := ok.inv.tiling.unique (n := p + n) memberZ behind
            ⟨by omega, by rw [Tile.stop]; omega⟩
            ⟨le_rfl, by simp only [Tile.stop] at some' ⊢; omega⟩
          rw [same] at free
          exact absurd rfl free

theorem HeapOk.cutExtent (os : ℕ → Bool) (ok : HeapOk h T) (member : (⟨p, n, .used (p + n)⟩ : Block) ∈ T)
    (positive : 0 < size) (smaller : size < n) :
    ∃ h' T', Malloc.freeExtent os (splitExtent h p size) (p + size) = some h' ∧ HeapOk h' T' ∧
      (⟨p, size, .used (p + size)⟩ : Block) ∈ T' ∧
      Change h h' T T' (fun x => x = ⟨p, n, .used (p + n)⟩)
        (fun x => x = ⟨p, size, .used (p + size)⟩) ∧
      h'.endPage ≤ h.endPage ∧ h'.pages = h.pages ∧ h'.master = h.master := by
  obtain ⟨T₁, T₂, rfl⟩ := List.append_of_mem member
  obtain ⟨inv', change⟩ := Inv.split ok.inv positive smaller
  have ok' : HeapOk (splitExtent h p size) _ :=
    ok.of_change ⟨inv', ok.brk, ok.small⟩ change (by rintro _ rfl; simp) rfl le_rfl
  have distance : p + size + (n - size) = p + n := by omega
  have rest : (⟨p + size, n - size, .used (p + size + (n - size))⟩ : Block) ∈
      T₁ ++ ([⟨p, size, .used (p + size)⟩, ⟨p + size, n - size, .used (p + n)⟩] ++ T₂) := by
    simp [distance]
  have first : (⟨p, size, .used (p + size)⟩ : Block) ∈
      T₁ ++ ([⟨p, size, .used (p + size)⟩, ⟨p + size, n - size, .used (p + n)⟩] ++ T₂) := by simp
  obtain ⟨h', T', call, ok'', change', lower, pages, master⟩ := ok'.freeExtent os rest
  rw [distance] at change'
  have other : (⟨p, size, .used (p + size)⟩ : Block) ≠ ⟨p + size, n - size, .used (p + n)⟩ := by
    intro same
    simp only [Tile.mk.injEq] at same
    omega
  refine ⟨h', T', call, ok'', change'.stays _ first (by simp) other, ?_, lower, pages, master⟩
  refine change.trans change' (fun x memberX busy => ⟨fun stays => ⟨stays, ?_⟩, And.left⟩) ?_
    (fun x new => new.elim)
  · -- a block that was there before the cut does not start inside the extent
    rintro rfl
    have same := ok.inv.tiling.unique (n := p + size) memberX member
      ⟨le_rfl, by simp only [Tile.stop]; omega⟩
      ⟨by simp only; omega, by simp only [Tile.stop]; omega⟩
    exact stays same
  · rintro x (rfl | rfl) notGone
    · rfl
    · exact absurd rfl notGone

/-- `mresize` on an extent whose descriptor gives its true end, for a size in bytes that is not that
of a chunk: the extent ends up with just the pages it needs, at the same place, unless it has to grow
and the free extent behind it is too short. -/
theorem HeapOk.mresize_inPlace {bytes : Word} (ok : HeapOk h T)
    (member : (⟨p, n, .used (p + n)⟩ : Block) ∈ T) (large : sizeClass bytes = -1)
    (pages : (bytes.toNat + pageSize - 1) / pageSize = size) (positive : 0 < size)
    (bound : bytes.toNat < 2 ^ 42) :
    (mresize os h (p * pageSize) bytes = some (false, h) ∧ n < size ∧
      ∀ m, (⟨p + n, m, .free⟩ : Block) ∈ T → n + m < size) ∨
    ∃ h' T', mresize os h (p * pageSize) bytes = some (true, h') ∧
      (size ≤ n ∨ ∃ m, (⟨p + n, m, .free⟩ : Block) ∈ T ∧ size ≤ n + m) ∧ HeapOk h' T' ∧
      (⟨p, size, .used (p + size)⟩ : Block) ∈ T' ∧
      Change h h' T T' (fun x => x = ⟨p, n, .used (p + n)⟩)
        (fun x => x = ⟨p, size, .used (p + size)⟩) ∧
      h'.endPage ≤ h.endPage ∧ h'.pages = h.pages ∧ h'.master = h.master := by
  have place : p * pageSize / pageSize = p := Nat.mul_div_cancel p (by decide)
  have count : (bytes.toNat + pageSize - 1) % 2 ^ 64 / pageSize = size := by
    rw [Nat.mod_eq_of_lt (by simp only [pageSize]; omega), pages]
  have int : (toInt (size : ℤ) % 2 ^ 64).toNat = size := by
    have : size < 2 ^ 31 := by
      rw [← pages]
      simp only [pageSize]
      omega
    rw [toInt_of_small (by omega) (by omega)]
    omega
  obtain ⟨code, page, -⟩ := (ok.inv.described _ member).used rfl
  simp only at code page
  have notSmall : ¬ ((big : ℤ) = -1) := by decide
  have distance : ∀ k, p + k - p = k := fun k => by omega
  have refuse : size > n → Malloc.growExtent h p size = none →
      Malloc.mresize os h (p * pageSize) bytes = some (false, h) := by
    intro longer none
    simp only [Malloc.mresize, place, notSmall, if_false, code, large, and_self, if_true, count, int,
      page, distance, if_pos longer, none]
  have call : ∀ h₁ h', (if size > n then Malloc.growExtent h p size else some h) = some h₁ →
      (if size < (h₁.desc p).page - p then
        Malloc.freeExtent os (splitExtent h₁ p size) (p + size) else some h₁) = some h' →
      (h'.desc p).page = p + size →
      Malloc.mresize os h (p * pageSize) bytes = some (true, h') := by
    intro h₁ h' grown cut page'
    simp only [Malloc.mresize, place, notSmall, if_false, code, large, and_self, if_true, count, int,
      page, distance]
    rw [grown]
    simp only [cut, page', distance, if_true]
  -- once the extent is long enough, the rest is cut off
  have cut : ∀ (h₁ : Heap) (T₁ : List Block) (k : ℕ), HeapOk h₁ T₁ → size ≤ k →
      (⟨p, k, .used (p + k)⟩ : Block) ∈ T₁ →
      ∃ h' T', (if size < (h₁.desc p).page - p then
          Malloc.freeExtent os (splitExtent h₁ p size) (p + size) else some h₁) = some h' ∧
        (h'.desc p).page = p + size ∧ HeapOk h' T' ∧ (⟨p, size, .used (p + size)⟩ : Block) ∈ T' ∧
        Change h₁ h' T₁ T' (fun x => x = ⟨p, k, .used (p + k)⟩)
          (fun x => x = ⟨p, size, .used (p + size)⟩) ∧
        h'.endPage ≤ h₁.endPage ∧ h'.pages = h₁.pages ∧ h'.master = h₁.master := by
    intro h₁ T₁ k ok₁ enough member₁
    obtain ⟨-, page₁, -⟩ := (ok₁.inv.described _ member₁).used rfl
    simp only at page₁
    by_cases equal : size = k
    · subst equal
      refine ⟨h₁, T₁, ?_, page₁, ok₁, member₁, ⟨fun x inside _ _ => inside, fun x inside _ => ?_,
        fun _ _ _ _ _ _ _ => rfl⟩, le_rfl, rfl, rfl⟩
      · simp [page₁]
      · by_cases same : x = ⟨p, size, .used (p + size)⟩
        · exact Or.inr same
        · exact Or.inl ⟨inside, same⟩
    · have smaller : size < k := by omega
      obtain ⟨h', T', freed, ok', member', change, lower⟩ :=
        ok₁.cutExtent os member₁ positive smaller
      obtain ⟨-, page', -⟩ := (ok'.inv.described _ member').used rfl
      simp only at page'
      refine ⟨h', T', ?_, page', ok', member', change, lower⟩
      simp [page₁, smaller, freed]
  by_cases longer : size > n
  · rcases ok.growExtent member with ⟨none, short⟩ | ⟨m, h₁, T₁, grow, behind, enough,
      ok₁, member₁, change₁, bounds₁⟩
    · exact Or.inl ⟨refuse longer none, longer, short⟩
    · right
      obtain ⟨h', T', rest, page', ok', member', change', lower, pages', master'⟩ :=
        cut h₁ T₁ (n + m) ok₁ enough (by rwa [Nat.add_assoc] at member₁)
      refine ⟨h', T', call h₁ h' (by rw [if_pos longer, grow]) rest page',
        Or.inr ⟨m, behind, enough⟩, ok', member', ?_,
        bounds₁.endPage ▸ lower, bounds₁.pages ▸ pages', bounds₁.master ▸ master'⟩
      refine change₁.trans change' (fun x memberX busy => ⟨fun stays => ⟨stays, ?_⟩, And.left⟩) ?_
        (fun x new => new)
      · rintro rfl
        have same := ok.inv.tiling.unique (n := p) memberX member
          ⟨le_rfl, by simp only [Tile.stop]; omega⟩
          ⟨le_rfl, by have := ok.inv.len_pos member; simp only [Tile.stop] at this ⊢; omega⟩
        exact stays same
      · rintro x rfl notGone
        exact absurd (by rw [Nat.add_assoc]) notGone
  · right
    obtain ⟨h', T', rest, page', ok', member', change', lower⟩ := cut h T n ok (by omega) member
    exact ⟨h', T', call h h' (if_neg longer) rest page', Or.inl (by omega), ok', member', change', lower⟩

/-- The first three pages that a program gets, made two. -/
theorem HeapOk.mresize_inPlace_smaller : ∃ h T p, HeapOk h T ∧ (⟨p, 3, .used (p + 3)⟩ : Block) ∈ T ∧
    ∃ h' T', Malloc.mresize roomy h (p * pageSize) 8192 = some (true, h') ∧
      HeapOk h' T' ∧ (⟨p, 2, .used (p + 2)⟩ : Block) ∈ T' := by
  have call : (Malloc.valloc roomy msetup 12288).map Prod.fst = some 3 := rfl
  have three : (12288 + pageSize - 1) / pageSize = 3 := by decide
  have two : ((8192 : Word).toNat + pageSize - 1) / pageSize = 2 := by decide
  rcases heapOk_msetup.valloc le_of_roomy three (by decide) (by decide) with
    ⟨fails, -⟩ | ⟨p, e, h, T, found, real, vallocated, exact⟩ | ⟨fails, -⟩
  · rw [fails] at call
    cases call
  · have noFree : ∀ n, (⟨p, n, .free⟩ : Block) ∉ basePages 0 3 := by
      intro n member
      obtain ⟨q, -, -, same⟩ := mem_basePages.mp member
      cases same
    obtain rfl : e = p + 3 := exact.resolve_right fun ⟨n, member, _⟩ => noFree n member
    refine ⟨h, T, p, vallocated.ok, vallocated.member, ?_⟩
    rcases vallocated.ok.mresize_inPlace vallocated.member (by decide) two (by decide) (by decide) with
      ⟨-, more, -⟩ | ⟨h', T', done, -, ok, member, -⟩
    · exact absurd more (by decide)
    · exact ⟨h', T', done, ok, member⟩
  · rw [fails] at call
    cases call

end Elcrq.Malloc
