import Elcrq.Malloc.PageSort
import Elcrq.Malloc.BestFit

/-! # Extents of pages

The part of `malloc.c` that hands out whole pages: the page descriptors, the free
lists, the end of the heap and the break. A pointer to a page is its number, zero
the null pointer (page 0 is the base page); `brk` counts bytes from the base page.

`os b` says whether the operating system lets the break grow to `b`. An operation
returns `none` when an assertion fails or the operating system refuses a page for
the page table: the program stops there, or goes on with descriptors that do not
exist. -/

set_option autoImplicit false

namespace Elcrq.Malloc

/-- `BIG`. -/
def big : ℕ := 26

/-- `MIDDLE`. -/
def middle : ℕ := 28

/-- `BASE`. -/
def base : ℕ := 30

/-- `BIG+FREE`. -/
def bigFree : ℕ := big + 1

/-- Page descriptors to a page (`PAGESIZE/sizeof(struct page)`), and pages of them to a page. -/
def perTable : ℕ := 512

/-- `I1(pn)`: the page of descriptors that holds the descriptor of `pn`. -/
def i1 (pn : ℕ) : ℕ := pn / perTable

/-- The conversion of a `size_t` to an `int`. -/
def toInt (n : ℤ) : ℤ := Int.bmod n (2 ^ 32)

/-- The pages of `membase`: `desc n` is `*NUM2PAGE(n)`, `pages i` is `membase->pages[i]` and
`master` is `membase->pages`. -/
structure Heap where
  desc : ℕ → Page
  lists : FreeLists
  endPage : ℕ
  brk : ℕ
  pages : ℕ → ℕ
  master : ℕ

namespace Heap

def setCode (h : Heap) (n c : ℕ) : Heap :=
  { h with desc := Function.update h.desc n { h.desc n with code := c } }

def setPage (h : Heap) (n v : ℕ) : Heap := { h with desc := setLink h.desc n v }

def setSize (h : Heap) (p n : ℕ) : Heap := { h with lists := h.lists.setSize p n }

/-- `fp_remove(FREEPAGE(p))`. -/
def remove (h : Heap) (p : ℕ) : Heap := { h with lists := fpRemove h.lists p }

/-- `fp_add(FREEPAGE(p))`. -/
def add (h : Heap) (p : ℕ) : Option Heap :=
  (fpAdd h.endPage h.lists p).map fun f => { h with lists := f }

/-- A loop that stores `v` in the `page` field of the pages from `i` to `j`. -/
def linkPages (h : Heap) (i j v : ℕ) : Heap :=
  { h with desc := fun n => if i ≤ n ∧ n < j then { h.desc n with page := v } else h.desc n }

end Heap

/-- `alloc_pages`: the first page of the extent, or zero. The allocated extent keeps the `page` of
the free extent it is cut from. -/
def allocPages (h : Heap) (size : ℤ) : Option (ℕ × Heap) := do
  let (p, f) ← fpFind h.endPage h.lists size
  let h := { h with lists := f }
  if p = 0 then some (p, h)
  else
    let h := h.setCode p big
    let pages := (size % 2 ^ 32).toNat
    if (h.desc p).page - p > pages then
      let extra := p + pages
      let h := h.setCode extra bigFree
      let h := h.setPage extra (h.desc p).page
      let i := (h.desc p).page - extra
      let h := h.setSize extra i
      let h := h.linkPages (extra + 1) (extra + i) extra
      let h ← h.add extra
      some (p, h)
    else some (p, h)

/-- The first part of `free_pages`: join with the free extent before, if there is one. The result is
the first page of the free extent, not on the free lists yet. -/
def joinPrevious (h : Heap) (p : ℕ) : ℕ × Heap :=
  let adj := p - 1
  let adj := if (h.desc adj).code = middle then (h.desc adj).page else adj
  if (h.desc adj).code = bigFree then
    let h := h.remove adj
    let h := h.setPage adj (h.desc p).page
    let h := h.setCode p middle
    let h := h.linkPages p (h.desc adj).page adj
    (adj, h.setSize adj ((h.desc adj).page - adj))
  else (p, h.setSize p ((h.desc p).page - p))

/-- The second part of `free_pages`: join with the free extent behind, if there is one. -/
def joinNext (h : Heap) (fpage : ℕ) : Heap :=
  let adj := (h.desc fpage).page
  if adj < h.endPage ∧ (h.desc adj).code = bigFree then
    let h := h.remove adj
    let h := h.setCode adj middle
    let h := h.setPage fpage (h.desc adj).page
    let h := h.linkPages adj (h.desc fpage).page fpage
    h.setSize fpage ((h.desc fpage).page - fpage)
  else h

def freePages (h : Heap) (p : ℕ) : Option (ℕ × Heap) :=
  if (h.desc p).code = big then do
    let h := h.setCode p bigFree
    let (fpage, h) := joinPrevious h p
    let h ← (joinNext h fpage).add fpage
    some (fpage, h)
  else none

/-- `setup_extent_descriptor`. -/
def setupExtentDescriptor (h : Heap) (p size : ℕ) : Heap :=
  let h := h.setPage p (p + size)
  let h := h.setCode p big
  { h with desc := fun n =>
      if p < n ∧ n < p + size then { h.desc n with page := p, code := middle } else h.desc n }

/-- `shm_sbrk`: the old break, or `none` for `(void *)-1`. A file can always be made shorter. -/
def sbrk (os : ℕ → Bool) (h : Heap) (delta : ℤ) : Option (ℕ × Heap) :=
  let newbrk : ℤ := h.brk + delta
  if newbrk < 0 then none
  else if newbrk ≤ h.brk ∨ os newbrk.toNat = true then
    some (h.brk, { h with brk := newbrk.toNat })
  else none

/-- The loop of `expand_page_table` over the pages of descriptors from `i` on, `left` of them to go;
`added` counts those that come from `sbrk`. -/
def addTables (os : ℕ → Bool) : ℕ → Heap → ℕ → ℕ → Option (Heap × ℕ)
  | 0, h, _, added => some (h, added)
  | left + 1, h, i, added =>
      if h.pages i ≠ 0 then none
      else do
        let (p, h) ← allocPages h 1
        let (p, h, added) ←
          if p ≠ 0 then some (p, h.setCode p base, added)
          else (sbrk os h pageSize).map fun (new, h) => (new / pageSize, h, added + 1)
        let h := { h with
          pages := Function.update h.pages i p
          desc := fun n => if i1 n = i then ⟨0, 0, 0, 0⟩ else h.desc n }
        addTables os left h (i + 1) added

/-- The part of `expand_page_table` that moves the top-level table when page `last` needs a longer one:
the new state, the new last page and the size of the new table, zero if the old one is long enough. The old
table becomes an extent that nothing frees: the variable that should remember it is shadowed. -/
def growMaster (os : ℕ → Bool) (h : Heap) (old last : ℕ) : Option (Heap × ℕ × ℕ) :=
  if i1 last / perTable = i1 old / perTable then some (h, last, 0)
  else do
    let oldSize := i1 old / perTable + 1
    let newSize := i1 last / perTable + 1
    let (p, h) ← allocPages h newSize
    let (p, h, last, newSize) ←
      if p ≠ 0 then some (p, h, last, newSize)
      else
        let last := last + newSize
        let newSize := i1 last / perTable + 1
        (sbrk os h (toInt (newSize * pageSize))).map fun (new, h) =>
          (new / pageSize, { h with endPage := new / pageSize + newSize }, last, newSize)
    let h := { h with pages := fun i => if i < oldSize * perTable then h.pages i else 0 }
    let oldMaster := h.master
    let h := { h with master := p }
    some (setupExtentDescriptor h oldMaster oldSize, last, newSize)

/-- A loop that gives the code `BASE` to `n` pages of descriptors, going down from the one with index
`i`. -/
def markTables : ℕ → Heap → ℕ → Heap
  | 0, h, _ => h
  | n + 1, h, i => markTables n (h.setCode (h.pages i) base) (i - 1)

/-- `expand_page_table`. The fuel bounds the recursion, one level for each time that the pages added
for descriptors need descriptors of their own. -/
def expandPageTable (os : ℕ → Bool) : ℕ → Heap → ℕ → Option Heap
  | 0, _, _ => none
  | fuel + 1, h, last => do
      let old := h.endPage - 1
      let (h, last, newSize) ← growMaster os h old last
      let (h, added) ← addTables os (i1 last - i1 old) h (i1 old + 1) 0
      let h := { h with endPage := last + 1 }
      let h := { h with desc := fun n =>
        if h.master ≤ n ∧ n < h.master + newSize then { h.desc n with code := base } else h.desc n }
      if added = 0 then some h
      else do
        let h ← expandPageTable os fuel h (last + added)
        some (markTables added h (i1 last))

/-- The part of `valloc` behind a successful `sbrk`: make room in the page table and set up the
descriptors. -/
def claimPages (os : ℕ → Bool) (h : Heap) (new size : ℕ) : Option (ℕ × Heap) :=
  if i1 (new + size - 1) = i1 (h.endPage - 1) then
    let h := { h with endPage := new + size }
    some (new, setupExtentDescriptor h new size)
  else do
    let h ← expandPageTable os (new + size) h (new + size - 1)
    some (new, setupExtentDescriptor h new size)

/-- `valloc`, for a size in pages. -/
def vallocPages (os : ℕ → Bool) (h : Heap) (size : ℕ) : Option (ℕ × Heap) := do
  let (new, h) ← allocPages h (toInt size)
  if new ≠ 0 then some (new, h)
  else
    match sbrk os h (toInt (size * pageSize)) with
    | none => some (0, h)
    | some (new, h) =>
        if new % pageSize = 0 then claimPages os h (new / pageSize) size
        else
          match sbrk os h (pageSize - new % pageSize) with
          | none => some (0, ((sbrk os h (new - h.brk)).map Prod.snd).getD h)
          | some (_, h) => claimPages os h (new / pageSize + 1) size

/-- `valloc`, for a size in bytes. -/
def valloc (os : ℕ → Bool) (h : Heap) (bytes : ℕ) : Option (ℕ × Heap) :=
  vallocPages os h ((bytes + pageSize - 1) % 2 ^ 64 / pageSize)

/-- The part of `free` for an extent: give it back, and shrink the heap if it is the last one. -/
def freeExtent (os : ℕ → Bool) (h : Heap) (p : ℕ) : Option Heap := do
  let (fpage, h) ← freePages h p
  if fpage + h.lists.size fpage = h.endPage ∧ h.brk = h.endPage * pageSize then
    let h := h.remove fpage
    let h := ((sbrk os h (toInt (fpage * pageSize - h.endPage * pageSize))).map Prod.snd).getD h
    some { h with endPage := fpage }
  else some h

/-- The first locked part of `mresize`: take the free extent behind, if that is enough. -/
def growExtent (h : Heap) (old size : ℕ) : Option Heap :=
  let next := (h.desc old).page
  if next = h.endPage ∨ (h.desc next).code ≠ bigFree ∨ (h.desc next).page - old < size then none
  else
    let h := h.remove next
    let h := h.setCode next middle
    let t := (h.desc next).page
    let h := h.setPage old t
    some (h.linkPages next t old)

/-- The second locked part of `mresize`: cut off the pages behind the first `size`, as an extent of
their own. -/
def splitExtent (h : Heap) (old size : ℕ) : Heap :=
  let t := old + size
  let h := h.setCode t big
  let h := h.setPage t (h.desc old).page
  let h := h.linkPages (t + 1) (h.desc old).page t
  h.setPage old t

/-- `mresize`: whether the block could be resized in place. The comparisons are between the size as an
`int`, converted to an `unsigned long`, and a number of pages. -/
def mresize (os : ℕ → Bool) (h : Heap) (old : ℕ) (bytes : Word) : Option (Bool × Heap) :=
  let op := old / pageSize
  let nl := sizeClass bytes
  if ((h.desc op).code : ℤ) = nl then some (true, h)
  else if (h.desc op).code = big ∧ nl = -1 then
    let size : ℕ := (bytes.toNat + pageSize - 1) % 2 ^ 64 / pageSize
    let isize := (toInt size % 2 ^ 64).toNat
    let grown := if isize > (h.desc op).page - op then growExtent h op isize else some h
    match grown with
    | none => some (false, h)
    | some h =>
        let cut :=
          if isize < (h.desc op).page - op then
            freeExtent os (splitExtent h op size) (op + size)
          else some h
        match cut with
        | none => none
        | some h => if isize = (h.desc op).page - op then some (true, h) else none
  else some (false, h)

/-- `msetup`, after `mmap` has returned three pages of zeros. -/
def msetup : Heap where
  desc n := if n < 3 then ⟨0, 0, 0, base⟩ else ⟨0, 0, 0, 0⟩
  lists := ⟨fun _ => 0, fun _ => .freepages, fun _ => 0⟩
  endPage := 3
  brk := 3 * pageSize
  pages i := if i = 0 then 2 else 0
  master := 1

end Elcrq.Malloc
