import Elcrq.Malloc.Growth

/-! # Pages of chunks

A page of chunks of one class keeps its free chunks in a list through the chunks
themselves; `free` in its descriptor is the first of them and `count` their number.
The pages of a class that have free chunks form a list from `freechunks`. Here are the
bodies of the loops that `malloc_small` and `flush_to_global_freelist` run under the
lock of the class, and what each of them does to these lists.

An address counts bytes from the base page, so that zero is the null pointer. The
links of the free chunks and the links of the free extents are kept apart here; in
memory both are the first words of the blocks they link, and no page is in use for
both at a time. -/

set_option autoImplicit false

namespace Elcrq.Malloc

open Elcrq.Store

/-- What all processes share: `next a` is the `next` of the chunk at `a`. -/
structure Shared where
  heap : Heap
  next : ℕ → ℕ
  freechunks : ℕ → ℕ

namespace Shared

def setDesc (m : Shared) (pn : ℕ) (p : Page) : Shared :=
  { m with heap := { m.heap with desc := Function.update m.heap.desc pn p } }

def setNext (m : Shared) (a v : ℕ) : Shared := { m with next := Function.update m.next a v }

def setFirst (m : Shared) (l pn : ℕ) : Shared :=
  { m with freechunks := Function.update m.freechunks l pn }

end Shared

/-- The part of `malloc_small` that makes a page from `valloc` a page of free chunks. -/
def newPage (m : Shared) (l pn : ℕ) : Shared :=
  let m := m.setDesc pn ⟨0, 0, perPage l, l⟩
  let m := { m with
    next := fun a =>
      if a / pageSize = pn ∧ a % size l = 0 then
        if a + size l < (pn + 1) * pageSize then a + size l else 0
      else m.next a }
  m.setFirst l pn

/-- The part of `malloc_small` that takes a chunk from the first page and puts it before `fl`. -/
def takeChunk (m : Shared) (l fl : ℕ) : Option (ℕ × Shared) :=
  let pn := m.freechunks l
  let p := m.heap.desc pn
  let new := pn * pageSize + p.free * size l
  if m.next new = 0 ∧ p.count ≠ 1 then none
  else
    let p := { p with
      free := if m.next new ≠ 0 then (m.next new - pn * pageSize) / size l else 0
      count := p.count - 1 }
    let m := m.setDesc pn p
    if p.count = 0 then
      if p.free = 0 then some (new, (m.setFirst l p.page).setNext new fl) else none
    else some (new, m.setNext new fl)

/-- The body of the first loop of `flush_to_global_freelist`: the chunk `cp` goes back to its page. -/
def putChunk (m : Shared) (l cp : ℕ) : Shared :=
  let pn := cp / pageSize
  let p := m.heap.desc pn
  let m := m.setNext cp (if p.count ≠ 0 then pn * pageSize + p.free * size l else 0)
  let p := { p with free := (cp - pn * pageSize) / size l }
  let (m, p) :=
    if p.count = 0 then (m.setFirst l pn, { p with page := m.freechunks l }) else (m, p)
  m.setDesc pn { p with count := if p.count + 1 ≥ perPage l then -1 else p.count + 1 }

/-- The call of `page_list_sort` in `flush_to_global_freelist`. -/
def sortPages (m : Shared) (l : ℕ) : Option Shared :=
  (pageListSort m.heap.endPage m.heap.desc (m.freechunks l)).map fun (pn, desc) =>
    { m with heap := { m.heap with desc := desc }, freechunks := Function.update m.freechunks l pn }

/-- The body of the last loop of `flush_to_global_freelist`, up to the `free` of the page. -/
def unlinkPage (m : Shared) (l : ℕ) : Shared :=
  let pn := m.freechunks l
  (m.setFirst l (m.heap.desc pn).page).setDesc pn ⟨pn + 1, 0, 0, big⟩

/-! ### The chunks of a page -/

/-- `a` is the address of a chunk of class `l` in page `p`. -/
def ChunkOf (l p a : ℕ) : Prop := a / pageSize = p ∧ a % size l = 0

section ChunkOf

variable {l p q a : ℕ}

theorem size_dvd_pageSize (small : l < numSmall) : size l ∣ pageSize :=
  ⟨perPage l, by rw [Nat.mul_comm, perPage_mul_size small]⟩

theorem ChunkOf.bounds (chunk : ChunkOf l p a) : p * pageSize ≤ a ∧ a < (p + 1) * pageSize := by
  have div := Nat.div_add_mod a pageSize
  have mod := Nat.mod_lt a (show 0 < pageSize by decide)
  rw [chunk.1, Nat.mul_comm] at div
  rw [Nat.add_mul, Nat.one_mul]
  omega

theorem ChunkOf.index (chunk : ChunkOf l p a) (small : l < numSmall) :
    p * pageSize + (a - p * pageSize) / size l * size l = a := by
  have below := chunk.bounds.1
  have page : size l ∣ p * pageSize := Nat.dvd_trans (size_dvd_pageSize small) (Nat.dvd_mul_left _ _)
  rw [Nat.div_mul_cancel (Nat.dvd_sub (Nat.dvd_of_mod_eq_zero chunk.2) page)]
  omega

theorem ChunkOf.ne_zero (chunk : ChunkOf l p a) (real : p ≠ 0) : a ≠ 0 := by
  rintro rfl
  exact real (by simpa using chunk.1.symm)

def allChunks (l p : ℕ) : List ℕ := (List.range (perPage l)).map fun i => p * pageSize + i * size l

theorem mem_allChunks (small : l < numSmall) : a ∈ allChunks l p ↔ ChunkOf l p a := by
  have whole := perPage_mul_size small
  have positive := size_pos l
  simp only [allChunks, List.mem_map, List.mem_range]
  constructor
  · rintro ⟨i, below, rfl⟩
    have inside : i * size l < pageSize := by
      rw [← whole]
      exact Nat.mul_lt_mul_of_pos_right below positive
    refine ⟨?_, ?_⟩
    · rw [Nat.mul_comm, Nat.mul_add_div (by decide), Nat.div_eq_of_lt inside, Nat.add_zero]
    · refine Nat.mod_eq_zero_of_dvd ((Nat.dvd_add_right ?_).mpr (Nat.dvd_mul_left _ _))
      exact Nat.dvd_trans (size_dvd_pageSize small) (Nat.dvd_mul_left _ _)
  · intro chunk
    refine ⟨(a - p * pageSize) / size l, ?_, chunk.index small⟩
    have bounds := chunk.bounds
    rw [Nat.add_mul, Nat.one_mul] at bounds
    refine Nat.div_lt_of_lt_mul ?_
    rw [Nat.mul_comm (size l), whole]
    omega

theorem length_allChunks : (allChunks l p).length = perPage l := by simp [allChunks]

theorem length_le_perPage (small : l < numSmall) {c : List ℕ} (nodup : c.Nodup)
    (inside : ∀ a ∈ c, ChunkOf l p a) : c.length ≤ perPage l := by
  rw [← length_allChunks (l := l) (p := p)]
  exact (nodup.subperm fun a member => (mem_allChunks small).mpr (inside a member)).length_le

theorem mem_of_length_eq (small : l < numSmall) {c : List ℕ} (nodup : c.Nodup)
    (inside : ∀ a ∈ c, ChunkOf l p a) (full : c.length = perPage l) (chunk : ChunkOf l p a) :
    a ∈ c := by
  have sub := nodup.subperm fun a member => (mem_allChunks small).mpr (inside a member)
  have perm := sub.perm_of_length_le (by rw [length_allChunks, full])
  exact perm.mem_iff.mpr ((mem_allChunks small).mpr chunk)

end ChunkOf

/-! ### The pages of a class -/

/-- The free chunks of page `p` of class `l` are `c`, and there are some. A count of -1 stands for a page
whose chunks are all free. -/
structure Shelved (m : Shared) (l p : ℕ) (c : List ℕ) : Prop where
  chain : Chain m.next 0 (p * pageSize + (m.heap.desc p).free * size l) c
  inside : ∀ a ∈ c, ChunkOf l p a
  some : c ≠ []
  count : (m.heap.desc p).count = c.length ∨ (m.heap.desc p).count = -1 ∧ c.length = perPage l

/-- The pages of class `l` that have free chunks are `ps`, and the free chunks of page `p` are `c p`. -/
structure Shelf (m : Shared) (l : ℕ) (ps : List ℕ) (c : ℕ → List ℕ) : Prop where
  pages : PageChain m.heap.desc (m.freechunks l) ps
  shelved : ∀ p ∈ ps, Shelved m l p (c p)

/-- Nothing but page `p` of class `l` and the list of that class has changed, and not what the page is
used for. -/
structure Only (m m' : Shared) (l p : ℕ) : Prop where
  heap : m'.heap = { m.heap with desc := m'.heap.desc }
  desc : ∀ q, q ≠ p → m'.heap.desc q = m.heap.desc q
  code : (m'.heap.desc p).code = (m.heap.desc p).code
  first : ∀ k, k ≠ l → m'.freechunks k = m.freechunks k

section Shelf

variable {m m' : Shared} {l p q a fl : ℕ} {ps rest more : List ℕ} {c c' : ℕ → List ℕ}

theorem Shelved.congr {chunks : List ℕ} (shelved : Shelved m l p chunks)
    (desc : m'.heap.desc p = m.heap.desc p) (next : ∀ a ∈ chunks, m'.next a = m.next a) :
    Shelved m' l p chunks := by
  refine ⟨?_, shelved.inside, shelved.some, ?_⟩
  · rw [desc]
    exact shelved.chain.congr next
  · rw [desc]
    exact shelved.count

theorem Shelved.update {chunks : List ℕ} {v : ℕ} (shelved : Shelved m l q chunks)
    (chunk : ChunkOf l p a) (other : q ≠ p) (desc : m'.heap.desc q = m.heap.desc q)
    (next : m'.next = Function.update m.next a v) : Shelved m' l q chunks := by
  refine shelved.congr desc fun b inside => ?_
  rw [next]
  refine Function.update_of_ne ?_ _ _
  rintro rfl
  exact other ((shelved.inside b inside).1.symm.trans chunk.1)

theorem Shelf.nodup (shelf : Shelf m l ps c) : ps.Nodup := Chain.nodup shelf.pages

theorem Shelf.page_ne_zero (shelf : Shelf m l ps c) (member : p ∈ ps) : p ≠ 0 :=
  Chain.ne_nil shelf.pages member

theorem Shelf.congr (shelf : Shelf m l ps c) (first : m'.freechunks l = m.freechunks l)
    (desc : ∀ q ∈ ps, m'.heap.desc q = m.heap.desc q)
    (next : ∀ q ∈ ps, ∀ a ∈ c q, m'.next a = m.next a) (same : ∀ q ∈ ps, c' q = c q) :
    Shelf m' l ps c' := by
  refine ⟨?_, fun q member => ?_⟩
  · rw [first]
    exact Chain.congr (fun q member => by rw [desc q member]) shelf.pages
  · rw [same q member]
    exact (shelf.shelved q member).congr (desc q member) (next q member)

theorem takeChunk_eq (fl : ℕ) (first : m.freechunks l = p)
    (new : p * pageSize + (m.heap.desc p).free * size l = a)
    (last : m.next a = 0 ↔ (m.heap.desc p).count = 1) :
    ∃ m', takeChunk m l fl = some (a, m') ∧ m'.next = Function.update m.next a fl ∧
      m'.heap = { m.heap with desc := Function.update m.heap.desc p { m.heap.desc p with
        free := if m.next a = 0 then 0 else (m.next a - p * pageSize) / size l
        count := (m.heap.desc p).count - 1 } } ∧
      m'.freechunks = if m.next a = 0 then Function.update m.freechunks l (m.heap.desc p).page
        else m.freechunks := by
  refine ⟨{
    heap := { m.heap with desc := Function.update m.heap.desc p { m.heap.desc p with
      free := if m.next a = 0 then 0 else (m.next a - p * pageSize) / size l
      count := (m.heap.desc p).count - 1 } }
    next := Function.update m.next a fl
    freechunks := if m.next a = 0 then Function.update m.freechunks l (m.heap.desc p).page
      else m.freechunks }, ?_, rfl, rfl, rfl⟩
  by_cases none : m.next a = 0
  · have one := last.mp none
    simp [takeChunk, first, new, none, one, Shared.setDesc, Shared.setNext, Shared.setFirst]
  · have left : (m.heap.desc p).count - 1 ≠ 0 := fun zero => none (last.mpr (by omega))
    simp [takeChunk, first, new, none, left, Shared.setDesc, Shared.setNext]

/-- One chunk leaves the first page, and the page leaves the list with its last chunk. -/
theorem Shelf.takeChunk (fl : ℕ) (small : l < numSmall) (shelf : Shelf m l (p :: rest) c)
    (here : c p = a :: more) (count : (m.heap.desc p).count = (c p).length) :
    ∃ m', takeChunk m l fl = some (a, m') ∧
      Shelf m' l (if more = [] then rest else p :: rest) (Function.update c p more) ∧
      m'.next = Function.update m.next a fl ∧ Only m m' l p ∧
      (m'.heap.desc p).count = more.length := by
  have member : p ∈ p :: rest := List.mem_cons_self
  have shelved := shelf.shelved p member
  have notInRest : p ∉ rest := (List.nodup_cons.mp shelf.nodup).1
  have others : ∀ q ∈ rest, q ≠ p := fun q inside => ne_of_mem_of_not_mem inside notInRest
  rw [here] at shelved count
  have chunkA := shelved.inside a List.mem_cons_self
  obtain ⟨new, -, onward⟩ := chain_cons.mp shelved.chain
  have notAgain : a ∉ more := (List.nodup_cons.mp shelved.chain.nodup).1
  have last : m.next a = 0 ↔ more = [] :=
    ⟨fun none => (none ▸ onward).eq_nil, fun none => by subst none; exact onward⟩
  have one : more = [] ↔ (m.heap.desc p).count = 1 := by
    rw [count, List.length_cons, ← List.length_eq_zero_iff]
    omega
  obtain ⟨m', call, next, heap, firsts⟩ :=
    takeChunk_eq fl shelf.pages.1 new (last.trans one)
  have elsewhere : ∀ q, q ≠ p → m'.heap.desc q = m.heap.desc q := fun q other => by
    rw [heap]
    exact Function.update_of_ne other _ _
  have there : m'.heap.desc p = { m.heap.desc p with
      free := if m.next a = 0 then 0 else (m.next a - p * pageSize) / size l
      count := (m.heap.desc p).count - 1 } := by
    rw [heap]
    exact Function.update_self _ _ _
  have count' : (m'.heap.desc p).count = more.length := by
    rw [there]
    simp only [count, List.length_cons]
    omega
  have restPages : PageChain m'.heap.desc (m.heap.desc p).page rest :=
    Chain.congr (fun q inside => by rw [elsewhere q (others q inside)]) shelf.pages.2.2
  have restShelved : ∀ q ∈ rest, Shelved m' l q (Function.update c p more q) := by
    intro q inside
    rw [Function.update_of_ne (others q inside)]
    exact (shelf.shelved q (List.mem_cons_of_mem _ inside)).update chunkA (others q inside)
      (elsewhere q (others q inside)) next
  refine ⟨m', call, ?_, next, ⟨?_, elsewhere, by rw [there], fun k other => ?_⟩, count'⟩
  · by_cases none : more = []
    · rw [if_pos none]
      refine ⟨?_, restShelved⟩
      rw [firsts, if_pos (last.mpr none), Function.update_self]
      exact restPages
    · rw [if_neg none]
      have more' : m.next a ≠ 0 := fun zero => none (last.mp zero)
      refine ⟨?_, fun q inside => ?_⟩
      · rw [firsts, if_neg more']
        refine pageChain_cons.mpr ⟨shelf.pages.1, shelf.pages.2.1, ?_⟩
        rw [there]
        exact restPages
      · rcases List.mem_cons.mp inside with rfl | later
        · rw [Function.update_self]
          obtain ⟨b, more, rfl⟩ := List.exists_cons_of_ne_nil none
          have chunkB := shelved.inside b (by simp)
          refine ⟨?_, fun b inside => shelved.inside b (List.mem_cons_of_mem _ inside), none,
            Or.inl count'⟩
          rw [there]
          simp only [if_neg more']
          have start : m.next a = b := onward.1
          rw [start, chunkB.index small, next]
          exact (start ▸ onward).update notAgain
        · exact restShelved q later
  · rw [heap]
  · rw [firsts]
    split_ifs
    · exact Function.update_of_ne other _ _
    · rfl

/-- The descriptor of page `p` once the chunk `a` has come back. -/
def putDesc (m : Shared) (l p a : ℕ) : Page where
  page := if (m.heap.desc p).count = 0 then m.freechunks l else (m.heap.desc p).page
  free := (a - p * pageSize) / size l
  count := if (m.heap.desc p).count + 1 ≥ perPage l then -1 else (m.heap.desc p).count + 1
  code := (m.heap.desc p).code

theorem putChunk_eq (page : a / pageSize = p) :
    (putChunk m l a).next = Function.update m.next a
      (if (m.heap.desc p).count = 0 then 0 else p * pageSize + (m.heap.desc p).free * size l) ∧
    (putChunk m l a).heap =
      { m.heap with desc := Function.update m.heap.desc p (putDesc m l p a) } ∧
    (putChunk m l a).freechunks =
      if (m.heap.desc p).count = 0 then Function.update m.freechunks l p else m.freechunks := by
  by_cases none : (m.heap.desc p).count = 0
  · simp [putChunk, putDesc, page, none, Shared.setDesc, Shared.setNext, Shared.setFirst]
  · simp [putChunk, putDesc, page, none, Shared.setDesc, Shared.setNext]

/-- One chunk goes back to its page, and a page that had no free chunk comes to the list. -/
theorem Shelf.putChunk (small : l < numSmall) (shelf : Shelf m l ps c) (chunk : ChunkOf l p a)
    (real : p ≠ 0) (absent : p ∉ ps → (m.heap.desc p).count = 0 ∧ c p = [])
    (present : p ∈ ps → (m.heap.desc p).count = (c p).length) (new : a ∉ c p) :
    ∃ ps', Shelf (putChunk m l a) l ps' (Function.update c p (a :: c p)) ∧
      (∀ q, q ∈ ps' ↔ q = p ∨ q ∈ ps) ∧ (∃ v, (putChunk m l a).next = Function.update m.next a v) ∧
      Only m (putChunk m l a) l p ∧
      ((putChunk m l a).heap.desc p).count =
        if (a :: c p).length = perPage l then -1 else ((a :: c p).length : ℤ) := by
  obtain ⟨next, heap, firsts⟩ := putChunk_eq (m := m) (l := l) chunk.1
  have count : (m.heap.desc p).count = (c p).length := by
    by_cases member : p ∈ ps
    · exact present member
    · rw [(absent member).1, (absent member).2]
      rfl
  have zero : (m.heap.desc p).count = 0 ↔ p ∉ ps := by
    refine ⟨fun none member => ?_, fun member => (absent member).1⟩
    have some := List.length_pos_of_ne_nil (shelf.shelved p member).some
    omega
  have elsewhere : ∀ q, q ≠ p → (Malloc.putChunk m l a).heap.desc q = m.heap.desc q :=
    fun q other => by
      rw [heap]
      exact Function.update_of_ne other _ _
  have there : (Malloc.putChunk m l a).heap.desc p = putDesc m l p a := by
    rw [heap]
    exact Function.update_self _ _ _
  have inside : ∀ b ∈ a :: c p, ChunkOf l p b := by
    intro b inside
    rcases List.mem_cons.mp inside with rfl | old
    · exact chunk
    · by_cases member : p ∈ ps
      · exact (shelf.shelved p member).inside b old
      · rw [(absent member).2] at old
        cases old
  have old : Chain m.next 0
      (if (m.heap.desc p).count = 0 then 0 else p * pageSize + (m.heap.desc p).free * size l) (c p) := by
    by_cases member : p ∈ ps
    · rw [if_neg fun none => zero.mp none member]
      exact (shelf.shelved p member).chain
    · rw [if_pos (zero.mpr member), (absent member).2]
      rfl
  have chain : Chain (Malloc.putChunk m l a).next 0 a (a :: c p) := by
    rw [next]
    exact old.push (chunk.ne_zero real) new
  have full := length_le_perPage small chain.nodup inside
  have count' : ((Malloc.putChunk m l a).heap.desc p).count =
      if (a :: c p).length = perPage l then -1 else ((a :: c p).length : ℤ) := by
    rw [there]
    simp only [putDesc, count, List.length_cons] at full ⊢
    split_ifs <;> omega
  have here : Shelved (Malloc.putChunk m l a) l p (a :: c p) := by
    refine ⟨?_, inside, List.cons_ne_nil _ _, ?_⟩
    · rw [there]
      simp only [putDesc, chunk.index small]
      exact chain
    · rw [count']
      split_ifs with all
      · exact Or.inr ⟨rfl, all⟩
      · exact Or.inl rfl
  have others : ∀ q ∈ ps, q ≠ p →
      Shelved (Malloc.putChunk m l a) l q (Function.update c p (a :: c p) q) := by
    intro q member other
    rw [Function.update_of_ne other]
    exact (shelf.shelved q member).update chunk other (elsewhere q other) next
  have only : Only m (Malloc.putChunk m l a) l p := by
    refine ⟨by rw [heap], elsewhere, by rw [there]; rfl, fun k other => ?_⟩
    rw [firsts]
    split_ifs
    · exact Function.update_of_ne other _ _
    · rfl
  by_cases member : p ∈ ps
  · have notZero : (m.heap.desc p).count ≠ 0 := fun none => zero.mp none member
    refine ⟨ps, ⟨?_, fun q inside => ?_⟩, fun q => ?_, ⟨_, next⟩, only, count'⟩
    · rw [firsts, if_neg notZero]
      refine Chain.congr (fun q _ => ?_) shelf.pages
      by_cases same : q = p
      · subst same
        rw [there]
        exact if_neg notZero
      · rw [elsewhere q same]
    · by_cases same : q = p
      · subst same
        rw [Function.update_self]
        exact here
      · exact others q inside same
    · exact ⟨Or.inr, fun either => either.elim (fun same => same ▸ member) id⟩
  · have isZero := zero.mpr member
    refine ⟨p :: ps, ⟨?_, fun q inside => ?_⟩, fun q => List.mem_cons, ⟨_, next⟩, only, count'⟩
    · rw [firsts, if_pos isZero, Function.update_self]
      refine pageChain_cons.mpr ⟨rfl, real, ?_⟩
      rw [there]
      simp only [putDesc, if_pos isZero]
      refine Chain.congr (fun q inside => ?_) shelf.pages
      rw [elsewhere q (ne_of_mem_of_not_mem inside member)]
    · rcases List.mem_cons.mp inside with rfl | later
      · rw [Function.update_self]
        exact here
      · exact others q later (ne_of_mem_of_not_mem later member)

theorem newPage_next (small : l < numSmall) {i : ℕ} (below : i < perPage l) :
    (newPage m l p).next (p * pageSize + i * size l) =
      if i + 1 < perPage l then p * pageSize + (i + 1) * size l else 0 := by
  have chunk : ChunkOf l p (p * pageSize + i * size l) := by
    rw [← mem_allChunks small]
    exact List.mem_map.mpr ⟨i, List.mem_range.mpr below, rfl⟩
  have whole := perPage_mul_size small
  have inside : p * pageSize + i * size l + size l < (p + 1) * pageSize ↔ i + 1 < perPage l := by
    rw [Nat.add_mul, Nat.one_mul, Nat.add_assoc, ← Nat.succ_mul, Nat.add_lt_add_iff_left, ← whole]
    exact Nat.mul_lt_mul_right (size_pos l)
  simp only [newPage, Shared.setFirst, chunk.1, chunk.2, and_self, if_true, inside]
  rw [Nat.add_assoc, ← Nat.succ_mul]

theorem newPage_chain (small : l < numSmall) (real : p ≠ 0) (n : ℕ) : ∀ i, i + n = perPage l →
    Chain (newPage m l p).next 0 (if i < perPage l then p * pageSize + i * size l else 0)
      ((List.range' i n).map fun j => p * pageSize + j * size l) := by
  induction n with
  | zero =>
      intro i all
      rw [if_neg (by omega)]
      rfl
  | succ n ih =>
      intro i all
      rw [if_pos (by omega), List.range'_succ, List.map_cons]
      refine chain_cons.mpr ⟨rfl, ?_, ?_⟩
      · have : 0 < p * pageSize := Nat.mul_pos (Nat.pos_of_ne_zero real) (by decide)
        omega
      · rw [newPage_next small (by omega)]
        exact ih (i + 1) (by omega)

theorem shelf_newPage (small : l < numSmall) (real : p ≠ 0) :
    Shelf (newPage m l p) l [p] (Function.update c p (allChunks l p)) ∧
      ((newPage m l p).heap.desc p).count = perPage l := by
  have there : (newPage m l p).heap.desc p = ⟨0, 0, perPage l, l⟩ := by
    simp [newPage, Shared.setFirst, Shared.setDesc]
  have some : 0 < perPage l := Nat.lt_of_succ_lt (one_lt_perPage small)
  refine ⟨⟨?_, fun q member => ?_⟩, by rw [there]⟩
  · have first : (newPage m l p).freechunks l = p := by
      simp [newPage, Shared.setFirst]
    rw [first]
    exact pageChain_cons.mpr ⟨rfl, real, by rw [there]; rfl⟩
  · obtain rfl := List.mem_singleton.mp member
    rw [Function.update_self]
    refine ⟨?_, fun a inside => (mem_allChunks small).mp inside, ?_, ?_⟩
    · have chain := newPage_chain (m := m) (p := q) small real (perPage l) 0 (Nat.zero_add _)
      rw [if_pos some] at chain
      rw [there, allChunks, List.range_eq_range']
      exact chain
    · exact List.ne_nil_of_length_pos (by rw [length_allChunks]; exact some)
    · rw [there, length_allChunks]
      exact Or.inl rfl

theorem Shelf.sortPages (shelf : Shelf m l ps c) (enough : ps.length < m.heap.endPage) :
    ∃ m' ps', sortPages m l = some m' ∧ Shelf m' l ps' c ∧ ps'.Perm ps ∧
      ps'.Pairwise (fun p q => (m'.heap.desc p).count ≤ (m'.heap.desc q).count) ∧
      m'.next = m.next ∧ m'.heap = { m.heap with desc := m'.heap.desc } ∧
      (∀ q, q ∉ ps → m'.heap.desc q = m.heap.desc q) ∧
      (∀ q, (m'.heap.desc q).count = (m.heap.desc q).count ∧
        (m'.heap.desc q).code = (m.heap.desc q).code) ∧
      ∀ k, k ≠ l → m'.freechunks k = m.freechunks k := by
  obtain ⟨pn, desc, ps', call, chain, perm, relinked, sorted⟩ :=
    pageListSort_sorted enough shelf.pages
  have fields := relinked.fields
  refine ⟨{ m with
    heap := { m.heap with desc := desc }
    freechunks := Function.update m.freechunks l pn }, ps', by rw [Malloc.sortPages, call]; rfl,
      ⟨?_, fun q member => ?_⟩, perm, ?_, rfl, rfl,
    relinked.outside, fun q => ⟨(fields q).1, (fields q).2.2⟩,
    fun k other => Function.update_of_ne other _ _⟩
  · simp only [Function.update_self]
    exact chain
  · have old := shelf.shelved q (perm.mem_iff.mp member)
    refine ⟨?_, old.inside, old.some, ?_⟩
    · rw [show (desc q).free = (m.heap.desc q).free from (fields q).2.1]
      exact old.chain
    · rw [show (desc q).count = (m.heap.desc q).count from (fields q).1]
      exact old.count
  · refine (sorted _ (decides_count m.heap.desc ps)).imp fun {p q} le => ?_
    rw [(fields p).1, (fields q).1]
    exact le

theorem Shelf.unlinkPage (shelf : Shelf m l (p :: rest) c) :
    Shelf (unlinkPage m l) l rest c ∧ (unlinkPage m l).next = m.next ∧
      (unlinkPage m l).heap =
        { m.heap with desc := Function.update m.heap.desc p ⟨p + 1, 0, 0, big⟩ } ∧
      ∀ k, k ≠ l → (unlinkPage m l).freechunks k = m.freechunks k := by
  have first : m.freechunks l = p := shelf.pages.1
  have notInRest : p ∉ rest := (List.nodup_cons.mp shelf.nodup).1
  have heap : (Malloc.unlinkPage m l).heap =
      { m.heap with desc := Function.update m.heap.desc p ⟨p + 1, 0, 0, big⟩ } := by
    rw [Malloc.unlinkPage, first]
    rfl
  have elsewhere : ∀ q ∈ rest, (Malloc.unlinkPage m l).heap.desc q = m.heap.desc q := by
    intro q inside
    rw [heap]
    exact Function.update_of_ne (ne_of_mem_of_not_mem inside notInRest) _ _
  refine ⟨⟨?_, fun q inside => ?_⟩, rfl, heap, fun k other => Function.update_of_ne other _ _⟩
  · have start : (Malloc.unlinkPage m l).freechunks l = (m.heap.desc p).page := by
      simp [Malloc.unlinkPage, first, Shared.setDesc, Shared.setFirst]
    rw [start]
    exact Chain.congr (fun q inside => by rw [elsewhere q inside]) shelf.pages.2.2
  · exact (shelf.shelved q (List.mem_cons_of_mem _ inside)).congr (elsewhere q inside) fun _ _ => rfl

end Shelf

end Elcrq.Malloc
