import Elcrq.Malloc.Machine

/-! # Who has a chunk

A chunk is free in its page, or on a list of one thread, or the program has it, or it is
lost. `Owner` says which; `Inv` says that the lists in memory agree with the owners.
A thread changes the links of its own chunks and, under the lock of the class, those of
the chunks that are free in their pages, so that the lists of the other threads stay as
they are. -/

set_option autoImplicit false

namespace Elcrq.Malloc

open Elcrq.Store

universe u

inductive Owner (τ : Type u)
  | page
  | thread (t : τ)
  | program
  | lost

/-- `a` is the address of a chunk of class `l`. -/
def IsChunk (T : List Block) (l a : ℕ) : Prop :=
  (⟨a / pageSize, 1, .small l⟩ : Block) ∈ T ∧ a % size l = 0

/-- `a` is the address of a block of `n` bytes that can have an owner: an extent or a chunk. -/
def Piece (T : List Block) (a n : ℕ) : Prop :=
  (∃ p k e, (⟨p, k, .used e⟩ : Block) ∈ T ∧ a = p * pageSize ∧ n = k * pageSize) ∨
    ∃ l, IsChunk T l a ∧ n = size l

/-- The lists that the memory stands for. `pages l` are the pages of class `l` with free chunks and
`free p` the free chunks of page `p`. Thread `t` has `cache t l` and `spare t l` on its two lists, and
`moving t l` on the way between them and the pages. -/
structure Ghost (τ : Type u) where
  blocks : List Block
  owner : ℕ → Owner τ
  pages : ℕ → List ℕ
  free : ℕ → List ℕ
  cache : τ → ℕ → List ℕ
  spare : τ → ℕ → List ℕ
  moving : τ → ℕ → List ℕ

/-- The chunk that `free` still has to put on a list after the flush. -/
def Caller.hand : Caller → List ℕ
  | .free old => [old]
  | .fini => []

/-- The lists of a thread in a class that it is not working on. -/
def Resting (next : ℕ → ℕ) (f : LocalFree) (cache spare moving : List ℕ) : Prop :=
  Chain next 0 f.free cache ∧ Chain next 0 f.aux spare ∧ moving = []

/-- The lists that stay with the thread during a flush. `shm_fini` clears its pointers after it. -/
def Kept (next : ℕ → ℕ) (f : LocalFree) (cache spare : List ℕ) : Caller → Prop
  | .free _ => Chain next 0 f.free cache ∧ f.aux = 0 ∧ spare = []
  | .fini => cache = [] ∧ spare = []

/-- The lists of a thread during a refill of `want` more chunks. -/
def Refilling (next : ℕ → ℕ) (f : LocalFree) (cache spare moving : List ℕ) (want fl : ℕ) : Prop :=
  f.free = 0 ∧ f.aux = 0 ∧ cache = [] ∧ spare = [] ∧ Chain next 0 fl moving ∧
    moving.length + want = f.target ∧ 0 < f.target

/-- The lists of a thread during a flush of the lists from `cp` and `cp2`. -/
def Flushing (next : ℕ → ℕ) (f : LocalFree) (cache spare moving : List ℕ) (cp cp2 : ℕ) (k : Caller) :
    Prop :=
  Kept next f cache spare k ∧
    ∃ first second, Chain next 0 cp first ∧ Chain next 0 cp2 second ∧
      moving = k.hand ++ (first ++ second)

/-- What the lists of a thread in class `l` are at each point. -/
def Local (next : ℕ → ℕ) (l : ℕ) (f : LocalFree) (cache spare moving : List ℕ) : Pc → Prop
  | .idle => Resting next f cache spare moving
  | .fini _ => Resting next f cache spare moving
  | .lockRefill k =>
      if k = l then Refilling next f cache spare moving f.target 0
      else Resting next f cache spare moving
  | .refill k want fl =>
      if k = l then Refilling next f cache spare moving want fl else Resting next f cache spare moving
  | .fresh k want fl _ =>
      if k = l then Refilling next f cache spare moving want fl else Resting next f cache spare moving
  | .lockFlush k cp cp2 c =>
      if k = l then Flushing next f cache spare moving cp cp2 c else Resting next f cache spare moving
  | .flush k cp cp2 c =>
      if k = l then Flushing next f cache spare moving cp cp2 c ∧ (cp = 0 → cp2 = 0)
      else Resting next f cache spare moving
  | .release k c =>
      if k = l then Kept next f cache spare c ∧ moving = c.hand else Resting next f cache spare moving
  | .freePage k _ c =>
      if k = l then Kept next f cache spare c ∧ moving = c.hand else Resting next f cache spare moving

/-- The class that a thread is working on. -/
def Pc.cls : Pc → Option ℕ
  | .idle => none
  | .fini _ => none
  | .lockRefill l => some l
  | .refill l _ _ => some l
  | .fresh l _ _ _ => some l
  | .lockFlush l _ _ _ => some l
  | .flush l _ _ _ => some l
  | .release l _ => some l
  | .freePage l _ _ => some l

def Pc.holds : Pc → Option ℕ
  | .idle => none
  | .fini _ => none
  | .lockRefill _ => none
  | .refill l _ _ => some l
  | .fresh l _ _ _ => some l
  | .lockFlush _ _ _ _ => none
  | .flush l _ _ _ => some l
  | .release l _ => some l
  | .freePage l _ _ => some l

def Pc.flushes : Pc → Option ℕ
  | .flush l _ _ _ => some l
  | .release l _ => some l
  | .freePage l _ _ => some l
  | _ => none

def Pc.releases : Pc → Option ℕ
  | .release l _ => some l
  | .freePage l _ _ => some l
  | _ => none

def Pc.takes : Pc → Option ℕ
  | .refill l (_ + 1) _ => some l
  | _ => none

/-- The page that a thread has between `valloc` or `free` and the pages of a class. -/
def Pc.page : Pc → Option ℕ
  | .fresh _ _ _ pn => some pn
  | .freePage _ pn _ => some pn
  | _ => none

/-- The class that a thread is flushing, and for whom. -/
def Pc.behalf : Pc → Option (ℕ × Caller)
  | .lockFlush l _ _ k => some (l, k)
  | .flush l _ _ k => some (l, k)
  | .release l k => some (l, k)
  | .freePage l _ k => some (l, k)
  | _ => none

/-- What `count` and `target` say about the lengths `n` and `m` of the two lists: a relation that the
steps of `malloc_small`, `free` and `shm_fini` keep. -/
structure Tally where
  holds : (count target n m : ℕ) → Prop
  start : holds 0 0 0 0
  first : ∀ {c l : ℕ}, l < numSmall → holds c 0 0 0 → holds c (target l) 0 0
  refill : ∀ {c t : ℕ}, 0 < t → holds c t 0 0 → holds t t t 0
  swap : ∀ {c t m : ℕ}, 0 < m → holds c t 0 m → holds t t m 0
  pop : ∀ {c t n m : ℕ}, holds c t (n + 1) m → holds ((c + (2 ^ 16 - 1)) % 2 ^ 16) t n m
  push : ∀ {c t n m : ℕ}, c ≠ t → holds c t n m → holds ((c + 1) % 2 ^ 16) t (n + 1) m
  drop : ∀ {c t n m : ℕ}, holds c t n m → holds c t n 0
  rotate : ∀ {t n : ℕ}, holds t t n 0 → holds (1 % 2 ^ 16) t 1 n
  clear : ∀ {c t n m : ℕ}, holds c t n m → holds 0 t 0 0

/-- The counters agree with the lengths `n` and `m`. `shm_fini` clears them only after its flush, and a
flush for `free` goes on with the first list full. -/
structure Counted (Q : Tally) (l : ℕ) (f : LocalFree) (n m : ℕ) (pc : Pc) : Prop where
  once : ∃ n' m', Q.holds f.count f.target n' m'
  tally : pc.behalf ≠ some (l, .fini) → Q.holds f.count f.target n m
  full : ∀ old, pc.behalf = some (l, .free old) → f.count = f.target

variable {τ : Type u}

/-- The chunks of class `l` that thread `t` has are on its lists. -/
structure Holding (Q : Tally) (s : State τ) (g : Ghost τ) (l : ℕ) (t : τ) : Prop where
  counted : Counted Q l (s.lists t l) (g.cache t l).length (g.spare t l).length (s.pc t)
  lists : Local s.shared.next l (s.lists t l) (g.cache t l) (g.spare t l) (g.moving t l) (s.pc t)
  nodup : (g.cache t l ++ (g.spare t l ++ g.moving t l)).Nodup
  mine : ∀ a, a ∈ g.cache t l ++ (g.spare t l ++ g.moving t l) ↔
    IsChunk g.blocks l a ∧ g.owner a = .thread t

/-- The pages of class `l`. A page of free chunks only is there for a moment: marked with the count -1
during a flush, or just made during a refill. -/
structure Shelves (s : State τ) (g : Ghost τ) (l : ℕ) : Prop where
  shelf : Shelf s.shared l (g.pages l) g.free
  block : ∀ p ∈ g.pages l, (⟨p, 1, .small l⟩ : Block) ∈ g.blocks
  absent : ∀ p, (⟨p, 1, .small l⟩ : Block) ∈ g.blocks → p ∉ g.pages l →
    (s.shared.heap.desc p).count = 0 ∧ g.free p = []
  onPage : ∀ a, IsChunk g.blocks l a → (a ∈ g.free (a / pageSize) ↔ g.owner a = .page)
  marked : ∀ p ∈ g.pages l, (s.shared.heap.desc p).count = -1 → ∃ t, (s.pc t).flushes = some l
  full : ∀ p ∈ g.pages l, (g.free p).length = perPage l → (s.shared.heap.desc p).count = -1 ∨
    g.pages l = [p] ∧ ∃ t, (s.pc t).takes = some l
  sorted : ∀ t, (s.pc t).releases = some l →
    (g.pages l).Pairwise fun p q => (s.shared.heap.desc p).count ≤ (s.shared.heap.desc q).count

structure ClassInv (Q : Tally) (s : State τ) (g : Ghost τ) (l : ℕ) : Prop where
  shelves : Shelves s g l
  holding : ∀ t, Holding Q s g l t
  lock : ∀ t, s.lock l = some t ↔ (s.pc t).holds = some l

/-- The extent that a thread has between `valloc` or `free` and the pages of a class. -/
def Page1 (s : State τ) (g : Ghost τ) (t : τ) : Prop :=
  match s.pc t with
  | .fresh l want _ pn => g.pages l = [] ∧ 0 < want ∧ g.owner (pn * pageSize) = .thread t ∧
      ∃ e, (⟨pn, 1, .used e⟩ : Block) ∈ g.blocks
  | .freePage _ pn _ => g.owner (pn * pageSize) = .thread t ∧
      (⟨pn, 1, .used (pn + 1)⟩ : Block) ∈ g.blocks
  | _ => True

structure SysInv (Q : Tally) (s : State τ) (g : Ghost τ) : Prop where
  heap : HeapOk s.shared.heap g.blocks
  classes : ∀ l, l < numSmall → ClassInv Q s g l
  inClass : ∀ t l, (s.pc t).cls = some l → l < numSmall
  pages : ∀ t, Page1 s g t
  live : ∀ a n, (a, n) ∈ s.live ↔ Piece g.blocks a n ∧ g.owner a = .program
  nodup : (s.live.map Prod.fst).Nodup
  used : ∀ p n e, (⟨p, n, .used e⟩ : Block) ∈ g.blocks →
    g.owner (p * pageSize) = .program ∨ ∃ t, (s.pc t).page = some p
  stray : ∀ fl ∈ s.lost, ∃ c, Chain s.shared.next 0 fl c ∧
    ∀ b ∈ c, ∃ l, IsChunk g.blocks l b ∧ g.owner b = .lost
  lost : ∀ l a, IsChunk g.blocks l a → g.owner a = .lost → ∃ fl ∈ s.lost, ∃ c,
    Chain s.shared.next 0 fl c ∧ a ∈ c ∧ ∀ b ∈ c, IsChunk g.blocks l b ∧ g.owner b = .lost

/-! ### Pieces -/

theorem page_of (q : ℕ) : q * pageSize / pageSize = q := Nat.mul_div_cancel _ (by decide)

section Pieces

variable {T T' : List Block} {l k p a b m n top : ℕ}

theorem not_chunk_of_used {e : ℕ} (tiling : Tiling 0 T top) (block : (⟨p, k, .used e⟩ : Block) ∈ T)
    (here : a / pageSize = p) (l : ℕ) : ¬ IsChunk T l a := by
  intro chunk
  have same := tiling.eq_of_start chunk.1 block here
  simp at same

theorem isChunk_iff : IsChunk T l a ↔ ∃ p, (⟨p, 1, .small l⟩ : Block) ∈ T ∧ ChunkOf l p a := by
  constructor
  · rintro ⟨block, aligned⟩
    exact ⟨a / pageSize, block, rfl, aligned⟩
  · rintro ⟨p, block, rfl, aligned⟩
    exact ⟨block, aligned⟩

theorem IsChunk.congr (same : ∀ p, (⟨p, 1, .small l⟩ : Block) ∈ T' ↔ (⟨p, 1, .small l⟩ : Block) ∈ T) :
    IsChunk T' l a ↔ IsChunk T l a := by
  simp only [IsChunk, same]

theorem IsChunk.class_eq (tiling : Tiling 0 T top) (chunk : IsChunk T l a) (chunk' : IsChunk T k a) :
    l = k := by
  have same := tiling.eq_of_start chunk.1 chunk'.1 rfl
  simpa using same

theorem Inv.small_lt {h : Heap} (inv : Inv h T top) (block : (⟨p, 1, .small l⟩ : Block) ∈ T) :
    l < numSmall :=
  ((inv.described _ block).small rfl).2.1

theorem Piece.within {h : Heap} (inv : Inv h T top) (piece : Piece T a n) :
    ∃ x ∈ T, x.start * pageSize ≤ a ∧ a + n ≤ x.stop * pageSize ∧ 0 < n ∧
      ((∃ e, x.kind = .used e) ∧ a = x.start * pageSize ∧ n = x.len * pageSize ∨
        ∃ l, x.kind = .small l ∧ n = size l ∧ a % size l = 0) := by
  rcases piece with ⟨p, k, e, block, rfl, rfl⟩ | ⟨l, chunk, rfl⟩
  · refine ⟨_, block, le_rfl, ?_, ?_, Or.inl ⟨⟨e, rfl⟩, rfl, rfl⟩⟩
    · simp only [Tile.stop, Nat.add_mul, le_refl]
    · exact Nat.mul_pos (inv.len_pos block) (by decide)
  · have small := inv.small_lt chunk.1
    have whole : ChunkOf l (a / pageSize) a := ⟨rfl, chunk.2⟩
    refine ⟨_, chunk.1, whole.bounds.1, ?_, size_pos l, Or.inr ⟨l, rfl, rfl, chunk.2⟩⟩
    obtain ⟨i, below, place⟩ := List.mem_map.mp ((mem_allChunks small).mpr whole)
    have inside : (i + 1) * size l ≤ perPage l * size l :=
      Nat.mul_le_mul_right _ (List.mem_range.mp below)
    rw [perPage_mul_size small, Nat.succ_mul] at inside
    simp only [Tile.stop]
    rw [Nat.add_mul, Nat.one_mul]
    omega

theorem Piece.behind {h : Heap} (inv : Inv h T top) (piece : Piece T a n) : pageSize ≤ a := by
  obtain ⟨x, member, above, -, -, kind⟩ := piece.within inv
  have start : 1 ≤ x.start := by
    refine Nat.pos_of_ne_zero fun zero => ?_
    have same := inv.tiling.eq_of_start member inv.origin zero
    rcases kind with ⟨⟨e, used⟩, -⟩ | ⟨l, small, -⟩
    · rw [same] at used
      cases used
    · rw [same] at small
      cases small
  have := Nat.mul_le_mul_right pageSize start
  omega

theorem multiples_apart {s : ℕ} (first : a % s = 0) (second : b % s = 0) (less : a < b) :
    a + s ≤ b := by
  obtain ⟨i, rfl⟩ := Nat.dvd_of_mod_eq_zero first
  obtain ⟨j, rfl⟩ := Nat.dvd_of_mod_eq_zero second
  have order : i < j := Nat.lt_of_mul_lt_mul_left less
  calc s * i + s = s * (i + 1) := (Nat.mul_succ s i).symm
    _ ≤ s * j := Nat.mul_le_mul_left s order

theorem Piece.disjoint {h : Heap} (inv : Inv h T top) (first : Piece T a m) (second : Piece T b n)
    (other : a ≠ b) : a + m ≤ b ∨ b + n ≤ a := by
  obtain ⟨x, memberX, aboveX, belowX, -, kindX⟩ := first.within inv
  obtain ⟨y, memberY, aboveY, belowY, -, kindY⟩ := second.within inv
  by_cases same : x = y
  · subst same
    rcases kindX with ⟨⟨e, used⟩, atStart, -⟩ | ⟨l, small, rfl, aligned⟩
    · rcases kindY with ⟨-, atStart', -⟩ | ⟨l, small, -⟩
      · exact absurd (atStart.trans atStart'.symm) other
      · rw [used] at small
        cases small
    · rcases kindY with ⟨⟨e, used⟩, -⟩ | ⟨l', small', rfl, aligned'⟩
      · rw [used] at small
        cases small
      · rw [small] at small'
        cases small'
        rcases Nat.lt_or_gt_of_ne other with less | greater
        · exact Or.inl (multiples_apart aligned aligned' less)
        · exact Or.inr (multiples_apart aligned' aligned greater)
  · rcases inv.tiling.disjoint memberX memberY same with before | after
    · have := Nat.mul_le_mul_right pageSize before
      omega
    · have := Nat.mul_le_mul_right pageSize after
      omega

theorem Piece.size_eq {h : Heap} (inv : Inv h T top) (first : Piece T a m) (second : Piece T a n) :
    m = n := by
  obtain ⟨x, memberX, aboveX, belowX, someX, kindX⟩ := first.within inv
  obtain ⟨y, memberY, aboveY, belowY, someY, kindY⟩ := second.within inv
  have same : x = y := by
    by_contra other
    rcases inv.tiling.disjoint memberX memberY other with before | after
    · have := Nat.mul_le_mul_right pageSize before
      omega
    · have := Nat.mul_le_mul_right pageSize after
      omega
  subst same
  rcases kindX with ⟨⟨e, used⟩, -, sizeX⟩ | ⟨l, small, sizeX, -⟩
  · rcases kindY with ⟨-, -, sizeY⟩ | ⟨l, small, -⟩
    · rw [sizeX, sizeY]
    · rw [used] at small
      cases small
  · rcases kindY with ⟨⟨e, used⟩, -⟩ | ⟨l', small', sizeY, -⟩
    · rw [used] at small
      cases small
    · rw [small] at small'
      cases small'
      rw [sizeX, sizeY]

end Pieces

/-! ### What a step leaves alone -/

section Frames

variable {next next' : ℕ → ℕ} {l : ℕ} {f : LocalFree} {cache spare moving : List ℕ} {pc : Pc}

theorem local_of_cls (other : pc.cls ≠ some l) :
    Local next l f cache spare moving pc ↔ Resting next f cache spare moving := by
  cases pc with
  | idle => exact Iff.rfl
  | fini k => exact Iff.rfl
  | lockRefill k => rw [Local, if_neg fun same => other (by rw [Pc.cls, same])]
  | refill k want fl => rw [Local, if_neg fun same => other (by rw [Pc.cls, same])]
  | fresh k want fl pn => rw [Local, if_neg fun same => other (by rw [Pc.cls, same])]
  | lockFlush k cp cp2 c => rw [Local, if_neg fun same => other (by rw [Pc.cls, same])]
  | flush k cp cp2 c => rw [Local, if_neg fun same => other (by rw [Pc.cls, same])]
  | release k c => rw [Local, if_neg fun same => other (by rw [Pc.cls, same])]
  | freePage k pn c => rw [Local, if_neg fun same => other (by rw [Pc.cls, same])]

theorem Resting.congr (resting : Resting next f cache spare moving)
    (same : ∀ a ∈ cache ++ (spare ++ moving), next' a = next a) :
    Resting next' f cache spare moving := by
  simp only [List.mem_append] at same
  exact ⟨resting.1.congr fun a member => same a (Or.inl member),
    resting.2.1.congr fun a member => same a (Or.inr (Or.inl member)), resting.2.2⟩

theorem Kept.congr {c : Caller} (kept : Kept next f cache spare c)
    (same : ∀ a ∈ cache ++ (spare ++ moving), next' a = next a) : Kept next' f cache spare c := by
  simp only [List.mem_append] at same
  cases c with
  | free old => exact ⟨kept.1.congr fun a member => same a (Or.inl member), kept.2⟩
  | fini => exact kept

theorem Refilling.congr {want fl : ℕ} (refilling : Refilling next f cache spare moving want fl)
    (same : ∀ a ∈ cache ++ (spare ++ moving), next' a = next a) :
    Refilling next' f cache spare moving want fl := by
  simp only [List.mem_append] at same
  obtain ⟨free, aux, noCache, noSpare, chain, counts⟩ := refilling
  exact ⟨free, aux, noCache, noSpare, chain.congr fun a member => same a (Or.inr (Or.inr member)),
    counts⟩

theorem Flushing.congr {cp cp2 : ℕ} {c : Caller}
    (flushing : Flushing next f cache spare moving cp cp2 c)
    (same : ∀ a ∈ cache ++ (spare ++ moving), next' a = next a) :
    Flushing next' f cache spare moving cp cp2 c := by
  obtain ⟨kept, first, second, chain, chain', parts⟩ := flushing
  have inside : ∀ a, a ∈ first ∨ a ∈ second → next' a = next a := by
    intro a member
    refine same a ?_
    simp only [parts, List.mem_append]
    tauto
  exact ⟨kept.congr same, first, second, chain.congr fun a member => inside a (Or.inl member),
    chain'.congr fun a member => inside a (Or.inr member), parts⟩

theorem Local.congr (is : Local next l f cache spare moving pc)
    (same : ∀ a ∈ cache ++ (spare ++ moving), next' a = next a) :
    Local next' l f cache spare moving pc := by
  by_cases here : pc.cls = some l
  · cases pc with
    | idle => cases here
    | fini k => cases here
    | lockRefill k =>
        cases here
        simp only [Local, if_true] at is ⊢
        exact is.congr same
    | refill k want fl =>
        cases here
        simp only [Local, if_true] at is ⊢
        exact is.congr same
    | fresh k want fl pn =>
        cases here
        simp only [Local, if_true] at is ⊢
        exact is.congr same
    | lockFlush k cp cp2 c =>
        cases here
        simp only [Local, if_true] at is ⊢
        exact is.congr same
    | flush k cp cp2 c =>
        cases here
        simp only [Local, if_true] at is ⊢
        exact ⟨is.1.congr same, is.2⟩
    | release k c =>
        cases here
        simp only [Local, if_true] at is ⊢
        exact ⟨is.1.congr same, is.2⟩
    | freePage k pn c =>
        cases here
        simp only [Local, if_true] at is ⊢
        exact ⟨is.1.congr same, is.2⟩
  · rw [local_of_cls here] at is ⊢
    exact is.congr same

end Frames

section Counted

variable {Q : Tally} {l n m : ℕ} {f : LocalFree} {pc pc' : Pc}

theorem Pc.cls_of_behalf {k : Caller} (behalf : pc.behalf = some (l, k)) : pc.cls = some l := by
  cases pc with
  | lockFlush l cp cp2 k => exact congrArg (Option.map Prod.fst) behalf
  | flush l cp cp2 k => exact congrArg (Option.map Prod.fst) behalf
  | release l k => exact congrArg (Option.map Prod.fst) behalf
  | freePage l pn k => exact congrArg (Option.map Prod.fst) behalf
  | _ => cases behalf

theorem Counted.of_tally (tally : Q.holds f.count f.target n m) (none : ∀ k, pc.behalf ≠ some (l, k)) :
    Counted Q l f n m pc :=
  ⟨⟨n, m, tally⟩, fun _ => tally, fun _ flushing => absurd flushing (none _)⟩

theorem Counted.congr (counted : Counted Q l f n m pc) (same : pc'.behalf = pc.behalf) :
    Counted Q l f n m pc' :=
  ⟨counted.once, fun out => counted.tally (same ▸ out), fun old flushing =>
    counted.full old (same ▸ flushing)⟩

theorem Counted.out (counted : Counted Q l f n m pc) (none : pc.behalf = none) :
    Q.holds f.count f.target n m := counted.tally (by simp [none])

end Counted

section Frame

variable {Q : Tally} {s s' : State τ} {g g' : Ghost τ} {l : ℕ} {t : τ}

theorem Holding.congr (holding : Holding Q s g l t) (pc : s'.pc t = s.pc t)
    (lists : s'.lists t l = s.lists t l) (cache : g'.cache t l = g.cache t l)
    (spare : g'.spare t l = g.spare t l) (moving : g'.moving t l = g.moving t l)
    (next : ∀ a, IsChunk g.blocks l a → g.owner a = .thread t → s'.shared.next a = s.shared.next a)
    (mine : ∀ a, IsChunk g'.blocks l a ∧ g'.owner a = .thread t ↔
      IsChunk g.blocks l a ∧ g.owner a = .thread t) : Holding Q s' g' l t := by
  refine ⟨?_, ?_, ?_, fun a => ?_⟩
  · rw [pc, lists, cache, spare]
    exact holding.counted
  · rw [pc, lists, cache, spare, moving]
    refine holding.lists.congr fun a member => ?_
    obtain ⟨chunk, owned⟩ := (holding.mine a).mp member
    exact next a chunk owned
  · rw [cache, spare, moving]
    exact holding.nodup
  · rw [cache, spare, moving, holding.mine, mine]

theorem Holding.congr_cls (holding : Holding Q s g l t) (before : (s.pc t).cls ≠ some l)
    (after : (s'.pc t).cls ≠ some l) (free : (s'.lists t l).free = (s.lists t l).free)
    (aux : (s'.lists t l).aux = (s.lists t l).aux)
    (tally : Q.holds (s'.lists t l).count (s'.lists t l).target (g.cache t l).length
      (g.spare t l).length)
    (cache : g'.cache t l = g.cache t l)
    (spare : g'.spare t l = g.spare t l) (moving : g'.moving t l = g.moving t l)
    (next : ∀ a, IsChunk g.blocks l a → g.owner a = .thread t → s'.shared.next a = s.shared.next a)
    (mine : ∀ a, IsChunk g'.blocks l a ∧ g'.owner a = .thread t ↔
      IsChunk g.blocks l a ∧ g.owner a = .thread t) : Holding Q s' g' l t := by
  refine ⟨?_, ?_, ?_, fun a => ?_⟩
  · rw [cache, spare]
    exact .of_tally tally fun k flushing => after (Pc.cls_of_behalf flushing)
  · have rests := (local_of_cls before).mp holding.lists
    rw [local_of_cls after, cache, spare, moving]
    have same : Resting s.shared.next (s'.lists t l) (g.cache t l) (g.spare t l) (g.moving t l) := by
      rw [Resting, free, aux]
      exact rests
    refine same.congr fun a member => ?_
    obtain ⟨chunk, owned⟩ := (holding.mine a).mp member
    exact next a chunk owned
  · rw [cache, spare, moving]
    exact holding.nodup
  · rw [cache, spare, moving, holding.mine, mine]

theorem Shelves.congr (shelves : Shelves s g l)
    (first : s'.shared.freechunks l = s.shared.freechunks l)
    (pages : g'.pages l = g.pages l)
    (blocks : ∀ p, (⟨p, 1, .small l⟩ : Block) ∈ g'.blocks ↔ (⟨p, 1, .small l⟩ : Block) ∈ g.blocks)
    (desc : ∀ p, (⟨p, 1, .small l⟩ : Block) ∈ g.blocks →
      s'.shared.heap.desc p = s.shared.heap.desc p)
    (free : ∀ p, (⟨p, 1, .small l⟩ : Block) ∈ g.blocks → g'.free p = g.free p)
    (owner : ∀ a, IsChunk g.blocks l a → (g'.owner a = .page ↔ g.owner a = .page))
    (next : ∀ a, IsChunk g.blocks l a → g.owner a = .page → s'.shared.next a = s.shared.next a)
    (marked : (∃ p ∈ g.pages l, (s.shared.heap.desc p).count = -1) →
      (∃ t, (s.pc t).flushes = some l) → ∃ t, (s'.pc t).flushes = some l)
    (full : (∃ p ∈ g.pages l, (g.free p).length = perPage l ∧ g.pages l = [p]) →
      (∃ t, (s.pc t).takes = some l) → ∃ t, (s'.pc t).takes = some l)
    (sorted : (∃ t, (s'.pc t).releases = some l) → ∃ t, (s.pc t).releases = some l) :
    Shelves s' g' l := by
  have page : ∀ a, ∀ p ∈ g.pages l, a ∈ g.free p → IsChunk g.blocks l a ∧ g.owner a = .page := by
    intro a p member inside
    have chunk := (shelves.shelf.shelved p member).inside a inside
    have isChunk : IsChunk g.blocks l a := isChunk_iff.mpr ⟨p, shelves.block p member, chunk⟩
    exact ⟨isChunk, (shelves.onPage a isChunk).mp (by rw [chunk.1]; exact inside)⟩
  refine ⟨?_, ?_, ?_, ?_, ?_, ?_, ?_⟩
  · rw [pages]
    refine shelves.shelf.congr first (fun p member => desc p (shelves.block p member)) ?_
      (fun p member => free p (shelves.block p member))
    intro p member a inside
    obtain ⟨chunk, owned⟩ := page a p member inside
    exact next a chunk owned
  · rw [pages]
    exact fun p member => (blocks p).mpr (shelves.block p member)
  · intro p block
    rw [pages, desc p ((blocks p).mp block), free p ((blocks p).mp block)]
    exact shelves.absent p ((blocks p).mp block)
  · intro a chunk
    have chunk' := (IsChunk.congr blocks).mp chunk
    rw [free _ chunk'.1, owner a chunk']
    exact shelves.onPage a chunk'
  · rw [pages]
    intro p member count
    rw [desc p (shelves.block p member)] at count
    exact marked ⟨p, member, count⟩ (shelves.marked p member count)
  · rw [pages]
    intro p member length
    rw [free p (shelves.block p member)] at length
    rw [desc p (shelves.block p member)]
    rcases shelves.full p member length with count | ⟨only, taking⟩
    · exact Or.inl count
    · exact Or.inr ⟨only, full ⟨p, member, length, only⟩ taking⟩
  · intro t releasing
    obtain ⟨t', releasing'⟩ := sorted ⟨t, releasing⟩
    rw [pages]
    refine (shelves.sorted t' releasing').imp_of_mem fun {p q} memberP memberQ le => ?_
    rw [desc p (shelves.block p memberP), desc q (shelves.block q memberQ)]
    exact le

end Frame

namespace Pc

variable {pc : Pc} {l : ℕ}

theorem cls_of_holds (holds : pc.holds = some l) : pc.cls = some l := by
  cases pc with
  | idle => cases holds
  | fini k => cases holds
  | lockRefill k => cases holds
  | lockFlush k cp cp2 c => cases holds
  | refill k want fl => exact holds
  | fresh k want fl pn => exact holds
  | flush k cp cp2 c => exact holds
  | release k c => exact holds
  | freePage k pn c => exact holds

theorem holds_of_flushes (flushes : pc.flushes = some l) : pc.holds = some l := by
  cases pc with
  | flush k cp cp2 c => exact flushes
  | release k c => exact flushes
  | freePage k pn c => exact flushes
  | _ => cases flushes

theorem flushes_of_releases (releases : pc.releases = some l) : pc.flushes = some l := by
  cases pc with
  | release k c => exact releases
  | freePage k pn c => exact releases
  | _ => cases releases

theorem holds_of_takes (takes : pc.takes = some l) : pc.holds = some l := by
  cases pc with
  | refill k want fl =>
      cases want with
      | zero => cases takes
      | succ want => exact takes
  | _ => cases takes

end Pc

/-- What a step of thread `t` on another class leaves alone in class `k`. -/
structure Elsewhere (s s' : State τ) (g g' : Ghost τ) (t : τ) (k : ℕ) : Prop where
  before : (s.pc t).cls ≠ some k
  after : (s'.pc t).cls ≠ some k
  pc : ∀ u, u ≠ t → s'.pc u = s.pc u
  lists : ∀ u, s'.lists u k = s.lists u k
  lock : s'.lock k = s.lock k
  first : s'.shared.freechunks k = s.shared.freechunks k
  pages : g'.pages k = g.pages k
  blocks : ∀ p, (⟨p, 1, .small k⟩ : Block) ∈ g'.blocks ↔ (⟨p, 1, .small k⟩ : Block) ∈ g.blocks
  desc : ∀ p, (⟨p, 1, .small k⟩ : Block) ∈ g.blocks → s'.shared.heap.desc p = s.shared.heap.desc p
  free : ∀ p, (⟨p, 1, .small k⟩ : Block) ∈ g.blocks → g'.free p = g.free p
  owner : ∀ a, IsChunk g.blocks k a → g'.owner a = g.owner a
  next : ∀ a, IsChunk g.blocks k a → s'.shared.next a = s.shared.next a
  ghost : ∀ u, g'.cache u k = g.cache u k ∧ g'.spare u k = g.spare u k ∧ g'.moving u k = g.moving u k

theorem ClassInv.elsewhere {Q : Tally} {s s' : State τ} {g g' : Ghost τ} {t : τ} {k : ℕ}
    (inv : ClassInv Q s g k) (frame : Elsewhere s s' g g' t k) : ClassInv Q s' g' k := by
  -- a thread that works on the class is not `t`
  have same : ∀ u, (s.pc u).cls = some k → s'.pc u = s.pc u := fun u here =>
    frame.pc u fun isT => frame.before (isT ▸ here)
  have same' : ∀ u, (s'.pc u).cls = some k → s'.pc u = s.pc u := fun u here =>
    frame.pc u fun isT => frame.after (isT ▸ here)
  have mine : ∀ u a, IsChunk g'.blocks k a ∧ g'.owner a = .thread u ↔
      IsChunk g.blocks k a ∧ g.owner a = .thread u := by
    intro u a
    rw [IsChunk.congr frame.blocks]
    refine and_congr_right fun chunk => ?_
    rw [frame.owner a chunk]
  refine ⟨?_, fun u => ?_, fun u => ?_⟩
  · refine inv.shelves.congr frame.first frame.pages frame.blocks frame.desc frame.free
      (fun a chunk => by rw [frame.owner a chunk]) (fun a chunk _ => frame.next a chunk) ?_ ?_ ?_
    · rintro - ⟨u, flushing⟩
      exact ⟨u, by rw [same u (Pc.cls_of_holds (Pc.holds_of_flushes flushing)), flushing]⟩
    · rintro - ⟨u, taking⟩
      exact ⟨u, by rw [same u (Pc.cls_of_holds (Pc.holds_of_takes taking)), taking]⟩
    · rintro ⟨u, releasing⟩
      have here := Pc.cls_of_holds (Pc.holds_of_flushes (Pc.flushes_of_releases releasing))
      exact ⟨u, by rw [← same' u here, releasing]⟩
  · obtain ⟨cache, spare, moving⟩ := frame.ghost u
    by_cases isT : u = t
    · subst isT
      refine (inv.holding u).congr_cls frame.before frame.after (by rw [frame.lists u])
        (by rw [frame.lists u]) ?_ cache spare moving (fun a chunk _ => frame.next a chunk) (mine u)
      rw [frame.lists u]
      exact (inv.holding u).counted.tally fun flushing => frame.before (Pc.cls_of_behalf flushing)
    · exact (inv.holding u).congr (frame.pc u isT) (frame.lists u) cache spare moving
        (fun a chunk _ => frame.next a chunk) (mine u)
  · rw [frame.lock, inv.lock]
    constructor
    · intro holds
      rw [same u (Pc.cls_of_holds holds), holds]
    · intro holds
      rw [← same' u (Pc.cls_of_holds holds), holds]

end Elcrq.Malloc
