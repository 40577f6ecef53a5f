import Elcrq.Malloc.SizeClass
import Elcrq.Store.Slots

/-! # The list of lists of free extents

`malloc.c` keeps the free extents in a list of lists: one list for each size, in
ascending order, and in each the extents of that size by address. An extent is
named by its first page, which holds its `struct freepage`. `parent` is the address
of the pointer that leads to it: `membase->freepages`, or the `bigger` or `next`
field of another extent. Zero is the null pointer; page 0 is never free.

The walks of `fp_add` and `fp_find` take fuel. It is no part of the source: the
lists have no more members than the heap has pages, and `Lists.fpAdd` and
`Lists.fpFind` show that this is enough. -/

set_option autoImplicit false

namespace Elcrq.Malloc

open Elcrq.Store

/-- Where a pointer to a `struct freepage` is kept. -/
inductive Slot
  | freepages
  | bigger (n : ℕ)
  | next (n : ℕ)
  deriving DecidableEq, Repr

/-- `membase->freepages` and the `struct freepage` of every page. -/
structure FreeLists where
  link : Slot → ℕ
  parent : ℕ → Slot
  size : ℕ → ℕ

namespace FreeLists

def setLink (f : FreeLists) (t : Slot) (v : ℕ) : FreeLists :=
  { f with link := Function.update f.link t v }

def setParent (f : FreeLists) (p : ℕ) (t : Slot) : FreeLists :=
  { f with parent := Function.update f.parent p t }

def setSize (f : FreeLists) (p n : ℕ) : FreeLists :=
  { f with size := Function.update f.size p n }

variable (f : FreeLists) (p n v : ℕ) (t : Slot)

@[simp] theorem setLink_link : (f.setLink t v).link = Function.update f.link t v := rfl
@[simp] theorem setLink_parent : (f.setLink t v).parent = f.parent := rfl
@[simp] theorem setLink_size : (f.setLink t v).size = f.size := rfl
@[simp] theorem setParent_link : (f.setParent p t).link = f.link := rfl
@[simp] theorem setParent_parent : (f.setParent p t).parent = Function.update f.parent p t := rfl
@[simp] theorem setParent_size : (f.setParent p t).size = f.size := rfl
@[simp] theorem setSize_link : (f.setSize p n).link = f.link := rfl
@[simp] theorem setSize_parent : (f.setSize p n).parent = f.parent := rfl
@[simp] theorem setSize_size : (f.setSize p n).size = Function.update f.size p n := rfl

end FreeLists

def fpRemove (f : FreeLists) (p : ℕ) : FreeLists :=
  if f.link (.next p) ≠ 0 then
    let f := f.setLink (f.parent p) (f.link (.next p))
    let f := f.setParent (f.link (.next p)) (f.parent p)
    let f := f.setLink (.bigger (f.link (.next p))) (f.link (.bigger p))
    if f.link (.bigger (f.link (.next p))) ≠ 0 then
      f.setParent (f.link (.bigger p)) (.bigger (f.link (.next p)))
    else f
  else
    let f := f.setLink (f.parent p) (f.link (.bigger p))
    if f.link (f.parent p) ≠ 0 then f.setParent (f.link (.bigger p)) (f.parent p) else f

/-- `while (*t && (*t)->size < p->size) t = &(*t)->bigger;` -/
def skipSmaller (f : FreeLists) (size : ℕ) : ℕ → Slot → Option Slot
  | 0, _ => none
  | fuel + 1, t =>
      if f.link t ≠ 0 ∧ f.size (f.link t) < size then
        skipSmaller f size fuel (.bigger (f.link t))
      else some t

/-- `while (*t && (U)*t < (U)p) t = &(*t)->next;` -/
def skipLower (f : FreeLists) (p : ℕ) : ℕ → Slot → Option Slot
  | 0, _ => none
  | fuel + 1, t =>
      if f.link t ≠ 0 ∧ f.link t < p then skipLower f p fuel (.next (f.link t))
      else some t

/-- The body of `fp_add` for an extent whose size has a list already: `t` is its place there. -/
def fpAddSame (f : FreeLists) (p : ℕ) (t : Slot) : FreeLists :=
  let f := f.setLink (.next p) (f.link t)
  if f.link (.next p) ≠ 0 then
    let f := f.setLink (.bigger p) (f.link (.bigger (f.link (.next p))))
    let f :=
      if f.link (.bigger p) ≠ 0 then
        let f := f.setParent (f.link (.bigger p)) (.bigger p)
        f.setLink (.bigger (f.link (.next p))) 0
      else f
    f.setParent (f.link (.next p)) (.next p)
  else f.setLink (.bigger p) 0

/-- The body of `fp_add` for an extent that starts a list. -/
def fpAddNew (f : FreeLists) (p : ℕ) (t : Slot) : FreeLists :=
  let f := f.setLink (.next p) 0
  let f := f.setLink (.bigger p) (f.link t)
  if f.link (.bigger p) ≠ 0 then f.setParent (f.link (.bigger p)) (.bigger p) else f

/-- `*t = p; p->parent = t;` -/
def attach (f : FreeLists) (p : ℕ) (t : Slot) : FreeLists := (f.setLink t p).setParent p t

def fpAdd (fuel : ℕ) (f : FreeLists) (p : ℕ) : Option FreeLists := do
  let t ← skipSmaller f (f.size p) fuel .freepages
  if f.link t ≠ 0 ∧ f.size (f.link t) = f.size p then
    let t ← skipLower f p fuel t
    some (attach (fpAddSame f p t) p t)
  else some (attach (fpAddNew f p t) p t)

/-- `for (t=membase->freepages; t && t->size < (int)size; t = t->bigger);` -/
def findLoop (f : FreeLists) (size : ℤ) : ℕ → ℕ → Option ℕ
  | 0, _ => none
  | fuel + 1, t =>
      if t ≠ 0 ∧ (f.size t : ℤ) < size then findLoop f size fuel (f.link (.bigger t))
      else some t

/-- The extent found is zero if there is none. -/
def fpFind (fuel : ℕ) (f : FreeLists) (size : ℤ) : Option (ℕ × FreeLists) := do
  let t ← findLoop f size fuel (f.link .freepages)
  if t ≠ 0 then some (t, fpRemove f t) else some (t, f)

/-- The extents of one size. -/
structure Group where
  size : ℕ
  head : ℕ
  rest : List ℕ
  deriving DecidableEq, Repr

def Group.pages (g : Group) : List ℕ := g.head :: g.rest

/-- `f` holds the lists `gs`; this is what `fp_verify` looks for, page descriptors apart. -/
structure Lists (f : FreeLists) (gs : List Group) : Prop where
  heads : Ended f.link f.parent .bigger 0 .freepages (gs.map Group.head)
  rests : ∀ g ∈ gs, Ended f.link f.parent .next 0 (.next g.head) g.rest
  sizes : ∀ g ∈ gs, ∀ x ∈ g.pages, f.size x = g.size
  flat : ∀ g ∈ gs, ∀ x ∈ g.rest, f.link (.bigger x) = 0
  ascending : gs.Pairwise fun g g' => g.size < g'.size
  sorted : ∀ g ∈ gs, g.pages.Pairwise (· < ·)

/-- The extents of all lists, with their sizes, in the order of the walk. -/
def extents (gs : List Group) : List (ℕ × ℕ) := gs.flatMap fun g => g.pages.map fun x => (g.size, x)

theorem mem_extents {gs : List Group} {n x : ℕ} :
    (n, x) ∈ extents gs ↔ ∃ g ∈ gs, g.size = n ∧ x ∈ g.pages := by
  simp only [extents, List.mem_flatMap, List.mem_map, Prod.mk.injEq]
  constructor
  · rintro ⟨g, member, y, inside, rfl, rfl⟩
    exact ⟨g, member, rfl, inside⟩
  · rintro ⟨g, member, rfl, inside⟩
    exact ⟨g, member, x, inside, rfl, rfl⟩

theorem extents_append (gs gs' : List Group) : extents (gs ++ gs') = extents gs ++ extents gs' :=
  List.flatMap_append

theorem mem_extents_singleton {g : Group} {n x : ℕ} :
    (n, x) ∈ extents [g] ↔ n = g.size ∧ x ∈ g.pages := by
  rw [mem_extents]
  simp [eq_comm]

theorem extents_length (gs : List Group) :
    gs.length ≤ (extents gs).length ∧ ∀ g ∈ gs, g.pages.length ≤ (extents gs).length := by
  induction gs with
  | nil => simp
  | cons g gs ih =>
      have here : (extents (g :: gs)).length = g.pages.length + (extents gs).length := by
        simp [extents]
      have some : 0 < g.pages.length := by simp [Group.pages]
      refine ⟨by simp only [here, List.length_cons]; omega, ?_⟩
      intro g' member
      rcases List.mem_cons.mp member with rfl | later
      · omega
      · have := ih.2 g' later
        omega

namespace Lists

variable {f : FreeLists} {gs gs₁ gs₂ : List Group} {g g' : Group} {x : ℕ}

theorem unique (lists : Lists f gs) (member : g ∈ gs) (member' : g' ∈ gs) (inside : x ∈ g.pages)
    (inside' : x ∈ g'.pages) : g = g' := by
  have same : g.size = g'.size :=
    (lists.sizes g member x inside).symm.trans (lists.sizes g' member' x inside')
  have distinct : (gs.map Group.size).Nodup :=
    List.pairwise_map.mpr (lists.ascending.imp fun less => Nat.ne_of_lt less)
  exact List.inj_on_of_nodup_map distinct member member' same

theorem head_mem (g : Group) : g.head ∈ g.pages := List.mem_cons_self

theorem rest_mem (inside : x ∈ g.rest) : x ∈ g.pages := List.mem_cons_of_mem _ inside

theorem head_notMem_rest (lists : Lists f gs) (member : g ∈ gs) (member' : g' ∈ gs) :
    g.head ∉ g'.rest := by
  intro inside
  obtain rfl := lists.unique member member' (head_mem g) (rest_mem inside)
  exact Nat.lt_irrefl _ ((List.pairwise_cons.mp (lists.sorted g member)).1 _ inside)

theorem ne_zero (lists : Lists f gs) (member : g ∈ gs) (inside : x ∈ g.pages) : x ≠ 0 := by
  rcases List.mem_cons.mp inside with rfl | inRest
  · exact lists.heads.ne_nil (List.mem_map_of_mem member)
  · exact (lists.rests g member).ne_nil inRest

theorem groups_nodup (lists : Lists f gs) : gs.Nodup :=
  lists.ascending.imp fun less same => Nat.ne_of_lt less (congrArg Group.size same)

theorem heads_nodup (lists : Lists f gs) : (gs.map Group.head).Nodup := by
  refine List.Nodup.map_on ?_ lists.groups_nodup
  intro g member g' member' same
  exact lists.unique member member' (head_mem g) (same ▸ head_mem g')

theorem extents_nodup (lists : Lists f gs) : ((extents gs).map Prod.snd).Nodup := by
  have pages : (extents gs).map Prod.snd = gs.flatMap Group.pages := by
    simp [extents, List.map_flatMap, Function.comp_def]
  rw [pages, List.nodup_flatMap]
  refine ⟨fun g member => (lists.sorted g member).imp Nat.ne_of_lt, ?_⟩
  refine lists.groups_nodup.imp_of_mem fun {g g'} member member' other => ?_
  exact fun x inside inside' => other (lists.unique member member' inside inside')

theorem slot (lists : Lists f (gs₁ ++ gs₂)) :
    ∃ m, Path f.link f.parent .bigger 0 .freepages (gs₁.map Group.head) m ∧
      Ended f.link f.parent .bigger 0 m (gs₂.map Group.head) ∧
      (∀ n, m ≠ .next n) ∧ (∀ n, m = .bigger n → ∃ g ∈ gs₁, g.head = n) ∧
      m ∉ reads Slot.bigger .freepages (gs₁.map Group.head) := by
  have heads := lists.heads
  rw [List.map_append] at heads
  obtain ⟨m, path, ended⟩ := ended_append.mp heads
  have distinct : (gs₁.map Group.head).Nodup := by
    have all := lists.heads_nodup
    rw [List.map_append] at all
    exact (List.nodup_append.mp all).1
  refine ⟨m, path, ended, ?_, ?_, path.last_notMem_reads (fun a b same => by cases same; rfl)
    distinct fun a _ same => by cases same⟩
  · rintro n rfl
    rcases path.last with same | ⟨a, -, same⟩
    · cases same
    · cases same
  · rintro n rfl
    rcases path.last with same | ⟨a, member, same⟩
    · cases same
    · cases same
      obtain ⟨g, inside, rfl⟩ := List.mem_map.mp member
      exact ⟨g, inside, rfl⟩

theorem apart {old : List Group} (lists : Lists f (gs₁ ++ (old ++ gs₂))) (member : g ∈ old)
    (outside : g' ∈ gs₁ ∨ g' ∈ gs₂) (inside : x ∈ g.pages) : x ∉ g'.pages := by
  intro inside'
  have distinct := lists.groups_nodup
  have whole : g' ∈ gs₁ ++ (old ++ gs₂) := by
    simp only [List.mem_append]
    tauto
  obtain rfl := lists.unique (by simp [member]) whole inside inside'
  obtain ⟨-, later, first⟩ := List.nodup_append.mp distinct
  rcases outside with before | after
  · exact first g before g (List.mem_append_left _ member) rfl
  · exact (List.nodup_append.mp later).2.2 g member g after rfl

theorem slot_of (lists : Lists f (gs₁ ++ ([g] ++ gs₂))) :
    ∃ m, Path f.link f.parent .bigger 0 .freepages (gs₁.map Group.head) m ∧ f.parent g.head = m ∧
      Ended f.link f.parent .bigger 0 (.bigger g.head) (gs₂.map Group.head) ∧
      (∀ n, m ≠ .next n) ∧ (∀ x ∈ g.pages, m ≠ .bigger x) := by
  obtain ⟨m, before, ended, notNext, owner, -⟩ := lists.slot
  obtain ⟨-, -, back, after⟩ := ended
  refine ⟨m, before, back, after, notNext, fun x inside same => ?_⟩
  obtain ⟨g', member, rfl⟩ := owner _ same
  exact lists.apart (List.mem_singleton_self g) (Or.inl member) inside (head_mem g')

theorem inner_slot {front back : List ℕ} (lists : Lists f gs) (member : g ∈ gs)
    (parts : g.rest = front ++ back) :
    ∃ z, z ∈ g.head :: front ∧
      Path f.link f.parent .next 0 (.next g.head) front (.next z) ∧
      Ended f.link f.parent .next 0 (.next z) back ∧ z ∉ back ∧
      Slot.next z ∉ reads Slot.next (.next g.head) front := by
  have ended := lists.rests g member
  have distinct : g.pages.Nodup := (lists.sorted g member).imp Nat.ne_of_lt
  rw [Group.pages, parts, ← List.cons_append] at distinct
  rw [parts] at ended
  obtain ⟨m, path, rest⟩ := ended_append.mp ended
  obtain ⟨frontDistinct, -, apart⟩ := List.nodup_append.mp distinct
  have unread := path.last_notMem_reads (fun a b same => Slot.next.inj same)
    (List.nodup_cons.mp frontDistinct).2 fun a inside same => by
      obtain rfl := Slot.next.inj same
      exact (List.nodup_cons.mp frontDistinct).1 inside
  have owner : ∃ z, z ∈ g.head :: front ∧ m = .next z := by
    rcases path.last with first | ⟨a, inside, same⟩
    · exact ⟨g.head, List.mem_cons_self, first⟩
    · exact ⟨a, List.mem_cons_of_mem _ inside, same⟩
  obtain ⟨z, inside, rfl⟩ := owner
  exact ⟨z, inside, path, rest, fun inBack => apart z inside z inBack rfl, unread⟩

theorem rebuild {f' : FreeLists} {old mid : List Group} (lists : Lists f (gs₁ ++ (old ++ gs₂)))
    (heads : Ended f'.link f'.parent .bigger 0 .freepages ((gs₁ ++ (mid ++ gs₂)).map Group.head))
    (ascending : (gs₁ ++ (mid ++ gs₂)).Pairwise fun g g' => g.size < g'.size)
    (rests : ∀ g ∈ mid, Ended f'.link f'.parent .next 0 (.next g.head) g.rest)
    (sizes : ∀ g ∈ mid, ∀ x ∈ g.pages, f'.size x = g.size)
    (flat : ∀ g ∈ mid, ∀ x ∈ g.rest, f'.link (.bigger x) = 0)
    (sorted : ∀ g ∈ mid, g.pages.Pairwise (· < ·))
    (nexts : ∀ g, g ∈ gs₁ ∨ g ∈ gs₂ → ∀ x ∈ g.pages,
      f'.link (.next x) = f.link (.next x) ∧ f'.size x = f.size x)
    (others : ∀ g, g ∈ gs₁ ∨ g ∈ gs₂ → ∀ x ∈ g.rest,
      f'.parent x = f.parent x ∧ f'.link (.bigger x) = f.link (.bigger x)) :
    Lists f' (gs₁ ++ (mid ++ gs₂)) := by
  have split : ∀ {P : Group → Prop}, (∀ g ∈ mid, P g) → (∀ g, g ∈ gs₁ ∨ g ∈ gs₂ → P g) →
      ∀ g ∈ gs₁ ++ (mid ++ gs₂), P g := by
    intro P inMid outside g member
    rcases List.mem_append.mp member with first | later
    · exact outside g (Or.inl first)
    · rcases List.mem_append.mp later with here | last
      · exact inMid g here
      · exact outside g (Or.inr last)
  have old : ∀ g, g ∈ gs₁ ∨ g ∈ gs₂ → g ∈ gs₁ ++ (old ++ gs₂) := by
    rintro g (first | last)
    · exact List.mem_append_left _ first
    · exact List.mem_append_right _ (List.mem_append_right _ last)
  refine ⟨heads, split rests ?_, split sizes ?_, split flat ?_, ascending, split sorted ?_⟩
  · intro g outside
    refine (lists.rests g (old g outside)).congr (nexts g outside _ (head_mem g)).1 ?_ ?_
    · exact fun x inside => (nexts g outside x (rest_mem inside)).1
    · exact fun x inside => (others g outside x inside).1
  · intro g outside x inside
    rw [(nexts g outside x inside).2]
    exact lists.sizes g (old g outside) x inside
  · intro g outside x inside
    rw [(others g outside x inside).2]
    exact lists.flat g (old g outside) x inside
  · exact fun g outside => lists.sorted g (old g outside)

/-- Other lists in the place of `old`: the slot `m` before them and the first extent of the list
after them are all that changes outside. -/
theorem replace (w' : Slot) {f' : FreeLists} {old mid : List Group} {m w : Slot}
    (lists : Lists f (gs₁ ++ (old ++ gs₂)))
    (before : Path f.link f.parent .bigger 0 .freepages (gs₁.map Group.head) m)
    (after : Ended f.link f.parent .bigger 0 w (gs₂.map Group.head))
    (middle : Path f'.link f'.parent .bigger 0 m (mid.map Group.head) w')
    (holds : f'.link w' = f.link w) (back : f.link w ≠ 0 → f'.parent (f.link w) = w')
    (root : m ≠ .freepages → f'.link .freepages = f.link .freepages)
    (kept : ∀ g, g ∈ gs₁ ∨ g ∈ gs₂ → ∀ x ∈ g.pages,
      (m ≠ .bigger x → f'.link (.bigger x) = f.link (.bigger x)) ∧
      f'.link (.next x) = f.link (.next x) ∧ (x ≠ f.link w → f'.parent x = f.parent x) ∧
      f'.size x = f.size x)
    (ascending : (gs₁ ++ (mid ++ gs₂)).Pairwise fun g g' => g.size < g'.size)
    (rests : ∀ g ∈ mid, Ended f'.link f'.parent .next 0 (.next g.head) g.rest)
    (sizes : ∀ g ∈ mid, ∀ x ∈ g.pages, f'.size x = g.size)
    (flat : ∀ g ∈ mid, ∀ x ∈ g.rest, f'.link (.bigger x) = 0)
    (sorted : ∀ g ∈ mid, g.pages.Pairwise (· < ·)) : Lists f' (gs₁ ++ (mid ++ gs₂)) := by
  have whole : ∀ g, g ∈ gs₁ ∨ g ∈ gs₂ → g ∈ gs₁ ++ (old ++ gs₂) := by
    intro g outside
    simp only [List.mem_append]
    tauto
  have headsDistinct := lists.heads_nodup
  simp only [List.map_append] at headsDistinct
  obtain ⟨distinct₁, distinct', apart₁⟩ := List.nodup_append.mp headsDistinct
  have distinct₂ := (List.nodup_append.mp distinct').2.1
  have unread := before.last_notMem_reads (fun a b same => Slot.bigger.inj same) distinct₁
    fun a _ same => Slot.noConfusion same
  -- the extent after the change is the first of a list, so it is in no list's rest
  have later : ∀ x, x = f.link w → (∃ g ∈ gs₂, g.head = x) ∨ x = 0 := by
    rintro x rfl
    cases gs₂ with
    | nil => exact Or.inr after
    | cons g gs => exact Or.inl ⟨g, List.mem_cons_self, after.1.symm⟩
  have first : ∀ b, (gs₂.map Group.head).head? = some b → f.link w = b := by
    intro b isFirst
    cases gs₂ with
    | nil => cases isFirst
    | cons g gs =>
        cases isFirst
        exact after.1
  have headOf : ∀ {gs' : List Group} {n : ℕ}, n ∈ gs'.map Group.head → ∃ g ∈ gs', g.head = n :=
    fun member => List.mem_map.mp member
  refine lists.rebuild ?_ ascending rests sizes flat sorted ?_ ?_
  · simp only [List.map_append]
    refine ended_append.mpr ⟨m, before.congr ?_ ?_, ended_append.mpr ⟨w', middle, ?_⟩⟩
    · intro s read
      have other : m ≠ s := fun same => unread (same ▸ read)
      rcases mem_reads read with rfl | ⟨n, member, rfl⟩
      · exact root other
      · obtain ⟨g, inside, rfl⟩ := headOf member
        exact (kept g (Or.inl inside) _ (head_mem g)).1 other
    · intro n member
      obtain ⟨g, inside, rfl⟩ := headOf member
      refine (kept g (Or.inl inside) _ (head_mem g)).2.2.1 fun same => ?_
      rcases later _ same with ⟨g', inside', same'⟩ | zero
      · exact apart₁ _ member _ (List.mem_append_right _ (List.mem_map_of_mem inside')) same'.symm
      · exact before.ne_nil member zero
    · refine after.rehang holds ?_ ?_ ?_
      · intro b isFirst
        rw [← first b isFirst]
        refine back ?_
        rw [first b isFirst]
        exact after.ne_nil (List.mem_of_head? isFirst)
      · intro n member
        obtain ⟨g, inside, rfl⟩ := headOf member
        refine (kept g (Or.inr inside) _ (head_mem g)).1 fun same => ?_
        rcases before.last with root | ⟨n, member', same'⟩
        · cases same.symm.trans root
        · cases same.symm.trans same'
          exact apart₁ _ member' _ (List.mem_append_right _ member) rfl
      · intro n member
        obtain ⟨g, inside, rfl⟩ := headOf (List.mem_of_mem_tail member)
        refine (kept g (Or.inr inside) _ (head_mem g)).2.2.1 fun same => ?_
        cases gs₂ with
        | nil => cases member
        | cons g' gs =>
            rw [after.1] at same
            exact (List.nodup_cons.mp distinct₂).1 (same ▸ member)
  · exact fun g outside x inside => ⟨(kept g outside x inside).2.1, (kept g outside x inside).2.2.2⟩
  · intro g outside x inside
    obtain ⟨bigger, -, parents, -⟩ := kept g outside x (rest_mem inside)
    have notHead : ∀ g', g' ∈ gs₁ ∨ g' ∈ gs₂ → x ≠ g'.head := by
      rintro g' outside' rfl
      exact lists.head_notMem_rest (whole g' outside') (whole g outside) inside
    refine ⟨parents fun same => ?_, bigger fun same => ?_⟩
    · rcases later x same with ⟨g', inside', same'⟩ | zero
      · exact notHead g' (Or.inr inside') same'.symm
      · exact lists.ne_zero (whole g outside) (rest_mem inside) zero
    · rcases before.last with root | ⟨n, member, same'⟩
      · cases same.symm.trans root
      · obtain ⟨g', inside', rfl⟩ := headOf member
        exact notHead g' (Or.inl inside') (Slot.bigger.inj (same.symm.trans same'))

theorem inner {f' : FreeLists} {rest : List ℕ} (lists : Lists f (gs₁ ++ ([g] ++ gs₂)))
    (root : f'.link .freepages = f.link .freepages)
    (bigger : ∀ g' ∈ gs₁ ++ ([g] ++ gs₂), ∀ x ∈ g'.pages,
      f'.link (.bigger x) = f.link (.bigger x))
    (heads : ∀ g' ∈ gs₁ ++ ([g] ++ gs₂), f'.parent g'.head = f.parent g'.head)
    (kept : ∀ g', g' ∈ gs₁ ∨ g' ∈ gs₂ → ∀ x ∈ g'.pages, f'.link (.next x) = f.link (.next x) ∧
      f'.parent x = f.parent x ∧ f'.size x = f.size x)
    (ended : Ended f'.link f'.parent .next 0 (.next g.head) rest)
    (sizes : ∀ x ∈ g.head :: rest, f'.size x = g.size)
    (flat : ∀ x ∈ rest, f'.link (.bigger x) = 0)
    (sorted : (g.head :: rest).Pairwise (· < ·)) :
    Lists f' (gs₁ ++ ([{ g with rest := rest }] ++ gs₂)) := by
  have same : (gs₁ ++ ([{ g with rest := rest }] ++ gs₂)).map Group.head =
      (gs₁ ++ ([g] ++ gs₂)).map Group.head := by simp
  have sameSizes : (gs₁ ++ ([{ g with rest := rest }] ++ gs₂)).map Group.size =
      (gs₁ ++ ([g] ++ gs₂)).map Group.size := by simp
  refine lists.rebuild ?_ ?_ ?_ ?_ ?_ ?_ ?_ ?_
  · rw [same]
    refine lists.heads.congr root ?_ ?_
    · intro n member
      obtain ⟨g', inside, rfl⟩ := List.mem_map.mp member
      exact bigger g' inside _ (head_mem g')
    · intro n member
      obtain ⟨g', inside, rfl⟩ := List.mem_map.mp member
      exact heads g' inside
  · have ascending := List.pairwise_map.mpr lists.ascending
    rw [← sameSizes] at ascending
    exact List.pairwise_map.mp ascending
  · exact fun g' member => List.mem_singleton.mp member ▸ ended
  · exact fun g' member => List.mem_singleton.mp member ▸ sizes
  · exact fun g' member => List.mem_singleton.mp member ▸ flat
  · exact fun g' member => List.mem_singleton.mp member ▸ sorted
  · exact fun g' outside x inside => ⟨(kept g' outside x inside).1, (kept g' outside x inside).2.2⟩
  · intro g' outside x inside
    refine ⟨(kept g' outside x (rest_mem inside)).2.1, bigger g' ?_ x (rest_mem inside)⟩
    simp only [List.mem_append]
    tauto

end Lists

end Elcrq.Malloc
