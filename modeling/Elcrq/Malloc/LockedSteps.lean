import Elcrq.Malloc.LocalSteps

/-! # Steps on the pages

A thread that has the lock of a class changes the pages of that class and the links of
the chunks that are free in them. `SharedStep` says what such a step leaves to the other
threads and classes; `valloc` and the `free` of an extent, which no class is involved in,
are steps of this kind as well. -/

set_option autoImplicit false

namespace Elcrq.Malloc

open Elcrq.Store

universe u

variable {τ : Type u}

/-- Neither free in its page nor in the hands of thread `t` or the program. -/
def Foreign (t : τ) (o : Owner τ) : Prop := o = .lost ∨ ∃ u, u ≠ t ∧ o = .thread u

/-- A step of thread `t` on the pages of the class whose lock it has, if it has one. -/
structure SharedStep (Q : Tally) (s s' : State τ) (g g' : Ghost τ) (t : τ) : Prop where
  heap : HeapOk s'.shared.heap g'.blocks
  pc : ∀ u, u ≠ t → s'.pc u = s.pc u
  cls : (s'.pc t).cls = (s.pc t).cls
  lists : s'.lists = s.lists
  lock : s'.lock = s.lock
  ghost : ∀ u k, u ≠ t ∨ (s.pc t).cls ≠ some k → g'.cache u k = g.cache u k ∧
    g'.spare u k = g.spare u k ∧ g'.moving u k = g.moving u k
  first : ∀ k, (s.pc t).cls ≠ some k → s'.shared.freechunks k = s.shared.freechunks k
  pages : ∀ k, (s.pc t).cls ≠ some k → g'.pages k = g.pages k
  blocks : ∀ k p, (s.pc t).cls ≠ some k →
    ((⟨p, 1, .small k⟩ : Block) ∈ g'.blocks ↔ (⟨p, 1, .small k⟩ : Block) ∈ g.blocks)
  desc : ∀ k p, (s.pc t).cls ≠ some k → (⟨p, 1, .small k⟩ : Block) ∈ g.blocks →
    s'.shared.heap.desc p = s.shared.heap.desc p ∧ g'.free p = g.free p
  kept : ∀ k a o, (s.pc t).cls ≠ some k ∨ Foreign t o →
    (IsChunk g'.blocks k a ∧ g'.owner a = o ↔ IsChunk g.blocks k a ∧ g.owner a = o)
  next : ∀ k a, IsChunk g.blocks k a → (s.pc t).cls ≠ some k ∨ Foreign t (g.owner a) →
    s'.shared.next a = s.shared.next a
  extents : ∀ p e u, u ≠ t → (⟨p, 1, .used e⟩ : Block) ∈ g.blocks →
    g.owner (p * pageSize) = .thread u →
    (⟨p, 1, .used e⟩ : Block) ∈ g'.blocks ∧ g'.owner (p * pageSize) = .thread u
  own : ∀ k, (s.pc t).cls = some k → (s.pc t).holds = some k ∧ (s'.pc t).holds = some k ∧
    Shelves s' g' k ∧ Holding Q s' g' k t
  page : Page1 s' g' t
  live : ∀ a n, (a, n) ∈ s'.live ↔ Piece g'.blocks a n ∧ g'.owner a = .program
  nodup : (s'.live.map Prod.fst).Nodup
  used : ∀ p n e, (⟨p, n, .used e⟩ : Block) ∈ g'.blocks →
    g'.owner (p * pageSize) = .program ∨ ∃ u, (s'.pc u).page = some p
  lost : s'.lost = s.lost

section SharedStep

variable {Q : Tally} {s s' : State τ} {g g' : Ghost τ} {t u : τ} {l : ℕ}

theorem ClassInv.only (inv : ClassInv Q s g l) (mine : (s.pc t).holds = some l)
    (theirs : (s.pc u).holds = some l) : u = t := by
  have locked := (inv.lock t).mpr mine
  rw [(inv.lock u).mpr theirs] at locked
  exact Option.some.inj locked

theorem SharedStep.classInv (step : SharedStep Q s s' g g' t) (inv : ClassInv Q s g l)
    (here : (s.pc t).cls = some l) : ClassInv Q s' g' l := by
  obtain ⟨holds, holds', shelves, holding⟩ := step.own l here
  refine ⟨shelves, fun u => ?_, fun u => ?_⟩
  · by_cases isT : u = t
    · subst isT
      exact holding
    · obtain ⟨cache, spare, moving⟩ := step.ghost u l (Or.inl isT)
      refine (inv.holding u).congr (step.pc u isT) (by rw [step.lists]) cache spare moving
        (fun a chunk owned => step.next l a chunk (Or.inr (Or.inr ⟨u, isT, owned⟩)))
        fun a => step.kept l a _ (Or.inr (Or.inr ⟨u, isT, rfl⟩))
  · rw [step.lock, inv.lock]
    by_cases isT : u = t
    · rw [isT, holds, holds']
    · rw [step.pc u isT]

/-- The pages of a class depend on who has its lock only in so far as that thread flushes or takes. -/
theorem SysInv.sharedStep (inv : SysInv Q s g) (g' : Ghost τ) (step : SharedStep Q s s' g g' t) :
    SysInv Q s' g' := by
  refine ⟨step.heap, fun k below => ?_, fun u k here => ?_, fun u => ?_, step.live, step.nodup,
    step.used, fun fl member => ?_, fun k a chunk owned => ?_⟩
  · by_cases here : (s.pc t).cls = some k
    · exact step.classInv (inv.classes k below) here
    · refine (inv.classes k below).elsewhere (t := t) ⟨here, by rw [step.cls]; exact here, step.pc,
        fun u => by rw [step.lists], by rw [step.lock], step.first k here, step.pages k here,
        fun p => step.blocks k p here, fun p block => (step.desc k p here block).1,
        fun p block => (step.desc k p here block).2, fun a chunk => ?_,
        fun a chunk => step.next k a chunk (Or.inl here), fun u => step.ghost u k (Or.inr here)⟩
      exact ((step.kept k a (g.owner a) (Or.inl here)).mpr ⟨chunk, rfl⟩).2
  · by_cases isT : u = t
    · rw [isT, step.cls] at here
      exact inv.inClass t k here
    · rw [step.pc u isT] at here
      exact inv.inClass u k here
  · by_cases isT : u = t
    · subst isT
      exact step.page
    · have old := inv.pages u
      simp only [Page1, step.pc u isT] at old ⊢
      cases pc : s.pc u with
      | fresh k want fl pn =>
          simp only [pc] at old ⊢
          obtain ⟨none, some, owned, e, block⟩ := old
          have holds : (s.pc u).holds = Option.some k := by rw [pc]; rfl
          have other : (s.pc t).cls ≠ Option.some k := fun here =>
            isT ((inv.classes k (inv.inClass t k here)).only (step.own k here).1 holds)
          obtain ⟨block', owned'⟩ := step.extents pn e u isT block owned
          exact ⟨(step.pages k other).trans none, some, owned', e, block'⟩
      | freePage k pn c =>
          simp only [pc] at old ⊢
          exact (step.extents pn _ u isT old.2 old.1).symm
      | _ => trivial
  · obtain ⟨c, chain, all⟩ := inv.stray fl (step.lost ▸ member)
    refine ⟨c, chain.congr fun b inside => ?_, fun b inside => ?_⟩
    · obtain ⟨k, chunk, owned⟩ := all b inside
      exact step.next k b chunk (Or.inr (Or.inl owned))
    · obtain ⟨k, both⟩ := all b inside
      exact ⟨k, (step.kept k b .lost (Or.inr (Or.inl rfl))).mpr both⟩
  · have lost := step.kept k a .lost (Or.inr (Or.inl rfl))
    obtain ⟨chunk', owned'⟩ := lost.mp ⟨chunk, owned⟩
    obtain ⟨fl, member, c, chain, inside, all⟩ := inv.lost k a chunk' owned'
    refine ⟨fl, by rw [step.lost]; exact member, c, chain.congr fun b memberB => ?_, inside,
      fun b memberB => (step.kept k b .lost (Or.inr (Or.inl rfl))).mpr (all b memberB)⟩
    exact step.next k b (all b memberB).1 (Or.inr (Or.inl (all b memberB).2))

theorem SysInv.unmarked (inv : SysInv Q s g) (small : l < numSmall) (holds : (s.pc t).holds = some l)
    (flushes : (s.pc t).flushes = none) {p : ℕ} (member : p ∈ g.pages l) :
    (s.shared.heap.desc p).count ≠ -1 := by
  intro count
  obtain ⟨u, flushing⟩ := (inv.classes l small).shelves.marked p member count
  have same := (inv.classes l small).only holds (Pc.holds_of_flushes flushing)
  rw [same, flushes] at flushing
  cases flushing

theorem Shelves.chunk {p a : ℕ} (shelves : Shelves s g l) (member : p ∈ g.pages l)
    (inside : a ∈ g.free p) : ChunkOf l p a ∧ IsChunk g.blocks l a ∧ g.owner a = .page := by
  have chunk := (shelves.shelf.shelved p member).inside a inside
  have isChunk : IsChunk g.blocks l a := isChunk_iff.mpr ⟨p, shelves.block p member, chunk⟩
  exact ⟨chunk, isChunk, (shelves.onPage a isChunk).mp (by rw [chunk.1]; exact inside)⟩

theorem SysInv.few_pages (inv : SysInv Q s g) (small : l < numSmall) :
    (g.pages l).length < s.shared.heap.endPage := by
  have shelves := (inv.classes l small).shelves
  have positive := inv.heap.inv.top_pos
  have sub : (0 :: g.pages l).Subperm (List.range s.shared.heap.endPage) := by
    refine List.Nodup.subperm ?_ fun p member => ?_
    · exact List.nodup_cons.mpr ⟨fun zero => shelves.shelf.page_ne_zero zero rfl, shelves.shelf.nodup⟩
    · rcases List.mem_cons.mp member with rfl | later
      · exact List.mem_range.mpr positive
      · have bounds := inv.heap.inv.tiling.mem_bounds (shelves.block p later)
        simp only [Tile.stop] at bounds
        exact List.mem_range.mpr (by omega)
  have := sub.length_le
  rw [List.length_cons, List.length_range] at this
  omega

end SharedStep

/-! ### Steps inside the pages of a class -/

theorem HeapOk.retouch {h h' : Heap} {T : List Block} (ok : HeapOk h T)
    (same : h' = { h with desc := h'.desc })
    (desc : ∀ p, h'.desc p = h.desc p ∨
      (∃ l, (⟨p, 1, .small l⟩ : Block) ∈ T) ∧ (h'.desc p).code = (h.desc p).code) : HeapOk h' T := by
  have ends : h'.endPage = h.endPage := by rw [same]
  have inv : Inv h' T h'.endPage := by
    rw [ends]
    refine ⟨ok.inv.tiling, ok.inv.origin, ok.inv.coalesced, fun x member => ?_, ?_⟩
    · by_cases small : ∃ l, x.kind = .small l
      · obtain ⟨l, kind⟩ := small
        obtain ⟨single, below, code⟩ := (ok.inv.described x member).small kind
        unfold Described
        rw [kind]
        refine ⟨single, below, ?_⟩
        rcases desc x.start with whole | ⟨-, part⟩
        · rw [whole, code]
        · rw [part, code]
    -- a page of chunks that overlaps the block would be the block
      · refine (ok.inv.described x member).congr (ok.inv.len_pos member) fun n above below => ?_
        rcases desc n with whole | ⟨⟨l, block⟩, -⟩
        · exact whole
        · have isPage := ok.inv.tiling.unique member block ⟨above, below⟩
            ⟨le_rfl, by simp only [Tile.stop]; omega⟩
          exact absurd ⟨l, by rw [isPage]⟩ small
    · rw [same]
      exact ok.inv.listed
  refine ⟨⟨inv, ?_, ?_⟩, ?_, ?_⟩
  · rw [same]
    exact ok.brk
  · rw [same]
    exact ok.small
  · rw [same]
    exact ok.tables
  · rw [same]
    exact ok.held

variable [DecidableEq τ] {Q : Tally} {s s' : State τ} {g g' : Ghost τ} {t : τ} {l : ℕ}

/-- The pages of the class are put in order again after a step that changes the owner of at most one
chunk, between the pages and the thread. -/
theorem SysInv.pageStep {m : Shared} {pc : Pc} (inv : SysInv Q s g) (a : ℕ) (owner : ℕ → Owner τ)
    (ps : List ℕ) (free : ℕ → List ℕ) (moving : List ℕ) (small : l < numSmall)
    (holds : (s.pc t).holds = some l) (holds' : pc.holds = some l) (behalf : pc.behalf = (s.pc t).behalf)
    (notPage : (s.pc t).page = none)
    (notFresh : ∀ k want fl pn, pc ≠ .fresh k want fl pn) (notFree : ∀ k pn c, pc ≠ .freePage k pn c)
    (heap : m.heap = { s.shared.heap with desc := m.heap.desc })
    (desc : ∀ p, m.heap.desc p = s.shared.heap.desc p ∨ (⟨p, 1, .small l⟩ : Block) ∈ g.blocks ∧
      (m.heap.desc p).code = (s.shared.heap.desc p).code)
    (first : ∀ k, k ≠ l → m.freechunks k = s.shared.freechunks k)
    (frees : ∀ p, free p = g.free p ∨ (⟨p, 1, .small l⟩ : Block) ∈ g.blocks)
    (change : ∀ b, owner b = g.owner b ∨ b = a ∧ IsChunk g.blocks l a ∧
      (g.owner a = .page ∨ g.owner a = .thread t) ∧ (owner a = .page ∨ owner a = .thread t))
    (next : ∀ b, m.next b = s.shared.next b ∨ b = a ∧ IsChunk g.blocks l a ∧
      (g.owner a = .page ∨ g.owner a = .thread t))
    (shelves : Shelves ({ s with shared := m }.setPc t pc) { g with
      owner := owner, pages := Function.update g.pages l ps, free := free,
      moving := set2 g.moving t l moving } l)
    (is : Local m.next l (s.lists t l) (g.cache t l) (g.spare t l) moving pc)
    (nodup : (g.cache t l ++ (g.spare t l ++ moving)).Nodup)
    (mine : ∀ b, b ∈ g.cache t l ++ (g.spare t l ++ moving) ↔
      IsChunk g.blocks l b ∧ owner b = .thread t) :
    ∃ g', SysInv Q ({ s with shared := m }.setPc t pc) g' := by
  have here : ({ s with shared := m }.setPc t pc).pc t = pc := Function.update_self _ _ _
  have cls : (s.pc t).cls = some l := Pc.cls_of_holds holds
  have isL : ∀ {k}, (s.pc t).cls = some k → k = l := fun same => by
    rw [cls] at same
    exact (Option.some.inj same).symm
  have notL : ∀ {k}, (s.pc t).cls ≠ some k → k ≠ l := fun other same => other (same ▸ cls)
  have tiling := inv.heap.inv.tiling
  have notForeign : ∀ o : Owner τ, o = .page ∨ o = .thread t → ¬ Foreign t o := by
    rintro o (rfl | rfl) (wrong | ⟨u, other, wrong⟩)
    · cases wrong
    · cases wrong
    · cases wrong
    · exact other (Owner.thread.inj wrong).symm
  -- an owner outside the class, or one that the step does not concern
  have kept : ∀ k b o, (s.pc t).cls ≠ some k ∨ Foreign t o → IsChunk g.blocks k b →
      (owner b = o ↔ g.owner b = o) := by
    intro k b o outside chunk
    rcases change b with same | ⟨rfl, chunk', before, after⟩
    · rw [same]
    · rcases outside with other | foreign
      · exact absurd (chunk.class_eq tiling chunk') (notL other)
      · refine iff_of_false ?_ ?_
        · rintro rfl
          exact notForeign _ after foreign
        · rintro rfl
          exact notForeign _ before foreign
  refine ⟨_, inv.sharedStep (t := t) { g with
      owner := owner, pages := Function.update g.pages l ps, free := free,
      moving := set2 g.moving t l moving }
    ⟨inv.heap.retouch heap ?_, fun u other => Function.update_of_ne other _ _, ?_, rfl, rfl, ?_, ?_, ?_,
      fun _ _ _ => Iff.rfl, ?_, ?_, ?_, ?_, ?_, ?_, ?_, inv.nodup, ?_, rfl⟩⟩
  · exact fun p => (desc p).imp_right fun changed => ⟨⟨l, changed.1⟩, changed.2⟩
  · rw [here, cls, Pc.cls_of_holds holds']
  · intro u k other
    refine ⟨rfl, rfl, set2_of_ne _ _ (other.imp_right notL)⟩
  · exact fun k other => first k (notL other)
  · exact fun k other => Function.update_of_ne (notL other) _ _
  · intro k p other block
    have notPage : (⟨p, 1, .small l⟩ : Block) ∉ g.blocks := fun block' => by
      have same := tiling.eq_of_start block block' rfl
      simp only [Tile.mk.injEq, Kind.small.injEq, true_and] at same
      exact notL other same
    exact ⟨(desc p).resolve_right fun changed => notPage changed.1,
      (frees p).resolve_right fun changed => notPage changed⟩
  · exact fun k b o outside => and_congr_right fun chunk => kept k b o outside chunk
  · intro k b chunk outside
    refine (next b).resolve_right ?_
    rintro ⟨rfl, chunk', before⟩
    rcases outside with other | foreign
    · exact notL other (chunk.class_eq tiling chunk')
    · exact notForeign _ before foreign
  · intro p e u other block owned
    refine ⟨block, ?_⟩
    rcases change (p * pageSize) with same | ⟨rfl, chunk, -⟩
    · exact same.trans owned
    · have page := chunk.1
      rw [Nat.mul_div_cancel _ (by decide)] at page
      have same := tiling.eq_of_start block page rfl
      simp at same
  · intro k same
    obtain rfl := isL same
    refine ⟨holds, by rw [here]; exact holds', shelves, ⟨?_, ?_, ?_, fun b => ?_⟩⟩
    · rw [here]
      exact ((inv.classes k small).holding t).counted.congr behalf
    · rw [here]
      simpa [State.setPc] using is
    · simpa using nodup
    · simpa using mine b
  · rw [Page1, here]
    cases pc with
    | fresh k want fl pn => exact absurd rfl (notFresh k want fl pn)
    | freePage k pn c => exact absurd rfl (notFree k pn c)
    | _ => trivial
  · intro b n
    refine (inv.live b n).trans (and_congr_right fun _ => ?_)
    rcases change b with same | ⟨rfl, -, before, after⟩
    · simp only [same]
    · refine iff_of_false ?_ ?_
      · rcases before with same | same
        · simp [same]
        · simp [same]
      · rcases after with same | same
        · simp [same]
        · simp [same]
  · intro p n e block
    have same : owner (p * pageSize) = g.owner (p * pageSize) := by
      refine (change _).resolve_right ?_
      rintro ⟨rfl, chunk, -⟩
      exact not_chunk_of_used tiling block (page_of p) l chunk
    simp only [same]
    refine (inv.used p n e block).imp_right ?_
    rintro ⟨u, page⟩
    have other : u ≠ t := by
      rintro rfl
      rw [notPage] at page
      cases page
    refine ⟨u, ?_⟩
    rw [← page]
    exact congrArg Pc.page (Function.update_of_ne other _ _)

theorem SysInv.others (inv : SysInv Q s g) (small : l < numSmall) (holds : (s.pc t).holds = some l)
    {pc : Pc} {m : Shared} {u : τ} (holds' : (({ s with shared := m }.setPc t pc).pc u).holds = some l) :
    u = t := by
  by_contra other
  simp only [State.setPc, Function.update_of_ne other] at holds'
  exact other ((inv.classes l small).only holds holds')

/-- One round of the loop of `malloc_small`, with a page on the list. -/
theorem SysInv.take {want fl : ℕ} (inv : SysInv Q s g) (at' : s.pc t = .refill l (want + 1) fl)
    (some' : s.shared.freechunks l ≠ 0) :
    ∃ new m, takeChunk s.shared l fl = some (new, m) ∧
      ∃ g', SysInv Q ({ s with shared := m }.setPc t (.refill l want new)) g' := by
  have small : l < numSmall := inv.inClass t l (by rw [at']; rfl)
  have holds : (s.pc t).holds = some l := by rw [at']; rfl
  have shelves := (inv.classes l small).shelves
  have holding := (inv.classes l small).holding t
  have is := holding.lists
  rw [at'] at is
  simp only [Local, if_true] at is
  obtain ⟨free, aux, noCache, noSpare, chain, counts⟩ := is
  obtain ⟨rest, pages⟩ := Chain.head_mem shelves.shelf.pages some'
  obtain ⟨p, first⟩ : ∃ p, s.shared.freechunks l = p := ⟨_, rfl⟩
  rw [first] at pages
  have member : p ∈ g.pages l := by rw [pages]; exact List.mem_cons_self
  have unmarked : ∀ q ∈ g.pages l, (s.shared.heap.desc q).count ≠ -1 := fun q member =>
    inv.unmarked small holds (by rw [at']; rfl) member
  have shelved := shelves.shelf.shelved p member
  obtain ⟨a, more, chunks⟩ := List.exists_cons_of_ne_nil shelved.some
  have count := shelved.count.resolve_right fun both => unmarked p member both.1
  have shelf := shelves.shelf
  rw [pages] at shelf
  obtain ⟨m, call, shelf', next, only, count'⟩ := shelf.takeChunk fl small chunks count
  obtain ⟨chunkOf, isChunk, owned⟩ := shelves.chunk (a := a) member (by rw [chunks]; simp)
  have nodup := shelved.chain.nodup
  rw [chunks, List.nodup_cons] at nodup
  have fits := length_le_perPage small shelved.chain.nodup shelved.inside
  rw [chunks, List.length_cons] at fits
  have absent : a ∉ g.moving t l := fun inside => by
    have := (holding.owned (a := a) (by simp [inside])).2
    rw [owned] at this
    cases this
  have isRefill : ∀ u, u = t →
      (({ s with shared := m }.setPc t (.refill l want a)).pc u) = .refill l want a := by
    rintro u rfl
    exact Function.update_self _ _ _
  refine ⟨a, m, call, inv.pageStep a (Function.update g.owner a (.thread t))
    (if more = [] then rest else p :: rest) (Function.update g.free p more) (a :: g.moving t l)
    small holds rfl (by rw [at']; rfl) (by rw [at']; rfl) (by simp) (by simp) only.heap (fun q => ?_) only.first
    (fun q => ?_) (fun b => ?_) (fun b => ?_) ⟨?_, fun q inside => ?_, fun q block out => ?_,
      fun b chunk => ?_, fun q inside marked => ?_, fun q inside full => ?_, fun u releasing => ?_⟩
    ?_ ?_ fun b => ?_⟩
  · by_cases same : q = p
    · subst same
      exact Or.inr ⟨shelves.block q member, only.code⟩
    · exact Or.inl (only.desc q same)
  · by_cases same : q = p
    · subst same
      exact Or.inr (shelves.block q member)
    · exact Or.inl (Function.update_of_ne same _ _)
  · by_cases same : b = a
    · exact Or.inr ⟨same, isChunk, Or.inl owned, Or.inr (Function.update_self _ _ _)⟩
    · exact Or.inl (Function.update_of_ne same _ _)
  · rw [next]
    by_cases same : b = a
    · exact Or.inr ⟨same, isChunk, Or.inl owned⟩
    · exact Or.inl (Function.update_of_ne same _ _)
  · simpa [State.setPc] using shelf'
  · simp only [Function.update_self] at inside
    refine shelves.block q ?_
    rw [pages]
    split_ifs at inside
    · exact List.mem_cons_of_mem _ inside
    · exact inside
  · simp only [Function.update_self] at out
    by_cases same : q = p
    · subst same
      have none : more = [] := by
        by_contra some
        rw [if_neg some] at out
        exact out List.mem_cons_self
      simp [State.setPc, count', none]
    · have out' : q ∉ g.pages l := by
        rw [pages]
        split_ifs at out with none
        · exact fun inside => (List.mem_cons.mp inside).elim same out
        · exact out
      simp only [State.setPc, only.desc q same, Function.update_of_ne same]
      exact shelves.absent q block out'
  · by_cases same : b = a
    · subst same
      simp only [Function.update_self, reduceCtorEq, iff_false, chunkOf.1]
      exact nodup.1
    · have old := shelves.onPage b chunk
      simp only [Function.update_of_ne same]
      rw [← old]
      by_cases here : b / pageSize = p
      · rw [here, Function.update_self, chunks]
        simp [same]
      · rw [Function.update_of_ne here]
  · exfalso
    simp only [Function.update_self, State.setPc] at inside marked
    by_cases same : q = p
    · subst same
      omega
    · rw [only.desc q same] at marked
      refine unmarked q ?_ marked
      rw [pages]
      split_ifs at inside
      · exact List.mem_cons_of_mem _ inside
      · exact inside
  · exfalso
    simp only [Function.update_self] at inside full
    have inside' : q ∈ g.pages l := by
      rw [pages]
      split_ifs at inside
      · exact List.mem_cons_of_mem _ inside
      · exact inside
    by_cases same : q = p
    · subst same
      rw [Function.update_self] at full
      omega
    · rw [Function.update_of_ne same] at full
      rcases shelves.full q inside' full with marked | ⟨single, -⟩
      · exact unmarked q inside' marked
      · rw [single] at member
        exact same (List.mem_singleton.mp member).symm
  · have isT := inv.others small holds (Pc.holds_of_flushes (Pc.flushes_of_releases releasing))
    rw [isRefill u isT] at releasing
    cases releasing
  · simp only [Local, if_true]
    refine ⟨free, aux, noCache, noSpare, ?_, ?_, counts.2⟩
    · rw [next]
      exact chain.push (chunkOf.ne_zero (shelf.page_ne_zero List.mem_cons_self)) absent
    · rw [List.length_cons]
      omega
  · have old := holding.nodup
    rw [noCache, noSpare] at old ⊢
    exact List.nodup_cons.mpr ⟨absent, old⟩
  · have old := holding.mine b
    rw [noCache, noSpare] at old ⊢
    by_cases same : b = a
    · subst same
      simp [isChunk]
    · rw [Function.update_of_ne same, ← old]
      simp [same]

/-- One round of the first loop of `flush_to_global_freelist`. -/
theorem SysInv.put {cp cp2 : ℕ} {k : Caller} (inv : SysInv Q s g) (at' : s.pc t = .flush l cp cp2 k)
    (some' : cp ≠ 0) :
    ∃ g', SysInv Q ({ s with shared := putChunk s.shared l cp }.setPc t
      (if s.shared.next cp = 0 then .flush l cp2 0 k else .flush l (s.shared.next cp) cp2 k)) g' := by
  have small : l < numSmall := inv.inClass t l (by rw [at']; rfl)
  have holds : (s.pc t).holds = some l := by rw [at']; rfl
  have shelves := (inv.classes l small).shelves
  have holding := (inv.classes l small).holding t
  have is := holding.lists
  rw [at'] at is
  simp only [Local, if_true] at is
  obtain ⟨⟨kept, first, second, chain, chain', parts⟩, -⟩ := is
  obtain ⟨rest, firsts⟩ := chain.head_mem some'
  rw [firsts] at chain parts
  obtain ⟨-, -, onward⟩ := chain_cons.mp chain
  have nodup := holding.nodup
  rw [parts] at nodup
  have perm : (g.cache t l ++ (g.spare t l ++ (k.hand ++ (cp :: rest ++ second)))).Perm
      (cp :: (g.cache t l ++ (g.spare t l ++ (k.hand ++ (rest ++ second))))) := by
    have inner : (k.hand ++ (cp :: rest ++ second)).Perm (cp :: (k.hand ++ (rest ++ second))) :=
      List.perm_middle
    have middle := (inner.append_left (g.spare t l)).trans List.perm_middle
    exact (middle.append_left (g.cache t l)).trans List.perm_middle
  have distinct := perm.nodup_iff.mp nodup
  rw [List.nodup_cons] at distinct
  obtain ⟨isChunk, owned⟩ := holding.owned (a := cp) (by
    rw [parts, perm.mem_iff]
    exact List.mem_cons_self)
  obtain ⟨p, page⟩ : ∃ p, cp / pageSize = p := ⟨_, rfl⟩
  have chunkOf : ChunkOf l p cp := ⟨page, isChunk.2⟩
  have block : (⟨p, 1, .small l⟩ : Block) ∈ g.blocks := page ▸ isChunk.1
  have real : p ≠ 0 := by
    rintro rfl
    have same := inv.heap.inv.tiling.eq_of_start block inv.heap.inv.origin rfl
    simp at same
  have new : cp ∉ g.free p := by
    intro inside
    have onPage := (shelves.onPage cp isChunk).mp (by rw [page]; exact inside)
    rw [owned] at onPage
    cases onPage
  -- a page that is marked has all its chunks, and this one has not
  have present : p ∈ g.pages l → (s.shared.heap.desc p).count = (g.free p).length := by
    intro member
    have shelved := shelves.shelf.shelved p member
    refine shelved.count.resolve_right fun both => new ?_
    exact mem_of_length_eq small shelved.chain.nodup shelved.inside both.2 chunkOf
  obtain ⟨ps, shelf', members, ⟨v, next⟩, only, count'⟩ :=
    shelves.shelf.putChunk small chunkOf real (shelves.absent p block) present new
  obtain ⟨c, c2, pc, flushing⟩ : ∃ c c2, (if s.shared.next cp = 0 then Pc.flush l cp2 0 k
      else .flush l (s.shared.next cp) cp2 k) = .flush l c c2 k ∧
      ∃ first second', Chain s.shared.next 0 c first ∧ Chain s.shared.next 0 c2 second' ∧
        first ++ second' = rest ++ second ∧ (c = 0 → c2 = 0) := by
    by_cases last : s.shared.next cp = 0
    · rw [last] at onward
      have none := onward.eq_nil
      subst none
      exact ⟨cp2, 0, if_pos last, second, [], chain', rfl, by simp, fun _ => rfl⟩
    · exact ⟨_, cp2, if_neg last, rest, second, onward, chain', rfl, fun zero => absurd zero last⟩
  obtain ⟨first', second', chainC, chainC', parts', order⟩ := flushing
  rw [pc]
  have isFlush : ∀ u, u = t → (({ s with shared := putChunk s.shared l cp }.setPc t
      (.flush l c c2 k)).pc u) = .flush l c c2 k := by
    rintro u rfl
    exact Function.update_self _ _ _
  have outside : cp ∉ g.cache t l ∧ cp ∉ first' ∧ cp ∉ second' := by
    have absent := distinct.1
    rw [← parts'] at absent
    simp only [List.mem_append, not_or] at absent
    exact ⟨absent.1, absent.2.2.2.1, absent.2.2.2.2⟩
  refine inv.pageStep cp (Function.update g.owner cp .page) ps
    (Function.update g.free p (cp :: g.free p)) (k.hand ++ (rest ++ second)) small
    holds rfl (by rw [at']; rfl) (by rw [at']; rfl) (by simp) (by simp) only.heap (fun q => ?_) only.first
    (fun q => ?_) (fun b => ?_) (fun b => ?_) ⟨?_, fun q inside => ?_, fun q blockQ out => ?_,
      fun b chunk => ?_, fun q inside marked => ?_, fun q inside full => ?_, fun u releasing => ?_⟩ ?_
    distinct.2 fun b => ?_
  · by_cases same : q = p
    · subst same
      exact Or.inr ⟨block, only.code⟩
    · exact Or.inl (only.desc q same)
  · by_cases same : q = p
    · subst same
      exact Or.inr block
    · exact Or.inl (Function.update_of_ne same _ _)
  · by_cases same : b = cp
    · exact Or.inr ⟨same, isChunk, Or.inr owned, Or.inl (Function.update_self _ _ _)⟩
    · exact Or.inl (Function.update_of_ne same _ _)
  · rw [next]
    by_cases same : b = cp
    · exact Or.inr ⟨same, isChunk, Or.inr owned⟩
    · exact Or.inl (Function.update_of_ne same _ _)
  · simpa [State.setPc] using shelf'
  · simp only [Function.update_self] at inside
    rcases (members q).mp inside with rfl | old
    · exact block
    · exact shelves.block q old
  · simp only [Function.update_self] at out
    have other : q ≠ p := fun same => out ((members q).mpr (Or.inl same))
    have out' : q ∉ g.pages l := fun old => out ((members q).mpr (Or.inr old))
    simp only [State.setPc, only.desc q other, Function.update_of_ne other]
    exact shelves.absent q blockQ out'
  · by_cases same : b = cp
    · subst same
      simp [page]
    · have old := shelves.onPage b chunk
      simp only [Function.update_of_ne same]
      rw [← old]
      by_cases here : b / pageSize = p
      · rw [here, Function.update_self]
        simp [same]
      · rw [Function.update_of_ne here]
  · exact ⟨t, by rw [isFlush t rfl]; rfl⟩
  · left
    simp only [Function.update_self, State.setPc] at inside full ⊢
    by_cases same : q = p
    · subst same
      rw [Function.update_self] at full
      rw [count', if_pos full]
    · rw [Function.update_of_ne same] at full
      rw [only.desc q same]
      have old := ((members q).mp inside).resolve_left same
      refine (shelves.full q old full).resolve_right ?_
      rintro ⟨-, u, taking⟩
      have isT := (inv.classes l small).only holds (Pc.holds_of_takes taking)
      rw [isT, at'] at taking
      cases taking
  · have isT := inv.others small holds (Pc.holds_of_flushes (Pc.flushes_of_releases releasing))
    rw [isFlush u isT] at releasing
    cases releasing
  · simp only [Local, if_true]
    refine ⟨⟨?_, first', second', ?_, ?_, by rw [parts']⟩, order⟩
    · cases k with
      | free old =>
          refine ⟨?_, kept.2⟩
          rw [next]
          exact kept.1.update outside.1
      | fini => exact kept
    · rw [next]
      exact chainC.update outside.2.1
    · rw [next]
      exact chainC'.update outside.2.2
  · have old := holding.mine b
    rw [parts, perm.mem_iff, List.mem_cons] at old
    by_cases same : b = cp
    · subst same
      rw [Function.update_self]
      exact iff_of_false distinct.1 (by simp)
    · rw [Function.update_of_ne same, ← old]
      simp [same]

/-- The pages sorted after the first loop of `flush_to_global_freelist`. -/
theorem SysInv.sort {cp2 : ℕ} {k : Caller} (inv : SysInv Q s g) (at' : s.pc t = .flush l 0 cp2 k) :
    ∃ m, sortPages s.shared l = some m ∧
      ∃ g', SysInv Q ({ s with shared := m }.setPc t (.release l k)) g' := by
  have small : l < numSmall := inv.inClass t l (by rw [at']; rfl)
  have holds : (s.pc t).holds = some l := by rw [at']; rfl
  have shelves := (inv.classes l small).shelves
  have holding := (inv.classes l small).holding t
  have is := holding.lists
  rw [at'] at is
  simp only [Local, if_true] at is
  obtain ⟨⟨kept, first, second, chain, chain', parts⟩, order⟩ := is
  have noFirst := chain.eq_nil
  have noSecond := Chain.eq_nil (order trivial ▸ chain')
  rw [noFirst, noSecond, List.append_nil, List.append_nil] at parts
  obtain ⟨m, ps, call, shelf, perm, sorted, next, heap, outside, fields, firsts⟩ :=
    shelves.shelf.sortPages (inv.few_pages small)
  have isRelease : ∀ u, u = t →
      (({ s with shared := m }.setPc t (.release l k)).pc u) = .release l k := by
    rintro u rfl
    exact Function.update_self _ _ _
  refine ⟨m, call, inv.pageStep 0 g.owner ps g.free (g.moving t l)
    small holds rfl (by rw [at']; rfl) (by rw [at']; rfl) (by simp) (by simp) heap (fun q => ?_) firsts
    (fun q => Or.inl rfl) (fun b => Or.inl rfl) (fun b => Or.inl (by rw [next]))
    ⟨?_, fun q inside => ?_, fun q block out => ?_, shelves.onPage, fun q inside marked => ?_,
      fun q inside full => ?_, fun u releasing => ?_⟩ ?_ holding.nodup holding.mine⟩
  · by_cases member : q ∈ g.pages l
    · exact Or.inr ⟨shelves.block q member, (fields q).2⟩
    · exact Or.inl (outside q member)
  · simpa [State.setPc] using shelf
  · simp only [Function.update_self] at inside
    exact shelves.block q (perm.mem_iff.mp inside)
  · simp only [Function.update_self, perm.mem_iff] at out
    simp only [State.setPc, (fields q).1]
    exact shelves.absent q block out
  · exact ⟨t, by rw [isRelease t rfl]; rfl⟩
  · simp only [Function.update_self, perm.mem_iff] at inside
    simp only [State.setPc, (fields q).1]
    refine Or.inl ((shelves.full q inside full).resolve_right ?_)
    rintro ⟨-, u, taking⟩
    have isT := (inv.classes l small).only holds (Pc.holds_of_takes taking)
    rw [isT, at'] at taking
    cases taking
  · simpa [State.setPc] using sorted
  · simp only [Local, if_true]
    refine ⟨?_, parts⟩
    rw [next]
    exact kept

end Elcrq.Malloc
