import Elcrq.Malloc.LockedSteps

/-! # Steps that change what a page is used for

A page from `valloc` becomes a page of chunks, and a page whose chunks are all free
becomes an extent again and goes back. Such a step concerns one block of pages; whatever
else is in use stays as it is. -/

set_option autoImplicit false

namespace Elcrq.Malloc

open Elcrq.Store

universe u

theorem HeapOk.relabel {h : Heap} {T : List Block} {p n : ℕ} {k : Kind} (h' : Heap) (k' : Kind)
    (ok : HeapOk h T)
    (member : (⟨p, n, k⟩ : Block) ∈ T) (busy : k ≠ .free) (notBase : k ≠ .base) (busy' : k' ≠ .free)
    (same : h' = { h with desc := h'.desc }) (desc : ∀ m, m < p ∨ p + n ≤ m → h'.desc m = h.desc m)
    (described : Described h'.desc ⟨p, n, k'⟩) :
    ∃ T', HeapOk h' T' ∧ (⟨p, n, k'⟩ : Block) ∈ T' ∧
      Change h h' T T' (fun x => x = ⟨p, n, k⟩) (fun x => x = ⟨p, n, k'⟩) := by
  have notOrigin : p ≠ 0 := by
    rintro rfl
    have isOrigin := ok.inv.tiling.eq_of_start member ok.inv.origin rfl
    simp only [Tile.mk.injEq] at isOrigin
    exact notBase isOrigin.2.2
  have ends : h'.endPage = h.endPage := by rw [same]
  obtain ⟨T', inv, member', -, change⟩ :=
    ok.inv.relabel h' member busy busy' notOrigin (by rw [same]) desc described
  refine ⟨T', ok.of_change ⟨ends ▸ inv, ?_, ?_⟩ change ?_ (by rw [same]) (le_of_eq ends), member', change⟩
  · rw [same]
    exact ok.brk
  · rw [same]
    exact ok.small
  · rintro x rfl
    exact notBase

variable {τ : Type u} {Q : Tally} {s s' : State τ} {g g' : Ghost τ} {t : τ} {l p : ℕ}

/-- The block at page `p` is cut anew. What was in use there before belonged to thread `t`, to the pages
or to the program. -/
structure Recut (s s' : State τ) (g g' : Ghost τ) (t : τ) (p : ℕ) (gone come : Block → Prop) : Prop where
  change : Change s.shared.heap s'.shared.heap g.blocks g'.blocks gone come
  goneAt : ∀ x, gone x → x.start = p ∧ ∀ k, x.kind = .small k → (s.pc t).cls = some k
  comeAt : ∀ x, come x → x.kind = .base ∨ x.start = p ∧ ∀ k, x.kind = .small k → (s.pc t).cls = some k
  whole : ∀ x ∈ g.blocks, x.start = p → x.kind ≠ .free → gone x
  owner : ∀ a, a / pageSize ≠ p → g'.owner a = g.owner a
  next : ∀ a, a / pageSize ≠ p → s'.shared.next a = s.shared.next a
  free : ∀ q, q ≠ p → g'.free q = g.free q
  chunks : ∀ k a, IsChunk g.blocks k a → a / pageSize = p → g.owner a = .page
  chunks' : ∀ k a, IsChunk g'.blocks k a → a / pageSize = p → g'.owner a = .page
  ghost : g'.cache = g.cache ∧ g'.spare = g.spare ∧ g'.moving = g.moving

/-- A step of thread `t` that cuts the block at page `p` anew. -/
structure BlockStep (Q : Tally) (s s' : State τ) (g g' : Ghost τ) (t : τ) (p : ℕ)
    (gone come : Block → Prop) : Prop extends Recut s s' g g' t p gone come where
  heap : HeapOk s'.shared.heap g'.blocks
  extent : ∀ e u, u ≠ t → (⟨p, 1, .used e⟩ : Block) ∈ g.blocks → g.owner (p * pageSize) ≠ .thread u
  pc : ∀ u, u ≠ t → s'.pc u = s.pc u
  cls : (s'.pc t).cls = (s.pc t).cls
  lists : s'.lists = s.lists
  lock : s'.lock = s.lock
  first : ∀ k, (s.pc t).cls ≠ some k → s'.shared.freechunks k = s.shared.freechunks k
  pages : ∀ k, (s.pc t).cls ≠ some k → g'.pages k = g.pages k
  own : ∀ k, (s.pc t).cls = some k → (s.pc t).holds = some k ∧ (s'.pc t).holds = some k ∧
    Shelves s' g' k ∧ Holding Q s' g' k t
  page : Page1 s' g' t
  pageAt : ∀ q, (s.pc t).page = some q → q = p
  usedAt : ∀ n e, (⟨p, n, .used e⟩ : Block) ∈ g'.blocks →
    g'.owner (p * pageSize) = .program ∨ ∃ u, (s'.pc u).page = some p
  liveAt : ∀ a n, a / pageSize = p →
    ((a, n) ∈ s'.live ↔ Piece g'.blocks a n ∧ g'.owner a = .program)
  live : ∀ a n, a / pageSize ≠ p → ((a, n) ∈ s'.live ↔ (a, n) ∈ s.live)
  nodup : (s'.live.map Prod.fst).Nodup
  lost : s'.lost = s.lost

namespace Recut

variable {gone come : Block → Prop}

theorem blocks_iff (cut : Recut s s' g g' t p gone come) {x : Block} (busy : x.kind ≠ .free)
    (notBase : x.kind ≠ .base) (other : x.start ≠ p) : x ∈ g'.blocks ↔ x ∈ g.blocks := by
  constructor
  · intro member
    rcases cut.change.source x member busy with ⟨old, -⟩ | new
    · exact old
    · rcases cut.comeAt x new with isBase | here
      · exact absurd isBase notBase
      · exact absurd here.1 other
  · exact fun member => cut.change.stays x member busy fun gone => other (cut.goneAt x gone).1

theorem not_small (cut : Recut s s' g g' t p gone come) {k : ℕ} (other : (s.pc t).cls ≠ some k) :
    (⟨p, 1, .small k⟩ : Block) ∉ g.blocks ∧ (⟨p, 1, .small k⟩ : Block) ∉ g'.blocks := by
  have before : (⟨p, 1, .small k⟩ : Block) ∉ g.blocks := fun member =>
    other ((cut.goneAt _ (cut.whole _ member rfl (by simp))).2 k rfl)
  refine ⟨before, fun member => ?_⟩
  rcases cut.change.source _ member (by simp) with ⟨old, -⟩ | new
  · exact before old
  · rcases cut.comeAt _ new with isBase | here
    · cases isBase
    · exact other (here.2 k rfl)

theorem isChunk_iff (cut : Recut s s' g g' t p gone come) {k a : ℕ} (other : a / pageSize ≠ p) :
    IsChunk g'.blocks k a ↔ IsChunk g.blocks k a :=
  and_congr_left fun _ => cut.blocks_iff (by simp) (by simp) other

theorem piece_iff (cut : Recut s s' g g' t p gone come) {a n : ℕ} (other : a / pageSize ≠ p) :
    Piece g'.blocks a n ↔ Piece g.blocks a n := by
  refine or_congr ?_ ?_
  · refine exists_congr fun q => exists_congr fun k => exists_congr fun e => and_congr_left fun both => ?_
    refine cut.blocks_iff (by simp) (by simp) ?_
    simpa [both.1, page_of] using other
  · exact exists_congr fun k => and_congr_left fun _ => cut.isChunk_iff other

theorem kept (cut : Recut s s' g g' t p gone come) {k a : ℕ} {o : Owner τ} (notPage : o ≠ .page) :
    IsChunk g'.blocks k a ∧ g'.owner a = o ↔ IsChunk g.blocks k a ∧ g.owner a = o := by
  by_cases here : a / pageSize = p
  · refine iff_of_false (fun both => ?_) fun both => ?_
    · exact notPage (both.2.symm.trans (cut.chunks' k a both.1 here))
    · exact notPage (both.2.symm.trans (cut.chunks k a both.1 here))
  · rw [cut.isChunk_iff here, cut.owner a here]

theorem holding (cut : Recut s s' g g' t p gone come) (holding : Holding Q s g l t)
    (lists : s'.lists = s.lists) (behalf : (s'.pc t).behalf = (s.pc t).behalf)
    (is : Local s.shared.next l (s.lists t l) (g.cache t l) (g.spare t l) (g.moving t l) (s'.pc t)) :
    Holding Q s' g' l t := by
  refine ⟨?_, ?_, ?_, fun a => ?_⟩
  · rw [lists, cut.ghost.1, cut.ghost.2.1]
    exact holding.counted.congr behalf
  · rw [lists, cut.ghost.1, cut.ghost.2.1, cut.ghost.2.2]
    refine is.congr fun a member => cut.next a fun here => ?_
    obtain ⟨chunk, owned⟩ := (holding.mine a).mp member
    rw [cut.chunks l a chunk here] at owned
    cases owned
  · rw [cut.ghost.1, cut.ghost.2.1, cut.ghost.2.2]
    exact holding.nodup
  · rw [cut.ghost.1, cut.ghost.2.1, cut.ghost.2.2, holding.mine]
    exact (cut.kept (by simp)).symm

theorem shelves (cut : Recut s s' g g' t p gone come) (shelves : Shelves s g l)
    (before : (⟨p, 1, .small l⟩ : Block) ∉ g.blocks) (after : (⟨p, 1, .small l⟩ : Block) ∉ g'.blocks)
    (first : s'.shared.freechunks l = s.shared.freechunks l) (pages : g'.pages l = g.pages l)
    (marked : (∃ p ∈ g.pages l, (s.shared.heap.desc p).count = -1) →
      (∃ t, (s.pc t).flushes = some l) → ∃ t, (s'.pc t).flushes = some l)
    (full : (∃ p ∈ g.pages l, (g.free p).length = perPage l ∧ g.pages l = [p]) →
      (∃ t, (s.pc t).takes = some l) → ∃ t, (s'.pc t).takes = some l)
    (sorted : (∃ t, (s'.pc t).releases = some l) → ∃ t, (s.pc t).releases = some l) :
    Shelves s' g' l := by
  have away : ∀ q, (⟨q, 1, .small l⟩ : Block) ∈ g.blocks → q ≠ p := by
    rintro q block rfl
    exact before block
  refine shelves.congr first pages (fun q => ?_) (fun q block => ?_)
    (fun q block => cut.free q (away q block)) (fun a chunk => ?_)
    (fun a chunk _ => cut.next a (away _ chunk.1)) marked full sorted
  · by_cases here : q = p
    · subst here
      exact iff_of_false after before
    · exact cut.blocks_iff (by simp) (by simp) here
  · refine cut.change.desc _ block (by simp) ?_ q le_rfl (Nat.lt_succ_self q)
    exact fun gone => away q block (cut.goneAt _ gone).1
  · rw [cut.owner a (away _ chunk.1)]

end Recut

theorem SysInv.blockStep {gone come : Block → Prop} (inv : SysInv Q s g)
    (step : BlockStep Q s s' g g' t p gone come) : SysInv Q s' g' := by
  refine inv.sharedStep (t := t) g' ⟨step.heap, step.pc, step.cls, step.lists, step.lock, ?_, step.first,
    step.pages, ?_, ?_, ?_, ?_, ?_, step.own, step.page, ?_, step.nodup, ?_, step.lost⟩
  · intro u k _
    rw [step.ghost.1, step.ghost.2.1, step.ghost.2.2]
    exact ⟨rfl, rfl, rfl⟩
  · intro k q other
    by_cases here : q = p
    · subst here
      exact iff_of_false (step.not_small other).2 (step.not_small other).1
    · exact step.blocks_iff (by simp) (by simp) here
  · intro k q other block
    have away : q ≠ p := by
      rintro rfl
      exact (step.not_small other).1 block
    refine ⟨step.change.desc _ block (by simp) ?_ q le_rfl (Nat.lt_succ_self q), step.free q away⟩
    exact fun gone => away (step.goneAt _ gone).1
  · intro k a o outside
    by_cases here : a / pageSize = p
    · rcases outside with other | foreign
      · refine iff_of_false (fun both => ?_) fun both => ?_
        · exact (step.not_small other).2 (here ▸ both.1.1)
        · exact (step.not_small other).1 (here ▸ both.1.1)
      · refine step.kept ?_
        rintro rfl
        rcases foreign with wrong | ⟨u, -, wrong⟩ <;> cases wrong
    · rw [step.isChunk_iff here, step.owner a here]
  · intro k a chunk outside
    refine step.next a fun here => ?_
    rcases outside with other | foreign
    · exact (step.not_small other).1 (here ▸ chunk.1)
    · rw [step.chunks k a chunk here] at foreign
      rcases foreign with wrong | ⟨u, -, wrong⟩ <;> cases wrong
  · intro q e u other block owned
    have away : q ≠ p := by
      rintro rfl
      exact step.extent e u other block owned
    refine ⟨(step.blocks_iff (by simp) (by simp) away).mpr block, ?_⟩
    rw [step.owner _ (by rw [page_of]; exact away), owned]
  · intro a n
    by_cases here : a / pageSize = p
    · exact step.liveAt a n here
    · rw [step.live a n here, step.piece_iff here, step.owner a here]
      exact inv.live a n
  · intro q n e block
    by_cases here : q = p
    · subst here
      exact step.usedAt n e block
    · rw [step.owner _ (by rw [page_of]; exact here)]
      refine (inv.used q n e ((step.blocks_iff (by simp) (by simp) here).mp block)).imp_right ?_
      rintro ⟨u, page⟩
      have other : u ≠ t := by
        rintro rfl
        exact here (step.pageAt q page)
      exact ⟨u, by rw [step.pc u other, page]⟩

/-! ### The steps -/

theorem Piece.block {T : List Block} {a n : ℕ} (piece : Piece T a n) :
    ∃ x ∈ T, x.start = a / pageSize ∧ ((∃ e, x.kind = .used e) ∧ a = x.start * pageSize ∧
      n = x.len * pageSize ∨ ∃ l, x.kind = .small l ∧ IsChunk T l a) := by
  rcases piece with ⟨q, k, e, block, rfl, rfl⟩ | ⟨l, chunk, rfl⟩
  · exact ⟨_, block, (page_of q).symm, Or.inl ⟨⟨e, rfl⟩, rfl, rfl⟩⟩
  · exact ⟨_, chunk.1, rfl, Or.inr ⟨l, rfl, chunk⟩⟩

theorem Piece.of_used {T : List Block} {top a n k e : ℕ} (piece : Piece T a n) (tiling : Tiling 0 T top)
    (block : (⟨p, k, .used e⟩ : Block) ∈ T) (here : a / pageSize = p) :
    a = p * pageSize ∧ n = k * pageSize := by
  obtain ⟨x, member, start, whole⟩ := piece.block
  have same : x = ⟨p, k, .used e⟩ := tiling.eq_of_start member block (start.trans here)
  subst same
  rcases whole with ⟨-, place, size⟩ | ⟨l, kind, -⟩
  · exact ⟨place, size⟩
  · cases kind

variable {os : ℕ → Bool} {h : Heap} {size e : ℕ} {T : List Block}

theorem Recut.of_valloc {o : Owner τ} (vallocated : Vallocated s.shared.heap h g.blocks T p size e)
    (same : s'.shared = { s.shared with heap := h }) :
    Recut s s' g { g with blocks := T, owner := Function.update g.owner (p * pageSize) o } t p
      (fun _ => False) (fun x => x = ⟨p, size, .used e⟩ ∨ x.kind = .base) := by
  have tiling := vallocated.ok.inv.tiling
  refine ⟨?_, fun x wrong => wrong.elim, ?_, fun x member start busy => ?_,
    fun a other => Function.update_of_ne ?_ _ _, fun a _ => by rw [same], fun q _ => rfl,
    fun k a chunk place => ?_, fun k a chunk place => ?_, rfl, rfl, rfl⟩
  · rw [same]
    exact vallocated.change
  · rintro x (rfl | isBase)
    · exact Or.inr ⟨rfl, fun k wrong => by cases wrong⟩
    · exact Or.inl isBase
  · exact absurd start (vallocated.new x member busy)
  · rintro rfl
    exact other (page_of p)
  · exact absurd place (vallocated.new _ chunk.1 (by simp))
  · exact absurd chunk (not_chunk_of_used tiling vallocated.member place k)

theorem Recut.of_free {n : ℕ} (block : (⟨p, n, .used (p + n)⟩ : Block) ∈ g.blocks)
    (inv : Inv s.shared.heap g.blocks s.shared.heap.endPage)
    (change : Change s.shared.heap h g.blocks T (fun x => x = ⟨p, n, .used (p + n)⟩) (fun _ => False))
    (same : s'.shared = { s.shared with heap := h }) :
    Recut s s' g { g with blocks := T } t p (fun x => x = ⟨p, n, .used (p + n)⟩) (fun _ => False) ∧
      ∀ x ∈ T, x.kind ≠ .free → x.start ≠ p := by
  have none : ∀ x ∈ T, x.kind ≠ .free → x.start ≠ p := by
    intro x member busy start
    rcases change.source x member busy with ⟨old, stays⟩ | wrong
    · exact stays (inv.tiling.eq_of_start old block start)
    · exact wrong
  refine ⟨⟨by rw [same]; exact change, ?_, fun x wrong => wrong.elim, fun x member start _ =>
    inv.tiling.eq_of_start member block start, fun a _ => rfl, fun a _ => by rw [same], fun q _ => rfl,
    fun k a chunk place => ?_, fun k a chunk place => ?_, rfl, rfl, rfl⟩, none⟩
  · rintro x rfl
    exact ⟨rfl, fun k wrong => by cases wrong⟩
  · exact absurd chunk (not_chunk_of_used inv.tiling block place k)
  · exact absurd place (none _ chunk.1 (by simp))

theorem Piece.none_at {a n : ℕ} (none : ∀ x ∈ T, x.kind ≠ .free → x.start ≠ p) (piece : Piece T a n) :
    a / pageSize ≠ p := by
  obtain ⟨x, member, start, whole⟩ := piece.block
  rw [← start]
  refine none x member ?_
  rcases whole with ⟨⟨e, kind⟩, -⟩ | ⟨l, kind, -⟩
  · simp [kind]
  · simp [kind]

theorem SysInv.mallocBig (inv : SysInv Q s g) (idle : s.pc t = .idle)
    (vallocated : Vallocated s.shared.heap h g.blocks T p size e) :
    ∃ g', SysInv Q { s.setHeap h with live := (p * pageSize, size * pageSize) :: s.live } g' := by
  let s' : State τ := { s.setHeap h with live := (p * pageSize, size * pageSize) :: s.live }
  have cut : Recut s s' g { g with
      blocks := T, owner := Function.update g.owner (p * pageSize) .program } t p
      (fun _ => False) (fun x => x = ⟨p, size, .used e⟩ ∨ x.kind = .base) :=
    Recut.of_valloc vallocated rfl
  have tiling := vallocated.ok.inv.tiling
  have outside : ∀ a n, (a, n) ∈ s.live → a / pageSize ≠ p := fun a n inLive =>
    Piece.none_at vallocated.new ((inv.live a n).mp inLive).1
  refine ⟨_, inv.blockStep (t := t) ⟨cut, vallocated.ok, fun e' u _ block _ => ?_,
    fun u _ => rfl, rfl, rfl, rfl, fun _ _ => rfl, fun _ _ => rfl, fun k same => ?_, ?_,
    by simp [idle, Pc.page], fun n e _ => Or.inl (Function.update_self _ _ _), fun a n place => ?_,
    fun a n away => ?_, ?_, rfl⟩⟩
  · exact vallocated.new _ block (by simp) rfl
  · rw [idle] at same
    cases same
  · rw [Page1, show s'.pc t = .idle from idle]
    trivial
  · constructor
    · intro member
      rcases List.mem_cons.mp member with new | old
      · obtain ⟨rfl, rfl⟩ := Prod.mk.inj new
        exact ⟨Or.inl ⟨p, size, e, vallocated.member, rfl, rfl⟩, Function.update_self _ _ _⟩
      · exact absurd place (outside a n old)
    · rintro ⟨piece, -⟩
      obtain ⟨rfl, rfl⟩ := piece.of_used tiling vallocated.member place
      exact List.mem_cons_self
  · have other : (a, n) ≠ (p * pageSize, size * pageSize) := by
      intro same
      rw [(Prod.mk.inj same).1] at away
      exact away (page_of p)
    exact List.mem_cons.trans (or_iff_right other)
  · refine List.nodup_cons.mpr ⟨fun member => ?_, inv.nodup⟩
    obtain ⟨⟨a, n⟩, inLive, same⟩ := List.mem_map.mp member
    simp only at same
    subst same
    exact outside _ n inLive (page_of p)

theorem SysInv.freeBig (os : ℕ → Bool) {n : ℕ} (inv : SysInv Q s g) (idle : s.pc t = .idle)
    (block : (⟨p, n, .used (p + n)⟩ : Block) ∈ g.blocks) (owned : g.owner (p * pageSize) = .program) :
    ∃ h, freeExtent os s.shared.heap p = some h ∧
      ∃ g', SysInv Q ({ s with live := s.live.filter (·.1 ≠ p * pageSize) }.setHeap h) g' := by
  obtain ⟨h, T, call, ok, change, -⟩ := inv.heap.freeExtent os block
  let s' := { s with live := s.live.filter (·.1 ≠ p * pageSize) }.setHeap h
  have cut : Recut s s' g { g with blocks := T } t p (fun x => x = ⟨p, n, .used (p + n)⟩)
      (fun _ => False) ∧ ∀ x ∈ T, x.kind ≠ .free → x.start ≠ p :=
    Recut.of_free block inv.heap.inv change rfl
  obtain ⟨cut, none⟩ := cut
  obtain ⟨filtered, nodup⟩ := inv.live_filter (p * pageSize)
  refine ⟨h, call, _, inv.blockStep (t := t) ⟨cut, ok, fun e u other _ theirs => ?_,
    fun u _ => rfl, rfl, rfl, rfl, fun _ _ => rfl, fun _ _ => rfl, fun k same => ?_, ?_,
    by simp [idle, Pc.page], fun n e used => absurd rfl (none _ used (by simp)), fun a m place => ?_,
    fun a m away => ?_, nodup, rfl⟩⟩
  · rw [owned] at theirs
    cases theirs
  · rw [idle] at same
    cases same
  · rw [Page1, show s'.pc t = .idle from idle]
    trivial
  · refine iff_of_false (fun inLive => ?_) fun both => ?_
    · obtain ⟨other, old⟩ := (filtered a m).mp inLive
      have piece := ((inv.live a m).mp old).1
      exact other (piece.of_used inv.heap.inv.tiling block place).1
    · exact both.1.none_at none place
  · refine (filtered a m).trans (and_iff_right ?_)
    rintro rfl
    exact away (page_of p)

variable [DecidableEq τ]

/-- A page from `valloc` becomes a page of free chunks. -/
theorem SysInv.newPage {want fl pn : ℕ} (inv : SysInv Q s g) (at' : s.pc t = .fresh l want fl pn) :
    ∃ g', SysInv Q ({ s with shared := newPage s.shared l pn }.setPc t (.refill l want fl)) g' := by
  have small : l < numSmall := inv.inClass t l (by rw [at']; rfl)
  have holds : (s.pc t).holds = some l := by rw [at']; rfl
  have shelves := (inv.classes l small).shelves
  have tiling := inv.heap.inv.tiling
  have fresh := inv.pages t
  simp only [Page1, at'] at fresh
  obtain ⟨noPages, some', owned, e, block⟩ := fresh
  obtain ⟨want, rfl⟩ := Nat.exists_eq_add_of_lt some'
  have heap : (Malloc.newPage s.shared l pn).heap = { s.shared.heap with
      desc := Function.update s.shared.heap.desc pn ⟨0, 0, perPage l, l⟩ } := rfl
  obtain ⟨T, ok, member, change⟩ := inv.heap.relabel (Malloc.newPage s.shared l pn).heap (.small l)
    block (by simp) (by simp) (by simp) rfl
    (fun m outside => by rw [heap]; exact Function.update_of_ne (by omega) _ _)
    ⟨rfl, small, by rw [heap]; simp⟩
  have real : pn ≠ 0 := by
    rintro rfl
    have same := tiling.eq_of_start block inv.heap.inv.origin rfl
    simp at same
  obtain ⟨shelf, count⟩ := shelf_newPage (m := s.shared) (c := g.free) small real
  have next : ∀ a, a / pageSize ≠ pn → (Malloc.newPage s.shared l pn).next a = s.shared.next a := by
    intro a other
    simp [Malloc.newPage, Shared.setFirst, Shared.setDesc, other]
  have first : ∀ k, k ≠ l → (Malloc.newPage s.shared l pn).freechunks k = s.shared.freechunks k :=
    fun k other => Function.update_of_ne other _ _
  have cls : (s.pc t).cls = some l := Pc.cls_of_holds holds
  have notL : ∀ {k}, (s.pc t).cls ≠ some k → k ≠ l := fun other same => other (same ▸ cls)
  let g' : Ghost τ := { g with
    blocks := T
    owner := fun a => if a / pageSize = pn then .page else g.owner a
    pages := Function.update g.pages l [pn]
    free := Function.update g.free pn (allChunks l pn) }
  let s' := { s with shared := Malloc.newPage s.shared l pn }.setPc t (.refill l (0 + want + 1) fl)
  have here : s'.pc t = .refill l (0 + want + 1) fl := Function.update_self _ _ _
  have cut : Recut s s' g g' t pn (fun x => x = ⟨pn, 1, .used e⟩) (fun x => x = ⟨pn, 1, .small l⟩) := by
    refine ⟨change, ?_, ?_, ?_, fun a other => if_neg other, next,
      fun q other => Function.update_of_ne other _ _, ?_, fun k a _ here => if_pos here, rfl, rfl, rfl⟩
    · rintro x rfl
      exact ⟨rfl, fun k wrong => by cases wrong⟩
    · rintro x rfl
      refine Or.inr ⟨rfl, fun k same => ?_⟩
      cases same
      exact cls
    · exact fun x memberX start _ => tiling.eq_of_start memberX block start
    · exact fun k a chunk here => absurd chunk (not_chunk_of_used tiling block here k)
  refine ⟨g', inv.blockStep ⟨cut, ok, ?_, fun u other => Function.update_of_ne other _ _, ?_,
    rfl, rfl, fun k other => first k (notL other), fun k other => Function.update_of_ne (notL other) _ _,
    fun k same => ?_, ?_, ?_, ?_, fun a n place => ?_, fun a n _ => Iff.rfl, inv.nodup, rfl⟩⟩
  · intro e u other _ theirs
    rw [owned] at theirs
    exact other (Owner.thread.inj theirs).symm
  · rw [here, at']
    rfl
  · obtain rfl : k = l := by
      rw [cls] at same
      exact (Option.some.inj same).symm
    refine ⟨holds, by rw [here]; rfl, ⟨?_, fun q inside => ?_, fun q block' out => ?_,
      fun a chunk => ?_, fun q inside marked => ?_, fun q inside full => Or.inr ⟨?_, t, ?_⟩,
      fun u releasing => ?_⟩, ?_⟩
    · simpa [s', g', State.setPc] using shelf
    · simp only [g', Function.update_self, List.mem_singleton] at inside
      rw [inside]
      exact member
    · simp only [g', Function.update_self, List.mem_singleton] at out
      have old := (cut.blocks_iff (x := ⟨q, 1, .small k⟩) (by simp) (by simp) out).mp block'
      have absent := shelves.absent q old (by simp [noPages])
      refine ⟨?_, ?_⟩
      · have same : s'.shared.heap.desc q = s.shared.heap.desc q := Function.update_of_ne out _ _
        rw [same]
        exact absent.1
      · rw [cut.free q out]
        exact absent.2
    · by_cases place : a / pageSize = pn
      · simp only [g', place, Function.update_self, mem_allChunks small, if_true]
        exact iff_of_true ⟨place, chunk.2⟩ trivial
      · rw [cut.free _ place, cut.owner a place]
        exact shelves.onPage a ((cut.isChunk_iff place).mp chunk)
    · simp only [g', Function.update_self, List.mem_singleton] at inside
      subst inside
      have : ((Malloc.newPage s.shared k q).heap.desc q).count = -1 := marked
      omega
    · simp only [g', Function.update_self, List.mem_singleton] at inside ⊢
      rw [inside]
    · rw [here]
      rfl
    · have isT := inv.others small holds (Pc.holds_of_flushes (Pc.flushes_of_releases releasing))
      rw [isT, here] at releasing
      cases releasing
    · refine cut.holding ((inv.classes k small).holding t) rfl (by rw [here, at']; rfl) ?_
      have is := ((inv.classes k small).holding t).lists
      rw [at'] at is
      rw [here]
      exact is
  · rw [Page1, here]
    trivial
  · intro q page
    rw [at'] at page
    exact (Option.some.inj page).symm
  · intro n e used
    have same := ok.inv.tiling.eq_of_start used member rfl
    simp at same
  · refine iff_of_false (fun inLive => ?_) fun both => ?_
    · obtain ⟨piece, isProgram⟩ := (inv.live a n).mp inLive
      rw [(piece.of_used tiling block place).1, owned] at isProgram
      cases isProgram
    · simp only [g', if_pos place, reduceCtorEq, and_false] at both

/-- A page whose chunks are all free leaves the list and becomes an extent. -/
theorem SysInv.unlink {k : Caller} {pn : ℕ} (inv : SysInv Q s g) (at' : s.pc t = .release l k)
    (first : s.shared.freechunks l = pn) (some' : pn ≠ 0)
    (marked : (s.shared.heap.desc pn).count < 0) :
    ∃ g', SysInv Q ({ s with shared := unlinkPage s.shared l }.setPc t (.freePage l pn k)) g' := by
  have small : l < numSmall := inv.inClass t l (by rw [at']; rfl)
  have holds : (s.pc t).holds = some l := by rw [at']; rfl
  have shelves := (inv.classes l small).shelves
  have tiling := inv.heap.inv.tiling
  obtain ⟨rest, pages⟩ := Chain.head_mem shelves.shelf.pages (by rw [first]; exact some')
  rw [first] at pages
  have member : pn ∈ g.pages l := by rw [pages]; exact List.mem_cons_self
  have block := shelves.block pn member
  have shelved := shelves.shelf.shelved pn member
  have full : (g.free pn).length = perPage l := by
    rcases shelved.count with count | both
    · omega
    · exact both.2
  have shelf := shelves.shelf
  rw [pages] at shelf
  have notInRest : pn ∉ rest := (List.nodup_cons.mp shelf.nodup).1
  obtain ⟨shelf', next, heap, others⟩ := shelf.unlinkPage
  obtain ⟨T, ok, member', change⟩ := inv.heap.relabel (unlinkPage s.shared l).heap
    (.used (pn + 1)) block (by simp) (by simp) (by simp) (by rw [heap])
    (fun m outside => by rw [heap]; exact Function.update_of_ne (by omega) _ _)
    ⟨by rw [heap]; simp, by rw [heap]; simp, le_rfl, fun n above below => by
      simp only [Tile.stop] at above below
      omega⟩
  have cls : (s.pc t).cls = some l := Pc.cls_of_holds holds
  have notL : ∀ {k}, (s.pc t).cls ≠ some k → k ≠ l := fun other same => other (same ▸ cls)
  let g' : Ghost τ := { g with
    blocks := T
    owner := Function.update g.owner (pn * pageSize) (.thread t)
    pages := Function.update g.pages l rest }
  let s' := { s with shared := unlinkPage s.shared l }.setPc t (.freePage l pn k)
  have here : s'.pc t = .freePage l pn k := Function.update_self _ _ _
  have desc : ∀ q, q ≠ pn → s'.shared.heap.desc q = s.shared.heap.desc q := by
    intro q other
    change (unlinkPage s.shared l).heap.desc q = _
    rw [heap]
    exact Function.update_of_ne other _ _
  have away : ∀ q ∈ rest, q ≠ pn := fun q inside => ne_of_mem_of_not_mem inside notInRest
  have cut : Recut s s' g g' t pn (fun x => x = ⟨pn, 1, .small l⟩)
      (fun x => x = ⟨pn, 1, .used (pn + 1)⟩) := by
    refine ⟨change, ?_, ?_, ?_, fun a other => Function.update_of_ne ?_ _ _, fun a _ => ?_,
      fun q _ => rfl, fun k a chunk place => ?_, fun k a chunk place => ?_, rfl, rfl, rfl⟩
    · rintro x rfl
      refine ⟨rfl, fun k same => ?_⟩
      cases same
      exact cls
    · rintro x rfl
      exact Or.inr ⟨rfl, fun k wrong => by cases wrong⟩
    · exact fun x memberX start _ => tiling.eq_of_start memberX block start
    · rintro rfl
      exact other (page_of pn)
    · change (unlinkPage s.shared l).next a = _
      rw [next]
    · obtain rfl : k = l := by
        have same := tiling.eq_of_start chunk.1 block place
        simp only [Tile.mk.injEq, Kind.small.injEq] at same
        exact same.2.2
      refine (shelves.onPage a chunk).mp ?_
      rw [place]
      exact mem_of_length_eq small shelved.chain.nodup shelved.inside full ⟨place, chunk.2⟩
    · exact absurd chunk (not_chunk_of_used ok.inv.tiling member' place k)
  refine ⟨g', inv.blockStep ⟨cut, ok, ?_, fun u other => Function.update_of_ne other _ _, ?_,
    rfl, rfl, fun k other => others k (notL other), fun k other => Function.update_of_ne (notL other) _ _,
    fun j same => ?_, ?_, by simp [at', Pc.page], fun n e _ => Or.inr ⟨t, by rw [here]; rfl⟩,
    fun a n place => ?_, fun a n _ => Iff.rfl, inv.nodup, rfl⟩⟩
  · intro e u other block' _
    have same := tiling.eq_of_start block' block rfl
    simp at same
  · rw [here, at']
    rfl
  · obtain rfl : j = l := by
      rw [cls] at same
      exact (Option.some.inj same).symm
    refine ⟨holds, by rw [here]; rfl, ⟨?_, fun q inside => ?_, fun q block' out => ?_,
      fun a chunk => ?_, fun q inside marked => ⟨t, by rw [here]; rfl⟩, fun q inside full => ?_,
      fun u releasing => ?_⟩, ?_⟩
    · simpa [s', g', State.setPc] using shelf'
    · simp only [g', Function.update_self] at inside
      refine (cut.blocks_iff (by simp) (by simp) (away q inside)).mpr (shelves.block q ?_)
      rw [pages]
      exact List.mem_cons_of_mem _ inside
    · have other : q ≠ pn := by
        rintro rfl
        have same := ok.inv.tiling.eq_of_start block' member' rfl
        simp at same
      simp only [g', Function.update_self] at out
      rw [desc q other]
      refine shelves.absent q ((cut.blocks_iff (by simp) (by simp) other).mp block') ?_
      rw [pages]
      exact fun inside => (List.mem_cons.mp inside).elim other out
    · have other : a / pageSize ≠ pn := fun place =>
        not_chunk_of_used ok.inv.tiling member' place j chunk
      rw [cut.owner a other]
      exact shelves.onPage a ((cut.isChunk_iff other).mp chunk)
    · simp only [g', Function.update_self] at inside full
      have inside' : q ∈ g.pages j := by
        rw [pages]
        exact List.mem_cons_of_mem _ inside
      rw [desc q (away q inside)]
      refine Or.inl ((shelves.full q inside' full).resolve_right fun single => ?_)
      rw [pages] at single
      simp only [List.cons.injEq] at single
      exact away q inside single.1.1.symm
    · have sorted := shelves.sorted t (by rw [at']; rfl)
      rw [pages] at sorted
      simp only [g', Function.update_self]
      refine (List.pairwise_cons.mp sorted).2.imp_of_mem fun {p q} memberP memberQ le => ?_
      rw [desc p (away p memberP), desc q (away q memberQ)]
      exact le
    · refine cut.holding ((inv.classes j small).holding t) rfl (by rw [here, at']; rfl) ?_
      have is := ((inv.classes j small).holding t).lists
      rw [at'] at is
      rw [here]
      exact is
  · rw [Page1, here]
    exact ⟨Function.update_self _ _ _, member'⟩
  · refine iff_of_false (fun inLive => ?_) fun both => ?_
    · obtain ⟨piece, isProgram⟩ := (inv.live a n).mp inLive
      obtain ⟨x, memberX, start, whole⟩ := piece.block
      have same := tiling.eq_of_start memberX block (start.trans place)
      subst same
      rcases whole with ⟨⟨e, kind⟩, -⟩ | ⟨j, -, chunk⟩
      · cases kind
      · rw [cut.chunks j a chunk place] at isProgram
        cases isProgram
    · have isExtent := (both.1.of_used ok.inv.tiling member' place).1
      simp only [g', isExtent, Function.update_self, reduceCtorEq, and_false] at both

/-- `valloc` gives a page to a refill. -/
theorem SysInv.vallocPage {want fl : ℕ} (inv : SysInv Q s g) (at' : s.pc t = .refill l (want + 1) fl)
    (none' : s.shared.freechunks l = 0) (vallocated : Vallocated s.shared.heap h g.blocks T p 1 e) :
    ∃ g', SysInv Q ((s.setHeap h).setPc t (.fresh l (want + 1) fl p)) g' := by
  have small : l < numSmall := inv.inClass t l (by rw [at']; rfl)
  have holds : (s.pc t).holds = some l := by rw [at']; rfl
  have shelves := (inv.classes l small).shelves
  have noPages : g.pages l = [] := Chain.eq_nil (none' ▸ shelves.shelf.pages)
  let s' := (s.setHeap h).setPc t (.fresh l (want + 1) fl p)
  have here : s'.pc t = .fresh l (want + 1) fl p := Function.update_self _ _ _
  have cut : Recut s s' g { g with
      blocks := T, owner := Function.update g.owner (p * pageSize) (.thread t) } t p
      (fun _ => False) (fun x => x = ⟨p, 1, .used e⟩ ∨ x.kind = .base) := Recut.of_valloc vallocated rfl
  have tiling := vallocated.ok.inv.tiling
  refine ⟨_, inv.blockStep ⟨cut, vallocated.ok, fun e' u _ block _ => ?_,
    fun u other => Function.update_of_ne other _ _, ?_, rfl, rfl, fun _ _ => rfl, fun _ _ => rfl,
    fun k same => ?_, ?_, by simp [at', Pc.page], fun n e _ => Or.inr ⟨t, by rw [here]; rfl⟩,
    fun a n place => ?_, fun a n _ => Iff.rfl, inv.nodup, rfl⟩⟩
  · exact vallocated.new _ block (by simp) rfl
  · rw [here, at']
    rfl
  · obtain rfl : k = l := by
      rw [at'] at same
      exact (Option.some.inj same).symm
    refine ⟨holds, by rw [here]; rfl, cut.shelves shelves ?_ ?_ rfl rfl ?_ ?_ ?_, ?_⟩
    · exact fun block => vallocated.new _ block (by simp) rfl
    · intro block
      have same := tiling.eq_of_start block vallocated.member rfl
      simp at same
    · simp [noPages]
    · simp [noPages]
    · rintro ⟨u, releasing⟩
      have isT : u = t := by
        by_contra other
        rw [show s'.pc u = s.pc u from Function.update_of_ne other _ _] at releasing
        exact other ((inv.classes k small).only holds
          (Pc.holds_of_flushes (Pc.flushes_of_releases releasing)))
      rw [isT, here] at releasing
      cases releasing
    · refine cut.holding ((inv.classes k small).holding t) rfl (by rw [here, at']; rfl) ?_
      have is := ((inv.classes k small).holding t).lists
      rw [at'] at is
      rw [here]
      exact is
  · rw [Page1, here]
    exact ⟨noPages, Nat.succ_pos want, Function.update_self _ _ _, e, vallocated.member⟩
  · refine iff_of_false (fun inLive => ?_) fun both => ?_
    · exact Piece.none_at vallocated.new ((inv.live a n).mp inLive).1 place
    · have isExtent := (both.1.of_used tiling vallocated.member place).1
      simp only [isExtent, Function.update_self, reduceCtorEq, and_false] at both

/-- A page that has left its class goes back to the free extents. -/
theorem SysInv.freePage (os : ℕ → Bool) {k : Caller} {pn : ℕ} (inv : SysInv Q s g)
    (at' : s.pc t = .freePage l pn k) :
    ∃ h, freeExtent os s.shared.heap pn = some h ∧
      ∃ g', SysInv Q ((s.setHeap h).setPc t (.release l k)) g' := by
  have small : l < numSmall := inv.inClass t l (by rw [at']; rfl)
  have holds : (s.pc t).holds = some l := by rw [at']; rfl
  have shelves := (inv.classes l small).shelves
  have page := inv.pages t
  simp only [Page1, at'] at page
  obtain ⟨owned, block⟩ := page
  obtain ⟨h, T, call, ok, change, -⟩ := inv.heap.freeExtent os block
  let s' := (s.setHeap h).setPc t (.release l k)
  have here : s'.pc t = .release l k := Function.update_self _ _ _
  have cut : Recut s s' g { g with blocks := T } t pn (fun x => x = ⟨pn, 1, .used (pn + 1)⟩)
      (fun _ => False) ∧ ∀ x ∈ T, x.kind ≠ .free → x.start ≠ pn :=
    Recut.of_free block inv.heap.inv change rfl
  obtain ⟨cut, none⟩ := cut
  have moved : ∀ P : Pc → Option ℕ, P (.freePage l pn k) = P (.release l k) →
      ∀ u, P (s'.pc u) = P (s.pc u) := by
    intro P same u
    by_cases isT : u = t
    · rw [isT, here, at', same]
    · rw [show s'.pc u = s.pc u from Function.update_of_ne isT _ _]
  refine ⟨h, call, _, inv.blockStep ⟨cut, ok, fun e u other _ theirs => ?_,
    fun u other => Function.update_of_ne other _ _, ?_, rfl, rfl, fun _ _ => rfl, fun _ _ => rfl,
    fun j same => ?_, ?_, ?_, fun n e used => absurd rfl (none _ used (by simp)), fun a n place => ?_,
    fun a n _ => Iff.rfl, inv.nodup, rfl⟩⟩
  · rw [owned] at theirs
    exact other (Owner.thread.inj theirs).symm
  · exact moved Pc.cls rfl t
  · obtain rfl : j = l := by
      rw [at'] at same
      exact (Option.some.inj same).symm
    refine ⟨holds, by rw [here]; rfl, cut.shelves shelves ?_ ?_ rfl rfl ?_ ?_ ?_, ?_⟩
    · intro block'
      have same := inv.heap.inv.tiling.eq_of_start block' block rfl
      simp at same
    · exact fun block' => none _ block' (by simp) rfl
    · rintro - ⟨u, flushing⟩
      exact ⟨u, by rw [moved Pc.flushes rfl u, flushing]⟩
    · rintro - ⟨u, taking⟩
      exact ⟨u, by rw [moved Pc.takes rfl u, taking]⟩
    · rintro ⟨u, releasing⟩
      exact ⟨u, by rw [← moved Pc.releases rfl u, releasing]⟩
    · refine cut.holding ((inv.classes j small).holding t) rfl (by rw [here, at']; rfl) ?_
      have is := ((inv.classes j small).holding t).lists
      rw [at'] at is
      rw [here]
      exact is
  · rw [Page1, here]
    trivial
  · intro q page
    rw [at'] at page
    exact (Option.some.inj page).symm
  · refine iff_of_false (fun inLive => ?_) fun both => ?_
    · obtain ⟨piece, isProgram⟩ := (inv.live a n).mp inLive
      rw [(piece.of_used inv.heap.inv.tiling block place).1, owned] at isProgram
      cases isProgram
    · exact both.1.none_at none place

end Elcrq.Malloc
