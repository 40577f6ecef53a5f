import Elcrq.Malloc.Ownership

/-! # Steps on a thread's own lists

Most steps of a thread concern its own lists of one class, and at most hand one chunk
over to the program or take one back. They are all alike for the other threads, the
other classes and the pages; `PrivateStep` says in which way. -/

set_option autoImplicit false

namespace Elcrq.Malloc

open Elcrq.Store

universe u

variable {τ : Type u}

/-- A step of thread `t` on its lists of class `l`, after which the lists are in order again. -/
structure PrivateStep (Q : Tally) (s s' : State τ) (g g' : Ghost τ) (t : τ) (l : ℕ) : Prop where
  heap : s'.shared.heap = s.shared.heap
  first : s'.shared.freechunks = s.shared.freechunks
  blocks : g'.blocks = g.blocks
  pages : g'.pages = g.pages
  free : g'.free = g.free
  owner : ∀ a, g'.owner a = g.owner a ∨ IsChunk g.blocks l a ∧
    (g.owner a = .thread t ∨ g.owner a = .program) ∧
    (g'.owner a = .thread t ∨ g'.owner a = .program ∨ g'.owner a = .lost)
  next : ∀ a, s'.shared.next a = s.shared.next a ∨ IsChunk g.blocks l a ∧ g'.owner a = .thread t
  pc : ∀ u, u ≠ t → s'.pc u = s.pc u
  cls : ∀ k, k ≠ l → (s.pc t).cls ≠ some k ∧ (s'.pc t).cls ≠ some k
  lists : ∀ u k, u ≠ t ∨ k ≠ l → s'.lists u k = s.lists u k
  ghost : ∀ u k, u ≠ t ∨ k ≠ l → g'.cache u k = g.cache u k ∧ g'.spare u k = g.spare u k ∧
    g'.moving u k = g.moving u k
  lock : ∀ k, k ≠ l → s'.lock k = s.lock k
  holder : ∀ u, s'.lock l = some u ↔ (s'.pc u).holds = some l
  holding : Holding Q s' g' l t
  marked : (∃ p ∈ g.pages l, (s.shared.heap.desc p).count = -1) →
    (s.pc t).flushes = some l → (s'.pc t).flushes = some l
  full : (∃ p ∈ g.pages l, (g.free p).length = perPage l ∧ g.pages l = [p]) →
    (s.pc t).takes = some l → (s'.pc t).takes = some l
  sorted : (s'.pc t).releases = none
  page : Page1 s' g' t
  notPage : (s.pc t).page = none
  live : ∀ a n, (a, n) ∈ s'.live ↔ Piece g.blocks a n ∧ g'.owner a = .program
  nodup : (s'.live.map Prod.fst).Nodup
  lost : ∀ fl ∈ s.lost, fl ∈ s'.lost
  added : ∀ fl ∈ s'.lost, fl ∈ s.lost ∨ ∃ c, Chain s'.shared.next 0 fl c ∧
    ∀ b ∈ c, IsChunk g.blocks l b ∧ g'.owner b = .lost
  dropped : ∀ a, g.owner a ≠ .lost → g'.owner a = .lost → ∃ fl ∈ s'.lost, ∃ c,
    Chain s'.shared.next 0 fl c ∧ a ∈ c ∧ ∀ b ∈ c, IsChunk g.blocks l b ∧ g'.owner b = .lost

section PrivateStep

variable {Q : Tally} {s s' : State τ} {g g' : Ghost τ} {t : τ} {l : ℕ}

theorem PrivateStep.owner_other (step : PrivateStep Q s s' g g' t l) {u : τ} (other : u ≠ t) (a : ℕ) :
    g'.owner a = .thread u ↔ g.owner a = .thread u := by
  rcases step.owner a with same | ⟨-, before, after⟩
  · rw [same]
  · constructor
    · intro owned
      rw [owned] at after
      rcases after with same | same | same <;> cases same
      exact absurd rfl other
    · intro owned
      rw [owned] at before
      rcases before with same | same <;> cases same
      exact absurd rfl other

theorem PrivateStep.owner_page (step : PrivateStep Q s s' g g' t l) (a : ℕ) :
    g'.owner a = .page ↔ g.owner a = .page := by
  rcases step.owner a with same | ⟨-, before, after⟩
  · rw [same]
  · constructor
    · intro owned
      rw [owned] at after
      rcases after with same | same | same <;> cases same
    · intro owned
      rw [owned] at before
      rcases before with same | same <;> cases same

theorem PrivateStep.owner_lost (step : PrivateStep Q s s' g g' t l) {a : ℕ} (owned : g.owner a = .lost) :
    g'.owner a = .lost := by
  rcases step.owner a with same | ⟨-, before, -⟩
  · rw [same, owned]
  · rw [owned] at before
    rcases before with same | same <;> cases same

theorem PrivateStep.next_of (step : PrivateStep Q s s' g g' t l) {a : ℕ}
    (other : g'.owner a ≠ .thread t) : s'.shared.next a = s.shared.next a :=
  (step.next a).resolve_right fun changed => other changed.2

theorem PrivateStep.classInv (step : PrivateStep Q s s' g g' t l) (inv : ClassInv Q s g l) :
    ClassInv Q s' g' l := by
  have blocks : ∀ p k, (⟨p, 1, .small k⟩ : Block) ∈ g'.blocks ↔ (⟨p, 1, .small k⟩ : Block) ∈ g.blocks :=
    fun p k => by rw [step.blocks]
  have moved : ∀ P : Pc → Option ℕ, (P (s.pc t) = some l → P (s'.pc t) = some l) →
      (∃ u, P (s.pc u) = some l) → ∃ u, P (s'.pc u) = some l := by
    rintro P mine ⟨u, here⟩
    by_cases isT : u = t
    · exact ⟨t, mine (isT ▸ here)⟩
    · exact ⟨u, by rw [step.pc u isT, here]⟩
  refine ⟨?_, fun u => ?_, step.holder⟩
  · refine inv.shelves.congr (by rw [step.first]) (by rw [step.pages]) (fun p => blocks p l)
      (fun p _ => by rw [step.heap]) (fun p _ => by rw [step.free]) (fun a _ => step.owner_page a)
      (fun a _ owned => step.next_of ?_) (fun some => moved Pc.flushes (step.marked some))
      (fun some => moved Pc.takes (step.full some)) ?_
    · rw [(step.owner_page a).mpr owned]
      simp
    · rintro ⟨u, releasing⟩
      by_cases isT : u = t
      · subst isT
        rw [step.sorted] at releasing
        cases releasing
      · exact ⟨u, by rw [← step.pc u isT, releasing]⟩
  · by_cases isT : u = t
    · subst isT
      exact step.holding
    · obtain ⟨cache, spare, moving⟩ := step.ghost u l (Or.inl isT)
      refine (inv.holding u).congr (step.pc u isT) (step.lists u l (Or.inl isT)) cache spare moving
        (fun a _ owned => step.next_of ?_) fun a => ?_
      · rw [(step.owner_other isT a).mpr owned]
        simpa using isT
      · rw [IsChunk.congr fun p => blocks p l, step.owner_other isT a]

theorem SysInv.privateStep (inv : SysInv Q s g) (small : l < numSmall)
    (step : PrivateStep Q s s' g g' t l) : SysInv Q s' g' := by
  have tiling := inv.heap.inv.tiling
  refine ⟨by rw [step.heap, step.blocks]; exact inv.heap, fun k below => ?_, fun u k here => ?_,
    fun u => ?_, by rw [step.blocks]; exact step.live, step.nodup, fun p n e block => ?_,
    fun fl member => ?_, fun k a chunk owned => ?_⟩
  · by_cases same : k = l
    · subst same
      exact step.classInv (inv.classes k below)
    · refine (inv.classes k below).elsewhere (t := t) ?_
      refine ⟨(step.cls k same).1, (step.cls k same).2, step.pc, fun u => step.lists u k (Or.inr same),
        step.lock k same, by rw [step.first], by rw [step.pages], fun p => by rw [step.blocks],
        fun p _ => by rw [step.heap], fun p _ => by rw [step.free], fun a chunk => ?_,
        fun a chunk => ?_, fun u => step.ghost u k (Or.inr same)⟩
      · refine (step.owner a).resolve_right fun changed => same ?_
        exact chunk.class_eq tiling changed.1
      · refine (step.next a).resolve_right fun changed => same ?_
        exact chunk.class_eq tiling changed.1
  · by_cases isT : u = t
    · subst isT
      by_contra above
      have other : k ≠ l := by
        rintro rfl
        exact above small
      exact (step.cls k other).2 here
    · rw [step.pc u isT] at here
      exact inv.inClass u k here
  · by_cases isT : u = t
    · subst isT
      exact step.page
    · have old := inv.pages u
      simp only [Page1, step.pc u isT, step.pages, step.blocks] at old ⊢
      cases pc : s.pc u with
      | fresh k want fl pn =>
          simp only [pc] at old ⊢
          exact ⟨old.1, old.2.1, (step.owner_other isT _).mpr old.2.2.1, old.2.2.2⟩
      | freePage k pn c =>
          simp only [pc] at old ⊢
          exact ⟨(step.owner_other isT _).mpr old.1, old.2⟩
      | _ => trivial
  · rw [step.blocks] at block
    have same : g'.owner (p * pageSize) = g.owner (p * pageSize) :=
      (step.owner _).resolve_right fun changed =>
        not_chunk_of_used tiling block (page_of p) l changed.1
    rw [same]
    refine (inv.used p n e block).imp_right ?_
    rintro ⟨u, page⟩
    have other : u ≠ t := by
      rintro rfl
      rw [step.notPage] at page
      cases page
    exact ⟨u, by rw [step.pc u other, page]⟩
  · rw [step.blocks]
    rcases step.added fl member with old | ⟨c, chain, all⟩
    · obtain ⟨c, chain, all⟩ := inv.stray fl old
      have kept : ∀ b ∈ c, g'.owner b = .lost := fun b inside => by
        obtain ⟨k, -, owned⟩ := all b inside
        exact step.owner_lost owned
      refine ⟨c, chain.congr fun b inside => step.next_of ?_, fun b inside => ?_⟩
      · rw [kept b inside]
        simp
      · obtain ⟨k, chunk, -⟩ := all b inside
        exact ⟨k, chunk, kept b inside⟩
    · exact ⟨c, chain, fun b inside => ⟨l, all b inside⟩⟩
  · by_cases old : g.owner a = .lost
    · rw [step.blocks] at chunk
      obtain ⟨fl, member, c, chain, inside, all⟩ := inv.lost k a chunk old
      refine ⟨fl, step.lost fl member, c, chain.congr fun b memberB => step.next_of ?_, inside,
        fun b memberB => ⟨by rw [step.blocks]; exact (all b memberB).1,
          step.owner_lost (all b memberB).2⟩⟩
      rw [step.owner_lost (all b memberB).2]
      simp
    · obtain ⟨fl, member, c, chain, inside, all⟩ := step.dropped a old owned
      rw [step.blocks] at chunk ⊢
      have same : k = l := chunk.class_eq tiling (all a inside).1
      exact ⟨fl, member, c, chain, inside, by rw [same]; exact all⟩

end PrivateStep

/-! ### The steps -/

section Facts

variable {Q : Tally} {s : State τ} {g : Ghost τ} {t : τ} {l a : ℕ}

theorem Holding.owned (holding : Holding Q s g l t)
    (member : a ∈ g.cache t l ++ (g.spare t l ++ g.moving t l)) :
    IsChunk g.blocks l a ∧ g.owner a = .thread t := (holding.mine a).mp member

theorem IsChunk.ne_zero {T : List Block} {h : Heap} {top : ℕ} (chunk : IsChunk T l a)
    (inv : Inv h T top) : a ≠ 0 := by
  rintro rfl
  have block : (⟨0, 1, .small l⟩ : Block) ∈ T := by simpa using chunk.1
  have same := inv.tiling.eq_of_start block inv.origin rfl
  simp at same

theorem SysInv.resting (inv : SysInv Q s g) (small : l < numSmall) (idle : s.pc t = .idle) :
    Resting s.shared.next (s.lists t l) (g.cache t l) (g.spare t l) (g.moving t l) := by
  have is := ((inv.classes l small).holding t).lists
  rwa [idle] at is

theorem SysInv.not_locked (inv : SysInv Q s g) (small : l < numSmall) (out : (s.pc t).holds = none) :
    s.lock l ≠ some t := by
  intro locked
  rw [((inv.classes l small).lock t).mp locked] at out
  cases out

theorem SysInv.notMem_live (inv : SysInv Q s g) (owned : g.owner a = .thread t) :
    a ∉ s.live.map Prod.fst := by
  intro member
  obtain ⟨⟨b, n⟩, inLive, same⟩ := List.mem_map.mp member
  simp only at same
  subst same
  have := ((inv.live b n).mp inLive).2
  rw [owned] at this
  cases this

theorem SysInv.freed {n : ℕ} (inv : SysInv Q s g) (inLive : (a, n) ∈ s.live)
    (small : (s.shared.heap.desc (a / pageSize)).code < numSmall) :
    IsChunk g.blocks (s.shared.heap.desc (a / pageSize)).code a ∧ g.owner a = .program := by
  obtain ⟨piece, owned⟩ := (inv.live a n).mp inLive
  refine ⟨?_, owned⟩
  rcases piece with ⟨p, k, e, block, rfl, -⟩ | ⟨l, chunk, -⟩
  · have code := ((inv.heap.inv.described _ block).used rfl).1
    rw [Nat.mul_div_cancel _ (by decide)] at small
    simp only at code
    rw [code] at small
    exact absurd small (by decide)
  · have code := ((inv.heap.inv.described _ chunk.1).small rfl).2.2
    simp only at code
    rwa [code]

theorem SysInv.live_filter (inv : SysInv Q s g) (a : ℕ) :
    (∀ b n, (b, n) ∈ s.live.filter (·.1 ≠ a) ↔ b ≠ a ∧ (b, n) ∈ s.live) ∧
      ((s.live.filter (·.1 ≠ a)).map Prod.fst).Nodup := by
  refine ⟨fun b n => ?_, ?_⟩
  · simp [and_comm]
  · exact inv.nodup.sublist (List.filter_sublist.map _)

end Facts

variable [DecidableEq τ]

def set2 {α : Type} (f : τ → ℕ → α) (t : τ) (l : ℕ) (v : α) : τ → ℕ → α :=
  Function.update f t (Function.update (f t) l v)

@[simp] theorem set2_self {α : Type} (f : τ → ℕ → α) (t : τ) (l : ℕ) (v : α) :
    set2 f t l v t l = v := by
  simp [set2]

theorem set2_of_ne {α : Type} (f : τ → ℕ → α) {t u : τ} {l k : ℕ} (v : α) (other : u ≠ t ∨ k ≠ l) :
    set2 f t l v u k = f u k := by
  by_cases isT : u = t
  · subst isT
    have notL : k ≠ l := other.resolve_left fun differ => differ rfl
    simp [set2, notL]
  · simp [set2, isT]

namespace Ghost

def setLists (g : Ghost τ) (t : τ) (l : ℕ) (cache spare moving : List ℕ) : Ghost τ :=
  { g with
    cache := set2 g.cache t l cache
    spare := set2 g.spare t l spare
    moving := set2 g.moving t l moving }

def setOwner (g : Ghost τ) (a : ℕ) (o : Owner τ) : Ghost τ :=
  { g with owner := Function.update g.owner a o }

theorem setLists_ghost (g : Ghost τ) {t u : τ} {l k : ℕ} {cache spare moving : List ℕ}
    (other : u ≠ t ∨ k ≠ l) :
    (g.setLists t l cache spare moving).cache u k = g.cache u k ∧
    (g.setLists t l cache spare moving).spare u k = g.spare u k ∧
    (g.setLists t l cache spare moving).moving u k = g.moving u k :=
  ⟨set2_of_ne _ _ other, set2_of_ne _ _ other, set2_of_ne _ _ other⟩

end Ghost

section Steps

variable {Q : Tally} {s s' : State τ} {g : Ghost τ} {t : τ} {l a : ℕ} {f : LocalFree}

theorem SysInv.relist (inv : SysInv Q s g) (pc : Pc) (cache spare moving : List ℕ) (small : l < numSmall)
    (shared : s'.shared = s.shared)
    (lists : s'.lists = set2 s.lists t l f) (pcs : s'.pc = Function.update s.pc t pc)
    (live : s'.live = s.live) (lost : s'.lost = s.lost)
    (cls : ∀ k, k ≠ l → (s.pc t).cls ≠ some k) (cls' : ∀ k, k ≠ l → pc.cls ≠ some k)
    (lock : ∀ k, k ≠ l → s'.lock k = s.lock k)
    (mine : s'.lock l = some t ↔ pc.holds = some l)
    (others : ∀ u, u ≠ t → (s'.lock l = some u ↔ s.lock l = some u))
    (counted : Counted Q l f cache.length spare.length pc)
    (is : Local s.shared.next l f cache spare moving pc)
    (perm : (cache ++ (spare ++ moving)).Perm (g.cache t l ++ (g.spare t l ++ g.moving t l)))
    (marked : (∃ p ∈ g.pages l, (s.shared.heap.desc p).count = -1) →
      (s.pc t).flushes = some l → pc.flushes = some l)
    (full : (∃ p ∈ g.pages l, (g.free p).length = perPage l ∧ g.pages l = [p]) →
      (s.pc t).takes = some l → pc.takes = some l)
    (sorted : pc.releases = none) (page : ∀ k want fl pn, pc ≠ .fresh k want fl pn)
    (notPage : (s.pc t).page = none) :
    SysInv Q s' (g.setLists t l cache spare moving) := by
  have here : s'.pc t = pc := by rw [pcs, Function.update_self]
  have there : ∀ u, u ≠ t → s'.pc u = s.pc u := fun u other => by
    rw [pcs, Function.update_of_ne other]
  refine inv.privateStep small (t := t) ⟨by rw [shared], by rw [shared], rfl, rfl, rfl,
    fun a => Or.inl rfl, fun a => Or.inl (by rw [shared]), there, fun k other => ?_,
    fun u k other => by rw [lists, set2_of_ne _ _ other], fun u k other => g.setLists_ghost other, lock,
    fun u => ?_, ⟨?_, ?_, ?_, fun a => ?_⟩, by rw [here]; exact marked, by rw [here]; exact full,
    by rw [here, sorted], ?_, notPage, by rw [live]; exact inv.live, by rw [live]; exact inv.nodup,
    fun fl member => by rw [lost]; exact member, fun fl member => Or.inl (lost ▸ member),
    fun a old new => absurd new old⟩
  · rw [here]
    exact ⟨cls k other, cls' k other⟩
  · by_cases isT : u = t
    · rw [isT, here]
      exact mine
    · rw [there u isT, others u isT]
      exact (inv.classes l small).lock u
  · rw [here, lists]
    simpa [Ghost.setLists] using counted
  · rw [here, lists, shared]
    simpa [Ghost.setLists] using is
  · simp only [Ghost.setLists, set2_self]
    exact perm.nodup_iff.mpr ((inv.classes l small).holding t).nodup
  · simp only [Ghost.setLists, set2_self]
    rw [perm.mem_iff]
    exact ((inv.classes l small).holding t).mine a
  · rw [Page1, here]
    cases pc with
    | fresh k want fl pn => exact absurd rfl (page k want fl pn)
    | freePage k pn c => cases sorted
    | _ => trivial

/-- One chunk changes hands between the thread and the program, or between two lists of the thread with
its link changed. -/
theorem SysInv.transfer (inv : SysInv Q s g) (o : Owner τ) (pc : Pc) (cache spare moving : List ℕ)
    (small : l < numSmall)
    (chunk : IsChunk g.blocks l a) (old : g.owner a = .thread t ∨ g.owner a = .program)
    (new : o = .thread t ∨ o = .program) (heap : s'.shared.heap = s.shared.heap)
    (first : s'.shared.freechunks = s.shared.freechunks)
    (next : ∀ b, s'.shared.next b = s.shared.next b ∨ b = a ∧ o = .thread t)
    (lists : s'.lists = set2 s.lists t l f) (pcs : s'.pc = Function.update s.pc t pc)
    (live : ∀ b n, (b, n) ∈ s'.live ↔
      b ≠ a ∧ (b, n) ∈ s.live ∨ b = a ∧ n = size l ∧ o = .program)
    (nodup : (s'.live.map Prod.fst).Nodup) (lost : s'.lost = s.lost)
    (cls : ∀ k, k ≠ l → (s.pc t).cls ≠ some k) (cls' : ∀ k, k ≠ l → pc.cls ≠ some k)
    (lock : ∀ k, k ≠ l → s'.lock k = s.lock k) (mine : s'.lock l = some t ↔ pc.holds = some l)
    (others : ∀ u, u ≠ t → (s'.lock l = some u ↔ s.lock l = some u))
    (counted : Counted Q l f cache.length spare.length pc)
    (is : Local s'.shared.next l f cache spare moving pc)
    (distinct : (cache ++ (spare ++ moving)).Nodup)
    (members : ∀ b, b ∈ cache ++ (spare ++ moving) ↔
      b ≠ a ∧ b ∈ g.cache t l ++ (g.spare t l ++ g.moving t l) ∨ b = a ∧ o = .thread t)
    (marked : (∃ p ∈ g.pages l, (s.shared.heap.desc p).count = -1) →
      (s.pc t).flushes = some l → pc.flushes = some l)
    (full : (∃ p ∈ g.pages l, (g.free p).length = perPage l ∧ g.pages l = [p]) →
      (s.pc t).takes = some l → pc.takes = some l)
    (sorted : pc.releases = none) (page : ∀ k want fl pn, pc ≠ .fresh k want fl pn)
    (notPage : (s.pc t).page = none) :
    SysInv Q s' ((g.setLists t l cache spare moving).setOwner a o) := by
  have here : s'.pc t = pc := by rw [pcs, Function.update_self]
  have there : ∀ u, u ≠ t → s'.pc u = s.pc u := fun u other => by
    rw [pcs, Function.update_of_ne other]
  have changed : ∀ b, b ≠ a →
      ((g.setLists t l cache spare moving).setOwner a o).owner b = g.owner b :=
    fun b other => Function.update_of_ne other _ _
  have there' : ((g.setLists t l cache spare moving).setOwner a o).owner a = o :=
    Function.update_self _ _ _
  refine inv.privateStep small (t := t) ⟨heap, first, rfl, rfl, rfl, fun b => ?_, fun b => ?_, there,
    fun k other => ?_, fun u k other => by rw [lists, set2_of_ne _ _ other],
    fun u k other => g.setLists_ghost other, lock, fun u => ?_, ⟨?_, ?_, ?_, fun b => ?_⟩,
    by rw [here]; exact marked, by rw [here]; exact full, by rw [here, sorted], ?_, notPage,
    fun b n => ?_, nodup, fun fl member => by rw [lost]; exact member,
    fun fl member => Or.inl (lost ▸ member), fun b notLost isLost => ?_⟩
  · by_cases same : b = a
    · subst same
      rw [there']
      exact Or.inr ⟨chunk, old, new.imp_right Or.inl⟩
    · exact Or.inl (changed b same)
  · refine (next b).imp_right ?_
    rintro ⟨rfl, mineNow⟩
    exact ⟨chunk, there'.trans mineNow⟩
  · rw [here]
    exact ⟨cls k other, cls' k other⟩
  · by_cases isT : u = t
    · rw [isT, here]
      exact mine
    · rw [there u isT, others u isT]
      exact (inv.classes l small).lock u
  · rw [here, lists]
    simpa [Ghost.setLists, Ghost.setOwner] using counted
  · rw [here, lists]
    simpa [Ghost.setLists, Ghost.setOwner] using is
  · simpa [Ghost.setLists, Ghost.setOwner] using distinct
  · have before := ((inv.classes l small).holding t).mine b
    have now : b ∈ ((g.setLists t l cache spare moving).setOwner a o).cache t l ++
        (((g.setLists t l cache spare moving).setOwner a o).spare t l ++
          ((g.setLists t l cache spare moving).setOwner a o).moving t l) ↔
        b ∈ cache ++ (spare ++ moving) := by
      simp [Ghost.setLists, Ghost.setOwner]
    rw [now, members]
    by_cases same : b = a
    · subst same
      rw [there']
      exact ⟨fun either => ⟨chunk, (either.resolve_left fun wrong => wrong.1 rfl).2⟩,
        fun both => Or.inr ⟨rfl, both.2⟩⟩
    · rw [changed b same, before]
      simp only [ne_eq, same, not_false_eq_true, true_and, false_and, or_false]
      exact Iff.rfl
  · rw [Page1, here]
    cases pc with
    | fresh k want fl pn => exact absurd rfl (page k want fl pn)
    | freePage k pn c => cases sorted
    | _ => trivial
  · rw [live]
    by_cases same : b = a
    · subst same
      rw [there']
      have piece : Piece g.blocks b (size l) := Or.inr ⟨l, chunk, rfl⟩
      constructor
      · rintro (⟨wrong, -⟩ | ⟨-, rfl, isProgram⟩)
        · exact absurd rfl wrong
        · exact ⟨piece, isProgram⟩
      · rintro ⟨piece', isProgram⟩
        exact Or.inr ⟨rfl, piece'.size_eq inv.heap.inv piece, isProgram⟩
    · rw [changed b same, inv.live]
      simp [same]
  · by_cases same : b = a
    · subst same
      rw [there'] at isLost
      rcases new with isThread | isProgram
      · rw [isThread] at isLost
        cases isLost
      · rw [isProgram] at isLost
        cases isLost
    · exact absurd ((changed b same).symm.trans isLost) notLost

theorem SysInv.pop (inv : SysInv Q s g) (small : l < numSmall) (idle : s.pc t = .idle)
    (some : (s.lists t l).free ≠ 0) : ∃ g', SysInv Q (s.pop t l) g' := by
  have holding := (inv.classes l small).holding t
  have rests := inv.resting small idle
  obtain ⟨rest, parts⟩ := rests.1.head_mem some
  have chain := rests.1
  rw [parts] at chain
  obtain ⟨chunk, owned⟩ := holding.owned (a := (s.lists t l).free) (by rw [parts]; simp)
  have nodup := holding.nodup
  rw [parts, List.cons_append, List.nodup_cons] at nodup
  have absent := inv.notMem_live owned
  have tally := holding.counted.out (by rw [idle]; rfl)
  rw [parts, List.length_cons] at tally
  refine ⟨_, inv.transfer .program .idle rest (g.spare t l) (g.moving t l) small chunk (Or.inl owned)
     (Or.inr rfl) rfl rfl (fun b => Or.inl rfl) rfl ?_
    (fun b n => ?_) ?_ rfl (by simp [idle, Pc.cls]) (by simp [Pc.cls]) (fun k _ => rfl) ?_
    (fun u _ => Iff.rfl) (.of_tally (Q.pop tally) (by simp [Pc.behalf])) ⟨chain.2.2, rests.2⟩ nodup.2
    (fun b => ?_) (by simp [idle, Pc.flushes]) (by simp [idle, Pc.takes]) rfl (by simp) (by rw [idle]; rfl)⟩
  · rw [← idle, Function.update_eq_self]
    rfl
  · simp only [State.pop, List.mem_cons, Prod.mk.injEq]
    by_cases same : b = (s.lists t l).free
    · subst same
      simp only [true_and, ne_eq, not_true, false_and, false_or, and_true, or_iff_left_iff_imp]
      exact fun inLive => absurd (List.mem_map_of_mem (f := Prod.fst) inLive) absent
    · simp [same]
  · simp only [State.pop, List.map_cons, List.nodup_cons]
    exact ⟨absent, inv.nodup⟩
  · exact iff_of_false (inv.not_locked small (by rw [idle]; rfl)) (by simp [Pc.holds])
  · rw [parts, List.cons_append, List.mem_cons]
    by_cases same : b = (s.lists t l).free
    · subst same
      simp [nodup.1]
    · simp [same]

end Steps

end Elcrq.Malloc
