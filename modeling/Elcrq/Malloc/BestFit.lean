import Mathlib.Data.List.Perm.Subperm
import Mathlib.Data.Set.Insert
import Elcrq.Malloc.FreePages

/-! # `fp_remove`, `fp_add` and `fp_find`

Each operation keeps the list of lists in order. On the set of free extents they are
erasure, insertion, and the removal of the smallest extent that is large enough, the
lowest one of that size. -/

set_option autoImplicit false

namespace Elcrq.Malloc

open Elcrq.Store
open Elcrq.Malloc.Lists (head_mem rest_mem)

/-! ### Removing an extent -/

section Remove

variable {f : FreeLists} {gs gs₁ gs₂ : List Group} {g : Group} {p y b : ℕ} {t : Slot}

@[simp] theorem fpRemove_size (f : FreeLists) (p : ℕ) : (fpRemove f p).size = f.size := by
  unfold fpRemove
  dsimp only
  split_ifs <;> rfl

theorem fpRemove_next (next : f.link (.next p) = y) (some : y ≠ 0) (bigger : f.link (.bigger p) = b)
    (back : f.parent p = t) (notNext : t ≠ .next p) (notBigger : t ≠ .bigger p) (other : y ≠ p) :
    (fpRemove f p).link = Function.update (Function.update f.link t y) (.bigger y) b ∧
    (fpRemove f p).parent = if b ≠ 0 then
      Function.update (Function.update f.parent y t) b (.bigger y) else Function.update f.parent y t := by
  have unread : Slot.bigger p ≠ .bigger y := fun same => other (Slot.bigger.inj same).symm
  have nextAgain : Function.update (Function.update f.link t y) (.bigger y) b (.next p) = y := by
    rw [Function.update_of_ne Slot.noConfusion, Function.update_of_ne notNext.symm, next]
  have biggerAgain : Function.update (Function.update f.link t y) (.bigger y) b (.bigger p) = b := by
    rw [Function.update_of_ne unread, Function.update_of_ne notBigger.symm, bigger]
  unfold fpRemove
  simp only [next, ne_eq, some, not_false_eq_true, if_true, FreeLists.setLink_link, back,
    FreeLists.setParent_link, FreeLists.setLink_parent, Function.update_of_ne notNext.symm,
    Function.update_of_ne notBigger.symm, bigger, nextAgain, Function.update_self]
  split_ifs with last
  · exact ⟨rfl, rfl⟩
  · refine ⟨rfl, ?_⟩
    simp only [FreeLists.setParent_parent, FreeLists.setLink_parent, biggerAgain]

theorem fpRemove_last (next : f.link (.next p) = 0) (bigger : f.link (.bigger p) = b)
    (back : f.parent p = t) (notBigger : t ≠ .bigger p) :
    (fpRemove f p).link = Function.update f.link t b ∧
    (fpRemove f p).parent = if b ≠ 0 then Function.update f.parent b t else f.parent := by
  unfold fpRemove
  simp only [next, ne_eq, not_true, if_false, FreeLists.setLink_link, back, bigger,
    FreeLists.setLink_parent, Function.update_self, Function.update_of_ne notBigger.symm]
  split_ifs with last
  · exact ⟨rfl, rfl⟩
  · exact ⟨rfl, rfl⟩

theorem Lists.remove_single (lists : Lists f (gs₁ ++ ([g] ++ gs₂))) (single : g.rest = []) :
    Lists (fpRemove f g.head) (gs₁ ++ ([] ++ gs₂)) := by
  obtain ⟨m, before, back, after, notNext, notOwn⟩ := lists.slot_of
  have rest := lists.rests g (by simp)
  rw [single] at rest
  obtain ⟨link', parent'⟩ := fpRemove_last rest rfl back (notOwn _ (head_mem g))
  refine lists.replace m before after rfl ?_ ?_ ?_ ?_ ?_ (by simp) (by simp) (by simp)
    (by simp)
  · simp [link']
  · intro some
    simp [parent', some]
  · intro notRoot
    simp [link', Function.update_of_ne notRoot.symm]
  · intro g' outside x inside
    refine ⟨fun other => ?_, ?_, fun other => ?_, by simp⟩
    · simp [link', Function.update_of_ne other.symm]
    · simp [link', Function.update_of_ne (notNext x).symm]
    · rw [parent']
      split_ifs
      · exact Function.update_of_ne other _ _
      · rfl
  · exact lists.ascending.sublist (by simp)

/-- Taking out the first extent of a list puts the second one in its place. -/
theorem Lists.remove_first {rest : List ℕ} (lists : Lists f (gs₁ ++ ([g] ++ gs₂)))
    (more : g.rest = y :: rest) :
    Lists (fpRemove f g.head) (gs₁ ++ ([⟨g.size, y, rest⟩] ++ gs₂)) := by
  obtain ⟨m, before, back, after, notNext, notOwn⟩ := lists.slot_of
  have ended := lists.rests g (by simp)
  have sorted := lists.sorted g (by simp)
  have sizes := lists.sizes g (by simp)
  have flat := lists.flat g (by simp)
  have inside : ∀ x ∈ y :: rest, x ∈ g.pages := fun x member => rest_mem (more ▸ member)
  have distinct : ∀ x ∈ rest, x ≠ y := by
    rintro x member rfl
    rw [Group.pages, more] at sorted
    exact Nat.lt_irrefl _
      ((List.pairwise_cons.mp (List.pairwise_cons.mp sorted).2).1 x member)
  rw [more] at ended flat
  obtain ⟨next, real, -, onward⟩ := ended
  have other : y ≠ g.head := by
    rintro rfl
    rw [Group.pages, more] at sorted
    exact Nat.lt_irrefl _ ((List.pairwise_cons.mp sorted).1 _ List.mem_cons_self)
  have ownY : m ≠ .bigger y := notOwn y (inside y List.mem_cons_self)
  obtain ⟨link', parent'⟩ := fpRemove_next next real rfl back (notNext _) (notOwn _ (head_mem g)) other
  -- the list after this one starts with an extent outside it
  have later : ∀ x ∈ y :: rest, x ≠ f.link (.bigger g.head) := by
    intro x member same
    cases gs₂ with
    | nil => exact lists.ne_zero (by simp) (inside x member) (same.trans after)
    | cons g' gs =>
        refine lists.apart (List.mem_singleton_self g) (Or.inr List.mem_cons_self) (inside x member) ?_
        rw [same, after.1]
        exact head_mem g'
  have parentsElse : ∀ x, x ≠ y → x ≠ f.link (.bigger g.head) →
      (fpRemove f g.head).parent x = f.parent x := by
    intro x notY notLater
    rw [parent']
    split_ifs
    · rw [Function.update_of_ne notLater, Function.update_of_ne notY]
    · rw [Function.update_of_ne notY]
  have atY : (fpRemove f g.head).parent y = m := by
    rw [parent']
    split_ifs
    · rw [Function.update_of_ne (later y List.mem_cons_self), Function.update_self]
    · rw [Function.update_self]
  have nextsElse : ∀ x, (fpRemove f g.head).link (.next x) = f.link (.next x) := by
    intro x
    rw [link', Function.update_of_ne Slot.noConfusion, Function.update_of_ne (notNext x).symm]
  refine lists.replace (.bigger y) before after ?_ ?_ ?_ ?_ ?_ ?_
    ?_ ?_ ?_ ?_
  · refine ⟨?_, real, atY, rfl⟩
    rw [link', Function.update_of_ne ownY, Function.update_self]
  · rw [link', Function.update_self]
  · intro some
    rw [parent', if_pos some, Function.update_self]
  · intro notRoot
    rw [link', Function.update_of_ne Slot.noConfusion, Function.update_of_ne notRoot.symm]
  · intro g' outside x member
    have apart : x ≠ y := by
      rintro rfl
      exact lists.apart (List.mem_singleton_self g) outside (inside x List.mem_cons_self) member
    refine ⟨fun notSlot => ?_, nextsElse x, parentsElse x apart, by simp⟩
    rw [link', Function.update_of_ne (fun same => apart (Slot.bigger.inj same)),
      Function.update_of_ne notSlot.symm]
  · have ascending := List.pairwise_map.mpr lists.ascending
    have same : (gs₁ ++ ([g] ++ gs₂)).map Group.size =
        (gs₁ ++ ([(⟨g.size, y, rest⟩ : Group)] ++ gs₂)).map Group.size := by simp
    rw [same] at ascending
    exact List.pairwise_map.mp ascending
  · intro g' member
    rw [List.mem_singleton.mp member]
    refine onward.congr (nextsElse y) (fun x _ => nextsElse x) fun x member' => ?_
    exact parentsElse x (distinct x member') (later x (List.mem_cons_of_mem _ member'))
  · intro g' member x member'
    rw [List.mem_singleton.mp member] at member' ⊢
    rw [fpRemove_size]
    exact sizes x (inside x member')
  · intro g' member x member'
    rw [List.mem_singleton.mp member] at member'
    have notY := distinct x member'
    rw [link', Function.update_of_ne (fun same => notY (Slot.bigger.inj same)),
      Function.update_of_ne (notOwn x (inside x (List.mem_cons_of_mem _ member'))).symm]
    exact flat x (List.mem_cons_of_mem _ member')
  · intro g' member
    rw [List.mem_singleton.mp member]
    rw [Group.pages, more] at sorted
    exact (List.pairwise_cons.mp sorted).2

/-- Taking out a later extent of a list. -/
theorem Lists.remove_rest {front back : List ℕ} (lists : Lists f (gs₁ ++ ([g] ++ gs₂)))
    (parts : g.rest = front ++ p :: back) :
    Lists (fpRemove f p) (gs₁ ++ ([{ g with rest := front ++ back }] ++ gs₂)) := by
  have member : g ∈ gs₁ ++ ([g] ++ gs₂) := by simp
  obtain ⟨z, zInside, path, ended, zNotLater, unread⟩ := lists.inner_slot member parts
  obtain ⟨here, real, parent, onward⟩ := ended
  have distinct : g.pages.Nodup := (lists.sorted g member).imp Nat.ne_of_lt
  rw [Group.pages, parts, ← List.cons_append] at distinct
  have flat := lists.flat g member
  have flatP : f.link (.bigger p) = 0 := flat p (by simp [parts])
  have zNotP : z ≠ p := fun same => zNotLater (same ▸ List.mem_cons_self)
  have backInside : ∀ x ∈ back, x ∈ g.rest := fun x inside => by simp [parts, inside]
  have frontInside : ∀ x ∈ front, x ∈ g.rest := fun x inside => by simp [parts, inside]
  have backDistinct : (p :: back).Nodup := (List.nodup_append.mp distinct).2.1
  have notP : Slot.next z ≠ .next p := fun same => zNotP (Slot.next.inj same)
  -- in both cases one link changes, and one parent if there is a next extent
  have change : (fpRemove f p).link (.next z) = f.link (.next p) ∧
      (∀ s, s ≠ .next z → (fpRemove f p).link s = f.link s) ∧
      (∀ y, back.head? = some y → (fpRemove f p).parent y = .next z) ∧
      (∀ x, back.head? ≠ some x → (fpRemove f p).parent x = f.parent x) := by
    cases back with
    | nil =>
        obtain ⟨link', parent'⟩ := fpRemove_last onward flatP parent Slot.noConfusion
        rw [link', parent', Function.update_self]
        refine ⟨onward.symm, fun s other => Function.update_of_ne other _ _, ?_, fun x _ => by simp⟩
        intro y first
        cases first
    | cons y back =>
        obtain ⟨next, some, -, -⟩ := onward
        have notY : y ≠ p := fun same => (List.nodup_cons.mp backDistinct).1 (same ▸ List.mem_cons_self)
        obtain ⟨link', parent'⟩ := fpRemove_next next some flatP parent notP Slot.noConfusion notY
        rw [link', parent']
        refine ⟨?_, fun s other => ?_, ?_, fun x notFirst => ?_⟩
        · rw [Function.update_of_ne Slot.noConfusion, Function.update_self, next]
        · by_cases same : s = .bigger y
          · subst same
            rw [Function.update_self, flat y (backInside y List.mem_cons_self)]
          · rw [Function.update_of_ne same, Function.update_of_ne other]
        · intro y' first
          cases first
          simp
        · have other : x ≠ y := fun same => notFirst (same ▸ rfl)
          simp [Function.update_of_ne other]
  obtain ⟨atSlot, links, first, parents⟩ := change
  have outside : ∀ x, x ∉ back → (fpRemove f p).parent x = f.parent x := fun x notBack =>
    parents x fun isFirst => notBack (List.mem_of_head? isFirst)
  have groupOnly : ∀ g', g' ∈ gs₁ ∨ g' ∈ gs₂ → ∀ x ∈ g'.pages, x ∉ g.pages :=
    fun g' other x inside' inside => lists.apart (List.mem_singleton_self g) other inside inside'
  have zPage : z ∈ g.pages := by
    rcases List.mem_cons.mp zInside with rfl | inFront
    · exact head_mem g
    · exact rest_mem (frontInside z inFront)
  refine lists.inner (links _ Slot.noConfusion) (fun g' _ x _ => links _ Slot.noConfusion) ?_ ?_ ?_ ?_
    ?_ ?_
  · intro g' member'
    exact outside _ fun inBack => lists.head_notMem_rest member' member (backInside _ inBack)
  · intro g' other x inside
    refine ⟨links _ fun same => ?_, outside x fun inBack => ?_, by simp⟩
    · exact groupOnly g' other x inside (Slot.next.inj same ▸ zPage)
    · exact groupOnly g' other x inside (rest_mem (backInside x inBack))
  · refine ended_append.mpr ⟨.next z, path.congr ?_ ?_, onward.rehang atSlot first ?_ ?_⟩
    · exact fun s read => links s fun same => unread (same ▸ read)
    · intro x inFront
      refine outside x fun inBack => ?_
      exact (List.nodup_append.mp distinct).2.2 x (List.mem_cons_of_mem _ inFront) x
        (List.mem_cons_of_mem _ inBack) rfl
    · exact fun x inBack => links _ fun same =>
        zNotLater (List.mem_cons_of_mem _ (Slot.next.inj same ▸ inBack))
    · intro x inTail
      refine parents x fun isFirst => ?_
      cases back with
      | nil => cases inTail
      | cons y back =>
          cases isFirst
          exact (List.nodup_cons.mp (List.nodup_cons.mp backDistinct).2).1 inTail
  · intro x inside
    rw [fpRemove_size]
    refine lists.sizes g member x ?_
    simp only [Group.pages, parts, List.mem_cons, List.mem_append] at inside ⊢
    tauto
  · intro x inside
    rw [links _ Slot.noConfusion]
    refine flat x ?_
    rcases List.mem_append.mp inside with inFront | inBack
    · exact frontInside x inFront
    · exact backInside x inBack
  · have sorted := lists.sorted g member
    rw [Group.pages, parts] at sorted
    exact sorted.sublist (by simp)

theorem Lists.extents_without {mid : List Group} (lists : Lists f (gs₁ ++ ([g] ++ gs₂)))
    (inside : p ∈ g.pages)
    (changed : ∀ m x, (m, x) ∈ extents mid ↔ m = g.size ∧ x ∈ g.pages ∧ x ≠ p) (m x : ℕ) :
    (m, x) ∈ extents (gs₁ ++ (mid ++ gs₂)) ↔
      (m, x) ∈ extents (gs₁ ++ ([g] ++ gs₂)) ∧ x ≠ p := by
  have apart : (m, x) ∈ extents gs₁ ∨ (m, x) ∈ extents gs₂ → x ≠ p := by
    rintro elsewhere rfl
    have found : ∃ g', (g' ∈ gs₁ ∨ g' ∈ gs₂) ∧ x ∈ g'.pages := by
      rcases elsewhere with first | last
      · obtain ⟨g', member, -, inside'⟩ := mem_extents.mp first
        exact ⟨g', Or.inl member, inside'⟩
      · obtain ⟨g', member, -, inside'⟩ := mem_extents.mp last
        exact ⟨g', Or.inr member, inside'⟩
    obtain ⟨g', outside, inside'⟩ := found
    exact lists.apart (List.mem_singleton_self g) outside inside inside'
  simp only [extents_append, List.mem_append, changed, mem_extents_singleton]
  tauto

theorem Lists.fpRemove {n : ℕ} (lists : Lists f gs) (listed : (n, p) ∈ extents gs) :
    ∃ gs', Lists (fpRemove f p) gs' ∧ ∀ m x, (m, x) ∈ extents gs' ↔ (m, x) ∈ extents gs ∧ x ≠ p := by
  obtain ⟨g, member, -, inside⟩ := mem_extents.mp listed
  obtain ⟨gs₁, gs₂, rfl⟩ := List.append_of_mem member
  rw [show gs₁ ++ g :: gs₂ = gs₁ ++ ([g] ++ gs₂) from rfl] at lists ⊢
  have sorted := lists.sorted g (by simp)
  have distinct : g.pages.Nodup := sorted.imp Nat.ne_of_lt
  rcases List.mem_cons.mp inside with rfl | inRest
  · cases more : g.rest with
    | nil =>
        refine ⟨_, lists.remove_single more, lists.extents_without inside fun m x => ?_⟩
        simp only [extents, List.flatMap_nil, List.not_mem_nil, false_iff, Group.pages, more,
          List.mem_singleton]
        tauto
    | cons y rest =>
        refine ⟨_, lists.remove_first more, lists.extents_without inside fun m x => ?_⟩
        rw [Group.pages, more] at distinct
        have fresh := (List.nodup_cons.mp distinct).1
        simp only [mem_extents_singleton, Group.pages, more]
        constructor
        · rintro ⟨rfl, member'⟩
          exact ⟨rfl, List.mem_cons_of_mem _ member', ne_of_mem_of_not_mem member' fresh⟩
        · rintro ⟨rfl, member', other⟩
          exact ⟨rfl, (List.mem_cons.mp member').resolve_left other⟩
  · obtain ⟨front, back, parts⟩ := List.append_of_mem inRest
    refine ⟨_, lists.remove_rest parts, lists.extents_without inside fun m x => ?_⟩
    rw [Group.pages, parts, ← List.cons_append, List.nodup_middle] at distinct
    have fresh := (List.nodup_cons.mp distinct).1
    simp only [mem_extents_singleton, Group.pages, parts]
    simp only [List.mem_cons, List.mem_append] at fresh ⊢
    constructor
    · rintro ⟨rfl, member'⟩
      refine ⟨rfl, by tauto, ?_⟩
      rintro rfl
      tauto
    · rintro ⟨rfl, member', other⟩
      exact ⟨rfl, by tauto⟩

end Remove

/-! ### Adding an extent -/

section Add

variable {f : FreeLists} {gs gs₁ gs₂ : List Group} {g : Group} {p y b n : ℕ} {t : Slot}

theorem attach_new (here : f.link t = b) (notNext : t ≠ .next p) :
    (attach (fpAddNew f p t) p t).link =
      Function.update (Function.update (Function.update f.link (.next p) 0) (.bigger p) b) t p ∧
    (attach (fpAddNew f p t) p t).parent =
      Function.update (if b ≠ 0 then Function.update f.parent b (.bigger p) else f.parent) p t := by
  unfold fpAddNew attach
  simp only [FreeLists.setLink_link, Function.update_of_ne notNext, here, Function.update_self]
  split_ifs with last
  · exact ⟨rfl, rfl⟩
  · exact ⟨rfl, rfl⟩

theorem attach_same_none (here : f.link t = 0) :
    (attach (fpAddSame f p t) p t).link =
      Function.update (Function.update (Function.update f.link (.next p) 0) (.bigger p) 0) t p ∧
    (attach (fpAddSame f p t) p t).parent = Function.update f.parent p t := by
  unfold fpAddSame attach
  simp only [FreeLists.setLink_link, here, Function.update_self, ne_eq, not_true, if_false]
  exact ⟨rfl, rfl⟩

theorem attach_same_some (here : f.link t = y) (some : y ≠ 0) (other : y ≠ p)
    (bigger : f.link (.bigger y) = b) :
    (attach (fpAddSame f p t) p t).link =
      Function.update (Function.update (Function.update (Function.update f.link (.next p) y)
        (.bigger p) b) (.bigger y) 0) t p ∧
    (attach (fpAddSame f p t) p t).parent =
      Function.update (Function.update (if b ≠ 0 then Function.update f.parent b (.bigger p)
        else f.parent) y (.next p)) p t := by
  have apart : Slot.bigger y ≠ .bigger p := fun same => other (Slot.bigger.inj same)
  have nextAgain : Function.update (Function.update f.link (.next p) y) (.bigger p) b (.next p) = y := by
    rw [Function.update_of_ne Slot.noConfusion, Function.update_self]
  have biggerHere : Function.update f.link (.next p) y (.bigger y) = b := by
    rw [Function.update_of_ne Slot.noConfusion, bigger]
  unfold fpAddSame attach
  simp only [FreeLists.setLink_link, here, Function.update_self, ne_eq, some, not_false_eq_true,
    if_true, biggerHere, FreeLists.setParent_link, nextAgain]
  split_ifs with last
  · -- no larger list: the field is zero as it is
    have zero : Function.update (Function.update (Function.update f.link (.next p) y)
        (.bigger p) b) (.bigger y) 0 =
        Function.update (Function.update f.link (.next p) y) (.bigger p) b := by
      rw [Function.update_eq_self_iff, Function.update_of_ne apart, biggerHere]
      exact last.symm
    rw [zero]
    simp
  · simp only [FreeLists.setParent_link, FreeLists.setLink_link, FreeLists.setParent_parent,
      FreeLists.setLink_parent, Function.update_of_ne (show Slot.next p ≠ .bigger y from
        Slot.noConfusion), nextAgain]
    exact ⟨trivial, trivial⟩

@[simp] theorem attach_size (f : FreeLists) (p : ℕ) (t : Slot) : (attach f p t).size = f.size := rfl

@[simp] theorem fpAddNew_size (f : FreeLists) (p : ℕ) (t : Slot) : (fpAddNew f p t).size = f.size := by
  unfold fpAddNew
  dsimp only
  split_ifs <;> rfl

@[simp] theorem fpAddSame_size (f : FreeLists) (p : ℕ) (t : Slot) :
    (fpAddSame f p t).size = f.size := by
  unfold fpAddSame
  dsimp only
  split_ifs <;> rfl

/-- A list of its own, between the smaller sizes and the larger ones. -/
theorem Lists.add_new {m : Slot} (lists : Lists f (gs₁ ++ gs₂))
    (before : Path f.link f.parent .bigger 0 .freepages (gs₁.map Group.head) m)
    (after : Ended f.link f.parent .bigger 0 m (gs₂.map Group.head)) (real : p ≠ 0)
    (fresh : ∀ g ∈ gs₁ ++ gs₂, p ∉ g.pages) (size : f.size p = n) (less : ∀ g ∈ gs₁, g.size < n)
    (greater : ∀ g ∈ gs₂, n < g.size) :
    Lists (attach (fpAddNew f p m) p m) (gs₁ ++ ([⟨n, p, []⟩] ++ gs₂)) := by
  have owner : m = .freepages ∨ ∃ g ∈ gs₁, m = .bigger g.head := by
    rcases before.last with first | ⟨h, member, same⟩
    · exact Or.inl first
    · obtain ⟨g, inside, rfl⟩ := List.mem_map.mp member
      exact Or.inr ⟨g, inside, same⟩
  have notNext : ∀ x, m ≠ .next x := by
    rintro x rfl
    rcases owner with same | ⟨g, -, same⟩ <;> cases same
  have notOwn : m ≠ .bigger p := by
    rintro rfl
    rcases owner with same | ⟨g, member, same⟩
    · cases same
    · cases same
      exact fresh g (List.mem_append_left _ member) (head_mem g)
  have other : f.link m ≠ p := by
    cases gs₂ with
    | nil => exact fun same => real (same.symm.trans after)
    | cons g gs =>
        rw [after.1]
        intro same
        exact fresh g (by simp) (same ▸ head_mem g)
  obtain ⟨link', parent'⟩ := attach_new (p := p) (b := f.link m) rfl (notNext p)
  change Lists f (gs₁ ++ ([] ++ gs₂)) at lists
  refine lists.replace (.bigger p) before after ?_ ?_ ?_ ?_ ?_
    ?_ ?_ ?_ ?_ ?_
  · refine ⟨?_, real, ?_, rfl⟩
    · rw [link', Function.update_self]
    · rw [parent', Function.update_self]
  · rw [link', Function.update_of_ne notOwn.symm, Function.update_self]
  · intro some
    rw [parent', Function.update_of_ne other, if_pos some, Function.update_self]
  · intro notRoot
    rw [link', Function.update_of_ne notRoot.symm, Function.update_of_ne Slot.noConfusion,
      Function.update_of_ne Slot.noConfusion]
  · intro g' outside x inside
    have notP : x ≠ p := by
      rintro rfl
      exact fresh g' (List.mem_append.mpr outside) inside
    refine ⟨fun notSlot => ?_, ?_, fun notLater => ?_, by simp⟩
    · rw [link', Function.update_of_ne notSlot.symm,
        Function.update_of_ne (fun same => notP (Slot.bigger.inj same)),
        Function.update_of_ne Slot.noConfusion]
    · rw [link', Function.update_of_ne (notNext x).symm, Function.update_of_ne Slot.noConfusion,
        Function.update_of_ne (fun same => notP (Slot.next.inj same))]
    · rw [parent', Function.update_of_ne notP]
      split_ifs
      · exact Function.update_of_ne notLater _ _
      · rfl
  · obtain ⟨first, last, cross⟩ := List.pairwise_append.mp lists.ascending
    refine List.pairwise_append.mpr ⟨first, List.pairwise_cons.mpr ⟨greater, last⟩, ?_⟩
    intro a inA b inB
    rcases List.mem_cons.mp inB with rfl | later
    · exact less a inA
    · exact cross a inA b later
  · intro g' member
    rw [List.mem_singleton.mp member]
    show (attach (fpAddNew f p m) p m).link (.next p) = 0
    rw [link', Function.update_of_ne (notNext p).symm, Function.update_of_ne Slot.noConfusion,
      Function.update_self]
  · intro g' member x inside
    rw [List.mem_singleton.mp member] at inside ⊢
    obtain rfl := List.mem_singleton.mp inside
    simpa using size
  · intro g' member x inside
    rw [List.mem_singleton.mp member] at inside
    cases inside
  · intro g' member
    rw [List.mem_singleton.mp member]
    exact List.pairwise_singleton _ _

/-- In front of the list of its size. -/
theorem Lists.add_front (lists : Lists f (gs₁ ++ ([g] ++ gs₂))) (real : p ≠ 0)
    (fresh : ∀ g' ∈ gs₁ ++ ([g] ++ gs₂), p ∉ g'.pages) (size : f.size p = g.size)
    (lower : ∀ x ∈ g.pages, p < x) (slot : f.parent g.head = t) :
    Lists (attach (fpAddSame f p t) p t) (gs₁ ++ ([⟨g.size, p, g.pages⟩] ++ gs₂)) := by
  obtain ⟨m, before, back, after, notNext, notOwn⟩ := lists.slot_of
  obtain rfl : m = t := back.symm.trans slot
  have member : g ∈ gs₁ ++ ([g] ++ gs₂) := by simp
  have here : f.link m = g.head := by
    have heads := lists.heads
    rw [List.map_append, List.map_append] at heads
    obtain ⟨m', path, ended⟩ := ended_append.mp heads
    rw [← back, ended.2.2.1]
    exact ended.1
  have ownP : m ≠ .bigger p := by
    rintro rfl
    rcases before.last with same | ⟨h, inside, same⟩
    · cases same
    · obtain ⟨g', inside', rfl⟩ := List.mem_map.mp inside
      cases same
      exact fresh g' (List.mem_append_left _ inside') (head_mem g')
  have other : g.head ≠ p := fun same => fresh g member (same ▸ head_mem g)
  have notPage : ∀ x ∈ g.pages, x ≠ p := fun x inside same => fresh g member (same ▸ inside)
  have later : ∀ x ∈ g.pages, x ≠ f.link (.bigger g.head) := by
    intro x inside same
    cases gs₂ with
    | nil => exact lists.ne_zero member inside (same.trans after)
    | cons g' gs =>
        refine lists.apart (List.mem_singleton_self g) (Or.inr List.mem_cons_self) inside ?_
        rw [same, after.1]
        exact head_mem g'
  have laterNotP : f.link (.bigger g.head) ≠ p := by
    cases gs₂ with
    | nil => exact fun same => real (same.symm.trans after)
    | cons g' gs =>
        rw [after.1]
        exact fun same => fresh g' (by simp) (same ▸ head_mem g')
  obtain ⟨link', parent'⟩ := attach_same_some here (lists.ne_zero member (head_mem g)) other rfl
  have headDistinct : ∀ x ∈ g.rest, x ≠ g.head := fun x inside same =>
    lists.head_notMem_rest member member (same ▸ inside)
  have nextsElse : ∀ x, x ≠ p → (attach (fpAddSame f p m) p m).link (.next x) = f.link (.next x) := by
    intro x notP
    rw [link', Function.update_of_ne (notNext x).symm, Function.update_of_ne Slot.noConfusion,
      Function.update_of_ne Slot.noConfusion,
      Function.update_of_ne (fun same => notP (Slot.next.inj same))]
  have biggerElse : ∀ x, m ≠ .bigger x → x ≠ p → x ≠ g.head →
      (attach (fpAddSame f p m) p m).link (.bigger x) = f.link (.bigger x) := by
    intro x notSlot notP notHead
    rw [link', Function.update_of_ne notSlot.symm,
      Function.update_of_ne (fun same => notHead (Slot.bigger.inj same)),
      Function.update_of_ne (fun same => notP (Slot.bigger.inj same)),
      Function.update_of_ne Slot.noConfusion]
  have parentsElse : ∀ x, x ≠ p → x ≠ g.head → x ≠ f.link (.bigger g.head) →
      (attach (fpAddSame f p m) p m).parent x = f.parent x := by
    intro x notP notHead notLater
    rw [parent', Function.update_of_ne notP, Function.update_of_ne notHead]
    split_ifs
    · exact Function.update_of_ne notLater _ _
    · rfl
  refine lists.replace (.bigger p) before after ?_ ?_ ?_ ?_ ?_ ?_
    ?_ ?_ ?_ ?_
  · refine ⟨?_, real, ?_, rfl⟩
    · rw [link', Function.update_self]
    · rw [parent', Function.update_self]
  · rw [link', Function.update_of_ne ownP.symm,
      Function.update_of_ne (fun same => other (Slot.bigger.inj same).symm), Function.update_self]
  · intro some
    rw [parent', Function.update_of_ne laterNotP,
      Function.update_of_ne (later _ (head_mem g)).symm, if_pos some, Function.update_self]
  · intro notRoot
    rw [link', Function.update_of_ne notRoot.symm, Function.update_of_ne Slot.noConfusion,
      Function.update_of_ne Slot.noConfusion, Function.update_of_ne Slot.noConfusion]
  · intro g' outside x inside
    have notP : x ≠ p := by
      rintro rfl
      refine fresh g' ?_ inside
      simp only [List.mem_append]
      tauto
    have notHead : x ≠ g.head := by
      rintro rfl
      exact lists.apart (List.mem_singleton_self g) outside (head_mem g) inside
    exact ⟨fun notSlot => biggerElse x notSlot notP notHead, nextsElse x notP,
      parentsElse x notP notHead, by simp⟩
  · have ascending := List.pairwise_map.mpr lists.ascending
    have same : (gs₁ ++ ([g] ++ gs₂)).map Group.size =
        (gs₁ ++ ([(⟨g.size, p, g.pages⟩ : Group)] ++ gs₂)).map Group.size := by simp
    rw [same] at ascending
    exact List.pairwise_map.mp ascending
  · intro g' member'
    rw [List.mem_singleton.mp member']
    refine ⟨?_, lists.ne_zero member (head_mem g), ?_, ?_⟩
    · rw [link', Function.update_of_ne (notNext p).symm, Function.update_of_ne Slot.noConfusion,
        Function.update_of_ne Slot.noConfusion, Function.update_self]
    · rw [parent', Function.update_of_ne other, Function.update_self]
    · refine (lists.rests g member).congr (nextsElse _ other) ?_ ?_
      · exact fun x inside => nextsElse x (notPage x (rest_mem inside))
      · exact fun x inside => parentsElse x (notPage x (rest_mem inside)) (headDistinct x inside)
          (later x (rest_mem inside))
  · intro g' member' x inside
    rw [List.mem_singleton.mp member'] at inside ⊢
    rw [attach_size, fpAddSame_size]
    rcases List.mem_cons.mp inside with rfl | old
    · exact size
    · exact lists.sizes g member x old
  · intro g' member' x inside
    rw [List.mem_singleton.mp member'] at inside
    rcases List.mem_cons.mp inside with rfl | inRest
    · rw [link', Function.update_of_ne (notOwn _ (head_mem g)).symm, Function.update_self]
    · rw [biggerElse x (notOwn x (rest_mem inRest)) (notPage x (rest_mem inRest))
        (headDistinct x inRest)]
      exact lists.flat g member x inRest
  · intro g' member'
    rw [List.mem_singleton.mp member']
    exact List.pairwise_cons.mpr ⟨lower, lists.sorted g member⟩

/-- Behind a lower extent of its size. -/
theorem Lists.add_rest {front back : List ℕ} {z : ℕ} (lists : Lists f (gs₁ ++ ([g] ++ gs₂)))
    (parts : g.rest = front ++ back)
    (path : Path f.link f.parent .next 0 (.next g.head) front (.next z)) (real : p ≠ 0)
    (fresh : ∀ g' ∈ gs₁ ++ ([g] ++ gs₂), p ∉ g'.pages) (size : f.size p = g.size)
    (lower : ∀ x ∈ g.head :: front, x < p) (higher : ∀ x ∈ back, p < x) :
    Lists (attach (fpAddSame f p (.next z)) p (.next z))
      (gs₁ ++ ([{ g with rest := front ++ p :: back }] ++ gs₂)) := by
  have member : g ∈ gs₁ ++ ([g] ++ gs₂) := by simp
  obtain ⟨z', zInside, path', ended, zNotLater, unread⟩ := lists.inner_slot member parts
  obtain rfl : z = z' := Slot.next.inj (path.last_unique path')
  have distinct : g.pages.Nodup := (lists.sorted g member).imp Nat.ne_of_lt
  rw [Group.pages, parts, ← List.cons_append] at distinct
  have backInside : ∀ x ∈ back, x ∈ g.rest := fun x inside => by simp [parts, inside]
  have frontInside : ∀ x ∈ front, x ∈ g.rest := fun x inside => by simp [parts, inside]
  have zPage : z ∈ g.pages := by
    rcases List.mem_cons.mp zInside with rfl | inFront
    · exact head_mem g
    · exact rest_mem (frontInside z inFront)
  have notP : ∀ g' ∈ gs₁ ++ ([g] ++ gs₂), ∀ x ∈ g'.pages, x ≠ p := fun g' member' x inside same =>
    fresh g' member' (same ▸ inside)
  have zNotP := notP g member z zPage
  -- the new links, and the parent of the extent behind, if there is one
  have change : (attach (fpAddSame f p (.next z)) p (.next z)).link (.next z) = p ∧
      (attach (fpAddSame f p (.next z)) p (.next z)).link (.next p) = f.link (.next z) ∧
      (attach (fpAddSame f p (.next z)) p (.next z)).link (.bigger p) = 0 ∧
      (∀ s, s ≠ .next z → s ≠ .next p → s ≠ .bigger p →
        (attach (fpAddSame f p (.next z)) p (.next z)).link s = f.link s) ∧
      (attach (fpAddSame f p (.next z)) p (.next z)).parent p = .next z ∧
      (∀ y, back.head? = some y →
        (attach (fpAddSame f p (.next z)) p (.next z)).parent y = .next p) ∧
      (∀ x, x ≠ p → back.head? ≠ some x →
        (attach (fpAddSame f p (.next z)) p (.next z)).parent x = f.parent x) := by
    have nextApart : Slot.next p ≠ .next z := fun same => zNotP (Slot.next.inj same).symm
    cases back with
    | nil =>
        obtain ⟨link', parent'⟩ := attach_same_none (p := p) ended
        rw [link', parent']
        refine ⟨Function.update_self _ _ _, ?_, ?_, ?_, Function.update_self _ _ _, ?_, ?_⟩
        · rw [Function.update_of_ne nextApart, Function.update_of_ne Slot.noConfusion,
            Function.update_self]
          exact ended.symm
        · rw [Function.update_of_ne Slot.noConfusion, Function.update_self]
        · intro s notZ notNext notBigger
          rw [Function.update_of_ne notZ, Function.update_of_ne notBigger,
            Function.update_of_ne notNext]
        · intro y first
          cases first
        · exact fun x other _ => Function.update_of_ne other _ _
    | cons y back =>
        obtain ⟨here, some, -, -⟩ := ended
        have yInside := backInside y List.mem_cons_self
        have yNotP := notP g member y (rest_mem yInside)
        have flatY := lists.flat g member y yInside
        obtain ⟨link', parent'⟩ := attach_same_some here some yNotP flatY
        rw [link', parent']
        refine ⟨Function.update_self _ _ _, ?_, ?_, ?_, Function.update_self _ _ _, ?_, ?_⟩
        · rw [Function.update_of_ne nextApart, Function.update_of_ne Slot.noConfusion,
            Function.update_of_ne Slot.noConfusion, Function.update_self, here]
        · rw [Function.update_of_ne Slot.noConfusion,
            Function.update_of_ne (fun same => yNotP (Slot.bigger.inj same).symm),
            Function.update_self]
        · intro s notZ notNext notBigger
          rw [Function.update_of_ne notZ]
          by_cases same : s = .bigger y
          · subst same
            rw [Function.update_self, flatY]
          · rw [Function.update_of_ne same, Function.update_of_ne notBigger,
              Function.update_of_ne notNext]
        · intro y' first
          cases first
          rw [Function.update_of_ne yNotP, Function.update_self]
        · intro x other notFirst
          have notY : x ≠ y := fun same => notFirst (same ▸ rfl)
          rw [Function.update_of_ne other, Function.update_of_ne notY]
          simp
  obtain ⟨atZ, atP, atBigger, links, atParent, first, parents⟩ := change
  have outside : ∀ x, x ≠ p → x ∉ back →
      (attach (fpAddSame f p (.next z)) p (.next z)).parent x = f.parent x := fun x other notBack =>
    parents x other fun isFirst => notBack (List.mem_of_head? isFirst)
  have nextsElse : ∀ x, x ≠ p → x ≠ z →
      (attach (fpAddSame f p (.next z)) p (.next z)).link (.next x) = f.link (.next x) :=
    fun x other notZ => links _ (fun same => notZ (Slot.next.inj same))
      (fun same => other (Slot.next.inj same)) Slot.noConfusion
  have biggerElse : ∀ x, x ≠ p →
      (attach (fpAddSame f p (.next z)) p (.next z)).link (.bigger x) = f.link (.bigger x) :=
    fun x other => links _ Slot.noConfusion Slot.noConfusion
      (fun same => other (Slot.bigger.inj same))
  refine lists.inner (links _ Slot.noConfusion Slot.noConfusion Slot.noConfusion)
    (fun g' member' x inside => biggerElse x (notP g' member' x inside)) ?_ ?_ ?_ ?_ ?_ ?_
  · intro g' member'
    refine outside _ (notP g' member' _ (head_mem g')) fun inBack => ?_
    exact lists.head_notMem_rest member' member (backInside _ inBack)
  · intro g' other x inside
    have member' : g' ∈ gs₁ ++ ([g] ++ gs₂) := by
      simp only [List.mem_append]
      tauto
    have apart : x ∉ g.pages := fun inside' =>
      lists.apart (List.mem_singleton_self g) other inside' inside
    have other := notP g' member' x inside
    exact ⟨nextsElse x other fun same => apart (same ▸ zPage),
      outside x other fun inBack => apart (rest_mem (backInside x inBack)), by simp⟩
  · refine ended_append.mpr ⟨.next z, path.congr ?_ ?_, atZ, real, atParent, ?_⟩
    · intro s read
      have notZ : s ≠ .next z := fun same => unread (same ▸ read)
      have notNew : s ≠ .next p ∧ s ≠ .bigger p := by
        rcases mem_reads read with rfl | ⟨x, inside, rfl⟩
        · exact ⟨fun same => notP g member _ (head_mem g) (Slot.next.inj same), Slot.noConfusion⟩
        · exact ⟨fun same => notP g member _ (rest_mem (frontInside x inside)) (Slot.next.inj same),
            Slot.noConfusion⟩
      exact links s notZ notNew.1 notNew.2
    · intro x inFront
      refine outside x (notP g member x (rest_mem (frontInside x inFront))) fun inBack => ?_
      exact (List.nodup_append.mp distinct).2.2 x (List.mem_cons_of_mem _ inFront) x inBack rfl
    · refine ended.rehang atP first ?_ ?_
      · intro x inBack
        exact nextsElse x (notP g member x (rest_mem (backInside x inBack)))
          fun same => zNotLater (same ▸ inBack)
      · intro x inTail
        have inBack := List.mem_of_mem_tail inTail
        refine parents x (notP g member x (rest_mem (backInside x inBack))) fun isFirst => ?_
        cases back with
        | nil => cases inTail
        | cons y back =>
            cases isFirst
            exact (List.nodup_cons.mp (List.nodup_append.mp distinct).2.1).1 inTail
  · intro x inside
    rw [attach_size, fpAddSame_size]
    by_cases same : x = p
    · rw [same, size]
    · refine lists.sizes g member x ?_
      simp only [Group.pages, parts, List.mem_cons, List.mem_append, same, false_or] at inside ⊢
      exact inside
  · intro x inside
    by_cases same : x = p
    · rw [same, atBigger]
    · rw [biggerElse x same]
      refine lists.flat g member x ?_
      simp only [parts, List.mem_append, List.mem_cons, same, false_or] at inside ⊢
      exact inside
  · have sorted := lists.sorted g member
    rw [Group.pages, parts, ← List.cons_append] at sorted
    rw [← List.cons_append]
    obtain ⟨sortedFront, sortedBack, cross⟩ := List.pairwise_append.mp sorted
    refine List.pairwise_append.mpr ⟨sortedFront, List.pairwise_cons.mpr ⟨higher, sortedBack⟩, ?_⟩
    intro x inFront y inBack
    rcases List.mem_cons.mp inBack with rfl | later
    · exact lower x inFront
    · exact cross x inFront y later

theorem skipSmaller_spec (n fuel : ℕ) (enough : gs.length < fuel)
    (ended : Ended f.link f.parent .bigger 0 t (gs.map Group.head))
    (sizes : ∀ g ∈ gs, f.size g.head = g.size) :
    ∃ gs₁ gs₂ m, gs = gs₁ ++ gs₂ ∧ skipSmaller f n fuel t = some m ∧
      Path f.link f.parent .bigger 0 t (gs₁.map Group.head) m ∧
      Ended f.link f.parent .bigger 0 m (gs₂.map Group.head) ∧
      (∀ g ∈ gs₁, g.size < n) ∧ ∀ g, gs₂.head? = some g → n ≤ g.size := by
  induction fuel generalizing t gs with
  | zero => exact absurd enough (Nat.not_lt_zero _)
  | succ fuel ih =>
      rw [skipSmaller]
      cases gs with
      | nil =>
          rw [if_neg (fun go => go.1 ended)]
          exact ⟨[], [], t, rfl, rfl, rfl, ended, by simp, by simp⟩
      | cons g gs =>
          obtain ⟨here, real, back, onward⟩ := ended
          rw [here, sizes g List.mem_cons_self]
          by_cases smaller : g.size < n
          · rw [if_pos ⟨real, smaller⟩]
            obtain ⟨gs₁, gs₂, m, rfl, walk, path, rest, less, stop⟩ :=
              ih (by simpa using enough) onward fun g' member => sizes g' (List.mem_cons_of_mem _ member)
            refine ⟨g :: gs₁, gs₂, m, rfl, walk, ⟨here, real, back, path⟩, rest, ?_, stop⟩
            intro g' member
            rcases List.mem_cons.mp member with rfl | later
            · exact smaller
            · exact less g' later
          · rw [if_neg (fun go => smaller go.2)]
            refine ⟨[], g :: gs, t, rfl, rfl, rfl, ⟨here, real, back, onward⟩, by simp, ?_⟩
            rintro g' first
            cases first
            exact Nat.le_of_not_lt smaller

theorem skipLower_spec (fuel : ℕ) {l : List ℕ} (enough : l.length < fuel)
    (ended : Ended f.link f.parent .next 0 t l) (sorted : l.Pairwise (· < ·)) (fresh : p ∉ l) :
    ∃ l₁ l₂ m, l = l₁ ++ l₂ ∧ skipLower f p fuel t = some m ∧
      Path f.link f.parent .next 0 t l₁ m ∧ (∀ x ∈ l₁, x < p) ∧ ∀ x ∈ l₂, p < x := by
  induction fuel generalizing t l with
  | zero => exact absurd enough (Nat.not_lt_zero _)
  | succ fuel ih =>
      rw [skipLower]
      cases l with
      | nil =>
          rw [if_neg (fun go => go.1 ended)]
          exact ⟨[], [], t, rfl, rfl, rfl, by simp, by simp⟩
      | cons x l =>
          obtain ⟨here, real, back, onward⟩ := ended
          obtain ⟨first, rest⟩ := List.pairwise_cons.mp sorted
          rw [here]
          by_cases lower : x < p
          · rw [if_pos ⟨real, lower⟩]
            obtain ⟨l₁, l₂, m, rfl, walk, path, less, greater⟩ :=
              ih (by simpa using enough) onward rest fun inside => fresh (List.mem_cons_of_mem _ inside)
            refine ⟨x :: l₁, l₂, m, rfl, walk, ⟨here, real, back, path⟩, ?_, greater⟩
            intro y member
            rcases List.mem_cons.mp member with rfl | later
            · exact lower
            · exact less y later
          · rw [if_neg (fun go => lower go.2)]
            have other : x ≠ p := fun same => fresh (same ▸ List.mem_cons_self)
            refine ⟨[], x :: l, t, rfl, rfl, rfl, by simp, ?_⟩
            intro y member
            rcases List.mem_cons.mp member with rfl | later
            · omega
            · have := first y later
              omega

theorem extents_with (old : List Group) {mid : List Group}
    (changed : ∀ m x, (m, x) ∈ extents mid ↔ (m, x) ∈ extents old ∨ (m, x) = (n, p)) (m x : ℕ) :
    (m, x) ∈ extents (gs₁ ++ (mid ++ gs₂)) ↔
      (m, x) ∈ extents (gs₁ ++ (old ++ gs₂)) ∨ (m, x) = (n, p) := by
  simp only [extents_append, List.mem_append, changed]
  tauto

/-- `fp_add` puts the extent in and keeps the order of the others. -/
theorem Lists.fpAdd (fuel : ℕ) (lists : Lists f gs) (enough : (extents gs).length < fuel)
    (real : p ≠ 0) (size : f.size p = n) (fresh : ∀ m, (m, p) ∉ extents gs) :
    ∃ f' gs', fpAdd fuel f p = some f' ∧ Lists f' gs' ∧ f'.size = f.size ∧
      ∀ m x, (m, x) ∈ extents gs' ↔ (m, x) ∈ extents gs ∨ (m, x) = (n, p) := by
  have freshPages : ∀ g ∈ gs, p ∉ g.pages := fun g member inside =>
    fresh g.size (mem_extents.mpr ⟨g, member, rfl, inside⟩)
  have lengths := extents_length gs
  obtain ⟨gs₁, gs₂, m, parts, walk, before, after, less, stop⟩ :=
    skipSmaller_spec n fuel (by omega) lists.heads fun g member => lists.sizes g member _ (head_mem g)
  rw [Malloc.fpAdd, size, walk, Option.bind_eq_bind, Option.bind_some]
  rw [parts] at lists freshPages lengths
  have ascending := (List.pairwise_append.mp lists.ascending).2.1
  by_cases same : f.link m ≠ 0 ∧ f.size (f.link m) = n
  · rw [if_pos same]
    cases gs₂ with
    | nil => exact absurd after same.1
    | cons g gs₂ =>
        have member : g ∈ gs₁ ++ g :: gs₂ := by simp
        have sizeG : g.size = n := by
          rw [← lists.sizes g member _ (head_mem g), ← after.1, same.2]
        have chain : Ended f.link f.parent .next 0 m g.pages :=
          ⟨after.1, after.2.1, after.2.2.1, lists.rests g member⟩
        have room := lengths.2 g member
        rw [← parts] at room
        obtain ⟨l₁, l₂, w, pages, walk', path, lower, higher⟩ :=
          skipLower_spec fuel (by omega) chain (lists.sorted g member)
            (freshPages g member)
        rw [walk', Option.bind_some]
        cases l₁ with
        | nil =>
            obtain rfl : m = w := path
            refine ⟨_, _, rfl, lists.add_front real freshPages (size.trans sizeG.symm) ?_ after.2.2.1,
              by simp, ?_⟩
            · exact fun x inside => higher x (by simpa [pages] using inside)
            · rw [parts]
              refine extents_with [g] fun m x => ?_
              simp only [mem_extents_singleton, Group.pages, List.mem_cons, Prod.mk.injEq, sizeG]
              tauto
        | cons h front =>
            obtain ⟨rfl, rest⟩ : g.head = h ∧ g.rest = front ++ l₂ := by
              simpa [Group.pages] using pages
            obtain ⟨z, -, path', -⟩ := lists.inner_slot member rest
            obtain rfl := path.2.2.2.last_unique path'
            refine ⟨_, _, rfl, lists.add_rest rest path' real freshPages (size.trans sizeG.symm) lower
              higher, by simp, ?_⟩
            rw [parts]
            refine extents_with [g] fun m x => ?_
            simp only [mem_extents_singleton, Group.pages, rest, List.mem_cons, List.mem_append,
              Prod.mk.injEq, sizeG]
            tauto
  · rw [if_neg same]
    have greater : ∀ g ∈ gs₂, n < g.size := by
      cases gs₂ with
      | nil => simp
      | cons g gs₂ =>
          have sizeG := lists.sizes g (by simp) _ (head_mem g)
          have first : n < g.size := by
            have bound := stop g rfl
            have other : ¬ f.size (f.link m) = n := fun equal =>
              same ⟨by rw [after.1]; exact after.2.1, equal⟩
            rw [after.1, sizeG] at other
            omega
          intro g' member
          rcases List.mem_cons.mp member with rfl | later
          · exact first
          · exact Nat.lt_trans first ((List.pairwise_cons.mp ascending).1 g' later)
    refine ⟨_, _, rfl, lists.add_new before after real freshPages size less greater, by simp, ?_⟩
    intro m x
    rw [parts]
    refine extents_with [] (fun m x => ?_) m x
    rw [mem_extents_singleton]
    simp [extents, Group.pages]

/-! ### Finding an extent -/

theorem findLoop_spec (fuel : ℕ) {size : ℤ} (enough : gs.length < fuel)
    (ended : Ended f.link f.parent .bigger 0 t (gs.map Group.head))
    (sizes : ∀ g ∈ gs, f.size g.head = g.size) :
    ∃ gs₁ gs₂, gs = gs₁ ++ gs₂ ∧
      findLoop f size fuel (f.link t) = some ((gs₂.map Group.head).headD 0) ∧
      (∀ g ∈ gs₁, (g.size : ℤ) < size) ∧ ∀ g, gs₂.head? = some g → size ≤ g.size := by
  induction fuel generalizing t gs with
  | zero => exact absurd enough (Nat.not_lt_zero _)
  | succ fuel ih =>
      rw [findLoop]
      cases gs with
      | nil =>
          have none : f.link t = 0 := ended
          rw [if_neg (fun go => go.1 none), none]
          exact ⟨[], [], rfl, rfl, by simp, by simp⟩
      | cons g gs =>
          obtain ⟨here, real, back, onward⟩ := ended
          rw [here, sizes g List.mem_cons_self]
          by_cases smaller : (g.size : ℤ) < size
          · rw [if_pos ⟨real, smaller⟩]
            obtain ⟨gs₁, gs₂, rfl, walk, less, stop⟩ :=
              ih (by simpa using enough) onward fun g' member => sizes g' (List.mem_cons_of_mem _ member)
            refine ⟨g :: gs₁, gs₂, rfl, walk, ?_, stop⟩
            intro g' member
            rcases List.mem_cons.mp member with rfl | later
            · exact smaller
            · exact less g' later
          · rw [if_neg (fun go => smaller go.2)]
            refine ⟨[], g :: gs, rfl, rfl, by simp, ?_⟩
            rintro g' first
            cases first
            exact Int.not_lt.mp smaller

theorem Lists.fpFind (fuel : ℕ) (size : ℤ) (lists : Lists f gs)
    (enough : (extents gs).length < fuel) :
    (fpFind fuel f size = some (0, f) ∧ ∀ m x, (m, x) ∈ extents gs → (m : ℤ) < size) ∨
    ∃ n p gs', fpFind fuel f size = some (p, Malloc.fpRemove f p) ∧ p ≠ 0 ∧
      (n, p) ∈ extents gs ∧ size ≤ n ∧
      (∀ m x, (m, x) ∈ extents gs → size ≤ m → n < m ∨ (n = m ∧ p ≤ x)) ∧
      Lists (Malloc.fpRemove f p) gs' ∧
      ∀ m x, (m, x) ∈ extents gs' ↔ (m, x) ∈ extents gs ∧ x ≠ p := by
  have short := (extents_length gs).1
  obtain ⟨gs₁, gs₂, parts, walk, less, stop⟩ :=
    findLoop_spec fuel (by omega) lists.heads fun g member =>
      lists.sizes g member _ (head_mem g)
  rw [Malloc.fpFind, walk, Option.bind_eq_bind, Option.bind_some]
  cases gs₂ with
  | nil =>
      left
      refine ⟨rfl, fun m x listed => ?_⟩
      obtain ⟨g, member, rfl, -⟩ := mem_extents.mp listed
      exact less g (by simpa [parts] using member)
  | cons g gs₂ =>
      right
      have member : g ∈ gs := by simp [parts]
      have real := lists.ne_zero member (head_mem g)
      have listed : (g.size, g.head) ∈ extents gs := mem_extents.mpr ⟨g, member, rfl, head_mem g⟩
      obtain ⟨gs', lists', extents'⟩ := lists.fpRemove listed
      refine ⟨g.size, g.head, gs', ?_, real, listed, stop g rfl, ?_, lists', extents'⟩
      · simp [real]
      · intro m x listed' large
        obtain ⟨g', member', rfl, inside⟩ := mem_extents.mp listed'
        rw [parts] at member'
        rcases List.mem_append.mp member' with first | later
        · have := less g' first
          omega
        · rcases List.mem_cons.mp later with rfl | last
          · right
            refine ⟨rfl, ?_⟩
            rcases List.mem_cons.mp inside with rfl | inRest
            · exact le_rfl
            · exact Nat.le_of_lt
                ((List.pairwise_cons.mp (lists.sorted g' member)).1 x inRest)
          · left
            have ascending := lists.ascending
            rw [parts] at ascending
            exact (List.pairwise_cons.mp (List.pairwise_append.mp ascending).2.1).1 g' last

end Add

/-! ### What the lists are for

A set of extents, with insertion, erasure and a search that takes the best fit. -/

/-- A call on the free lists; `add` stores the size first, as the callers of `fp_add` do. -/
inductive ListOp
  | add (p n : ℕ)
  | remove (p : ℕ)
  | find (size : ℤ)
  deriving DecidableEq, Repr

def ListOp.run (fuel : ℕ) (f : FreeLists) : ListOp → Option (ℕ × FreeLists)
  | .add p n => (fpAdd fuel (f.setSize p n) p).map fun f' => (0, f')
  | .remove p => some (0, fpRemove f p)
  | .find size => fpFind fuel f size

/-- The answers of a sequence of calls, and the lists it leaves. -/
def runOps (fuel : ℕ) : FreeLists → List ListOp → Option (List ℕ × FreeLists)
  | f, [] => some ([], f)
  | f, op :: ops => do
      let (answer, f) ← op.run fuel f
      let (answers, f) ← runOps fuel f ops
      some (answer :: answers, f)

/-- The smallest extent of at least `size` pages, the lowest one of that size. -/
def BestFit (S : Set (ℕ × ℕ)) (size : ℤ) (n p : ℕ) : Prop :=
  (n, p) ∈ S ∧ size ≤ n ∧ ∀ m x, (m, x) ∈ S → size ≤ m → n < m ∨ (n = m ∧ p ≤ x)

/-- The calls on a set of extents, with their answers. -/
inductive SetStep : Set (ℕ × ℕ) → ListOp → ℕ → Set (ℕ × ℕ) → Prop
  | add {S : Set (ℕ × ℕ)} {p n : ℕ} (real : p ≠ 0) (fresh : ∀ m, (m, p) ∉ S) :
      SetStep S (.add p n) 0 (insert (n, p) S)
  | remove {S : Set (ℕ × ℕ)} {p n : ℕ} (listed : (n, p) ∈ S) :
      SetStep S (.remove p) 0 (S \ {(n, p)})
  | found {S : Set (ℕ × ℕ)} {size : ℤ} {n p : ℕ} (best : BestFit S size n p) :
      SetStep S (.find size) p (S \ {(n, p)})
  | none {S : Set (ℕ × ℕ)} {size : ℤ} (small : ∀ m x, (m, x) ∈ S → (m : ℤ) < size) :
      SetStep S (.find size) 0 S

inductive SetRun : Set (ℕ × ℕ) → List ListOp → List ℕ → Set (ℕ × ℕ) → Prop
  | nil {S : Set (ℕ × ℕ)} : SetRun S [] [] S
  | cons {S S' S'' : Set (ℕ × ℕ)} {op : ListOp} {answer : ℕ} {ops : List ListOp} {answers : List ℕ}
      (step : SetStep S op answer S') (rest : SetRun S' ops answers S'') :
      SetRun S (op :: ops) (answer :: answers) S''

/-- The lists `f` hold the set `S` of at most `k` extents. -/
def Holds (f : FreeLists) (S : Set (ℕ × ℕ)) (k : ℕ) : Prop :=
  ∃ gs, Lists f gs ∧ (∀ m x, (m, x) ∈ extents gs ↔ (m, x) ∈ S) ∧ (extents gs).length ≤ k

theorem holds_empty {f : FreeLists} (none : f.link .freepages = 0) : Holds f ∅ 0 := by
  refine ⟨[], ⟨none, ?_, ?_, ?_, List.Pairwise.nil, ?_⟩, ?_, le_rfl⟩ <;> simp [extents]

theorem Lists.setSize {f : FreeLists} {gs : List Group} {p n : ℕ} (lists : Lists f gs)
    (fresh : ∀ m, (m, p) ∉ extents gs) : Lists (f.setSize p n) gs := by
  refine ⟨lists.heads, lists.rests, fun g member x inside => ?_, lists.flat, lists.ascending,
    lists.sorted⟩
  have other : x ≠ p := by
    rintro rfl
    exact fresh g.size (mem_extents.mpr ⟨g, member, rfl, inside⟩)
  rw [FreeLists.setSize_size, Function.update_of_ne other]
  exact lists.sizes g member x inside

theorem Lists.extents_length_le {f : FreeLists} {gs : List Group} (lists : Lists f gs)
    {l : List (ℕ × ℕ)} (inside : ∀ m x, (m, x) ∈ extents gs → (m, x) ∈ l) :
    (extents gs).length ≤ l.length :=
  (List.subperm_of_subset (lists.extents_nodup.of_map _) fun e => inside e.1 e.2).length_le

theorem Lists.few {f : FreeLists} {gs : List Group} (lists : Lists f gs) {top : ℕ} (some : 0 < top)
    (below : ∀ n p, (n, p) ∈ extents gs → p < top) : (extents gs).length < top := by
  have distinct : (0 :: (extents gs).map Prod.snd).Nodup := by
    refine List.nodup_cons.mpr ⟨fun member => ?_, lists.extents_nodup⟩
    obtain ⟨⟨n, p⟩, listed, zero⟩ := List.mem_map.mp member
    obtain ⟨g, inside, -, page⟩ := mem_extents.mp listed
    exact lists.ne_zero inside page zero
  have inside : (0 :: (extents gs).map Prod.snd) ⊆ List.range top := by
    intro p member
    rw [List.mem_range]
    rcases List.mem_cons.mp member with rfl | inMap
    · exact some
    · obtain ⟨⟨n, p'⟩, listed, rfl⟩ := List.mem_map.mp inMap
      exact below n p' listed
  have := (List.subperm_of_subset distinct inside).length_le
  simp only [List.length_cons, List.length_map, List.length_range] at this
  omega

/-- Each call answers as the set does. -/
theorem SetStep.refine {f : FreeLists} {S S' : Set (ℕ × ℕ)} {op : ListOp} {answer fuel k : ℕ}
    (step : SetStep S op answer S') (holds : Holds f S k) (enough : k < fuel) :
    ∃ f', op.run fuel f = some (answer, f') ∧ Holds f' S' (k + 1) := by
  obtain ⟨gs, lists, same, few⟩ := holds
  -- an extent is listed with one size only
  have size : ∀ {n p}, (n, p) ∈ S → ∀ m x, (m, x) ∈ S ∧ x ≠ p ↔ (m, x) ∈ S \ {(n, p)} := by
    intro n p listed m x
    simp only [Set.mem_sdiff, Set.mem_singleton_iff, Prod.mk.injEq, not_and]
    refine and_congr_right fun listed' => ⟨fun other _ => other, fun other same' => ?_⟩
    obtain ⟨g, member, rfl, inside⟩ := mem_extents.mp ((same n p).mpr listed)
    obtain ⟨g', member', rfl, inside'⟩ := mem_extents.mp ((same m x).mpr listed')
    rw [same'] at inside'
    exact other (congrArg Group.size (lists.unique member' member inside' inside)) same'
  cases step with
  | add real fresh =>
      rename_i p n
      have fresh' : ∀ m, (m, p) ∉ extents gs := fun m listed => fresh m ((same m p).mp listed)
      obtain ⟨f', gs', add, lists', -, extents'⟩ :=
        (lists.setSize (n := n) fresh').fpAdd (n := n) fuel (by omega) real (by simp) fresh'
      refine ⟨f', by simp [ListOp.run, add], gs', lists', fun m x => ?_, ?_⟩
      · rw [extents', same, Set.mem_insert_iff]
        tauto
      · have := lists'.extents_length_le (l := (n, p) :: extents gs) fun m x listed => by
          rcases (extents' m x).mp listed with old | new
          · exact List.mem_cons_of_mem _ old
          · exact new ▸ List.mem_cons_self
        simp only [List.length_cons] at this
        omega
  | remove listed =>
      rename_i p n
      obtain ⟨gs', lists', extents'⟩ := lists.fpRemove ((same n p).mpr listed)
      refine ⟨_, rfl, gs', lists', fun m x => ?_, ?_⟩
      · rw [extents', same, size listed]
      · have := lists'.extents_length_le (l := extents gs) fun m x listed => ((extents' m x).mp listed).1
        omega
  | found best =>
      rename_i size' n
      obtain ⟨listed, large, least⟩ := best
      rcases lists.fpFind fuel size' (by omega) with
        ⟨-, small⟩ | ⟨n', p', gs', find, -, listed', large', least', lists', extents'⟩
      · have := small n answer ((same n answer).mpr listed)
        omega
      · have first := least n' p' ((same n' p').mp listed') large'
        have second := least' n answer ((same n answer).mpr listed) large
        obtain ⟨rfl, rfl⟩ : n' = n ∧ p' = answer := by omega
        refine ⟨_, find, gs', lists', fun m x => ?_, ?_⟩
        · rw [extents', same, size listed]
        · have := lists'.extents_length_le (l := extents gs) fun m x listed =>
            ((extents' m x).mp listed).1
          omega
  | none small =>
      rename_i size'
      rcases lists.fpFind fuel size' (by omega) with
        ⟨find, -⟩ | ⟨n', p', gs', -, -, listed', large', -⟩
      · exact ⟨f, find, gs, lists, same, by omega⟩
      · have := small n' p' ((same n' p').mp listed')
        omega

/-- From the empty list on, every sequence of calls gives the answers of a set of extents: an extent
found is the smallest that is large enough, and the lowest of its size. -/
theorem runOps_refines_set {f : FreeLists} {ops : List ListOp} {answers : List ℕ} {S : Set (ℕ × ℕ)}
    {fuel : ℕ} (empty : f.link .freepages = 0) (run : SetRun ∅ ops answers S)
    (enough : ops.length < fuel) :
    ∃ f' k, runOps fuel f ops = some (answers, f') ∧ Holds f' S k := by
  have general : ∀ {S S' : Set (ℕ × ℕ)} {ops : List ListOp} {answers : List ℕ} {f : FreeLists}
      {k : ℕ}, SetRun S ops answers S' → Holds f S k → k + ops.length < fuel →
      ∃ f' k', runOps fuel f ops = some (answers, f') ∧ Holds f' S' k' := by
    intro S S' ops answers f k run
    induction run generalizing f k with
    | nil => exact fun holds _ => ⟨f, k, rfl, holds⟩
    | cons step rest ih =>
        intro holds room
        simp only [List.length_cons] at room
        obtain ⟨f₁, call, holds₁⟩ := step.refine holds (show k < fuel by omega)
        obtain ⟨f₂, k₂, calls, holds₂⟩ := ih holds₁ (by omega)
        exact ⟨f₂, k₂, by simp [runOps, call, calls], holds₂⟩
  exact general run (holds_empty empty) (by omega)

theorem runOps_refines_set_threeCalls :
    ∃ f' k, runOps 4 ⟨fun _ => 0, fun _ => .freepages, fun _ => 0⟩
        [.add 10 2, .add 20 1, .find 2] = some ([0, 0, 10], f') ∧
      Holds f' (insert (1, 20) (insert (2, 10) ∅) \ {(2, 10)}) k := by
  have best : BestFit (insert (1, 20) (insert (2, 10) ∅)) 2 2 10 := by
    refine ⟨Or.inr (Or.inl rfl), le_rfl, ?_⟩
    rintro m x (same | same | none) large
    · cases same
      omega
    · cases same
      exact Or.inr ⟨rfl, le_rfl⟩
    · exact none.elim
  have fresh : ∀ m, (m, 20) ∉ (insert (2, 10) ∅ : Set (ℕ × ℕ)) := by simp
  exact runOps_refines_set rfl
    (.cons (.add (by decide) fun m => not_false) (.cons (.add (by decide) fresh) (.cons (.found best) .nil)))
    (by decide)

end Elcrq.Malloc
