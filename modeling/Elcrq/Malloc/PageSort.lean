import Mathlib.Data.List.Chain
import Mathlib.Data.List.Perm.Basic
import Mathlib.Algebra.Group.Int.Defs
import Elcrq.Malloc.SizeClass
import Elcrq.Store.Chain

/-! # Page descriptors and `page_list_sort`

The pages of one class that have free chunks form a list through the `page` fields
of their descriptors, zero ending it. `flush_to_global_freelist` sorts that list by
`pcmp`, with a split/merge sort that works in place and sorts the first half only
when the split has met two of its pages in the wrong order.

Fuel bounds the loops and the depth of the recursion. It is no part of the source:
more fuel than pages is enough. -/

set_option autoImplicit false

namespace Elcrq.Malloc

open Elcrq.Store

/-- `struct page`. -/
structure Page where
  page : ℕ
  free : ℕ
  count : ℤ
  code : ℕ
  deriving DecidableEq, Repr

/-- `NUM2PAGE(n)->page = v`. -/
def setLink (desc : ℕ → Page) (n v : ℕ) : ℕ → Page :=
  Function.update desc n { desc n with page := v }

/-- `pcmp`: the difference of the page numbers is a `long` and is returned as an `int`. -/
def pcmp (desc : ℕ → Page) (a b : ℕ) : ℤ :=
  let v := (desc a).count - (desc b).count
  if v ≠ 0 then v else Int.bmod (a - b) (2 ^ 32)

/-- The first loop of `page_list_sort`: `b` moves two pages for each one of `a`. -/
def splitLoop (desc : ℕ → Page) : ℕ → ℕ → ℕ → Bool → Option (ℕ × Bool)
  | 0, _, _, _ => none
  | fuel + 1, a, b, asort =>
      if b = 0 then some (a, asort)
      else
        let b := (desc b).page
        if b = 0 then some (a, asort)
        else
          let l := a
          let a := (desc a).page
          let asort := if !asort && decide (0 < pcmp desc l a) then true else asort
          splitLoop desc fuel a (desc b).page asort

/-- `*t = v`, where `t` is the address of the local variable `p` or of a page's link. -/
def storeAt (t : Option ℕ) (v p : ℕ) (desc : ℕ → Page) : ℕ × (ℕ → Page) :=
  match t with
  | none => (v, desc)
  | some n => (p, setLink desc n v)

/-- The second loop of `page_list_sort`, and the store after it. -/
def mergeLoop : ℕ → (ℕ → Page) → ℕ → Option ℕ → ℕ → ℕ → Option (ℕ × (ℕ → Page))
  | 0, _, _, _, _, _ => none
  | fuel + 1, desc, p, t, a, b =>
      if a ≠ 0 ∧ b ≠ 0 then
        if pcmp desc a b ≤ 0 then
          let (p, desc) := storeAt t a p desc
          mergeLoop fuel desc p (some a) (desc a).page b
        else
          let (p, desc) := storeAt t b p desc
          mergeLoop fuel desc p (some b) a (desc b).page
      else some (storeAt t (a ||| b) p desc)

def pageListSort : ℕ → (ℕ → Page) → ℕ → Option (ℕ × (ℕ → Page))
  | 0, _, _ => none
  | fuel + 1, desc, p =>
      if p = 0 then some (p, desc)
      else
        let b := (desc p).page
        if b = 0 then some (p, desc)
        else do
          let (a, asort) ← splitLoop desc (fuel + 1) p b false
          let (b, desc) ← pageListSort fuel desc (desc a).page
          let desc := setLink desc a 0
          let (a, desc) ← if asort then pageListSort fuel desc p else some (p, desc)
          mergeLoop (fuel + 1) desc p none a b

/-- The list of pages that starts at `p`. -/
def PageChain (desc : ℕ → Page) (p : ℕ) (l : List ℕ) : Prop := Chain (fun n => (desc n).page) 0 p l

theorem pageChain_nil {desc : ℕ → Page} {p : ℕ} : PageChain desc p [] ↔ p = 0 := Iff.rfl

theorem pageChain_cons {desc : ℕ → Page} {p a : ℕ} {l : List ℕ} :
    PageChain desc p (a :: l) ↔ p = a ∧ a ≠ 0 ∧ PageChain desc (desc a).page l := Iff.rfl

/-- Nothing but links of the listed pages has changed. -/
structure Relinked (l : List ℕ) (desc desc' : ℕ → Page) : Prop where
  outside : ∀ n, n ∉ l → desc' n = desc n
  fields : ∀ n, (desc' n).count = (desc n).count ∧ (desc' n).free = (desc n).free ∧
    (desc' n).code = (desc n).code

namespace Relinked

variable {l l' : List ℕ} {desc desc' desc'' : ℕ → Page}

theorem refl : Relinked l desc desc := ⟨fun _ _ => rfl, fun _ => ⟨rfl, rfl, rfl⟩⟩

theorem setLink {n v : ℕ} (member : n ∈ l) : Relinked l desc (setLink desc n v) := by
  refine ⟨fun m outside =>
    Function.update_of_ne (ne_of_mem_of_not_mem member outside).symm _ _, ?_⟩
  intro m
  by_cases same : m = n
  · subst same
    simp [Malloc.setLink]
  · simp [Malloc.setLink, same]

theorem trans (first : Relinked l desc desc') (second : Relinked l' desc' desc'')
    (inside : ∀ n ∈ l', n ∈ l) : Relinked l desc desc'' := by
  refine ⟨fun n outside => ?_, fun n => ?_⟩
  · rw [second.outside n fun member => outside (inside n member), first.outside n outside]
  · obtain ⟨count, free, code⟩ := second.fields n
    obtain ⟨count', free', code'⟩ := first.fields n
    exact ⟨count.trans count', free.trans free', code.trans code'⟩

theorem mono (relinked : Relinked l desc desc') (inside : ∀ n ∈ l, n ∈ l') :
    Relinked l' desc desc' := refl.trans relinked inside

theorem pcmp (relinked : Relinked l desc desc') : pcmp desc' = pcmp desc := by
  funext a b
  simp only [Malloc.pcmp, (relinked.fields _).1]

theorem chain (relinked : Relinked l desc desc') {p : ℕ} {m : List ℕ} (chain : PageChain desc p m)
    (apart : ∀ n ∈ m, n ∉ l) : PageChain desc' p m :=
  Chain.congr (fun n member => by rw [relinked.outside n (apart n member)]) chain

end Relinked

@[simp] theorem setLink_page (desc : ℕ → Page) (n v : ℕ) : (setLink desc n v n).page = v := by
  simp [setLink]

theorem setLink_of_ne (desc : ℕ → Page) {n m v : ℕ} (other : m ≠ n) :
    setLink desc n v m = desc m := Function.update_of_ne other _ _

/-! ### Splitting -/

/-- The split leaves pages on both sides, and has looked at every pair of neighbours of the first
side. -/
theorem splitLoop_spec (fuel : ℕ) (asort : Bool) {desc : ℕ → Page} {a b : ℕ} {ahead behind : List ℕ}
    (enough : ahead.length < fuel) (chain : PageChain desc a (a :: behind))
    (chainAhead : PageChain desc b ahead) (shorter : ahead.length ≤ behind.length)
    (more : behind ≠ []) :
    ∃ front mid back asort', splitLoop desc fuel a b asort = some (mid, asort') ∧
      a :: behind = front ++ mid :: back ∧ back ≠ [] ∧
      (asort' = false → asort = false ∧
        (front ++ [mid]).IsChain (fun x y => pcmp desc x y ≤ 0)) := by
  induction fuel generalizing a b asort ahead behind with
  | zero => exact absurd enough (Nat.not_lt_zero _)
  | succ fuel ih =>
      have stop : ∃ front mid back asort', some (a, asort) = some (mid, asort') ∧
          a :: behind = front ++ mid :: back ∧ back ≠ [] ∧
          (asort' = false → asort = false ∧
            (front ++ [mid]).IsChain (fun x y => pcmp desc x y ≤ 0)) :=
        ⟨[], a, behind, asort, rfl, rfl, more, fun sorted => ⟨sorted, by simp⟩⟩
      rw [splitLoop]
      cases ahead with
      | nil =>
          rw [if_pos (pageChain_nil.mp chainAhead)]
          exact stop
      | cons x ahead =>
          obtain ⟨rfl, real, chainAhead⟩ := pageChain_cons.mp chainAhead
          rw [if_neg real]
          cases ahead with
          | nil =>
              simp only [pageChain_nil.mp chainAhead, if_true]
              exact stop
          | cons y ahead =>
              obtain ⟨link, realY, chainAhead⟩ := pageChain_cons.mp chainAhead
              simp only [link, if_neg realY]
              cases behind with
              | nil => exact absurd rfl more
              | cons z behind =>
                  obtain ⟨-, -, chainBehind⟩ := pageChain_cons.mp chain
                  obtain ⟨next, realZ, rest⟩ := pageChain_cons.mp chainBehind
                  simp only [List.length_cons] at enough shorter
                  have longer : behind ≠ [] := by
                    rintro rfl
                    simp only [List.length_nil] at shorter
                    omega
                  simp only [next]
                  obtain ⟨front, mid, back, asort', loop, parts, nonempty, sorted⟩ :=
                    ih _ (by omega) ⟨rfl, realZ, rest⟩ chainAhead (by omega) longer
                  refine ⟨a :: front, mid, back, asort', loop, by rw [parts]; rfl, nonempty, ?_⟩
                  intro found
                  obtain ⟨sofar, inOrder⟩ := sorted found
                  have clean : asort = false ∧ pcmp desc a z ≤ 0 := by
                    cases asort <;> simp_all
                  refine ⟨clean.1, ?_⟩
                  -- the first side starts with `z`, wherever the split ends
                  cases front with
                  | nil =>
                      obtain ⟨rfl, -⟩ := List.cons.inj parts
                      exact List.isChain_cons_cons.mpr ⟨clean.2, inOrder⟩
                  | cons w front =>
                      obtain ⟨rfl, -⟩ := List.cons.inj parts
                      exact List.isChain_cons_cons.mpr ⟨clean.2, inOrder⟩

/-! ### Merging -/

def loadAt (t : Option ℕ) (p : ℕ) (desc : ℕ → Page) : ℕ :=
  match t with
  | none => p
  | some n => (desc n).page

theorem pairwise_merge_of {α : Type} {R : α → α → Prop} {le : α → α → Bool}
    (trans : ∀ {x y z}, R x y → R y z → R x z) {xs ys : List α}
    (yes : ∀ x ∈ xs, ∀ y ∈ ys, le x y = true → R x y)
    (no : ∀ x ∈ xs, ∀ y ∈ ys, le x y = false → R y x)
    (sortedX : xs.Pairwise R) (sortedY : ys.Pairwise R) : (xs.merge ys le).Pairwise R := by
  induction xs generalizing ys with
  | nil => simpa using sortedY
  | cons x xs ihX =>
      induction ys with
      | nil => simpa using sortedX
      | cons y ys ihY =>
          obtain ⟨firstX, restX⟩ := List.pairwise_cons.mp sortedX
          obtain ⟨firstY, restY⟩ := List.pairwise_cons.mp sortedY
          by_cases first : le x y = true
          · rw [List.cons_merge_cons_pos le xs ys first]
            refine List.pairwise_cons.mpr ⟨fun z member => ?_, ?_⟩
            · have xy := yes x List.mem_cons_self y List.mem_cons_self first
              rcases List.mem_merge.mp member with inX | inY
              · exact firstX z inX
              · rcases List.mem_cons.mp inY with rfl | below
                · exact xy
                · exact trans xy (firstY z below)
            · exact ihX (fun a inX => yes a (List.mem_cons_of_mem _ inX))
                (fun a inX => no a (List.mem_cons_of_mem _ inX)) restX sortedY
          · rw [List.cons_merge_cons_neg le xs ys first]
            refine List.pairwise_cons.mpr ⟨fun z member => ?_, ?_⟩
            · have yx := no x List.mem_cons_self y List.mem_cons_self
                (Bool.eq_false_iff.mpr first)
              rcases List.mem_merge.mp member with inX | inY
              · rcases List.mem_cons.mp inX with rfl | below
                · exact yx
                · exact trans yx (firstX z below)
              · exact firstY z inY
            · exact ihY (fun a inX b inY => yes a inX b (List.mem_cons_of_mem _ inY))
                (fun a inX b inY => no a inX b (List.mem_cons_of_mem _ inY)) restY

theorem loadAt_storeAt (t : Option ℕ) (v p : ℕ) (desc : ℕ → Page) :
    loadAt t (storeAt t v p desc).1 (storeAt t v p desc).2 = v := by
  cases t with
  | none => rfl
  | some n => exact setLink_page desc n v

theorem storeAt_relinked (t : Option ℕ) (v p : ℕ) (desc : ℕ → Page) :
    Relinked t.toList desc (storeAt t v p desc).2 := by
  cases t with
  | none => exact Relinked.refl
  | some n => exact Relinked.setLink (by simp)

theorem storeAt_local {t : Option ℕ} (inMemory : t ≠ none) (v p : ℕ) (desc : ℕ → Page) :
    (storeAt t v p desc).1 = p := by
  cases t with
  | none => exact absurd rfl inMemory
  | some n => rfl

theorem Relinked.loadAt {t : Option ℕ} {p : ℕ} {l : List ℕ} {desc desc' : ℕ → Page}
    (relinked : Relinked l desc desc') (slot : ∀ n, t = some n → n ∉ l) :
    loadAt t p desc' = loadAt t p desc := by
  cases t with
  | none => rfl
  | some n => exact congrArg Page.page (relinked.outside n (slot n rfl))

/-- The loop hangs the merge of the two lists below `t`. -/
theorem mergeLoop_spec {cmp : ℕ → ℕ → ℤ} (fuel : ℕ) {desc : ℕ → Page} {p a b : ℕ} {t : Option ℕ}
    {xs ys : List ℕ} (order : pcmp desc = cmp) (enough : xs.length + ys.length < fuel)
    (chainX : PageChain desc a xs) (chainY : PageChain desc b ys) (apart : xs.Disjoint ys)
    (slot : ∀ n, t = some n → n ∉ xs ∧ n ∉ ys) :
    ∃ p' desc', mergeLoop fuel desc p t a b = some (p', desc') ∧
      PageChain desc' (loadAt t p' desc') (xs.merge ys fun x y => decide (cmp x y ≤ 0)) ∧
      Relinked (t.toList ++ (xs ++ ys)) desc desc' ∧ (t ≠ none → p' = p) := by
  induction fuel generalizing desc p a b t xs ys with
  | zero => exact absurd enough (Nat.not_lt_zero _)
  | succ fuel ih =>
      -- one list is used up: the rest of the other one is hung below `t` as it is
      have finish : ∀ {v : ℕ} {l : List ℕ}, PageChain desc v l →
          (∀ n, t = some n → n ∉ l) → (∀ n ∈ t.toList, n ∈ t.toList ++ (xs ++ ys)) →
          PageChain (storeAt t v p desc).2
              (loadAt t (storeAt t v p desc).1 (storeAt t v p desc).2) l ∧
            Relinked (t.toList ++ (xs ++ ys)) desc (storeAt t v p desc).2 ∧
            (t ≠ none → (storeAt t v p desc).1 = p) := by
        intro v l chain outside inside
        rw [loadAt_storeAt]
        refine ⟨(storeAt_relinked t v p desc).chain chain fun n member taken => ?_,
          (storeAt_relinked t v p desc).mono inside, fun inMemory => storeAt_local inMemory v p desc⟩
        exact outside n (Option.mem_toList.mp taken) member
      -- the page `x` is hung below `t`, and what is left is merged below its own link
      have advance : ∀ {x a' b' : ℕ} {xs' ys' : List ℕ}, x ≠ 0 → x ∉ xs' → x ∉ ys' →
          xs'.length + ys'.length < fuel → PageChain desc a' xs' → PageChain desc b' ys' →
          xs'.Disjoint ys' → (∀ n, t = some n → n ≠ x ∧ n ∉ xs' ∧ n ∉ ys') →
          (∀ n, n = x ∨ n ∈ xs' ∨ n ∈ ys' → n ∈ xs ++ ys) →
          ∃ p' desc', mergeLoop fuel (storeAt t x p desc).2 (storeAt t x p desc).1 (some x) a' b' =
              some (p', desc') ∧
            PageChain desc' (loadAt t p' desc')
              (x :: xs'.merge ys' fun x y => decide (cmp x y ≤ 0)) ∧
            Relinked (t.toList ++ (xs ++ ys)) desc desc' ∧ (t ≠ none → p' = p) := by
        intro x a' b' xs' ys' real notX notY less chainX' chainY' apart' other inside
        have stored := storeAt_relinked t x p desc
        have clear : ∀ n ∈ t.toList, n ∉ xs' ∧ n ∉ ys' := fun n taken =>
          (other n (Option.mem_toList.mp taken)).2
        obtain ⟨p', desc', loop, chain, relinked, same⟩ :=
          ih (p := (storeAt t x p desc).1) (t := some x) (stored.pcmp.trans order) less
            (stored.chain chainX' fun n member taken => (clear n taken).1 member)
            (stored.chain chainY' fun n member taken => (clear n taken).2 member) apart'
            (fun n same => by
              cases same
              exact ⟨notX, notY⟩)
        have first : loadAt t p' desc' = x := by
          rw [same (by simp), relinked.loadAt, loadAt_storeAt]
          intro n taken
          obtain ⟨notHere, notX', notY'⟩ := other n taken
          simpa [notX', notY'] using notHere
        refine ⟨p', desc', loop, ⟨first, real, chain⟩, ?_, fun inMemory => ?_⟩
        · refine (stored.mono fun n taken => List.mem_append_left _ taken).trans relinked ?_
          intro n member
          refine List.mem_append_right _ (inside n ?_)
          simpa using member
        · rw [same (by simp), storeAt_local inMemory]
      rw [mergeLoop]
      cases xs with
      | nil =>
          obtain rfl := pageChain_nil.mp chainX
          simp only [ne_eq, not_true, false_and, if_false, Nat.zero_or, List.nil_merge]
          exact ⟨_, _, rfl, finish chainY (fun n taken => (slot n taken).2)
            fun n taken => List.mem_append_left _ taken⟩
      | cons x xs =>
          cases ys with
          | nil =>
              obtain rfl := pageChain_nil.mp chainY
              simp only [ne_eq, not_true, and_false, if_false, Nat.or_zero, List.merge_right]
              exact ⟨_, _, rfl, finish chainX (fun n taken => (slot n taken).1)
                fun n taken => List.mem_append_left _ taken⟩
          | cons y ys =>
              have nodupX := Chain.nodup chainX
              have nodupY := Chain.nodup chainY
              obtain ⟨rfl, realX, restX⟩ := pageChain_cons.mp chainX
              obtain ⟨rfl, realY, restY⟩ := pageChain_cons.mp chainY
              rw [if_pos ⟨realX, realY⟩, order]
              simp only [List.length_cons] at enough
              have notXs := (List.nodup_cons.mp nodupX).1
              have notYs := (List.nodup_cons.mp nodupY).1
              by_cases first : cmp a b ≤ 0
              · rw [if_pos first, List.cons_merge_cons_pos _ _ _ (by simpa using first)]
                have load : ((storeAt t a p desc).2 a).page = (desc a).page := by
                  rw [(storeAt_relinked t a p desc).outside a]
                  intro taken
                  exact (slot a (Option.mem_toList.mp taken)).1 List.mem_cons_self
                simp only [load]
                exact advance realX notXs (fun inY => apart List.mem_cons_self inY)
                  (by simp only [List.length_cons]; omega) restX chainY
                  (fun n inX inY => apart (List.mem_cons_of_mem _ inX) inY)
                  (fun n taken => by have := slot n taken; simp_all)
                  (fun n member => by simpa [or_assoc] using member)
              · rw [if_neg first, List.cons_merge_cons_neg _ _ _ (by simpa using first)]
                have load : ((storeAt t b p desc).2 b).page = (desc b).page := by
                  rw [(storeAt_relinked t b p desc).outside b]
                  intro taken
                  exact (slot b (Option.mem_toList.mp taken)).2 List.mem_cons_self
                simp only [load]
                exact advance realY (fun inX => apart inX List.mem_cons_self) notYs
                  (by simp only [List.length_cons]; omega) chainX restY
                  (fun n inX inY => apart inX (List.mem_cons_of_mem _ inY))
                  (fun n taken => by have := slot n taken; simp_all)
                  (fun n member => by
                    rcases member with here | inX | inY
                    · simp [here]
                    · exact List.mem_append_left _ inX
                    · exact List.mem_append_right _ (List.mem_cons_of_mem _ inY))

/-! ### Sorting -/

/-- `R` is a transitive relation that `pcmp` decides on the pages of `l`. -/
structure Decides (desc : ℕ → Page) (l : List ℕ) (R : ℕ → ℕ → Prop) : Prop where
  trans : ∀ {x y z}, R x y → R y z → R x z
  yes : ∀ x ∈ l, ∀ y ∈ l, pcmp desc x y ≤ 0 → R x y
  no : ∀ x ∈ l, ∀ y ∈ l, 0 < pcmp desc x y → R y x

theorem Decides.sub {desc desc' : ℕ → Page} {l m : List ℕ} {R : ℕ → ℕ → Prop}
    (decides : Decides desc l R) (same : pcmp desc' = pcmp desc) (inside : ∀ n ∈ m, n ∈ l) :
    Decides desc' m R := by
  refine ⟨decides.trans, ?_, ?_⟩
  · rw [same]
    exact fun x inX y inY => decides.yes x (inside x inX) y (inside y inY)
  · rw [same]
    exact fun x inX y inY => decides.no x (inside x inX) y (inside y inY)

theorem Decides.pairwise {desc : ℕ → Page} {l : List ℕ} {R : ℕ → ℕ → Prop}
    (decides : Decides desc l R) (inOrder : l.IsChain fun x y => pcmp desc x y ≤ 0) :
    l.Pairwise R := by
  have : IsTrans ℕ R := ⟨fun _ _ _ => decides.trans⟩
  refine List.isChain_iff_pairwise.mp ?_
  exact inOrder.imp_of_mem_imp fun x y inX inY => decides.yes x inX y inY

/-- The outcome of `page_list_sort` on the list `l`. -/
def Sorted (desc : ℕ → Page) (l : List ℕ) (result : Option (ℕ × (ℕ → Page))) : Prop :=
  ∃ p' desc' l', result = some (p', desc') ∧ PageChain desc' p' l' ∧ l'.Perm l ∧
    Relinked l desc desc' ∧ ∀ R, Decides desc l R → l'.Pairwise R

theorem sorted_short {desc : ℕ → Page} {p : ℕ} {l : List ℕ} (chain : PageChain desc p l)
    (short : l.length ≤ 1) : Sorted desc l (some (p, desc)) := by
  refine ⟨p, desc, l, rfl, chain, List.Perm.refl l, Relinked.refl, fun R _ => ?_⟩
  cases l with
  | nil => exact List.Pairwise.nil
  | cons x l =>
      obtain rfl : l = [] := List.eq_nil_of_length_eq_zero (by simpa using short)
      exact List.pairwise_singleton R x

theorem PageChain.cut {desc desc' : ℕ → Page} {p mid : ℕ} {front back : List ℕ}
    (chain : PageChain desc p (front ++ mid :: back)) (relinked : Relinked back desc desc') :
    PageChain (setLink desc' mid 0) p (front ++ [mid]) := by
  have distinct := Chain.nodup chain
  obtain ⟨m, segment, rest⟩ := chain_append.mp chain
  obtain ⟨rfl, real, -⟩ := rest
  obtain ⟨-, backDistinct, apart⟩ := List.nodup_append.mp distinct
  refine segment_snoc.mpr ⟨segment.congr fun n member => ?_, real, setLink_page _ _ _⟩
  have notMid : n ≠ m := apart n member m List.mem_cons_self
  have notBack : n ∉ back := fun inBack => apart n member n (List.mem_cons_of_mem _ inBack) rfl
  rw [setLink_of_ne _ notMid, relinked.outside n notBack]

/-- Once both halves are sorted, the merge sorts the whole. -/
theorem sorted_of_halves {fuel : ℕ} {desc desc₁ : ℕ → Page} {p b mid : ℕ}
    {front back back' : List ℕ} {half : Option (ℕ × (ℕ → Page))}
    (enough : (front ++ mid :: back).length < fuel)
    (chain : PageChain desc p (front ++ mid :: back)) (relinked : Relinked back desc desc₁)
    (chainBack : PageChain desc₁ b back') (permBack : back'.Perm back)
    (sortedBack : ∀ R, Decides desc back R → back'.Pairwise R)
    (firstHalf : Sorted (setLink desc₁ mid 0) (front ++ [mid]) half) :
    Sorted desc (front ++ mid :: back)
      (half.bind fun r => mergeLoop fuel r.2 p none r.1 b) := by
  obtain ⟨a, desc₂, first, rfl, chainFirst, permFirst, relinkedFirst, sortedFirst⟩ := firstHalf
  have inFront : ∀ n ∈ front ++ [mid], n ∈ front ++ mid :: back := fun n member => by
    simp only [List.mem_append, List.mem_cons, List.not_mem_nil, or_false] at member ⊢
    tauto
  have inBack : ∀ n ∈ back, n ∈ front ++ mid :: back := fun n member => by
    simp only [List.mem_append, List.mem_cons]
    tauto
  have distinct := Chain.nodup chain
  have apart : ∀ n ∈ front ++ [mid], n ∉ back := by
    rw [List.append_cons] at distinct
    intro n inFirst inBack
    exact (List.nodup_append.mp distinct).2.2 n inFirst n inBack rfl
  have cutting : Relinked (front ++ mid :: back) desc desc₂ :=
    ((relinked.mono inBack).trans (Relinked.setLink (l := [mid]) (by simp)) (by simp)).trans
      relinkedFirst inFront
  have chainBack' : PageChain desc₂ b back' := by
    refine relinkedFirst.chain (Chain.congr (fun n member => ?_) chainBack) ?_
    · rw [setLink_of_ne]
      rintro rfl
      exact apart n (by simp) (permBack.mem_iff.mp member)
    · exact fun n member inFirst => apart n inFirst (permBack.mem_iff.mp member)
  obtain ⟨p', desc', loop, chain', relinkedLoop, -⟩ :=
    mergeLoop_spec (p := p) (t := none) fuel cutting.pcmp
      (by
        rw [permFirst.length_eq, permBack.length_eq]
        simp only [List.length_append, List.length_cons, List.length_nil] at enough ⊢
        omega)
      chainFirst chainBack'
      (fun n inFirst inBack' =>
        apart n (permFirst.mem_iff.mp inFirst) (permBack.mem_iff.mp inBack'))
      (fun n same => by cases same)
  have permAll : (first ++ back').Perm (front ++ mid :: back) := by
    rw [List.append_cons]
    exact permFirst.append permBack
  refine ⟨p', desc', _, loop, chain', (List.merge_perm_append _).trans permAll, ?_, ?_⟩
  · exact cutting.trans relinkedLoop fun n member => permAll.mem_iff.mp (by simpa using member)
  · intro R decides
    have fromFirst : ∀ x ∈ first, x ∈ front ++ mid :: back := fun x member =>
      inFront x (permFirst.mem_iff.mp member)
    have fromBack : ∀ y ∈ back', y ∈ front ++ mid :: back := fun y member =>
      inBack y (permBack.mem_iff.mp member)
    have cutOrder : pcmp (setLink desc₁ mid 0) = pcmp desc :=
      (Relinked.setLink (l := [mid]) (by simp)).pcmp.trans relinked.pcmp
    refine pairwise_merge_of (R := R) decides.trans ?_ ?_ (sortedFirst R (decides.sub cutOrder inFront))
      (sortedBack R (decides.sub rfl inBack))
    · intro x inX y inY le
      exact decides.yes x (fromFirst x inX) y (fromBack y inY) (by simpa using le)
    · intro x inX y inY gt
      exact decides.no x (fromFirst x inX) y (fromBack y inY) (by simpa using gt)

theorem pageListSort_sorted {fuel : ℕ} {desc : ℕ → Page} {p : ℕ} {l : List ℕ}
    (enough : l.length < fuel) (chain : PageChain desc p l) :
    Sorted desc l (pageListSort fuel desc p) := by
  induction fuel generalizing desc p l with
  | zero => exact absurd enough (Nat.not_lt_zero _)
  | succ fuel ih =>
      rw [pageListSort]
      cases l with
      | nil =>
          rw [if_pos (pageChain_nil.mp chain)]
          exact sorted_short chain (by simp)
      | cons x l =>
          obtain ⟨rfl, real, rest⟩ := pageChain_cons.mp chain
          rw [if_neg real]
          cases l with
          | nil =>
              simp only [pageChain_nil.mp rest, if_true]
              exact sorted_short chain (by simp)
          | cons y l =>
              have link : (desc p).page ≠ 0 := by
                rw [rest.1]
                exact rest.2.1
              simp only [link, if_false]
              obtain ⟨front, mid, back, asort, split, parts, backSome, inOrder⟩ :=
                splitLoop_spec (fuel + 1) false
                  (by simp only [List.length_cons] at enough ⊢; omega) chain rest le_rfl
                  (List.cons_ne_nil _ _)
              rw [parts] at chain enough ⊢
              obtain ⟨m, -, atMid⟩ := chain_append.mp chain
              obtain ⟨-, -, chainBack⟩ := atMid
              have lengths := enough
              simp only [List.length_append, List.length_cons] at lengths
              have someBack := List.length_pos_of_ne_nil backSome
              obtain ⟨b, desc₁, back', sortBack, chainBack', permBack, relinked, sortedBack⟩ :=
                ih (by omega) chainBack
              have cut := chain.cut relinked
              have firstHalf : Sorted (setLink desc₁ mid 0) (front ++ [mid])
                  (if asort then pageListSort fuel (setLink desc₁ mid 0) p
                    else some (p, setLink desc₁ mid 0)) := by
                cases asort with
                | true => exact ih (by simp only [List.length_append, List.length_singleton]; omega) cut
                | false =>
                    refine ⟨_, _, _, rfl, cut, List.Perm.refl _, Relinked.refl, fun R decides => ?_⟩
                    refine decides.pairwise ?_
                    rw [(Relinked.setLink (l := [mid]) (by simp)).pcmp, relinked.pcmp]
                    exact (inOrder rfl).2
              have whole := sorted_of_halves enough chain relinked chainBack' permBack sortedBack
                firstHalf
              simp only [split, sortBack, Option.bind_eq_bind, Option.bind_some]
              cases asort with
              | true => exact whole
              | false => exact whole

theorem decides_count (desc : ℕ → Page) (l : List ℕ) :
    Decides desc l fun x y => (desc x).count ≤ (desc y).count := by
  refine ⟨fun first second => Int.le_trans first second, ?_, ?_⟩
  · intro x _ y _ le
    simp only [pcmp] at le
    split_ifs at le <;> omega
  · intro x _ y _ gt
    simp only [pcmp] at gt
    split_ifs at gt <;> omega

/-- The order `pcmp` is meant to be: by count, then by page number. -/
def PageLe (desc : ℕ → Page) (x y : ℕ) : Prop :=
  (desc x).count < (desc y).count ∨ ((desc x).count = (desc y).count ∧ x ≤ y)

theorem decides_pageLe {desc : ℕ → Page} {l : List ℕ} (small : ∀ n ∈ l, n < 2 ^ 31) :
    Decides desc l (PageLe desc) := by
  have numbers : ∀ x ∈ l, ∀ y ∈ l, Int.bmod ((x : ℤ) - y) (2 ^ 32) = x - y := by
    intro x inX y inY
    have := small x inX
    have := small y inY
    exact Int.bmod_eq_of_le (by omega) (by omega)
  refine ⟨?_, ?_, ?_⟩
  · intro x y z first second
    simp only [PageLe] at first second ⊢
    omega
  · intro x inX y inY le
    simp only [pcmp, numbers x inX y inY] at le
    simp only [PageLe]
    split_ifs at le <;> omega
  · intro x inX y inY gt
    simp only [pcmp, numbers x inX y inY] at gt
    simp only [PageLe]
    split_ifs at gt <;> omega

/-- `page_list_sort` returns the pages it was given, in ascending order of their counts, and changes
nothing but their links. Pages of one count are in ascending order of their numbers as long as these
are below `2^31`. -/
theorem pageListSort_spec (fuel : ℕ) {desc : ℕ → Page} {p : ℕ} {l : List ℕ}
    (enough : l.length < fuel) (chain : PageChain desc p l) :
    ∃ p' desc' l', pageListSort fuel desc p = some (p', desc') ∧ PageChain desc' p' l' ∧
      l'.Perm l ∧ l'.Pairwise (fun x y => (desc x).count ≤ (desc y).count) ∧
      ((∀ n ∈ l, n < 2 ^ 31) → l'.Pairwise (PageLe desc)) ∧
      (∀ n, n ∉ l → desc' n = desc n) ∧
      ∀ n, (desc' n).count = (desc n).count ∧ (desc' n).free = (desc n).free ∧
        (desc' n).code = (desc n).code := by
  obtain ⟨p', desc', l', sort, chain', perm, relinked, sorted⟩ := pageListSort_sorted enough chain
  exact ⟨p', desc', l', sort, chain', perm, sorted _ (decides_count desc l),
    fun small => sorted _ (decides_pageLe small), relinked.outside, relinked.fields⟩

/-- Three pages of one class: page 5 with two free chunks, then pages 3 and 4 with one each. -/
def threePages (n : ℕ) : Page :=
  if n = 5 then ⟨3, 0, 2, 0⟩ else if n = 3 then ⟨4, 0, 1, 0⟩ else ⟨0, 0, 1, 0⟩

theorem pageListSort_threePages : [5, 3, 4].length < 4 ∧ PageChain threePages 5 [5, 3, 4] ∧
    ∃ p' desc' l', pageListSort 4 threePages 5 = some (p', desc') ∧ PageChain desc' p' l' ∧
      l'.Perm [5, 3, 4] ∧ l'.Pairwise (PageLe threePages) := by
  have chain : PageChain threePages 5 [5, 3, 4] := by
    simp only [pageChain_cons, pageChain_nil]
    decide
  obtain ⟨p', desc', l', sort, chain', perm, -, sorted, -⟩ :=
    pageListSort_spec 4 (by decide) chain
  exact ⟨by decide, chain, p', desc', l', sort, chain', perm, sorted (by decide)⟩

end Elcrq.Malloc
