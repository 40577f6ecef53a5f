import Elcrq.Concurrent.Runs

/-! # A list linked through next pointers

`Linked next last l` says that the members of the newest-first list `l` are
linked one to the next newer one, and the newest one to `last`. -/

set_option autoImplicit false

namespace Elcrq.Concurrent

universe u

variable {α : Type u} {next next' : α → Option α} {last : Option α} {l : List α} {a b c : α}

def Linked (next : α → Option α) : Option α → List α → Prop
  | _, [] => True
  | last, a :: rest => next a = last ∧ Linked next (some a) rest

theorem Linked.congr (same : ∀ a ∈ l, next' a = next a) (linked : Linked next last l) :
    Linked next' last l := by
  induction l generalizing last with
  | nil => trivial
  | cons x rest ih =>
      refine ⟨?_, ih (fun a member => same a (List.mem_cons_of_mem _ member)) linked.2⟩
      rw [same x List.mem_cons_self]
      exact linked.1

theorem Linked.push {n : α} {rest : List α} (linked : Linked next none (a :: rest))
    (others : ∀ b ∈ rest, next' b = next b) (here : next' a = some n) (new : next' n = none) :
    Linked next' none (n :: a :: rest) := ⟨new, here, linked.2.congr others⟩

/-- The member that `next` leads to is newer, with nothing in between. -/
theorem Linked.next_some (distinct : l.Nodup) (linked : Linked next last l) (member : a ∈ l)
    (link : next a = some b) :
    (last = some b ∧ ∃ rest, l = a :: rest) ∨
      (Older l a b ∧ ∀ c, Older l c b → c = a ∨ Older l c a) := by
  induction l generalizing last with
  | nil => cases member
  | cons x rest ih =>
      obtain ⟨fresh, restDistinct⟩ := List.nodup_cons.mp distinct
      rcases List.mem_cons.mp member with rfl | inRest
      · exact Or.inl ⟨linked.1.symm.trans link, rest, rfl⟩
      · right
        rcases ih restDistinct linked.2 inRest with ⟨isLast, older, rfl⟩ | ⟨isOlder, between⟩
        · cases isLast
          refine ⟨Or.inl ⟨rfl, List.mem_cons_self⟩, ?_⟩
          rintro c (⟨_, old⟩ | deeper)
          · rcases List.mem_cons.mp old with same | below
            · exact Or.inl same
            · exact Or.inr (Or.inr (Or.inl ⟨rfl, below⟩))
          · exact absurd deeper.mem_new fresh
        · refine ⟨isOlder.cons, ?_⟩
          rintro c (⟨rfl, _⟩ | deeper)
          · exact absurd isOlder.mem_new fresh
          · exact (between c deeper).imp_right Older.cons

/-- Induction from the newest member backwards. -/
theorem Linked.induction {P : α → Prop} (linked : Linked next last l)
    (base : ∀ b, last = some b → P b)
    (back : ∀ a ∈ l, (∀ b, next a = some b → P b) → P a) : ∀ a ∈ l, P a := by
  induction l generalizing last with
  | nil => exact fun a member => absurd member List.not_mem_nil
  | cons x rest ih =>
      have newest : P x := by
        refine back x List.mem_cons_self fun b link => base b ?_
        rw [← linked.1, link]
      have older := ih linked.2 (fun b same => Option.some.inj same ▸ newest) fun a member =>
        back a (List.mem_cons_of_mem _ member)
      intro a member
      rcases List.mem_cons.mp member with rfl | inRest
      · exact newest
      · exact older a inRest

/-- The member without a successor is the newest one. -/
theorem Linked.next_none (linked : Linked next none l) (member : a ∈ l) (link : next a = none) :
    ∃ rest, l = a :: rest := by
  cases l with
  | nil => cases member
  | cons x rest =>
      rcases List.mem_cons.mp member with rfl | inRest
      · exact ⟨rest, rfl⟩
      · exfalso
        have older : ∀ (l : List α) (b : α), Linked next (some b) l → a ∉ l := by
          intro l
          induction l with
          | nil => exact fun _ _ => List.not_mem_nil
          | cons y rest ih =>
              rintro b ⟨toLast, deeper⟩ member
              rcases List.mem_cons.mp member with rfl | inRest
              · rw [link] at toLast
                cases toLast
              · exact ih y deeper inRest
        exact older rest x linked.2 inRest

theorem Linked.not_newer (distinct : l.Nodup) (linked : Linked next none l) (member : a ∈ l)
    (link : next a = none) : ¬ Older l a b := by
  obtain ⟨rest, newest⟩ := linked.next_none member link
  rw [newest] at distinct ⊢
  exact Older.not_newest distinct

/-- A newer member is reached through `next`; `R` is how one goes on from a member. -/
theorem Linked.reach {R : α → α → Prop} (linked : Linked next last l)
    (follow : ∀ i j, i = b ∨ Older l b i → next i = some j → R i j)
    (newer : a = b ∨ Older l b a) : Relation.ReflTransGen R b a := by
  induction l generalizing last a with
  | nil =>
      rcases newer with rfl | older
      · exact .refl
      · exact older.elim
  | cons x rest ih =>
      have inRest : ∀ {c}, c = b ∨ Older rest b c → Relation.ReflTransGen R b c :=
        ih linked.2 fun i j from' => follow i j (from'.imp_right Older.cons)
      rcases newer with rfl | ⟨rfl, member⟩ | deeper
      · exact .refl
      · cases rest with
        | nil => cases member
        | cons y older =>
            have before : y = b ∨ Older (y :: older) b y :=
              (List.mem_cons.mp member).imp Eq.symm fun below => Or.inl ⟨rfl, below⟩
            exact .tail (inRest before) (follow y a (before.imp_right Older.cons) linked.2.1)
      · exact inRest (Or.inr deeper)

end Elcrq.Concurrent
