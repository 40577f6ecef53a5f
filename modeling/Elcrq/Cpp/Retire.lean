import Mathlib.Data.List.Nodup
import Mathlib.Data.List.Count
import Mathlib.Order.Nat

/-! # `retire` of `HazardPointers.hpp` while the slots stand still

The three loops of `retire` as the source has them: the outer one erases from the
vector it indexes and advances `iret` only when it keeps a node, the one over the
threads hides the `tid` of the call and stops by a flag, the one over the slots
counts down and breaks.  The slots do not change during the call; what happens when
they do is in the machine of `LCRQueue.hpp`.  `iret`, an `unsigned` in the source, is a
number here: it goes up by one for each node that is kept. -/

set_option autoImplicit false

namespace Elcrq.Cpp

def HP_MAX_THREADS : ℕ := 128

def HP_MAX_HPS : ℕ := 4

/-- `128 / sizeof(std::atomic<T*>)`, with pointers of eight bytes. -/
def CLPAD : ℕ := 128 / 8

def HP_THRESHOLD_R : ℕ := 0

def MAX_RETIRED : ℕ := HP_MAX_THREADS * HP_MAX_HPS

/-- The class `HazardPointers`; `A` are the pointers, `nullptr` included.  The list of
thread `tid` is the one at `tid * CLPAD`. -/
structure HazardPointers (A : Type) where
  maxHPs : ℕ
  maxThreads : ℕ
  hp : ℕ → ℕ → A
  retiredList : ℕ → List A

namespace HazardPointers

variable {A : Type}

def setRetired (h : HazardPointers A) (i : ℕ) (list : List A) : HazardPointers A :=
  { h with retiredList := Function.update h.retiredList i list }

@[simp] theorem setRetired_self (h : HazardPointers A) (i : ℕ) (list : List A) :
    (h.setRetired i list).retiredList i = list := Function.update_self ..

@[simp] theorem setRetired_twice (h : HazardPointers A) (i : ℕ) (first second : List A) :
    (h.setRetired i first).setRetired i second = h.setRetired i second := by
  unfold setRetired
  rw [Function.update_idem]

theorem setRetired_same (h : HazardPointers A) (i : ℕ) :
    h.setRetired i (h.retiredList i) = h := by
  unfold setRetired
  rw [Function.update_eq_self]

variable [DecidableEq A]

/-- The loop over `ihp`, which counts down from `maxHPs - 1`. -/
def scanHps (h : HazardPointers A) (obj : A) (tid : ℕ) : ℕ → Bool → Bool
  | 0, canDelete => canDelete
  | ihp + 1, canDelete => if h.hp tid ihp = obj then false else h.scanHps obj tid ihp canDelete

/-- The loop over the threads. -/
def scanThreads (h : HazardPointers A) (obj : A) (tid : ℕ) (canDelete : Bool) : Bool :=
  if tid < h.maxThreads ∧ canDelete then
    h.scanThreads obj (tid + 1) (h.scanHps obj tid h.maxHPs canDelete)
  else canDelete
termination_by h.maxThreads - tid

/-- The loop over the retired nodes, with the nodes destroyed so far. -/
def scanRetired (h : HazardPointers A) (tid iret : ℕ) (destroyed : List A) :
    HazardPointers A × List A :=
  if inside : iret < (h.retiredList (tid * CLPAD)).length then
    let obj := (h.retiredList (tid * CLPAD))[iret]
    if h.scanThreads obj 0 true then
      (h.setRetired (tid * CLPAD) ((h.retiredList (tid * CLPAD)).eraseIdx iret)).scanRetired tid
        iret (destroyed ++ [obj])
    else h.scanRetired tid (iret + 1) destroyed
  else (h, destroyed)
termination_by (h.retiredList (tid * CLPAD)).length - iret
decreasing_by
  · rw [setRetired_self, List.length_eraseIdx_of_lt inside]
    omega
  · omega

/-- The object after the call and the nodes given to `destroy_ptr`, in order. -/
def retire (h : HazardPointers A) (ptr : A) (tid : ℕ) : HazardPointers A × List A :=
  let h := h.setRetired (tid * CLPAD) (h.retiredList (tid * CLPAD) ++ [ptr])
  if (h.retiredList (tid * CLPAD)).length < HP_THRESHOLD_R then (h, [])
  else h.scanRetired tid 0 []

def Protects (h : HazardPointers A) (obj : A) : Prop :=
  ∃ t < h.maxThreads, ∃ k < h.maxHPs, h.hp t k = obj

instance (h : HazardPointers A) (obj : A) : Decidable (h.Protects obj) :=
  inferInstanceAs (Decidable (∃ t < h.maxThreads, ∃ k < h.maxHPs, h.hp t k = obj))

theorem scanHps_eq (h : HazardPointers A) (obj : A) (tid ihp : ℕ) (canDelete : Bool) :
    h.scanHps obj tid ihp canDelete = true ↔ canDelete = true ∧ ∀ k < ihp, h.hp tid k ≠ obj := by
  induction ihp with
  | zero => simp [scanHps]
  | succ ihp ih =>
      unfold scanHps
      split
      next found =>
        refine ⟨fun absurd_ => (nomatch absurd_), fun ⟨_, none_⟩ => ?_⟩
        exact absurd found (none_ ihp (Nat.lt_succ_self _))
      next other =>
        rw [ih]
        refine and_congr_right fun _ => ⟨fun below k less => ?_, fun all k less => ?_⟩
        · rcases Nat.lt_succ_iff_lt_or_eq.mp less with before | rfl
          · exact below k before
          · exact other
        · exact all k (Nat.lt_succ_of_lt less)

theorem scanThreads_eq (h : HazardPointers A) (obj : A) (tid : ℕ) (canDelete : Bool) :
    h.scanThreads obj tid canDelete = true ↔ canDelete = true ∧
      ∀ t, tid ≤ t → t < h.maxThreads → ∀ k < h.maxHPs, h.hp t k ≠ obj := by
  fun_induction h.scanThreads obj tid canDelete with
  | case1 tid canDelete more ih =>
      obtain ⟨inside, going⟩ := more
      rw [ih, scanHps_eq, and_assoc]
      refine and_congr_right fun _ => ⟨fun ⟨here, later⟩ t from_ less => ?_, fun all => ⟨?_, ?_⟩⟩
      · rcases Nat.eq_or_lt_of_le from_ with rfl | after
        · exact here
        · exact later t after less
      · exact all tid (le_refl _) inside
      · exact fun t from_ => all t (Nat.le_of_succ_le from_)
  | case2 tid canDelete ended =>
      refine ⟨fun going => ⟨going, fun t from_ less => ?_⟩, And.left⟩
      exact absurd ⟨from_.trans_lt less, going⟩ ended

theorem scanThreads_protects (h : HazardPointers A) (obj : A) :
    h.scanThreads obj 0 true = decide (¬h.Protects obj) := by
  rw [Bool.eq_iff_iff, scanThreads_eq, decide_eq_true_iff]
  constructor
  · rintro ⟨-, none_⟩ ⟨t, inside, k, less, found⟩
    exact none_ t (Nat.zero_le _) inside k less found
  · intro free
    exact ⟨rfl, fun t _ inside k less found => free ⟨t, inside, k, less, found⟩⟩

theorem scanRetired_eq (h : HazardPointers A) (tid iret : ℕ) (destroyed : List A) :
    h.scanRetired tid iret destroyed =
      (h.setRetired (tid * CLPAD) ((h.retiredList (tid * CLPAD)).take iret ++
          ((h.retiredList (tid * CLPAD)).drop iret).filter fun obj => decide (h.Protects obj)),
        destroyed ++
          ((h.retiredList (tid * CLPAD)).drop iret).filter fun obj => decide ¬h.Protects obj) := by
  fun_induction h.scanRetired tid iret destroyed with
  | case1 h iret destroyed inside obj free ih =>
      have free : ¬h.Protects obj := by
        rw [scanThreads_protects, decide_eq_true_iff] at free
        exact free
      -- the list before and after `erase`, cut at `iret`
      have cut : (h.retiredList (tid * CLPAD)).drop iret =
          obj :: (h.retiredList (tid * CLPAD)).drop (iret + 1) := List.drop_eq_getElem_cons inside
      have before : ((h.retiredList (tid * CLPAD)).eraseIdx iret).take iret =
          (h.retiredList (tid * CLPAD)).take iret := by
        rw [List.eraseIdx_eq_take_drop_succ, List.take_left' (List.length_take_of_le inside.le)]
      have after : ((h.retiredList (tid * CLPAD)).eraseIdx iret).drop iret =
          (h.retiredList (tid * CLPAD)).drop (iret + 1) := by
        rw [List.eraseIdx_eq_take_drop_succ, List.drop_left' (List.length_take_of_le inside.le)]
      rw [ih, setRetired_self, setRetired_twice, before, after, cut,
        List.filter_cons_of_neg (by simpa using free), List.filter_cons_of_pos (by simpa using free),
        List.append_assoc]
      rfl
  | case2 h iret destroyed inside obj kept ih =>
      have kept : h.Protects obj := by
        rw [scanThreads_protects, decide_eq_true_iff, not_not] at kept
        exact kept
      have cut : (h.retiredList (tid * CLPAD)).drop iret =
          obj :: (h.retiredList (tid * CLPAD)).drop (iret + 1) := List.drop_eq_getElem_cons inside
      rw [ih, cut, List.filter_cons_of_pos (by simpa using kept),
        List.filter_cons_of_neg (by simpa using kept), List.take_add_one,
        List.getElem?_eq_getElem inside, List.append_assoc]
      rfl
  | case3 h iret destroyed ended =>
      rw [List.drop_of_length_le (Nat.not_lt.mp ended), List.take_of_length_le (Nat.not_lt.mp ended),
        List.filter_nil, List.filter_nil, List.append_nil, List.append_nil, setRetired_same]

theorem retire_eq (h : HazardPointers A) (ptr : A) (tid : ℕ) :
    h.retire ptr tid =
      (h.setRetired (tid * CLPAD) ((h.retiredList (tid * CLPAD) ++ [ptr]).filter fun obj =>
          decide (h.Protects obj)),
        (h.retiredList (tid * CLPAD) ++ [ptr]).filter fun obj => decide ¬h.Protects obj) := by
  have scans : h.retire ptr tid = (h.setRetired (tid * CLPAD)
      (h.retiredList (tid * CLPAD) ++ [ptr])).scanRetired tid 0 [] := by
    unfold retire HP_THRESHOLD_R
    exact if_neg (Nat.not_lt_zero _)
  rw [scans, scanRetired_eq, setRetired_self, setRetired_twice]
  rfl

/-- A call keeps the protected nodes in their order, destroys the others, and leaves the
lists of the other threads and the slots alone. -/
theorem retire_keeps_protected (h : HazardPointers A) (ptr : A) (tid : ℕ) :
    (h.retire ptr tid).1.retiredList (tid * CLPAD) =
        (h.retiredList (tid * CLPAD) ++ [ptr]).filter (fun obj => decide (h.Protects obj)) ∧
      (h.retire ptr tid).2 =
        (h.retiredList (tid * CLPAD) ++ [ptr]).filter (fun obj => decide ¬h.Protects obj) ∧
      ((h.retiredList (tid * CLPAD) ++ [ptr]).Nodup →
        ∀ obj ∈ h.retiredList (tid * CLPAD) ++ [ptr],
          (h.retire ptr tid).2.count obj = if h.Protects obj then 0 else 1) ∧
      (∀ t, t ≠ tid →
        (h.retire ptr tid).1.retiredList (t * CLPAD) = h.retiredList (t * CLPAD)) ∧
      (h.retire ptr tid).1.hp = h.hp := by
  rw [retire_eq]
  refine ⟨setRetired_self .., rfl, fun distinct obj member => ?_, fun t other => ?_, rfl⟩
  · have once : (h.retiredList (tid * CLPAD) ++ [ptr]).count obj = 1 :=
      List.count_eq_one_of_mem distinct member
    split
    next isKept => exact List.count_eq_zero_of_not_mem (by simp [isKept])
    next free => rw [List.count_filter (by simpa using free), once]
  · have apart : t * CLPAD ≠ tid * CLPAD := by
      unfold CLPAD
      omega
    exact Function.update_of_ne apart ..

/-- A list with a node that its own thread holds, one that another thread holds and two
that are free. -/
theorem retire_keeps_two :
    let h : HazardPointers ℕ :=
      ⟨1, 2, fun t _ => if t = 0 then 5 else 8, fun i => if i = 0 then [7, 8, 9] else []⟩
    (h.retiredList 0 ++ [5]).Nodup ∧ (h.retire 5 0).1.retiredList 0 = [8, 5] ∧
      (h.retire 5 0).2 = [7, 9] ∧ (h.retire 5 0).2.count 7 = 1 := by
  intro h
  have distinct : (h.retiredList (0 * CLPAD) ++ [5]).Nodup := by decide
  obtain ⟨kept, destroyed, once, -, -⟩ := retire_keeps_protected h 5 0
  refine ⟨distinct, ?_, ?_, ?_⟩
  · rw [Nat.zero_mul] at kept
    rw [kept]
    decide
  · rw [destroyed]
    decide
  · rw [once distinct 7 (by decide)]
    decide

end HazardPointers

end Elcrq.Cpp
