import Elcrq.Words

/-! # Size classes

`malloc.c` serves a request of at most half a page from a page of chunks of one
size. The sizes are the powers of two from 8 to 2048, numbered by the enumeration
of `malloc.h`. `smlist` is the `bsr` version of `SMLIST` that `malloc.c` compiles
on x86, with the conversion of its `size_t` argument to `int`; `smlistMacro` is the
macro of `malloc.h` that it replaces. -/

set_option autoImplicit false

namespace Elcrq.Malloc

/-- `PAGESIZE`. -/
def pageSize : ℕ := 4096

/-- `NUMSMALL`, the enumerator `size4096`. -/
def numSmall : ℕ := 9

/-- `SIZE(l)`. -/
def size (l : ℕ) : ℕ := 8 <<< l

/-- `PERPAGE(l)`. -/
def perPage (l : ℕ) : ℕ := (pageSize / 8) >>> l

/-- `TARGET(l)`. -/
def target (l : ℕ) : ℕ := 2 <<< ((numSmall - 1 - l) / 2)

def smlist (sz : BitVec 32) : ℤ :=
  let rv : ℤ := Nat.log2 ((sz - 1) ||| 1).toNat - (7 - 5)
  let rv := if rv < 0 then 0 else rv
  if rv ≥ numSmall then -1 else rv

def smlistMacro (sz : ℤ) : ℤ :=
  if sz ≤ 64 then
    if sz ≤ 8 then 0 else if sz ≤ 16 then 1 else if sz ≤ 32 then 2 else 3
  else if sz ≤ 512 then
    if sz ≤ 128 then 4 else if sz ≤ 256 then 5 else 6
  else if sz ≤ 1024 then 7
  else if sz ≤ 2048 then 8
  else -1

/-- `SMLIST(size)` in `malloc`: the argument is converted to `int` first. -/
def sizeClass (bytes : Word) : ℤ := smlist (bytes.setWidth 32)

theorem size_eq (l : ℕ) : size l = 2 ^ (l + 3) := by
  rw [size, Nat.shiftLeft_eq, pow_add]
  omega

theorem size_mono {l m : ℕ} (le : l ≤ m) : size l ≤ size m := by
  rw [size_eq, size_eq]
  exact Nat.pow_le_pow_right (by decide) (by omega)

theorem size_pos (l : ℕ) : 0 < size l := by
  rw [size_eq]
  exact Nat.two_pow_pos _

theorem perPage_mul_size {l : ℕ} (small : l < numSmall) : perPage l * size l = pageSize := by
  revert l
  decide

theorem one_lt_perPage {l : ℕ} (small : l < numSmall) : 1 < perPage l := by
  revert l
  decide

theorem target_pos (l : ℕ) : 0 < target l := by
  rw [target, Nat.shiftLeft_eq]
  exact Nat.mul_pos (by decide) (Nat.two_pow_pos _)

theorem log2_le_iff {sz : BitVec 32} (some : sz ≠ 0) (l : ℕ) :
    Nat.log2 ((sz - 1) ||| 1).toNat < l + 3 ↔ sz.toNat ≤ size l := by
  have positive : 0 < sz.toNat := by
    bv_omega
  have pred : (sz - 1).toNat = sz.toNat - 1 := by bv_omega
  have bits : ((sz - 1) ||| 1).toNat = (sz.toNat - 1) ||| 1 := by
    rw [BitVec.toNat_or, pred]
    rfl
  have odd : (sz.toNat - 1) ||| 1 ≠ 0 := by
    have := Nat.right_le_or (n := sz.toNat - 1) (m := 1)
    omega
  rw [bits, Nat.log2_lt odd, size_eq]
  constructor
  · intro below
    have := Nat.left_le_or (n := sz.toNat - 1) (m := 1)
    omega
  · intro fits
    exact Nat.or_lt_two_pow (by omega) (Nat.one_lt_two_pow (by omega))

theorem smlist_zero : smlist 0 = -1 := by decide

theorem smlist_eq (sz : BitVec 32) :
    smlist sz = if Nat.log2 ((sz - 1) ||| 1).toNat - 2 < numSmall
      then ((Nat.log2 ((sz - 1) ||| 1).toNat - 2 : ℕ) : ℤ) else -1 := by
  simp only [smlist, numSmall]
  split_ifs <;> omega

theorem smlist_eq_iff {sz : BitVec 32} (some : sz ≠ 0) {l : ℕ} (small : l < numSmall) :
    smlist sz = l ↔ sz.toNat ≤ size l ∧ ∀ m < l, size m < sz.toNat := by
  have fits := log2_le_iff some
  rw [smlist_eq]
  constructor
  · intro found
    split_ifs at found with below
    refine ⟨(fits l).mp (by omega), fun m less => ?_⟩
    by_contra holds
    have := (fits m).mpr (by omega)
    omega
  · rintro ⟨holds, least⟩
    have upper := (fits l).mpr holds
    have lower : l ≤ Nat.log2 ((sz - 1) ||| 1).toNat - 2 := by
      rcases Nat.eq_zero_or_pos l with rfl | positive
      · exact Nat.zero_le _
      · have below := least (l - 1) (by omega)
        have above := mt (fits (l - 1)).mp (by omega)
        omega
    rw [if_pos (by omega), Nat.le_antisymm (by omega) lower]

theorem smlist_neg_iff (sz : BitVec 32) : smlist sz = -1 ↔ sz = 0 ∨ 2048 < sz.toNat := by
  by_cases none : sz = 0
  · subst none
    exact iff_of_true smlist_zero (Or.inl rfl)
  · have fits := log2_le_iff none 8
    rw [smlist_eq]
    have last : size 8 = 2048 := by decide
    simp only [none, false_or, numSmall]
    split_ifs with below <;> omega

theorem smlist_nonneg {sz : BitVec 32} (some : sz ≠ 0) (holds : sz.toNat ≤ 2048) :
    ∃ l < numSmall, smlist sz = l := by
  have real : smlist sz ≠ -1 := by
    rw [Ne, smlist_neg_iff]
    rintro (none | above)
    · exact some none
    · omega
  rw [smlist_eq] at real ⊢
  split_ifs at real ⊢ with below
  · exact ⟨_, below, rfl⟩
  · exact absurd rfl real

theorem smlist_eq_of_bounds {sz : BitVec 32} (some : sz ≠ 0) {l : ℕ} (small : l < numSmall)
    (upper : sz.toNat ≤ size l) (lower : l = 0 ∨ size (l - 1) < sz.toNat) : smlist sz = l := by
  refine (smlist_eq_iff some small).mpr ⟨upper, fun m less => ?_⟩
  rcases lower with rfl | below
  · omega
  · exact lt_of_le_of_lt (size_mono (by omega)) below

/-- The two versions of `SMLIST` agree exactly on the positive requests. The macro puts a request
of zero bytes in the smallest class; the `bsr` version finds the top bit of `-1` and calls it a
large request. -/
theorem smlist_eq_macro_iff (sz : BitVec 32) : smlist sz = smlistMacro sz.toInt ↔ 0 < sz.toInt := by
  have range := sz.isLt
  have signed := BitVec.toInt_eq_toNat_cond sz
  constructor
  · intro agree
    by_contra negative
    have macroZero : smlistMacro sz.toInt = 0 := by
      rw [smlistMacro, if_pos (by omega), if_pos (by omega)]
    have large : smlist sz = -1 := by
      refine (smlist_neg_iff sz).mpr ?_
      by_cases none : sz = 0
      · exact Or.inl none
      · right
        split_ifs at signed with half
        · bv_omega
        · omega
    rw [macroZero, large] at agree
    omega
  · intro positive
    have some : sz ≠ 0 := by
      rintro rfl
      exact absurd positive (by decide)
    have value : sz.toInt = sz.toNat := by
      split_ifs at signed <;> omega
    have sizes : size 0 = 8 ∧ size 1 = 16 ∧ size 2 = 32 ∧ size 3 = 64 ∧ size 4 = 128 ∧
        size 5 = 256 ∧ size 6 = 512 ∧ size 7 = 1024 ∧ size 8 = 2048 := by decide
    have bound := fun (l : ℕ) (small : l < numSmall) => smlist_eq_of_bounds some small
    rw [value, smlistMacro]
    split_ifs
    · exact bound 0 (by decide) (by omega) (by omega)
    · exact bound 1 (by decide) (by omega) (by simp only [Nat.reduceSub]; omega)
    · exact bound 2 (by decide) (by omega) (by simp only [Nat.reduceSub]; omega)
    · exact bound 3 (by decide) (by omega) (by simp only [Nat.reduceSub]; omega)
    · exact bound 4 (by decide) (by omega) (by simp only [Nat.reduceSub]; omega)
    · exact bound 5 (by decide) (by omega) (by simp only [Nat.reduceSub]; omega)
    · exact bound 6 (by decide) (by omega) (by simp only [Nat.reduceSub]; omega)
    · exact bound 7 (by decide) (by omega) (by simp only [Nat.reduceSub]; omega)
    · exact bound 8 (by decide) (by omega) (by simp only [Nat.reduceSub]; omega)
    · exact (smlist_neg_iff sz).mpr (Or.inr (by omega))

theorem sizeClass_lt {bytes : Word} (small : 0 ≤ sizeClass bytes) :
    (sizeClass bytes).toNat < numSmall := by
  simp only [sizeClass, smlist] at small ⊢
  split_ifs at small ⊢ <;> omega

/-- `malloc` serves a request from chunks exactly when the low 32 bits of its size are between 1
and 2048, from the least class that holds that many bytes. The chunk holds the request itself
unless the conversion to `int` has cut it. -/
theorem sizeClass_least (bytes : Word) :
    (sizeClass bytes = -1 ↔ bytes.toNat % 2 ^ 32 = 0 ∨ 2048 < bytes.toNat % 2 ^ 32) ∧
    (0 < bytes.toNat % 2 ^ 32 → bytes.toNat % 2 ^ 32 ≤ 2048 → ∃ l : ℕ, sizeClass bytes = l) ∧
    ∀ l : ℕ, sizeClass bytes = l →
      l < numSmall ∧ bytes.toNat % 2 ^ 32 ≤ size l ∧ (∀ m < l, size m < bytes.toNat % 2 ^ 32) ∧
      (bytes.toNat ≤ size l ↔ bytes.toNat < 2 ^ 32) := by
  have low : (bytes.setWidth 32).toNat = bytes.toNat % 2 ^ 32 := BitVec.toNat_setWidth 32 bytes
  have zero : bytes.setWidth 32 = 0 ↔ bytes.toNat % 2 ^ 32 = 0 := by
    rw [← low]
    bv_omega
  refine ⟨?_, fun some holds => ?_, fun l chosen => ?_⟩
  · rw [sizeClass, smlist_neg_iff, zero, low]
  · have real : bytes.setWidth 32 ≠ 0 := fun none => Nat.ne_of_gt some (zero.mp none)
    obtain ⟨l, _, found⟩ := smlist_nonneg real (by rwa [low])
    exact ⟨l, found⟩
  · rw [sizeClass] at chosen
    have real : ¬ smlist (bytes.setWidth 32) = -1 := by omega
    rw [smlist_neg_iff] at real
    have some : bytes.setWidth 32 ≠ 0 := fun none => real (Or.inl none)
    obtain ⟨m, small, found⟩ := smlist_nonneg some (by omega)
    obtain rfl : l = m := by omega
    obtain ⟨holds, least⟩ := (smlist_eq_iff some small).mp chosen
    rw [low] at holds least
    have largest : size l ≤ size 8 := size_mono (by rw [numSmall] at small; omega)
    have last : size 8 = 2048 := by decide
    refine ⟨small, holds, least, ?_⟩
    constructor
    · omega
    · intro short
      rwa [Nat.mod_eq_of_lt short] at holds

end Elcrq.Malloc
