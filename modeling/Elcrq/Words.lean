import Mathlib.Algebra.Group.Nat.Defs
import Mathlib.Data.Nat.Basic
import Mathlib.Tactic.Common

/-! # Index words

`ELCRQ.h` and `LCRQueue.hpp` keep an index and a flag in one 64-bit word: bit 63
of a cell's `idx` is the unsafe bit, bit 63 of a ring's `tail` the closed bit.
The helpers below are the source's; the lemmas give each word its two readings
as a number below `2^63` and a Boolean. -/

set_option autoImplicit false

namespace Elcrq

abbrev Word := BitVec 64

def nodeIndex (i : Word) : Word := i &&& ~~~(1#64 <<< 63)

def setUnsafe (i : Word) : Word := i ||| (1#64 <<< 63)

def nodeUnsafe (i : Word) : Word := i &&& (1#64 <<< 63)

def tailIndex (t : Word) : Word := t &&& ~~~(1#64 <<< 63)

def crqIsClosed (t : Word) : Bool := (t &&& (1#64 <<< 63)) != 0

/-- `RING_SIZE`, for a given `RING_POW`. -/
def ringSize (pow : ℕ) : Word := 1#64 <<< pow

theorem nodeIndex_toNat (i : Word) : (nodeIndex i).toNat = i.toNat % 2 ^ 63 := by
  have mask : ~~~(1#64 <<< 63) = BitVec.ofNat 64 (2 ^ 63 - 1) := by decide
  rw [nodeIndex, mask, BitVec.toNat_and]
  exact Nat.and_two_pow_sub_one_eq_mod i.toNat 63

theorem tailIndex_toNat (t : Word) : (tailIndex t).toNat = t.toNat % 2 ^ 63 := nodeIndex_toNat t

theorem nodeUnsafe_eq (i : Word) : nodeUnsafe i = if 2 ^ 63 ≤ i.toNat then 1#64 <<< 63 else 0 := by
  have split : nodeUnsafe i = if i.getLsbD 63 then BitVec.twoPow 64 63 else 0 :=
    BitVec.and_twoPow i 63
  have bit : i.getLsbD 63 = decide (2 ^ 63 ≤ i.toNat) := by
    rw [← BitVec.msb_eq_getLsbD_last, BitVec.msb_eq_decide]
  rw [split, bit]
  simp only [decide_eq_true_eq]
  rfl

theorem nodeUnsafe_ne_zero (i : Word) : nodeUnsafe i ≠ 0 ↔ 2 ^ 63 ≤ i.toNat := by
  rw [nodeUnsafe_eq]
  split <;> simp_all

theorem nodeUnsafe_nodeIndex (i : Word) : nodeUnsafe (nodeIndex i) = 0 := by
  rw [nodeUnsafe_eq, nodeIndex_toNat, if_neg]
  have := Nat.mod_lt i.toNat (show 0 < 2 ^ 63 by decide)
  omega

theorem nodeIndex_nodeIndex (i : Word) : nodeIndex (nodeIndex i) = nodeIndex i := by
  apply BitVec.eq_of_toNat_eq
  rw [nodeIndex_toNat, nodeIndex_toNat, Nat.mod_mod]

theorem crqIsClosed_iff (t : Word) : crqIsClosed t = true ↔ 2 ^ 63 ≤ t.toNat := by
  rw [crqIsClosed, bne_iff_ne]
  exact nodeUnsafe_ne_zero t

theorem crqIsClosed_false_iff (t : Word) : crqIsClosed t = false ↔ t.toNat < 2 ^ 63 := by
  rw [← not_le, ← crqIsClosed_iff, Bool.not_eq_true]

theorem setUnsafe_toNat (i : Word) : (setUnsafe i).toNat = i.toNat % 2 ^ 63 + 2 ^ 63 := by
  have disjoint : setUnsafe i = nodeIndex i + (1#64 <<< 63) := by
    rw [BitVec.add_eq_or_of_and_eq_zero]
    · simp only [setUnsafe, nodeIndex]
      ext k
      simp only [BitVec.getElem_or, BitVec.getElem_and, BitVec.getElem_not]
      cases i[k] <;> cases (1#64 <<< 63)[k] <;> rfl
    · simp only [nodeIndex, BitVec.and_assoc]
      have zero : ~~~(1#64 <<< 63) &&& (1#64 <<< 63) = 0#64 := by decide
      rw [zero, BitVec.and_zero]
  have bound : i.toNat % 2 ^ 63 < 2 ^ 63 := Nat.mod_lt _ (by decide)
  have top : (1#64 <<< 63).toNat = 2 ^ 63 := by decide
  rw [disjoint, BitVec.toNat_add, nodeIndex_toNat, top]
  omega

theorem nodeUnsafe_or_toNat (c w : Word) (small : w.toNat < 2 ^ 63) :
    (nodeUnsafe c ||| w).toNat = if 2 ^ 63 ≤ c.toNat then w.toNat + 2 ^ 63 else w.toNat := by
  rw [nodeUnsafe_eq]
  split
  · have := setUnsafe_toNat w
    rw [setUnsafe, BitVec.or_comm, Nat.mod_eq_of_lt small] at this
    exact this
  · simp

theorem ringSize_toNat {pow : ℕ} (small : pow < 64) : (ringSize pow).toNat = 2 ^ pow := by
  have bound : 2 ^ pow < 2 ^ 64 := Nat.pow_lt_pow_right (by decide) small
  rw [ringSize, BitVec.toNat_shiftLeft]
  simp only [BitVec.toNat_ofNat, Nat.shiftLeft_eq]
  omega

theorem and_ringSize_toNat (t : Word) {pow : ℕ} (small : pow < 64) :
    (t &&& (ringSize pow - 1)).toNat = t.toNat % 2 ^ pow := by
  have pos : 0 < 2 ^ pow := Nat.two_pow_pos pow
  have bound : 2 ^ pow < 2 ^ 64 := Nat.pow_lt_pow_right (by decide) small
  have mask : (ringSize pow - 1).toNat = 2 ^ pow - 1 := by
    rw [BitVec.toNat_sub, ringSize_toNat small]
    have one : (1 : Word).toNat = 1 := rfl
    rw [one]
    omega
  rw [BitVec.toNat_and, mask, Nat.and_two_pow_sub_one_eq_mod]

theorem add_one_toNat (t : Word) (room : t.toNat + 1 < 2 ^ 64) : (t + 1).toNat = t.toNat + 1 := by
  have one : (1 : Word).toNat = 1 := rfl
  rw [BitVec.toNat_add, one]
  omega

theorem lt_of_slt {a b : Word} (less : a.slt b = true) (smallA : a.toNat < 2 ^ 63)
    (smallB : b.toNat < 2 ^ 63) : a < b := by
  have less : a.toInt < b.toInt := BitVec.slt_iff_toInt_lt.mp less
  rw [BitVec.toInt_eq_toNat_of_lt (by omega), BitVec.toInt_eq_toNat_of_lt (by omega)] at less
  exact Int.ofNat_lt.mp less

theorem ringSize_sle_sub {pow : ℕ} (small : pow < 63) {t h : Word} (smallT : t.toNat < 2 ^ 63)
    (smallH : h.toNat < 2 ^ 63) :
    (ringSize pow).sle (t - h) = true ↔ h.toNat + 2 ^ pow ≤ t.toNat := by
  have bound : 2 ^ pow < 2 ^ 63 := Nat.pow_lt_pow_right (by decide) small
  have size : (ringSize pow).toInt = 2 ^ pow := by
    rw [BitVec.toInt_eq_toNat_of_lt] <;> rw [ringSize_toNat (by omega)]
    · push_cast
      rfl
    · omega
  have distance : (t - h).toInt = t.toNat - h.toNat := by
    rw [BitVec.toInt_sub, BitVec.toInt_eq_toNat_of_lt (by omega),
      BitVec.toInt_eq_toNat_of_lt (by omega)]
    exact Int.bmod_eq_of_le (by omega) (by omega)
  rw [BitVec.sle_iff_toInt_le, size, distance]
  have cast : ((2 ^ pow : ℕ) : ℤ) = 2 ^ pow := by
    push_cast
    rfl
  omega

end Elcrq
