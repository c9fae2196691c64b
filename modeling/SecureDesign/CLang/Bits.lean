/-
# Bits of objects and of ints

The value of an object is read little endian: byte `j` counts `256 ^ j`
(`leValue`), so bit `i` of the value is bit `i % 8` of byte `i / 8`
(`testBit_leValue`), and the set bits below `n` sum to the value modulo `2 ^ n`
(`sum_testBit`).

A fetched `int` is the `BitVec 32` of its four bytes.  Shifting it right is
arithmetic on negative values and undefined from the width on; below the width
the lowest bit of the shifted value is the bit at the shift distance
(`lowBit_sshiftRight`).
-/

import Mathlib.Algebra.BigOperators.Group.Finset.Basic
import Mathlib.Data.Nat.Digits.Defs
import SecureDesign.CLang.Exec

namespace SecureDesign
namespace CLang

open Exec

/-- The little-endian value of a byte string. -/
def leValue (l : List UInt8) : ℕ := Nat.ofDigits 256 (l.map UInt8.toNat)

/-- Bit `i % 8` of byte `i / 8`. -/
def bit (l : List UInt8) (i : ℕ) : Bool := (l[i / 8]?.getD 0).toNat.testBit (i % 8)

/-- The `int` whose object representation is the four bytes `l`. -/
def intOfBytes (l : List UInt8) : BitVec 32 := BitVec.ofNat 32 (leValue l)

/-- `k & 1` as a condition. -/
def lowBit (k : BitVec 32) : Bool := k &&& 1#32 != 0#32

/-- `v >> i` on `int`. -/
def shiftRight {ω : Type} (v : BitVec 32) (i : ℤ) : Exec ω Fault (BitVec 32) :=
  if 0 ≤ i ∧ i < 32 then pure (v.sshiftRight i.toNat) else fault .shiftRange

theorem leValue_cons (b : UInt8) (l : List UInt8) :
    leValue (b :: l) = b.toNat + 256 * leValue l := by
  simp [leValue, Nat.ofDigits_cons]

/-- **Bit `i` of the value is bit `i % 8` of byte `i / 8`.** -/
theorem testBit_leValue (l : List UInt8) (i : ℕ) : (leValue l).testBit i = bit l i := by
  induction l generalizing i with
  | nil => simp [leValue, bit]
  | cons b l ih =>
      have hb : b.toNat < 2 ^ 8 := b.toNat_lt
      rw [leValue_cons, Nat.add_comm, show 256 = 2 ^ 8 by rfl, Nat.testBit_two_pow_mul_add _ hb]
      split_ifs with hi
      · rw [bit, Nat.div_eq_of_lt hi, Nat.mod_eq_of_lt hi]
        rfl
      · obtain ⟨j, rfl⟩ : ∃ j, i = j + 8 := ⟨i - 8, by omega⟩
        rw [Nat.add_sub_cancel, ih, bit, bit, Nat.add_div_right j (by omega), Nat.add_mod_right,
          List.getElem?_cons_succ]

/-- The bits of the first bytes are those of the whole. -/
theorem bit_take {l : List UInt8} {m i : ℕ} (h : i < 8 * m) : bit (l.take m) i = bit l i := by
  rw [bit, bit, List.getElem?_take_of_lt (by omega)]

/-- **The set bits below `n` sum to the value modulo `2 ^ n`.** -/
theorem sum_testBit (x n : ℕ) :
    ∑ i ∈ Finset.range n, (if x.testBit i then 2 ^ i else 0) = x % 2 ^ n := by
  induction n with
  | zero => simp [Nat.mod_one]
  | succ n ih =>
      rw [Finset.sum_range_succ, ih, Nat.mod_pow_succ, Nat.testBit_eq_decide_div_mod_eq]
      rcases Nat.mod_two_eq_zero_or_one (x / 2 ^ n) with h | h <;> simp [h]

theorem lowBit_eq (k : BitVec 32) : lowBit k = k.getLsbD 0 := by
  rw [lowBit, BitVec.and_one_eq_setWidth_ofBool_getLsbD]
  cases k.getLsbD 0 <;> decide

/-- Below the width, shifting right brings the bit at the distance down. -/
theorem lowBit_sshiftRight (l : List UInt8) {i : ℕ} (h : i < 32) :
    lowBit ((intOfBytes l).sshiftRight i) = bit l i := by
  rw [lowBit_eq, BitVec.getLsbD_sshiftRight, Nat.add_zero, if_pos h, intOfBytes,
    BitVec.getLsbD_ofNat, testBit_leValue]
  simp [h]

section

variable {ω : Type} {v : BitVec 32} {i : ℕ}

theorem shiftRight_eq_pure (h : i < 32) :
    (shiftRight v i : Exec ω Fault _) = pure (v.sshiftRight i) := by
  rw [shiftRight, if_pos ⟨by omega, by omega⟩, Int.toNat_natCast]

theorem shiftRight_eq_fault (h : 32 ≤ i) :
    (shiftRight v i : Exec ω Fault _) = fault .shiftRange := if_neg (by omega)

end

end CLang
end SecureDesign
