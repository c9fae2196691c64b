/-
# Exact division by one limb

`mpn_divexact_1` (`mpn/generic/divexact_1.c`) divides a number by a limb that is known
to divide it.  It works from the lowest limb up: a quotient limb is the lowest limb
left times the inverse of the divisor modulo the limb base, and what this limb takes
out of the limbs above is carried along.  An even divisor is shifted to an odd one,
and the number is shifted limb by limb on the way.

`modlimb_invert` starts from a table of inverses modulo 256, and each step doubles the
number of bits that are right.
-/

import Mathlib.Algebra.Order.Ring.Int
import Mathlib.Data.Int.ModEq
import Mathlib.Data.Nat.Factorization.Basic
import Mathlib.Tactic.LinearCombination
import SecureDesign.Mpir.MulDiv

namespace SecureDesign
namespace Mpir

open CLang

/-- `modlimb_invert_table`: the inverse of `2 * i + 1` modulo 256. -/
def modlimbInvertTable : List UInt64 :=
  [0x01, 0xAB, 0xCD, 0xB7, 0x39, 0xA3, 0xC5, 0xEF, 0xF1, 0x1B, 0x3D, 0xA7,
   0x29, 0x13, 0x35, 0xDF, 0xE1, 0x8B, 0xAD, 0x97, 0x19, 0x83, 0xA5, 0xCF,
   0xD1, 0xFB, 0x1D, 0x87, 0x09, 0xF3, 0x15, 0xBF, 0xC1, 0x6B, 0x8D, 0x77,
   0xF9, 0x63, 0x85, 0xAF, 0xB1, 0xDB, 0xFD, 0x67, 0xE9, 0xD3, 0xF5, 0x9F,
   0xA1, 0x4B, 0x6D, 0x57, 0xD9, 0x43, 0x65, 0x8F, 0x91, 0xBB, 0xDD, 0x47,
   0xC9, 0xB3, 0xD5, 0x7F, 0x81, 0x2B, 0x4D, 0x37, 0xB9, 0x23, 0x45, 0x6F,
   0x71, 0x9B, 0xBD, 0x27, 0xA9, 0x93, 0xB5, 0x5F, 0x61, 0x0B, 0x2D, 0x17,
   0x99, 0x03, 0x25, 0x4F, 0x51, 0x7B, 0x9D, 0x07, 0x89, 0x73, 0x95, 0x3F,
   0x41, 0xEB, 0x0D, 0xF7, 0x79, 0xE3, 0x05, 0x2F, 0x31, 0x5B, 0x7D, 0xE7,
   0x69, 0x53, 0x75, 0x1F, 0x21, 0xCB, 0xED, 0xD7, 0x59, 0xC3, 0xE5, 0x0F,
   0x11, 0x3B, 0x5D, 0xC7, 0x49, 0x33, 0x55, 0xFF]

/-- One step of `modlimb_invert`: `2 * inv - inv * inv * n`. -/
def modlimbInvertStep (inv n : UInt64) : UInt64 := 2 * inv - inv * inv * n

/-- `modlimb_invert (inv, n)`. -/
def modlimbInvert (n : UInt64) : UInt64 :=
  let inv := modlimbInvertTable.getD ((n / 2) &&& 0x7F).toNat 0
  let inv := modlimbInvertStep inv n
  let inv := modlimbInvertStep inv n
  modlimbInvertStep inv n

/-- `count_trailing_zeros (count, x)`, from the leading zeros of the lowest set bit. -/
def countTrailingZeros (x : UInt64) : ℕ := 64 - 1 - countLeadingZeros (x &&& -x)

/-- The loop of `mpn_divexact_1` for an odd divisor, with the carry `c`. -/
def divexactLoop (divisor inverse c : UInt64) : List UInt64 → List UInt64
  | [] => []
  | s :: src =>
      let w := s - c
      let l := w * inverse
      l :: divexactLoop divisor inverse ((decide (s < w)).toUInt64 + (umulPpmm l divisor).1) src

/-- The loop for an even divisor.  `s` is the limb in hand, not yet shifted. -/
def divexactShiftLoop (divisor inverse : UInt64) (shift : ℕ) (c s : UInt64) :
    List UInt64 → List UInt64
  | [] => [(s >>> UInt64.ofNat shift - c) * inverse]
  | sNext :: src =>
      let ls := s >>> UInt64.ofNat shift ||| sNext <<< UInt64.ofNat (64 - shift)
      let w := ls - c
      let l := w * inverse
      l :: divexactShiftLoop divisor inverse shift
        ((decide (ls < w)).toUInt64 + (umulPpmm l divisor).1) sNext src

/-- `mpn_divexact_1`. -/
def mpnDivexact1 (src : List UInt64) (divisor : UInt64) : List UInt64 :=
  match src with
  | [] => []
  | [s] => [s / divisor]
  | s :: s' :: src =>
      if divisor &&& 1 = 0 then
        let shift := countTrailingZeros divisor
        let divisor := divisor >>> UInt64.ofNat shift
        let inverse := modlimbInvert divisor
        if shift ≠ 0 then divexactShiftLoop divisor inverse shift 0 s (s' :: src)
        else divexactLoop divisor inverse 0 (s :: s' :: src)
      else divexactLoop divisor (modlimbInvert divisor) 0 (s :: s' :: src)

/-! ### The inverse modulo a limb -/

section

variable {a b : UInt64}

theorem toNat_sub_modEq (a b : UInt64) : ((a - b).toNat : ℤ) ≡ a.toNat - b.toNat [ZMOD 2 ^ 64] := by
  have h := toNat_sub_borrow a b
  refine (Int.modEq_iff_add_fac.mpr ⟨-(decide (a < b)).toNat, ?_⟩)
  zify at h
  linear_combination -h

theorem toNat_mul_modEq (a b : UInt64) : ((a * b).toNat : ℤ) ≡ a.toNat * b.toNat [ZMOD 2 ^ 64] := by
  rw [UInt64.toNat_mul]
  push_cast
  exact Int.mod_modEq _ _

/-- **A Newton step doubles the number of right bits.** -/
theorem modlimbInvertStep_spec {inv n : UInt64} {k : ℕ} (hk : 2 * k ≤ 64)
    (h : (inv.toNat * n.toNat : ℤ) ≡ 1 [ZMOD 2 ^ k]) :
    ((modlimbInvertStep inv n).toNat * n.toNat : ℤ) ≡ 1 [ZMOD 2 ^ (2 * k)] := by
  have hdvd : (2 ^ (2 * k) : ℤ) ∣ 2 ^ 64 := pow_dvd_pow 2 hk
  -- The step is computed modulo the limb base.
  have hstep : ((modlimbInvertStep inv n).toNat : ℤ)
      ≡ 2 * inv.toNat - inv.toNat * inv.toNat * n.toNat [ZMOD 2 ^ (2 * k)] := by
    refine Int.ModEq.of_dvd hdvd ?_
    refine (toNat_sub_modEq (2 * inv) (inv * inv * n)).trans (Int.ModEq.sub ?_ ?_)
    · exact toNat_mul_modEq 2 inv
    · exact (toNat_mul_modEq (inv * inv) n).trans
        ((toNat_mul_modEq inv inv).mul_right _)
  -- `1 - x' * n` is the square of `1 - x * n`.
  have hsq : (2 ^ (2 * k) : ℤ) ∣ (1 - inv.toNat * n.toNat) * (1 - inv.toNat * n.toNat) := by
    have hone := Int.modEq_iff_dvd.mp h
    rw [two_mul, pow_add]
    exact mul_dvd_mul hone hone
  refine (hstep.mul_right _).trans (Int.modEq_iff_dvd.mpr ?_)
  convert hsq using 1
  ring

/-- The table inverts modulo 256. -/
theorem modlimbInvertTable_spec : ∀ i < 128,
    (modlimbInvertTable.getD i 0).toNat * (2 * i + 1) % 256 = 1 := by
  decide +kernel

/-- **`modlimb_invert` inverts an odd limb.** -/
theorem modlimbInvert_spec {n : UInt64} (hodd : n.toNat % 2 = 1) :
    (modlimbInvert n * n).toNat = 1 := by
  have hindex : ((n / 2) &&& 0x7F).toNat = n.toNat / 2 % 128 := by
    rw [UInt64.toNat_and, UInt64.toNat_div]
    exact Nat.and_two_pow_sub_one_eq_mod (n.toNat / 2) 7
  have htab := modlimbInvertTable_spec (n.toNat / 2 % 128) (Nat.mod_lt _ (by norm_num))
  have h8 : ((modlimbInvertTable.getD ((n / 2) &&& 0x7F).toNat 0).toNat * n.toNat : ℤ)
      ≡ 1 [ZMOD 2 ^ 8] := by
    rw [hindex]
    generalize (modlimbInvertTable.getD (n.toNat / 2 % 128) 0).toNat = x at htab
    have hmod : x * n.toNat % 256 = 1 := by
      have hn : n.toNat % 256 = (2 * (n.toNat / 2 % 128) + 1) % 256 := by omega
      rw [Nat.mul_mod, hn, ← Nat.mul_mod, htab]
    have h := (Nat.ModEq.symm (show 1 ≡ x * n.toNat [MOD 256] from hmod.symm))
    exact_mod_cast (Int.natCast_modEq_iff.mpr h)
  have h16 := modlimbInvertStep_spec (by norm_num) h8
  have h32 := modlimbInvertStep_spec (by norm_num) h16
  have h64 := modlimbInvertStep_spec (by norm_num) h32
  have hone : ((modlimbInvert n * n).toNat : ℤ) ≡ 1 [ZMOD 2 ^ 64] :=
    (toNat_mul_modEq _ n).trans h64
  have hlt := (modlimbInvert n * n).toNat_lt
  rw [Int.ModEq, Int.emod_eq_of_lt (by omega) (by exact_mod_cast hlt)] at hone
  exact_mod_cast hone

end

/-! ### The division -/

section

variable {divisor inverse : UInt64}

/-- **The exact division from the lowest limb up.**  The quotient limbs times the
divisor are the number, up to a carry of at most the divisor on top. -/
theorem divexactLoop_spec (hinv : (inverse * divisor).toNat = 1) (src : List UInt64) {c : UInt64}
    (hc : c.toNat ≤ divisor.toNat) :
    (divexactLoop divisor inverse c src).length = src.length ∧
      ∃ c', c' ≤ divisor.toNat ∧ val src + (2 ^ 64) ^ src.length * c'
        = val (divexactLoop divisor inverse c src) * divisor.toNat + c.toNat := by
  induction src generalizing c with
  | nil => exact ⟨rfl, c.toNat, hc, by simp [divexactLoop]⟩
  | cons s src ih =>
      have hborrow := toNat_sub_carry s c
      have hmul := umulPpmm_eq ((s - c) * inverse) divisor
      -- The low limb of the product with the divisor is the limb divided.
      have hlow : (umulPpmm ((s - c) * inverse) divisor).2 = s - c := by
        have hone : inverse * divisor = 1 := UInt64.toNat.inj hinv
        have hprod : (s - c) * inverse * divisor = s - c := by
          rw [UInt64.mul_assoc, hone, UInt64.mul_one]
        refine UInt64.toNat.inj ?_
        have h := UInt64.toNat_mul ((s - c) * inverse) divisor
        rw [hprod, ← hmul, Nat.mul_add_mod, Nat.mod_eq_of_lt (UInt64.toNat_lt _)] at h
        exact h.symm
      rw [hlow] at hmul
      have hslt := s.toNat_lt
      have hdlt := divisor.toNat_lt
      have hllt := ((s - c) * inverse).toNat_lt
      rw [divexactLoop]
      generalize (umulPpmm ((s - c) * inverse) divisor).1 = h at hmul ⊢
      generalize (s - c) * inverse = l at hmul hllt ⊢
      generalize decide (s < s - c) = b at hborrow ⊢
      have hstep : s.toNat + 2 ^ 64 * (b.toNat + h.toNat)
          = l.toNat * divisor.toNat + c.toNat := by
        rw [← hmul]
        omega
      have hle : b.toNat + h.toNat ≤ divisor.toNat := by
        have h₁ : l.toNat * divisor.toNat + c.toNat ≤ 2 ^ 64 * divisor.toNat := by
          calc l.toNat * divisor.toNat + c.toNat
              ≤ l.toNat * divisor.toNat + divisor.toNat := by omega
            _ = (l.toNat + 1) * divisor.toNat := by ring
            _ ≤ 2 ^ 64 * divisor.toNat := Nat.mul_le_mul_right _ hllt
        omega
      have hc' : (b.toUInt64 + h).toNat = b.toNat + h.toNat := by
        rw [toNat_add_of_lt] <;> rw [toNat_toUInt64]
        omega
      obtain ⟨hlen, c', hle', hval⟩ := ih (c := b.toUInt64 + h) (by rw [hc']; exact hle)
      refine ⟨by simp [hlen], c', hle', ?_⟩
      rw [hc'] at hval
      simp only [val_cons, List.length_cons]
      generalize val (divexactLoop divisor inverse (b.toUInt64 + h) src) = q at hval ⊢
      calc s.toNat + 2 ^ 64 * val src + (2 ^ 64) ^ (src.length + 1) * c'
          = s.toNat + 2 ^ 64 * (val src + (2 ^ 64) ^ src.length * c') := by ring
        _ = s.toNat + 2 ^ 64 * (b.toNat + h.toNat) + 2 ^ 64 * q * divisor.toNat := by
            rw [hval]; ring
        _ = (l.toNat + 2 ^ 64 * q) * divisor.toNat + c.toNat := by rw [hstep]; ring

/-- From the lowest limb up the division is exact when the divisor divides. -/
theorem divexactLoop_eq (hinv : (inverse * divisor).toNat = 1) (hodd : divisor.toNat % 2 = 1)
    {src : List UInt64} {q : ℕ} (hq : val src = q * divisor.toNat) :
    val (divexactLoop divisor inverse 0 src) = q := by
  obtain ⟨hlen, c', hle, hval⟩ := divexactLoop_spec hinv src (c := 0) (Nat.zero_le _)
  have hlt := val_lt (divexactLoop divisor inverse 0 src)
  rw [hlen] at hlt
  rw [hq, UInt64.toNat_zero, Nat.add_zero] at hval
  generalize val (divexactLoop divisor inverse 0 src) = x at hval hlt ⊢
  have hcop : Nat.Coprime divisor.toNat ((2 ^ 64) ^ src.length) := by
    refine Nat.Coprime.pow_right _ (Nat.Coprime.pow_right _ ?_)
    rw [Nat.coprime_comm, Nat.coprime_two_left]
    exact Nat.odd_iff.mpr hodd
  have hdvd : divisor.toNat ∣ c' := by
    have h₁ : divisor.toNat ∣ q * divisor.toNat + (2 ^ 64) ^ src.length * c' := by
      rw [hval]
      exact Nat.dvd_mul_left _ _
    exact hcop.dvd_of_dvd_mul_left ((Nat.dvd_add_right (Nat.dvd_mul_left _ _)).mp h₁)
  have hd : 0 < divisor.toNat := by omega
  rcases Nat.eq_zero_or_pos c' with rfl | hpos
  · rw [Nat.mul_zero, Nat.add_zero] at hval
    exact (Nat.eq_of_mul_eq_mul_right hd hval).symm
  · -- A carry of the whole divisor would not fit the quotient.
    have hc : c' = divisor.toNat := le_antisymm hle (Nat.le_of_dvd hpos hdvd)
    rw [hc, ← Nat.add_mul] at hval
    have := Nat.eq_of_mul_eq_mul_right hd hval
    omega

end

/-- The limbs that the loop for an even divisor shifts on the way. -/
def shiftedLimbs (shift : ℕ) (s : UInt64) : List UInt64 → List UInt64
  | [] => [s >>> UInt64.ofNat shift]
  | sNext :: src =>
      (s >>> UInt64.ofNat shift ||| sNext <<< UInt64.ofNat (64 - shift))
        :: shiftedLimbs shift sNext src

theorem divexactShiftLoop_eq (divisor inverse : UInt64) (shift : ℕ) (c s : UInt64)
    (src : List UInt64) :
    divexactShiftLoop divisor inverse shift c s src
      = divexactLoop divisor inverse c (shiftedLimbs shift s src) := by
  induction src generalizing c s with
  | nil => rfl
  | cons sNext src ih => rw [divexactShiftLoop, shiftedLimbs, divexactLoop, ih]

theorem shiftedLimbs_length (shift : ℕ) (s : UInt64) (src : List UInt64) :
    (shiftedLimbs shift s src).length = src.length + 1 := by
  induction src generalizing s with
  | nil => rfl
  | cons sNext src ih => rw [shiftedLimbs, List.length_cons, ih, List.length_cons]

/-- The shifted limbs are the number divided by a power of two. -/
theorem val_shiftedLimbs {shift : ℕ} (h0 : 0 < shift) (h64 : shift < 64) (s : UInt64)
    (src : List UInt64) :
    val (s :: src) = 2 ^ shift * val (shiftedLimbs shift s src) + s.toNat % 2 ^ shift := by
  induction src generalizing s with
  | nil =>
      rw [shiftedLimbs, val_singleton, val_singleton, toNat_shiftRight_ofNat h64]
      exact (Nat.div_add_mod _ _).symm
  | cons sNext src ih =>
      have hpow : 2 ^ 64 = 2 ^ shift * 2 ^ (64 - shift) := by
        rw [← pow_add, Nat.add_sub_cancel' h64.le]
      have hhigh : s.toNat / 2 ^ shift < 2 ^ (64 - shift) := by
        rw [Nat.div_lt_iff_lt_mul (Nat.two_pow_pos _), Nat.mul_comm, ← hpow]
        exact s.toNat_lt
      have hlimb : (s >>> UInt64.ofNat shift ||| sNext <<< UInt64.ofNat (64 - shift)).toNat
          = s.toNat / 2 ^ shift + 2 ^ (64 - shift) * (sNext.toNat % 2 ^ shift) := by
        rw [UInt64.toNat_or, toNat_shiftRight_ofNat h64, toNat_shiftLeft_ofNat (by omega),
          Nat.or_comm, ← Nat.two_pow_add_eq_or_of_lt hhigh, Nat.sub_sub_self h64.le, Nat.add_comm]
      have hdm := Nat.div_add_mod s.toNat (2 ^ shift)
      rw [val_cons, ih, shiftedLimbs, val_cons, hlimb]
      generalize val (shiftedLimbs shift sNext src) = t
      calc s.toNat + 2 ^ 64 * (2 ^ shift * t + sNext.toNat % 2 ^ shift)
          = 2 ^ shift * (s.toNat / 2 ^ shift) + s.toNat % 2 ^ shift
              + 2 ^ 64 * (2 ^ shift * t) + 2 ^ 64 * (sNext.toNat % 2 ^ shift) := by
            rw [hdm]; ring
        _ = 2 ^ shift * (s.toNat / 2 ^ shift) + s.toNat % 2 ^ shift
              + 2 ^ 64 * (2 ^ shift * t)
              + 2 ^ shift * 2 ^ (64 - shift) * (sNext.toNat % 2 ^ shift) := by rw [← hpow]
        _ = 2 ^ shift * (s.toNat / 2 ^ shift + 2 ^ (64 - shift) * (sNext.toNat % 2 ^ shift)
              + 2 ^ 64 * t) + s.toNat % 2 ^ shift := by ring

/-! ### Even divisors -/

/-- The lowest set bit of a number `2 ^ t * (2 * k + 1)`. -/
theorem toNat_lowest_bit {x : UInt64} {t k : ℕ} (hx : x.toNat = 2 ^ t * (2 * k + 1)) :
    (x &&& -x).toNat = 2 ^ t := by
  have hlt := x.toNat_lt
  have ht := Nat.two_pow_pos t
  have hpred : x.toNat - 1 = 2 ^ t * (2 * k) + (2 ^ t - 1) := by
    rw [hx, Nat.mul_add, Nat.mul_one]
    omega
  have hneg : (-x).toNat = 2 ^ 64 - (x.toNat - 1 + 1) := by
    have hpos : 0 < x.toNat := by
      rw [hx]
      exact Nat.mul_pos ht (by omega)
    rw [UInt64.toNat_neg, Nat.sub_add_cancel hpos]
    exact Nat.mod_eq_of_lt (by show 2 ^ 64 - x.toNat < 2 ^ 64; omega)
  rw [UInt64.toNat_and, hneg]
  refine Nat.eq_of_testBit_eq fun i => ?_
  rw [Nat.testBit_and, Nat.testBit_two_pow_sub_succ (by omega), hpred, Nat.testBit_two_pow]
  nth_rewrite 1 [hx]
  rw [Nat.testBit_two_pow_mul, Nat.testBit_two_pow_mul_add _ (by omega)]
  rcases Nat.lt_trichotomy i t with h | rfl | h
  · simp [h, h.not_ge, h.ne']
  · have hi : i < 64 := by
      by_contra hge
      have h₁ : 2 ^ 64 ≤ 2 ^ i := Nat.pow_le_pow_right (by norm_num) (Nat.not_lt.mp hge)
      have h₂ : 2 ^ i * 1 ≤ 2 ^ i * (2 * k + 1) := Nat.mul_le_mul_left _ (by omega)
      omega
    simp [hi]
  · obtain ⟨j, rfl⟩ : ∃ j, i = t + 1 + j := ⟨i - t - 1, by omega⟩
    have hodd : (2 * k + 1).testBit (j + 1) = k.testBit j := by
      rw [Nat.testBit_succ]
      congr 1
      omega
    have heven : (2 * k).testBit (j + 1) = k.testBit j := by
      rw [Nat.testBit_succ]
      congr 1
      omega
    rw [show t + 1 + j - t = j + 1 by omega, hodd, heven,
      decide_eq_false (show ¬ t = t + 1 + j by omega), if_neg (by omega)]
    cases k.testBit j <;> simp

/-- **The trailing zeros are the power of two in a limb.** -/
theorem countTrailingZeros_spec {x : UInt64} {t k : ℕ} (hx : x.toNat = 2 ^ t * (2 * k + 1)) :
    countTrailingZeros x = t := by
  have hlow := toNat_lowest_bit hx
  have hne : x &&& -x ≠ 0 := by
    intro h0
    rw [h0, UInt64.toNat_zero] at hlow
    exact (Nat.two_pow_pos t).ne hlow
  obtain ⟨h₁, h₂⟩ := countLeadingZeros_spec hne
  rw [countTrailingZeros]
  generalize countLeadingZeros (x &&& -x) = c at h₁ h₂ ⊢
  rw [hlow, ← pow_add] at h₁ h₂
  have hle : 63 ≤ c + t := (Nat.pow_le_pow_iff_right (by norm_num)).mp h₁
  have hlt : c + t < 64 := (Nat.pow_lt_pow_iff_right (by norm_num)).mp h₂
  omega

/-- **`mpn_divexact_1` divides every multiple of its divisor.** -/
theorem mpnDivexact1_spec {src : List UInt64} {divisor : UInt64} (hd : divisor ≠ 0) {q : ℕ}
    (hq : val src = q * divisor.toNat) :
    (mpnDivexact1 src divisor).length = src.length ∧ val (mpnDivexact1 src divisor) = q := by
  have hpos := toNat_ne_zero hd
  match src, hq with
  | [], hq =>
      rw [val_nil] at hq
      refine ⟨rfl, ?_⟩
      rcases Nat.mul_eq_zero.mp hq.symm with h | h
      · rw [h]
        rfl
      · omega
  | [s], hq =>
      rw [val_singleton] at hq
      refine ⟨rfl, ?_⟩
      rw [mpnDivexact1, val_singleton, UInt64.toNat_div, hq, Nat.mul_div_cancel _ hpos]
  | s :: s' :: src, hq =>
      obtain ⟨t, m, hodd, hx⟩ := Nat.exists_eq_two_pow_mul_odd hpos.ne'
      obtain ⟨k, rfl⟩ := hodd
      have hand : (divisor &&& 1).toNat = divisor.toNat % 2 := by
        rw [UInt64.toNat_and]
        exact Nat.and_two_pow_sub_one_eq_mod divisor.toNat 1
      rw [mpnDivexact1]
      by_cases ht : t = 0
      · -- An odd divisor.
        have hodd : divisor.toNat % 2 = 1 := by
          rw [hx, ht]
          omega
        have hbit : ¬ divisor &&& 1 = 0 := by
          intro h0
          rw [h0, UInt64.toNat_zero] at hand
          omega
        rw [if_neg hbit]
        exact ⟨(divexactLoop_spec (modlimbInvert_spec hodd) _ (Nat.zero_le _)).1,
          divexactLoop_eq (modlimbInvert_spec hodd) hodd hq⟩
      · have ht64 : t < 64 := by
          by_contra hge
          have h₁ : 2 ^ 64 ≤ 2 ^ t := Nat.pow_le_pow_right (by norm_num) (Nat.not_lt.mp hge)
          have h₂ : 2 ^ t * 1 ≤ 2 ^ t * (2 * k + 1) := Nat.mul_le_mul_left _ (by omega)
          have := divisor.toNat_lt
          omega
        have hbit : divisor &&& 1 = 0 := by
          refine UInt64.toNat.inj ?_
          obtain ⟨j, rfl⟩ : ∃ j, t = j + 1 := ⟨t - 1, by omega⟩
          rw [hand, hx, pow_succ, Nat.mul_assoc, Nat.mul_left_comm, UInt64.toNat_zero]
          exact Nat.mul_mod_right 2 _
        have hshift : (divisor >>> UInt64.ofNat t).toNat = 2 * k + 1 := by
          rw [toNat_shiftRight_ofNat ht64, hx, Nat.mul_div_cancel_left _ (Nat.two_pow_pos t)]
        rw [if_pos hbit, countTrailingZeros_spec hx]
        dsimp only
        rw [if_pos ht, divexactShiftLoop_eq]
        have hodd : (divisor >>> UInt64.ofNat t).toNat % 2 = 1 := by
          rw [hshift]
          omega
        -- The number is a multiple of the power of two as well.
        have hsplit := val_shiftedLimbs (Nat.pos_of_ne_zero ht) ht64 s (s' :: src)
        have hmul : val (s :: s' :: src) = 2 ^ t * (q * (2 * k + 1)) := by
          rw [hq, hx]
          ring
        have hlow : s.toNat % 2 ^ t = 0 := by
          have h₁ : 2 ^ t ∣ s.toNat % 2 ^ t := by
            refine (Nat.dvd_add_right (Nat.dvd_mul_right (2 ^ t)
              (val (shiftedLimbs t s (s' :: src))))).mp ?_
            rw [← hsplit, hmul]
            exact Nat.dvd_mul_right _ _
          exact Nat.eq_zero_of_dvd_of_lt h₁ (Nat.mod_lt _ (Nat.two_pow_pos t))
        rw [hlow, Nat.add_zero, hmul] at hsplit
        have hval := (Nat.eq_of_mul_eq_mul_left (Nat.two_pow_pos t) hsplit).symm
        rw [← hshift] at hval
        refine ⟨?_, divexactLoop_eq (modlimbInvert_spec hodd) hodd hval⟩
        rw [(divexactLoop_spec (modlimbInvert_spec hodd) _ (Nat.zero_le _)).1,
          shiftedLimbs_length, List.length_cons, List.length_cons, List.length_cons]

/-- **`mpn_divexact_1` undoes `mpn_mul_1`** for every divisor, even or odd: the product with
its carry limb divides back to the limbs that were multiplied. -/
theorem mpnDivexact1_mpnMul1 (up : List UInt64) {vl : UInt64} (hv : vl ≠ 0) :
    mpnDivexact1 ((mpnMul1 up vl).1 ++ [(mpnMul1 up vl).2]) vl = up ++ [0] := by
  have hlen := mpnMul1_length up vl
  have hmul := mpnMul1_eq up vl
  generalize mpnMul1 up vl = x at hlen hmul ⊢
  have hval : val (x.1 ++ [x.2]) = val up * vl.toNat := by
    rw [val_append, val_singleton, hlen, hmul]
  obtain ⟨hlen', hquot⟩ := mpnDivexact1_spec hv hval
  refine eq_of_val_eq ?_ ?_
  · rw [hlen', List.length_append, List.length_append, hlen]
    rfl
  · rw [hquot]
    exact (val_append_zeros up 1).symm

/-- An even divisor. -/
theorem mpnDivexact1_mpnMul1_twelve :
    (12 : UInt64) ≠ 0 ∧
      mpnDivexact1 ((mpnMul1 [-1, 7] 12).1 ++ [(mpnMul1 [-1, 7] 12).2]) 12 = [-1, 7] ++ [0] :=
  ⟨by decide, mpnDivexact1_mpnMul1 [-1, 7] (by decide)⟩

end Mpir
end SecureDesign
