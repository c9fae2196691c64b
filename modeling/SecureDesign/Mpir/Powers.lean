/-
# Tables of powers

`powers_t` of `gmp-impl.h`, as the conversions of long numbers use it in both
directions.  An entry holds a power of the base; low limbs of the power that are zero
are not stored but counted in `shift`.

A table is written here from the largest power down, which is the order in which the
recursions go through it.
-/

import SecureDesign.Mpir.AddSub
import SecureDesign.Mpir.Bases

namespace SecureDesign
namespace Mpir

open CLang

/-- `powers_t`; the limb count `n` is the length of `p`. -/
structure Powers where
  p : List UInt64
  shift : ℕ
  digitsInBase : ℕ
  base : ℕ

/-- `big_base` itself, the smallest power of every table. -/
def Powers.bigBase (base : ℕ) : Powers where
  p := [(mpBases base).bigBase]
  shift := 0
  digitsInBase := (mpBases base).charsPerLimb
  base := base

/-- An entry is a power of the base, less the limbs that `shift` counts, and normal. -/
structure Powers.Valid (base : ℕ) (e : Powers) : Prop where
  base_eq : e.base = base
  ne_nil : e.p ≠ []
  normal : Normalized e.p
  digits_pos : 0 < e.digitsInBase
  val_eq : val e.p * (2 ^ 64) ^ e.shift = base ^ e.digitsInBase

section

variable {base : ℕ} {e : Powers}

theorem Powers.bigBase_valid (hfit : (mpBases base).Fits base) (h2 : 2 ≤ base) :
    (Powers.bigBase base).Valid base := by
  have hpos : 0 < base ^ (mpBases base).charsPerLimb := Nat.pow_pos (by omega)
  have hbig : (mpBases base).bigBase ≠ 0 := by
    intro h0
    have h := hfit.bigBase_eq
    rw [h0, UInt64.toNat_zero] at h
    omega
  constructor
  · rfl
  · exact List.cons_ne_nil _ _
  · exact normal_singleton.mpr hbig
  · exact hfit.charsPerLimb_pos
  · simp [Powers.bigBase, hfit.bigBase_eq]

theorem Powers.Valid.pow_pos (he : e.Valid base) : 0 < base ^ e.digitsInBase := by
  have hle := he.normal.le_val he.ne_nil
  have hpos : 0 < (2 ^ 64) ^ (e.p.length - 1) := Nat.pow_pos (by norm_num)
  rw [← he.val_eq]
  exact Nat.mul_pos (by omega) (Nat.pow_pos (by norm_num))

/-- The limbs of an entry and its shift are those of the power. -/
theorem Powers.Valid.pow_lt (he : e.Valid base) :
    base ^ e.digitsInBase < (2 ^ 64) ^ (e.p.length + e.shift) := by
  rw [← he.val_eq, pow_add]
  exact Nat.mul_lt_mul_of_pos_right (val_lt e.p) (Nat.pow_pos (by norm_num))

theorem Powers.Valid.le_pow (he : e.Valid base) :
    (2 ^ 64) ^ (e.p.length + e.shift - 1) ≤ base ^ e.digitsInBase := by
  have hpos := List.length_pos_of_ne_nil he.ne_nil
  rw [← he.val_eq, show e.p.length + e.shift - 1 = e.p.length - 1 + e.shift by omega, pow_add]
  exact Nat.mul_le_mul_right _ (he.normal.le_val he.ne_nil)

end

/-- A table for `base`: valid entries, the last of them `big_base` itself, and each of
at most twice the digits of the next. -/
inductive Powtab (base : ℕ) : List Powers → Prop
  | last {e : Powers} (he : e.Valid base)
      (hd : e.digitsInBase = (mpBases base).charsPerLimb) : Powtab base [e]
  | cons {e e' : Powers} {tab : List Powers} (he : e.Valid base)
      (hle : e.digitsInBase ≤ 2 * e'.digitsInBase) (h : Powtab base (e' :: tab)) :
      Powtab base (e :: e' :: tab)

end Mpir
end SecureDesign
