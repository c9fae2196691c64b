/-
# Two-limb arithmetic

The macros of `longlong.h` in their portable C form, for 64-bit limbs:
`umul_ppmm`, `add_ssaaaa`, `sub_ddmmss` and `__udiv_qrnnd_c`
(`longlong_post.h`), and over them the inversion of a limb and the two divisions
by the inverse (`gmp-impl.h`).

The product is built from four half-limb products and the plain quotient from two
half-limb digits; both are exact (`umulPpmm_eq`, `udivQrnndC_eq`).  Division by the
inverse is exact too, in the branching and in the branch-free form, so all three
divisions agree (`udivQrnndPreinv_agree`).
-/

import Mathlib.Data.Nat.Bitwise
import SecureDesign.CLang.Limbs
import SecureDesign.CLang.Reciprocal

namespace SecureDesign
namespace Mpir

open CLang

/-- `__ll_B`. -/
def llB : UInt64 := (1 : UInt64) <<< 32

/-- `__ll_lowpart (t)`. -/
def llLowpart (t : UInt64) : UInt64 := t &&& (llB - 1)

/-- `__ll_highpart (t)`. -/
def llHighpart (t : UInt64) : UInt64 := t >>> 32

/-- `umul_ppmm (w1, w0, u, v)`: the two limbs of a product, the high one first. -/
def umulPpmm (u v : UInt64) : UInt64 × UInt64 :=
  let ul := llLowpart u
  let uh := llHighpart u
  let vl := llLowpart v
  let vh := llHighpart v
  let x0 := ul * vl
  let x1 := ul * vh
  let x2 := uh * vl
  let x3 := uh * vh
  let x1 := x1 + llHighpart x0
  let x1 := x1 + x2
  let x3 := if x1 < x2 then x3 + llB else x3
  (x3 + llHighpart x1, (x1 <<< 32) + llLowpart x0)

/-- `add_ssaaaa (sh, sl, ah, al, bh, bl)`. -/
def addSsaaaa (ah al bh bl : UInt64) : UInt64 × UInt64 :=
  let x := al + bl
  (ah + bh + (decide (x < al)).toUInt64, x)

/-- `sub_ddmmss (sh, sl, ah, al, bh, bl)`. -/
def subDdmmss (ah al bh bl : UInt64) : UInt64 × UInt64 :=
  let x := al - bl
  (ah - bh - (decide (al < bl)).toUInt64, x)

/-- The correction in `__udiv_qrnnd_c`: where the rest `r` is below the product `m`,
a divisor goes back into it and the digit `q` comes down, up to twice. -/
def udivCorrect (q r m d : UInt64) : UInt64 × UInt64 :=
  if r < m then
    -- no carry when adding to `r`
    if d ≤ r + d then
      if r + d < m then (q - 1 - 1, r + d + d) else (q - 1, r + d)
    else (q - 1, r + d)
  else (q, r)

/-- One half-limb digit of `__udiv_qrnnd_c`: `r` and the half limb `n` are divided
by `d`.  The macro spells this out twice. -/
def udivHalf (r n d : UInt64) : UInt64 × UInt64 :=
  let d1 := llHighpart d
  let d0 := llLowpart d
  let q := r / d1
  let r' := r - q * d1
  let m := q * d0
  let r' := r' * llB ||| n
  let x := udivCorrect q r' m d
  (x.1, x.2 - m)

/-- `__udiv_qrnnd_c (q, r, n1, n0, d)`. -/
def udivQrnndC (n1 n0 d : UInt64) : UInt64 × UInt64 :=
  let x1 := udivHalf n1 (llHighpart n0) d
  let x0 := udivHalf x1.2 (llLowpart n0) d
  (x1.1 * llB ||| x0.1, x0.2)

/-- `invert_limb (invxl, xl)`. -/
def invertLimb (xl : UInt64) : UInt64 := (udivQrnndC (~~~xl) (~~~0) xl).1

/-- `__clz_tab`: the number of bits of a byte, by the byte shifted right once. -/
def clzTab : List ℕ :=
  [1, 2, 3, 3, 4, 4, 4, 4, 5, 5, 5, 5, 5, 5, 5, 5, 6, 6, 6, 6, 6, 6, 6, 6, 6, 6, 6, 6, 6, 6, 6, 6,
   7, 7, 7, 7, 7, 7, 7, 7, 7, 7, 7, 7, 7, 7, 7, 7, 7, 7, 7, 7, 7, 7, 7, 7, 7, 7, 7, 7, 7, 7, 7, 7,
   8, 8, 8, 8, 8, 8, 8, 8, 8, 8, 8, 8, 8, 8, 8, 8, 8, 8, 8, 8, 8, 8, 8, 8, 8, 8, 8, 8, 8, 8, 8, 8,
   8, 8, 8, 8, 8, 8, 8, 8, 8, 8, 8, 8, 8, 8, 8, 8, 8, 8, 8, 8, 8, 8, 8, 8, 8, 8, 8, 8, 8, 8, 8, 8]

/-- The loop of `count_leading_zeros` from byte `k` down: the bit position of the first
byte that is not zero. -/
def clzByte (x : UInt64) : ℕ → ℕ
  | 0 => 0
  | k + 1 =>
      if (x >>> UInt64.ofNat (8 * (k + 1))) &&& 0xff ≠ 0 then 8 * (k + 1) else clzByte x k

/-- `count_leading_zeros (count, x)`. -/
def countLeadingZeros (x : UInt64) : ℕ :=
  let a := clzByte x 7 + 1
  64 + 1 - a - clzTab.getD (x >>> UInt64.ofNat a).toNat 0

/-- `LIMB_HIGHBIT_TO_MASK (n)`. -/
def limbHighbitToMask (n : UInt64) : UInt64 :=
  if n &&& 0x8000000000000000 ≠ 0 then 0xffffffffffffffff else 0

/-- The correction in `udiv_qrnnd_preinv1`: divisors come out of the two-limb rest
while its high limb is not zero, at most twice. -/
def preinv1Correct (q xh r d : UInt64) : UInt64 × UInt64 :=
  if xh ≠ 0 then
    if (subDdmmss xh r 0 d).1 ≠ 0 then (q + 1 + 1, (subDdmmss xh r 0 d).2 - d)
    else (q + 1, (subDdmmss xh r 0 d).2)
  else (q, r)

/-- `udiv_qrnnd_preinv1 (q, r, nh, nl, d, di)`. -/
def udivQrnndPreinv1 (nh nl d di : UInt64) : UInt64 × UInt64 :=
  -- Compensate, di is 2**GMP_LIMB_BITS too small
  let q := (umulPpmm nh di).1 + nh
  let x := umulPpmm q d
  let y := subDdmmss nh nl x.1 x.2
  let z := preinv1Correct q y.1 y.2 d
  if d ≤ z.2 then (z.1 + 1, z.2 - d) else z

/-- `udiv_qrnnd_preinv2 (q, r, nh, nl, d, di)`, the branch-free form that
`udiv_qrnnd_preinv` stands for. -/
def udivQrnndPreinv (nh nl d di : UInt64) : UInt64 × UInt64 :=
  let n2 := nh
  let n10 := nl
  let nmask := limbHighbitToMask n10
  let nadj := n10 + (nmask &&& d)
  let x := umulPpmm di (n2 - nmask)
  let q1 := ~~~(addSsaaaa x.1 x.2 n2 nadj).1
  let x := umulPpmm q1 d
  let x := addSsaaaa x.1 x.2 nh nl
  let xh := x.1 - d
  (xh - q1, x.2 + (d &&& xh))

/-! ### Half limbs -/

theorem toNat_llB : llB.toNat = 2 ^ 32 := by decide

theorem toNat_llLowpart (t : UInt64) : (llLowpart t).toNat = t.toNat % 2 ^ 32 := by
  rw [llLowpart, UInt64.toNat_and]
  exact Nat.and_two_pow_sub_one_eq_mod t.toNat 32

theorem toNat_llHighpart (t : UInt64) : (llHighpart t).toNat = t.toNat / 2 ^ 32 := by
  rw [llHighpart, UInt64.toNat_shiftRight]
  exact Nat.shiftRight_eq_div_pow t.toNat 32

theorem llLowpart_lt (t : UInt64) : (llLowpart t).toNat < 2 ^ 32 := by
  rw [toNat_llLowpart]
  exact Nat.mod_lt _ (by norm_num)

theorem llHighpart_lt (t : UInt64) : (llHighpart t).toNat < 2 ^ 32 := by
  have := t.toNat_lt
  rw [toNat_llHighpart]
  omega

/-- A limb is its two halves. -/
theorem toNat_eq_halves (t : UInt64) :
    t.toNat = 2 ^ 32 * (llHighpart t).toNat + (llLowpart t).toNat := by
  rw [toNat_llHighpart, toNat_llLowpart]
  omega

/-- `a * __ll_B | b` puts one half above the other. -/
theorem toNat_halves {a b : UInt64} (ha : a.toNat < 2 ^ 32) (hb : b.toNat < 2 ^ 32) :
    (a * llB ||| b).toNat = 2 ^ 32 * a.toNat + b.toNat := by
  rw [UInt64.toNat_or, UInt64.toNat_mul, toNat_llB, Nat.mod_eq_of_lt (by omega),
    Nat.mul_comm, ← Nat.two_pow_add_eq_or_of_lt hb]

/-- A product of two half limbs fits a limb with room for two half limbs. -/
theorem toNat_mul_halves {a b : UInt64} (ha : a.toNat < 2 ^ 32) (hb : b.toNat < 2 ^ 32) :
    (a * b).toNat = a.toNat * b.toNat ∧ a.toNat * b.toNat ≤ (2 ^ 32 - 1) * (2 ^ 32 - 1) := by
  have hle : a.toNat * b.toNat ≤ (2 ^ 32 - 1) * (2 ^ 32 - 1) :=
    Nat.mul_le_mul (by omega) (by omega)
  exact ⟨toNat_mul_of_lt (by omega), hle⟩

theorem toNat_shiftLeft_half (t : UInt64) : (t <<< 32).toNat = 2 ^ 32 * (t.toNat % 2 ^ 32) := by
  have h := t.toNat_lt
  rw [UInt64.toNat_shiftLeft]
  show t.toNat <<< 32 % 2 ^ 64 = _
  rw [Nat.shiftLeft_eq]
  omega

theorem umulPpmm_eq (u v : UInt64) :
    2 ^ 64 * (umulPpmm u v).1.toNat + (umulPpmm u v).2.toNat = u.toNat * v.toNat := by
  obtain ⟨h0, hb0⟩ := toNat_mul_halves (llLowpart_lt u) (llLowpart_lt v)
  obtain ⟨h1, hb1⟩ := toNat_mul_halves (llLowpart_lt u) (llHighpart_lt v)
  obtain ⟨h2, hb2⟩ := toNat_mul_halves (llHighpart_lt u) (llLowpart_lt v)
  obtain ⟨h3, hb3⟩ := toNat_mul_halves (llHighpart_lt u) (llHighpart_lt v)
  have huv : u.toNat * v.toNat
      = 2 ^ 64 * ((llHighpart u).toNat * (llHighpart v).toNat)
        + 2 ^ 32 * ((llLowpart u).toNat * (llHighpart v).toNat
          + (llHighpart u).toNat * (llLowpart v).toNat)
        + (llLowpart u).toNat * (llLowpart v).toNat := by
    rw [toNat_eq_halves u, toNat_eq_halves v]
    ring
  rw [huv, ← h0, ← h1, ← h2, ← h3]
  rw [← h0] at hb0
  rw [← h1] at hb1
  rw [← h2] at hb2
  rw [← h3] at hb3
  simp only [umulPpmm]
  generalize llLowpart u * llLowpart v = x0 at *
  generalize llLowpart u * llHighpart v = x1 at *
  generalize llHighpart u * llLowpart v = x2 at *
  generalize llHighpart u * llHighpart v = x3 at *
  have hx1 : (x1 + llHighpart x0).toNat = x1.toNat + x0.toNat / 2 ^ 32 := by
    rw [toNat_add_of_lt, toNat_llHighpart]
    rw [toNat_llHighpart]
    omega
  have hx1' : (x1 + llHighpart x0 + x2).toNat = (x1.toNat + x0.toNat / 2 ^ 32 + x2.toNat) % 2 ^ 64 := by
    rw [UInt64.toNat_add, hx1]
  have hlow : ((x1 + llHighpart x0 + x2) <<< 32 + llLowpart x0).toNat
      = 2 ^ 32 * ((x1.toNat + x0.toNat / 2 ^ 32 + x2.toNat) % 2 ^ 32) + x0.toNat % 2 ^ 32 := by
    rw [toNat_add_of_lt] <;> rw [toNat_shiftLeft_half, toNat_llLowpart, hx1'] <;> omega
  rw [hlow]
  by_cases hc : x1 + llHighpart x0 + x2 < x2
  · rw [if_pos hc]
    rw [UInt64.lt_iff_toNat_lt, hx1'] at hc
    rw [UInt64.toNat_add, UInt64.toNat_add, toNat_llHighpart, hx1', toNat_llB]
    omega
  · rw [if_neg hc]
    rw [UInt64.lt_iff_toNat_lt, hx1'] at hc
    rw [UInt64.toNat_add, toNat_llHighpart, hx1']
    omega

theorem addSsaaaa_eq (ah al bh bl : UInt64) :
    2 ^ 64 * (addSsaaaa ah al bh bl).1.toNat + (addSsaaaa ah al bh bl).2.toNat
      = (2 ^ 64 * ah.toNat + al.toNat + (2 ^ 64 * bh.toNat + bl.toNat)) % 2 ^ 128 := by
  have hl := toNat_add_carry al bl
  have hlt := (al + bl).toNat_lt
  simp only [addSsaaaa, UInt64.toNat_add, toNat_toUInt64] at hl hlt ⊢
  omega

theorem subDdmmss_eq (ah al bh bl : UInt64) :
    2 ^ 64 * (subDdmmss ah al bh bl).1.toNat + (subDdmmss ah al bh bl).2.toNat
      = (2 ^ 64 * ah.toNat + al.toNat + 2 ^ 128 - (2 ^ 64 * bh.toNat + bl.toNat)) % 2 ^ 128 := by
  have hl := toNat_sub_borrow al bl
  have hlt := (al - bl).toNat_lt
  have := ah.toNat_lt
  have := bh.toNat_lt
  have := bl.toNat_lt
  have := al.toNat_lt
  have := Bool.toNat_le (decide (al < bl))
  simp only [subDdmmss, UInt64.toNat_sub, toNat_toUInt64] at hl hlt ⊢
  omega

theorem subDdmmss_of_le (ah al bh bl : UInt64)
    (h : 2 ^ 64 * bh.toNat + bl.toNat ≤ 2 ^ 64 * ah.toNat + al.toNat) :
    2 ^ 64 * (subDdmmss ah al bh bl).1.toNat + (subDdmmss ah al bh bl).2.toNat
      + (2 ^ 64 * bh.toNat + bl.toNat) = 2 ^ 64 * ah.toNat + al.toNat := by
  have hs := subDdmmss_eq ah al bh bl
  have ha : 2 ^ 64 * ah.toNat + al.toNat < 2 ^ 128 := by
    have := ah.toNat_lt
    have := al.toNat_lt
    omega
  generalize 2 ^ 64 * ah.toNat + al.toNat = a at hs h ha ⊢
  generalize 2 ^ 64 * bh.toNat + bl.toNat = b at hs h ⊢
  omega

/-! ### Shifts -/

theorem toNat_shiftLeft_ofNat {s : ℕ} (hs : s < 64) (a : UInt64) :
    (a <<< UInt64.ofNat s).toNat = 2 ^ s * (a.toNat % 2 ^ (64 - s)) := by
  have hs' : (UInt64.ofNat s).toNat % 64 = s := by
    rw [UInt64.toNat_ofNat']
    omega
  have hpow : 2 ^ 64 = 2 ^ s * 2 ^ (64 - s) := by
    rw [← pow_add, Nat.add_sub_cancel' hs.le]
  rw [UInt64.toNat_shiftLeft, hs', Nat.shiftLeft_eq, Nat.mul_comm, hpow, Nat.mul_mod_mul_left]

theorem toNat_shiftRight_ofNat {s : ℕ} (hs : s < 64) (a : UInt64) :
    (a >>> UInt64.ofNat s).toNat = a.toNat / 2 ^ s := by
  have hs' : (UInt64.ofNat s).toNat % 64 = s := by
    rw [UInt64.toNat_ofNat']
    omega
  rw [UInt64.toNat_shiftRight, hs', Nat.shiftRight_eq_div_pow]

/-- The byte that `count_leading_zeros` stops at. -/
theorem clzByte_spec {x : UInt64} (hx : x ≠ 0) {k : ℕ} (hk : k ≤ 7)
    (hlt : x.toNat < 2 ^ (8 * (k + 1))) :
    clzByte x k ≤ 8 * k ∧ 1 ≤ x.toNat / 2 ^ clzByte x k ∧ x.toNat / 2 ^ clzByte x k < 256 := by
  induction k with
  | zero =>
      have hpos := toNat_ne_zero hx
      rw [clzByte, pow_zero, Nat.div_one]
      exact ⟨le_rfl, hpos, hlt⟩
  | succ k ih =>
      have hshift : (x >>> UInt64.ofNat (8 * (k + 1)) &&& 0xff).toNat
          = x.toNat / 2 ^ (8 * (k + 1)) % 2 ^ 8 := by
        rw [UInt64.toNat_and, toNat_shiftRight_ofNat (by omega)]
        exact Nat.and_two_pow_sub_one_eq_mod _ 8
      have hbyte : x.toNat / 2 ^ (8 * (k + 1)) < 2 ^ 8 := by
        rw [Nat.div_lt_iff_lt_mul (Nat.two_pow_pos _), ← pow_add]
        convert hlt using 2
        ring
      rw [Nat.mod_eq_of_lt hbyte] at hshift
      rw [clzByte]
      by_cases h : (x >>> UInt64.ofNat (8 * (k + 1))) &&& 0xff ≠ 0
      · have hpos := toNat_ne_zero h
        rw [if_pos h]
        exact ⟨le_rfl, by omega, hbyte⟩
      · have hzero : x.toNat / 2 ^ (8 * (k + 1)) = 0 := by
          rw [← hshift, not_not.mp h]
          rfl
        have hlow : x.toNat < 2 ^ (8 * (k + 1)) := by
          by_contra hge
          have := Nat.div_pos (Nat.not_lt.mp hge) (Nat.two_pow_pos (8 * (k + 1)))
          omega
        obtain ⟨h₁, h₂⟩ := ih (by omega) hlow
        rw [if_neg h]
        exact ⟨by omega, h₂⟩

/-- `__clz_tab` counts the bits of a byte. -/
theorem clzTab_spec : ∀ v < 256, 1 ≤ v →
    1 ≤ clzTab.getD (v / 2) 0 ∧ clzTab.getD (v / 2) 0 ≤ 8 ∧
      2 ^ (clzTab.getD (v / 2) 0 - 1) ≤ v ∧ v < 2 ^ clzTab.getD (v / 2) 0 := by
  decide +kernel

/-- **Shifted by its leading zeros a limb has its top bit set** and loses none. -/
theorem countLeadingZeros_spec {x : UInt64} (hx : x ≠ 0) :
    2 ^ 63 ≤ 2 ^ countLeadingZeros x * x.toNat ∧ 2 ^ countLeadingZeros x * x.toNat < 2 ^ 64 := by
  obtain ⟨ha, hv1, hv2⟩ := clzByte_spec hx le_rfl x.toNat_lt
  rw [countLeadingZeros]
  generalize clzByte x 7 = a at ha hv1 hv2 ⊢
  obtain ⟨hc1, hc8, hlow, hhigh⟩ := clzTab_spec _ hv2 hv1
  have hindex : (x >>> UInt64.ofNat (a + 1)).toNat = x.toNat / 2 ^ a / 2 := by
    rw [toNat_shiftRight_ofNat (by omega), pow_succ, Nat.div_div_eq_div_mul]
  rw [hindex]
  generalize clzTab.getD (x.toNat / 2 ^ a / 2) 0 = c at hc1 hc8 hlow hhigh ⊢
  rw [Nat.le_div_iff_mul_le (Nat.two_pow_pos a), ← pow_add] at hlow
  rw [Nat.div_lt_iff_lt_mul (Nat.two_pow_pos a), ← pow_add] at hhigh
  constructor
  · calc 2 ^ 63 = 2 ^ (64 + 1 - (a + 1) - c) * 2 ^ (c - 1 + a) := by
          rw [← pow_add]
          congr 1
          omega
      _ ≤ 2 ^ (64 + 1 - (a + 1) - c) * x.toNat := Nat.mul_le_mul_left _ hlow
  · calc 2 ^ (64 + 1 - (a + 1) - c) * x.toNat
        < 2 ^ (64 + 1 - (a + 1) - c) * 2 ^ (c + a) :=
          Nat.mul_lt_mul_of_pos_left hhigh (Nat.two_pow_pos _)
      _ = 2 ^ 64 := by
          rw [← pow_add]
          congr 1
          omega

/-! ### The plain division -/

/-- The guess of `udivHalf` and what it leaves: `q` is the quotient by the high half
of the divisor, `m` what the low half adds and `p` the rest so far. -/
theorem udivHalf_guess {r n d : UInt64} (hd : 2 ^ 63 ≤ d.toNat) (hr : r.toNat < d.toNat)
    (hn : n.toNat < 2 ^ 32) :
    ∃ q m p : UInt64, q = r / llHighpart d ∧ m = q * llLowpart d ∧
      p = (r - q * llHighpart d) * llB ||| n ∧
      q.toNat * d.toNat + p.toNat = 2 ^ 32 * r.toNat + n.toNat + m.toNat ∧
      p.toNat < d.toNat ∧ m.toNat = q.toNat * (llLowpart d).toNat := by
  have hrlt := r.toNat_lt
  obtain ⟨d1, hd1⟩ : ∃ d1, (llHighpart d).toNat = d1 := ⟨_, rfl⟩
  obtain ⟨d0, hd0⟩ : ∃ d0, (llLowpart d).toNat = d0 := ⟨_, rfl⟩
  have hd1lt : d1 < 2 ^ 32 := hd1 ▸ llHighpart_lt d
  have hd0lt : d0 < 2 ^ 32 := hd0 ▸ llLowpart_lt d
  have hdd : d.toNat = 2 ^ 32 * d1 + d0 := hd1 ▸ hd0 ▸ toNat_eq_halves d
  have hd1pos : 2 ^ 31 ≤ d1 := by omega
  obtain ⟨q, hq⟩ : ∃ q, q = r / llHighpart d := ⟨_, rfl⟩
  have hQ : q.toNat = r.toNat / d1 := by rw [hq, UInt64.toNat_div, hd1]
  have hdm := Nat.div_add_mod r.toNat d1
  have hmod := Nat.mod_lt r.toNat (show 0 < d1 by omega)
  rw [← hQ, Nat.mul_comm] at hdm
  have hQle : q.toNat ≤ 2 ^ 32 + 1 := by
    have hlt : q.toNat < 2 ^ 32 + 2 := by
      rw [hQ, Nat.div_lt_iff_lt_mul (by omega)]
      omega
    omega
  have hmlt : q.toNat * d0 < 2 ^ 64 := by
    calc q.toNat * d0 ≤ (2 ^ 32 + 1) * (2 ^ 32 - 1) := Nat.mul_le_mul hQle (by omega)
      _ < 2 ^ 64 := by norm_num
  have hm : (q * llLowpart d).toNat = q.toNat * d0 := by
    rw [toNat_mul_of_lt (by rw [hd0]; exact hmlt), hd0]
  have hqd1 : (q * llHighpart d).toNat = q.toNat * d1 := by
    rw [toNat_mul_of_lt (by rw [hd1]; omega), hd1]
  have hrest : (r - q * llHighpart d).toNat = r.toNat % d1 := by
    rw [UInt64.toNat_sub, hqd1]
    omega
  have hp := toNat_halves (a := r - q * llHighpart d) (by omega) hn
  rw [hrest] at hp
  refine ⟨q, _, _, hq, rfl, rfl, ?_, ?_, ?_⟩
  · have h₁ : q.toNat * (2 ^ 32 * d1 + d0) = 2 ^ 32 * (q.toNat * d1) + q.toNat * d0 := by ring
    rw [hp, hm, hdd, h₁]
    omega
  · rw [hp]
    omega
  · rw [hm, hd0]

theorem udivHalf_eq {r n d : UInt64} (hd : 2 ^ 63 ≤ d.toNat) (hr : r.toNat < d.toNat)
    (hn : n.toNat < 2 ^ 32) :
    (udivHalf r n d).1.toNat * d.toNat + (udivHalf r n d).2.toNat = 2 ^ 32 * r.toNat + n.toNat ∧
      (udivHalf r n d).2.toNat < d.toNat := by
  obtain ⟨q, m, p, hq, hm, hp, hsum, hpd, hmq⟩ := udivHalf_guess hd hr hn
  have hd0 := llLowpart_lt d
  have hmlt := m.toNat_lt
  have hdlt := d.toNat_lt
  -- Each correction takes one divisor back out of the guess.
  have hback : ∀ k : ℕ, k ≤ q.toNat → (q.toNat - k) * d.toNat + k * d.toNat = q.toNat * d.toNat := by
    intro k hk
    rw [← Nat.add_mul, Nat.sub_add_cancel hk]
  have hq1 : p.toNat < m.toNat → 1 ≤ q.toNat := by
    intro hlt
    by_contra h0
    rw [show q.toNat = 0 by omega, Nat.zero_mul] at hmq
    omega
  have hq2 : p.toNat + d.toNat < m.toNat → 2 ≤ q.toNat := by
    intro hlt
    by_contra h2
    have := hq1 (by omega)
    rw [show q.toNat = 1 by omega, Nat.one_mul] at hmq
    omega
  have hhalf : udivHalf r n d = ((udivCorrect q p m d).1, (udivCorrect q p m d).2 - m) := by
    rw [hp, hm, hq]
    rfl
  rw [hhalf, udivCorrect]
  by_cases h₁ : p < m
  · rw [if_pos h₁]
    rw [UInt64.lt_iff_toNat_lt] at h₁
    have hb1 := hback 1 (hq1 h₁)
    have hs1 : (q - 1).toNat = q.toNat - 1 := by
      have := hq1 h₁
      have := q.toNat_lt
      rw [UInt64.toNat_sub, UInt64.toNat_one]
      omega
    by_cases h₂ : d ≤ p + d
    · rw [if_pos h₂]
      rw [UInt64.le_iff_toNat_le, UInt64.toNat_add] at h₂
      have hp1 : (p + d).toNat = p.toNat + d.toNat := by
        rw [UInt64.toNat_add]
        omega
      by_cases h₃ : p + d < m
      · rw [if_pos h₃]
        rw [UInt64.lt_iff_toNat_lt, hp1] at h₃
        have hb2 := hback 2 (hq2 h₃)
        have hs2 : (q - 1 - 1).toNat = q.toNat - 2 := by
          have := hq2 h₃
          have := q.toNat_lt
          rw [UInt64.toNat_sub, hs1, UInt64.toNat_one]
          omega
        have hr2 : (p + d + d - m).toNat = p.toNat + 2 * d.toNat - m.toNat := by
          rw [UInt64.toNat_sub, UInt64.toNat_add, hp1]
          omega
        dsimp only
        rw [hs2, hr2]
        omega
      · rw [if_neg h₃]
        rw [UInt64.lt_iff_toNat_lt, hp1] at h₃
        have hr1 : (p + d - m).toNat = p.toNat + d.toNat - m.toNat := by
          rw [UInt64.toNat_sub, hp1]
          omega
        dsimp only
        rw [hs1, hr1]
        omega
    · rw [if_neg h₂]
      rw [UInt64.le_iff_toNat_le, UInt64.toNat_add] at h₂
      have hr1 : (p + d - m).toNat = p.toNat + d.toNat - m.toNat := by
        rw [UInt64.toNat_sub, UInt64.toNat_add]
        omega
      dsimp only
      rw [hs1, hr1]
      omega
  · rw [if_neg h₁]
    rw [UInt64.lt_iff_toNat_lt] at h₁
    have hr0 : (p - m).toNat = p.toNat - m.toNat := by
      rw [UInt64.toNat_sub]
      omega
    dsimp only
    rw [hr0]
    omega

theorem udivHalf_lt {r n d : UInt64} (hd : 2 ^ 63 ≤ d.toNat) (hr : r.toNat < d.toNat)
    (hn : n.toNat < 2 ^ 32) : (udivHalf r n d).1.toNat < 2 ^ 32 := by
  obtain ⟨h, -⟩ := udivHalf_eq hd hr hn
  have hlt : (udivHalf r n d).1.toNat * d.toNat < 2 ^ 32 * d.toNat := by omega
  exact Nat.lt_of_mul_lt_mul_right hlt

theorem udivQrnndC_eq {n1 d : UInt64} (n0 : UInt64) (hd : 2 ^ 63 ≤ d.toNat) (hn : n1.toNat < d.toNat) :
    (udivQrnndC n1 n0 d).1.toNat * d.toNat + (udivQrnndC n1 n0 d).2.toNat
        = 2 ^ 64 * n1.toNat + n0.toNat ∧
      (udivQrnndC n1 n0 d).2.toNat < d.toNat := by
  obtain ⟨h1, hr1⟩ := udivHalf_eq hd hn (llHighpart_lt n0)
  obtain ⟨h0, hr0⟩ := udivHalf_eq hd hr1 (llLowpart_lt n0)
  have hq1 := udivHalf_lt hd hn (llHighpart_lt n0)
  have hq0 := udivHalf_lt hd hr1 (llLowpart_lt n0)
  have hn0 := toNat_eq_halves n0
  refine ⟨?_, hr0⟩
  simp only [udivQrnndC]
  rw [toNat_halves hq1 hq0]
  calc _ = 2 ^ 32 * ((udivHalf n1 (llHighpart n0) d).1.toNat * d.toNat)
        + ((udivHalf (udivHalf n1 (llHighpart n0) d).2 (llLowpart n0) d).1.toNat * d.toNat
        + (udivHalf (udivHalf n1 (llHighpart n0) d).2 (llLowpart n0) d).2.toNat) := by ring
    _ = 2 ^ 64 * n1.toNat + n0.toNat := by omega

theorem invertLimb_isReciprocal {d : UInt64} (hd : 2 ^ 63 ≤ d.toNat) :
    IsReciprocal (2 ^ 64) d.toNat (invertLimb d).toNat := by
  have hdlt := d.toNat_lt
  have hnot : (~~~d).toNat = 2 ^ 64 - 1 - d.toNat := UInt64.toNat_not d
  have hones : (~~~(0 : UInt64)).toNat = 2 ^ 64 - 1 := by decide
  obtain ⟨h, hr⟩ := udivQrnndC_eq (~~~0) hd (show (~~~d).toNat < d.toNat by omega)
  rw [hnot, hones] at h
  have h₁ : (2 ^ 64 + (invertLimb d).toNat) * d.toNat
      = 2 ^ 64 * d.toNat + (udivQrnndC (~~~d) (~~~0) d).1.toNat * d.toNat := by
    rw [invertLimb]; ring
  have h₂ : (2 ^ 64 + (invertLimb d).toNat + 1) * d.toNat
      = 2 ^ 64 * d.toNat + (udivQrnndC (~~~d) (~~~0) d).1.toNat * d.toNat + d.toNat := by
    rw [invertLimb]; ring
  constructor
  · rw [h₁]
    omega
  · rw [h₂]
    omega

/-! ### Division by the inverse -/

theorem limbHighbitToMask_of_lt {n : UInt64} (h : n.toNat < 2 ^ 63) : limbHighbitToMask n = 0 := by
  have hand : n &&& 0x8000000000000000 = 0 := by
    refine UInt64.toNat.inj ?_
    rw [UInt64.toNat_and, UInt64.toNat_zero, show (0x8000000000000000 : UInt64).toNat = 2 ^ 63 by decide,
      Nat.and_comm, Nat.two_pow_and, Nat.testBit_lt_two_pow h]
    rfl
  rw [limbHighbitToMask, hand, if_neg (by simp)]

theorem limbHighbitToMask_of_le {n : UInt64} (h : 2 ^ 63 ≤ n.toNat) :
    limbHighbitToMask n = 0xffffffffffffffff := by
  have hbit : n.toNat.testBit 63 = true := by
    have := n.toNat_lt
    rw [Nat.testBit_eq_decide_div_mod_eq, decide_eq_true_eq]
    omega
  have hand : (n &&& 0x8000000000000000).toNat = 2 ^ 63 := by
    rw [UInt64.toNat_and, show (0x8000000000000000 : UInt64).toNat = 2 ^ 63 by decide,
      Nat.and_comm, Nat.two_pow_and, hbit]
    rfl
  refine if_pos fun h0 => ?_
  rw [h0] at hand
  exact absurd hand (by decide)

/-- The estimate of `udiv_qrnnd_preinv2` before its last step: at most one too small. -/
theorem preinv_estimate {nh d di : UInt64} (nl : UInt64) (hd : 2 ^ 63 ≤ d.toNat)
    (hn : nh.toNat < d.toNat)
    (hdi : IsReciprocal (2 ^ 64) d.toNat di.toNat) :
    let m := limbHighbitToMask nl
    let x := umulPpmm di (nh - m)
    let e := (addSsaaaa x.1 x.2 nh (nl + (m &&& d))).1
    e.toNat * d.toNat ≤ 2 ^ 64 * nh.toNat + nl.toNat ∧
      2 ^ 64 * nh.toNat + nl.toNat < (e.toNat + 2) * d.toNat := by
  have hdlt := d.toNat_lt
  have hnl := nl.toNat_lt
  -- The rounding bit and the adjusted low limb.
  obtain ⟨b, hb, hbit⟩ : ∃ b, (nh - limbHighbitToMask nl).toNat = nh.toNat + b ∧
      (b = 0 ∧ 2 * nl.toNat < 2 ^ 64 ∧ (nl + (limbHighbitToMask nl &&& d)).toNat = nl.toNat ∨
        b = 1 ∧ 2 ^ 64 ≤ 2 * nl.toNat ∧
          (nl + (limbHighbitToMask nl &&& d)).toNat + 2 ^ 64 = nl.toNat + d.toNat) := by
    by_cases htop : nl.toNat < 2 ^ 63
    · refine ⟨0, ?_, Or.inl ⟨rfl, by omega, ?_⟩⟩
      · rw [limbHighbitToMask_of_lt htop, UInt64.sub_zero, Nat.add_zero]
      · rw [limbHighbitToMask_of_lt htop, UInt64.zero_and, UInt64.add_zero]
    · have hones : (0xffffffffffffffff : UInt64) = -1 := by decide
      refine ⟨1, ?_, Or.inr ⟨rfl, by omega, ?_⟩⟩
      · rw [limbHighbitToMask_of_le (by omega), UInt64.toNat_sub,
          show (0xffffffffffffffff : UInt64).toNat = 2 ^ 64 - 1 by decide]
        omega
      · rw [limbHighbitToMask_of_le (by omega), hones, UInt64.neg_one_and, UInt64.toNat_add]
        omega
  obtain ⟨hlt, hlow, hhigh⟩ := hdi.adjusted_estimate hdlt (by omega) hn hnl hbit
  intro m x e
  have hx := umulPpmm_eq di (nh - m)
  have hs := addSsaaaa_eq x.1 x.2 nh (nl + (m &&& d))
  have hel := (addSsaaaa x.1 x.2 nh (nl + (m &&& d))).2.toNat_lt
  rw [hx, hb, Nat.mod_eq_of_lt (hlt.trans_eq (by norm_num))] at hs
  have he : e.toNat = (di.toNat * (nh.toNat + b) + (2 ^ 64 * nh.toNat + (nl + (m &&& d)).toNat))
      / 2 ^ 64 := by
    rw [← hs]
    show e.toNat = (2 ^ 64 * e.toNat + _) / 2 ^ 64
    omega
  rw [he]
  exact ⟨hlow, hhigh⟩

theorem udivQrnndPreinv_eq {nh d di : UInt64} (nl : UInt64) (hd : 2 ^ 63 ≤ d.toNat)
    (hn : nh.toNat < d.toNat)
    (hdi : IsReciprocal (2 ^ 64) d.toNat di.toNat) :
    (udivQrnndPreinv nh nl d di).1.toNat * d.toNat + (udivQrnndPreinv nh nl d di).2.toNat
        = 2 ^ 64 * nh.toNat + nl.toNat ∧
      (udivQrnndPreinv nh nl d di).2.toNat < d.toNat := by
  obtain ⟨hlow, hhigh⟩ := preinv_estimate nl hd hn hdi
  rw [udivQrnndPreinv]
  dsimp only at hlow hhigh ⊢
  generalize (addSsaaaa (umulPpmm di (nh - limbHighbitToMask nl)).1
    (umulPpmm di (nh - limbHighbitToMask nl)).2 nh (nl + (limbHighbitToMask nl &&& d))).1 = e
    at hlow hhigh ⊢
  have hdlt := d.toNat_lt
  have hnl := nl.toNat_lt
  have helt := e.toNat_lt
  have hq1 : (~~~e).toNat = 2 ^ 64 - 1 - e.toNat := UInt64.toNat_not e
  have hx := umulPpmm_eq (~~~e) d
  have ht := addSsaaaa_eq (umulPpmm (~~~e) d).1 (umulPpmm (~~~e) d).2 nh nl
  rw [hx, hq1] at ht
  generalize addSsaaaa (umulPpmm (~~~e) d).1 (umulPpmm (~~~e) d).2 nh nl = t at ht ⊢
  have ht2 := t.2.toNat_lt
  have ht1 := t.1.toNat_lt
  -- The product with the complement is the base times `d` less the product with `e + 1`.
  have hcompl : (2 ^ 64 - 1 - e.toNat) * d.toNat + (e.toNat + 1) * d.toNat = 2 ^ 64 * d.toNat := by
    rw [← Nat.add_mul, show 2 ^ 64 - 1 - e.toNat + (e.toNat + 1) = 2 ^ 64 by omega]
  have he1 : (e.toNat + 1) * d.toNat = e.toNat * d.toNat + d.toNat := by ring
  have he2 : (e.toNat + 2) * d.toNat = e.toNat * d.toNat + 2 * d.toNat := by ring
  rw [Nat.mod_eq_of_lt (by omega)] at ht
  by_cases hcase : (e.toNat + 1) * d.toNat ≤ 2 ^ 64 * nh.toNat + nl.toNat
  · -- One more than the estimate; the high limb of the sum is `d`.
    have hesmall : e.toNat + 1 < 2 ^ 64 := by
      have : (e.toNat + 1) * d.toNat < 2 ^ 64 * d.toNat := by omega
      exact Nat.lt_of_mul_lt_mul_right this
    have hhi : t.1 - d = 0 := by
      have : t.1 = d := UInt64.toNat.inj (by omega)
      rw [this, UInt64.sub_self]
    have hq : (0 - ~~~e).toNat = e.toNat + 1 := by
      rw [UInt64.toNat_sub, hq1, UInt64.toNat_zero]
      omega
    rw [hhi, hq, UInt64.and_zero, UInt64.add_zero]
    omega
  · -- The estimate itself; the high limb is one below `d`.
    obtain ⟨k, hk⟩ := Nat.exists_eq_add_of_le (Nat.not_le.mp hcase).le
    have hk0 : 0 < k := by omega
    have htk : 2 ^ 64 * t.1.toNat + t.2.toNat + k = 2 ^ 64 * d.toNat := by
      rw [ht, Nat.add_assoc, ← hk, hcompl]
    have ht1d : t.1.toNat + 1 = d.toNat := by omega
    have hhi : t.1 - d = -1 := by
      refine UInt64.toNat.inj ?_
      rw [UInt64.toNat_sub, toNat_neg_one]
      omega
    have hq : (-1 - ~~~e).toNat = e.toNat := by
      rw [UInt64.toNat_sub, hq1, toNat_neg_one]
      omega
    have hr : (t.2 + d).toNat = 2 ^ 64 * nh.toNat + nl.toNat - e.toNat * d.toNat := by
      rw [UInt64.toNat_add]
      omega
    rw [hhi, hq, UInt64.and_neg_one, hr]
    omega

/-- The correction takes `k` divisors out of the two-limb rest and counts them. -/
theorem preinv1Correct_eq {q xh r d : UInt64}
    (h : 2 ^ 64 * xh.toNat + r.toNat < 2 ^ 64 + 2 * d.toNat) :
    ∃ k, (preinv1Correct q xh r d).1.toNat = (q.toNat + k) % 2 ^ 64 ∧
      (preinv1Correct q xh r d).2.toNat + k * d.toNat = 2 ^ 64 * xh.toNat + r.toNat := by
  have hd := d.toNat_lt
  have hr := r.toNat_lt
  have hq := q.toNat_lt
  rw [preinv1Correct]
  by_cases hxh : xh ≠ 0
  · have hpos := toNat_ne_zero hxh
    have hs2 := (subDdmmss xh r 0 d).2.toNat_lt
    have hs := subDdmmss_of_le xh r 0 d (by
      rw [UInt64.toNat_zero]
      omega)
    rw [UInt64.toNat_zero, Nat.mul_zero, Nat.zero_add] at hs
    rw [if_pos hxh]
    by_cases hxh' : (subDdmmss xh r 0 d).1 ≠ 0
    · have hpos' := toNat_ne_zero hxh'
      rw [if_pos hxh']
      refine ⟨2, ?_, ?_⟩
      · rw [UInt64.toNat_add, UInt64.toNat_add, UInt64.toNat_one]
        omega
      · rw [UInt64.toNat_sub]
        omega
    · have hzero : (subDdmmss xh r 0 d).1.toNat = 0 := by
        rw [not_not.mp hxh']
        rfl
      rw [if_neg hxh']
      refine ⟨1, ?_, ?_⟩
      · rw [UInt64.toNat_add, UInt64.toNat_one]
      · dsimp only
        omega
  · have hzero : xh.toNat = 0 := by
      rw [not_not.mp hxh]
      rfl
    rw [if_neg hxh]
    refine ⟨0, ?_, ?_⟩
    · dsimp only
      omega
    · dsimp only
      omega

theorem udivQrnndPreinv1_eq {nh nl d di : UInt64} (hd : 2 ^ 63 ≤ d.toNat)
    (hn : nh.toNat < d.toNat) (hdi : IsReciprocal (2 ^ 64) d.toNat di.toNat) :
    (udivQrnndPreinv1 nh nl d di).1.toNat * d.toNat + (udivQrnndPreinv1 nh nl d di).2.toNat
        = 2 ^ 64 * nh.toNat + nl.toNat ∧
      (udivQrnndPreinv1 nh nl d di).2.toNat < d.toNat := by
  have hdlt := d.toNat_lt
  have hnl := nl.toNat_lt
  obtain ⟨hqlt, hle, hgap⟩ := hdi.plain_estimate hdlt hn hnl
  -- The estimate as the macro computes it.
  obtain ⟨q, hq⟩ : ∃ q, q = (umulPpmm nh di).1 + nh := ⟨_, rfl⟩
  have hQ : q.toNat = nh.toNat * di.toNat / 2 ^ 64 + nh.toNat := by
    have hx := umulPpmm_eq nh di
    have hlow := (umulPpmm nh di).2.toNat_lt
    have hhigh : (umulPpmm nh di).1.toNat = nh.toNat * di.toNat / 2 ^ 64 := by omega
    rw [hq, toNat_add_of_lt] <;> rw [hhigh]
    exact hqlt
  rw [← hQ] at hqlt hle hgap
  -- What it leaves of the dividend.
  obtain ⟨y, hy⟩ : ∃ y, y = subDdmmss nh nl (umulPpmm q d).1 (umulPpmm q d).2 := ⟨_, rfl⟩
  have hrest : 2 ^ 64 * y.1.toNat + y.2.toNat + q.toNat * d.toNat
      = 2 ^ 64 * nh.toNat + nl.toNat := by
    rw [← umulPpmm_eq q d, hy]
    exact subDdmmss_of_le _ _ _ _ (by rwa [umulPpmm_eq])
  have hsmall : 2 ^ 64 * y.1.toNat + y.2.toNat < 2 ^ 64 + 2 * d.toNat := by
    rw [← hrest, Nat.add_comm] at hgap
    exact Nat.add_lt_add_iff_left.mp hgap
  obtain ⟨k, hz1, hz2⟩ := preinv1Correct_eq (q := q) hsmall
  rw [udivQrnndPreinv1, ← hq, ← hy]
  generalize preinv1Correct q y.1 y.2 d = z at hz1 hz2 ⊢
  have hqk : (q.toNat + k) * d.toNat + z.2.toNat = 2 ^ 64 * nh.toNat + nl.toNat := by
    rw [Nat.add_mul]
    omega
  have hzlt := z.2.toNat_lt
  have hqk1 : (q.toNat + k + 1) * d.toNat = (q.toNat + k) * d.toNat + d.toNat := by ring
  have hdiv : 2 ^ 64 * nh.toNat + nl.toNat < 2 ^ 64 * d.toNat := by omega
  by_cases hlast : d ≤ z.2
  · rw [if_pos hlast]
    rw [UInt64.le_iff_toNat_le] at hlast
    have hsmall : q.toNat + k + 1 < 2 ^ 64 := by
      have : (q.toNat + k + 1) * d.toNat < 2 ^ 64 * d.toNat := by omega
      exact Nat.lt_of_mul_lt_mul_right this
    have h₁ : (z.1 + 1).toNat = q.toNat + k + 1 := by
      rw [UInt64.toNat_add, hz1, UInt64.toNat_one]
      omega
    have h₂ : (z.2 - d).toNat = z.2.toNat - d.toNat := by
      rw [UInt64.toNat_sub]
      omega
    dsimp only
    rw [h₁, h₂]
    omega
  · rw [if_neg hlast]
    rw [UInt64.le_iff_toNat_le] at hlast
    have hsmall : q.toNat + k < 2 ^ 64 := by
      have : (q.toNat + k) * d.toNat < 2 ^ 64 * d.toNat := by omega
      exact Nat.lt_of_mul_lt_mul_right this
    rw [hz1, Nat.mod_eq_of_lt hsmall]
    omega

/-- A quotient and remainder are determined. -/
theorem divmod_unique {d : UInt64} {x y : UInt64 × UInt64} {n : ℕ}
    (hx : x.1.toNat * d.toNat + x.2.toNat = n ∧ x.2.toNat < d.toNat)
    (hy : y.1.toNat * d.toNat + y.2.toNat = n ∧ y.2.toNat < d.toNat) : x = y := by
  have key : ∀ {z : UInt64 × UInt64}, z.1.toNat * d.toNat + z.2.toNat = n ∧ z.2.toNat < d.toNat →
      z.1.toNat = n / d.toNat ∧ z.2.toNat = n % d.toNat := by
    rintro z ⟨h, hlt⟩
    rw [← h, Nat.mul_comm]
    exact ⟨by rw [Nat.mul_add_div (by omega), Nat.div_eq_of_lt hlt, Nat.add_zero],
      by rw [Nat.mul_add_mod, Nat.mod_eq_of_lt hlt]⟩
  obtain ⟨hx1, hx2⟩ := key hx
  obtain ⟨hy1, hy2⟩ := key hy
  exact Prod.ext (UInt64.toNat.inj (by rw [hx1, hy1])) (UInt64.toNat.inj (by rw [hx2, hy2]))

/-- **The divisions by an inverse are the plain division**: with the inverse of
`invert_limb`, both macros return what `__udiv_qrnnd_c` does, and that is the quotient and
the remainder. -/
theorem udivQrnnd_agree {nh d : UInt64} (nl : UInt64) (hd : 2 ^ 63 ≤ d.toNat)
    (hn : nh.toNat < d.toNat) :
    udivQrnndPreinv nh nl d (invertLimb d) = udivQrnndC nh nl d ∧
      udivQrnndPreinv1 nh nl d (invertLimb d) = udivQrnndC nh nl d ∧
      (udivQrnndC nh nl d).1.toNat = (2 ^ 64 * nh.toNat + nl.toNat) / d.toNat ∧
      (udivQrnndC nh nl d).2.toNat = (2 ^ 64 * nh.toNat + nl.toNat) % d.toNat := by
  have hplain := udivQrnndC_eq nl hd hn
  have hinv := invertLimb_isReciprocal hd
  refine ⟨divmod_unique (udivQrnndPreinv_eq nl hd hn hinv) hplain,
    divmod_unique (udivQrnndPreinv1_eq hd hn hinv) hplain, ?_⟩
  obtain ⟨heq, hlt⟩ := hplain
  rw [← heq, Nat.mul_comm]
  constructor
  · rw [Nat.mul_add_div (by omega), Nat.div_eq_of_lt hlt, Nat.add_zero]
  · rw [Nat.mul_add_mod, Nat.mod_eq_of_lt hlt]

/-- Five limbs and seven, by a divisor whose only bits are the top and the bottom one. -/
theorem udivQrnnd_agree_five :
    udivQrnndPreinv 5 7 0x8000000000000001 (invertLimb 0x8000000000000001)
        = udivQrnndC 5 7 0x8000000000000001 ∧
      udivQrnndPreinv1 5 7 0x8000000000000001 (invertLimb 0x8000000000000001)
        = udivQrnndC 5 7 0x8000000000000001 ∧
      (udivQrnndC 5 7 0x8000000000000001).1.toNat
        = (2 ^ 64 * (5 : UInt64).toNat + (7 : UInt64).toNat) / (0x8000000000000001 : UInt64).toNat ∧
      (udivQrnndC 5 7 0x8000000000000001).2.toNat
        = (2 ^ 64 * (5 : UInt64).toNat + (7 : UInt64).toNat) % (0x8000000000000001 : UInt64).toNat :=
  udivQrnnd_agree 7 (by decide) (by decide)

end Mpir
end SecureDesign
