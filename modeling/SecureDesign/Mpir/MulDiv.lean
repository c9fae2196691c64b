/-
# Multiplication and division by one limb

`mpn_mul_1` and `mpn_preinv_divrem_1` as written in `mpn/generic`.  The division
takes the inverse of its divisor from the caller, who also says how far the divisor
must be shifted to have its top bit set.  For a shift of zero the top limb costs no
division step; otherwise the dividend is shifted limb by limb as it is divided.  The
`xsize` steps after the last limb develop a fraction.

The loops of the division run from the top limb down, so their lists do too.  Every
loop has the same specification: it is a division of a number that grows by one limb
a step (`Divided`).
-/

import SecureDesign.Mpir.Longlong
import Mathlib.Tactic.LinearCombination

namespace SecureDesign
namespace Mpir

open CLang

/-- The loop of `mpn_mul_1` with its carry limb. -/
def mul1Loop (vl cl : UInt64) : List UInt64 → List UInt64 × UInt64
  | [] => ([], cl)
  | ul :: up =>
      let x := umulPpmm ul vl
      let lpl := x.2 + cl
      let cl := (decide (lpl < cl)).toUInt64 + x.1
      let r := mul1Loop vl cl up
      (lpl :: r.1, r.2)

/-- `mpn_mul_1`. -/
def mpnMul1 (up : List UInt64) (vl : UInt64) : List UInt64 × UInt64 := mul1Loop vl 0 up

/-- The division steps of `mpn_preinv_divrem_1` on limbs that need no shift, the
highest first; the quotient limbs come in the same order. -/
def preinvLoop (d dinv : UInt64) (r : UInt64) : List UInt64 → List UInt64 × UInt64
  | [] => ([], r)
  | n0 :: ap =>
      let x := udivQrnndPreinv r n0 d dinv
      let y := preinvLoop d dinv x.2 ap
      (x.1 :: y.1, y.2)

/-- The division steps on limbs that are shifted on the way.  `n1` is the limb in
hand, whose high bits are in `r` already. -/
def preinvShiftLoop (d dinv : UInt64) (shift : ℕ) (r n1 : UInt64) :
    List UInt64 → List UInt64 × UInt64
  | [] =>
      let x := udivQrnndPreinv r (n1 <<< UInt64.ofNat shift) d dinv
      ([x.1], x.2)
  | n0 :: ap =>
      let x := udivQrnndPreinv r
        (n1 <<< UInt64.ofNat shift ||| n0 >>> UInt64.ofNat (64 - shift)) d dinv
      let y := preinvShiftLoop d dinv shift x.2 n0 ap
      (x.1 :: y.1, y.2)

/-- The integer part of `mpn_preinv_divrem_1` for a nonzero shift, from the top limb
`ahigh` down.  A top limb below the divisor skips one divide step. -/
def preinvShiftInteger (d dUnnorm dinv : UInt64) (shift : ℕ) (ahigh : UInt64)
    (ap : List UInt64) : List UInt64 × UInt64 :=
  if ahigh < dUnnorm then
    let r := ahigh <<< UInt64.ofNat shift
    match ap with
    | [] => ([0], r)
    | n1 :: ap =>
        let y := preinvShiftLoop d dinv shift (r ||| n1 >>> UInt64.ofNat (64 - shift)) n1 ap
        (0 :: y.1, y.2)
  else preinvShiftLoop d dinv shift (0 ||| ahigh >>> UInt64.ofNat (64 - shift)) ahigh ap

/-- The integer part for a shift of zero: the top quotient limb is zero or one. -/
def preinvInteger (d dinv : UInt64) (ahigh : UInt64) (ap : List UInt64) :
    List UInt64 × UInt64 :=
  let qhigh := (decide (d ≤ ahigh)).toUInt64
  let r := if d ≤ ahigh then ahigh - d else ahigh
  let y := preinvLoop d dinv r ap
  (qhigh :: y.1, y.2)

/-- `mpn_preinv_divrem_1`: `size + xsize` quotient limbs and the remainder.  The size
is at least one. -/
def mpnPreinvDivrem1 (xsize : ℕ) (ap : List UInt64) (dUnnorm dinv : UInt64) (shift : ℕ) :
    List UInt64 × UInt64 :=
  let d := dUnnorm <<< UInt64.ofNat shift
  match ap.reverse with
  | [] => ([], 0)
  | ahigh :: ap =>
      let x :=
        if shift = 0 then preinvInteger d dinv ahigh ap
        else preinvShiftInteger d dUnnorm dinv shift ahigh ap
      let y := preinvLoop d dinv x.2 (List.replicate xsize 0)
      ((x.1 ++ y.1).reverse, y.2 >>> UInt64.ofNat shift)

/-! ### Multiplication -/

/-- **`mpn_mul_1` multiplies**, and the limb it returns is the top of the product. -/
theorem mul1Loop_eq (vl cl : UInt64) (up : List UInt64) :
    (mul1Loop vl cl up).1.length = up.length ∧
      val (mul1Loop vl cl up).1 + (2 ^ 64) ^ up.length * (mul1Loop vl cl up).2.toNat
        = val up * vl.toNat + cl.toNat := by
  induction up generalizing cl with
  | nil => simp [mul1Loop]
  | cons ul up ih =>
      have hmul := umulPpmm_eq ul vl
      rw [mul1Loop]
      generalize umulPpmm ul vl = x at hmul ⊢
      have hcy : (x.2 + cl).toNat + 2 ^ 64 * (decide (x.2 + cl < cl)).toNat
          = cl.toNat + x.2.toNat := by
        rw [UInt64.add_comm x.2 cl]
        exact toNat_add_carry cl x.2
      -- The high limb of a product has room for the carry.
      have hhigh : ((decide (x.2 + cl < cl)).toUInt64 + x.1).toNat
          = (decide (x.2 + cl < cl)).toNat + x.1.toNat := by
        have hbound : ul.toNat * vl.toNat ≤ (2 ^ 64 - 1) * (2 ^ 64 - 1) :=
          Nat.mul_le_mul (by have := ul.toNat_lt; omega) (by have := vl.toNat_lt; omega)
        have hle := Bool.toNat_le (decide (x.2 + cl < cl))
        rw [toNat_add_of_lt] <;> rw [toNat_toUInt64]
        omega
      obtain ⟨hlen, hval⟩ := ih ((decide (x.2 + cl < cl)).toUInt64 + x.1)
      rw [hhigh] at hval
      refine ⟨by simp [hlen], ?_⟩
      simp only [val_cons, List.length_cons]
      calc _ = (x.2 + cl).toNat
            + 2 ^ 64 * (val (mul1Loop vl ((decide (x.2 + cl < cl)).toUInt64 + x.1) up).1
              + (2 ^ 64) ^ up.length
                * (mul1Loop vl ((decide (x.2 + cl < cl)).toUInt64 + x.1) up).2.toNat) := by
            ring
        _ = (x.2 + cl).toNat + 2 ^ 64 * (decide (x.2 + cl < cl)).toNat + 2 ^ 64 * x.1.toNat
            + 2 ^ 64 * (val up * vl.toNat) := by rw [hval]; ring
        _ = (2 ^ 64 * x.1.toNat + x.2.toNat) + cl.toNat + 2 ^ 64 * (val up * vl.toNat) := by
            rw [hcy]; ring
        _ = (ul.toNat + 2 ^ 64 * val up) * vl.toNat + cl.toNat := by rw [hmul]; ring

theorem mpnMul1_length (up : List UInt64) (vl : UInt64) :
    (mpnMul1 up vl).1.length = up.length := (mul1Loop_eq vl 0 up).1

theorem mpnMul1_eq (up : List UInt64) (vl : UInt64) :
    val (mpnMul1 up vl).1 + (2 ^ 64) ^ up.length * (mpnMul1 up vl).2.toNat
      = val up * vl.toNat := (mul1Loop_eq vl 0 up).2

/-! ### Division -/

/-- `t` is the quotient, its top limb first, and the remainder of `N` by `D`. -/
structure Divided (D N n : ℕ) (t : List UInt64 × UInt64) : Prop where
  length : t.1.length = n
  eq : val t.1.reverse * D + t.2.toNat = N
  lt : t.2.toNat < D

/-- A quotient limb on top of the division of what it leaves. -/
theorem Divided.cons {D N n N' : ℕ} {q : UInt64} {t : List UInt64 × UInt64}
    (h : Divided D N n t) (hN : (2 ^ 64) ^ n * (q.toNat * D) + N = N') :
    Divided D N' (n + 1) (q :: t.1, t.2) := by
  refine ⟨by simp [h.length], ?_, h.lt⟩
  have hval : val (q :: t.1).reverse = val t.1.reverse + (2 ^ 64) ^ n * q.toNat := by
    rw [List.reverse_cons, val_append, val_singleton, List.length_reverse, h.length]
  calc val (q :: t.1).reverse * D + t.2.toNat
      = (2 ^ 64) ^ n * (q.toNat * D) + (val t.1.reverse * D + t.2.toNat) := by rw [hval]; ring
    _ = N' := by rw [h.eq, hN]

/-- A division followed by that of its remainder with more limbs below. -/
theorem Divided.append {D N M m n : ℕ} {s t : List UInt64 × UInt64} (hs : Divided D N m s)
    (ht : Divided D (s.2.toNat * (2 ^ 64) ^ n + M) n t) :
    Divided D (N * (2 ^ 64) ^ n + M) (m + n) (s.1 ++ t.1, t.2) := by
  refine ⟨by simp [hs.length, ht.length], ?_, ht.lt⟩
  have hval : val (s.1 ++ t.1).reverse = val t.1.reverse + (2 ^ 64) ^ n * val s.1.reverse := by
    rw [List.reverse_append, val_append, List.length_reverse, ht.length]
  calc val (s.1 ++ t.1).reverse * D + t.2.toNat
      = (2 ^ 64) ^ n * (val s.1.reverse * D) + (val t.1.reverse * D + t.2.toNat) := by
        rw [hval]; ring
    _ = (val s.1.reverse * D + s.2.toNat) * (2 ^ 64) ^ n + M := by rw [ht.eq]; ring
    _ = N * (2 ^ 64) ^ n + M := by rw [hs.eq]

section

variable {d dinv r : UInt64}

/-- The division steps divide. -/
theorem preinvLoop_divided (hd : 2 ^ 63 ≤ d.toNat)
    (hdi : IsReciprocal (2 ^ 64) d.toNat dinv.toNat) (hr : r.toNat < d.toNat)
    (ap : List UInt64) :
    Divided d.toNat (r.toNat * (2 ^ 64) ^ ap.length + val ap.reverse) ap.length
      (preinvLoop d dinv r ap) := by
  induction ap generalizing r with
  | nil => exact ⟨rfl, by simp [preinvLoop], hr⟩
  | cons n0 ap ih =>
      obtain ⟨hq, hlt⟩ := udivQrnndPreinv_eq n0 hd hr hdi
      rw [preinvLoop]
      refine (ih hlt).cons ?_
      rw [List.reverse_cons, val_append, val_singleton, List.length_reverse, List.length_cons]
      calc (2 ^ 64) ^ ap.length * ((udivQrnndPreinv r n0 d dinv).1.toNat * d.toNat)
            + ((udivQrnndPreinv r n0 d dinv).2.toNat * (2 ^ 64) ^ ap.length + val ap.reverse)
          = (2 ^ 64) ^ ap.length * ((udivQrnndPreinv r n0 d dinv).1.toNat * d.toNat
              + (udivQrnndPreinv r n0 d dinv).2.toNat) + val ap.reverse := by ring
        _ = r.toNat * (2 ^ 64) ^ (ap.length + 1)
              + (val ap.reverse + (2 ^ 64) ^ ap.length * n0.toNat) := by rw [hq]; ring

end

/-! ### Shifted limbs -/

section

variable {s : ℕ}

/-- The high and the low part of a shifted limb. -/
theorem shift_split (hs : s < 64) (a : ℕ) :
    2 ^ 64 * (a / 2 ^ (64 - s)) + 2 ^ s * (a % 2 ^ (64 - s)) = 2 ^ s * a := by
  have hpow : 2 ^ 64 = 2 ^ s * 2 ^ (64 - s) := by
    rw [← pow_add, Nat.add_sub_cancel' hs.le]
  rw [hpow, Nat.mul_assoc, ← Nat.mul_add, Nat.div_add_mod]

/-- The high part of a limb fits below a number that is a multiple of `2 ^ s`. -/
theorem high_lt (hs : s < 64) (a : UInt64) : a.toNat / 2 ^ (64 - s) < 2 ^ s := by
  rw [Nat.div_lt_iff_lt_mul (Nat.two_pow_pos _), ← pow_add, Nat.add_sub_cancel' hs.le]
  exact a.toNat_lt

/-- `a | b >> (64 - s)` for a multiple `a` of `2 ^ s`. -/
theorem toNat_or_high (hs0 : 0 < s) (hs : s < 64) {a : UInt64} {k : ℕ}
    (ha : a.toNat = 2 ^ s * k) (b : UInt64) :
    (a ||| b >>> UInt64.ofNat (64 - s)).toNat = a.toNat + b.toNat / 2 ^ (64 - s) := by
  rw [UInt64.toNat_or, toNat_shiftRight_ofNat (by omega), ha,
    Nat.two_pow_add_eq_or_of_lt (high_lt hs b)]

variable {d dinv r : UInt64}

/-- The shifting division steps divide the shifted number. -/
theorem preinvShiftLoop_divided (hs0 : 0 < s) (hs : s < 64) (hd : 2 ^ 63 ≤ d.toNat)
    (hdi : IsReciprocal (2 ^ 64) d.toNat dinv.toNat) (hr : r.toNat < d.toNat) (n1 : UInt64)
    (ap : List UInt64) :
    Divided d.toNat (r.toNat * (2 ^ 64) ^ (ap.length + 1)
        + ((2 ^ 64) ^ ap.length * (2 ^ s * (n1.toNat % 2 ^ (64 - s))) + 2 ^ s * val ap.reverse))
      (ap.length + 1) (preinvShiftLoop d dinv s r n1 ap) := by
  induction ap generalizing r n1 with
  | nil =>
      obtain ⟨hq, hlt⟩ := udivQrnndPreinv_eq (n1 <<< UInt64.ofNat s) hd hr hdi
      rw [toNat_shiftLeft_ofNat hs] at hq
      refine ⟨rfl, ?_, hlt⟩
      simp only [preinvShiftLoop, List.reverse_singleton, val_singleton, List.reverse_nil, val_nil,
        List.length_nil]
      rw [hq]
      ring
  | cons n0 ap ih =>
      have hlimb := toNat_or_high hs0 hs (toNat_shiftLeft_ofNat hs n1) n0
      rw [toNat_shiftLeft_ofNat hs] at hlimb
      obtain ⟨hq, hlt⟩ := udivQrnndPreinv_eq
        (n1 <<< UInt64.ofNat s ||| n0 >>> UInt64.ofNat (64 - s)) hd hr hdi
      rw [hlimb] at hq
      have hsplit := shift_split hs n0.toNat
      rw [preinvShiftLoop]
      refine (ih hlt n0).cons ?_
      rw [List.reverse_cons, val_append, val_singleton, List.length_reverse, List.length_cons]
      generalize udivQrnndPreinv r (n1 <<< UInt64.ofNat s ||| n0 >>> UInt64.ofNat (64 - s)) d dinv
        = x at hq hlt ⊢
      calc (2 ^ 64) ^ (ap.length + 1) * (x.1.toNat * d.toNat)
            + (x.2.toNat * (2 ^ 64) ^ (ap.length + 1)
              + ((2 ^ 64) ^ ap.length * (2 ^ s * (n0.toNat % 2 ^ (64 - s)))
                + 2 ^ s * val ap.reverse))
          = (2 ^ 64) ^ (ap.length + 1) * (x.1.toNat * d.toNat + x.2.toNat)
              + ((2 ^ 64) ^ ap.length * (2 ^ s * (n0.toNat % 2 ^ (64 - s)))
                + 2 ^ s * val ap.reverse) := by ring
        _ = r.toNat * (2 ^ 64) ^ (ap.length + 1 + 1)
              + (2 ^ 64) ^ (ap.length + 1) * (2 ^ s * (n1.toNat % 2 ^ (64 - s)))
              + (2 ^ 64) ^ ap.length * (2 ^ 64 * (n0.toNat / 2 ^ (64 - s))
                + 2 ^ s * (n0.toNat % 2 ^ (64 - s))) + 2 ^ s * val ap.reverse := by rw [hq]; ring
        _ = r.toNat * (2 ^ 64) ^ (ap.length + 1 + 1)
              + ((2 ^ 64) ^ (ap.length + 1) * (2 ^ s * (n1.toNat % 2 ^ (64 - s)))
                + 2 ^ s * (val ap.reverse + (2 ^ 64) ^ ap.length * n0.toNat)) := by
            rw [hsplit]; ring

/-- The integer part for a nonzero shift divides the shifted number. -/
theorem preinvShiftInteger_divided (hs0 : 0 < s) (hs : s < 64) {dUnnorm : UInt64}
    (hds : d.toNat = 2 ^ s * dUnnorm.toNat) (hd : 2 ^ 63 ≤ d.toNat)
    (hdi : IsReciprocal (2 ^ 64) d.toNat dinv.toNat) (ahigh : UInt64) (ap : List UInt64) :
    Divided d.toNat (2 ^ s * val (ahigh :: ap).reverse) (ap.length + 1)
      (preinvShiftInteger d dUnnorm dinv s ahigh ap) := by
  have hdlt := d.toNat_lt
  rw [List.reverse_cons, val_append, val_singleton, List.length_reverse, preinvShiftInteger]
  by_cases hskip : ahigh < dUnnorm
  · rw [if_pos hskip]
    rw [UInt64.lt_iff_toNat_lt] at hskip
    -- The top limb is below the divisor, so nothing leaves it in the shift.
    have hr : (ahigh <<< UInt64.ofNat s).toNat = 2 ^ s * ahigh.toNat := by
      have hlt : ahigh.toNat < 2 ^ (64 - s) := by
        have h₁ : 2 ^ s * ahigh.toNat < 2 ^ s * 2 ^ (64 - s) := by
          rw [← pow_add, Nat.add_sub_cancel' hs.le]
          exact (Nat.mul_lt_mul_of_pos_left hskip (Nat.two_pow_pos s)).trans (hds ▸ hdlt)
        exact Nat.lt_of_mul_lt_mul_left h₁
      rw [toNat_shiftLeft_ofNat hs, Nat.mod_eq_of_lt hlt]
    have hroom : 2 ^ s * ahigh.toNat + 2 ^ s ≤ d.toNat := by
      rw [hds, ← Nat.mul_succ]
      exact Nat.mul_le_mul_left _ hskip
    cases ap with
    | nil =>
        refine ⟨rfl, ?_, ?_⟩
        · simp [hr]
        · have := Nat.two_pow_pos s
          rw [hr]
          omega
    | cons n1 ap =>
        have hhigh := high_lt hs n1
        have hor := toNat_or_high hs0 hs hr n1
        rw [hr] at hor
        have hloop := preinvShiftLoop_divided hs0 hs hd hdi
          (r := ahigh <<< UInt64.ofNat s ||| n1 >>> UInt64.ofNat (64 - s)) (by omega) n1 ap
        rw [hor] at hloop
        have hsplit := shift_split hs n1.toNat
        refine hloop.cons ?_
        rw [List.reverse_cons, val_append, val_singleton, List.length_reverse, List.length_cons,
          UInt64.toNat_zero]
        calc _ = (2 ^ 64) ^ (ap.length + 1) * (2 ^ s * ahigh.toNat)
              + (2 ^ 64) ^ ap.length * (2 ^ 64 * (n1.toNat / 2 ^ (64 - s))
                + 2 ^ s * (n1.toNat % 2 ^ (64 - s))) + 2 ^ s * val ap.reverse := by ring
          _ = _ := by rw [hsplit]; ring
  · rw [if_neg hskip]
    rw [UInt64.lt_iff_toNat_lt] at hskip
    have hhigh := high_lt hs ahigh
    have hor := toNat_or_high hs0 hs (a := 0) (k := 0) rfl ahigh
    rw [UInt64.toNat_zero, Nat.zero_add] at hor
    have hpos : 2 ^ s ≤ d.toNat := by
      rw [hds]
      refine Nat.le_mul_of_pos_right _ (Nat.pos_of_ne_zero fun h0 => ?_)
      rw [h0, Nat.mul_zero] at hds
      omega
    have hloop := preinvShiftLoop_divided hs0 hs hd hdi
      (r := 0 ||| ahigh >>> UInt64.ofNat (64 - s)) (by omega) ahigh ap
    rw [hor] at hloop
    have hsplit := shift_split hs ahigh.toNat
    have hN : ahigh.toNat / 2 ^ (64 - s) * (2 ^ 64) ^ (ap.length + 1)
        + ((2 ^ 64) ^ ap.length * (2 ^ s * (ahigh.toNat % 2 ^ (64 - s))) + 2 ^ s * val ap.reverse)
        = 2 ^ s * (val ap.reverse + (2 ^ 64) ^ ap.length * ahigh.toNat) := by
      calc _ = (2 ^ 64) ^ ap.length * (2 ^ 64 * (ahigh.toNat / 2 ^ (64 - s))
              + 2 ^ s * (ahigh.toNat % 2 ^ (64 - s))) + 2 ^ s * val ap.reverse := by ring
        _ = _ := by rw [hsplit]; ring
    rwa [hN] at hloop

end

/-- The integer part for a shift of zero divides. -/
theorem preinvInteger_divided {d dinv : UInt64} (hd : 2 ^ 63 ≤ d.toNat)
    (hdi : IsReciprocal (2 ^ 64) d.toNat dinv.toNat) (ahigh : UInt64) (ap : List UInt64) :
    Divided d.toNat (val (ahigh :: ap).reverse) (ap.length + 1)
      (preinvInteger d dinv ahigh ap) := by
  have hlt := ahigh.toNat_lt
  rw [List.reverse_cons, val_append, val_singleton, List.length_reverse, preinvInteger]
  by_cases h : d ≤ ahigh
  · have hle := UInt64.le_iff_toNat_le.mp h
    have hr : (ahigh - d).toNat = ahigh.toNat - d.toNat := UInt64.toNat_sub_of_le _ _ h
    have hloop := preinvLoop_divided hd hdi (r := ahigh - d) (by omega) ap
    simp only [if_pos h, decide_eq_true h]
    refine hloop.cons ?_
    rw [hr, toNat_toUInt64, Bool.toNat_true]
    calc _ = (2 ^ 64) ^ ap.length * (d.toNat + (ahigh.toNat - d.toNat)) + val ap.reverse := by
          ring
      _ = _ := by rw [Nat.add_sub_cancel' hle]; ring
  · have hgt : ahigh.toNat < d.toNat := by
      rw [UInt64.le_iff_toNat_le] at h
      omega
    have hloop := preinvLoop_divided hd hdi hgt ap
    simp only [if_neg h, decide_eq_false h]
    refine hloop.cons ?_
    rw [toNat_toUInt64, Bool.toNat_false]
    ring

/-- **`mpn_preinv_divrem_1` divides, and develops `xsize` limbs of the fraction.** -/
theorem mpnPreinvDivrem1_eq (xsize : ℕ) {shift : ℕ} {ap : List UInt64} {dUnnorm dinv : UInt64}
    (hne : ap ≠ []) (hshift : 2 ^ 63 ≤ 2 ^ shift * dUnnorm.toNat)
    (hfit : 2 ^ shift * dUnnorm.toNat < 2 ^ 64)
    (hdi : IsReciprocal (2 ^ 64) (2 ^ shift * dUnnorm.toNat) dinv.toNat) :
    (mpnPreinvDivrem1 xsize ap dUnnorm dinv shift).1.length = ap.length + xsize ∧
      val (mpnPreinvDivrem1 xsize ap dUnnorm dinv shift).1 * dUnnorm.toNat
          + (mpnPreinvDivrem1 xsize ap dUnnorm dinv shift).2.toNat
        = val ap * (2 ^ 64) ^ xsize ∧
      (mpnPreinvDivrem1 xsize ap dUnnorm dinv shift).2.toNat < dUnnorm.toNat := by
  have hpos : 0 < dUnnorm.toNat := Nat.pos_of_ne_zero fun h0 => by
    rw [h0] at hshift
    omega
  have hs : shift < 64 := by
    by_contra hge
    have h₁ : 2 ^ 64 ≤ 2 ^ shift := Nat.pow_le_pow_right (by norm_num) (by omega)
    have h₂ : 2 ^ shift ≤ 2 ^ shift * dUnnorm.toNat := Nat.le_mul_of_pos_right _ hpos
    omega
  have hd : (dUnnorm <<< UInt64.ofNat shift).toNat = 2 ^ shift * dUnnorm.toNat := by
    have hlt : dUnnorm.toNat < 2 ^ (64 - shift) := by
      have h₁ : 2 ^ shift * dUnnorm.toNat < 2 ^ shift * 2 ^ (64 - shift) := by
        rwa [← pow_add, Nat.add_sub_cancel' hs.le]
      exact Nat.lt_of_mul_lt_mul_left h₁
    rw [toNat_shiftLeft_ofNat hs, Nat.mod_eq_of_lt hlt]
  obtain ⟨ahigh, l, hl⟩ : ∃ ahigh l, ap.reverse = ahigh :: l :=
    List.exists_cons_of_ne_nil (by simpa using hne)
  have hap : ap = (ahigh :: l).reverse := by rw [← hl, List.reverse_reverse]
  have haplen : ap.length = l.length + 1 := by rw [hap]; simp
  rw [← hd] at hshift hdi
  generalize hdef : dUnnorm <<< UInt64.ofNat shift = d at hd hshift hdi
  -- Both integer parts divide the shifted number.
  have hint : Divided d.toNat (2 ^ shift * val ap) (l.length + 1)
      (if shift = 0 then preinvInteger d dinv ahigh l
        else preinvShiftInteger d dUnnorm dinv shift ahigh l) := by
    by_cases h0 : shift = 0
    · rw [if_pos h0, h0, pow_zero, Nat.one_mul, hap]
      exact preinvInteger_divided hshift hdi ahigh l
    · rw [if_neg h0, hap]
      exact preinvShiftInteger_divided (Nat.pos_of_ne_zero h0) hs hd hshift hdi ahigh l
  rw [mpnPreinvDivrem1, hl]
  simp only [hdef]
  generalize (if shift = 0 then preinvInteger d dinv ahigh l
    else preinvShiftInteger d dUnnorm dinv shift ahigh l) = x at hint ⊢
  have hfrac := preinvLoop_divided hshift hdi hint.lt (List.replicate xsize 0)
  rw [List.reverse_replicate, val_replicate_zero, List.length_replicate] at hfrac
  have hall := hint.append hfrac
  rw [Nat.add_zero] at hall
  generalize preinvLoop d dinv x.2 (List.replicate xsize 0) = y at hall ⊢
  have heq := hall.eq
  have hlt := hall.lt
  dsimp only at heq hlt
  -- The remainder of the shifted number is the shifted remainder.
  obtain ⟨ρ, hρ⟩ : 2 ^ shift ∣ y.2.toNat := by
    have h₁ : 2 ^ shift ∣ val (x.1 ++ y.1).reverse * d.toNat := by
      rw [hd]
      exact (Nat.dvd_mul_right _ _).mul_left _
    refine (Nat.dvd_add_right h₁).mp ?_
    rw [heq, Nat.mul_assoc]
    exact Nat.dvd_mul_right _ _
  have hback : (y.2 >>> UInt64.ofNat shift).toNat = ρ := by
    rw [toNat_shiftRight_ofNat hs, hρ, Nat.mul_div_cancel_left _ (Nat.two_pow_pos _)]
  rw [hback]
  refine ⟨?_, ?_, ?_⟩
  · rw [List.length_reverse, hall.length, haplen]
  · have h₁ : 2 ^ shift * (val (x.1 ++ y.1).reverse * dUnnorm.toNat + ρ)
        = 2 ^ shift * (val ap * (2 ^ 64) ^ xsize) := by
      calc 2 ^ shift * (val (x.1 ++ y.1).reverse * dUnnorm.toNat + ρ)
          = val (x.1 ++ y.1).reverse * (2 ^ shift * dUnnorm.toNat) + 2 ^ shift * ρ := by ring
        _ = 2 ^ shift * (val ap * (2 ^ 64) ^ xsize) := by rw [← hd, ← hρ, heq]; ring
    exact Nat.eq_of_mul_eq_mul_left (Nat.two_pow_pos _) h₁
  · rw [hρ, hd] at hlt
    exact Nat.lt_of_mul_lt_mul_left hlt

/-- **`mpn_preinv_divrem_1` divides by every limb** whose shift and inverse were prepared
with `count_leading_zeros` and `invert_limb`: quotient and remainder are exact, also with
`xsize` limbs of fraction. -/
theorem mpnPreinvDivrem1_divMod (xsize : ℕ) {ap : List UInt64} {d : UInt64} (hne : ap ≠ [])
    (hd : d ≠ 0) :
    (mpnPreinvDivrem1 xsize ap d (invertLimb (d <<< UInt64.ofNat (countLeadingZeros d)))
        (countLeadingZeros d)).1
      = limbsOf (ap.length + xsize) (val ap * (2 ^ 64) ^ xsize / d.toNat) ∧
      (mpnPreinvDivrem1 xsize ap d (invertLimb (d <<< UInt64.ofNat (countLeadingZeros d)))
        (countLeadingZeros d)).2.toNat = val ap * (2 ^ 64) ^ xsize % d.toNat := by
  obtain ⟨hhigh, hfit⟩ := countLeadingZeros_spec hd
  have hclz : countLeadingZeros d < 64 := by
    by_contra hge
    have h₁ : 2 ^ 64 ≤ 2 ^ countLeadingZeros d :=
      Nat.pow_le_pow_right (by norm_num) (Nat.not_lt.mp hge)
    have h₂ := Nat.le_mul_of_pos_right (2 ^ countLeadingZeros d) (toNat_ne_zero hd)
    omega
  have hnorm : (d <<< UInt64.ofNat (countLeadingZeros d)).toNat
      = 2 ^ countLeadingZeros d * d.toNat := by
    have hlt : 2 ^ countLeadingZeros d * d.toNat
        < 2 ^ countLeadingZeros d * 2 ^ (64 - countLeadingZeros d) := by
      rwa [← pow_add, Nat.add_sub_cancel' hclz.le]
    rw [toNat_shiftLeft_ofNat hclz, Nat.mod_eq_of_lt (Nat.lt_of_mul_lt_mul_left hlt)]
  have hinv := invertLimb_isReciprocal (hnorm.symm ▸ hhigh)
  rw [hnorm] at hinv
  obtain ⟨hlen, hval, hlt⟩ := mpnPreinvDivrem1_eq xsize hne hhigh hfit hinv
  generalize mpnPreinvDivrem1 xsize ap d _ _ = x at hlen hval hlt ⊢
  rw [← hval, Nat.mul_comm, Nat.mul_add_div (toNat_ne_zero hd), Nat.div_eq_of_lt hlt, Nat.add_zero,
    Nat.mul_add_mod, Nat.mod_eq_of_lt hlt]
  refine ⟨eq_of_val_eq (by rw [hlen, length_limbsOf]) ?_, rfl⟩
  rw [val_limbsOf (by rw [← hlen]; exact val_lt x.1)]

/-- Three limbs and one of fraction by ten. -/
theorem mpnPreinvDivrem1_divMod_ten :
    (mpnPreinvDivrem1 1 [1, 2, 3] 10 (invertLimb (10 <<< UInt64.ofNat (countLeadingZeros 10)))
        (countLeadingZeros 10)).1
      = limbsOf 4 (val [1, 2, 3] * (2 ^ 64) ^ 1 / (10 : UInt64).toNat) ∧
      (mpnPreinvDivrem1 1 [1, 2, 3] 10 (invertLimb (10 <<< UInt64.ofNat (countLeadingZeros 10)))
        (countLeadingZeros 10)).2.toNat = val [1, 2, 3] * (2 ^ 64) ^ 1 % (10 : UInt64).toNat :=
  mpnPreinvDivrem1_divMod 1 (by decide) (by decide)

end Mpir
end SecureDesign
