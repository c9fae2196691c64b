/-
# Squares

`mpn_sqr` of `mpn/generic/mul_n.c` below `SQR_TOOM3_THRESHOLD`.  `mpn_sqr_basecase` computes
the products of two different limbs once, in rows that each start two places above the one
before, doubles their sum with `mpn_lshift` and adds the squares of the limbs.  Its array has
room for `SQR_KARATSUBA_THRESHOLD` limbs, and both callers pass fewer.
`mpn_kara_sqr_n` cuts the operand as `mpn_kara_mul_n` does.  The difference of the halves is
squared, so its sign does not matter and the third product is always subtracted.
-/

import SecureDesign.Mpir.MulN

namespace SecureDesign
namespace Mpir

open CLang

/-- `SQR_BASECASE_THRESHOLD`. -/
def sqrBasecaseThreshold : ℕ := 0

/-- `SQR_KARATSUBA_THRESHOLD`. -/
def sqrKaratsubaThreshold : ℕ := 32

/-- `SQR_TOOM3_THRESHOLD`. -/
def sqrToom3Threshold : ℕ := 128

/-- The loop of `mpn_lshift`, on limbs with the highest first. -/
def lshiftLoop (cnt : ℕ) (highLimb : UInt64) : List UInt64 → List UInt64
  | [] => [highLimb]
  | lowLimb :: up =>
      (highLimb ||| lowLimb >>> UInt64.ofNat (64 - cnt))
        :: lshiftLoop cnt (lowLimb <<< UInt64.ofNat cnt) up

/-- `mpn_lshift`. -/
def mpnLshift (up : List UInt64) (cnt : ℕ) : List UInt64 × UInt64 :=
  match up.reverse with
  | [] => ([], 0)
  | lowLimb :: up =>
      ((lshiftLoop cnt (lowLimb <<< UInt64.ofNat cnt) up).reverse,
        lowLimb >>> UInt64.ofNat (64 - cnt))

/-- `MPN_SQR_DIAGONAL`. -/
def sqrDiagonal : List UInt64 → List UInt64
  | [] => []
  | ul :: up =>
      let x := umulPpmm ul ul
      x.2 :: x.1 :: sqrDiagonal up

/-- The rows of `mpn_sqr_basecase` after the first.  `tp` holds the limbs that the next row
adds to. -/
def sqrRows : List UInt64 → List UInt64 → List UInt64
  | tp, u :: v :: up =>
      let x := mpnAddmul1 tp (v :: up) u
      let tp := x.1 ++ [x.2]
      tp.take 2 ++ sqrRows (tp.drop 2) (v :: up)
  | tp, _ => tp

/-- `mpn_sqr_basecase`. -/
def mpnSqrBasecase : List UInt64 → List UInt64
  | [] => []
  | [ul] => sqrDiagonal [ul]
  | ul :: v :: up =>
      let n := up.length + 2
      let x := mpnMul1 (v :: up) ul
      let tp := x.1 ++ [x.2]
      let tp := tp.take 2 ++ sqrRows (tp.drop 2) (v :: up)
      let rp := sqrDiagonal (ul :: v :: up)
      let y := mpnLshift tp 1
      let z := mpnAddN ((rp.drop 1).take (2 * n - 2)) y.1
      rp.take 1 ++ z.1 ++ [rp.getD (2 * n - 1) 0 + (y.2 + z.2)]

/-- `mpn_kara_sqr_n`, for an operand of at most `fuel` limbs. -/
def mpnKaraSqrN : ℕ → List UInt64 → Option (List UInt64)
  | 0, _ => none
  | fuel + 1, xp => do
      let n2 := xp.length / 2
      let dx := karaDiff (xp.drop n2) (xp.take n2)
      let sqr := fun a =>
        if xp.length - n2 < sqrBasecaseThreshold then some (mpnMulBasecase a a)
        else if xp.length - n2 < sqrKaratsubaThreshold then some (mpnSqrBasecase a)
        else mpnKaraSqrN fuel a
      let lo ← sqr (xp.take n2)
      let tp ← sqr dx.1
      let hi ← sqr (xp.drop n2)
      mpnKarasub lo hi tp

/-! ### `mpn_lshift` -/

section

variable {cnt : ℕ}

theorem val_reverse_cons (a : UInt64) (l : List UInt64) :
    val (a :: l).reverse = val l.reverse + (2 ^ 64) ^ l.length * a.toNat := by
  rw [List.reverse_cons, val_append, val_singleton, List.length_reverse]

/-- **The loop shifts**: the bits that leave a limb enter the next one. -/
theorem lshiftLoop_spec (hpos : 0 < cnt) (hcnt : cnt < 64) (l : List UInt64) :
    ∀ {high : UInt64} {k : ℕ}, high.toNat = 2 ^ cnt * k →
      (lshiftLoop cnt high l).length = l.length + 1 ∧
        val (lshiftLoop cnt high l).reverse
          = 2 ^ cnt * val l.reverse + (2 ^ 64) ^ l.length * high.toNat := by
  induction l with
  | nil =>
      intro high k _
      exact ⟨rfl, by simp [lshiftLoop]⟩
  | cons a l ih =>
      intro high k hk
      have hlow := toNat_shiftLeft_ofNat hcnt a
      obtain ⟨hlen, hval⟩ := ih hlow
      have hsplit := shift_split hcnt a.toNat
      rw [lshiftLoop]
      refine ⟨by rw [List.length_cons, hlen, List.length_cons], ?_⟩
      rw [val_reverse_cons, hval, hlen, toNat_or_high hpos hcnt hk, val_reverse_cons, hlow,
        List.length_cons, pow_succ (2 ^ 64)]
      linear_combination (2 ^ 64) ^ l.length * hsplit

/-- **`mpn_lshift`** multiplies by a power of two. -/
theorem mpnLshift_spec (hpos : 0 < cnt) (hcnt : cnt < 64) (up : List UInt64) :
    (mpnLshift up cnt).1.length = up.length ∧
      val (mpnLshift up cnt).1 + (2 ^ 64) ^ up.length * (mpnLshift up cnt).2.toNat
        = 2 ^ cnt * val up := by
  rw [mpnLshift]
  have hrev := List.reverse_reverse up
  generalize up.reverse = l at hrev ⊢
  subst hrev
  cases l with
  | nil => simp
  | cons a l =>
      have hlow := toNat_shiftLeft_ofNat hcnt a
      obtain ⟨hlen, hval⟩ := lshiftLoop_spec hpos hcnt l hlow
      have hsplit := shift_split hcnt a.toNat
      refine ⟨by rw [List.length_reverse, hlen, List.length_reverse, List.length_cons], ?_⟩
      rw [hval, hlow, toNat_shiftRight_ofNat (by omega), val_reverse_cons, List.length_reverse,
        List.length_cons, pow_succ (2 ^ 64)]
      linear_combination (2 ^ 64) ^ l.length * hsplit

end

/-! ### `mpn_sqr_basecase` -/

/-- The products of two different limbs, one place down. -/
def mixedSum : List UInt64 → ℕ
  | [] => 0
  | u :: up => u.toNat * val up + (2 ^ 64) ^ 2 * mixedSum up

theorem mixedSum_cons (u : UInt64) (up : List UInt64) :
    mixedSum (u :: up) = u.toNat * val up + (2 ^ 64) ^ 2 * mixedSum up := rfl

theorem sqrDiagonal_spec (up : List UInt64) :
    (sqrDiagonal up).length = 2 * up.length ∧
      val (sqrDiagonal up) + 2 ^ 64 * (2 * mixedSum up) = val up * val up := by
  induction up with
  | nil => exact ⟨rfl, rfl⟩
  | cons u up ih =>
      obtain ⟨hlen, hval⟩ := ih
      have hmul := umulPpmm_eq u u
      rw [sqrDiagonal]
      refine ⟨by rw [List.length_cons, List.length_cons, hlen, List.length_cons]; ring, ?_⟩
      rw [val_cons, val_cons, val_cons, mixedSum]
      linear_combination hmul + (2 ^ 64) ^ 2 * hval

/-- Storing the carry limb above a row and stepping up two places. -/
theorem val_step_two {l : List UInt64} {n : ℕ} (hlen : l.length = n + 1) (c : UInt64) :
    ((l ++ [c]).take 2).length = 2 ∧ ((l ++ [c]).drop 2).length = n ∧
      val ((l ++ [c]).take 2) + (2 ^ 64) ^ 2 * val ((l ++ [c]).drop 2)
        = val l + (2 ^ 64) ^ (n + 1) * c.toNat := by
  have hlong : (l ++ [c]).length = n + 2 := by
    rw [List.length_append, hlen]
    rfl
  refine ⟨by rw [List.length_take]; omega, by rw [List.length_drop]; omega, ?_⟩
  rw [← val_split (by omega), val_append, val_singleton, hlen]

/-- **The rows** add the products of two different limbs. -/
theorem sqrRows_spec (up : List UInt64) :
    ∀ (u : UInt64) {tp : List UInt64}, tp.length = up.length →
      (sqrRows tp (u :: up)).length = 2 * up.length ∧
        val (sqrRows tp (u :: up)) = val tp + mixedSum (u :: up) := by
  induction up with
  | nil =>
      intro u tp htp
      obtain rfl : tp = [] := List.length_eq_zero_iff.mp htp
      exact ⟨rfl, rfl⟩
  | cons v up ih =>
      intro u tp htp
      have hrow := mpnAddmul1_eq u htp
      have hrowlen := mpnAddmul1_length u htp
      rw [sqrRows]
      generalize mpnAddmul1 tp (v :: up) u = x at hrow hrowlen ⊢
      obtain ⟨htake, hdrop, hstep⟩ := val_step_two hrowlen x.2
      replace hstep := hstep.trans hrow
      obtain ⟨hrest, hrestval⟩ := ih v hdrop
      constructor
      · rw [List.length_append, htake, hrest, List.length_cons]
        omega
      · rw [val_append, htake, hrestval, mixedSum_cons u]
        linear_combination hstep

/-- The last sum of `mpn_sqr_basecase`, of the squares `rp` and the doubled products `y`. -/
theorem sqr_sum {rp y : List UInt64} {cy : UInt64} {k p : ℕ} (hrp : rp.length = k + 2)
    (hy : y.length = k) (hcy : cy.toNat ≤ 1)
    (hp : val rp + 2 ^ 64 * (val y + (2 ^ 64) ^ k * cy.toNat) = p)
    (hlt : p < (2 ^ 64) ^ (k + 2)) :
    let z := mpnAddN ((rp.drop 1).take k) y
    (rp.take 1 ++ z.1 ++ [rp.getD (k + 1) 0 + (cy + z.2)]).length = k + 2 ∧
      val (rp.take 1 ++ z.1 ++ [rp.getD (k + 1) 0 + (cy + z.2)]) = p := by
  intro z
  have htake : (rp.take 1).length = 1 := by
    rw [List.length_take]
    omega
  have hdrop : (rp.drop 1).length = k + 1 := by
    rw [List.length_drop]
    omega
  have hmid : ((rp.drop 1).take k).length = k := by
    rw [List.length_take]
    omega
  have hlow := val_split (l := rp) (n := 1) (by omega)
  have hhigh := val_split (l := rp.drop 1) (n := k) (by omega)
  rw [List.drop_drop, Nat.add_comm 1 k, drop_eq_getD (n := k + 1) hrp, val_singleton] at hhigh
  obtain ⟨hzlen, hz1, hz⟩ := mpnAddN_nat (hmid.trans hy.symm)
  rw [hmid] at hz hzlen
  change z.1.length = k at hzlen
  change z.2.toNat ≤ 1 at hz1
  change val z.1 + (2 ^ 64) ^ k * z.2.toNat = _ at hz
  generalize rp.getD (k + 1) 0 = top at hhigh ⊢
  have hcarry : (cy + z.2).toNat = cy.toNat + z.2.toNat := toNat_add_of_lt (by omega)
  have hsum : val (rp.take 1) + 2 ^ 64 * val z.1
      + (2 ^ 64) ^ (k + 1) * (top.toNat + (cy + z.2).toNat) = p := by
    rw [← hp, hlow, hhigh, hcarry, pow_succ (2 ^ 64) k]
    linear_combination 2 ^ 64 * hz
  -- the whole number leaves room for the two carries
  have htop : top.toNat + (cy + z.2).toNat < 2 ^ 64 := by
    rw [← hsum, pow_succ (2 ^ 64) (k + 1)] at hlt
    exact Nat.lt_of_mul_lt_mul_left (a := (2 ^ 64) ^ (k + 1)) (by omega)
  have hlen : (rp.take 1 ++ z.1).length = k + 1 := by
    rw [List.length_append, htake, hzlen, Nat.add_comm]
  refine ⟨by rw [List.length_append, hlen]; rfl, ?_⟩
  rw [val_append, hlen, val_append, htake, val_singleton, toNat_add_of_lt htop, pow_one, hsum]

/-- **`mpn_sqr_basecase` squares.** -/
theorem mpnSqrBasecase_spec {up : List UInt64} (hne : up ≠ []) :
    (mpnSqrBasecase up).length = 2 * up.length ∧
      val (mpnSqrBasecase up) = val up * val up := by
  obtain ⟨hrplen, hrpval⟩ := sqrDiagonal_spec up
  match up with
  | [ul] =>
      refine ⟨hrplen, ?_⟩
      rw [← hrpval]
      simp [mixedSum, mpnSqrBasecase]
  | ul :: v :: up =>
      have hx := mpnMul1_eq (v :: up) ul
      have hxlen := mpnMul1_length (v :: up) ul
      rw [mpnSqrBasecase]
      generalize mpnMul1 (v :: up) ul = x at hx hxlen ⊢
      obtain ⟨htake, hdrop, hstep⟩ := val_step_two hxlen x.2
      replace hstep := hstep.trans hx
      obtain ⟨hrest, hrestval⟩ := sqrRows_spec up v hdrop
      generalize x.1 ++ [x.2] = t at htake hdrop hstep hrest hrestval ⊢
      have htplen : (t.take 2 ++ sqrRows (t.drop 2) (v :: up)).length = 2 * up.length + 2 := by
        rw [List.length_append, htake, hrest, Nat.add_comm]
      have htpval : val (t.take 2 ++ sqrRows (t.drop 2) (v :: up))
          = mixedSum (ul :: v :: up) := by
        rw [val_append, htake, hrestval, mixedSum_cons ul]
        linear_combination hstep
      generalize t.take 2 ++ sqrRows (t.drop 2) (v :: up) = tp at htplen htpval ⊢
      obtain ⟨hylen, hyval⟩ := mpnLshift_spec Nat.one_pos (by omega) tp
      rw [htplen, htpval, pow_one] at hyval
      generalize mpnLshift tp 1 = y at hylen hyval ⊢
      have hk : 2 * (ul :: v :: up).length = 2 * up.length + 2 + 2 := by
        rw [List.length_cons, List.length_cons]
        ring
      have hlt : val (ul :: v :: up) * val (ul :: v :: up)
          < (2 ^ 64) ^ (2 * up.length + 2 + 2) := by
        rw [← hk, Nat.two_mul, pow_add]
        exact Nat.mul_lt_mul'' (val_lt _) (val_lt _)
      have hcy : y.2.toNat ≤ 1 := by
        have htplt := val_lt tp
        rw [htplen, htpval] at htplt
        have hcylt : (2 ^ 64) ^ (2 * up.length + 2) * y.2.toNat
            < (2 ^ 64) ^ (2 * up.length + 2) * 2 := by omega
        have hcy := Nat.lt_of_mul_lt_mul_left hcylt
        omega
      have hsum := sqr_sum (hrplen.trans hk) (hylen.trans htplen) hcy
        (by rw [hyval, ← hrpval]) hlt
      rw [hk]
      exact hsum

/-- **`mpn_kara_sqr_n` squares**: the recursion ends, and no carry leaves the product. -/
theorem mpnKaraSqrN_spec (fuel : ℕ) :
    ∀ {xp : List UInt64}, 2 ≤ xp.length → xp.length ≤ fuel →
      ∃ r, mpnKaraSqrN fuel xp = some r ∧ r.length = 2 * xp.length ∧
        val r = val xp * val xp := by
  induction fuel with
  | zero =>
      intro xp h2 hfuel
      omega
  | succ fuel ih =>
      intro xp h2 hfuel
      -- the three squares, by `mpn_sqr_basecase` or by the recursion
      have hsqr : ∀ {a : List UInt64}, xp.length / 2 ≤ a.length →
          a.length ≤ xp.length - xp.length / 2 →
          ∃ r, (if xp.length - xp.length / 2 < sqrBasecaseThreshold then
              some (mpnMulBasecase a a)
            else if xp.length - xp.length / 2 < sqrKaratsubaThreshold then
              some (mpnSqrBasecase a) else mpnKaraSqrN fuel a) = some r ∧
            r.length = 2 * a.length ∧ val r = val a * val a := by
        intro a hge hle
        have ha : a ≠ [] := List.ne_nil_of_length_pos (by omega)
        split_ifs with hmul hsmall
        · obtain ⟨hrlen, hrval⟩ := mpnMulBasecase_spec ha ha
          exact ⟨_, rfl, by omega, hrval⟩
        · exact ⟨_, rfl, mpnSqrBasecase_spec ha⟩
        · unfold sqrKaratsubaThreshold at hsmall
          exact ih (by omega) (by omega)
      have hxl : (xp.take (xp.length / 2)).length = xp.length / 2 := by
        rw [List.length_take]
        omega
      have hxh : (xp.drop (xp.length / 2)).length = xp.length - xp.length / 2 := List.length_drop
      obtain ⟨hdxlen, hdx⟩ := karaDiff_spec (xp.drop (xp.length / 2)) (xp.take (xp.length / 2))
        (by omega)
      obtain ⟨lo, hlo, hlolen, hloval⟩ := hsqr hxl.ge (by omega)
      obtain ⟨hi, hhi, hhilen, hhival⟩ := hsqr (a := xp.drop (xp.length / 2)) (by omega) hxh.le
      obtain ⟨tp, htp, htplen, htpval⟩ := hsqr
        (a := (karaDiff (xp.drop (xp.length / 2)) (xp.take (xp.length / 2))).1) (by omega)
        (by omega)
      obtain ⟨r, hr, hrlen, hrval⟩ := karaCombine_spec (by omega) (by omega) rfl rfl hdx hdx
        hlolen hloval hhilen hhival (htplen.trans (congrArg _ hdxlen)) htpval
      rw [List.take_append_drop] at hrlen hrval
      rw [if_pos rfl] at hr
      refine ⟨r, ?_, hrlen, hrval⟩
      rw [mpnKaraSqrN]
      simp only [hlo, htp, hhi, Option.bind_eq_bind, Option.bind_some]
      exact hr

/-- `mpn_sqr`, with the squares from `SQR_TOOM3_THRESHOLD` limbs on left to `K`. -/
def MulKernel.withSqr (K : MulKernel) : MulKernel where
  mul := K.mul
  sqr up :=
    if up.length < sqrBasecaseThreshold then mpnMulBasecase up up
    else if up.length < sqrKaratsubaThreshold then mpnSqrBasecase up
    else if up.length < sqrToom3Threshold then (mpnKaraSqrN up.length up).getD []
    else K.sqr up
  length_mul := K.length_mul
  val_mul := K.val_mul
  length_sqr {up} hu := by
    split_ifs with hmul hsmall hkara
    · rw [(mpnMulBasecase_spec hu hu).1, Nat.two_mul]
    · exact (mpnSqrBasecase_spec hu).1
    · unfold sqrKaratsubaThreshold at hsmall
      obtain ⟨r, hr, hrlen, -⟩ := mpnKaraSqrN_spec up.length (by omega) le_rfl
      rw [hr, Option.getD_some, hrlen]
    · exact K.length_sqr hu
  val_sqr {up} hu := by
    split_ifs with hmul hsmall hkara
    · exact (mpnMulBasecase_spec hu hu).2
    · exact (mpnSqrBasecase_spec hu).2
    · unfold sqrKaratsubaThreshold at hsmall
      obtain ⟨r, hr, -, hrval⟩ := mpnKaraSqrN_spec up.length (by omega) le_rfl
      rw [hr, Option.getD_some, hrval]
    · exact K.val_sqr hu

/-- **`mpn_kara_sqr_n` is `mpn_kara_mul_n` with one operand**: both end, and give the same
limbs, although the third product is never added. -/
theorem mpnKaraSqrN_eq_mulN {xp : List UInt64} (h2 : 2 ≤ xp.length) {fuel : ℕ}
    (hfuel : xp.length ≤ fuel) :
    (mpnKaraSqrN fuel xp).isSome ∧ mpnKaraSqrN fuel xp = mpnKaraMulN fuel xp xp := by
  obtain ⟨r, hr, hrlen, hrval⟩ := mpnKaraSqrN_spec fuel h2 hfuel
  obtain ⟨q, hq, hqlen, hqval⟩ := mpnKaraMulN_spec fuel h2 rfl hfuel
  refine ⟨by rw [hr]; rfl, ?_⟩
  rw [hr, hq, eq_of_val_eq (hrlen.trans hqlen.symm) (hrval.trans hqval.symm)]

/-- Halves of different lengths, which are cut once more. -/
theorem mpnKaraSqrN_eq_mulN_odd :
    (mpnKaraSqrN 129 (List.replicate 129 7)).isSome ∧
      mpnKaraSqrN 129 (List.replicate 129 7)
        = mpnKaraMulN 129 (List.replicate 129 7) (List.replicate 129 7) :=
  mpnKaraSqrN_eq_mulN (by rw [List.length_replicate]; decide)
    (by rw [List.length_replicate])

end Mpir
end SecureDesign
