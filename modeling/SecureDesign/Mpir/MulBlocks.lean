/-
# Products of a long and a short number

`mpn_mul` of `mpn/generic/mul.c` for a second operand of fewer limbs than
`MUL_KARATSUBA_THRESHOLD` and than the first.  A long first operand is multiplied in blocks
of `MUL_BASECASE_MAX_UN` limbs.  The top limbs of a block's product lie over the product of
the next block, are kept aside and added to it.  Of the two increments that take the carry
further up the source asks whether they are safe.  A carry that ran past the product has no
result here, and `mpnMulSmall_spec` says that there always is one.  `MulKernel.withSmall` puts the
branch in front of any multiplication of large numbers.
-/

import SecureDesign.Mpir.MpzMul
import SecureDesign.Mpir.SetStr

namespace SecureDesign
namespace Mpir

open CLang

/-- `MUL_BASECASE_MAX_UN`. -/
def mulBasecaseMaxUn : ℕ := 500

/-- The loop of `mpn_incr_u`; no result when it leaves the limbs that are there. -/
def incrLoopWithin : List UInt64 → Option (List UInt64)
  | [] => none
  | x :: p => if x + 1 = 0 then (incrLoopWithin p).map ((x + 1) :: ·) else some ((x + 1) :: p)

/-- `mpn_incr_u (p, incr)`; no result when it leaves the limbs that are there. -/
def mpnIncrUWithin (p : List UInt64) (incr : UInt64) : Option (List UInt64) :=
  match p with
  | [] => none
  | x :: p =>
      if x + incr < incr then (incrLoopWithin p).map ((x + incr) :: ·)
      else some ((x + incr) :: p)

/-- A block's product `rp` with the limbs `tp` added that were kept from the block before. -/
def addTriangle (rp tp : List UInt64) : Option (List UInt64) := do
  let x := mpnAddN (rp.take tp.length) tp
  let high ← mpnIncrUWithin (rp.drop tp.length) x.2
  some (x.1 ++ high)

/-- The blocks after the first.  `up` are the limbs that are left, and `tp` the limbs of the
product so far that the next block is added to. -/
def mulBlocks (vp up tp : List UInt64) : Option (List UInt64) :=
  if mulBasecaseMaxUn < up.length then do
    let rp ← addTriangle (mpnMulBasecase (up.take mulBasecaseMaxUn) vp) tp
    let rest ← mulBlocks vp (up.drop mulBasecaseMaxUn) (rp.drop mulBasecaseMaxUn)
    some (rp.take mulBasecaseMaxUn ++ rest)
  else
    addTriangle (if vp.length < up.length then mpnMulBasecase up vp else mpnMulBasecase vp up) tp
termination_by up.length
decreasing_by
  rw [List.length_drop]
  unfold mulBasecaseMaxUn at *
  omega

/-- `mpn_mul` below `MUL_KARATSUBA_THRESHOLD`. -/
def mpnMulSmall (up vp : List UInt64) : Option (List UInt64) :=
  if up.length ≤ mulBasecaseMaxUn then some (mpnMulBasecase up vp)
  else do
    let rp := mpnMulBasecase (up.take mulBasecaseMaxUn) vp
    let rest ← mulBlocks vp (up.drop mulBasecaseMaxUn) (rp.drop mulBasecaseMaxUn)
    some (rp.take mulBasecaseMaxUn ++ rest)

/-! ### The increments -/

/-- A number that can be one larger ends the loop within its limbs. -/
theorem incrLoopWithin_eq {p : List UInt64} (h : val p + 1 < (2 ^ 64) ^ p.length) :
    incrLoopWithin p = some (incrLoop p) := by
  induction p with
  | nil => simp at h
  | cons x p ih =>
      rw [incrLoopWithin, incrLoop]
      by_cases h0 : x + 1 = 0
      · have htop : x.toNat + 1 = 2 ^ 64 := by
          have h₁ := UInt64.toNat_add x 1
          have h₂ := x.toNat_lt
          rw [h0, UInt64.toNat_zero, UInt64.toNat_one] at h₁
          omega
        have hup : val p + 1 < (2 ^ 64) ^ p.length := by
          rw [val_cons, List.length_cons, pow_succ (2 ^ 64), Nat.mul_comm _ (2 ^ 64)] at h
          have h₁ : 2 ^ 64 * (val p + 1) < 2 ^ 64 * (2 ^ 64) ^ p.length := by omega
          exact Nat.lt_of_mul_lt_mul_left h₁
        rw [if_pos h0, if_pos h0, ih hup, Option.map_some]
      · rw [if_neg h0, if_neg h0]

/-- A number with room for the increment takes it within its limbs. -/
theorem mpnIncrUWithin_eq {p : List UInt64} {incr : UInt64} (hne : p ≠ [])
    (h : val p + incr.toNat < (2 ^ 64) ^ p.length) :
    mpnIncrUWithin p incr = some (mpnIncrU p incr) := by
  obtain ⟨x, p, rfl⟩ := List.exists_cons_of_ne_nil hne
  have hcy := toNat_add_carry incr x
  rw [UInt64.add_comm] at hcy
  rw [mpnIncrUWithin, mpnIncrU]
  by_cases hlt : x + incr < incr
  · have hx := (x + incr).toNat_lt
    rw [if_pos hlt, if_pos hlt]
    rw [decide_eq_true hlt, Bool.toNat_true] at hcy
    rw [val_cons, List.length_cons, pow_succ (2 ^ 64), Nat.mul_comm _ (2 ^ 64)] at h
    have hup : val p + 1 < (2 ^ 64) ^ p.length := by
      have h₁ : 2 ^ 64 * (val p + 1) < 2 ^ 64 * (2 ^ 64) ^ p.length := by omega
      exact Nat.lt_of_mul_lt_mul_left h₁
    rw [incrLoopWithin_eq hup, Option.map_some]
  · rw [if_neg hlt, if_neg hlt]

/-! ### The blocks -/

/-- **The increment is safe** where the sum of the block and the limbs kept has room. -/
theorem addTriangle_spec (rp tp : List UInt64) (hlen : tp.length < rp.length)
    (h : val rp + val tp < (2 ^ 64) ^ rp.length) :
    ∃ r, addTriangle rp tp = some r ∧ r.length = rp.length ∧ val r = val rp + val tp := by
  obtain ⟨hroom, hlength, hval⟩ := addIncr_spec rp tp hlen.le h
  have hne : rp.drop tp.length ≠ [] := by
    rw [Ne, List.drop_eq_nil_iff]
    omega
  refine ⟨_, ?_, hlength, hval⟩
  unfold addTriangle
  simp only [mpnIncrUWithin_eq hne hroom, Option.bind_eq_bind, Option.bind_some]

/-- A product of `un` and `vn` limbs has room for `vn` limbs more. -/
theorem mul_add_lt {a v t A V : ℕ} (ha : a < A) (hv : v < V) (ht : t < V) :
    a * v + t < A * V := by
  calc a * v + t < a * v + V := Nat.add_lt_add_left ht _
    _ ≤ a * V + V := Nat.add_le_add_right (Nat.mul_le_mul_left a hv.le) V
    _ = (a + 1) * V := by ring
    _ ≤ A * V := Nat.mul_le_mul_right V ha

/-- One block: the product of `a` and `vp` with the limbs kept. -/
theorem addTriangle_product {rp a vp tp : List UInt64} (ha : a ≠ []) (htp : tp.length = vp.length)
    (hlen : rp.length = a.length + vp.length) (hval : val rp = val a * val vp) :
    ∃ r, addTriangle rp tp = some r ∧ r.length = a.length + vp.length ∧
      val r = val a * val vp + val tp := by
  have hpos := List.length_pos_of_ne_nil ha
  have hroom : val rp + val tp < (2 ^ 64) ^ rp.length := by
    rw [hval, hlen, pow_add]
    exact mul_add_lt (val_lt a) (val_lt vp) (htp ▸ val_lt tp)
  obtain ⟨r, hr, hrlen, hrval⟩ := addTriangle_spec rp tp (by omega) hroom
  exact ⟨r, hr, hrlen.trans hlen, by rw [hrval, hval]⟩

/-- A number of more than one block: the first one and what is left. -/
theorem first_block {up : List UInt64} (hlong : mulBasecaseMaxUn < up.length) :
    (up.take mulBasecaseMaxUn).length = mulBasecaseMaxUn ∧ up.take mulBasecaseMaxUn ≠ [] ∧
      up.drop mulBasecaseMaxUn ≠ [] := by
  have htake : (up.take mulBasecaseMaxUn).length = mulBasecaseMaxUn := by
    rw [List.length_take, Nat.min_eq_left hlong.le]
  have hmax : 0 < (up.take mulBasecaseMaxUn).length := by
    rw [htake]
    decide
  refine ⟨htake, List.ne_nil_of_length_pos hmax, ?_⟩
  rw [Ne, List.drop_eq_nil_iff]
  omega

/-- The product of a block and that of the rest, which starts from the limbs kept. -/
theorem block_append {up vp rp q : List UInt64} {t : ℕ} (hlong : mulBasecaseMaxUn < up.length)
    (hlen : rp.length = mulBasecaseMaxUn + vp.length)
    (hval : val rp = val (up.take mulBasecaseMaxUn) * val vp + t)
    (hqlen : q.length = (up.drop mulBasecaseMaxUn).length + vp.length)
    (hqval : val q = val (up.drop mulBasecaseMaxUn) * val vp + val (rp.drop mulBasecaseMaxUn)) :
    (rp.take mulBasecaseMaxUn ++ q).length = up.length + vp.length ∧
      val (rp.take mulBasecaseMaxUn ++ q) = val up * val vp + t := by
  have hlow : (rp.take mulBasecaseMaxUn).length = mulBasecaseMaxUn := by
    rw [List.length_take, hlen]
    omega
  have hsplit := val_take_add_drop rp mulBasecaseMaxUn
  have husplit := val_take_add_drop up mulBasecaseMaxUn
  rw [hlow] at hsplit
  rw [(first_block hlong).1] at husplit
  constructor
  · rw [List.length_append, hlow, hqlen, List.length_drop]
    omega
  · rw [val_append, hlow, hqval]
    calc _ = val (rp.take mulBasecaseMaxUn)
          + (2 ^ 64) ^ mulBasecaseMaxUn * val (rp.drop mulBasecaseMaxUn)
          + (2 ^ 64) ^ mulBasecaseMaxUn * val (up.drop mulBasecaseMaxUn) * val vp := by ring
      _ = (val (up.take mulBasecaseMaxUn)
          + (2 ^ 64) ^ mulBasecaseMaxUn * val (up.drop mulBasecaseMaxUn)) * val vp + t := by
            rw [hsplit, hval]
            ring
      _ = val up * val vp + t := by rw [husplit]

/-- **The loop over the blocks** multiplies what is left of the first operand and adds the
limbs kept. -/
theorem mulBlocks_spec {vp : List UInt64} (hv : vp ≠ []) (n : ℕ) :
    ∀ {up tp : List UInt64}, up.length = n → up ≠ [] → tp.length = vp.length →
      ∃ r, mulBlocks vp up tp = some r ∧ r.length = up.length + vp.length ∧
        val r = val up * val vp + val tp := by
  induction n using Nat.strong_induction_on with
  | _ n ih =>
      rintro up tp rfl hu htp
      rw [mulBlocks]
      by_cases hlong : mulBasecaseMaxUn < up.length
      · obtain ⟨htake, hblock, hrest⟩ := first_block hlong
        obtain ⟨hmlen, hmval⟩ := mpnMulBasecase_spec hblock hv
        obtain ⟨rp, hrp, hrplen, hrpval⟩ := addTriangle_product hblock htp hmlen hmval
        rw [htake] at hrplen
        have hkept : (rp.drop mulBasecaseMaxUn).length = vp.length := by
          rw [List.length_drop, hrplen, Nat.add_sub_cancel_left]
        have hshorter : (up.drop mulBasecaseMaxUn).length < up.length := by
          have hpos := List.length_pos_of_ne_nil hblock
          rw [htake] at hpos
          rw [List.length_drop]
          omega
        obtain ⟨q, hq, hqlen, hqval⟩ := ih _ hshorter rfl hrest hkept
        simp only [if_pos hlong, hrp, hq, Option.bind_eq_bind, Option.bind_some]
        exact ⟨_, rfl, block_append hlong hrplen hrpval hqlen hqval⟩
      · rw [if_neg hlong]
        have hproduct : (if vp.length < up.length then mpnMulBasecase up vp
              else mpnMulBasecase vp up).length = up.length + vp.length ∧
            val (if vp.length < up.length then mpnMulBasecase up vp
              else mpnMulBasecase vp up) = val up * val vp := by
          obtain ⟨hlen, hval⟩ := mpnMulBasecase_spec hu hv
          obtain ⟨hlen', hval'⟩ := mpnMulBasecase_spec hv hu
          split_ifs
          · exact ⟨hlen, hval⟩
          · exact ⟨hlen'.trans (Nat.add_comm _ _), hval'.trans (Nat.mul_comm _ _)⟩
        exact addTriangle_product hu htp hproduct.1 hproduct.2

/-- **A product is computed**: no carry leaves it. -/
theorem mpnMulSmall_spec {up vp : List UInt64} (hv : vp ≠ []) (hle : vp.length ≤ up.length) :
    ∃ prod, mpnMulSmall up vp = some prod ∧ prod.length = up.length + vp.length ∧
      val prod = val up * val vp := by
  unfold mpnMulSmall
  by_cases hshort : up.length ≤ mulBasecaseMaxUn
  · rw [if_pos hshort]
    have hu : up ≠ [] := by
      rintro rfl
      exact hv (List.length_eq_zero_iff.mp (Nat.le_zero.mp hle))
    exact ⟨_, rfl, mpnMulBasecase_spec hu hv⟩
  · have hlong := not_le.mp hshort
    obtain ⟨htake, hblock, hrest⟩ := first_block hlong
    obtain ⟨hlen, hval⟩ := mpnMulBasecase_spec hblock hv
    rw [htake] at hlen
    generalize mpnMulBasecase (up.take mulBasecaseMaxUn) vp = rp at hlen hval ⊢
    have hkept : (rp.drop mulBasecaseMaxUn).length = vp.length := by
      rw [List.length_drop, hlen, Nat.add_sub_cancel_left]
    obtain ⟨q, hq, hqlen, hqval⟩ := mulBlocks_spec hv _ rfl hrest hkept
    simp only [if_neg hshort, hq, Option.bind_eq_bind, Option.bind_some]
    exact ⟨_, rfl, block_append (t := 0) hlong hlen hval hqlen hqval⟩

/-- `mpn_mul` and `mpn_sqr` with the multiplications of numbers of one length and of large
numbers left to `K`. -/
def MulKernel.withSmall (K : MulKernel) : MulKernel where
  mul up vp :=
    if up.length ≠ vp.length ∧ vp.length < mulKaratsubaThreshold then (mpnMulSmall up vp).getD []
    else K.mul up vp
  sqr := K.sqr
  length_mul {up vp} hv hle := by
    obtain ⟨prod, hprod, hlen, -⟩ := mpnMulSmall_spec hv hle
    rw [hprod, Option.getD_some]
    split_ifs
    · exact hlen
    · exact K.length_mul hv hle
  val_mul {up vp} hv hle := by
    obtain ⟨prod, hprod, -, hval⟩ := mpnMulSmall_spec hv hle
    rw [hprod, Option.getD_some]
    split_ifs
    · exact hval
    · exact K.val_mul hv hle
  length_sqr := K.length_sqr
  val_sqr := K.val_sqr

/-- **`mpn_mul` in blocks is the multiplication without blocks**: for a first operand of any
length every carry stays inside the product, and the product is that of `mpn_mul_basecase`,
limb by limb. -/
theorem mpnMulSmall_eq_basecase {up vp : List UInt64} (hv : vp ≠ [])
    (hle : vp.length ≤ up.length) : mpnMulSmall up vp = some (mpnMulBasecase up vp) := by
  have hu : up ≠ [] := by
    rintro rfl
    exact hv (List.length_eq_zero_iff.mp (Nat.le_zero.mp hle))
  obtain ⟨prod, hprod, hlen, hval⟩ := mpnMulSmall_spec hv hle
  obtain ⟨hplen, hpval⟩ := mpnMulBasecase_spec hu hv
  rw [hprod, eq_of_val_eq (hlen.trans hplen.symm) (hval.trans hpval.symm)]

/-- Three blocks, the last one shorter. -/
theorem mpnMulSmall_eq_basecase_blocks :
    mpnMulSmall (List.replicate 1203 (-1)) [-1, 2, 3]
      = some (mpnMulBasecase (List.replicate 1203 (-1)) [-1, 2, 3]) :=
  mpnMulSmall_eq_basecase (by decide) (by rw [List.length_replicate]; decide)

end Mpir
end SecureDesign
