/-
# Multiplication of limb lists

`mpn_addmul_1` and `mpn_mul_basecase` as written in `mpn/generic`: the product is
built row by row, each row one multiplication by a limb of the second operand added
one place further up.

`mpn_mul` and `mpn_sqr` choose between this and faster algorithms by size.  What the
conversions rely on is the product itself, so they take the two functions as a
parameter with that specification (`MulKernel`); `basecase` is the choice the
library makes for small operands.
-/

import SecureDesign.Mpir.MulDiv

namespace SecureDesign
namespace Mpir

open CLang

/-- The loop of `mpn_addmul_1` with its carry limb. -/
def addmul1Loop (vl cl : UInt64) : List UInt64 → List UInt64 → List UInt64 × UInt64
  | rl :: rp, ul :: up =>
      let x := umulPpmm ul vl
      let lpl := x.2 + cl
      let cl := (decide (lpl < cl)).toUInt64 + x.1
      let lpl := rl + lpl
      let cl := cl + (decide (lpl < rl)).toUInt64
      let r := addmul1Loop vl cl rp up
      (lpl :: r.1, r.2)
  | _, _ => ([], cl)

/-- `mpn_addmul_1`. -/
def mpnAddmul1 (rp up : List UInt64) (vl : UInt64) : List UInt64 × UInt64 :=
  addmul1Loop vl 0 rp up

/-- The rows of `mpn_mul_basecase` after the first.  `rp` holds the limbs that the next
row adds to. -/
def mulRows (up : List UInt64) : List UInt64 → List UInt64 → List UInt64
  | rp, [] => rp
  | rp, v :: vp =>
      let x := mpnAddmul1 rp up v
      x.1.take 1 ++ mulRows up (x.1.drop 1 ++ [x.2]) vp

/-- `mpn_mul_basecase`.  The second operand has at least one limb. -/
def mpnMulBasecase (up : List UInt64) : List UInt64 → List UInt64
  | [] => []
  | v :: vp =>
      let x := mpnMul1 up v
      x.1.take 1 ++ mulRows up (x.1.drop 1 ++ [x.2]) vp

/-- **`mpn_addmul_1` multiplies and adds.** -/
theorem addmul1Loop_eq (vl cl : UInt64) {rp up : List UInt64} (hlen : rp.length = up.length) :
    (addmul1Loop vl cl rp up).1.length = up.length ∧
      val (addmul1Loop vl cl rp up).1 + (2 ^ 64) ^ up.length * (addmul1Loop vl cl rp up).2.toNat
        = val rp + val up * vl.toNat + cl.toNat := by
  induction up generalizing rp cl with
  | nil =>
      obtain rfl := List.length_eq_zero_iff.mp hlen
      simp [addmul1Loop]
  | cons ul up ih =>
      obtain ⟨rl, rp, rfl⟩ := List.exists_cons_of_length_eq_add_one hlen
      have hlen' : rp.length = up.length := by simpa using hlen
      have hmul := umulPpmm_eq ul vl
      rw [addmul1Loop]
      generalize umulPpmm ul vl = x at hmul ⊢
      have hcy₁ : (x.2 + cl).toNat + 2 ^ 64 * (decide (x.2 + cl < cl)).toNat
          = cl.toNat + x.2.toNat := by
        rw [UInt64.add_comm x.2 cl]
        exact toNat_add_carry cl x.2
      have hcy₂ := toNat_add_carry rl (x.2 + cl)
      -- The high limb of a product has room for both carries.
      have hbound : ul.toNat * vl.toNat ≤ (2 ^ 64 - 1) * (2 ^ 64 - 1) :=
        Nat.mul_le_mul (by have := ul.toNat_lt; omega) (by have := vl.toNat_lt; omega)
      have hcl := cl.toNat_lt
      have hrl := rl.toNat_lt
      have hle₁ := Bool.toNat_le (decide (x.2 + cl < cl))
      have hle₂ := Bool.toNat_le (decide (rl + (x.2 + cl) < rl))
      dsimp only
      generalize decide (x.2 + cl < cl) = c₁ at hcy₁ hle₁ ⊢
      generalize decide (rl + (x.2 + cl) < rl) = c₂ at hcy₂ hle₂ ⊢
      have hhigh₁ : (c₁.toUInt64 + x.1).toNat = c₁.toNat + x.1.toNat := by
        rw [toNat_add_of_lt] <;> rw [toNat_toUInt64]
        omega
      have hhigh : (c₁.toUInt64 + x.1 + c₂.toUInt64).toNat = c₁.toNat + x.1.toNat + c₂.toNat := by
        rw [toNat_add_of_lt] <;> rw [hhigh₁, toNat_toUInt64]
        omega
      obtain ⟨hlenr, hval⟩ := ih (c₁.toUInt64 + x.1 + c₂.toUInt64) hlen'
      rw [hhigh] at hval
      generalize addmul1Loop vl (c₁.toUInt64 + x.1 + c₂.toUInt64) rp up = r at hlenr hval ⊢
      refine ⟨by simp [hlenr], ?_⟩
      simp only [val_cons, List.length_cons]
      calc (rl + (x.2 + cl)).toNat + 2 ^ 64 * val r.1 + (2 ^ 64) ^ (up.length + 1) * r.2.toNat
          = (rl + (x.2 + cl)).toNat + 2 ^ 64 * (val r.1 + (2 ^ 64) ^ up.length * r.2.toNat) := by
            ring
        _ = (rl + (x.2 + cl)).toNat + 2 ^ 64 * c₂.toNat + 2 ^ 64 * c₁.toNat + 2 ^ 64 * x.1.toNat
            + 2 ^ 64 * (val rp + val up * vl.toNat) := by rw [hval]; ring
        _ = rl.toNat + ((x.2 + cl).toNat + 2 ^ 64 * c₁.toNat) + 2 ^ 64 * x.1.toNat
            + 2 ^ 64 * (val rp + val up * vl.toNat) := by rw [hcy₂]; ring
        _ = rl.toNat + cl.toNat + (2 ^ 64 * x.1.toNat + x.2.toNat)
            + 2 ^ 64 * (val rp + val up * vl.toNat) := by rw [hcy₁]; ring
        _ = rl.toNat + 2 ^ 64 * val rp + (ul.toNat + 2 ^ 64 * val up) * vl.toNat + cl.toNat := by
            rw [hmul]; ring

theorem mpnAddmul1_length {rp up : List UInt64} (vl : UInt64) (hlen : rp.length = up.length) :
    (mpnAddmul1 rp up vl).1.length = up.length := (addmul1Loop_eq vl 0 hlen).1

theorem mpnAddmul1_eq {rp up : List UInt64} (vl : UInt64) (hlen : rp.length = up.length) :
    val (mpnAddmul1 rp up vl).1 + (2 ^ 64) ^ up.length * (mpnAddmul1 rp up vl).2.toNat
      = val rp + val up * vl.toNat := (addmul1Loop_eq vl 0 hlen).2

/-- Storing the carry limb above a row and stepping up one place. -/
theorem val_step_up {l : List UInt64} (hne : l ≠ []) (c : UInt64) :
    (l.take 1).length = 1 ∧ (l.drop 1 ++ [c]).length = l.length ∧
      val (l.take 1) + 2 ^ 64 * val (l.drop 1 ++ [c])
        = val l + (2 ^ 64) ^ l.length * c.toNat := by
  obtain ⟨a, l, rfl⟩ := List.exists_cons_of_ne_nil hne
  refine ⟨by simp, by simp, ?_⟩
  simp only [List.take_succ_cons, List.take_zero, List.drop_succ_cons, List.drop_zero,
    val_append, val_cons, val_nil, List.length_cons]
  ring

theorem mulRows_spec {up : List UInt64} (hne : up ≠ []) {rp : List UInt64} (vp : List UInt64)
    (hlen : rp.length = up.length) :
    (mulRows up rp vp).length = up.length + vp.length ∧
      val (mulRows up rp vp) = val rp + val up * val vp := by
  induction vp generalizing rp with
  | nil => exact ⟨by simpa [mulRows] using hlen, by simp [mulRows]⟩
  | cons v vp ih =>
      have hrow := mpnAddmul1_eq v hlen
      have hrowlen := mpnAddmul1_length v hlen
      rw [mulRows]
      generalize mpnAddmul1 rp up v = x at hrow hrowlen ⊢
      have hx : x.1 ≠ [] := by
        intro hnil
        rw [hnil] at hrowlen
        exact hne (List.length_eq_zero_iff.mp hrowlen.symm)
      obtain ⟨hone, hnext, hstep⟩ := val_step_up hx x.2
      obtain ⟨hl, hv⟩ := ih (hnext.trans hrowlen)
      rw [hrowlen] at hstep
      refine ⟨?_, ?_⟩
      · rw [List.length_append, hone, hl, List.length_cons]
        omega
      · rw [val_append, hone, hv, val_cons]
        calc val (x.1.take 1) + (2 ^ 64) ^ 1 * (val (x.1.drop 1 ++ [x.2]) + val up * val vp)
            = (val (x.1.take 1) + 2 ^ 64 * val (x.1.drop 1 ++ [x.2]))
                + 2 ^ 64 * (val up * val vp) := by ring
          _ = val rp + val up * (v.toNat + 2 ^ 64 * val vp) := by rw [hstep, hrow]; ring

/-- **`mpn_mul_basecase` multiplies.** -/
theorem mpnMulBasecase_spec {up vp : List UInt64} (hu : up ≠ []) (hv : vp ≠ []) :
    (mpnMulBasecase up vp).length = up.length + vp.length ∧
      val (mpnMulBasecase up vp) = val up * val vp := by
  obtain ⟨v, vp, rfl⟩ := List.exists_cons_of_ne_nil hv
  have hrow := mpnMul1_eq up v
  have hrowlen := mpnMul1_length up v
  rw [mpnMulBasecase]
  generalize mpnMul1 up v = x at hrow hrowlen ⊢
  have hx : x.1 ≠ [] := by
    intro hnil
    rw [hnil] at hrowlen
    exact hu (List.length_eq_zero_iff.mp hrowlen.symm)
  obtain ⟨hone, hnext, hstep⟩ := val_step_up hx x.2
  obtain ⟨hl, hval⟩ := mulRows_spec hu vp (hnext.trans hrowlen)
  rw [hrowlen] at hstep
  refine ⟨?_, ?_⟩
  · rw [List.length_append, hone, hl, List.length_cons]
    omega
  · rw [val_append, hone, hval, val_cons]
    calc val (x.1.take 1) + (2 ^ 64) ^ 1 * (val (x.1.drop 1 ++ [x.2]) + val up * val vp)
        = (val (x.1.take 1) + 2 ^ 64 * val (x.1.drop 1 ++ [x.2]))
            + 2 ^ 64 * (val up * val vp) := by ring
      _ = val up * (v.toNat + 2 ^ 64 * val vp) := by rw [hstep, hrow]; ring

/-- `mpn_mul` and `mpn_sqr`: products of `un + vn` limbs, for `un` at least `vn` and `vn`
at least one. -/
structure MulKernel where
  mul : List UInt64 → List UInt64 → List UInt64
  sqr : List UInt64 → List UInt64
  length_mul : ∀ {up vp : List UInt64}, vp ≠ [] → vp.length ≤ up.length →
    (mul up vp).length = up.length + vp.length
  val_mul : ∀ {up vp : List UInt64}, vp ≠ [] → vp.length ≤ up.length →
    val (mul up vp) = val up * val vp
  length_sqr : ∀ {up : List UInt64}, up ≠ [] → (sqr up).length = 2 * up.length
  val_sqr : ∀ {up : List UInt64}, up ≠ [] → val (sqr up) = val up * val up

/-- A list at least as long as a list that is not empty. -/
private theorem ne_nil_of_le {up vp : List UInt64} (hv : vp ≠ []) (hle : vp.length ≤ up.length) :
    up ≠ [] := by
  rintro rfl
  exact hv (List.length_eq_zero_iff.mp (Nat.le_zero.mp hle))

/-- The two functions on small operands. -/
def MulKernel.basecase : MulKernel where
  mul := mpnMulBasecase
  sqr up := mpnMulBasecase up up
  length_mul hv hle := (mpnMulBasecase_spec (ne_nil_of_le hv hle) hv).1
  val_mul hv hle := (mpnMulBasecase_spec (ne_nil_of_le hv hle) hv).2
  length_sqr hu := by rw [(mpnMulBasecase_spec hu hu).1, Nat.two_mul]
  val_sqr hu := (mpnMulBasecase_spec hu hu).2

/-- **`mpn_mul_basecase` commutes**, limb by limb: the rows may be those of either operand. -/
theorem mpnMulBasecase_comm {up vp : List UInt64} (hu : up ≠ []) (hv : vp ≠ []) :
    mpnMulBasecase up vp = mpnMulBasecase vp up := by
  obtain ⟨hlen, hval⟩ := mpnMulBasecase_spec hu hv
  obtain ⟨hlen', hval'⟩ := mpnMulBasecase_spec hv hu
  refine eq_of_val_eq ?_ ?_
  · rw [hlen, hlen', Nat.add_comm]
  · rw [hval, hval', Nat.mul_comm]

/-- Operands of different lengths. -/
theorem mpnMulBasecase_comm_lengths :
    [-1, -1, 5] ≠ ([] : List UInt64) ∧ mpnMulBasecase [-1, -1, 5] [7, 9]
      = mpnMulBasecase [7, 9] [-1, -1, 5] :=
  ⟨by decide, mpnMulBasecase_comm (by decide) (by decide)⟩

end Mpir
end SecureDesign
