/-
# Addition and subtraction of limb lists

`mpn_add_n` and `mpn_sub_n` as written in `mpn/generic`, the macros
`__GMPN_AORS`, `__GMPN_AORS_1` and `__GMPN_CMP` of `gmp-h.in` behind `mpn_add`,
`mpn_sub`, `mpn_add_1`, `mpn_sub_1` and `mpn_cmp`, and `MPN_NORMALIZE`.  A vector
`{up, n}` is the list of its `n` limbs, least significant first; the source and the
destination are the same or separate, so the list a function returns is what the
destination holds afterwards.

The two macros are shared by addition and subtraction, and so are their
specifications: the operation adds `σ` times its second operand, for `σ` one or
minus one, and the carry limb is worth `-σ` times the weight of the next limb
(`AddsSigned`).
-/

import Mathlib.Data.List.GetD
import Mathlib.Tactic.LinearCombination
import SecureDesign.CLang.Limbs

namespace SecureDesign
namespace Mpir

open CLang

/-- The loop of `mpn_add_n` with its carry. -/
def addNLoop (cy : UInt64) : List UInt64 → List UInt64 → List UInt64 × UInt64
  | ul :: up, vl :: vp =>
      let sl := ul + vl
      let cy1 := (decide (sl < ul)).toUInt64
      let rl := sl + cy
      let cy2 := (decide (rl < sl)).toUInt64
      let x := addNLoop (cy1 ||| cy2) up vp
      (rl :: x.1, x.2)
  | _, _ => ([], cy)

/-- `mpn_add_n`. -/
def mpnAddN (up vp : List UInt64) : List UInt64 × UInt64 := addNLoop 0 up vp

/-- The loop of `mpn_sub_n` with its borrow. -/
def subNLoop (cy : UInt64) : List UInt64 → List UInt64 → List UInt64 × UInt64
  | ul :: up, vl :: vp =>
      let sl := ul - vl
      let cy1 := (decide (ul < sl)).toUInt64
      let rl := sl - cy
      let cy2 := (decide (sl < rl)).toUInt64
      let x := subNLoop (cy1 ||| cy2) up vp
      (rl :: x.1, x.2)
  | _, _ => ([], cy)

/-- `mpn_sub_n`. -/
def mpnSubN (up vp : List UInt64) : List UInt64 × UInt64 := subNLoop 0 up vp

/-- The carry loop of `__GMPN_AORS` over the limbs above the shorter operand.  It runs
while `test x r` holds of a limb and its successor, and what is left is copied. -/
def aorsRest (step : UInt64 → UInt64) (test : UInt64 → UInt64 → Bool) :
    List UInt64 → List UInt64 × UInt64
  | [] => ([], 1)
  | x :: xp =>
      if test x (step x) then (step x :: (aorsRest step test xp).1, (aorsRest step test xp).2)
      else (step x :: xp, 0)

/-- `__GMPN_AORS (cout, wp, xp, xsize, yp, ysize, FUNCTION, TEST)`. -/
def gmpnAors (function : List UInt64 → List UInt64 → List UInt64 × UInt64)
    (step : UInt64 → UInt64) (test : UInt64 → UInt64 → Bool) (xp yp : List UInt64) :
    List UInt64 × UInt64 :=
  if yp.length ≠ 0 then
    let x := function (xp.take yp.length) yp
    if x.2 ≠ 0 then
      let r := aorsRest step test (xp.drop yp.length)
      (x.1 ++ r.1, r.2)
    else (x.1 ++ xp.drop yp.length, 0)
  else (xp, 0)

/-- `mpn_add`. -/
def mpnAdd (xp yp : List UInt64) : List UInt64 × UInt64 :=
  gmpnAors mpnAddN (· + 1) (fun _ r => r == 0) xp yp

/-- `mpn_sub`. -/
def mpnSub (xp yp : List UInt64) : List UInt64 × UInt64 :=
  gmpnAors mpnSubN (· - 1) (fun x _ => x == 0) xp yp

/-- The loop of `__GMPN_AORS_1` after its first limb. -/
def aors1Rest (op : UInt64 → UInt64 → UInt64) (cb : UInt64 → UInt64 → UInt64 → Bool) :
    List UInt64 → List UInt64 × UInt64
  | [] => ([], 1)
  | x :: src =>
      if cb (op x 1) x 1 then (op x 1 :: (aors1Rest op cb src).1, (aors1Rest op cb src).2)
      else (op x 1 :: src, 0)

/-- `__GMPN_AORS_1 (cout, dst, src, n, v, OP, CB)`, for `n` at least one. -/
def gmpnAors1 (op : UInt64 → UInt64 → UInt64) (cb : UInt64 → UInt64 → UInt64 → Bool)
    (v : UInt64) : List UInt64 → List UInt64 × UInt64
  | [] => ([], 0)
  | x :: src =>
      if cb (op x v) x v then (op x v :: (aors1Rest op cb src).1, (aors1Rest op cb src).2)
      else (op x v :: src, 0)

/-- `mpn_add_1`. -/
def mpnAdd1 (src : List UInt64) (v : UInt64) : List UInt64 × UInt64 :=
  gmpnAors1 (· + ·) (fun r _ y => r < y) v src

/-- `mpn_sub_1`. -/
def mpnSub1 (src : List UInt64) (v : UInt64) : List UInt64 × UInt64 :=
  gmpnAors1 (· - ·) (fun _ x y => x < y) v src

/-- The loop of `__GMPN_CMP`, from the top limb down. -/
def cmpLoop : List UInt64 → List UInt64 → ℤ
  | x :: xp, y :: yp => if x ≠ y then (if x > y then 1 else -1) else cmpLoop xp yp
  | _, _ => 0

/-- `mpn_cmp`. -/
def mpnCmp (xp yp : List UInt64) : ℤ := cmpLoop xp.reverse yp.reverse

/-- `MPN_NORMALIZE (DST, NLIMBS)`: the limbs left when zero limbs go from the top. -/
def mpnNormalize (dst : List UInt64) : ℕ → ℕ
  | 0 => 0
  | n + 1 => if dst.getD n 0 ≠ 0 then n + 1 else mpnNormalize dst n

/-- `n -= t[n - 1] == 0`: `n` limbs of `t`, one less when the top one is zero. -/
def dropTop (t : List UInt64) (n : ℕ) : List UInt64 :=
  t.take (n - (t.getD (n - 1) 0 == 0).toNat)

/-! ### Specifications -/

/-- `r` is the sum of `x` and `σ * y` at `n` limbs, and its carry limb is zero or one. -/
structure AddsSigned (σ : ℤ) (n : ℕ) (r : List UInt64 × UInt64) (x y : ℕ) : Prop where
  length : r.1.length = n
  carry_le : r.2.toNat ≤ 1
  val : (val r.1 : ℤ) = x + σ * (y - (2 ^ 64) ^ n * r.2.toNat)

/-- The carry out of one limb of `mpn_add_n`: of its two comparisons at most one holds. -/
theorem addN_step (ul vl cy : UInt64) (hcy : cy.toNat ≤ 1) :
    (ul + vl + cy).toNat
        + 2 ^ 64 * (decide (ul + vl < ul) || decide (ul + vl + cy < ul + vl)).toNat
      = ul.toNat + vl.toNat + cy.toNat := by
  have h₁ := toNat_add_carry ul vl
  have h₂ := toNat_add_carry (ul + vl) cy
  have hul := ul.toNat_lt
  have hvl := vl.toNat_lt
  generalize decide (ul + vl < ul) = cy1 at h₁ ⊢
  generalize decide (ul + vl + cy < ul + vl) = cy2 at h₂ ⊢
  cases cy1 <;> cases cy2 <;>
    simp only [Bool.toNat_false, Bool.toNat_true, Bool.or_false, Bool.or_true] at h₁ h₂ ⊢ <;> omega

/-- The borrow out of one limb of `mpn_sub_n`. -/
theorem subN_step (ul vl cy : UInt64) (hcy : cy.toNat ≤ 1) :
    (ul - vl - cy).toNat + vl.toNat + cy.toNat
      = ul.toNat + 2 ^ 64 * (decide (ul < ul - vl) || decide (ul - vl < ul - vl - cy)).toNat := by
  have h₁ := toNat_sub_carry ul vl
  have h₂ := toNat_sub_carry (ul - vl) cy
  have hul := ul.toNat_lt
  have hvl := vl.toNat_lt
  have hrl := (ul - vl - cy).toNat_lt
  generalize decide (ul < ul - vl) = cy1 at h₁ ⊢
  generalize decide (ul - vl < ul - vl - cy) = cy2 at h₂ ⊢
  cases cy1 <;> cases cy2 <;>
    simp only [Bool.toNat_false, Bool.toNat_true, Bool.or_false, Bool.or_true] at h₁ h₂ ⊢ <;> omega

/-- The loop of `mpn_add_n` adds. -/
theorem addNLoop_eq {up vp : List UInt64} (hlen : up.length = vp.length) (cy : UInt64)
    (hcy : cy.toNat ≤ 1) :
    AddsSigned 1 up.length (addNLoop cy up vp) (val up) (val vp + cy.toNat) := by
  induction up generalizing vp cy with
  | nil =>
      obtain rfl : vp = [] := List.length_eq_zero_iff.mp hlen.symm
      refine ⟨rfl, hcy, ?_⟩
      simp [addNLoop]
  | cons ul up ih =>
      obtain ⟨vl, vp, rfl⟩ := List.exists_cons_of_length_eq_add_one hlen.symm
      have hstep := addN_step ul vl cy hcy
      rw [addNLoop, toUInt64_or]
      generalize (decide (ul + vl < ul) || decide (ul + vl + cy < ul + vl)) = c at hstep ⊢
      have hrest := ih (by simpa using hlen) c.toUInt64
        (by rw [toNat_toUInt64]; exact Bool.toNat_le c)
      have hval := hrest.val
      have hstep' : ((ul + vl + cy).toNat : ℤ) + 2 ^ 64 * c.toNat
          = ul.toNat + vl.toNat + cy.toNat := by exact_mod_cast hstep
      refine ⟨by simp [hrest.length], hrest.carry_le, ?_⟩
      simp only [toNat_toUInt64, val_cons, List.length_cons] at hval ⊢
      push_cast at hval ⊢
      rw [hval]
      linear_combination hstep'

/-- The loop of `mpn_sub_n` subtracts. -/
theorem subNLoop_eq {up vp : List UInt64} (hlen : up.length = vp.length) (cy : UInt64)
    (hcy : cy.toNat ≤ 1) :
    AddsSigned (-1) up.length (subNLoop cy up vp) (val up) (val vp + cy.toNat) := by
  induction up generalizing vp cy with
  | nil =>
      obtain rfl : vp = [] := List.length_eq_zero_iff.mp hlen.symm
      refine ⟨rfl, hcy, ?_⟩
      simp [subNLoop]
  | cons ul up ih =>
      obtain ⟨vl, vp, rfl⟩ := List.exists_cons_of_length_eq_add_one hlen.symm
      have hstep := subN_step ul vl cy hcy
      rw [subNLoop, toUInt64_or]
      generalize (decide (ul < ul - vl) || decide (ul - vl < ul - vl - cy)) = c at hstep ⊢
      have hrest := ih (by simpa using hlen) c.toUInt64
        (by rw [toNat_toUInt64]; exact Bool.toNat_le c)
      have hval := hrest.val
      have hstep' : ((ul - vl - cy).toNat : ℤ) + vl.toNat + cy.toNat
          = ul.toNat + 2 ^ 64 * c.toNat := by exact_mod_cast hstep
      refine ⟨by simp [hrest.length], hrest.carry_le, ?_⟩
      simp only [toNat_toUInt64, val_cons, List.length_cons] at hval ⊢
      push_cast at hval ⊢
      rw [hval]
      linear_combination hstep'

theorem mpnAddN_eq {up vp : List UInt64} (hlen : up.length = vp.length) :
    AddsSigned 1 up.length (mpnAddN up vp) (val up) (val vp) :=
  addNLoop_eq hlen 0 (Nat.zero_le 1)

theorem mpnSubN_eq {up vp : List UInt64} (hlen : up.length = vp.length) :
    AddsSigned (-1) up.length (mpnSubN up vp) (val up) (val vp) :=
  subNLoop_eq hlen 0 (Nat.zero_le 1)

section

variable {σ : ℤ} {step : UInt64 → UInt64} {test : UInt64 → UInt64 → Bool}

/-- The carry loop of `__GMPN_AORS` adds `σ`. -/
theorem aorsRest_eq
    (hstep : ∀ x, ((step x).toNat : ℤ) = x.toNat + σ * (1 - 2 ^ 64 * (test x (step x)).toNat))
    (xp : List UInt64) : AddsSigned σ xp.length (aorsRest step test xp) (val xp) 1 := by
  induction xp with
  | nil =>
      refine ⟨rfl, le_rfl, ?_⟩
      simp [aorsRest]
  | cons x xp ih =>
      have hx := hstep x
      rw [aorsRest]
      by_cases h : test x (step x) = true
      · rw [if_pos h]
        rw [h, Bool.toNat_true] at hx
        have hval := ih.val
        refine ⟨by simp [ih.length], ih.carry_le, ?_⟩
        simp only [val_cons, List.length_cons]
        push_cast at hval hx ⊢
        rw [hval, hx]
        ring
      · rw [if_neg h]
        rw [Bool.not_eq_true] at h
        rw [h, Bool.toNat_false] at hx
        refine ⟨by simp, Nat.zero_le 1, ?_⟩
        simp only [val_cons, UInt64.toNat_zero]
        push_cast at hx ⊢
        rw [hx]
        ring

/-- **`__GMPN_AORS` extends an operation on vectors of one size** to a second operand
that is shorter than the first. -/
theorem gmpnAors_eq {function : List UInt64 → List UInt64 → List UInt64 × UInt64}
    (hfun : ∀ {up vp : List UInt64}, up.length = vp.length →
      AddsSigned σ up.length (function up vp) (val up) (val vp))
    (hstep : ∀ x, ((step x).toNat : ℤ) = x.toNat + σ * (1 - 2 ^ 64 * (test x (step x)).toNat))
    {xp yp : List UInt64} (hle : yp.length ≤ xp.length) :
    AddsSigned σ xp.length (gmpnAors function step test xp yp) (val xp) (val yp) := by
  have hsplit : (val xp : ℤ) = val (xp.take yp.length)
      + (2 ^ 64) ^ yp.length * val (xp.drop yp.length) := by
    have h := val_take_add_drop xp yp.length
    rw [List.length_take, Nat.min_eq_left hle] at h
    exact_mod_cast h.symm
  have hpow : ((2 : ℤ) ^ 64) ^ xp.length
      = (2 ^ 64) ^ yp.length * (2 ^ 64) ^ (xp.length - yp.length) := by
    rw [← pow_add, Nat.add_sub_cancel' hle]
  have htake : (xp.take yp.length).length = yp.length := by
    rw [List.length_take, Nat.min_eq_left hle]
  rw [gmpnAors]
  by_cases hy : yp.length ≠ 0
  · rw [if_pos hy]
    have hlow := hfun htake
    rw [htake] at hlow
    generalize function (xp.take yp.length) yp = x at hlow ⊢
    have hlowval := hlow.val
    by_cases hcy : x.2 ≠ 0
    · have hone : x.2.toNat = 1 := by
        have := toNat_ne_zero hcy
        have := hlow.carry_le
        omega
      have hrest := aorsRest_eq hstep (xp.drop yp.length)
      have hrestval := hrest.val
      rw [List.length_drop] at hrestval
      rw [if_pos hcy]
      refine ⟨?_, hrest.carry_le, ?_⟩
      · rw [List.length_append, hlow.length, hrest.length, List.length_drop]
        omega
      · rw [hone] at hlowval
        simp only [val_append, hlow.length]
        push_cast at hlowval hrestval ⊢
        linear_combination hlowval + (2 ^ 64) ^ yp.length * hrestval - hsplit
          + σ * (aorsRest step test (xp.drop yp.length)).2.toNat * hpow
    · have hzero : x.2.toNat = 0 := by
        rw [not_not.mp hcy]
        rfl
      rw [if_neg hcy]
      refine ⟨?_, Nat.zero_le 1, ?_⟩
      · rw [List.length_append, hlow.length, List.length_drop]
        omega
      · rw [hzero] at hlowval
        simp only [val_append, hlow.length, UInt64.toNat_zero]
        push_cast at hlowval ⊢
        linear_combination hlowval - hsplit
  · obtain rfl : yp = [] := List.length_eq_zero_iff.mp (not_not.mp hy)
    rw [if_neg hy]
    refine ⟨rfl, Nat.zero_le 1, ?_⟩
    simp

end

theorem mpnAdd_eq {xp yp : List UInt64} (hle : yp.length ≤ xp.length) :
    AddsSigned 1 xp.length (mpnAdd xp yp) (val xp) (val yp) := by
  refine gmpnAors_eq mpnAddN_eq (fun x => ?_) hle
  have hx := x.toNat_lt
  have hone : (x + 1).toNat = (x.toNat + 1) % 2 ^ 64 := UInt64.toNat_add x 1
  by_cases h : x + 1 = 0
  · rw [h, UInt64.toNat_zero] at hone
    simp only [h, beq_self_eq_true, Bool.toNat_true, UInt64.toNat_zero]
    omega
  · have hpos := toNat_ne_zero h
    have hb : (x + 1 == 0) = false := by simpa using h
    simp only [hb, Bool.toNat_false]
    omega

theorem mpnSub_eq {xp yp : List UInt64} (hle : yp.length ≤ xp.length) :
    AddsSigned (-1) xp.length (mpnSub xp yp) (val xp) (val yp) := by
  refine gmpnAors_eq mpnSubN_eq (fun x => ?_) hle
  have hx := x.toNat_lt
  have hone : (x - 1).toNat = (2 ^ 64 - 1 + x.toNat) % 2 ^ 64 := UInt64.toNat_sub x 1
  by_cases h : x = 0
  · subst h
    decide
  · have hpos := toNat_ne_zero h
    have hb : (x == 0) = false := by simpa using h
    simp only [hb, Bool.toNat_false]
    omega

section

variable {σ : ℤ} {op : UInt64 → UInt64 → UInt64} {cb : UInt64 → UInt64 → UInt64 → Bool}

/-- The loop of `__GMPN_AORS_1` adds `σ`. -/
theorem aors1Rest_eq
    (hop : ∀ x v, ((op x v).toNat : ℤ) = x.toNat + σ * (v.toNat - 2 ^ 64 * (cb (op x v) x v).toNat))
    (src : List UInt64) : AddsSigned σ src.length (aors1Rest op cb src) (val src) 1 := by
  induction src with
  | nil =>
      refine ⟨rfl, le_rfl, ?_⟩
      simp [aors1Rest]
  | cons x src ih =>
      have hx := hop x 1
      have hval := ih.val
      rw [aors1Rest]
      by_cases h : cb (op x 1) x 1 = true
      · rw [if_pos h]
        rw [h, Bool.toNat_true, UInt64.toNat_one] at hx
        refine ⟨by simp [ih.length], ih.carry_le, ?_⟩
        simp only [val_cons, List.length_cons]
        push_cast at hval hx ⊢
        linear_combination hx + 2 ^ 64 * hval
      · rw [if_neg h]
        rw [Bool.not_eq_true] at h
        rw [h, Bool.toNat_false, UInt64.toNat_one] at hx
        refine ⟨by simp, Nat.zero_le 1, ?_⟩
        simp only [val_cons, UInt64.toNat_zero]
        push_cast at hx ⊢
        linear_combination hx

/-- `__GMPN_AORS_1` adds `σ` times its limb operand. -/
theorem gmpnAors1_eq
    (hop : ∀ x v, ((op x v).toNat : ℤ) = x.toNat + σ * (v.toNat - 2 ^ 64 * (cb (op x v) x v).toNat))
    (v : UInt64) {src : List UInt64} (hne : src ≠ []) :
    AddsSigned σ src.length (gmpnAors1 op cb v src) (val src) v.toNat := by
  cases src with
  | nil => exact absurd rfl hne
  | cons x src =>
      have hx := hop x v
      have hrest := aors1Rest_eq hop src
      have hval := hrest.val
      rw [gmpnAors1]
      by_cases h : cb (op x v) x v = true
      · rw [if_pos h]
        rw [h, Bool.toNat_true] at hx
        refine ⟨by simp [hrest.length], hrest.carry_le, ?_⟩
        simp only [val_cons, List.length_cons]
        push_cast at hval hx ⊢
        linear_combination hx + 2 ^ 64 * hval
      · rw [if_neg h]
        rw [Bool.not_eq_true] at h
        rw [h, Bool.toNat_false] at hx
        refine ⟨by simp, Nat.zero_le 1, ?_⟩
        simp only [val_cons, UInt64.toNat_zero]
        push_cast at hx ⊢
        linear_combination hx

end

theorem mpnAdd1_eq (v : UInt64) {src : List UInt64} (hne : src ≠ []) :
    AddsSigned 1 src.length (mpnAdd1 src v) (val src) v.toNat := by
  refine gmpnAors1_eq (fun x v => ?_) v hne
  have h := toNat_add_carry v x
  rw [UInt64.add_comm v x] at h
  have h' : ((x + v).toNat : ℤ) + 2 ^ 64 * (decide (x + v < v)).toNat = v.toNat + x.toNat := by
    exact_mod_cast h
  linear_combination h'

theorem mpnSub1_eq (v : UInt64) {src : List UInt64} (hne : src ≠ []) :
    AddsSigned (-1) src.length (mpnSub1 src v) (val src) v.toNat := by
  refine gmpnAors1_eq (fun x v => ?_) v hne
  have h : ((x - v).toNat : ℤ) + v.toNat = x.toNat + 2 ^ 64 * (decide (x < v)).toNat := by
    exact_mod_cast toNat_sub_borrow x v
  linear_combination h

/-! ### Comparison and normalisation -/

/-- The limbs above decide: two values of one length compare as their top limbs do,
and where these are equal as what is below. -/
theorem val_append_lt {l m : List UInt64} (hlen : l.length = m.length) {x y : UInt64}
    (h : x < y) : val (l ++ [x]) < val (m ++ [y]) := by
  have hl := val_lt l
  rw [UInt64.lt_iff_toNat_lt] at h
  rw [val_append, val_append, val_singleton, val_singleton, ← hlen]
  calc val l + (2 ^ 64) ^ l.length * x.toNat
      < (2 ^ 64) ^ l.length + (2 ^ 64) ^ l.length * x.toNat := by omega
    _ = (2 ^ 64) ^ l.length * (x.toNat + 1) := by ring
    _ ≤ (2 ^ 64) ^ l.length * y.toNat := Nat.mul_le_mul_left _ h
    _ ≤ val m + (2 ^ 64) ^ l.length * y.toNat := Nat.le_add_left _ _

/-- **`mpn_cmp` compares the values.** -/
theorem mpnCmp_eq {xp yp : List UInt64} (hlen : xp.length = yp.length) :
    mpnCmp xp yp = if val xp < val yp then -1 else if val xp = val yp then 0 else 1 := by
  rw [mpnCmp]
  induction xp using List.reverseRecOn generalizing yp with
  | nil =>
      obtain rfl : yp = [] := List.length_eq_zero_iff.mp hlen.symm
      simp [cmpLoop]
  | append_singleton xp x ih =>
      obtain ⟨yp, y, rfl⟩ := List.eq_nil_or_concat yp |>.resolve_left (by
        rintro rfl
        simp at hlen)
      rw [List.concat_eq_append] at hlen ⊢
      have hlen' : xp.length = yp.length := by simpa using hlen
      rw [List.reverse_append, List.reverse_append, List.reverse_singleton,
        List.reverse_singleton, List.singleton_append, List.singleton_append, cmpLoop]
      by_cases hxy : x = y
      · rw [if_neg (not_not.mpr hxy), ih hlen', hxy, val_append, val_append, hlen']
        simp only [Nat.add_lt_add_iff_right, Nat.add_right_cancel_iff]
      · rw [if_pos hxy]
        rcases UInt64.lt_or_lt_of_ne hxy with h | h
        · rw [if_neg (UInt64.lt_asymm h), if_pos (val_append_lt hlen' h)]
        · have hlt := val_append_lt hlen'.symm h
          rw [if_pos h, if_neg hlt.le.not_gt, if_neg hlt.ne']

/-- **`MPN_NORMALIZE` drops the zero limbs on top and keeps the value.** -/
theorem mpnNormalize_spec (dst : List UInt64) {n : ℕ} (hn : n ≤ dst.length) :
    mpnNormalize dst n ≤ n ∧ Normalized (dst.take (mpnNormalize dst n)) ∧
      val (dst.take (mpnNormalize dst n)) = val (dst.take n) := by
  induction n with
  | zero =>
      rw [mpnNormalize, List.take_zero]
      exact ⟨le_rfl, normal_nil, rfl⟩
  | succ n ih =>
      obtain ⟨hle, hnormal, hval⟩ := ih (by omega)
      have htake : dst.take (n + 1) = dst.take n ++ [dst.getD n 0] := by
        rw [List.take_add_one, List.getD_eq_getElem?_getD, List.getElem?_eq_getElem (by omega)]
        rfl
      rw [mpnNormalize]
      by_cases h : dst.getD n 0 ≠ 0
      · rw [if_pos h, htake]
        exact ⟨le_rfl, normal_append_singleton.mpr h, rfl⟩
      · rw [if_neg h]
        refine ⟨by omega, hnormal, ?_⟩
        rw [hval, htake, not_not.mp h]
        exact (val_append_zeros (dst.take n) 1).symm

/-- **Dropping a zero limb from the top** keeps the value.  What is left is a full list
with a nonzero top limb, or one limb shorter. -/
theorem dropTop_spec {t : List UInt64} {n : ℕ} (hn : 0 < n) (hlen : t.length = n) :
    val (dropTop t n) = val t ∧
      ((dropTop t n).length = n ∧ (2 ^ 64) ^ (n - 1) ≤ val t ∨ (dropTop t n).length = n - 1) := by
  obtain ⟨l, a, rfl⟩ := List.eq_nil_or_concat t |>.resolve_left (by
    rintro rfl
    exact hn.ne hlen)
  rw [List.concat_eq_append] at hlen ⊢
  have hl : l.length = n - 1 := by
    rw [List.length_append, List.length_singleton] at hlen
    omega
  have htop : (l ++ [a]).getD (n - 1) 0 = a := by
    rw [List.getD_append_right _ _ _ _ (by omega), hl, Nat.sub_self]
    rfl
  rw [dropTop, htop]
  by_cases ha : a = 0
  · have hb : (a == 0) = true := by simpa using ha
    rw [hb, Bool.toNat_true, ← hl, List.take_left, ha]
    exact ⟨(val_append_zeros l 1).symm, Or.inr rfl⟩
  · have hb : (a == 0) = false := by simpa using ha
    have hnormal := normal_append_singleton (l := l).mpr ha
    rw [hb, Bool.toNat_false, Nat.sub_zero, List.take_of_length_le hlen.le]
    refine ⟨rfl, Or.inl ⟨hlen, ?_⟩⟩
    have h := hnormal.le_val (by simp)
    rwa [hlen] at h

/-- A list of values at least the weight of its next to last limb is normal after
`dropTop`. -/
theorem dropTop_normal {t : List UInt64} {n : ℕ} (hn : 0 < n) (hlen : t.length = n)
    (h : (2 ^ 64) ^ (n - 2) ≤ val t) : Normalized (dropTop t n) := by
  obtain ⟨hval, hcase⟩ := dropTop_spec hn hlen
  refine normal_of_le_val ?_
  rw [hval]
  rcases hcase with ⟨hl, hle⟩ | hl
  · rwa [hl]
  · rwa [hl, show n - 1 - 1 = n - 2 by omega]

/-- **`mpn_sub` undoes `mpn_add`**: subtracting the shorter number from the sum gives the
longer one back, and the borrow is the carry of the sum. -/
theorem mpnSub_mpnAdd {xp yp : List UInt64} (hle : yp.length ≤ xp.length) :
    mpnSub (mpnAdd xp yp).1 yp = (xp, (mpnAdd xp yp).2) := by
  have hadd := mpnAdd_eq hle
  have hsub := mpnSub_eq (hadd.length.symm ▸ hle : yp.length ≤ (mpnAdd xp yp).1.length)
  generalize mpnAdd xp yp = x at hadd hsub ⊢
  generalize mpnSub x.1 yp = y at hsub ⊢
  have hval := hsub.val
  rw [hadd.val, hadd.length] at hval
  have hlen : y.1.length = xp.length := hsub.length.trans hadd.length
  have hx : (val xp : ℤ) < (2 ^ 64) ^ xp.length := by exact_mod_cast val_lt xp
  have hy : (val y.1 : ℤ) < (2 ^ 64) ^ xp.length := by exact_mod_cast hlen ▸ val_lt y.1
  have hxc := hadd.carry_le
  have hyc := hsub.carry_le
  generalize ((2 : ℤ) ^ 64) ^ xp.length = B at hval hx hy
  have hcarry : y.2.toNat = x.2.toNat := by
    rcases Nat.le_one_iff_eq_zero_or_eq_one.mp hxc with h₁ | h₁ <;>
      rcases Nat.le_one_iff_eq_zero_or_eq_one.mp hyc with h₂ | h₂ <;>
      simp only [h₁, h₂, Nat.cast_zero, Nat.cast_one, mul_zero, mul_one] at hval <;> omega
  refine Prod.ext (eq_of_val_eq hlen ?_) (UInt64.toNat.inj hcarry)
  rw [hcarry] at hval
  have hsame : (val y.1 : ℤ) = val xp := by linarith
  exact_mod_cast hsame

/-- A sum with a carry out of its two limbs. -/
theorem mpnSub_mpnAdd_carry :
    [3].length ≤ [-1, -1].length ∧
      mpnSub (mpnAdd [-1, -1] [3]).1 [3] = ([-1, -1], (mpnAdd [-1, -1] [3]).2) :=
  ⟨by decide, mpnSub_mpnAdd (by decide)⟩

end Mpir
end SecureDesign
