/-
# Multiplication of integers

`mpz_mul` of `mpz/mul.c`, for a library without an assembler `mpn_mul_2`.  An operand of one
limb and a small product with a destination of its own are done in place; otherwise the
destination gets a new block when its own is too small, and the operand that is also the
destination is copied.  Equal operands are squared.
-/

import SecureDesign.Mpir.Mul
import SecureDesign.Mpir.MpzAdd

namespace SecureDesign
namespace Mpir

open CLang

/-- `MUL_KARATSUBA_THRESHOLD`. -/
def mulKaratsubaThreshold : ℕ := 32

/-- A product of `n` limbs, one less when the top one is zero, with its sign. -/
def signedProduct (negative : Bool) (r : List UInt64) (n : ℕ) : List UInt64 × ℤ :=
  let wsize : ℤ := n - if r.getD (n - 1) 0 = 0 then 1 else 0
  (r, if negative then -wsize else wsize)

/-- `if (w->_mp_alloc < wsize)`: a new block, whose limbs are not those of the old one. -/
def freshAlloc (A : Allocator) (wm : MpzStruct) (wsize : ℕ) : MpzStruct :=
  if wm.alloc < wsize then { wm with alloc := intOf wsize, d := A.limbs wsize } else wm

/-- The last part of `mpz_mul`, after the operands are swapped.  `up` and `vp` are read from
the blocks before `w` is given a new one. -/
def mulGeneral (A : Allocator) (K : MulKernel) (s : Store) (w u v : ℕ) (negative : Bool) :
    Option Store := do
  let um ← s u
  let vm ← s v
  let up ← readLimbs um.d um.size.natAbs
  let vp ← readLimbs vm.d vm.size.natAbs
  let wsize := up.length + vp.length
  let s := Function.update s w (some (freshAlloc A (← s w) wsize))
  let r := if u = v then K.sqr up else K.mul up vp
  let x := signedProduct negative r wsize
  storeLimbs s w x.1 x.2

/-- `mpz_mul`. -/
def mpzMul (A : Allocator) (K : MulKernel) (s : Store) (w u v : ℕ) : Option Store := do
  let wm ← s w
  -- The sign of `usize ^ vsize`.
  let negative := decide ((← s u).size < 0) != decide ((← s v).size < 0)
  let usize := (← s u).size.natAbs
  let vsize := (← s v).size.natAbs
  if usize = 0 ∨ vsize = 0 then some (Function.update s w (some { wm with size := 0 }))
  else if vsize = 1 then
    let s := Function.update s w (some (ensureAlloc A wm (usize + 1)))
    let up ← readLimbs (← s u).d usize
    let vp ← readLimbs (← s v).d 1
    let x := mpnMul1 up (vp.getD 0 0)
    let usize : ℤ := usize + if x.2 ≠ 0 then 1 else 0
    storeLimbs s w (x.1 ++ [x.2]) (if negative then -usize else usize)
  else if usize + vsize ≤ mulKaratsubaThreshold ∧ w ≠ u ∧ w ≠ v then
    let s := Function.update s w (some (ensureAlloc A wm (usize + vsize)))
    let up ← readLimbs (← s u).d usize
    let vp ← readLimbs (← s v).d vsize
    let r := if vsize ≤ usize then mpnMulBasecase up vp else mpnMulBasecase vp up
    let x := signedProduct negative r (usize + vsize)
    storeLimbs s w x.1 x.2
  else if usize < vsize then mulGeneral A K s w v u negative
  else mulGeneral A K s w u v negative

/-! ### The limbs of the product -/

/-- A product with its top limb dropped when it is zero. -/
theorem signedProduct_holds {r : List UInt64} {n : ℕ} (hn : 0 < n) (hlen : r.length = n)
    (hlow : (2 ^ 64) ^ (n - 2) ≤ val r) (negative : Bool) :
    Holds n (signedProduct negative r n) (if negative then -(val r : ℤ) else val r) := by
  obtain ⟨hval, -⟩ := dropTop_spec hn hlen
  have hnormal := dropTop_normal hn hlen hlow
  have hcount : (n : ℤ) - (if r.getD (n - 1) 0 = 0 then 1 else 0)
      = ((n - (r.getD (n - 1) 0 == 0).toNat : ℕ) : ℤ) := by
    by_cases h0 : r.getD (n - 1) 0 = 0
    · rw [if_pos h0, beq_iff_eq.mpr h0, Bool.toNat_true]
      omega
    · rw [if_neg h0, beq_eq_false_iff_ne.mpr h0, Bool.toNat_false]
      omega
  unfold signedProduct
  rw [hcount]
  refine holds_of_take (negative = true) hlen.le (by omega) hnormal ?_
  rw [← hval]
  rfl

section

variable {A : Allocator} {K : MulKernel} {s : Store} {w u v : ℕ} {wm um vm : MpzStruct}

/-- The integers multiply as their limbs do, the sign apart. -/
theorem toInt_mul (um vm : MpzStruct) :
    um.toInt * vm.toInt
      = if decide (um.size < 0) != decide (vm.size < 0) then -((val um.limbs * val vm.limbs : ℕ) : ℤ)
        else (val um.limbs * val vm.limbs : ℕ) := by
  unfold MpzStruct.toInt ofLimbs
  by_cases hu : um.size < 0 <;> by_cases hv : vm.size < 0 <;> simp [hu, hv]

/-- A product of operands that are not zero is at least the weight of its next to last
limb. -/
theorem le_mul_limbs (hu : um.Valid) (hv : vm.Valid) (hu0 : um.size.natAbs ≠ 0)
    (hv0 : vm.size.natAbs ≠ 0) :
    um.limbs ≠ [] ∧ vm.limbs ≠ [] ∧
      (2 ^ 64) ^ (um.size.natAbs + vm.size.natAbs - 2) ≤ val um.limbs * val vm.limbs := by
  have hulen := hu.length_limbs
  have hvlen := hv.length_limbs
  have hune : um.limbs ≠ [] := List.length_pos_iff.mp (by omega)
  have hvne : vm.limbs ≠ [] := List.length_pos_iff.mp (by omega)
  refine ⟨hune, hvne, ?_⟩
  calc (2 ^ 64) ^ (um.size.natAbs + vm.size.natAbs - 2)
      = (2 ^ 64) ^ (um.limbs.length - 1) * (2 ^ 64) ^ (vm.limbs.length - 1) := by
        rw [← pow_add]
        congr 1
        omega
    _ ≤ val um.limbs * val vm.limbs := Nat.mul_le_mul (hu.normal.le_val hune) (hv.normal.le_val hvne)

theorem freshAlloc_spec (hwm : wm.Valid) {n : ℕ} (hn : 0 < n) (hfit : (n : ℤ) ≤ intMax) :
    MpzStruct.Valid { freshAlloc A wm n with size := 0 } ∧ n ≤ (freshAlloc A wm n).d.length := by
  have halloc := hwm.alloc_eq
  unfold freshAlloc
  by_cases h : wm.alloc < n
  · rw [if_pos h]
    refine ⟨?_, (A.length_limbs n).ge⟩
    constructor
    · rw [intOf_natCast hfit, A.length_limbs]
    · rwa [A.length_limbs]
    · rwa [A.length_limbs]
    · exact Nat.zero_le _
    · exact normal_nil
  · rw [if_neg h]
    refine ⟨?_, by omega⟩
    constructor
    · exact halloc
    · exact hwm.alloc_pos
    · exact hwm.alloc_le
    · exact Nat.zero_le _
    · exact normal_nil

/-- What the size was before does not matter to a result that is stored. -/
theorem storeLimbs_size (s : Store) (w : ℕ) (wm : MpzStruct) (n : ℤ) (r : List UInt64) (size : ℤ) :
    storeLimbs (Function.update s w (some wm)) w r size
      = storeLimbs (Function.update s w (some { wm with size := n })) w r size := by
  simp [storeLimbs]

/-- The part of one limb. -/
theorem mul1_holds (hu : um.Valid) (hv : vm.Valid) (hu0 : um.size.natAbs ≠ 0)
    (hv1 : vm.size.natAbs = 1) (negative : Bool) {x : List UInt64 × UInt64}
    (hx : x = mpnMul1 um.limbs (vm.limbs.getD 0 0)) {usize : ℤ}
    (husize : usize = um.size.natAbs + if x.2 ≠ 0 then 1 else 0) :
    Holds (um.size.natAbs + 1) (x.1 ++ [x.2], if negative then -usize else usize)
      (if negative then -((val um.limbs * val vm.limbs : ℕ) : ℤ)
        else (val um.limbs * val vm.limbs : ℕ)) := by
  have hulen := hu.length_limbs
  have hvlen := hv.length_limbs
  obtain ⟨a, ha⟩ := List.length_eq_one_iff.mp (hvlen.trans hv1)
  obtain ⟨-, -, hlow⟩ := le_mul_limbs hu hv hu0 (by omega)
  have hlen := mpnMul1_length um.limbs (vm.limbs.getD 0 0)
  have hmul := mpnMul1_eq um.limbs (vm.limbs.getD 0 0)
  rw [← hx] at hlen hmul
  have hval : val (x.1 ++ [x.2]) = val um.limbs * val vm.limbs := by
    rw [val_append, val_singleton, hlen, hmul, ha, val_singleton]
    rfl
  have hall : (x.1 ++ [x.2]).length = um.size.natAbs + 1 := by simp [hlen, hulen]
  have h := signedProduct_holds (Nat.succ_pos _) hall (by rw [hval]; rwa [hv1] at hlow)
    negative
  have htop : (x.1 ++ [x.2]).getD (um.size.natAbs + 1 - 1) 0 = x.2 := by
    rw [Nat.add_sub_cancel, ← hulen, ← hlen, List.getD_append_right _ _ _ _ le_rfl, Nat.sub_self]
    rfl
  rw [hval] at h
  convert h using 1
  unfold signedProduct
  rw [htop, husize]
  have hcount : ((um.size.natAbs : ℤ) + if x.2 ≠ 0 then 1 else 0)
      = ((um.size.natAbs + 1 : ℕ) : ℤ) - if x.2 = 0 then 1 else 0 := by
    by_cases h0 : x.2 = 0 <;> simp [h0]
  rw [hcount]

/-- The last part of `mpz_mul`. -/
theorem mulGeneral_assigns (hs : s.Valid) (hw : s w = some wm) (hu : s u = some um)
    (hv : s v = some vm) (hle : vm.size.natAbs ≤ um.size.natAbs) (hv0 : vm.size.natAbs ≠ 0)
    (hfit : (um.size.natAbs + vm.size.natAbs : ℤ) ≤ intMax) (negative : Bool) :
    Assigns s w (if negative then -((val um.limbs * val vm.limbs : ℕ) : ℤ)
        else (val um.limbs * val vm.limbs : ℕ)) (mulGeneral A K s w u v negative) := by
  have hum := hs u um hu
  have hvm := hs v vm hv
  have hulen := hum.length_limbs
  have hvlen := hvm.length_limbs
  obtain ⟨hune, hvne, hlow⟩ := le_mul_limbs hum hvm (by omega) hv0
  have hfit' : ((um.limbs.length + vm.limbs.length : ℕ) : ℤ) ≤ intMax := by
    rw [hulen, hvlen]
    exact_mod_cast hfit
  have hpos : 0 < um.limbs.length + vm.limbs.length := by omega
  obtain ⟨hwm', hroom⟩ := freshAlloc_spec (A := A) (hs w wm hw) hpos hfit'
  have hproduct : (if u = v then K.sqr um.limbs else K.mul um.limbs vm.limbs).length
        = um.limbs.length + vm.limbs.length ∧
      val (if u = v then K.sqr um.limbs else K.mul um.limbs vm.limbs)
        = val um.limbs * val vm.limbs := by
    by_cases huv : u = v
    · subst huv
      obtain rfl := Option.some.inj (hu.symm.trans hv)
      rw [if_pos rfl, K.length_sqr hune, Nat.two_mul]
      exact ⟨rfl, K.val_sqr hune⟩
    · rw [if_neg huv]
      exact ⟨K.length_mul hvne (by omega), K.val_mul hvne (by omega)⟩
  unfold mulGeneral
  simp only [hw, hu, hv, hum.read, hvm.read, Option.bind_eq_bind, Option.bind_some]
  generalize (if u = v then K.sqr um.limbs else K.mul um.limbs vm.limbs) = r at hproduct ⊢
  have h := signedProduct_holds hpos hproduct.1 (by rw [hproduct.2, hulen, hvlen]; exact hlow)
    negative
  rw [hproduct.2] at h
  rw [storeLimbs_size s w _ 0]
  exact h.assigns hwm' hroom hfit'

/-- **`mpz_mul` multiplies**, whichever of the three integers are the same. -/
theorem mpzMul_assigns (hs : s.Valid) (hw : s w = some wm) (hu : s u = some um)
    (hv : s v = some vm) (hfit : (um.size.natAbs + vm.size.natAbs : ℤ) ≤ intMax) :
    Assigns s w (um.toInt * vm.toInt) (mpzMul A K s w u v) := by
  have hum := hs u um hu
  have hvm := hs v vm hv
  have hulen := hum.length_limbs
  have hvlen := hvm.length_limbs
  rw [toInt_mul]
  unfold mpzMul
  simp only [hw, hu, hv, Option.bind_eq_bind, Option.bind_some]
  by_cases h0 : um.size.natAbs = 0 ∨ vm.size.natAbs = 0
  · have hzero : val um.limbs * val vm.limbs = 0 := by
      rcases h0 with h0 | h0
      · rw [List.length_eq_zero_iff.mp (hulen.trans h0), val_nil, Nat.zero_mul]
      · rw [List.length_eq_zero_iff.mp (hvlen.trans h0), val_nil, Nat.mul_zero]
    rw [if_pos h0, hzero]
    simp only [Nat.cast_zero, neg_zero, ite_self]
    exact assigns_zero hs hw
  · rw [not_or] at h0
    rw [if_neg (not_or.mpr h0)]
    by_cases h1 : vm.size.natAbs = 1
    · have hfit' : ((um.size.natAbs + 1 : ℕ) : ℤ) ≤ intMax := by omega
      obtain ⟨um', hu', hum', husize, hulimbs⟩ := grown_spec (A := A) hs hw hu hfit'
      obtain ⟨vm', hv', hvm', hvsize, hvlimbs⟩ := grown_spec (A := A) hs hw hv hfit'
      obtain ⟨hwm', hroom, -⟩ := ensureAlloc_spec (A := A) (hs w wm hw) hfit'
      have huread := hum'.read
      have hvread := hvm'.read
      rw [husize, hulimbs] at huread
      rw [hvsize, hvlimbs, h1] at hvread
      simp only [if_pos h1, hu', hv', huread, hvread, Option.bind_some]
      exact (mul1_holds hum hvm h0.1 h1 _ rfl rfl).assigns hwm' hroom hfit'
    · rw [if_neg h1]
      by_cases hsmall : um.size.natAbs + vm.size.natAbs ≤ mulKaratsubaThreshold ∧ w ≠ u ∧ w ≠ v
      · have hfit' : ((um.size.natAbs + vm.size.natAbs : ℕ) : ℤ) ≤ intMax := by exact_mod_cast hfit
        obtain ⟨um', hu', hum', husize, hulimbs⟩ := grown_spec (A := A) hs hw hu hfit'
        obtain ⟨vm', hv', hvm', hvsize, hvlimbs⟩ := grown_spec (A := A) hs hw hv hfit'
        obtain ⟨hwm', hroom, -⟩ := ensureAlloc_spec (A := A) (hs w wm hw) hfit'
        have huread := hum'.read
        have hvread := hvm'.read
        rw [husize, hulimbs] at huread
        rw [hvsize, hvlimbs] at hvread
        obtain ⟨hune, hvne, hlow⟩ := le_mul_limbs hum hvm h0.1 h0.2
        have hproduct : (if vm.size.natAbs ≤ um.size.natAbs then mpnMulBasecase um.limbs vm.limbs
              else mpnMulBasecase vm.limbs um.limbs).length
              = um.size.natAbs + vm.size.natAbs ∧
            val (if vm.size.natAbs ≤ um.size.natAbs then mpnMulBasecase um.limbs vm.limbs
              else mpnMulBasecase vm.limbs um.limbs) = val um.limbs * val vm.limbs := by
          have huv := mpnMulBasecase_spec hune hvne
          have hvu := mpnMulBasecase_spec hvne hune
          rw [hulen, hvlen] at huv hvu
          split_ifs
          · exact huv
          · rwa [Nat.add_comm um.size.natAbs, Nat.mul_comm (val um.limbs)]
        simp only [if_pos hsmall, hu', hv', huread, hvread, Option.bind_some]
        have h := signedProduct_holds (by omega) hproduct.1 (by rw [hproduct.2]; exact hlow)
          (decide (um.size < 0) != decide (vm.size < 0))
        rw [hproduct.2] at h
        exact h.assigns hwm' hroom hfit'
      · rw [if_neg hsmall]
        by_cases hlt : um.size.natAbs < vm.size.natAbs
        · rw [if_pos hlt, Nat.mul_comm]
          exact mulGeneral_assigns hs hw hv hu hlt.le h0.1 (by omega) _
        · rw [if_neg hlt]
          exact mulGeneral_assigns hs hw hu hv (by omega) h0.2 hfit _

end

/-- **Sum, difference and product are exact for every aliasing** of the three operands and
whatever the allocator hands out: the block always has room, `w` becomes a valid integer, and
no other integer of the store changes. -/
theorem mpzArithmetic_exact (A : Allocator) (K : MulKernel) {s : Store} {w u v : ℕ}
    {wm um vm : MpzStruct} (hs : s.Valid) (hw : s w = some wm) (hu : s u = some um)
    (hv : s v = some vm) (hsmall : (um.size.natAbs + vm.size.natAbs : ℤ) < intMax) :
    Assigns s w (um.toInt + vm.toInt) (mpzAdd A s w u v) ∧
      Assigns s w (um.toInt - vm.toInt) (mpzSub A s w u v) ∧
      Assigns s w (um.toInt * vm.toInt) (mpzMul A K s w u v) := by
  refine ⟨?_, ?_, ?_⟩
  · exact mpzAdd_assigns hs hw hu hv (by omega) (by omega)
  · exact mpzSub_assigns hs hw hu hv (by omega) (by omega)
  · exact mpzMul_assigns hs hw hu hv hsmall.le

/-- All operands in one variable. -/
theorem mpzArithmetic_exact_alias :
    Assigns (Function.update (fun _ => none) 0 (some (.pair true 5 7))) 0
        ((MpzStruct.pair true 5 7).toInt + (MpzStruct.pair true 5 7).toInt)
        (mpzAdd .zero (Function.update (fun _ => none) 0 (some (.pair true 5 7))) 0 0 0) ∧
      Assigns (Function.update (fun _ => none) 0 (some (.pair true 5 7))) 0
        ((MpzStruct.pair true 5 7).toInt - (MpzStruct.pair true 5 7).toInt)
        (mpzSub .zero (Function.update (fun _ => none) 0 (some (.pair true 5 7))) 0 0 0) ∧
      Assigns (Function.update (fun _ => none) 0 (some (.pair true 5 7))) 0
        ((MpzStruct.pair true 5 7).toInt * (MpzStruct.pair true 5 7).toInt)
        (mpzMul .zero .basecase (Function.update (fun _ => none) 0 (some (.pair true 5 7)))
          0 0 0) :=
  mpzArithmetic_exact .zero .basecase
    (Store.valid_empty.update (MpzStruct.pair_valid true 5 (by decide)))
    (Function.update_self ..) (Function.update_self ..) (Function.update_self ..) (by decide)

end Mpir
end SecureDesign
