/-
# Addition and subtraction of integers

`mpz_add` and `mpz_sub`, which are one body (`mpz/aors.h`) with and without a change of
sign.  The operand with more limbs comes first; the sizes decide whether the limbs are
added or subtracted, and which of them is subtracted.  The destination may be one of the
operands, or both, so their limbs are looked up after the destination has grown.
-/

import SecureDesign.Mpir.Mpz

namespace SecureDesign
namespace Mpir

open CLang

/-- What the body of `aors.h` writes to `wp`, and the new size, for operands of the sizes
`usize` and `vsize` with the limbs `up` and `vp`, of which `up` are not fewer. -/
def aorsLimbs (usize vsize : ℤ) (up vp : List UInt64) : List UInt64 × ℤ :=
  if decide (usize < 0) ≠ decide (vsize < 0) then
    if up.length ≠ vp.length then
      let wp := (mpnSub up vp).1
      let wsize : ℤ := mpnNormalize wp up.length
      (wp, if usize < 0 then -wsize else wsize)
    else if mpnCmp up vp < 0 then
      let wp := (mpnSubN vp up).1
      let wsize : ℤ := mpnNormalize wp up.length
      (wp, if usize ≥ 0 then -wsize else wsize)
    else
      let wp := (mpnSubN up vp).1
      let wsize : ℤ := mpnNormalize wp up.length
      (wp, if usize < 0 then -wsize else wsize)
  else
    let x := mpnAdd up vp
    let wsize : ℤ := up.length + x.2.toNat
    (x.1 ++ [x.2], if usize < 0 then -wsize else wsize)

/-- The body of `aors.h` after the swap. -/
def aorsSwapped (A : Allocator) (s : Store) (w u v : ℕ) (usize vsize : ℤ) : Option Store := do
  let absUsize := usize.natAbs
  let absVsize := vsize.natAbs
  let s := Function.update s w (some (ensureAlloc A (← s w) (absUsize + 1)))
  let up ← readLimbs (← s u).d absUsize
  let vp ← readLimbs (← s v).d absVsize
  let x := aorsLimbs usize vsize up vp
  storeLimbs s w x.1 x.2

/-- The body of `aors.h`, for the sizes after `VARIATION`. -/
def aors (A : Allocator) (s : Store) (w u v : ℕ) (usize vsize : ℤ) : Option Store :=
  if usize.natAbs < vsize.natAbs then aorsSwapped A s w v u vsize usize
  else aorsSwapped A s w u v usize vsize

/-- `mpz_add`. -/
def mpzAdd (A : Allocator) (s : Store) (w u v : ℕ) : Option Store := do
  aors A s w u v (← s u).size (← s v).size

/-- `mpz_sub`. -/
def mpzSub (A : Allocator) (s : Store) (w u v : ℕ) : Option Store := do
  aors A s w u v (← s u).size (-(← s v).size)

/-! ### The limbs of the result -/

/-- A difference that is not negative, its zero limbs dropped. -/
theorem normalized_sub {x : List UInt64 × UInt64} {up vp : List UInt64}
    (h : AddsSigned (-1) up.length x (val up) (val vp)) (hle : val vp ≤ val up) :
    x.1.length = up.length ∧ mpnNormalize x.1 up.length ≤ x.1.length ∧
      Normalized (x.1.take (mpnNormalize x.1 up.length)) ∧
      (val (x.1.take (mpnNormalize x.1 up.length)) : ℤ) = val up - val vp := by
  have hlen := h.length
  have hcarry := h.carry_le
  have hsub := h.val
  obtain ⟨hn, hnormal, hval⟩ := mpnNormalize_spec x.1 hlen.ge
  have hr : (val x.1 : ℤ) < (2 ^ 64) ^ up.length := by
    have := val_lt x.1
    rw [hlen] at this
    exact_mod_cast this
  refine ⟨hlen, by omega, hnormal, ?_⟩
  rw [hval, ← hlen, List.take_length]
  rcases Nat.le_one_iff_eq_zero_or_eq_one.mp hcarry with h0 | h1
  · rw [h0, Nat.cast_zero, mul_zero] at hsub
    linarith
  · rw [h1, Nat.cast_one, mul_one] at hsub
    linarith

/-- A sum with its carry limb, this limb dropped when it is zero. -/
theorem carried_add {x : List UInt64 × UInt64} {up vp : List UInt64}
    (h : AddsSigned 1 up.length x (val up) (val vp)) (hnormal : Normalized up) :
    up.length + x.2.toNat ≤ (x.1 ++ [x.2]).length ∧
      Normalized ((x.1 ++ [x.2]).take (up.length + x.2.toNat)) ∧
      (val ((x.1 ++ [x.2]).take (up.length + x.2.toNat)) : ℤ) = val up + val vp := by
  have hlen := h.length
  have hcarry := h.carry_le
  have hadd := h.val
  have hall : (x.1 ++ [x.2]).length = up.length + 1 := by simp [hlen]
  rcases Nat.le_one_iff_eq_zero_or_eq_one.mp hcarry with h0 | h1
  · have htake : (x.1 ++ [x.2]).take (up.length + x.2.toNat) = x.1 := by
      rw [h0, Nat.add_zero, ← hlen, List.take_left]
    rw [h0, Nat.cast_zero, mul_zero, sub_zero, one_mul] at hadd
    rw [htake]
    refine ⟨by omega, ?_, hadd⟩
    by_cases hne : up = []
    · subst hne
      rw [List.length_eq_zero_iff.mp hlen]
      exact normal_nil
    · have hlow := hnormal.le_val hne
      refine normal_of_le_val ?_
      rw [hlen]
      omega
  · have htake : (x.1 ++ [x.2]).take (up.length + x.2.toNat) = x.1 ++ [x.2] := by
      rw [h1, ← hall, List.take_length]
    have hne : x.2 ≠ 0 := by
      intro hzero
      rw [hzero, UInt64.toNat_zero] at h1
      exact absurd h1 (by norm_num)
    rw [htake]
    refine ⟨by omega, normal_append_singleton.mpr hne, ?_⟩
    rw [h1, Nat.cast_one, mul_one] at hadd
    rw [val_append, val_singleton, hlen, h1]
    push_cast at hadd ⊢
    linarith

/-- A result with its size: the limbs that are written hold the number of that size, which
is normal and has the value `z`. -/
structure Holds (n : ℕ) (x : List UInt64 × ℤ) (z : ℤ) : Prop where
  length_le : x.1.length ≤ n
  size_le : x.2.natAbs ≤ x.1.length
  normal : Normalized (x.1.take x.2.natAbs)
  value : ofLimbs x.2 (x.1.take x.2.natAbs) = z

/-- A result of `n` limbs with a sign. -/
theorem holds_of_take {r : List UInt64} {n m : ℕ} {z : ℤ} (neg : Prop) [Decidable neg]
    (hlen : r.length ≤ m) (hn : n ≤ r.length) (hnormal : Normalized (r.take n))
    (hz : z = if neg then -(val (r.take n) : ℤ) else val (r.take n)) :
    Holds m (r, if neg then -(n : ℤ) else n) z := by
  have habs : (if neg then -(n : ℤ) else n).natAbs = n := by
    split_ifs
    · exact (Int.natAbs_neg _).trans (Int.natAbs_natCast n)
    · exact Int.natAbs_natCast n
  constructor
  · exact hlen
  · exact habs.le.trans hn
  · dsimp only
    rwa [habs]
  · exact (ofLimbs_sign neg hn).trans hz.symm

/-- Storing such a result in a block with room for it. -/
theorem Holds.assigns {n : ℕ} {x : List UInt64 × ℤ} {z : ℤ} (h : Holds n x z) {s : Store} {w : ℕ}
    {wm : MpzStruct} (hwm : wm.Valid) (hroom : n ≤ wm.d.length) (hfit : (n : ℤ) ≤ intMax) :
    Assigns s w z (storeLimbs (Function.update s w (some wm)) w x.1 x.2) := by
  have hlen := h.length_le
  have hsize := h.size_le
  have hint : intOf x.2 = x.2 := by
    refine intOf_of_le ?_ ?_
    · simp only [intMin, intMax] at hfit ⊢
      omega
    · omega
  obtain ⟨hvalid, hvalue⟩ := valid_write hwm x.1 x.2 (by omega) hsize h.normal
  unfold storeLimbs
  simp only [Function.update_self, Option.bind_eq_bind, Option.bind_some,
    writeLimbs_eq (hlen.trans hroom), Function.update_idem, hint]
  exact ⟨_, rfl, hvalid, hvalue.trans h.value⟩

section

variable {usize vsize : ℤ} {up vp : List UInt64}

/-- **The body of `aors.h` adds** the integers of its operands. -/
theorem aorsLimbs_holds (hup : up.length = usize.natAbs) (hvp : vp.length = vsize.natAbs)
    (hle : vsize.natAbs ≤ usize.natAbs) (hunormal : Normalized up) :
    Holds (usize.natAbs + 1) (aorsLimbs usize vsize up vp)
      (ofLimbs usize up + ofLimbs vsize vp) := by
  have hle' : vp.length ≤ up.length := by omega
  unfold aorsLimbs ofLimbs
  by_cases hsign : decide (usize < 0) ≠ decide (vsize < 0)
  · rw [if_pos hsign]
    rw [ne_eq, decide_eq_decide] at hsign
    by_cases hlen : up.length ≠ vp.length
    · -- The longer operand is the larger one.
      have hne : up ≠ [] := by
        rintro rfl
        exact hlen (by simpa using hle'.antisymm (Nat.zero_le _) |>.symm)
      have hlt : val vp ≤ val up := by
        calc val vp ≤ (2 ^ 64) ^ vp.length := (val_lt vp).le
          _ ≤ (2 ^ 64) ^ (up.length - 1) := Nat.pow_le_pow_right (by norm_num) (by omega)
          _ ≤ val up := hunormal.le_val hne
      obtain ⟨hrlen, hn, hnormal, hval⟩ := normalized_sub (mpnSub_eq hle') hlt
      rw [if_pos hlen]
      refine holds_of_take (usize < 0) (by omega) hn hnormal ?_
      rw [hval]
      split_ifs <;> omega
    · have heq : up.length = vp.length := not_not.mp hlen
      rw [if_neg hlen, mpnCmp_eq heq]
      by_cases hcmp : val up < val vp
      · obtain ⟨hrlen, hn, hnormal, hval⟩ := normalized_sub (mpnSubN_eq heq.symm) hcmp.le
        rw [← heq] at hrlen hn hnormal hval
        rw [if_pos hcmp, if_pos (by norm_num)]
        refine holds_of_take (usize ≥ 0) (by omega) hn hnormal ?_
        rw [hval]
        split_ifs <;> omega
      · obtain ⟨hrlen, hn, hnormal, hval⟩ := normalized_sub (mpnSubN_eq heq) (by omega)
        rw [if_neg hcmp, if_neg (by split_ifs <;> norm_num)]
        refine holds_of_take (usize < 0) (by omega) hn hnormal ?_
        rw [hval]
        split_ifs <;> omega
  · rw [if_neg hsign]
    rw [ne_eq, not_not, decide_eq_decide] at hsign
    have hadd := mpnAdd_eq hle'
    obtain ⟨hroom, hnormal, hval⟩ := carried_add hadd hunormal
    have hcarry := hadd.carry_le
    have hlen := hadd.length
    have h := holds_of_take (m := usize.natAbs + 1) (usize < 0) (by simp; omega) hroom hnormal rfl
    rw [Nat.cast_add] at h
    convert h using 1
    rw [hval]
    split_ifs <;> omega

end

/-! ### The store -/

section

variable {A : Allocator} {s : Store} {w u v : ℕ} {wm um vm : MpzStruct} {usize vsize : ℤ}

/-- **The body of `aors.h` assigns the sum**, whichever of the integers is the
destination. -/
theorem aorsSwapped_assigns (hs : s.Valid) (hw : s w = some wm) (hu : s u = some um)
    (hv : s v = some vm) (husize : usize.natAbs = um.size.natAbs)
    (hvsize : vsize.natAbs = vm.size.natAbs) (hle : vsize.natAbs ≤ usize.natAbs)
    (hfit : (usize.natAbs + 1 : ℤ) ≤ intMax) :
    Assigns s w (ofLimbs usize um.limbs + ofLimbs vsize vm.limbs)
      (aorsSwapped A s w u v usize vsize) := by
  have hfit' : ((usize.natAbs + 1 : ℕ) : ℤ) ≤ intMax := by exact_mod_cast hfit
  obtain ⟨um', hu', hum', husize', hulimbs⟩ := grown_spec (A := A) hs hw hu hfit'
  obtain ⟨vm', hv', hvm', hvsize', hvlimbs⟩ := grown_spec (A := A) hs hw hv hfit'
  obtain ⟨hwm', hroom, _⟩ := ensureAlloc_spec (A := A) (hs w wm hw) hfit'
  have huread := hum'.read
  have hvread := hvm'.read
  rw [husize', hulimbs, ← husize] at huread
  rw [hvsize', hvlimbs, ← hvsize] at hvread
  have hulen := (hs u um hu).length_limbs
  have hvlen := (hs v vm hv).length_limbs
  have hsum := aorsLimbs_holds (hulen.trans husize.symm) (hvlen.trans hvsize.symm) hle
    (hs u um hu).normal
  unfold aorsSwapped
  simp only [hw, hu', hv', huread, hvread, Option.bind_eq_bind, Option.bind_some]
  exact hsum.assigns hwm' hroom hfit'

theorem aors_assigns (hs : s.Valid) (hw : s w = some wm) (hu : s u = some um)
    (hv : s v = some vm) (husize : usize.natAbs = um.size.natAbs)
    (hvsize : vsize.natAbs = vm.size.natAbs) (hufit : (um.size.natAbs : ℤ) < intMax)
    (hvfit : (vm.size.natAbs : ℤ) < intMax) :
    Assigns s w (ofLimbs usize um.limbs + ofLimbs vsize vm.limbs) (aors A s w u v usize vsize) := by
  unfold aors
  by_cases hlt : usize.natAbs < vsize.natAbs
  · have h := aorsSwapped_assigns (A := A) hs hw hv hu hvsize husize hlt.le (by omega)
    rw [if_pos hlt, add_comm]
    exact h
  · rw [if_neg hlt]
    exact aorsSwapped_assigns hs hw hu hv husize hvsize (by omega) (by omega)

/-- **`mpz_add` adds.** -/
theorem mpzAdd_assigns (hs : s.Valid) (hw : s w = some wm) (hu : s u = some um)
    (hv : s v = some vm) (hufit : (um.size.natAbs : ℤ) < intMax)
    (hvfit : (vm.size.natAbs : ℤ) < intMax) :
    Assigns s w (um.toInt + vm.toInt) (mpzAdd A s w u v) := by
  unfold mpzAdd
  simp only [hu, hv, Option.bind_eq_bind, Option.bind_some]
  exact aors_assigns hs hw hu hv rfl rfl hufit hvfit

/-- **`mpz_sub` subtracts.** -/
theorem mpzSub_assigns (hs : s.Valid) (hw : s w = some wm) (hu : s u = some um)
    (hv : s v = some vm) (hufit : (um.size.natAbs : ℤ) < intMax)
    (hvfit : (vm.size.natAbs : ℤ) < intMax) :
    Assigns s w (um.toInt - vm.toInt) (mpzSub A s w u v) := by
  have hneg : ofLimbs (-vm.size) vm.limbs = -vm.toInt := by
    have h := (hs v vm hv).toInt_neg.2
    rw [← h]
    simp [MpzStruct.toInt, MpzStruct.limbs]
  have h : Assigns s w (ofLimbs um.size um.limbs + ofLimbs (-vm.size) vm.limbs)
      (aors A s w u v um.size (-vm.size)) :=
    aors_assigns hs hw hu hv rfl (Int.natAbs_neg _) hufit hvfit
  unfold mpzSub
  simp only [hu, hv, Option.bind_eq_bind, Option.bind_some]
  rw [hneg, ← sub_eq_add_neg] at h
  exact h

end

end Mpir
end SecureDesign
