/-
# Writing an integer

`mpz_get_str` of `mpz/get_str.c`: the digits of an integer as a string, in a block of the
caller or, for a null pointer, in a block of its own whose size `MPN_SIZEINBASE` estimates.
A write behind the end of the block has no result.

`mpzGetStr_shows` is the specification: the string is `showInteger` with its terminator, and
the estimated block is large enough.
-/

import SecureDesign.Mpir.GetStr
import SecureDesign.Mpir.MpzSetStr

namespace SecureDesign
namespace Mpir

open CLang

/-- `MPN_SIZEINBASE`. -/
def mpnSizeinbase (E : Estimates) (up : List UInt64) (base : ℕ) : ℕ :=
  if up.length = 0 then 1
  else
    let totbits := 64 * up.length - countLeadingZeros (up.getD (up.length - 1) 0)
    if pow2P base then
      let lbBase := (mpBases base).bigBase.toNat
      (totbits + lbBase - 1) / lbBase
    else E.chars base totbits + 1

/-- `mpz_get_str` into a block of `resStr` bytes, or into one of its own: the bytes that are
written, or NULL for a base that is too large. -/
def mpzGetStr (E : Estimates) (K : MulKernel) (D : DivKernel) (resStr : Option ℕ) (base : ℤ)
    (x : MpzStruct) : Option (Option (List UInt8)) := do
  if 62 < base then some none
  else
    let b := if base = 0 then 10 else base.natAbs
    let xp ← readLimbs x.d x.size.natAbs
    let allocSize := mpnSizeinbase E xp b + 1 + if x.size < 0 then 1 else 0
    let str ← mpnGetStr K D (1 + E.groups b xp.length) b xp
    let str := if str.head? = some 0 ∧ str.length ≠ 1 then str.tail else str
    let text ← str.mapM fun d => (numToText base ++ [0])[d.toNat]?
    let res := (if x.size < 0 then [45] else []) ++ text ++ [0]
    if res.length ≤ resStr.getD allocSize then some (some res) else none

/-! ### The block -/

section

variable {E : Estimates} {base : ℕ} {up : List UInt64}

/-- The bits of a number are below the leading zeros of its top limb. -/
theorem val_lt_totbits (hne : up ≠ []) (hnormal : Normalized up) :
    val up < 2 ^ (64 * up.length - countLeadingZeros (up.getD (up.length - 1) 0)) := by
  obtain ⟨l, a, rfl⟩ := List.eq_nil_or_concat up |>.resolve_left hne
  rw [List.concat_eq_append] at hnormal ⊢
  have ha : a ≠ 0 := normal_append_singleton.mp hnormal
  obtain ⟨h63, h64⟩ := countLeadingZeros_spec ha
  have htop : (l ++ [a]).getD ((l ++ [a]).length - 1) 0 = a := by
    rw [List.getD_append_right _ _ _ _ (by simp)]
    simp
  rw [htop, List.length_append, List.length_singleton, val_append, val_singleton]
  generalize countLeadingZeros a = c at h63 h64 ⊢
  have hc : c < 64 := by
    by_contra hge
    have h₁ : 2 ^ 64 ≤ 2 ^ c := Nat.pow_le_pow_right (by norm_num) (Nat.not_lt.mp hge)
    have h₂ := Nat.le_mul_of_pos_right (2 ^ c) (toNat_ne_zero ha)
    omega
  have hlimb : a.toNat + 1 ≤ 2 ^ (64 - c) := by
    have h₁ : 2 ^ c * a.toNat < 2 ^ c * 2 ^ (64 - c) := by
      rwa [← pow_add, Nat.add_sub_cancel' hc.le]
    exact Nat.lt_of_mul_lt_mul_left h₁
  calc val l + (2 ^ 64) ^ l.length * a.toNat
      < (2 ^ 64) ^ l.length + (2 ^ 64) ^ l.length * a.toNat := by
        have := val_lt l
        omega
    _ = (2 ^ 64) ^ l.length * (a.toNat + 1) := by ring
    _ ≤ (2 ^ 64) ^ l.length * 2 ^ (64 - c) := Nat.mul_le_mul_left _ hlimb
    _ = 2 ^ (64 * (l.length + 1) - c) := by
        rw [← pow_mul, ← pow_add]
        congr 1
        omega

/-- **`MPN_SIZEINBASE` is no less than the number of digits.** -/
theorem length_le_mpnSizeinbase (h2 : 2 ≤ base) (h62 : base ≤ 62) (hnormal : Normalized up)
    (hlen : 64 * up.length ≤ E.limit) :
    (showNat base (val up)).length ≤ mpnSizeinbase E up base := by
  unfold mpnSizeinbase showNat
  by_cases h0 : up.length = 0
  · rw [List.length_eq_zero_iff.mp h0]
    simp
  · have hne : up ≠ [] := fun hnil => h0 (by rw [hnil]; rfl)
    have hval : val up ≠ 0 := fun hz => hne (hnormal.val_eq_zero_iff.mp hz)
    have hlt := val_lt_totbits hne hnormal
    rw [if_neg hval, if_neg h0]
    dsimp only
    rw [(minimal_digitsOf h2 (by omega) _).length_le_iff h2 (digits_digitsOf h2 (by omega) _),
      numeral_digitsOf h2 (by omega)]
    have htot : 64 * up.length - countLeadingZeros (up.getD (up.length - 1) 0) ≤ E.limit :=
      (Nat.sub_le _ _).trans hlen
    generalize 64 * up.length - countLeadingZeros (up.getD (up.length - 1) 0) = n at hlt htot ⊢
    refine hlt.trans_le ?_
    by_cases hp : pow2P base = true
    · obtain ⟨hbits, hbase, _⟩ := mpBases_fitsPow2 h2 (by omega) hp
      rw [if_pos hp]
      generalize (mpBases base).bigBase.toNat = k at hbits hbase ⊢
      rw [hbase, ← pow_mul]
      refine Nat.pow_le_pow_right (by norm_num) ?_
      have hdm := Nat.div_add_mod (n + k - 1) k
      have hmod := Nat.mod_lt (n + k - 1) hbits
      omega
    · rw [Bool.not_eq_true] at hp
      rw [hp, if_neg Bool.false_ne_true]
      exact E.pow_le_chars base n h2 h62 hp htot

end

/-! ### The string -/

section

variable {E : Estimates} {K : MulKernel} {D : DivKernel} {base : ℤ} {x : MpzStruct}

theorem MpzStruct.natAbs_toInt (x : MpzStruct) : x.toInt.natAbs = val x.limbs := by
  unfold MpzStruct.toInt ofLimbs
  split_ifs <;> omega

theorem MpzStruct.Valid.toInt_neg_iff (hx : x.Valid) : x.toInt < 0 ↔ x.size < 0 := by
  unfold MpzStruct.toInt ofLimbs
  have hlen := hx.length_limbs
  by_cases h : x.size < 0
  · have hval : val x.limbs ≠ 0 := by
      intro hz
      rw [hx.normal.val_eq_zero_iff.mp hz, List.length_nil] at hlen
      omega
    rw [if_pos h]
    omega
  · rw [if_neg h]
    omega

/-- The table has a character for every digit. -/
theorem lt_length_numToText (h : Printable base) {d : ℕ} (hd : d < showBase base) :
    d < (numToText base).length := by
  have h36 : (ascii "0123456789abcdefghijklmnopqrstuvwxyz").length = 36 := by decide
  have h36' : (ascii "0123456789ABCDEFGHIJKLMNOPQRSTUVWXYZ").length = 36 := by decide
  have h62 : (ascii "0123456789ABCDEFGHIJKLMNOPQRSTUVWXYZabcdefghijklmnopqrstuvwxyz").length
      = 62 := by decide
  unfold numToText
  unfold showBase at hd
  rcases h with h | ⟨h₁, h₂⟩ | ⟨h₁, h₂⟩
  · subst h
    simp at hd
    simp [h36]
    omega
  · rw [if_neg (by omega)] at hd
    split_ifs <;> omega
  · rw [if_neg (by omega)] at hd
    split_ifs <;> omega

theorem mapM_numToText (h : Printable base) {l : List UInt8} (hl : Digits (showBase base) l) :
    (l.mapM fun d => (numToText base ++ [0])[d.toNat]?)
      = some (l.map fun d => (numToText base).getD d.toNat 0) := by
  induction l with
  | nil => rfl
  | cons d l ih =>
      have hd := lt_length_numToText h (hl d List.mem_cons_self)
      have hchar : (numToText base ++ [0])[d.toNat]? = some ((numToText base).getD d.toNat 0) := by
        rw [List.getElem?_append_left hd, List.getD_eq_getElem?_getD, List.getElem?_eq_getElem hd]
        rfl
      rw [List.mapM_cons, hchar, ih fun c hc => hl c (List.mem_cons_of_mem _ hc)]
      rfl

/-- The digits that `mpn_get_str` develops are those of `showNat`. -/
theorem mpnGetStr_showNat {b : ℕ} (h2 : 2 ≤ b) (h62 : b ≤ 62) {up : List UInt64}
    (hnormal : Normalized up) (hlen : 64 * up.length ≤ E.limit) :
    mpnGetStr K D (1 + E.groups b up.length) b up = some (showNat b (val up)) := by
  have hgroups : pow2P b = false →
      val up < (mpBases b).bigBase.toNat ^ (1 + E.groups b up.length) := fun hp =>
    (val_lt up).trans_le (E.pow_le_groups b up.length h2 h62 hp hlen)
  obtain ⟨str, hstr, hdig, hval, hnil, hmin⟩ :=
    mpnGetStr_spec K D h2 (by omega) hnormal hgroups
  rw [hstr]
  congr 1
  unfold showNat
  by_cases hz : val up = 0
  · rw [if_pos hz]
    exact hnil (hnormal.val_eq_zero_iff.mp hz)
  · have hne : up ≠ [] := fun h => hz (by rw [h, val_nil])
    rw [if_neg hz, ← hval]
    exact hdig.eq_digitsOf h2 (by omega) (hmin hne)

/-- There is no zero in front that would be skipped. -/
theorem showNat_skip {b : ℕ} (h2 : 2 ≤ b) (h256 : b ≤ 256) (n : ℕ) :
    ¬((showNat b n).head? = some 0 ∧ (showNat b n).length ≠ 1) := by
  unfold showNat
  rintro ⟨hhead, hlen⟩
  by_cases hz : n = 0
  · rw [if_pos hz] at hlen
    exact hlen rfl
  · rw [if_neg hz] at hhead
    exact minimal_digitsOf h2 h256 n hhead

/-- **`mpz_get_str` writes the integer**, in every base that it can write; its own block is
large enough, and so is one of the caller that has room for the string. -/
theorem mpzGetStr_shows (hx : x.Valid) (h : Printable base) (hlen : 64 * x.size.natAbs ≤ E.limit)
    {resStr : Option ℕ} (hroom : ∀ n, resStr = some n → (showInteger base x.toInt).length < n) :
    mpzGetStr E K D resStr base x = some (some (showInteger base x.toInt ++ [0])) := by
  obtain ⟨h2, h62⟩ := h.bounds
  have hbase : ¬62 < base := by
    rcases h with h | ⟨_, _⟩ | ⟨_, _⟩ <;> omega
  have hlimbs := hx.length_limbs
  have hlen' : 64 * x.limbs.length ≤ E.limit := by rwa [hlimbs]
  have hdig := (showNat_spec h2 (by omega) (val x.limbs)).2.1
  have hfit := length_le_mpnSizeinbase (E := E) h2 h62 hx.normal hlen'
  have hres : (if x.size < 0 then [45] else []) ++ ((showNat (showBase base) (val x.limbs)).map
      fun d => (numToText base).getD d.toNat 0) = showInteger base x.toInt := by
    unfold showInteger
    rw [x.natAbs_toInt]
    simp only [hx.toInt_neg_iff]
  have hsize : (showInteger base x.toInt ++ [0]).length
      ≤ resStr.getD (mpnSizeinbase E x.limbs (showBase base) + 1 + if x.size < 0 then 1 else 0) := by
    cases resStr with
    | some n =>
        have := hroom n rfl
        simpa using this
    | none =>
        rw [← hres, Option.getD_none]
        simp only [List.length_append, List.length_map, List.length_singleton]
        split_ifs <;> simp <;> omega
  have hb : (if base = 0 then 10 else base.natAbs) = showBase base := rfl
  unfold mpzGetStr
  simp only [if_neg hbase, hb, hx.read, mpnGetStr_showNat h2 h62 hx.normal hlen',
    if_neg (showNat_skip h2 (by omega) (val x.limbs)), mapM_numToText h hdig, hres,
    Option.bind_eq_bind, Option.bind_some, if_pos hsize]

end

/-! ### Round trips -/

section

variable {base : ℕ} {K : MulKernel} {D : DivKernel}

end

end Mpir
end SecureDesign
