/-
# Writing a short numeral

Two of the three branches of `mpn_get_str` (`mpn/generic/get_str.c`).  For a base that
is a power of two the digits are cut out of the limbs from the top.  `mpn_sb_get_str`
writes any other base: it divides by `big_base` again and again, and each division
leaves one group of digits.

The group is not the remainder of the division but its fraction, one more limb of
quotient: the fraction, rounded up, is multiplied by the base and the digits come out
at the top (`fraction_spec`).  For base ten four such steps leave four zero bits at the
bottom, and the rest of the group is written with sixty bits instead.

`mpn_sb_get_str` also takes numbers with zero limbs on top, and then it writes more
digits than the number needs, but never more than a power of the base has that is above
the number and not below the weight of its last place (`Below`).
-/

import SecureDesign.CLang.Numeral
import SecureDesign.Mpir.AddSub
import SecureDesign.Mpir.Bases
import SecureDesign.Mpir.MulDiv

namespace SecureDesign
namespace Mpir

open CLang

/-- `GET_STR_PRECOMPUTE_THRESHOLD`. -/
def getStrPrecomputeThreshold : ℕ := 35

/-- `BUF_ALLOC`: the bytes of `buf` in `mpn_sb_get_str`. -/
def bufAlloc : ℕ := getStrPrecomputeThreshold * 64 * 7 / 11

/-- `umul_ppmm (digit, frac, frac, base); *s++ = digit`, `i` times: the digits and the
fraction left. -/
def fracDigits (base : UInt64) : ℕ → UInt64 → List UInt8 × UInt64
  | 0, frac => ([], frac)
  | i + 1, frac =>
      let x := umulPpmm frac base
      let t := fracDigits base i x.2
      (x.1.toUInt8 :: t.1, t.2)

/-- The loop for the rest of a group in base ten, `i` times. -/
def shortFracDigits : ℕ → UInt64 → List UInt8
  | 0, _ => []
  | i + 1, frac =>
      let frac := frac * 10
      let digit := frac >>> UInt64.ofNat (64 - 4)
      digit.toUInt8 :: shortFracDigits i (frac &&& (~~~0 : UInt64) >>> UInt64.ofNat 4)

/-- The digits of one group from its fraction. -/
def groupDigits (base : ℕ) (frac : UInt64) : List UInt8 :=
  if base = 10 then
    -- The steps with `umul_ppmm` are those that normalization has not made already.
    let n := 4 - mpBasesNormalizationSteps10
    let x := fracDigits 10 n frac
    let frac := (x.2 + 0xf) >>> UInt64.ofNat 4
    x.1 ++ shortFracDigits (mpBasesCharsPerLimb10 - n) frac
  else (fracDigits (UInt64.ofNat base) (mpBases base).charsPerLimb frac).1

/-- The loop of `mpn_sb_get_str` over the groups: the limbs left of `rp + 1` and the
digits from `s` on. -/
def sbLoop (base : ℕ) (bigBase bigBaseInverted : UInt64) (normalizationSteps : ℕ) :
    ℕ → List UInt64 → List UInt8 → List UInt64 × List UInt8
  | 0, rp, s => (rp, s)
  | fuel + 1, rp, s =>
      if 1 < rp.length then
        let x := mpnPreinvDivrem1 1 rp bigBase bigBaseInverted normalizationSteps
        let frac := x.1.getD 0 0 + 1
        sbLoop base bigBase bigBaseInverted normalizationSteps fuel
          (dropTop (x.1.drop 1) rp.length) (groupDigits base frac ++ s)
      else (rp, s)

/-- `while (ul != 0)` of `mpn_sb_get_str`: the digits of the last limb. -/
def ulLoop (base : UInt64) : ℕ → UInt64 → List UInt8 → List UInt8
  | 0, _, s => s
  | fuel + 1, ul, s =>
      if ul ≠ 0 then
        let q := ul / base
        let rl := ul - q * base
        ulLoop base fuel q (rl.toUInt8 :: s)
      else s

/-- The digits that `mpn_sb_get_str` has in `buf` in the end. -/
def sbDigits (up : List UInt64) (base : ℕ) : List UInt8 :=
  let x :=
    if base = 10 then
      sbLoop base mpBasesBigBase10 mpBasesBigBaseInverted10 mpBasesNormalizationSteps10
        (2 * up.length) up []
    else
      sbLoop base (mpBases base).bigBase (mpBases base).bigBaseInverted
        (countLeadingZeros (mpBases base).bigBase) (2 * up.length) up []
  ulLoop (UInt64.ofNat base) 64 (x.1.getD 0 0) x.2

/-- `mpn_sb_get_str`: the digits, with zeros in front up to `len` of them. -/
def mpnSbGetStr (len : ℕ) (up : List UInt64) (base : ℕ) : List UInt8 :=
  let s := sbDigits up base
  List.replicate (len - s.length) 0 ++ s

/-- The digits of one limb `n1` that end at the bit positions above `bitPos`, and the
bits left. -/
def limbDigits (bitsPerDigit : ℕ) (n1 : UInt64) : ℕ → ℕ → List UInt8 × ℕ
  | 0, bitPos => ([], bitPos)
  | fuel + 1, bitPos =>
      if bitsPerDigit ≤ bitPos then
        let next := bitPos - bitsPerDigit
        let t := limbDigits bitsPerDigit n1 fuel next
        ((n1 >>> UInt64.ofNat next &&& 1 <<< UInt64.ofNat bitsPerDigit - 1).toUInt8 :: t.1, t.2)
      else ([], bitPos)

/-- The loop of `mpn_get_str` for a power of two.  `up` are the limbs below `n1`, the
next one first; `bitPos` counts the bits of `n1` still to write. -/
def bitLoop (bitsPerDigit : ℕ) : List UInt64 → UInt64 → ℕ → List UInt8
  | [], n1, bitPos => (limbDigits bitsPerDigit n1 bitPos bitPos).1
  | x :: up, n1, bitPos =>
      let t := limbDigits bitsPerDigit n1 bitPos bitPos
      -- `-bit_pos` of the source: the bits of the next digit that are in the next limb.
      let low := bitsPerDigit - t.2
      let n0 := n1 <<< UInt64.ofNat low &&& 1 <<< UInt64.ofNat bitsPerDigit - 1
      t.1 ++ (n0 ||| x >>> UInt64.ofNat (64 - low)).toUInt8
        :: bitLoop bitsPerDigit up x (64 - low)

/-- `mpn_get_str` for a power of two. -/
def pow2GetStr (up : List UInt64) (base : ℕ) : List UInt8 :=
  let bitsPerDigit := (mpBases base).bigBase.toNat
  let bits := 64 * up.length - countLeadingZeros (up.getD (up.length - 1) 0)
  let cnt := bits % bitsPerDigit
  let bits := if cnt ≠ 0 then bits + (bitsPerDigit - cnt) else bits
  match up.reverse with
  | [] => []
  | n1 :: up => bitLoop bitsPerDigit up n1 (bits - 64 * up.length)

/-! ### A group of digits -/

/-- **The digits of a fraction**, and what is left of it. -/
theorem fracDigits_spec (base : UInt64) (h2 : 2 ≤ base.toNat) (h256 : base.toNat ≤ 256) (i : ℕ)
    (frac : UInt64) :
    (fracDigits base i frac).1.length = i ∧ Digits base.toNat (fracDigits base i frac).1 ∧
      2 ^ 64 * numeral base.toNat (fracDigits base i frac).1 + (fracDigits base i frac).2.toNat
        = frac.toNat * base.toNat ^ i := by
  induction i generalizing frac with
  | zero => exact ⟨rfl, digits_nil, by simp [fracDigits]⟩
  | succ i ih =>
      have hmul := umulPpmm_eq frac base
      rw [fracDigits]
      generalize umulPpmm frac base = x at hmul ⊢
      obtain ⟨hlen, hdig, hval⟩ := ih x.2
      -- The digit is below the base, so it fits a byte.
      have hdigit : x.1.toNat < base.toNat := by
        have h₁ : frac.toNat * base.toNat < 2 ^ 64 * base.toNat :=
          Nat.mul_lt_mul_of_pos_right frac.toNat_lt (by omega)
        have h₂ : 2 ^ 64 * x.1.toNat < 2 ^ 64 * base.toNat := by omega
        exact Nat.lt_of_mul_lt_mul_left h₂
      have hbyte : x.1.toUInt8.toNat = x.1.toNat := by
        rw [UInt64.toNat_toUInt8, Nat.mod_eq_of_lt (by omega)]
      dsimp only
      refine ⟨by rw [List.length_cons, hlen], ?_, ?_⟩
      · intro c hc
        rcases List.mem_cons.mp hc with rfl | hc
        · rwa [hbyte]
        · exact hdig c hc
      · rw [numeral_cons, hbyte, hlen]
        calc _ = 2 ^ 64 * x.1.toNat * base.toNat ^ i
              + (2 ^ 64 * numeral base.toNat (fracDigits base i x.2).1
                + (fracDigits base i x.2).2.toNat) := by ring
          _ = (2 ^ 64 * x.1.toNat + x.2.toNat) * base.toNat ^ i := by rw [hval]; ring
          _ = frac.toNat * base.toNat ^ (i + 1) := by rw [hmul]; ring

/-- The digits of a fraction of sixty bits in base ten. -/
theorem shortFracDigits_spec (i : ℕ) (frac : UInt64) (hfrac : frac.toNat < 2 ^ 60) :
    (shortFracDigits i frac).length = i ∧ Digits 10 (shortFracDigits i frac) ∧
      numeral 10 (shortFracDigits i frac) = frac.toNat * 10 ^ i / 2 ^ 60 := by
  induction i generalizing frac with
  | zero =>
      refine ⟨rfl, digits_nil, ?_⟩
      rw [shortFracDigits, numeral_nil, pow_zero, Nat.mul_one, Nat.div_eq_of_lt hfrac]
  | succ i ih =>
      have hten : (frac * 10).toNat = frac.toNat * 10 := toNat_mul_of_lt (by
        rw [show (10 : UInt64).toNat = 10 by rfl]
        omega)
      have hdigit : ((frac * 10) >>> UInt64.ofNat (64 - 4)).toNat = frac.toNat * 10 / 2 ^ 60 := by
        rw [toNat_shiftRight_ofNat (by norm_num), hten]
      have hrest : (frac * 10 &&& (~~~0 : UInt64) >>> UInt64.ofNat 4).toNat
          = frac.toNat * 10 % 2 ^ 60 := by
        rw [UInt64.toNat_and, hten, show ((~~~0 : UInt64) >>> UInt64.ofNat 4).toNat = 2 ^ 60 - 1 by
          decide, Nat.and_two_pow_sub_one_eq_mod]
      have hbyte : ((frac * 10) >>> UInt64.ofNat (64 - 4)).toUInt8.toNat
          = frac.toNat * 10 / 2 ^ 60 := by
        rw [UInt64.toNat_toUInt8, hdigit, Nat.mod_eq_of_lt (by omega)]
      obtain ⟨hlen, hdig, hval⟩ :=
        ih (frac * 10 &&& (~~~0 : UInt64) >>> UInt64.ofNat 4) (by rw [hrest]; omega)
      rw [shortFracDigits]
      refine ⟨by rw [List.length_cons, hlen], ?_, ?_⟩
      · intro c hc
        rcases List.mem_cons.mp hc with rfl | hc
        · rw [hbyte]
          omega
        · exact hdig c hc
      · rw [numeral_cons, hbyte, hlen, hval, hrest]
        have hdm := Nat.div_add_mod (frac.toNat * 10) (2 ^ 60)
        have hall : frac.toNat * 10 ^ (i + 1)
            = 2 ^ 60 * (frac.toNat * 10 / 2 ^ 60 * 10 ^ i)
              + frac.toNat * 10 % 2 ^ 60 * 10 ^ i := by
          calc _ = frac.toNat * 10 * 10 ^ i := by ring
            _ = (2 ^ 60 * (frac.toNat * 10 / 2 ^ 60) + frac.toNat * 10 % 2 ^ 60) * 10 ^ i := by
              rw [hdm]
            _ = _ := by ring
        rw [hall, Nat.mul_add_div (by norm_num)]

section

variable {base : ℕ}

/-- **The digits of a group** are those of its fraction, in base ten as well. -/
theorem groupDigits_spec (h2 : 2 ≤ base) (h256 : base ≤ 256) (hp : pow2P base = false)
    (frac : UInt64) :
    (groupDigits base frac).length = (mpBases base).charsPerLimb ∧
      Digits base (groupDigits base frac) ∧
      numeral base (groupDigits base frac) = frac.toNat * (mpBases base).bigBase.toNat / 2 ^ 64 := by
  have hfit := mpBases_fits h2 h256 hp
  rw [groupDigits]
  by_cases h10 : base = 10
  · subst h10
    obtain ⟨hlen, hdig, hval⟩ := fracDigits_spec 10 (by decide) (by decide)
      (4 - mpBasesNormalizationSteps10) frac
    rw [show (10 : UInt64).toNat = 10 by rfl] at hdig hval
    rw [if_pos rfl, hfit.bigBase_eq, mpBases_ten]
    dsimp only
    generalize hx : fracDigits 10 (4 - mpBasesNormalizationSteps10) frac = x at hlen hdig hval ⊢
    rw [show 4 - mpBasesNormalizationSteps10 = 4 by rfl] at hlen hval ⊢
    have hlt := x.2.toNat_lt
    -- Four steps leave a multiple of sixteen.
    have hmod : x.2.toNat % 16 = 0 := by omega
    have hsum : (x.2 + 0xf).toNat = x.2.toNat + 15 := toNat_add_of_lt (by
      rw [show (0xf : UInt64).toNat = 15 by rfl]
      omega)
    have hshort : ((x.2 + 0xf) >>> UInt64.ofNat 4).toNat = x.2.toNat / 16 := by
      rw [toNat_shiftRight_ofNat (by norm_num), hsum]
      omega
    obtain ⟨hlen', hdig', hval'⟩ := shortFracDigits_spec (mpBasesCharsPerLimb10 - 4)
      ((x.2 + 0xf) >>> UInt64.ofNat 4) (by rw [hshort]; omega)
    rw [hshort] at hval'
    rw [show mpBasesCharsPerLimb10 - 4 = 15 by rfl] at hlen' hdig' hval' ⊢
    refine ⟨?_, hdig.append hdig', ?_⟩
    · rw [List.length_append, hlen, hlen']
      rfl
    · rw [numeral_append, hlen', hval', show mpBasesCharsPerLimb10 = 19 by rfl]
      omega
  · obtain ⟨hlen, hdig, hval⟩ := fracDigits_spec (UInt64.ofNat base)
      (by rwa [toNat_ofNat_base h256]) (by rwa [toNat_ofNat_base h256])
      (mpBases base).charsPerLimb frac
    have hlt := (fracDigits (UInt64.ofNat base) (mpBases base).charsPerLimb frac).2.toNat_lt
    rw [toNat_ofNat_base h256, ← hfit.bigBase_eq] at hval
    rw [toNat_ofNat_base h256] at hdig
    rw [if_neg h10]
    refine ⟨hlen, hdig, ?_⟩
    omega

end

/-- **The fraction of a division, rounded up, gives the remainder back**, for a divisor
below the weight of the fraction. -/
theorem fraction_spec {W V d q0 Q r : ℕ} (hd : 0 < d) (hdW : d < W) (hq0 : q0 < W) (hr : r < d)
    (h : (q0 + W * Q) * d + r = V * W) :
    Q = V / d ∧ q0 + 1 < W ∧ (q0 + 1) * d / W = V % d := by
  obtain ⟨R, hR⟩ : ∃ R, V = Q * d + R := by
    refine ⟨V - Q * d, (Nat.add_sub_cancel' ?_).symm⟩
    have h₁ : W * (Q * d) ≤ W * V := by
      calc W * (Q * d) ≤ (q0 + W * Q) * d + r := by nlinarith
        _ = W * V := by rw [h, Nat.mul_comm]
    exact Nat.le_of_mul_le_mul_left h₁ (by omega)
  have hfrac : q0 * d + r = W * R := by
    have h₁ : q0 * d + r + W * (Q * d) = W * R + W * (Q * d) := by
      calc _ = (q0 + W * Q) * d + r := by ring
        _ = W * R + W * (Q * d) := by rw [h, hR]; ring
    exact Nat.add_right_cancel h₁
  have hRd : R < d := by
    have h₁ : W * R < W * d := by
      calc W * R = q0 * d + r := hfrac.symm
        _ < q0 * d + d := by omega
        _ = (q0 + 1) * d := by ring
        _ ≤ W * d := Nat.mul_le_mul_right _ hq0
    exact Nat.lt_of_mul_lt_mul_left h₁
  refine ⟨?_, ?_, ?_⟩
  · rw [hR, Nat.mul_comm, Nat.mul_add_div hd, Nat.div_eq_of_lt hRd, Nat.add_zero]
  · have h₁ : (q0 + 1) * d < W * d := by
      have h₂ : W * R + W ≤ W * d := by
        rw [← Nat.mul_succ]
        exact Nat.mul_le_mul_left _ hRd
      calc (q0 + 1) * d = q0 * d + d := by ring
        _ ≤ W * R + d := by omega
        _ < W * d := by omega
    exact Nat.lt_of_mul_lt_mul_right h₁
  · have h₁ : (q0 + 1) * d = W * R + (d - r) := by
      calc (q0 + 1) * d = q0 * d + r + (d - r) := by
            rw [Nat.add_mul, Nat.one_mul]
            omega
        _ = W * R + (d - r) := by rw [hfrac]
    rw [h₁, Nat.mul_add_div (by omega), Nat.div_eq_of_lt (by omega), Nat.add_zero, hR,
      Nat.mul_comm Q d, Nat.mul_add_mod, Nat.mod_eq_of_lt hRd]

/-! ### The groups -/

/-- The number is below the `n`th power of the base, and this power is not below the
weight of its last place. -/
structure Below (base n : ℕ) (rp : List UInt64) : Prop where
  lt : val rp < base ^ n
  le : (2 ^ 64) ^ (rp.length - 1) ≤ base ^ n

/-- The quotient by a power that fits a limb is below what is left of the power. -/
theorem Below.quotient {base n c : ℕ} {rp t : List UInt64} (hpos : 0 < base ^ c)
    (hlt : base ^ c < 2 ^ 64) (h : Below base (n + c) rp) (h1 : 1 < rp.length)
    (hlen : t.length = rp.length) (hval : val t = val rp / base ^ c) :
    Below base n (dropTop t rp.length) := by
  obtain ⟨hv, hcase⟩ := dropTop_spec (by omega) hlen
  have hdiv : val t < base ^ n := by
    rw [hval, Nat.div_lt_iff_lt_mul hpos, ← pow_add]
    exact h.lt
  refine ⟨hv ▸ hdiv, ?_⟩
  rcases hcase with ⟨hl, hle⟩ | hl
  · rw [hl]
    exact hle.trans hdiv.le
  · rw [hl]
    have h₁ : (2 ^ 64) ^ (rp.length - 1 - 1) * 2 ^ 64 ≤ base ^ n * 2 ^ 64 := by
      calc (2 ^ 64) ^ (rp.length - 1 - 1) * 2 ^ 64 = (2 ^ 64) ^ (rp.length - 1) := by
            rw [← pow_succ (2 ^ 64), Nat.sub_add_cancel (by omega)]
        _ ≤ base ^ (n + c) := h.le
        _ = base ^ n * base ^ c := pow_add base n c
        _ ≤ base ^ n * 2 ^ 64 := Nat.mul_le_mul_left _ hlt.le
    exact Nat.le_of_mul_le_mul_right h₁ (by norm_num)

/-- A number below a power that is below `m` limbs has at most `m` limbs. -/
theorem Below.length_le {base n m : ℕ} {rp : List UInt64} (h : Below base n rp)
    (hlt : base ^ n < (2 ^ 64) ^ m) : rp.length ≤ m := by
  have h₁ := (Nat.pow_lt_pow_iff_right (by norm_num)).mp (h.le.trans_lt hlt)
  omega

section

variable {base : ℕ}

theorem Bases.Fits.le_bigBase (hfit : (mpBases base).Fits base) (h256 : base ≤ 256) :
    2 ^ 56 ≤ (mpBases base).bigBase.toNat := by
  have h₁ := hfit.le_mul
  have h₂ := Nat.mul_le_mul_right (mpBases base).bigBase.toNat h256
  omega

/-- The loop does nothing on one limb. -/
theorem sbLoop_one (base : ℕ) (bigBase inv : UInt64) (norm fuel : ℕ) (ul : UInt64)
    (s : List UInt8) : sbLoop base bigBase inv norm fuel [ul] s = ([ul], s) := by
  cases fuel with
  | zero => rfl
  | succ fuel => simp [sbLoop]

/-- What the loop of `mpn_sb_get_str` leaves: `j` full groups `g` in front of `s`, and
one limb, which is not zero if the number is normal. -/
structure Grouped (base j : ℕ) (g : List UInt8) (ul : UInt64) (rp : List UInt64) : Prop where
  length : g.length = (mpBases base).charsPerLimb * j
  digits : Digits base g
  val_eq : val rp = ul.toNat * (mpBases base).bigBase.toNat ^ j + numeral base g
  ne_zero : Normalized rp → ul ≠ 0

theorem grouped_one (base : ℕ) (ul : UInt64) : Grouped base 0 [] ul [ul] := by
  refine ⟨rfl, digits_nil, ?_, normal_singleton.mp⟩
  rw [val_singleton, pow_zero, Nat.mul_one, numeral_nil, Nat.add_zero]

/-- One more group at the end. -/
theorem Grouped.concat {j : ℕ} {g l : List UInt8}
    {ul : UInt64} {rp t : List UInt64} (hfit : (mpBases base).Fits base)
    (h : Grouped base j g ul t) (hlen : l.length = (mpBases base).charsPerLimb)
    (hdig : Digits base l) (ht : val t = val rp / (mpBases base).bigBase.toNat)
    (hl : numeral base l = val rp % (mpBases base).bigBase.toNat) (hn : Normalized rp → Normalized t) :
    Grouped base (j + 1) (g ++ l) ul rp := by
  refine ⟨?_, h.digits.append hdig, ?_, fun hrp => h.ne_zero (hn hrp)⟩
  · rw [List.length_append, h.length, hlen]
    ring
  · have hdm := Nat.div_add_mod (val rp) (mpBases base).bigBase.toNat
    rw [numeral_append, hlen, hl, ← hfit.bigBase_eq]
    calc val rp = (mpBases base).bigBase.toNat * val t + val rp % (mpBases base).bigBase.toNat := by
          rw [ht, hdm]
      _ = _ := by rw [h.val_eq]; ring

/-- **The loop of `mpn_sb_get_str`** writes no more digits than the number has room
for. -/
theorem sbLoop_spec (h2 : 2 ≤ base) (h256 : base ≤ 256) (hp : pow2P base = false) {n fuel : ℕ}
    {rp : List UInt64} (s : List UInt8) (hne : rp ≠ []) (h : Below base n rp)
    (hfuel : n ≤ (mpBases base).charsPerLimb * fuel) :
    ∃ j g ul, sbLoop base (mpBases base).bigBase (mpBases base).bigBaseInverted
        (countLeadingZeros (mpBases base).bigBase) fuel rp s = ([ul], g ++ s) ∧
      (mpBases base).charsPerLimb * j ≤ n ∧ Grouped base j g ul rp := by
  have hfit := mpBases_fits h2 h256 hp
  have hbig := hfit.le_bigBase h256
  have hbiglt := (mpBases base).bigBase.toNat_lt
  have hpow := hfit.bigBase_eq
  have hbig0 : (mpBases base).bigBase ≠ 0 := by
    intro h0
    rw [h0, UInt64.toNat_zero] at hbig
    omega
  obtain ⟨h63, h64⟩ := countLeadingZeros_spec hbig0
  induction fuel generalizing n rp s with
  | zero =>
      obtain rfl : n = 0 := by omega
      obtain ⟨ul, rfl⟩ : ∃ ul, rp = [ul] :=
        List.length_eq_one_iff.mp (le_antisymm (h.length_le (by norm_num))
          (List.length_pos_of_ne_nil hne))
      exact ⟨0, [], ul, rfl, le_rfl, grouped_one base ul⟩
  | succ fuel ih =>
      by_cases h1 : 1 < rp.length
      · -- More than one limb needs more digits than a group.
        obtain ⟨n, rfl⟩ : ∃ m, n = m + (mpBases base).charsPerLimb := by
          refine ⟨n - (mpBases base).charsPerLimb, (Nat.sub_add_cancel ?_).symm⟩
          by_contra hlt
          have h₁ := hfit.pow_lt h2 (Nat.not_le.mp hlt).le
          have h₂ := h.length_le (m := 1) (by rwa [pow_one])
          omega
        obtain ⟨hlen, heq, hr⟩ := mpnPreinvDivrem1_eq 1 hne h63 h64 hfit.reciprocal
        rw [sbLoop, if_pos h1]
        dsimp only
        generalize mpnPreinvDivrem1 1 rp (mpBases base).bigBase (mpBases base).bigBaseInverted
          (countLeadingZeros (mpBases base).bigBase) = x at hlen heq hr ⊢
        obtain ⟨q0, Q, hx⟩ := List.exists_cons_of_length_eq_add_one hlen
        rw [hx] at heq hlen ⊢
        rw [val_cons, pow_one] at heq
        obtain ⟨hQ, hq0, hfrac⟩ := fraction_spec (by omega) hbiglt q0.toNat_lt hr heq
        have hQlen : Q.length = rp.length := by simpa using hlen
        have hone : (q0 + 1).toNat = q0.toNat + 1 := toNat_add_of_lt (by
          rw [UInt64.toNat_one]
          exact hq0)
        obtain ⟨hglen, hgdig, hgval⟩ := groupDigits_spec h2 h256 hp (q0 + 1)
        rw [hone, hfrac] at hgval
        obtain ⟨hdrop, hcase⟩ := dropTop_spec (by omega) hQlen
        have hne' : dropTop Q rp.length ≠ [] := by
          intro hnil
          rw [hnil, List.length_nil] at hcase
          omega
        have hbelow : Below base n (dropTop Q rp.length) :=
          h.quotient (by omega) (by omega) h1 hQlen (by rwa [← hpow])
        obtain ⟨j, g, ul, hloop, hj, hg⟩ := ih (groupDigits base (q0 + 1) ++ s) hne' hbelow (by
          rw [Nat.mul_succ] at hfuel
          omega)
        refine ⟨j + 1, g ++ groupDigits base (q0 + 1), ul, ?_, ?_,
          hg.concat hfit hglen hgdig (hdrop.trans hQ) hgval fun hrp => ?_⟩
        · rw [List.append_assoc]
          exact hloop
        · rw [Nat.mul_succ]
          omega
        · -- A quotient by less than a limb loses one limb at most.
          refine dropTop_normal (by omega) hQlen ?_
          have hlow := hrp.le_val hne
          rw [hQ, Nat.le_div_iff_mul_le (by omega)]
          calc (2 ^ 64) ^ (rp.length - 2) * (mpBases base).bigBase.toNat
              ≤ (2 ^ 64) ^ (rp.length - 2) * 2 ^ 64 := Nat.mul_le_mul_left _ hbiglt.le
            _ = (2 ^ 64) ^ (rp.length - 1) := by
                rw [← pow_succ (2 ^ 64)]
                congr 1
                omega
            _ ≤ val rp := hlow
      · obtain ⟨ul, rfl⟩ : ∃ ul, rp = [ul] :=
          List.length_eq_one_iff.mp (le_antisymm (by omega) (List.length_pos_of_ne_nil hne))
        exact ⟨0, [], ul, sbLoop_one .., Nat.zero_le _, grouped_one base ul⟩

/-- **The digits of the last limb**, without a zero in front. -/
theorem ulLoop_spec {b : UInt64} (h2 : 2 ≤ b.toNat) (h256 : b.toNat ≤ 256) {fuel : ℕ} {ul : UInt64}
    (hul : ul.toNat < 2 ^ fuel) (s : List UInt8) :
    ∃ g, ulLoop b fuel ul s = g ++ s ∧ Digits b.toNat g ∧ Minimal g ∧
      numeral b.toNat g = ul.toNat := by
  induction fuel generalizing ul s with
  | zero =>
      refine ⟨[], rfl, digits_nil, minimal_nil, ?_⟩
      rw [numeral_nil]
      omega
  | succ fuel ih =>
      rw [ulLoop]
      by_cases h0 : ul ≠ 0
      · have hq : (ul / b).toNat = ul.toNat / b.toNat := UInt64.toNat_div _ _
        have hdm := Nat.div_add_mod ul.toNat b.toNat
        have hmod := Nat.mod_lt ul.toNat (show 0 < b.toNat by omega)
        have hmul : (ul / b * b).toNat = b.toNat * (ul.toNat / b.toNat) := by
          have hlt := ul.toNat_lt
          rw [toNat_mul_of_lt (by rw [hq, Nat.mul_comm]; omega), hq, Nat.mul_comm]
        have hr : (ul - ul / b * b).toNat = ul.toNat % b.toNat := by
          rw [UInt64.toNat_sub_of_le _ _ (by rw [UInt64.le_iff_toNat_le, hmul]; omega), hmul]
          omega
        have hbyte : (ul - ul / b * b).toUInt8.toNat = ul.toNat % b.toNat := by
          rw [UInt64.toNat_toUInt8, hr, Nat.mod_eq_of_lt (by omega)]
        have hlt : (ul / b).toNat < 2 ^ fuel := by
          rw [hq, Nat.div_lt_iff_lt_mul (by omega)]
          calc ul.toNat < 2 ^ fuel * 2 := by rwa [← pow_succ]
            _ ≤ 2 ^ fuel * b.toNat := Nat.mul_le_mul_left _ h2
        obtain ⟨g, hg, hdig, hmin, hval⟩ := ih hlt ((ul - ul / b * b).toUInt8 :: s)
        rw [if_pos h0]
        refine ⟨g ++ [(ul - ul / b * b).toUInt8], ?_, hdig.append ?_, ?_, ?_⟩
        · rw [List.append_assoc]
          exact hg
        · intro c hc
          rw [List.mem_singleton.mp hc, hbyte]
          exact hmod
        · -- The first digit is that of the quotient, or the only one.
          cases g with
          | cons c g => exact hmin
          | nil =>
              rw [numeral_nil, hq] at hval
              have hpos := toNat_ne_zero h0
              rw [← hval, Nat.mul_zero, Nat.zero_add] at hdm
              intro hhead
              have hc : (ul - ul / b * b).toUInt8 = 0 := Option.some.inj hhead
              rw [hc, UInt8.toNat_zero] at hbyte
              omega
        · rw [numeral_concat, hval, hbyte, hq, Nat.mul_comm]
          exact hdm
      · rw [if_neg h0, not_not.mp h0]
        exact ⟨[], rfl, digits_nil, minimal_nil, rfl⟩

/-- Two groups of digits for each limb have room for every number. -/
theorem below_two_mul (hfit : (mpBases base).Fits base) (h256 : base ≤ 256) (up : List UInt64) :
    Below base ((mpBases base).charsPerLimb * (2 * up.length)) up := by
  have hbig := hfit.le_bigBase h256
  have hpow : (2 ^ 64) ^ up.length ≤ base ^ ((mpBases base).charsPerLimb * (2 * up.length)) := by
    rw [pow_mul, ← hfit.bigBase_eq, pow_mul]
    refine Nat.pow_le_pow_left ?_ _
    calc 2 ^ 64 ≤ (2 ^ 56) ^ 2 := by norm_num
      _ ≤ (mpBases base).bigBase.toNat ^ 2 := Nat.pow_le_pow_left hbig 2
  refine ⟨(val_lt up).trans_le hpow, le_trans ?_ hpow⟩
  exact Nat.pow_le_pow_right (by norm_num) (Nat.sub_le _ _)

/-- **The digits of `mpn_sb_get_str`** are those of the number. -/
theorem sbDigits_spec (h2 : 2 ≤ base) (h256 : base ≤ 256) (hp : pow2P base = false) {n : ℕ}
    {up : List UInt64} (hne : up ≠ []) (h : Below base n up) :
    Digits base (sbDigits up base) ∧ numeral base (sbDigits up base) = val up ∧
      (sbDigits up base).length ≤ n ∧ (Normalized up → Minimal (sbDigits up base)) := by
  have hfit := mpBases_fits h2 h256 hp
  have hbase := toNat_ofNat_base h256
  -- The loop ends within its fuel, and it writes no more than `n` digits.
  obtain ⟨n', hn', hfuel, hbelow⟩ : ∃ n' ≤ n, n' ≤ (mpBases base).charsPerLimb * (2 * up.length) ∧
      Below base n' up := by
    by_cases hn : n ≤ (mpBases base).charsPerLimb * (2 * up.length)
    · exact ⟨n, le_rfl, hn, h⟩
    · exact ⟨_, by omega, le_rfl, below_two_mul hfit h256 up⟩
  obtain ⟨j, g, ul, hloop, hj, hg⟩ := sbLoop_spec h2 h256 hp [] hne hbelow hfuel
  have hx : sbDigits up base = ulLoop (UInt64.ofNat base) 64 ul g := by
    rw [List.append_nil] at hloop
    rw [sbDigits]
    by_cases h10 : base = 10
    · subst h10
      rw [mpBases_ten, countLeadingZeros_ten] at hloop
      rw [if_pos rfl, hloop]
      rfl
    · rw [if_neg h10, hloop]
      rfl
  obtain ⟨l, hl, hdig, hmin, hval⟩ := ulLoop_spec (b := UInt64.ofNat base) (by rwa [hbase])
    (by rwa [hbase]) ul.toNat_lt g
  rw [hbase] at hdig hval
  have hpowj : (mpBases base).bigBase.toNat ^ j = base ^ ((mpBases base).charsPerLimb * j) := by
    rw [hfit.bigBase_eq, pow_mul]
  rw [hx, hl]
  refine ⟨hdig.append hg.digits, ?_, ?_, fun hnormal => ?_⟩
  · rw [numeral_append, hval, hg.length, hg.val_eq, hpowj]
  · -- The last limb is below the power that is left.
    have hlen : l.length ≤ n' - (mpBases base).charsPerLimb * j := by
      refine (hmin.length_le_iff (by omega) hdig).mpr ?_
      rw [hval]
      have h₁ : ul.toNat * base ^ ((mpBases base).charsPerLimb * j)
          < base ^ (n' - (mpBases base).charsPerLimb * j)
            * base ^ ((mpBases base).charsPerLimb * j) := by
        rw [← pow_add, Nat.sub_add_cancel hj, ← hpowj]
        calc _ ≤ val up := by rw [hg.val_eq]; exact Nat.le_add_right _ _
          _ < _ := hbelow.lt
      exact Nat.lt_of_mul_lt_mul_right h₁
    rw [List.length_append, hg.length]
    omega
  · have hul := toNat_ne_zero (hg.ne_zero hnormal)
    cases l with
    | nil =>
        rw [numeral_nil] at hval
        omega
    | cons c l => exact hmin

/-- `BUF_ALLOC` digits of the smallest base have room for all limbs. -/
theorem three_pow_bufAlloc : (2 ^ 64) ^ 34 ≤ 3 ^ bufAlloc := by
  decide +kernel

/-- **`mpn_sb_get_str` stays in its buffer**, for every number of fewer limbs than
`rp` has. -/
theorem sbDigits_fits (h2 : 2 ≤ base) (h256 : base ≤ 256) (hp : pow2P base = false)
    {up : List UInt64} (hne : up ≠ []) (hlen : up.length < getStrPrecomputeThreshold) :
    (sbDigits up base).length ≤ bufAlloc := by
  have hthr : getStrPrecomputeThreshold = 35 := rfl
  have h3 : 3 ≤ base := by
    by_contra hlt
    obtain rfl : base = 2 := by omega
    exact absurd hp (by decide)
  have hpow : (2 ^ 64) ^ 34 ≤ base ^ bufAlloc :=
    three_pow_bufAlloc.trans (Nat.pow_le_pow_left h3 _)
  have hbelow : Below base bufAlloc up := by
    refine ⟨(val_lt up).trans_le (le_trans ?_ hpow), le_trans ?_ hpow⟩
    · exact Nat.pow_le_pow_right (by norm_num) (by omega)
    · exact Nat.pow_le_pow_right (by norm_num) (by omega)
  exact (sbDigits_spec h2 h256 hp hne hbelow).2.2.1

/-- **`mpn_sb_get_str`** writes the number, with `len` digits if these are enough. -/
theorem mpnSbGetStr_spec (h2 : 2 ≤ base) (h256 : base ≤ 256) (hp : pow2P base = false) {n : ℕ}
    {up : List UInt64} (hne : up ≠ []) (h : Below base n up) (len : ℕ) :
    Digits base (mpnSbGetStr len up base) ∧ numeral base (mpnSbGetStr len up base) = val up ∧
      (n ≤ len → (mpnSbGetStr len up base).length = len) ∧
      (Normalized up → len = 0 → Minimal (mpnSbGetStr len up base)) := by
  obtain ⟨hdig, hval, hlen, hmin⟩ := sbDigits_spec h2 h256 hp hne h
  rw [mpnSbGetStr]
  refine ⟨(digits_replicate_zero (by omega) _).append hdig, ?_, fun hle => ?_, fun hn h0 => ?_⟩
  · rw [numeral_zeros_append, hval]
  · rw [List.length_append, List.length_replicate]
    omega
  · rw [h0, Nat.zero_sub]
    exact hmin hn

end

/-! ### Powers of two -/

/-- The mask of one digit. -/
theorem toNat_digit_mask {k : ℕ} (hk8 : k ≤ 8) :
    ((1 : UInt64) <<< UInt64.ofNat k - 1).toNat = 2 ^ k - 1 := by
  have h : ∀ k < 9, ((1 : UInt64) <<< UInt64.ofNat k - 1).toNat = 2 ^ k - 1 := by decide
  exact h k (by omega)

/-- Too few bits for a digit have no value above the last position. -/
theorem mod_div_of_lt {p k : ℕ} (hlt : p < k) (a : ℕ) : a % 2 ^ p / 2 ^ (p % k) = 0 := by
  rw [Nat.mod_eq_of_lt hlt]
  exact Nat.div_eq_of_lt (Nat.mod_lt _ (Nat.two_pow_pos p))

/-- **The digits inside one limb**: all bits down to the last position that is not
enough for a digit. -/
theorem limbDigits_spec {k : ℕ} (hk : 0 < k) (hk8 : k ≤ 8) (n1 : UInt64) {fuel p : ℕ}
    (hp : p < 64 + k) (hfuel : p ≤ fuel) :
    (limbDigits k n1 fuel p).2 = p % k ∧ (limbDigits k n1 fuel p).1.length = p / k ∧
      Digits (2 ^ k) (limbDigits k n1 fuel p).1 ∧
      numeral (2 ^ k) (limbDigits k n1 fuel p).1 = n1.toNat % 2 ^ p / 2 ^ (p % k) := by
  induction fuel generalizing p with
  | zero =>
      obtain rfl : p = 0 := by omega
      exact ⟨(Nat.zero_mod k).symm, (Nat.zero_div k).symm, digits_nil, (mod_div_of_lt hk _).symm⟩
  | succ fuel ih =>
      rw [limbDigits]
      by_cases hle : k ≤ p
      · obtain ⟨next, rfl⟩ : ∃ next, p = next + k := ⟨p - k, by omega⟩
        obtain ⟨hrest, hlen, hdig, hval⟩ := ih (p := next) (by omega) (by omega)
        rw [if_pos hle, Nat.add_sub_cancel, Nat.add_mod_right, Nat.add_div_right _ hk]
        have hk256 : 2 ^ k ≤ 256 := by
          calc 2 ^ k ≤ 2 ^ 8 := Nat.pow_le_pow_right (by norm_num) hk8
            _ = 256 := by norm_num
        have hbyte : (n1 >>> UInt64.ofNat next &&& 1 <<< UInt64.ofNat k - 1).toUInt8.toNat
            = n1.toNat / 2 ^ next % 2 ^ k := by
          have hmod := Nat.mod_lt (n1.toNat / 2 ^ next) (Nat.two_pow_pos k)
          rw [UInt64.toNat_toUInt8, UInt64.toNat_and, toNat_digit_mask hk8,
            Nat.and_two_pow_sub_one_eq_mod, toNat_shiftRight_ofNat (by omega),
            Nat.mod_eq_of_lt (by omega)]
        refine ⟨hrest, by rw [List.length_cons, hlen], ?_, ?_⟩
        · intro c hc
          rcases List.mem_cons.mp hc with rfl | hc
          · rw [hbyte]
            exact Nat.mod_lt _ (Nat.two_pow_pos k)
          · exact hdig c hc
        · have hpow : 2 ^ next = 2 ^ (next % k) * (2 ^ k) ^ (next / k) := by
            rw [← pow_mul, ← pow_add, Nat.add_comm, Nat.div_add_mod]
          have hsplit : n1.toNat % 2 ^ (next + k)
              = n1.toNat % 2 ^ next
                + 2 ^ (next % k) * ((2 ^ k) ^ (next / k) * (n1.toNat / 2 ^ next % 2 ^ k)) := by
            rw [pow_add, Nat.mod_mul, ← Nat.mul_assoc, ← hpow]
          rw [numeral_cons, hbyte, hlen, hval, hsplit,
            Nat.add_mul_div_left _ _ (Nat.two_pow_pos _)]
          ring
      · have hlt : p < k := by omega
        rw [if_neg hle]
        exact ⟨(Nat.mod_eq_of_lt hlt).symm, (Nat.div_eq_of_lt hlt).symm, digits_nil,
          (mod_div_of_lt hlt _).symm⟩

/-- The digit across two limbs: the `r` bits left of the upper one and `low` bits of
the lower one. -/
theorem toNat_cross_digit (r low : ℕ) (hlow : 0 < low) (hk8 : low + r ≤ 8) (n1 x : UInt64) :
    (n1 <<< UInt64.ofNat low &&& 1 <<< UInt64.ofNat (low + r) - 1
        ||| x >>> UInt64.ofNat (64 - low)).toUInt8.toNat
      = 2 ^ low * (n1.toNat % 2 ^ r) + x.toNat / 2 ^ (64 - low) ∧
    2 ^ low * (n1.toNat % 2 ^ r) + x.toNat / 2 ^ (64 - low) < 2 ^ (low + r) := by
  have hn0 : (n1 <<< UInt64.ofNat low &&& 1 <<< UInt64.ofNat (low + r) - 1).toNat
      = 2 ^ low * (n1.toNat % 2 ^ r) := by
    rw [UInt64.toNat_and, toNat_digit_mask hk8, Nat.and_two_pow_sub_one_eq_mod,
      toNat_shiftLeft_ofNat (by omega), pow_add, Nat.mul_mod_mul_left,
      Nat.mod_mod_of_dvd _ (pow_dvd_pow 2 (by omega))]
  have hhigh := high_lt (s := low) (by omega) x
  have hr := Nat.mod_lt n1.toNat (Nat.two_pow_pos r)
  have hlt : 2 ^ low * (n1.toNat % 2 ^ r) + x.toNat / 2 ^ (64 - low) < 2 ^ (low + r) := by
    calc _ < 2 ^ low * (n1.toNat % 2 ^ r) + 2 ^ low := by omega
      _ = 2 ^ low * (n1.toNat % 2 ^ r + 1) := by ring
      _ ≤ 2 ^ low * 2 ^ r := Nat.mul_le_mul_left _ hr
      _ = 2 ^ (low + r) := (pow_add 2 low r).symm
  have h256 : 2 ^ (low + r) ≤ 256 := by
    calc 2 ^ (low + r) ≤ 2 ^ 8 := Nat.pow_le_pow_right (by norm_num) hk8
      _ = 256 := by norm_num
  refine ⟨?_, hlt⟩
  rw [UInt64.toNat_toUInt8, toNat_or_high hlow (by omega) hn0, hn0, Nat.mod_eq_of_lt (by omega)]

/-- **The loop of `mpn_get_str` for a power of two** writes the `p` bits of `n1` and all
bits below, if these make whole digits. -/
theorem bitLoop_spec {k : ℕ} (hk : 0 < k) (hk8 : k ≤ 8) (up : List UInt64) (n1 : UInt64) {p : ℕ}
    (hp : p < 64 + k) (hdvd : k ∣ 64 * up.length + p) :
    (bitLoop k up n1 p).length = (64 * up.length + p) / k ∧ Digits (2 ^ k) (bitLoop k up n1 p) ∧
      numeral (2 ^ k) (bitLoop k up n1 p)
        = (2 ^ 64) ^ up.length * (n1.toNat % 2 ^ p) + val up.reverse := by
  induction up generalizing n1 p with
  | nil =>
      obtain ⟨_, hlen, hdig, hval⟩ := limbDigits_spec hk hk8 n1 hp le_rfl
      rw [List.length_nil, Nat.mul_zero, Nat.zero_add] at hdvd
      rw [bitLoop]
      refine ⟨by simpa using hlen, hdig, ?_⟩
      rw [hval, Nat.mod_eq_zero_of_dvd hdvd]
      simp
  | cons x up ih =>
      obtain ⟨hrest, hlen, hdig, hval⟩ := limbDigits_spec hk hk8 n1 hp le_rfl
      have hr := Nat.mod_lt p hk
      have hdm := Nat.div_add_mod p k
      obtain ⟨low, hlow⟩ : ∃ low, k = low + p % k := ⟨k - p % k, by omega⟩
      have hsub : k - p % k = low := by omega
      obtain ⟨hbyte, hlt⟩ := toNat_cross_digit (p % k) low (by omega) (by omega) n1 x
      rw [← hlow] at hbyte hlt
      -- What is left after the digits of `n1` and the one across.
      obtain ⟨M, hM⟩ : ∃ M, M = 64 * up.length + (64 - low) := ⟨_, rfl⟩
      have hsum : 64 * (x :: up).length + p = M + k * (p / k + 1) := by
        rw [List.length_cons, Nat.mul_succ k]
        omega
      have hdvdM : k ∣ M := by
        rw [hsum] at hdvd
        exact (Nat.dvd_add_left (Nat.dvd_mul_right k _)).mp hdvd
      obtain ⟨hlen', hdig', hval'⟩ := ih x (p := 64 - low) (by omega) (hM ▸ hdvdM)
      rw [← hM] at hlen'
      have hpow : (2 ^ k) ^ (M / k) = (2 ^ 64) ^ up.length * 2 ^ (64 - low) := by
        rw [← pow_mul, Nat.mul_div_cancel' hdvdM, hM, pow_add, pow_mul]
      have hmid : Digits (2 ^ k) ((n1 <<< UInt64.ofNat low &&& 1 <<< UInt64.ofNat k - 1
          ||| x >>> UInt64.ofNat (64 - low)).toUInt8 :: bitLoop k up x (64 - low)) := by
        intro c hc
        rcases List.mem_cons.mp hc with rfl | hc
        · rw [hbyte]
          exact hlt
        · exact hdig' c hc
      rw [bitLoop, hrest, hsub]
      refine ⟨?_, hdig.append hmid, ?_⟩
      · rw [List.length_append, List.length_cons, hlen, hlen', hsum, Nat.add_mul_div_left _ _ hk]
        omega
      · have hn1 : 2 ^ (p % k) * (n1.toNat % 2 ^ p / 2 ^ (p % k)) + n1.toNat % 2 ^ (p % k)
            = n1.toNat % 2 ^ p := by
          have h := Nat.div_add_mod (n1.toNat % 2 ^ p) (2 ^ (p % k))
          rwa [Nat.mod_mod_of_dvd _ (pow_dvd_pow 2 (Nat.mod_le p k))] at h
        have hx := Nat.div_add_mod x.toNat (2 ^ (64 - low))
        have hlimb : 2 ^ (64 - low) * 2 ^ low = 2 ^ 64 := by
          rw [← pow_add, Nat.sub_add_cancel (by omega)]
        have hk2 : 2 ^ k = 2 ^ low * 2 ^ (p % k) := by rw [← pow_add, ← hlow]
        rw [numeral_append, numeral_cons, List.length_cons, hval, hbyte, hlen', hval',
          pow_succ (2 ^ k), hpow, List.reverse_cons, val_append, val_singleton,
          List.length_reverse, List.length_cons, pow_succ (2 ^ 64)]
        generalize n1.toNat % 2 ^ p / 2 ^ (p % k) = A at hn1 ⊢
        calc _ = (2 ^ 64) ^ up.length * (A * (2 ^ (64 - low) * 2 ^ k)
              + 2 ^ (64 - low) * 2 ^ low * (n1.toNat % 2 ^ (p % k))
              + (2 ^ (64 - low) * (x.toNat / 2 ^ (64 - low)) + x.toNat % 2 ^ (64 - low)))
              + val up.reverse := by ring
          _ = (2 ^ 64) ^ up.length * (2 ^ 64
                * (2 ^ (p % k) * A + n1.toNat % 2 ^ (p % k)) + x.toNat) + val up.reverse := by
              rw [hx, hk2, ← Nat.mul_assoc (2 ^ (64 - low)), hlimb]
              ring
          _ = _ := by
              rw [hn1]
              ring

/-- The number of bits, rounded up to whole digits. -/
theorem round_up {k : ℕ} (hk : 0 < k) (n : ℕ) :
    k ∣ (if n % k ≠ 0 then n + (k - n % k) else n) ∧
      n ≤ (if n % k ≠ 0 then n + (k - n % k) else n) ∧
      (if n % k ≠ 0 then n + (k - n % k) else n) < n + k := by
  have hmod := Nat.mod_lt n hk
  have hdm := Nat.div_add_mod n k
  by_cases h0 : n % k ≠ 0
  · rw [if_pos h0]
    refine ⟨⟨n / k + 1, ?_⟩, Nat.le_add_right _ _, by omega⟩
    rw [Nat.mul_succ]
    omega
  · rw [if_neg h0]
    exact ⟨Nat.dvd_of_mod_eq_zero (not_not.mp h0), le_rfl, by omega⟩

/-- **`mpn_get_str` for a power of two** writes a normal number, without a zero in
front. -/
theorem pow2GetStr_spec {base : ℕ} (h2 : 2 ≤ base) (h256 : base ≤ 256) (hp : pow2P base = true)
    {up : List UInt64} (hne : up ≠ []) (hnormal : Normalized up) :
    Digits base (pow2GetStr up base) ∧ numeral base (pow2GetStr up base) = val up ∧
      Minimal (pow2GetStr up base) := by
  obtain ⟨hbits, hbase, _⟩ := mpBases_fitsPow2 h2 h256 hp
  have hk8 : (mpBases base).bigBase.toNat ≤ 8 := by
    by_contra hgt
    have h₁ : 2 ^ 9 ≤ 2 ^ (mpBases base).bigBase.toNat :=
      Nat.pow_le_pow_right (by norm_num) (by omega)
    omega
  obtain ⟨l, n1, rfl⟩ := List.eq_nil_or_concat up |>.resolve_left hne
  rw [List.concat_eq_append] at hnormal ⊢
  have hn1 : n1 ≠ 0 := normal_append_singleton.mp hnormal
  obtain ⟨h63, h64⟩ := countLeadingZeros_spec hn1
  have htop : (l ++ [n1]).getD ((l ++ [n1]).length - 1) 0 = n1 := by
    rw [List.getD_append_right _ _ _ _ (by simp)]
    simp
  have hlen : (l ++ [n1]).length = l.length + 1 := by simp
  rw [pow2GetStr, htop, hlen, List.reverse_append, List.reverse_singleton, List.singleton_append]
  dsimp only
  rw [List.length_reverse]
  generalize (mpBases base).bigBase.toNat = k at hbits hbase hk8 ⊢
  generalize countLeadingZeros n1 = c at h63 h64 ⊢
  have hc : c < 64 := by
    by_contra hge
    have h₁ : 2 ^ 64 ≤ 2 ^ c := Nat.pow_le_pow_right (by norm_num) (Nat.not_lt.mp hge)
    have h₂ := Nat.le_mul_of_pos_right (2 ^ c) (toNat_ne_zero hn1)
    omega
  obtain ⟨hdvd, hle, hlt⟩ := round_up hbits (64 * (l.length + 1) - c)
  generalize (if (64 * (l.length + 1) - c) % k ≠ 0 then
    64 * (l.length + 1) - c + (k - (64 * (l.length + 1) - c) % k)
    else 64 * (l.length + 1) - c) = bits at hdvd hle hlt ⊢
  obtain ⟨p, rfl⟩ : ∃ p, bits = 64 * l.length + p := ⟨bits - 64 * l.length, by omega⟩
  have hspec := bitLoop_spec hbits hk8 l.reverse n1 (p := p) (by omega) (by
    rwa [List.length_reverse])
  rw [List.length_reverse, List.reverse_reverse] at hspec
  obtain ⟨hlength, hdig, hval⟩ := hspec
  -- All bits of the top limb are below the first position.
  have hfit : n1.toNat % 2 ^ p = n1.toNat := by
    refine Nat.mod_eq_of_lt ?_
    have h₁ : 2 ^ c * n1.toNat < 2 ^ c * 2 ^ p := by
      calc 2 ^ c * n1.toNat < 2 ^ 64 := h64
        _ ≤ 2 ^ (c + p) := Nat.pow_le_pow_right (by norm_num) (by omega)
        _ = 2 ^ c * 2 ^ p := pow_add 2 c p
    exact Nat.lt_of_mul_lt_mul_left h₁
  have htotal : val (l ++ [n1]) = (2 ^ 64) ^ l.length * n1.toNat + val l := by
    rw [val_append, val_singleton, Nat.add_comm]
  rw [hfit, ← htotal] at hval
  rw [Nat.add_sub_cancel_left]
  rw [← hbase] at hdig hval
  refine ⟨hdig, hval, hdig.minimal_of_le ?_⟩
  obtain ⟨m, hm⟩ := hdvd
  rw [hval, hlength, hm, Nat.mul_div_cancel_left _ hbits, hbase, ← pow_mul, Nat.mul_sub,
    Nat.mul_one, ← hm, htotal]
  have hlow : 2 ^ (63 - c) ≤ n1.toNat := by
    have h₁ : 2 ^ c * 2 ^ (63 - c) ≤ 2 ^ c * n1.toNat := by
      rwa [← pow_add, Nat.add_sub_cancel' (by omega)]
    exact Nat.le_of_mul_le_mul_left h₁ (Nat.two_pow_pos c)
  calc 2 ^ (64 * l.length + p - k) ≤ 2 ^ (64 * l.length + (63 - c)) :=
        Nat.pow_le_pow_right (by norm_num) (by omega)
    _ = (2 ^ 64) ^ l.length * 2 ^ (63 - c) := by rw [pow_add, pow_mul]
    _ ≤ (2 ^ 64) ^ l.length * n1.toNat + val l :=
        (Nat.mul_le_mul_left _ hlow).trans (Nat.le_add_right _ _)

/-- **`mpn_sb_get_str` stays inside its buffer**, for every base that is no power of two and
every number below the threshold, and what it finds there are the digits of the number, with
no zero in front. -/
theorem mpnSbGetStr_inBuffer (h2 : 2 ≤ base) (h256 : base ≤ 256) (hp : pow2P base = false)
    {up : List UInt64} (hne : up ≠ []) (hnormal : Normalized up)
    (hlen : up.length < getStrPrecomputeThreshold) :
    (sbDigits up base).length ≤ bufAlloc ∧ mpnSbGetStr 0 up base = digitsOf base (val up) := by
  have hbelow : Below base (val up) up :=
    ⟨Nat.lt_pow_self h2, (hnormal.le_val hne).trans (Nat.lt_pow_self h2).le⟩
  obtain ⟨hdig, hval, -, hmin⟩ := mpnSbGetStr_spec h2 h256 hp hne hbelow 0
  refine ⟨sbDigits_fits h2 h256 hp hne hlen, ?_⟩
  rw [← hval]
  exact hdig.eq_digitsOf h2 h256 (hmin hnormal rfl)

/-- Two limbs in base ten. -/
theorem mpnSbGetStr_inBuffer_ten :
    (sbDigits [5, 7] 10).length ≤ bufAlloc ∧
      mpnSbGetStr 0 [5, 7] 10 = digitsOf 10 (val [5, 7]) :=
  mpnSbGetStr_inBuffer (by decide) (by decide) (by decide) (by decide) (by decide) (by decide)

end Mpir
end SecureDesign
