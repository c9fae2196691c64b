/-
# Writing a long numeral

`mpn_get_str` (`mpn/generic/get_str.c`) with its third branch.  A long number is divided
by a power in a table; quotient and remainder are written recursively, the remainder
with exactly as many digits as the power has zeros in the base.

The table is built upwards from `big_base` by squaring.  Its exponents are the halves,
rounded up, of a bound `xn` on the number of groups; the loop builds each entry one
factor `big_base` too small and a second loop multiplies it in.  `xn` comes from a
floating-point estimate, and is a parameter here; the recursion stays inside the table
for every `xn` with the number below `big_base ^ xn`.

`mpn_tdiv_qr` chooses a division by size.  It is a parameter as well, with the
specification of its source (`DivKernel`).
-/

import SecureDesign.Mpir.GetStrBase
import SecureDesign.Mpir.Mul
import SecureDesign.Mpir.Powers

namespace SecureDesign
namespace Mpir

open CLang

/-- `GET_STR_DC_THRESHOLD`. -/
def getStrDcThreshold : ℕ := 18

/-- `mpn_tdiv_qr`: the quotient of `nn - dn + 1` limbs and the remainder of `dn` limbs,
for a divisor with a nonzero top limb and at most as many limbs as the number. -/
structure DivKernel where
  tdivQr : List UInt64 → List UInt64 → List UInt64 × List UInt64
  length_quotient : ∀ {np dp : List UInt64}, dp ≠ [] → Normalized dp → dp.length ≤ np.length →
    (tdivQr np dp).1.length = np.length - dp.length + 1
  length_remainder : ∀ {np dp : List UInt64}, dp ≠ [] → Normalized dp → dp.length ≤ np.length →
    (tdivQr np dp).2.length = dp.length
  val_eq : ∀ {np dp : List UInt64}, dp ≠ [] → Normalized dp → dp.length ≤ np.length →
    val (tdivQr np dp).1 * val dp + val (tdivQr np dp).2 = val np
  lt : ∀ {np dp : List UInt64}, dp ≠ [] → Normalized dp → dp.length ≤ np.length →
    val (tdivQr np dp).2 < val dp

/-- `mpn_dc_get_str`.  There is no result when the recursion runs past the table. -/
def mpnDcGetStr (D : DivKernel) : List Powers → ℕ → List UInt64 → Option (List UInt8)
  | [], _, _ => none
  | e :: tab, len, up =>
      if up.length < getStrDcThreshold then
        if up.length ≠ 0 then some (mpnSbGetStr len up e.base) else some (List.replicate len 0)
      else
        let pwn := e.p.length
        let sn := e.shift
        if up.length < pwn + sn ∨
            up.length = pwn + sn ∧ mpnCmp (up.drop sn) e.p < 0 then
          mpnDcGetStr D tab len up
        else
          let x := D.tdivQr (up.drop sn) e.p
          let qn := up.length - sn - pwn
          let qn := qn + (x.1.getD qn 0 != 0).toNat
          let len := if len ≠ 0 then len - e.digitsInBase else len
          (mpnDcGetStr D tab len (x.1.take qn)).bind fun s =>
            (mpnDcGetStr D tab e.digitsInBase (up.take sn ++ x.2)).bind fun t => some (s ++ t)

/-- The exponents of the table: `xn` and its halves rounded up, down to one. -/
def exptabLoop : ℕ → ℕ → List ℕ
  | 0, _ => [1]
  | fuel + 1, pn => if pn ≠ 1 then pn :: exptabLoop fuel ((pn + 1) >>> 1) else [1]

/-- `exptab` of `mpn_get_str`. -/
def exptab (xn : ℕ) : List ℕ := exptabLoop xn xn

/-- `while (t[0] == 0)`: the low limbs that are zero go into the shift. -/
def stripZeros : List UInt64 → ℕ → List UInt64 × ℕ
  | [], shift => ([], shift)
  | t0 :: t, shift => if t0 = 0 then stripZeros t (shift + 1) else (t0 :: t, shift)

/-- `mpn_mul_1` by `big_base`, with the carry limb if there is one. -/
def mulBigBase (base : ℕ) (t : List UInt64) : List UInt64 :=
  let x := mpnMul1 t (mpBases base).bigBase
  if x.2 ≠ 0 then x.1 ++ [x.2] else x.1

/-- The step of the first table loop to the next entry, for the exponent `exp` that the
finished entry will have.  The second component is `bexp`. -/
def getPowtabStep (K : MulKernel) (base exp : ℕ) (e : Powers) (bexp : ℕ) : Powers × ℕ :=
  let t := dropTop (K.sqr e.p) (2 * e.p.length)
  let digits := 2 * e.digitsInBase
  let bexp := 2 * bexp
  let adjust := bexp + 1 < exp
  let digits := if adjust then digits + (mpBases base).charsPerLimb else digits
  let t := if adjust then mulBigBase base t else t
  let x := stripZeros t (2 * e.shift)
  ({ p := x.1, shift := x.2, digitsInBase := digits, base := base },
    if adjust then bexp + 1 else bexp)

/-- The first table loop.  It counts `n_pows - pi` down; `e` is the entry before `pi` and
`tab` the table so far. -/
def getPowtabLoop (K : MulKernel) (base : ℕ) (exptab : List ℕ) :
    ℕ → Powers → ℕ → List Powers → List Powers
  | 0, _, _, tab => tab
  | i + 1, e, bexp, tab =>
      let x := getPowtabStep K base (exptab.getD (i + 1) 0) e bexp
      getPowtabLoop K base exptab i x.1 x.2 (x.1 :: tab)

/-- The step of the second table loop: the last factor `big_base`. -/
def raise (base : ℕ) (e : Powers) : Powers :=
  let t := mulBigBase base e.p
  let strip := t.getD 0 0 = 0
  { p := if strip then t.drop 1 else t
    shift := if strip then e.shift + 1 else e.shift
    digitsInBase := e.digitsInBase + (mpBases base).charsPerLimb
    base := e.base }

/-- The table of `mpn_get_str`. -/
def getPowtab (K : MulKernel) (base xn : ℕ) : List Powers :=
  let exps := exptab xn
  let nPows := exps.length - 1
  let e := Powers.bigBase base
  -- Entry one starts as a copy of entry zero, and only the others are multiplied.
  let tab := if nPows < 2 then [] else getPowtabLoop K base exps (nPows - 2) e 1 [e]
  tab.map (raise base) ++ [e]

/-- `mpn_get_str`, for the estimate `xn` of the number of groups. -/
def mpnGetStr (K : MulKernel) (D : DivKernel) (xn base : ℕ) (up : List UInt64) :
    Option (List UInt8) :=
  if up.length = 0 then some [0]
  else if pow2P base then some (pow2GetStr up base)
  else if up.length < getStrPrecomputeThreshold then some (mpnSbGetStr 0 up base)
  else mpnDcGetStr D (getPowtab K base xn) 0 up

/-! ### The recursion -/

section

variable {base : ℕ} {e : Powers} {up : List UInt64}

/-- A number below the entry: fewer limbs, or as many and smaller on top. -/
theorem lt_of_skip (he : e.Valid base)
    (h : up.length < e.p.length + e.shift ∨
      up.length = e.p.length + e.shift ∧ mpnCmp (up.drop e.shift) e.p < 0) :
    Below base e.digitsInBase up := by
  have hle := he.le_pow
  rcases h with hlt | ⟨heq, hcmp⟩
  · have hpow : (2 ^ 64) ^ up.length ≤ base ^ e.digitsInBase :=
      le_trans (Nat.pow_le_pow_right (by norm_num) (by omega)) hle
    refine ⟨(val_lt up).trans_le hpow, le_trans ?_ hpow⟩
    exact Nat.pow_le_pow_right (by norm_num) (Nat.sub_le _ _)
  · rw [← heq] at hle
    refine ⟨?_, hle⟩
    have hlen : (up.drop e.shift).length = e.p.length := by
      rw [List.length_drop]
      omega
    have htake : (up.take e.shift).length = e.shift := by
      rw [List.length_take]
      omega
    have hlt : val (up.drop e.shift) < val e.p := by
      rw [mpnCmp_eq hlen] at hcmp
      by_contra hge
      rw [if_neg hge] at hcmp
      split_ifs at hcmp <;> omega
    have hlow := val_lt (up.take e.shift)
    have hsplit := val_take_add_drop up e.shift
    rw [htake] at hlow hsplit
    rw [← he.val_eq, ← hsplit]
    calc _ < (2 ^ 64) ^ e.shift + (2 ^ 64) ^ e.shift * val (up.drop e.shift) := by omega
      _ = (2 ^ 64) ^ e.shift * (val (up.drop e.shift) + 1) := by ring
      _ ≤ (2 ^ 64) ^ e.shift * val e.p := Nat.mul_le_mul_left _ hlt
      _ = val e.p * (2 ^ 64) ^ e.shift := Nat.mul_comm _ _

/-- The limbs of the quotient: all of them, or all but a zero limb on top. -/
theorem take_quotient (x : List UInt64) (qn : ℕ) :
    x.take (qn + (x.getD qn 0 != 0).toNat) = dropTop x (qn + 1) := by
  rw [dropTop, Nat.add_sub_cancel]
  by_cases h0 : x.getD qn 0 = 0
  · rw [h0]
    rfl
  · rw [(bne_iff_ne).mpr h0, beq_false_of_ne h0]
    rfl

/-- The number split at an entry: a quotient with room for the digits above the entry,
and a remainder with room for the digits of the entry. -/
structure SplitAt (base n : ℕ) (e : Powers) (up q r : List UInt64) : Prop where
  digits_lt : e.digitsInBase < n
  quotient_ne_nil : q ≠ []
  remainder_ne_nil : r ≠ []
  quotient_below : Below base (n - e.digitsInBase) q
  remainder_below : Below base e.digitsInBase r
  val_eq : val up = val q * base ^ e.digitsInBase + val r
  quotient_normal : Normalized up → Normalized q ∧ 0 < val q

/-- **The division of `mpn_dc_get_str`** splits a number that is not below the entry. -/
theorem division_spec (D : DivKernel) (he : e.Valid base) {n : ℕ} (h : Below base n up)
    (hskip : ¬(up.length < e.p.length + e.shift ∨
      up.length = e.p.length + e.shift ∧ mpnCmp (up.drop e.shift) e.p < 0)) :
    let x := D.tdivQr (up.drop e.shift) e.p
    let qn := up.length - e.shift - e.p.length
    SplitAt base n e up (x.1.take (qn + (x.1.getD qn 0 != 0).toNat)) (up.take e.shift ++ x.2) := by
  have hppos := List.length_pos_of_ne_nil he.ne_nil
  have hLlt := he.pow_lt
  have hLle := he.le_pow
  have hPpos := he.pow_pos
  rw [not_or, not_lt] at hskip
  obtain ⟨hlen, hcmp⟩ := hskip
  have hdrop : (up.drop e.shift).length = up.length - e.shift := List.length_drop
  have htake : (up.take e.shift).length = e.shift := by
    rw [List.length_take]
    omega
  have hle : e.p.length ≤ (up.drop e.shift).length := by omega
  have hqlen := D.length_quotient he.ne_nil he.normal hle
  have hrlen := D.length_remainder he.ne_nil he.normal hle
  have heq := D.val_eq he.ne_nil he.normal hle
  have hlt := D.lt he.ne_nil he.normal hle
  have hsplit := val_take_add_drop up e.shift
  have hlow := val_lt (up.take e.shift)
  rw [htake] at hsplit hlow
  dsimp only
  generalize D.tdivQr (up.drop e.shift) e.p = x at hqlen hrlen heq hlt ⊢
  rw [hdrop] at hqlen
  obtain ⟨qn, hqn⟩ : ∃ qn, qn = up.length - e.shift - e.p.length := ⟨_, rfl⟩
  rw [← hqn] at hqlen ⊢
  rw [take_quotient]
  obtain ⟨hqval, hcase⟩ := dropTop_spec (n := qn + 1) (by omega) hqlen
  generalize dropTop x.1 (qn + 1) = q at hqval hcase ⊢
  rw [Nat.add_sub_cancel] at hcase
  have hrval : val (up.take e.shift ++ x.2)
      = val (up.take e.shift) + (2 ^ 64) ^ e.shift * val x.2 := by
    rw [val_append, htake]
  have htotal : val up = val q * base ^ e.digitsInBase + val (up.take e.shift ++ x.2) := by
    rw [← hsplit, ← heq, hrval, hqval, ← he.val_eq]
    ring
  have hrlt : val (up.take e.shift ++ x.2) < base ^ e.digitsInBase := by
    rw [hrval, ← he.val_eq]
    calc _ < (2 ^ 64) ^ e.shift + (2 ^ 64) ^ e.shift * val x.2 := by omega
      _ = (2 ^ 64) ^ e.shift * (val x.2 + 1) := by ring
      _ ≤ (2 ^ 64) ^ e.shift * val e.p := Nat.mul_le_mul_left _ hlt
      _ = val e.p * (2 ^ 64) ^ e.shift := Nat.mul_comm _ _
  -- With no limb more than the entry the number is not below it.
  have hsame : qn = 0 → base ^ e.digitsInBase ≤ val up := by
    intro h0
    have hlen' : up.length = e.p.length + e.shift := by omega
    have hge : val e.p ≤ val (up.drop e.shift) := by
      by_contra hgt
      refine hcmp ⟨hlen', ?_⟩
      rw [mpnCmp_eq (by omega), if_pos (by omega)]
      norm_num
    rw [← he.val_eq, ← hsplit, Nat.mul_comm]
    exact (Nat.mul_le_mul_left _ hge).trans (Nat.le_add_left _ _)
  have hqne : q ≠ [] := by
    intro hnil
    rw [hnil, List.length_nil] at hcase
    have h0 : qn = 0 := by omega
    have h₁ := hsame h0
    rw [htotal, hnil, val_nil] at h₁
    omega
  have hqpos := List.length_pos_of_ne_nil hqne
  have hdn : e.digitsInBase < n := by
    by_contra hge
    have hpow : base ^ n ≤ base ^ e.digitsInBase := by
      by_cases hb : base = 0
      · subst hb
        have h₁ := he.digits_pos
        rw [zero_pow h₁.ne'] at hPpos
        omega
      · exact Nat.pow_le_pow_right (by omega) (by omega)
    by_cases h0 : qn = 0
    · have h₁ := hsame h0
      have h₂ := h.lt
      omega
    · have h₁ := h.length_le (m := e.p.length + e.shift) (hpow.trans_lt hLlt)
      omega
  have hsplitn : base ^ n = base ^ (n - e.digitsInBase) * base ^ e.digitsInBase := by
    rw [← pow_add, Nat.sub_add_cancel hdn.le]
  have hqlt : val q < base ^ (n - e.digitsInBase) := by
    have h₁ : val q * base ^ e.digitsInBase
        < base ^ (n - e.digitsInBase) * base ^ e.digitsInBase := by
      rw [← hsplitn]
      have := h.lt
      omega
    exact Nat.lt_of_mul_lt_mul_right h₁
  refine ⟨hdn, hqne, ?_, ⟨hqlt, ?_⟩, ⟨hrlt, ?_⟩, htotal, fun hnormal => ?_⟩
  · intro hnil
    have h₁ := congrArg List.length hnil
    rw [List.length_append, hrlen, List.length_nil] at h₁
    omega
  · rcases hcase with ⟨hl, hqle⟩ | hl
    · rw [hl, Nat.add_sub_cancel]
      exact (hqval ▸ hqle).trans hqlt.le
    · rw [hl]
      have h₁ : (2 ^ 64) ^ (qn - 1) * (2 ^ 64) ^ (e.p.length + e.shift)
          ≤ base ^ (n - e.digitsInBase) * (2 ^ 64) ^ (e.p.length + e.shift) := by
        calc _ = (2 ^ 64) ^ (up.length - 1) := by
              rw [← pow_add]
              congr 1
              omega
          _ ≤ base ^ (n - e.digitsInBase) * base ^ e.digitsInBase := hsplitn ▸ h.le
          _ ≤ _ := Nat.mul_le_mul_left _ hLlt.le
      exact Nat.le_of_mul_le_mul_right h₁ (Nat.pow_pos (by norm_num))
  · rw [List.length_append, htake, hrlen, Nat.add_comm e.shift]
    exact hLle
  · have hqle : (2 ^ 64) ^ (q.length - 1) ≤ val q := by
      rcases hcase with ⟨hl, hqle⟩ | hl
      · rw [hl, Nat.add_sub_cancel, hqval]
        exact hqle
      · have hup : up ≠ [] := by
          rintro rfl
          rw [List.length_nil] at hlen
          omega
        have h₁ : (2 ^ 64) ^ (qn - 1) * (2 ^ 64) ^ (e.p.length + e.shift)
            < (val q + 1) * (2 ^ 64) ^ (e.p.length + e.shift) := by
          calc _ = (2 ^ 64) ^ (up.length - 1) := by
                rw [← pow_add]
                congr 1
                omega
            _ ≤ val up := hnormal.le_val hup
            _ < (val q + 1) * base ^ e.digitsInBase := by
                rw [htotal, Nat.add_mul, Nat.one_mul]
                omega
            _ ≤ _ := Nat.mul_le_mul_left _ hLlt.le
        rw [hl]
        exact Nat.le_of_lt_succ (Nat.lt_of_mul_lt_mul_right h₁)
    refine ⟨normal_of_le_val hqle, lt_of_lt_of_le ?_ hqle⟩
    exact Nat.pow_pos (by norm_num)

/-- `s` are digits of the number: `len` of them if `n` digits are not more, and without a
zero in front if `len` is zero. -/
structure WrittenAs (base n len : ℕ) (up : List UInt64) (s : List UInt8) : Prop where
  digits : Digits base s
  numeral_eq : numeral base s = val up
  length_eq : n ≤ len → s.length = len
  minimal : Normalized up → len = 0 → Minimal s

/-- A short number, with any entry of the table. -/
theorem writtenAs_sb (h2 : 2 ≤ base) (h256 : base ≤ 256) (hp : pow2P base = false) {n : ℕ}
    (hne : up ≠ []) (h : Below base n up) (len : ℕ) :
    WrittenAs base n len up (mpnSbGetStr len up base) := by
  obtain ⟨hdig, hval, hlen, hmin⟩ := mpnSbGetStr_spec h2 h256 hp hne h len
  exact ⟨hdig, hval, hlen, hmin⟩

/-- The digits of the quotient and of the remainder. -/
theorem SplitAt.written {n len : ℕ} {q r : List UInt64} {s t : List UInt8}
    (h : SplitAt base n e up q r)
    (hs : WrittenAs base (n - e.digitsInBase) (if len ≠ 0 then len - e.digitsInBase else len) q s)
    (ht : WrittenAs base e.digitsInBase e.digitsInBase r t) :
    WrittenAs base n len up (s ++ t) := by
  have hlt := h.digits_lt
  have htlen := ht.length_eq le_rfl
  refine ⟨hs.digits.append ht.digits, ?_, fun hle => ?_, fun hnormal h0 => ?_⟩
  · rw [numeral_append, htlen, hs.numeral_eq, ht.numeral_eq, h.val_eq]
  · have hslen := hs.length_eq
    rw [if_pos (by omega)] at hslen
    rw [List.length_append, htlen, hslen (by omega)]
    omega
  · obtain ⟨hqnormal, hqpos⟩ := h.quotient_normal hnormal
    have hmin := hs.minimal hqnormal (by rw [h0]; rfl)
    have hval := hs.numeral_eq
    cases s with
    | nil =>
        rw [numeral_nil] at hval
        omega
    | cons c s => exact hmin

/-- **`mpn_dc_get_str` writes every number below the square of its entry**, and stays
inside the table. -/
theorem mpnDcGetStr_spec (D : DivKernel) (h2 : 2 ≤ base) (h256 : base ≤ 256)
    (hp : pow2P base = false) {tab : List Powers} (htab : Powtab base (e :: tab)) {n : ℕ}
    (len : ℕ) (hne : up ≠ []) (h : Below base n up) (hn : n ≤ 2 * e.digitsInBase)
    (hlen : len = 0 ∨ n ≤ len) :
    ∃ s, mpnDcGetStr D (e :: tab) len up = some s ∧ WrittenAs base n len up s := by
  have hzero : up.length ≠ 0 := fun h0 => hne (List.length_eq_zero_iff.mp h0)
  induction tab generalizing e up n len with
  | nil =>
      cases htab with
      | last he hd =>
          -- Two groups of digits are at most two limbs.
          have hfit := mpBases_fits h2 h256 hp
          have htwo : up.length ≤ 2 := by
            refine h.length_le ?_
            have hlt := hfit.pow_lt h2 le_rfl
            calc base ^ n ≤ base ^ (2 * (mpBases base).charsPerLimb) :=
                  Nat.pow_le_pow_right (by omega) (hd ▸ hn)
              _ = base ^ (mpBases base).charsPerLimb * base ^ (mpBases base).charsPerLimb := by
                  rw [two_mul, pow_add]
              _ < 2 ^ 64 * 2 ^ 64 := Nat.mul_lt_mul'' hlt hlt
              _ = (2 ^ 64) ^ 2 := (pow_two _).symm
          have hthr : getStrDcThreshold = 18 := rfl
          rw [mpnDcGetStr, if_pos (by omega), if_pos hzero, he.base_eq]
          exact ⟨_, rfl, writtenAs_sb h2 h256 hp hne h len⟩
  | cons e' tab ih =>
      cases htab with
      | cons he hle htab =>
          rw [mpnDcGetStr]
          by_cases hthr : up.length < getStrDcThreshold
          · rw [if_pos hthr, if_pos hzero, he.base_eq]
            exact ⟨_, rfl, writtenAs_sb h2 h256 hp hne h len⟩
          rw [if_neg hthr]
          dsimp only
          by_cases hskip : up.length < e.p.length + e.shift ∨
              up.length = e.p.length + e.shift ∧ mpnCmp (up.drop e.shift) e.p < 0
          · -- The number is below the entry as well.
            have hbelow := lt_of_skip he hskip
            have hmin : Below base (min n e.digitsInBase) up := by
              rcases le_total n e.digitsInBase with hnd | hnd
              · rwa [Nat.min_eq_left hnd]
              · rwa [Nat.min_eq_right hnd]
            rw [if_pos hskip]
            obtain ⟨s, hs, hw⟩ := ih htab len hne hmin (by omega) (by omega) hzero
            exact ⟨s, hs, hw.digits, hw.numeral_eq, fun hle => hw.length_eq (by omega), hw.minimal⟩
          · have hsplit := division_spec D he h hskip
            dsimp only at hsplit
            rw [if_neg hskip]
            generalize D.tdivQr (up.drop e.shift) e.p = x at hsplit ⊢
            generalize x.1.take (up.length - e.shift - e.p.length
              + (x.1.getD (up.length - e.shift - e.p.length) 0 != 0).toNat) = q at hsplit ⊢
            have hlt := hsplit.digits_lt
            obtain ⟨s, hs, hsw⟩ := ih htab (if len ≠ 0 then len - e.digitsInBase else len)
              hsplit.quotient_ne_nil hsplit.quotient_below (by omega) (by split_ifs <;> omega)
              (fun h0 => hsplit.quotient_ne_nil (List.length_eq_zero_iff.mp h0))
            obtain ⟨t, ht, htw⟩ := ih htab e.digitsInBase hsplit.remainder_ne_nil
              hsplit.remainder_below hle (Or.inr le_rfl)
              (fun h0 => hsplit.remainder_ne_nil (List.length_eq_zero_iff.mp h0))
            rw [hs, ht, Option.bind_some, Option.bind_some]
            exact ⟨_, rfl, hsplit.written hsw htw⟩

end

/-! ### The table -/

/-- The exponents halve down to one. -/
structure Halves (xn : ℕ) (l : List ℕ) : Prop where
  length_pos : 0 < l.length
  first : l.getD 0 0 = xn
  last : l.getD (l.length - 1) 0 = 1
  half : ∀ i, i + 1 < l.length → l.getD (i + 1) 0 = (l.getD i 0 + 1) / 2 ∧ 2 ≤ l.getD i 0

theorem exptabLoop_halves {fuel pn : ℕ} (hpn : 0 < pn) (hfuel : pn ≤ fuel) :
    Halves pn (exptabLoop fuel pn) := by
  induction fuel generalizing pn with
  | zero => omega
  | succ fuel ih =>
      rw [exptabLoop]
      by_cases h1 : pn ≠ 1
      · have hshift : (pn + 1) >>> 1 = (pn + 1) / 2 := Nat.shiftRight_succ (pn + 1) 0
        have hpos : 0 < (pn + 1) >>> 1 := by omega
        have hrec := ih hpos (by omega)
        have hlen := hrec.length_pos
        rw [if_pos h1]
        refine ⟨by simp, rfl, ?_, fun i hi => ?_⟩
        · rw [List.length_cons, Nat.add_sub_cancel]
          obtain ⟨m, hm⟩ : ∃ m, (exptabLoop fuel ((pn + 1) >>> 1)).length = m + 1 :=
            ⟨_, (Nat.sub_add_cancel hlen).symm⟩
          have hlast := hrec.last
          rw [hm, Nat.add_sub_cancel] at hlast
          rw [hm, List.getD_cons_succ]
          exact hlast
        · cases i with
          | zero =>
              rw [List.getD_cons_succ, List.getD_cons_zero, hrec.first, hshift]
              exact ⟨rfl, by omega⟩
          | succ i =>
              rw [List.getD_cons_succ, List.getD_cons_succ]
              refine hrec.half i ?_
              rw [List.length_cons] at hi
              omega
      · obtain rfl := not_not.mp h1
        rw [if_neg h1]
        refine ⟨by simp, rfl, rfl, fun i hi => ?_⟩
        simp at hi

section

variable {base : ℕ} {e : Powers}

/-- An entry that is the `k`th power of `big_base`. -/
structure Powers.IsPow (base k : ℕ) (e : Powers) : Prop where
  valid : e.Valid base
  pos : 0 < k
  digits_eq : e.digitsInBase = (mpBases base).charsPerLimb * k

theorem mulBigBase_spec (hb : 0 < (mpBases base).bigBase.toNat) {t : List UInt64} (hne : t ≠ [])
    (hnormal : Normalized t) :
    val (mulBigBase base t) = val t * (mpBases base).bigBase.toNat ∧ mulBigBase base t ≠ [] ∧
      Normalized (mulBigBase base t) := by
  have hmul := mpnMul1_eq t (mpBases base).bigBase
  have hlen := mpnMul1_length t (mpBases base).bigBase
  rw [mulBigBase]
  generalize mpnMul1 t (mpBases base).bigBase = x at hmul hlen ⊢
  by_cases hc : x.2 ≠ 0
  · rw [if_pos hc, val_append, val_singleton, hlen]
    exact ⟨hmul, by simp, normal_append_singleton.mpr hc⟩
  · rw [not_not.mp hc, UInt64.toNat_zero, Nat.mul_zero, Nat.add_zero] at hmul
    rw [if_neg hc]
    refine ⟨hmul, ?_, normal_of_le_val ?_⟩
    · intro hnil
      rw [hnil] at hlen
      exact hne (List.length_eq_zero_iff.mp hlen.symm)
    · rw [hlen, hmul]
      exact (hnormal.le_val hne).trans (Nat.le_mul_of_pos_right _ hb)

/-- Zero limbs at the bottom go into the shift. -/
theorem stripZeros_spec {t : List UInt64} (hne : t ≠ []) (hnormal : Normalized t) (shift : ℕ) :
    (stripZeros t shift).1 ≠ [] ∧ Normalized (stripZeros t shift).1 ∧
      val (stripZeros t shift).1 * (2 ^ 64) ^ (stripZeros t shift).2
        = val t * (2 ^ 64) ^ shift := by
  induction t generalizing shift with
  | nil => exact absurd rfl hne
  | cons t0 t ih =>
      rw [stripZeros]
      by_cases h0 : t0 = 0
      · subst h0
        have hne' : t ≠ [] := by
          rintro rfl
          exact normal_singleton.mp hnormal rfl
        have hnormal' : Normalized t := by
          obtain ⟨t1, t, rfl⟩ := List.exists_cons_of_ne_nil hne'
          rwa [Normalized, List.getLast?_cons_cons] at hnormal
        obtain ⟨h₁, h₂, h₃⟩ := ih hne' hnormal' (shift + 1)
        rw [if_pos rfl]
        refine ⟨h₁, h₂, h₃.trans ?_⟩
        rw [val_cons, UInt64.toNat_zero]
        ring
      · rw [if_neg h0]
        exact ⟨List.cons_ne_nil _ _, hnormal, rfl⟩

/-- **One step of the first table loop**: the exponent doubles, plus one if that stays
below the exponent of the finished entry. -/
theorem getPowtabStep_isPow (K : MulKernel) (h2 : 2 ≤ base) (h256 : base ≤ 256)
    (hp : pow2P base = false) (exp : ℕ) {bexp : ℕ} (he : e.IsPow base bexp) :
    (getPowtabStep K base exp e bexp).1.IsPow base
        (if 2 * bexp + 1 < exp then 2 * bexp + 1 else 2 * bexp) ∧
      (getPowtabStep K base exp e bexp).2
        = (if 2 * bexp + 1 < exp then 2 * bexp + 1 else 2 * bexp) := by
  refine ⟨?_, rfl⟩
  have hfit := mpBases_fits h2 h256 hp
  have hbig := hfit.le_bigBase h256
  have hbigpos : 0 < (mpBases base).bigBase.toNat := by omega
  have hcpl := hfit.charsPerLimb_pos
  have hk := he.pos
  have hppos := List.length_pos_of_ne_nil he.valid.ne_nil
  have hplow := he.valid.normal.le_val he.valid.ne_nil
  have hsqlen := K.length_sqr he.valid.ne_nil
  have hsqval := K.val_sqr he.valid.ne_nil
  obtain ⟨htval, htcase⟩ := dropTop_spec (by omega) hsqlen
  have htnormal : Normalized (dropTop (K.sqr e.p) (2 * e.p.length)) := by
    refine dropTop_normal (by omega) hsqlen ?_
    rw [hsqval, show 2 * e.p.length - 2 = (e.p.length - 1) + (e.p.length - 1) by omega, pow_add]
    exact Nat.mul_le_mul hplow hplow
  have htne : dropTop (K.sqr e.p) (2 * e.p.length) ≠ [] := by
    intro hnil
    rw [hnil, List.length_nil] at htcase
    omega
  rw [hsqval] at htval
  rw [getPowtabStep]
  generalize dropTop (K.sqr e.p) (2 * e.p.length) = t at htval htnormal htne ⊢
  have hpow : val t * (2 ^ 64) ^ (2 * e.shift) = base ^ (2 * e.digitsInBase) := by
    rw [htval, two_mul, pow_add, two_mul, pow_add, ← he.valid.val_eq]
    ring
  -- The entry before its low limbs go.
  have hstrip : ∀ (t' : List UInt64) (digits k : ℕ), t' ≠ [] → Normalized t' → 0 < k →
      digits = (mpBases base).charsPerLimb * k →
      val t' * (2 ^ 64) ^ (2 * e.shift) = base ^ digits →
      Powers.IsPow base k
        { p := (stripZeros t' (2 * e.shift)).1, shift := (stripZeros t' (2 * e.shift)).2,
          digitsInBase := digits, base := base } := by
    intro t' digits k hne hnormal hk' hdigits hval
    obtain ⟨h₁, h₂, h₃⟩ := stripZeros_spec hne hnormal (2 * e.shift)
    exact ⟨⟨rfl, h₁, h₂, hdigits ▸ Nat.mul_pos hcpl hk', h₃.trans hval⟩, hk', hdigits⟩
  by_cases hadj : 2 * bexp + 1 < exp
  · simp only [if_pos hadj]
    obtain ⟨hmval, hmne, hmnormal⟩ := mulBigBase_spec hbigpos htne htnormal
    refine hstrip _ _ (2 * bexp + 1) hmne hmnormal (by omega) ?_ ?_
    · rw [he.digits_eq]
      ring
    · rw [hmval, pow_add, ← hpow, ← hfit.bigBase_eq]
      ring
  · simp only [if_neg hadj]
    refine hstrip _ _ (2 * bexp) htne htnormal (by omega) ?_ hpow
    rw [he.digits_eq]
    ring

/-- **The step of the second table loop** adds the last factor. -/
theorem raise_isPow (h2 : 2 ≤ base) (h256 : base ≤ 256) (hp : pow2P base = false) {k : ℕ}
    (he : e.IsPow base k) : (raise base e).IsPow base (k + 1) := by
  have hfit := mpBases_fits h2 h256 hp
  have hbig := hfit.le_bigBase h256
  have hbigpos : 0 < (mpBases base).bigBase.toNat := by omega
  obtain ⟨hmval, hmne, hmnormal⟩ := mulBigBase_spec hbigpos he.valid.ne_nil he.valid.normal
  have hpow : val (mulBigBase base e.p) * (2 ^ 64) ^ e.shift
      = base ^ (e.digitsInBase + (mpBases base).charsPerLimb) := by
    rw [hmval, pow_add, ← he.valid.val_eq, ← hfit.bigBase_eq]
    ring
  have hdigits : e.digitsInBase + (mpBases base).charsPerLimb
      = (mpBases base).charsPerLimb * (k + 1) := by
    rw [he.digits_eq]
    ring
  have hpos := he.valid.digits_pos
  rw [raise]
  generalize mulBigBase base e.p = t at hmval hmne hmnormal hpow ⊢
  obtain ⟨t0, t, rfl⟩ := List.exists_cons_of_ne_nil hmne
  rw [List.getD_cons_zero, List.drop_one, List.tail_cons]
  by_cases h0 : t0 = 0
  · subst h0
    have hne : t ≠ [] := by
      rintro rfl
      exact normal_singleton.mp hmnormal rfl
    have hnormal : Normalized t := by
      obtain ⟨t1, t, rfl⟩ := List.exists_cons_of_ne_nil hne
      rwa [Normalized, List.getLast?_cons_cons] at hmnormal
    simp only [if_true]
    refine ⟨⟨he.valid.base_eq, hne, hnormal, by dsimp only; omega, ?_⟩, Nat.succ_pos k, hdigits⟩
    rw [← hpow, val_cons, UInt64.toNat_zero]
    ring
  · simp only [if_neg h0]
    exact ⟨⟨he.valid.base_eq, hmne, hmnormal, by dsimp only; omega, hpow⟩, Nat.succ_pos k, hdigits⟩

/-- **The first table loop** and the last factors make a table, whose first entry has
the first half of `xn` as its exponent. -/
theorem getPowtabLoop_powtab (K : MulKernel) (h2 : 2 ≤ base) (h256 : base ≤ 256)
    (hp : pow2P base = false) {xn : ℕ} {l : List ℕ} (hl : Halves xn l) {e0 : Powers} (i : ℕ)
    {bexp : ℕ} {tab : List Powers} (hi : i + 1 < l.length) (he : e.IsPow base bexp)
    (hexp : bexp + 1 = l.getD (i + 1) 0)
    (htab : Powtab base (((e :: tab).map (raise base)) ++ [e0])) :
    ∃ e' tab', getPowtabLoop K base l i e bexp (e :: tab) = e' :: tab' ∧
      Powtab base (((e' :: tab').map (raise base)) ++ [e0]) ∧
      (raise base e').digitsInBase = (mpBases base).charsPerLimb * l.getD 1 0 := by
  induction i generalizing e bexp tab with
  | zero =>
      refine ⟨e, tab, rfl, htab, ?_⟩
      rw [(raise_isPow h2 h256 hp he).digits_eq, hexp]
  | succ i ih =>
      obtain ⟨hpow, hb⟩ := getPowtabStep_isPow K h2 h256 hp (l.getD (i + 1) 0) he
      obtain ⟨hhalf, htwo⟩ := hl.half (i + 1) hi
      rw [getPowtabLoop]
      generalize getPowtabStep K base (l.getD (i + 1) 0) e bexp = x at hpow hb ⊢
      rw [← hb] at hpow
      have hnext : x.2 + 1 = l.getD (i + 1) 0 := by
        rw [hb]
        split_ifs <;> omega
      refine ih (by omega) hpow hnext ?_
      have hraise := raise_isPow h2 h256 hp hpow
      refine Powtab.cons hraise.valid ?_ htab
      rw [hraise.digits_eq, (raise_isPow h2 h256 hp he).digits_eq, ← Nat.mul_left_comm]
      exact Nat.mul_le_mul_left _ (by omega)

/-- **The table of `mpn_get_str`**: the square of its first entry is at least the `xn`th
power of `big_base`. -/
theorem getPowtab_powtab (K : MulKernel) (h2 : 2 ≤ base) (h256 : base ≤ 256)
    (hp : pow2P base = false) {xn : ℕ} (hxn : 0 < xn) :
    ∃ e tab, getPowtab K base xn = e :: tab ∧ Powtab base (e :: tab) ∧
      (mpBases base).charsPerLimb * xn ≤ 2 * e.digitsInBase := by
  have hfit := mpBases_fits h2 h256 hp
  have hl := exptabLoop_halves hxn le_rfl
  have hlen := hl.length_pos
  unfold getPowtab exptab
  dsimp only
  generalize exptabLoop xn xn = l at hl hlen ⊢
  have hone : (Powers.bigBase base).IsPow base 1 :=
    ⟨Powers.bigBase_valid hfit h2, Nat.one_pos, (Nat.mul_one _).symm⟩
  have hdigits : (Powers.bigBase base).digitsInBase = (mpBases base).charsPerLimb := rfl
  have hlast : Powtab base [Powers.bigBase base] := Powtab.last hone.valid hdigits
  generalize Powers.bigBase base = e0 at hone hdigits hlast ⊢
  by_cases hsmall : l.length - 1 < 2
  · -- No power above `big_base` is needed.
    rw [if_pos hsmall]
    refine ⟨e0, [], rfl, hlast, ?_⟩
    have htwo : xn ≤ 2 := by
      rw [← hl.first]
      by_cases h1 : l.length = 1
      · have hlast' := hl.last
        rw [h1, Nat.sub_self] at hlast'
        omega
      · obtain ⟨hhalf, _⟩ := hl.half 0 (by omega)
        have hlast' := hl.last
        rw [show l.length - 1 = 0 + 1 by omega] at hlast'
        omega
    rw [hdigits, Nat.mul_comm]
    exact Nat.mul_le_mul_right _ htwo
  · rw [if_neg hsmall]
    obtain ⟨hhalf, htwo⟩ := hl.half (l.length - 2) (by omega)
    rw [show l.length - 2 + 1 = l.length - 1 by omega, hl.last] at hhalf
    have hraise := raise_isPow h2 h256 hp hone
    have htab : Powtab base (([e0].map (raise base)) ++ [e0]) := by
      refine Powtab.cons hraise.valid ?_ hlast
      rw [hraise.digits_eq, hdigits, Nat.mul_comm]
    obtain ⟨e', tab, hloop, htab', hdig⟩ := getPowtabLoop_powtab K h2 h256 hp hl
      (l.length - 1 - 2) (by omega) hone
      (by rw [show l.length - 1 - 2 + 1 = l.length - 2 by omega]; omega) htab
    rw [hloop]
    refine ⟨raise base e', tab.map (raise base) ++ [e0], rfl, htab', ?_⟩
    obtain ⟨hfirst, _⟩ := hl.half 0 (by omega)
    rw [hl.first] at hfirst
    rw [hdig, hfirst, Nat.mul_left_comm]
    exact Nat.mul_le_mul_left _ (by omega)

/-- **`mpn_get_str` writes every normal number**: in every base and by whichever of its
branches, as digits with the value of the number and no zero in front. -/
theorem mpnGetStr_spec (K : MulKernel) (D : DivKernel) (h2 : 2 ≤ base) (h256 : base ≤ 256)
    {xn : ℕ} {up : List UInt64} (hnormal : Normalized up)
    (hxn : pow2P base = false → val up < (mpBases base).bigBase.toNat ^ xn) :
    ∃ s, mpnGetStr K D xn base up = some s ∧ Digits base s ∧ numeral base s = val up ∧
      (up = [] → s = [0]) ∧ (up ≠ [] → Minimal s) := by
  unfold mpnGetStr
  by_cases h0 : up.length = 0
  · obtain rfl := List.length_eq_zero_iff.mp h0
    rw [if_pos h0]
    refine ⟨[0], rfl, digits_replicate_zero (by omega) 1, ?_, fun _ => rfl, ?_⟩
    · exact numeral_replicate_zero base 1
    · exact fun hne => absurd rfl hne
  · have hne : up ≠ [] := fun hnil => h0 (by rw [hnil]; rfl)
    rw [if_neg h0]
    by_cases hp : pow2P base = true
    · obtain ⟨hdig, hval, hmin⟩ := pow2GetStr_spec h2 h256 hp hne hnormal
      rw [if_pos hp]
      exact ⟨_, rfl, hdig, hval, fun hnil => absurd hnil hne, fun _ => hmin⟩
    · rw [if_neg hp]
      rw [Bool.not_eq_true] at hp
      have hxn := hxn hp
      have hfit := mpBases_fits h2 h256 hp
      by_cases hthr : up.length < getStrPrecomputeThreshold
      · have hw := writtenAs_sb h2 h256 hp hne (below_two_mul hfit h256 up) 0
        rw [if_pos hthr]
        exact ⟨_, rfl, hw.digits, hw.numeral_eq, fun hnil => absurd hnil hne,
          fun _ => hw.minimal hnormal rfl⟩
      · have hlow := hnormal.le_val hne
        have hpos : 0 < (2 ^ 64) ^ (up.length - 1) := Nat.pow_pos (by norm_num)
        have hxn0 : 0 < xn := by
          rcases Nat.eq_zero_or_pos xn with rfl | hpos'
          · rw [pow_zero] at hxn
            omega
          · exact hpos'
        rw [hfit.bigBase_eq, ← pow_mul] at hxn
        obtain ⟨e, tab, htable, htab, hdigits⟩ := getPowtab_powtab K h2 h256 hp hxn0
        obtain ⟨s, hs, hw⟩ := mpnDcGetStr_spec D h2 h256 hp htab 0 hne
          ⟨hxn, hlow.trans hxn.le⟩ hdigits (Or.inl rfl)
        rw [if_neg hthr, htable]
        exact ⟨s, hs, hw.digits, hw.numeral_eq, fun hnil => absurd hnil hne,
          fun _ => hw.minimal hnormal rfl⟩

end

/-- Long division on the values. -/
def DivKernel.plain : DivKernel where
  tdivQr np dp :=
    (limbsOf (np.length - dp.length + 1) (val np / val dp), limbsOf dp.length (val np % val dp))
  length_quotient _ _ _ := length_limbsOf _ _
  length_remainder _ _ _ := length_limbsOf _ _
  val_eq := by
    intro np dp hne hnormal hle
    have hpos := List.length_pos_of_ne_nil hne
    have hlow := hnormal.le_val hne
    have hdpos : 0 < val dp := lt_of_lt_of_le (Nat.pow_pos (by norm_num)) hlow
    have hq : val np / val dp < (2 ^ 64) ^ (np.length - dp.length + 1) := by
      rw [Nat.div_lt_iff_lt_mul hdpos]
      calc val np < (2 ^ 64) ^ np.length := val_lt np
        _ = (2 ^ 64) ^ (np.length - dp.length + 1) * (2 ^ 64) ^ (dp.length - 1) := by
            rw [← pow_add]
            congr 1
            omega
        _ ≤ (2 ^ 64) ^ (np.length - dp.length + 1) * val dp := Nat.mul_le_mul_left _ hlow
    have hr : val np % val dp < (2 ^ 64) ^ dp.length := (Nat.mod_lt _ hdpos).trans (val_lt dp)
    dsimp only
    rw [val_limbsOf hq, val_limbsOf hr, Nat.mul_comm]
    exact Nat.div_add_mod _ _
  lt := by
    intro np dp hne hnormal _
    have hlow := hnormal.le_val hne
    have hdpos : 0 < val dp := lt_of_lt_of_le (Nat.pow_pos (by norm_num)) hlow
    have hr : val np % val dp < (2 ^ 64) ^ dp.length := (Nat.mod_lt _ hdpos).trans (val_lt dp)
    dsimp only
    rw [val_limbsOf hr]
    exact Nat.mod_lt _ hdpos

end Mpir
end SecureDesign
