/-
# Reading a long numeral

`mpn_set_str` (`mpn/generic/set_str.c`) with its third branch.  A long string is split
so that the lower part has as many digits as a power in a table; both parts are read
recursively and the upper one is multiplied by the power.

The table starts from `big_base` and squares, dividing by `big_base` once where the
squared power would have too many digits (`mpn_set_str_compute_powtab`).  Its powers
are stored without their zero limbs at the bottom, as far as they stay divisible by
`big_base`; `shift` counts these limbs.  An entry is a power of the base of
`digits_in_base` digits (`Powers.Valid`), and no entry has more than twice the digits
of the next (`Powtab`), which is why the recursion never runs past the end of the
table.
-/

import SecureDesign.Mpir.DivExact
import SecureDesign.Mpir.Mul
import SecureDesign.Mpir.Powers
import SecureDesign.Mpir.SetStrBase

namespace SecureDesign
namespace Mpir

open CLang

/-- `SET_STR_DC_THRESHOLD`. -/
def setStrDcThreshold : ℕ := 750

/-- `SET_STR_PRECOMPUTE_THRESHOLD`. -/
def setStrPrecomputeThreshold : ℕ := 2000

/-- The inner loop of `mpn_set_str_compute_powtab`: low zero limbs go as long as the
rest stays divisible by the power of two in `big_base`. -/
def stripLow (mask : UInt64) : List UInt64 → ℕ → List UInt64 × ℕ
  | t0 :: t1 :: t, shift =>
      if t0 = 0 ∧ t1 &&& mask = 0 then stripLow mask (t1 :: t) (shift + 1)
      else (t0 :: t1 :: t, shift)
  | t, shift => (t, shift)

/-- The step of `mpn_set_str_compute_powtab` from entry `pi + 1` to entry `pi`. -/
def powtabStep (K : MulKernel) (base un pi : ℕ) (e : Powers) : Powers :=
  let bigBase := (mpBases base).bigBase
  let t := dropTop (K.sqr e.p) (2 * e.p.length)
  let digits := 2 * e.digitsInBase
  let adjust := ((un - 1) >>> pi) &&& 2 = 0
  let t := if adjust then dropTop (mpnDivexact1 t bigBase) t.length else t
  let digits := if adjust then digits - (mpBases base).charsPerLimb else digits
  let x := stripLow ((bigBase &&& -bigBase) - 1) t (2 * e.shift)
  { p := x.1, shift := x.2, digitsInBase := digits, base := base }

/-- The loop of `mpn_set_str_compute_powtab` below the entry `e`, which is the first of
the table so far. -/
def powtabLoop (K : MulKernel) (base un : ℕ) : ℕ → Powers → List Powers → List Powers
  | 0, e, tab => e :: tab
  | pi + 1, e, tab => powtabLoop K base un pi (powtabStep K base un pi e) (e :: tab)

/-- `mpn_set_str_compute_powtab`: the table from entry zero on. -/
def mpnSetStrComputePowtab (K : MulKernel) (un base : ℕ) : List Powers :=
  let i := 64 - 1 - countLeadingZeros (UInt64.ofNat (un - 1))
  powtabLoop K base un i (Powers.bigBase base) []

/-- The loop of `mpn_incr_u` after the first limb. -/
def incrLoop : List UInt64 → List UInt64
  | [] => []
  | x :: p => if x + 1 = 0 then (x + 1) :: incrLoop p else (x + 1) :: p

/-- `mpn_incr_u (p, incr)`, on the limbs that are there. -/
def mpnIncrU (p : List UInt64) (incr : UInt64) : List UInt64 :=
  match p with
  | [] => []
  | x :: p => if x + incr < incr then (x + incr) :: incrLoop p else (x + incr) :: p

/-- The part of `mpn_dc_set_str` that puts the two halves together. -/
def dcCombine (K : MulKernel) (e : Powers) (hi lo : List UInt64) : List UInt64 :=
  let sn := e.shift
  let rp :=
    if hi.length = 0 then List.replicate (e.p.length + sn) 0
    else List.replicate sn 0 ++
      (if hi.length < e.p.length then K.mul e.p hi else K.mul hi e.p)
  let x := mpnAddN (rp.take lo.length) lo
  let rp := if lo.length ≠ 0 then x.1 ++ mpnIncrU (rp.drop lo.length) x.2 else rp
  dropTop rp (hi.length + e.p.length + sn)

/-- `mpn_dc_set_str`.  There is no result when the recursion runs past the table. -/
def mpnDcSetStr (K : MulKernel) : List Powers → List UInt8 → Option (List UInt64)
  | [], _ => none
  | e :: tab, str =>
      let lenLo := e.digitsInBase
      if str.length ≤ lenLo then
        if str.length < setStrDcThreshold then some (mpnBcSetStr str e.base)
        else mpnDcSetStr K tab str
      else
        let lenHi := str.length - lenLo
        let hi :=
          if lenHi < setStrDcThreshold then some (mpnBcSetStr (str.take lenHi) e.base)
          else mpnDcSetStr K tab (str.take lenHi)
        let lo :=
          if lenLo < setStrDcThreshold then some (mpnBcSetStr (str.drop lenHi) e.base)
          else mpnDcSetStr K tab (str.drop lenHi)
        hi.bind fun hi => lo.bind fun lo => some (dcCombine K e hi lo)

/-- `mpn_set_str`. -/
def mpnSetStr (K : MulKernel) (str : List UInt8) (base : ℕ) : Option (List UInt64) :=
  if pow2P base then some (pow2SetStr str base)
  else if str.length < setStrPrecomputeThreshold then some (mpnBcSetStr str base)
  else
    let un := str.length / (mpBases base).charsPerLimb + 1
    mpnDcSetStr K (mpnSetStrComputePowtab K un base) str

/-! ### Carries -/

theorem incrLoop_spec {p : List UInt64} (h : val p + 1 < (2 ^ 64) ^ p.length) :
    (incrLoop p).length = p.length ∧ val (incrLoop p) = val p + 1 := by
  induction p with
  | nil => simp at h
  | cons x p ih =>
      have hx := x.toNat_lt
      rw [incrLoop]
      by_cases h0 : x + 1 = 0
      · have htop : x.toNat + 1 = 2 ^ 64 := by
          have h₁ := UInt64.toNat_add x 1
          rw [h0, UInt64.toNat_zero, UInt64.toNat_one] at h₁
          omega
        rw [if_pos h0]
        rw [val_cons, List.length_cons, pow_succ (2 ^ 64), Nat.mul_comm _ (2 ^ 64)] at h
        obtain ⟨hl, hv⟩ := ih (by
          have h₁ : 2 ^ 64 * (val p + 1) < 2 ^ 64 * (2 ^ 64) ^ p.length := by omega
          exact Nat.lt_of_mul_lt_mul_left h₁)
        refine ⟨by simp [hl], ?_⟩
        rw [val_cons, val_cons, hv, h0, UInt64.toNat_zero]
        omega
      · have hne : x.toNat + 1 < 2 ^ 64 := by
          have h₁ := toNat_ne_zero h0
          rw [UInt64.toNat_add, UInt64.toNat_one] at h₁
          omega
        rw [if_neg h0]
        refine ⟨by simp, ?_⟩
        rw [val_cons, val_cons, toNat_add_of_lt (by rwa [UInt64.toNat_one]), UInt64.toNat_one]
        omega

/-- **`mpn_incr_u` adds a limb**, when the sum still fits. -/
theorem mpnIncrU_spec (p : List UInt64) (incr : UInt64)
    (h : val p + incr.toNat < (2 ^ 64) ^ p.length) :
    (mpnIncrU p incr).length = p.length ∧ val (mpnIncrU p incr) = val p + incr.toNat := by
  cases p with
  | nil =>
      simp only [val_nil, List.length_nil, pow_zero] at h
      rw [mpnIncrU, val_nil]
      exact ⟨rfl, by omega⟩
  | cons x p =>
      have hcy : (x + incr).toNat + 2 ^ 64 * (decide (x + incr < incr)).toNat
          = incr.toNat + x.toNat := by
        rw [UInt64.add_comm]
        exact toNat_add_carry incr x
      rw [mpnIncrU]
      by_cases hc : x + incr < incr
      · rw [decide_eq_true hc, Bool.toNat_true] at hcy
        rw [if_pos hc]
        rw [val_cons, List.length_cons, pow_succ (2 ^ 64), Nat.mul_comm _ (2 ^ 64)] at h
        obtain ⟨hl, hv⟩ := incrLoop_spec (p := p) (by
          have h₁ : 2 ^ 64 * (val p + 1) < 2 ^ 64 * (2 ^ 64) ^ p.length := by omega
          exact Nat.lt_of_mul_lt_mul_left h₁)
        refine ⟨by simp [hl], ?_⟩
        rw [val_cons, val_cons, hv]
        calc (x + incr).toNat + 2 ^ 64 * (val p + 1)
            = (x + incr).toNat + 2 ^ 64 * 1 + 2 ^ 64 * val p := by ring
          _ = x.toNat + 2 ^ 64 * val p + incr.toNat := by rw [hcy]; ring
      · rw [decide_eq_false hc, Bool.toNat_false] at hcy
        rw [if_neg hc]
        refine ⟨by simp, ?_⟩
        rw [val_cons, val_cons]
        omega

/-- **A number is added at the low end**: the carry is taken up by the limbs above, which
have room for it when the sum fits. -/
theorem addIncr_spec (rp lo : List UInt64) (hle : lo.length ≤ rp.length)
    (h : val rp + val lo < (2 ^ 64) ^ rp.length) :
    val (rp.drop lo.length) + (mpnAddN (rp.take lo.length) lo).2.toNat
        < (2 ^ 64) ^ (rp.drop lo.length).length ∧
      ((mpnAddN (rp.take lo.length) lo).1
        ++ mpnIncrU (rp.drop lo.length) (mpnAddN (rp.take lo.length) lo).2).length = rp.length ∧
      val ((mpnAddN (rp.take lo.length) lo).1
        ++ mpnIncrU (rp.drop lo.length) (mpnAddN (rp.take lo.length) lo).2)
        = val rp + val lo := by
  have htake : (rp.take lo.length).length = lo.length := by
    rw [List.length_take, Nat.min_eq_left hle]
  have hadd := mpnAddN_eq htake
  rw [htake] at hadd
  generalize mpnAddN (rp.take lo.length) lo = x at hadd ⊢
  have hsplit := val_take_add_drop rp lo.length
  rw [htake] at hsplit
  have hx : val x.1 + (2 ^ 64) ^ lo.length * x.2.toNat = val (rp.take lo.length) + val lo := by
    have h := hadd.val
    zify
    push_cast at h ⊢
    linear_combination h
  have hall : val x.1 + (2 ^ 64) ^ lo.length * (val (rp.drop lo.length) + x.2.toNat)
      = val rp + val lo := by
    calc _ = (val x.1 + (2 ^ 64) ^ lo.length * x.2.toNat)
          + (2 ^ 64) ^ lo.length * val (rp.drop lo.length) := by ring
      _ = val (rp.take lo.length) + (2 ^ 64) ^ lo.length * val (rp.drop lo.length) + val lo := by
          rw [hx]
          ring
      _ = val rp + val lo := by rw [hsplit]
  have hroom : val (rp.drop lo.length) + x.2.toNat < (2 ^ 64) ^ (rp.drop lo.length).length := by
    have h₁ : (2 ^ 64) ^ lo.length * (val (rp.drop lo.length) + x.2.toNat)
        < (2 ^ 64) ^ lo.length * (2 ^ 64) ^ (rp.drop lo.length).length := by
      rw [← pow_add, List.length_drop, Nat.add_sub_cancel' hle]
      omega
    exact Nat.lt_of_mul_lt_mul_left h₁
  obtain ⟨hilen, hival⟩ := mpnIncrU_spec (rp.drop lo.length) x.2 hroom
  refine ⟨hroom, ?_, ?_⟩
  · rw [List.length_append, hadd.length, hilen, List.length_drop]
    omega
  · rw [val_append, hadd.length, hival, hall]

/-! ### Putting two halves together -/

section

variable {base : ℕ} {e : Powers} {hi lo : List UInt64}

/-- The upper half times the power. -/
theorem dcProduct_spec (K : MulKernel) (he : e.Valid base) (hi : List UInt64) :
    let rp := if hi.length = 0 then List.replicate (e.p.length + e.shift) 0
      else List.replicate e.shift 0 ++
        (if hi.length < e.p.length then K.mul e.p hi else K.mul hi e.p)
    rp.length = hi.length + e.p.length + e.shift ∧
      val rp = val hi * base ^ e.digitsInBase := by
  by_cases h0 : hi.length = 0
  · obtain rfl := List.length_eq_zero_iff.mp h0
    simp
  · have hne : hi ≠ [] := fun hnil => h0 (by rw [hnil]; rfl)
    have hmul : (if hi.length < e.p.length then K.mul e.p hi else K.mul hi e.p).length
          = hi.length + e.p.length ∧
        val (if hi.length < e.p.length then K.mul e.p hi else K.mul hi e.p)
          = val hi * val e.p := by
      by_cases hlt : hi.length < e.p.length
      · rw [if_pos hlt, K.length_mul hne hlt.le, K.val_mul hne hlt.le]
        exact ⟨Nat.add_comm _ _, Nat.mul_comm _ _⟩
      · rw [if_neg hlt, K.length_mul he.ne_nil (by omega), K.val_mul he.ne_nil (by omega)]
        exact ⟨rfl, rfl⟩
    dsimp only
    rw [if_neg h0, List.length_append, List.length_replicate, val_zeros_append, hmul.1, hmul.2,
      ← he.val_eq]
    exact ⟨by omega, by ring⟩

/-- **The two halves together**: the value, and how many limbs it has. -/
theorem dcCombine_spec (K : MulKernel) (he : e.Valid base) (hi : List UInt64)
    (hlo : val lo < base ^ e.digitsInBase) (hlen : lo.length ≤ e.p.length + e.shift) :
    val (dcCombine K e hi lo) = val hi * base ^ e.digitsInBase + val lo ∧
      ((dcCombine K e hi lo).length = hi.length + e.p.length + e.shift ∧
          (2 ^ 64) ^ (hi.length + e.p.length + e.shift - 1)
            ≤ val hi * base ^ e.digitsInBase + val lo ∨
        (dcCombine K e hi lo).length = hi.length + e.p.length + e.shift - 1) ∧
      ((2 ^ 64) ^ (hi.length + e.p.length + e.shift - 2)
          ≤ val hi * base ^ e.digitsInBase + val lo → Normalized (dcCombine K e hi lo)) := by
  have hppos := List.length_pos_of_ne_nil he.ne_nil
  have htotal : val hi * base ^ e.digitsInBase + val lo
      < (2 ^ 64) ^ (hi.length + e.p.length + e.shift) := by
    calc val hi * base ^ e.digitsInBase + val lo
        < (val hi + 1) * base ^ e.digitsInBase := by rw [Nat.add_mul, Nat.one_mul]; omega
      _ ≤ (2 ^ 64) ^ hi.length * (2 ^ 64) ^ (e.p.length + e.shift) :=
        Nat.mul_le_mul (val_lt hi) he.pow_lt.le
      _ = (2 ^ 64) ^ (hi.length + e.p.length + e.shift) := by rw [← pow_add, Nat.add_assoc]
  obtain ⟨hrlen, hrval⟩ := dcProduct_spec K he hi
  rw [dcCombine]
  generalize (if hi.length = 0 then List.replicate (e.p.length + e.shift) 0
    else List.replicate e.shift 0 ++
      (if hi.length < e.p.length then K.mul e.p hi else K.mul hi e.p)) = rp at hrlen hrval ⊢
  -- The lower half is added at the bottom and the carry runs up.
  have hsum : (if lo.length ≠ 0 then (mpnAddN (rp.take lo.length) lo).1
        ++ mpnIncrU (rp.drop lo.length) (mpnAddN (rp.take lo.length) lo).2 else rp).length
        = hi.length + e.p.length + e.shift ∧
      val (if lo.length ≠ 0 then (mpnAddN (rp.take lo.length) lo).1
        ++ mpnIncrU (rp.drop lo.length) (mpnAddN (rp.take lo.length) lo).2 else rp)
        = val hi * base ^ e.digitsInBase + val lo := by
    by_cases h0 : lo.length ≠ 0
    · obtain ⟨-, hlen, hval⟩ := addIncr_spec rp lo (by omega)
        (by rw [hrval, hrlen]; omega)
      rw [if_pos h0, hlen, hval, hrval]
      exact ⟨hrlen, rfl⟩
    · obtain rfl := List.length_eq_zero_iff.mp (not_not.mp h0)
      rw [if_neg h0, val_nil, Nat.add_zero]
      exact ⟨hrlen, hrval⟩
  generalize (if lo.length ≠ 0 then (mpnAddN (rp.take lo.length) lo).1
    ++ mpnIncrU (rp.drop lo.length) (mpnAddN (rp.take lo.length) lo).2 else rp) = r at hsum ⊢
  obtain ⟨hslen, hsval⟩ := hsum
  obtain ⟨hval, hcase⟩ := dropTop_spec (by omega) hslen
  rw [hsval] at hval hcase
  refine ⟨hval, hcase, fun hle => ?_⟩
  exact dropTop_normal (by omega) hslen (by rwa [hsval])

end

/-! ### The recursion -/

/-- The limbs `rp` read a string: they have its value, no more limbs than it can need,
and are normal when the string has no zero in front. -/
structure ReadAs (base : ℕ) (str : List UInt8) (rp : List UInt64) : Prop where
  val_eq : val rp = numeral base str
  le_pow : (2 ^ 64) ^ (rp.length - 1) ≤ base ^ str.length
  normal : Minimal str → Normalized rp

section

variable {base : ℕ} {str : List UInt8}

theorem readAs_bc (h2 : 2 ≤ base) (h256 : base ≤ 256) (hp : pow2P base = false)
    (hne : str ≠ []) (hdig : Digits base str) : ReadAs base str (mpnBcSetStr str base) := by
  obtain ⟨hval, hnormal⟩ := mpnBcSetStr_spec h2 h256 hp hne hdig
  refine ⟨hval, ?_, fun _ => hnormal⟩
  by_cases h0 : mpnBcSetStr str base = []
  · rw [h0]
    exact Nat.pow_pos (by omega)
  · exact (hnormal.le_val h0).trans (hval ▸ hdig.numeral_lt.le)

/-- The two halves of a string, read and put together. -/
theorem ReadAs.combine (K : MulKernel) (h2 : 2 ≤ base) {e : Powers} (he : e.Valid base)
    (hdig : Digits base str) (hlong : e.digitsInBase < str.length) {hi lo : List UInt64}
    (hhi : ReadAs base (str.take (str.length - e.digitsInBase)) hi)
    (hlo : ReadAs base (str.drop (str.length - e.digitsInBase)) lo) :
    ReadAs base str (dcCombine K e hi lo) := by
  have hppos := List.length_pos_of_ne_nil he.ne_nil
  have hlolen : (str.drop (str.length - e.digitsInBase)).length = e.digitsInBase := by
    rw [List.length_drop]
    omega
  have hhilen : (str.take (str.length - e.digitsInBase)).length
      = str.length - e.digitsInBase := by
    rw [List.length_take]
    omega
  have hnum : val hi * base ^ e.digitsInBase + val lo = numeral base str := by
    rw [hhi.val_eq, hlo.val_eq]
    nth_rewrite 2 [← hlolen]
    rw [← numeral_append, List.take_append_drop]
  have hlolt : val lo < base ^ e.digitsInBase := by
    have h := (hdig.drop (str.length - e.digitsInBase)).numeral_lt
    rwa [hlolen, ← hlo.val_eq] at h
  have hhile := hhi.le_pow
  have hlole := hlo.le_pow
  rw [hhilen] at hhile
  rw [hlolen] at hlole
  have hfit : lo.length ≤ e.p.length + e.shift := by
    have h₁ : (2 ^ 64) ^ (lo.length - 1) < (2 ^ 64) ^ (e.p.length + e.shift) :=
      hlole.trans_lt he.pow_lt
    have h₂ := (Nat.pow_lt_pow_iff_right (by norm_num)).mp h₁
    omega
  obtain ⟨hval, hcase, hnormal⟩ := dcCombine_spec K he hi hlolt hfit
  rw [hnum] at hval hcase hnormal
  -- The next to last limb has at most the weight of the string.
  have hweight : (2 ^ 64) ^ (hi.length + e.p.length + e.shift - 2) ≤ base ^ str.length := by
    calc (2 ^ 64) ^ (hi.length + e.p.length + e.shift - 2)
        ≤ (2 ^ 64) ^ (hi.length - 1 + (e.p.length + e.shift - 1)) :=
          Nat.pow_le_pow_right (by norm_num) (by omega)
      _ = (2 ^ 64) ^ (hi.length - 1) * (2 ^ 64) ^ (e.p.length + e.shift - 1) := pow_add _ _ _
      _ ≤ base ^ (str.length - e.digitsInBase) * base ^ e.digitsInBase :=
          Nat.mul_le_mul hhile he.le_pow
      _ = base ^ str.length := by rw [← pow_add, Nat.sub_add_cancel hlong.le]
  refine ⟨hval, ?_, fun hmin => hnormal ?_⟩
  · rcases hcase with ⟨hlen, hle⟩ | hlen
    · rw [hlen]
      exact hle.trans hdig.numeral_lt.le
    · rw [hlen, Nat.sub_sub]
      exact hweight
  · have htake : str.take (str.length - e.digitsInBase) ≠ [] := by
      intro hnil
      rw [hnil, List.length_nil] at hhilen
      omega
    have hmin' : Minimal (str.take (str.length - e.digitsInBase)) := by
      rwa [CLang.Minimal, List.head?_take, if_neg (by omega)]
    have hhine : hi ≠ [] := by
      rintro rfl
      have h₁ := hmin'.le_numeral (b := base) htake
      have h₂ : 0 < base ^ ((str.take (str.length - e.digitsInBase)).length - 1) :=
        Nat.pow_pos (by omega)
      rw [← hhi.val_eq, val_nil] at h₁
      omega
    have hhipos := List.length_pos_of_ne_nil hhine
    calc (2 ^ 64) ^ (hi.length + e.p.length + e.shift - 2)
        = (2 ^ 64) ^ (hi.length - 1) * (2 ^ 64) ^ (e.p.length + e.shift - 1) := by
          rw [← pow_add]
          congr 1
          omega
      _ ≤ val hi * base ^ e.digitsInBase :=
          Nat.mul_le_mul ((hhi.normal hmin').le_val hhine) he.le_pow
      _ ≤ numeral base str := by
          rw [← hnum]
          exact Nat.le_add_right _ _

/-- A group of digits that fits a limb is below the threshold. -/
theorem charsPerLimb_lt (h2 : 2 ≤ base) (h256 : base ≤ 256) (hp : pow2P base = false) :
    (mpBases base).charsPerLimb < 64 := by
  have hlt := (mpBases_fits h2 h256 hp).pow_lt h2 le_rfl
  have hle : 2 ^ (mpBases base).charsPerLimb ≤ base ^ (mpBases base).charsPerLimb :=
    Nat.pow_le_pow_left h2 _
  exact (Nat.pow_lt_pow_iff_right (by norm_num)).mp (hle.trans_lt hlt)

/-- **`mpn_dc_set_str` reads every string of at most twice the digits of its entry**, and
stays inside the table. -/
theorem mpnDcSetStr_spec (K : MulKernel) (h2 : 2 ≤ base) (h256 : base ≤ 256)
    (hp : pow2P base = false) {e : Powers} {tab : List Powers} (htab : Powtab base (e :: tab))
    (hne : str ≠ []) (hdig : Digits base str) (hlen : str.length ≤ 2 * e.digitsInBase) :
    ∃ rp, mpnDcSetStr K (e :: tab) str = some rp ∧ ReadAs base str rp := by
  induction tab generalizing e str with
  | nil =>
      cases htab with
      | last he hd =>
          -- Two groups of digits are below the threshold, and so are their parts.
          have hcpl := charsPerLimb_lt h2 h256 hp
          have hthr : setStrDcThreshold = 750 := rfl
          rw [mpnDcSetStr, he.base_eq]
          dsimp only
          by_cases hshort : str.length ≤ e.digitsInBase
          · rw [if_pos hshort, if_pos (by omega)]
            exact ⟨_, rfl, readAs_bc h2 h256 hp hne hdig⟩
          · rw [if_neg hshort, if_pos (by omega), if_pos (by omega), Option.bind_some,
              Option.bind_some]
            refine ⟨_, rfl, ReadAs.combine K h2 he hdig (by omega) ?_ ?_⟩
            · refine readAs_bc h2 h256 hp ?_ (hdig.take _)
              rw [Ne, List.take_eq_nil_iff]
              exact fun h => h.elim (by omega) hne
            · refine readAs_bc h2 h256 hp ?_ (hdig.drop _)
              rw [Ne, List.drop_eq_nil_iff]
              have := he.digits_pos
              omega
  | cons e' tab ih =>
      cases htab with
      | cons he hle htab =>
          -- A part of a string: short, or read from the next entry on.
          have hpart : ∀ s : List UInt8, s ≠ [] → Digits base s → s.length ≤ e.digitsInBase →
              ∃ rp, (if s.length < setStrDcThreshold then some (mpnBcSetStr s base)
                else mpnDcSetStr K (e' :: tab) s) = some rp ∧ ReadAs base s rp := by
            intro s hs hsdig hslen
            by_cases hthr : s.length < setStrDcThreshold
            · rw [if_pos hthr]
              exact ⟨_, rfl, readAs_bc h2 h256 hp hs hsdig⟩
            · rw [if_neg hthr]
              exact ih htab hs hsdig (by omega)
          rw [mpnDcSetStr, he.base_eq]
          dsimp only
          by_cases hshort : str.length ≤ e.digitsInBase
          · rw [if_pos hshort]
            exact hpart str hne hdig hshort
          · have hdpos := he.digits_pos
            have hhilen : (str.take (str.length - e.digitsInBase)).length
                = str.length - e.digitsInBase := by
              rw [List.length_take]
              omega
            have hlolen : (str.drop (str.length - e.digitsInBase)).length = e.digitsInBase := by
              rw [List.length_drop]
              omega
            obtain ⟨hi, hhi, hhir⟩ := hpart (str.take (str.length - e.digitsInBase))
              (by rw [Ne, List.take_eq_nil_iff]; exact fun h => h.elim (by omega) hne) (hdig.take _) (by omega)
            obtain ⟨lo, hlo, hlor⟩ := hpart (str.drop (str.length - e.digitsInBase))
              (by rw [Ne, List.drop_eq_nil_iff]; omega) (hdig.drop _) (by omega)
            rw [hhilen] at hhi
            rw [hlolen] at hlo
            rw [if_neg hshort, hhi, hlo, Option.bind_some, Option.bind_some]
            exact ⟨_, rfl, hhir.combine K h2 he hdig (by omega) hlor⟩

end

/-! ### The table -/

/-- An entry as the table is built: a power of `big_base`, and still divisible by it. -/
structure Powers.Built (base k : ℕ) (e : Powers) : Prop where
  valid : e.Valid base
  pos : 0 < k
  digits_eq : e.digitsInBase = (mpBases base).charsPerLimb * k
  dvd : (mpBases base).bigBase.toNat ∣ val e.p

/-- **Stripping low zero limbs** keeps the value up to the shift and the divisibility. -/
theorem stripLow_spec {d : UInt64} {t : List UInt64} (hne : t ≠ [])
    (hnormal : Normalized t) (hdvd : d.toNat ∣ val t) (hd : d ≠ 0) (shift : ℕ) :
    let x := stripLow ((d &&& -d) - 1) t shift
    val x.1 * (2 ^ 64) ^ x.2 = val t * (2 ^ 64) ^ shift ∧ x.1 ≠ [] ∧ Normalized x.1 ∧
      d.toNat ∣ val x.1 := by
  induction t generalizing shift with
  | nil => exact absurd rfl hne
  | cons t0 t ih =>
      match t with
      | [] => exact ⟨rfl, hne, hnormal, hdvd⟩
      | t1 :: t =>
          rw [stripLow]
          by_cases hz : t0 = 0 ∧ t1 &&& (d &&& -d) - 1 = 0
          · rw [if_pos hz]
            obtain ⟨rfl, hmask⟩ := hz
            obtain ⟨a, o, ⟨k, rfl⟩, hx⟩ := Nat.exists_eq_two_pow_mul_odd (toNat_ne_zero hd).ne'
            have ha : a < 64 := by
              by_contra hge
              have h₁ : 2 ^ 64 ≤ 2 ^ a := Nat.pow_le_pow_right (by norm_num) (Nat.not_lt.mp hge)
              have h₂ : 2 ^ a * 1 ≤ 2 ^ a * (2 * k + 1) := Nat.mul_le_mul_left _ (by omega)
              have := d.toNat_lt
              omega
            -- The mask selects the bits below the power of two in the divisor.
            have hlow : t1.toNat % 2 ^ a = 0 := by
              have hbit := toNat_lowest_bit hx
              have hpos := Nat.two_pow_pos a
              have hlt : 2 ^ a < 2 ^ 64 := Nat.pow_lt_pow_right (by norm_num) ha
              have hm : ((d &&& -d) - 1).toNat = 2 ^ a - 1 := by
                rw [UInt64.toNat_sub, hbit, UInt64.toNat_one]
                omega
              have h := congrArg UInt64.toNat hmask
              rwa [UInt64.toNat_and, hm, Nat.and_two_pow_sub_one_eq_mod, UInt64.toNat_zero] at h
            have hval : val (0 :: t1 :: t) = 2 ^ 64 * val (t1 :: t) := by
              rw [val_cons, UInt64.toNat_zero, Nat.zero_add]
            have htwo : 2 ^ a ∣ val (t1 :: t) := by
              rw [val_cons]
              refine Nat.dvd_add (Nat.dvd_of_mod_eq_zero hlow) ?_
              exact (pow_dvd_pow 2 ha.le).mul_right _
            have hodd : 2 * k + 1 ∣ val (t1 :: t) := by
              have h₁ : 2 * k + 1 ∣ 2 ^ 64 * val (t1 :: t) := by
                rw [← hval]
                exact (Dvd.intro_left _ hx.symm).trans hdvd
              refine Nat.Coprime.dvd_of_dvd_mul_left (Nat.Coprime.pow_right _ ?_) h₁
              rw [Nat.coprime_comm, Nat.coprime_two_left]
              exact ⟨k, rfl⟩
            have hcop : Nat.Coprime (2 ^ a) (2 * k + 1) := by
              refine Nat.Coprime.pow_left _ ?_
              rw [Nat.coprime_two_left]
              exact ⟨k, rfl⟩
            have hdvd' : d.toNat ∣ val (t1 :: t) := by
              rw [hx]
              exact hcop.mul_dvd_of_dvd_of_dvd htwo hodd
            have hnormal' : Normalized (t1 :: t) := by
              rwa [Normalized, List.getLast?_cons_cons] at hnormal
            obtain ⟨hv, hrest⟩ := ih (List.cons_ne_nil _ _) hnormal' hdvd' (shift + 1)
            refine ⟨?_, hrest⟩
            rw [hv, hval]
            ring
          · rw [if_neg hz]
            exact ⟨rfl, hne, hnormal, hdvd⟩

section

variable {base : ℕ}

/-- **One step of the table**: the exponent doubles, less one where the step divides. -/
theorem powtabStep_built (K : MulKernel) (h2 : 2 ≤ base) (h256 : base ≤ 256)
    (hp : pow2P base = false) (un pi : ℕ) {k : ℕ} {e : Powers} (he : e.Built base k) :
    (powtabStep K base un pi e).Built base
      (if ((un - 1) >>> pi) &&& 2 = 0 then 2 * k - 1 else 2 * k) := by
  have hfit := mpBases_fits h2 h256 hp
  have hbig : 0 < (mpBases base).bigBase.toNat := by
    rw [hfit.bigBase_eq]
    exact Nat.pow_pos (by omega)
  have hbig0 : (mpBases base).bigBase ≠ 0 := by
    intro h0
    rw [h0, UInt64.toNat_zero] at hbig
    omega
  have hbiglt := (mpBases base).bigBase.toNat_lt
  have hcpl := hfit.charsPerLimb_pos
  have hk := he.pos
  have hppos := List.length_pos_of_ne_nil he.valid.ne_nil
  have hplow := he.valid.normal.le_val he.valid.ne_nil
  obtain ⟨x, hx⟩ := he.dvd
  -- The square.
  have hsqlen := K.length_sqr he.valid.ne_nil
  have hsqval := K.val_sqr he.valid.ne_nil
  have hsqlow : (2 ^ 64) ^ (2 * e.p.length - 2) ≤ val (K.sqr e.p) := by
    rw [hsqval, show 2 * e.p.length - 2 = (e.p.length - 1) + (e.p.length - 1) by omega, pow_add]
    exact Nat.mul_le_mul hplow hplow
  have htval := (dropTop_spec (by omega) hsqlen).1
  have htnormal := dropTop_normal (by omega) hsqlen hsqlow
  have htne : dropTop (K.sqr e.p) (2 * e.p.length) ≠ [] := by
    intro hnil
    rw [hnil, val_nil, hsqval] at htval
    have : 0 < (2 ^ 64) ^ (e.p.length - 1) := Nat.pow_pos (by norm_num)
    have hpos : 0 < val e.p * val e.p := Nat.mul_pos (by omega) (by omega)
    omega
  rw [hsqval] at htval
  generalize hT : dropTop (K.sqr e.p) (2 * e.p.length) = t at htval htnormal htne
  have hpow : val t * (2 ^ 64) ^ (2 * e.shift) = base ^ (2 * e.digitsInBase) := by
    rw [htval, two_mul, pow_add, two_mul, pow_add, ← he.valid.val_eq]
    ring
  -- The entry before the low limbs go.
  have hpre : ∀ (t' : List UInt64) (digits k' : ℕ), t' ≠ [] → Normalized t' → 0 < k' →
      digits = (mpBases base).charsPerLimb * k' →
      val t' * (2 ^ 64) ^ (2 * e.shift) = base ^ digits → (mpBases base).bigBase.toNat ∣ val t' →
      Powers.Built base k'
        { p := (stripLow (((mpBases base).bigBase &&& -(mpBases base).bigBase) - 1) t'
            (2 * e.shift)).1,
          shift := (stripLow (((mpBases base).bigBase &&& -(mpBases base).bigBase) - 1) t'
            (2 * e.shift)).2,
          digitsInBase := digits, base := base } := by
    intro t' digits k' hne hnormal hk' hdigits hval hdvd
    obtain ⟨hsval, hsne, hsnormal, hsdvd⟩ := stripLow_spec hne hnormal hdvd hbig0 (2 * e.shift)
    refine ⟨⟨rfl, hsne, hsnormal, ?_, hsval.trans hval⟩, hk', hdigits, hsdvd⟩
    dsimp only
    rw [hdigits]
    exact Nat.mul_pos hcpl hk'
  rw [powtabStep, hT]
  by_cases hadj : ((un - 1) >>> pi) &&& 2 = 0
  · simp only [if_pos hadj]
    -- The square is divisible by `big_base` twice.
    have hq : val t = (mpBases base).bigBase.toNat * (x * x) * (mpBases base).bigBase.toNat := by
      rw [htval, hx]
      ring
    obtain ⟨hqlen, hqval⟩ := mpnDivexact1_spec hbig0 hq
    have htpos := List.length_pos_of_ne_nil htne
    have hqpos : 0 < (mpBases base).bigBase.toNat * (x * x) := by
      refine Nat.pos_of_ne_zero fun h0 => ?_
      have h₁ := htnormal.le_val htne
      have h₂ : 0 < (2 ^ 64) ^ (t.length - 1) := Nat.pow_pos (by norm_num)
      rw [hq, h0] at h₁
      omega
    have hqlow : (2 ^ 64) ^ (t.length - 2) ≤ val (mpnDivexact1 t (mpBases base).bigBase) := by
      rw [hqval]
      by_cases hone : t.length = 1
      · rw [hone]
        exact hqpos
      · have h₁ : (2 ^ 64) * (2 ^ 64) ^ (t.length - 2)
            ≤ (2 ^ 64) * ((mpBases base).bigBase.toNat * (x * x)) := by
          calc (2 ^ 64) * (2 ^ 64) ^ (t.length - 2) = (2 ^ 64) ^ (t.length - 1) := by
                rw [← pow_succ']
                congr 1
                omega
            _ ≤ val t := htnormal.le_val htne
            _ = (mpBases base).bigBase.toNat
                  * ((mpBases base).bigBase.toNat * (x * x)) := by rw [hq]; ring
            _ ≤ (2 ^ 64) * ((mpBases base).bigBase.toNat * (x * x)) :=
                Nat.mul_le_mul_right _ hbiglt.le
        exact Nat.le_of_mul_le_mul_left h₁ (by norm_num)
    have hdval := (dropTop_spec htpos hqlen).1
    have hdnormal := dropTop_normal htpos hqlen hqlow
    rw [hqval] at hdval
    refine hpre _ _ _ ?_ hdnormal (by omega) ?_ ?_ ?_
    · intro hnil
      rw [hnil, val_nil] at hdval
      omega
    · rw [he.digits_eq, Nat.mul_sub, Nat.mul_one, Nat.mul_left_comm]
    · have hle : (mpBases base).charsPerLimb ≤ 2 * e.digitsInBase := by
        rw [he.digits_eq]
        have := Nat.le_mul_of_pos_right (mpBases base).charsPerLimb hk
        omega
      have h₁ : (mpBases base).bigBase.toNat
            * (val (dropTop (mpnDivexact1 t (mpBases base).bigBase) t.length)
              * (2 ^ 64) ^ (2 * e.shift))
          = (mpBases base).bigBase.toNat
            * base ^ (2 * e.digitsInBase - (mpBases base).charsPerLimb) := by
        calc _ = val t * (2 ^ 64) ^ (2 * e.shift) := by rw [hdval, hq]; ring
          _ = base ^ (2 * e.digitsInBase) := hpow
          _ = _ := by rw [hfit.bigBase_eq, ← pow_add, Nat.add_sub_cancel' hle]
      exact Nat.eq_of_mul_eq_mul_left hbig h₁
    · rw [hdval]
      exact Nat.dvd_mul_right _ _
  · simp only [if_neg hadj]
    refine hpre _ _ _ htne htnormal (by omega) ?_ hpow ?_
    · rw [he.digits_eq, Nat.mul_left_comm]
    · rw [htval, hx]
      exact (Nat.dvd_mul_right _ _).mul_right _

/-- Bit `pi + 1` of a number, as the step of the table tests it. -/
theorem shiftRight_step (m pi : ℕ) :
    (if (m >>> pi) &&& 2 = 0 then 2 * (m >>> (pi + 2) + 1) - 1 else 2 * (m >>> (pi + 2) + 1))
      = m >>> (pi + 1) + 1 := by
  have h₁ : m >>> (pi + 1) = m >>> pi / 2 := Nat.shiftRight_succ m pi
  have h₂ : m >>> (pi + 2) = m >>> pi / 2 / 2 := by
    rw [Nat.shiftRight_succ m (pi + 1), h₁]
  have hand : (m >>> pi) &&& 2 = 2 * (m >>> pi / 2 % 2) := by
    have hbit := Nat.two_pow_and (m >>> pi) 1
    rw [Nat.testBit_eq_decide_div_mod_eq, pow_one, Nat.and_comm] at hbit
    rw [hbit]
    rcases Nat.mod_two_eq_zero_or_one (m >>> pi / 2) with h | h <;> rw [h] <;> rfl
  rw [h₁, h₂, hand]
  generalize m >>> pi / 2 = n
  rcases Nat.mod_two_eq_zero_or_one n with h | h <;> rw [h] <;> simp <;> omega

/-- **The loop of the table**: entry `pi` is the power of `big_base` whose exponent is
one more than `(un - 1) >> (pi + 1)`. -/
theorem powtabLoop_powtab (K : MulKernel) (h2 : 2 ≤ base) (h256 : base ≤ 256)
    (hp : pow2P base = false) {un : ℕ} (pi : ℕ) {e : Powers} {tab : List Powers}
    (he : e.Built base ((un - 1) >>> (pi + 1) + 1)) (htab : Powtab base (e :: tab)) :
    ∃ e' tab', powtabLoop K base un pi e tab = e' :: tab' ∧ Powtab base (e' :: tab') ∧
      e'.digitsInBase = (mpBases base).charsPerLimb * ((un - 1) / 2 + 1) := by
  induction pi generalizing e tab with
  | zero =>
      refine ⟨e, tab, rfl, htab, ?_⟩
      rw [he.digits_eq]
      rfl
  | succ pi ih =>
      have hstep := powtabStep_built K h2 h256 hp un pi he
      rw [shiftRight_step] at hstep
      rw [powtabLoop]
      refine ih hstep (Powtab.cons hstep.valid ?_ htab)
      rw [hstep.digits_eq, he.digits_eq, ← Nat.mul_left_comm]
      refine Nat.mul_le_mul_left _ ?_
      have h := shiftRight_step (un - 1) pi
      have hle : (if ((un - 1) >>> pi) &&& 2 = 0 then 2 * ((un - 1) >>> (pi + 2) + 1) - 1
          else 2 * ((un - 1) >>> (pi + 2) + 1)) ≤ 2 * ((un - 1) >>> (pi + 2) + 1) := by
        split_ifs
        · exact Nat.sub_le _ _
        · exact le_rfl
      rw [h] at hle
      exact hle

/-- **`mpn_set_str_compute_powtab` builds a table** whose first entry has more than half
the digits of a string of fewer than `un` groups. -/
theorem mpnSetStrComputePowtab_spec (K : MulKernel) (h2 : 2 ≤ base) (h256 : base ≤ 256)
    (hp : pow2P base = false) (un : ℕ) (hun : 1 < un) (hfit64 : un - 1 < 2 ^ 64) :
    ∃ e tab, mpnSetStrComputePowtab K un base = e :: tab ∧ Powtab base (e :: tab) ∧
      e.digitsInBase = (mpBases base).charsPerLimb * ((un - 1) / 2 + 1) := by
  have hfit := mpBases_fits h2 h256 hp
  have hvalid := Powers.bigBase_valid hfit h2
  -- The top entry is the one of the highest bit of `un - 1`.
  have hnat : (UInt64.ofNat (un - 1)).toNat = un - 1 := by
    rw [UInt64.toNat_ofNat', Nat.mod_eq_of_lt hfit64]
  have hne : UInt64.ofNat (un - 1) ≠ 0 := by
    intro h0
    rw [h0, UInt64.toNat_zero] at hnat
    omega
  obtain ⟨h63, h64⟩ := countLeadingZeros_spec hne
  rw [mpnSetStrComputePowtab]
  rw [hnat] at h63 h64
  generalize countLeadingZeros (UInt64.ofNat (un - 1)) = c at h63 h64 ⊢
  have hc : c < 64 := by
    by_contra hge
    have h₁ : 2 ^ 64 ≤ 2 ^ c := Nat.pow_le_pow_right (by norm_num) (Nat.not_lt.mp hge)
    have h₂ : 2 ^ c * 1 ≤ 2 ^ c * (un - 1) := Nat.mul_le_mul_left _ (by omega)
    omega
  have hzero : (un - 1) >>> (64 - 1 - c + 1) = 0 := by
    rw [Nat.shiftRight_eq_div_pow]
    refine Nat.div_eq_of_lt ?_
    have h₁ : 2 ^ c * (un - 1) < 2 ^ c * 2 ^ (64 - 1 - c + 1) := by
      rw [← pow_add, show c + (64 - 1 - c + 1) = 64 by omega]
      exact h64
    exact Nat.lt_of_mul_lt_mul_left h₁
  refine powtabLoop_powtab K h2 h256 hp _ ?_ (Powtab.last hvalid rfl)
  rw [hzero]
  exact ⟨hvalid, Nat.one_pos, (Nat.mul_one _).symm, by rw [Powers.bigBase, val_singleton]⟩

/-- **`mpn_set_str` reads every numeral**: in every base, by whichever of its branches,
the result has the value of the string, and no zero limb on top when the string has no
zero in front. -/
theorem mpnSetStr_spec (K : MulKernel) (h2 : 2 ≤ base) (h256 : base ≤ 256) {str : List UInt8}
    (hne : str ≠ []) (hdig : Digits base str) (hlen : str.length < 2 ^ 64) :
    ∃ rp, mpnSetStr K str base = some rp ∧ val rp = numeral base str ∧
      (Minimal str → Normalized rp) := by
  rw [mpnSetStr]
  by_cases hp : pow2P base = true
  · obtain ⟨hval, hnormal⟩ := pow2SetStr_spec h2 h256 hp hdig
    rw [if_pos hp]
    exact ⟨_, rfl, hval, hnormal hne⟩
  · rw [Bool.not_eq_true] at hp
    rw [hp, if_neg Bool.false_ne_true]
    by_cases hshort : str.length < setStrPrecomputeThreshold
    · have h := readAs_bc h2 h256 hp hne hdig
      rw [if_pos hshort]
      exact ⟨_, rfl, h.val_eq, h.normal⟩
    · -- The string has more than one group, and fewer than the table is made for.
      have hthr : setStrPrecomputeThreshold = 2000 := rfl
      have hcpl := charsPerLimb_lt h2 h256 hp
      have hcplpos := (mpBases_fits h2 h256 hp).charsPerLimb_pos
      have hgroups : 0 < str.length / (mpBases base).charsPerLimb :=
        Nat.div_pos (by omega) hcplpos
      have hle := Nat.div_le_self str.length (mpBases base).charsPerLimb
      obtain ⟨e, tab, htable, htab, hdigits⟩ := mpnSetStrComputePowtab_spec K h2 h256 hp
        (str.length / (mpBases base).charsPerLimb + 1) (by omega) (by omega)
      rw [Nat.add_sub_cancel] at hdigits
      rw [if_neg hshort]
      dsimp only
      rw [htable]
      have hhalf : str.length ≤ 2 * e.digitsInBase := by
        have hdm := Nat.div_add_mod str.length (mpBases base).charsPerLimb
        have hmod := Nat.mod_lt str.length hcplpos
        rw [hdigits]
        generalize str.length / (mpBases base).charsPerLimb = m at hdm ⊢
        have h₁ : (mpBases base).charsPerLimb * (m + 1)
            ≤ (mpBases base).charsPerLimb * (2 * (m / 2 + 1)) :=
          Nat.mul_le_mul_left _ (by omega)
        have h₂ : (mpBases base).charsPerLimb * (m + 1)
            = (mpBases base).charsPerLimb * m + (mpBases base).charsPerLimb := by ring
        have h₃ : (mpBases base).charsPerLimb * (2 * (m / 2 + 1))
            = 2 * ((mpBases base).charsPerLimb * (m / 2 + 1)) := by ring
        omega
      obtain ⟨rp, hrp, hread⟩ := mpnDcSetStr_spec K h2 h256 hp htab hne hdig hhalf
      exact ⟨rp, hrp, hread.val_eq, hread.normal⟩

end

end Mpir
end SecureDesign
