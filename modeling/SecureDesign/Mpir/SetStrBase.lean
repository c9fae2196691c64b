/-
# Reading a short numeral

Two of the three branches of `mpn_set_str` (`mpn/generic/set_str.c`).  For a base that
is a power of two the digits are packed into limbs from the last one back.
`mpn_bc_set_str` reads any other base: it collects as many digits as fit a limb and
adds them to the number so far times the matching power of the base, so its running
time is quadratic.

Both give the value of the numeral.  What `mpn_bc_set_str` returns is always normal,
and the packed limbs are when the first digit is not zero.
-/

import SecureDesign.CLang.Numeral
import SecureDesign.Mpir.AddSub
import SecureDesign.Mpir.Bases
import SecureDesign.Mpir.MulDiv

namespace SecureDesign
namespace Mpir

open CLang

/-- `res_digit = *str++`, and then `res_digit = res_digit * base + *str++` for every
further digit. -/
def readDigits (base : UInt64) : List UInt8 → UInt64
  | [] => 0
  | c :: str => str.foldl (fun resDigit c => resDigit * base + c.toUInt64) c.toUInt64

/-- `big_base = base`, multiplied by `base` another `j` times. -/
def bigBasePow (base : UInt64) : ℕ → UInt64
  | 0 => base
  | j + 1 => bigBasePow base j * base

/-- One step of `mpn_bc_set_str`: the number in `rp` times `big_base` plus `res_digit`. -/
def bcStep (rp : List UInt64) (bigBase resDigit : UInt64) : List UInt64 :=
  if rp.length = 0 then
    if resDigit ≠ 0 then [resDigit] else []
  else
    let x := mpnMul1 rp bigBase
    let y := mpnAdd1 x.1 resDigit
    let cy := x.2 + y.2
    if cy ≠ 0 then y.1 ++ [cy] else y.1

/-- The loop of `mpn_bc_set_str` over full groups of `n` digits.  It leaves `i`, the
rest of the string and the number so far. -/
def bcLoop (base n strLen : ℕ) :
    ℕ → ℕ → List UInt8 → List UInt64 → ℕ × List UInt8 × List UInt64
  | 0, i, str, rp => (i, str, rp)
  | fuel + 1, i, str, rp =>
      if i < strLen then
        bcLoop base n strLen fuel (i + (mpBases base).charsPerLimb) (str.drop n)
          (bcStep rp (mpBases base).bigBase (readDigits (UInt64.ofNat base) (str.take n)))
      else (i, str, rp)

/-- `mpn_bc_set_str`. -/
def mpnBcSetStr (str : List UInt8) (base : ℕ) : List UInt64 :=
  let strLen := str.length
  -- The groups of base ten are counted by the constant instead of the table.
  let n := if base = 10 then mpBasesCharsPerLimb10 else (mpBases base).charsPerLimb
  let x := bcLoop base n strLen strLen (mpBases base).charsPerLimb str []
  let j := strLen - (x.1 - n) - 1
  bcStep x.2.2 (bigBasePow (UInt64.ofNat base) j)
    (readDigits (UInt64.ofNat base) (x.2.1.take (j + 1)))

/-- The loop of `mpn_set_str` for a base of `bits` bits, over the digits from the last
one back: the limbs written so far, the limb in hand and the next bit position. -/
def pow2Loop (bits : ℕ) : List UInt8 → List UInt64 → UInt64 → ℕ → List UInt64 × UInt64
  | [], rp, resDigit, _ => (rp, resDigit)
  | c :: s, rp, resDigit, nextBitpos =>
      let resDigit := resDigit ||| c.toUInt64 <<< UInt64.ofNat nextBitpos
      let next := nextBitpos + bits
      if 64 ≤ next then
        pow2Loop bits s (rp ++ [resDigit]) (UInt64.ofNat (c.toNat >>> (bits - (next - 64))))
          (next - 64)
      else pow2Loop bits s rp resDigit next

/-- `mpn_set_str` for a power of two. -/
def pow2SetStr (str : List UInt8) (base : ℕ) : List UInt64 :=
  let x := pow2Loop (mpBases base).bigBase.toNat str.reverse [] 0 0
  if x.2 ≠ 0 then x.1 ++ [x.2] else x.1

/-! ### Groups of digits -/

theorem foldl_readDigits (base : UInt64) (r : UInt64) (n : ℕ) (l : List UInt8)
    (hr : r.toNat = n % 2 ^ 64) :
    (l.foldl (fun resDigit c => resDigit * base + c.toUInt64) r).toNat
      = l.foldl (fun n c => n * base.toNat + c.toNat) n % 2 ^ 64 := by
  induction l generalizing r n with
  | nil => exact hr
  | cons c l ih =>
      refine ih _ _ ?_
      rw [UInt64.toNat_add, UInt64.toNat_mul, hr, UInt8.toNat_toUInt64]
      simp [Nat.add_mod, Nat.mul_mod]

/-- The digits of a group are read modulo the limb. -/
theorem toNat_readDigits (base : UInt64) (l : List UInt8) :
    (readDigits base l).toNat = numeral base.toNat l % 2 ^ 64 := by
  cases l with
  | nil => rfl
  | cons c l =>
      have hc : c.toUInt64.toNat = (0 * base.toNat + c.toNat) % 2 ^ 64 := by
        have := c.toNat_lt
        rw [UInt8.toNat_toUInt64]
        omega
      exact foldl_readDigits base c.toUInt64 _ l hc

theorem toNat_bigBasePow (base : UInt64) (j : ℕ) :
    (bigBasePow base j).toNat = base.toNat ^ (j + 1) % 2 ^ 64 := by
  induction j with
  | zero => rw [bigBasePow, Nat.zero_add, pow_one, Nat.mod_eq_of_lt base.toNat_lt]
  | succ j ih => rw [bigBasePow, UInt64.toNat_mul, ih, Nat.mod_mul_mod, ← pow_succ]

/-- **One step of `mpn_bc_set_str`**: it multiplies and adds, and keeps the number
normal. -/
theorem bcStep_spec {rp : List UInt64} (hrp : Normalized rp) {bigBase : UInt64}
    (hb : 0 < bigBase.toNat) (resDigit : UInt64) :
    val (bcStep rp bigBase resDigit) = val rp * bigBase.toNat + resDigit.toNat ∧
      Normalized (bcStep rp bigBase resDigit) := by
  rw [bcStep]
  by_cases h0 : rp.length = 0
  · obtain rfl := List.length_eq_zero_iff.mp h0
    rw [if_pos h0]
    by_cases hd : resDigit ≠ 0
    · rw [if_pos hd]
      exact ⟨by simp, normal_singleton.mpr hd⟩
    · rw [if_neg hd, not_not.mp hd]
      exact ⟨by simp, normal_nil⟩
  · have hmul := mpnMul1_eq rp bigBase
    have hlen := mpnMul1_length rp bigBase
    rw [if_neg h0]
    dsimp only
    generalize mpnMul1 rp bigBase = x at hmul hlen ⊢
    have hne : x.1 ≠ [] := by
      rintro hnil
      rw [hnil] at hlen
      exact h0 hlen.symm
    have hadd := mpnAdd1_eq resDigit hne
    generalize mpnAdd1 x.1 resDigit = y at hadd ⊢
    have hylen : y.1.length = rp.length := by rw [hadd.length, hlen]
    -- The two carry limbs together are the top limb of the result.
    have hval : val y.1 + (2 ^ 64) ^ rp.length * (x.2.toNat + y.2.toNat)
        = val rp * bigBase.toNat + resDigit.toNat := by
      have h := hadd.val
      rw [hlen] at h
      zify at hmul ⊢
      push_cast at h hmul ⊢
      linear_combination h + hmul
    have hpos : 0 < (2 ^ 64) ^ rp.length := Nat.pow_pos (by norm_num)
    have hcy : (x.2 + y.2).toNat = x.2.toNat + y.2.toNat := by
      refine toNat_add_of_lt ?_
      have h₁ : val rp * bigBase.toNat + resDigit.toNat < (2 ^ 64) ^ rp.length * 2 ^ 64 := by
        have hb' := bigBase.toNat_lt
        have hr := resDigit.toNat_lt
        calc val rp * bigBase.toNat + resDigit.toNat
            < val rp * (2 ^ 64) + 2 ^ 64 := by
              have := Nat.mul_le_mul_left (val rp) hb'.le
              omega
          _ = (val rp + 1) * 2 ^ 64 := by ring
          _ ≤ (2 ^ 64) ^ rp.length * 2 ^ 64 := Nat.mul_le_mul_right _ (val_lt rp)
      have h₂ : (2 ^ 64) ^ rp.length * (x.2.toNat + y.2.toNat)
          < (2 ^ 64) ^ rp.length * 2 ^ 64 := by omega
      exact Nat.lt_of_mul_lt_mul_left h₂
    by_cases hc : x.2 + y.2 ≠ 0
    · rw [if_pos hc, val_append, val_singleton, hylen, hcy]
      exact ⟨hval, normal_append_singleton.mpr hc⟩
    · have hzero : x.2.toNat + y.2.toNat = 0 := by
        rw [← hcy, not_not.mp hc]
        rfl
      rw [hzero, Nat.mul_zero, Nat.add_zero] at hval
      rw [if_neg hc]
      refine ⟨hval, normal_of_le_val ?_⟩
      have hrpne : rp ≠ [] := fun hnil => h0 (by rw [hnil]; rfl)
      rw [hylen, hval]
      calc (2 ^ 64) ^ (rp.length - 1) ≤ val rp := hrp.le_val hrpne
        _ ≤ val rp * bigBase.toNat := Nat.le_mul_of_pos_right _ hb
        _ ≤ val rp * bigBase.toNat + resDigit.toNat := Nat.le_add_right _ _

section

variable {base : ℕ} {str : List UInt8}

theorem toNat_readDigits_of_le (hfit : (mpBases base).Fits base) (h2 : 2 ≤ base)
    (h256 : base ≤ 256) (hdig : Digits base str) (hlen : str.length ≤ (mpBases base).charsPerLimb) :
    (readDigits (UInt64.ofNat base) str).toNat = numeral base str := by
  rw [toNat_readDigits, toNat_ofNat_base h256]
  exact Nat.mod_eq_of_lt (hdig.numeral_lt.trans (hfit.pow_lt h2 hlen))

/-- **The loop of `mpn_bc_set_str`** has read `done` and stops before the last group,
which is not empty and not longer than a full one. -/
theorem bcLoop_spec (hfit : (mpBases base).Fits base) (h2 : 2 ≤ base) (h256 : base ≤ 256)
    (done : List UInt8) (rp : List UInt64) {fuel : ℕ} (hne : str ≠ []) (hfuel : str.length ≤ fuel)
    (hdig : Digits base (done ++ str)) (hval : val rp = numeral base done) (hrp : Normalized rp) :
    ∃ done' str' rp',
      bcLoop base (mpBases base).charsPerLimb (done ++ str).length fuel
          (done.length + (mpBases base).charsPerLimb) str rp
        = (done'.length + (mpBases base).charsPerLimb, str', rp') ∧
      done ++ str = done' ++ str' ∧ str' ≠ [] ∧ str'.length ≤ (mpBases base).charsPerLimb ∧
      val rp' = numeral base done' ∧ Normalized rp' := by
  have hcpl := hfit.charsPerLimb_pos
  induction fuel generalizing str done rp with
  | zero => exact absurd (List.length_eq_zero_iff.mp (Nat.le_zero.mp hfuel)) hne
  | succ fuel ih =>
      rw [bcLoop]
      by_cases hlt : done.length + (mpBases base).charsPerLimb < (done ++ str).length
      · -- A full group is read.
        have hlt' : (mpBases base).charsPerLimb < str.length := by
          rw [List.length_append] at hlt
          omega
        have htake : (str.take (mpBases base).charsPerLimb).length = (mpBases base).charsPerLimb := by
          rw [List.length_take, Nat.min_eq_left hlt'.le]
        have hsplit : done ++ str = done ++ str.take (mpBases base).charsPerLimb
            ++ str.drop (mpBases base).charsPerLimb := by
          rw [List.append_assoc, List.take_append_drop]
        have hread := toNat_readDigits_of_le hfit h2 h256
          (hdig.right.take (mpBases base).charsPerLimb) htake.le
        have hbig : 0 < (mpBases base).bigBase.toNat := by
          rw [hfit.bigBase_eq]
          exact Nat.pow_pos (by omega)
        obtain ⟨hstep, hnormal⟩ := bcStep_spec hrp hbig
          (readDigits (UInt64.ofNat base) (str.take (mpBases base).charsPerLimb))
        have hstep' : val (bcStep rp (mpBases base).bigBase (readDigits (UInt64.ofNat base)
              (str.take (mpBases base).charsPerLimb)))
            = numeral base (done ++ str.take (mpBases base).charsPerLimb) := by
          rw [hstep, hread, hval, hfit.bigBase_eq, numeral_append, htake]
        have hrest : str.drop (mpBases base).charsPerLimb ≠ [] := by
          intro hnil
          rw [List.drop_eq_nil_iff] at hnil
          omega
        rw [if_pos hlt]
        obtain ⟨done', str', rp', hloop, hfull, hresult⟩ := ih _ _ hrest
          (by rw [List.length_drop]; omega) (by rwa [← hsplit]) hstep' hnormal
        have hdone : (done ++ str.take (mpBases base).charsPerLimb).length
            = done.length + (mpBases base).charsPerLimb := by rw [List.length_append, htake]
        rw [← hsplit] at hloop hfull
        rw [hdone] at hloop
        exact ⟨done', str', rp', hloop, hfull, hresult⟩
      · rw [if_neg hlt]
        rw [List.length_append] at hlt
        exact ⟨done, str, rp, rfl, rfl, hne, by omega, hval, hrp⟩

/-- **`mpn_bc_set_str` gives the value of the numeral**, as a normal list of limbs. -/
theorem mpnBcSetStr_spec (h2 : 2 ≤ base) (h256 : base ≤ 256) (hp : pow2P base = false)
    (hne : str ≠ []) (hdig : Digits base str) :
    val (mpnBcSetStr str base) = numeral base str ∧ Normalized (mpnBcSetStr str base) := by
  have hfit := mpBases_fits h2 h256 hp
  have hn : (if base = 10 then mpBasesCharsPerLimb10 else (mpBases base).charsPerLimb)
      = (mpBases base).charsPerLimb := by
    by_cases h10 : base = 10
    · rw [if_pos h10, h10, mpBases_ten]
    · rw [if_neg h10]
  obtain ⟨done, rest, rp, hloop, hfull, hrest, hlen, hval, hrp⟩ :=
    bcLoop_spec hfit h2 h256 [] [] hne le_rfl hdig rfl normal_nil
  rw [List.nil_append] at hloop hfull
  rw [List.length_nil, Nat.zero_add] at hloop
  have hpos : 0 < rest.length := List.length_pos_of_ne_nil hrest
  -- The rest of the string is what the last loop reads.
  have hj : str.length - (done.length + (mpBases base).charsPerLimb - (mpBases base).charsPerLimb)
      - 1 = rest.length - 1 := by
    rw [hfull, List.length_append]
    omega
  have hdig' : Digits base rest := by
    rw [hfull] at hdig
    exact hdig.right
  rw [mpnBcSetStr]
  rw [hn, hloop]
  dsimp only
  rw [hj, Nat.sub_add_cancel hpos, List.take_length]
  have hpow : (bigBasePow (UInt64.ofNat base) (rest.length - 1)).toNat = base ^ rest.length := by
    rw [toNat_bigBasePow, toNat_ofNat_base h256, Nat.sub_add_cancel hpos,
      Nat.mod_eq_of_lt (hfit.pow_lt h2 hlen)]
  have hbig : 0 < (bigBasePow (UInt64.ofNat base) (rest.length - 1)).toNat := by
    rw [hpow]
    exact Nat.pow_pos (by omega)
  obtain ⟨hstep, hnormal⟩ := bcStep_spec hrp hbig (readDigits (UInt64.ofNat base) rest)
  refine ⟨?_, hnormal⟩
  rw [hstep, hpow, hval, toNat_readDigits_of_le hfit h2 h256 hdig' hlen, hfull, numeral_append]

end

/-! ### Powers of two -/

/-- The two parts of a digit that is laid over the end of a limb. -/
theorem lay_split {bits c pos : ℕ} (hpos : pos < 64) (hover : 64 ≤ pos + bits) :
    2 ^ 64 * (c >>> (bits - (pos + bits - 64))) + 2 ^ pos * c % 2 ^ 64 = 2 ^ pos * c := by
  have hpow : 2 ^ 64 = 2 ^ pos * 2 ^ (64 - pos) := by
    rw [← pow_add, Nat.add_sub_cancel' hpos.le]
  rw [show bits - (pos + bits - 64) = 64 - pos by omega, Nat.shiftRight_eq_div_pow, hpow,
    Nat.mul_mod_mul_left, Nat.mul_assoc, ← Nat.mul_add, Nat.div_add_mod]

/-- A digit is laid above the bits that the limb in hand has already. -/
theorem toNat_lay {pos : ℕ} (hpos : pos < 64) {resDigit : UInt64} (hres : resDigit.toNat < 2 ^ pos)
    (c : UInt8) :
    (resDigit ||| c.toUInt64 <<< UInt64.ofNat pos).toNat
      = resDigit.toNat + 2 ^ pos * c.toNat % 2 ^ 64 := by
  have hpow : 2 ^ 64 = 2 ^ pos * 2 ^ (64 - pos) := by
    rw [← pow_add, Nat.add_sub_cancel' hpos.le]
  rw [UInt64.toNat_or, toNat_shiftLeft_ofNat hpos, UInt8.toNat_toUInt64, Nat.or_comm,
    ← Nat.two_pow_add_eq_or_of_lt hres, hpow, Nat.mul_mod_mul_left, Nat.add_comm]

/-- **The packing loop**: the limbs written and the limb in hand have the value of all
digits so far, and there are as many as the bits fill. -/
theorem pow2Loop_spec {bits : ℕ} (hb : bits ≤ 8) (s : List UInt8)
    (hdig : Digits (2 ^ bits) s) (rp : List UInt64) (resDigit : UInt64) (pos : ℕ) (hpos : pos < 64)
    (hres : resDigit.toNat < 2 ^ pos) :
    val (pow2Loop bits s rp resDigit pos).1
        + (2 ^ 64) ^ (pow2Loop bits s rp resDigit pos).1.length
          * (pow2Loop bits s rp resDigit pos).2.toNat
      = val rp + (2 ^ 64) ^ rp.length * (resDigit.toNat + 2 ^ pos * numeral (2 ^ bits) s.reverse) ∧
    64 * (pow2Loop bits s rp resDigit pos).1.length ≤ 64 * rp.length + pos + bits * s.length := by
  induction s generalizing rp resDigit pos with
  | nil =>
      simp [pow2Loop]
  | cons c s ih =>
      have hc : c.toNat < 2 ^ bits := hdig c List.mem_cons_self
      have hs : Digits (2 ^ bits) s := fun c hc => hdig c (List.mem_cons_of_mem _ hc)
      have hlay := toNat_lay hpos hres c
      have hnum : numeral (2 ^ bits) (c :: s).reverse
          = 2 ^ bits * numeral (2 ^ bits) s.reverse + c.toNat := by
        rw [List.reverse_cons, numeral_concat, Nat.mul_comm]
      rw [pow2Loop, hnum, List.length_cons]
      by_cases hover : 64 ≤ pos + bits
      · -- The limb is full; the rest of the digit starts the next one.
        have hsplit := lay_split (c := c.toNat) hpos hover
        have hnext : (UInt64.ofNat (c.toNat >>> (bits - (pos + bits - 64)))).toNat
            = c.toNat >>> (bits - (pos + bits - 64)) := by
          have := c.toNat_lt
          have := Nat.shiftRight_le c.toNat (bits - (pos + bits - 64))
          rw [UInt64.toNat_ofNat', Nat.mod_eq_of_lt (by omega)]
        have hsmall : c.toNat >>> (bits - (pos + bits - 64)) < 2 ^ (pos + bits - 64) := by
          rw [Nat.shiftRight_eq_div_pow, Nat.div_lt_iff_lt_mul (Nat.two_pow_pos _), ← pow_add,
            Nat.add_sub_cancel' (by omega)]
          exact hc
        obtain ⟨hval, hlen⟩ := ih hs (rp ++ [resDigit ||| c.toUInt64 <<< UInt64.ofNat pos])
          (UInt64.ofNat (c.toNat >>> (bits - (pos + bits - 64)))) (pos + bits - 64) (by omega) (by rw [hnext]; exact hsmall)
        rw [if_pos hover]
        rw [hnext, val_append, val_singleton, hlay, List.length_append, List.length_singleton]
          at hval
        rw [List.length_append, List.length_singleton] at hlen
        refine ⟨?_, by rw [Nat.mul_succ]; omega⟩
        have hpow : 2 ^ 64 * 2 ^ (pos + bits - 64) = 2 ^ pos * 2 ^ bits := by
          rw [← pow_add, ← pow_add]
          congr 1
          omega
        rw [hval]
        calc _ = val rp + (2 ^ 64) ^ rp.length * (resDigit.toNat
              + (2 ^ 64 * (c.toNat >>> (bits - (pos + bits - 64))) + 2 ^ pos * c.toNat % 2 ^ 64)
              + 2 ^ 64 * 2 ^ (pos + bits - 64) * numeral (2 ^ bits) s.reverse) := by ring
          _ = _ := by rw [hsplit, hpow]; ring
      · have hfits : 2 ^ pos * c.toNat % 2 ^ 64 = 2 ^ pos * c.toNat := by
          refine Nat.mod_eq_of_lt ?_
          calc 2 ^ pos * c.toNat < 2 ^ pos * 2 ^ bits :=
                Nat.mul_lt_mul_of_pos_left hc (Nat.two_pow_pos pos)
            _ = 2 ^ (pos + bits) := (pow_add 2 pos bits).symm
            _ ≤ 2 ^ 64 := Nat.pow_le_pow_right (by norm_num) (by omega)
        rw [hfits] at hlay
        have hres' : (resDigit ||| c.toUInt64 <<< UInt64.ofNat pos).toNat < 2 ^ (pos + bits) := by
          rw [hlay]
          calc resDigit.toNat + 2 ^ pos * c.toNat
              < 2 ^ pos + 2 ^ pos * c.toNat := by omega
            _ = 2 ^ pos * (c.toNat + 1) := by ring
            _ ≤ 2 ^ pos * 2 ^ bits := Nat.mul_le_mul_left _ hc
            _ = 2 ^ (pos + bits) := (pow_add 2 pos bits).symm
        obtain ⟨hval, hlen⟩ := ih hs rp _ (pos + bits) (by omega) hres'
        rw [if_neg hover]
        rw [hlay] at hval
        refine ⟨?_, by rw [Nat.mul_succ]; omega⟩
        rw [hval, pow_add]
        ring

/-- **Packing the digits gives the value of the numeral**, as a normal list of limbs
when the first digit is not zero. -/
theorem pow2SetStr_spec {base : ℕ} {str : List UInt8} (h2 : 2 ≤ base) (h256 : base ≤ 256)
    (hp : pow2P base = true) (hdig : Digits base str) :
    val (pow2SetStr str base) = numeral base str ∧
      (str ≠ [] → Minimal str → Normalized (pow2SetStr str base)) := by
  have hfit := mpBases_fitsPow2 h2 h256 hp
  have hbits := hfit.bits_pos
  have hbase := hfit.base_eq
  rw [pow2SetStr]
  generalize (mpBases base).bigBase.toNat = bits at hbits hbase ⊢
  subst hbase
  have hb : bits ≤ 8 := by
    by_contra h
    have : 2 ^ 9 ≤ 2 ^ bits := Nat.pow_le_pow_right (by norm_num) (by omega)
    omega
  have hdig' : Digits (2 ^ bits) str.reverse := fun c hc => hdig c (List.mem_reverse.mp hc)
  obtain ⟨hval, hlen⟩ := pow2Loop_spec hb str.reverse hdig' [] 0 0
    (by norm_num) (by norm_num)
  rw [List.reverse_reverse, List.length_reverse] at *
  generalize pow2Loop bits str.reverse [] 0 0 = x at hval hlen ⊢
  have hval' : val x.1 + (2 ^ 64) ^ x.1.length * x.2.toNat = numeral (2 ^ bits) str := by
    rw [hval]
    simp
  by_cases hx : x.2 ≠ 0
  · rw [if_pos hx, val_append, val_singleton]
    exact ⟨hval', fun _ _ => normal_append_singleton.mpr hx⟩
  · rw [if_neg hx]
    rw [not_not.mp hx, UInt64.toNat_zero, Nat.mul_zero, Nat.add_zero] at hval'
    refine ⟨hval', fun hne hmin => normal_of_le_val ?_⟩
    -- The limbs are full, so the first digit lies in the last of them.
    have hle : (2 ^ 64) ^ (x.1.length - 1) ≤ (2 ^ bits) ^ (str.length - 1) := by
      rw [← pow_mul, ← pow_mul]
      refine Nat.pow_le_pow_right (by norm_num) ?_
      have hpos := List.length_pos_of_ne_nil hne
      rw [Nat.mul_sub, Nat.mul_sub]
      simp only [List.length_nil] at hlen
      omega
    rw [hval']
    exact hle.trans (hmin.le_numeral hne)

end Mpir
end SecureDesign
