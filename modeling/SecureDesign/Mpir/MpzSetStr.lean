/-
# Reading an integer

`mpz_set_str` of `mpz/set_str.c`: the integer that a string stands for.  The string is the
bytes from `str` on, and reading past the end of its object has no result.  The size of the
block is computed in floating point; `Estimates` stands for these products.

`mpzSetStr_reads` is the specification: the function accepts exactly the texts of
`readInteger`, assigns their integer, and leaves everything as it was when it refuses one.
-/

import Mathlib.Data.Nat.Log
import SecureDesign.Mpir.Mpz
import SecureDesign.Mpir.Notation
import SecureDesign.Mpir.SetStr

namespace SecureDesign
namespace Mpir

open CLang

/-- What the functions compute from `chars_per_bit_exactly`.  Up to `limit` bits or digits,
rounding and truncation each lose less than one. -/
structure Estimates where
  /-- `str_size / chars_per_bit_exactly`. -/
  bits : ℕ → ℕ → ℕ
  /-- `totbits * chars_per_bit_exactly`. -/
  chars : ℕ → ℕ → ℕ
  /-- `un * (chars_per_bit_exactly * GMP_NUMB_BITS) / chars_per_limb`. -/
  groups : ℕ → ℕ → ℕ
  limit : ℕ
  limit_le : ((limit / 8 + 2 : ℕ) : ℤ) ≤ intMax
  bits_le : ∀ base n, 2 ≤ base → base ≤ 62 → n ≤ limit → bits base n ≤ 8 * n
  pow_le_bits : ∀ base n, 2 ≤ base → base ≤ 62 → n ≤ limit → base ^ n ≤ 2 ^ (bits base n + 2)
  pow_le_chars : ∀ base n, 2 ≤ base → base ≤ 62 → pow2P base = false → n ≤ limit →
    2 ^ n ≤ base ^ (chars base n + 1)
  pow_le_groups : ∀ base un, 2 ≤ base → base ≤ 62 → pow2P base = false → 64 * un ≤ limit →
    (2 ^ 64) ^ un ≤ (mpBases base).bigBase.toNat ^ (1 + groups base un)

/-- The products without rounding. -/
def Estimates.exact : Estimates where
  bits base n := Nat.log 2 (base ^ n)
  chars base n := Nat.log base (2 ^ n)
  groups base un := Nat.log (mpBases base).bigBase.toNat ((2 ^ 64) ^ un)
  limit := 2 ^ 33
  limit_le := by decide
  bits_le base n _ h62 _ := by
    have hpow : base ^ n < 2 ^ (8 * n + 1) := by
      calc base ^ n ≤ (2 ^ 8) ^ n := Nat.pow_le_pow_left (h62.trans (by norm_num)) n
        _ = 2 ^ (8 * n) := (pow_mul 2 8 n).symm
        _ < 2 ^ (8 * n + 1) := Nat.pow_lt_pow_right (by norm_num) (Nat.lt_succ_self _)
    exact Nat.lt_succ_iff.mp (Nat.log_lt_of_lt_pow (by positivity) hpow)
  pow_le_bits base n _ _ _ := by
    calc base ^ n ≤ 2 ^ (Nat.log 2 (base ^ n) + 1) := (Nat.lt_pow_succ_log_self (by norm_num) _).le
      _ ≤ 2 ^ (Nat.log 2 (base ^ n) + 2) := Nat.pow_le_pow_right (by norm_num) (by omega)
  pow_le_chars base n h2 _ _ _ := (Nat.lt_pow_succ_log_self (by omega) _).le
  pow_le_groups base un h2 h62 hp _ := by
    have hbig := (mpBases_fits h2 (by omega) hp).le_mul
    have h1 : 1 < (mpBases base).bigBase.toNat := by
      by_contra h
      have := Nat.mul_le_mul h62 (Nat.not_lt.mp h)
      omega
    rw [Nat.add_comm]
    exact (Nat.lt_pow_succ_log_self h1 _).le

/-- `c = *str++`. -/
def next : List UInt8 → Option (UInt8 × List UInt8)
  | [] => none
  | c :: str => some (c, str)

/-- `do c = *str++; while (isspace (c))`. -/
def skipSpaces : List UInt8 → Option (UInt8 × List UInt8)
  | [] => none
  | c :: str => if isspace c then skipSpaces str else some (c, str)

/-- `while (c == '0' || isspace (c)) c = *str++`. -/
def skipZeros (c : UInt8) : List UInt8 → Option (UInt8 × List UInt8)
  | [] => if c = 48 ∨ isspace c then none else some (c, [])
  | d :: str => if c = 48 ∨ isspace c then skipZeros d str else some (c, d :: str)

/-- `digit_value[c]`. -/
def digitValue (base : ℤ) (c : UInt8) : Option UInt8 :=
  digitValueTab[(if 36 < base then 224 else 0) + c.toNat]?

/-- The base from the initial characters. -/
def readBase (base : ℤ) (c : UInt8) (str : List UInt8) : Option (ℤ × UInt8 × List UInt8) :=
  if base = 0 then
    if c = 48 then do
      let p ← next str
      if p.1 = 120 ∨ p.1 = 88 then some (16, ← next p.2)
      else if p.1 = 98 ∨ p.1 = 66 then some (2, ← next p.2)
      else some (8, p)
    else some (10, c, str)
  else some (base, c, str)

/-- The loop over the characters: their digits, or none if one is no digit of the base. -/
def digitLoop (table base : ℤ) : ℕ → UInt8 → List UInt8 → Option (Option (List UInt8))
  | 0, _, _ => some (some [])
  | n + 1, c, str => do
      if isspace c then
        let p ← next str
        digitLoop table base n p.1 p.2
      else
        let dig ← digitValue table c
        if base ≤ dig.toNat then some none
        else
          let p ← next str
          (digitLoop table base n p.1 p.2).map (Option.map (dig :: ·))

/-- The part of `mpz_set_str` after the base is known. -/
def setStrDigits (E : Estimates) (K : MulKernel) (A : Allocator) (s : Store) (x : ℕ)
    (negative : Bool) (table base : ℤ) (c : UInt8) (str : List UInt8) : Option (ℤ × Store) := do
  let p ← skipZeros c str
  let xm ← s x
  if p.1 = 0 then some (0, Function.update s x (some { xm with size := 0 }))
  else
    if 0 ∉ p.1 :: p.2 then none
    else
      match ← digitLoop table base (strlen (p.1 :: p.2)) p.1 p.2 with
      | none => some (-1, s)
      | some digits =>
          let xm := ensureAlloc A xm (E.bits base.toNat digits.length / 64 + 2)
          let rp ← mpnSetStr K digits base.toNat
          let d ← writeLimbs xm.d rp
          let xsize : ℤ := rp.length
          some (0, Function.update s x
            (some { xm with d := d, size := intOf (if negative then -xsize else xsize) }))

/-- The part of `mpz_set_str` after the sign. -/
def setStrUnsigned (E : Estimates) (K : MulKernel) (A : Allocator) (s : Store) (x : ℕ)
    (negative : Bool) (base : ℤ) (c : UInt8) (str : List UInt8) : Option (ℤ × Store) := do
  if (if base = 0 then 10 else base) ≤ (← digitValue base c).toNat then some (-1, s)
  else
    let q ← readBase base c str
    setStrDigits E K A s x negative base q.1 q.2.1 q.2.2

/-- `mpz_set_str`: the value that it returns, and the store. -/
def mpzSetStr (E : Estimates) (K : MulKernel) (A : Allocator) (s : Store) (x : ℕ)
    (str : List UInt8) (base : ℤ) : Option (ℤ × Store) := do
  if 62 < base then some (-1, s)
  else
    let p ← skipSpaces str
    if p.1 = 45 then
      let p ← next p.2
      setStrUnsigned E K A s x true base p.1 p.2
    else setStrUnsigned E K A s x false base p.1 p.2

/-! ### The characters -/

private theorem table_checked :
    digitValueTab.take 256 = (List.range 256).map (fun c => UInt8.ofNat (digitOf 36 (UInt8.ofNat c)))
      ∧ digitValueTab.drop 224
        = (List.range 256).map fun c => UInt8.ofNat (digitOf 37 (UInt8.ofNat c)) := by
  decide +kernel

/-- **The table has the value of every character as a digit.** -/
theorem digitValue_eq (base : ℤ) (c : UInt8) :
    digitValue base c = some (UInt8.ofNat (digitOf base c)) := by
  obtain ⟨hlow, hhigh⟩ := table_checked
  have hrange : (List.range 256)[c.toNat]? = some c.toNat := List.getElem?_range c.toNat_lt
  unfold digitValue
  by_cases h : 36 < base
  · rw [if_pos h, digitOf_congr base 37 (by constructor <;> intro <;> omega), ← List.getElem?_drop,
      hhigh, List.getElem?_map, hrange, Option.map_some, UInt8.ofNat_toNat]
  · rw [if_neg h, digitOf_congr base 36 (by constructor <;> intro <;> omega), Nat.zero_add,
      ← List.getElem?_take_of_lt c.toNat_lt]
    show (digitValueTab.take 256)[c.toNat]? = _
    rw [hlow, List.getElem?_map, hrange, Option.map_some, UInt8.ofNat_toNat]

theorem digitOf_lt (base : ℤ) (c : UInt8) : digitOf base c < 256 := by
  have hc := c.toNat_lt
  unfold digitOf
  split_ifs <;> omega

theorem digitOf_eq_zero {base : ℤ} {c : UInt8} : digitOf base c = 0 ↔ c = 48 := by
  have hc := c.toNat_lt
  have h48 : c = 48 ↔ c.toNat = 48 := UInt8.toNat_inj.symm
  unfold digitOf
  simp only [UInt8.le_iff_toNat_le, h48, UInt8.reduceToNat]
  constructor
  · intro h
    split_ifs at h <;> omega
  · intro h
    rw [if_pos (by omega), h]

theorem toNat_digitOf (base : ℤ) (c : UInt8) :
    (UInt8.ofNat (digitOf base c)).toNat = digitOf base c := by
  rw [UInt8.toNat_ofNat', Nat.mod_eq_of_lt (digitOf_lt base c)]

/-! ### The text -/

section

variable {base : ℤ} {b : ℕ} {t rest : List UInt8}

theorem isspace_zero : isspace 0 = false := by decide

@[simp] theorem next_cons (c : UInt8) (str : List UInt8) : next (c :: str) = some (c, str) := rfl

/-- Up to its terminator a string has a next character. -/
theorem exists_cons (t rest : List UInt8) : ∃ c str, t ++ 0 :: rest = c :: str := by
  cases t with
  | nil => exact ⟨_, _, rfl⟩
  | cons c t => exact ⟨_, _, rfl⟩

/-- The first loop stops at the first character that is no white space. -/
theorem skipSpaces_eq (t rest : List UInt8) :
    skipSpaces (t ++ 0 :: rest) = next (t.dropWhile isspace ++ 0 :: rest) := by
  induction t with
  | nil => simp [skipSpaces, next, isspace_zero]
  | cons c t ih =>
      rw [List.cons_append, skipSpaces, List.dropWhile_cons]
      by_cases h : isspace c = true
      · rw [if_pos h, if_pos h, ih]
      · rw [if_neg h, if_neg h]
        rfl

/-- A zero or white space. -/
def leading (c : UInt8) : Bool := c == 48 || isspace c

theorem leading_iff {c : UInt8} : leading c = true ↔ c = 48 ∨ isspace c := by
  simp [leading]

/-- The second loop stops at the first character that is no zero and no white space. -/
theorem skipZeros_eq {c : UInt8} {str : List UInt8} (h : c :: str = t ++ 0 :: rest) :
    skipZeros c str = next (t.dropWhile leading ++ 0 :: rest) := by
  induction t generalizing c str with
  | nil =>
      rw [List.nil_append, List.cons.injEq] at h
      obtain ⟨rfl, rfl⟩ := h
      have h0 : ¬((0 : UInt8) = 48 ∨ isspace 0) := by decide
      cases str <;> simp only [skipZeros, if_neg h0] <;> rfl
  | cons d t ih =>
      rw [List.cons_append, List.cons.injEq] at h
      obtain ⟨rfl, rfl⟩ := h
      rw [List.dropWhile_cons]
      obtain ⟨e, str, hstr⟩ := exists_cons t rest
      rw [hstr, skipZeros]
      by_cases hc : c = 48 ∨ isspace c
      · rw [if_pos hc, if_pos (leading_iff.mpr hc)]
        exact ih hstr.symm
      · rw [if_neg hc, if_neg fun hl => hc (leading_iff.mp hl), List.cons_append, hstr]
        rfl

/-- The base and the first character after its prefix. -/
theorem readBase_eq (h0 : 0 ≤ base) {p : UInt8 × List UInt8} (h : next (t ++ 0 :: rest) = some p) :
    ∃ q, next ((splitPrefix base t).2 ++ 0 :: rest) = some q ∧
      readBase base p.1 p.2 = some (((splitPrefix base t).1 : ℤ), q) := by
  unfold readBase
  by_cases hbase : base = 0
  · subst hbase
    match t, h with
    | [], h =>
        obtain rfl := Option.some.inj h
        exact ⟨_, rfl, rfl⟩
    | c :: t, h =>
        rw [List.cons_append, next, Option.some.injEq] at h
        subst h
        by_cases hc : c = 48
        · subst hc
          match t with
          | [] => exact ⟨_, rfl, rfl⟩
          | d :: t =>
              obtain ⟨e, str, hstr⟩ := exists_cons t rest
              simp only [splitPrefix, next_cons, List.cons_append, hstr, if_true,
                Option.bind_eq_bind, Option.bind_some]
              by_cases hx : d = 120 ∨ d = 88
              · simp only [if_pos hx, hstr]
                exact ⟨_, rfl, rfl⟩
              · by_cases hb : d = 98 ∨ d = 66
                · simp only [if_neg hx, if_pos hb, hstr]
                  exact ⟨_, rfl, rfl⟩
                · simp only [if_neg hx, if_neg hb, hstr, List.cons_append]
                  exact ⟨_, rfl, rfl⟩
        · have hsplit : splitPrefix 0 (c :: t) = (10, c :: t) := by
            unfold splitPrefix
            rw [if_pos rfl]
            split
            · rename_i heq
              exact absurd (List.cons.inj heq).1 hc
            · rename_i heq
              exact absurd (List.cons.inj heq).1 hc
            · rfl
          rw [hsplit, if_pos rfl, if_neg hc]
          exact ⟨_, rfl, rfl⟩
  · unfold splitPrefix
    rw [if_neg hbase, if_neg hbase]
    refine ⟨p, h, ?_⟩
    rw [Int.toNat_of_nonneg h0]

/-- **The loop over the characters** finds the digits of `readNat`. -/
theorem digitLoop_eq (base : ℤ) (b : ℕ) {c : UInt8} {str : List UInt8}
    (h : c :: str = t ++ 0 :: rest) :
    digitLoop base b t.length c str = some
      (if AllDigits base b (t.filter fun c => !isspace c) then
        some ((t.filter fun c => !isspace c).map fun c => UInt8.ofNat (digitOf base c))
      else none) := by
  induction t generalizing c str with
  | nil => simp [digitLoop, allDigits_nil]
  | cons d t ih =>
      rw [List.cons_append, List.cons.injEq] at h
      obtain ⟨rfl, rfl⟩ := h
      obtain ⟨e, str, hstr⟩ := exists_cons t rest
      have hrec := ih hstr.symm
      rw [hstr, List.length_cons, digitLoop]
      simp only [next_cons, Option.bind_eq_bind, Option.bind_some, hrec, digitValue_eq, toNat_digitOf]
      by_cases hs : isspace c = true
      · simp [hs]
      · rw [if_neg hs]
        rw [Bool.not_eq_true] at hs
        by_cases hd : digitOf base c < b
        · rw [if_neg (by omega)]
          simp only [List.filter_cons, hs, Bool.not_false, if_true, allDigits_cons, hd,
            true_and, List.map_cons]
          split_ifs <;> rfl
        · rw [if_pos (by omega)]
          simp [hs, hd, allDigits_cons]

/-- Leading zeros and white space do not change the number. -/
theorem readNat_dropWhile (hb : 0 < b) (t : List UInt8) :
    readNat base b t = readNat base b (t.dropWhile leading) := by
  induction t with
  | nil => rfl
  | cons c t ih =>
      rw [List.dropWhile_cons]
      by_cases h : leading c = true
      · rw [if_pos h, ← ih]
        unfold readNat
        by_cases hs : isspace c = true
        · simp [hs]
        · rcases leading_iff.mp h with rfl | hs'
          · have h48 : isspace 48 = false := by decide
            have hz : digitOf base 48 = 0 := digitOf_eq_zero.mpr rfl
            simp [h48, hz, hb, numeral_cons, allDigits_cons]
          · exact absurd hs' hs
      · rw [if_neg h]

end

/-! ### The integer -/

/-- The outcome of reading `x`: the integer is assigned and 0 returned, or nothing is
changed and -1 returned. -/
def Reads (s : Store) (x : ℕ) (r : Option (ℤ × Store)) : Option ℤ → Prop
  | some z => ∃ s', r = some (0, s') ∧ Assigns s x z (some s')
  | none => r = some (-1, s)

section

variable {E : Estimates} {K : MulKernel} {A : Allocator} {s : Store} {x b : ℕ} {xm : MpzStruct}
  {base : ℤ} {t rest : List UInt8}

/-- The block is large enough for the digits. -/
theorem Estimates.block_fits (E : Estimates) {n : ℕ} (h2 : 2 ≤ b) (h62 : b ≤ 62)
    (hn : n ≤ E.limit) : ((E.bits b n / 64 + 2 : ℕ) : ℤ) ≤ intMax ∧
      b ^ n ≤ (2 ^ 64) ^ (E.bits b n / 64 + 2) := by
  have hlimit := E.limit_le
  have hle := E.bits_le b n h2 h62 hn
  constructor
  · omega
  · calc b ^ n ≤ 2 ^ (E.bits b n + 2) := E.pow_le_bits b n h2 h62 hn
      _ ≤ 2 ^ (64 * (E.bits b n / 64 + 2)) := Nat.pow_le_pow_right (by norm_num) (by omega)
      _ = (2 ^ 64) ^ (E.bits b n / 64 + 2) := pow_mul 2 64 _

/-- **The digits of a number are assigned**: the block is large enough, and the limbs are
those of the numeral with its sign. -/
theorem assigns_digits (hs : s.Valid) (hx : s x = some xm) (h2 : 2 ≤ b) (h62 : b ≤ 62)
    {l : List UInt8} (hne : l ≠ []) (hl : Digits b l) (hmin : CLang.Minimal l)
    (hlen : l.length ≤ E.limit) (negative : Bool) :
    ∃ rp d, mpnSetStr K l b = some rp ∧
      writeLimbs (ensureAlloc A xm (E.bits b l.length / 64 + 2)).d rp = some d ∧
      Assigns s x (if negative then -(numeral b l : ℤ) else numeral b l)
        (some (Function.update s x (some { ensureAlloc A xm (E.bits b l.length / 64 + 2) with
          d := d
          size := intOf (if negative then -(rp.length : ℤ) else rp.length) }))) := by
  obtain ⟨hfit, hpow⟩ := E.block_fits h2 h62 hlen
  have hlimit := E.limit_le
  have h64 : l.length < 2 ^ 64 := by
    simp only [intMax] at hlimit
    omega
  obtain ⟨rp, hrp, hval, hnormal⟩ := mpnSetStr_spec K h2 (by omega) hne hl h64
  have hroom : rp.length ≤ E.bits b l.length / 64 + 2 := by
    rw [(hnormal hmin).length_le_iff, hval]
    exact hl.numeral_lt.trans_le hpow
  obtain ⟨hxm, hblock, _⟩ := ensureAlloc_spec (A := A) (hs x xm hx) hfit
  have hint : intOf (if negative then -(rp.length : ℤ) else rp.length)
      = if negative then -(rp.length : ℤ) else rp.length := by
    refine intOf_of_le ?_ ?_
    · simp only [intMin, intMax] at hfit ⊢
      split_ifs <;> omega
    · split_ifs <;> omega
  have habs : (if negative then -(rp.length : ℤ) else rp.length).natAbs = rp.length := by
    split_ifs <;> omega
  obtain ⟨hvalid, hvalue⟩ := valid_write hxm rp
    (if negative then -(rp.length : ℤ) else rp.length) (hroom.trans hblock) habs.le
    (by rw [habs, List.take_length]; exact hnormal hmin)
  refine ⟨rp, _, hrp, writeLimbs_eq (hroom.trans hblock), ?_⟩
  rw [hint]
  refine ⟨_, rfl, hvalid, hvalue.trans ?_⟩
  rw [ofLimbs_sign (negative = true) le_rfl, List.take_length, hval]

/-- **The digits are read** as the number of `readNat`. -/
theorem setStrDigits_reads (hs : s.Valid) (hx : s x = some xm) (hb : 0 < b) (h62 : b ≤ 62)
    (ht : 0 ∉ t) (hlen : t.length ≤ E.limit) {c : UInt8} {str : List UInt8}
    (h : next (t ++ 0 :: rest) = some (c, str)) (negative : Bool) :
    Reads s x (setStrDigits E K A s x negative base b c str)
      ((readNat base b t).map fun n : ℕ => if negative then -(n : ℤ) else (n : ℤ)) := by
  obtain ⟨e, tail, hcons⟩ := exists_cons t rest
  have hstr : c :: str = t ++ 0 :: rest := by
    rw [hcons, next_cons, Option.some.injEq, Prod.mk.injEq] at h
    rw [hcons, h.1, h.2]
  have hsub := List.dropWhile_suffix (l := t) leading
  have hhead := List.head?_dropWhile_not leading t
  unfold setStrDigits
  rw [skipZeros_eq hstr, readNat_dropWhile hb]
  generalize t.dropWhile leading = u at hsub hhead ⊢
  cases u with
  | nil =>
      have hz : readNat base b [] = some 0 := by simp [readNat, allDigits_nil]
      simp only [List.nil_append, next_cons, hx, hz, Option.bind_eq_bind, Option.bind_some, if_true,
        Option.map_some, Nat.cast_zero, neg_zero, ite_self]
      exact ⟨_, rfl, assigns_zero hs hx⟩
  | cons d u =>
      have hd0 : d ≠ 0 := by
        rintro rfl
        exact ht (hsub.mem List.mem_cons_self)
      have hmem : 0 ∈ d :: (u ++ 0 :: rest) := by simp
      have hu0 : (0 : UInt8) ∉ d :: u := fun hmem => ht (hsub.mem hmem)
      have hcount : strlen (d :: (u ++ 0 :: rest)) = (d :: u).length := by
        rw [strlen, ← List.cons_append, cstr_append_zero hu0]
      have hloop := digitLoop_eq base b (show d :: (u ++ 0 :: rest) = (d :: u) ++ 0 :: rest from rfl)
      have hread : readNat base b (d :: u)
          = if AllDigits base b ((d :: u).filter fun c => !isspace c) then
              some (numeral b (((d :: u).filter fun c => !isspace c).map
                fun c => UInt8.ofNat (digitOf base c)))
            else none := rfl
      rw [hread]
      simp only [List.cons_append, next_cons, hx, Option.bind_eq_bind, Option.bind_some, if_neg hd0,
        if_neg (not_not_intro hmem), hcount, hloop, Int.toNat_natCast]
      by_cases hall : AllDigits base b ((d :: u).filter fun c => !isspace c)
      · -- The first character is a digit other than zero.
        rw [if_pos hall, if_pos hall]
        have hd : ¬(d = 48 ∨ isspace d) := by
          rw [← leading_iff]
          simpa using hhead
        have hdne : digitOf base d ≠ 0 := fun h0 => hd (Or.inl (digitOf_eq_zero.mp h0))
        have hfilter : (d :: u).filter (fun c => !isspace c) = d :: u.filter fun c => !isspace c :=
          List.filter_cons_of_pos (by simpa using fun hs => hd (Or.inr hs))
        have hdb := hall d (by rw [hfilter]; exact List.mem_cons_self)
        have hdig : Digits b (((d :: u).filter fun c => !isspace c).map
            fun c => UInt8.ofNat (digitOf base c)) := by
          intro c hc
          rcases List.mem_map.mp hc with ⟨a, ha, rfl⟩
          rw [toNat_digitOf]
          exact hall a ha
        have hmin : CLang.Minimal (((d :: u).filter fun c => !isspace c).map
            fun c => UInt8.ofNat (digitOf base c)) := by
          intro h0
          rw [hfilter, List.map_cons, List.head?_cons, Option.some.injEq] at h0
          rw [← toNat_digitOf, h0] at hdne
          exact hdne rfl
        have hlen' : (((d :: u).filter fun c => !isspace c).map
            fun c => UInt8.ofNat (digitOf base c)).length ≤ E.limit := by
          rw [List.length_map]
          exact (List.length_filter_le _ _).trans (hsub.length_le.trans hlen)
        have hne : ((d :: u).filter fun c => !isspace c).map
            (fun c => UInt8.ofNat (digitOf base c)) ≠ [] := by
          rw [hfilter]
          exact List.cons_ne_nil _ _
        obtain ⟨rp, dp, hrp, hwrite, hassigns⟩ := assigns_digits (K := K) (A := A) hs hx (by omega)
          h62 hne hdig hmin hlen' negative
        simp only [hrp, hwrite, Option.bind_some, Option.map_some]
        exact ⟨_, rfl, hassigns⟩
      · rw [if_neg hall, if_neg hall]
        rfl

/-- The base that is found and what is left of the text. -/
theorem splitPrefix_bounds {c : UInt8} (h62 : base ≤ 62)
    (hlt : (digitOf base c : ℤ) < if base = 0 then 10 else base) (t : List UInt8) :
    0 < (splitPrefix base (c :: t)).1 ∧ (splitPrefix base (c :: t)).1 ≤ 62 ∧
      (splitPrefix base (c :: t)).2 <:+ c :: t := by
  unfold splitPrefix
  by_cases hbase : base = 0
  · rw [if_pos hbase]
    split
    · rename_i d t' heq
      rw [heq]
      split_ifs
      · exact ⟨by norm_num, by norm_num, ⟨[48, d], rfl⟩⟩
      · exact ⟨by norm_num, by norm_num, ⟨[48, d], rfl⟩⟩
      · exact ⟨by norm_num, by norm_num, ⟨[48], rfl⟩⟩
    · exact ⟨by norm_num, by norm_num, List.nil_suffix⟩
    · exact ⟨by norm_num, by norm_num, List.suffix_rfl⟩
  · rw [if_neg hbase] at hlt ⊢
    exact ⟨by dsimp only; omega, by dsimp only; omega, List.suffix_rfl⟩

/-- The number after the sign. -/
theorem setStrUnsigned_reads (hs : s.Valid) (hx : s x = some xm) (h62 : base ≤ 62) (ht : 0 ∉ t)
    (hlen : t.length ≤ E.limit) {c : UInt8} {str : List UInt8}
    (h : next (t ++ 0 :: rest) = some (c, str)) (negative : Bool) :
    Reads s x (setStrUnsigned E K A s x negative base c str)
      ((readUnsigned base t).map fun n : ℕ => if negative then -(n : ℤ) else (n : ℤ)) := by
  unfold setStrUnsigned readUnsigned
  simp only [digitValue_eq, Option.bind_eq_bind, Option.bind_some, toNat_digitOf]
  cases t with
  | nil =>
      rw [List.nil_append, next_cons, Option.some.injEq, Prod.mk.injEq] at h
      have h255 : (digitOf base c : ℤ) = 255 := by simp [digitOf, ← h.1]
      rw [if_pos (by rw [h255]; split_ifs <;> omega)]
      rfl
  | cons d t =>
      have hcons := h
      rw [List.cons_append, next_cons, Option.some.injEq, Prod.mk.injEq] at hcons
      obtain ⟨rfl, rfl⟩ := hcons
      by_cases hlt : (digitOf base d : ℤ) < if base = 0 then 10 else base
      · have h0 : 0 ≤ base := by
          split_ifs at hlt <;> omega
        obtain ⟨hpos, hle, hsuffix⟩ := splitPrefix_bounds h62 hlt t
        obtain ⟨q, hq, hbase⟩ := readBase_eq h0 h
        simp only [hbase, if_neg (not_le.mpr hlt), if_pos (And.intro h62 hlt), Option.bind_some]
        exact setStrDigits_reads hs hx hpos hle (fun hmem => ht (hsuffix.mem hmem))
          (hsuffix.length_le.trans hlen) hq negative
      · have hnone : ¬(base ≤ 62 ∧ (digitOf base d : ℤ) < if base = 0 then 10 else base) :=
          fun hand => hlt hand.2
        simp only [if_pos (not_lt.mp hlt), if_neg hnone]
        rfl

/-- **`mpz_set_str` reads the integer of the text**, and nothing changes when the text is
none. -/
theorem mpzSetStr_reads (hs : s.Valid) (hx : s x = some xm) (ht : 0 ∉ t)
    (hlen : t.length ≤ E.limit) :
    Reads s x (mpzSetStr E K A s x (t ++ 0 :: rest) base) (readInteger base t) := by
  have hsub := List.dropWhile_suffix (l := t) isspace
  unfold mpzSetStr readInteger
  by_cases h62 : 62 < base
  · have hnone : ∀ u, readUnsigned base u = none := by
      intro u
      unfold readUnsigned
      split
      · rfl
      · rw [if_neg (by omega)]
    simp only [if_pos h62, hnone, Option.map_none, ite_self]
    rfl
  · rw [if_neg h62, skipSpaces_eq]
    generalize t.dropWhile isspace = u at hsub ⊢
    have hu : 0 ∉ u := fun hmem => ht (hsub.mem hmem)
    have hulen := hsub.length_le.trans hlen
    obtain ⟨c, str, hcons⟩ := exists_cons u rest
    by_cases hneg : u.head? = some 45
    · obtain ⟨v, rfl⟩ := List.head?_eq_some_iff.mp hneg
      obtain ⟨d, str', hcons'⟩ := exists_cons v rest
      have h := setStrUnsigned_reads (E := E) (K := K) (A := A) hs hx (not_lt.mp h62)
        (fun hmem => hu (List.mem_cons_of_mem _ hmem)) ((Nat.le_succ _).trans hulen)
        (hcons' ▸ next_cons d str') true
      simp only [if_true] at h
      simp only [if_pos hneg, List.cons_append, next_cons, Option.bind_eq_bind, Option.bind_some,
        if_true, hcons', List.tail_cons]
      exact h
    · have hc : c ≠ 45 := by
        rintro rfl
        cases u with
        | nil => exact absurd (List.cons.inj hcons).1 (by decide)
        | cons a u => exact hneg (by rw [(List.cons.inj hcons).1, List.head?_cons])
      have h := setStrUnsigned_reads (E := E) (K := K) (A := A) hs hx (not_lt.mp h62)
        hu hulen (hcons ▸ next_cons c str) false
      simp only [Bool.false_eq_true, if_false] at h
      simp only [if_neg hneg, hcons, next_cons, Option.bind_eq_bind, Option.bind_some, if_neg hc]
      exact h

end

/-- **`mpz_set_str` returns 0 or -1 on every string**: 0 exactly for the texts of integers,
which it assigns whatever stands behind the terminator; with -1 the store is as before. -/
theorem mpzSetStr_outcome (E : Estimates) (K : MulKernel) (A : Allocator) {s : Store} {x : ℕ}
    {xm : MpzStruct} (base : ℤ) (rest : List UInt8) {t : List UInt8} (hs : s.Valid)
    (hx : s x = some xm) (ht : 0 ∉ t) (hlen : t.length ≤ E.limit) :
    ∃ r s', mpzSetStr E K A s x (t ++ 0 :: rest) base = some (r, s') ∧ (r = 0 ∨ r = -1) ∧
      (r = 0 ↔ (readInteger base t).isSome) ∧ (r = -1 → s' = s) ∧
      ∀ z, readInteger base t = some z → Assigns s x z (some s') := by
  have hreads : Reads s x (mpzSetStr E K A s x (t ++ 0 :: rest) base) (readInteger base t) :=
    mpzSetStr_reads hs hx ht hlen
  cases hr : readInteger base t with
  | none =>
      rw [hr] at hreads
      exact ⟨-1, s, hreads, Or.inr rfl, by simp, fun _ => rfl, nofun⟩
  | some z =>
      rw [hr] at hreads
      obtain ⟨s', hs', hassigns⟩ := hreads
      refine ⟨0, s', hs', Or.inl rfl, by simp, by simp, ?_⟩
      rintro _ ⟨⟩
      exact hassigns

/-- The hexadecimal text `0x1F` for base zero, with garbage behind it. -/
theorem mpzSetStr_outcome_hex :
    ∃ r s', mpzSetStr .exact .basecase .zero
        (Function.update (fun _ => none) 0 (some (.pair true 5 7))) 0
        ([48, 120, 49, 70] ++ 0 :: [1, 2]) 0 = some (r, s') ∧ (r = 0 ∨ r = -1) ∧
      (r = 0 ↔ (readInteger 0 [48, 120, 49, 70]).isSome) ∧
      (r = -1 → s' = Function.update (fun _ => none) 0 (some (.pair true 5 7))) ∧
      ∀ z, readInteger 0 [48, 120, 49, 70] = some z →
        Assigns (Function.update (fun _ => none) 0 (some (.pair true 5 7))) 0 z (some s') :=
  mpzSetStr_outcome .exact .basecase .zero 0 [1, 2]
    (Store.valid_empty.update (MpzStruct.pair_valid true 5 (by decide))) (Function.update_self ..)
    (by decide) (by decide)

end Mpir
end SecureDesign
