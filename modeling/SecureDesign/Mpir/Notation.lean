/-
# Integers as text

What the documentation of `mpz_set_str` and `mpz_get_str` promises, stated without their
loops.  A number is written with an optional minus sign and its digits
(`showInteger`).  It is read with white space in front and between the digits, with
letters of either case up to base 36, and for base zero with the base in its prefix
(`readInteger`).

Reading what was written gives the integer back (`readInteger_showInteger`), in every
base that `mpz_get_str` writes.
-/

import SecureDesign.CLang.Buffer
import SecureDesign.CLang.Numeral

namespace SecureDesign
namespace Mpir

open CLang

/-- White space in the C locale. -/
def isspace (c : UInt8) : Bool := c == 32 || (9 ≤ c && c ≤ 13)

/-- The value of a character as a digit, 255 for none.  Up to base 36 the case of a letter
does not matter; above, capitals come first. -/
def digitOf (base : ℤ) (c : UInt8) : ℕ :=
  if 48 ≤ c ∧ c ≤ 57 then c.toNat - 48
  else if 65 ≤ c ∧ c ≤ 90 then c.toNat - 55
  else if 97 ≤ c ∧ c ≤ 122 then if base ≤ 36 then c.toNat - 87 else c.toNat - 61
  else 255

/-- The characters of the digits: lower case letters, capitals for a negative base, and
both above 36. -/
def numToText (base : ℤ) : List UInt8 :=
  if 0 ≤ base then
    if 36 < base then ascii "0123456789ABCDEFGHIJKLMNOPQRSTUVWXYZabcdefghijklmnopqrstuvwxyz"
    else ascii "0123456789abcdefghijklmnopqrstuvwxyz"
  else ascii "0123456789ABCDEFGHIJKLMNOPQRSTUVWXYZ"

/-- A natural number in a base: its digits without a zero in front, and zero itself as one
digit. -/
def showNat (b n : ℕ) : List UInt8 := if n = 0 then [0] else digitsOf b n

/-- The base that a call of `mpz_get_str` means. -/
def showBase (base : ℤ) : ℕ := if base = 0 then 10 else base.natAbs

/-- The bases that `mpz_get_str` can write. -/
def Printable (base : ℤ) : Prop :=
  base = 0 ∨ 2 ≤ base ∧ base ≤ 62 ∨ -36 ≤ base ∧ base ≤ -2

instance (base : ℤ) : Decidable (Printable base) := by
  unfold Printable
  infer_instance

/-- **An integer as text.** -/
def showInteger (base : ℤ) (z : ℤ) : List UInt8 :=
  (if z < 0 then [45] else [])
    ++ (showNat (showBase base) z.natAbs).map fun d => (numToText base).getD d.toNat 0

/-- The base and the digits of a text whose first character is a digit: for base zero the
prefixes `0x`, `0b` and `0` choose the base. -/
def splitPrefix (base : ℤ) (t : List UInt8) : ℕ × List UInt8 :=
  if base = 0 then
    match t with
    | 48 :: c :: t =>
        if c = 120 ∨ c = 88 then (16, t) else if c = 98 ∨ c = 66 then (2, t) else (8, c :: t)
    | [48] => (8, [])
    | t => (10, t)
  else (base.toNat, t)

/-- Every character is a digit of the base `b`. -/
def AllDigits (base : ℤ) (b : ℕ) (t : List UInt8) : Prop := ∀ c ∈ t, digitOf base c < b

instance (base : ℤ) (b : ℕ) (t : List UInt8) : Decidable (AllDigits base b t) :=
  List.decidableBAll _ t

theorem allDigits_nil (base : ℤ) (b : ℕ) : AllDigits base b [] := nofun

theorem allDigits_cons {base : ℤ} {b : ℕ} {c : UInt8} {t : List UInt8} :
    AllDigits base b (c :: t) ↔ digitOf base c < b ∧ AllDigits base b t := List.forall_mem_cons

/-- The digits of a text, white space left out; none when another character is there. -/
def readNat (base : ℤ) (b : ℕ) (t : List UInt8) : Option ℕ :=
  let t := t.filter fun c => !isspace c
  if AllDigits base b t then some (numeral b (t.map fun c => UInt8.ofNat (digitOf base c)))
  else none

/-- The number of a text without sign: its first character must be a digit. -/
def readUnsigned (base : ℤ) (t : List UInt8) : Option ℕ :=
  match t with
  | [] => none
  | c :: _ =>
      if base ≤ 62 ∧ (digitOf base c : ℤ) < if base = 0 then 10 else base then
        readNat base (splitPrefix base t).1 (splitPrefix base t).2
      else none

/-- **The integer that a text stands for**, if it is one. -/
def readInteger (base : ℤ) (t : List UInt8) : Option ℤ :=
  let t := t.dropWhile isspace
  if t.head? = some 45 then (readUnsigned base t.tail).map fun n : ℕ => -(n : ℤ)
  else (readUnsigned base t).map fun n : ℕ => (n : ℤ)

/-! ### The round trip -/

section

variable {base : ℤ}

theorem Printable.bounds (h : Printable base) : 2 ≤ showBase base ∧ showBase base ≤ 62 := by
  unfold showBase
  rcases h with h | ⟨h₁, h₂⟩ | ⟨h₁, h₂⟩
  · simp [h]
  · rw [if_neg (by omega)]
    omega
  · rw [if_neg (by omega)]
    omega

/-- Only the case rule of the base matters for a digit. -/
theorem digitOf_congr (b b' : ℤ) (h : b ≤ 36 ↔ b' ≤ 36) (c : UInt8) : digitOf b c = digitOf b' c := by
  unfold digitOf
  simp only [h]

private theorem lower_checked : ∀ d < 36,
    isspace ((numToText 36).getD d 0) = false ∧ (numToText 36).getD d 0 ≠ 45 ∧
      digitOf 36 ((numToText 36).getD d 0) = d := by
  decide +kernel

private theorem mixed_checked : ∀ d < 62,
    isspace ((numToText 62).getD d 0) = false ∧ (numToText 62).getD d 0 ≠ 45 ∧
      digitOf 62 ((numToText 62).getD d 0) = d := by
  decide +kernel

private theorem upper_checked : ∀ d < 36,
    isspace ((numToText (-36)).getD d 0) = false ∧ (numToText (-36)).getD d 0 ≠ 45 ∧
      digitOf 36 ((numToText (-36)).getD d 0) = d := by
  decide +kernel

/-- **The character of a digit** is no white space and no sign, and it is read as the
digit. -/
theorem digitChar_spec (h : Printable base) {d : ℕ} (hd : d < showBase base) :
    isspace ((numToText base).getD d 0) = false ∧ (numToText base).getD d 0 ≠ 45 ∧
      digitOf (showBase base) ((numToText base).getD d 0) = d := by
  by_cases hneg : base < 0
  · have htab : numToText base = numToText (-36) := by
      unfold numToText
      rw [if_neg (by omega), if_neg (by omega)]
    have hb : (showBase base : ℤ) ≤ 36 := by
      unfold showBase
      rcases h with h | ⟨h₁, h₂⟩ | ⟨h₁, h₂⟩
      · omega
      · omega
      · rw [if_neg (by omega)]
        omega
    rw [htab, digitOf_congr _ 36 (by omega)]
    exact upper_checked d (by omega)
  · by_cases hbig : 36 < base
    · have htab : numToText base = numToText 62 := by
        unfold numToText
        rw [if_pos (by omega), if_pos hbig, if_pos (by omega), if_pos (by omega)]
      have hb : (36 : ℤ) < showBase base := by
        unfold showBase
        rw [if_neg (by omega)]
        omega
      have hd62 : d < 62 := hd.trans_le h.bounds.2
      rw [htab, digitOf_congr _ 62 (by omega)]
      exact mixed_checked d hd62
    · have htab : numToText base = numToText 36 := by
        unfold numToText
        rw [if_pos (by omega), if_neg hbig, if_pos (by omega), if_neg (by omega)]
      have hb : (showBase base : ℤ) ≤ 36 := by
        unfold showBase
        split_ifs <;> omega
      rw [htab, digitOf_congr _ 36 (by omega)]
      exact lower_checked d (by omega)

theorem showNat_spec {b : ℕ} (h2 : 2 ≤ b) (h256 : b ≤ 256) (n : ℕ) :
    showNat b n ≠ [] ∧ Digits b (showNat b n) ∧ numeral b (showNat b n) = n := by
  unfold showNat
  by_cases h0 : n = 0
  · rw [if_pos h0, h0]
    refine ⟨List.cons_ne_nil _ _, digits_replicate_zero (by omega) 1, ?_⟩
    exact numeral_replicate_zero b 1
  · rw [if_neg h0]
    exact ⟨digitsOf_ne_nil h0, digits_digitsOf h2 h256 n, numeral_digitsOf h2 h256 n⟩

/-- The digits that were written are read back. -/
theorem readNat_map (h : Printable base) {l : List UInt8} (hl : Digits (showBase base) l) :
    readNat (showBase base) (showBase base) (l.map fun d => (numToText base).getD d.toNat 0)
      = some (numeral (showBase base) l) := by
  have hchar := fun d (hd : d ∈ l) => digitChar_spec h (hl d hd)
  have hfilter : (l.map fun d => (numToText base).getD d.toNat 0).filter (fun c => !isspace c)
      = l.map fun d => (numToText base).getD d.toNat 0 := by
    rw [List.filter_eq_self]
    intro c hc
    rcases List.mem_map.mp hc with ⟨d, hd, rfl⟩
    simp only [(hchar d hd).1, Bool.not_false]
  have hdigits : AllDigits (showBase base) (showBase base)
      (l.map fun d => (numToText base).getD d.toNat 0) := by
    intro c hc
    rcases List.mem_map.mp hc with ⟨d, hd, rfl⟩
    rw [(hchar d hd).2.2]
    exact hl d hd
  have hback : (l.map fun d => (numToText base).getD d.toNat 0).map
      (fun c => UInt8.ofNat (digitOf (showBase base) c)) = l := by
    rw [List.map_map]
    refine (List.map_congr_left fun d hd => ?_).trans (List.map_id l)
    rw [Function.comp_apply, (hchar d hd).2.2, UInt8.ofNat_toNat]
    rfl
  unfold readNat
  rw [hfilter]
  dsimp only
  rw [if_pos hdigits, hback]

/-- A sign in front of a number. -/
theorem readInteger_signed {t : List UInt8} (neg : Prop) [Decidable neg]
    (hspace : ∀ c ∈ t.head?, isspace c = false) (hminus : t.head? ≠ some 45) :
    readInteger base ((if neg then [45] else []) ++ t)
      = (readUnsigned base t).map fun n : ℕ => if neg then -(n : ℤ) else (n : ℤ) := by
  unfold readInteger
  by_cases hneg : neg
  · have hsp : ¬isspace 45 := by decide
    simp only [if_pos hneg, List.singleton_append, List.dropWhile_cons, if_neg hsp,
      List.head?_cons, if_true, List.tail_cons]
  · have hdrop : t.dropWhile isspace = t := by
      cases t with
      | nil => rfl
      | cons c t =>
          rw [List.dropWhile_cons, hspace c rfl, if_neg Bool.false_ne_true]
    simp only [if_neg hneg, List.nil_append, hdrop, if_neg hminus]

/-- **Reading what was written gives the integer back.** -/
theorem readInteger_showInteger (h : Printable base) (z : ℤ) :
    readInteger (showBase base) (showInteger base z) = some z := by
  obtain ⟨h2, h62⟩ := h.bounds
  obtain ⟨hne, hdig, hval⟩ := showNat_spec h2 (by omega) z.natAbs
  have hread := readNat_map h hdig
  rw [hval] at hread
  unfold showInteger
  obtain ⟨d, l, hl⟩ := List.exists_cons_of_ne_nil hne
  rw [hl] at hdig hread ⊢
  rw [List.map_cons] at hread ⊢
  obtain ⟨hspace, hminus, hdigit⟩ := digitChar_spec h (hdig d List.mem_cons_self)
  have hd := hdig d List.mem_cons_self
  have hbase : (showBase base : ℤ) ≠ 0 := by omega
  have hunsigned : readUnsigned (showBase base)
      ((numToText base).getD d.toNat 0 :: l.map fun d => (numToText base).getD d.toNat 0)
        = some z.natAbs := by
    unfold readUnsigned splitPrefix
    simp only [if_neg hbase, hdigit, Int.toNat_natCast]
    rw [if_pos ⟨by omega, by exact_mod_cast hd⟩]
    exact hread
  rw [readInteger_signed (z < 0) (by simpa using hspace) (by simpa using hminus), hunsigned,
    Option.map_some]
  congr 1
  split_ifs <;> omega

end

end Mpir
end SecureDesign
