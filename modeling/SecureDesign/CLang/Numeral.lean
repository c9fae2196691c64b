/-
# Numerals as byte strings

A numeral in base `b` is a string of bytes, the most significant digit first;
`numeral b l` is its value and `Digits b l` says that every byte is a digit.  Two
ways of writing a number are singled out: with a given number of digits, and
without a zero in front (`Minimal`).  Either fixes the string
(`Digits.eq_of_numeral_eq`, `Digits.eq_of_minimal`).
-/

import Mathlib.Data.Nat.Digits.Lemmas
import Mathlib.Tactic.Ring

namespace SecureDesign
namespace CLang

/-- The value of a numeral, by Horner's rule. -/
def numeral (b : ℕ) (l : List UInt8) : ℕ := l.foldl (fun n c => n * b + c.toNat) 0

/-- Every byte is a digit of the base. -/
def Digits (b : ℕ) (l : List UInt8) : Prop := ∀ c ∈ l, c.toNat < b

instance (b : ℕ) (l : List UInt8) : Decidable (Digits b l) :=
  inferInstanceAs (Decidable (∀ c ∈ l, c.toNat < b))

/-- The first digit is not zero. -/
def Minimal (l : List UInt8) : Prop := l.head? ≠ some 0

instance (l : List UInt8) : Decidable (Minimal l) := inferInstanceAs (Decidable (_ ≠ _))

variable {b : ℕ} {l m : List UInt8}

/-! ### Values -/

@[simp] theorem numeral_nil : numeral b [] = 0 := rfl

/-- Horner's rule from any start. -/
theorem foldl_numeral (b n : ℕ) (l : List UInt8) :
    l.foldl (fun n c => n * b + c.toNat) n = n * b ^ l.length + numeral b l := by
  induction l generalizing n with
  | nil => simp
  | cons c l ih =>
      rw [numeral, List.foldl_cons, List.foldl_cons, ih, ih, List.length_cons]
      ring

theorem numeral_append (b : ℕ) (l m : List UInt8) :
    numeral b (l ++ m) = numeral b l * b ^ m.length + numeral b m := by
  rw [numeral, List.foldl_append, foldl_numeral]
  rfl

theorem numeral_cons (b : ℕ) (c : UInt8) (l : List UInt8) :
    numeral b (c :: l) = c.toNat * b ^ l.length + numeral b l := by
  rw [numeral, List.foldl_cons, foldl_numeral, Nat.zero_mul, Nat.zero_add]

theorem numeral_concat (b : ℕ) (l : List UInt8) (c : UInt8) :
    numeral b (l ++ [c]) = numeral b l * b + c.toNat := by
  rw [numeral_append, numeral_cons]
  simp

@[simp] theorem numeral_replicate_zero (b n : ℕ) : numeral b (List.replicate n 0) = 0 := by
  induction n with
  | zero => rfl
  | succ n ih => rw [List.replicate_succ, numeral_cons, ih, UInt8.toNat_zero, Nat.zero_mul]

/-- Zeros in front do not change the value. -/
theorem numeral_zeros_append (b n : ℕ) (l : List UInt8) :
    numeral b (List.replicate n 0 ++ l) = numeral b l := by
  rw [numeral_append, numeral_replicate_zero, Nat.zero_mul, Nat.zero_add]

/-! ### Digits -/

theorem digits_nil : Digits b [] := fun _ hc => absurd hc List.not_mem_nil

theorem Digits.append (hl : Digits b l) (hm : Digits b m) : Digits b (l ++ m) := by
  intro c hc
  rcases List.mem_append.mp hc with h | h
  · exact hl c h
  · exact hm c h

theorem Digits.left (h : Digits b (l ++ m)) : Digits b l := fun c hc =>
  h c (List.mem_append_left m hc)

theorem Digits.right (h : Digits b (l ++ m)) : Digits b m := fun c hc =>
  h c (List.mem_append_right l hc)

theorem Digits.take (h : Digits b l) (n : ℕ) : Digits b (l.take n) := fun c hc =>
  h c (List.mem_of_mem_take hc)

theorem Digits.drop (h : Digits b l) (n : ℕ) : Digits b (l.drop n) := fun c hc =>
  h c (List.mem_of_mem_drop hc)

theorem digits_replicate_zero (hb : 0 < b) (n : ℕ) : Digits b (List.replicate n 0) := by
  intro c hc
  rw [List.eq_of_mem_replicate hc]
  exact hb

theorem Digits.numeral_lt (h : Digits b l) : numeral b l < b ^ l.length := by
  induction l with
  | nil => simp
  | cons c l ih =>
      have hc := h c List.mem_cons_self
      have hl := ih fun c hc => h c (List.mem_cons_of_mem _ hc)
      rw [numeral_cons, List.length_cons]
      calc c.toNat * b ^ l.length + numeral b l
          < c.toNat * b ^ l.length + b ^ l.length := by omega
        _ = (c.toNat + 1) * b ^ l.length := by ring
        _ ≤ b * b ^ l.length := Nat.mul_le_mul_right _ hc
        _ = b ^ (l.length + 1) := by ring

/-- **Strings of one length are equal when their values are.** -/
theorem Digits.eq_of_numeral_eq (hb : 0 < b) (hl : Digits b l) (hm : Digits b m)
    (hlen : l.length = m.length) (h : numeral b l = numeral b m) : l = m := by
  induction l generalizing m with
  | nil => exact (List.length_eq_zero_iff.mp hlen.symm).symm
  | cons c l ih =>
      obtain ⟨d, m, rfl⟩ := List.exists_cons_of_length_eq_add_one hlen.symm
      have hlen' : l.length = m.length := by simpa using hlen
      have hl' : Digits b l := fun c hc => hl c (List.mem_cons_of_mem _ hc)
      have hm' : Digits b m := fun c hc => hm c (List.mem_cons_of_mem _ hc)
      rw [numeral_cons, numeral_cons, hlen'] at h
      have hlt := hl'.numeral_lt
      rw [hlen'] at hlt
      have hpos : 0 < b ^ m.length := Nat.pow_pos hb
      -- The first digits are the quotients by the weight of the first place.
      have hcd : c.toNat = d.toNat := by
        have h₁ : (c.toNat * b ^ m.length + numeral b l) / b ^ m.length = c.toNat := by
          rw [Nat.mul_comm, Nat.mul_add_div hpos, Nat.div_eq_of_lt hlt, Nat.add_zero]
        have h₂ : (d.toNat * b ^ m.length + numeral b m) / b ^ m.length = d.toNat := by
          rw [Nat.mul_comm, Nat.mul_add_div hpos, Nat.div_eq_of_lt (hm'.numeral_lt),
            Nat.add_zero]
        rw [← h₁, h, h₂]
      have hval : numeral b l = numeral b m := by
        rw [hcd] at h
        exact Nat.add_left_cancel h
      rw [UInt8.toNat.inj hcd, ih hl' hm' hlen' hval]

/-! ### Minimal numerals -/

theorem minimal_nil : Minimal [] := by
  rw [Minimal, List.head?_nil]
  exact nofun

/-- A minimal numeral is at least the weight of its first place. -/
theorem Minimal.le_numeral (h : Minimal l) (hne : l ≠ []) : b ^ (l.length - 1) ≤ numeral b l := by
  cases l with
  | nil => exact absurd rfl hne
  | cons c l =>
      have hc : 0 < c.toNat := Nat.pos_of_ne_zero fun h0 => h (by
        rw [List.head?_cons, UInt8.toNat.inj (h0.trans UInt8.toNat_zero.symm)])
      rw [numeral_cons, List.length_cons, Nat.add_sub_cancel]
      exact (Nat.le_mul_of_pos_left _ hc).trans (Nat.le_add_right _ _)

/-- A numeral with a nonzero value at its first place is minimal. -/
theorem Digits.minimal_of_le (hl : Digits b l) (h : b ^ (l.length - 1) ≤ numeral b l) :
    Minimal l := by
  cases l with
  | nil => exact minimal_nil
  | cons c l =>
      intro hc
      have hlt := Digits.numeral_lt fun c hc => hl c (List.mem_cons_of_mem _ hc)
      rw [Option.some.inj hc, numeral_cons, UInt8.toNat_zero, Nat.zero_mul, Nat.zero_add,
        List.length_cons, Nat.add_sub_cancel] at h
      omega

/-- The length of a minimal numeral is that of its value. -/
theorem Minimal.length_le_iff (hb : 1 < b) (hl : Digits b l) (h : Minimal l) {n : ℕ} :
    l.length ≤ n ↔ numeral b l < b ^ n := by
  constructor
  · intro hn
    exact hl.numeral_lt.trans_le (Nat.pow_le_pow_right (by omega) hn)
  · intro hv
    by_contra hn
    have hne : l ≠ [] := by
      rintro rfl
      exact hn (Nat.zero_le n)
    have hpow : b ^ n ≤ b ^ (l.length - 1) := Nat.pow_le_pow_right (by omega) (by omega)
    exact absurd (h.le_numeral (b := b) hne) (by omega)

/-- **Minimal numerals of one value are equal.** -/
theorem Digits.eq_of_minimal (hb : 1 < b) (hl : Digits b l) (hm : Digits b m) (hl' : Minimal l)
    (hm' : Minimal m) (h : numeral b l = numeral b m) : l = m := by
  refine hl.eq_of_numeral_eq (by omega) hm (le_antisymm ?_ ?_) h
  · exact (hl'.length_le_iff hb hl).mpr (h ▸ hm.numeral_lt)
  · exact (hm'.length_le_iff hb hm).mpr (h ▸ hl.numeral_lt)

/-! ### The numeral of a number -/

/-- The minimal numeral of `n`; for zero it has no digits. -/
def digitsOf (b n : ℕ) : List UInt8 := ((Nat.digits b n).map UInt8.ofNat).reverse

theorem digits_digitsOf (hb : 1 < b) (h256 : b ≤ 256) (n : ℕ) : Digits b (digitsOf b n) := by
  intro c hc
  unfold digitsOf at hc
  rw [List.mem_reverse, List.mem_map] at hc
  rcases hc with ⟨d, hd, rfl⟩
  have hlt := Nat.digits_lt_base hb hd
  rw [UInt8.toNat_ofNat', Nat.mod_eq_of_lt (by omega)]
  exact hlt

theorem numeral_digitsOf (hb : 1 < b) (h256 : b ≤ 256) (n : ℕ) : numeral b (digitsOf b n) = n := by
  induction n using Nat.strong_induction_on with
  | _ n ih =>
      unfold digitsOf
      rcases Nat.eq_zero_or_pos n with rfl | hn
      · simp
      · have hmod := Nat.mod_lt n (show 0 < b by omega)
        have hrec := ih (n / b) (Nat.div_lt_self hn hb)
        unfold digitsOf at hrec
        rw [Nat.digits_def' hb hn, List.map_cons, List.reverse_cons, numeral_concat, hrec,
          UInt8.toNat_ofNat', Nat.mod_eq_of_lt (by omega), Nat.mul_comm]
        exact Nat.div_add_mod n b

theorem minimal_digitsOf (hb : 1 < b) (h256 : b ≤ 256) (n : ℕ) : Minimal (digitsOf b n) := by
  rcases Nat.eq_zero_or_pos n with rfl | hn
  · simp [digitsOf, minimal_nil]
  · have hne : Nat.digits b n ≠ [] := Nat.digits_ne_nil_iff_ne_zero.mpr hn.ne'
    have hlast := Nat.getLast_digit_ne_zero b hn.ne'
    have hlt := Nat.digits_lt_base hb (List.getLast_mem hne)
    intro h
    unfold digitsOf at h
    rw [List.head?_reverse, List.getLast?_map, List.getLast?_eq_some_getLast hne, Option.map_some]
      at h
    have hzero := congrArg UInt8.toNat (Option.some.inj h)
    rw [UInt8.toNat_ofNat', Nat.mod_eq_of_lt (by omega)] at hzero
    exact hlast hzero

/-- **A minimal numeral is the numeral of its value.** -/
theorem Digits.eq_digitsOf (hb : 1 < b) (h256 : b ≤ 256) (hl : Digits b l) (hl' : Minimal l) :
    l = digitsOf b (numeral b l) :=
  hl.eq_of_minimal hb (digits_digitsOf hb h256 _) hl' (minimal_digitsOf hb h256 _)
    (numeral_digitsOf hb h256 _).symm

theorem digitsOf_ne_nil {n : ℕ} (hn : n ≠ 0) : digitsOf b n ≠ [] := by
  unfold digitsOf
  rw [Ne, List.reverse_eq_nil_iff, List.map_eq_nil_iff]
  exact Nat.digits_ne_nil_iff_ne_zero.mpr hn

end CLang
end SecureDesign
