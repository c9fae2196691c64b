/-
# Numbers as lists of limbs

A multi-precision natural is a list of 64-bit limbs, the least significant
first; `val` is its value.  A list is `Normalized` when its top limb is not zero: the
value then fixes the list (`Normalized.eq_of_val_eq`) and bounds its length from both
sides (`Normalized.length_le_iff`).

The carry and borrow of one limb are compared out of the wrapped result
(`toNat_add_carry`, `toNat_sub_borrow`), which is how C code gets at them.
-/

import Mathlib.Data.Nat.Digits.Lemmas
import Mathlib.Tactic.Ring

namespace SecureDesign
namespace CLang

/-- The value of a limb list. -/
def val (l : List UInt64) : ℕ := Nat.ofDigits (2 ^ 64) (l.map UInt64.toNat)

/-- The top limb is not zero. -/
def Normalized (l : List UInt64) : Prop := l.getLast? ≠ some 0

instance (l : List UInt64) : Decidable (Normalized l) := inferInstanceAs (Decidable (_ ≠ _))

/-! ### One limb -/

@[simp] theorem toNat_toUInt64 (b : Bool) : b.toUInt64.toNat = b.toNat := by
  cases b <;> rfl

theorem toUInt64_or (a b : Bool) : a.toUInt64 ||| b.toUInt64 = (a || b).toUInt64 := by
  cases a <;> cases b <;> rfl

/-- **A sum below one of its terms has wrapped.** -/
theorem toNat_add_carry (a b : UInt64) :
    (a + b).toNat + 2 ^ 64 * (decide (a + b < a)).toNat = a.toNat + b.toNat := by
  have ha := a.toNat_lt
  have hb := b.toNat_lt
  by_cases h : a + b < a
  · simp only [h, decide_true, Bool.toNat_true]
    rw [UInt64.lt_iff_toNat_lt, UInt64.toNat_add] at h
    rw [UInt64.toNat_add]
    omega
  · simp only [h, decide_false, Bool.toNat_false]
    rw [UInt64.lt_iff_toNat_lt, UInt64.toNat_add] at h
    rw [UInt64.toNat_add]
    omega

/-- **A difference borrows when the first term is the smaller.** -/
theorem toNat_sub_borrow (a b : UInt64) :
    (a - b).toNat + b.toNat = a.toNat + 2 ^ 64 * (decide (a < b)).toNat := by
  have ha := a.toNat_lt
  have hb := b.toNat_lt
  by_cases h : a < b
  · simp only [h, decide_true, Bool.toNat_true]
    rw [UInt64.lt_iff_toNat_lt] at h
    rw [UInt64.toNat_sub]
    omega
  · simp only [h, decide_false, Bool.toNat_false]
    rw [UInt64.lt_iff_toNat_lt] at h
    rw [UInt64.toNat_sub]
    omega

/-- A difference above its first term has wrapped. -/
theorem toNat_sub_carry (a b : UInt64) :
    (a - b).toNat + b.toNat = a.toNat + 2 ^ 64 * (decide (a < a - b)).toNat := by
  have hiff : a < a - b ↔ a < b := by
    have ha := a.toNat_lt
    have hb := b.toNat_lt
    rw [UInt64.lt_iff_toNat_lt, UInt64.lt_iff_toNat_lt, UInt64.toNat_sub]
    omega
  rw [toNat_sub_borrow, decide_eq_decide.mpr hiff]

/-- A sum that does not wrap. -/
theorem toNat_add_of_lt {a b : UInt64} (h : a.toNat + b.toNat < 2 ^ 64) :
    (a + b).toNat = a.toNat + b.toNat := by
  rw [UInt64.toNat_add, Nat.mod_eq_of_lt h]

/-- A product that does not wrap. -/
theorem toNat_mul_of_lt {a b : UInt64} (h : a.toNat * b.toNat < 2 ^ 64) :
    (a * b).toNat = a.toNat * b.toNat := by
  rw [UInt64.toNat_mul, Nat.mod_eq_of_lt h]

@[simp] theorem toNat_neg_one : (-1 : UInt64).toNat = 2 ^ 64 - 1 := by decide

theorem toNat_ne_zero {a : UInt64} (h : a ≠ 0) : 0 < a.toNat :=
  Nat.pos_of_ne_zero fun h' => h (UInt64.toNat.inj h')

/-- A carry or a borrow. -/
theorem eq_zero_or_one {c : UInt64} (h : c.toNat ≤ 1) : c = 0 ∨ c = 1 := by
  rcases Nat.le_one_iff_eq_zero_or_eq_one.mp h with h | h
  · exact .inl (UInt64.toNat_inj.mp h)
  · exact .inr (UInt64.toNat_inj.mp h)

/-! ### The value of a list -/

section

variable {l m : List UInt64}

@[simp] theorem val_nil : val [] = 0 := rfl

@[simp] theorem val_cons (a : UInt64) (l : List UInt64) :
    val (a :: l) = a.toNat + 2 ^ 64 * val l := by
  simp [val, Nat.ofDigits_cons]

theorem val_append (l m : List UInt64) :
    val (l ++ m) = val l + (2 ^ 64) ^ l.length * val m := by
  simp [val, Nat.ofDigits_append]

theorem val_singleton (a : UInt64) : val [a] = a.toNat := by
  simp

private theorem forall_limb_lt (l : List UInt64) : ∀ x ∈ l.map UInt64.toNat, x < 2 ^ 64 := by
  intro x hx
  obtain ⟨a, -, rfl⟩ := List.mem_map.mp hx
  exact a.toNat_lt

theorem val_lt (l : List UInt64) : val l < (2 ^ 64) ^ l.length := by
  have h := Nat.ofDigits_lt_base_pow_length (by norm_num) (forall_limb_lt l)
  rwa [List.length_map] at h

@[simp] theorem val_replicate_zero (n : ℕ) : val (List.replicate n 0) = 0 := by
  induction n with
  | zero => rfl
  | succ n ih => rw [List.replicate_succ, val_cons, ih]; rfl

/-- Zeros above do not change the value. -/
@[simp] theorem val_append_zeros (l : List UInt64) (n : ℕ) :
    val (l ++ List.replicate n 0) = val l := by
  rw [val_append, val_replicate_zero, Nat.mul_zero, Nat.add_zero]

/-- Zeros below multiply by a power of the base. -/
theorem val_zeros_append (n : ℕ) (l : List UInt64) :
    val (List.replicate n 0 ++ l) = (2 ^ 64) ^ n * val l := by
  rw [val_append, val_replicate_zero, List.length_replicate, Nat.zero_add]

/-- **Lists of one length are equal when their values are.** -/
theorem eq_of_val_eq (hl : l.length = m.length) (h : val l = val m) : l = m := by
  have hmap : l.map UInt64.toNat = m.map UInt64.toNat :=
    Nat.ofDigits_inj_of_len_eq (by norm_num) (by simpa using hl) (forall_limb_lt l)
      (forall_limb_lt m) h
  exact List.map_injective_iff.mpr (fun _ _ => UInt64.toNat.inj) hmap

theorem val_take_add_drop (l : List UInt64) (n : ℕ) :
    val (l.take n) + (2 ^ 64) ^ (l.take n).length * val (l.drop n) = val l := by
  rw [← val_append, List.take_append_drop]

/-- A number split at limb `n`. -/
theorem val_split {n : ℕ} (h : n ≤ l.length) :
    val l = val (l.take n) + (2 ^ 64) ^ n * val (l.drop n) := by
  have hsplit := val_take_add_drop l n
  rw [List.length_take, Nat.min_eq_left h] at hsplit
  exact hsplit.symm

/-! ### Normal lists -/

theorem normal_nil : Normalized [] := by simp [Normalized]

theorem normal_append_singleton {a : UInt64} : Normalized (l ++ [a]) ↔ a ≠ 0 := by
  simp [Normalized]

theorem normal_singleton {a : UInt64} : Normalized [a] ↔ a ≠ 0 := by
  simp [Normalized]

/-- A normal list is at least the weight of its top limb. -/
theorem Normalized.le_val (h : Normalized l) (hl : l ≠ []) : (2 ^ 64) ^ (l.length - 1) ≤ val l := by
  obtain ⟨l, a, rfl⟩ := List.eq_nil_or_concat l |>.resolve_left hl
  rw [List.concat_eq_append] at h ⊢
  have ha : 0 < a.toNat := toNat_ne_zero (normal_append_singleton.mp h)
  rw [val_append, val_singleton, List.length_append, List.length_singleton, Nat.add_sub_cancel]
  exact (Nat.le_mul_of_pos_right _ ha).trans (Nat.le_add_left _ _)

/-- **The length of a normal list is that of its value.** -/
theorem Normalized.length_le_iff (h : Normalized l) {n : ℕ} :
    l.length ≤ n ↔ val l < (2 ^ 64) ^ n := by
  constructor
  · intro hn
    exact (val_lt l).trans_le (Nat.pow_le_pow_right (by norm_num) hn)
  · intro hv
    by_contra hn
    have hne : l ≠ [] := by
      rintro rfl
      exact hn (Nat.zero_le n)
    have hpow : (2 ^ 64) ^ n ≤ (2 ^ 64) ^ (l.length - 1) :=
      Nat.pow_le_pow_right (by norm_num) (by omega)
    exact absurd (h.le_val hne) (by omega)

/-- **Normal lists of one value are equal.** -/
theorem Normalized.eq_of_val_eq (hl : Normalized l) (hm : Normalized m) (h : val l = val m) : l = m := by
  refine CLang.eq_of_val_eq (le_antisymm ?_ ?_) h
  · exact hl.length_le_iff.mpr (h ▸ val_lt m)
  · exact hm.length_le_iff.mpr (h ▸ val_lt l)

theorem Normalized.val_eq_zero_iff (h : Normalized l) : val l = 0 ↔ l = [] := by
  constructor
  · intro hv
    exact h.eq_of_val_eq normal_nil (by simpa using hv)
  · rintro rfl
    rfl

/-- A list with a nonzero value at its last place is normal. -/
theorem normal_of_le_val (h : (2 ^ 64) ^ (l.length - 1) ≤ val l) : Normalized l := by
  rcases List.eq_nil_or_concat l with rfl | ⟨l, a, rfl⟩
  · exact normal_nil
  · rw [List.concat_eq_append] at h ⊢
    rw [normal_append_singleton]
    rintro rfl
    rw [val_append, List.length_append, List.length_singleton, Nat.add_sub_cancel] at h
    have := val_lt l
    simp only [val_singleton, UInt64.toNat_zero, Nat.mul_zero] at h
    omega

/-! ### Limbs of a number -/

/-- The `n` lowest limbs of a number. -/
def limbsOf : ℕ → ℕ → List UInt64
  | 0, _ => []
  | n + 1, v => UInt64.ofNat v :: limbsOf n (v / 2 ^ 64)

@[simp] theorem length_limbsOf (n v : ℕ) : (limbsOf n v).length = n := by
  induction n generalizing v with
  | zero => rfl
  | succ n ih => rw [limbsOf, List.length_cons, ih]

/-- Enough limbs hold the number. -/
theorem val_limbsOf {n v : ℕ} (h : v < (2 ^ 64) ^ n) : val (limbsOf n v) = v := by
  induction n generalizing v with
  | zero =>
      obtain rfl : v = 0 := by simpa using h
      rfl
  | succ n ih =>
      have hdiv : v / 2 ^ 64 < (2 ^ 64) ^ n := by
        rw [Nat.div_lt_iff_lt_mul (by norm_num), ← pow_succ (2 ^ 64)]
        exact h
      rw [limbsOf, val_cons, ih hdiv, UInt64.toNat_ofNat', Nat.mod_add_div]

end

end CLang
end SecureDesign
