/-
# Division by a reciprocal

A divisor `d` of one word, with its top bit set, is inverted once: the reciprocal
`v` is the largest number with `(β + v) * d < β²` (`IsReciprocal`, `β` the word
base).  Every later division of a two-word number `β * n₁ + n₀` by `d` multiplies
by `v` and corrects an estimate of the quotient.

Two estimates are used.  The plain one drops the low word and is at most three
too small (`IsReciprocal.plain_estimate`).  The adjusted one adds the low word in
and rounds by its top bit, and is at most one too small
(`IsReciprocal.adjusted_estimate`).
-/

import Mathlib.Tactic.Linarith
import Mathlib.Tactic.Ring

namespace SecureDesign
namespace CLang

/-- `v` is the reciprocal of `d`: `β + v` is the quotient of `β² - 1` by `d`. -/
structure IsReciprocal (β d v : ℕ) : Prop where
  mul_lt : (β + v) * d < β * β
  le_mul : β * β ≤ (β + v + 1) * d

namespace IsReciprocal

variable {β d v n₁ n₀ b a : ℕ}

/-- A number has at most one reciprocal. -/
theorem unique {v' : ℕ} (h : IsReciprocal β d v) (h' : IsReciprocal β d v') : v = v' := by
  have key : ∀ {x y : ℕ}, IsReciprocal β d x → IsReciprocal β d y → x ≤ y := by
    intro x y hx hy
    by_contra hlt
    have hmul : (β + y + 1) * d ≤ (β + x) * d := Nat.mul_le_mul_right d (by omega)
    have := hx.mul_lt
    have := hy.le_mul
    omega
  exact le_antisymm (key h h') (key h' h)

/-- The defect of the reciprocal is between one and the divisor. -/
private theorem exists_defect (h : IsReciprocal β d v) :
    ∃ e, (β + v) * d + e = β * β ∧ 0 < e ∧ e ≤ d := by
  refine ⟨β * β - (β + v) * d, ?_, ?_, ?_⟩
  · have := h.mul_lt
    omega
  · have := h.mul_lt
    omega
  · have h₁ := h.le_mul
    have h₂ : (β + v + 1) * d = (β + v) * d + d := by ring
    omega

/-- An estimate `S / β` whose error `D` is below one quotient step. -/
private theorem estimate_of_gap {S D n : ℕ} (hβ : 0 < β) (hd : 0 < d) (hgap : d * S + D = β * n)
    (hD : D < d * β) : S / β * d ≤ n ∧ n < (S / β + 2) * d := by
  have hdiv : S / β * β ≤ S := Nat.div_mul_le_self S β
  have hmod : S < (S / β + 1) * β := by
    have h₁ := Nat.div_add_mod S β
    have h₂ := Nat.mod_lt S hβ
    calc S = β * (S / β) + S % β := h₁.symm
      _ < β * (S / β) + β := by omega
      _ = (S / β + 1) * β := by ring
  constructor
  · have h₁ : β * (S / β * d) ≤ β * n := by
      calc β * (S / β * d) = d * (S / β * β) := by ring
        _ ≤ d * S := Nat.mul_le_mul_left d hdiv
        _ ≤ β * n := by omega
    exact Nat.le_of_mul_le_mul_left h₁ hβ
  · have h₁ : β * n < β * ((S / β + 2) * d) := by
      have h₂ : d * S < d * ((S / β + 1) * β) := Nat.mul_lt_mul_of_pos_left hmod hd
      calc β * n = d * S + D := hgap.symm
        _ < d * ((S / β + 1) * β) + d * β := by omega
        _ = β * ((S / β + 2) * d) := by ring
    exact Nat.lt_of_mul_lt_mul_left h₁

/-- **The adjusted estimate is at most one too small.**  `b` is the top bit of the
low word, and where it is set the divisor is added to the low word. -/
theorem adjusted_estimate (h : IsReciprocal β d v) (hdβ : d < β) (hd : β ≤ 2 * d) (hn₁ : n₁ < d)
    (hn₀ : n₀ < β)
    (hb : b = 0 ∧ 2 * n₀ < β ∧ a = n₀ ∨ b = 1 ∧ β ≤ 2 * n₀ ∧ a + β = n₀ + d) :
    v * (n₁ + b) + (β * n₁ + a) < β * β ∧
      (v * (n₁ + b) + (β * n₁ + a)) / β * d ≤ β * n₁ + n₀ ∧
      β * n₁ + n₀ < ((v * (n₁ + b) + (β * n₁ + a)) / β + 2) * d := by
  obtain ⟨e, he, -, hed⟩ := h.exists_defect
  obtain ⟨δ, rfl⟩ : ∃ δ, β = d + δ := ⟨β - d, by omega⟩
  set S := v * (n₁ + b) + ((d + δ) * n₁ + a) with hS
  -- The error of the estimate, in the two roundings.
  obtain ⟨D, hgap, hD⟩ : ∃ D, d * S + D = (d + δ) * ((d + δ) * n₁ + n₀) ∧ D < d * (d + δ) := by
    rcases hb with ⟨rfl, hlow, rfl⟩ | ⟨rfl, hhigh, hadj⟩
    · refine ⟨e * n₁ + δ * a, ?_, ?_⟩
      · have hv : d * v * n₁ + (d + δ) * d * n₁ + e * n₁ = (d + δ) * (d + δ) * n₁ := by
          rw [← he]; ring
        calc d * S + (e * n₁ + δ * a)
            = d * v * n₁ + (d + δ) * d * n₁ + e * n₁ + (d + δ) * a := by rw [hS]; ring
          _ = (d + δ) * ((d + δ) * n₁ + a) := by rw [hv]; ring
      · have h₁ : e * n₁ ≤ d * n₁ := Nat.mul_le_mul_right n₁ hed
        have h₂ : d * n₁ < d * d := Nat.mul_lt_mul_of_pos_left hn₁ (by omega)
        have h₃ : δ * a ≤ δ * d := Nat.mul_le_mul_left δ (by omega)
        have h₄ : d * (d + δ) = d * d + δ * d := by ring
        omega
    · obtain ⟨t, rfl⟩ : ∃ t, n₀ = δ + t := ⟨n₀ - δ, by omega⟩
      obtain rfl : a = t := by omega
      refine ⟨e * (n₁ + 1) + δ * a, ?_, ?_⟩
      · have hv : d * v * (n₁ + 1) + (d + δ) * d * (n₁ + 1) + e * (n₁ + 1)
            = (d + δ) * (d + δ) * (n₁ + 1) := by
          rw [← he]; ring
        -- Both sides after adding `(d + δ) * d`, which the top bit has rounded away.
        have hround : d * S + (e * (n₁ + 1) + δ * a) + (d + δ) * d
            = (d + δ) * ((d + δ) * n₁ + (δ + a)) + (d + δ) * d := by
          calc d * S + (e * (n₁ + 1) + δ * a) + (d + δ) * d
              = d * v * (n₁ + 1) + (d + δ) * d * (n₁ + 1) + e * (n₁ + 1) + (d + δ) * a := by
                rw [hS]; ring
            _ = (d + δ) * ((d + δ) * n₁ + (δ + a)) + (d + δ) * d := by rw [hv]; ring
        omega
      · have h₁ : e * (n₁ + 1) ≤ d * d := Nat.mul_le_mul hed hn₁
        have h₂ : δ * a < δ * d := Nat.mul_lt_mul_of_pos_left (by omega) (by omega)
        have h₃ : d * (d + δ) = d * d + δ * d := by ring
        omega
  refine ⟨?_, estimate_of_gap (by omega) (by omega) hgap hD⟩
  have h₁ : (d + δ) * n₁ + n₀ < d * (d + δ) := by
    calc (d + δ) * n₁ + n₀ < (d + δ) * n₁ + (d + δ) := by omega
      _ = (n₁ + 1) * (d + δ) := by ring
      _ ≤ d * (d + δ) := Nat.mul_le_mul_right _ hn₁
  have h₂ : d * S < d * ((d + δ) * (d + δ)) := by
    calc d * S ≤ (d + δ) * ((d + δ) * n₁ + n₀) := by omega
      _ < (d + δ) * (d * (d + δ)) := Nat.mul_lt_mul_of_pos_left h₁ (by omega)
      _ = d * ((d + δ) * (d + δ)) := by ring
  exact Nat.lt_of_mul_lt_mul_left h₂

/-- **The plain estimate is at most three too small**, and what it leaves is below
the base and two divisors. -/
theorem plain_estimate (h : IsReciprocal β d v) (hdβ : d < β) (hn₁ : n₁ < d) (hn₀ : n₀ < β) :
    n₁ * v / β + n₁ < β ∧ (n₁ * v / β + n₁) * d ≤ β * n₁ + n₀ ∧
      β * n₁ + n₀ < (n₁ * v / β + n₁) * d + (β + 2 * d) := by
  obtain ⟨e, he, he0, hed⟩ := h.exists_defect
  have hq : n₁ * v / β + n₁ = n₁ * (β + v) / β := by
    rw [show n₁ * (β + v) = n₁ * v + β * n₁ by ring, Nat.add_mul_div_left _ _ (by omega)]
  rw [hq]
  set q := n₁ * (β + v) / β with hqdef
  have hdm := Nat.div_add_mod (n₁ * (β + v)) β
  have hmod := Nat.mod_lt (n₁ * (β + v)) (show 0 < β by omega)
  rw [← hqdef] at hdm
  -- `β` times the rest is the defect, the dropped low word and the rounding.
  have hrest : β * (q * d) + d * (n₁ * (β + v) % β) + e * n₁ = β * (β * n₁) := by
    calc β * (q * d) + d * (n₁ * (β + v) % β) + e * n₁
        = d * (β * q + n₁ * (β + v) % β) + e * n₁ := by ring
      _ = d * (n₁ * (β + v)) + e * n₁ := by rw [hdm]
      _ = n₁ * ((β + v) * d + e) := by ring
      _ = β * (β * n₁) := by rw [he]; ring
  have he₁ : e * n₁ < d * β := by
    calc e * n₁ ≤ d * n₁ := Nat.mul_le_mul_right n₁ hed
      _ < d * β := Nat.mul_lt_mul_of_pos_left (by omega) (by omega)
  have hd₁ : d * (n₁ * (β + v) % β) < d * β := Nat.mul_lt_mul_of_pos_left hmod (by omega)
  refine ⟨?_, ?_, ?_⟩
  · rw [hqdef, Nat.div_lt_iff_lt_mul (by omega)]
    calc n₁ * (β + v) ≤ d * (β + v) := Nat.mul_le_mul_right _ hn₁.le
      _ = (β + v) * d := Nat.mul_comm _ _
      _ < β * β := h.mul_lt
  · have h₁ : β * (q * d) ≤ β * (β * n₁) := by omega
    exact (Nat.le_of_mul_le_mul_left h₁ (by omega)).trans (Nat.le_add_right _ _)
  · have h₁ : β * (β * n₁) < β * (q * d + 2 * d) := by
      have : β * (q * d + 2 * d) = β * (q * d) + (d * β + d * β) := by ring
      omega
    have := Nat.lt_of_mul_lt_mul_left h₁
    omega

end IsReciprocal

end CLang
end SecureDesign
