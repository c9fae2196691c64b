/-
# The integers of C

A 32-bit `int` is an integer of `ℤ` that every operation keeps in
`[intMin, intMax]`: signed overflow is undefined behaviour, so `addInt` faults
there.  A 64-bit `size_t` is a natural number; its arithmetic wraps, and an
`int` compared with it is converted first.
-/

import Mathlib.Data.Int.Basic
import Mathlib.Data.Int.Notation
import SecureDesign.CLang.Exec

namespace SecureDesign
namespace CLang

open Exec

/-- `INT_MAX`. -/
def intMax : ℤ := 2147483647

/-- `INT_MIN`. -/
def intMin : ℤ := -2147483648

/-- One more than the largest `size_t`. -/
def sizeModulus : ℕ := 18446744073709551616

/-- `a + b` on `int`. -/
def addInt {ω : Type} (a b : ℤ) : Exec ω Fault ℤ :=
  if intMin ≤ a + b ∧ a + b ≤ intMax then pure (a + b) else fault .signedOverflow

/-- The conversion of an `int` to `size_t`. -/
def sizeOfInt (a : ℤ) : ℕ := (a % (sizeModulus : ℤ)).toNat

/-- `a - b` on `size_t`: below zero it wraps round to the top of the range. -/
def subSize (a b : ℕ) : ℕ := if b ≤ a then a - b else a + sizeModulus - b

section

variable {ω : Type} {a b : ℤ}

theorem addInt_eq_pure (h₁ : intMin ≤ a + b) (h₂ : a + b ≤ intMax) :
    (addInt a b : Exec ω Fault ℤ) = pure (a + b) := if_pos ⟨h₁, h₂⟩

theorem addInt_eq_fault (h : intMax < a + b) :
    (addInt a b : Exec ω Fault ℤ) = fault .signedOverflow := if_neg fun h' => by omega

/-- Counting up by one is safe below `INT_MAX`. -/
theorem addInt_one (h₀ : 0 ≤ a) (h : a < intMax) :
    (addInt a 1 : Exec ω Fault ℤ) = pure (a + 1) :=
  addInt_eq_pure (by simp only [intMin]; omega) (by omega)

/-- A nonnegative `int` keeps its value as a `size_t`. -/
theorem sizeOfInt_of_nonneg (h₀ : 0 ≤ a) (h : a ≤ intMax) : sizeOfInt a = a.toNat := by
  unfold sizeOfInt
  rw [Int.emod_eq_of_lt h₀]
  simp only [intMax, sizeModulus] at h ⊢
  omega

end

end CLang
end SecureDesign
