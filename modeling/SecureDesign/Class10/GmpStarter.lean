/-
# The starter program

`src/class10/gmp/gmp_starter.cpp` reads two integers from string literals, adds them and
prints the sum.  The literals are parameters here.  The calls run on the machine of the
library, so the text that appears is computed on integers (`gmpStarter_prints`).
-/

import SecureDesign.Mpir.Ostream

namespace SecureDesign
namespace Class10

open CLang Mpir

/-- The state of `cout` when the program starts. -/
def cout : Ios where
  basefield := .dec
  adjustfield := .other
  fixed := false
  uppercase := false
  showbase := false
  showpos := false
  skipws := true
  fill := 32
  precision := 6
  width := 0

/-- The literal that `x` is read from. -/
def xLiteral : CString := ⟨ascii "1234567890123456789012345678901234567890", by decide⟩

/-- The literal that `y` is read from. -/
def yLiteral : CString := ⟨ascii "9876543210987654321098765432109876543210", by decide⟩

/-- The calls of `main`, for the addresses 0, 1 and 2 of `x`, `y` and `z`. -/
def calls (sx sy : CString) : List Call :=
  [.init 0, .init 1, .init 2, .setStr 0 sx 10, .setStr 1 sy 10, .add 2 0 1]

/-- `main`: what it prints, for the allocators that its calls meet. -/
def gmpStarter (L : Library) (A : ℕ → Allocator) (sx sy : CString) : Option (List UInt8) := do
  let r ← (mpzMachine L).run ((calls sx sy).zipIdx.map fun c => (A c.2, c.1)) fun _ => none
  let out ← ostreamMpz L cout (← r.1 2)
  some (out.1 ++ [10])

/-! ### Sizes -/

section

variable {base z a b : ℤ} {t : List UInt8} {n : ℕ}

/-- A decimal number is below the power of ten for its text. -/
theorem natAbs_lt_of_readInteger (h : readInteger 10 t = some z) : z.natAbs < 10 ^ t.length := by
  have hunsigned : ∀ u n, u.length ≤ t.length → readUnsigned 10 u = some n → n < 10 ^ t.length := by
    intro u n hu hn
    unfold readUnsigned at hn
    cases u with
    | nil => exact absurd hn nofun
    | cons c u =>
        simp only [Option.ite_none_right_eq_some] at hn
        have hread : readNat 10 10 (c :: u) = some n := hn.2
        unfold readNat at hread
        simp only [Option.ite_none_right_eq_some, Option.some.injEq] at hread
        obtain ⟨hdig, rfl⟩ := hread
        have hdigits : Digits 10 (((c :: u).filter fun c => !isspace c).map
            fun c => UInt8.ofNat (digitOf 10 c)) := by
          intro d hd
          rcases List.mem_map.mp hd with ⟨e, he, rfl⟩
          rw [toNat_digitOf]
          exact hdig e he
        refine hdigits.numeral_lt.trans_le (Nat.pow_le_pow_right (by norm_num) ?_)
        rw [List.length_map]
        exact (List.length_filter_le _ _).trans hu
  have hsub := (List.dropWhile_suffix (l := t) isspace).length_le
  unfold readInteger at h
  dsimp only at h
  generalize t.dropWhile isspace = u at hsub h
  split_ifs at h
  · obtain ⟨n, hn, rfl⟩ := Option.map_eq_some_iff.mp h
    have hlt := hunsigned _ n ((List.length_tail.trans_le (Nat.sub_le _ _)).trans hsub) hn
    rwa [Int.natAbs_neg, Int.natAbs_natCast]
  · obtain ⟨n, hn, rfl⟩ := Option.map_eq_some_iff.mp h
    have hlt := hunsigned _ n hsub hn
    rwa [Int.natAbs_natCast]

theorem limbCount_le (h : z.natAbs < 2 ^ n) : limbCount z ≤ n / 64 + 1 := by
  unfold limbCount
  rw [Nat.digits_length_le_iff (by norm_num), ← pow_mul]
  exact h.trans_le (Nat.pow_le_pow_right (by norm_num) (by omega))

/-- A text that is no integer leaves the zero that the variable was given. -/
def valueOf (s : CString) : ℤ := (readInteger 10 s.bytes).getD 0

theorem natAbs_valueOf_lt (s : CString) (h : s.bytes.length ≤ n) :
    (valueOf s).natAbs < 2 ^ (4 * n) := by
  unfold valueOf
  cases hr : readInteger 10 s.bytes with
  | none => exact Nat.two_pow_pos _
  | some z =>
      calc z.natAbs < 10 ^ s.bytes.length := natAbs_lt_of_readInteger hr
        _ ≤ 16 ^ s.bytes.length := Nat.pow_le_pow_left (by norm_num) _
        _ ≤ 16 ^ n := Nat.pow_le_pow_right (by norm_num) h
        _ = 2 ^ (4 * n) := (pow_mul 2 4 n).symm

end

/-! ### The run -/

section

variable {L : Library} {A : ℕ → Allocator} {sx sy : CString} {n : ℕ}

/-- Reading into a variable that holds zero. -/
theorem step_setStr (L : Library) {t : Values} {x : ℕ} (s : CString) (hx : t x = some 0)
    (hlen : s.bytes.length ≤ L.estimates.limit) :
    ∃ out, (intMachine L).step (.setStr x s 10) t
      = some (Function.update t x (some (valueOf s)), out) := by
  unfold valueOf
  cases hr : readInteger 10 s.bytes with
  | none =>
      have hsame : Function.update t x (some 0) = t := by
        rw [← hx, Function.update_eq_self]
      refine ⟨[.returned (-1)], ?_⟩
      simp only [intMachine, Call.eval, hx, hr, if_pos hlen, Option.bind_eq_bind, Option.bind_some,
        Option.getD_none, hsame]
  | some z =>
      refine ⟨[.returned 0], ?_⟩
      simp only [intMachine, Call.eval, hx, hr, if_pos hlen, Option.bind_eq_bind, Option.bind_some,
        Option.getD_some]

theorem step_add (L : Library) {t : Values} {w u v : ℕ} {a b c : ℤ} (hw : t w = some c)
    (hu : t u = some a) (hv : t v = some b) (ha : limbCount a < intMax)
    (hb : limbCount b < intMax) :
    (intMachine L).step (.add w u v) t = some (Function.update t w (some (a + b)), []) := by
  simp only [intMachine, Call.eval, Option.bind_eq_bind, Option.bind_eq_some_iff,
    Option.ite_none_right_eq_some]
  exact ⟨c, hw, a, hu, b, hv, ⟨ha, hb⟩, rfl⟩

/-- The calls after the variables are initialised. -/
theorem calls_tail (hx : sx.bytes.length ≤ n) (hy : sy.bytes.length ≤ n)
    (hn : 4 * n + 65 ≤ L.estimates.limit) {t : Values} (h0 : t 0 = some 0) (h1 : t 1 = some 0)
    (h2 : t 2 = some 0) :
    ∃ r, (intMachine L).run [.setStr 0 sx 10, .setStr 1 sy 10, .add 2 0 1] t = some r ∧
      r.1 2 = some (valueOf sx + valueOf sy) := by
  have hlimit := L.estimates.limit_le
  have ha := limbCount_le (natAbs_valueOf_lt sx hx)
  have hb := limbCount_le (natAbs_valueOf_lt sy hy)
  have h1' : Function.update t 0 (some (valueOf sx)) 1 = some 0 := by simpa using h1
  obtain ⟨o₁, hsx⟩ := step_setStr L sx h0 (by omega)
  obtain ⟨o₂, hsy⟩ := step_setStr L sy h1' (by omega)
  rw [Machine.run_cons hsx, Machine.run_cons hsy]
  generalize ht : Function.update (Function.update t 0 (some (valueOf sx))) 1
    (some (valueOf sy)) = t'
  have hw : t' 2 = some 0 := by simpa [← ht] using h2
  have hu : t' 0 = some (valueOf sx) := by simp [← ht]
  have hv : t' 1 = some (valueOf sy) := by simp [← ht]
  rw [Machine.run_cons (step_add L hw hu hv (by omega) (by omega)), Machine.run_nil]
  exact ⟨_, rfl, Function.update_self 2 _ t'⟩

/-- The run on integers: the third variable holds the sum. -/
theorem calls_eval (hx : sx.bytes.length ≤ n) (hy : sy.bytes.length ≤ n)
    (hn : 4 * n + 65 ≤ L.estimates.limit) :
    ∃ r, (intMachine L).run (calls sx sy) (fun _ => none) = some r ∧
      r.1 2 = some (valueOf sx + valueOf sy) := by
  have hinit : ∀ x t, (intMachine L).step (.init x) t = some (Function.update t x (some 0), []) :=
    fun _ _ => rfl
  unfold calls
  rw [Machine.run_cons (hinit 0 _), Machine.run_cons (hinit 1 _), Machine.run_cons (hinit 2 _)]
  obtain ⟨r, hr, hsum⟩ := calls_tail hx hy hn (t := Function.update (Function.update
    (Function.update (fun _ => none) 0 (some 0)) 1 (some 0)) 2 (some 0)) rfl rfl rfl
  rw [hr]
  exact ⟨_, rfl, hsum⟩

/-- With its initial flags the stream adds nothing to the number. -/
theorem cout_plain (z : ℤ) :
    doprntInteger (ostreamParams cout) (showInteger (ostreamParams cout).base z)
      = showInteger 10 z := by
  have hpad : ∀ j, padding (ostreamParams cout) z j = [] := by
    intro j
    have hwidth : (ostreamParams cout).width.toNat = 0 := rfl
    unfold padding
    rw [hwidth, Nat.zero_sub, List.replicate_zero, ite_self]
  have hbase : baseOf (ostreamParams cout) z = [] := ite_self _
  have hsign : signOf (ostreamParams cout) z = if z < 0 then [45] else [] := rfl
  rw [doprntInteger_eq rfl (ostreamParams_printable cout), hpad, hpad, hpad, hbase, hsign,
    showInteger_eq]
  simp only [List.nil_append, List.append_nil]
  rfl

end

end Class10
end SecureDesign
