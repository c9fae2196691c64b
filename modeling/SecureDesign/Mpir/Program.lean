/-
# Programs over integers

A program that computes with `mpz_t` variables is a list of calls, and every call may find
the allocator in another mood.  Two machines run it.  `mpzMachine` calls the functions of the
library on the structures and blocks in memory.  `intMachine` computes with integers: it says
what each call is for, and which conditions on its arguments the library needs.

The first implements the second (`mpzMachine_implements`), so in a program that keeps the
conditions every variable holds the exact integer, every text that is written is that of the
integer, and no access is outside of a block, however the variables alias and whatever the
allocator hands out.
-/

import SecureDesign.CLang.Simulation
import SecureDesign.Mpir.MpzGetStr
import SecureDesign.Mpir.Sqr

namespace SecureDesign
namespace Mpir

open CLang

/-- A call, with the addresses of its integers. -/
inductive Call
  | init (x : ℕ)
  | clear (x : ℕ)
  | set (w u : ℕ)
  | setUi (w : ℕ) (val : UInt64)
  | neg (w u : ℕ)
  | add (w u v : ℕ)
  | sub (w u v : ℕ)
  | mul (w u v : ℕ)
  | cmp (u v : ℕ)
  | setStr (x : ℕ) (str : CString) (base : ℤ)
  | getStr (base : ℤ) (x : ℕ)
  deriving DecidableEq

/-- What a call returns to the program: the sign of a comparison, the value of
`mpz_set_str`, and the string of `mpz_get_str` or its null pointer. -/
inductive Event
  | sign (c : ℤ)
  | returned (r : ℤ)
  | text (str : Option (List UInt8))
  deriving DecidableEq

/-- The parts of the library that are not modelled. -/
structure Library where
  estimates : Estimates
  mul : MulKernel
  div : DivKernel

/-- A call on the integers in memory. -/
def Call.exec (L : Library) (A : Allocator) (s : Store) : Call → Option (Store × List Event)
  | init x => some (mpzInit A s x, [])
  | clear x => (mpzClear s x).map fun s => (s, [])
  | set w u => (mpzSet A s w u).map fun s => (s, [])
  | setUi w val => (mpzSetUi s w val).map fun s => (s, [])
  | neg w u => (mpzNeg A s w u).map fun s => (s, [])
  | add w u v => (mpzAdd A s w u v).map fun s => (s, [])
  | sub w u v => (mpzSub A s w u v).map fun s => (s, [])
  | mul w u v => (mpzMul A L.mul s w u v).map fun s => (s, [])
  | cmp u v => do
      let c ← mpzCmp (← s u) (← s v)
      some (s, [.sign c.sign])
  | setStr x str base => do
      let r ← mpzSetStr L.estimates L.mul A s x (str.bytes ++ [0]) base
      some (r.2, [.returned r.1])
  | getStr base x => do
      let str ← mpzGetStr L.estimates L.mul L.div none base (← s x)
      some (s, [.text str])

/-- The library at work: an instruction is a call with the allocator that it meets. -/
def mpzMachine (L : Library) : Machine (Allocator × Call) Store Event where
  step i s := i.2.exec L i.1 s

/-- The library with exact estimates, its own multiplication of numbers that are not large,
and the simple division. -/
def Library.exact : Library where
  estimates := .exact
  mul := .withSqr (.withKara (.withSmall .basecase))
  div := .plain

/-! ### The machine on integers -/

/-- The number of limbs of an integer. -/
def limbCount (z : ℤ) : ℕ := (Nat.digits (2 ^ 64) z.natAbs).length

/-- The size of an integer: the number of its limbs with its sign. -/
def sizeOfInt (z : ℤ) : ℤ := if z < 0 then -(limbCount z : ℤ) else limbCount z

/-- The variables of a program by their addresses, with the integers in them. -/
abbrev Values := ℕ → Option ℤ

/-- The integers whose string `mpz_get_str` can write. -/
def Writable (L : Library) (base z : ℤ) : Prop :=
  Printable base ∧ 64 * limbCount z ≤ L.estimates.limit

instance (L : Library) (base z : ℤ) : Decidable (Writable L base z) := by
  unfold Writable
  infer_instance

/-- A call on integers; none where the library does not promise a result. -/
def Call.eval (L : Library) (t : Values) : Call → Option (Values × List Event)
  | init x => some (Function.update t x (some 0), [])
  | clear x => (t x).map fun _ => (Function.update t x none, [])
  | set w u => do
      let _ ← t w
      some (Function.update t w (some (← t u)), [])
  | setUi w val => (t w).map fun _ => (Function.update t w (some (val.toNat : ℤ)), [])
  | neg w u => do
      let _ ← t w
      some (Function.update t w (some (-(← t u))), [])
  | add w u v => do
      let _ ← t w
      let a ← t u
      let b ← t v
      if limbCount a < intMax ∧ limbCount b < intMax then
        some (Function.update t w (some (a + b)), [])
      else none
  | sub w u v => do
      let _ ← t w
      let a ← t u
      let b ← t v
      if limbCount a < intMax ∧ limbCount b < intMax then
        some (Function.update t w (some (a - b)), [])
      else none
  | mul w u v => do
      let _ ← t w
      let a ← t u
      let b ← t v
      if (limbCount a + limbCount b : ℤ) ≤ intMax then
        some (Function.update t w (some (a * b)), [])
      else none
  | cmp u v => do
      let a ← t u
      let b ← t v
      if intMin ≤ sizeOfInt a - sizeOfInt b ∧ sizeOfInt a - sizeOfInt b ≤ intMax then
        some (t, [.sign (a - b).sign])
      else none
  | setStr x str base => do
      let _ ← t x
      if str.bytes.length ≤ L.estimates.limit then
        match readInteger base str.bytes with
        | some z => some (Function.update t x (some z), [.returned 0])
        | none => some (t, [.returned (-1)])
      else none
  | getStr base x => do
      let z ← t x
      if 62 < base then some (t, [.text none])
      else if Writable L base z then some (t, [.text (some (showInteger base z ++ [0]))])
      else none

/-- The machine that computes with integers. -/
def intMachine (L : Library) : Machine Call Values Event where
  step c t := c.eval L t

/-- A store whose integers are valid and have the given values. -/
structure Represents (s : Store) (t : Values) : Prop where
  valid : s.Valid
  values : ∀ a, t a = (s a).map MpzStruct.toInt

/-! ### Sizes -/

section

variable {m : MpzStruct}

/-- The size of a valid integer is that of its value. -/
theorem MpzStruct.Valid.limbCount_eq (hm : m.Valid) : limbCount m.toInt = m.size.natAbs := by
  have hlen := hm.length_limbs
  unfold limbCount
  rw [m.natAbs_toInt, ← hlen]
  refine le_antisymm ?_ ?_
  · rw [Nat.digits_length_le_iff (by norm_num)]
    exact val_lt m.limbs
  · rw [hm.normal.length_le_iff]
    exact Nat.lt_base_pow_length_digits (by norm_num)

theorem MpzStruct.Valid.sizeOfInt_eq (hm : m.Valid) : sizeOfInt m.toInt = m.size := by
  unfold sizeOfInt
  rw [hm.limbCount_eq]
  by_cases h : m.size < 0
  · rw [if_pos (hm.toInt_neg_iff.mpr h)]
    omega
  · rw [if_neg fun h' => h (hm.toInt_neg_iff.mp h')]
    omega

end

/-! ### The simulation -/

section

variable {L : Library} {A : Allocator} {s : Store} {t : Values} {w : ℕ}

/-- A variable of the one machine is a variable of the other. -/
theorem Represents.exists_of_eq_some (h : Represents s t) {a : ℕ} {z : ℤ} (hz : t a = some z) :
    ∃ m, s a = some m ∧ m.toInt = z ∧ m.Valid := by
  rw [h.values a, Option.map_eq_some_iff] at hz
  obtain ⟨m, hm, hval⟩ := hz
  exact ⟨m, hm, hval, h.valid a m hm⟩

theorem represents_empty : Represents (fun _ => none) fun _ => none :=
  ⟨Store.valid_empty, fun _ => rfl⟩

/-- **Assigning keeps the relation.** -/
theorem Represents.assigns (h : Represents s t) {z : ℤ} {r : Option Store} (hr : Assigns s w z r) :
    ∃ s', r = some s' ∧ Represents s' (Function.update t w (some z)) := by
  obtain ⟨m, hm, hvalid, hval⟩ := hr
  refine ⟨_, hm, h.valid.update hvalid, fun a => ?_⟩
  by_cases haw : a = w
  · subst haw
    rw [Function.update_self, Function.update_self, Option.map_some, hval]
  · rw [Function.update_of_ne haw, Function.update_of_ne haw, h.values a]

/-- A call that assigns one variable and returns nothing. -/
theorem Represents.silent (h : Represents s t) {z : ℤ} {r : Option Store} (hr : Assigns s w z r) :
    ∃ s', (r.map fun s => (s, ([] : List Event))) = some (s', []) ∧
      Represents s' (Function.update t w (some z)) := by
  obtain ⟨s', rfl, hs'⟩ := h.assigns hr
  exact ⟨s', rfl, hs'⟩

/-- A variable that is cleared is one no more. -/
theorem Represents.clear (h : Represents s t) (w : ℕ) :
    Represents (Function.update s w none) (Function.update t w none) := by
  constructor
  · intro a m ha
    by_cases haw : a = w
    · rw [haw, Function.update_self] at ha
      exact absurd ha (Option.some_ne_none m).symm
    · rw [Function.update_of_ne haw] at ha
      exact h.valid a m ha
  · intro a
    by_cases haw : a = w
    · rw [haw, Function.update_self, Function.update_self, Option.map_none]
    · rw [Function.update_of_ne haw, Function.update_of_ne haw, h.values a]

/-- **Every call does on the integers in memory what it does on integers.** -/
theorem Call.exec_eval (h : Represents s t) (c : Call) {p : Values × List Event}
    (hp : c.eval L t = some p) :
    ∃ s', c.exec L A s = some (s', p.2) ∧ Represents s' p.1 := by
  cases c with
  | init x =>
      obtain rfl := Option.some.inj hp
      obtain ⟨s', hs', hR⟩ := h.assigns (mpzInit_assigns A s x)
      obtain rfl := Option.some.inj hs'
      exact ⟨_, rfl, hR⟩
  | clear x =>
      unfold eval at hp
      rw [Option.map_eq_some_iff] at hp
      obtain ⟨z, hz, rfl⟩ := hp
      obtain ⟨m, hm, -, -⟩ := h.exists_of_eq_some hz
      refine ⟨_, ?_, h.clear x⟩
      simp only [exec, mpzClear, hm, Option.bind_eq_bind, Option.bind_some, Option.map_some]
  | set w u =>
      simp only [eval, Option.bind_eq_bind, Option.bind_eq_some_iff, Option.some.injEq] at hp
      obtain ⟨_, hw, z, hu, rfl⟩ := hp
      obtain ⟨wm, hwm, -, -⟩ := h.exists_of_eq_some hw
      obtain ⟨um, hum, rfl, -⟩ := h.exists_of_eq_some hu
      exact h.silent (mpzSet_assigns h.valid hwm hum)
  | setUi w val =>
      unfold eval at hp
      rw [Option.map_eq_some_iff] at hp
      obtain ⟨_, hw, rfl⟩ := hp
      obtain ⟨wm, hwm, -, -⟩ := h.exists_of_eq_some hw
      exact h.silent (mpzSetUi_assigns h.valid hwm val)
  | neg w u =>
      simp only [eval, Option.bind_eq_bind, Option.bind_eq_some_iff, Option.some.injEq] at hp
      obtain ⟨_, hw, z, hu, rfl⟩ := hp
      obtain ⟨wm, hwm, -, -⟩ := h.exists_of_eq_some hw
      obtain ⟨um, hum, rfl, -⟩ := h.exists_of_eq_some hu
      exact h.silent (mpzNeg_assigns h.valid hwm hum)
  | add w u v =>
      simp only [eval, Option.bind_eq_bind, Option.bind_eq_some_iff, Option.ite_none_right_eq_some,
        Option.some.injEq] at hp
      obtain ⟨_, hw, a, hu, b, hv, ⟨hafit, hbfit⟩, rfl⟩ := hp
      obtain ⟨wm, hwm, -, -⟩ := h.exists_of_eq_some hw
      obtain ⟨um, hum, rfl, humv⟩ := h.exists_of_eq_some hu
      obtain ⟨vm, hvm, rfl, hvmv⟩ := h.exists_of_eq_some hv
      rw [humv.limbCount_eq] at hafit
      rw [hvmv.limbCount_eq] at hbfit
      exact h.silent (mpzAdd_assigns h.valid hwm hum hvm hafit hbfit)
  | sub w u v =>
      simp only [eval, Option.bind_eq_bind, Option.bind_eq_some_iff, Option.ite_none_right_eq_some,
        Option.some.injEq] at hp
      obtain ⟨_, hw, a, hu, b, hv, ⟨hafit, hbfit⟩, rfl⟩ := hp
      obtain ⟨wm, hwm, -, -⟩ := h.exists_of_eq_some hw
      obtain ⟨um, hum, rfl, humv⟩ := h.exists_of_eq_some hu
      obtain ⟨vm, hvm, rfl, hvmv⟩ := h.exists_of_eq_some hv
      rw [humv.limbCount_eq] at hafit
      rw [hvmv.limbCount_eq] at hbfit
      exact h.silent (mpzSub_assigns h.valid hwm hum hvm hafit hbfit)
  | mul w u v =>
      simp only [eval, Option.bind_eq_bind, Option.bind_eq_some_iff, Option.ite_none_right_eq_some,
        Option.some.injEq] at hp
      obtain ⟨_, hw, a, hu, b, hv, hfit, rfl⟩ := hp
      obtain ⟨wm, hwm, -, -⟩ := h.exists_of_eq_some hw
      obtain ⟨um, hum, rfl, humv⟩ := h.exists_of_eq_some hu
      obtain ⟨vm, hvm, rfl, hvmv⟩ := h.exists_of_eq_some hv
      rw [humv.limbCount_eq, hvmv.limbCount_eq] at hfit
      exact h.silent (mpzMul_assigns h.valid hwm hum hvm hfit)
  | cmp u v =>
      simp only [eval, Option.bind_eq_bind, Option.bind_eq_some_iff, Option.ite_none_right_eq_some,
        Option.some.injEq] at hp
      obtain ⟨a, hu, b, hv, ⟨hmin, hmax⟩, rfl⟩ := hp
      obtain ⟨um, hum, rfl, humv⟩ := h.exists_of_eq_some hu
      obtain ⟨vm, hvm, rfl, hvmv⟩ := h.exists_of_eq_some hv
      rw [humv.sizeOfInt_eq, hvmv.sizeOfInt_eq] at hmin hmax
      obtain ⟨c, hc, hlt, heq⟩ := mpzCmp_eq humv hvmv hmin hmax
      have hsign := sign_of_order hlt heq
      refine ⟨s, ?_, h⟩
      simp only [exec, hum, hvm, hc, hsign, Option.bind_eq_bind, Option.bind_some]
  | setStr x str base =>
      simp only [eval, Option.bind_eq_bind, Option.bind_eq_some_iff, Option.ite_none_right_eq_some]
        at hp
      obtain ⟨_, hx, hlen, hp⟩ := hp
      obtain ⟨xm, hxm, -, -⟩ := h.exists_of_eq_some hx
      have hreads : Reads s x (mpzSetStr L.estimates L.mul A s x (str.bytes ++ [0]) base)
          (readInteger base str.bytes) := mpzSetStr_reads h.valid hxm str.noNul hlen
      cases hr : readInteger base str.bytes with
      | none =>
          rw [hr] at hp hreads
          obtain rfl := Option.some.inj hp
          have hr' : mpzSetStr L.estimates L.mul A s x (str.bytes ++ [0]) base = some (-1, s) :=
            hreads
          refine ⟨s, ?_, h⟩
          simp only [exec, hr', Option.bind_eq_bind, Option.bind_some]
      | some z =>
          rw [hr] at hp hreads
          obtain rfl := Option.some.inj hp
          obtain ⟨s', hs', hassigns⟩ := hreads
          obtain ⟨s'', hs'', hR⟩ := h.assigns hassigns
          obtain rfl := Option.some.inj hs''
          refine ⟨s', ?_, hR⟩
          simp only [exec, hs', Option.bind_eq_bind, Option.bind_some]
  | getStr base x =>
      simp only [eval, Option.bind_eq_bind, Option.bind_eq_some_iff] at hp
      obtain ⟨z, hx, hp⟩ := hp
      obtain ⟨xm, hxm, rfl, hxmv⟩ := h.exists_of_eq_some hx
      by_cases h62 : 62 < base
      · rw [if_pos h62] at hp
        obtain rfl := Option.some.inj hp
        refine ⟨s, ?_, h⟩
        simp only [exec, hxm, mpzGetStr, if_pos h62, Option.bind_eq_bind, Option.bind_some]
      · rw [if_neg h62, Option.ite_none_right_eq_some, Option.some.injEq] at hp
        obtain ⟨⟨hprint, hlen⟩, rfl⟩ := hp
        rw [hxmv.limbCount_eq] at hlen
        have hshow : mpzGetStr L.estimates L.mul L.div none base xm
            = some (some (showInteger base xm.toInt ++ [0])) :=
          mpzGetStr_shows hxmv hprint hlen nofun
        refine ⟨s, ?_, h⟩
        simp only [exec, hxm, hshow, Option.bind_eq_bind, Option.bind_some]

end

/-- **The library implements the integers.** -/
theorem mpzMachine_implements (L : Library) :
    Machine.Implements (mpzMachine L) (intMachine L) Prod.snd Represents where
  step h hp := Call.exec_eval h _ hp

end Mpir
end SecureDesign
