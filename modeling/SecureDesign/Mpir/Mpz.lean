/-
# Integers in memory

`__mpz_struct` of `gmp-h.in` and the functions of `mpz` that manage it:
`_mpz_realloc`, `mpz_init`, `mpz_set`, `mpz_neg` and `mpz_cmp`.  The block that
`_mp_d` points to is the list of its limbs; no two integers share a block, so the
memory of a program is a map from the addresses of its integers to their contents.
An access outside of a block has no result.  What a fresh limb contains is unknown,
and `Allocator` stands for it.

`_mp_alloc` and `_mp_size` are of type `int`, narrower than the sizes the functions
compute with.  A number whose limbs an `int` cannot count is therefore out of reach,
and the specifications ask for operands of fewer limbs.

`MpzStruct.Valid` is the invariant that the documentation states of `mpz_t`, and
`MpzStruct.toInt` the integer that a valid one holds.
-/

import Mathlib.Logic.Function.Basic
import SecureDesign.CLang.Integer
import SecureDesign.Mpir.AddSub

namespace SecureDesign
namespace Mpir

open CLang

/-- `__mpz_struct`, with the limbs of the block in place of the pointer `_mp_d`. -/
structure MpzStruct where
  alloc : ℤ
  size : ℤ
  d : List UInt64

/-- The integers of a program by their addresses; no content means not initialised. -/
abbrev Store := ℕ → Option MpzStruct

/-- What the allocation functions hand out. -/
structure Allocator where
  limbs : ℕ → List UInt64
  length_limbs : ∀ n, (limbs n).length = n

/-- The conversion of a `mp_size_t` to `int`. -/
def intOf (n : ℤ) : ℤ := Int.bmod n (2 ^ 32)

/-- `n` limbs read from a block. -/
def readLimbs (d : List UInt64) (n : ℕ) : Option (List UInt64) :=
  if n ≤ d.length then some (d.take n) else none

/-- A block after the limbs `r` are written to its start. -/
def writeLimbs (d r : List UInt64) : Option (List UInt64) :=
  if r.length ≤ d.length then some (r ++ d.drop r.length) else none

/-- `_mpz_realloc`. -/
def mpzRealloc (A : Allocator) (m : MpzStruct) (newAlloc : ℕ) : MpzStruct :=
  let newAlloc := max newAlloc 1
  { alloc := intOf newAlloc
    size := if newAlloc < m.size.natAbs then 0 else m.size
    d := m.d.take newAlloc ++ A.limbs (newAlloc - m.d.length) }

/-- `if (w->_mp_alloc < size) _mpz_realloc (w, size)`, which is also what `MPZ_REALLOC`
does. -/
def ensureAlloc (A : Allocator) (m : MpzStruct) (size : ℕ) : MpzStruct :=
  if m.alloc < size then mpzRealloc A m size else m

/-- The limbs `r` and the size written to `w`. -/
def storeLimbs (s : Store) (w : ℕ) (r : List UInt64) (size : ℤ) : Option Store := do
  let wm ← s w
  let d ← writeLimbs wm.d r
  some (Function.update s w (some { wm with d := d, size := intOf size }))

/-- `mpz_init`. -/
def mpzInit (A : Allocator) (s : Store) (x : ℕ) : Store :=
  Function.update s x (some { alloc := 1, size := 0, d := A.limbs 1 })

/-- `mpz_set`. -/
def mpzSet (A : Allocator) (s : Store) (w u : ℕ) : Option Store := do
  let usize := (← s u).size
  let size := usize.natAbs
  let s := Function.update s w (some (ensureAlloc A (← s w) size))
  let up ← readLimbs (← s u).d size
  let wm ← s w
  let d ← writeLimbs wm.d up
  some (Function.update s w (some { wm with d := d, size := usize }))

/-- `mpz_set_ui`. -/
def mpzSetUi (s : Store) (dest : ℕ) (val : UInt64) : Option Store := do
  let m ← s dest
  let d ← writeLimbs m.d [val]
  some (Function.update s dest (some { m with d := d, size := if val ≠ 0 then 1 else 0 }))

/-- `mpz_neg`. -/
def mpzNeg (A : Allocator) (s : Store) (w u : ℕ) : Option Store := do
  let usize := (← s u).size
  let size := usize.natAbs
  if u ≠ w then
    let s := Function.update s w (some (ensureAlloc A (← s w) size))
    let up ← readLimbs (← s u).d size
    let wm ← s w
    let d ← writeLimbs wm.d up
    some (Function.update s w (some { wm with d := d, size := -usize }))
  else
    let wm ← s w
    some (Function.update s w (some { wm with size := -usize }))

/-- `mpz_clear`. -/
def mpzClear (s : Store) (m : ℕ) : Option Store := do
  let _ ← s m
  some (Function.update s m none)

/-- `mpz_cmp`. -/
def mpzCmp (u v : MpzStruct) : Option ℤ := do
  let dsize := u.size - v.size
  if dsize ≠ 0 then some (intOf dsize)
  else
    let asize := u.size.natAbs
    let up ← readLimbs u.d asize
    let vp ← readLimbs v.d asize
    if 0 ≤ u.size then some (mpnCmp up vp) else some (-mpnCmp up vp)

/-! ### Valid integers -/

/-- The integer of a size and limbs: the sign of the size is that of the integer. -/
def ofLimbs (size : ℤ) (l : List UInt64) : ℤ := if size < 0 then -(val l : ℤ) else val l

/-- The limbs of the number. -/
def MpzStruct.limbs (m : MpzStruct) : List UInt64 := m.d.take m.size.natAbs

/-- The integer that an `mpz_t` holds. -/
def MpzStruct.toInt (m : MpzStruct) : ℤ := ofLimbs m.size m.limbs

/-- What holds of every initialised `mpz_t`: there is at least one limb, the number fits
the block, and its top limb is not zero. -/
structure MpzStruct.Valid (m : MpzStruct) : Prop where
  alloc_eq : m.alloc = m.d.length
  alloc_pos : 0 < m.d.length
  alloc_le : (m.d.length : ℤ) ≤ intMax
  size_le : m.size.natAbs ≤ m.d.length
  normal : Normalized m.limbs

/-- Every integer of the store is valid. -/
def Store.Valid (s : Store) : Prop := ∀ a m, s a = some m → m.Valid

section

variable {A : Allocator} {m : MpzStruct} {n : ℕ}

theorem intOf_of_le {k : ℤ} (h₀ : intMin ≤ k) (h : k ≤ intMax) : intOf k = k := by
  simp only [intMin, intMax] at h₀ h
  unfold intOf
  rw [Int.bmod_eq_of_le] <;> omega

theorem intOf_natCast (h : (n : ℤ) ≤ intMax) : intOf n = n :=
  intOf_of_le (by simp only [intMin]; omega) h

theorem MpzStruct.Valid.length_limbs (hm : m.Valid) : m.limbs.length = m.size.natAbs := by
  rw [MpzStruct.limbs, List.length_take, Nat.min_eq_left hm.size_le]

theorem readLimbs_eq {d : List UInt64} (h : n ≤ d.length) : readLimbs d n = some (d.take n) :=
  if_pos h

theorem writeLimbs_eq {d r : List UInt64} (h : r.length ≤ d.length) :
    writeLimbs d r = some (r ++ d.drop r.length) :=
  if_pos h

/-- A valid integer as a size and its limbs. -/
theorem MpzStruct.Valid.read (hm : m.Valid) : readLimbs m.d m.size.natAbs = some m.limbs :=
  readLimbs_eq hm.size_le

/-- **Writing a number into a block** that is large enough gives a valid integer. -/
theorem valid_write (hm : m.Valid) (r : List UInt64) (size : ℤ) (hr : r.length ≤ m.d.length)
    (hsize : size.natAbs ≤ r.length) (hnormal : Normalized (r.take size.natAbs)) :
    MpzStruct.Valid { m with d := r ++ m.d.drop r.length, size := size } ∧
      MpzStruct.toInt { m with d := r ++ m.d.drop r.length, size := size }
        = ofLimbs size (r.take size.natAbs) := by
  have hlen : (r ++ m.d.drop r.length).length = m.d.length := by
    rw [List.length_append, List.length_drop]
    omega
  have hlimbs : (r ++ m.d.drop r.length).take size.natAbs = r.take size.natAbs :=
    List.take_append_of_le_length hsize
  constructor
  · constructor
    · simpa [hlen] using hm.alloc_eq
    · simpa [hlen] using hm.alloc_pos
    · simpa [hlen] using hm.alloc_le
    · simpa [hlen] using hsize.trans hr
    · rwa [MpzStruct.limbs, hlimbs]
  · rw [MpzStruct.toInt, MpzStruct.limbs, hlimbs]

/-- **Growing a block** keeps the integer. -/
theorem ensureAlloc_spec (hm : m.Valid) (hn : (n : ℤ) ≤ intMax) :
    (ensureAlloc A m n).Valid ∧ n ≤ (ensureAlloc A m n).d.length ∧
      (ensureAlloc A m n).size = m.size ∧ (ensureAlloc A m n).limbs = m.limbs := by
  have halloc := hm.alloc_eq
  have hpos := hm.alloc_pos
  have hsize := hm.size_le
  unfold ensureAlloc
  by_cases h : m.alloc < n
  · have hmax : max n 1 = n := by omega
    have hnew : ¬n < m.size.natAbs := by omega
    have htake : m.d.take n = m.d := List.take_of_length_le (by omega)
    have hlen : (m.d.take n ++ A.limbs (n - m.d.length)).length = n := by
      rw [List.length_append, htake, A.length_limbs]
      omega
    have hlimbs : (m.d.take n ++ A.limbs (n - m.d.length)).take m.size.natAbs
        = m.d.take m.size.natAbs := by
      rw [htake, List.take_append_of_le_length hsize]
    rw [if_pos h]
    unfold mpzRealloc
    simp only [hmax, if_neg hnew]
    refine ⟨?_, hlen.ge, trivial, hlimbs⟩
    constructor
    · rw [intOf_natCast hn, hlen]
    · simp only [hlen]
      omega
    · simpa [hlen] using hn
    · simp only [hlen]
      omega
    · rw [MpzStruct.limbs, hlimbs]
      exact hm.normal
  · rw [if_neg h]
    exact ⟨hm, by omega, rfl, rfl⟩

/-- The sign of the size is a sign of the number. -/
theorem ofLimbs_sign {n : ℕ} {r : List UInt64} (neg : Prop) [Decidable neg] (hn : n ≤ r.length) :
    ofLimbs (if neg then -(n : ℤ) else n) (r.take (if neg then -(n : ℤ) else n).natAbs)
      = if neg then -(val (r.take n) : ℤ) else val (r.take n) := by
  by_cases h : neg
  · simp only [if_pos h, Int.natAbs_neg, Int.natAbs_natCast]
    unfold ofLimbs
    by_cases h0 : n = 0
    · subst h0
      simp
    · rw [if_pos (by omega)]
  · simp only [if_neg h, Int.natAbs_natCast]
    unfold ofLimbs
    rw [if_neg (by omega)]

/-- Changing the sign of the size changes that of the integer. -/
theorem MpzStruct.Valid.toInt_neg (hm : m.Valid) :
    MpzStruct.Valid { m with size := -m.size } ∧
      MpzStruct.toInt { m with size := -m.size } = -m.toInt := by
  have hlimbs : MpzStruct.limbs { m with size := -m.size } = m.limbs := by
    simp [MpzStruct.limbs]
  constructor
  · constructor
    · exact hm.alloc_eq
    · exact hm.alloc_pos
    · exact hm.alloc_le
    · simpa using hm.size_le
    · rw [hlimbs]
      exact hm.normal
  · unfold MpzStruct.toInt ofLimbs
    rw [hlimbs]
    by_cases h0 : m.size = 0
    · have hnil : m.limbs = [] := by
        rw [MpzStruct.limbs, h0]
        rfl
      simp [h0, hnil]
    · dsimp only
      by_cases hneg : m.size < 0
      · rw [if_pos hneg, if_neg (by omega), neg_neg]
      · rw [if_neg hneg, if_pos (by omega)]

end

/-- An integer of two limbs in a block of its size. -/
def MpzStruct.pair (negative : Bool) (lo hi : UInt64) : MpzStruct where
  alloc := 2
  size := if negative then -2 else 2
  d := [lo, hi]

theorem MpzStruct.pair_valid (negative : Bool) (lo : UInt64) {hi : UInt64} (h : hi ≠ 0) :
    (pair negative lo hi).Valid := by
  have habs : (pair negative lo hi).size.natAbs = 2 := by cases negative <;> rfl
  have hlen : (pair negative lo hi).d.length = 2 := rfl
  refine ⟨rfl, ?_, ?_, habs.le, ?_⟩
  · rw [hlen]
    decide
  · rw [hlen]
    decide
  · unfold limbs
    rw [habs]
    exact normal_append_singleton (l := [lo]).mpr h

/-- An allocator that clears what it hands out. -/
def Allocator.zero : Allocator where
  limbs n := List.replicate n 0
  length_limbs _ := List.length_replicate

/-! ### The store -/

/-- The outcome of a function that sets `w` to `z` and changes nothing else. -/
def Assigns (s : Store) (w : ℕ) (z : ℤ) (s' : Option Store) : Prop :=
  ∃ m : MpzStruct, s' = some (Function.update s w (some m)) ∧ m.Valid ∧ m.toInt = z

section

variable {A : Allocator} {s : Store} {w u v : ℕ} {wm um vm : MpzStruct} {n : ℕ}

/-- An assignment keeps the store valid. -/
theorem Store.Valid.update (hs : s.Valid) (hm : wm.Valid) :
    Store.Valid (Function.update s w (some wm)) := by
  intro a m ha
  by_cases haw : a = w
  · subst haw
    rw [Function.update_self] at ha
    exact Option.some.inj ha ▸ hm
  · rw [Function.update_of_ne haw] at ha
    exact hs a m ha

/-- **Every integer keeps its value when the block of `w` grows**, `w` among them. -/
theorem grown_spec (hs : s.Valid) (hw : s w = some wm) (hu : s u = some um)
    (hn : (n : ℤ) ≤ intMax) :
    ∃ um', Function.update s w (some (ensureAlloc A wm n)) u = some um' ∧ um'.Valid ∧
      um'.size = um.size ∧ um'.limbs = um.limbs := by
  by_cases huw : u = w
  · subst huw
    obtain rfl := Option.some.inj (hw.symm.trans hu)
    obtain ⟨hvalid, _, hsize, hlimbs⟩ := ensureAlloc_spec (A := A) (hs u wm hw) hn
    exact ⟨_, Function.update_self .., hvalid, hsize, hlimbs⟩
  · exact ⟨um, by rw [Function.update_of_ne huw, hu], hs u um hu, rfl, rfl⟩

theorem Store.valid_empty : Store.Valid fun _ => none := nofun

theorem mpzInit_assigns (A : Allocator) (s : Store) (x : ℕ) :
    Assigns s x 0 (some (mpzInit A s x)) := by
  refine ⟨_, rfl, ?_, ?_⟩
  · constructor
    · simp [A.length_limbs]
    · simp [A.length_limbs]
    · simp [A.length_limbs, intMax]
    · simp
    · simp [MpzStruct.limbs, normal_nil]
  · simp [MpzStruct.toInt, MpzStruct.limbs, ofLimbs]

/-- Zero is assigned by the size alone. -/
theorem assigns_zero (hs : s.Valid) (hw : s w = some wm) :
    Assigns s w 0 (some (Function.update s w (some { wm with size := 0 }))) := by
  have hwm := hs w wm hw
  refine ⟨_, rfl, ?_, ?_⟩
  · constructor
    · exact hwm.alloc_eq
    · exact hwm.alloc_pos
    · exact hwm.alloc_le
    · exact Nat.zero_le _
    · exact normal_nil
  · rfl

/-- **`mpz_set` copies**, also onto itself. -/
theorem mpzSet_assigns (hs : s.Valid) (hw : s w = some wm) (hu : s u = some um) :
    Assigns s w um.toInt (mpzSet A s w u) := by
  have hum := hs u um hu
  have hfit : (um.size.natAbs : ℤ) ≤ intMax := by
    have := hum.size_le
    have := hum.alloc_le
    omega
  obtain ⟨um', hu', hum', husize, hulimbs⟩ := grown_spec (A := A) hs hw hu hfit
  obtain ⟨hwm', hroom, _⟩ := ensureAlloc_spec (A := A) (hs w wm hw) hfit
  have hread := hum'.read
  rw [husize, hulimbs] at hread
  have hlen := hum.length_limbs
  obtain ⟨hvalid, hvalue⟩ := valid_write hwm' um.limbs um.size (by omega) hlen.ge
    (by rw [← hlen, List.take_length]; exact hum.normal)
  unfold mpzSet
  simp only [hu, hw, hu', hread, Option.bind_eq_bind, Option.bind_some, Function.update_self,
    writeLimbs_eq (hlen.le.trans hroom), Function.update_idem]
  refine ⟨_, rfl, hvalid, hvalue.trans ?_⟩
  rw [← hlen, List.take_length]
  rfl

/-- **`mpz_set_ui` assigns**, in the block that is there. -/
theorem mpzSetUi_assigns (hs : s.Valid) (hw : s w = some wm) (val : UInt64) :
    Assigns s w val.toNat (mpzSetUi s w val) := by
  have hwm := hs w wm hw
  have hroom : [val].length ≤ wm.d.length := hwm.alloc_pos
  unfold mpzSetUi
  simp only [hw, Option.bind_eq_bind, Option.bind_some, writeLimbs_eq hroom]
  by_cases hval : val = 0
  · obtain ⟨hvalid, hvalue⟩ := valid_write hwm [val] 0 hroom (Nat.zero_le _) normal_nil
    rw [if_neg (not_not_intro hval)]
    exact ⟨_, rfl, hvalid, hvalue.trans (by rw [hval]; rfl)⟩
  · obtain ⟨hvalid, hvalue⟩ := valid_write hwm [val] 1 hroom le_rfl (normal_singleton.mpr hval)
    rw [if_pos hval]
    refine ⟨_, rfl, hvalid, hvalue.trans ?_⟩
    simp [ofLimbs]

/-- **`mpz_neg` changes the sign**, in place without touching the limbs. -/
theorem mpzNeg_assigns (hs : s.Valid) (hw : s w = some wm) (hu : s u = some um) :
    Assigns s w (-um.toInt) (mpzNeg A s w u) := by
  unfold mpzNeg
  by_cases huw : u ≠ w
  · have hum := hs u um hu
    have hfit : (um.size.natAbs : ℤ) ≤ intMax := by
      have := hum.size_le
      have := hum.alloc_le
      omega
    have hu' : Function.update s w (some (ensureAlloc A wm um.size.natAbs)) u = some um := by
      rw [Function.update_of_ne huw, hu]
    obtain ⟨hwm', hroom, _⟩ := ensureAlloc_spec (A := A) (hs w wm hw) hfit
    have hlen := hum.length_limbs
    have habs : (-um.size).natAbs = um.limbs.length := by rw [Int.natAbs_neg, hlen]
    obtain ⟨hvalid, hvalue⟩ := valid_write hwm' um.limbs (-um.size) (by omega) habs.le
      (by rw [habs, List.take_length]; exact hum.normal)
    simp only [if_pos huw, hu, hw, hu', hum.read, Option.bind_eq_bind, Option.bind_some,
      Function.update_self, writeLimbs_eq (hlen.le.trans hroom), Function.update_idem]
    refine ⟨_, rfl, hvalid, hvalue.trans ?_⟩
    have hneg := hum.toInt_neg.2
    rw [← hneg, MpzStruct.toInt, habs, List.take_length]
    simp [MpzStruct.limbs]
  · obtain rfl := not_not.mp huw
    obtain rfl := Option.some.inj (hw.symm.trans hu)
    obtain ⟨hvalid, hvalue⟩ := (hs u wm hw).toInt_neg
    simp only [if_neg huw, hu, Option.bind_eq_bind, Option.bind_some]
    exact ⟨_, rfl, hvalid, hvalue⟩

end

/-! ### Comparison -/

section

variable {u v : MpzStruct}

/-- **The integer with the smaller size is the smaller one.** -/
theorem toInt_lt_of_size_lt (hu : u.Valid) (hv : v.Valid) (h : u.size < v.size) :
    u.toInt < v.toInt := by
  have hulen := hu.length_limbs
  have hvlen := hv.length_limbs
  have hult := val_lt u.limbs
  have hvlt := val_lt v.limbs
  rw [hulen] at hult
  rw [hvlen] at hvlt
  unfold MpzStruct.toInt ofLimbs
  by_cases hvpos : 0 < v.size
  · have hvne : v.limbs ≠ [] := by
      intro hnil
      rw [hnil, List.length_nil] at hvlen
      omega
    have hvle := hv.normal.le_val hvne
    have hpos : 0 < (2 ^ 64) ^ (v.limbs.length - 1) := Nat.pow_pos (by norm_num)
    rw [if_neg (by omega : ¬v.size < 0)]
    by_cases huneg : u.size < 0
    · rw [if_pos huneg]
      omega
    · have hle : (2 ^ 64) ^ u.size.natAbs ≤ (2 ^ 64) ^ (v.limbs.length - 1) :=
        Nat.pow_le_pow_right (by norm_num) (by omega)
      rw [if_neg huneg]
      exact_mod_cast hult.trans_le (hle.trans hvle)
  · have hune : u.limbs ≠ [] := by
      intro hnil
      rw [hnil, List.length_nil] at hulen
      omega
    have hule := hu.normal.le_val hune
    have hle : (2 ^ 64) ^ v.size.natAbs ≤ (2 ^ 64) ^ (u.limbs.length - 1) :=
      Nat.pow_le_pow_right (by norm_num) (by omega)
    have hlt : val v.limbs < val u.limbs := hvlt.trans_le (hle.trans hule)
    rw [if_pos (by omega : u.size < 0)]
    split_ifs <;> omega

/-- A result that is ordered as the integers are has the sign of their difference. -/
theorem sign_of_order {c a b : ℤ} (hlt : c < 0 ↔ a < b) (heq : c = 0 ↔ a = b) :
    c.sign = (a - b).sign := by
  rcases lt_trichotomy a b with h | h | h
  · rw [Int.sign_eq_neg_one_of_neg (hlt.mpr h), Int.sign_eq_neg_one_of_neg (by omega)]
  · rw [heq.mpr h, h, sub_self]
  · have hpos : 0 < c := by
      have := mt hlt.mp (by omega)
      have := mt heq.mp (by omega)
      omega
    rw [Int.sign_eq_one_of_pos hpos, Int.sign_eq_one_of_pos (by omega)]

/-- **`mpz_cmp` compares the integers**, as long as an `int` holds the difference of the
sizes. -/
theorem mpzCmp_eq (hu : u.Valid) (hv : v.Valid) (hmin : intMin ≤ u.size - v.size)
    (hmax : u.size - v.size ≤ intMax) :
    ∃ c, mpzCmp u v = some c ∧ (c < 0 ↔ u.toInt < v.toInt) ∧ (c = 0 ↔ u.toInt = v.toInt) := by
  unfold mpzCmp
  by_cases hsize : u.size - v.size ≠ 0
  · simp only [if_pos hsize, intOf_of_le hmin hmax]
    refine ⟨_, rfl, ?_⟩
    rcases lt_or_gt_of_ne (sub_ne_zero.mp hsize) with hlt | hgt
    · have h := toInt_lt_of_size_lt hu hv hlt
      constructor <;> constructor <;> intro _ <;> omega
    · have h := toInt_lt_of_size_lt hv hu hgt
      constructor <;> constructor <;> intro _ <;> omega
  · have heq : u.size = v.size := by omega
    have hlen : u.limbs.length = v.limbs.length := by
      rw [hu.length_limbs, hv.length_limbs, heq]
    have hvread := hv.read
    rw [← heq] at hvread
    simp only [if_neg hsize, hu.read, hvread, Option.bind_eq_bind, Option.bind_some]
    rw [mpnCmp_eq hlen]
    unfold MpzStruct.toInt ofLimbs
    rw [← heq]
    by_cases hneg : u.size < 0
    · rw [if_neg (by omega : ¬0 ≤ u.size), if_pos hneg, if_pos hneg]
      refine ⟨_, rfl, ?_⟩
      split_ifs <;> simp <;> omega
    · rw [if_pos (by omega : 0 ≤ u.size), if_neg hneg, if_neg hneg]
      refine ⟨_, rfl, ?_⟩
      split_ifs <;> simp <;> omega

end

/-- **`mpz_cmp` orders the integers**: of two calls with the operands exchanged the results
have opposite signs, and they are zero, positive or negative as the integers are equal or
one is the larger. -/
theorem mpzCmp_order {u v : MpzStruct} (hu : u.Valid) (hv : v.Valid)
    (hsize : (u.size - v.size).natAbs ≤ intMax) :
    ∃ c c', mpzCmp u v = some c ∧ mpzCmp v u = some c' ∧ c.sign = (u.toInt - v.toInt).sign ∧
      c'.sign = -c.sign := by
  have hlow : intMin ≤ u.size - v.size ∧ u.size - v.size ≤ intMax := by
    simp only [intMin, intMax] at hsize ⊢
    omega
  have hhigh : intMin ≤ v.size - u.size ∧ v.size - u.size ≤ intMax := by
    simp only [intMin, intMax] at hsize ⊢
    omega
  obtain ⟨c, hc, hlt, heq⟩ := mpzCmp_eq hu hv hlow.1 hlow.2
  obtain ⟨c', hc', hlt', heq'⟩ := mpzCmp_eq hv hu hhigh.1 hhigh.2
  have hsign := sign_of_order hlt heq
  refine ⟨c, c', hc, hc', hsign, ?_⟩
  rw [hsign, sign_of_order hlt' heq', ← Int.sign_neg, neg_sub]

/-- Two integers of one size with opposite signs. -/
theorem mpzCmp_order_pair :
    ∃ c c', mpzCmp (.pair true 5 7) (.pair false 5 7) = some c ∧
      mpzCmp (.pair false 5 7) (.pair true 5 7) = some c' ∧
      c.sign = ((MpzStruct.pair true 5 7).toInt - (MpzStruct.pair false 5 7).toInt).sign ∧
      c'.sign = -c.sign :=
  mpzCmp_order (MpzStruct.pair_valid true 5 (by decide)) (MpzStruct.pair_valid false 5 (by decide))
    (by decide)

end Mpir
end SecureDesign
