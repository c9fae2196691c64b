/-
# Products of numbers of one length

`mpn_kara_mul_n` of `mpn/generic/mul_n.c`, which `mpn_mul_n` calls from
`MUL_KARATSUBA_THRESHOLD` limbs on.  Both operands are cut into halves, of which the upper one
has a limb more when the number of limbs is odd.  The products of the lower halves, of the
upper halves and of the two differences give the whole product.  The differences are taken in
absolute value, so the third product is subtracted (`mpn_karasub`) or added (`mpn_karaadd`).

Between the steps of `mpn_karasub` the sum is not yet the product: a carry is added before the
borrow is taken away.  As in `Mpir.MulBlocks` a carry or a borrow that ran past the product has
no result, and `mpnKaraMulN_spec` says that there always is one.  Two facts carry it.  The
lower limbs and the carries are the product but for the upper limbs of the third one
(`karasub_middle`), and a borrow is due only where the upper halves are the smaller ones or a
limb longer, which leaves room for the carries (`kara_carry`).
-/

import SecureDesign.Mpir.MulBlocks

namespace SecureDesign
namespace Mpir

open CLang

/-- `MUL_TOOM3_THRESHOLD`. -/
def mulToom3Threshold : ℕ := 128

/-- The loop of `mpn_decr_u`; no result when it leaves the limbs that are there. -/
def decrLoopWithin : List UInt64 → Option (List UInt64)
  | [] => none
  | x :: p => if x = 0 then (decrLoopWithin p).map ((x - 1) :: ·) else some ((x - 1) :: p)

/-- `mpn_decr_u (p, incr)`; no result when it leaves the limbs that are there. -/
def mpnDecrUWithin (p : List UInt64) (incr : UInt64) : Option (List UInt64) :=
  match p with
  | [] => none
  | x :: p =>
      if x < incr then (decrLoopWithin p).map ((x - incr) :: ·) else some ((x - incr) :: p)

/-- The difference of the upper half `xh` and the lower half `xl` of an operand, in as many
limbs as the upper half has, and whether it is negative. -/
def karaDiff (xh xl : List UInt64) : List UInt64 × Bool :=
  let n2 := xl.length
  if xh.length = n2 then
    if 0 ≤ mpnCmp xh xl then ((mpnSubN xh xl).1, false) else ((mpnSubN xl xh).1, true)
  else if xh.getD n2 0 ≠ 0 ∨ 0 ≤ mpnCmp (xh.take n2) xl then
    let x := mpnSubN (xh.take n2) xl
    (x.1 ++ [xh.getD n2 0 - x.2], false)
  else ((mpnSubN xl (xh.take n2)).1 ++ [0], true)

/-- The two increments and the decrement of `mpn_karasub`. -/
def karasubCarries (s : List UInt64) (c₃ c₂ c₁ : UInt64) : Option (List UInt64) := do
  let s ← mpnIncrUWithin s c₃
  let s ← mpnIncrUWithin s c₂
  mpnDecrUWithin s c₁

/-- The carry and the borrow of the two upper limbs, for the limbs `p` above them. -/
def karasubCarry (p : List UInt64) (c₂ c₁ : UInt64) : Option (List UInt64) :=
  if c₂ = 1 ∧ c₁ = 0 then incrLoopWithin p
  else if c₂ = 0 ∧ c₁ = 1 then decrLoopWithin p
  else some p

/-- The end of `mpn_karasub` for an odd `n`: the two upper limbs of `tp` are taken from `s`,
and the two of the upper product are added. -/
def karasubTop (s tp top : List UInt64) : Option (List UInt64) := do
  let u := mpnSubN (s.take 2) tp
  let v := mpnAddN u.1 top
  let w ← karasubCarry (s.drop 2) v.2 u.2
  some (v.1 ++ w)

/-- `mpn_karasub`, for the products `lo` and `hi` in the two parts of `rp`. -/
def mpnKarasub (lo hi tp : List UInt64) : Option (List UInt64) := do
  let n2 := lo.length / 2
  let x := mpnSubN (hi.take (2 * n2)) (tp.take (2 * n2))
  let y := mpnAddN x.1 lo
  let z := mpnAddN (lo.drop n2 ++ hi.take n2) y.1
  let s ← karasubCarries (hi.drop n2) z.2 y.2 x.2
  if lo.length = hi.length then some (lo.take n2 ++ z.1 ++ s)
  else do
    let s ← karasubTop s (tp.drop (2 * n2)) (hi.drop (hi.length - 2))
    some (lo.take n2 ++ z.1 ++ s)

/-- `mpn_karaadd`. -/
def mpnKaraadd (lo hi tp : List UInt64) : Option (List UInt64) := do
  let n2 := lo.length / 2
  let x := mpnAddN hi tp
  let y := mpnAddN (x.1.take (2 * n2)) lo
  let z := mpnAddN (lo.drop n2 ++ hi.take (hi.length - n2)) (y.1 ++ x.1.drop (2 * n2))
  let s ← mpnIncrUWithin (hi.drop (hi.length - n2)) (z.2 + x.2)
  let s ← mpnIncrUWithin (z.1.drop (2 * n2) ++ s) y.2
  some (lo.take n2 ++ z.1.take (2 * n2) ++ s)

/-- `mpn_kara_mul_n`, for operands of at most `fuel` limbs. -/
def mpnKaraMulN : ℕ → List UInt64 → List UInt64 → Option (List UInt64)
  | 0, _, _ => none
  | fuel + 1, xp, yp => do
      let n2 := xp.length / 2
      let dx := karaDiff (xp.drop n2) (xp.take n2)
      let dy := karaDiff (yp.drop n2) (yp.take n2)
      let mul := fun a b =>
        if xp.length - n2 < mulKaratsubaThreshold then some (mpnMulBasecase a b)
        else mpnKaraMulN fuel a b
      let lo ← mul (xp.take n2) (yp.take n2)
      let tp ← mul dx.1 dy.1
      let hi ← mul (xp.drop n2) (yp.drop n2)
      if dx.2 = dy.2 then mpnKarasub lo hi tp else mpnKaraadd lo hi tp

/-! ### Increments and decrements -/

theorem incrLoopWithin_spec {p : List UInt64} (h : val p + 1 < (2 ^ 64) ^ p.length) :
    ∃ q, incrLoopWithin p = some q ∧ q.length = p.length ∧ val q = val p + 1 :=
  ⟨_, incrLoopWithin_eq h, incrLoop_spec h⟩

theorem mpnIncrUWithin_spec {p : List UInt64} (incr : UInt64) (hne : p ≠ [])
    (h : val p + incr.toNat < (2 ^ 64) ^ p.length) :
    ∃ q, mpnIncrUWithin p incr = some q ∧ q.length = p.length ∧ val q = val p + incr.toNat :=
  ⟨_, mpnIncrUWithin_eq hne h, mpnIncrU_spec p incr h⟩

theorem decrLoopWithin_spec {p : List UInt64} (h : 0 < val p) :
    ∃ q, decrLoopWithin p = some q ∧ q.length = p.length ∧ val q + 1 = val p := by
  induction p with
  | nil => simp at h
  | cons x p ih =>
      have hborrow := toNat_sub_borrow x 1
      rw [UInt64.toNat_one] at hborrow
      rw [decrLoopWithin]
      by_cases hx : x = 0
      · subst hx
        rw [val_cons, UInt64.toNat_zero] at h
        obtain ⟨q, hq, hlen, hval⟩ := ih (by omega)
        rw [if_pos rfl, hq]
        refine ⟨_, rfl, by simp [hlen], ?_⟩
        have hone : decide ((0 : UInt64) < 1) = true := by decide
        rw [hone, Bool.toNat_true, UInt64.toNat_zero] at hborrow
        rw [val_cons, val_cons, UInt64.toNat_zero]
        omega
      · have hpos := toNat_ne_zero hx
        have hle : ¬x < 1 := by
          rw [UInt64.lt_iff_toNat_lt, UInt64.toNat_one]
          omega
        rw [decide_eq_false hle, Bool.toNat_false] at hborrow
        rw [if_neg hx]
        refine ⟨_, rfl, by simp, ?_⟩
        rw [val_cons, val_cons]
        omega

theorem mpnDecrUWithin_spec {p : List UInt64} (incr : UInt64) (hne : p ≠ [])
    (h : incr.toNat ≤ val p) :
    ∃ q, mpnDecrUWithin p incr = some q ∧ q.length = p.length ∧ val q + incr.toNat = val p := by
  obtain ⟨x, p, rfl⟩ := List.exists_cons_of_ne_nil hne
  have hborrow := toNat_sub_borrow x incr
  rw [mpnDecrUWithin]
  rw [val_cons] at h
  by_cases hlt : x < incr
  · rw [decide_eq_true hlt, Bool.toNat_true] at hborrow
    have hlt' := UInt64.lt_iff_toNat_lt.mp hlt
    obtain ⟨q, hq, hlen, hval⟩ := decrLoopWithin_spec (p := p) (by omega)
    rw [if_pos hlt, hq]
    refine ⟨_, rfl, by simp [hlen], ?_⟩
    rw [val_cons, val_cons]
    omega
  · rw [decide_eq_false hlt, Bool.toNat_false] at hborrow
    rw [if_neg hlt]
    refine ⟨_, rfl, by simp, ?_⟩
    rw [val_cons, val_cons]
    omega

/-! ### Sums of one length -/

theorem mpnAddN_nat {up vp : List UInt64} (hlen : up.length = vp.length) :
    (mpnAddN up vp).1.length = up.length ∧ (mpnAddN up vp).2.toNat ≤ 1 ∧
      val (mpnAddN up vp).1 + (2 ^ 64) ^ up.length * (mpnAddN up vp).2.toNat
        = val up + val vp := by
  have h := mpnAddN_eq hlen
  refine ⟨h.length, h.carry_le, ?_⟩
  have hval := h.val
  zify
  push_cast at hval ⊢
  linear_combination hval

theorem mpnSubN_nat {up vp : List UInt64} (hlen : up.length = vp.length) :
    (mpnSubN up vp).1.length = up.length ∧ (mpnSubN up vp).2.toNat ≤ 1 ∧
      val (mpnSubN up vp).1 + val vp
        = val up + (2 ^ 64) ^ up.length * (mpnSubN up vp).2.toNat := by
  have h := mpnSubN_eq hlen
  refine ⟨h.length, h.carry_le, ?_⟩
  have hval := h.val
  zify
  push_cast at hval ⊢
  linear_combination hval

/-- A difference that is not negative leaves no borrow. -/
theorem mpnSubN_of_le {up vp : List UInt64} (hlen : up.length = vp.length)
    (hle : val vp ≤ val up) :
    (mpnSubN up vp).1.length = up.length ∧ val (mpnSubN up vp).1 + val vp = val up ∧
      (mpnSubN up vp).2.toNat = 0 := by
  obtain ⟨hlength, hborrow, hval⟩ := mpnSubN_nat hlen
  have hlt := val_lt (mpnSubN up vp).1
  rw [hlength] at hlt
  rcases Nat.le_one_iff_eq_zero_or_eq_one.mp hborrow with h | h
  · rw [h] at hval
    exact ⟨hlength, by omega, h⟩
  · rw [h] at hval
    omega

/-- A number without limbs of value above limb `m` has none above a later one. -/
theorem val_drop_eq_zero {l : List UInt64} {m n : ℕ} (hle : m ≤ n) (h : val (l.drop m) = 0) :
    val (l.drop n) = 0 := by
  have hsplit := val_take_add_drop (l.drop m) (n - m)
  rw [List.drop_drop, Nat.add_sub_cancel' hle, h] at hsplit
  have hpos : 0 < (2 ^ 64) ^ ((l.drop m).take (n - m)).length := by positivity
  exact (Nat.mul_eq_zero.mp (Nat.add_eq_zero_iff.mp hsplit).2).resolve_left hpos.ne'

/-! ### `mpn_karasub` -/

theorem karasubCarries_spec {s : List UInt64} (c₃ c₂ c₁ : UInt64) (hne : s ≠ [])
    (hroom : val s + c₃.toNat + c₂.toNat < (2 ^ 64) ^ s.length)
    (hle : c₁.toNat ≤ val s + c₃.toNat + c₂.toNat) :
    ∃ r, karasubCarries s c₃ c₂ c₁ = some r ∧ r.length = s.length ∧
      val r + c₁.toNat = val s + c₃.toNat + c₂.toNat := by
  have hpos := List.length_pos_of_ne_nil hne
  obtain ⟨p, hp, hplen, hpval⟩ := mpnIncrUWithin_spec c₃ hne (by omega)
  have hpne : p ≠ [] := List.ne_nil_of_length_pos (by omega)
  obtain ⟨q, hq, hqlen, hqval⟩ := mpnIncrUWithin_spec c₂ hpne
    (by rw [hpval, hplen]; exact hroom)
  have hqne : q ≠ [] := List.ne_nil_of_length_pos (by omega)
  obtain ⟨r, hr, hrlen, hrval⟩ := mpnDecrUWithin_spec c₁ hqne (by omega)
  refine ⟨r, ?_, by omega, by omega⟩
  rw [karasubCarries, hp, Option.bind_eq_bind, Option.bind_some, hq, Option.bind_some, hr]

/-- The carry and the borrow stay within the limbs that have room for the difference. -/
theorem karasubCarry_spec {p : List UInt64} {c₂ c₁ : UInt64} {t : ℕ} (h₂ : c₂.toNat ≤ 1)
    (h₁ : c₁.toNat ≤ 1) (ht : t + c₁.toNat = val p + c₂.toNat) (hlt : t < (2 ^ 64) ^ p.length) :
    ∃ w, karasubCarry p c₂ c₁ = some w ∧ w.length = p.length ∧ val w = t := by
  rcases eq_zero_or_one h₁ with rfl | rfl <;> rcases eq_zero_or_one h₂ with rfl | rfl
  · exact ⟨p, rfl, rfl, by omega⟩
  · rw [UInt64.toNat_zero, UInt64.toNat_one, Nat.add_zero] at ht
    obtain ⟨w, hw, hwlen, hwval⟩ := incrLoopWithin_spec (p := p) (ht ▸ hlt)
    exact ⟨w, hw, hwlen, by omega⟩
  · rw [UInt64.toNat_zero, UInt64.toNat_one] at ht
    obtain ⟨w, hw, hwlen, hwval⟩ := decrLoopWithin_spec (p := p) (by omega)
    exact ⟨w, hw, hwlen, by omega⟩
  · exact ⟨p, rfl, rfl, by omega⟩

/-- The carry of the two upper limbs stays within the limbs above. -/
theorem karasubTop_spec {s : List UInt64} (tp top : List UInt64) (hs : 2 ≤ s.length)
    (htp : tp.length = 2) (htop : top.length = 2) {t : ℕ} (ht : t + val tp = val s + val top)
    (hlt : t < (2 ^ 64) ^ s.length) :
    ∃ r, karasubTop s tp top = some r ∧ r.length = s.length ∧ val r = t := by
  have hlow : (s.take 2).length = 2 := by rw [List.length_take, Nat.min_eq_left hs]
  have hhigh : (s.drop 2).length = s.length - 2 := List.length_drop
  have hsplit := val_split hs
  have hroom : (2 ^ 64) ^ s.length = (2 ^ 64) ^ 2 * (2 ^ 64) ^ (s.drop 2).length := by
    rw [← pow_add, hhigh, Nat.add_sub_cancel' hs]
  obtain ⟨hulen, hu1, huval⟩ := mpnSubN_nat (hlow.trans htp.symm)
  obtain ⟨hvlen, hv1, hvval⟩ := mpnAddN_nat ((hulen.trans hlow).trans htop.symm)
  unfold karasubTop
  dsimp only
  generalize mpnSubN (s.take 2) tp = u at hulen hu1 huval hvlen hv1 hvval ⊢
  generalize mpnAddN u.1 top = v at hvlen hv1 hvval ⊢
  rw [hulen, hlow] at hvlen hvval
  rw [hlow] at huval
  have hvlt := val_lt v.1
  rw [hvlen] at hvlt
  -- the limbs above take the difference of the carry and the borrow
  have hkey : val v.1 + (2 ^ 64) ^ 2 * (val (s.drop 2) + v.2.toNat)
      = t + (2 ^ 64) ^ 2 * u.2.toNat := by
    rw [Nat.mul_add]
    omega
  have hborrow : u.2.toNat ≤ val (s.drop 2) + v.2.toNat := by omega
  obtain ⟨d, hd⟩ := Nat.exists_eq_add_of_le hborrow
  have hsum : val v.1 + (2 ^ 64) ^ 2 * d = t := by
    rw [hd, Nat.mul_add] at hkey
    omega
  have hdlt : d < (2 ^ 64) ^ (s.drop 2).length := by
    rw [hroom] at hlt
    exact Nat.lt_of_mul_lt_mul_left (a := (2 ^ 64) ^ 2) (by omega)
  obtain ⟨w, hw, hwlen, hwval⟩ := karasubCarry_spec hv1 hu1 (by omega) hdlt
  rw [hw, Option.bind_eq_bind, Option.bind_some]
  refine ⟨v.1 ++ w, rfl, ?_, ?_⟩
  · rw [List.length_append, hvlen, hwlen, hhigh]
    omega
  · rw [val_append, hvlen, hwval, hsum]

/-- The sums and differences of `mpn_karasub` together. -/
theorem karasub_sum {b l₀ l₁ s hl hh tl th x y z c₁ c₂ c₃ lo hi t p : ℕ}
    (hx : x + tl = hl + b ^ 2 * c₁) (hy : y + b ^ 2 * c₂ = x + lo) {h₀ : ℕ}
    (hz : z + b ^ 2 * c₃ = l₁ + b * h₀ + y) (hlo : lo = l₀ + b * l₁) (hhi : hi = h₀ + b * s)
    (hhi' : hi = hl + b ^ 2 * hh) (ht : t = tl + b ^ 2 * th)
    (hp : p + b * t = lo + b * (lo + hi) + b ^ 2 * hi) :
    l₀ + b * z + b ^ 3 * (s + c₃ + c₂ + hh) = p + b ^ 3 * (th + c₁) := by
  zify at *
  linear_combination (b : ℤ) * hz + b * hy + b * hx - hlo - b ^ 2 * hhi - b * hhi' + b * ht - hp

/-- The carries of `mpn_karasub` have room above the lower part `low`. -/
theorem karasub_room {b m low s hh th c₃ c₂ c₁ p : ℕ} (hlt : p < b ^ 3 * m) (h₃ : c₃ ≤ 1)
    (h₂ : c₂ ≤ 1) (hsum : low + b ^ 3 * (s + c₃ + c₂ + hh) = p + b ^ 3 * (th + c₁))
    (h : s + 2 < m ∨ th = 0 ∧ c₁ = 0) : s + c₃ + c₂ < m := by
  rcases h with h | ⟨rfl, rfl⟩
  · omega
  · rw [Nat.mul_add _ _ hh] at hsum
    exact Nat.lt_of_mul_lt_mul_left (a := b ^ 3) (by omega)

/-- The borrow of `mpn_karasub` is covered. -/
theorem karasub_borrow {b low s hh th c₃ c₂ c₁ p : ℕ} (hlow : low < b ^ 3) (h₁ : c₁ ≤ 1)
    (hsum : low + b ^ 3 * (s + c₃ + c₂ + hh) = p + b ^ 3 * (th + c₁)) (hs : s = 0 → hh = 0) :
    c₁ ≤ s + c₃ + c₂ := by
  by_contra hlt
  obtain ⟨rfl, rfl, rfl, rfl⟩ : s = 0 ∧ c₃ = 0 ∧ c₂ = 0 ∧ c₁ = 1 := by omega
  rw [hs rfl, Nat.mul_add _ th] at hsum
  omega

theorem base_pow_double (n : ℕ) : (2 ^ 64) ^ (2 * n) = ((2 ^ 64) ^ n) ^ 2 := by
  rw [Nat.mul_comm, pow_mul]

/-- The differences and sums of `mpn_karasub` before its carries: they are the product `p` but
for the limbs above. -/
theorem karasub_middle {lo hi tp : List UInt64} {n2 p : ℕ} (hlo : lo.length = 2 * n2)
    (hhi : 2 * n2 ≤ hi.length) (htp : 2 * n2 ≤ tp.length)
    (hp : p + (2 ^ 64) ^ n2 * val tp
      = val lo + (2 ^ 64) ^ n2 * (val lo + val hi) + ((2 ^ 64) ^ n2) ^ 2 * val hi) :
    let x := mpnSubN (hi.take (2 * n2)) (tp.take (2 * n2))
    let y := mpnAddN x.1 lo
    let z := mpnAddN (lo.drop n2 ++ hi.take n2) y.1
    (x.2.toNat ≤ 1 ∧ y.2.toNat ≤ 1 ∧ z.2.toNat ≤ 1) ∧
      (val (tp.take (2 * n2)) ≤ val (hi.take (2 * n2)) → x.2.toNat = 0) ∧
      (lo.take n2 ++ z.1).length = 3 * n2 ∧
      val (lo.take n2 ++ z.1) + ((2 ^ 64) ^ n2) ^ 3
          * (val (hi.drop n2) + z.2.toNat + y.2.toNat + val (hi.drop (2 * n2)))
        = p + ((2 ^ 64) ^ n2) ^ 3 * (val (tp.drop (2 * n2)) + x.2.toNat) := by
  intro x y z
  have hhilow : (hi.take (2 * n2)).length = 2 * n2 := by rw [List.length_take, min_eq_left hhi]
  have htplow : (tp.take (2 * n2)).length = 2 * n2 := by rw [List.length_take, min_eq_left htp]
  have hlolow : (lo.take n2).length = n2 := by
    rw [List.length_take]
    omega
  have hlohigh : (lo.drop n2).length = n2 := by
    rw [List.length_drop]
    omega
  have hmid : (lo.drop n2 ++ hi.take n2).length = 2 * n2 := by
    rw [List.length_append, hlohigh, List.length_take]
    omega
  obtain ⟨hxlen, hx1, hx⟩ := mpnSubN_nat (hhilow.trans htplow.symm)
  obtain ⟨hylen, hy1, hy⟩ := mpnAddN_nat ((hxlen.trans hhilow).trans hlo.symm)
  obtain ⟨hzlen, hz1, hz⟩ := mpnAddN_nat (hmid.trans ((hylen.trans hxlen).trans hhilow).symm)
  refine ⟨⟨hx1, hy1, hz1⟩, fun hle => (mpnSubN_of_le (hhilow.trans htplow.symm) hle).2.2, ?_, ?_⟩
  · rw [List.length_append, hlolow, hzlen, hmid]
    omega
  · rw [hhilow, base_pow_double] at hx
    rw [hxlen, hhilow, base_pow_double] at hy
    rw [hmid, base_pow_double, val_append, hlohigh] at hz
    have hhis := val_split hhi
    have htps := val_split htp
    rw [base_pow_double] at hhis htps
    rw [val_append, hlolow]
    exact karasub_sum hx hy hz (val_split (by omega)) (val_split (by omega)) hhis htps hp

/-- The end of `mpn_karasub`, which takes the upper limbs into account. -/
theorem karasub_end {low s tp top : List UInt64} {n2 p : ℕ} (hlow : low.length = 3 * n2)
    (hs : 2 ≤ s.length) (htp : tp.length = 2) (htop : top.length = 2)
    (hlt : p < ((2 ^ 64) ^ n2) ^ 3 * (2 ^ 64) ^ s.length)
    (hsum : val low + ((2 ^ 64) ^ n2) ^ 3 * (val s + val top)
      = p + ((2 ^ 64) ^ n2) ^ 3 * val tp) :
    ∃ r, karasubTop s tp top = some r ∧ r.length = s.length ∧ val (low ++ r) = p := by
  have hlowlt := val_lt low
  rw [hlow, Nat.mul_comm 3, pow_mul] at hlowlt
  have hle : val tp ≤ val s + val top := by
    have h₁ : ((2 ^ 64) ^ n2) ^ 3 * val tp < ((2 ^ 64) ^ n2) ^ 3 * (val s + val top + 1) := by
      rw [Nat.mul_add _ _ 1]
      omega
    have h₂ := Nat.lt_of_mul_lt_mul_left h₁
    omega
  obtain ⟨d, hd⟩ := Nat.exists_eq_add_of_le hle
  rw [hd, Nat.mul_add] at hsum
  have hdlt : d < (2 ^ 64) ^ s.length :=
    Nat.lt_of_mul_lt_mul_left (a := ((2 ^ 64) ^ n2) ^ 3) (by omega)
  obtain ⟨r, hr, hrlen, hrval⟩ := karasubTop_spec tp top hs htp htop (by omega) hdlt
  refine ⟨r, hr, hrlen, ?_⟩
  rw [val_append, hlow, Nat.mul_comm 3, pow_mul, hrval]
  omega

/-- **`mpn_karasub`**: the two products and that of the differences give the whole product,
and no carry leaves it. -/
theorem mpnKarasub_spec {lo hi tp : List UInt64} {n2 n3 : ℕ} (h2 : 0 < n2)
    (hlo : lo.length = 2 * n2) (hhi : hi.length = 2 * n3) (htp : tp.length = 2 * n3)
    (hn : n3 = n2 ∨ n3 = n2 + 1) {p : ℕ}
    (hp : p + (2 ^ 64) ^ n2 * val tp
      = val lo + (2 ^ 64) ^ n2 * (val lo + val hi) + ((2 ^ 64) ^ n2) ^ 2 * val hi)
    (hlt : p < (2 ^ 64) ^ (2 * n2 + 2 * n3))
    (hcarry : val (hi.drop n2) + 2 < (2 ^ 64) ^ (2 * n3 - n2) ∨ n3 = n2 ∧ val tp ≤ val hi) :
    ∃ r, mpnKarasub lo hi tp = some r ∧ r.length = 2 * n2 + 2 * n3 ∧ val r = p := by
  have hhalf : lo.length / 2 = n2 := by omega
  have hslen : (hi.drop n2).length = 2 * n3 - n2 := by rw [List.length_drop, hhi]
  have hroom : (2 ^ 64) ^ (2 * n2 + 2 * n3)
      = ((2 ^ 64) ^ n2) ^ 3 * (2 ^ 64) ^ (2 * n3 - n2) := by
    rw [← pow_mul (2 ^ 64) n2 3, ← pow_add]
    congr 1
    omega
  rw [hroom] at hlt
  obtain ⟨⟨hx1, hy1, hz1⟩, hxle, hlow, hsum⟩ := karasub_middle hlo (by omega) (by omega) hp
  unfold mpnKarasub
  dsimp only at hx1 hy1 hz1 hxle hlow hsum ⊢
  rw [hhalf]
  generalize mpnSubN (hi.take (2 * n2)) (tp.take (2 * n2)) = x
    at hx1 hy1 hz1 hxle hlow hsum ⊢
  generalize mpnAddN x.1 lo = y at hy1 hz1 hlow hsum ⊢
  generalize mpnAddN (lo.drop n2 ++ hi.take n2) y.1 = z at hz1 hlow hsum ⊢
  generalize lo.take n2 ++ z.1 = low at hlow hsum ⊢
  have hlowlt := val_lt low
  rw [hlow, Nat.mul_comm 3, pow_mul] at hlowlt
  -- nothing stands above the halves of an even number of limbs
  have hnil : ∀ {l : List UInt64}, l.length = 2 * n3 → n3 = n2 → l.drop (2 * n2) = [] :=
    fun hl heven => List.drop_eq_nil_iff.mpr (by omega)
  have hcase : val (hi.drop n2) + 2 < (2 ^ 64) ^ (2 * n3 - n2) ∨
      val (tp.drop (2 * n2)) = 0 ∧ x.2.toNat = 0 := by
    refine hcarry.imp_right fun ⟨heven, hle⟩ => ⟨by rw [hnil htp heven, val_nil], hxle ?_⟩
    rwa [List.take_of_length_le (by omega), List.take_of_length_le (by omega)]
  obtain ⟨s, hs, hslen', hsval⟩ := karasubCarries_spec (s := hi.drop n2) z.2 y.2 x.2
    (List.ne_nil_of_length_pos (by omega))
    (by rw [hslen]; exact karasub_room hlt hz1 hy1 hsum hcase)
    (karasub_borrow hlowlt hx1 hsum fun h0 => val_drop_eq_zero (by omega) h0)
  rw [hs, Option.bind_eq_bind, Option.bind_some]
  rw [hslen] at hslen'
  have hrest : val low + ((2 ^ 64) ^ n2) ^ 3 * (val s + val (hi.drop (2 * n2)))
      = p + ((2 ^ 64) ^ n2) ^ 3 * val (tp.drop (2 * n2)) := by
    rw [← hsval] at hsum
    simp only [Nat.mul_add] at hsum ⊢
    omega
  split_ifs with heven
  · rw [hnil hhi (by omega), hnil htp (by omega), val_nil, Nat.mul_zero, Nat.add_zero,
      Nat.add_zero] at hrest
    refine ⟨_, rfl, ?_, ?_⟩
    · rw [List.length_append, hlow, hslen']
      omega
    · rw [val_append, hlow, Nat.mul_comm 3, pow_mul, hrest]
  · have hdrop : ∀ {l : List UInt64}, l.length = 2 * n3 → (l.drop (2 * n2)).length = 2 := by
      intro l hl
      rw [List.length_drop]
      omega
    obtain ⟨r, hr, hrlen, hrval⟩ := karasub_end hlow (by omega) (hdrop htp) (hdrop hhi)
      (by rw [hslen']; exact hlt) hrest
    rw [show hi.length - 2 = 2 * n2 by omega, hr, Option.bind_some]
    refine ⟨_, rfl, ?_, hrval⟩
    rw [List.length_append, hlow, hrlen, hslen']
    omega

/-! ### `mpn_karaadd` -/

/-- The sums of `mpn_karaadd` together. -/
theorem karaadd_sum {b e g l₀ l₁ hm hs xl xh x y z c₁ c₂ c₃ lo hi t p : ℕ} (hg : b * e = g)
    (hx : x + g * c₁ = hi + t) (hxs : x = xl + b ^ 2 * xh) (hy : y + b ^ 2 * c₂ = xl + lo)
    (hz : z + g * c₃ = l₁ + b * hm + (y + b ^ 2 * xh)) (hlo : lo = l₀ + b * l₁)
    (hhi : hi = hm + e * hs) (hp : p = lo + b * (lo + hi + t) + b ^ 2 * hi) :
    l₀ + b * z + b * g * (hs + (c₃ + c₁)) + b ^ 3 * c₂ = p := by
  zify at *
  linear_combination (b : ℤ) * hz + b * hy + b * hx - b * hxs - hlo - b ^ 2 * hhi
    - b * hs * hg - hp

/-- The sums of `mpn_karaadd` before its carries: they are the product `p` but for the limbs
above. -/
theorem karaadd_middle {lo hi tp : List UInt64} {n2 n3 p : ℕ} (hlo : lo.length = 2 * n2)
    (hhi : hi.length = 2 * n3) (htp : tp.length = 2 * n3) (hn : n2 ≤ n3)
    (hp : p = val lo + (2 ^ 64) ^ n2 * (val lo + val hi + val tp)
      + ((2 ^ 64) ^ n2) ^ 2 * val hi) :
    let x := mpnAddN hi tp
    let y := mpnAddN (x.1.take (2 * n2)) lo
    let z := mpnAddN (lo.drop n2 ++ hi.take (2 * n3 - n2)) (y.1 ++ x.1.drop (2 * n2))
    (z.2 + x.2).toNat = z.2.toNat + x.2.toNat ∧ z.1.length = 2 * n3 ∧
      val (lo.take n2) + (2 ^ 64) ^ n2 * val z.1
        + (2 ^ 64) ^ n2 * (2 ^ 64) ^ (2 * n3)
          * (val (hi.drop (2 * n3 - n2)) + (z.2.toNat + x.2.toNat))
        + ((2 ^ 64) ^ n2) ^ 3 * y.2.toNat = p := by
  intro x y z
  obtain ⟨hxlen, hx1, hx⟩ := mpnAddN_nat (hhi.trans htp.symm)
  have hxlow : (x.1.take (2 * n2)).length = 2 * n2 := by
    rw [List.length_take, hxlen]
    omega
  have hlohigh : (lo.drop n2).length = n2 := by
    rw [List.length_drop]
    omega
  have hmid : (lo.drop n2 ++ hi.take (2 * n3 - n2)).length = 2 * n3 := by
    rw [List.length_append, hlohigh, List.length_take]
    omega
  obtain ⟨hylen, -, hy⟩ := mpnAddN_nat (hxlow.trans hlo.symm)
  have hylong : (y.1 ++ x.1.drop (2 * n2)).length = 2 * n3 := by
    rw [List.length_append, hylen, hxlow, List.length_drop, hxlen]
    omega
  obtain ⟨hzlen, hz1, hz⟩ := mpnAddN_nat (hmid.trans hylong.symm)
  have hcarry : z.2.toNat + x.2.toNat ≤ 1 + 1 := Nat.add_le_add hz1 hx1
  refine ⟨toNat_add_of_lt (by omega), hzlen.trans hmid, ?_⟩
  rw [hhi] at hx
  rw [hxlow, base_pow_double] at hy
  rw [hmid, val_append, val_append, hlohigh, hylen, hxlow, base_pow_double n2] at hz
  have hxlong : x.1.length = 2 * n3 := hxlen.trans hhi
  have hxs := val_split (l := x.1) (n := 2 * n2) (by omega)
  rw [base_pow_double] at hxs
  have hupper : (2 ^ 64) ^ n2 * (2 ^ 64) ^ (2 * n3 - n2) = (2 ^ 64) ^ (2 * n3) := by
    rw [← pow_add, Nat.add_sub_cancel' (by omega)]
  exact karaadd_sum hupper hx hxs hy hz (val_split (by omega)) (val_split (by omega)) hp

/-- **`mpn_karaadd`**: the two products and that of the differences give the whole product,
and no carry leaves it. -/
theorem mpnKaraadd_spec {lo hi tp : List UInt64} {n2 n3 : ℕ} (h2 : 0 < n2)
    (hlo : lo.length = 2 * n2) (hhi : hi.length = 2 * n3) (htp : tp.length = 2 * n3)
    (hn : n2 ≤ n3) {p : ℕ}
    (hp : p = val lo + (2 ^ 64) ^ n2 * (val lo + val hi + val tp) + ((2 ^ 64) ^ n2) ^ 2 * val hi)
    (hlt : p < (2 ^ 64) ^ (2 * n2 + 2 * n3)) :
    ∃ r, mpnKaraadd lo hi tp = some r ∧ r.length = 2 * n2 + 2 * n3 ∧ val r = p := by
  have hhalf : lo.length / 2 = n2 := by omega
  have hlolow : (lo.take n2).length = n2 := by
    rw [List.length_take]
    omega
  have hhihigh : (hi.drop (2 * n3 - n2)).length = n2 := by
    rw [List.length_drop]
    omega
  obtain ⟨hcarry, hzlen, hsum⟩ := karaadd_middle hlo hhi htp hn hp
  unfold mpnKaraadd
  dsimp only at hcarry hzlen hsum ⊢
  rw [hhalf, hhi]
  generalize mpnAddN hi tp = x at hcarry hzlen hsum ⊢
  generalize mpnAddN (x.1.take (2 * n2)) lo = y at hcarry hzlen hsum ⊢
  generalize mpnAddN (lo.drop n2 ++ hi.take (2 * n3 - n2)) (y.1 ++ x.1.drop (2 * n2)) = z
    at hcarry hzlen hsum ⊢
  rw [← hcarry] at hsum
  -- the first carry, above the sum of both upper parts
  have hroom : (2 ^ 64) ^ (2 * n2 + 2 * n3)
      = (2 ^ 64) ^ n2 * (2 ^ 64) ^ (2 * n3) * (2 ^ 64) ^ n2 := by
    rw [← pow_add, ← pow_add]
    congr 1
    omega
  obtain ⟨s, hs, hslen, hsval⟩ := mpnIncrUWithin_spec (p := hi.drop (2 * n3 - n2)) (z.2 + x.2)
    (List.ne_nil_of_length_pos (by omega)) (by
      rw [hhihigh]
      exact Nat.lt_of_mul_lt_mul_left (a := (2 ^ 64) ^ n2 * (2 ^ 64) ^ (2 * n3)) (by omega))
  rw [← hsval] at hsum
  -- the second one, above the lower product
  have hzhigh : (z.1.drop (2 * n2)).length = 2 * n3 - 2 * n2 := by
    rw [List.length_drop, hzlen]
  have hqlen : (z.1.drop (2 * n2) ++ s).length = 2 * n3 - n2 := by
    rw [List.length_append, hzhigh, hslen, hhihigh]
    omega
  have hrest : val (lo.take n2 ++ z.1.take (2 * n2))
      + ((2 ^ 64) ^ n2) ^ 3 * (val (z.1.drop (2 * n2) ++ s) + y.2.toNat) = p := by
    have hupper : (2 ^ 64) ^ (2 * n3) = ((2 ^ 64) ^ n2) ^ 2 * (2 ^ 64) ^ (2 * n3 - 2 * n2) := by
      rw [← base_pow_double, ← pow_add, Nat.add_sub_cancel' (by omega)]
    have hzs := val_split (l := z.1) (n := 2 * n2) (by omega)
    rw [base_pow_double] at hzs
    rw [← hsum, val_append, val_append, hlolow, hzhigh, hupper, hzs]
    ring
  have hroom' : (2 ^ 64) ^ (2 * n2 + 2 * n3)
      = ((2 ^ 64) ^ n2) ^ 3 * (2 ^ 64) ^ (2 * n3 - n2) := by
    rw [← pow_mul (2 ^ 64) n2 3, ← pow_add]
    congr 1
    omega
  obtain ⟨q, hq, hqlen', hqval⟩ := mpnIncrUWithin_spec (p := z.1.drop (2 * n2) ++ s) y.2
    (List.ne_nil_of_length_pos (by omega)) (by
      rw [hqlen]
      exact Nat.lt_of_mul_lt_mul_left (a := ((2 ^ 64) ^ n2) ^ 3) (by omega))
  rw [hs, Option.bind_eq_bind, Option.bind_some, hq, Option.bind_some]
  have hlow : (lo.take n2 ++ z.1.take (2 * n2)).length = 3 * n2 := by
    rw [List.length_append, hlolow, List.length_take, hzlen]
    omega
  refine ⟨_, rfl, ?_, ?_⟩
  · rw [List.length_append, hlow, hqlen', hqlen]
    omega
  · rw [val_append, hlow, Nat.mul_comm 3, pow_mul, hqval, hrest]

/-! ### `mpn_kara_mul_n` -/

theorem mpnCmp_nonneg {xp yp : List UInt64} (hlen : xp.length = yp.length) :
    0 ≤ mpnCmp xp yp ↔ val yp ≤ val xp := by
  rw [mpnCmp_eq hlen]
  split_ifs <;> omega

/-- The last limb. -/
theorem drop_eq_getD {l : List UInt64} {n : ℕ} (h : l.length = n + 1) :
    l.drop n = [l.getD n 0] := by
  have hlt : n < l.length := by omega
  rw [List.drop_eq_getElem_cons hlt, List.drop_eq_nil_iff.mpr (by omega),
    List.getD_eq_getElem _ _ hlt]

/-- `d` is the difference of `h` and `l` in absolute value, and `neg` its sign. -/
def IsDiff (d : ℕ) (neg : Bool) (h l : ℕ) : Prop :=
  if neg then d + h = l ∧ h < l else d + l = h

/-- **The difference of the halves** in absolute value, and its sign. -/
theorem karaDiff_spec (xh xl : List UInt64)
    (hlen : xh.length = xl.length ∨ xh.length = xl.length + 1) :
    (karaDiff xh xl).1.length = xh.length ∧
      IsDiff (val (karaDiff xh xl).1) (karaDiff xh xl).2 (val xh) (val xl) := by
  unfold karaDiff
  dsimp only
  rcases hlen with heven | hodd
  · rw [if_pos heven]
    split_ifs with hcmp
    · obtain ⟨hlength, hval, -⟩ := mpnSubN_of_le heven ((mpnCmp_nonneg heven).mp hcmp)
      exact ⟨hlength, hval⟩
    · have hlt := not_le.mp (mt (mpnCmp_nonneg heven).mpr hcmp)
      obtain ⟨hlength, hval, -⟩ := mpnSubN_of_le heven.symm hlt.le
      exact ⟨hlength.trans heven.symm, hval, hlt⟩
  · have hne : ¬xh.length = xl.length := by omega
    have htake : (xh.take xl.length).length = xl.length := by
      rw [List.length_take]
      omega
    have hsplit := val_split (l := xh) (n := xl.length) (by omega)
    rw [drop_eq_getD hodd, val_singleton] at hsplit
    rw [if_neg hne]
    generalize xh.getD xl.length 0 = a at hsplit ⊢
    split_ifs with hcmp
    · obtain ⟨hlength, hborrow, hval⟩ := mpnSubN_nat htake
      -- the borrow is taken from a top limb that is not zero
      have hle : (mpnSubN (xh.take xl.length) xl).2.toNat ≤ a.toNat := by
        rcases hcmp with ha | hle
        · have hpos := toNat_ne_zero ha
          omega
        · obtain ⟨-, -, h0⟩ := mpnSubN_of_le htake ((mpnCmp_nonneg htake).mp hle)
          omega
      have hsub := UInt64.toNat_sub_of_le _ _ (UInt64.le_iff_toNat_le.mpr hle)
      refine ⟨by rw [List.length_append, hlength, htake, hodd]; rfl, ?_⟩
      show val _ + val xl = val xh
      rw [val_append, val_singleton, hsub, hlength, htake, hsplit]
      rw [htake] at hval
      obtain ⟨c, hc⟩ := Nat.exists_eq_add_of_le hle
      rw [hc, Nat.add_sub_cancel_left, Nat.mul_add]
      omega
    · obtain ⟨ha, hcmp⟩ := not_or.mp hcmp
      have hlt := not_le.mp (mt (mpnCmp_nonneg htake).mpr hcmp)
      obtain ⟨hlength, hval, -⟩ := mpnSubN_of_le htake.symm hlt.le
      rw [not_not.mp ha, UInt64.toNat_zero, Nat.mul_zero, Nat.add_zero] at hsplit
      refine ⟨by rw [List.length_append, hlength, hodd]; rfl, ?_⟩
      show val _ + val xh = val xl ∧ val xh < val xl
      rw [val_append, val_singleton, UInt64.toNat_zero, Nat.mul_zero, Nat.add_zero, hsplit]
      exact ⟨hval, hlt⟩

/-- The product of the differences is the sum of the products of the halves, less the two
mixed ones, when the signs agree. -/
theorem kara_product_same {b xl xh yl yh dx dy : ℕ} {neg : Bool} (hx : IsDiff dx neg xh xl)
    (hy : IsDiff dy neg yh yl) :
    (xl + b * xh) * (yl + b * yh) + b * (dx * dy)
      = xl * yl + b * (xl * yl + xh * yh) + b ^ 2 * (xh * yh) := by
  cases neg with
  | false =>
      obtain rfl : dx + xl = xh := hx
      obtain rfl : dy + yl = yh := hy
      ring
  | true =>
      obtain ⟨rfl, -⟩ : dx + xh = xl ∧ xh < xl := hx
      obtain ⟨rfl, -⟩ : dy + yh = yl ∧ yh < yl := hy
      ring

/-- And the mixed ones less the others when they differ. -/
theorem kara_product_mixed {b xl xh yl yh dx dy : ℕ} {neg neg' : Bool} (hne : neg ≠ neg')
    (hx : IsDiff dx neg xh xl) (hy : IsDiff dy neg' yh yl) :
    (xl + b * xh) * (yl + b * yh)
      = xl * yl + b * (xl * yl + xh * yh + dx * dy) + b ^ 2 * (xh * yh) := by
  cases neg <;> cases neg'
  · exact absurd rfl hne
  · obtain rfl : dx + xl = xh := hx
    obtain ⟨rfl, -⟩ : dy + yh = yl ∧ yh < yl := hy
    ring
  · obtain ⟨rfl, -⟩ : dx + xh = xl ∧ xh < xl := hx
    obtain rfl : dy + yl = yh := hy
    ring
  · exact absurd rfl hne

/-- Upper halves that are the smaller ones leave room above their product. -/
theorem kara_room_even {b x y s : ℕ} (hb : 2 < b) (hx : x + 2 ≤ b) (hy : y + 2 ≤ b)
    (hs : b * s ≤ x * y) : s + 2 < b := by
  obtain ⟨c, rfl⟩ := Nat.exists_eq_add_of_le' hb.le
  have hxy : x * y ≤ c * c := Nat.mul_le_mul (by omega) (by omega)
  refine Nat.lt_of_mul_lt_mul_left (a := c + 2) ?_
  calc (c + 2) * (s + 2) = (c + 2) * s + 2 * (c + 2) := by ring
    _ ≤ c * c + 2 * (c + 2) := by omega
    _ < c * c + 2 * (c + 2) + 2 * c := by omega
    _ = (c + 2) * (c + 2) := by ring

/-- Upper halves of one limb more leave room above their product. -/
theorem kara_room_odd {b g m x y s : ℕ} (hb : 0 < b) (hg : 2 * b ≤ g) (hx : x < g) (hy : y < g)
    (hm : b * m = g * g) (hs : b * s ≤ x * y) : s + 2 < m := by
  obtain ⟨c, rfl⟩ := Nat.exists_eq_add_of_le' (show 1 ≤ g by omega)
  have hxy : x * y ≤ c * c := Nat.mul_le_mul (by omega) (by omega)
  refine Nat.lt_of_mul_lt_mul_left (a := b) ?_
  calc b * (s + 2) = b * s + 2 * b := by ring
    _ ≤ c * c + (c + 1) := by omega
    _ < c * c + (c + 1) + c := by omega
    _ = b * m := by rw [hm]; ring
/-- The carry of `mpn_karasub` has room, for differences of one sign. -/
theorem kara_carry {hi tp xh xl yh yl : List UInt64} {dx dy : ℕ} {neg : Bool} (h2 : 0 < xl.length)
    (hx : xh.length = xl.length ∨ xh.length = xl.length + 1) (hyh : yh.length = xh.length)
    (hyl : yl.length = xl.length) (hhi : hi.length = 2 * xh.length)
    (hhival : val hi = val xh * val yh) (htp : val tp = dx * dy)
    (hdx : IsDiff dx neg (val xh) (val xl)) (hdy : IsDiff dy neg (val yh) (val yl)) :
    val (hi.drop xl.length) + 2 < (2 ^ 64) ^ (2 * xh.length - xl.length) ∨
      xh.length = xl.length ∧ val tp ≤ val hi := by
  have hsplit := val_split (l := hi) (n := xl.length) (by omega)
  have hs : (2 ^ 64) ^ xl.length * val (hi.drop xl.length) ≤ val xh * val yh := by
    rw [← hhival, hsplit]
    exact Nat.le_add_left _ _
  have hbase : 2 ^ 64 ≤ (2 ^ 64) ^ xl.length := Nat.le_self_pow (by omega) _
  have hxl := val_lt xl
  have hyl' := val_lt yl
  rw [hyl] at hyl'
  rcases hx with heven | hodd
  · cases neg with
    | false =>
        have h₁ : dx + val xl = val xh := hdx
        have h₂ : dy + val yl = val yh := hdy
        refine .inr ⟨heven, ?_⟩
        rw [htp, hhival]
        exact Nat.mul_le_mul (by omega) (by omega)
    | true =>
        have h₁ : dx + val xh = val xl ∧ val xh < val xl := hdx
        have h₂ : dy + val yh = val yl ∧ val yh < val yl := hdy
        left
        rw [show 2 * xh.length - xl.length = xl.length by omega]
        exact kara_room_even (by omega) (by omega) (by omega) hs
  · have hxh := val_lt xh
    have hyh' := val_lt yh
    rw [hyh] at hyh'
    left
    refine kara_room_odd (b := (2 ^ 64) ^ xl.length) (by omega) ?_ hxh hyh' ?_ hs
    · rw [hodd, pow_succ]
      omega
    · rw [← pow_add, ← pow_add]
      congr 1
      omega

/-- **The three products are put together** by `mpn_karasub` or `mpn_karaadd`. -/
theorem karaCombine_spec {xl xh yl yh lo hi tp : List UInt64} {dx dy : ℕ} {neg neg' : Bool}
    (h2 : 0 < xl.length) (hx : xh.length = xl.length ∨ xh.length = xl.length + 1)
    (hyl : yl.length = xl.length) (hyh : yh.length = xh.length)
    (hdx : IsDiff dx neg (val xh) (val xl)) (hdy : IsDiff dy neg' (val yh) (val yl))
    (hlo : lo.length = 2 * xl.length) (hloval : val lo = val xl * val yl)
    (hhi : hi.length = 2 * xh.length) (hhival : val hi = val xh * val yh)
    (htp : tp.length = 2 * xh.length) (htpval : val tp = dx * dy) :
    ∃ r, (if neg = neg' then mpnKarasub lo hi tp else mpnKaraadd lo hi tp) = some r ∧
      r.length = 2 * (xl ++ xh).length ∧ val r = val (xl ++ xh) * val (yl ++ yh) := by
  have hsize : 2 * (xl ++ xh).length = 2 * xl.length + 2 * xh.length := by
    rw [List.length_append, Nat.mul_add]
  have hlen : (yl ++ yh).length = (xl ++ xh).length := by
    rw [List.length_append, List.length_append, hyl, hyh]
  have hlt : val (xl ++ xh) * val (yl ++ yh) < (2 ^ 64) ^ (2 * xl.length + 2 * xh.length) := by
    rw [← hsize, Nat.two_mul, pow_add]
    exact Nat.mul_lt_mul'' (val_lt _) (hlen ▸ val_lt _)
  rw [hsize]
  rw [val_append, val_append, hyl] at hlt ⊢
  split_ifs with hsign
  · subst hsign
    refine mpnKarasub_spec h2 hlo hhi htp hx ?_ hlt
      (kara_carry h2 hx hyh hyl hhi hhival htpval hdx hdy)
    rw [hloval, hhival, htpval]
    exact kara_product_same hdx hdy
  · refine mpnKaraadd_spec h2 hlo hhi htp (by omega) ?_ hlt
    rw [hloval, hhival, htpval]
    exact kara_product_mixed hsign hdx hdy

/-- **`mpn_kara_mul_n` multiplies**: the recursion ends, and no carry leaves the product. -/
theorem mpnKaraMulN_spec (fuel : ℕ) :
    ∀ {xp yp : List UInt64}, 2 ≤ xp.length → yp.length = xp.length → xp.length ≤ fuel →
      ∃ r, mpnKaraMulN fuel xp yp = some r ∧ r.length = 2 * xp.length ∧
        val r = val xp * val yp := by
  induction fuel with
  | zero =>
      intro xp yp h2 _ hfuel
      omega
  | succ fuel ih =>
      intro xp yp h2 hlen hfuel
      -- the three products, by `mpn_mul_basecase` or by the recursion
      have hmul : ∀ {a b : List UInt64}, b.length = a.length → xp.length / 2 ≤ a.length →
          a.length ≤ xp.length - xp.length / 2 →
          ∃ r, (if xp.length - xp.length / 2 < mulKaratsubaThreshold then
              some (mpnMulBasecase a b) else mpnKaraMulN fuel a b) = some r ∧
            r.length = 2 * a.length ∧ val r = val a * val b := by
        intro a b hab hge hle
        split_ifs with hsmall
        · have ha : a ≠ [] := List.ne_nil_of_length_pos (by omega)
          have hb : b ≠ [] := List.ne_nil_of_length_pos (by omega)
          obtain ⟨hrlen, hrval⟩ := mpnMulBasecase_spec ha hb
          exact ⟨_, rfl, by omega, hrval⟩
        · unfold mulKaratsubaThreshold at hsmall
          exact ih (by omega) hab (by omega)
      have hlow : ∀ {l : List UInt64}, l.length = xp.length →
          (l.take (xp.length / 2)).length = xp.length / 2 := by
        intro l hl
        rw [List.length_take]
        omega
      have hhigh : ∀ {l : List UInt64}, l.length = xp.length →
          (l.drop (xp.length / 2)).length = xp.length - xp.length / 2 := by
        intro l hl
        rw [List.length_drop, hl]
      have hxl := hlow rfl
      have hyl := hlow hlen
      have hxh := hhigh rfl
      have hyh := hhigh hlen
      obtain ⟨hdxlen, hdx⟩ := karaDiff_spec (xp.drop (xp.length / 2)) (xp.take (xp.length / 2))
        (by omega)
      obtain ⟨hdylen, hdy⟩ := karaDiff_spec (yp.drop (xp.length / 2)) (yp.take (xp.length / 2))
        (by omega)
      obtain ⟨lo, hlo, hlolen, hloval⟩ := hmul (hyl.trans hxl.symm) (by omega) (by omega)
      obtain ⟨hi, hhi, hhilen, hhival⟩ := hmul (hyh.trans hxh.symm) (by omega) (by omega)
      obtain ⟨tp, htp, htplen, htpval⟩ := hmul
        ((hdylen.trans (hyh.trans hxh.symm)).trans hdxlen.symm) (by omega) (by omega)
      obtain ⟨r, hr, hrlen, hrval⟩ := karaCombine_spec (by omega) (by omega)
        (hyl.trans hxl.symm) (hyh.trans hxh.symm) hdx hdy hlolen hloval hhilen hhival
        (htplen.trans (congrArg _ hdxlen)) htpval
      rw [List.take_append_drop] at hrlen hrval
      rw [List.take_append_drop] at hrval
      refine ⟨r, ?_, hrlen, hrval⟩
      rw [mpnKaraMulN]
      simp only [hlo, htp, hhi, Option.bind_eq_bind, Option.bind_some]
      exact hr

/-- `mpn_mul` with the products below `MUL_TOOM3_THRESHOLD` of numbers of one length done by
`mpn_kara_mul_n`, and the others left to `K`. -/
def MulKernel.withKara (K : MulKernel) : MulKernel where
  mul up vp :=
    if up.length = vp.length ∧ mulKaratsubaThreshold ≤ up.length ∧ up.length < mulToom3Threshold
    then (mpnKaraMulN up.length up vp).getD []
    else K.mul up vp
  sqr := K.sqr
  length_mul {up vp} hv hle := by
    split_ifs with hkara
    · obtain ⟨hlen, hge, -⟩ := hkara
      unfold mulKaratsubaThreshold at hge
      obtain ⟨prod, hprod, hplen, -⟩ := mpnKaraMulN_spec up.length (by omega) hlen.symm le_rfl
      rw [hprod, Option.getD_some, hplen, ← hlen, Nat.two_mul]
    · exact K.length_mul hv hle
  val_mul {up vp} hv hle := by
    split_ifs with hkara
    · obtain ⟨hlen, hge, -⟩ := hkara
      unfold mulKaratsubaThreshold at hge
      obtain ⟨prod, hprod, -, hpval⟩ := mpnKaraMulN_spec up.length (by omega) hlen.symm le_rfl
      rw [hprod, Option.getD_some, hpval]
    · exact K.val_mul hv hle
  length_sqr := K.length_sqr
  val_sqr := K.val_sqr

/-- **Karatsuba's multiplication is the multiplication by rows**: for operands of any length
the recursion ends, no carry or borrow leaves the product, and the product is that of
`mpn_mul_basecase`, limb by limb. -/
theorem mpnKaraMulN_eq_basecase {xp yp : List UInt64} (h2 : 2 ≤ xp.length)
    (hlen : yp.length = xp.length) {fuel : ℕ} (hfuel : xp.length ≤ fuel) :
    mpnKaraMulN fuel xp yp = some (mpnMulBasecase xp yp) := by
  have hx : xp ≠ [] := List.ne_nil_of_length_pos (by omega)
  have hy : yp ≠ [] := List.ne_nil_of_length_pos (by omega)
  obtain ⟨prod, hprod, hplen, hpval⟩ := mpnKaraMulN_spec fuel h2 hlen hfuel
  obtain ⟨hblen, hbval⟩ := mpnMulBasecase_spec hx hy
  rw [hprod, eq_of_val_eq (by omega) (hpval.trans hbval.symm)]

/-- Halves of different lengths, which are cut once more. -/
theorem mpnKaraMulN_eq_basecase_odd :
    mpnKaraMulN 129 (List.replicate 129 (-1)) (5 :: List.replicate 128 7)
      = some (mpnMulBasecase (List.replicate 129 (-1)) (5 :: List.replicate 128 7)) :=
  mpnKaraMulN_eq_basecase (by rw [List.length_replicate]; decide)
    (by rw [List.length_cons, List.length_replicate, List.length_replicate])
    (by rw [List.length_replicate])

end Mpir
end SecureDesign
