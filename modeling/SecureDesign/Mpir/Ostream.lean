/-
# Integers on output streams

`operator<<` for `mpz_t` of `cxx/osmpz.cc`: the parameters that the flags of the stream give
(`cxx/osfuns.cc`) and `__gmp_doprnt_integer` of `printf/doprnti.c`, which puts sign, base and
padding around the digits.

The characters that are printed are the decomposition of `doprntInteger_eq`: at most one of
its three paddings is there, and it brings the text to the width of the stream.
-/

import SecureDesign.Mpir.Program

namespace SecureDesign
namespace Mpir

open CLang

/-- `DOPRNT_JUSTIFY_NONE` and its siblings. -/
inductive Justify
  | none
  | left
  | right
  | internal
  deriving DecidableEq

/-- `DOPRNT_SHOWBASE_YES` and its siblings. -/
inductive Showbase
  | yes
  | no
  | nonzero
  deriving DecidableEq

/-- `struct doprnt_params_t`, as far as integers need it.  No sign is the character zero. -/
structure DoprntParams where
  base : ℤ
  fill : UInt8
  justify : Justify
  prec : ℤ
  showbase : Showbase
  sign : UInt8
  width : ℤ

/-- `ios::basefield`; none or more than one of its bits are `other`. -/
inductive Basefield
  | dec
  | oct
  | hex
  | other
  deriving DecidableEq

/-- `ios::adjustfield`; what is neither left nor internal is `other`. -/
inductive Adjustfield
  | left
  | internal
  | other
  deriving DecidableEq

/-- The state of a stream that formatting depends on. -/
structure Ios where
  basefield : Basefield
  adjustfield : Adjustfield
  fixed : Bool
  uppercase : Bool
  showbase : Bool
  showpos : Bool
  skipws : Bool
  fill : UInt8
  precision : ℤ
  width : ℤ
  deriving DecidableEq

/-- `__gmp_doprnt_params_from_ios`. -/
def doprntParamsFromIos (o : Ios) : DoprntParams where
  base :=
    if o.basefield = .hex then if o.uppercase then -16 else 16
    else if o.basefield = .oct then 8
    else 10
  fill := o.fill
  justify :=
    match o.adjustfield with
    | .left => .left
    | .internal => .internal
    | .other => .right
  prec := if max 0 o.precision = 0 ∧ !o.fixed then 6 else max 0 o.precision
  showbase :=
    if o.showbase then if o.basefield = .hex then .yes else .nonzero
    else .no
  sign := if o.showpos then 43 else 0
  width := o.width

/-- The prefix that `showbase` puts in front of a number. -/
def showbasePrefix (p : DoprntParams) : List UInt8 :=
  if p.showbase ≠ .no then
    if p.base = 16 then ascii "0x"
    else if p.base = -16 then ascii "0X"
    else if p.base = 8 then ascii "0"
    else []
  else []

/-- The part of `__gmp_doprnt_integer` after the sign.  The string `s` may be a fraction. -/
def doprntUnsigned (p : DoprntParams) (sign s : List UInt8) : List UInt8 :=
  let s := if s.head? = some 48 ∧ p.prec = 0 then s.tail else s
  let slash := s.idxOf 47
  let denShowbase :=
    if slash = s.length ∨ p.showbase = .nonzero ∧ s[slash + 1]? = some 48 then []
    else showbasePrefix p
  let showbase := if p.showbase = .nonzero ∧ s.head? = some 48 then [] else showbasePrefix p
  let zeros := (max 0 (p.prec - s.length)).toNat
  let justlen : ℤ :=
    p.width - (s.length + sign.length + showbase.length + denShowbase.length + zeros : ℕ)
  let justify := if justlen ≤ 0 then .none else p.justify
  let pad := fun j => if justify = j then List.replicate justlen.toNat p.fill else []
  pad .right ++ sign ++ showbase ++ List.replicate zeros 48 ++ pad .internal
    ++ (if denShowbase = [] then s else s.take (slash + 1) ++ denShowbase ++ s.drop (slash + 1))
    ++ pad .left

/-- `__gmp_doprnt_integer`. -/
def doprntInteger (p : DoprntParams) (s : List UInt8) : List UInt8 :=
  if s.head? = some 45 then doprntUnsigned p [45] s.tail
  else doprntUnsigned p (if p.sign ≠ 0 then [p.sign] else []) s

/-- `operator<<`: the characters that are written, and the stream with its width reset. -/
def ostreamMpz (L : Library) (o : Ios) (z : MpzStruct) : Option (List UInt8 × Ios) := do
  let p := doprntParamsFromIos o
  let s ← ← mpzGetStr L.estimates L.mul L.div none p.base z
  some (doprntInteger { p with prec := -1 } (cstr s), { o with width := 0 })

/-! ### The parts of the text -/

/-- The sign of a number. -/
def signOf (p : DoprntParams) (z : ℤ) : List UInt8 :=
  if z < 0 then [45] else if p.sign ≠ 0 then [p.sign] else []

/-- The base in front of a number. -/
def baseOf (p : DoprntParams) (z : ℤ) : List UInt8 :=
  if p.showbase = .nonzero ∧ z = 0 then [] else showbasePrefix p

/-- The digits of a number. -/
def digitsOfInt (base z : ℤ) : List UInt8 :=
  (showNat (showBase base) z.natAbs).map fun d => (numToText base).getD d.toNat 0

/-- The number of characters without padding. -/
def plainLength (p : DoprntParams) (z : ℤ) : ℕ :=
  (signOf p z).length + (baseOf p z).length + (digitsOfInt p.base z).length

/-- The padding, for the place `j`. -/
def padding (p : DoprntParams) (z : ℤ) (j : Justify) : List UInt8 :=
  if p.justify = j then List.replicate (p.width.toNat - plainLength p z) p.fill else []

section

variable {base : ℤ}

/-- The digits of a number: there is one, and each is the character of a digit. -/
theorem digitsOfInt_spec (h : Printable base) (z : ℤ) :
    digitsOfInt base z ≠ [] ∧ (∀ c ∈ digitsOfInt base z, digitOf (showBase base) c < showBase base) ∧
      ((digitsOfInt base z).head? = some 48 ↔ z = 0) := by
  obtain ⟨h2, h62⟩ := h.bounds
  obtain ⟨hne, hdig, hval⟩ := showNat_spec h2 (by omega) z.natAbs
  have hchar : ∀ c ∈ digitsOfInt base z, digitOf (showBase base) c < showBase base := by
    intro c hc
    rcases List.mem_map.mp hc with ⟨d, hd, rfl⟩
    rw [(digitChar_spec h (hdig d hd)).2.2]
    exact hdig d hd
  refine ⟨by simpa [digitsOfInt] using hne, hchar, ?_⟩
  unfold digitsOfInt
  by_cases hz : z = 0
  · subst hz
    have hd := (digitChar_spec h (show 0 < showBase base by omega)).2.2
    have h48 : (numToText base).getD 0 0 = 48 := digitOf_eq_zero.mp hd
    simpa [showNat] using h48
  · have hpos : z.natAbs ≠ 0 := by omega
    have hmin := minimal_digitsOf h2 (by omega) z.natAbs
    unfold showNat at hne hdig ⊢
    rw [if_neg hpos] at hne hdig ⊢
    obtain ⟨d, l, hl⟩ := List.exists_cons_of_ne_nil hne
    rw [hl] at hmin hdig ⊢
    have hd := (digitChar_spec h (hdig d List.mem_cons_self)).2.2
    rw [List.map_cons, List.head?_cons, Option.some.injEq]
    refine iff_of_false (fun h48 => ?_) hz
    rw [h48, digitOf_eq_zero.mpr rfl] at hd
    have hd0 : d = 0 := UInt8.toNat.inj (hd.symm.trans UInt8.toNat_zero.symm)
    exact hmin (by rw [hd0, List.head?_cons])

/-- No character of a digit is a minus sign or a slash or ends the string. -/
theorem notMem_digitsOfInt (h : Printable base) (z : ℤ) :
    45 ∉ digitsOfInt base z ∧ 47 ∉ digitsOfInt base z ∧ 0 ∉ digitsOfInt base z := by
  have hchar := (digitsOfInt_spec h z).2.1
  have h62 := h.bounds.2
  have hnone : ∀ c : UInt8, digitOf (showBase base) c = 255 → c ∉ digitsOfInt base z := by
    intro c hc hmem
    have := hchar c hmem
    omega
  refine ⟨hnone 45 ?_, hnone 47 ?_, hnone 0 ?_⟩ <;> simp [digitOf]

theorem showInteger_eq (base z : ℤ) :
    showInteger base z = (if z < 0 then [45] else []) ++ digitsOfInt base z := rfl

end

/-- **What is printed**: sign, base and digits, with one padding at most. -/
theorem doprntInteger_eq {p : DoprntParams} (hprec : p.prec = -1) (h : Printable p.base) (z : ℤ) :
    doprntInteger p (showInteger p.base z)
      = padding p z .right ++ signOf p z ++ baseOf p z ++ padding p z .internal
        ++ digitsOfInt p.base z ++ padding p z .left := by
  obtain ⟨hne, -, hzero⟩ := digitsOfInt_spec h z
  obtain ⟨hminus, hslash, -⟩ := notMem_digitsOfInt h z
  have hhead : (digitsOfInt p.base z).head? ≠ some 45 := fun h45 =>
    hminus (List.mem_of_head? h45)
  have hsplit : doprntInteger p (showInteger p.base z)
      = doprntUnsigned p (signOf p z) (digitsOfInt p.base z) := by
    unfold doprntInteger signOf
    rw [showInteger_eq]
    by_cases hz : z < 0
    · simp [hz]
    · simp [hz, hhead]
  have hp0 : ¬((digitsOfInt p.base z).head? = some 48 ∧ p.prec = 0) := by
    rw [hprec]
    omega
  have hzeros : (max 0 (p.prec - (digitsOfInt p.base z).length)).toNat = 0 := by
    rw [hprec]
    omega
  have hbase : (if p.showbase = .nonzero ∧ (digitsOfInt p.base z).head? = some 48 then []
      else showbasePrefix p) = baseOf p z := by
    simp only [hzero]
    rfl
  rw [hsplit]
  unfold doprntUnsigned
  rw [if_neg hp0]
  dsimp only
  rw [if_pos (Or.inl (List.idxOf_eq_length hslash)), hbase, hzeros, if_pos rfl, List.length_nil,
    List.replicate_zero, List.append_nil]
  have hlen : (digitsOfInt p.base z).length + (signOf p z).length + (baseOf p z).length + 0 + 0
      = plainLength p z := by
    unfold plainLength
    omega
  rw [hlen]
  have hpad : ∀ j, j ≠ .none →
      (if (if p.width - (plainLength p z : ℤ) ≤ 0 then .none else p.justify) = j then
        List.replicate (p.width - (plainLength p z : ℤ)).toNat p.fill else []) = padding p z j := by
    intro j hj
    unfold padding
    have hcount : (p.width - (plainLength p z : ℤ)).toNat = p.width.toNat - plainLength p z := by
      omega
    by_cases hle : p.width - (plainLength p z : ℤ) ≤ 0
    · have h0 : p.width.toNat - plainLength p z = 0 := by omega
      rw [if_pos hle, if_neg hj.symm, h0, List.replicate_zero, ite_self]
    · rw [if_neg hle, hcount]
  rw [hpad .right nofun, hpad .internal nofun, hpad .left nofun]

/-- **The text is as wide as the stream asks for**, or wider when the number does not fit. -/
theorem doprntInteger_length {p : DoprntParams} (hprec : p.prec = -1) (hjust : p.justify ≠ .none)
    (h : Printable p.base) (z : ℤ) :
    (doprntInteger p (showInteger p.base z)).length = max p.width.toNat (plainLength p z) := by
  rw [doprntInteger_eq hprec h]
  have hpad : (padding p z .right).length + (padding p z .internal).length
      + (padding p z .left).length = p.width.toNat - plainLength p z := by
    unfold padding
    cases hj : p.justify with
    | none => exact absurd hj hjust
    | left => simp
    | right => simp
    | internal => simp
  have hplain : plainLength p z
      = (signOf p z).length + (baseOf p z).length + (digitsOfInt p.base z).length := rfl
  simp only [List.length_append]
  omega

/-! ### The stream -/

section

variable {L : Library} {o : Ios} {x : MpzStruct}

/-- The parameters that `operator<<` prints with. -/
def ostreamParams (o : Ios) : DoprntParams := { doprntParamsFromIos o with prec := -1 }

theorem ostreamParams_printable (o : Ios) : Printable (ostreamParams o).base := by
  unfold ostreamParams doprntParamsFromIos Printable
  dsimp only
  split_ifs <;> decide

theorem ostreamParams_justify (o : Ios) : (ostreamParams o).justify ≠ .none := by
  unfold ostreamParams doprntParamsFromIos
  dsimp only
  split <;> nofun

/-- **`operator<<` prints the integer** in the format of the stream. -/
theorem ostreamMpz_prints (hx : x.Valid) (hlen : 64 * x.size.natAbs ≤ L.estimates.limit) :
    ostreamMpz L o x
      = some (doprntInteger (ostreamParams o) (showInteger (ostreamParams o).base x.toInt),
          { o with width := 0 }) := by
  have hprint := ostreamParams_printable o
  have hshow : mpzGetStr L.estimates L.mul L.div none (ostreamParams o).base x
      = some (some (showInteger (ostreamParams o).base x.toInt ++ [0])) :=
    mpzGetStr_shows hx hprint hlen nofun
  have hnul : 0 ∉ showInteger (ostreamParams o).base x.toInt := by
    rw [showInteger_eq, List.mem_append, not_or]
    refine ⟨?_, (notMem_digitsOfInt hprint _).2.2⟩
    split_ifs <;> decide
  unfold ostreamMpz
  have hbase : (doprntParamsFromIos o).base = (ostreamParams o).base := rfl
  simp only [hbase, hshow, Option.bind_eq_bind, Option.bind_some, cstr_append_zero hnul]
  rfl

end

end Mpir
end SecureDesign
