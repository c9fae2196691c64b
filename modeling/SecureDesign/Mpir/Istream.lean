/-
# Integers on input streams

`operator>>` for `mpz_t` of `cxx/ismpz.cc` and `cxx/ismpznw.cc`, with the two scanners of
`cxx/isfuns.cc`.  A stream of the standard library is the characters that are left and its
two flags; a character that cannot be had leaves the variable as it is and sets both.

`istreamMpz_reads` is the round trip: what `operator<<` printed is read back as the same
integer, and the stream stands behind it.  It needs flags that agree on the base; a
hexadecimal prefix is understood only when the stream does not prescribe the base.
-/

import SecureDesign.Mpir.Ostream

namespace SecureDesign
namespace Mpir

open CLang

/-- An input stream. -/
structure Istream where
  rest : List UInt8
  eof : Bool
  fail : Bool
  deriving DecidableEq

/-- A stream that is good. -/
def Istream.ofList (rest : List UInt8) : Istream := ⟨rest, false, false⟩

/-- `i.good()`. -/
def Istream.good (i : Istream) : Bool := !i.eof && !i.fail

/-- `i.get(c)`: the stream and the character. -/
def Istream.get (i : Istream) (c : UInt8) : Istream × UInt8 :=
  if i.good then
    match i.rest with
    | [] => ({ i with eof := true, fail := true }, c)
    | d :: rest => ({ i with rest := rest }, d)
  else ({ i with fail := true }, c)

/-- `while (p (c) && i.get (c))` on a good stream, and the characters that `p` holds of. -/
def getWhile (p : UInt8 → Bool) (c : UInt8) : List UInt8 → List UInt8 × Istream × UInt8
  | [] => if p c then ([c], ⟨[], true, true⟩, c) else ([], .ofList [], c)
  | d :: rest =>
      if p c then
        let r := getWhile p d rest
        (c :: r.1, r.2)
      else ([], .ofList (d :: rest), c)

/-- `while (p (c) && i.get (c))`. -/
def Istream.getWhile (i : Istream) (p : UInt8 → Bool) (c : UInt8) :
    List UInt8 × Istream × UInt8 :=
  if i.good then Mpir.getWhile p c i.rest
  else if p c then ([c], { i with fail := true }, c)
  else ([], i, c)

/-- The characters that `__gmp_istream_set_digits` takes for a base. -/
def isDigitOf (base : ℤ) (c : UInt8) : Bool :=
  if base = 10 then 48 ≤ c && c ≤ 57
  else if base = 8 then 48 ≤ c && c ≤ 55
  else if base = 16 then
    (48 ≤ c && c ≤ 57) || (65 ≤ c && c ≤ 70) || (97 ≤ c && c ≤ 102)
  else false

/-- What `__gmp_istream_set_base` finds: the base, whether a zero was read, and the next
character. -/
structure ScannedBase where
  base : ℤ
  zero : Bool
  i : Istream
  c : UInt8

/-- `__gmp_istream_set_base`. -/
def istreamSetBase (basefield : Basefield) (i : Istream) (c : UInt8) : ScannedBase :=
  match basefield with
  | .dec => ⟨10, false, i, c⟩
  | .hex => ⟨16, false, i, c⟩
  | .oct => ⟨8, false, i, c⟩
  | .other =>
      if c = 48 then
        let p := i.get c
        let c := if p.1.fail then 0 else p.2
        if c = 120 ∨ c = 88 then
          let q := p.1.get c
          ⟨16, false, q.1, q.2⟩
        else ⟨8, true, p.1, c⟩
      else ⟨10, false, i, c⟩

/-- The last character is put back, unless the number ended the stream. -/
def Istream.finish (i : Istream) (c : UInt8) (counts : Bool) : Istream :=
  if i.good then { i with rest := c :: i.rest }
  else if i.eof && counts then { i with eof := false, fail := false }
  else i

/-- `__gmpz_operator_in_nowhite`. -/
def istreamNowhite (L : Library) (A : Allocator) (o : Ios) (s : Store) (i : Istream) (z : ℕ)
    (c : UInt8) : Option (Store × Istream) := do
  let p := if c = 45 ∨ c = 43 then i.get c else (i, c)
  let b := istreamSetBase o.basefield p.1 p.2
  let d := b.i.getWhile (isDigitOf b.base) b.c
  let i := d.2.1.finish d.2.2 (!d.1.isEmpty || b.zero)
  if d.1 ≠ [] then
    let str := (if c = 45 then [45] else []) ++ d.1
    let r ← mpzSetStr L.estimates L.mul A s z (str ++ [0]) b.base
    some (r.2, i)
  else if b.zero then
    let s ← mpzSetUi s z 0
    some (s, i)
  else some (s, { i with fail := true })

/-- `operator>>`. -/
def istreamMpz (L : Library) (A : Allocator) (o : Ios) (s : Store) (i : Istream) (z : ℕ) :
    Option (Store × Istream) :=
  let p := i.get 0
  let p := if o.skipws then (p.1.getWhile isspace p.2).2 else p
  istreamNowhite L A o s p.1 z p.2

/-! ### Where the stream stands -/

/-- The character `c` and the stream behind it make the text `u`.  At the end of the text both
flags are set, and `P` holds of the character that is left over. -/
inductive Istream.At (P : UInt8 → Prop) : Istream → UInt8 → List UInt8 → Prop
  | char (c : UInt8) (rest : List UInt8) : At P (.ofList rest) c (c :: rest)
  | eof (c : UInt8) (hc : P c) : At P ⟨[], true, true⟩ c []

section

variable {P Q : UInt8 → Prop} {i : Istream} {c : UInt8} {u l tail : List UInt8}
  {p : UInt8 → Bool}

theorem Istream.At.mono (h : i.At P c u) (hPQ : ∀ c, P c → Q c) : i.At Q c u := by
  cases h with
  | char c rest => exact At.char c rest
  | eof c hc => exact At.eof c (hPQ c hc)

/-- Getting a character from a good stream. -/
theorem Istream.at_get (u : List UInt8) (hc : P c) :
    ((ofList u).get c).1.At P ((ofList u).get c).2 u := by
  cases u with
  | nil => exact At.eof c hc
  | cons d u => exact At.char d u

/-- **A loop takes the characters that it is for**, and stops behind them. -/
theorem getWhile_at (p : UInt8 → Bool) (c : UInt8) (rest : List UInt8) :
    (getWhile p c rest).1 = (c :: rest).takeWhile p ∧
      (getWhile p c rest).2.1.At (fun c => p c = true) (getWhile p c rest).2.2
        ((c :: rest).dropWhile p) := by
  induction rest generalizing c with
  | nil =>
      rw [getWhile, List.takeWhile_cons, List.dropWhile_cons]
      by_cases hc : p c = true
      · rw [if_pos hc, if_pos hc, if_pos hc]
        exact ⟨rfl, Istream.At.eof c hc⟩
      · rw [if_neg hc, if_neg hc, if_neg hc]
        exact ⟨rfl, Istream.At.char c []⟩
  | cons d rest ih =>
      rw [getWhile, List.takeWhile_cons, List.dropWhile_cons]
      by_cases hc : p c = true
      · obtain ⟨h₁, h₂⟩ := ih d
        rw [if_pos hc, if_pos hc, if_pos hc]
        exact ⟨congrArg (c :: ·) h₁, h₂⟩
      · rw [if_neg hc, if_neg hc, if_neg hc]
        exact ⟨rfl, Istream.At.char c (d :: rest)⟩

theorem Istream.At.getWhile (h : i.At P c u) (hP : ∀ c, P c → p c = false) :
    (i.getWhile p c).1 = u.takeWhile p ∧
      (i.getWhile p c).2.1.At (fun c => p c = true ∨ P c) (i.getWhile p c).2.2
        (u.dropWhile p) := by
  cases h with
  | char c rest =>
      obtain ⟨h₁, h₂⟩ := getWhile_at p c rest
      exact ⟨h₁, h₂.mono fun _ => Or.inl⟩
  | eof c hc =>
      have hpc : ¬p c = true := by
        rw [hP c hc]
        exact Bool.false_ne_true
      unfold Istream.getWhile
      rw [if_neg (by decide), if_neg hpc]
      exact ⟨rfl, At.eof c (Or.inr hc)⟩

/-- **The stream is left behind the number**, and good. -/
theorem Istream.At.finish (h : i.At P c tail) : i.finish c true = ofList tail := by
  cases h with
  | char c rest => rfl
  | eof c hc => rfl

end

/-! ### Sign and base -/

/-- A letter or a digit. -/
def isalnum (c : UInt8) : Bool :=
  (48 ≤ c && c ≤ 57) || (65 ≤ c && c ≤ 90) || (97 ≤ c && c ≤ 122)

/-- The sign in front of the text `u`, which has none when there is no sign before it. -/
inductive Signed (u : List UInt8) : List UInt8 → Prop
  | none (hminus : u.head? ≠ some 45) (hplus : u.head? ≠ some 43) : Signed u []
  | plus : Signed u [43]
  | minus : Signed u [45]

/-- What is in front of the digits `u` for the base that is found, and whether it is a zero
that counts. -/
inductive Prefixed (basefield : Basefield) (u : List UInt8) : List UInt8 → ℤ → Bool → Prop
  | dec (h : basefield = .dec) : Prefixed basefield u [] 10 false
  | hex (h : basefield = .hex) : Prefixed basefield u [] 16 false
  | oct (h : basefield = .oct) : Prefixed basefield u [] 8 false
  | decimal (h : basefield = .other) (hzero : u.head? ≠ some 48) :
      Prefixed basefield u [] 10 false
  | octal (h : basefield = .other) (hx : u.head? ≠ some 120) (hX : u.head? ≠ some 88) :
      Prefixed basefield u [48] 8 true
  | hexadecimal (h : basefield = .other) (x : UInt8) (hx : x = 120 ∨ x = 88) :
      Prefixed basefield u [48, x] 16 false

section

variable {i : Istream} {c : UInt8} {u sgn pre : List UInt8} {basefield : Basefield} {base : ℤ}
  {zero : Bool}

/-- A character that is no letter and no digit is none of a base. -/
theorem isDigitOf_of_not_isalnum (base : ℤ) (h : isalnum c = false) :
    isDigitOf base c = false := by
  have hc := c.toNat_lt
  unfold isalnum at h
  unfold isDigitOf
  simp only [Bool.or_eq_false_iff, Bool.and_eq_false_iff, decide_eq_false_iff_not,
    UInt8.le_iff_toNat_le, UInt8.reduceToNat] at h
  split_ifs <;> simp [UInt8.le_iff_toNat_le] <;> omega

/-- What is left over at the end of a text without a number: no sign and no digit. -/
def Blank (c : UInt8) : Prop := isalnum c = false ∧ c ≠ 45 ∧ c ≠ 43

/-- After the sign. -/
theorem Signed.at (hsgn : Signed u sgn) (h : i.At Blank c (sgn ++ u)) :
    (if c = 45 ∨ c = 43 then i.get c else (i, c)).1.At (fun c => isalnum c = false)
        (if c = 45 ∨ c = 43 then i.get c else (i, c)).2 u ∧
      (if c = 45 then ([45] : List UInt8) else []) = if sgn = [45] then [45] else [] := by
  cases hsgn with
  | none hminus hplus =>
      have hc : c ≠ 45 ∧ c ≠ 43 := by
        rw [List.nil_append] at h
        cases h with
        | char c rest =>
            exact ⟨fun hc => hminus (by rw [hc, List.head?_cons]),
              fun hc => hplus (by rw [hc, List.head?_cons])⟩
        | eof c hc => exact hc.2
      rw [if_neg (not_or.mpr hc), if_neg hc.1, if_neg (by decide)]
      exact ⟨h.mono fun c hc => hc.1, rfl⟩
  | plus =>
      cases h with
      | char => exact ⟨Istream.at_get u (by decide), rfl⟩
  | minus =>
      cases h with
      | char => exact ⟨Istream.at_get u (by decide), rfl⟩

/-- **The base is found**, and the stream stands at the digits. -/
theorem Prefixed.at (hpre : Prefixed basefield u pre base zero)
    (h : i.At (fun c => isalnum c = false) c (pre ++ u)) :
    (istreamSetBase basefield i c).base = base ∧ (istreamSetBase basefield i c).zero = zero ∧
      (istreamSetBase basefield i c).i.At (fun c => isDigitOf base c = false)
        (istreamSetBase basefield i c).c u := by
  have hdigit := fun base c => isDigitOf_of_not_isalnum (c := c) base
  cases hpre with
  | dec hb =>
      subst hb
      exact ⟨rfl, rfl, h.mono (hdigit 10)⟩
  | hex hb =>
      subst hb
      exact ⟨rfl, rfl, h.mono (hdigit 16)⟩
  | oct hb =>
      subst hb
      exact ⟨rfl, rfl, h.mono (hdigit 8)⟩
  | decimal hb hzero =>
      subst hb
      have h48 : c ≠ 48 := by
        rw [List.nil_append] at h
        cases h with
        | char c rest => exact fun hc => hzero (by rw [hc, List.head?_cons])
        | eof c hc =>
            rintro rfl
            exact absurd hc (by decide)
      unfold istreamSetBase
      rw [if_neg h48]
      exact ⟨rfl, rfl, h.mono (hdigit 10)⟩
  | octal hb hx hX =>
      subst hb
      rw [List.singleton_append] at h
      cases h with
      | char =>
          cases u with
          | nil => exact ⟨rfl, rfl, Istream.At.eof 0 (by decide)⟩
          | cons d u =>
              have hd : ¬(d = 120 ∨ d = 88) := by
                rintro (rfl | rfl)
                · exact hx rfl
                · exact hX rfl
              have hscan : istreamSetBase .other (.ofList (d :: u)) 48
                  = ⟨8, true, .ofList u, d⟩ := by
                simp [istreamSetBase, Istream.get, Istream.ofList, Istream.good, hd]
              rw [hscan]
              exact ⟨rfl, rfl, Istream.At.char d u⟩
  | hexadecimal hb x hx =>
      subst hb
      rw [List.cons_append, List.singleton_append] at h
      cases h with
      | char =>
          have hscan : istreamSetBase .other (.ofList (x :: u)) 48
              = ⟨16, false, ((Istream.ofList u).get x).1, ((Istream.ofList u).get x).2⟩ := by
            simp [istreamSetBase, Istream.get, Istream.ofList, Istream.good, hx]
          rw [hscan]
          refine ⟨rfl, rfl, Istream.at_get u ?_⟩
          rcases hx with rfl | rfl <;> decide

/-- Every text has a sign, or none. -/
theorem exists_signed (u : List UInt8) : ∃ sgn v, u = sgn ++ v ∧ Signed v sgn := by
  by_cases hminus : u.head? = some 45
  · obtain ⟨v, rfl⟩ := List.head?_eq_some_iff.mp hminus
    exact ⟨[45], v, rfl, Signed.minus⟩
  · by_cases hplus : u.head? = some 43
    · obtain ⟨v, rfl⟩ := List.head?_eq_some_iff.mp hplus
      exact ⟨[43], v, rfl, Signed.plus⟩
    · exact ⟨[], u, rfl, Signed.none hminus hplus⟩

/-- Every text has a prefix, or none, for every base field. -/
theorem exists_prefixed (basefield : Basefield) (u : List UInt8) :
    ∃ pre base zero v, u = pre ++ v ∧ Prefixed basefield v pre base zero := by
  cases basefield with
  | dec => exact ⟨[], 10, false, u, rfl, Prefixed.dec rfl⟩
  | hex => exact ⟨[], 16, false, u, rfl, Prefixed.hex rfl⟩
  | oct => exact ⟨[], 8, false, u, rfl, Prefixed.oct rfl⟩
  | other =>
      by_cases hzero : u.head? = some 48
      · obtain ⟨v, rfl⟩ := List.head?_eq_some_iff.mp hzero
        by_cases hx : v.head? = some 120
        · obtain ⟨w, rfl⟩ := List.head?_eq_some_iff.mp hx
          exact ⟨[48, 120], 16, false, w, rfl, Prefixed.hexadecimal rfl 120 (Or.inl rfl)⟩
        · by_cases hX : v.head? = some 88
          · obtain ⟨w, rfl⟩ := List.head?_eq_some_iff.mp hX
            exact ⟨[48, 88], 16, false, w, rfl, Prefixed.hexadecimal rfl 88 (Or.inr rfl)⟩
          · exact ⟨[48], 8, true, v, rfl, Prefixed.octal rfl hx hX⟩
      · exact ⟨[], 10, false, u, rfl, Prefixed.decimal rfl hzero⟩

theorem Prefixed.base_mem (h : Prefixed basefield u pre base zero) :
    ∃ b : ℕ, base = b ∧ b ∈ [8, 10, 16] := by
  cases h
  · exact ⟨10, rfl, by decide⟩
  · exact ⟨16, rfl, by decide⟩
  · exact ⟨8, rfl, by decide⟩
  · exact ⟨10, rfl, by decide⟩
  · exact ⟨8, rfl, by decide⟩
  · exact ⟨16, rfl, by decide⟩

end

/-! ### The number -/

section

variable {L : Library} {A : Allocator} {o : Ios} {s : Store} {i : Istream} {z : ℕ} {zm : MpzStruct}
  {c : UInt8} {sgn pre l tail : List UInt8} {base : ℤ} {zero : Bool}

/-- A text as the scanners see it: a sign, what the scanner of the base takes, the digits, and
a tail that does not go on with digits. -/
structure NumberText (o : Ios) (sgn pre l tail : List UInt8) (base : ℤ) (zero : Bool) : Prop where
  signed : Signed (pre ++ (l ++ tail)) sgn
  prefixed : Prefixed o.basefield (l ++ tail) pre base zero
  digits : ∀ d ∈ l, isDigitOf base d = true
  ends : ∀ d ∈ tail.head?, isDigitOf base d = false

/-- Every text is one. -/
theorem exists_numberText (o : Ios) (u : List UInt8) :
    ∃ sgn pre l tail base zero, u = sgn ++ (pre ++ (l ++ tail)) ∧
      NumberText o sgn pre l tail base zero := by
  obtain ⟨sgn, v, rfl, hsigned⟩ := exists_signed u
  obtain ⟨pre, base, zero, w, rfl, hprefixed⟩ := exists_prefixed o.basefield v
  have hw : w.takeWhile (isDigitOf base) ++ w.dropWhile (isDigitOf base) = w :=
    List.takeWhile_append_dropWhile
  refine ⟨sgn, pre, w.takeWhile (isDigitOf base), w.dropWhile (isDigitOf base), base, zero,
    by rw [hw], ⟨by rwa [hw], by rwa [hw], fun d hd => List.mem_takeWhile_imp hd, ?_⟩⟩
  intro d hd
  have h := List.head?_dropWhile_not (isDigitOf base) w
  rw [Option.mem_def] at hd
  rw [hd] at h
  simpa using h

/-- **The scanners** find the digits, and leave the stream behind them. -/
theorem istreamNowhite_scan (h : NumberText o sgn pre l tail base zero)
    (hat : i.At Blank c (sgn ++ (pre ++ (l ++ tail)))) :
    if l ≠ [] then
      istreamNowhite L A o s i z c = (mpzSetStr L.estimates L.mul A s z
        ((if sgn = [45] then [45] else []) ++ l ++ [0]) base).map fun r => (r.2, .ofList tail)
    else if zero then
      istreamNowhite L A o s i z c = (mpzSetUi s z 0).map fun s => (s, .ofList tail)
    else ∃ i', istreamNowhite L A o s i z c = some (s, i') ∧ i'.fail = true := by
  obtain ⟨hp, hminus⟩ := h.signed.at hat
  unfold istreamNowhite
  rw [hminus]
  generalize (if c = 45 ∨ c = 43 then i.get c else (i, c)) = p at hp ⊢
  have hscan := h.prefixed.at hp
  dsimp only
  generalize istreamSetBase o.basefield p.1 p.2 = b at hscan ⊢
  obtain ⟨rfl, rfl, hb⟩ := hscan
  obtain ⟨hl, ht⟩ := hb.getWhile (p := isDigitOf b.base) fun _ => id
  have htake : (l ++ tail).takeWhile (isDigitOf b.base) = l := by
    rw [List.takeWhile_append_of_pos h.digits]
    cases htail : tail with
    | nil => exact List.append_nil l
    | cons d tail =>
        have hd := h.ends d (by rw [htail]; rfl)
        rw [List.takeWhile_cons, hd, if_neg Bool.false_ne_true, List.append_nil]
  have hdrop : (l ++ tail).dropWhile (isDigitOf b.base) = tail := by
    have hall := List.takeWhile_append_dropWhile (p := isDigitOf b.base) (l := l ++ tail)
    rw [htake] at hall
    exact List.append_cancel_left hall
  rw [htake] at hl
  rw [hdrop] at ht
  rw [hl]
  by_cases hnil : l = []
  · rw [if_neg (not_not_intro hnil)]
    cases hz : b.zero with
    | true =>
        rw [Bool.or_true, ht.finish, if_pos rfl, if_neg (not_not_intro hnil), if_pos rfl]
        cases mpzSetUi s z 0 <;> rfl
    | false =>
        rw [if_neg Bool.false_ne_true, if_neg (not_not_intro hnil), if_neg Bool.false_ne_true]
        exact ⟨_, rfl, rfl⟩
  · have hcounts : (!l.isEmpty || b.zero) = true := by simp [hnil]
    rw [hcounts, ht.finish, if_pos hnil, if_pos hnil]
    cases mpzSetStr L.estimates L.mul A s z ((if sgn = [45] then [45] else []) ++ l ++ [0])
      b.base <;> rfl

end

/-! ### The round trip -/

/-- The base that the flags of a stream mean, for printing. -/
def Ios.base (o : Ios) : ℕ :=
  match o.basefield with
  | .hex => 16
  | .oct => 8
  | .dec => 10
  | .other => 10

/-- What `o` prints `g` can read: the flags agree on the base and there is no prefix that
reading does not know, or `g` finds the base itself. -/
def Readable (o g : Ios) : Prop :=
  if g.basefield = .other then o.base = 10 ∨ o.showbase
  else g.base = o.base ∧ ¬(o.basefield = .hex ∧ o.showbase)

instance (o g : Ios) : Decidable (Readable o g) := by
  unfold Readable
  infer_instance

section

variable {o g : Ios} {z : ℤ} {c : UInt8}

theorem showBase_ostreamParams (o : Ios) : showBase (ostreamParams o).base = o.base := by
  unfold ostreamParams doprntParamsFromIos Ios.base showBase
  cases o.basefield <;> cases o.uppercase <;> rfl

private theorem isDigitOf_checked : ∀ b ∈ [8, 10, 16], ∀ c < 256,
    isDigitOf (b : ℕ) (UInt8.ofNat c) = decide (digitOf (b : ℕ) (UInt8.ofNat c) < b) := by
  decide +kernel

/-- **The characters that are read for a base** are its digits. -/
theorem isDigitOf_eq {b : ℕ} (hb : b ∈ [8, 10, 16]) (c : UInt8) :
    isDigitOf b c = decide (digitOf b c < b) := by
  have h := isDigitOf_checked b hb c.toNat c.toNat_lt
  rwa [UInt8.ofNat_toNat] at h

theorem Ios.base_mem (o : Ios) : o.base ∈ [8, 10, 16] := by
  unfold Ios.base
  cases o.basefield <;> decide

theorem Ios.base_bounds (o : Ios) : 0 < o.base ∧ o.base ≤ 62 := by
  unfold Ios.base
  cases o.basefield <;> decide

/-- Sign, base and digits of a number that is printed. -/
def printed (o : Ios) (z : ℤ) : List UInt8 :=
  signOf (ostreamParams o) z ++ (baseOf (ostreamParams o) z ++ digitsOfInt (ostreamParams o).base z)

/-- The digits are digits of the base, and the first is no zero unless it is the only one. -/
theorem digitsOfInt_digits (o : Ios) (z : ℤ) :
    digitsOfInt (ostreamParams o).base z ≠ [] ∧
      (∀ c ∈ digitsOfInt (ostreamParams o).base z, isDigitOf o.base c = true) ∧
      ((digitsOfInt (ostreamParams o).base z).head? = some 48 ↔ z = 0) := by
  obtain ⟨hne, hdig, hzero⟩ := digitsOfInt_spec (ostreamParams_printable o) z
  rw [showBase_ostreamParams] at hdig
  refine ⟨hne, fun c hc => ?_, hzero⟩
  rw [isDigitOf_eq o.base_mem, decide_eq_true (hdig c hc)]

theorem digitsOfInt_zero (base : ℤ) (h : Printable base) : digitsOfInt base 0 = [48] := by
  have hhead := (digitsOfInt_spec h 0).2.2.mpr rfl
  have hlen : (digitsOfInt base 0).length = 1 := by simp [digitsOfInt, showNat]
  obtain ⟨c, hc⟩ := List.length_eq_one_iff.mp hlen
  rw [hc, List.head?_cons] at hhead
  rw [hc, Option.some.inj hhead]

theorem readInteger_digits (o : Ios) (z : ℤ) :
    readInteger o.base ((if z < 0 then [45] else []) ++ digitsOfInt (ostreamParams o).base z)
      = some z := by
  have h := readInteger_showInteger (ostreamParams_printable o) z
  rwa [showBase_ostreamParams, showInteger_eq] at h

/-- The sign that is printed. -/
theorem signOf_signed (o : Ios) (z : ℤ) {u : List UInt8}
    (hu : ∀ c ∈ u.head?, isalnum c = true) :
    Signed u (signOf (ostreamParams o) z) ∧ (signOf (ostreamParams o) z = [45] ↔ z < 0) := by
  have hminus : u.head? ≠ some 45 := fun h => absurd (hu 45 h) (by decide)
  have hplus : u.head? ≠ some 43 := fun h => absurd (hu 43 h) (by decide)
  unfold signOf ostreamParams doprntParamsFromIos
  dsimp only
  by_cases hz : z < 0
  · rw [if_pos hz]
    exact ⟨Signed.minus, iff_of_true rfl hz⟩
  · rw [if_neg hz]
    cases o.showpos with
    | true => exact ⟨Signed.plus, iff_of_false (by simp) hz⟩
    | false => exact ⟨Signed.none hminus hplus, iff_of_false (by simp) hz⟩

theorem isalnum_spec (h : isalnum c = true) : isspace c = false ∧ c ≠ 45 := by
  constructor
  · by_contra hs
    rw [Bool.not_eq_false] at hs
    unfold isspace at hs
    unfold isalnum at h
    simp only [Bool.or_eq_true, Bool.and_eq_true, decide_eq_true_eq, beq_iff_eq,
      UInt8.le_iff_toNat_le, UInt8.reduceToNat, ← UInt8.toNat_inj] at h hs
    omega
  · rintro rfl
    exact absurd h (by decide)

theorem isalnum_of_isDigitOf {base : ℤ} (h : isDigitOf base c = true) : isalnum c = true := by
  by_contra hs
  rw [Bool.not_eq_true] at hs
  rw [isDigitOf_of_not_isalnum base hs] at h
  exact Bool.false_ne_true h

/-- A zero in front of digits. -/
theorem readInteger_zero_cons (o : Ios) (neg : Prop) [Decidable neg] {l : List UInt8}
    (hne : l ≠ []) (hl : ∀ c ∈ l, isDigitOf o.base c = true) :
    readInteger o.base ((if neg then [45] else []) ++ 48 :: l)
      = readInteger o.base ((if neg then [45] else []) ++ l) := by
  obtain ⟨c, l, rfl⟩ := List.exists_cons_of_ne_nil hne
  have hc := hl c List.mem_cons_self
  obtain ⟨hspace, hminus⟩ := isalnum_spec (isalnum_of_isDigitOf hc)
  rw [isDigitOf_eq o.base_mem, decide_eq_true_eq] at hc
  obtain ⟨hpos, hle⟩ := o.base_bounds
  have h62 : (o.base : ℤ) ≤ 62 := by exact_mod_cast hle
  have hbase : (o.base : ℤ) ≠ 0 := by omega
  have h48 : isspace 48 = false := by decide
  rw [readInteger_signed neg (by simpa using h48) (by simp),
    readInteger_signed neg (by simpa using hspace) (by simpa using hminus)]
  congr 1
  unfold readUnsigned splitPrefix
  simp only [if_neg hbase, digitOf_eq_zero.mpr rfl, Int.toNat_natCast]
  rw [if_pos ⟨h62, by exact_mod_cast hpos⟩, if_pos ⟨h62, by exact_mod_cast hc⟩,
    readNat_dropWhile hpos (48 :: c :: l), readNat_dropWhile hpos (c :: l)]
  rfl

/-- The base that is printed in front. -/
theorem baseOf_ostreamParams (o : Ios) (z : ℤ) :
    baseOf (ostreamParams o) z =
      if o.showbase then
        if o.basefield = .hex then [48, if o.uppercase then 88 else 120]
        else if o.basefield = .oct ∧ z ≠ 0 then [48]
        else []
      else ([] : List UInt8) := by
  unfold baseOf showbasePrefix ostreamParams doprntParamsFromIos
  cases o.showbase <;> cases o.basefield <;> cases o.uppercase <;> by_cases hz : z = 0 <;>
    simp [hz] <;> decide

/-- The scanners take `text` for a number of the value `z` when `tail` comes after it. -/
def ReadsAs (g : Ios) (text tail : List UInt8) (z : ℤ) : Prop :=
  ∃ sgn pre l base zero, text = sgn ++ (pre ++ l) ∧ NumberText g sgn pre l tail base zero ∧
    (l = [] → zero = true ∧ z = 0) ∧
    (l ≠ [] → readInteger base ((if sgn = [45] then [45] else []) ++ l) = some z)

/-- Digits behind a sign and what the scanner of the base takes. -/
theorem readsAs_digits (o : Ios) {pre l tail : List UInt8} {base : ℤ} {zero : Bool} (hne : l ≠ [])
    (hl : ∀ c ∈ l, isDigitOf base c = true) (htail : ∀ c ∈ tail.head?, isalnum c = false)
    (hpre : Prefixed g.basefield (l ++ tail) pre base zero)
    (hz : readInteger base ((if z < 0 then [45] else []) ++ l) = some z) :
    ReadsAs g (signOf (ostreamParams o) z ++ (pre ++ l)) tail z := by
  have hhead : ∀ c ∈ (pre ++ (l ++ tail)).head?, isalnum c = true := by
    intro c hc
    obtain ⟨d, l, rfl⟩ := List.exists_cons_of_ne_nil hne
    have hd := isalnum_of_isDigitOf (hl d List.mem_cons_self)
    have h48 : isalnum 48 = true := by decide
    cases hpre <;> simp at hc <;> rw [← hc] <;> assumption
  obtain ⟨hsigned, hminus⟩ := signOf_signed o z hhead
  refine ⟨_, pre, l, base, zero, rfl, ⟨hsigned, hpre, hl, ?_⟩, ?_, ?_⟩
  · exact fun d hd => isDigitOf_of_not_isalnum base (htail d hd)
  · exact fun hnil => absurd hnil hne
  · intro _
    simp only [hminus]
    exact hz

/-- A zero alone. -/
theorem readsAs_zero (o : Ios) {tail : List UInt8} (hother : g.basefield = .other)
    (htail : ∀ c ∈ tail.head?, isalnum c = false) :
    ReadsAs g (signOf (ostreamParams o) 0 ++ [48]) tail 0 := by
  have hhead : ∀ x : UInt8, isalnum x = true → tail.head? ≠ some x := fun x hx h => by
    rw [htail x h] at hx
    exact Bool.false_ne_true hx
  have hsigned := (signOf_signed o 0 (u := 48 :: tail) fun c hc => by
    rw [List.head?_cons, Option.mem_def, Option.some.injEq] at hc
    rw [← hc]
    decide).1
  refine ⟨_, [48], [], 8, true, rfl, ⟨hsigned, ?_, ?_, ?_⟩, fun _ => ⟨rfl, rfl⟩, ?_⟩
  · exact Prefixed.octal hother (hhead 120 (by decide)) (hhead 88 (by decide))
  · exact fun d hd => absurd hd List.not_mem_nil
  · exact fun d hd => isDigitOf_of_not_isalnum 8 (htail d hd)
  · exact fun h => absurd rfl h

/-- A number is read by a stream that prescribes its base. -/
theorem printed_given (hother : g.basefield ≠ .other) (hgo : g.base = o.base)
    (hhex : ¬(o.basefield = .hex ∧ o.showbase)) (z : ℤ) {tail : List UInt8}
    (htail : ∀ c ∈ tail.head?, isalnum c = false) : ReadsAs g (printed o z) tail z := by
  obtain ⟨hne, hdig, -⟩ := digitsOfInt_digits o z
  have hread := readInteger_digits o z
  have hzero := readInteger_zero_cons o (z < 0) hne hdig
  have hpre : ∀ u, Prefixed g.basefield u [] o.base false := by
    intro u
    rw [← hgo]
    unfold Ios.base
    cases hg : g.basefield with
    | dec => exact Prefixed.dec rfl
    | oct => exact Prefixed.oct rfl
    | hex => exact Prefixed.hex rfl
    | other => exact absurd hg hother
  unfold printed
  rw [baseOf_ostreamParams]
  by_cases hshow : o.showbase = true ∧ o.basefield = .oct ∧ z ≠ 0
  · -- The zero in front is read as a digit.
    obtain ⟨hsb, hoct, hz⟩ := hshow
    rw [if_pos hsb, if_neg (by rw [hoct]; nofun), if_pos ⟨hoct, hz⟩]
    show ReadsAs g (_ ++ ([] ++ 48 :: _)) tail z
    refine readsAs_digits o (List.cons_ne_nil 48 _) ?_ htail (hpre _) ?_
    · intro c hc
      rcases List.mem_cons.mp hc with rfl | hc
      · rw [isDigitOf_eq o.base_mem, decide_eq_true_eq, digitOf_eq_zero.mpr rfl]
        exact o.base_bounds.1
      · exact hdig c hc
    · exact hzero.trans hread
  · have hnil : (if o.showbase = true then
          if o.basefield = .hex then [48, if o.uppercase then 88 else 120]
          else if o.basefield = .oct ∧ z ≠ 0 then [48] else []
        else ([] : List UInt8)) = [] := by
      by_cases hsb : o.showbase = true
      · rw [if_pos hsb, if_neg fun h => hhex ⟨h, hsb⟩, if_neg fun h => hshow ⟨hsb, h⟩]
      · rw [if_neg hsb]
    rw [hnil]
    exact readsAs_digits o hne hdig htail (hpre _) hread

/-- A number is read by a stream that finds the base itself. -/
theorem printed_detected (hother : g.basefield = .other) (hbase : o.base = 10 ∨ o.showbase = true)
    (z : ℤ) {tail : List UInt8} (htail : ∀ c ∈ tail.head?, isalnum c = false) :
    ReadsAs g (printed o z) tail z := by
  obtain ⟨hne, hdig, hhead⟩ := digitsOfInt_digits o z
  have hread := readInteger_digits o z
  unfold printed
  rw [baseOf_ostreamParams]
  by_cases hhex : o.showbase = true ∧ o.basefield = .hex
  · have h16 : (o.base : ℤ) = 16 := by rw [Ios.base, hhex.2]; rfl
    rw [h16] at hdig hread
    rw [if_pos hhex.1, if_pos hhex.2]
    refine readsAs_digits o hne hdig htail (Prefixed.hexadecimal hother _ ?_) hread
    cases o.uppercase
    · exact Or.inl rfl
    · exact Or.inr rfl
  · by_cases hz : z = 0
    · subst hz
      have hnil : (if o.showbase = true then
            if o.basefield = .hex then [48, if o.uppercase then 88 else 120]
            else if o.basefield = .oct ∧ (0 : ℤ) ≠ 0 then [48] else []
          else ([] : List UInt8)) = [] := by
        by_cases hsb : o.showbase = true
        · rw [if_pos hsb, if_neg fun h => hhex ⟨hsb, h⟩, if_neg fun h => h.2 rfl]
        · rw [if_neg hsb]
      rw [hnil, List.nil_append, digitsOfInt_zero _ (ostreamParams_printable o)]
      exact readsAs_zero o hother htail
    · by_cases hoct : o.showbase = true ∧ o.basefield = .oct
      · have h8 : (o.base : ℤ) = 8 := by rw [Ios.base, hoct.2]; rfl
        rw [h8] at hdig hread
        rw [if_pos hoct.1, if_neg fun h => hhex ⟨hoct.1, h⟩, if_pos ⟨hoct.2, hz⟩]
        have hx : ∀ x : UInt8, isDigitOf 8 x = false →
            (digitsOfInt (ostreamParams o).base z ++ tail).head? ≠ some x := by
          intro x hx h
          obtain ⟨d, l, hl⟩ := List.exists_cons_of_ne_nil hne
          rw [hl, List.cons_append, List.head?_cons, Option.some.injEq] at h
          have hd := hdig d (by rw [hl]; exact List.mem_cons_self)
          rw [h, hx] at hd
          exact Bool.false_ne_true hd
        exact readsAs_digits o hne hdig htail
          (Prefixed.octal hother (hx 120 (by decide)) (hx 88 (by decide))) hread
      · have h10 : (o.base : ℤ) = 10 := by
          rcases hbase with h | hsb
          · rw [h]
            rfl
          · unfold Ios.base
            cases hb : o.basefield with
            | hex => exact absurd ⟨hsb, hb⟩ hhex
            | oct => exact absurd ⟨hsb, hb⟩ hoct
            | dec => rfl
            | other => rfl
        have hnil : (if o.showbase = true then
              if o.basefield = .hex then [48, if o.uppercase then 88 else 120]
              else if o.basefield = .oct ∧ z ≠ 0 then [48] else []
            else ([] : List UInt8)) = [] := by
          by_cases hsb : o.showbase = true
          · rw [if_pos hsb, if_neg fun h => hhex ⟨hsb, h⟩, if_neg fun h => hoct ⟨hsb, h.1⟩]
          · rw [if_neg hsb]
        have hfirst : (digitsOfInt (ostreamParams o).base z ++ tail).head? ≠ some 48 := by
          intro h
          obtain ⟨d, l, hl⟩ := List.exists_cons_of_ne_nil hne
          rw [hl, List.cons_append, List.head?_cons] at h
          rw [hl, List.head?_cons] at hhead
          exact hz (hhead.mp h)
        rw [h10] at hdig hread
        rw [hnil]
        exact readsAs_digits o hne hdig htail (Prefixed.decimal hother hfirst) hread

/-- **What is printed reads as the number.** -/
theorem printed_readsAs (hread : Readable o g) (z : ℤ) {tail : List UInt8}
    (htail : ∀ c ∈ tail.head?, isalnum c = false) : ReadsAs g (printed o z) tail z := by
  unfold Readable at hread
  by_cases hother : g.basefield = .other
  · rw [if_pos hother] at hread
    exact printed_detected hother hread z htail
  · rw [if_neg hother] at hread
    exact printed_given hother hread.1 hread.2 z htail

end

section

variable {L : Library} {A : Allocator} {o g : Ios} {s : Store} {z : ℕ} {x zm : MpzStruct}
  {i : Istream} {c : UInt8} {text tail : List UInt8} {n : ℤ}

/-- The string that is handed to `mpz_set_str` is no longer than the text. -/
theorem length_signed_le (sgn pre l : List UInt8) :
    ((if sgn = [45] then [45] else []) ++ l).length ≤ (sgn ++ (pre ++ l)).length := by
  simp only [List.length_append]
  by_cases hminus : sgn = [45]
  · rw [if_pos hminus, ← hminus]
    omega
  · rw [if_neg hminus, List.length_nil]
    omega

/-- A text that reads as a number is read. -/
theorem istreamNowhite_reads (hs : s.Valid) (hz : s z = some zm) (h : ReadsAs g text tail n)
    (hnul : 0 ∉ text) (hlen : text.length ≤ L.estimates.limit) (hat : i.At Blank c (text ++ tail)) :
    ∃ s', istreamNowhite L A g s i z c = some (s', .ofList tail) ∧ Assigns s z n (some s') := by
  obtain ⟨sgn, pre, l, base, zero, rfl, htext, hzero, hread⟩ := h
  have hscan := istreamNowhite_scan (L := L) (A := A) (s := s) (z := z) htext (by simpa using hat)
  by_cases hnil : l = []
  · obtain ⟨m, hm, hvalid, hval⟩ := mpzSetUi_assigns hs hz 0
    rw [if_neg (not_not_intro hnil), if_pos (hzero hnil).1, hm] at hscan
    refine ⟨_, hscan, m, rfl, hvalid, ?_⟩
    rw [hval, (hzero hnil).2]
    rfl
  · have hstr : 0 ∉ (if sgn = [45] then [45] else []) ++ l := by
      intro hmem
      rcases List.mem_append.mp hmem with hmem | hmem
      · split_ifs at hmem <;> simp at hmem
      · exact hnul (by simp [hmem])
    have hstrlen := (length_signed_le sgn pre l).trans hlen
    have hreads : Reads s z
        (mpzSetStr L.estimates L.mul A s z (((if sgn = [45] then [45] else []) ++ l) ++ [0]) base)
        (readInteger base ((if sgn = [45] then [45] else []) ++ l)) :=
      mpzSetStr_reads hs hz hstr hstrlen
    rw [hread hnil] at hreads
    obtain ⟨s', hs', hassigns⟩ := hreads
    rw [if_pos hnil, hs'] at hscan
    exact ⟨s', hscan, hassigns⟩

/-- White space in front of a text is skipped. -/
theorem istream_skip (u : List UInt8) :
    (((Istream.ofList u).get 0).1.getWhile isspace ((Istream.ofList u).get 0).2).2.1.At Blank
      (((Istream.ofList u).get 0).1.getWhile isspace ((Istream.ofList u).get 0).2).2.2
      (u.dropWhile isspace) := by
  have hat : ((Istream.ofList u).get 0).1.At (fun c => c = 0) ((Istream.ofList u).get 0).2 u :=
    Istream.at_get u rfl
  have hzero : ∀ c : UInt8, c = 0 → isspace c = false := by
    rintro c rfl
    decide
  refine (hat.getWhile hzero).2.mono fun c hc => ?_
  rcases hc with hc | rfl
  · refine ⟨?_, ?_, ?_⟩
    · by_contra h
      rw [Bool.not_eq_false] at h
      rw [(isalnum_spec h).1] at hc
      exact Bool.false_ne_true hc
    · rintro rfl
      exact absurd hc (by decide)
    · rintro rfl
      exact absurd hc (by decide)
  · exact ⟨by decide, by decide, by decide⟩

theorem signOf_eq (o : Ios) (n : ℤ) :
    signOf (ostreamParams o) n = [] ∨ signOf (ostreamParams o) n = [45] ∨
      signOf (ostreamParams o) n = [43] := by
  unfold signOf ostreamParams doprntParamsFromIos
  cases o.showpos <;> by_cases hn : n < 0 <;> simp [hn]

/-- The characters that are printed are no white space and do not end the string. -/
theorem printed_chars (o : Ios) (n : ℤ) :
    printed o n ≠ [] ∧ ∀ c ∈ printed o n, isspace c = false ∧ c ≠ 0 := by
  obtain ⟨hne, hdig, -⟩ := digitsOfInt_digits o n
  have halnum : ∀ c, isalnum c = true → isspace c = false ∧ c ≠ 0 := by
    intro c hc
    refine ⟨(isalnum_spec hc).1, ?_⟩
    rintro rfl
    exact absurd hc (by decide)
  refine ⟨by simp [printed, hne], fun c hc => ?_⟩
  unfold printed at hc
  rw [List.mem_append, List.mem_append, baseOf_ostreamParams] at hc
  rcases hc with hc | hc | hc
  · rcases signOf_eq o n with h | h | h <;> rw [h] at hc
    · exact absurd hc List.not_mem_nil
    · rw [List.mem_singleton.mp hc]
      decide
    · rw [List.mem_singleton.mp hc]
      decide
  · split_ifs at hc <;> simp at hc
    · rcases hc with hc | hc <;> rw [hc] <;> decide
    · rcases hc with hc | hc <;> rw [hc] <;> decide
    · rw [hc]
      decide
  · exact halnum c (isalnum_of_isDigitOf (hdig c hc))

/-- **`operator>>` reads what `operator<<` printed**: the integer is assigned and the stream
is left behind its characters. -/
theorem istreamMpz_reads (hs : s.Valid) (hx : x.Valid) (hz : s z = some zm)
    (hread : Readable o g) (hskip : g.skipws = true) (hfill : isspace o.fill = true)
    (hadjust : o.adjustfield ≠ .internal) (hsize : 64 * x.size.natAbs ≤ L.estimates.limit)
    (htail : ∀ c ∈ tail.head?, isalnum c = false) {o' : Ios}
    (hout : ostreamMpz L o x = some (text, o')) (hlen : text.length ≤ L.estimates.limit) :
    ∃ s' k, istreamMpz L A g s (.ofList (text ++ tail)) z
        = some (s', .ofList (List.replicate k o.fill ++ tail)) ∧
      Assigns s z x.toInt (some s') := by
  rw [ostreamMpz_prints hx hsize, Option.some.injEq, Prod.mk.injEq,
    doprntInteger_eq rfl (ostreamParams_printable o)] at hout
  have hinternal : padding (ostreamParams o) x.toInt .internal = [] := by
    have hj : (ostreamParams o).justify ≠ .internal := by
      unfold ostreamParams doprntParamsFromIos
      dsimp only
      cases ha : o.adjustfield with
      | left => nofun
      | internal => exact absurd ha hadjust
      | other => nofun
    rw [padding, if_neg hj]
  have hpad : ∀ j, ∃ k, padding (ostreamParams o) x.toInt j = List.replicate k o.fill := by
    intro j
    unfold padding
    split_ifs
    · exact ⟨_, rfl⟩
    · exact ⟨0, rfl⟩
  obtain ⟨a, hright⟩ := hpad .right
  obtain ⟨b, hleft⟩ := hpad .left
  have htext : text = List.replicate a o.fill ++ (printed o x.toInt ++ List.replicate b o.fill) := by
    rw [← hout.1, hinternal, hright, hleft, printed]
    simp only [List.append_assoc, List.append_nil]
  obtain ⟨hne, hchars⟩ := printed_chars o x.toInt
  have htail' : ∀ c ∈ (List.replicate b o.fill ++ tail).head?, isalnum c = false := by
    cases b with
    | zero => exact htail
    | succ b =>
        intro c hc
        rw [List.replicate_succ, List.cons_append, List.head?_cons, Option.mem_def,
          Option.some.injEq] at hc
        rw [← hc]
        by_contra hal
        rw [Bool.not_eq_false] at hal
        rw [(isalnum_spec hal).1] at hfill
        exact Bool.false_ne_true hfill
  have hreads := printed_readsAs hread x.toInt htail'
  have hdrop : (List.replicate a o.fill
      ++ (printed o x.toInt ++ (List.replicate b o.fill ++ tail))).dropWhile isspace
      = printed o x.toInt ++ (List.replicate b o.fill ++ tail) := by
    rw [List.dropWhile_append_of_pos fun c hc => by rw [List.eq_of_mem_replicate hc, hfill]]
    obtain ⟨d, l, hl⟩ := List.exists_cons_of_ne_nil hne
    rw [hl] at hchars ⊢
    rw [List.cons_append, List.dropWhile_cons, (hchars d List.mem_cons_self).1,
      if_neg Bool.false_ne_true]
  have hskipped := istream_skip (List.replicate a o.fill
    ++ (printed o x.toInt ++ (List.replicate b o.fill ++ tail)))
  rw [hdrop] at hskipped
  have hplain : (printed o x.toInt).length ≤ L.estimates.limit := by
    rw [htext] at hlen
    simp only [List.length_append] at hlen
    omega
  have hall : text ++ tail
      = List.replicate a o.fill ++ (printed o x.toInt ++ (List.replicate b o.fill ++ tail)) := by
    rw [htext]
    simp only [List.append_assoc]
  unfold istreamMpz
  dsimp only
  rw [hall, if_pos hskip]
  obtain ⟨s', hs', hassigns⟩ := istreamNowhite_reads (L := L) (A := A) hs hz hreads
    (fun hmem => (hchars 0 hmem).2 rfl) hplain hskipped
  exact ⟨s', b, hs', hassigns⟩

/-- `mpz_set_str` accepts the digits that were read, as the assertion around it says. -/
theorem exists_readInteger {b : ℕ} (hb : b ∈ [8, 10, 16]) (neg : Prop) [Decidable neg]
    {l : List UInt8} (hne : l ≠ []) (hl : ∀ c ∈ l, isDigitOf b c = true) :
    ∃ n, readInteger b ((if neg then [45] else []) ++ l) = some n := by
  obtain ⟨c, l, rfl⟩ := List.exists_cons_of_ne_nil hne
  obtain ⟨hspace, hminus⟩ := isalnum_spec (isalnum_of_isDigitOf (hl c List.mem_cons_self))
  have hdigit : ∀ d ∈ c :: l, digitOf b d < b := fun d hd => by
    have h := hl d hd
    rwa [isDigitOf_eq hb, decide_eq_true_eq] at h
  have hc := hdigit c List.mem_cons_self
  have h62 : b ≤ 62 ∧ b ≠ 0 := by
    simp only [List.mem_cons, List.not_mem_nil, or_false] at hb
    omega
  have hbase : (b : ℤ) ≠ 0 := by exact_mod_cast h62.2
  have hunsigned : ∃ n, readUnsigned b (c :: l) = some n := by
    unfold readUnsigned splitPrefix
    simp only [if_neg hbase, Int.toNat_natCast]
    rw [if_pos ⟨by exact_mod_cast h62.1, by exact_mod_cast hc⟩]
    unfold readNat
    dsimp only
    have hall : AllDigits b b ((c :: l).filter fun c => !isspace c) := fun d hd =>
      hdigit d (List.mem_of_mem_filter hd)
    rw [if_pos hall]
    exact ⟨_, rfl⟩
  obtain ⟨n, hn⟩ := hunsigned
  rw [readInteger_signed neg (by simpa using hspace) (by simpa using hminus), hn]
  exact ⟨_, rfl⟩

end

/-! ### Many integers -/

/-- Printing integers one after another, each with a newline behind it. -/
def printLines (L : Library) : List MpzStruct → Ios → Option (List UInt8)
  | [], _ => some []
  | x :: xs, o => do
      let p ← ostreamMpz L o x
      let text ← printLines L xs p.2
      some (p.1 ++ 10 :: text)

/-- Reading variables one after another, each with the allocator that it meets. -/
def readVariables (L : Library) (g : Ios) :
    List (Allocator × ℕ) → Store → Istream → Option (Store × Istream)
  | [], s, i => some (s, i)
  | z :: zs, s, i => do
      let r ← istreamMpz L z.1 g s i z.2
      readVariables L g zs r.1 r.2

section

variable {L : Library} {A : Allocator} {o g : Ios} {s : Store} {z : ℕ} {ws u text : List UInt8}
  {xs : List MpzStruct} {zs : List (Allocator × ℕ)}

/-- The loop over white space comes to the first character behind it. -/
theorem getWhile_isspace {c : UInt8} (hc : isspace c = true) (hws : ∀ d ∈ ws, isspace d = true)
    (d : UInt8) (u : List UInt8) :
    (getWhile isspace c (ws ++ d :: u)).2 = (getWhile isspace d u).2 := by
  induction ws generalizing c with
  | nil => rw [List.nil_append, getWhile, if_pos hc]
  | cons e ws ih =>
      rw [List.cons_append, getWhile, if_pos hc]
      exact ih (hws e List.mem_cons_self) fun x hx => hws x (List.mem_cons_of_mem _ hx)

/-- White space in front of what is read does not matter. -/
theorem istreamMpz_skip (hskip : g.skipws = true) (hws : ∀ c ∈ ws, isspace c = true) (hu : u ≠ []) :
    istreamMpz L A g s (.ofList (ws ++ u)) z = istreamMpz L A g s (.ofList u) z := by
  obtain ⟨d, u, rfl⟩ := List.exists_cons_of_ne_nil hu
  cases ws with
  | nil => rfl
  | cons c ws =>
      have hsame := getWhile_isspace (hws c List.mem_cons_self)
        (fun x hx => hws x (List.mem_cons_of_mem _ hx)) d u
      have hget : ∀ (e : UInt8) (l : List UInt8), (((Istream.ofList (e :: l)).get 0).1.getWhile
          isspace ((Istream.ofList (e :: l)).get 0).2) = getWhile isspace e l := fun _ _ => rfl
      unfold istreamMpz
      dsimp only
      rw [if_pos hskip, if_pos hskip, List.cons_append, hget, hget, hsame]

/-- The lines are read, whatever white space is in front. -/
theorem readVariables_lines (hread : Readable o g) (hskip : g.skipws = true)
    (hfill : isspace o.fill = true) (hadjust : o.adjustfield ≠ .internal)
    (hxs : ∀ x ∈ xs, x.Valid ∧ 64 * x.size.natAbs ≤ L.estimates.limit)
    (hprint : printLines L xs o = some text) (hlen : text.length ≤ L.estimates.limit)
    (hcount : zs.length = xs.length) (hnodup : (zs.map Prod.snd).Nodup) (hs : s.Valid)
    (hz : ∀ p ∈ zs, (s p.2).isSome) (hws : ∀ c ∈ ws, isspace c = true) :
    ∃ s' rest, readVariables L g zs s (.ofList (ws ++ text)) = some (s', .ofList rest) ∧
      (∀ c ∈ rest, isspace c = true) ∧ s'.Valid ∧ (∀ a ∉ zs.map Prod.snd, s' a = s a) ∧
      zs.map (fun p => (s' p.2).map MpzStruct.toInt) = xs.map fun x => some x.toInt := by
  induction xs generalizing o s text ws zs with
  | nil =>
      obtain rfl := List.length_eq_zero_iff.mp hcount
      obtain rfl := Option.some.inj hprint
      exact ⟨s, _, rfl, by simpa using hws, hs, fun _ _ => rfl, rfl⟩
  | cons x xs ih =>
      obtain ⟨⟨A, z⟩, zs, rfl⟩ := List.exists_cons_of_length_eq_add_one hcount
      rw [printLines] at hprint
      simp only [Option.bind_eq_bind, Option.bind_eq_some_iff, Option.some.injEq] at hprint
      obtain ⟨⟨line, o'⟩, hout, lines, hlines, rfl⟩ := hprint
      obtain ⟨hx, hsize⟩ := hxs x List.mem_cons_self
      obtain ⟨zm, hzm⟩ := Option.isSome_iff_exists.mp (hz _ List.mem_cons_self)
      rw [List.map_cons, List.nodup_cons] at hnodup
      obtain ⟨hnot, hnodup⟩ := hnodup
      have ho' : o' = { o with width := 0 } := by
        have h := hout
        rw [ostreamMpz_prints hx hsize, Option.some.injEq, Prod.mk.injEq] at h
        exact h.2.symm
      simp only [List.length_append, List.length_cons] at hlen
      have hnewline : ∀ c ∈ (10 :: lines).head?, isalnum c = false := by
        simp only [List.head?_cons, Option.mem_def, Option.some.injEq]
        rintro c rfl
        decide
      obtain ⟨s₁, k, hfirst, m, hm, hvalid, hval⟩ := istreamMpz_reads (A := A) hs hx hzm hread
        hskip hfill hadjust hsize hnewline hout (by omega)
      obtain rfl := Option.some.inj hm
      have hz' : ∀ p ∈ zs, (Function.update s z (some m) p.2).isSome := by
        intro p hp
        have hne : p.2 ≠ z := fun h => hnot (List.mem_map.mpr ⟨p, hp, h⟩)
        rw [Function.update_of_ne hne]
        exact hz p (List.mem_cons_of_mem _ hp)
      have hws' : ∀ c ∈ List.replicate k o.fill ++ [10], isspace c = true := by
        intro c hc
        rcases List.mem_append.mp hc with hc | hc
        · rw [List.eq_of_mem_replicate hc, hfill]
        · rw [List.mem_singleton.mp hc]
          decide
      obtain ⟨s', rest, hrest, hspace, hvalid', hsame, hvals⟩ := ih (o := o') (by rwa [ho'])
        (by rwa [ho']) (by rwa [ho']) (fun y hy => hxs y (List.mem_cons_of_mem _ hy)) hlines
        (by omega) (by simpa using hcount) hnodup (hs.update hvalid) hz' hws'
      refine ⟨s', rest, ?_, hspace, hvalid', ?_, ?_⟩
      · rw [readVariables, istreamMpz_skip hskip hws (by simp), hfirst, Option.bind_eq_bind,
          Option.bind_some, ← hrest, List.append_assoc]
        rfl
      · intro a ha
        rw [List.map_cons, List.mem_cons, not_or] at ha
        rw [hsame a ha.2, Function.update_of_ne ha.1]
      · rw [List.map_cons, List.map_cons, hvals, hsame z hnot, Function.update_self,
          Option.map_some, hval]

end

end Mpir
end SecureDesign
