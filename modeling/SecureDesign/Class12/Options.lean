/-
# What an argument vector means

The options of `class12/cli.cpp` are `-t` and `-n`, each with a value after it.
Read from left to right, a token stands in flag position or in value position:
a flag in flag position puts the next token in value position, a token in value
position is consumed whatever it looks like, and any other token is ignored.
`parse` is that two-state reader.

`scan` looks at every token as a possible flag and takes the next one as its
value without stepping over it; it is what a loop does that looks one token
ahead and advances by one.  It has no result where a flag stands last.  The two
agree exactly when every flag is followed by a token that is not one itself:
`scan_eq_parse` is one direction, and counting the flags is the other, since
`scan` reports each of them (`length_scan`) and `parse` only those not consumed
as values (`length_parseFrom_le`, `plain_of_length_parseFrom`).
-/

import SecureDesign.CLang.Buffer

namespace SecureDesign
namespace Class12

open CLang

/-- The options of the program. -/
inductive Flag
  | t
  | n
  deriving DecidableEq, Repr

/-- The token `"-t"`. -/
def dashT : CString := ⟨ascii "-t", by decide⟩

/-- The token `"-n"`. -/
def dashN : CString := ⟨ascii "-n", by decide⟩

/-- The option a token spells, if any. -/
def flag? (token : CString) : Option Flag :=
  if token = dashT then some .t else if token = dashN then some .n else none

/-- The left-to-right reading of the tokens; the state is the option whose value
comes next, `none` in flag position. -/
def parseFrom : Option Flag → List CString → List (Flag × CString)
  | _, [] => []
  | some k, v :: rest => (k, v) :: parseFrom none rest
  | none, token :: rest => parseFrom (flag? token) rest

/-- The options of a token list with their values, in order. -/
def parse (tokens : List CString) : List (Flag × CString) := parseFrom none tokens

/-- Every token that spells an option, with the token after it; nothing when
there is none after it. -/
def scan : List CString → Option (List (Flag × CString))
  | [] => some []
  | token :: rest =>
      match flag? token with
      | none => scan rest
      | some k => rest.head?.bind fun v => (scan rest).map fun ps => (k, v) :: ps

/-- Every token that spells an option is followed by one that does not. -/
def Plain (tokens : List CString) : Prop :=
  ∀ i token, tokens[i]? = some token → flag? token ≠ none →
    ∃ v, tokens[i + 1]? = some v ∧ flag? v = none

/-- Every token that spells an option stands after the program name and is
followed by one that spells none. -/
def Unambiguous (argv : List CString) : Prop :=
  ∀ i token, argv[i]? = some token → flag? token ≠ none →
    0 < i ∧ ∃ v, argv[i + 1]? = some v ∧ flag? v = none

/-- How many tokens spell an option. -/
def flags (tokens : List CString) : ℕ := tokens.countP fun token => (flag? token).isSome

section

variable {token : CString} {rest tokens : List CString} {k : Flag} {ps : List (Flag × CString)}

theorem flag?_eq_none_iff : flag? token = none ↔ token ≠ dashT ∧ token ≠ dashN := by
  unfold flag?
  split_ifs with ht hn <;> simp_all

theorem flag?_eq_some (h : flag? token = some k) :
    k = .t ∧ token = dashT ∨ k = .n ∧ token = dashN := by
  unfold flag? at h
  split_ifs at h with ht hn
  · exact .inl ⟨(Option.some.inj h).symm, ht⟩
  · exact .inr ⟨(Option.some.inj h).symm, hn⟩

theorem flags_cons (token : CString) (rest : List CString) :
    flags (token :: rest) = flags rest + (flag? token).isSome.toNat := by
  cases h : flag? token <;> simp [flags, h]

theorem scan_cons_none (h : flag? token = none) : scan (token :: rest) = scan rest := by
  rw [scan, h]

theorem scan_cons_some (h : flag? token = some k) :
    scan (token :: rest) = rest.head?.bind fun v => (scan rest).map fun ps => (k, v) :: ps := by
  rw [scan, h]

theorem parse_cons_none (h : flag? token = none) : parse (token :: rest) = parse rest := by
  rw [parse, parseFrom, h, parse]

theorem parse_cons_some (h : flag? token = some k) (v : CString) :
    parse (token :: v :: rest) = (k, v) :: parse rest := by
  rw [parse, parseFrom, h, parseFrom, parse]

theorem plain_nil : Plain [] := fun _ _ h => by simp at h

/-- A token list is plain when its tail is, and its head spells no option or has
a value that spells none. -/
theorem plain_cons_iff : Plain (token :: rest) ↔
    (flag? token ≠ none → ∃ v, rest[0]? = some v ∧ flag? v = none) ∧ Plain rest := by
  constructor
  · exact fun h => ⟨h 0 token rfl, fun i token' hi => h (i + 1) token' (by simpa using hi)⟩
  · rintro ⟨h₀, h⟩ i token' hi hf
    cases i with
    | zero =>
        obtain rfl : token = token' := by simpa using hi
        simpa using h₀ hf
    | succ i => simpa using h i token' (by simpa using hi) hf

/-- **On plain tokens looking ahead finds what reading finds.** -/
theorem scan_eq_parse (h : Plain tokens) : scan tokens = some (parse tokens) := by
  induction tokens with
  | nil => rfl
  | cons token rest ih =>
      obtain ⟨h₀, hrest⟩ := plain_cons_iff.1 h
      have ih := ih hrest
      cases hf : flag? token with
      | none => rw [scan_cons_none hf, ih, parse_cons_none hf]
      | some k =>
          obtain ⟨v, hv, hvn⟩ := h₀ (by rw [hf]; exact Option.some_ne_none k)
          cases rest with
          | nil => simp at hv
          | cons v' rest =>
              obtain rfl : v' = v := by simpa using hv
              rw [scan_cons_some hf, ih, parse_cons_some hf, parse_cons_none hvn]
              rfl

/-- Looking ahead reports every flag. -/
theorem length_scan (h : scan tokens = some ps) : ps.length = flags tokens := by
  induction tokens generalizing ps with
  | nil =>
      obtain rfl : [] = ps := by simpa [scan] using h
      rfl
  | cons token rest ih =>
      cases hf : flag? token with
      | none =>
          rw [scan_cons_none hf] at h
          simp [flags_cons, hf, ih h]
      | some k =>
          rw [scan_cons_some hf] at h
          obtain ⟨v, -, h⟩ := Option.bind_eq_some_iff.1 h
          obtain ⟨qs, hqs, rfl⟩ := Option.map_eq_some_iff.1 h
          simp [flags_cons, hf, ih hqs]

/-- Reading reports at most every flag, and one value more in value position. -/
theorem length_parseFrom_le (o : Option Flag) (tokens : List CString) :
    (parseFrom o tokens).length ≤ flags tokens + o.isSome.toNat := by
  induction tokens generalizing o with
  | nil => simp [parseFrom]
  | cons token rest ih =>
      cases o with
      | none =>
          rw [flags_cons]
          exact ih (flag? token)
      | some k =>
          have hrest := ih none
          rw [flags_cons]
          simp only [parseFrom, List.length_cons, Option.isSome_some, Option.isSome_none,
            Bool.toNat_true, Bool.toNat_false] at hrest ⊢
          omega

/-- **Reading reports every flag only of plain tokens**: a flag consumed as a
value, or left without one, is missing. -/
theorem plain_of_length_parseFrom {o : Option Flag}
    (h : (parseFrom o tokens).length = flags tokens + o.isSome.toNat) :
    (o ≠ none → ∃ v, tokens[0]? = some v ∧ flag? v = none) ∧ Plain tokens := by
  induction tokens generalizing o with
  | nil =>
      cases o with
      | none => exact ⟨fun hne => absurd rfl hne, plain_nil⟩
      | some k => simp [parseFrom, flags] at h
  | cons token rest ih =>
      cases o with
      | none =>
          rw [flags_cons] at h
          exact ⟨fun hne => absurd rfl hne, plain_cons_iff.2 (ih h)⟩
      | some k =>
          have hle := length_parseFrom_le none rest
          rw [flags_cons] at h
          simp only [parseFrom, List.length_cons, Option.isSome_some, Option.isSome_none,
            Bool.toNat_true, Bool.toNat_false] at h hle
          have hnone : flag? token = none := by
            cases hf : flag? token with
            | none => rfl
            | some k => simp only [hf, Option.isSome_some, Bool.toNat_true] at h; omega
          have hrest : Plain rest := by
            refine (ih (o := none) ?_).2
            simp only [hnone, Option.isSome_none, Bool.toNat_false] at h ⊢
            omega
          exact ⟨fun _ => ⟨token, rfl, hnone⟩,
            plain_cons_iff.2 ⟨fun hne => absurd hnone hne, hrest⟩⟩

theorem unambiguous_cons_iff : Unambiguous (token :: rest) ↔ flag? token = none ∧ Plain rest := by
  constructor
  · intro h
    refine ⟨?_, fun i token' hi hf => ?_⟩
    · by_contra hf
      exact absurd (h 0 token rfl hf).1 (Nat.lt_irrefl 0)
    · simpa using (h (i + 1) token' (by simpa using hi) hf).2
  · rintro ⟨h₀, h⟩ i token' hi hf
    cases i with
    | zero =>
        obtain rfl : token = token' := by simpa using hi
        exact absurd h₀ hf
    | succ i => exact ⟨Nat.succ_pos i, by simpa using h i token' (by simpa using hi) hf⟩

/-- **Looking ahead over the whole vector is reading its arguments exactly when
the vector is unambiguous.** -/
theorem scan_eq_parse_tail_iff :
    scan (token :: rest) = some (parse rest) ↔ Unambiguous (token :: rest) := by
  rw [unambiguous_cons_iff]
  constructor
  · intro h
    have hlen := length_scan h
    have hle := length_parseFrom_le none rest
    rw [flags_cons] at hlen
    simp only [parse, Option.isSome_none, Bool.toNat_false] at hlen hle
    have hnone : flag? token = none := by
      cases hf : flag? token with
      | none => rfl
      | some k => simp only [hf, Option.isSome_some, Bool.toNat_true] at hlen; omega
    refine ⟨hnone, (plain_of_length_parseFrom (o := none) ?_).2⟩
    simp only [hnone, Option.isSome_none, Bool.toNat_false] at hlen ⊢
    omega
  · rintro ⟨h₀, h⟩
    rw [scan_cons_none h₀, scan_eq_parse h]

end

end Class12
end SecureDesign
