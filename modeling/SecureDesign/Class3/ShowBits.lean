/-
# The bit dump of an object

`show_bits` of `class3/steam_value.c`:

    int* fetch_value = start;
    int k,i;
    for(i = 0 ; i <= n_bits - 1; i++){
        k = (*fetch_value) >> i;
       putchar((k & 1) ? '1' : '0');
    }
    printf("\n");

The pointer is untyped and the bits are counted by the caller, but every round
fetches a whole `int` and shifts it by the counter.  On an object of at least
four bytes the first 32 bits come out as the little-endian expansion
(`showsBits_bitRound`).  A shorter object is read past its end by the first
round (`runs_outOfBounds`), as the `char`s of the file's own `main` are, and the
bit 32 of a longer one is asked of a shift by 32 (`runs_shiftRange`).
-/

import SecureDesign.CLang.Bits
import SecureDesign.CLang.Buffer
import SecureDesign.CLang.Integer
import SecureDesign.CLang.Loop

namespace SecureDesign
namespace Class3

open CLang Exec

/-- Bytes of the object read, an `int` shifted, a character put. -/
inductive Event
  | read (off len : ℕ)
  | shift (distance : ℤ)
  | put (c : UInt8)
  deriving DecidableEq

/-- The character of a bit: `(k & 1) ? '1' : '0'`. -/
def bitChar (b : Bool) : UInt8 := if b then 49 else 48

/-- The newline printed after the loop. -/
def newline : UInt8 := 10

/-- One test of `i <= n_bits - 1` with what follows it: a round of the loop, or
the newline. -/
def showBits {s : ℕ} (start : Buffer s) (n_bits : ℤ) (i : ℤ) : Exec Event Fault (ℤ ⊕ Unit) := do
  let last ← addInt n_bits (-1)
  if i ≤ last then do
    emit (.read 0 4)
    let fetch_value ← ofOption .outOfBounds (start.read 0 4)
    emit (.shift i)
    let k ← shiftRight (intOfBytes fetch_value) i
    emit (.put (bitChar (lowBit k)))
    let i ← addInt i 1
    pure (.inl i)
  else do
    emit (.put newline)
    pure (.inr ())

/-- The event stays inside an object of `s` bytes and inside the width of an
`int`. -/
def Event.Safe (s : ℕ) : Event → Prop
  | .read off len => off + len ≤ s
  | .shift distance => 0 ≤ distance ∧ distance < 32
  | .put _ => True

/-- The character an event puts. -/
def Event.char? : Event → Option UInt8
  | .put c => some c
  | _ => none

/-- The text put. -/
def printed (t : List Event) : List UInt8 := t.filterMap Event.char?

@[simp] theorem printed_append (t u : List Event) : printed (t ++ u) = printed t ++ printed u :=
  List.filterMap_append

/-- What the dump is for: it ends without undefined behaviour, every read and
shift is safe, and the line it prints is the expansion of the object in `n`
bits, lowest first. -/
def ShowsBits {s : ℕ} (start : Buffer s) (n : ℕ) (round : ℤ → Exec Event Fault (ℤ ⊕ Unit)) :
    Prop :=
  ∃ x, Runs round 0 x ∧ x.result = .ok () ∧ (∀ e ∈ x.trace, e.Safe s) ∧
    ∃ text, printed x.trace = text ++ [newline] ∧ text.length = n ∧
      (∀ i < n, text[i]? = some 49 ↔ bit start.bytes i = true) ∧
        ∑ i ∈ Finset.range n, (if text[i]? = some 49 then 2 ^ i else 0) =
          leValue start.bytes % 2 ^ n

section Rounds

variable {s n k : ℕ} {start : Buffer s}

/-- What a round does once the fetch succeeds, up to the shift. -/
theorem showBits_of_lt (hk : k < n) (hn : (n : ℤ) ≤ intMax) (hs : 4 ≤ s) :
    showBits start n k = after [.read 0 4, .shift k]
      (shiftRight (intOfBytes (start.bytes.take 4)) k >>= fun v =>
        emit (.put (bitChar (lowBit v))) >>= fun _ => addInt k 1 >>= fun i => pure (.inl i)) := by
  rw [showBits, addInt_eq_pure (by simp only [intMin]; omega) (by omega), pure_bind,
    if_pos (by omega), start.read_eq_some (by omega), List.drop_zero]
  simp only [emit_bind, ofOption_some, pure_bind, after_after, List.singleton_append]

/-- A round below the width prints bit `i`. -/
theorem showBits_next (hk : k < n) (hn : (n : ℤ) ≤ intMax) (hs : 4 ≤ s) (hw : k < 32) :
    showBits start n k =
      ⟨[.read 0 4, .shift k, .put (bitChar (bit start.bytes k))], .ok (.inl (k + 1 : ℕ))⟩ := by
  rw [showBits_of_lt hk hn hs, shiftRight_eq_pure hw, pure_bind, emit_bind,
    lowBit_sshiftRight _ hw, bit_take (by omega), addInt_one (by omega) (by omega)]
  rfl

/-- The round at the width shifts too far. -/
theorem showBits_shift (hk : 32 < n) (hn : (n : ℤ) ≤ intMax) (hs : 4 ≤ s) :
    showBits start n (32 : ℕ) = ⟨[.read 0 4, .shift (32 : ℕ)], .error .shiftRange⟩ := by
  rw [showBits_of_lt hk hn hs, shiftRight_eq_fault le_rfl]
  rfl

/-- On an object shorter than an `int` the first fetch is out of bounds. -/
theorem showBits_fetch (hk : 0 < n) (hn : (n : ℤ) ≤ intMax) (hs : s < 4) :
    showBits start n 0 = ⟨[.read 0 4], .error .outOfBounds⟩ := by
  rw [showBits, addInt_eq_pure (by simp only [intMin]; omega) (by omega), pure_bind,
    if_pos (by omega), start.read_eq_none (by omega)]
  rfl

/-- After the last bit the loop is left with a newline. -/
theorem showBits_leave (hn : (n : ℤ) ≤ intMax) :
    showBits start n n = ⟨[.put newline], .ok (.inr ())⟩ := by
  rw [showBits, addInt_eq_pure (by simp only [intMin]; omega) (by omega), pure_bind,
    if_neg (by omega)]
  rfl

/-- The first `n` bits of a byte string as text. -/
def bitText (l : List UInt8) (n : ℕ) : List UInt8 := (List.range n).map fun i => bitChar (bit l i)

/-- The invariant of the loop: with the counter at `k` the first `k` bits have
been put, by safe reads and shifts. -/
structure Shown (start : Buffer s) (n : ℕ) (t : List Event) (i : ℤ) (k : ℕ) : Prop where
  counter : i = k
  le : k ≤ n
  safe : ∀ e ∈ t, e.Safe s
  printed_eq : printed t = bitText start.bytes k

theorem shown_zero : Shown start n [] 0 0 :=
  ⟨rfl, Nat.zero_le n, fun _ he => absurd he List.not_mem_nil, rfl⟩

/-- **A round keeps the invariant.** -/
theorem Shown.next {t : List Event} (h : Shown start n t k k) (hk : k < n) (hs : 4 ≤ s)
    (hw : k < 32) :
    Shown start n (t ++ [.read 0 4, .shift k, .put (bitChar (bit start.bytes k))]) (k + 1 : ℕ)
      (k + 1) where
  counter := rfl
  le := hk
  safe := by
    intro e he
    rcases List.mem_append.1 he with he | he
    · exact h.safe e he
    · simp only [List.mem_cons, List.not_mem_nil, or_false] at he
      rcases he with rfl | rfl | rfl
      · exact hs
      · exact ⟨Int.natCast_nonneg k, by omega⟩
      · trivial
  printed_eq := by
    rw [printed_append, h.printed_eq, bitText, bitText, List.range_succ, List.map_append]
    rfl

end Rounds

section Expansion

variable {l : List UInt8} {n : ℕ}

/-- Character `i` of the text is `'1'` exactly when bit `i` is set. -/
theorem getElem?_bitText {i : ℕ} (h : i < n) : (bitText l n)[i]? = some 49 ↔ bit l i = true := by
  rw [bitText, List.getElem?_map, List.getElem?_range h]
  cases hb : bit l i <;> simp [bitChar, hb]

/-- **The text is the value modulo `2 ^ n`**, lowest bit first. -/
theorem sum_bitText :
    ∑ i ∈ Finset.range n, (if (bitText l n)[i]? = some 49 then 2 ^ i else 0) =
      leValue l % 2 ^ n := by
  rw [← sum_testBit]
  refine Finset.sum_congr rfl fun i hi => ?_
  simp only [getElem?_bitText (Finset.mem_range.1 hi), testBit_leValue]

end Expansion

variable {s n : ℕ} (start : Buffer s)

/-- **On an `int`'s bytes and an `int`'s bits the dump is the expansion**; no
bits at all are right on any object. -/
theorem showsBits_showBits (hn : (n : ℤ) ≤ intMax) (h : n = 0 ∨ 4 ≤ s ∧ n ≤ 32) :
    ShowsBits start n (showBits start n) := by
  have key : ∃ x, Runs (showBits start n) 0 x ∧ x.result = .ok () ∧ (∀ e ∈ x.trace, e.Safe s) ∧
      printed x.trace = bitText start.bytes n ++ [newline] := by
    refine exists_runs_of_variant (I := fun t i => ∃ k, Shown start n t i k)
      (Q := fun t r => r = .ok () ∧ (∀ e ∈ t, e.Safe s) ∧
        printed t = bitText start.bytes n ++ [newline])
      (fun i => n - i.toNat) ?_ ⟨0, shown_zero⟩
    rintro t i ⟨k, hk⟩
    obtain rfl := hk.counter
    rcases hk.le.lt_or_eq with hlt | rfl
    · obtain ⟨hs, hw⟩ : 4 ≤ s ∧ n ≤ 32 := h.resolve_left (by omega)
      exact .again (showBits_next hlt hn hs (by omega)) ⟨k + 1, hk.next hlt hs (by omega)⟩
        (by omega)
    · refine .leave (showBits_leave hn) ⟨rfl, ?_, ?_⟩
      · intro e he
        rcases List.mem_append.1 he with he | he
        · exact hk.safe e he
        · rw [List.mem_singleton.1 he]
          trivial
      · rw [printed_append, hk.printed_eq]
        rfl
  obtain ⟨x, hx, hr, hsafe, hp⟩ := key
  exact ⟨x, hx, hr, hsafe, _, hp, by simp [bitText], fun _ hi => getElem?_bitText hi, sum_bitText⟩

/-- **An object shorter than an `int` is read out of bounds** for its first bit. -/
theorem runs_outOfBounds (h₀ : 0 < n) (hn : (n : ℤ) ≤ intMax) (hs : s < 4) :
    Runs (showBits start n) 0 ⟨[.read 0 4], .error .outOfBounds⟩ :=
  .fault (showBits_fetch h₀ hn hs)

/-- **Bit 32 of a longer object is a shift too far.** -/
theorem runs_shiftRange (h : 32 < n) (hn : (n : ℤ) ≤ intMax) (hs : 4 ≤ s) :
    ∃ x, Runs (showBits start n) 0 x ∧ x.result = .error .shiftRange := by
  refine exists_runs_of_variant (I := fun _ (i : ℤ) => ∃ k : ℕ, i = k ∧ k ≤ 32)
    (Q := fun _ r => r = Except.error Fault.shiftRange) (fun i => 32 - i.toNat) ?_
    ⟨0, rfl, by omega⟩
  rintro t i ⟨k, rfl, hk⟩
  rcases hk.lt_or_eq with hlt | rfl
  · exact .again (showBits_next (by omega) hn hs hlt) ⟨k + 1, rfl, hlt⟩ (by omega)
  · exact .fault (showBits_shift h hn hs) rfl

/-- A run that ends in undefined behaviour shows nothing. -/
theorem not_showsBits_of_runs {round : ℤ → Exec Event Fault (ℤ ⊕ Unit)} {x : Exec Event Fault Unit}
    {e : Fault} (hx : Runs round 0 x) (he : x.result = .error e) : ¬ ShowsBits start n round := by
  rintro ⟨y, hy, hr, -⟩
  rw [hy.unique hx, he] at hr
  cases hr

/-- **The dump of `n_bits` bits of an object of `s` bytes is its expansion
exactly when there is nothing to print, or the object holds an `int` and no
more than its 32 bits are asked for.** -/
theorem showBits_showsBits_iff {n_bits : ℤ} (h₀ : 0 ≤ n_bits) (hn : n_bits ≤ intMax) :
    ShowsBits start n_bits.toNat (showBits start n_bits) ↔
      n_bits = 0 ∨ 4 ≤ s ∧ n_bits ≤ 32 := by
  obtain ⟨n, rfl⟩ := Int.eq_ofNat_of_zero_le h₀
  rw [Int.toNat_natCast]
  constructor
  · intro h
    by_contra hcon
    have hpos : 0 < n := by omega
    rcases Nat.lt_or_ge s 4 with hs | hs
    · exact not_showsBits_of_runs start (runs_outOfBounds start hpos hn hs) rfl h
    · obtain ⟨x, hx, he⟩ := runs_shiftRange start (show 32 < n by omega) hn hs
      exact not_showsBits_of_runs start hx he h
  · exact fun h => showsBits_showBits start hn (by omega)

/-- The file's `x = 1025`, whose object holds an `int`: its eleven bits are shown. -/
theorem showBits_showsBits_int :
    ShowsBits ⟨[1, 4, 0, 0], rfl⟩ 11 (showBits ⟨[1, 4, 0, 0], rfl⟩ 11) :=
  (showBits_showsBits_iff ⟨[1, 4, 0, 0], rfl⟩ (by decide) (by decide)).2 (by decide)

/-- The file's `char y = 10`: its eight bits are not shown, the fetch reads past
its one byte. -/
theorem showBits_not_showsBits_char :
    ¬ ShowsBits ⟨[10], rfl⟩ 8 (showBits ⟨[10], rfl⟩ 8) :=
  not_showsBits_of_runs _ (runs_outOfBounds (n := 8) _ (by decide) (by decide) (by decide)) rfl

example : bitText [1, 4, 0, 0] 11 = ascii "10000000001" := by decide

end Class3
end SecureDesign
