/-
# The hex dump of a chunk

`show_chunk_hex` of `class17/freechunks.c`, `class17/smallchunks.c` and
`class17/hexchunk.c`:

    int i=0;
    for(;i<bytes;i+=1){
        printf("%02x", *((unsigned char*) (start+i)));
    }
    printf("\n");

The three differ in the width of the field alone (`%04x` in `hexchunk.c`).  The
counter is an `int` and the bound a `size_t`, so `i<bytes` converts `i` before
it compares.  A dump of `bytes` bytes leaves the loop with `i = bytes`, which an
`int` can hold up to `INT_MAX`; past it the counter overflows on the way
(`runs_overflow`).  Below, the loop reads every offset once in order and the
text reads back as the region (`exists_runs_dumped`).
-/

import SecureDesign.CLang.Buffer
import SecureDesign.CLang.Hex
import SecureDesign.CLang.Integer
import SecureDesign.CLang.Loop

namespace SecureDesign
namespace Class17

open CLang Exec

/-- A byte read at an offset from `start`, or text printed. -/
inductive Event
  | read (off : ℤ)
  | print (text : List UInt8)
  deriving DecidableEq

/-- The newline printed after the loop. -/
def newline : List UInt8 := [10]

/-- One test of `i<bytes` with what follows it: a round of the loop, or the
newline.  `w` is the width of the field in the format. -/
def chunkRound (w : ℕ) {n : ℕ} (start : Buffer n) (bytes : UInt64) (i : ℤ) :
    Exec Event Fault (ℤ ⊕ Unit) :=
  if sizeOfInt i < bytes.toNat then do
    emit (.read i)
    let c ← ofOption .outOfBounds (start.byteAt i)
    emit (.print (printfHex .lower w c.toNat))
    let i ← addInt i 1
    pure (.inl i)
  else do
    emit (.print newline)
    pure (.inr ())

/-- `show_chunk_hex` of `freechunks.c`, whose format is `%02x`. -/
def Freechunks.showChunkHex {n : ℕ} (start : Buffer n) (bytes : UInt64) :
    ℤ → Exec Event Fault (ℤ ⊕ Unit) := chunkRound 2 start bytes

/-- `show_chunk_hex` of `smallchunks.c`, whose format is `%02x`. -/
def Smallchunks.showChunkHex {n : ℕ} (start : Buffer n) (bytes : UInt64) :
    ℤ → Exec Event Fault (ℤ ⊕ Unit) := chunkRound 2 start bytes

/-- `show_chunk_hex` of `hexchunk.c`, whose format is `%04x`. -/
def Hexchunk.showChunkHex {n : ℕ} (start : Buffer n) (bytes : UInt64) :
    ℤ → Exec Event Fault (ℤ ⊕ Unit) := chunkRound 4 start bytes

/-- The offset an event reads. -/
def Event.offset? : Event → Option ℤ
  | .read off => some off
  | .print _ => none

/-- The text an event prints. -/
def Event.text : Event → List UInt8
  | .read _ => []
  | .print text => text

/-- The offsets read, in order. -/
def offsets (t : List Event) : List ℤ := t.filterMap Event.offset?

/-- The text printed. -/
def printed (t : List Event) : List UInt8 := t.flatMap Event.text

@[simp] theorem offsets_append (t u : List Event) : offsets (t ++ u) = offsets t ++ offsets u :=
  List.filterMap_append

@[simp] theorem printed_append (t u : List Event) : printed (t ++ u) = printed t ++ printed u :=
  List.flatMap_append

/-- What a dump is for: the loop ends without undefined behaviour, reads the
offsets `0`, `1`, … of the region once each in order, and prints a line whose
fields of width `w` read back as the region. -/
def LosesNothing (w : ℕ) {n : ℕ} (start : Buffer n) (round : ℤ → Exec Event Fault (ℤ ⊕ Unit)) :
    Prop :=
  ∃ x, Runs round 0 x ∧ x.result = .ok () ∧
    offsets x.trace = (List.range n).map (fun k : ℕ => (k : ℤ)) ∧
      ∃ text, printed x.trace = text ++ newline ∧ readFields w text = some start.bytes

section Rounds

variable {w : ℕ} {bytes : UInt64} {start : Buffer bytes.toNat} {k : ℕ} {c : UInt8}

/-- What a round does while there are bytes left, up to the increment. -/
theorem chunkRound_of_lt (h : k < bytes.toNat) (hk : (k : ℤ) ≤ intMax)
    (hc : start.bytes[k]? = some c) :
    chunkRound w start bytes k =
      after [.read k, .print (printfHex .lower w c.toNat)]
        (addInt k 1 >>= fun i => pure (.inl i)) := by
  have hs : sizeOfInt k < bytes.toNat := by rwa [sizeOfInt_of_nonneg (by omega) hk]
  rw [chunkRound, if_pos hs, Buffer.byteAt_natCast, hc]
  simp only [emit_bind, ofOption_some, pure_bind, after_after, List.singleton_append]

/-- A round before the end prints the byte at `i` and counts it. -/
theorem chunkRound_next (h : k < bytes.toNat) (hk : (k : ℤ) < intMax)
    (hc : start.bytes[k]? = some c) :
    chunkRound w start bytes k =
      ⟨[.read k, .print (printfHex .lower w c.toNat)], .ok (.inl (k + 1 : ℕ))⟩ := by
  rw [chunkRound_of_lt h hk.le hc, addInt_one (by omega) hk]
  rfl

/-- The round at the largest `int` overflows when there are bytes left. -/
theorem chunkRound_overflow (h : k < bytes.toNat) (hk : (k : ℤ) = intMax)
    (hc : start.bytes[k]? = some c) :
    chunkRound w start bytes k =
      ⟨[.read k, .print (printfHex .lower w c.toNat)], .error .signedOverflow⟩ := by
  rw [chunkRound_of_lt h hk.le hc, addInt_eq_fault (by omega)]
  rfl

/-- With every byte printed the loop is left with a newline. -/
theorem chunkRound_leave (h : (bytes.toNat : ℤ) ≤ intMax) :
    chunkRound w start bytes bytes.toNat = ⟨[.print newline], .ok (.inr ())⟩ := by
  have hs : ¬ sizeOfInt bytes.toNat < bytes.toNat := by
    rw [sizeOfInt_of_nonneg (by omega) h]; omega
  rw [chunkRound, if_neg hs]
  rfl

/-- The invariant of the loop: with the counter at `k` the first `k` bytes have
been read in order and printed. -/
structure Dumped (w : ℕ) (start : Buffer bytes.toNat) (t : List Event) (i : ℤ) (k : ℕ) : Prop where
  counter : i = k
  le : k ≤ bytes.toNat
  offsets_eq : offsets t = (List.range k).map fun j : ℕ => (j : ℤ)
  printed_eq : printed t = hexText .lower w (start.bytes.take k)

theorem dumped_zero : Dumped w start [] 0 0 := ⟨rfl, by omega, rfl, rfl⟩

/-- **A round keeps the invariant.** -/
theorem Dumped.next {t : List Event} (h : Dumped w start t k k) (hk : k < bytes.toNat)
    (hc : start.bytes[k]? = some c) :
    Dumped w start (t ++ [.read k, .print (printfHex .lower w c.toNat)]) (k + 1 : ℕ) (k + 1) where
  counter := rfl
  le := hk
  offsets_eq := by
    rw [offsets_append, h.offsets_eq, List.range_succ, List.map_append]
    rfl
  printed_eq := by
    rw [printed_append, h.printed_eq, List.take_add_one, hc, hexText_append]
    simp [printed, Event.text]

end Rounds

/-- **A dump that an `int` can count loses nothing.** -/
theorem losesNothing_chunkRound {w : ℕ} (hw : 2 ≤ w) {bytes : UInt64} (start : Buffer bytes.toNat)
    (h : (bytes.toNat : ℤ) ≤ intMax) : LosesNothing w start (chunkRound w start bytes) := by
  have key : ∃ x, Runs (chunkRound w start bytes) 0 x ∧ x.result = .ok () ∧
      offsets x.trace = (List.range bytes.toNat).map (fun k : ℕ => (k : ℤ)) ∧
        printed x.trace = hexText .lower w start.bytes ++ newline := by
    refine exists_runs_of_variant (I := fun t i => ∃ k, Dumped w start t i k)
      (Q := fun t r => r = .ok () ∧
        offsets t = (List.range bytes.toNat).map (fun k : ℕ => (k : ℤ)) ∧
          printed t = hexText .lower w start.bytes ++ newline)
      (fun i => bytes.toNat - i.toNat) ?_ ⟨0, dumped_zero⟩
    rintro t i ⟨k, hd⟩
    obtain rfl := hd.counter
    rcases hd.le.lt_or_eq with hk | rfl
    · obtain ⟨c, hc⟩ := start.exists_byteAt hk
      exact .again (chunkRound_next hk (by omega) hc) ⟨k + 1, hd.next hk hc⟩ (by omega)
    · refine .leave (chunkRound_leave h) ⟨rfl, ?_, ?_⟩
      · rw [offsets_append, hd.offsets_eq]
        exact List.append_nil _
      · rw [printed_append, hd.printed_eq, List.take_of_length_le (by simp)]
        rfl
  obtain ⟨x, hx, hr, ho, hp⟩ := key
  exact ⟨x, hx, hr, ho, _, hp, readFields_hexText hw _ _⟩

/-- **A longer one does not end**: the counter overflows once it has printed the
byte at `INT_MAX`. -/
theorem runs_overflow {w : ℕ} {bytes : UInt64} (start : Buffer bytes.toNat)
    (h : intMax < bytes.toNat) :
    ∃ x, Runs (chunkRound w start bytes) 0 x ∧ x.result = .error .signedOverflow := by
  refine exists_runs_of_variant (I := fun _ (i : ℤ) => ∃ k : ℕ, i = k ∧ (k : ℤ) ≤ intMax)
    (Q := fun _ r => r = Except.error Fault.signedOverflow)
    (fun i => intMax.toNat - i.toNat) ?_ ⟨0, rfl, by decide⟩
  rintro t i ⟨k, rfl, hk⟩
  obtain ⟨c, hc⟩ := start.exists_byteAt (k := k) (by omega)
  rcases hk.lt_or_eq with hlt | heq
  · exact .again (chunkRound_next (by omega) hlt hc) ⟨k + 1, rfl, by omega⟩ (by omega)
  · exact .fault (chunkRound_overflow (by omega) heq hc) rfl

/-- The dump loses nothing exactly when an `int` can count the bytes. -/
theorem losesNothing_chunkRound_iff {w : ℕ} (hw : 2 ≤ w) {bytes : UInt64}
    (start : Buffer bytes.toNat) :
    LosesNothing w start (chunkRound w start bytes) ↔ (bytes.toNat : ℤ) ≤ intMax := by
  refine ⟨fun ⟨x, hx, hr, _⟩ => ?_, losesNothing_chunkRound hw start⟩
  by_contra h
  obtain ⟨y, hy, he⟩ := runs_overflow (w := w) start (by omega)
  rw [hx.unique hy, he] at hr
  cases hr

/-- **All three dumps lose nothing exactly up to `INT_MAX` bytes.** -/
theorem showChunkHex_losesNothing_iff (bytes : UInt64) (start : Buffer bytes.toNat) :
    (LosesNothing 2 start (Freechunks.showChunkHex start bytes) ↔ (bytes.toNat : ℤ) ≤ intMax) ∧
      (LosesNothing 2 start (Smallchunks.showChunkHex start bytes) ↔
        (bytes.toNat : ℤ) ≤ intMax) ∧
      (LosesNothing 4 start (Hexchunk.showChunkHex start bytes) ↔ (bytes.toNat : ℤ) ≤ intMax) :=
  ⟨losesNothing_chunkRound_iff (by omega) start, losesNothing_chunkRound_iff (by omega) start,
    losesNothing_chunkRound_iff (by omega) start⟩

/-- A region of `2 ^ 31` zero bytes is lost by all three. -/
theorem showChunkHex_loses_two_gib :
    ¬ LosesNothing 2 (Buffer.filled (2147483648 : UInt64).toNat 0)
        (Freechunks.showChunkHex (Buffer.filled (2147483648 : UInt64).toNat 0) 2147483648) ∧
      ¬ LosesNothing 2 (Buffer.filled (2147483648 : UInt64).toNat 0)
        (Smallchunks.showChunkHex (Buffer.filled (2147483648 : UInt64).toNat 0) 2147483648) ∧
      ¬ LosesNothing 4 (Buffer.filled (2147483648 : UInt64).toNat 0)
        (Hexchunk.showChunkHex (Buffer.filled (2147483648 : UInt64).toNat 0) 2147483648) := by
  have h : ¬ (((2147483648 : UInt64).toNat : ℤ) ≤ intMax) := by decide
  exact ⟨fun hl => h ((losesNothing_chunkRound_iff (by omega) _).1 hl),
    fun hl => h ((losesNothing_chunkRound_iff (by omega) _).1 hl),
    fun hl => h ((losesNothing_chunkRound_iff (by omega) _).1 hl)⟩

end Class17
end SecureDesign
