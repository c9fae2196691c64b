/-
# The dictionary search of `class23/sha.c`

    while(getline(&word, &max_length, fp) != -1 ){
        i++;
        txtLength = strlen(word) - 1;
        strncpy(textBuffer, word, txtLength);

        gcry_md_hash_buffer(,);   // size_t

        for (index = 0; index<32; index++){
          sprintf(otherthingy+index*2, "%02X", (unsigned char)hashBuffer[index]);
        }

        if(strcmp(otherthingy,thingy) == 0){
            printf("the word is: %s", word);
            return 0;
        }

    }
    printf("finished\n");

The hash call is the one of `class23/sha1.c`, with its arguments: it hashes the
first `txtLength` bytes of `textBuffer` into `hashBuffer`.  The hash `H` is any
function to digests of 32 bytes, and the digest searched for is `T`.

Every access to an object and every subtraction of sizes is an event, made
before it is checked (`Event.InBounds`), so that a run that leaves its objects
shows where.  `meets_hashWord` is what a round does up to the comparison with a
word that fits its buffer, and `hashWord_eq_fault` what it does with any other;
`round_end`, `round_overflow`, `round_fault` and `round_of_fits` are the ways a
round can go.

`Outcome` is the search on the level of lines: what it comes to from a list of
them, one at a time.  The loop does what it says (`exists_runs_outcome`), and what
is proved about a search is proved about it.
-/

import SecureDesign.CLang.Buffer
import SecureDesign.CLang.Hex
import SecureDesign.CLang.Integer
import SecureDesign.CLang.Loop
import SecureDesign.Class23.Lines

namespace SecureDesign
namespace Class23

open CLang Exec

/-- A digest, as `gcry_md_hash_buffer` writes it. -/
abbrev Digest := Buffer 32

/-- The objects the search reads and writes. -/
inductive Obj
  | textBuffer
  | hashBuffer
  | otherthingy
  deriving DecidableEq

/-- The size of an object: `malloc(txtLength+1)`, `malloc(33)` and `[65]`. -/
def Obj.size : Obj → ℕ
  | .textBuffer => 41
  | .hashBuffer => 33
  | .otherthingy => 65

/-- A subtraction of sizes, an access to `len` bytes of an object, or text
printed. -/
inductive Event
  | sub (a b : ℕ)
  | read (obj : Obj) (off len : ℕ)
  | write (obj : Obj) (off len : ℕ)
  | print (text : List UInt8)
  deriving DecidableEq

/-- The subtraction does not wrap; the access stays inside its object. -/
def Event.InBounds : Event → Prop
  | .sub a b => b ≤ a
  | .read obj off len => off + len ≤ obj.size
  | .write obj off len => off + len ≤ obj.size
  | .print _ => True

/-- The text an event prints. -/
def Event.text? : Event → Option (List UInt8)
  | .print text => some text
  | _ => none

/-- The texts printed, in order. -/
def printed (t : List Event) : List (List UInt8) := t.filterMap Event.text?

/-- The buffers of `main`. -/
structure Buffers where
  textBuffer : Buffer 41
  hashBuffer : Buffer 33
  otherthingy : Buffer 65

/-- The bytes of `dictionary.txt` still to be read, the buffers and the counter. -/
structure State where
  fp : List UInt8
  buffers : Buffers
  i : ℤ

/-- The state before the loop.  `malloc` leaves any bytes in `textBuffer`;
`hashBuffer` and `otherthingy` are cleared. -/
def start (textBuffer : Buffer 41) (fp : List UInt8) : State where
  fp := fp
  buffers := ⟨textBuffer, .filled 33 0, .filled 65 0⟩
  i := 0

/-- The characters of `thingy`: the digest `T` in upper case. -/
def thingy (T : Digest) : List UInt8 := hexText .upper 2 T.bytes

/-- The digest the program searches for, read from its source text. -/
example : (readFields 2 (ascii
      "A8677DF7AAC4E90428D7226C5D28971273A5DDDB2F0338C963ACC521A6232934")).map
        (fun l => (l.length, hexText .upper 2 l)) =
    some (32, ascii "A8677DF7AAC4E90428D7226C5D28971273A5DDDB2F0338C963ACC521A6232934") := by
  decide

/-- `gcry_md_hash_buffer(GCRY_MD_SHA256, hashBuffer, textBuffer, txtLength)`. -/
def gcryMdHashBuffer (H : List UInt8 → Digest) (hashBuffer : Buffer 33) (textBuffer : Buffer 41)
    (txtLength : ℕ) : Exec Event Fault (Buffer 33) := do
  emit (.read .textBuffer 0 txtLength)
  let text ← ofOption .outOfBounds (textBuffer.read 0 txtLength)
  emit (.write .hashBuffer 0 32)
  ofOption .outOfBounds (hashBuffer.write 0 (H text).bytes)

/-- `sprintf(otherthingy+index*2, "%02X", (unsigned char)hashBuffer[index])`. -/
def hexRound (hashBuffer : Buffer 33) (index : ℕ) (otherthingy : Buffer 65) :
    Exec Event Fault (Buffer 65) := do
  emit (.read .hashBuffer index 1)
  let c ← ofOption .outOfBounds (hashBuffer.byteAt index)
  let text := printfHex .upper 2 c.toNat ++ [0]
  emit (.write .otherthingy (index * 2) text.length)
  ofOption .outOfBounds (otherthingy.write (index * 2) text)

/-- The body of the loop up to the comparison. -/
def hashWord (H : List UInt8 → Digest) (word : List UInt8) (b : Buffers) :
    Exec Event Fault Buffers := do
  emit (.sub (strlen word) 1)
  let txtLength := subSize (strlen word) 1
  emit (.write .textBuffer 0 txtLength)
  let textBuffer ← ofOption .outOfBounds (b.textBuffer.strncpy word txtLength)
  let hashBuffer ← gcryMdHashBuffer H b.hashBuffer textBuffer txtLength
  let otherthingy ← forLoop (hexRound hashBuffer) 0 32 b.otherthingy
  pure ⟨textBuffer, hashBuffer, otherthingy⟩

/-- The text printed when the digest of `word` is the one searched for. -/
def wordIs (word : List UInt8) : List UInt8 := ascii "the word is: " ++ cstr word

/-- The text printed at the end of the file. -/
def finished : List UInt8 := ascii "finished\n"

/-- One call of `getline` with what follows it: a round of the loop, or the end
of `main` with its exit code. -/
def round (H : List UInt8 → Digest) (T : Digest) (s : State) : Exec Event Fault (State ⊕ ℤ) :=
  match getline s.fp with
  | none => do
      emit (.print finished)
      pure (.inr 0)
  | some (line, fp) => do
      let word := line ++ [0]
      let i ← addInt s.i 1
      let buffers ← hashWord H word s.buffers
      let text ← ofOption .unterminated buffers.otherthingy.cstring
      if text = thingy T then do
        emit (.print (wordIs word))
        pure (.inr 0)
      else pure (.inl { fp := fp, buffers := buffers, i := i })

/-- The line is one the loop takes for a word of digest `T`. -/
def Hits (H : List UInt8 → Digest) (T : Digest) (line : List UInt8) : Prop :=
  H (cstr line).dropLast = T

instance (H : List UInt8 → Digest) (T : Digest) : DecidablePred (Hits H T) :=
  fun line => inferInstanceAs (Decidable (H (cstr line).dropLast = T))

/-- The line is one whose word fits `textBuffer` after the subtraction. -/
def Fits (line : List UInt8) : Prop := 1 ≤ strlen line ∧ strlen line ≤ 42

/-- What the code does between two outputs: in bounds, and printing nothing. -/
def Quiet (e : Event) : Prop := e.InBounds ∧ e.text? = none

section Words

variable {H : List UInt8 → Digest} {word : List UInt8}

theorem printed_of_quiet {t : List Event} (h : ∀ e ∈ t, Quiet e) : printed t = [] :=
  List.filterMap_eq_nil_iff.2 fun e he => (h e he).2

/-- The hash call leaves the digest at the start of `hashBuffer`. -/
theorem meets_gcryMdHashBuffer (hashBuffer : Buffer 33) {textBuffer : Buffer 41} {txtLength : ℕ}
    {text : List UInt8} (h : txtLength ≤ 41) (htext : textBuffer.read 0 txtLength = some text) :
    (gcryMdHashBuffer H hashBuffer textBuffer txtLength).Meets Quiet
      fun b => ∃ r, b.bytes = (H text).bytes ++ r := by
  have hread : Quiet (.read .textBuffer 0 txtLength) :=
    ⟨by simpa [Event.InBounds, Obj.size] using h, rfl⟩
  have hwrite : Quiet (.write .hashBuffer 0 32) := ⟨by simp [Event.InBounds, Obj.size], rfl⟩
  obtain ⟨b, hb, hbytes⟩ :=
    hashBuffer.exists_write (show 0 + (H text).bytes.length ≤ 33 by simp)
  refine (meets_emit hread).bind fun _ _ => ?_
  refine (meets_ofOption (Q := fun l => l = text) htext rfl).bind fun l hl => ?_
  refine (meets_emit hwrite).bind fun _ _ => ?_
  rw [hl]
  refine meets_ofOption hb ⟨hashBuffer.bytes.drop (0 + (H text).bytes.length), ?_⟩
  rw [hbytes, List.take_zero, List.nil_append]

/-- The invariant of the loop over the digest: the bytes before `index` are
written out, and once there is one the text is terminated. -/
def Written (digest : Digest) (index : ℕ) (otherthingy : Buffer 65) : Prop :=
  ∃ r, otherthingy.bytes = hexText .upper 2 (digest.bytes.take index) ++ r ∧
    (0 < index → r.head? = some 0)

theorem written_zero (digest : Digest) (otherthingy : Buffer 65) : Written digest 0 otherthingy :=
  ⟨otherthingy.bytes, rfl, fun h => absurd h (Nat.lt_irrefl 0)⟩

/-- **A round writes one byte more**, over the terminator of the round before. -/
theorem meets_hexRound {hashBuffer : Buffer 33} {digest : Digest} {rest : List UInt8}
    (hdigest : hashBuffer.bytes = digest.bytes ++ rest) {index : ℕ} (h : index < 32)
    {otherthingy : Buffer 65} (hw : Written digest index otherthingy) :
    (hexRound hashBuffer index otherthingy).Meets Quiet (Written digest (index + 1)) := by
  obtain ⟨r, hr, -⟩ := hw
  obtain ⟨c, hc⟩ := digest.exists_byteAt h
  have hlen : (hexText .upper 2 (digest.bytes.take index)).length = index * 2 := by
    rw [length_hexText (by omega), List.length_take, digest.length_bytes]
    omega
  have htext : (printfHex .upper 2 c.toNat ++ [0]).length = 3 := by
    rw [List.length_append, length_printfHex (by omega)]
    rfl
  have hbyte : hashBuffer.byteAt index = some c := by
    rw [Buffer.byteAt_natCast, hdigest, List.getElem?_append_left (by simpa using h), hc]
  have hread : Quiet (.read .hashBuffer index 1) :=
    ⟨by simp only [Event.InBounds, Obj.size]; omega, rfl⟩
  have hwrite :
      Quiet (.write .otherthingy (index * 2) (printfHex .upper 2 c.toNat ++ [0]).length) :=
    ⟨by simp only [Event.InBounds, Obj.size, htext]; omega, rfl⟩
  obtain ⟨b, hb, hbytes⟩ := otherthingy.exists_write
    (show index * 2 + (printfHex .upper 2 c.toNat ++ [0]).length ≤ 65 by rw [htext]; omega)
  refine (meets_emit hread).bind fun _ _ => ?_
  refine (meets_ofOption (Q := fun d => d = c) hbyte rfl).bind fun d hd => ?_
  rw [hd]
  refine (meets_emit hwrite).bind fun _ _ => ?_
  refine meets_ofOption hb ⟨0 :: otherthingy.bytes.drop (index * 2 + 3), ?_, fun _ => rfl⟩
  rw [hbytes, htext, List.take_add_one, hc, hexText_append]
  rw [hr, List.take_left' hlen]
  simp

/-- With the whole digest written the text is the digest in upper case. -/
theorem Written.cstring_eq {digest : Digest} {otherthingy : Buffer 65}
    (h : Written digest 32 otherthingy) : otherthingy.cstring = some (thingy digest) := by
  obtain ⟨r, hr, hhead⟩ := h
  obtain ⟨r', rfl⟩ := List.head?_eq_some_iff.1 (hhead (by omega))
  rw [List.take_of_length_le (by simp)] at hr
  rw [Buffer.cstring, hr, if_pos (by simp), cstr_append_zero (zero_notMem_hexText _ _ _)]
  rfl

/-- **A word that fits is hashed in bounds**, without its last byte, whatever
the buffers held before. -/
theorem meets_hashWord (b : Buffers) (h : Fits word) :
    (hashWord H word b).Meets Quiet
      fun b' => b'.otherthingy.cstring = some (thingy (H (cstr word).dropLast)) := by
  obtain ⟨hpos, hle⟩ := h
  have hsub : subSize (strlen word) 1 = strlen word - 1 := if_pos hpos
  have htake : (cstr word).take (strlen word - 1) = (cstr word).dropLast := by
    rw [List.dropLast_eq_take]
    rfl
  obtain ⟨textBuffer, htext, hread⟩ :=
    b.textBuffer.exists_strncpy (show strlen word - 1 ≤ strlen word by omega) (by omega)
  rw [htake] at hread
  have hwrite : Quiet (.write .textBuffer 0 (strlen word - 1)) :=
    ⟨by simp only [Event.InBounds, Obj.size]; omega, rfl⟩
  unfold hashWord
  rw [hsub]
  refine (meets_emit ⟨hpos, rfl⟩).bind fun _ _ => ?_
  refine (meets_emit hwrite).bind fun _ _ => ?_
  refine (meets_ofOption (Q := fun t => t = textBuffer) htext rfl).bind fun t ht => ?_
  rw [ht]
  refine (meets_gcryMdHashBuffer b.hashBuffer (by omega) hread).bind fun hashBuffer hdigest => ?_
  obtain ⟨rest, hdigest⟩ := hdigest
  have hloop : (forLoop (hexRound hashBuffer) 0 32 b.otherthingy).Meets Quiet
      (Written (H (cstr word).dropLast) (0 + 32)) :=
    meets_forLoop (fun index o _ hlt hw => meets_hexRound hdigest (by omega) hw)
      (written_zero _ b.otherthingy)
  exact hloop.bind fun o ho => meets_pure ho.cstring_eq

/-- **A word that does not fit leaves `textBuffer`**: with no byte before its NUL
the length wraps, and a longer one than the buffer is written past its end. -/
theorem hashWord_eq_fault (b : Buffers) (h : ¬ Fits word) :
    ∃ t, hashWord H word b = ⟨t, .error .outOfBounds⟩ ∧ ∃ e ∈ t, ¬ e.InBounds := by
  have hlong : 41 < subSize (strlen word) 1 := by
    unfold Fits at h
    unfold subSize sizeModulus
    split_ifs <;> omega
  refine ⟨[.sub (strlen word) 1, .write .textBuffer 0 (subSize (strlen word) 1)], ?_, ?_⟩
  · simp only [hashWord, Buffer.strncpy_eq_none _ _ hlong, ofOption_none, fault_bind]
    rfl
  · refine ⟨_, List.mem_cons_of_mem _ List.mem_cons_self, ?_⟩
    simp only [Event.InBounds, Obj.size]
    omega

end Words

section Rounds

variable {H : List UInt8 → Digest} {T : Digest} {s : State} {line rest : List UInt8}

/-- The terminator `getline` puts behind the line is not part of its string. -/
theorem fits_concat_zero : Fits (line ++ [0]) ↔ Fits line := by
  simp only [Fits, strlen, cstr_concat_zero]

theorem wordIs_concat_zero (line : List UInt8) : wordIs (line ++ [0]) = wordIs line := by
  simp only [wordIs, cstr_concat_zero]

/-- Two digests are written the same only when they are the same. -/
theorem thingy_injective : Function.Injective thingy := fun _ _ h =>
  Buffer.ext (hexText_injective (by omega) .upper h)

/-- At the end of the file the loop is left. -/
theorem round_end (h : getline s.fp = none) :
    round H T s = ⟨[.print finished], .ok (.inr 0)⟩ := by
  rw [round, h]
  rfl

/-- The counter of the lines overflows at the largest `int`. -/
theorem round_overflow (h : getline s.fp = some (line, rest)) (hi : s.i = intMax) :
    round H T s = ⟨[], .error .signedOverflow⟩ := by
  rw [round, h]
  simp only [addInt_eq_fault (show intMax < s.i + 1 by omega), fault_bind]
  rfl

/-- A line that does not fit takes the round out of bounds. -/
theorem round_fault (h : getline s.fp = some (line, rest)) (h₀ : 0 ≤ s.i) (hi : s.i < intMax)
    (hfit : ¬ Fits line) :
    ∃ t, round H T s = ⟨t, .error .outOfBounds⟩ ∧ ∃ e ∈ t, ¬ e.InBounds := by
  obtain ⟨t, ht, he⟩ := hashWord_eq_fault (H := H) s.buffers (mt fits_concat_zero.1 hfit)
  refine ⟨t, ?_, he⟩
  rw [round, h]
  simp only [addInt_one h₀ hi, Exec.pure_bind, ht]
  rfl

/-- **A round on a line that fits.**  It stays in bounds; it ends the search with
the line when that is a hit, and goes on with the next one otherwise. -/
theorem round_of_fits (T : Digest) (h : getline s.fp = some (line, rest)) (h₀ : 0 ≤ s.i)
    (hi : s.i < intMax) (hfit : Fits line) :
    ∃ t b, (∀ e ∈ t, Quiet e) ∧
      round H T s = if Hits H T line then ⟨t ++ [.print (wordIs line)], .ok (.inr 0)⟩
        else ⟨t, .ok (.inl ⟨rest, b, s.i + 1⟩)⟩ := by
  obtain ⟨ht, b, hb, htext⟩ := meets_hashWord (H := H) s.buffers (fits_concat_zero.2 hfit)
  refine ⟨_, b, ht, ?_⟩
  rw [cstr_concat_zero] at htext
  rw [round, h]
  simp only [addInt_one h₀ hi, Exec.pure_bind, bind_of_ok hb, htext, ofOption_some,
    thingy_injective.eq_iff, wordIs_concat_zero]
  by_cases hhit : Hits H T line
  · rw [if_pos hhit, if_pos (show H (cstr line).dropLast = T from hhit)]
    rfl
  · rw [if_neg hhit, if_neg (show H (cstr line).dropLast ≠ T from hhit)]
    exact Exec.ext (List.append_nil _) rfl

end Rounds

/-- What a search of the lines can come to, with the counter at `i`: the end of
the lines, the end of the range of the counter, a line that does not fit, a hit,
or one line less to search. -/
inductive Outcome (H : List UInt8 → Digest) (T : Digest) :
    ℤ → List (List UInt8) → Exec Event Fault ℤ → Prop
  | finish (i : ℤ) : Outcome H T i [] ⟨[.print finished], .ok 0⟩
  | overflow (line : List UInt8) (lines : List (List UInt8)) :
      Outcome H T intMax (line :: lines) ⟨[], .error .signedOverflow⟩
  | fault {i : ℤ} {line : List UInt8} (lines : List (List UInt8)) {t : List Event}
      (hi : i < intMax) (hfit : ¬ Fits line) (ht : ∃ e ∈ t, ¬ e.InBounds) :
      Outcome H T i (line :: lines) ⟨t, .error .outOfBounds⟩
  | hit {i : ℤ} {line : List UInt8} (lines : List (List UInt8)) {t : List Event}
      (hi : i < intMax) (hfit : Fits line) (hhit : Hits H T line) (ht : ∀ e ∈ t, Quiet e) :
      Outcome H T i (line :: lines) ⟨t ++ [.print (wordIs line)], .ok 0⟩
  | miss {i : ℤ} {line : List UInt8} {lines : List (List UInt8)} {t : List Event}
      {x : Exec Event Fault ℤ} (hi : i < intMax) (hfit : Fits line) (hhit : ¬ Hits H T line)
      (ht : ∀ e ∈ t, Quiet e) (h : Outcome H T (i + 1) lines x) :
      Outcome H T i (line :: lines) (x.after t)

/-- **The loop searches its lines one by one**, and ends. -/
theorem exists_runs_outcome {H : List UInt8 → Digest} {T : Digest} {s : State}
    {lines : List (List UInt8)} (hl : linesOf s.fp = lines) (h₀ : 0 ≤ s.i) (hi : s.i ≤ intMax) :
    ∃ x, Runs (round H T) s x ∧ Outcome H T s.i lines x := by
  induction lines generalizing s with
  | nil => exact ⟨_, .leave (round_end (getline_eq_none hl)), .finish s.i⟩
  | cons line lines ih =>
      obtain ⟨rest, hg, hrest⟩ := exists_getline hl
      rcases hi.eq_or_lt with hmax | hlt
      · refine ⟨_, .fault (round_overflow hg hmax), ?_⟩
        rw [hmax]
        exact .overflow line lines
      by_cases hfit : Fits line
      · obtain ⟨t, b, ht, hround⟩ := round_of_fits T hg h₀ hlt hfit
        by_cases hhit : Hits H T line
        · rw [if_pos hhit] at hround
          exact ⟨_, .leave hround, .hit lines hlt hfit hhit ht⟩
        · rw [if_neg hhit] at hround
          have h₁ : 0 ≤ s.i + 1 := by omega
          have hi' : s.i + 1 ≤ intMax := by omega
          obtain ⟨x, hx, hout⟩ := ih (s := ⟨rest, b, s.i + 1⟩) hrest h₁ hi'
          exact ⟨_, .again hround hx, .miss hlt hfit hhit ht hout⟩
      · obtain ⟨t, hround, ht⟩ := round_fault (T := T) hg h₀ hlt hfit
        exact ⟨_, .fault hround, .fault lines hlt hfit ht⟩

/-- The search of a whole file comes to one outcome, and no other. -/
theorem exists_runs_start (H : List UInt8 → Digest) (T : Digest) (textBuffer : Buffer 41)
    (fp : List UInt8) :
    ∃ x, Outcome H T 0 (linesOf fp) x ∧ ∀ y, Runs (round H T) (start textBuffer fp) y ↔ y = x := by
  have hi : (start textBuffer fp).i ≤ intMax := show (0 : ℤ) ≤ intMax by decide
  obtain ⟨x, hx, hout⟩ := exists_runs_outcome (H := H) (T := T) (s := start textBuffer fp) rfl
    le_rfl hi
  refine ⟨x, hout, fun y => ⟨fun hy => hy.unique hx, ?_⟩⟩
  rintro rfl
  exact hx

end Class23
end SecureDesign
