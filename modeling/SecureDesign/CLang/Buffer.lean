/-
# Objects in memory and the strings of C

An object of `n` bytes is a `Buffer n`: a byte list that carries its length.
Every access states the bytes it touches and is checked against the object
(`byteAt`, `read`, `write` are `none` outside of it).  A C string is what
precedes the first NUL: `cstr` and `strlen` on raw bytes, `cstring` on an
object, where a missing terminator is an error.  `strncpy` writes exactly as
many bytes as it is told to, copied ones first and NULs after them.
-/

import Mathlib.Data.List.Basic
import Mathlib.Data.List.TakeWhile

namespace SecureDesign
namespace CLang

/-- An object of `n` bytes. -/
@[ext]
structure Buffer (n : ℕ) where
  bytes : List UInt8
  length_bytes : bytes.length = n
  deriving DecidableEq

attribute [simp] Buffer.length_bytes

/-- A string of C without its terminator: no byte of it is NUL. -/
@[ext]
structure CString where
  bytes : List UInt8
  noNul : 0 ∉ bytes
  deriving DecidableEq

/-- The bytes of a text of ASCII characters. -/
def ascii (s : String) : List UInt8 := s.toList.map fun c => UInt8.ofNat c.toNat

/-- The string at the start of the bytes `l`: what precedes the first NUL. -/
def cstr (l : List UInt8) : List UInt8 := l.takeWhile (· ≠ 0)

/-- `strlen`. -/
def strlen (l : List UInt8) : ℕ := (cstr l).length

/-- What precedes the first NUL, when the terminator is there. -/
theorem cstr_append_zero {l : List UInt8} (h : 0 ∉ l) (r : List UInt8) :
    cstr (l ++ 0 :: r) = l := by
  unfold cstr
  rw [List.takeWhile_append_of_pos fun a ha => by
    have : a ≠ 0 := fun h0 => h (h0 ▸ ha)
    simpa using this]
  simp

/-- A line without NUL is its own string. -/
theorem cstr_of_notMem {l : List UInt8} (h : 0 ∉ l) : cstr l = l := by
  unfold cstr
  rw [List.takeWhile_eq_self_iff]
  intro a ha
  have : a ≠ 0 := fun h0 => h (h0 ▸ ha)
  simpa using this

/-- A terminator at the end changes nothing. -/
theorem cstr_concat_zero (l : List UInt8) : cstr (l ++ [0]) = cstr l := by
  unfold cstr
  rw [List.takeWhile_append]
  split_ifs with h
  · have hl := (List.takeWhile_prefix _).eq_of_length h
    rw [hl]
    exact List.append_nil l
  · rfl

namespace Buffer

variable {n : ℕ}

/-- The object of `n` bytes `c`, as `memset` leaves it. -/
def filled (n : ℕ) (c : UInt8) : Buffer n := ⟨List.replicate n c, List.length_replicate⟩

/-- The byte at offset `i`. -/
def byteAt (b : Buffer n) (i : ℤ) : Option UInt8 := if 0 ≤ i then b.bytes[i.toNat]? else none

/-- The `len` bytes from offset `off` on. -/
def read (b : Buffer n) (off len : ℕ) : Option (List UInt8) :=
  if off + len ≤ n then some ((b.bytes.drop off).take len) else none

/-- The object with `src` written at offset `off`. -/
def write (b : Buffer n) (off : ℕ) (src : List UInt8) : Option (Buffer n) :=
  if h : off + src.length ≤ n then
    some ⟨b.bytes.take off ++ src ++ b.bytes.drop (off + src.length), by
      simp only [List.length_append, List.length_take, List.length_drop, length_bytes]; omega⟩
  else none

/-- The string at the start of the object, if it is terminated inside. -/
def cstring (b : Buffer n) : Option (List UInt8) :=
  if 0 ∈ b.bytes then some (cstr b.bytes) else none

/-- `strncpy(b, src, len)`: `len` bytes, the string of `src` padded with NULs. -/
def strncpy (b : Buffer n) (src : List UInt8) (len : ℕ) : Option (Buffer n) :=
  if len ≤ n then
    b.write 0 ((cstr src).take len ++ List.replicate (len - strlen src) 0)
  else none

@[simp] theorem byteAt_natCast (b : Buffer n) (k : ℕ) : b.byteAt k = b.bytes[k]? := by
  rw [byteAt, if_pos (Int.natCast_nonneg k), Int.toNat_natCast]

/-- Inside the object there is a byte. -/
theorem exists_byteAt (b : Buffer n) {k : ℕ} (h : k < n) : ∃ c, b.bytes[k]? = some c :=
  ⟨_, List.getElem?_eq_getElem (by simpa using h)⟩

theorem read_eq_some (b : Buffer n) {off len : ℕ} (h : off + len ≤ n) :
    b.read off len = some ((b.bytes.drop off).take len) := if_pos h

theorem read_eq_none (b : Buffer n) {off len : ℕ} (h : n < off + len) : b.read off len = none :=
  if_neg (by omega)

/-- A write inside the object keeps what precedes it and lays `src` down there. -/
theorem exists_write (b : Buffer n) {off : ℕ} {src : List UInt8} (h : off + src.length ≤ n) :
    ∃ b', b.write off src = some b' ∧
      b'.bytes = b.bytes.take off ++ src ++ b.bytes.drop (off + src.length) :=
  ⟨_, dif_pos h, rfl⟩

/-- **A copy no longer than the string it copies is its prefix.** -/
theorem exists_strncpy (b : Buffer n) {src : List UInt8} {len : ℕ} (hlen : len ≤ strlen src)
    (h : len ≤ n) :
    ∃ b', b.strncpy src len = some b' ∧ b'.read 0 len = some ((cstr src).take len) := by
  have hl : ((cstr src).take len ++ List.replicate (len - strlen src) 0).length = len := by
    simp only [strlen] at hlen
    simp only [List.length_append, List.length_take, List.length_replicate, strlen]
    omega
  obtain ⟨b', hb, hbytes⟩ := b.exists_write (show 0 + _ ≤ n by rw [hl]; omega)
  refine ⟨b', by rw [strncpy, if_pos h, hb], ?_⟩
  rw [read_eq_some _ (by omega), hbytes, List.drop_zero, List.take_zero, List.nil_append,
    List.take_left' hl]
  simp [Nat.sub_eq_zero_of_le hlen]

theorem strncpy_eq_none (b : Buffer n) (src : List UInt8) {len : ℕ} (h : n < len) :
    b.strncpy src len = none := if_neg (by omega)

end Buffer

end CLang
end SecureDesign
