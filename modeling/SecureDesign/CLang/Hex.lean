/-
# Hexadecimal text

`printf` with `%0wx` and `%0wX`: the hexadecimal digits of a number, most
significant first, padded on the left with `0` to the width `w` (`printfHex`).
A number below `16 ^ w` fills exactly `w` characters, so the fields of several
bytes printed one after another (`hexText`) can be cut apart again.

`readFields` is the reader: it cuts a text into fields of the width and reads
each as a byte.  `readFields_hexText` is the round trip, for either case of the
letters and every width that holds a byte; `hexText_injective` follows, and with
it two byte strings have the same text exactly when they are equal.
-/

import Mathlib.Data.Nat.Digits.Lemmas

namespace SecureDesign
namespace CLang

/-- The letters of `%x` and of `%X`. -/
inductive HexCase
  | lower
  | upper
  deriving DecidableEq, Repr

/-- The character of a digit below `16`. -/
def hexDigit : HexCase → ℕ → UInt8
  | .lower, d => if d < 10 then UInt8.ofNat (48 + d) else UInt8.ofNat (87 + d)
  | .upper, d => if d < 10 then UInt8.ofNat (48 + d) else UInt8.ofNat (55 + d)

/-- The value of a hexadecimal character, in either case. -/
def hexValue (c : UInt8) : Option ℕ :=
  if 48 ≤ c ∧ c ≤ 57 then some (c.toNat - 48)
  else if 65 ≤ c ∧ c ≤ 70 then some (c.toNat - 55)
  else if 97 ≤ c ∧ c ≤ 102 then some (c.toNat - 87)
  else none

/-- The digits of `n`, most significant first; `0` is written `0`. -/
def hexDigits (n : ℕ) : List ℕ := if n = 0 then [0] else (Nat.digits 16 n).reverse

/-- `printf("%0wx", n)`, and with `%0wX` for the upper case. -/
def printfHex (k : HexCase) (w n : ℕ) : List UInt8 :=
  List.replicate (w - (hexDigits n).length) 48 ++ (hexDigits n).map (hexDigit k)

/-- The number a text of hexadecimal characters stands for, after `acc`. -/
def readHex : ℕ → List UInt8 → Option ℕ
  | acc, [] => some acc
  | acc, c :: cs => (hexValue c).bind fun d => readHex (16 * acc + d) cs

/-- The byte a field stands for. -/
def readByte (field : List UInt8) : Option UInt8 :=
  (readHex 0 field).bind fun n => if n < 256 then some (UInt8.ofNat n) else none

/-- `n` fields of width `w`, read one after another, with nothing left over. -/
def readFieldsAux (w : ℕ) : ℕ → List UInt8 → Option (List UInt8)
  | 0, [] => some []
  | 0, _ :: _ => none
  | n + 1, text =>
      (readByte (text.take w)).bind fun b => (readFieldsAux w n (text.drop w)).map (b :: ·)

/-- A text cut into fields of width `w`, each read as a byte. -/
def readFields (w : ℕ) (text : List UInt8) : Option (List UInt8) :=
  readFieldsAux w (text.length / w) text

/-- The bytes `l`, printed one after another in fields of width `w`. -/
def hexText (k : HexCase) (w : ℕ) (l : List UInt8) : List UInt8 :=
  l.flatMap fun b => printfHex k w b.toNat

@[simp] theorem hexText_nil (k : HexCase) (w : ℕ) : hexText k w [] = [] := rfl

@[simp] theorem hexText_cons (k : HexCase) (w : ℕ) (b : UInt8) (l : List UInt8) :
    hexText k w (b :: l) = printfHex k w b.toNat ++ hexText k w l := rfl

theorem hexText_append (k : HexCase) (w : ℕ) (l l' : List UInt8) :
    hexText k w (l ++ l') = hexText k w l ++ hexText k w l' := List.flatMap_append

theorem hexValue_hexDigit (k : HexCase) : ∀ d < 16, hexValue (hexDigit k d) = some d := by
  cases k <;> decide

theorem hexDigits_lt {n d : ℕ} (h : d ∈ hexDigits n) : d < 16 := by
  unfold hexDigits at h
  split_ifs at h
  · rw [List.mem_singleton.1 h]; omega
  · exact Nat.digits_lt_base (by omega) (List.mem_reverse.1 h)

/-- A byte has at most two digits. -/
theorem length_hexDigits_le {n : ℕ} (h : n < 256) : (hexDigits n).length ≤ 2 := by
  unfold hexDigits
  split_ifs
  · simp
  · rw [List.length_reverse, Nat.digits_length_le_iff (by omega)]
    exact h

/-- Reading the characters of digits folds the digits. -/
theorem readHex_map (k : HexCase) (l : List ℕ) (hl : ∀ d ∈ l, d < 16) (acc : ℕ) :
    readHex acc (l.map (hexDigit k)) = some (l.foldl (fun n d => 16 * n + d) acc) := by
  induction l generalizing acc with
  | nil => rfl
  | cons d l ih =>
      rw [List.map_cons, readHex, hexValue_hexDigit k d (hl d List.mem_cons_self), Option.bind_some,
        ih (fun e he => hl e (List.mem_cons_of_mem _ he)), List.foldl_cons]

/-- Leading zeros do not count. -/
theorem readHex_replicate (n : ℕ) (text : List UInt8) :
    readHex 0 (List.replicate n 48 ++ text) = readHex 0 text := by
  induction n with
  | zero => rfl
  | succ n ih =>
      rw [List.replicate_succ, List.cons_append, readHex]
      exact ih

theorem foldl_hexDigits (n : ℕ) : (hexDigits n).foldl (fun m d => 16 * m + d) 0 = n := by
  unfold hexDigits
  split_ifs with h
  · simp [h]
  · calc (Nat.digits 16 n).reverse.foldl (fun m d => 16 * m + d) 0
        = (Nat.digits 16 n).foldr (fun d m => d + 16 * m) 0 := by
          rw [List.foldl_reverse]
          congr 1
          funext d m
          exact Nat.add_comm _ _
      _ = Nat.ofDigits 16 (Nat.digits 16 n) := (Nat.ofDigits_eq_foldr 16 _).symm
      _ = n := Nat.ofDigits_digits 16 n

/-- **A printed number reads back as itself.** -/
theorem readHex_printfHex (k : HexCase) (w n : ℕ) : readHex 0 (printfHex k w n) = some n := by
  rw [printfHex, readHex_replicate, readHex_map k _ (fun d hd => hexDigits_lt hd), foldl_hexDigits]

theorem readByte_printfHex (k : HexCase) (w : ℕ) (b : UInt8) :
    readByte (printfHex k w b.toNat) = some b := by
  have hb : b.toNat < 256 := b.toNat_lt
  rw [readByte, readHex_printfHex, Option.bind_some, if_pos hb, UInt8.ofNat_toNat]

section Fields

variable {w : ℕ} (hw : 2 ≤ w)
include hw

/-- A byte fills its field exactly. -/
theorem length_printfHex (k : HexCase) (b : UInt8) : (printfHex k w b.toNat).length = w := by
  have := length_hexDigits_le b.toNat_lt
  rw [printfHex, List.length_append, List.length_replicate, List.length_map]
  omega

theorem length_hexText (k : HexCase) (l : List UInt8) : (hexText k w l).length = w * l.length := by
  induction l with
  | nil => rfl
  | cons b l ih =>
      rw [hexText_cons, List.length_append, length_printfHex hw, ih, List.length_cons,
        Nat.mul_succ, Nat.add_comm]

theorem readFieldsAux_hexText (k : HexCase) (l : List UInt8) :
    readFieldsAux w l.length (hexText k w l) = some l := by
  induction l with
  | nil => rfl
  | cons b l ih =>
      have hb := length_printfHex hw k b
      rw [List.length_cons, readFieldsAux, hexText_cons, List.take_left' hb,
        List.drop_left' hb, readByte_printfHex, Option.bind_some, ih, Option.map_some]

/-- **Round trip.**  The fields of a byte string read back as the string. -/
theorem readFields_hexText (k : HexCase) (l : List UInt8) :
    readFields w (hexText k w l) = some l := by
  rw [readFields, length_hexText hw, Nat.mul_div_cancel_left _ (by omega),
    readFieldsAux_hexText hw]

/-- **Byte strings with one text are equal.** -/
theorem hexText_injective (k : HexCase) : Function.Injective (hexText k w) := by
  intro l l' h
  have := readFields_hexText hw k l
  rw [h, readFields_hexText hw] at this
  exact (Option.some.inj this).symm

end Fields

/-- A hexadecimal text holds no NUL. -/
theorem zero_notMem_hexText (k : HexCase) (w : ℕ) (l : List UInt8) : 0 ∉ hexText k w l := by
  have hd : ∀ d < 16, hexDigit k d ≠ 0 := by cases k <;> decide
  intro h
  obtain ⟨b, -, hb⟩ := List.mem_flatMap.1 h
  rcases List.mem_append.1 hb with hb | hb
  · exact absurd (List.eq_of_mem_replicate hb) (by decide)
  · obtain ⟨d, hd', h0⟩ := List.mem_map.1 hb
    exact hd d (hexDigits_lt hd') h0

example : hexText .upper 2 [0xA8, 0x00] = [65, 56, 48, 48] := by decide

end CLang
end SecureDesign
