/-
# The dictionary search in bounds

What `class23/sha.c` takes as given: that a word, its last byte dropped, fits
the 41 bytes of `textBuffer`, and that there is a last byte to drop.  A line of
up to 42 bytes before its first NUL is such a word, and no other is: a longer
one is copied past the end of the buffer, and one that starts with NUL makes
`strlen(word) - 1` wrap (`Fits`).  Every other access of the loop is in bounds
whatever the file holds.

`Outcome.inBounds_iff` follows the search line by line.  It looks at the lines up
to the first hit, and at no more of them than an `int` counts.
-/

import SecureDesign.Class23.Dictionary

namespace SecureDesign
namespace Class23

open CLang Exec

/-- The search of a file ends with every subtraction and every access of it in
bounds. -/
def StaysInBounds (H : List UInt8 → Digest) (T : Digest) (textBuffer : Buffer 41)
    (file : List UInt8) : Prop :=
  ∃ x, Runs (round H T) (start textBuffer file) x ∧ ∀ e ∈ x.trace, e.InBounds

section

variable {H : List UInt8 → Digest} {T : Digest} {i : ℤ} {lines : List (List UInt8)}
  {x : Exec Event Fault ℤ}

/-- **A search is in bounds exactly on lines that fit**, of those it looks at
before the counter overflows. -/
theorem Outcome.inBounds_iff (h : Outcome H T i lines x) : (∀ e ∈ x.trace, e.InBounds) ↔
    ∀ line ∈ (searched (Hits H T) lines).take (intMax - i).toNat, Fits line := by
  induction h with
  | finish i => simp [searched, Event.InBounds]
  | overflow line lines => simp
  | @fault i line lines t hi hfit ht =>
      obtain ⟨ls, hls⟩ := exists_searched_cons (Hits H T) line lines
      obtain ⟨n, hn⟩ : ∃ n, (intMax - i).toNat = n + 1 := ⟨(intMax - i).toNat - 1, by omega⟩
      obtain ⟨e, he, hout⟩ := ht
      constructor
      · exact fun hin => absurd (hin e he) hout
      · intro hall
        refine absurd (hall line ?_) hfit
        rw [hls, hn]
        exact List.mem_cons_self
  | @hit i line lines t hi hfit hhit ht =>
      obtain ⟨n, hn⟩ : ∃ n, (intMax - i).toNat = n + 1 := ⟨(intMax - i).toNat - 1, by omega⟩
      have hquiet : ∀ e ∈ t, e.InBounds := fun e he => (ht e he).1
      rw [searched_cons_pos hhit, hn]
      simpa [or_imp, forall_and, Event.InBounds, hfit] using hquiet
  | @miss i line lines t x hi hfit hhit ht _ ih =>
      obtain ⟨n, hn⟩ : ∃ n, (intMax - i).toNat = n + 1 := ⟨(intMax - i).toNat - 1, by omega⟩
      have hn' : (intMax - (i + 1)).toNat = n := by omega
      have hquiet : ∀ e ∈ t, e.InBounds := fun e he => (ht e he).1
      rw [hn'] at ih
      rw [searched_cons_neg hhit, hn, List.take_succ_cons, after_trace]
      rw [List.forall_mem_append, List.forall_mem_cons, ih]
      exact ⟨fun h => ⟨hfit, h.2⟩, fun h => ⟨hquiet, h.2⟩⟩

end

/-- A file of one line: `43` times `a`, and a newline. -/
def longLine : List UInt8 := List.replicate 43 97 ++ [newline]

end Class23
end SecureDesign
