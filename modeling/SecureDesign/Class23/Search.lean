/-
# What the dictionary search finds

`class23/sha.c` hashes a line without its last byte.  That is the line without
its newline, except where the last line of the file has none: there it is the
word without its last letter.

On a dictionary of words that fit, the search ends with the first line that it
takes for a hit, or past the last one (`Outcome.report`), unless its counter
overflows before (`Outcome.result_eq_overflow`).  So it reports the first word of
the digest searched for, or that there is none, exactly when the counter does
not overflow and the letter dropped from an unterminated last line makes no
difference (`search_findsWord_iff`).
-/

import SecureDesign.Class23.Dictionary

namespace SecureDesign
namespace Class23

open CLang Exec

/-- A dictionary: lines of at most `40` bytes, newline excluded, without NUL. -/
structure Dictionary where
  bytes : List UInt8
  noNul : 0 ∉ bytes
  short : ∀ line ∈ linesOf bytes, (chomp line).length ≤ 40

/-- The bytes of the line, newline excluded, have digest `T`. -/
def Matches (H : List UInt8 → Digest) (T : Digest) (line : List UInt8) : Prop := H (chomp line) = T

instance (H : List UInt8 → Digest) (T : Digest) : DecidablePred (Matches H T) :=
  fun line => inferInstanceAs (Decidable (H (chomp line) = T))

/-- The text printed for the line found, if any. -/
def report : Option (List UInt8) → List UInt8
  | some line => wordIs line
  | none => finished

/-- What the search is for: it ends, and all it prints is the first line whose
digest is `T`, or that there is none. -/
def FindsWord (H : List UInt8 → Digest) (T : Digest) (textBuffer : Buffer 41) (d : Dictionary) :
    Prop :=
  ∃ x, Runs (round H T) (start textBuffer d.bytes) x ∧ x.result = .ok 0 ∧
    printed x.trace = [report ((linesOf d.bytes).find? (Matches H T))]

/-- The lines up to the first of digest `T` are no more than an `int` counts, and
on a last line without a newline, when none before it has that digest, the
letter dropped makes no difference to the hit. -/
structure Searchable (H : List UInt8 → Digest) (T : Digest) (d : Dictionary) : Prop where
  counted : ((searched (Matches H T) (linesOf d.bytes)).length : ℤ) ≤ intMax
  last : ∀ line, (linesOf d.bytes).getLast? = some line → line.getLast? ≠ some newline →
    (∀ l ∈ (linesOf d.bytes).dropLast, ¬ Matches H T l) → (H line.dropLast = T ↔ H line = T)

section Lines

variable {d : Dictionary} {line : List UInt8}

theorem Dictionary.zero_notMem (h : line ∈ linesOf d.bytes) : 0 ∉ line := fun h0 =>
  d.noNul (mem_of_mem_linesOf h h0)

/-- The words of a dictionary fit. -/
theorem Dictionary.fits (h : line ∈ linesOf d.bytes) : Fits line := by
  have hne := ne_nil_of_mem_linesOf h
  have hshort := d.short line h
  have hstr : strlen line = line.length := by
    unfold strlen
    rw [cstr_of_notMem (d.zero_notMem h)]
  have hpos : 0 < line.length := List.length_pos_iff.2 hne
  have hchomp : line.length ≤ (chomp line).length + 1 := by
    unfold chomp
    split_ifs
    · rw [List.length_dropLast]
      omega
    · omega
  constructor <;> omega

/-- A line that ends in a newline is a hit when its digest is `T`. -/
theorem hits_iff_matches {H : List UInt8 → Digest} {T : Digest} (h : line ∈ linesOf d.bytes)
    (hend : line.getLast? = some newline) : Hits H T line ↔ Matches H T line := by
  unfold Hits Matches chomp
  rw [cstr_of_notMem (d.zero_notMem h), if_pos hend]

/-- Without one it is a hit when it is without its last letter. -/
theorem hits_iff_matches_iff {H : List UInt8 → Digest} {T : Digest} (h : line ∈ linesOf d.bytes) :
    (Hits H T line ↔ Matches H T line) ↔
      (line.getLast? ≠ some newline → (H line.dropLast = T ↔ H line = T)) := by
  by_cases hend : line.getLast? = some newline
  · have hsame : Hits H T line ↔ Matches H T line := hits_iff_matches h hend
    exact ⟨fun _ hne => absurd hend hne, fun _ => hsame⟩
  · have hhits : Hits H T line ↔ H line.dropLast = T := by
      unfold Hits
      rw [cstr_of_notMem (d.zero_notMem h)]
    have hmatches : Matches H T line ↔ H line = T := by
      unfold Matches chomp
      rw [if_neg hend]
    rw [hhits, hmatches]
    exact ⟨fun hiff _ => hiff, fun hiff => hiff hend⟩

/-- Different lines are reported differently, and none as the end of the file. -/
theorem report_injOn {o o' : Option (List UInt8)} (ho : ∀ line ∈ o, 0 ∉ line)
    (ho' : ∀ line ∈ o', 0 ∉ line) (h : report o = report o') : o = o' := by
  have hword (line : List UInt8) : wordIs line ≠ finished := fun heq => by
    have hhead := congrArg List.head? heq
    simp [wordIs, finished, ascii] at hhead
  cases o with
  | none =>
      cases o' with
      | none => rfl
      | some line' => exact absurd h.symm (hword line')
  | some line =>
      cases o' with
      | none => exact absurd h (hword line)
      | some line' =>
          have hcstr := List.append_cancel_left h
          rw [cstr_of_notMem (ho line rfl), cstr_of_notMem (ho' line' rfl)] at hcstr
          rw [hcstr]

end Lines

section Outcomes

variable {H : List UInt8 → Digest} {T : Digest} {i : ℤ} {lines : List (List UInt8)}
  {x : Exec Event Fault ℤ}

theorem printed_append (t u : List Event) : printed (t ++ u) = printed t ++ printed u :=
  List.filterMap_append

/-- **Within the range of the counter the search reports the first hit**, among
lines that fit. -/
theorem Outcome.report (h : Outcome H T i lines x) (hfit : ∀ line ∈ lines, Fits line)
    (hlen : i + (searched (Hits H T) lines).length ≤ intMax) :
    x.result = .ok 0 ∧ printed x.trace = [report (lines.find? (Hits H T))] := by
  induction h with
  | finish i => exact ⟨rfl, rfl⟩
  | overflow line lines =>
      obtain ⟨ls, hls⟩ := exists_searched_cons (Hits H T) line lines
      rw [hls, List.length_cons] at hlen
      omega
  | fault lines hi hnot ht => exact absurd (hfit _ List.mem_cons_self) hnot
  | hit lines hi hline hhit ht =>
      refine ⟨rfl, ?_⟩
      rw [printed_append, printed_of_quiet ht, List.find?_cons_of_pos (by simpa using hhit)]
      rfl
  | miss hi hline hhit ht _ ih =>
      rw [searched_cons_neg hhit, List.length_cons] at hlen
      obtain ⟨hok, hprinted⟩ := ih (fun l hl => hfit l (List.mem_cons_of_mem _ hl)) (by omega)
      refine ⟨hok, ?_⟩
      rw [after_trace, printed_append, printed_of_quiet ht, hprinted,
        List.find?_cons_of_neg (by simpa using hhit)]
      rfl

/-- **Past it the search stops at the overflow.** -/
theorem Outcome.result_eq_overflow (h : Outcome H T i lines x) (hfit : ∀ line ∈ lines, Fits line)
    (hi : i ≤ intMax) (hlen : intMax < i + (searched (Hits H T) lines).length) :
    x.result = .error .signedOverflow := by
  induction h with
  | finish i =>
      simp only [searched, List.length_nil] at hlen
      omega
  | overflow line lines => rfl
  | fault lines hlt hnot ht => exact absurd (hfit _ List.mem_cons_self) hnot
  | hit lines hlt hline hhit ht =>
      rw [searched_cons_pos hhit, List.length_singleton] at hlen
      omega
  | miss hlt hline hhit ht _ ih =>
      rw [searched_cons_neg hhit, List.length_cons] at hlen
      exact ih (fun l hl => hfit l (List.mem_cons_of_mem _ hl)) (by omega) (by omega)

end Outcomes

section

variable {H : List UInt8 → Digest} {T : Digest} {d : Dictionary}

/-- The search does its task when its hits are the lines of digest `T`, as far
as the first of them goes, and it gets that far. -/
theorem findsWord_iff (textBuffer : Buffer 41) :
    FindsWord H T textBuffer d ↔
      ((searched (Hits H T) (linesOf d.bytes)).length : ℤ) ≤ intMax ∧
        (linesOf d.bytes).find? (Hits H T) = (linesOf d.bytes).find? (Matches H T) := by
  obtain ⟨x, hout, hruns⟩ := exists_runs_start H T textBuffer d.bytes
  have hfit : ∀ line ∈ linesOf d.bytes, Fits line := fun line => d.fits
  have hnul {p : List UInt8 → Bool} : ∀ line ∈ (linesOf d.bytes).find? p, 0 ∉ line :=
    fun line h => d.zero_notMem (List.mem_of_find?_eq_some h)
  constructor
  · rintro ⟨y, hy, hok, hprinted⟩
    rw [(hruns y).1 hy] at hok hprinted
    have hlen : ((searched (Hits H T) (linesOf d.bytes)).length : ℤ) ≤ intMax := by
      by_contra hlen
      rw [hout.result_eq_overflow hfit (by decide) (by omega)] at hok
      cases hok
    obtain ⟨-, hreport⟩ := hout.report hfit (by omega)
    rw [hreport] at hprinted
    exact ⟨hlen, report_injOn hnul hnul (List.cons.inj hprinted).1⟩
  · rintro ⟨hlen, hfind⟩
    obtain ⟨hok, hreport⟩ := hout.report hfit (by omega)
    rw [hfind] at hreport
    exact ⟨x, (hruns x).2 rfl, hok, hreport⟩

/-- **The search finds the first word of the digest exactly on a searchable
dictionary**, whatever `textBuffer` held before. -/
theorem search_findsWord_iff (H : List UInt8 → Digest) (T : Digest) (textBuffer : Buffer 41)
    (d : Dictionary) : FindsWord H T textBuffer d ↔ Searchable H T d := by
  rw [findsWord_iff]
  rcases List.eq_nil_or_concat' (linesOf d.bytes) with hnil | ⟨init, line, hlines⟩
  · have hcounted : ((searched (Matches H T) (linesOf d.bytes)).length : ℤ) ≤ intMax := by
      rw [hnil]
      exact show (0 : ℤ) ≤ intMax by decide
    have hsearchable : Searchable H T d :=
      ⟨hcounted, fun line hline => by simp [hnil] at hline⟩
    refine ⟨fun _ => hsearchable, fun _ => ?_⟩
    rw [hnil] at hcounted ⊢
    exact ⟨hcounted, rfl⟩
  · have hinit : ∀ l ∈ init, Hits H T l ↔ Matches H T l := by
      intro l hl
      have hmem : l ∈ linesOf d.bytes := by
        rw [hlines]
        exact List.mem_append_left _ hl
      have hdrop : l ∈ (linesOf d.bytes).dropLast := by rwa [hlines, List.dropLast_concat]
      exact hits_iff_matches hmem (getLast?_of_mem_dropLast hdrop)
    have hline : line ∈ linesOf d.bytes := by
      rw [hlines]
      exact List.mem_append_right _ List.mem_cons_self
    have hlast : (linesOf d.bytes).getLast? = some line := by rw [hlines, List.getLast?_concat]
    have hdropLast : (linesOf d.bytes).dropLast = init := by rw [hlines, List.dropLast_concat]
    have hsearched : searched (Hits H T) (linesOf d.bytes) =
        searched (Matches H T) (linesOf d.bytes) := by
      rw [hlines]
      exact searched_concat_congr hinit line
    have hfind : (linesOf d.bytes).find? (Hits H T) = (linesOf d.bytes).find? (Matches H T) ↔
        ((∀ l ∈ init, ¬ Matches H T l) → (Hits H T line ↔ Matches H T line)) := by
      rw [hlines]
      exact find?_concat_congr_iff hinit line
    rw [hsearched, hfind, hits_iff_matches_iff hline]
    constructor
    · rintro ⟨hcounted, h⟩
      refine ⟨hcounted, fun l hl hend hnone => ?_⟩
      obtain rfl : line = l := Option.some.inj (hlast.symm.trans hl)
      rw [hdropLast] at hnone
      exact h hnone hend
    · rintro ⟨hcounted, h⟩
      refine ⟨hcounted, fun hnone hend => h line hlast hend ?_⟩
      rwa [hdropLast]

end

/-- A hash for examples: the text itself, filled up with NULs or cut to `32`
bytes. -/
def padded (text : List UInt8) : Digest :=
  ⟨(text ++ List.replicate 32 0).take 32, by simp⟩

/-- The file of the one word `ab`, with no newline after it. -/
def unterminated : Dictionary where
  bytes := ascii "ab"
  noNul := by decide
  short := by decide

/-- The word `ab` is not found: `a` is hashed. -/
theorem unterminated_not_findsWord :
    ¬ FindsWord padded (padded (ascii "ab")) (.filled 41 0) unterminated := by
  rw [findsWord_iff]
  decide

end Class23
end SecureDesign
