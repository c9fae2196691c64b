/-
# The lines of a file

`getline` of the C library hands out the bytes of a file line by line: up to and
with the next newline, or all that is left when there is none.  `linesOf` is the
whole file as that list of lines, and `chomp` is a line without its newline.
The lines joined are the file (`flatten_linesOf`), none is empty, and all but
the last end in a newline (`getLast?_of_mem_dropLast`).

A search that stops at the first hit looks at the lines `searched`.
-/

import Mathlib.Data.List.Basic

namespace SecureDesign
namespace Class23

/-- `'\n'`. -/
def newline : UInt8 := 10

/-- `getline`: the next line with its newline, and the bytes after it.  At the
end of the file there is none. -/
def getline : List UInt8 → Option (List UInt8 × List UInt8)
  | [] => none
  | c :: cs =>
      if c = newline then some ([c], cs)
      else
        match getline cs with
        | none => some ([c], [])
        | some (line, fp) => some (c :: line, fp)

/-- The byte `c` put in front of the first line. -/
def consHead (c : UInt8) : List (List UInt8) → List (List UInt8)
  | [] => [[c]]
  | line :: lines => (c :: line) :: lines

/-- The lines of a file, each with its newline. -/
def linesOf : List UInt8 → List (List UInt8)
  | [] => []
  | c :: cs => if c = newline then [c] :: linesOf cs else consHead c (linesOf cs)

/-- A line without its newline. -/
def chomp (line : List UInt8) : List UInt8 :=
  if line.getLast? = some newline then line.dropLast else line

/-- The elements up to and with the first that satisfies `p`; all of them when
none does. -/
def searched {α : Type} (p : α → Prop) [DecidablePred p] : List α → List α
  | [] => []
  | a :: l => if p a then [a] else a :: searched p l

section

variable {c : UInt8} {fp rest line : List UInt8}

theorem linesOf_newline (cs : List UInt8) : linesOf (newline :: cs) = [newline] :: linesOf cs :=
  if_pos rfl

theorem linesOf_cons (hc : c ≠ newline) (cs : List UInt8) :
    linesOf (c :: cs) = consHead c (linesOf cs) := if_neg hc

theorem flatten_consHead (c : UInt8) (lines : List (List UInt8)) :
    (consHead c lines).flatten = c :: lines.flatten := by
  cases lines <;> rfl

theorem linesOf_of_getline_eq_none (h : getline fp = none) : linesOf fp = [] := by
  cases fp with
  | nil => rfl
  | cons c cs =>
      unfold getline at h
      split_ifs at h
      split at h <;> cases h

/-- **`getline` takes off the first of the lines.** -/
theorem linesOf_of_getline_eq_some (h : getline fp = some (line, rest)) :
    linesOf fp = line :: linesOf rest := by
  induction fp generalizing line with
  | nil => cases h
  | cons c cs ih =>
      unfold getline at h
      by_cases hc : c = newline
      · rw [if_pos hc] at h
        cases h
        rw [hc, linesOf_newline]
      · rw [if_neg hc] at h
        rw [linesOf_cons hc]
        cases hcs : getline cs with
        | none =>
            rw [hcs] at h
            cases h
            rw [linesOf_of_getline_eq_none hcs]
            rfl
        | some p =>
            obtain ⟨l, r⟩ := p
            rw [hcs] at h
            cases h
            rw [ih hcs]
            rfl

/-- The first line is what the next `getline` returns. -/
theorem exists_getline {lines : List (List UInt8)} (h : linesOf fp = line :: lines) :
    ∃ rest, getline fp = some (line, rest) ∧ linesOf rest = lines := by
  cases hg : getline fp with
  | none =>
      rw [linesOf_of_getline_eq_none hg] at h
      cases h
  | some p =>
      obtain ⟨l, r⟩ := p
      rw [linesOf_of_getline_eq_some hg] at h
      obtain ⟨rfl, rfl⟩ := List.cons.inj h
      exact ⟨r, rfl, rfl⟩

/-- A file without lines is at its end. -/
theorem getline_eq_none (h : linesOf fp = []) : getline fp = none := by
  cases hg : getline fp with
  | none => rfl
  | some p =>
      obtain ⟨l, r⟩ := p
      rw [linesOf_of_getline_eq_some hg] at h
      cases h

/-- The lines one after another are the file. -/
theorem flatten_linesOf (fp : List UInt8) : (linesOf fp).flatten = fp := by
  induction fp with
  | nil => rfl
  | cons c cs ih =>
      by_cases hc : c = newline
      · rw [hc, linesOf_newline, List.flatten_cons, ih, List.singleton_append]
      · rw [linesOf_cons hc, flatten_consHead, ih]

/-- No line is empty. -/
theorem ne_nil_of_mem_linesOf (h : line ∈ linesOf fp) : line ≠ [] := by
  induction fp generalizing line with
  | nil => exact absurd h List.not_mem_nil
  | cons c cs ih =>
      by_cases hc : c = newline
      · rw [hc, linesOf_newline] at h
        rcases List.mem_cons.1 h with rfl | h
        · exact List.cons_ne_nil _ _
        · exact ih h
      · rw [linesOf_cons hc] at h
        cases hcs : linesOf cs with
        | nil =>
            rw [hcs] at h
            rw [List.mem_singleton.1 h]
            exact List.cons_ne_nil _ _
        | cons l ls =>
            rw [hcs] at h ih
            rcases List.mem_cons.1 h with rfl | h
            · exact List.cons_ne_nil _ _
            · exact ih (List.mem_cons_of_mem _ h)

theorem mem_dropLast_cons {α : Type} {a b : α} {l : List α} (h : a ∈ (b :: l).dropLast) :
    l ≠ [] ∧ (a = b ∨ a ∈ l.dropLast) := by
  cases l with
  | nil => exact absurd h List.not_mem_nil
  | cons d l => exact ⟨List.cons_ne_nil _ _, List.mem_cons.1 h⟩

/-- **A newline ends every line but the last.** -/
theorem getLast?_of_mem_dropLast (h : line ∈ (linesOf fp).dropLast) :
    line.getLast? = some newline := by
  induction fp generalizing line with
  | nil => exact absurd h List.not_mem_nil
  | cons c cs ih =>
      by_cases hc : c = newline
      · rw [hc, linesOf_newline] at h
        obtain ⟨-, rfl | h⟩ := mem_dropLast_cons h
        · rfl
        · exact ih h
      · rw [linesOf_cons hc] at h
        cases hcs : linesOf cs with
        | nil =>
            rw [hcs] at h
            exact absurd h List.not_mem_nil
        | cons l ls =>
            rw [hcs] at h ih
            obtain ⟨hls, rfl | h⟩ := mem_dropLast_cons h
            · have hl : l.getLast? = some newline :=
                ih (by rw [List.dropLast_cons_of_ne_nil hls]; exact List.mem_cons_self)
              rw [List.getLast?_cons, hl]
              rfl
            · exact ih (by rw [List.dropLast_cons_of_ne_nil hls]; exact List.mem_cons_of_mem _ h)

/-- The lines of a file hold only bytes of the file. -/
theorem mem_of_mem_linesOf {b : UInt8} (h : line ∈ linesOf fp) (hb : b ∈ line) : b ∈ fp := by
  rw [← flatten_linesOf fp]
  exact List.mem_flatten_of_mem h hb

end

section Searched

variable {α : Type} {p q : α → Prop} [DecidablePred p] [DecidablePred q] {a : α} {l : List α}

theorem searched_cons_pos (h : p a) : searched p (a :: l) = [a] := if_pos h

theorem searched_cons_neg (h : ¬ p a) : searched p (a :: l) = a :: searched p l := if_neg h

/-- The first element is always looked at. -/
theorem exists_searched_cons (p : α → Prop) [DecidablePred p] (a : α) (l : List α) :
    ∃ l', searched p (a :: l) = a :: l' := by
  by_cases h : p a
  · exact ⟨[], searched_cons_pos h⟩
  · exact ⟨searched p l, searched_cons_neg h⟩

/-- What is looked at does not depend on the last element. -/
theorem searched_concat_congr (h : ∀ b ∈ l, p b ↔ q b) (a : α) :
    searched p (l ++ [a]) = searched q (l ++ [a]) := by
  induction l with
  | nil => simp only [List.nil_append, searched, ite_self]
  | cons b l ih =>
      have hb := h b List.mem_cons_self
      have ih := ih fun d hd => h d (List.mem_cons_of_mem _ hd)
      rw [List.cons_append]
      by_cases hp : p b
      · rw [searched_cons_pos hp, searched_cons_pos (hb.1 hp)]
      · rw [searched_cons_neg hp, searched_cons_neg (mt hb.2 hp), ih]

/-- **Two searches that differ in the last element alone** find the same exactly
when they agree on it or one before it is a hit. -/
theorem find?_concat_congr_iff (h : ∀ b ∈ l, p b ↔ q b) (a : α) :
    (l ++ [a]).find? p = (l ++ [a]).find? q ↔ ((∀ b ∈ l, ¬ q b) → (p a ↔ q a)) := by
  induction l with
  | nil =>
      by_cases hp : p a <;> by_cases hq : q a <;> simp [hp, hq]
  | cons b l ih =>
      have hb := h b List.mem_cons_self
      have ih := ih fun d hd => h d (List.mem_cons_of_mem _ hd)
      rw [List.cons_append]
      by_cases hp : p b
      · have hq : q b := hb.1 hp
        simp [hp, hq]
      · have hq : ¬ q b := mt hb.2 hp
        simpa [hp, hq] using ih

end Searched

example : linesOf [97, 10, 10, 98] = [[97, 10], [10], [98]] := by decide

end Class23
end SecureDesign
