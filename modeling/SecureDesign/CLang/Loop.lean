/-
# Loops of C code

A `while` loop is a step function: from the state of the locals one round makes
its events and either goes round again in a new state (`.inl`), leaves the loop
with a value (`.inr`; a `return` inside the loop leaves it too), or faults.
`iterate step n s` runs at most `n` rounds and can be evaluated; `Runs step s x`
says that the loop started in `s` ends, and that `x` is everything it did.  A
loop that goes round for ever runs to no `x`.

The rules: `Runs.again`, `Runs.leave` and `Runs.fault` follow the three ways a
round can end, `Runs.unique` makes the outcome a function of the state, and
`exists_runs_of_variant` is total correctness from an invariant that sees the
events so far, with a variant that every round lowers.
-/

import SecureDesign.CLang.Exec

namespace SecureDesign
namespace CLang

variable {ω ε σ ρ : Type}

/-- At most `n` rounds of the loop from `s`; `none` when they do not suffice. -/
def iterate (step : σ → Exec ω ε (σ ⊕ ρ)) : ℕ → σ → Option (Exec ω ε ρ)
  | 0, _ => none
  | n + 1, s =>
      match (step s).result with
      | .error e => some ⟨(step s).trace, .error e⟩
      | .ok (.inr r) => some ⟨(step s).trace, .ok r⟩
      | .ok (.inl s') => (iterate step n s').map (Exec.after (step s).trace)

/-- The loop from `s` ends and does `x`. -/
def Runs (step : σ → Exec ω ε (σ ⊕ ρ)) (s : σ) (x : Exec ω ε ρ) : Prop :=
  ∃ n, iterate step n s = some x

section

variable {step : σ → Exec ω ε (σ ⊕ ρ)} {s s' : σ} {t : List ω} {x y : Exec ω ε ρ}

/-- More rounds than needed change nothing. -/
theorem iterate_mono {m n : ℕ} (hmn : m ≤ n) (h : iterate step m s = some x) :
    iterate step n s = some x := by
  induction m generalizing n s x with
  | zero => simp [iterate] at h
  | succ m ih =>
      obtain ⟨k, rfl⟩ : ∃ k, n = k + 1 := ⟨n - 1, by omega⟩
      unfold iterate at h ⊢
      cases hr : (step s).result with
      | error e => simpa only [hr] using h
      | ok o =>
          rcases o with s' | r
          · simp only [hr, Option.map_eq_some_iff] at h ⊢
            obtain ⟨y, hy, rfl⟩ := h
            exact ⟨y, ih (by omega) hy, rfl⟩
          · simpa only [hr] using h

/-- **A loop does one thing only.** -/
theorem Runs.unique (hx : Runs step s x) (hy : Runs step s y) : x = y := by
  obtain ⟨m, hm⟩ := hx
  obtain ⟨n, hn⟩ := hy
  have h₁ := iterate_mono (Nat.le_max_left m n) hm
  have h₂ := iterate_mono (Nat.le_max_right m n) hn
  exact Option.some.inj (h₁.symm.trans h₂)

/-- A round that faults ends the loop there. -/
theorem Runs.fault {e : ε} (h : step s = ⟨t, .error e⟩) : Runs step s ⟨t, .error e⟩ :=
  ⟨1, by simp only [iterate, h]⟩

/-- A round that leaves ends the loop with its value. -/
theorem Runs.leave {r : ρ} (h : step s = ⟨t, .ok (.inr r)⟩) : Runs step s ⟨t, .ok r⟩ :=
  ⟨1, by simp only [iterate, h]⟩

/-- A round that goes on is followed by the loop from the new state. -/
theorem Runs.again (h : step s = ⟨t, .ok (.inl s')⟩) (hx : Runs step s' x) :
    Runs step s (x.after t) := by
  obtain ⟨n, hn⟩ := hx
  exact ⟨n + 1, by simp only [iterate, h, hn, Option.map_some]⟩

/-- What a proof of a loop owes of the round from `s`, after the events `t`: it
goes on with the invariant `I` kept and the variant `v` lowered, or it ends the
loop with `Q`. -/
inductive Progress (step : σ → Exec ω ε (σ ⊕ ρ)) (I : List ω → σ → Prop) (v : σ → ℕ)
    (Q : List ω → Except ε ρ → Prop) (t : List ω) (s : σ) : Prop
  | again {u : List ω} {s' : σ} (h : step s = ⟨u, .ok (.inl s')⟩) (hI : I (t ++ u) s')
      (hv : v s' < v s)
  | leave {u : List ω} {r : ρ} (h : step s = ⟨u, .ok (.inr r)⟩) (hQ : Q (t ++ u) (.ok r))
  | fault {u : List ω} {e : ε} (h : step s = ⟨u, .error e⟩) (hQ : Q (t ++ u) (.error e))

/-- **Total correctness of a loop.**  An invariant of the events so far and the
state, and a variant that every round lowers: the loop ends, with `Q`. -/
theorem exists_runs_of_variant {I : List ω → σ → Prop} (v : σ → ℕ)
    {Q : List ω → Except ε ρ → Prop} (hstep : ∀ t s, I t s → Progress step I v Q t s)
    (h : I [] s) : ∃ x, Runs step s x ∧ Q x.trace x.result := by
  suffices ∀ n t s, v s = n → I t s → ∃ x, Runs step s x ∧ Q (t ++ x.trace) x.result by
    simpa using this (v s) [] s rfl h
  intro n
  induction n using Nat.strongRecOn with
  | _ n ih =>
    intro t s hv hI
    cases hstep t s hI with
    | fault h hQ => exact ⟨_, .fault h, hQ⟩
    | leave h hQ => exact ⟨_, .leave h, hQ⟩
    | @again u s' h hI' hlt =>
        obtain ⟨x, hx, hQ⟩ := ih (v s') (hv ▸ hlt) (t ++ u) s' rfl hI'
        exact ⟨_, .again h hx, by simpa using hQ⟩

end

end CLang
end SecureDesign
