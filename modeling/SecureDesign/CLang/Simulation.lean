/-
# Machines and what implements them

A machine executes instructions one after another.  Each takes the state to the next one and
makes some output, or faults.  One machine implements another when it can follow every step
of the other that does not fault, in related states and with the same output; it then follows
every run (`Implements.run`), so that the output of a program can be computed on the simpler
machine.
-/

import Mathlib.Data.List.Basic

namespace SecureDesign
namespace CLang

/-- A machine with instructions `ι`, states `σ` and output `ω`. -/
structure Machine (ι σ ω : Type*) where
  step : ι → σ → Option (σ × List ω)

namespace Machine

variable {ι κ σ τ ω : Type*}

/-- A run through all the instructions, unless one of them faults. -/
def run (M : Machine ι σ ω) : List ι → σ → Option (σ × List ω)
  | [], s => some (s, [])
  | i :: is, s => do
      let p ← M.step i s
      let q ← M.run is p.1
      some (q.1, p.2 ++ q.2)

variable {M : Machine ι σ ω} {N : Machine κ τ ω}

@[simp] theorem run_nil (s : σ) : M.run [] s = some (s, []) := rfl

/-- A run after its first instruction. -/
theorem run_cons {i : ι} {is : List ι} {s : σ} {p : σ × List ω} (h : M.step i s = some p) :
    M.run (i :: is) s = (M.run is p.1).map fun q => (q.1, p.2 ++ q.2) := by
  rw [run, h, Option.bind_eq_bind, Option.bind_some]
  cases hq : M.run is p.1 with
  | none => rfl
  | some q => rfl

/-- A run that starts with an instruction. -/
theorem run_cons_eq_some {i : ι} {is : List ι} {s : σ} {r : σ × List ω} :
    M.run (i :: is) s = some r ↔
      ∃ p q, M.step i s = some p ∧ M.run is p.1 = some q ∧ r = (q.1, p.2 ++ q.2) := by
  rw [run]
  simp only [Option.bind_eq_bind, Option.bind_eq_some_iff, Option.some.injEq]
  constructor
  · rintro ⟨p, hp, q, hq, rfl⟩
    exact ⟨p, q, hp, hq, rfl⟩
  · rintro ⟨p, q, hp, hq, rfl⟩
    exact ⟨p, hp, q, hq, rfl⟩

/-- `M` implements `N`: it follows every step of `N`, for instructions that `f` relates and
states that `R` relates. -/
structure Implements (M : Machine ι σ ω) (N : Machine κ τ ω) (f : ι → κ) (R : σ → τ → Prop) :
    Prop where
  step : ∀ {i s t p}, R s t → N.step (f i) t = some p →
    ∃ s', M.step i s = some (s', p.2) ∧ R s' p.1

/-- **An implementation follows every run.** -/
theorem Implements.run {f : ι → κ} {R : σ → τ → Prop} (h : Implements M N f R) {is : List ι}
    {s : σ} {t : τ} {r : τ × List ω} (hst : R s t) (hrun : N.run (is.map f) t = some r) :
    ∃ s', M.run is s = some (s', r.2) ∧ R s' r.1 := by
  induction is generalizing s t r with
  | nil =>
      obtain rfl := Option.some.inj hrun
      exact ⟨s, rfl, hst⟩
  | cons i is ih =>
      rw [List.map_cons] at hrun
      obtain ⟨p, q, hp, hq, rfl⟩ := run_cons_eq_some.mp hrun
      obtain ⟨s', hs', hR⟩ := h.step hst hp
      obtain ⟨s'', hs'', hR'⟩ := ih hR hq
      exact ⟨s'', run_cons_eq_some.mpr ⟨_, _, hs', hs'', rfl⟩, hR'⟩

end Machine

end CLang
end SecureDesign
