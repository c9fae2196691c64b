/-
# What a piece of C code does

A run of C code makes events (memory accesses, output) in some order and ends
either with a value or at undefined behaviour.  `Exec ω ε α` holds exactly
that: the events of type `ω`, then a value of type `α` or a fault of type `ε`.
The monad runs one piece after another and stops at the first fault, keeping
the events made before it, so that a property of the events of a faulting run
can still be stated.

`Exec.Meets x P Q` is the total-correctness triple of this semantics: `x` ends
without a fault, every event satisfies `P` and the value satisfies `Q`.  Its
rules follow the constructs of the language (`meets_pure`, `meets_emit`,
`Meets.bind`, `meets_forLoop`); a program is verified by applying the rule of
each construct and proving what is left about its own data.
-/

import Mathlib.Data.List.Basic

namespace SecureDesign
namespace CLang

/-- The undefined behaviours at which the modelled code can stop. -/
inductive Fault
  | signedOverflow
  | nullPointer
  | outOfBounds
  | unterminated
  | shiftRange
  deriving DecidableEq, Repr

/-- The events of a run in order, and the value or the fault it ended with. -/
@[ext]
structure Exec (ω ε α : Type) where
  trace : List ω
  result : Except ε α
  deriving DecidableEq

namespace Exec

variable {ω ε α β σ : Type}

/-- The run `x` preceded by the events `t`. -/
def after (t : List ω) (x : Exec ω ε α) : Exec ω ε α := ⟨t ++ x.trace, x.result⟩

@[simp] theorem after_trace (t : List ω) (x : Exec ω ε α) : (after t x).trace = t ++ x.trace := rfl

@[simp] theorem after_result (t : List ω) (x : Exec ω ε α) : (after t x).result = x.result := rfl

@[simp] theorem after_nil (x : Exec ω ε α) : after [] x = x := rfl

theorem after_after (t u : List ω) (x : Exec ω ε α) : after t (after u x) = after (t ++ u) x := by
  ext1
  · simp
  · rfl

/-- One piece of code after another: the second runs only where the first ends
with a value. -/
def seq (x : Exec ω ε α) (f : α → Exec ω ε β) : Exec ω ε β :=
  match x.result with
  | .ok a => after x.trace (f a)
  | .error e => ⟨x.trace, .error e⟩

instance : Monad (Exec ω ε) where
  pure a := ⟨[], .ok a⟩
  bind := seq

/-- The event `e`. -/
def emit (e : ω) : Exec ω ε Unit := ⟨[e], .ok ()⟩

/-- Undefined behaviour. -/
def fault (e : ε) : Exec ω ε α := ⟨[], .error e⟩

/-- The value of a checked operation, or the fault `e` where it has none. -/
def ofOption (e : ε) : Option α → Exec ω ε α
  | some a => pure a
  | none => fault e

@[simp] theorem pure_bind (a : α) (f : α → Exec ω ε β) : (pure a >>= f) = f a := rfl

@[simp] theorem emit_bind (e : ω) (f : Unit → Exec ω ε β) :
    (emit e >>= f) = after [e] (f ()) := rfl

@[simp] theorem fault_bind (e : ε) (f : α → Exec ω ε β) :
    ((fault e : Exec ω ε α) >>= f) = fault e := rfl

@[simp] theorem ofOption_some (e : ε) (a : α) : (ofOption e (some a) : Exec ω ε α) = pure a := rfl

@[simp] theorem ofOption_none (e : ε) : (ofOption e none : Exec ω ε α) = fault e := rfl

theorem bind_of_ok {x : Exec ω ε α} {a : α} (h : x.result = .ok a) (f : α → Exec ω ε β) :
    (x >>= f) = after x.trace (f a) := by
  change seq x f = _
  simp only [seq, h]

/-- `x` ends without a fault, in a value that satisfies `Q`, and makes only
events that satisfy `P`. -/
def Meets (x : Exec ω ε α) (P : ω → Prop) (Q : α → Prop) : Prop :=
  (∀ e ∈ x.trace, P e) ∧ ∃ a, x.result = .ok a ∧ Q a

section Rules

variable {P : ω → Prop} {Q : α → Prop}

theorem meets_pure {a : α} (h : Q a) : (pure a : Exec ω ε α).Meets P Q :=
  ⟨fun _ he => absurd he List.not_mem_nil, a, rfl, h⟩

theorem meets_emit {e : ω} (h : P e) : (emit e : Exec ω ε Unit).Meets P fun _ => True :=
  ⟨fun _ he => List.mem_singleton.1 he ▸ h, (), rfl, trivial⟩

/-- A checked operation that succeeds. -/
theorem meets_ofOption {o : Option α} {a : α} {e : ε} (ho : o = some a) (h : Q a) :
    (ofOption e o : Exec ω ε α).Meets P Q := by
  rw [ho]
  exact meets_pure h

/-- **The rule of sequencing.** -/
theorem Meets.bind {x : Exec ω ε α} {f : α → Exec ω ε β} {R : β → Prop} (h : x.Meets P Q)
    (hf : ∀ a, Q a → (f a).Meets P R) : (x >>= f).Meets P R := by
  obtain ⟨ht, a, ha, hq⟩ := h
  obtain ⟨hu, b, hb, hr⟩ := hf a hq
  rw [bind_of_ok ha]
  refine ⟨fun e he => ?_, b, hb, hr⟩
  rcases List.mem_append.1 he with he | he
  · exact ht e he
  · exact hu e he

end Rules

/-- `for (k = i; k < i + n; k++) s = body(k, s)`, a loop that counts. -/
def forLoop (body : ℕ → σ → Exec ω ε σ) : ℕ → ℕ → σ → Exec ω ε σ
  | _, 0, s => pure s
  | i, n + 1, s => body i s >>= forLoop body (i + 1) n

/-- **The rule of counting loops.**  An invariant that every round carries from
one index to the next holds at the end, and the rounds make only good events. -/
theorem meets_forLoop {body : ℕ → σ → Exec ω ε σ} {P : ω → Prop} {I : ℕ → σ → Prop} {n : ℕ} :
    ∀ {i : ℕ} {s : σ}, (∀ k s, i ≤ k → k < i + n → I k s → (body k s).Meets P (I (k + 1))) →
      I i s → (forLoop body i n s).Meets P (I (i + n)) := by
  induction n with
  | zero => exact fun _ h => meets_pure h
  | succ n ih =>
      intro i s hbody h
      rw [show i + (n + 1) = i + 1 + n by omega]
      exact (hbody i s (Nat.le_refl i) (by omega) h).bind fun s' h' =>
        ih (fun k u hk hk' hu => hbody k u (by omega) (by omega) hu) h'

end Exec

end CLang
end SecureDesign
