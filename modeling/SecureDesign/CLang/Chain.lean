/-
# Chains of pointers

A heap maps addresses to cells, and every cell links to one address: the next
cell, or `null`.  `Chain null link σ p l` says that following the links of the
heap `σ` from `p` meets the cells `l`, in order, and then `null`.

The links decide the chain (`Chain.unique`), so a chain that ends never meets an
address twice (`Chain.nodup`): from a repeated address it would have to end both
early and late.  A chain lives on the cells it meets alone, so an allocation at
a fresh address leaves every chain as it was (`Chain.alloc`), and a fresh cell
in front of a chain makes a longer one (`Chain.alloc_cons`).
-/

import Mathlib.Data.List.Nodup
import Mathlib.Logic.Function.Basic

namespace SecureDesign
namespace CLang

variable {A C : Type} {null : A} {link : C → A}

/-- Following the links of `σ` from `p` meets the cells `l` and then `null`. -/
inductive Chain (null : A) (link : C → A) (σ : A → Option C) : A → List (A × C) → Prop
  | nil : Chain null link σ null []
  | cons {p : A} {c : C} {l : List (A × C)} (hp : p ≠ null) (hc : σ p = some c)
      (h : Chain null link σ (link c) l) : Chain null link σ p ((p, c) :: l)

namespace Chain

variable {σ : A → Option C} {p q : A} {l l' : List (A × C)}

/-- An empty chain starts at null. -/
theorem eq_null (h : Chain null link σ p []) : p = null := by
  cases h
  rfl

/-- A chain with a first cell starts there and goes on along its link. -/
theorem cons_inv {c : C} (h : Chain null link σ p ((q, c) :: l)) :
    q = p ∧ p ≠ null ∧ σ p = some c ∧ Chain null link σ (link c) l := by
  cases h with
  | cons hp hc h => exact ⟨rfl, hp, hc, h⟩

/-- **The links decide the chain.** -/
theorem unique (h : Chain null link σ p l) (h' : Chain null link σ p l') : l = l' := by
  induction h generalizing l' with
  | nil =>
      cases h' with
      | nil => rfl
      | cons hp => exact absurd rfl hp
  | cons hp hc _ ih =>
      cases h' with
      | nil => exact absurd rfl hp
      | cons _ hc' h' =>
          obtain rfl := Option.some.inj (hc.symm.trans hc')
          rw [ih h']

/-- From a cell of a chain the rest of the chain goes on. -/
theorem exists_suffix (h : Chain null link σ p l) (hq : q ∈ l.map Prod.fst) :
    ∃ l₂, l₂ <:+ l ∧ Chain null link σ q l₂ := by
  induction h with
  | nil => exact absurd hq List.not_mem_nil
  | @cons p c l hp hc h ih =>
      rcases List.mem_cons.1 hq with rfl | hq
      · exact ⟨_, List.suffix_rfl, .cons hp hc h⟩
      · obtain ⟨l₂, hl, h₂⟩ := ih hq
        exact ⟨l₂, hl.trans (List.suffix_cons _ _), h₂⟩

/-- **A chain meets no address twice.** -/
theorem nodup (h : Chain null link σ p l) : (l.map Prod.fst).Nodup := by
  induction h with
  | nil => exact List.nodup_nil
  | @cons p c l hp hc h ih =>
      refine List.nodup_cons.2 ⟨fun hmem => ?_, ih⟩
      -- a second visit of `p` would make the whole chain a part of its own tail
      obtain ⟨l₂, hl, h₂⟩ := h.exists_suffix hmem
      have hlen := hl.length_le
      rw [h₂.unique (.cons hp hc h), List.length_cons] at hlen
      omega

end Chain

section Alloc

variable [DecidableEq A]

/-- The heap `σ` with the cell `c` at `a`. -/
def put (σ : A → Option C) (a : A) (c : C) : A → Option C := Function.update σ a (some c)

@[simp] theorem put_self (σ : A → Option C) (a : A) (c : C) : put σ a c a = some c :=
  Function.update_self ..

theorem put_of_ne (σ : A → Option C) {a p : A} (c : C) (h : p ≠ a) : put σ a c p = σ p :=
  Function.update_of_ne h ..

theorem put_put (σ : A → Option C) (a : A) (c d : C) : put (put σ a c) a d = put σ a d :=
  Function.update_idem ..

variable {σ : A → Option C} {p a : A} {c : C} {l : List (A × C)}

/-- **A fresh cell leaves every chain as it was.** -/
theorem Chain.alloc (h : Chain null link σ p l) (ha : σ a = none) (c : C) :
    Chain null link (put σ a c) p l := by
  induction h with
  | nil => exact .nil
  | @cons p d l hp hd _ ih =>
      have hne : p ≠ a := by
        rintro rfl
        rw [ha] at hd
        cases hd
      exact .cons hp ((put_of_ne σ c hne).trans hd) ih

/-- **A fresh cell in front of a chain.** -/
theorem Chain.alloc_cons (h : Chain null link σ (link c) l) (ha : σ a = none) (hnull : a ≠ null) :
    Chain null link (put σ a c) a ((a, c) :: l) :=
  .cons hnull (put_self σ a c) (h.alloc ha c)

end Alloc

end CLang
end SecureDesign
