/-
# Printing the linked list

`print_list` of `class9/error4.cpp`:

    Node<DataType>* temp = anode;
    while(temp != 0){
       temp = temp->next;
       cout << temp->data << endl;
    }

The loop advances before it reads.  On the null pointer it does nothing, which
is right.  On a list it skips the newest element, prints the others in order,
and then reads `data` through the null pointer that ends the list
(`runs_printList`): of the lists a client can build none is printed, and
`printList_printsList_iff` says so.
-/

import SecureDesign.CLang.Loop
import SecureDesign.Class9.LinkedList

namespace SecureDesign
namespace Class9

open CLang Exec

variable {α : Type}

/-- The node at `p`; there is none at the null pointer. -/
def deref (σ : Heap α) (p : Addr) : Exec α Fault (Node α) :=
  if p = 0 then fault .nullPointer else ofOption .outOfBounds (σ p)

/-- One test of `temp != 0` with the body after it.  The events are the elements
printed. -/
def printList (σ : Heap α) (temp : Addr) : Exec α Fault (Addr ⊕ Unit) :=
  if temp ≠ 0 then do
    let node ← deref σ temp
    let temp := node.next
    let node ← deref σ temp
    emit node.data
    pure (.inl temp)
  else pure (.inr ())

/-- `print_list(anode)` ends without undefined behaviour and prints `xs`. -/
def PrintsList (σ : Heap α) (anode : Addr) (xs : List α) : Prop :=
  Runs (printList σ) anode ⟨xs, .ok ()⟩

/-- `p` is the head of a list built by one construction and then inserts on the
head, of the elements `xs` from the newest to the constructor's.  Other calls
may come in between. -/
inductive Built : Heap α → Addr → List α → Prop
  | construct {σ σ' : Heap α} {x : α} {p : Addr} (h : Reachable σ)
      (hs : Step σ (.construct x) σ' p) : Built σ' p [x]
  | insert {σ σ' : Heap α} {x : α} {p q : Addr} {xs : List α} (h : Built σ p xs)
      (hs : Step σ (.insert p x) σ' q) : Built σ' q (x :: xs)
  | other {σ σ' : Heap α} {c : Call α} {p q : Addr} {xs : List α} (h : Built σ p xs)
      (hs : Step σ c σ' q) : Built σ' p xs

/-- What `print_list` is called with: a head that was built, or null, on a heap
that calls made.  `xs` is what it should print. -/
inductive Argument (σ : Heap α) : Addr → List α → Prop
  | null (h : Reachable σ) : Argument σ 0 []
  | head {p : Addr} {xs : List α} (h : Built σ p xs) : Argument σ p xs

/-- **A head that was built reads as the elements inserted**, newest first. -/
theorem Built.listOf {σ : Heap α} {p : Addr} {xs : List α} (h : Built σ p xs) :
    Reachable σ ∧ σ p ≠ none ∧ ListOf σ p xs := by
  induction h with
  | construct h hs =>
      obtain ⟨hp, -, rfl⟩ := hs.eq_put
      exact ⟨h.tail ⟨_, _, hs⟩, by simp, (listOf_null _).put_cons hp _⟩
  | insert _ hs ih =>
      obtain ⟨hr, -, hl⟩ := ih
      obtain ⟨hq, -, rfl⟩ := hs.eq_put
      exact ⟨hr.tail ⟨_, _, hs⟩, by simp, hl.put_cons hq _⟩
  | @other σ σ' c p q xs _ hs ih =>
      obtain ⟨hr, hp, hl⟩ := ih
      obtain ⟨hq, -, rfl⟩ := hs.eq_put
      have hne : p ≠ q := fun h => hp (h ▸ hq.2)
      exact ⟨hr.tail ⟨_, _, hs⟩, by rwa [put_of_ne σ _ hne], hl.put hq _⟩

section Rounds

variable {σ : Heap α} {p : Addr} {n m : Node α}

theorem deref_eq_pure (hp : p ≠ 0) (hn : σ p = some n) : deref σ p = pure n := by
  rw [deref, if_neg hp, hn, ofOption_some]

/-- A round on a node that has a next one prints the next one's element. -/
theorem printList_next (hp : p ≠ 0) (hn : σ p = some n) (hq : n.next ≠ 0)
    (hm : σ n.next = some m) : printList σ p = ⟨[m.data], .ok (.inl n.next)⟩ := by
  rw [printList, if_pos hp, deref_eq_pure hp hn, pure_bind]
  simp only [deref_eq_pure hq hm, pure_bind]
  rfl

/-- A round on the last node reads through null. -/
theorem printList_last (hp : p ≠ 0) (hn : σ p = some n) (hq : n.next = 0) :
    printList σ p = ⟨[], .error .nullPointer⟩ := by
  rw [printList, if_pos hp, deref_eq_pure hp hn, pure_bind]
  simp only [deref, if_pos hq]
  rfl

end Rounds

/-- **What `print_list` does on a list**: it prints all but the first element and
then dereferences null. -/
theorem runs_printList {σ : Heap α} {p q : Addr} {n : Node α} {l : List (Addr × Node α)}
    (h : Follows σ p ((q, n) :: l)) :
    Runs (printList σ) p ⟨l.map fun c => c.2.data, .error .nullPointer⟩ := by
  induction l generalizing p q n with
  | nil =>
      obtain ⟨-, hp, hn, hl⟩ := h.cons_inv
      exact .fault (printList_last hp hn hl.eq_null)
  | cons c l ih =>
      obtain ⟨-, hp, hn, hl⟩ := h.cons_inv
      obtain ⟨-, hq, hm, -⟩ := hl.cons_inv
      exact .again (printList_next hp hn hq hm) (ih hl)

/-- On null the loop is left at once. -/
theorem printsList_null (σ : Heap α) : PrintsList σ 0 [] := .leave rfl

/-- **No list with an element is printed**, whatever is expected of it. -/
theorem not_printsList {σ : Heap α} {p : Addr} {xs ys : List α} (h : ListOf σ p xs)
    (hxs : xs ≠ []) : p ≠ 0 ∧ ¬ PrintsList σ p ys := by
  obtain ⟨l, hl, rfl⟩ := h
  cases l with
  | nil => exact absurd rfl hxs
  | cons c l =>
      obtain ⟨-, hp, -, -⟩ := hl.cons_inv
      refine ⟨hp, fun hprints => ?_⟩
      have hfault := congrArg Exec.result (hprints.unique (runs_printList hl))
      cases hfault

/-- A list that was built has an element. -/
theorem Built.ne_nil {σ : Heap α} {p : Addr} {xs : List α} (h : Built σ p xs) : xs ≠ [] := by
  induction h with
  | construct => exact List.cons_ne_nil _ _
  | insert => exact List.cons_ne_nil _ _
  | other _ _ ih => exact ih

/-- **`print_list` prints its argument's list exactly when the argument is
null.** -/
theorem printList_printsList_iff {σ : Heap α} {p : Addr} {xs : List α} (h : Argument σ p xs) :
    PrintsList σ p xs ↔ p = 0 := by
  cases h with
  | null _ => exact ⟨fun _ => rfl, fun _ => printsList_null σ⟩
  | head h =>
      obtain ⟨hp, hnot⟩ := not_printsList h.listOf.2.2 h.ne_nil
      exact ⟨fun hprints => absurd hprints hnot, fun h0 => absurd h0 hp⟩

/-- The list `[90, 100]`: one construction and one insert, at the addresses `1`
and `2`. -/
def ninety : Heap ℕ := put (put (fun _ => none) 1 ⟨0, 100⟩) 2 ⟨1, 90⟩

theorem built_ninety : Built ninety 2 [90, 100] :=
  .insert (.construct .refl (Step.construct (a := 1) (by decide) 100))
    (Step.insert (a := 2) (by decide) (by decide) 90)

theorem printList_printsList_iff_ninety : PrintsList ninety 2 [90, 100] ↔ 2 = 0 :=
  printList_printsList_iff (.head built_ninety)

/-- The head of `[90, 100]` is the result of a construction and an insert, and is
not printed. -/
theorem built_not_printsList :
    Built ninety 2 [90, 100] ∧ ¬ PrintsList ninety 2 [90, 100] :=
  ⟨built_ninety, (not_printsList built_ninety.listOf.2.2 (by decide)).2⟩

example : iterate (printList ninety) 3 2 = some ⟨[100], .error .nullPointer⟩ := by decide

end Class9
end SecureDesign
