/-
# The classic linked list

`Node` of `class9/error4.cpp`: a template struct of a `next` pointer and a `data`
field.  The constructor stores its argument and sets `next = 0`, and
`insert(newData)` makes a new node, points it at `this` and returns it:

    Node<DataType>* newHead = new Node<DataType>(newData);
    newHead->next = this;
    return newHead;

A heap is a partial map from addresses to nodes.  `new` may return any fresh
non-null address, so a call is a step relation; `Step.eq_put` says once what any
of them does to the heap.

The purpose of the struct is an immutable list at every address (`Lists`):
construction puts a list of one element at a new address, `insert` the longer
list, and no call changes the list at an old one.  `Represents.step` is the
simulation of that model by the heap.  Every run of calls keeps it
(`exists_represents`), so on every reachable heap, whatever tails its lists
share, every list ends without meeting a node twice, `insert` prepends and the
other lists stay.
-/

import Mathlib.Logic.Relation
import SecureDesign.CLang.Chain

namespace SecureDesign
namespace Class9

open CLang

/-- Addresses; the null pointer is `0`. -/
abbrev Addr := ℕ

/-- `struct Node`. -/
structure Node (α : Type) where
  next : Addr
  data : α
  deriving DecidableEq

/-- The nodes allocated so far. -/
abbrev Heap (α : Type) := Addr → Option (Node α)

variable {α : Type}

/-- `new` may return `a`. -/
def Fresh (σ : Heap α) (a : Addr) : Prop := a ≠ 0 ∧ σ a = none

instance (σ : Heap α) (a : Addr) : Decidable (Fresh σ a) := inferInstanceAs (Decidable (_ ∧ _))

/-- `new Node<DataType>(inputData)`, at the address `a`. -/
def construct (a : Addr) (inputData : α) (σ : Heap α) : Heap α :=
  put σ a { next := 0, data := inputData }

/-- `p->next = q`, which needs a node at `p`. -/
def setNext (p q : Addr) (σ : Heap α) : Option (Heap α) :=
  (σ p).map fun n => put σ p { n with next := q }

/-- `this->insert(newData)`, with the new node at the address `a`. -/
def insert (a this : Addr) (newData : α) (σ : Heap α) : Option (Heap α × Addr) :=
  (setNext a this (construct a newData σ)).map fun σ' => (σ', a)

/-- The calls of a client: it makes lists and inserts, and never assigns a field. -/
inductive Call (α : Type)
  | construct (inputData : α)
  | insert (this : Addr) (newData : α)

/-- The call, with the new node at the address `a`; its second result is the
pointer returned. -/
def Call.run (a : Addr) : Call α → Heap α → Option (Heap α × Addr)
  | .construct x, σ => some (Class9.construct a x σ, a)
  | .insert this x, σ => Class9.insert a this x σ

/-- `insert` is called on a node that an earlier call returned. -/
def Call.Allowed (σ : Heap α) : Call α → Prop
  | .construct _ => True
  | .insert this _ => σ this ≠ none

/-- The call `c` takes the heap `σ` to `σ'` and returns `p`. -/
def Step (σ : Heap α) (c : Call α) (σ' : Heap α) (p : Addr) : Prop :=
  ∃ a, Fresh σ a ∧ c.Allowed σ ∧ c.run a σ = some (σ', p)

/-- The heap after some run of calls, in any order and number. -/
def Reachable (σ : Heap α) : Prop :=
  Relation.ReflTransGen (fun σ σ' : Heap α => ∃ c p, Step σ c σ' p) (fun _ => none) σ

/-- Following `next` from `p` meets these nodes and then null. -/
abbrev Follows (σ : Heap α) (p : Addr) (l : List (Addr × Node α)) : Prop :=
  Chain 0 Node.next σ p l

/-- The list read from `p`. -/
def ListOf (σ : Heap α) (p : Addr) (xs : List α) : Prop :=
  ∃ l, Follows σ p l ∧ xs = l.map fun c => c.2.data

/-- Every list ends, and meets no node twice. -/
def Acyclic (σ : Heap α) : Prop :=
  ∀ p, σ p ≠ none → ∃ l, Follows σ p l ∧ (l.map Prod.fst).Nodup

/-- `insert` succeeds on every node, and returns one whose list is the new
element and then the list of `this` before the call. -/
def InsertPrepends (σ : Heap α) : Prop :=
  ∀ this x, σ this ≠ none → (∀ a, Fresh σ a → ∃ σ' p, insert a this x σ = some (σ', p)) ∧
    ∃ xs, ListOf σ this xs ∧
      ∀ σ' p, Step σ (.insert this x) σ' p → σ' p ≠ none ∧ ListOf σ' p (x :: xs)

/-- No call changes the list read from a node that exists. -/
def KeepsLists (σ : Heap α) : Prop :=
  ∀ c σ' p, Step σ c σ' p → ∀ q, σ q ≠ none → ∀ xs, ListOf σ' q xs ↔ ListOf σ q xs

/-! ### What a call does to the heap -/

theorem insert_eq (a this : Addr) (x : α) (σ : Heap α) :
    insert a this x σ = some (put σ a { next := this, data := x }, a) := by
  simp [insert, setNext, construct, put_put]

/-- The node a call leaves at the address it returns. -/
def Call.node : Call α → Node α
  | .construct x => { next := 0, data := x }
  | .insert this x => { next := this, data := x }

/-- **A call puts one node at a fresh address and returns it.** -/
theorem Step.eq_put {σ σ' : Heap α} {c : Call α} {p : Addr} (h : Step σ c σ' p) :
    Fresh σ p ∧ c.Allowed σ ∧ σ' = put σ p c.node := by
  obtain ⟨a, ha, hc, hrun⟩ := h
  have hput : c.run a σ = some (put σ a c.node, a) := by
    cases c with
    | construct x => rfl
    | insert this x => exact insert_eq a this x σ
  rw [hput] at hrun
  obtain ⟨rfl, rfl⟩ := Prod.mk.inj (Option.some.inj hrun)
  exact ⟨ha, hc, rfl⟩

theorem Step.construct {σ : Heap α} {a : Addr} (ha : Fresh σ a) (x : α) :
    Step σ (.construct x) (put σ a { next := 0, data := x }) a := ⟨a, ha, trivial, rfl⟩

theorem Step.insert {σ : Heap α} {a this : Addr} (ha : Fresh σ a) (hthis : σ this ≠ none) (x : α) :
    Step σ (.insert this x) (put σ a { next := this, data := x }) a :=
  ⟨a, ha, hthis, insert_eq a this x σ⟩

section ListOf

variable {σ : Heap α} {p a : Addr} {xs ys : List α}

/-- The heap decides the list at a pointer. -/
theorem ListOf.unique (h : ListOf σ p xs) (h' : ListOf σ p ys) : xs = ys := by
  obtain ⟨l, hl, rfl⟩ := h
  obtain ⟨l', hl', rfl⟩ := h'
  rw [hl.unique hl']

theorem listOf_null (σ : Heap α) : ListOf σ 0 [] := ⟨[], .nil, rfl⟩

/-- **Frame.**  A node at a fresh address changes no list. -/
theorem ListOf.put (h : ListOf σ p xs) (ha : Fresh σ a) (n : Node α) :
    ListOf (CLang.put σ a n) p xs := by
  obtain ⟨l, hl, rfl⟩ := h
  exact ⟨l, hl.alloc ha.2 n, rfl⟩

/-- A node at a fresh address in front of a list. -/
theorem ListOf.put_cons (h : ListOf σ p xs) (ha : Fresh σ a) (x : α) :
    ListOf (CLang.put σ a { next := p, data := x }) a (x :: xs) := by
  obtain ⟨l, hl, rfl⟩ := h
  exact ⟨_, Chain.alloc_cons (c := { next := p, data := x }) hl ha.2 ha.1, rfl⟩

end ListOf

/-! ### The lists a heap stands for -/

/-- What a client sees: an immutable list at every pointer it was given. -/
abbrev Lists (α : Type) := Addr → Option (List α)

/-- The list a call makes. -/
def Call.list (M : Lists α) : Call α → Option (List α)
  | .construct x => some [x]
  | .insert this x => (M this).map (x :: ·)

/-- The lists after the call `c` that returned `p`. -/
def Lists.after (M : Lists α) (c : Call α) (p : Addr) : Lists α := Function.update M p (c.list M)

/-- The heap `σ` holds the lists `M`: it has a node where `M` has a list, and the
list read from there is that list. -/
structure Represents (σ : Heap α) (M : Lists α) : Prop where
  none_iff : ∀ p, M p = none ↔ σ p = none
  listOf : ∀ p xs, M p = some xs → ListOf σ p xs

theorem represents_empty : Represents (fun _ => none : Heap α) fun _ => none :=
  ⟨fun _ => ⟨fun _ => rfl, fun _ => rfl⟩, fun _ _ h => nomatch h⟩

theorem Represents.exists_list {σ : Heap α} {M : Lists α} (h : Represents σ M) {p : Addr}
    (hp : σ p ≠ none) : ∃ xs, M p = some xs ∧ ListOf σ p xs := by
  have hM : M p ≠ none := fun h0 => hp ((h.none_iff p).1 h0)
  obtain ⟨xs, hxs⟩ := Option.ne_none_iff_exists'.1 hM
  exact ⟨xs, hxs, h.listOf p xs hxs⟩

/-- A call that is allowed makes a list, and its node reads as that list. -/
theorem Represents.listOf_node {σ : Heap α} {M : Lists α} (h : Represents σ M) {c : Call α}
    (hc : c.Allowed σ) {a : Addr} (ha : Fresh σ a) :
    ∃ xs, c.list M = some xs ∧ ListOf (put σ a c.node) a xs := by
  cases c with
  | construct x => exact ⟨[x], rfl, (listOf_null σ).put_cons ha x⟩
  | insert this x =>
      obtain ⟨xs, hM, hxs⟩ := h.exists_list hc
      exact ⟨x :: xs, by rw [Call.list, hM, Option.map_some], hxs.put_cons ha x⟩

/-- **Simulation.**  A call on the heap is that call on the lists. -/
theorem Represents.step {σ σ' : Heap α} {M : Lists α} (h : Represents σ M) {c : Call α} {p : Addr}
    (hs : Step σ c σ' p) : Represents σ' (M.after c p) := by
  obtain ⟨hp, hc, rfl⟩ := hs.eq_put
  obtain ⟨xs, hlist, hxs⟩ := h.listOf_node hc hp
  constructor
  · intro q
    rcases eq_or_ne q p with rfl | hq
    · simp [Lists.after, hlist]
    · rw [Lists.after, Function.update_of_ne hq, put_of_ne σ _ hq, h.none_iff]
  · intro q ys hys
    rcases eq_or_ne q p with rfl | hq
    · rw [Lists.after, Function.update_self, hlist] at hys
      obtain rfl := Option.some.inj hys
      exact hxs
    · rw [Lists.after, Function.update_of_ne hq] at hys
      exact (h.listOf q ys hys).put hp _

/-- **Every run of calls stands for lists.** -/
theorem exists_represents {σ : Heap α} (h : Reachable σ) : ∃ M, Represents σ M := by
  induction h with
  | refl => exact ⟨_, represents_empty⟩
  | tail _ hs ih =>
      obtain ⟨M, hM⟩ := ih
      obtain ⟨c, p, hs⟩ := hs
      exact ⟨_, hM.step hs⟩

/-! ### What holds on a heap that stands for lists -/

theorem Represents.acyclic {σ : Heap α} {M : Lists α} (h : Represents σ M) : Acyclic σ := by
  intro p hp
  obtain ⟨_, -, l, hl, -⟩ := h.exists_list hp
  exact ⟨l, hl, hl.nodup⟩

theorem Represents.insertPrepends {σ : Heap α} {M : Lists α} (h : Represents σ M) :
    InsertPrepends σ := by
  intro this x hthis
  obtain ⟨xs, hM, hxs⟩ := h.exists_list hthis
  refine ⟨fun a _ => ⟨_, _, insert_eq a this x σ⟩, xs, hxs, fun σ' p hs => ?_⟩
  have h' := h.step hs
  have hp : M.after (.insert this x) p p = some (x :: xs) := by
    rw [Lists.after, Function.update_self, Call.list, hM, Option.map_some]
  refine ⟨fun h0 => ?_, h'.listOf p _ hp⟩
  rw [(h'.none_iff p).2 h0] at hp
  cases hp

theorem Represents.keepsLists {σ : Heap α} {M : Lists α} (h : Represents σ M) : KeepsLists σ := by
  intro c σ' p hs q hq xs
  obtain ⟨hp, -, rfl⟩ := hs.eq_put
  obtain ⟨ys, -, hys⟩ := h.exists_list hq
  constructor
  · intro hxs
    rwa [hxs.unique (hys.put hp _)]
  · exact fun hxs => hxs.put hp _

/-- **On every heap that calls can make, the lists end without a cycle,
`insert` prepends, and no call changes a list that was there.** -/
theorem reachable_lists {σ : Heap α} (h : Reachable σ) :
    Acyclic σ ∧ InsertPrepends σ ∧ KeepsLists σ := by
  obtain ⟨M, hM⟩ := exists_represents h
  exact ⟨hM.acyclic, hM.insertPrepends, hM.keepsLists⟩

/-- Two lists that share the tail `[100]`: `90` and `80` inserted on one node. -/
def forked : Heap ℕ := put (put (put (fun _ => none) 1 ⟨0, 100⟩) 2 ⟨1, 90⟩) 3 ⟨1, 80⟩

theorem reachable_forked : Reachable forked :=
  ((Relation.ReflTransGen.refl.tail ⟨_, _, Step.construct (a := 1) (by decide) 100⟩).tail
    ⟨_, _, Step.insert (a := 2) (by decide) (by decide) 90⟩).tail
      ⟨_, _, Step.insert (a := 3) (by decide) (by decide) 80⟩

theorem reachable_lists_forked : Acyclic forked ∧ InsertPrepends forked ∧ KeepsLists forked :=
  reachable_lists reachable_forked

end Class9
end SecureDesign
