import Mathlib.Data.List.Chain
import Mathlib.Logic.Relation
import Mathlib.Order.WellFounded
import Mathlib.Data.Fintype.EquivFin
import Mathlib.Order.Preorder.Finite

set_option autoImplicit false

/- Acyclic relations: a relation none of whose elements leads back to itself. -/
namespace Relations

open Relation

variable {α β : Type}

/-- No element is reached from itself in one or more steps. -/
def Acyclic (r : α → α → Prop) : Prop := ∀ a, ¬ TransGen r a a

theorem transGen_lift {r : α → α → Prop} {e : β → β → Prop} (f : α → β)
    (lift : ∀ a b, r a b → TransGen e (f a) (f b)) {a b : α} (steps : TransGen r a b) :
    TransGen e (f a) (f b) := by
  induction steps with
  | single step => exact lift _ _ step
  | tail _ step ih => exact ih.trans (lift _ _ step)

/-- A map that keeps or collapses every step sends walks to walks. -/
theorem reflTransGen_collapse {r : α → α → Prop} {e : β → β → Prop} (f : α → β)
    (step : ∀ a b, r a b → f a = f b ∨ e (f a) (f b)) {a b : α} (steps : ReflTransGen r a b) :
    ReflTransGen e (f a) (f b) := by
  induction steps with
  | refl => exact .refl
  | tail _ last ih =>
    rcases step _ _ last with same | moved
    · rw [← same]
      exact ih
    · exact ih.tail moved

/-- The first element of a chain leads to all its elements. -/
theorem isChain_head {r : α → α → Prop} {a v : α} {c : List α} (path : (a :: c).IsChain r)
    (member : v ∈ a :: c) : ReflTransGen r a v :=
  path.induction (ReflTransGen r a) _ (fun _ _ step walk => walk.tail step) (fun _ => .refl) v member

/-- All elements of a chain lead to its last one. -/
theorem isChain_last {r : α → α → Prop} {c : List α} {v last : α} (path : c.IsChain r)
    (member : v ∈ c) (end_eq : c.getLast? = some last) : ReflTransGen r v last := by
  apply path.backwards_induction (ReflTransGen r · last) _ (fun _ _ step walk => walk.head step) _ v
    member
  intro nonempty
  rw [List.getLast?_eq_some_getLast nonempty, Option.some.injEq] at end_eq
  rw [end_eq]

/-- A relation is acyclic when each of its steps lifts to a walk of an acyclic one. -/
theorem Acyclic.of_lift {r : α → α → Prop} {e : β → β → Prop} (acyclic : Acyclic e) (f : α → β)
    (lift : ∀ a b, r a b → TransGen e (f a) (f b)) : Acyclic r :=
  fun a cycle => acyclic (f a) (transGen_lift f lift cycle)

/-- A relation along which a number grows is acyclic. -/
theorem Acyclic.of_lt {r : α → α → Prop} (f : α → Nat) (grows : ∀ a b, r a b → f a < f b) :
    Acyclic r := by
  have increasing : ∀ {a b}, TransGen r a b → f a < f b := by
    intro a b steps
    induction steps with
    | single step => exact grows _ _ step
    | tail _ step ih => exact ih.trans (grows _ _ step)
  exact fun a cycle => Nat.lt_irrefl _ (increasing cycle)

/-- A non-empty list has an element without a predecessor in the list. -/
theorem Acyclic.exists_minimal {r : α → α → Prop} (acyclic : Acyclic r) {items : List α}
    (nonempty : items ≠ []) : ∃ a ∈ items, ∀ b ∈ items, ¬ r b a := by
  classical
  let before : {a // a ∈ items} → {a // a ∈ items} → Prop := fun a b => TransGen r a.1 b.1
  have : Std.Irrefl before := ⟨fun a cycle => acyclic a.1 cycle⟩
  have : IsTrans {a // a ∈ items} before := ⟨fun _ _ _ first second => first.trans second⟩
  have : Finite {a // a ∈ items} := (List.finite_toSet items).to_subtype
  have wellFounded : WellFounded before := Finite.wellFounded_of_trans_of_irrefl before
  obtain ⟨first, member⟩ := List.exists_mem_of_ne_nil items nonempty
  obtain ⟨least, -, minimal⟩ := wellFounded.has_min Set.univ ⟨⟨first, member⟩, trivial⟩
  exact ⟨least.1, least.2, fun b inside step => minimal ⟨b, inside⟩ trivial (.single step)⟩

/-- A relation is acyclic when each of its steps goes up inside a class, or to
another class along an acyclic relation between the classes. -/
theorem Acyclic.of_classes [Preorder α] {r : α → α → Prop} {e : β → β → Prop} (acyclic : Acyclic e)
    (f : α → β) (step : ∀ a b, r a b → (f a = f b ∧ a < b) ∨ e (f a) (f b)) : Acyclic r := by
  have walk : ∀ {a b}, TransGen r a b → (f a = f b ∧ a < b) ∨ TransGen e (f a) (f b) := by
    intro a b steps
    induction steps with
    | single last => exact (step _ _ last).imp_right .single
    | tail _ last ih =>
      rcases ih with ⟨same, less⟩ | moved
      · rcases step _ _ last with ⟨same', less'⟩ | moved'
        · exact .inl ⟨same.trans same', less.trans less'⟩
        · exact .inr (.single (same ▸ moved'))
      · rcases step _ _ last with ⟨same', _⟩ | moved'
        · exact .inr (same' ▸ moved)
        · exact .inr (moved.tail moved')
  intro a cycle
  rcases walk cycle with ⟨_, less⟩ | moved
  · exact lt_irrefl a less
  · exact acyclic (f a) moved

end Relations
