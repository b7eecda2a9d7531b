import Mathlib.Algebra.Ring.Nat
import Mathlib.Data.Multiset.MapFold
import Mathlib.Data.Multiset.Range
import Mathlib.Logic.Function.Basic
import Mathlib.Order.Defs.Unbundled

set_option autoImplicit false

/- Binary heaps in an array whose root is entry 1: entry `i` has the children
`2 * i` and `2 * i + 1`. -/
namespace ImplicitHeap

open Function (update)

variable {α : Type}

/-- The entries 1 to `n`. -/
def items (h : Nat → α) (n : Nat) : Multiset α := (Multiset.range n).map fun i => h (i + 1)

theorem items_zero (h : Nat → α) : items h 0 = 0 := rfl

theorem items_succ (h : Nat → α) (n : Nat) : items h (n + 1) = h (n + 1) ::ₘ items h n := by
  rw [items, Multiset.range_succ, Multiset.map_cons]
  rfl

@[simp] theorem card_items (h : Nat → α) (n : Nat) : (items h n).card = n := by
  simp [items]

theorem mem_items {h : Nat → α} {n : Nat} {a : α} :
    a ∈ items h n ↔ ∃ i, 1 ≤ i ∧ i ≤ n ∧ h i = a := by
  simp only [items, Multiset.mem_map, Multiset.mem_range]
  constructor
  · rintro ⟨i, inside, rfl⟩
    exact ⟨i + 1, by omega, by omega, rfl⟩
  · rintro ⟨i, positive, inside, rfl⟩
    exact ⟨i - 1, by omega, by rw [Nat.sub_add_cancel positive]⟩

theorem items_congr {h k : Nat → α} {n : Nat} (same : ∀ i, 1 ≤ i → i ≤ n → h i = k i) :
    items h n = items k n := by
  refine Multiset.map_congr rfl fun i inside => ?_
  have inside := Multiset.mem_range.mp inside
  exact same (i + 1) (by omega) (by omega)

theorem items_update_outside {h : Nat → α} {n i : Nat} (outside : n < i) (a : α) :
    items (update h i a) n = items h n :=
  items_congr fun j _ inside => Function.update_of_ne (by omega) a h

/-- Writing an entry replaces one item. -/
theorem items_update {h : Nat → α} {n i : Nat} (positive : 1 ≤ i) (inside : i ≤ n) (a : α) :
    h i ::ₘ items (update h i a) n = a ::ₘ items h n := by
  induction n with
  | zero => omega
  | succ n ih =>
    rw [items_succ, items_succ]
    by_cases last : i = n + 1
    · subst last
      rw [Function.update_self, items_update_outside (Nat.lt_succ_self n), Multiset.cons_swap]
    · rw [Function.update_of_ne (by omega), Multiset.cons_swap, ih (by omega), Multiset.cons_swap]

/-- Any two of the items are in the relation. -/
def Apart (S : α → α → Prop) (m : Multiset α) : Prop := ∀ a b, ({a, b} : Multiset α) ≤ m → S a b

theorem pair_le_items {h : Nat → α} {n i j : Nat} (positiveI : 1 ≤ i) (insideI : i ≤ n)
    (positiveJ : 1 ≤ j) (insideJ : j ≤ n) (apart : i ≠ j) : {h i, h j} ≤ items h n := by
  have two : ({i - 1, j - 1} : Multiset Nat) ≤ Multiset.range n := by
    rw [Multiset.le_iff_subset (by simp; omega)]
    intro k member
    simp only [Multiset.insert_eq_cons, Multiset.mem_cons, Multiset.mem_singleton] at member
    exact Multiset.mem_range.mpr (by omega)
  have mapped := Multiset.map_le_map (f := fun k => h (k + 1)) two
  simpa [items, Nat.sub_add_cancel positiveI, Nat.sub_add_cancel positiveJ] using mapped

theorem Apart.entries {S : α → α → Prop} {h : Nat → α} {n i j : Nat} (apart : Apart S (items h n))
    (positiveI : 1 ≤ i) (insideI : i ≤ n) (positiveJ : 1 ≤ j) (insideJ : j ≤ n) (other : i ≠ j) :
    S (h i) (h j) :=
  apart _ _ (pair_le_items positiveI insideI positiveJ insideJ other)

theorem Apart.mono {S : α → α → Prop} {m m' : Multiset α} (apart : Apart S m) (less : m' ≤ m) :
    Apart S m' :=
  fun a b pair => apart a b (pair.trans less)

def swap (h : Nat → α) (i j : Nat) : Nat → α := update (update h i (h j)) j (h i)

theorem swap_right (h : Nat → α) (i j : Nat) : swap h i j j = h i := Function.update_self ..

theorem swap_left (h : Nat → α) (i j : Nat) : swap h i j i = h j := by
  unfold swap
  by_cases same : i = j
  · rw [same, Function.update_self]
  · rw [Function.update_of_ne same, Function.update_self]

theorem swap_of_ne {h : Nat → α} {i j k : Nat} (notI : k ≠ i) (notJ : k ≠ j) :
    swap h i j k = h k := by
  rw [swap, Function.update_of_ne notJ, Function.update_of_ne notI]

theorem items_swap {h : Nat → α} {n i j : Nat} (positiveI : 1 ≤ i) (insideI : i ≤ n)
    (positiveJ : 1 ≤ j) (insideJ : j ≤ n) : items (swap h i j) n = items h n := by
  by_cases same : i = j
  · subst same
    simp [swap]
  · have first := items_update (h := h) positiveI insideI (h j)
    have second := items_update (h := update h i (h j)) positiveJ insideJ (h i)
    rw [Function.update_of_ne (Ne.symm same)] at second
    rw [first] at second
    exact (Multiset.cons_inj_right (h j)).mp second

section order

variable {le : α → α → Prop}

/-- No entry comes before its parent. -/
def Ordered (le : α → α → Prop) (h : Nat → α) (n : Nat) : Prop :=
  ∀ i, 1 < i → i ≤ n → le (h (i / 2)) (h i)

theorem Ordered.congr {h k : Nat → α} {n : Nat} (ordered : Ordered le h n)
    (same : ∀ i, 1 ≤ i → i ≤ n → h i = k i) : Ordered le k n := by
  intro i positive inside
  rw [← same i (by omega) inside, ← same (i / 2) (by omega) (by omega)]
  exact ordered i positive inside

theorem Ordered.mono {h : Nat → α} {n m : Nat} (ordered : Ordered le h n) (less : m ≤ n) :
    Ordered le h m :=
  fun i positive inside => ordered i positive (inside.trans less)

/-- The root comes before all entries. -/
theorem Ordered.root_le [IsTrans α le] [Std.Refl le] {h : Nat → α} {n : Nat}
    (ordered : Ordered le h n) : ∀ i, 1 ≤ i → i ≤ n → le (h 1) (h i) := by
  intro i
  induction i using Nat.strongRecOn with
  | ind i ih =>
    intro positive inside
    by_cases root : i = 1
    · rw [root]
      exact Std.Refl.refl _
    · have above := ih (i / 2) (by omega) (by omega) (by omega)
      exact trans_of le above (ordered i (by omega) inside)

/-- Only entry `i` may come before its parent. -/
structure Rising (le : α → α → Prop) (h : Nat → α) (n i : Nat) : Prop where
  off : ∀ j, 1 < j → j ≤ n → j ≠ i → le (h (j / 2)) (h j)
  grand : ∀ j, 1 < j → j ≤ n → j / 2 = i → 1 < i → le (h (i / 2)) (h j)

/-- A new last entry may come before its parent. -/
theorem Ordered.rising {h : Nat → α} {n : Nat} (ordered : Ordered le h n) (a : α) :
    Rising le (update h (n + 1) a) (n + 1) (n + 1) := by
  constructor
  · intro j positive inside other
    rw [Function.update_of_ne other, Function.update_of_ne (by omega)]
    exact ordered j positive (by omega)
  · intro j _ inside child _
    omega

theorem Rising.move [IsTrans α le] {h : Nat → α} {n i : Nat} (rising : Rising le h n i) (inner : 1 < i)
    (inside : i ≤ n) (before : le (h i) (h (i / 2))) :
    Rising le (swap h i (i / 2)) n (i / 2) := by
  have apart : i / 2 ≠ i := by omega
  constructor
  · intro j positive insideJ other
    by_cases here : j = i
    · subst here
      rw [swap_left, swap_right]
      exact before
    · rw [swap_of_ne here other]
      by_cases child : j / 2 = i
      · rw [child, swap_left]
        exact rising.grand j positive insideJ child inner
      · by_cases sibling : j / 2 = i / 2
        · have above := rising.off j positive insideJ here
          rw [sibling] at above ⊢
          rw [swap_right]
          exact trans_of le before above
        · rw [swap_of_ne child sibling]
          exact rising.off j positive insideJ here
  · intro j positive insideJ child innerParent
    have above := rising.off (i / 2) innerParent (by omega) apart
    rw [swap_of_ne (by omega) (by omega)]
    by_cases here : j = i
    · rw [here, swap_left]
      exact above
    · rw [swap_of_ne here (by omega)]
      have below := rising.off j positive insideJ here
      rw [child] at below
      exact trans_of le above below

theorem Rising.finish {h : Nat → α} {n i : Nat} (rising : Rising le h n i)
    (settled : 1 < i → le (h (i / 2)) (h i)) : Ordered le h n := by
  intro j positive inside
  by_cases here : j = i
  · rw [here]
    exact settled (here ▸ positive)
  · exact rising.off j positive inside here

/-- Only the children of entry `i` may come before it. -/
structure Sinking (le : α → α → Prop) (h : Nat → α) (n i : Nat) : Prop where
  off : ∀ j, 1 < j → j ≤ n → j / 2 ≠ i → le (h (j / 2)) (h j)
  grand : ∀ j, 1 < j → j ≤ n → j / 2 = i → 1 < i → le (h (i / 2)) (h j)

/-- The children of a new root may come before it. -/
theorem Ordered.sinking {h : Nat → α} {n : Nat} (ordered : Ordered le h n) (a : α) :
    Sinking le (update h 1 a) n 1 := by
  constructor
  · intro j positive inside other
    rw [Function.update_of_ne other, Function.update_of_ne (by omega)]
    exact ordered j positive inside
  · intro j _ _ _ inner
    omega

theorem Sinking.move {h : Nat → α} {n i s : Nat} (sinking : Sinking le h n i) (positive : 1 ≤ i)
    (child : s / 2 = i) (inside : s ≤ n) (before : le (h s) (h i))
    (least : ∀ j, 1 < j → j ≤ n → j / 2 = i → le (h s) (h j)) :
    Sinking le (swap h i s) n s := by
  have inner : 1 < s := by omega
  constructor
  · intro j positiveJ insideJ other
    by_cases isChild : j / 2 = i
    · rw [isChild, swap_left]
      by_cases here : j = s
      · rw [here, swap_right]
        exact before
      · rw [swap_of_ne (by omega) here]
        exact least j positiveJ insideJ isChild
    · rw [swap_of_ne isChild other]
      by_cases here : j = i
      · rw [here, swap_left]
        exact sinking.grand s inner inside child (here ▸ positiveJ)
      · rw [swap_of_ne here (by omega)]
        exact sinking.off j positiveJ insideJ isChild
  · intro j positiveJ insideJ isChild _
    have below := sinking.off j positiveJ insideJ (by omega)
    rw [child, swap_left, swap_of_ne (by omega) (by omega)]
    rw [isChild] at below
    exact below

theorem Sinking.finish {h : Nat → α} {n i : Nat} (sinking : Sinking le h n i)
    (settled : ∀ j, 1 < j → j ≤ n → j / 2 = i → le (h i) (h j)) : Ordered le h n := by
  intro j positive inside
  by_cases child : j / 2 = i
  · rw [child]
    exact settled j positive inside child
  · exact sinking.off j positive inside child

end order

/-- Entry `j` is `i` or one of its descendants. -/
def Below (i j : Nat) : Prop := ∃ k, j / 2 ^ k = i

theorem Below.le {i j : Nat} (below : Below i j) : i ≤ j := by
  obtain ⟨k, rfl⟩ := below
  exact Nat.div_le_self j (2 ^ k)

theorem below_iff {i j : Nat} : Below i j ↔ j = i ∨ Below (2 * i) j ∨ Below (2 * i + 1) j := by
  have halved : ∀ k, j / 2 ^ (k + 1) = j / 2 ^ k / 2 := fun k => by
    rw [Nat.pow_succ, Nat.div_div_eq_div_mul]
  constructor
  · rintro ⟨k, rfl⟩
    cases k with
    | zero => exact .inl (by simp)
    | succ k =>
      rw [halved]
      rcases (by omega : j / 2 ^ k = 2 * (j / 2 ^ k / 2) ∨ j / 2 ^ k = 2 * (j / 2 ^ k / 2) + 1) with
        even | odd
      · exact .inr (.inl ⟨k, even⟩)
      · exact .inr (.inr ⟨k, odd⟩)
  · rintro (rfl | ⟨k, even⟩ | ⟨k, odd⟩)
    · exact ⟨0, by simp⟩
    · exact ⟨k + 1, by rw [halved]; omega⟩
    · exact ⟨k + 1, by rw [halved]; omega⟩

theorem below_root (j : Nat) (positive : 1 ≤ j) : Below 1 j := by
  induction j using Nat.strongRecOn with
  | ind j ih =>
    by_cases root : j = 1
    · exact ⟨0, by simp [root]⟩
    · obtain ⟨k, above⟩ := ih (j / 2) (by omega) (by omega)
      refine ⟨k + 1, ?_⟩
      rw [Nat.pow_succ', ← Nat.div_div_eq_div_mul]
      exact above

end ImplicitHeap
