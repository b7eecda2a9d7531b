import Mathlib.Data.Finset.Card
import Mathlib.Logic.Relation

set_option autoImplicit false

/- Trees that grow in a directed graph node by node. A tree is a finite set of
nodes; `only p c` says that `p` is the one node that `c` may hang below, and the
rank goes up along it. -/
namespace Trees

open Relation (ReflTransGen)

variable {α : Type} {only : α → α → Prop} {rank : α → Int} {members : Finset α} {root : α}

structure IsTree (only : α → α → Prop) (rank : α → Int) (members : Finset α) (root : α) : Prop where
  root_mem : root ∈ members
  least : ∀ c ∈ members, rank root ≤ rank c
  parent : ∀ c ∈ members, c ≠ root → ∃ p ∈ members, only p c

theorem IsTree.singleton (root : α) : IsTree only rank {root} root where
  root_mem := Finset.mem_singleton_self root
  least := by
    intro c member
    rw [Finset.mem_singleton.mp member]
  parent := by
    intro c member other
    exact absurd (Finset.mem_singleton.mp member) other

theorem IsTree.insert [DecidableEq α] (tree : IsTree only rank members root) {p c : α}
    (inside : p ∈ members) (below : only p c) (higher : rank p < rank c) :
    IsTree only rank (insert c members) root where
  root_mem := Finset.mem_insert_of_mem tree.root_mem
  least := by
    intro d member
    rcases Finset.mem_insert.mp member with rfl | member
    · have := tree.least p inside
      omega
    · exact tree.least d member
  parent := by
    intro d member other
    rcases Finset.mem_insert.mp member with rfl | member
    · exact ⟨p, Finset.mem_insert_of_mem inside, below⟩
    · obtain ⟨q, inside, above⟩ := tree.parent d member other
      exact ⟨q, Finset.mem_insert_of_mem inside, above⟩

/-- Every node of a tree is reached from the root inside the tree. -/
theorem IsTree.reached (tree : IsTree only rank members root)
    (higher : ∀ p c, only p c → rank p < rank c) :
    ∀ c ∈ members, ReflTransGen (fun p c => p ∈ members ∧ c ∈ members ∧ only p c) root c := by
  suffices general : ∀ (n : Nat), ∀ c ∈ members, rank c - rank root = n →
      ReflTransGen (fun p c => p ∈ members ∧ c ∈ members ∧ only p c) root c by
    intro c member
    have above := tree.least c member
    exact general (rank c - rank root).toNat c member (by omega)
  intro n
  -- the parent of a node other than the root has a smaller rank
  induction n using Nat.strongRecOn with
  | ind n ih =>
    intro c member height
    by_cases same : c = root
    · rw [same]
    · obtain ⟨p, inside, above⟩ := tree.parent c member same
      have less := higher p c above
      have atRoot := tree.least p inside
      have upper := ih (rank p - rank root).toNat (by omega) p inside (by omega)
      exact upper.tail ⟨inside, member, above⟩

section leaves

variable (edge : α → α → Prop) [DecidableRel edge]

/-- The nodes of a tree from which no edge leads to another node of it. -/
def leaves (members : Finset α) : Finset α := members.filter fun c => ∀ d ∈ members, ¬ edge c d

variable {edge}

theorem mem_leaves {c : α} :
    c ∈ leaves edge members ↔ c ∈ members ∧ ∀ d ∈ members, ¬ edge c d := Finset.mem_filter

variable [DecidableEq α]

theorem leaves_insert_subset (c : α) :
    leaves edge (insert c members) ⊆ insert c (leaves edge members) := by
  intro x member
  obtain ⟨inside, final⟩ := mem_leaves.mp member
  rcases Finset.mem_insert.mp inside with rfl | inside
  · exact Finset.mem_insert_self x _
  · refine Finset.mem_insert_of_mem (mem_leaves.mpr ⟨inside, ?_⟩)
    intro d listed
    exact final d (Finset.mem_insert_of_mem listed)

/-- A new node adds at most one leaf. -/
theorem card_leaves_insert (c : α) :
    (leaves edge (insert c members)).card ≤ (leaves edge members).card + 1 :=
  (Finset.card_le_card (leaves_insert_subset c)).trans (Finset.card_insert_le c _)

/-- A new node below a leaf takes its place. -/
theorem card_leaves_insert_below {p c : α} (leaf : p ∈ leaves edge members) (below : edge p c) :
    (leaves edge (insert c members)).card ≤ (leaves edge members).card := by
  have inner : p ∉ leaves edge (insert c members) := by
    intro still
    exact (mem_leaves.mp still).2 c (Finset.mem_insert_self c members) below
  have sub : leaves edge (insert c members) ⊆ insert c ((leaves edge members).erase p) := by
    intro x member
    rcases Finset.mem_insert.mp (leaves_insert_subset c member) with rfl | old
    · exact Finset.mem_insert_self x _
    · refine Finset.mem_insert_of_mem (Finset.mem_erase.mpr ⟨?_, old⟩)
      exact fun same => inner (same ▸ member)
  have most := (Finset.card_le_card sub).trans (Finset.card_insert_le c _)
  rw [Finset.card_erase_of_mem leaf] at most
  have positive := Finset.card_pos.mpr ⟨p, leaf⟩
  omega

end leaves

end Trees
