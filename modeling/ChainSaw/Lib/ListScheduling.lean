import Mathlib.Algebra.Order.Monoid.Defs
import Mathlib.Algebra.Order.Monoid.Unbundled.Basic
import Mathlib.Data.Set.Basic

set_option autoImplicit false

/- List scheduling: jobs are handed out one after the other, each to a machine
with the least load, in an ordered monoid of loads. -/
namespace ListScheduling

variable {ι M : Type} [AddCommMonoid M] [PartialOrder M] [IsOrderedAddMonoid M]

/-- The loads of any two machines differ by at most `gap`. -/
def Spread (machines : Set ι) (gap : M) (load : ι → M) : Prop :=
  ∀ i ∈ machines, ∀ j ∈ machines, load i ≤ load j + gap

theorem spread_const (machines : Set ι) {gap : M} (positive : 0 ≤ gap) (value : M) :
    Spread machines gap (fun _ => value) := by
  intro _ _ _ _
  exact le_add_of_nonneg_right positive

/-- A job no larger than `gap` on a machine with the least load keeps the loads
within `gap` of each other. -/
theorem Spread.assign {machines : Set ι} {gap job : M} {load next : ι → M}
    (spread : Spread machines gap load) {k : ι} (least : ∀ j ∈ machines, load k ≤ load j)
    (positive : 0 ≤ job) (small : job ≤ gap) (here : next k = load k + job)
    (others : ∀ i, i ≠ k → next i = load i) : Spread machines gap next := by
  intro i hi j hj
  have grows : load j ≤ next j := by
    by_cases same : j = k
    · rw [same, here]
      exact le_add_of_nonneg_right positive
    · rw [others j same]
  by_cases chosen : i = k
  · rw [chosen, here]
    exact add_le_add ((least j hj).trans grows) small
  · rw [others i chosen]
    calc load i ≤ load j + gap := spread i hi j hj
      _ ≤ next j + gap := add_le_add grows le_rfl

end ListScheduling
