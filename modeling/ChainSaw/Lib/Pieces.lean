import Mathlib.Data.List.Perm.Basic

set_option autoImplicit false

/- Lists that are cut into pieces: a collection of lists in place of one of
their concatenations. -/
namespace Pieces

variable {α : Type}

/-- Every list of `whole` is the concatenation of its pieces, and `parts` holds
all the pieces, in any order. -/
def Cuts (whole parts : List (List α)) : Prop :=
  ∃ pieces : List (List (List α)), pieces.map List.flatten = whole ∧ pieces.flatten.Perm parts

theorem Cuts.of_perm {whole parts : List (List α)} (same : whole.Perm parts) : Cuts whole parts := by
  refine ⟨whole.map fun c => [c], ?_, ?_⟩
  · simp [Function.comp_def]
  · rw [← List.flatMap_def, List.flatMap_singleton']
    exact same

theorem Cuts.refl (whole : List (List α)) : Cuts whole whole := .of_perm (List.Perm.refl whole)

theorem Cuts.append {whole whole' parts parts' : List (List α)} (first : Cuts whole parts)
    (second : Cuts whole' parts') : Cuts (whole ++ whole') (parts ++ parts') := by
  obtain ⟨pieces, joined, listed⟩ := first
  obtain ⟨pieces', joined', listed'⟩ := second
  refine ⟨pieces ++ pieces', ?_, ?_⟩
  · rw [List.map_append, joined, joined']
  · rw [List.flatten_append]
    exact listed.append listed'

theorem Cuts.perm_right {whole parts parts' : List (List α)} (cuts : Cuts whole parts)
    (same : parts.Perm parts') : Cuts whole parts' := by
  obtain ⟨pieces, joined, listed⟩ := cuts
  exact ⟨pieces, joined, listed.trans same⟩

/-- One list cut in two. -/
theorem cuts_two (first second : List α) : Cuts [first ++ second] [first, second] :=
  ⟨[[first, second]], by simp, by simp⟩

/-- The pieces of pieces can be grouped by the lists they come from. -/
theorem exists_grouping (groups : List (List (List α))) :
    ∀ pieces : List (List (List α)), List.Forall₂ (fun part cut => cut.flatten = part)
        groups.flatten pieces →
      ∃ grouped : List (List (List (List α))),
        grouped.map (·.map List.flatten) = groups ∧ grouped.flatten = pieces := by
  induction groups with
  | nil =>
    intro pieces related
    rw [List.flatten_nil] at related
    cases related
    exact ⟨[], rfl, rfl⟩
  | cons group groups ih =>
    intro pieces related
    rw [List.flatten_cons] at related
    have front := List.forall₂_take_append pieces group groups.flatten related.flip
    have rest := List.forall₂_drop_append pieces group groups.flatten related.flip
    obtain ⟨grouped, labels, listed⟩ := ih (pieces.drop group.length) rest.flip
    refine ⟨pieces.take group.length :: grouped, ?_, ?_⟩
    · have head : (pieces.take group.length).map List.flatten = group := by
        rw [← List.forall₂_eq_eq_eq, List.forall₂_map_left_iff]
        exact front
      rw [List.map_cons, head, labels]
    · rw [List.flatten_cons, listed, List.take_append_drop]

theorem Cuts.trans {first second third : List (List α)} (cuts : Cuts first second)
    (again : Cuts second third) : Cuts first third := by
  obtain ⟨pieces, rfl, listed⟩ := cuts
  obtain ⟨pieces', rfl, listed'⟩ := again
  have related : List.Forall₂ (fun part cut : List _ => cut.flatten = part)
      (pieces'.map List.flatten) pieces' := by
    rw [List.forall₂_map_left_iff, List.forall₂_same]
    exact fun _ _ => rfl
  obtain ⟨ordered, related', same⟩ := List.perm_comp_forall₂ listed related
  obtain ⟨grouped, rfl, rfl⟩ := exists_grouping pieces ordered related'
  refine ⟨grouped.map List.flatten, ?_, ?_⟩
  · rw [List.map_map, List.map_map]
    refine List.map_congr_left fun group _ => ?_
    simp only [Function.comp_apply]
    exact List.flatten_flatten
  · rw [← List.flatten_flatten]
    exact same.flatten.trans listed'

end Pieces
