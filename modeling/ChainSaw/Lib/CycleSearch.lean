import Mathlib.Data.List.Basic
import ChainSaw.Lib.Acyclic

set_option autoImplicit false

/- Depth-first search for a cycle without a set of visited nodes: the stack is
the path from the root to the current node, and meeting a node of the stack
again is a cycle. A call pops its own entry unless it reports a cycle. -/
namespace CycleSearch

open Relation

variable {α : Type} [DecidableEq α]

/-- Visit the successors of the node on top of the stack one after another. -/
def scan (visit : α → List α → Option (Bool × List α)) :
    List α → List α → Option (Bool × List α)
  | [], stack => some (false, stack.dropLast)
  | next :: rest, stack =>
    if next ∈ stack then some (true, stack)
    else
      match visit next (stack ++ [next]) with
      | none => none
      | some (true, stack) => some (true, stack)
      | some (false, stack) => scan visit rest stack

/-- The search; `none` when the recursion goes deeper than the bound. -/
def search (succ : α → List α) : Nat → α → List α → Option (Bool × List α)
  | 0, _, _ => none
  | depth + 1, a, stack => scan (search succ depth) (succ a) stack

/-- What the search looks for from `a`: a way back to the stack, or any cycle. -/
def Closes (succ : α → List α) (a : α) (stack : List α) : Prop :=
  (∃ b ∈ stack, TransGen (fun a b => b ∈ succ a) a b) ∨
    ∃ b, ReflTransGen (fun a b => b ∈ succ a) a b ∧ TransGen (fun a b => b ∈ succ a) b b

variable {succ : α → List α}

omit [DecidableEq α] in
theorem Closes.of_mem {a b : α} {stack : List α} (step : b ∈ succ a) (member : b ∈ stack) :
    Closes succ a stack :=
  .inl ⟨b, member, .single step⟩

omit [DecidableEq α] in
/-- A cycle found below a successor is one found from the node itself, since
the node is on the stack. -/
theorem Closes.of_succ {a b : α} {stack : List α} (step : b ∈ succ a)
    (closes : Closes succ b (stack ++ [b])) : Closes succ a stack := by
  rcases closes with ⟨c, member, walk⟩ | ⟨c, walk, cycle⟩
  · rcases List.mem_append.mp member with old | new
    · exact .inl ⟨c, old, .head step walk⟩
    · rw [List.mem_singleton.mp new] at walk
      exact .inr ⟨b, .single step, walk⟩
  · exact .inr ⟨c, .head step walk, cycle⟩

omit [DecidableEq α] in
theorem not_closes {a : α} {stack : List α} (top : a ∈ stack)
    (fresh : ∀ b ∈ succ a, b ∉ stack) (below : ∀ b ∈ succ a, ¬ Closes succ b (stack ++ [b])) :
    ¬ Closes succ a stack := by
  have noReturn : ∀ c ∈ stack, ¬ TransGen (fun a b => b ∈ succ a) a c := by
    intro c member walk
    rcases TransGen.head'_iff.mp walk with ⟨b, step, rest⟩
    rcases reflTransGen_iff_eq_or_transGen.mp rest with same | walk
    · subst same
      exact fresh _ step member
    · exact below b step (.inl ⟨c, by simp [member], walk⟩)
  rintro (⟨c, member, walk⟩ | ⟨c, walk, cycle⟩)
  · exact noReturn c member walk
  · rcases ReflTransGen.cases_head walk with rfl | ⟨b, step, rest⟩
    · exact noReturn a top cycle
    · exact below b step (.inr ⟨c, rest, cycle⟩)

/-- What a visit promises: `true` only on a cycle, `false` only without one,
and then the stack is left as it was before the caller's push. -/
def Exact (succ : α → List α) (visit : α → List α → Option (Bool × List α)) : Prop :=
  ∀ a stack found left, a ∈ stack → visit a stack = some (found, left) →
    (found = true → Closes succ a stack) ∧
      (found = false → left = stack.dropLast ∧ ¬ Closes succ a stack)

theorem scan_exact {visit : α → List α → Option (Bool × List α)} (exact : Exact succ visit)
    {a : α} {stack : List α} (rest : List α) :
    ∀ found left, (∀ b ∈ rest, b ∈ succ a) → scan visit rest stack = some (found, left) →
      (found = true → Closes succ a stack) ∧
        (found = false → left = stack.dropLast ∧
          ∀ b ∈ rest, b ∉ stack ∧ ¬ Closes succ b (stack ++ [b])) := by
  induction rest with
  | nil =>
    intro found left _ returned
    cases returned
    simp
  | cons next rest ih =>
    intro found left within returned
    have step : next ∈ succ a := within next (by simp)
    unfold scan at returned
    split at returned
    · rename_i onStack
      cases returned
      exact ⟨fun _ => .of_mem step onStack, by simp⟩
    · rename_i fresh
      have visited := exact next (stack ++ [next])
      split at returned
      · cases returned
      · rename_i below called
        cases returned
        have closes := (visited true left (by simp) called).1 rfl
        exact ⟨fun _ => .of_succ step closes, by simp⟩
      · rename_i below called
        obtain ⟨popped, none⟩ := (visited false below (by simp) called).2 rfl
        rw [popped, List.dropLast_concat] at returned
        obtain ⟨yes, no⟩ := ih found left (fun b member => within b (by simp [member])) returned
        refine ⟨yes, fun notFound => ⟨(no notFound).1, ?_⟩⟩
        intro b member
        rcases List.mem_cons.mp member with rfl | member
        · exact ⟨fresh, none⟩
        · exact (no notFound).2 b member

theorem search_exact (depth : Nat) : Exact succ (search succ depth) := by
  induction depth with
  | zero => intro a stack found left _ returned; cases returned
  | succ depth ih =>
    intro a stack found left top returned
    obtain ⟨yes, no⟩ := scan_exact ih (succ a) found left (fun _ member => member) returned
    refine ⟨yes, fun notFound => ⟨(no notFound).1, ?_⟩⟩
    exact not_closes top (fun b step => ((no notFound).2 b step).1)
      fun b step => ((no notFound).2 b step).2

/-- The nodes with successors that are not on the stack yet. -/
def unvisited (nodes stack : List α) : List α := nodes.filter (fun a => a ∉ stack)

theorem length_unvisited_lt {nodes stack : List α} {a : α} (member : a ∈ nodes) (fresh : a ∉ stack) :
    (unvisited nodes (stack ++ [a])).length < (unvisited nodes stack).length := by
  have same : unvisited nodes (stack ++ [a]) = (unvisited nodes stack).filter (fun b => b ≠ a) := by
    simp only [unvisited, List.filter_filter]
    congr 1
    funext b
    simp [and_comm, not_or]
  rw [same]
  apply List.length_filter_lt_length_iff_exists.mpr
  exact ⟨a, by simp [unvisited, member, fresh], by simp⟩

theorem scan_total {visit : α → List α → Option (Bool × List α)} (exact : Exact succ visit)
    {stack : List α} (rest : List α)
    (each : ∀ b ∈ rest, b ∉ stack → (visit b (stack ++ [b])).isSome) :
    (scan visit rest stack).isSome := by
  induction rest with
  | nil => rfl
  | cons next rest ih =>
    unfold scan
    split
    · rfl
    · rename_i fresh
      have called := each next (by simp) fresh
      split
      · rename_i failed
        simp [failed] at called
      · rfl
      · rename_i below returned
        have popped := ((exact next (stack ++ [next]) false below (by simp) returned).2 rfl).1
        rw [popped, List.dropLast_concat]
        exact ih fun b member => each b (by simp [member])

/-- The recursion is never deeper than the nodes with successors allow. -/
theorem search_total {nodes : List α} (listed : ∀ a, succ a ≠ [] → a ∈ nodes) (depth : Nat) :
    ∀ a stack, (succ a ≠ [] → (unvisited nodes stack).length + 1 < depth) → 0 < depth →
      (search succ depth a stack).isSome := by
  induction depth with
  | zero => intro a stack _ positive; omega
  | succ depth ih =>
    intro a stack enough _
    apply scan_total (search_exact depth)
    intro b step fresh
    have deep := enough (List.ne_nil_of_mem step)
    apply ih
    · intro branching
      have := length_unvisited_lt (listed b branching) fresh
      omega
    · omega

theorem scan_deeper {visit deeper : α → List α → Option (Bool × List α)}
    (more : ∀ a stack result, visit a stack = some result → deeper a stack = some result)
    (rest : List α) : ∀ stack result, scan visit rest stack = some result →
      scan deeper rest stack = some result := by
  induction rest with
  | nil => exact fun stack result returned => returned
  | cons next rest ih =>
    intro stack result returned
    unfold scan at returned ⊢
    split at returned
    · rename_i onStack
      rw [if_pos onStack]
      exact returned
    · rename_i fresh
      rw [if_neg fresh]
      cases called : visit next (stack ++ [next]) with
      | none =>
        rw [called] at returned
        cases returned
      | some visited =>
        rw [called] at returned
        rw [more _ _ _ called]
        obtain ⟨found, below⟩ := visited
        cases found
        · exact ih below result returned
        · exact returned

/-- A search that returned gives the same answer under every larger bound. -/
theorem search_deeper {depth more : Nat} (le : depth ≤ more) :
    ∀ a stack result, search succ depth a stack = some result →
      search succ more a stack = some result := by
  induction depth generalizing more with
  | zero =>
    intro a stack result returned
    cases returned
  | succ depth ih =>
    intro a stack result returned
    cases more with
    | zero => omega
    | succ more => exact scan_deeper (ih (by omega)) (succ a) stack result returned

/-- From a fresh stack the search is total and finds exactly the reachable cycles. -/
theorem search_root {nodes : List α} (listed : ∀ a, succ a ≠ [] → a ∈ nodes) (a : α) :
    ∃ found left, search succ (nodes.length + 1) a [a] = some (found, left) ∧
      (found = true ↔ ∃ b, ReflTransGen (fun a b => b ∈ succ a) a b ∧
        TransGen (fun a b => b ∈ succ a) b b) := by
  have total : (search succ (nodes.length + 1) a [a]).isSome := by
    apply search_total listed
    · intro branching
      have shorter := length_unvisited_lt (listed a branching) (List.not_mem_nil (a := a))
      have whole : (unvisited nodes ([] : List α)).length ≤ nodes.length := List.length_filter_le _ _
      simp only [List.nil_append] at shorter
      omega
    · omega
  obtain ⟨⟨found, left⟩, returned⟩ := Option.isSome_iff_exists.mp total
  refine ⟨found, left, returned, ?_⟩
  obtain ⟨yes, no⟩ := search_exact _ a [a] found left (by simp) returned
  constructor
  · intro loop
    rcases yes loop with ⟨b, member, walk⟩ | closes
    · rw [List.mem_singleton.mp member] at walk
      exact ⟨a, .refl, walk⟩
    · exact closes
  · intro cycle
    cases found with
    | true => rfl
    | false => exact absurd (.inr cycle) (no rfl).2

end CycleSearch
