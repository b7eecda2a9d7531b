import ChainSaw.Dependencies

set_option autoImplicit false

namespace ChainSaw

open Std (TreeMap TreeSet)
open Relation (TransGen ReflTransGen)

/-- A call that the loop over `rest` makes when it begins on `stack`: the chain
it calls for, and the stack below the entry that it pushes. -/
inductive LoopCalls (visit : Nat → List Nat → Result (Bool × List Nat)) :
    List Nat → List Nat → Nat → List Nat → Prop
  | here {ch : Nat} {rest stack : List Nat} (fresh : ch ∉ stack) :
      LoopCalls visit (ch :: rest) stack ch stack
  | later {ch : Nat} {rest stack left : List Nat} {called : Nat} {below : List Nat}
      (fresh : ch ∉ stack) (visited : visit ch (stack ++ [ch]) = .ok (false, left))
      (call : LoopCalls visit rest left called below) :
      LoopCalls visit (ch :: rest) stack called below

/-- A recursive call, at any depth, of `checkLoopComplete` with the bound, the
chain and the stack that stand first: its own bound, its chain, and the stack
before its caller pushed that chain. -/
inductive Calls (dependencies : ChainSets) :
    Nat → Nat → List Nat → Nat → Nat → List Nat → Prop
  | direct {depth id : Nat} {stack : List Nat} {node : TreeSet Nat} {ch : Nat} {below : List Nat}
      (found : dependencies[id]? = some node)
      (call : LoopCalls (checkLoopComplete dependencies depth) node.toList stack ch below) :
      Calls dependencies (depth + 1) id stack depth ch below
  | nested {depth id : Nat} {stack : List Nat} {node : TreeSet Nat} {ch : Nat} {below : List Nat}
      {depth' ch' : Nat} {below' : List Nat} (found : dependencies[id]? = some node)
      (call : LoopCalls (checkLoopComplete dependencies depth) node.toList stack ch below)
      (inner : Calls dependencies depth ch (below ++ [ch]) depth' ch' below') :
      Calls dependencies (depth + 1) id stack depth' ch' below'

/-- Whatever lies below the entry that the caller pushed, a check that answers
`false` pops that entry and leaves the rest alone. -/
theorem checkLoopComplete_pops {dependencies : ChainSets} {depth id : Nat} {below left : List Nat}
    (returned : checkLoopComplete dependencies depth id (below ++ [id]) = .ok (false, left)) :
    left = below := by
  rw [checkLoopComplete_eq_search] at returned
  cases searched : CycleSearch.search (dependents dependencies) depth id (below ++ [id]) with
  | none =>
    rw [searched] at returned
    cases returned
  | some result =>
    rw [searched] at returned
    cases returned
    have exact := CycleSearch.search_exact depth id (below ++ [id]) false left (by simp) searched
    rw [(exact.2 rfl).1, List.dropLast_concat]

theorem LoopCalls.returned {visit : Nat → List Nat → Result (Bool × List Nat)}
    {rest stack below : List Nat} {ch : Nat} (call : LoopCalls visit rest stack ch below) :
    ∀ {result}, checkDependents visit rest stack = .ok result →
      ∃ visited, visit ch (below ++ [ch]) = .ok visited := by
  induction call with
  | here fresh =>
    intro result answered
    unfold checkDependents at answered
    rw [if_neg fresh] at answered
    obtain ⟨visited, answered, _⟩ := Loops.bind_eq_ok.mp answered
    exact ⟨visited, answered⟩
  | later fresh visited call ih =>
    intro result answered
    unfold checkDependents at answered
    rw [if_neg fresh, visited] at answered
    exact ih answered

theorem checkLoopComplete_found {dependencies : ChainSets} {depth id : Nat} {stack : List Nat}
    {node : TreeSet Nat} (found : dependencies[id]? = some node) :
    checkLoopComplete dependencies (depth + 1) id stack =
      checkDependents (checkLoopComplete dependencies depth) node.toList stack := by
  rw [checkLoopComplete, found]

/-- Every recursive call of a check that returns comes back itself. -/
theorem Calls.returned {dependencies : ChainSets} {depth id depth' ch : Nat}
    {stack below : List Nat} (call : Calls dependencies depth id stack depth' ch below) :
    ∀ {result}, checkLoopComplete dependencies depth id stack = .ok result →
      ∃ visited, checkLoopComplete dependencies depth' ch (below ++ [ch]) = .ok visited := by
  induction call with
  | direct found call =>
    intro result answered
    rw [checkLoopComplete_found found] at answered
    exact call.returned answered
  | nested found call inner ih =>
    intro result answered
    rw [checkLoopComplete_found found] at answered
    obtain ⟨visited, answered⟩ := call.returned answered
    exact ih answered

/-- For every map and every chain, the check started on that chain alone ends,
answers `true` exactly when a loop can be reached, and each of its recursive
calls that answers `false` leaves the stack as it was before the push. -/
theorem loop_check_exact (dependencies : ChainSets) (id : Nat) :
    ∃ found left,
      (∀ depth, dependencies.size < depth →
        checkLoopComplete dependencies depth id [id] = .ok (found, left)) ∧
      (found = true ↔ ∃ c, ReflTransGen (Depends dependencies) id c ∧
        TransGen (Depends dependencies) c c) ∧
      ∀ depth depth' ch below, dependencies.size < depth →
        Calls dependencies depth id [id] depth' ch below →
        ∃ found' left', checkLoopComplete dependencies depth' ch (below ++ [ch]) =
            .ok (found', left') ∧ (found' = false → left' = below) := by
  obtain ⟨found, left, returned, exact⟩ := checkLoopComplete_root dependencies id
  refine ⟨found, left, returned, exact, ?_⟩
  intro depth depth' ch below enough call
  obtain ⟨⟨found', left'⟩, visited⟩ := call.returned (returned depth enough)
  refine ⟨found', left', visited, ?_⟩
  intro notFound
  rw [notFound] at visited
  exact checkLoopComplete_pops visited

end ChainSaw
