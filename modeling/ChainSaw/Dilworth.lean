import ChainSaw.Chains

set_option autoImplicit false

namespace ChainSaw

open Std (TreeSet)

/-- `UndirectedGraph`: the edges are kept in insertion order. -/
abbrev UndirectedGraph := AdjacencyList Unit

/-- `mateMap`, with `none` for `null_vertex()`. -/
abbrev MateMap := List (Option Nat)

/-- The bipartite graph `UG`: vertex `v` of `G` is `v` on the left and
`num_vertices + v` on the right. -/
def doubledGraph {P : Type} (G : AdjacencyList P) : UndirectedGraph :=
  G.edges.foldl (fun UG e => UG.addEdge e.1 (G.numVertices + e.2))
    (AdjacencyList.ofVertices (List.replicate (2 * G.numVertices) ()))

/-- `mateMap[v]`. -/
def readMate (mateMap : MateMap) (v : Nat) : Result (Option Nat) :=
  match mateMap[v]? with
  | some mate => .ok mate
  | none => .error .outOfRange

/-- The variables that the walks share; `flag` is `Flag`. -/
structure Walks where
  minimalChains : Chains
  mateMap : MateMap
  inChains : TreeSet Nat
  flag : Bool

/-- The inner `do … while` loop from `next` on, with the chain it has made so
far. Every turn but the last clears a mate, so `turns` need not exceed their
number by more than one. -/
def followMates (numVertices : Nat) :
    Nat → Nat → List Nat → MateMap → TreeSet Nat → Result (List Nat × MateMap × TreeSet Nat)
  | 0, _, _, _, _ => .error .diverges
  | turns + 1, next, chain, mateMap, inChains => do
    let next := if numVertices ≤ next then next - numVertices else next
    let (chain, inChains) :=
      if next ∈ inChains then (chain, inChains) else (chain ++ [next], inChains.insert next)
    let mate ← readMate mateMap next
    let mateMap := mateMap.set next none
    match mate with
    | none => pure (chain, mateMap, inChains)
    | some mate => followMates numVertices turns mate chain mateMap inChains

/-- One turn of the `for` loop: begin a chain at `i` if it has a mate. -/
def beginChain (numVertices : Nat) (walks : Walks) (i : Nat) : Result Walks := do
  match ← readMate walks.mateMap i with
  | none => pure walks
  | some _ =>
    let (chain, mateMap, inChains) ←
      followMates numVertices (walks.mateMap.length + 1) i [] walks.mateMap walks.inChains
    pure ⟨walks.minimalChains ++ [chain], mateMap, inChains, true⟩

/-- The outer `do … while` loop. Every pass but the last clears a mate. -/
def walkPasses (numVertices : Nat) : Nat → Walks → Result Walks
  | 0, _ => .error .diverges
  | passes + 1, walks => do
    let walks ← (List.range numVertices).foldlM (beginChain numVertices) { walks with flag := false }
    if walks.flag then walkPasses numVertices passes walks else pure walks

/-- `generateMinimalChains`. `matching` is `checked_edmonds_maximum_cardinality_matching`:
its result and the mates it writes. The sizes are added up in a `uint32_t`. -/
def generateMinimalChains {P : Type} (matching : UndirectedGraph → Bool × MateMap)
    (G : AdjacencyList P) : Result Chains := do
  let numVertices := G.numVertices
  let (success, mateMap) := matching (doubledGraph G)
  check success "Doesn't work!"
  let walks ← walkPasses numVertices (numVertices + 1) ⟨[], mateMap, ∅, false⟩
  let lone := (List.range numVertices).filter fun v => v ∉ walks.inChains
  let minimalChains := walks.minimalChains ++ lone.map fun v => [v]
  let sum := minimalChains.foldl (fun sum m => (sum + m.length) % 2 ^ 32) 0
  check (sum == numVertices) "All vertices not accounted for"
  pure minimalChains

end ChainSaw
