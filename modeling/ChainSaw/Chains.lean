import ChainSaw.Basic

set_option autoImplicit false

namespace ChainSaw

open Std (TreeMap TreeSet)

/-- `std::vector<std::vector<uint64_t>>`: the vertices of each chain in order. -/
abbrev Chains := List (List Nat)

/-- `std::map<uint32_t, std::vector<uint32_t>>`. -/
abbrev ChainLists := TreeMap Nat (List Nat)

/-- `std::map<uint32_t, std::set<uint32_t>>`. -/
abbrev ChainSets := TreeMap Nat (TreeSet Nat)

structure ChainDependency where
  source : Nat
  target : Nat
deriving DecidableEq, Repr

/-- The first loop of `createChains`: the vertices of each label in vertex
order, with the label and the name of the last `BB` vertex. Both start at 0. -/
def labelChains (g : BoostGraph) : ChainLists × Nat × Nat :=
  g.vertices.zipIdx.foldl
    (fun (temp, firstCh, firstNodeId) (p, v) =>
      (temp.alter p.ch (fun vs => some (vs.getD [] ++ [v])),
        if p.opcode = .bb then (p.ch, p.name) else (firstCh, firstNodeId)))
    (∅, 0, 0)

/-- `createChains`: the chain of the start node is renumbered to 0, the others
follow by label. Returns `first_node_id` and `Chains`. -/
def createChains (g : BoostGraph) : Nat × Chains :=
  let (temp, firstCh, firstNodeId) := labelChains g
  (firstNodeId,
    temp[firstCh]?.getD [] :: (temp.toList.filter (fun tm => tm.1 != firstCh)).map (·.2))

/-- Cut chain `i` into its first `k` nodes and a new last chain. -/
def splitChain (chains : Chains) (i k : Nat) : Chains :=
  chains.set i ((chains.getD i []).take k) ++ [(chains.getD i []).drop k]

/-- `breakingStartNode` looks for the start node's name among vertex numbers. -/
def breakingStartNode (firstNodeId : Nat) (chains : Chains) : Chains :=
  let chFirst := chains.getD 0 []
  if firstNodeId ∈ chFirst ∧ 1 < chFirst.length then
    splitChain chains 0 (chFirst.idxOf firstNodeId + 1)
  else chains

/-- `vertexToChainMap`; `emplace` keeps the first chain of a vertex. -/
def vertexToChainMap (chains : Chains) : TreeMap Nat Nat :=
  chains.zipIdx.foldl
    (fun chunk (c, i) => c.foldl (fun chunk v => chunk.insertIfNew v i) chunk) ∅

/-- The edges that `dependenciesGenerate` turns into dependencies: those whose
target is not in the chain of the source. -/
def crossEdges {P : Type} (g : AdjacencyList P) (chains : Chains) : List (Nat × Nat) :=
  chains.flatMap fun c => c.flatMap fun v =>
    ((g.outEdges v).filter (fun t => t ∉ c)).map fun t => (v, t)

/-- `dependenciesGenerate`. -/
def dependenciesGenerate {P : Type} (g : AdjacencyList P) (chains : Chains)
    (chainsMap : TreeMap Nat Nat) : Result (List ChainDependency) :=
  (crossEdges g chains).mapM fun e => do
    let source ← deref chainsMap[e.1]?
    let target ← deref chainsMap[e.2]?
    check (source != target) "Decomposed graph can not have self loop!"
    pure ⟨source, target⟩

/-- `histoDependency`. -/
def histoDependency (dependencies : List ChainDependency) : ChainLists :=
  dependencies.foldl
    (fun map dep => map.alter dep.source (fun ts => some (ts.getD [] ++ [dep.target]))) ∅

/-- `uniqueDependency`. -/
def uniqueDependency (histo : ChainLists) : ChainSets :=
  histo.toList.foldl
    (fun un c => c.2.foldl
      (fun un d => un.alter c.1 (fun ds => some ((ds.getD ∅).insert d))) un) ∅

/-- `reverseMapping` on sets. -/
def reverseMappingSets (unique : ChainSets) : ChainSets :=
  unique.toList.foldl
    (fun rev c => c.2.toList.foldl
      (fun rev r => rev.alter r (fun cs => some ((cs.getD ∅).insert c.1))) rev) ∅

/-- `reverseMapping` on lists. -/
def reverseMappingLists (dependency : ChainLists) : ChainLists :=
  dependency.toList.foldl
    (fun rev c => c.2.foldl
      (fun rev r => rev.alter r (fun cs => some (cs.getD [] ++ [c.1]))) rev) ∅

/-- The loop of `checkLoopComplete` over the dependents of a chain. The callee
pops the entry its caller pushed, except when it reports a loop. -/
def checkDependents (visit : Nat → List Nat → Result (Bool × List Nat)) :
    List Nat → List Nat → Result (Bool × List Nat)
  | [], stack => .ok (false, stack.dropLast)
  | ch :: rest, stack =>
    if ch ∈ stack then .ok (true, stack)
    else do
      let (found, stack) ← visit ch (stack ++ [ch])
      if found then .ok (true, stack) else checkDependents visit rest stack

/-- `checkLoopComplete`; the first argument bounds the depth of the recursion. -/
def checkLoopComplete (dependencies : ChainSets) :
    Nat → Nat → List Nat → Result (Bool × List Nat)
  | 0, _, _ => .error .diverges
  | depth + 1, id, stack =>
    match dependencies[id]? with
    | none => .ok (false, stack.dropLast)
    | some node => checkDependents (checkLoopComplete dependencies depth) node.toList stack

/-- The check from chain 0 with a fresh stack, as `initialize` and `mergeChain`
make it. A stack holds no chain twice, so the depth never exceeds the number of
chains with dependents by more than one. -/
def hasLoop (dependencies : ChainSets) : Result Bool := do
  let (found, _) ← checkLoopComplete dependencies (dependencies.size + 1) 0 [0]
  pure found

/-- `breakOutHelper`: `none` is the return value `false`. -/
def breakOutHelper (chains : Chains) (dependencies : List ChainDependency) (g : BoostGraph) :
    Option Chains :=
  dependencies.findSome? fun dep =>
    let aCh := chains.getD dep.source []
    let bCh := chains.getD dep.target []
    aCh.findSome? fun node =>
      if aCh.getLast? = some node then none
      else if (g.outEdges node).any (fun target => target ∈ bCh) then
        some (splitChain chains dep.source (aCh.idxOf node + 1))
      else none

/-- `breakInHelper`. The source compares `*temp_it` with the front of the chain
before it tests `temp_it` against `end()`; either way a missing target is skipped. -/
def breakInHelper (chains : Chains) (dependencies : List ChainDependency) (g : BoostGraph) :
    Option Chains :=
  dependencies.findSome? fun dep =>
    let aCh := chains.getD dep.source []
    let bCh := chains.getD dep.target []
    aCh.findSome? fun node =>
      (g.outEdges node).findSome? fun target =>
        if bCh.head? = some target then none
        else if target ∈ bCh then some (splitChain chains dep.target (bCh.idxOf target))
        else none

/-- The innermost body of `breakInHelper` with its reads: `*temp_it` is read before
`temp_it` is compared with `end()`, the position past the last node. -/
def readTarget (chains : Chains) (t target : Nat) : Result (Option Chains) := do
  let bCh := chains.getD t []
  let tempIt := bCh.idxOf target
  let value ← deref bCh[tempIt]?
  let front ← deref bCh.head?
  if value = front then pure none
  else if tempIt ≠ bCh.length then pure (some (splitChain chains t tempIt))
  else pure none

/-- `breakInHelper` with its reads. -/
def breakInHelperReads (chains : Chains) (dependencies : List ChainDependency) (g : BoostGraph) :
    Result (Option Chains) :=
  dependencies.findSomeM? fun dep =>
    (chains.getD dep.source []).findSomeM? fun node =>
      (g.outEdges node).findSomeM? fun target => readTarget chains dep.target target

/-- The `do … while` loop around either helper: the dependencies are computed
afresh for every round. -/
def breakLoop (helper : Chains → List ChainDependency → BoostGraph → Option Chains)
    (g : BoostGraph) : Nat → Chains → Result Chains
  | 0, _ => .error .diverges
  | rounds + 1, chains => do
    let dependencies ← dependenciesGenerate g chains (vertexToChainMap chains)
    match helper chains dependencies g with
    | none => .ok chains
    | some next => breakLoop helper g rounds next

/-- `breakEveryLiveOut`. Every round but the last adds a non-empty chain. -/
def breakEveryLiveOut (g : BoostGraph) (chains : Chains) : Result Chains :=
  breakLoop breakOutHelper g (g.numVertices + 1) chains

/-- `breakEveryLiveIn`. -/
def breakEveryLiveIn (g : BoostGraph) (chains : Chains) : Result Chains :=
  breakLoop breakInHelper g (g.numVertices + 1) chains

/-- Append chain `t` to chain `i` and erase it. -/
def joinChains (chains : Chains) (i t : Nat) : Chains :=
  (chains.set i (chains.getD i [] ++ chains.getD t [])).eraseIdx t

/-- `un_dependencies` of a set of chains. -/
def unDependenciesOf {P : Type} (g : AdjacencyList P) (chains : Chains) : Result ChainSets := do
  let dependencies ← dependenciesGenerate g chains (vertexToChainMap chains)
  pure (uniqueDependency (histoDependency dependencies))

/-- The search of `mergeChain`: the first pair of chains, the second one headed
by a successor of the last node of the first, whose trial merge passes the loop
check. Chain 0 is never the first of the pair. -/
def mergePair (chains : Chains) (g : BoostGraph) : Result (Option (Nat × Nat)) :=
  (List.range' 1 (chains.length - 1)).findSomeM? fun i => do
    let node ← deref (chains.getD i []).getLast?
    (g.outEdges node).findSomeM? fun target => do
      let t ← deref (vertexToChainMap chains)[target]?
      if t ≠ i ∧ (chains.getD t []).head? = some target then do
        let loop ← unDependenciesOf g (joinChains chains i t) >>= hasLoop
        pure (if loop then none else some (i, t))
      else pure none

/-- `mergeChain`: `none` is the return value `false`. -/
def mergeChain (chains : Chains) (g : BoostGraph) : Result (Option Chains) := do
  let pair ← mergePair chains g
  pure (pair.map fun (i, t) => joinChains chains i t)

/-- `while(mergeChain(Chains, clean_graph));` Every round erases a chain. -/
def mergeLoop (g : BoostGraph) : Nat → Chains → Result Chains
  | 0, _ => .error .diverges
  | rounds + 1, chains => do
    match ← mergeChain chains g with
    | none => .ok chains
    | some next => mergeLoop g rounds next

end ChainSaw
