import ChainSaw.Chains

set_option autoImplicit false

namespace ChainSaw

open Std (TreeMap TreeSet)

/-- The entry of `name` in `map_v`: `emplace` keeps the first vertex of a name. -/
def nameMap (dirty : BoostGraph) : TreeMap Nat Nat :=
  dirty.vertices.zipIdx.foldl (fun map (p, v) => map.insertIfNew p.name v) ∅

def vertexName (g : BoostGraph) (v : Nat) : Nat := (g.vertices[v]?.map (·.name)).getD 0

/-- `cleanReadGraphHelper`: the edges are carried over by node name. -/
def cleanReadGraphHelper (dirty : BoostGraph) : Result BoostGraph :=
  dirty.edgesByVertex.foldlM
    (fun clean e => do
      let source ← deref (nameMap dirty)[vertexName dirty e.1]?
      let target ← deref (nameMap dirty)[vertexName dirty e.2]?
      pure (clean.addEdge source target))
    (AdjacencyList.ofVertices dirty.vertices)

/-- `cleanRemoveReadGraphHelper`: `v_map` sends every vertex to itself. The
vertex loop counts in a `uint32_t` and never ends on a larger graph. -/
def cleanRemoveReadGraphHelper (clean : BoostGraph) : Result BoostGraph :=
  if clean.numVertices < 2 ^ 32 then
    .ok (clean.edgesByVertex.foldl (fun orig e => orig.addEdge e.1 e.2)
      (AdjacencyList.ofVertices clean.vertices))
  else .error .diverges

/-- `findGrahpLevel`; the first argument bounds the depth of the recursion. -/
def findGrahpLevel {P : Type} (g : AdjacencyList P) :
    Nat → Nat → List Int → Int → Result (List Int)
  | 0, _, _, _ => .error .diverges
  | depth + 1, id, mLevel, currentLevel =>
    match mLevel[id]? with
    | none => .error .outOfRange
    | some level =>
      if level < currentLevel then
        -- from vertex 0 only targets with a single in-edge are followed
        let targets := if id = 0 then (g.outEdges id).filter (fun t => g.inDegree t == 1)
          else g.outEdges id
        targets.foldlM (fun mLevel t => findGrahpLevel g depth t mLevel (currentLevel + 1))
          (mLevel.set id currentLevel)
      else .ok mLevel

/-- `completeReadGraphHelper`, without the statistics it prints. A path longer
than the number of vertices repeats one, and the recursion then never ends. -/
def completeReadGraphHelper (instructionLlvm : Opcode → Option Nat) (orig : BoostGraph) :
    Result (BoostGraphComp × TreeMap Nat Nat) := do
  let mLevel ← findGrahpLevel orig (orig.numVertices + 1) 0
    (List.replicate orig.numVertices (-1)) 0
  let props ← orig.vertices.zipIdx.mapM fun (p, v) => do
    let latency ← deref (instructionLlvm p.label.opcode)
    pure ({ name := p.name, id := p.name, ch := p.ch, label := p.label,
            opcode := p.label.opcode, latency := latency, level := mLevel.getD v (-1) }
          : VertexPropCom)
  pure (orig.edgesByVertex.foldl (fun comp e => comp.addEdge e.1 e.2)
      (AdjacencyList.ofVertices props),
    orig.vertices.zipIdx.foldl (fun map (p, v) => map.insert v p.label.id) ∅)

/-- `chainGraph`. -/
structure ChainGraph where
  chainId : Nat
  blockID : Nat
  size : Nat
  liveIn : Nat
  liveOut : Nat
  fanIn : Nat
  fanOut : Nat
  level : Int
  isMem : Bool
  nodes : List Nat
deriving DecidableEq, Repr

structure Block where
  blkID : Nat
  chains : List Nat
deriving DecidableEq, Repr

/-- `find_if` over `chain_graph` by chain id, dereferenced. -/
def findChain (chainGraph : List ChainGraph) (id : Nat) : Result ChainGraph :=
  deref (chainGraph.find? (fun m => m.chainId == id))

/-- Write through the iterator that `findChain` stands for. -/
def updateChain (id : Nat) (f : ChainGraph → ChainGraph) : List ChainGraph → List ChainGraph
  | [] => []
  | m :: rest => if m.chainId = id then f m :: rest else m :: updateChain id f rest

/-- `findChainsLevel`; the first argument bounds the depth of the recursion. -/
def findChainsLevel (dependencies : ChainSets) :
    Nat → Int → Nat → List ChainGraph → Result (List ChainGraph)
  | 0, _, _, _ => .error .diverges
  | depth + 1, mLevel, id, chGraph => do
    let m ← findChain chGraph id
    if m.level < mLevel then
      let chGraph := updateChain id (fun m => { m with level := mLevel }) chGraph
      match dependencies[id]? with
      | none => .ok chGraph
      | some deps =>
        deps.toList.foldlM
          (fun chGraph dep => findChainsLevel dependencies depth (mLevel + 1) dep chGraph) chGraph
    else .ok chGraph

/-- What `newGraph` holds once the chains are final. -/
structure DependencyMaps where
  vertexToChunk : TreeMap Nat Nat
  dependencies : List ChainDependency
  chainToDependencies : ChainLists
  unDependencies : ChainSets
  unReverseMapping : ChainSets
  reverseMapping : ChainLists

/-- "Building final dependencies" in `initialize`. -/
def buildDependencies (orig : BoostGraph) (chains : Chains) : Result DependencyMaps := do
  let vertexToChunk := vertexToChainMap chains
  let dependencies ← dependenciesGenerate orig chains vertexToChunk
  let chainToDependencies := histoDependency dependencies
  let unDependencies := uniqueDependency chainToDependencies
  pure { vertexToChunk, dependencies, chainToDependencies, unDependencies,
         unReverseMapping := reverseMappingSets unDependencies,
         reverseMapping := reverseMappingLists chainToDependencies }

/-- The entry `buildChainGraph` makes for chain `i`. -/
def chainGraphEntry (orig : BoostGraph) (maps : DependencyMaps) (ch : List Nat) (i : Nat) :
    ChainGraph where
  chainId := i
  blockID := 0
  size := ch.length
  liveIn := (maps.unReverseMapping[i]?.getD ∅).size
  liveOut := (maps.unDependencies[i]?.getD ∅).size
  fanIn := (maps.reverseMapping[i]?.getD []).length
  fanOut := (maps.chainToDependencies[i]?.getD []).length
  level := -1
  isMem := ch.any fun v => (orig.vertices[v]?.map (·.opcode)) = some .load ∨
    (orig.vertices[v]?.map (·.opcode)) = some .store
  nodes := ch

/-- `buildChainGraph`. -/
def buildChainGraph (orig : BoostGraph) (chains : Chains) (maps : DependencyMaps) :
    Result (List ChainGraph) :=
  findChainsLevel maps.unDependencies (chains.length + 1) 0 0
    (chains.zipIdx.map fun (ch, i) => chainGraphEntry orig maps ch i)

/-- An `int32_t` used as a `uint32_t` key. -/
def toUInt32 (x : Int) : Nat := (x % 2 ^ 32).toNat

/-- `buildChainLevel`. `preschedule` builds the same map for itself. -/
def buildChainLevel (chainGraph : List ChainGraph) : ChainLists :=
  chainGraph.foldl
    (fun levels ch => levels.alter (toUInt32 ch.level)
      (fun ids => some (ids.getD [] ++ [ch.chainId]))) ∅

/-- The variables `createChainBlocks` carries through its traversal. -/
structure BlockState where
  i : Nat
  blockPass : TreeMap Nat Nat
  chainGraph : List ChainGraph

/-- `blockID = ++i; m_block_pass[i] = 1`. -/
def openBlock (s : BlockState) (child : Nat) : BlockState where
  i := s.i + 1
  blockPass := s.blockPass.insert (s.i + 1) 1
  chainGraph := updateChain child (fun m => { m with blockID := s.i + 1 }) s.chainGraph

/-- The branch for chain 0: one block for every child on level 1. -/
def rootBlocks (maps : DependencyMaps) (s : BlockState) : Result BlockState := do
  let _ ← findChain s.chainGraph 0
  let s : BlockState := { s with
    blockPass := s.blockPass.insert s.i 0
    chainGraph := updateChain 0 (fun m => { m with blockID := s.i }) s.chainGraph }
  let children ← deref maps.unDependencies[0]?
  children.toList.foldlM (fun s child => do
    let m ← findChain s.chainGraph child
    pure (if m.level = 1 then openBlock s child else s)) s

/-- One child of a chain other than 0; the second component is `cnt_child`. -/
def childBlock (maps : DependencyMaps) (blockLimit chId : Nat) (s : BlockState × Nat)
    (child : Nat) : Result (BlockState × Nat) := do
  let parents ← deref maps.unReverseMapping[child]?
  let isSingleParent := parents.size == 2 && parents.contains 0
  let ch ← findChain s.1.chainGraph chId
  let m ← findChain s.1.chainGraph child
  if isSingleParent && s.2 == 1 then
    pure ({ s.1 with
      chainGraph := updateChain child (fun m => { m with blockID := ch.blockID }) s.1.chainGraph },
      s.2 + 1)
  else if isSingleParent && decide (1 < s.2) then do
    let pass ← deref s.1.blockPass[ch.blockID]?
    if pass + 1 ≤ blockLimit then
      pure ({ s.1 with
        blockPass := s.1.blockPass.insert ch.blockID (pass + 1)
        chainGraph :=
          updateChain child (fun m => { m with blockID := ch.blockID }) s.1.chainGraph }, s.2 + 1)
    else pure (if m.blockID = 0 then openBlock s.1 child else s.1, s.2)
  else pure (if m.blockID = 0 then openBlock s.1 child else s.1, s.2)

/-- The body of the traversal for one chain of a level. -/
def chainBlocks (maps : DependencyMaps) (blockLimit : Nat) (s : BlockState) (chId : Nat) :
    Result BlockState := do
  if chId = 0 then rootBlocks maps s
  else do
    let _ ← findChain s.chainGraph chId
    match maps.unDependencies[chId]? with
    | none => pure s
    | some children => do
      let (s, _) ← children.toList.foldlM (childBlock maps blockLimit chId) (s, 1)
      pure s

/-- The last loop of `createChainBlocks` files a chain under its block. -/
def fileChain (ch : ChainGraph) : List Block → List Block
  | [] => [⟨ch.blockID, [ch.chainId]⟩]
  | bl :: rest =>
    if bl.blkID = ch.blockID then { bl with chains := bl.chains ++ [ch.chainId] } :: rest
    else bl :: fileChain ch rest

/-- `createChainBlocks`: the chain graph with its block ids, and `block_chain`. -/
def createChainBlocks (maps : DependencyMaps) (blockLimit : Nat) (chainLevel : ChainLists)
    (chainGraph : List ChainGraph) : Result (List ChainGraph × List Block) := do
  let s ← (chainLevel.toList.flatMap (·.2)).foldlM (chainBlocks maps blockLimit)
    { i := 0, blockPass := ∅, chainGraph }
  pure (s.chainGraph, s.chainGraph.foldl (fun blocks ch => fileChain ch blocks) [])

/-- The entries of `Graph.def` that are read. -/
structure GraphParam where
  breakLiveOut : Nat
  breakLiveIn : Nat
  merge : Nat
  blockLimit : Nat

structure NewGraph where
  cleanGraph : BoostGraph
  origGraph : BoostGraph
  compGraph : BoostGraphComp
  origMap : TreeMap Nat Nat
  chains : Chains
  maps : DependencyMaps
  chainGraph : List ChainGraph
  chainLevel : ChainLists
  blockChain : List Block

def liveOutPass (param : GraphParam) (orig : BoostGraph) (chains : Chains) : Result Chains :=
  if param.breakLiveOut ≠ 0 then breakEveryLiveOut orig chains else pure chains

def liveInPass (param : GraphParam) (orig : BoostGraph) (chains : Chains) : Result Chains :=
  if param.breakLiveIn ≠ 0 then breakEveryLiveIn orig chains else pure chains

/-- The break passes of `initialize`, each behind its flag. -/
def breakPasses (param : GraphParam) (orig : BoostGraph) (chains : Chains) : Result Chains := do
  let chains ← liveOutPass param orig chains
  liveInPass param orig chains

/-- The merge pass of `initialize`, which is given `clean_graph`. -/
def mergePass (param : GraphParam) (clean : BoostGraph) (chains : Chains) : Result Chains :=
  if param.merge ≠ 0 then mergeLoop clean (chains.length + 1) chains else pure chains

/-- The chains as `initialize` hands them to the break passes. -/
def startChains (orig : BoostGraph) : Chains :=
  let (firstNodeId, chains) := createChains orig
  breakingStartNode firstNodeId chains

/-- The final chains and their dependency maps, before the loop assertion. -/
def decompose (param : GraphParam) (clean orig : BoostGraph) (chains : Chains) :
    Result (Chains × DependencyMaps) := do
  let chains ← breakPasses param orig chains
  let chains ← mergePass param clean chains
  let maps ← buildDependencies orig chains
  pure (chains, maps)

/-- `newGraph::initialize` from the graph that `read_graphviz` delivers to the
chain blocks; the statistics and graph files written after that are left out. -/
def initializeGraph (param : GraphParam) (instructionLlvm : Opcode → Option Nat)
    (dirty : BoostGraph) : Result NewGraph := do
  let clean ← cleanReadGraphHelper dirty
  let orig ← cleanRemoveReadGraphHelper clean
  let (comp, origMap) ← completeReadGraphHelper instructionLlvm orig
  let (chains, maps) ← decompose param clean orig (startChains orig)
  let loop ← hasLoop maps.unDependencies
  check (!loop) "CHAIN HAS LOOP!"
  let chainGraph ← buildChainGraph orig chains maps
  let chainLevel := buildChainLevel chainGraph
  let (chainGraph, blockChain) ←
    createChainBlocks maps param.blockLimit chainLevel chainGraph
  pure { cleanGraph := clean, origGraph := orig, compGraph := comp, origMap, chains, maps,
         chainGraph, chainLevel, blockChain }

end ChainSaw
