import ChainSaw.MainLoop
import ChainSaw.StartNode
import ChainSaw.LoopCheck
import ChainSaw.GraphLevels
import ChainSaw.BlockStructure
import ChainSaw.Lookups

set_option autoImplicit false

namespace ChainSaw

open Std (TreeMap TreeSet)
open Relation (TransGen ReflTransGen)
open Relations (Acyclic isChain_head)
open LongestPath (Walk)

theorem foldl_insertIfNew (entries : List (VertexProp × Nat)) (map : TreeMap Nat Nat) (k : Nat) :
    (entries.foldl (fun map e => map.insertIfNew e.1.name e.2) map)[k]? =
      map[k]?.or ((entries.find? fun e => e.1.name == k).map (·.2)) := by
  induction entries generalizing map with
  | nil => simp
  | cons e rest ih =>
    rw [List.foldl_cons, ih, TreeMap.getElem?_insertIfNew, List.find?_cons]
    by_cases same : e.1.name = k
    · subst same
      by_cases present : e.1.name ∈ map
      · simp [present]
      · simp [present]
    · have other : (e.1.name == k) = false := by simpa using same
      simp [same, other]

/-- A name leads back to its vertex. -/
theorem nameMap_getElem? {dirty : BoostGraph} (names : (dirty.vertices.map (·.name)).Nodup) {v : Nat}
    (inside : v < dirty.numVertices) : (nameMap dirty)[vertexName dirty v]? = some v := by
  have found : dirty.vertices[v]? = some dirty.vertices[v] := List.getElem?_eq_getElem inside
  have listed : (dirty.vertices[v], v) ∈ dirty.vertices.zipIdx :=
    List.mk_mem_zipIdx_iff_getElem?.mpr found
  have distinct : (dirty.vertices.zipIdx.map fun e : VertexProp × Nat => e.1.name).Nodup := by
    rw [← List.zipIdx_map_fst 0 dirty.vertices, List.map_map] at names
    exact names
  have first := Loops.find?_key_of_mem distinct listed
  have name : vertexName dirty v = dirty.vertices[v].name := by simp [vertexName, found]
  unfold nameMap
  rw [foldl_insertIfNew, name, first]
  simp

/-- With distinct names the first two copies of the graph are the graph. -/
theorem readGraphHelpers_total {dirty : BoostGraph} (names : (dirty.vertices.map (·.name)).Nodup)
    (small : dirty.numVertices < 2 ^ 32) :
    ∃ clean orig, cleanReadGraphHelper dirty = .ok clean ∧
      cleanRemoveReadGraphHelper clean = .ok orig ∧ orig.vertices = dirty.vertices ∧
      ∀ v, orig.outEdges v = dirty.outEdges v := by
  let clean := dirty.edgesByVertex.foldl (fun g e => g.addEdge e.1 e.2)
    (AdjacencyList.ofVertices dirty.vertices)
  have cleanVertices : clean.vertices = dirty.vertices := dirty.vertices_copy dirty.vertices rfl
  have cleanEdges : ∀ v, clean.outEdges v = dirty.outEdges v :=
    dirty.outEdges_copy dirty.vertices rfl
  have cleaned : cleanReadGraphHelper dirty = .ok clean := by
    unfold cleanReadGraphHelper
    have every : ∀ e ∈ dirty.edgesByVertex, e.1 < dirty.numVertices ∧ e.2 < dirty.numVertices :=
      fun e member => dirty.bounded e (AdjacencyList.mem_edgesByVertex.mp member)
    have loop : ∀ (es : List (Nat × Nat)) (g : BoostGraph),
        (∀ e ∈ es, e.1 < dirty.numVertices ∧ e.2 < dirty.numVertices) →
        es.foldlM (fun clean e => do
          let source ← deref (nameMap dirty)[vertexName dirty e.1]?
          let target ← deref (nameMap dirty)[vertexName dirty e.2]?
          pure (clean.addEdge source target)) g =
          (.ok (es.foldl (fun g e => g.addEdge e.1 e.2) g) : Result BoostGraph) := by
      intro es
      induction es with
      | nil => intro g _; rfl
      | cons e rest ih =>
        intro g bounds
        obtain ⟨source, target⟩ := bounds e (by simp)
        rw [List.foldlM_cons, nameMap_getElem? names source, nameMap_getElem? names target]
        exact ih _ fun e member => bounds e (by simp [member])
    exact loop _ _ every
  have removed : cleanRemoveReadGraphHelper clean = .ok
      (clean.edgesByVertex.foldl (fun orig e => orig.addEdge e.1 e.2)
        (AdjacencyList.ofVertices clean.vertices)) := by
    unfold cleanRemoveReadGraphHelper
    rw [if_pos]
    unfold AdjacencyList.numVertices at small ⊢
    rw [cleanVertices]
    exact small
  obtain ⟨sameVertices, _, sameEdges⟩ := cleanRemoveReadGraphHelper_ok removed
  exact ⟨clean, _, cleaned, removed, sameVertices.trans cleanVertices,
    fun v => (sameEdges v).trans (cleanEdges v)⟩

/-- The vertex of `comp_graph` for a vertex of `orig_graph`. -/
def comVertex (instructionLlvm : Opcode → Option Nat) (mLevel : List Int) (e : VertexProp × Nat) :
    VertexPropCom where
  name := e.1.name
  id := e.1.name
  ch := e.1.ch
  label := e.1.label
  opcode := e.1.label.opcode
  latency := (instructionLlvm e.1.label.opcode).getD 0
  level := mLevel.getD e.2 (-1)

/-- The graph search ends and every operation has a latency. -/
theorem completeReadGraphHelper_total {instructionLlvm : Opcode → Option Nat} {orig : BoostGraph}
    (nonempty : 0 < orig.numVertices) (acyclic : Acyclic orig.Edge)
    (known : ∀ p ∈ orig.vertices, ∃ latency, instructionLlvm p.label.opcode = some latency) :
    ∃ mLevel comp origMap,
      findGrahpLevel orig (orig.numVertices + 1) 0 (List.replicate orig.numVertices (-1)) 0 =
        .ok mLevel ∧
      completeReadGraphHelper instructionLlvm orig = .ok (comp, origMap) ∧
      comp.vertices = orig.vertices.zipIdx.map (comVertex instructionLlvm mLevel) := by
  obtain ⟨mLevel, levelled, _⟩ :=
    findGrahpLevel_total orig nonempty acyclic (Nat.le_succ orig.numVertices)
  have copied := orig.vertices_copy (orig.vertices.zipIdx.map (comVertex instructionLlvm mLevel))
    (by simp [AdjacencyList.numVertices])
  refine ⟨mLevel, orig.edgesByVertex.foldl (fun comp e => comp.addEdge e.1 e.2)
      (AdjacencyList.ofVertices (orig.vertices.zipIdx.map (comVertex instructionLlvm mLevel))),
    orig.vertices.zipIdx.foldl (fun map e => map.insert e.2 e.1.label.id) ∅, levelled, ?_, copied⟩
  unfold completeReadGraphHelper
  rw [levelled, Loops.ok_bind]
  refine Loops.bind_eq_ok.mpr ⟨_, Loops.mapM_total ?_, rfl⟩
  rintro ⟨p, v⟩ member
  obtain ⟨latency, found⟩ := known p (List.mem_of_getElem? (List.mem_zipIdx_iff_getElem?.mp member))
  simp [found, deref, comVertex]

section reached

variable {g : BoostGraph} {chains : Chains} (part : Partition g.numVertices chains)
include part

/-- If vertex `b` leads to all vertices, its chain leads to all chains with nodes. -/
theorem chainDep_reached {b i : Nat} (inI : InChain chains i b)
    (reached : ∀ v < g.numVertices, ReflTransGen g.Edge b v) {c : Nat}
    (nonempty : chains.getD c [] ≠ []) : ReflTransGen (ChainDep g chains) i c := by
  obtain ⟨v, inC⟩ := List.exists_mem_of_ne_nil _ nonempty
  have inC : InChain chains c v := inC
  have walk : ReflTransGen (ChainDep g chains) (chainOf chains b) (chainOf chains v) := by
    refine Relations.reflTransGen_collapse (chainOf chains) ?_ (reached v (part.lt inC))
    intro u w edge
    by_cases same : chainOf chains u = chainOf chains w
    · exact .inl same
    · exact .inr ⟨same, u, w, inChain_chainOf part edge.bounds.1,
        inChain_chainOf part edge.bounds.2, edge⟩
  rw [chainOf_eq part.nodup inI, chainOf_eq part.nodup inC] at walk
  exact walk

end reached

/-- Neither breaking nor merging changes a first chain that is a single vertex
without in-edges. -/
theorem Splits.first_kept {chains next : Chains} {b : Nat} (splits : Splits chains next)
    (first : chains[0]? = some [b]) : next[0]? = some [b] := by
  obtain ⟨i, k, positive, short, rfl⟩ := splits
  obtain ⟨inside, whole⟩ := List.getElem?_eq_some_iff.mp first
  have other : i ≠ 0 := by
    rintro rfl
    rw [List.getD_eq_getElem?_getD, first] at short
    simp at short
    omega
  unfold splitChain
  rw [List.getElem?_append_left (by simpa using inside), List.getElem?_set_ne other]
  exact first

theorem MergeStep.first_kept {g : BoostGraph} {chains next : Chains} {b : Nat}
    (step : MergeStep g chains next) (source : ∀ u, ¬ g.Edge u b)
    (first : chains[0]? = some [b]) : next[0]? = some [b] := by
  obtain ⟨i, t, searched, rfl⟩ := step
  have pair := mergePair_some searched
  obtain ⟨inside, whole⟩ := List.getElem?_eq_some_iff.mp first
  obtain ⟨node, target, _, head, edge⟩ := pair.edge
  have other : t ≠ 0 := by
    rintro rfl
    rw [whole] at head
    cases head
    exact source node edge
  have positive := pair.positive
  rw [joinChains_eq pair.insideI pair.insideT, List.getElem?_eraseIdx_of_lt (by omega),
    List.getElem?_set_ne (by omega)]
  exact first

theorem splits_first_kept {chains next : Chains} {b : Nat} (splits : ReflTransGen Splits chains next)
    (first : chains[0]? = some [b]) : next[0]? = some [b] := by
  induction splits with
  | refl => exact first
  | tail _ split ih => exact split.first_kept ih

theorem merges_nonempty {g : BoostGraph} {chains next : Chains}
    (merges : ReflTransGen (MergeStep g) chains next) (nonempty : ∀ c ∈ chains, c ≠ []) :
    ∀ c ∈ next, c ≠ [] := by
  induction merges with
  | refl => exact nonempty
  | tail _ step ih => exact step.nonempty ih

theorem merges_first_kept {g : BoostGraph} {chains next : Chains} {b : Nat}
    (merges : ReflTransGen (MergeStep g) chains next) (source : ∀ u, ¬ g.Edge u b)
    (first : chains[0]? = some [b]) : next[0]? = some [b] := by
  induction merges with
  | refl => exact first
  | tail _ step ih => exact step.first_kept source ih

/-- A dataflow graph as a compiler lays it out: names of its own for the nodes, one
start block that leads to all of them, and labels along paths. -/
structure WellFormed (instructionLlvm : Opcode → Option Nat) (g : BoostGraph) (b : Nat)
    (p : VertexProp) : Prop where
  names : (g.vertices.map (·.name)).Nodup
  small : g.numVertices < 2 ^ 32
  several : 1 < g.numVertices
  start : StartBlock g b p
  named : labelled g p.ch = [b] ∨ p.name = b
  acyclic : Acyclic g.Edge
  reached : ∀ v < g.numVertices, ReflTransGen g.Edge b v
  paths : ∀ ch, (labelled g ch).IsChain g.Edge
  known : ∀ q ∈ g.vertices, ∃ latency, instructionLlvm q.label.opcode = some latency

namespace WellFormed

variable {instructionLlvm : Opcode → Option Nat} {g : BoostGraph} {b : Nat} {p : VertexProp}

/-- Only the order in which the edges are listed may change. -/
theorem congr (wellFormed : WellFormed instructionLlvm g b p) {h : BoostGraph}
    (vertices : h.vertices = g.vertices) (edges : ∀ v, h.outEdges v = g.outEdges v) :
    WellFormed instructionLlvm h b p := by
  have edge : h.Edge = g.Edge := by
    funext u v
    rw [AdjacencyList.Edge, AdjacencyList.Edge, edges]
  have size : h.numVertices = g.numVertices := congrArg List.length vertices
  have labels : labelled h = labelled g := by
    funext ch
    rw [labelled, labelled, vertices]
  obtain ⟨names, small, several, ⟨found, isBB, only⟩, named, acyclic, reached, paths, known⟩ :=
    wellFormed
  constructor
  · rwa [vertices]
  · rwa [size]
  · rwa [size]
  · exact ⟨vertices ▸ found, isBB, vertices ▸ only⟩
  · rwa [labels]
  · rwa [edge]
  · rwa [size, edge]
  · rwa [labels, edge]
  · rwa [vertices]

variable (wellFormed : WellFormed instructionLlvm g b p)
include wellFormed

theorem source (u : Nat) : ¬ g.Edge u b := by
  intro edge
  exact wellFormed.acyclic b (.tail' (wellFormed.reached u edge.bounds.1) edge)

/-- Nothing comes before the start block in its chain. -/
theorem labelled_eq : ∃ after, labelled g p.ch = b :: after := by
  have path := wellFormed.paths p.ch
  have member := wellFormed.start.mem_labelled
  cases first : labelled g p.ch with
  | nil => simp [first] at member
  | cons a rest =>
    rw [first] at path member
    rcases (isChain_head path member).cases_tail with same | ⟨u, _, edge⟩
    · exact ⟨rest, by rw [same]⟩
    · exact absurd edge (wellFormed.source u)

theorem startChains_first : (startChains g)[0]? = some [b] ∧ ∀ c ∈ startChains g, c ≠ [] := by
  obtain ⟨others, created, full⟩ := wellFormed.start.createChains_eq
  obtain ⟨after, parts⟩ := wellFormed.labelled_eq
  unfold startChains
  rw [created, parts]
  cases after with
  | nil =>
    have uncut : breakingStartNode p.name ([b] :: others) = [b] :: others := by
      unfold breakingStartNode
      simp
    simp only [uncut]
    refine ⟨rfl, ?_⟩
    rintro c (_ | ⟨_, old⟩)
    · simp
    · exact full c old
  | cons w rest =>
    have named : p.name = b := by
      rcases wellFormed.named with alone | named
      · rw [parts] at alone
        simp at alone
      · exact named
    have cut : breakingStartNode b ((b :: w :: rest) :: others) = [b] :: others ++ [w :: rest] :=
      breakingStartNode_eq others List.not_mem_nil (by simp)
    simp only [named, cut]
    refine ⟨rfl, ?_⟩
    intro c member
    simp only [List.cons_append, List.mem_cons, List.mem_append, List.not_mem_nil, or_false]
      at member
    rcases member with rfl | old | rfl
    · simp
    · exact full c old
    · simp

theorem startChains_paths : Paths g (startChains g) := by
  refine (breakingStartNode_refines _ _).paths ?_
  intro c member
  obtain ⟨ch, rfl⟩ := mem_createChains member
  exact wellFormed.paths ch

/-- The passes over the chains keep the start block apart and leave an acyclic
dependency relation, all of it in reach of chain 0. -/
theorem decompose {param : GraphParam} {clean : BoostGraph}
    (flag : param.breakLiveOut ≠ 0 ∨ param.breakLiveIn ≠ 0)
    (read : cleanRemoveReadGraphHelper clean = .ok g) :
    ∃ chains maps, ChainSaw.decompose param clean g (startChains g) = .ok (chains, maps) ∧
      Partition g.numVertices chains ∧ buildDependencies g chains = .ok maps ∧
      hasLoop maps.unDependencies = .ok false ∧ chains[0]? = some [b] ∧
      (∀ c ∈ chains, c ≠ []) ∧ Acyclic (ChainDep g chains) := by
  obtain ⟨sameVertices, _, same⟩ := cleanRemoveReadGraphHelper_ok read
  have size : g.numVertices = clean.numVertices := congrArg List.length sameVertices
  have part := startChains_partition g
  obtain ⟨first, full⟩ := wellFormed.startChains_first
  obtain ⟨broken, cut, splits, _⟩ := breakPasses_total param g part
  have brokenPart := splits_partition splits part
  have brokenFull := splits_nonempty splits full
  have brokenFirst := splits_first_kept splits first
  obtain ⟨brokenAcyclic, _⟩ :=
    breakPasses_acyclic part wellFormed.startChains_paths wellFormed.acyclic flag cut
  obtain ⟨chains, joined⟩ := mergePass_total param (size ▸ brokenPart) brokenFull
  have merges := mergePass_ok joined
  have chainsPart := merges_partition merges brokenPart
  have chainsFirst : chains[0]? = some [b] := by
    refine merges_first_kept merges (fun u edge => ?_) brokenFirst
    rw [AdjacencyList.Edge, ← same] at edge
    exact wellFormed.source u edge
  obtain ⟨maps, built⟩ := buildDependencies_total chainsPart
  have checked := merged_loopFree same merges (acyclic_loopFree brokenPart brokenAcyclic)
  rw [buildDependencies_unDependencies built, Loops.ok_bind] at checked
  refine ⟨chains, maps, ?_, chainsPart, built, checked, chainsFirst,
    merges_nonempty merges brokenFull, ?_⟩
  · unfold ChainSaw.decompose
    rw [cut, Loops.ok_bind, joined, Loops.ok_bind, built]
    rfl
  -- the check found no loop in reach of chain 0, and chain 0 reaches every chain
  · intro c cycle
    have inFirst : InChain chains 0 b := inChain_iff.mpr ⟨[b], chainsFirst, by simp⟩
    have nonempty : chains.getD c [] ≠ [] := by
      obtain ⟨_, depends, _⟩ := TransGen.head'_iff.mp cycle
      exact depends.source_ne_nil
    have walk := chainDep_reached chainsPart inFirst wellFormed.reached nonempty
    exact (hasLoop_false_iff chainsPart built).mp checked ⟨c, walk, cycle⟩

/-- Some chain waits for the start block. -/
theorem root {chains : Chains} (part : Partition g.numVertices chains)
    (first : chains[0]? = some [b]) : ∃ t, ChainDep g chains 0 t := by
  obtain ⟨v, inside, other⟩ : ∃ v, v < g.numVertices ∧ v ≠ b := by
    have several := wellFormed.several
    by_cases zero : b = 0
    · exact ⟨1, several, by omega⟩
    · exact ⟨0, by omega, fun same => zero same.symm⟩
  rcases (wellFormed.reached v inside).cases_head with same | ⟨w, edge, _⟩
  · exact absurd same.symm other
  · obtain ⟨t, inT⟩ := part.exists_chain edge.bounds.2
    refine ⟨t, ?_, b, w, inChain_iff.mpr ⟨[b], first, by simp⟩, inT, edge⟩
    rintro rfl
    obtain ⟨c, found, member⟩ := inChain_iff.mp inT
    rw [first] at found
    cases found
    rw [List.mem_singleton.mp member] at edge
    exact wellFormed.source b edge

/-- The level search and `createChainBlocks` on the final chains. -/
theorem blocks {chains : Chains} {maps : DependencyMaps}
    (part : Partition g.numVertices chains) (built : buildDependencies g chains = .ok maps)
    (acyclic : Acyclic (ChainDep g chains)) (first : chains[0]? = some [b]) (limit : Nat) :
    ∃ chainGraph final blockChain, buildChainGraph g chains maps = .ok chainGraph ∧
      createChainBlocks maps limit (buildChainLevel chainGraph) chainGraph =
        .ok (final, blockChain) := by
  have same := depends_eq_chainDep part built
  obtain ⟨t, depends⟩ := wellFormed.root part first
  rw [← same] at depends acyclic
  have some : 0 < chains.length := (List.getElem?_eq_some_iff.mp first).1
  have known : ∀ s t, Depends maps.unDependencies s t → t < chains.length :=
    fun _ _ depends => (depends_lt_length part built depends).2
  obtain ⟨chainGraph, returned, isLevel⟩ :=
    buildChainGraph_total g maps some known fun s _ => acyclic s
  have below : ∀ m ∈ chainGraph, m.level < 2 ^ 32 := by
    intro m member
    have within : ∀ n c, Walk (Depends maps.unDependencies) 0 n c → c ∈ walkable chains := by
      intro n c walk
      rw [same] at walk
      exact walk_walkable walk
    have less := (isLevel m member).lt_length (fun s _ => acyclic s) within
    have few := walkable_length part
    have small := wellFormed.small
    omega
  obtain ⟨_, final, blockChain, _, _, created⟩ := buildChainGraph_blocks returned below isLevel
    (acyclic 0) known (unReverseMapping_converse part built) depends limit
  exact ⟨chainGraph, final, blockChain, returned, created⟩

end WellFormed

/-- `initialize` accepts every graph that is laid out well. -/
theorem WellFormed.initialize {instructionLlvm : Opcode → Option Nat} {g : BoostGraph} {b : Nat}
    {p : VertexProp} (wellFormed : WellFormed instructionLlvm g b p) {param : GraphParam}
    (flag : param.breakLiveOut ≠ 0 ∨ param.breakLiveIn ≠ 0) :
    ∃ graph mLevel, initializeGraph param instructionLlvm g = .ok graph ∧
      graph.origGraph.vertices = g.vertices ∧
      graph.compGraph.vertices = g.vertices.zipIdx.map (comVertex instructionLlvm mLevel) ∧
      (∀ c ∈ graph.chains, c ≠ []) ∧ Acyclic (Depends graph.maps.unDependencies) := by
  obtain ⟨clean, orig, cleaned, removed, vertices, edges⟩ :=
    readGraphHelpers_total wellFormed.names wellFormed.small
  have read := wellFormed.congr vertices edges
  obtain ⟨mLevel, comp, origMap, _, completed, compVertices⟩ :=
    completeReadGraphHelper_total (Nat.zero_lt_of_lt read.several) read.acyclic read.known
  obtain ⟨chains, maps, decomposed, part, built, checked, first, full, acyclic⟩ :=
    read.decompose flag removed
  obtain ⟨chainGraph, final, blockChain, levelled, created⟩ :=
    read.blocks part built acyclic first param.blockLimit
  refine ⟨⟨clean, orig, comp, origMap, chains, maps, final, buildChainLevel chainGraph, blockChain⟩,
    mLevel, ?_, vertices, vertices ▸ compVertices, full, ?_⟩
  · unfold initializeGraph
    rw [cleaned, Loops.ok_bind, removed, Loops.ok_bind, completed, Loops.ok_bind]
    simp only [decomposed, checked, check, Bool.not_false, ↓reduceIte, Loops.ok_bind]
    rw [levelled, Loops.ok_bind, created]
    rfl
  · rw [depends_eq_chainDep part built]
    exact acyclic

section program

variable {σ : Type} {instructionLlvm : Opcode → Option Nat} {g : BoostGraph} {b : Nat}
  {p : VertexProp}

/-- The trace has an address for every memory instruction of the graph, in every
chunk. -/
def Addressed (g : BoostGraph) (memaddrMap : Nat → Nat → Option MemValue) (lines : List TraceLine) :
    Prop :=
  ∀ n, .chunk n ∈ lines → ∀ q ∈ g.vertices, q.label.opcode.isMem = true →
    ∃ value, memaddrMap n q.label.id = some value ∧ value.addr < 2 ^ 63

/-- The instructions of the chains carry the ids and opcodes of the labels. -/
theorem Config.mem_instructions {cfg : Config} {mLevel : List Int}
    (vertices : cfg.graph.origGraph.vertices = g.vertices)
    (comp : cfg.graph.compGraph.vertices =
      g.vertices.zipIdx.map (comVertex instructionLlvm mLevel)) {cId : Nat} {ins : Node}
    (member : ins ∈ cfg.instructions cId) :
    ∃ q ∈ g.vertices, ins.oldId = q.label.id ∧ ins.type = q.label.opcode := by
  obtain ⟨v, inChain, rfl⟩ := List.mem_map.mp member
  have inside : v < cfg.graph.origGraph.numVertices := cfg.accepted.part.lt inChain
  rw [AdjacencyList.numVertices, vertices] at inside
  obtain ⟨q, found⟩ : ∃ q, g.vertices[v]? = some q := ⟨_, List.getElem?_eq_getElem inside⟩
  refine ⟨q, List.mem_of_getElem? found, ?_, ?_⟩
  · change cfg.graph.origMap[v]?.getD 0 = _
    rw [cfg.accepted.labels v q (vertices ▸ found), Option.getD_some]
  · change cfg.opcode v = _
    simp [Config.opcode, comp, comVertex, found]

/-- No input of the simulator's makes it fail or run forever: on a graph that is laid
out well, with a break flag set and sizes that fit its tables, `initialize`
returns, and with a Ruby that answers `main` ends on every trace with addresses,
after all of its chunks or `chunkLimit + 2` of them. -/
theorem simulation_ends (wellFormed : WellFormed instructionLlvm g b p)
    (few : g.numVertices ≤ maxNumChain) (labels : (g.vertices.map (·.label.id)).Nodup)
    (latency : ∀ op latency, op.isMem = false → instructionLlvm op = some latency → latency < 2 ^ 31)
    {graphParam : GraphParam} (flag : graphParam.breakLiveOut ≠ 0 ∨ graphParam.breakLiveIn ≠ 0)
    {numLanes : Nat} (lanes : 0 < numLanes ∧ numLanes ≤ maxNumChain) {coreParam : CoreParam}
    (mode : coreParam.memoryMode = 3) (laneParam : LaneParam)
    {memaddrMap : Nat → Nat → Option MemValue} {lines : List TraceLine}
    (addressed : Addressed g memaddrMap lines) {ruby : Ruby σ} {lawful : ruby.system.Lawful}
    (responsive : RubySystem.Responsive lawful) (quiet : ruby.outstanding lawful = 0) :
    ∃ graph fuel last calls, initializeGraph graphParam instructionLlvm g = .ok graph ∧
      (Sim.new (Core.new numLanes graph coreParam laneParam instructionLlvm memaddrMap ruby)
        lines).steps fuel ⟨[], []⟩ = .ok (last, calls) ∧
      last.phase = .finished ∧
      last.numChunkCall = min (lines.countP TraceLine.isChunk) (chunkLimit + 2) := by
  obtain ⟨graph, mLevel, read, vertices, comp, full, acyclic⟩ := wellFormed.initialize flag
  let cfg : Config :=
    ⟨graphParam, instructionLlvm, g, graph, read, numLanes, coreParam, laneParam, memaddrMap⟩
  have nonEmpty : cfg.NonEmpty := by
    intro i inside
    rw [Config.vertices, List.getD_eq_getElem?_getD, List.getElem?_eq_getElem inside]
    exact full _ (List.getElem_mem inside)
  have chains : cfg.numChains ≤ maxNumChain := by
    have counted := countChains_le cfg.accepted.part
    have all : countChains graph.chains = graph.chains.length :=
      List.countP_eq_length.mpr fun c member => by simpa using full c member
    have size : graph.origGraph.numVertices = g.numVertices := congrArg List.length vertices
    change graph.chains.length ≤ maxNumChain
    change countChains graph.chains ≤ graph.origGraph.numVertices at counted
    omega
  have fits : cfg.Fits := ⟨nonEmpty, chains, lanes⟩
  have rubyMode : cfg.RubyMode := ⟨mode, by rw [vertices]; exact labels, latency⟩
  have traced : ∀ n, .chunk n ∈ lines → cfg.Traced n := by
    intro n inTrace cId _ ins member isMem
    obtain ⟨q, listed, oldId, type⟩ := Config.mem_instructions vertices comp member
    rw [oldId]
    exact addressed n inTrace q listed (type ▸ isMem)
  have separated := separated_new ruby rfl quiet traced
  obtain ⟨fuel, last, calls, stepped, finished⟩ :=
    separated.ends fits rubyMode acyclic responsive ⟨[], []⟩
  refine ⟨graph, fuel, last, calls, read, stepped, finished, ?_⟩
  have run := SimRun.start.steps fuel stepped
  exact (Sim.counted_of_run run).stopped finished

end program

/-- A value that is loaded, added to and stored at an address that the start block
leads to as well. -/
def loadAddStore : BoostGraph where
  vertices := [⟨0, ⟨.bb, 0⟩, 0, .bb⟩, ⟨1, ⟨.load, 1⟩, 1, .load⟩,
    ⟨2, ⟨.other "Add", 2⟩, 1, .other "Add"⟩, ⟨3, ⟨.store, 3⟩, 2, .store⟩]
  edges := [(0, 1), (1, 2), (2, 3), (0, 3)]
  bounded := by decide

theorem loadAddStore_wellFormed : WellFormed sampleLlvm loadAddStore 0 ⟨0, ⟨.bb, 0⟩, 0, .bb⟩ where
  names := by decide
  small := by decide
  several := by decide
  start := by
    refine ⟨rfl, rfl, fun w q found isBB => ?_⟩
    have only : ∀ e ∈ loadAddStore.vertices.zipIdx, e.1.opcode = .bb → e.2 = 0 := by decide
    exact only (q, w) (List.mk_mem_zipIdx_iff_getElem?.mpr found) isBB
  named := .inr rfl
  acyclic := by
    refine Acyclic.of_lt id fun u v edge => ?_
    have increasing : ∀ e ∈ loadAddStore.edges, e.1 < e.2 := by decide
    exact increasing (u, v) ((loadAddStore.edge_iff u v).mp edge)
  reached := by
    have first : ReflTransGen loadAddStore.Edge 0 1 := .single (by decide)
    have second : ReflTransGen loadAddStore.Edge 0 2 := first.tail (by decide)
    intro v inside
    match v, inside with
    | 0, _ => exact .refl
    | 1, _ => exact first
    | 2, _ => exact second
    | 3, _ => exact second.tail (by decide)
  paths := by
    intro ch
    match ch with
    | 0 | 1 | 2 => decide
    | ch + 3 => exact (List.isChain_nil : [].IsChain loadAddStore.Edge)
  known := by
    intro q listed
    have each : ∀ q ∈ loadAddStore.vertices, (sampleLlvm q.label.opcode).isSome := by decide
    exact Option.isSome_iff_exists.mp (each q listed)

theorem simulation_ends_loadAddStore :
    ∃ graph fuel last calls, initializeGraph ⟨1, 1, 1, 3⟩ sampleLlvm loadAddStore = .ok graph ∧
      (Sim.new (Core.new 2 graph ⟨3, 0⟩ ⟨1, 25, 100, 2, 2⟩ sampleLlvm
        (fun _ _ => some ⟨false, 64⟩) ⟨fifoRuby, [], []⟩) twoChunks).steps fuel ⟨[], []⟩ =
        .ok (last, calls) ∧
      last.phase = .finished ∧ last.numChunkCall = 2 :=
  simulation_ends loadAddStore_wellFormed (by decide) (by decide) (fun _ _ _ => sampleLlvm_lt)
    (.inl (by decide)) (by decide) rfl ⟨1, 25, 100, 2, 2⟩
    (fun _ _ _ _ _ => ⟨⟨false, 64⟩, rfl, by decide⟩) fifoRuby_responsive rfl

end ChainSaw
