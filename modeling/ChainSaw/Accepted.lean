import ChainSaw.LoopCheck

set_option autoImplicit false

namespace ChainSaw

open Std (TreeMap TreeSet)

/-- `orig_map` sends each vertex to the id in its label. -/
theorem origMap_getElem? (vertices : List VertexProp) (v : Nat) (q : VertexProp)
    (found : vertices[v]? = some q) :
    (vertices.zipIdx.foldl (fun (map : TreeMap Nat Nat) (p, v) => map.insert v p.label.id)
      ∅)[v]? = some q.label.id := by
  induction vertices using List.reverseRecOn with
  | nil => simp at found
  | append_singleton vertices p ih =>
    rw [List.zipIdx_append, List.foldl_append]
    simp only [Nat.zero_add, List.zipIdx_cons, List.zipIdx_nil, List.foldl_cons, List.foldl_nil]
    rw [TreeMap.getElem?_insert]
    by_cases last : vertices.length = v
    · subst last
      simp only [List.getElem?_concat_length, Option.some.injEq] at found
      simp [found]
    · have bound := (List.getElem?_eq_some_iff.mp found).1
      rw [List.length_append, List.length_singleton] at bound
      rw [List.getElem?_append_left (by omega)] at found
      simpa [last] using ih found

/-- What the complete graph and `orig_map` hold for each vertex. -/
theorem completeReadGraphHelper_ok {instructionLlvm : Opcode → Option Nat} {orig : BoostGraph}
    {comp : BoostGraphComp} {origMap : TreeMap Nat Nat}
    (returned : completeReadGraphHelper instructionLlvm orig = .ok (comp, origMap)) :
    comp.vertices.length = orig.numVertices ∧
      (∀ (v : Nat) (p : VertexPropCom), comp.vertices[v]? = some p →
        ∃ latency, instructionLlvm p.opcode = some latency) ∧
      ∀ (v : Nat) (q : VertexProp), orig.vertices[v]? = some q → origMap[v]? = some q.label.id := by
  obtain ⟨mLevel, _, returned⟩ := Loops.bind_eq_ok.mp returned
  obtain ⟨props, mapped, returned⟩ := Loops.bind_eq_ok.mp returned
  cases returned
  have pointwise := Loops.mapM_eq_ok.mp mapped
  have length : props.length = orig.numVertices := by
    have same := pointwise.length_eq
    rw [List.length_zipIdx] at same
    exact same.symm
  have kept := orig.vertices_copy props length
  refine ⟨by rw [kept, length], ?_, ?_⟩
  · intro v p found
    rw [kept] at found
    obtain ⟨bound, rfl⟩ := List.getElem?_eq_some_iff.mp found
    have at_v := List.Forall₂.get pointwise (i := v) (by
      rw [List.length_zipIdx]
      have := length
      unfold AdjacencyList.numVertices at this
      omega) bound
    simp only [List.get_eq_getElem, List.getElem_zipIdx, Nat.zero_add] at at_v
    obtain ⟨latency, known, made⟩ := Loops.bind_eq_ok.mp at_v
    have value := Except.ok.inj made
    refine ⟨latency, ?_⟩
    rw [← value]
    simpa using known
  · intro v q found
    exact origMap_getElem? orig.vertices v q found

/-- A write to other fields keeps what `part` reads. -/
theorem map_updateChain {γ : Type} (part : ChainGraph → γ) {f : ChainGraph → ChainGraph}
    (kept : ∀ m, part (f m) = part m) (id : Nat) (chainGraph : List ChainGraph) :
    (updateChain id f chainGraph).map part = chainGraph.map part := by
  induction chainGraph with
  | nil => rfl
  | cons m rest ih =>
    unfold updateChain
    split
    · simp [kept]
    · simp [ih]

/-- `findChainsLevel` writes nothing but levels. -/
theorem findChainsLevel_map {γ : Type} (part : ChainGraph → γ)
    (kept : ∀ m l, part { m with level := l } = part m) (dependencies : ChainSets) (depth : Nat) :
    ∀ mLevel id chGraph final, findChainsLevel dependencies depth mLevel id chGraph = .ok final →
      final.map part = chGraph.map part := by
  induction depth with
  | zero => intro mLevel id chGraph final returned; cases returned
  | succ depth ih =>
    intro mLevel id chGraph final returned
    unfold findChainsLevel at returned
    obtain ⟨m, _, returned⟩ := Loops.bind_eq_ok.mp returned
    split at returned
    · have raised := map_updateChain part
        (f := fun m => { m with level := mLevel }) (fun m => kept m _) id chGraph
      split at returned
      · cases returned
        exact raised
      · refine Loops.foldlM_ok (fun g => g.map part = chGraph.map part) _ ?_ raised returned
        intro g same dep _ next stepped
        rw [ih _ _ _ _ stepped, same]
    · cases returned
      rfl

/-- What the entry of a chain takes from its number alone. -/
theorem chainGraphEntry_map {γ : Type} {orig : BoostGraph} {maps : DependencyMaps}
    {part : ChainGraph → γ} {value : Nat → γ}
    (made : ∀ ch i, part (chainGraphEntry orig maps ch i) = value i) (chains : Chains) :
    (chains.zipIdx.map fun e => chainGraphEntry orig maps e.1 e.2).map part =
      (List.range chains.length).map value := by
  have index : part ∘ (fun e : List Nat × Nat => chainGraphEntry orig maps e.1 e.2) =
      value ∘ (·.2) := by
    funext e
    exact made e.1 e.2
  rw [List.map_map, index, ← List.map_map, List.zipIdx_map_snd, List.range_eq_range']

theorem chainGraphEntry_ids (orig : BoostGraph) (chains : Chains) (maps : DependencyMaps) :
    (chains.zipIdx.map fun e => chainGraphEntry orig maps e.1 e.2).map (·.chainId) =
      List.range chains.length := by
  rw [chainGraphEntry_map fun _ i => show _ = id i from rfl, List.map_id]

theorem buildChainGraph_map {γ : Type} {part : ChainGraph → γ}
    (kept : ∀ m l, part { m with level := l } = part m) {orig : BoostGraph} {chains : Chains}
    {maps : DependencyMaps} {chainGraph : List ChainGraph}
    (returned : buildChainGraph orig chains maps = .ok chainGraph) :
    chainGraph.map part =
      (chains.zipIdx.map fun e => chainGraphEntry orig maps e.1 e.2).map part :=
  findChainsLevel_map part kept _ _ _ _ _ _ returned

theorem buildChainGraph_ids {orig : BoostGraph} {chains : Chains} {maps : DependencyMaps}
    {chainGraph : List ChainGraph}
    (returned : buildChainGraph orig chains maps = .ok chainGraph) :
    chainGraph.map (·.chainId) = List.range chains.length := by
  rw [buildChainGraph_map (fun _ _ => rfl) returned]
  exact chainGraphEntry_ids orig chains maps

/-- The chain graph has an entry for chain 0, which its level search starts from. -/
theorem buildChainGraph_root {orig : BoostGraph} {chains : Chains} {maps : DependencyMaps}
    {chainGraph : List ChainGraph}
    (returned : buildChainGraph orig chains maps = .ok chainGraph) : 0 < chains.length := by
  unfold buildChainGraph findChainsLevel at returned
  obtain ⟨m, found, _⟩ := Loops.bind_eq_ok.mp returned
  rw [findChain, deref_eq_ok] at found
  have member := List.mem_of_find?_eq_some found
  cases chains with
  | nil => simp at member
  | cons c rest => simp

/-- The levels together list every chain once. -/
theorem buildChainLevel_perm (chainGraph : List ChainGraph) :
    ((buildChainLevel chainGraph).toList.flatMap (·.2)).Perm (chainGraph.map (·.chainId)) :=
  Grouping.group_flatMap_perm (fun ch : ChainGraph => toUInt32 ch.level) ChainGraph.chainId chainGraph

theorem fileChain_perm (ch : ChainGraph) (blocks : List Block) :
    ((fileChain ch blocks).flatMap (·.chains)).Perm (blocks.flatMap (·.chains) ++ [ch.chainId]) := by
  induction blocks with
  | nil => exact List.Perm.refl _
  | cons bl rest ih =>
    unfold fileChain
    split
    · simp only [List.flatMap_cons, List.append_assoc]
      exact List.perm_append_comm.append_left _
    · simp only [List.flatMap_cons, List.append_assoc]
      exact ih.append_left _

theorem fileChains_perm (chainGraph : List ChainGraph) (blocks : List Block) :
    ((chainGraph.foldl (fun blocks ch => fileChain ch blocks) blocks).flatMap (·.chains)).Perm
      (blocks.flatMap (·.chains) ++ chainGraph.map (·.chainId)) := by
  induction chainGraph generalizing blocks with
  | nil => simp
  | cons ch rest ih =>
    refine (ih (fileChain ch blocks)).trans ?_
    have filed := (fileChain_perm ch blocks).append_right (rest.map (·.chainId))
    simpa using filed

section blockIds

variable {γ : Type} (part : ChainGraph → γ) (kept : ∀ m b, part { m with blockID := b } = part m)
include kept

theorem openBlock_map (s : BlockState) (child : Nat) :
    (openBlock s child).chainGraph.map part = s.chainGraph.map part :=
  map_updateChain part (fun m => kept m _) child s.chainGraph

theorem rootBlocks_map {maps : DependencyMaps} {s next : BlockState}
    (returned : rootBlocks maps s = .ok next) : next.chainGraph.map part = s.chainGraph.map part := by
  obtain ⟨_, _, returned⟩ := Loops.bind_eq_ok.mp returned
  obtain ⟨children, _, returned⟩ := Loops.bind_eq_ok.mp returned
  refine Loops.foldlM_ok (fun s' : BlockState => s'.chainGraph.map part = s.chainGraph.map part) _ ?_
    (map_updateChain part (fun m => kept m _) 0 s.chainGraph) returned
  intro s' same child _ next stepped
  obtain ⟨m, _, stepped⟩ := Loops.bind_eq_ok.mp stepped
  cases stepped
  split
  · rw [openBlock_map part kept, same]
  · exact same

theorem childBlock_map {maps : DependencyMaps} {blockLimit chId child : Nat}
    {s next : BlockState × Nat} (returned : childBlock maps blockLimit chId s child = .ok next) :
    next.1.chainGraph.map part = s.1.chainGraph.map part := by
  obtain ⟨parents, _, returned⟩ := Loops.bind_eq_ok.mp returned
  obtain ⟨ch, _, returned⟩ := Loops.bind_eq_ok.mp returned
  obtain ⟨m, _, returned⟩ := Loops.bind_eq_ok.mp returned
  have opened : (if m.blockID = 0 then openBlock s.1 child else s.1).chainGraph.map part =
      s.1.chainGraph.map part := by
    split
    · exact openBlock_map part kept s.1 child
    · rfl
  split at returned
  · cases returned
    exact map_updateChain part (fun m => kept m _) child s.1.chainGraph
  · split at returned
    · obtain ⟨pass, _, returned⟩ := Loops.bind_eq_ok.mp returned
      split at returned
      · cases returned
        exact map_updateChain part (fun m => kept m _) child s.1.chainGraph
      · cases returned
        exact opened
    · cases returned
      exact opened

theorem chainBlocks_map {maps : DependencyMaps} {blockLimit chId : Nat} {s next : BlockState}
    (returned : chainBlocks maps blockLimit s chId = .ok next) :
    next.chainGraph.map part = s.chainGraph.map part := by
  unfold chainBlocks at returned
  split at returned
  · exact rootBlocks_map part kept returned
  · obtain ⟨_, _, returned⟩ := Loops.bind_eq_ok.mp returned
    split at returned
    · cases returned
      rfl
    · obtain ⟨⟨s', _⟩, looped, returned⟩ := Loops.bind_eq_ok.mp returned
      cases returned
      refine Loops.foldlM_ok (fun s' : BlockState × Nat =>
        s'.1.chainGraph.map part = s.chainGraph.map part) _ ?_ rfl looped
      intro s' same child _ next stepped
      rw [childBlock_map part kept stepped, same]

/-- `createChainBlocks` writes nothing but block ids. -/
theorem createChainBlocks_map {maps : DependencyMaps} {blockLimit : Nat} {chainLevel : ChainLists}
    {chainGraph final : List ChainGraph} {blocks : List Block}
    (returned : createChainBlocks maps blockLimit chainLevel chainGraph = .ok (final, blocks)) :
    final.map part = chainGraph.map part := by
  obtain ⟨s, looped, returned⟩ := Loops.bind_eq_ok.mp returned
  cases returned
  refine Loops.foldlM_ok (fun s : BlockState => s.chainGraph.map part = chainGraph.map part) _ ?_ rfl
    looped
  intro s' same chId _ next stepped
  rw [chainBlocks_map part kept stepped, same]

end blockIds

theorem rootBlocks_children {maps : DependencyMaps} {s next : BlockState}
    (returned : rootBlocks maps s = .ok next) :
    ∃ children, maps.unDependencies[0]? = some children := by
  obtain ⟨_, _, returned⟩ := Loops.bind_eq_ok.mp returned
  obtain ⟨children, found, _⟩ := Loops.bind_eq_ok.mp returned
  exact ⟨children, deref_eq_ok.mp found⟩

/-- The blocks hold the chains of the chain graph, and chain 0 has dependents. -/
theorem createChainBlocks_ok {maps : DependencyMaps} {blockLimit : Nat}
    {chainGraph final : List ChainGraph} {blocks : List Block}
    (root : 0 ∈ chainGraph.map (·.chainId))
    (returned : createChainBlocks maps blockLimit (buildChainLevel chainGraph) chainGraph =
      .ok (final, blocks)) :
    final.map (·.chainId) = chainGraph.map (·.chainId) ∧
      (blocks.flatMap (·.chains)).Perm (chainGraph.map (·.chainId)) ∧
      ∃ children, maps.unDependencies[0]? = some children := by
  have same := createChainBlocks_map (·.chainId) (fun _ _ => rfl) returned
  obtain ⟨s, looped, returned⟩ := Loops.bind_eq_ok.mp returned
  cases returned
  have listed : 0 ∈ (buildChainLevel chainGraph).toList.flatMap (·.2) :=
    (buildChainLevel_perm chainGraph).mem_iff.mpr root
  obtain ⟨before, next, turn⟩ := Loops.foldlM_turn listed looped
  refine ⟨same, ?_, rootBlocks_children turn⟩
  rw [← same]
  exact fileChains_perm s.chainGraph []

/-- No chain that the map lists has an empty set. -/
def NoEmptySet (un : ChainSets) : Prop :=
  ∀ (s : Nat) (set : TreeSet Nat), un[s]? = some set → ∃ t, t ∈ set

theorem insert_all_noEmptySet (ds : List Nat) (un : ChainSets) (c : Nat) (full : NoEmptySet un) :
    NoEmptySet (ds.foldl (fun un d => un.alter c (fun ds => some ((ds.getD ∅).insert d))) un) := by
  induction ds generalizing un with
  | nil => exact full
  | cons d rest ih =>
    apply ih
    intro s set found
    rw [TreeMap.getElem?_alter] at found
    split at found
    · cases found
      exact ⟨d, by simp⟩
    · exact full s set found

theorem uniqueDependency_noEmptySet (histo : ChainLists) : NoEmptySet (uniqueDependency histo) := by
  unfold uniqueDependency
  have start : NoEmptySet ∅ := by
    intro s set found
    simp at found
  generalize (∅ : ChainSets) = un at start
  induction histo.toList generalizing un with
  | nil => exact start
  | cons c rest ih => exact ih _ (insert_all_noEmptySet c.2 un c.1 start)

theorem buildDependencies_noEmptySet {g : BoostGraph} {chains : Chains} {maps : DependencyMaps}
    (returned : buildDependencies g chains = .ok maps) : NoEmptySet maps.unDependencies := by
  obtain ⟨_, _, made⟩ := Loops.bind_eq_ok.mp returned
  cases made
  exact uniqueDependency_noEmptySet _

/-- What the core can rely on in a graph that `newGraph::initialize` has built. -/
structure Accepted (instructionLlvm : Opcode → Option Nat) (graph : NewGraph) : Prop where
  small : graph.origGraph.numVertices < 2 ^ 32
  part : Partition graph.origGraph.numVertices graph.chains
  depends : ∀ s t, Depends graph.maps.unDependencies s t ↔
    ChainDep graph.origGraph graph.chains s t
  root : ∃ t, Depends graph.maps.unDependencies 0 t
  vertices : graph.compGraph.vertices.length = graph.origGraph.numVertices
  known : ∀ (v : Nat) (p : VertexPropCom), graph.compGraph.vertices[v]? = some p →
    ∃ latency, instructionLlvm p.opcode = some latency
  labels : ∀ (v : Nat) (q : VertexProp), graph.origGraph.vertices[v]? = some q →
    graph.origMap[v]? = some q.label.id
  ids : graph.chainGraph.map (·.chainId) = List.range graph.chains.length
  blocks : (graph.blockChain.flatMap (·.chains)).Perm (List.range graph.chains.length)

/-- The stages of `initialize`, in terms of the graph it leaves. -/
theorem initializeGraph_stages {param : GraphParam} {instructionLlvm : Opcode → Option Nat}
    {dirty : BoostGraph} {graph : NewGraph}
    (returned : initializeGraph param instructionLlvm dirty = .ok graph) :
    cleanReadGraphHelper dirty = .ok graph.cleanGraph ∧
      cleanRemoveReadGraphHelper graph.cleanGraph = .ok graph.origGraph ∧
      completeReadGraphHelper instructionLlvm graph.origGraph =
        .ok (graph.compGraph, graph.origMap) ∧
      decompose param graph.cleanGraph graph.origGraph (startChains graph.origGraph) =
        .ok (graph.chains, graph.maps) ∧
      hasLoop graph.maps.unDependencies = .ok false ∧
      ∃ built, buildChainGraph graph.origGraph graph.chains graph.maps = .ok built ∧
        createChainBlocks graph.maps param.blockLimit (buildChainLevel built) built =
          .ok (graph.chainGraph, graph.blockChain) := by
  obtain ⟨clean, cleaned, returned⟩ := Loops.bind_eq_ok.mp returned
  obtain ⟨orig, removed, returned⟩ := Loops.bind_eq_ok.mp returned
  obtain ⟨⟨comp, origMap⟩, completed, returned⟩ := Loops.bind_eq_ok.mp returned
  obtain ⟨⟨chains, maps⟩, decomposed, returned⟩ := Loops.bind_eq_ok.mp returned
  obtain ⟨loop, searched, returned⟩ := Loops.bind_eq_ok.mp returned
  obtain ⟨_, passed, returned⟩ := Loops.bind_eq_ok.mp returned
  obtain ⟨built, levelled, returned⟩ := Loops.bind_eq_ok.mp returned
  obtain ⟨⟨final, blocks⟩, blocked, returned⟩ := Loops.bind_eq_ok.mp returned
  cases returned
  have noLoop : loop = false := by
    cases loop with
    | false => rfl
    | true => cases passed
  subst noLoop
  exact ⟨cleaned, removed, completed, decomposed, searched, built, levelled, blocked⟩

theorem initializeGraph_ok {param : GraphParam} {instructionLlvm : Opcode → Option Nat}
    {dirty : BoostGraph} {graph : NewGraph}
    (returned : initializeGraph param instructionLlvm dirty = .ok graph) :
    Accepted instructionLlvm graph := by
  obtain ⟨_, removed, completed, decomposed, _, chainGraph, built, blocked⟩ :=
    initializeGraph_stages returned
  obtain ⟨_, small, _⟩ := cleanRemoveReadGraphHelper_ok removed
  obtain ⟨vertices, known, labels⟩ := completeReadGraphHelper_ok completed
  have part := decompose_partition (startChains_partition graph.origGraph) decomposed
  obtain ⟨_, _, _, dependencies⟩ := decompose_ok decomposed
  have ids := buildChainGraph_ids built
  have root : 0 ∈ chainGraph.map (·.chainId) := by
    rw [ids, List.mem_range]
    exact buildChainGraph_root built
  obtain ⟨sameIds, filed, children, found⟩ := createChainBlocks_ok root blocked
  refine ⟨small, part, depends_iff_chainDep part dependencies, ?_, vertices, known, labels,
    sameIds.trans ids, ids ▸ filed⟩
  obtain ⟨t, member⟩ := buildDependencies_noEmptySet dependencies 0 children found
  exact ⟨t, by simpa [Depends, found] using member⟩

end ChainSaw
