import ChainSaw.Lookups
import ChainSaw.GraphLevels

set_option autoImplicit false

namespace ChainSaw

open Std (TreeMap TreeSet)
open Relation (TransGen ReflTransGen)
open Relations (Acyclic)

theorem serialEdges_pairwise {nodes : List Nat} {R : Nat → Nat → Prop} (ordered : nodes.Pairwise R)
    {e : ChainDependency} (member : e ∈ serialEdges nodes) : R e.source e.target := by
  induction nodes with
  | nil => cases member
  | cons a rest ih =>
    cases rest with
    | nil => cases member
    | cons b rest =>
      rw [serialEdges_cons_cons] at member
      rcases List.mem_cons.mp member with rfl | later
      · exact List.rel_of_pairwise_cons ordered List.mem_cons_self
      · exact ih ordered.of_cons later

/-- The ILP graph is acyclic. For every partition of a graph into chains without a
loop between them, and the chain graph that `buildChainGraph` makes of
it, whatever `createChainBlocks` has written since: `buildILPGraph` returns, its
graph has no cycle and the vertices of `orig_graph`, and the level search of
`ilpStat` ends within `m_level`. -/
theorem ilp_graph_acyclic (g : BoostGraph) (chains : Chains) (write : Nat → VertexProp → VertexProp)
    (small : g.numVertices < 2 ^ 32) (some : 0 < g.numVertices)
    (part : Partition g.numVertices chains) (acyclic : Acyclic (ChainDep g chains)) :
    ∃ maps built, buildDependencies g chains = .ok maps ∧
      buildChainGraph g chains maps = .ok built ∧
      ∀ chainGraph : List ChainGraph,
        (chainGraph.map fun m => (m.chainId, m.nodes)) =
          (built.map fun m => (m.chainId, m.nodes)) →
        ∃ graphs, buildILPGraph write g maps.unReverseMapping chainGraph = .ok graphs ∧
          Acyclic graphs.ilpGraph.Edge ∧ graphs.ilpGraph.numVertices = g.numVertices ∧
          ∃ mLevel, findGrahpLevel graphs.ilpGraph (graphs.ilpGraph.numVertices + 1) 0
            (List.replicate graphs.origGraph.numVertices (-1)) 0 = .ok mLevel := by
  obtain ⟨maps, dependencies⟩ := buildDependencies_total part
  have same := depends_eq_chainDep part dependencies
  have known : ∀ s t, Depends maps.unDependencies s t → t < chains.length :=
    fun _ _ depends => (depends_lt_length part dependencies depends).2
  obtain ⟨i, inChain⟩ := part.exists_chain some
  obtain ⟨built, returned, _⟩ := buildChainGraph_total g maps (Nat.zero_lt_of_lt inChain.lt_length)
    known (fun s _ cycle => acyclic s (same ▸ cycle))
  refine ⟨maps, built, dependencies, returned, ?_⟩
  intro chainGraph copied
  have full : ∀ j p, Depends maps.unReverseMapping j p → chains.getD p [] ≠ [] :=
    fun j p depends => parent_ne_nil part dependencies depends
  obtain ⟨graphs, ilp, _, vertices, edges, _, length, _⟩ := buildILPGraph_total full write small part
    (masked_of_copied returned copied)
  have noCycle : Acyclic graphs.ilpGraph.Edge := by
    refine acyclic.of_classes (chainOf chains) ?_
    intro u v edge
    rw [AdjacencyList.edge_iff, edges] at edge
    obtain ⟨e, member, isEdge⟩ := List.mem_map.mp edge
    cases isEdge
    obtain ⟨j, _, made⟩ := List.mem_flatMap.mp member
    rcases ilpEdges_cases made with ⟨serial, _⟩ | ⟨p, depends, itsNodes, rfl⟩
    · obtain ⟨source, target⟩ := serialEdges_inChain serial
      rw [chainOf_eq part.nodup source, chainOf_eq part.nodup target]
      exact .inl ⟨rfl, serialEdges_pairwise (ascending_strict (part.chain_nodup j)) serial⟩
    · rw [chainOf_eq part.nodup (backOf_mem (full j p depends)),
        chainOf_eq part.nodup (frontOf_mem itsNodes)]
      rw [unReverseMapping_converse part dependencies, same] at depends
      exact .inr depends
  refine ⟨graphs, ilp, noCycle, vertices, ?_⟩
  obtain ⟨mLevel, searched, _⟩ := findGrahpLevel_total graphs.ilpGraph (vertices ▸ some) noCycle
    (Nat.le_succ graphs.ilpGraph.numVertices)
  have size : graphs.origGraph.numVertices = graphs.ilpGraph.numVertices := length.trans vertices.symm
  exact ⟨mLevel, by rw [size]; exact searched⟩

theorem ilp_graph_doubledEdge :
    ∃ maps built graphs, buildDependencies doubledEdge [[1, 0], [2]] = .ok maps ∧
      buildChainGraph doubledEdge [[1, 0], [2]] maps = .ok built ∧
      buildILPGraph (fun name p => { p with name }) doubledEdge maps.unReverseMapping built =
        .ok graphs ∧
      Acyclic graphs.ilpGraph.Edge ∧ graphs.ilpGraph.numVertices = 3 := by
  have part : Partition doubledEdge.numVertices [[1, 0], [2]] := by
    unfold Partition
    decide
  have acyclic : Acyclic (ChainDep doubledEdge [[1, 0], [2]]) := by
    refine Acyclic.of_lt id ?_
    rintro s t ⟨apart, u, v, inS, inT, edge⟩
    have forward : ∀ e ∈ doubledEdge.edges,
        chainOf [[1, 0], [2]] e.1 ≤ chainOf [[1, 0], [2]] e.2 := by
      decide
    have ordered := forward (u, v) ((doubledEdge.edge_iff u v).mp edge)
    rw [chainOf_eq part.nodup inS, chainOf_eq part.nodup inT] at ordered
    exact lt_of_le_of_ne ordered apart
  obtain ⟨maps, built, dependencies, returned, each⟩ := ilp_graph_acyclic doubledEdge [[1, 0], [2]]
    (fun name p => { p with name }) (by decide) (by decide) part acyclic
  obtain ⟨graphs, ilp, noCycle, vertices, _⟩ := each built rfl
  exact ⟨maps, built, graphs, dependencies, returned, ilp, noCycle, vertices⟩

/-- The edges of the serialised chain graph, in the order of the chains: one between
each two consecutive nodes, and one for each dependency from the last node of
the source to the first node of the target. -/
def serialisedEdges (un : ChainSets) (chains : Chains) : List (Nat × Nat) :=
  (chains.flatMap fun c => c.zip c.tail) ++
    (List.range chains.length).flatMap fun s => (dependents un s).map fun t =>
      ((chains.getD s []).getLastD 0, (chains.getD t []).headD 0)

theorem pairwise_of_serialEdges {nodes : List Nat}
    (ordered : ∀ e ∈ serialEdges nodes, e.source < e.target) : nodes.Pairwise (· < ·) := by
  rw [← List.isChain_iff_pairwise]
  induction nodes with
  | nil => exact .nil
  | cons a rest ih =>
    cases rest with
    | nil => exact .singleton a
    | cons b rest =>
      rw [serialEdges_cons_cons] at ordered
      exact .cons_cons (ordered ⟨a, b⟩ List.mem_cons_self)
        (ih fun e member => ordered e (List.mem_cons_of_mem _ member))

theorem dependents_nodup (un : ChainSets) (s : Nat) : (dependents un s).Nodup := by
  unfold dependents
  cases un[s]? with
  | none => exact List.nodup_nil
  | some set => exact nodup_toList set

/-- Lists that can be told apart by a tag of their elements join without repetition. -/
theorem nodup_flatMap_tag {α β : Type} {keys : List α} {f : α → List β} (tag : β → α)
    (distinct : keys.Nodup) (each : ∀ k, (f k).Nodup) (tagged : ∀ k, ∀ b ∈ f k, tag b = k) :
    (keys.flatMap f).Nodup := by
  refine List.nodup_flatMap.mpr ⟨fun k _ => each k, distinct.imp ?_⟩
  intro k l apart b inK inL
  exact apart ((tagged k b inK).symm.trans (tagged l b inL))

/-- The pairs of a relation between chains, listed from either side. -/
theorem dependents_perm {un unReverse : ChainSets} {n : Nat}
    (converse : ∀ s t, Depends unReverse t s ↔ Depends un s t)
    (known : ∀ s t, Depends un s t → s < n ∧ t < n) :
    ((List.range n).flatMap fun t => (dependents unReverse t).map fun s => (s, t)).Perm
      ((List.range n).flatMap fun s => (dependents un s).map fun t => (s, t)) := by
  have bySource : ((List.range n).flatMap fun s => (dependents un s).map fun t => (s, t)).Nodup := by
    refine nodup_flatMap_tag Prod.fst List.nodup_range ?_ ?_
    · intro s
      exact (dependents_nodup un s).map fun t t' same => congrArg Prod.snd same
    · intro s pair member
      obtain ⟨t, _, rfl⟩ := List.mem_map.mp member
      rfl
  have byTarget :
      ((List.range n).flatMap fun t => (dependents unReverse t).map fun s => (s, t)).Nodup := by
    refine nodup_flatMap_tag Prod.snd List.nodup_range ?_ ?_
    · intro t
      exact (dependents_nodup unReverse t).map fun s s' same => congrArg Prod.fst same
    · intro t pair member
      obtain ⟨s, _, rfl⟩ := List.mem_map.mp member
      rfl
  refine (List.perm_ext_iff_of_nodup byTarget bySource).mpr ?_
  rintro ⟨s, t⟩
  simp only [List.mem_flatMap, List.mem_range, List.mem_map, mem_dependents, Prod.mk.injEq]
  constructor
  · rintro ⟨t, _, s, depends, rfl, rfl⟩
    have forward := (converse s t).mp depends
    exact ⟨s, (known s t forward).1, t, forward, rfl, rfl⟩
  · rintro ⟨s, _, t, depends, rfl, rfl⟩
    exact ⟨t, (known s t depends).2, s, (converse s t).mpr depends, rfl, rfl⟩

/-- The ILP edges, the serial ones apart from those between chains. -/
theorem ilpEdges_perm {unReverseMapping : ChainSets} {chains : Chains}
    (nonempty : ∀ c ∈ chains, c ≠ []) :
    ((List.range chains.length).flatMap (ilpEdges unReverseMapping chains)).Perm
      (((List.range chains.length).flatMap fun j => if (unReverseMapping[j]?).isSome
          then serialEdges (ascending (chains.getD j [])) else []) ++
        (List.range chains.length).flatMap fun j => (dependents unReverseMapping j).map fun p =>
          ⟨backOf chains p, frontOf chains j⟩) := by
  refine List.Perm.trans ?_ (List.flatMap_append_perm _ _ _).symm
  apply List.Perm.flatMap_left
  intro j member
  have some : chains.getD j [] ≠ [] := by
    have inside := List.mem_range.mp member
    have itself : chains.getD j [] = chains[j] := by simp [inside]
    rw [itself]
    exact nonempty _ (List.getElem_mem inside)
  unfold ilpEdges dependents
  cases unReverseMapping[j]? with
  | none => exact List.Perm.refl _
  | some parents =>
    have edges := chainEdges_perm (ascending_ne_nil some) (parents.toList.map (backOf chains))
    rw [List.map_map] at edges
    exact edges

theorem map_serialEdges (nodes : List Nat) :
    (serialEdges nodes).map (fun e => (e.source, e.target)) = nodes.zip nodes.tail := by
  unfold serialEdges
  rw [List.map_map]
  exact List.map_id _

theorem zip_tail_eq_nil {nodes : List Nat} (few : nodes.length ≤ 1) :
    nodes.zip nodes.tail = [] := by
  match nodes, few with
  | [], _ => rfl
  | [a], _ => rfl

section serialised

variable {g : BoostGraph} {chains : Chains} {maps : DependencyMaps}
  (part : Partition g.numVertices chains) (built : buildDependencies g chains = .ok maps)
include part built

/-- `un_reverse_mapping` has an entry for the chains that depend on another one. -/
theorem parents_iff (j : Nat) : (∃ parents, maps.unReverseMapping[j]? = some parents) ↔
    ∃ p, ChainDep g chains p j := by
  constructor
  · rintro ⟨parents, entry⟩
    obtain ⟨_, _, _, _, _, reverse⟩ := buildDependencies_eq part built
    obtain ⟨p, member⟩ := reverseMappingSets_noEmptySet maps.unDependencies j parents
      (reverse ▸ entry)
    refine ⟨p, ?_⟩
    rw [← depends_iff_chainDep part built, ← unReverseMapping_converse part built]
    simpa [Depends, entry] using member
  · rintro ⟨p, depends⟩
    rw [← depends_iff_chainDep part built, ← unReverseMapping_converse part built] at depends
    obtain ⟨parents, entry, _⟩ := depends.exists_set
    exact ⟨parents, entry⟩

/-- An ILP edge inside a chain is a serial edge of a chain with parents. -/
theorem ilpEdge_inside {j : Nat} {e : ChainDependency}
    (member : e ∈ (List.range chains.length).flatMap (ilpEdges maps.unReverseMapping chains))
    (source : InChain chains j e.source) (target : InChain chains j e.target) :
    (∃ p, ChainDep g chains p j) ∧ e.source < e.target := by
  obtain ⟨j', _, made⟩ := List.mem_flatMap.mp member
  rcases ilpEdges_cases made with ⟨serial, parents, entry⟩ | ⟨p, depends, itsNodes, rfl⟩
  · have isJ : j' = j := part.unique (serialEdges_inChain serial).1 source
    subst isJ
    refine ⟨?_, serialEdges_pairwise (ascending_strict (part.chain_nodup j')) serial⟩
    exact (parents_iff part built j').mp ⟨parents, entry⟩
  · have full := parent_ne_nil part built depends
    have fromP : p = j := part.unique (backOf_mem full) source
    have toJ : j' = j := part.unique (frontOf_mem itsNodes) target
    rw [unReverseMapping_converse part built, depends_iff_chainDep part built, fromP, toJ] at depends
    exact absurd rfl depends.1

/-- The order of the nodes under which the ILP graph is the serialised chain graph. -/
def Serialisable (g : BoostGraph) (chains : Chains) : Prop :=
  ∀ j < chains.length, ((∃ p, ChainDep g chains p j) → (chains.getD j []).Pairwise (· < ·)) ∧
    ((¬ ∃ p, ChainDep g chains p j) → (chains.getD j []).length ≤ 1)

omit part built in
theorem Serialisable.ascending_eq (serialisable : Serialisable g chains) (j : Nat) :
    ascending (chains.getD j []) = chains.getD j [] := by
  rw [ascending_eq_iff]
  by_cases inside : j < chains.length
  · by_cases parents : ∃ p, ChainDep g chains p j
    · exact ((serialisable j inside).1 parents).imp Nat.le_of_lt
    · have few := (serialisable j inside).2 parents
      generalize chains.getD j [] = c at few
      match c, few with
      | [], _ => exact .nil
      | [a], _ => exact List.pairwise_singleton _ a
  · have empty : chains.getD j [] = [] := by
      simp [Nat.le_of_not_lt inside]
    rw [empty]
    exact .nil

/-- In that order the edges are those of the serialised chain graph. -/
theorem ilpEdges_serialised (nonempty : ∀ c ∈ chains, c ≠ [])
    (serialisable : Serialisable g chains) :
    (((List.range chains.length).flatMap (ilpEdges maps.unReverseMapping chains)).map
      fun e => (e.source, e.target)).Perm (serialisedEdges maps.unDependencies chains) := by
  refine ((ilpEdges_perm nonempty).map _).trans ?_
  rw [List.map_append]
  refine List.Perm.append (List.Perm.of_eq ?_) ?_
  · rw [List.map_flatMap, flatMap_eq_range]
    apply List.flatMap_congr
    intro j member
    by_cases entry : (maps.unReverseMapping[j]?).isSome
    · rw [if_pos entry, serialisable.ascending_eq, map_serialEdges]
    · rw [if_neg entry]
      have lone : ¬ ∃ p, ChainDep g chains p j := by
        rw [← parents_iff part built, ← Option.isSome_iff_exists]
        exact entry
      have few := (serialisable j (List.mem_range.mp member)).2 lone
      exact (zip_tail_eq_nil few).symm
  · have pairs := (dependents_perm (unReverseMapping_converse part built)
      fun s t => depends_lt_length part built).map fun e =>
      ((chains.getD e.1 []).getLastD 0, (chains.getD e.2 []).headD 0)
    simp only [List.map_flatMap, List.map_map, Function.comp_def] at pairs ⊢
    simpa only [backOf, frontOf, serialisable.ascending_eq] using pairs

omit part built in
/-- The serialised chain graph has the serial edges of every chain. -/
theorem serial_mem_serialisedEdges (un : ChainSets) {j : Nat} (inside : j < chains.length)
    {e : ChainDependency} (serial : e ∈ serialEdges (chains.getD j [])) :
    (e.source, e.target) ∈ serialisedEdges un chains := by
  have itself : chains.getD j [] = chains[j] := by simp [inside]
  refine List.mem_append_left _ (List.mem_flatMap.mpr ⟨chains[j], List.getElem_mem inside, ?_⟩)
  rw [← itself, ← map_serialEdges]
  exact List.mem_map_of_mem serial

/-- The edges of the serialised chain graph leave no other order. -/
theorem serialisable_of_perm
    (same : (((List.range chains.length).flatMap (ilpEdges maps.unReverseMapping chains)).map
      fun e => (e.source, e.target)).Perm (serialisedEdges maps.unDependencies chains)) :
    Serialisable g chains := by
  have inner : ∀ j < chains.length, ∀ e ∈ serialEdges (chains.getD j []),
      (∃ p, ChainDep g chains p j) ∧ e.source < e.target := by
    intro j inside e serial
    have listed := same.mem_iff.mpr (serial_mem_serialisedEdges maps.unDependencies inside serial)
    obtain ⟨e', member, isE⟩ := List.mem_map.mp listed
    have sameEdge : e' = e := by
      cases e
      cases e'
      cases isE
      rfl
    obtain ⟨source, target⟩ := mem_of_mem_serialEdges serial
    exact ilpEdge_inside part built (sameEdge ▸ member) source target
  intro j inside
  constructor
  · intro _
    exact pairwise_of_serialEdges fun e serial => (inner j inside e serial).2
  · intro lone
    by_contra long
    match nodes : chains.getD j [] with
    | [] =>
      rw [nodes] at long
      exact long (Nat.zero_le 1)
    | [a] =>
      rw [nodes] at long
      exact long (Nat.le_refl 1)
    | a :: b :: rest =>
      have serial : ⟨a, b⟩ ∈ serialEdges (chains.getD j []) := by
        rw [nodes, serialEdges_cons_cons]
        exact List.mem_cons_self
      exact lone (inner j inside _ serial).1

end serialised

/-- For every partition into non-empty chains and every chain graph with their
nodes, `buildILPGraph` makes the serialised chain graph exactly when the chains
without predecessors have one node and all others list their nodes in ascending
order. -/
theorem ilp_graph_serialised_iff (g : BoostGraph) (chains : Chains) (maps : DependencyMaps)
    (chainGraph : List ChainGraph) (write : Nat → VertexProp → VertexProp)
    (small : g.numVertices < 2 ^ 32) (part : Partition g.numVertices chains)
    (nonempty : ∀ c ∈ chains, c ≠ []) (built : buildDependencies g chains = .ok maps)
    (entries : (chainGraph.map fun m => (m.chainId, m.nodes)) =
      chains.zipIdx.map fun e => (e.2, e.1)) :
    ∃ graphs, buildILPGraph write g maps.unReverseMapping chainGraph = .ok graphs ∧
      (graphs.ilpGraph.edges.Perm (serialisedEdges maps.unDependencies chains) ↔
        Serialisable g chains) := by
  obtain ⟨graphs, ilp, _, _, edges, _⟩ := buildILPGraph_total
    (fun j p depends => parent_ne_nil part built depends) write small part (masked_of_entries entries)
  refine ⟨graphs, ilp, ?_⟩
  rw [edges]
  constructor
  · exact serialisable_of_perm part built
  · exact ilpEdges_serialised part built nonempty

theorem ilp_graph_serialised_doubledEdge :
    ∃ maps graphs, buildDependencies doubledEdge [[0], [1, 2]] = .ok maps ∧
      buildILPGraph (fun name p => { p with name }) doubledEdge maps.unReverseMapping
        (([[0], [1, 2]] : Chains).zipIdx.map fun e => chainGraphEntry doubledEdge maps e.1 e.2) =
          .ok graphs ∧
      graphs.ilpGraph.edges.Perm (serialisedEdges maps.unDependencies [[0], [1, 2]]) := by
  have part : Partition doubledEdge.numVertices [[0], [1, 2]] := by
    unfold Partition
    decide
  obtain ⟨maps, built⟩ := buildDependencies_total part
  obtain ⟨graphs, ilp, exactly⟩ := ilp_graph_serialised_iff doubledEdge [[0], [1, 2]] maps
    (([[0], [1, 2]] : Chains).zipIdx.map fun e => chainGraphEntry doubledEdge maps e.1 e.2)
    (fun name p => { p with name }) (by decide) part (by decide) built rfl
  refine ⟨maps, graphs, built, ilp, exactly.mpr ?_⟩
  have edge : ChainDep doubledEdge [[0], [1, 2]] 0 1 :=
    ⟨by decide, 0, 1, by decide, by decide, by decide⟩
  intro j inside
  match j, inside with
  | 0, _ =>
    refine ⟨fun _ => List.pairwise_singleton _ _, fun _ => Nat.le_refl 1⟩
  | 1, _ =>
    refine ⟨fun _ => by decide, fun lone => absurd ⟨0, edge⟩ lone⟩

/-- A start block with one instruction, beside two instructions in a chain that
depends on nothing. -/
def freeChain : BoostGraph where
  vertices := [⟨0, ⟨.bb, 0⟩, 0, .bb⟩, ⟨1, ⟨.other "Add", 1⟩, 1, .other "Add"⟩,
    ⟨2, ⟨.other "Mul", 2⟩, 2, .other "Mul"⟩, ⟨3, ⟨.other "Sub", 3⟩, 2, .other "Sub"⟩]
  edges := [(0, 1), (2, 3)]
  bounded := by decide

/-- `initialize` accepts the graph, and its ILP graph lacks the edge inside the free
chain. -/
theorem freeChain_not_serialised :
    ∃ graph graphs, initializeGraph ⟨0, 0, 0, 3⟩ (fun _ => some 1) freeChain = .ok graph ∧
      buildILPGraph (fun name p => { p with name }) graph.origGraph graph.maps.unReverseMapping
        graph.chainGraph = .ok graphs ∧
      graph.chains = [[0], [1], [2, 3]] ∧ graphs.ilpGraph.edges = [(0, 1)] ∧
      ¬ graphs.ilpGraph.edges.Perm (serialisedEdges graph.maps.unDependencies graph.chains) := by
  have evaluated : Loops.returns
      (fun graph : NewGraph => decide (graph.chains = [[0], [1], [2, 3]]) && Loops.returns
        (fun graphs : IlpGraphs VertexProp => decide (graphs.ilpGraph.edges = [(0, 1)]) &&
          !decide (graphs.ilpGraph.edges.Perm
            (serialisedEdges graph.maps.unDependencies graph.chains)))
        (buildILPGraph (fun name p => { p with name }) graph.origGraph graph.maps.unReverseMapping
          graph.chainGraph))
      (initializeGraph ⟨0, 0, 0, 3⟩ (fun _ => some 1) freeChain) = true := by
    decide +kernel
  obtain ⟨graph, accepted, facts⟩ := Loops.returns_iff.mp evaluated
  rw [Bool.and_eq_true, decide_eq_true_eq] at facts
  obtain ⟨graphs, ilp, edges⟩ := Loops.returns_iff.mp facts.2
  simp only [Bool.and_eq_true, decide_eq_true_eq, Bool.not_eq_true', decide_eq_false_iff_not]
    at edges
  exact ⟨graph, graphs, accepted, ilp, facts.1, edges.1, edges.2⟩

end ChainSaw
