import ChainSaw.IlpGraph

set_option autoImplicit false

namespace ChainSaw

open Std (TreeMap TreeSet)

/-- `vertex_prop` with the texts of the graph file. -/
structure VertexRecord where
  name : Nat
  label : String
  ch : String
  opcode : String
  color : String
  ir : String
deriving DecidableEq, Repr, Inhabited

/-- The assignments to `orig_graph[new_v]` in `buildILPGraph`. -/
def writeNop (name : Nat) (p : VertexRecord) : VertexRecord :=
  { p with name, label := "NOP", ch := "1", opcode := "NOP", color := "black" }

def opcodeOf (orig : AdjacencyList VertexRecord) (v : Nat) : String :=
  (orig.vertices[v]?.map (·.opcode)).getD ""

/-- `ch_op_list[k]` of `printChainStats`: the nodes of the chains of size `k`, those
of five and more nodes under 5. -/
def chOpList (chainGraph : List ChainGraph) (k : Nat) : List Nat :=
  chainGraph.flatMap fun ch => if (if ch.size < 5 then ch.size else 5) = k then ch.nodes else []

/-- The opcode histogram of the chains of size `k`. -/
def chainOpHisto (orig : AdjacencyList VertexRecord) (chainGraph : List ChainGraph) (k : Nat) :
    TreeMap String Nat :=
  (chOpList chainGraph k).foldl
    (fun hist v => hist.alter (opcodeOf orig v) (fun n => some (n.getD 0 + 1))) ∅

/-- The id and the nodes of each entry in `chains.json`, each node with its opcode. -/
def chainsJson (orig : AdjacencyList VertexRecord) (chainGraph : List ChainGraph) :
    List (Nat × List (String × Nat)) :=
  chainGraph.map fun ch => (ch.chainId, ch.nodes.map fun n => (opcodeOf orig n, n))

section map

variable {γ : Type} (part : ChainGraph → γ) (kept : ∀ m, part (sortNodes m) = part m)
include kept

theorem ilpChain_map {unReverseMapping : ChainSets} {s next : IlpState} {k : Nat}
    (returned : ilpChain unReverseMapping s k = .ok next) :
    next.chainGraph.map part = s.chainGraph.map part := by
  obtain ⟨ch, _, returned⟩ := Loops.bind_eq_ok.mp returned
  split at returned
  · cases returned
    rfl
  · obtain ⟨⟨chainGraph, parentSet⟩, looped, returned⟩ := Loops.bind_eq_ok.mp returned
    obtain ⟨ch', _, returned⟩ := Loops.bind_eq_ok.mp returned
    cases returned
    rw [map_modify_sortNodes part kept]
    refine Loops.foldlM_ok (fun t : List ChainGraph × List Nat =>
      t.1.map part = s.chainGraph.map part) _ ?_ rfl looped
    intro t same p _ next stepped
    obtain ⟨m, _, stepped⟩ := Loops.bind_eq_ok.mp stepped
    obtain ⟨back, _, stepped⟩ := Loops.bind_eq_ok.mp stepped
    cases stepped
    rw [map_updateChain part kept, same]

/-- `buildILPGraph` writes nothing but the order of nodes to the chain graph. -/
theorem buildILPGraph_map {P : Type} [Inhabited P] {write : Nat → P → P} {orig : AdjacencyList P}
    {unReverseMapping : ChainSets} {chainGraph : List ChainGraph} {graphs : IlpGraphs P}
    (returned : buildILPGraph write orig unReverseMapping chainGraph = .ok graphs) :
    graphs.chainGraph.map part = chainGraph.map part := by
  obtain ⟨s, looped, returned⟩ := Loops.bind_eq_ok.mp returned
  have same := Loops.foldlM_ok (fun s : IlpState => s.chainGraph.map part = chainGraph.map part) _
    (fun s same k _ next stepped => (ilpChain_map part kept stepped).trans same) rfl looped
  split at returned
  · obtain ⟨written, _, returned⟩ := Loops.bind_eq_ok.mp returned
    obtain ⟨ilp, _, returned⟩ := Loops.bind_eq_ok.mp returned
    cases returned
    exact same
  · cases returned

end map

theorem eq_of_nodes {chainGraph chainGraph' : List ChainGraph}
    (others : (chainGraph.map fun m => { m with nodes := [] }) =
      chainGraph'.map fun m => { m with nodes := [] })
    (nodes : chainGraph.map (·.nodes) = chainGraph'.map (·.nodes)) : chainGraph = chainGraph' := by
  induction chainGraph generalizing chainGraph' with
  | nil => exact (List.map_eq_nil_iff.mp nodes.symm).symm
  | cons m rest ih =>
    cases chainGraph' with
    | nil => cases nodes
    | cons m' rest' =>
      simp only [List.map_cons, List.cons.injEq] at others nodes
      obtain ⟨first, others⟩ := others
      have same : m = m' := by
        cases m
        cases m'
        simp_all
      rw [same, ih others nodes.2]

theorem AdjacencyList.eq_of_parts {P : Type} {g h : AdjacencyList P}
    (vertices : g.vertices = h.vertices) (edges : g.edges = h.edges) : g = h := by
  cases g
  cases h
  simp only at vertices edges
  subst vertices edges
  rfl

/-- Nothing that `printChainStats` reads later has changed. -/
structure Unchanged (orig : AdjacencyList VertexRecord) (chainGraph : List ChainGraph)
    (graphs : IlpGraphs VertexRecord) : Prop where
  vertices : graphs.origGraph.vertices = orig.vertices
  edges : graphs.origGraph.edges = orig.edges
  nodes : graphs.chainGraph.map (·.nodes) = chainGraph.map (·.nodes)
  histogram : ∀ k, chainOpHisto graphs.origGraph graphs.chainGraph k =
    chainOpHisto orig chainGraph k
  json : chainsJson graphs.origGraph graphs.chainGraph = chainsJson orig chainGraph

/-- The chains on either side of a dependency are in ascending order, and the
vertices are the records that `buildILPGraph` writes. -/
structure AlreadyNop (orig : AdjacencyList VertexRecord) (chains : Chains) : Prop where
  ordered : ∀ j < chains.length,
    ((∃ p, ChainDep orig chains p j) ∨ ∃ t, ChainDep orig chains j t) →
      (chains.getD j []).Pairwise (· < ·)
  records : ∀ (i name : Nat) (p : VertexRecord), chains.flatten[i]? = some name →
    orig.vertices[i]? = some p →
      p.name = name ∧ p.label = "NOP" ∧ p.ch = "1" ∧ p.opcode = "NOP" ∧ p.color = "black"

section exact

variable {orig : AdjacencyList VertexRecord} {chains : Chains} {un : ChainSets}
  (part : Partition orig.numVertices chains)
  (exactly : ∀ s t, Depends un s t ↔ ChainDep orig chains s t)

include exactly in
/-- The chains that are sorted are those with a predecessor or a dependent. -/
theorem touched_iff {j : Nat} (inside : j < chains.length) :
    touched (reverseMappingSets un) chains.length j = true ↔
      (∃ p, ChainDep orig chains p j) ∨ ∃ t, ChainDep orig chains j t := by
  have converse : ∀ k p, Depends (reverseMappingSets un) k p ↔ ChainDep orig chains p k := by
    intro k p
    rw [depends_reverseMappingSets, exactly]
  rw [touched_eq_true]
  constructor
  · rintro ⟨k, _, parents, entry, isK | isParent⟩
    · obtain ⟨p, member⟩ := reverseMappingSets_noEmptySet un k parents entry
      refine .inl ⟨p, isK ▸ (converse k p).mp ?_⟩
      simpa [Depends, entry] using member
    · refine .inr ⟨k, (converse k j).mp ?_⟩
      simpa [Depends, entry] using isParent
  · rintro (⟨p, depends⟩ | ⟨t, depends⟩)
    · obtain ⟨parents, entry, _⟩ := ((converse j p).mpr depends).exists_set
      exact ⟨j, inside, parents, entry, .inl rfl⟩
    · obtain ⟨parents, entry, member⟩ := ((converse t j).mpr depends).exists_set
      exact ⟨t, depends.lt_length.2, parents, entry, .inr member⟩

/-- A chain sorted in the first turns is sorted in the end. -/
theorem touched_mono {unReverseMapping : ChainSets} {k n j : Nat} (within : k ≤ n)
    (early : touched unReverseMapping k j = true) : touched unReverseMapping n j = true := by
  rw [touched_eq_true] at early ⊢
  obtain ⟨i, below, marked⟩ := early
  exact ⟨i, Nat.lt_of_lt_of_le below within, marked⟩

theorem writeNop_eq_iff {name : Nat} {p : VertexRecord} : writeNop name p = p ↔
    p.name = name ∧ p.label = "NOP" ∧ p.ch = "1" ∧ p.opcode = "NOP" ∧ p.color = "black" := by
  cases p
  simp only [writeNop, VertexRecord.mk.injEq, and_true]
  tauto

include exactly

include part in
/-- The node lists stay as they are exactly when no sorted chain is out of order. -/
theorem nodes_unchanged_iff {chainGraph : List ChainGraph}
    (masked : Masked chains (touched (reverseMappingSets un) chains.length) chainGraph) :
    chainGraph.map (·.nodes) = chains ↔ ∀ j < chains.length,
      ((∃ p, ChainDep orig chains p j) ∨ ∃ t, ChainDep orig chains j t) →
        (chains.getD j []).Pairwise (· < ·) := by
  have each : ∀ j (inside : j < chains.length), chains.getD j [] = chains[j] := by
    intro j inside
    simp [inside]
  rw [masked.nodes]
  constructor
  · intro same j inside linked
    have atJ := congrArg (·[j]?) same
    simp only [List.getElem?_map, List.getElem?_zipIdx, List.getElem?_eq_getElem inside,
      Option.map_some, Nat.zero_add, (touched_iff exactly inside).mpr linked, ↓reduceIte,
      Option.some.injEq] at atJ
    rw [each j inside, ← atJ]
    exact ascending_strict (each j inside ▸ part.chain_nodup j)
  · intro ordered
    apply List.ext_getElem
    · simp
    · intro j before inside
      simp only [List.getElem_map, List.getElem_zipIdx, Nat.zero_add]
      split
      · rename_i marked
        rw [ascending_eq_iff]
        have strict := ordered j inside ((touched_iff exactly inside).mp marked)
        exact (each j inside ▸ strict).imp Nat.le_of_lt
      · rfl

/-- In chains whose order is kept, the new vertices are the nodes in chain order. -/
theorem ilpVertices_eq (ordered : ∀ j < chains.length,
      ((∃ p, ChainDep orig chains p j) ∨ ∃ t, ChainDep orig chains j t) →
        (chains.getD j []).Pairwise (· < ·)) :
    (List.range chains.length).flatMap (ilpVertices (reverseMappingSets un) chains) =
      chains.flatten := by
  rw [flatten_eq_range]
  apply List.flatMap_congr
  intro j member
  have inside := List.mem_range.mp member
  unfold ilpVertices
  split
  · rename_i early
    have linked := (touched_iff exactly inside).mp (touched_mono inside early)
    exact ascending_eq_iff.mpr ((ordered j inside linked).imp Nat.le_of_lt)
  · rfl

end exact

/-- For every graph and partition into chains, and every chain graph with their
nodes: `buildILPGraph` returns, and leaves `orig_graph` and the node orders as they
were, with all that the statistics make of them, exactly when there was nothing
to change. -/
theorem ilp_no_effect_iff (orig : AdjacencyList VertexRecord) (chains : Chains) (un : ChainSets)
    (chainGraph : List ChainGraph) (small : orig.numVertices < 2 ^ 32)
    (part : Partition orig.numVertices chains) (generated : unDependenciesOf orig chains = .ok un)
    (entries : (chainGraph.map fun m => (m.chainId, m.nodes)) =
      chains.zipIdx.map fun e => (e.2, e.1)) :
    ∃ graphs, buildILPGraph writeNop orig (reverseMappingSets un) chainGraph = .ok graphs ∧
      (Unchanged orig chainGraph graphs ↔ AlreadyNop orig chains) := by
  have exactly : ∀ s t, Depends un s t ↔ ChainDep orig chains s t := by
    obtain ⟨un', generated', exactly⟩ := unDependenciesOf_total part
    rw [generated] at generated'
    cases generated'
    exact exactly
  have full : ∀ j p, Depends (reverseMappingSets un) j p → chains.getD p [] ≠ [] := by
    intro j p depends
    rw [depends_reverseMappingSets, exactly] at depends
    exact depends.source_ne_nil
  have masked := masked_of_entries entries
  obtain ⟨graphs, ilp, marked, _, _, edges, length, written⟩ := buildILPGraph_total full writeNop
    small part masked
  have before : chainGraph.map (·.nodes) = chains := by
    rw [masked.nodes]
    simp
  refine ⟨graphs, ilp, ?_, ?_⟩
  · intro unchanged
    have ordered := (nodes_unchanged_iff part exactly marked).mp (unchanged.nodes.trans before)
    refine ⟨ordered, ?_⟩
    intro i name p atI found
    have same := written i
    rw [unchanged.vertices, ilpVertices_eq exactly ordered, atI, found] at same
    exact writeNop_eq_iff.mp (Option.some.inj same).symm
  · intro already
    have nodes := (nodes_unchanged_iff part exactly marked).mpr already.ordered
    have sameChains : graphs.chainGraph = chainGraph :=
      eq_of_nodes (buildILPGraph_map _ (fun _ => rfl) ilp) (nodes.trans before.symm)
    have vertices : graphs.origGraph.vertices = orig.vertices := by
      apply List.ext_getElem?
      intro i
      rw [written, ilpVertices_eq exactly already.ordered]
      cases found : orig.vertices[i]? with
      | none => rfl
      | some p =>
        cases atI : chains.flatten[i]? with
        | none => rfl
        | some name => exact congrArg some (writeNop_eq_iff.mpr (already.records i name p atI found))
    have sameGraph := AdjacencyList.eq_of_parts vertices edges
    constructor
    · exact vertices
    · exact edges
    · rw [sameChains]
    · intro k
      rw [sameGraph, sameChains]
    · rw [sameGraph, sameChains]

/-- Two instructions that are already empty, one after the other. -/
def nopPair : AdjacencyList VertexRecord where
  vertices := [⟨0, "NOP", "1", "NOP", "black", ""⟩, ⟨1, "NOP", "1", "NOP", "black", ""⟩]
  edges := [(0, 1)]
  bounded := by decide

theorem ilp_no_effect_nopPair :
    ∃ un graphs, unDependenciesOf nopPair [[0], [1]] = .ok un ∧
      buildILPGraph writeNop nopPair (reverseMappingSets un)
        [⟨0, 0, 1, 0, 1, 0, 1, 0, false, [0]⟩, ⟨1, 1, 1, 1, 0, 1, 0, 1, false, [1]⟩] = .ok graphs ∧
      Unchanged nopPair
        [⟨0, 0, 1, 0, 1, 0, 1, 0, false, [0]⟩, ⟨1, 1, 1, 1, 0, 1, 0, 1, false, [1]⟩] graphs := by
  have part : Partition nopPair.numVertices [[0], [1]] := by
    unfold Partition
    decide
  obtain ⟨un, generated, _⟩ := unDependenciesOf_total part
  obtain ⟨graphs, ilp, exactly⟩ := ilp_no_effect_iff nopPair [[0], [1]] un
    [⟨0, 0, 1, 0, 1, 0, 1, 0, false, [0]⟩, ⟨1, 1, 1, 1, 0, 1, 0, 1, false, [1]⟩] (by decide) part
    generated rfl
  refine ⟨un, graphs, generated, ilp, exactly.mpr ⟨?_, ?_⟩⟩
  · intro j inside _
    match j, inside with
    | 0, _ => exact List.pairwise_singleton _ _
    | 1, _ => exact List.pairwise_singleton _ _
  · intro i name p atI found
    match i with
    | 0 =>
      cases atI
      cases found
      exact ⟨rfl, rfl, rfl, rfl, rfl⟩
    | 1 =>
      cases atI
      cases found
      exact ⟨rfl, rfl, rfl, rfl, rfl⟩
    | i + 2 => simp at atI

/-- A start block and an addition. -/
def startAndAdd : AdjacencyList VertexRecord where
  vertices := [⟨0, "BB(0)", "0", "BB", "red", ""⟩, ⟨1, "Add(1)", "1", "Add", "blue", ""⟩]
  edges := [(0, 1)]
  bounded := by decide

/-- After `buildILPGraph` the statistics report empty instructions. -/
theorem startAndAdd_overwritten :
    Partition startAndAdd.numVertices [[0], [1]] ∧
      ∃ un graphs, unDependenciesOf startAndAdd [[0], [1]] = .ok un ∧
        buildILPGraph writeNop startAndAdd (reverseMappingSets un)
          [⟨0, 0, 1, 0, 1, 0, 1, 0, false, [0]⟩, ⟨1, 1, 1, 1, 0, 1, 0, 1, false, [1]⟩] = .ok graphs ∧
        chainsJson startAndAdd
          [⟨0, 0, 1, 0, 1, 0, 1, 0, false, [0]⟩, ⟨1, 1, 1, 1, 0, 1, 0, 1, false, [1]⟩] =
            [(0, [("BB", 0)]), (1, [("Add", 1)])] ∧
        chainsJson graphs.origGraph graphs.chainGraph = [(0, [("NOP", 0)]), (1, [("NOP", 1)])] ∧
        ¬ Unchanged startAndAdd
          [⟨0, 0, 1, 0, 1, 0, 1, 0, false, [0]⟩, ⟨1, 1, 1, 1, 0, 1, 0, 1, false, [1]⟩] graphs := by
  have part : Partition startAndAdd.numVertices [[0], [1]] := by
    unfold Partition
    decide
  refine ⟨part, ?_⟩
  have evaluated : Loops.returns
      (fun un => Loops.returns
        (fun graphs : IlpGraphs VertexRecord => decide (chainsJson graphs.origGraph graphs.chainGraph =
          [(0, [("NOP", 0)]), (1, [("NOP", 1)])]))
        (buildILPGraph writeNop startAndAdd (reverseMappingSets un)
          [⟨0, 0, 1, 0, 1, 0, 1, 0, false, [0]⟩, ⟨1, 1, 1, 1, 0, 1, 0, 1, false, [1]⟩]))
      (unDependenciesOf startAndAdd [[0], [1]]) = true := by
    decide +kernel
  obtain ⟨un, generated, built⟩ := Loops.returns_iff.mp evaluated
  obtain ⟨graphs, ilp, json⟩ := Loops.returns_iff.mp built
  have written := of_decide_eq_true json
  refine ⟨un, graphs, generated, ilp, rfl, written, ?_⟩
  intro unchanged
  have same := unchanged.json
  rw [written] at same
  exact absurd same (by decide)

end ChainSaw
