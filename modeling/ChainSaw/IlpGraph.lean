import ChainSaw.BlockStructure
import Mathlib.Data.List.Sort

set_option autoImplicit false

namespace ChainSaw

open Std (TreeMap TreeSet)
open Relation (TransGen ReflTransGen)
open Relations (Acyclic)

/-- `std::sort(nodes.begin(), nodes.end())` on the nodes of a chain. -/
def sortNodes (m : ChainGraph) : ChainGraph :=
  { m with nodes := m.nodes.insertionSort (· ≤ ·) }

/-- One parent: its nodes are sorted in place and the last one is taken. -/
def parentBack (s : List ChainGraph × List Nat) (chP : Nat) : Result (List ChainGraph × List Nat) := do
  let p ← findChain s.1 chP
  let back ← deref (sortNodes p).nodes.getLast?
  pure (updateChain chP sortNodes s.1, s.2 ++ [back])

/-- The edges of one chain. Those from its parents come with its first node. -/
def chainEdges (nodes parentSet : List Nat) : List ChainDependency :=
  (List.range nodes.length).flatMap fun i =>
    (if i < nodes.length - 1 then [⟨nodes.getD i 0, nodes.getD (i + 1) 0⟩] else []) ++
      if i = 0 then parentSet.map fun tP => ⟨tP, nodes.getD 0 0⟩ else []

/-- The variables of the loop over `chain_graph`. -/
structure IlpState where
  chainGraph : List ChainGraph
  newEdges : List ChainDependency
  newVertices : List Nat

/-- One turn of the loop; `ch` refers to position `k` of the vector. A chain
without an entry in `un_reverse_mapping` gives its nodes and no edge. -/
def ilpChain (unReverseMapping : ChainSets) (s : IlpState) (k : Nat) : Result IlpState := do
  let ch ← deref s.chainGraph[k]?
  match unReverseMapping[ch.chainId]? with
  | none => pure { s with newVertices := s.newVertices ++ ch.nodes }
  | some parents => do
    let (chainGraph, parentSet) ← parents.toList.foldlM parentBack (s.chainGraph, [])
    let chainGraph := chainGraph.modify k sortNodes
    let ch ← deref chainGraph[k]?
    pure { chainGraph
           newEdges := s.newEdges ++ chainEdges ch.nodes parentSet
           newVertices := s.newVertices ++ ch.nodes }

/-- A write through the descriptor of a vertex. -/
def AdjacencyList.modifyVertex {P : Type} (g : AdjacencyList P) (v : Nat) (f : P → P) :
    AdjacencyList P where
  vertices := g.vertices.modify v f
  edges := g.edges
  bounded := by
    rw [List.length_modify]
    exact g.bounded

/-- What `buildILPGraph` changes. -/
structure IlpGraphs (P : Type) where
  origGraph : AdjacencyList P
  ilpGraph : AdjacencyList P
  chainGraph : List ChainGraph

/-- `buildILPGraph`, on any type of vertex records: `write name` stands for the
five assignments to the fields of `orig_graph[new_v]`. The loop over the new
vertices counts in a `uint32_t`. -/
def buildILPGraph {P : Type} [Inhabited P] (write : Nat → P → P) (orig : AdjacencyList P)
    (unReverseMapping : ChainSets) (chainGraph : List ChainGraph) : Result (IlpGraphs P) := do
  let s ← (List.range chainGraph.length).foldlM (ilpChain unReverseMapping) ⟨chainGraph, [], []⟩
  if s.newVertices.length < 2 ^ 32 then
    let orig ← s.newVertices.zipIdx.foldlM
      (fun orig e => if e.2 < orig.numVertices then .ok (orig.modifyVertex e.2 (write e.1))
        else .error .outOfRange) orig
    let vMap : TreeMap Nat Nat :=
      (List.range s.newVertices.length).foldl (fun vMap i => vMap.insertIfNew i i) ∅
    let ilp ← s.newEdges.foldlM
      (fun ilp edge => do
        let source ← deref vMap[edge.source]?
        let target ← deref vMap[edge.target]?
        pure (ilp.addEdge source target))
      (AdjacencyList.ofVertices (List.replicate s.newVertices.length default))
    pure { origGraph := orig, ilpGraph := ilp, chainGraph := s.chainGraph }
  else .error .diverges

/-- The nodes of a chain in ascending order. -/
def ascending (c : List Nat) : List Nat := c.insertionSort (· ≤ ·)

theorem ascending_perm (c : List Nat) : (ascending c).Perm c := List.perm_insertionSort _ c

theorem ascending_pairwise (c : List Nat) : (ascending c).Pairwise (· ≤ ·) :=
  List.pairwise_insertionSort (· ≤ ·) c

theorem ascending_eq_iff {c : List Nat} : ascending c = c ↔ c.Pairwise (· ≤ ·) := by
  constructor
  · intro same
    exact same ▸ ascending_pairwise c
  · exact List.Pairwise.insertionSort_eq

theorem ascending_ascending (c : List Nat) : ascending (ascending c) = ascending c :=
  ascending_eq_iff.mpr (ascending_pairwise c)

theorem ascending_strict {c : List Nat} (once : c.Nodup) : (ascending c).Pairwise (· < ·) := by
  have distinct : (ascending c).Pairwise (· ≠ ·) := (ascending_perm c).nodup_iff.mpr once
  exact ((ascending_pairwise c).and distinct).imp fun both => lt_of_le_of_ne both.1 both.2

theorem ascending_ne_nil {c : List Nat} (nonempty : c ≠ []) : ascending c ≠ [] := by
  intro empty
  exact nonempty (List.Perm.nil_eq (empty ▸ ascending_perm c)).symm

theorem sortNodes_nodes {m : ChainGraph} {mask : Bool} {nodes : List Nat}
    (its : m.nodes = if mask then ascending nodes else nodes) :
    (sortNodes m).nodes = ascending nodes := by
  show ascending m.nodes = ascending nodes
  rw [its]
  split
  · exact ascending_ascending nodes
  · rfl

/-- The chain graph of `chains`, with the chains that `mask` marks sorted. -/
structure Masked (chains : Chains) (mask : Nat → Bool) (chainGraph : List ChainGraph) : Prop where
  ids : chainGraph.map (·.chainId) = List.range chains.length
  nodes : chainGraph.map (·.nodes) =
    chains.zipIdx.map fun e => if mask e.2 then ascending e.1 else e.1

theorem masked_of_entries {chains : Chains} {chainGraph : List ChainGraph}
    (entries : (chainGraph.map fun m => (m.chainId, m.nodes)) =
      chains.zipIdx.map fun e => (e.2, e.1)) :
    Masked chains (fun _ => false) chainGraph := by
  have ids := congrArg (List.map Prod.fst) entries
  have nodes := congrArg (List.map Prod.snd) entries
  rw [List.map_map, List.map_map] at ids nodes
  constructor
  · refine ids.trans ?_
    rw [List.range_eq_range', ← List.zipIdx_map_snd 0 chains]
    rfl
  · exact nodes

section masked

variable {chains : Chains} {mask : Nat → Bool} {chainGraph : List ChainGraph}

theorem Masked.length (masked : Masked chains mask chainGraph) :
    chainGraph.length = chains.length := by
  simpa using congrArg List.length masked.ids

theorem Masked.get (masked : Masked chains mask chainGraph) {c : Nat} {nodes : List Nat}
    (found : chains[c]? = some nodes) :
    ∃ m, chainGraph[c]? = some m ∧ m.chainId = c ∧
      m.nodes = if mask c then ascending nodes else nodes := by
  have bound : c < chainGraph.length := by
    rw [masked.length]
    exact (List.getElem?_eq_some_iff.mp found).1
  refine ⟨chainGraph[c], List.getElem?_eq_getElem bound, ?_, ?_⟩
  · have atC := congrArg (·[c]?) masked.ids
    simp only [List.getElem?_map, List.getElem?_eq_getElem bound, Option.map_some] at atC
    rw [List.getElem?_range (masked.length ▸ bound)] at atC
    exact Option.some.inj atC
  · have atC := congrArg (·[c]?) masked.nodes
    simp only [List.getElem?_map, List.getElem?_eq_getElem bound, Option.map_some,
      List.getElem?_zipIdx, found, Nat.zero_add] at atC
    exact Option.some.inj atC

/-- The chain with id `c` stands at position `c`. -/
theorem find?_range' {b : Nat} (ids : chainGraph.map (·.chainId) = List.range' b chainGraph.length)
    (c : Nat) : chainGraph.find? (fun m => m.chainId == b + c) = chainGraph[c]? := by
  induction chainGraph generalizing b c with
  | nil => rfl
  | cons m rest ih =>
    rw [List.map_cons, List.length_cons, List.range'_succ, List.cons.injEq] at ids
    cases c with
    | zero => simp [ids.1]
    | succ c =>
      have other : (m.chainId == b + (c + 1)) = false := by
        rw [ids.1]
        simp
      rw [List.find?_cons_of_neg (by simp [other]), List.getElem?_cons_succ, ← ih ids.2 c]
      congr 1
      funext m
      rw [Nat.add_assoc, Nat.add_comm 1 c]

theorem updateChain_range' {b : Nat} (f : ChainGraph → ChainGraph)
    (ids : chainGraph.map (·.chainId) = List.range' b chainGraph.length) (c : Nat) :
    updateChain (b + c) f chainGraph = chainGraph.modify c f := by
  induction chainGraph generalizing b c with
  | nil => cases c <;> rfl
  | cons m rest ih =>
    rw [List.map_cons, List.length_cons, List.range'_succ, List.cons.injEq] at ids
    unfold updateChain
    cases c with
    | zero => simp [ids.1]
    | succ c =>
      rw [if_neg (by omega), List.modify_succ_cons, ← ih ids.2 c, Nat.add_assoc, Nat.add_comm 1 c]

theorem Masked.range' (masked : Masked chains mask chainGraph) :
    chainGraph.map (·.chainId) = List.range' 0 chainGraph.length := by
  rw [masked.ids, masked.length, List.range_eq_range']

theorem Masked.findChain (masked : Masked chains mask chainGraph) {c : Nat} {nodes : List Nat}
    (found : chains[c]? = some nodes) :
    ∃ m, findChain chainGraph c = .ok m ∧ m.nodes = if mask c then ascending nodes else nodes := by
  obtain ⟨m, atC, _, its⟩ := masked.get found
  refine ⟨m, ?_, its⟩
  have byId := find?_range' masked.range' c
  rw [Nat.zero_add, atC] at byId
  exact deref_eq_ok.mpr byId

theorem map_modify_sortNodes {γ : Type} (part : ChainGraph → γ)
    (kept : ∀ m, part (sortNodes m) = part m) (k : Nat) (chainGraph : List ChainGraph) :
    (chainGraph.modify k sortNodes).map part = chainGraph.map part := by
  apply List.ext_getElem?
  intro i
  rw [List.getElem?_map, List.getElem?_map, List.getElem?_modify]
  cases chainGraph[i]? with
  | none => rfl
  | some m =>
    by_cases same : k = i
    · simp [same, kept]
    · simp [same]

theorem Masked.modify (masked : Masked chains mask chainGraph) (c : Nat) :
    Masked chains (fun d => mask d || d == c) (chainGraph.modify c sortNodes) where
  ids := by
    rw [map_modify_sortNodes (·.chainId) (fun _ => rfl)]
    exact masked.ids
  nodes := by
    apply List.ext_getElem?
    intro i
    rw [List.getElem?_map, List.getElem?_modify, List.getElem?_map, List.getElem?_zipIdx]
    cases found : chains[i]? with
    | none =>
      have beyond : chainGraph[i]? = none := by
        rw [List.getElem?_eq_none_iff, masked.length]
        exact List.getElem?_eq_none_iff.mp found
      simp [beyond]
    | some nodes =>
      obtain ⟨m, atI, _, its⟩ := masked.get found
      rw [atI]
      by_cases same : c = i
      · subst same
        simp [sortNodes_nodes its]
      · simp [same, Ne.symm same, its]

theorem Masked.updateChain (masked : Masked chains mask chainGraph) (c : Nat) :
    Masked chains (fun d => mask d || d == c) (updateChain c sortNodes chainGraph) := by
  have byId := updateChain_range' sortNodes masked.range' c
  rw [Nat.zero_add] at byId
  exact byId ▸ masked.modify c

theorem Masked.congr (masked : Masked chains mask chainGraph) {mask' : Nat → Bool}
    (same : ∀ d, mask d = mask' d) : Masked chains mask' chainGraph := by
  have equal : mask = mask' := funext same
  exact equal ▸ masked

/-- The last node of chain `p` in ascending order. -/
def backOf (chains : Chains) (p : Nat) : Nat := (ascending (chains.getD p [])).getLastD 0

/-- The first node of chain `j` in ascending order. -/
def frontOf (chains : Chains) (j : Nat) : Nat := (ascending (chains.getD j [])).headD 0

theorem getElem?_of_getD_ne_nil {p : Nat} (nonempty : chains.getD p [] ≠ []) :
    chains[p]? = some (chains.getD p []) := by
  rw [List.getD_eq_getElem?_getD] at nonempty ⊢
  cases found : chains[p]? with
  | none => simp [found] at nonempty
  | some nodes => rfl

theorem getLast?_ascending {p : Nat} (nonempty : chains.getD p [] ≠ []) :
    (ascending (chains.getD p [])).getLast? = some (backOf chains p) := by
  unfold backOf
  have some := ascending_ne_nil nonempty
  rw [List.getLast?_eq_some_getLast some, List.getLastD_eq_getLast?,
    List.getLast?_eq_some_getLast some]
  rfl

theorem backOf_mem {p : Nat} (nonempty : chains.getD p [] ≠ []) : InChain chains p (backOf chains p) :=
  (ascending_perm _).mem_iff.mp (List.mem_of_getLast? (getLast?_ascending nonempty))

theorem frontOf_mem {j : Nat} (nonempty : chains.getD j [] ≠ []) :
    InChain chains j (frontOf chains j) := by
  refine (ascending_perm _).mem_iff.mp ?_
  have some := ascending_ne_nil nonempty
  unfold frontOf
  cases sorted : ascending (chains.getD j []) with
  | nil => exact absurd sorted some
  | cons a rest => simp

/-- The loop over the parents sorts them and collects their last nodes. -/
theorem parentBacks_total (parents : List Nat)
    (full : ∀ p ∈ parents, chains.getD p [] ≠ []) :
    ∀ mask chainGraph parentSet, Masked chains mask chainGraph →
      ∃ final, parents.foldlM parentBack (chainGraph, parentSet) =
          .ok (final, parentSet ++ parents.map (backOf chains)) ∧
        Masked chains (fun d => mask d || parents.contains d) final := by
  induction parents with
  | nil =>
    intro mask chainGraph parentSet masked
    exact ⟨chainGraph, by simp, masked.congr (by simp)⟩
  | cons p rest ih =>
    intro mask chainGraph parentSet masked
    have nonempty := full p (by simp)
    obtain ⟨m, foundP, its⟩ := masked.findChain (getElem?_of_getD_ne_nil nonempty)
    have back := getLast?_ascending nonempty
    have turn : parentBack (chainGraph, parentSet) p =
        .ok (ChainSaw.updateChain p sortNodes chainGraph, parentSet ++ [backOf chains p]) := by
      unfold parentBack
      rw [foundP, Loops.ok_bind, sortNodes_nodes its, back]
      rfl
    obtain ⟨final, looped, marked⟩ := ih (fun q member => full q (by simp [member])) _ _
      (parentSet ++ [backOf chains p]) (masked.updateChain p)
    refine ⟨final, ?_, marked.congr ?_⟩
    · rw [Loops.foldlM_cons_ok.mpr ⟨_, turn, looped⟩]
      simp
    · intro d
      rw [List.contains_cons, Bool.or_assoc]

end masked

/-- Chain `c` has been sorted in one of the first `k` turns: as a chain with
parents or as one of the parents. -/
def touched (unReverseMapping : ChainSets) (k c : Nat) : Bool :=
  (List.range k).any fun j => match unReverseMapping[j]? with
    | none => false
    | some parents => c == j || parents.toList.contains c

/-- The edges that the turn of chain `j` makes. -/
def ilpEdges (unReverseMapping : ChainSets) (chains : Chains) (j : Nat) : List ChainDependency :=
  match unReverseMapping[j]? with
  | none => []
  | some parents =>
    chainEdges (ascending (chains.getD j [])) (parents.toList.map (backOf chains))

/-- The vertices that the turn of chain `j` makes. -/
def ilpVertices (unReverseMapping : ChainSets) (chains : Chains) (j : Nat) : List Nat :=
  if touched unReverseMapping (j + 1) j then ascending (chains.getD j []) else chains.getD j []

theorem touched_eq_true {unReverseMapping : ChainSets} {k c : Nat} :
    touched unReverseMapping k c = true ↔ ∃ j < k, ∃ parents,
      unReverseMapping[j]? = some parents ∧ (c = j ∨ c ∈ parents) := by
  unfold touched
  rw [List.any_eq_true]
  constructor
  · rintro ⟨j, member, marked⟩
    cases entry : unReverseMapping[j]? with
    | none => simp [entry] at marked
    | some parents =>
      rw [entry] at marked
      exact ⟨j, List.mem_range.mp member, parents, entry, by simpa using marked⟩
  · rintro ⟨j, below, parents, entry, either⟩
    refine ⟨j, List.mem_range.mpr below, ?_⟩
    rw [entry]
    simpa using either

theorem touched_succ (unReverseMapping : ChainSets) (k c : Nat) :
    touched unReverseMapping (k + 1) c = (touched unReverseMapping k c ||
      match unReverseMapping[k]? with
      | none => false
      | some parents => c == k || parents.toList.contains c) := by
  unfold touched
  rw [List.range_succ, List.any_append]
  simp

section loop

variable {unReverseMapping : ChainSets} {chains : Chains}
  (full : ∀ j p, Depends unReverseMapping j p → chains.getD p [] ≠ [])
include full

theorem ilpChain_total {s : IlpState} {k : Nat} (inside : k < chains.length)
    (masked : Masked chains (touched unReverseMapping k) s.chainGraph) :
    ∃ chainGraph, ilpChain unReverseMapping s k = .ok
        ⟨chainGraph, s.newEdges ++ ilpEdges unReverseMapping chains k,
          s.newVertices ++ ilpVertices unReverseMapping chains k⟩ ∧
      Masked chains (touched unReverseMapping (k + 1)) chainGraph := by
  have found := List.getElem?_eq_getElem inside
  have nodes : chains.getD k [] = chains[k] := getD_of_found found
  obtain ⟨ch, atK, itsId, its⟩ := masked.get found
  unfold ilpChain ilpEdges ilpVertices
  rw [atK, nodes, touched_succ]
  simp only [deref, Loops.ok_bind, itsId]
  cases entry : unReverseMapping[k]? with
  | none =>
    refine ⟨s.chainGraph, by simp [its], masked.congr fun d => ?_⟩
    rw [touched_succ, entry]
    simp
  | some parents =>
    have parentsFull : ∀ p ∈ parents.toList, chains.getD p [] ≠ [] :=
      fun p member => full k p (by simpa [Depends, entry] using member)
    obtain ⟨sorted, looped, marked⟩ := parentBacks_total parents.toList parentsFull _ _ [] masked
    have final := marked.modify k
    obtain ⟨ch', atK', _, its'⟩ := final.get found
    refine ⟨sorted.modify k sortNodes, ?_, final.congr fun d => ?_⟩
    · simp only [looped, Loops.ok_bind, atK', Loops.pure_eq_ok]
      simp at its'
      simp [its']
    · rw [touched_succ, entry, Bool.or_assoc, Bool.or_comm (parents.toList.contains d)]

/-- What the loop over all chains leaves. -/
theorem ilpChains_total {chainGraph : List ChainGraph}
    (masked : Masked chains (fun _ => false) chainGraph) :
    ∃ final, (List.range chainGraph.length).foldlM (ilpChain unReverseMapping) ⟨chainGraph, [], []⟩ =
        .ok ⟨final, (List.range chains.length).flatMap (ilpEdges unReverseMapping chains),
          (List.range chains.length).flatMap (ilpVertices unReverseMapping chains)⟩ ∧
      Masked chains (touched unReverseMapping chains.length) final := by
  rw [masked.length]
  suffices general : ∀ k ≤ chains.length, ∃ final,
      (List.range k).foldlM (ilpChain unReverseMapping) ⟨chainGraph, [], []⟩ =
        .ok ⟨final, (List.range k).flatMap (ilpEdges unReverseMapping chains),
          (List.range k).flatMap (ilpVertices unReverseMapping chains)⟩ ∧
      Masked chains (touched unReverseMapping k) final by
    exact general chains.length (Nat.le_refl _)
  intro k
  induction k with
  | zero =>
    intro _
    exact ⟨chainGraph, rfl, masked.congr fun _ => rfl⟩
  | succ k ih =>
    intro within
    obtain ⟨before, looped, marked⟩ := ih (by omega)
    obtain ⟨final, turn, marked'⟩ := ilpChain_total full (by omega) (s := ⟨before, _, _⟩) marked
    refine ⟨final, ?_, marked'⟩
    rw [List.range_succ, List.foldlM_append, looped, Loops.ok_bind, List.foldlM_cons, turn]
    simp

end loop

/-- One edge between each two consecutive nodes. -/
def serialEdges (nodes : List Nat) : List ChainDependency :=
  (nodes.zip nodes.tail).map fun e => ⟨e.1, e.2⟩

theorem serialEdges_cons_cons (a b : Nat) (rest : List Nat) :
    serialEdges (a :: b :: rest) = ⟨a, b⟩ :: serialEdges (b :: rest) := rfl

theorem serial_eq (nodes : List Nat) :
    ((List.range nodes.length).flatMap fun i => if i < nodes.length - 1 then
      [(⟨nodes.getD i 0, nodes.getD (i + 1) 0⟩ : ChainDependency)] else []) =
      serialEdges nodes := by
  induction nodes with
  | nil => rfl
  | cons a rest ih =>
    cases rest with
    | nil => rfl
    | cons b rest =>
      rw [serialEdges_cons_cons, ← ih, List.length_cons, List.range_succ_eq_map, List.flatMap_cons,
        List.flatMap_map]
      simp

/-- The edges of a chain with nodes: the serial ones, and one from each parent to
the first node. -/
theorem chainEdges_perm {nodes : List Nat} (nonempty : nodes ≠ []) (parentSet : List Nat) :
    (chainEdges nodes parentSet).Perm
      (serialEdges nodes ++ parentSet.map fun tP => ⟨tP, nodes.headD 0⟩) := by
  unfold chainEdges
  refine (List.flatMap_append_perm _ _ _).symm.trans ?_
  rw [serial_eq]
  refine List.Perm.append_left _ (List.Perm.of_eq ?_)
  cases nodes with
  | nil => exact absurd rfl nonempty
  | cons a rest =>
    rw [List.length_cons, List.range_succ_eq_map, List.flatMap_cons, List.flatMap_map]
    simp

theorem mem_of_mem_serialEdges {nodes : List Nat} {e : ChainDependency}
    (member : e ∈ serialEdges nodes) : e.source ∈ nodes ∧ e.target ∈ nodes := by
  obtain ⟨⟨a, b⟩, zipped, rfl⟩ := List.mem_map.mp member
  obtain ⟨inFirst, inTail⟩ := List.of_mem_zip zipped
  exact ⟨inFirst, List.mem_of_mem_tail inTail⟩

theorem mem_chainEdges {nodes : List Nat} (nonempty : nodes ≠ []) {parentSet : List Nat}
    {e : ChainDependency} : e ∈ chainEdges nodes parentSet ↔
      e ∈ serialEdges nodes ∨ e.source ∈ parentSet ∧ e.target = nodes.headD 0 := by
  rw [(chainEdges_perm nonempty parentSet).mem_iff, List.mem_append]
  apply or_congr_right
  rw [List.mem_map]
  constructor
  · rintro ⟨tP, listed, rfl⟩
    exact ⟨listed, rfl⟩
  · rintro ⟨listed, isHead⟩
    exact ⟨e.source, listed, by rw [← isHead]⟩

/-- The new vertices are the nodes of the chains. -/
theorem ilpVertices_perm (unReverseMapping : ChainSets) (chains : Chains) :
    ((List.range chains.length).flatMap (ilpVertices unReverseMapping chains)).Perm
      chains.flatten := by
  rw [flatten_eq_range]
  apply List.Perm.flatMap_left
  intro j _
  unfold ilpVertices
  split
  · exact ascending_perm _
  · exact List.Perm.refl _

/-- `v_map` is the identity on the new vertices. -/
theorem insertIfNew_range (n : Nat) : ∀ i : Nat,
    ((List.range n).foldl (fun (vMap : TreeMap Nat Nat) i => vMap.insertIfNew i i) ∅)[i]? =
      if i < n then some i else none := by
  induction n with
  | zero => simp
  | succ n ih =>
    intro i
    have absent : n ∉ (List.range n).foldl
        (fun (vMap : TreeMap Nat Nat) i => vMap.insertIfNew i i) ∅ := by
      rw [← TreeMap.isSome_getElem?_iff_mem, ih]
      simp
    rw [List.range_succ, List.foldl_append, List.foldl_cons, List.foldl_nil,
      TreeMap.getElem?_insertIfNew, ih]
    simp only [absent, Nat.compare_eq_eq, not_false_eq_true, and_true]
    split
    · rename_i same
      rw [if_pos (by omega), same]
    · rename_i other
      by_cases below : i < n
      · rw [if_pos below, if_pos (by omega)]
      · rw [if_neg below, if_neg (by omega)]

section writing

variable {P : Type}

/-- The loop that writes through `orig_graph[new_v]`. -/
theorem writeVertices_total (write : Nat → P → P) (orig : AdjacencyList P) (names : List Nat)
    (within : names.length ≤ orig.numVertices) :
    ∃ final, names.zipIdx.foldlM (fun orig e => if e.2 < orig.numVertices
        then Except.ok (orig.modifyVertex e.2 (write e.1)) else .error Fault.outOfRange) orig =
        .ok final ∧
      final.edges = orig.edges ∧ final.vertices.length = orig.vertices.length ∧
      ∀ i : Nat, final.vertices[i]? =
        orig.vertices[i]?.map fun p => (names[i]?.map fun name => write name p).getD p := by
  induction names using List.reverseRecOn with
  | nil => exact ⟨orig, rfl, rfl, rfl, by simp⟩
  | append_singleton names name ih =>
    rw [List.length_append, List.length_singleton] at within
    obtain ⟨before, looped, edges, length, each⟩ := ih (by omega)
    have inside : names.length < before.numVertices := by
      unfold AdjacencyList.numVertices at within ⊢
      omega
    refine ⟨before.modifyVertex names.length (write name), ?_, edges, ?_, ?_⟩
    · rw [List.zipIdx_append, List.foldlM_append, looped]
      simp [inside]
    · simp [AdjacencyList.modifyVertex, length]
    · intro i
      simp only [AdjacencyList.modifyVertex, List.getElem?_modify, each]
      by_cases here : names.length = i
      · subst here
        simp
      · cases orig.vertices[i]? with
        | none => rfl
        | some p =>
          by_cases early : i < names.length
          · simp [here, List.getElem?_append_left early]
          · have beyond : (names ++ [name])[i]? = none := by
              rw [List.getElem?_eq_none_iff, List.length_append, List.length_singleton]
              omega
            have beyond' : names[i]? = none := by
              rw [List.getElem?_eq_none_iff]
              omega
            simp [here, beyond, beyond']

/-- The loop that adds the edges between existing vertices. -/
theorem addEdges_total [Inhabited P] {vMap : TreeMap Nat Nat} {n : Nat}
    (identity : ∀ i < n, vMap[i]? = some i) (newEdges : List ChainDependency)
    (bounded : ∀ e ∈ newEdges, e.source < n ∧ e.target < n) :
    ∀ ilp : AdjacencyList P, ilp.numVertices = n →
      ∃ final, newEdges.foldlM (fun ilp edge => do
          let source ← deref vMap[edge.source]?
          let target ← deref vMap[edge.target]?
          pure (ilp.addEdge source target)) ilp = .ok final ∧
        final.vertices = ilp.vertices ∧
        final.edges = ilp.edges ++ newEdges.map fun e => (e.source, e.target) := by
  induction newEdges with
  | nil =>
    intro ilp _
    exact ⟨ilp, rfl, rfl, by simp⟩
  | cons e rest ih =>
    intro ilp size
    have ends := bounded e (by simp)
    have kept : (ilp.addEdge e.source e.target).vertices = ilp.vertices :=
      AdjacencyList.vertices_addEdge (show _ < ilp.numVertices ∧ _ < ilp.numVertices from size ▸ ends)
    obtain ⟨final, looped, vertices, edges⟩ := ih (fun e member => bounded e (by simp [member]))
      (ilp.addEdge e.source e.target) (by rw [AdjacencyList.numVertices, kept]; exact size)
    refine ⟨final, ?_, vertices.trans kept, ?_⟩
    · rw [List.foldlM_cons, identity e.source ends.1, identity e.target ends.2]
      exact looped
    · rw [edges]
      simp [AdjacencyList.addEdge]

end writing

section graph

variable {unReverseMapping : ChainSets} {chains : Chains}
  (full : ∀ j p, Depends unReverseMapping j p → chains.getD p [] ≠ [])
include full

omit full in
/-- The edges that a chain gets. -/
theorem ilpEdges_cases {j : Nat} {e : ChainDependency}
    (member : e ∈ ilpEdges unReverseMapping chains j) :
    (e ∈ serialEdges (ascending (chains.getD j [])) ∧
        ∃ parents, unReverseMapping[j]? = some parents) ∨
      ∃ p, Depends unReverseMapping j p ∧ chains.getD j [] ≠ [] ∧
        e = ⟨backOf chains p, frontOf chains j⟩ := by
  unfold ilpEdges at member
  cases entry : unReverseMapping[j]? with
  | none => simp [entry] at member
  | some parents =>
    rw [entry] at member
    have nonempty : chains.getD j [] ≠ [] := by
      intro empty
      rw [empty] at member
      cases member
    rcases (mem_chainEdges (ascending_ne_nil nonempty)).mp member with serial | ⟨isBack, isFront⟩
    · exact .inl ⟨serial, parents, rfl⟩
    · obtain ⟨p, listed, isP⟩ := List.mem_map.mp isBack
      have depends : Depends unReverseMapping j p := by simpa [Depends, entry] using listed
      refine .inr ⟨p, depends, nonempty, ?_⟩
      rw [isP]
      exact congrArg (ChainDependency.mk e.source) isFront

omit full in
theorem serialEdges_inChain {j : Nat} {e : ChainDependency}
    (serial : e ∈ serialEdges (ascending (chains.getD j []))) :
    InChain chains j e.source ∧ InChain chains j e.target := by
  obtain ⟨source, target⟩ := mem_of_mem_serialEdges serial
  exact ⟨(ascending_perm _).mem_iff.mp source, (ascending_perm _).mem_iff.mp target⟩

/-- Every edge joins two nodes of chains. -/
theorem ilpEdges_mem {j : Nat} {e : ChainDependency} (member : e ∈ ilpEdges unReverseMapping chains j) :
    e.source ∈ chains.flatten ∧ e.target ∈ chains.flatten := by
  rcases ilpEdges_cases member with ⟨serial, _⟩ | ⟨p, depends, nonempty, rfl⟩
  · obtain ⟨source, target⟩ := serialEdges_inChain serial
    exact ⟨source.mem_flatten, target.mem_flatten⟩
  · exact ⟨(backOf_mem (full j p depends)).mem_flatten, (frontOf_mem nonempty).mem_flatten⟩

/-- `buildILPGraph` on the chain graph of a partition. -/
theorem buildILPGraph_total {P : Type} [Inhabited P] (write : Nat → P → P) {orig : AdjacencyList P}
    (small : orig.numVertices < 2 ^ 32) (part : Partition orig.numVertices chains)
    {chainGraph : List ChainGraph} (masked : Masked chains (fun _ => false) chainGraph) :
    ∃ r, buildILPGraph write orig unReverseMapping chainGraph = .ok r ∧
      Masked chains (touched unReverseMapping chains.length) r.chainGraph ∧
      r.ilpGraph.numVertices = orig.numVertices ∧
      r.ilpGraph.edges = ((List.range chains.length).flatMap
        (ilpEdges unReverseMapping chains)).map (fun e => (e.source, e.target)) ∧
      r.origGraph.edges = orig.edges ∧ r.origGraph.vertices.length = orig.vertices.length ∧
      ∀ i : Nat, r.origGraph.vertices[i]? = orig.vertices[i]?.map fun p =>
        ((((List.range chains.length).flatMap (ilpVertices unReverseMapping chains))[i]?).map
          fun name => write name p).getD p := by
  obtain ⟨final, looped, marked⟩ := ilpChains_total full masked
  have listed := ilpVertices_perm unReverseMapping chains
  generalize (List.range chains.length).flatMap (ilpVertices unReverseMapping chains) = newVertices
    at listed looped ⊢
  have count : newVertices.length = orig.numVertices := by
    rw [listed.length_eq, List.Perm.length_eq part, List.length_range]
  have bounded : ∀ e ∈ (List.range chains.length).flatMap (ilpEdges unReverseMapping chains),
      e.source < newVertices.length ∧ e.target < newVertices.length := by
    intro e member
    obtain ⟨j, _, made⟩ := List.mem_flatMap.mp member
    obtain ⟨source, target⟩ := ilpEdges_mem full made
    rw [count]
    exact ⟨part.mem_flatten_iff.mp source, part.mem_flatten_iff.mp target⟩
  obtain ⟨written, wrote, edges, length, each⟩ := writeVertices_total write orig newVertices
    (Nat.le_of_eq count)
  obtain ⟨ilp, added, vertices, ilpEdges⟩ := addEdges_total
    (fun i below => (insertIfNew_range newVertices.length i).trans (if_pos below)) _ bounded
    (AdjacencyList.ofVertices (List.replicate newVertices.length (default : P)))
    (by simp [AdjacencyList.ofVertices, AdjacencyList.numVertices])
  refine ⟨⟨written, ilp, final⟩, ?_, marked, ?_, ?_, edges, length, each⟩
  · unfold buildILPGraph
    rw [looped, Loops.ok_bind]
    dsimp only
    rw [if_pos (count ▸ small), wrote, Loops.ok_bind, added]
    rfl
  · rw [← count, AdjacencyList.numVertices, vertices]
    simp [AdjacencyList.ofVertices]
  · simpa [AdjacencyList.ofVertices] using ilpEdges

end graph

end ChainSaw
