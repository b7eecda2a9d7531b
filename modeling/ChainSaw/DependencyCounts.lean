import ChainSaw.LoopCheck
import ChainSaw.Accepted

set_option autoImplicit false

namespace ChainSaw

open Std (TreeMap TreeSet)

/-- The number of edges from chain `s` to chain `t`. -/
def edgesBetween {P : Type} (g : AdjacencyList P) (chains : Chains) (s t : Nat) : Nat :=
  g.edges.countP fun e => InChain chains s e.1 ∧ InChain chains t e.2

/-- The number of edges whose ends no chain holds together. -/
def crossChainEdges {P : Type} (g : AdjacencyList P) (chains : Chains) : Nat :=
  g.edges.countP fun e => ∀ c ∈ chains, ¬ (e.1 ∈ c ∧ e.2 ∈ c)

section edges

variable {P : Type} {g : AdjacencyList P} {chains : Chains}
  (part : Partition g.numVertices chains)

theorem outEdges_map (g : AdjacencyList P) (v : Nat) :
    (g.outEdges v).map (fun t => (v, t)) = g.edges.filter (fun e => e.1 == v) := by
  unfold AdjacencyList.outEdges
  rw [List.map_map]
  conv_rhs => rw [← List.map_id (g.edges.filter fun e => e.1 == v)]
  apply List.map_congr_left
  intro e member
  have isSource : e.1 = v := beq_iff_eq.mp (List.mem_filter.mp member).2
  simp [← isSource]

include part

theorem inChain_chainOf {v : Nat} (inside : v < g.numVertices) :
    InChain chains (chainOf chains v) v := by
  obtain ⟨i, inI⟩ := part.exists_chain inside
  rw [chainOf_eq part.nodup inI]
  exact inI

theorem chainOf_eq_iff {v i : Nat} (inside : v < g.numVertices) :
    chainOf chains v = i ↔ InChain chains i v := by
  constructor
  · intro same
    exact same ▸ inChain_chainOf part inside
  · intro inI
    exact chainOf_eq part.nodup inI

/-- A node of the chain with `v` is one with the same chain number. -/
theorem mem_chain_iff {c : List Nat} (listed : c ∈ chains) {v w : Nat} (inC : v ∈ c)
    (inside : w < g.numVertices) : w ∈ c ↔ chainOf chains w = chainOf chains v := by
  obtain ⟨i, found⟩ := List.mem_iff_getElem?.mp listed
  have inI : InChain chains i v := inChain_iff.mpr ⟨c, found, inC⟩
  rw [chainOf_eq part.nodup inI, chainOf_eq_iff part inside, inChain_iff]
  simp [found]

/-- `dependenciesGenerate` comes to every edge between two chains once. -/
theorem crossEdges_perm : (crossEdges g chains).Perm
    (g.edges.filter fun e => chainOf chains e.2 != chainOf chains e.1) := by
  have byChain : crossEdges g chains = chains.flatten.flatMap fun v =>
      (g.edges.filter fun e => e.1 == v).filter
        fun e => chainOf chains e.2 != chainOf chains e.1 := by
    unfold crossEdges
    rw [← List.flatMap_id, List.flatMap_assoc]
    apply List.flatMap_congr
    intro c listed
    apply List.flatMap_congr
    intro v inC
    rw [← outEdges_map, List.filter_map]
    congr 1
    apply List.filter_congr
    intro t edge
    have bound := (show g.Edge v t from edge).bounds.2
    rw [Function.comp_apply, Bool.eq_iff_iff, decide_eq_true_eq, bne_iff_ne,
      mem_chain_iff part listed inC bound]
  rw [byChain, ← List.filter_flatMap]
  have ordered := Grouping.flatMap_filter_perm Prod.fst List.nodup_range g.edges
    (fun e member => List.mem_range.mpr (g.bounded e member).1)
  exact ((List.Perm.flatMap_right _ part).trans ordered).filter _

theorem edgesBetween_eq {s t : Nat} (apart : s ≠ t) :
    (crossEdges g chains).countP (fun e => chainOf chains e.1 == s && chainOf chains e.2 == t) =
      edgesBetween g chains s t := by
  rw [(crossEdges_perm part).countP_eq, List.countP_filter]
  unfold edgesBetween
  apply List.countP_congr
  intro e member
  have bounds := g.bounded e member
  have atSource := chainOf_eq_iff part (i := s) bounds.1
  have atTarget := chainOf_eq_iff part (i := t) bounds.2
  simp only [Bool.and_eq_true, beq_iff_eq, bne_iff_ne, ne_eq, decide_eq_true_eq, atSource, atTarget]
  constructor
  · exact fun both => both.1
  · intro both
    refine ⟨both, ?_⟩
    rw [atSource.mpr both.1, atTarget.mpr both.2]
    exact fun same => apart same.symm

theorem crossChainEdges_eq : (crossEdges g chains).length = crossChainEdges g chains := by
  rw [(crossEdges_perm part).length_eq, ← List.countP_eq_length_filter]
  unfold crossChainEdges
  apply List.countP_congr
  intro e member
  have bounds := g.bounded e member
  simp only [bne_iff_ne, ne_eq, decide_eq_true_eq, not_and]
  constructor
  · intro differ c listed inC alsoC
    exact differ ((mem_chain_iff part listed inC bounds.2).mp alsoC)
  · intro never same
    obtain ⟨c, found, inC⟩ := inChain_iff.mp (inChain_chainOf part bounds.1)
    have listed := List.mem_of_getElem? found
    exact never c listed inC ((mem_chain_iff part listed inC bounds.2).mpr same)

end edges

/-- The pairs that a map lists, in the order of its loops. -/
def mapPairs (map : ChainLists) : List (Nat × Nat) :=
  map.toList.flatMap fun c => c.2.map fun r => (r, c.1)

theorem reverseMappingLists_eq (map : ChainLists) :
    reverseMappingLists map = Grouping.group Prod.fst Prod.snd (mapPairs map) ∅ := by
  unfold reverseMappingLists Grouping.group mapPairs
  rw [List.foldl_flatMap]
  congr 1
  funext rev c
  rw [List.foldl_map]

theorem count_mapPairs (map : ChainLists) (s t : Nat) :
    (mapPairs map).count (t, s) = (map[s]?.getD []).count t := by
  have count : ∀ entries : List (Nat × List Nat),
      (entries.flatMap fun c => c.2.map fun r => (r, c.1)).count (t, s) =
        ((entries.filter fun e => e.1 == s).flatMap (·.2)).count t := by
    intro entries
    induction entries with
    | nil => rfl
    | cons c rest ih =>
      rw [List.flatMap_cons, List.count_append, ih, List.filter_cons]
      by_cases same : c.1 = s
      · have inner : (c.2.map fun r => (r, s)).count (t, s) = c.2.count t :=
          List.count_map_of_injective c.2 (fun r => (r, s))
            (fun a b equal => congrArg Prod.fst equal) t
        simp [same, inner]
      · have none : (t, s) ∉ c.2.map fun r => (r, c.1) := by
          intro member
          obtain ⟨r, _, equal⟩ := List.mem_map.mp member
          exact same (congrArg Prod.snd equal)
        simp [same, List.count_eq_zero_of_not_mem none]
  unfold mapPairs
  rw [count, Grouping.flatMap_filter_toList]

theorem count_reverseMappingLists (map : ChainLists) (s t : Nat) :
    ((reverseMappingLists map)[t]?.getD []).count s = (map[s]?.getD []).count t := by
  rw [reverseMappingLists_eq, Grouping.group_empty_getElem?, ← count_mapPairs]
  induction mapPairs map with
  | nil => rfl
  | cons p rest ih =>
    obtain ⟨r, c⟩ := p
    rw [List.filter_cons, List.count_cons, ← ih]
    by_cases same : r = t
    · by_cases both : c = s
      · simp [same, both]
      · simp [same, both]
    · simp [same]

theorem count_histoDependency (dependencies : List ChainDependency) (s t : Nat) :
    ((histoDependency dependencies)[s]?.getD []).count t = dependencies.count ⟨s, t⟩ := by
  rw [histoDependency_getElem?]
  induction dependencies with
  | nil => rfl
  | cons dep rest ih =>
    rw [List.filter_cons, List.count_cons, ← ih]
    obtain ⟨source, target⟩ := dep
    by_cases same : source = s
    · by_cases both : target = t
      · simp [same, both]
      · simp [same, both]
    · simp [same]

/-- Inserting pairs one after another. -/
theorem depends_insert (pairs : List (Nat × Nat)) (un : ChainSets) (s t : Nat) :
    Depends (pairs.foldl
        (fun un p => un.alter p.1 (fun cs => some ((cs.getD ∅).insert p.2))) un) s t ↔
      Depends un s t ∨ (s, t) ∈ pairs := by
  induction pairs generalizing un with
  | nil => simp
  | cons p rest ih =>
    rw [List.foldl_cons, ih]
    have single := insert_all [p.2] un p.1 s t
    rw [List.foldl_cons, List.foldl_nil] at single
    have first : (s, t) = p ↔ p.1 = s ∧ t ∈ [p.2] := by
      rw [Prod.ext_iff, List.mem_singleton, eq_comm]
    rw [single, or_assoc, ← first, List.mem_cons]

theorem reverseMappingSets_eq (un : ChainSets) : reverseMappingSets un =
    (un.toList.flatMap fun c => c.2.toList.map fun r => (r, c.1)).foldl
      (fun rev p => rev.alter p.1 (fun cs => some ((cs.getD ∅).insert p.2))) ∅ := by
  unfold reverseMappingSets
  rw [List.foldl_flatMap]
  congr 1
  funext rev c
  rw [List.foldl_map]

theorem depends_reverseMappingSets (un : ChainSets) (s t : Nat) :
    Depends (reverseMappingSets un) t s ↔ Depends un s t := by
  rw [reverseMappingSets_eq, depends_insert]
  have empty : ¬ Depends ∅ t s := by simp [Depends]
  simp only [empty, false_or, List.mem_flatMap, List.mem_map, Prod.mk.injEq]
  constructor
  · rintro ⟨⟨c, set⟩, listed, r, member, rfl, rfl⟩
    rw [TreeMap.mem_toList_iff_getElem?_eq_some] at listed
    simpa [Depends, listed] using member
  · intro depends
    obtain ⟨set, found, member⟩ := depends.exists_set
    refine ⟨(s, set), TreeMap.mem_toList_iff_getElem?_eq_some.mpr found, t, ?_, rfl, rfl⟩
    exact TreeSet.mem_toList.mpr member

theorem reverseMappingSets_noEmptySet (un : ChainSets) : NoEmptySet (reverseMappingSets un) := by
  rw [reverseMappingSets_eq]
  have start : NoEmptySet ∅ := by
    intro s set found
    simp at found
  generalize (∅ : ChainSets) = rev at start
  induction un.toList.flatMap fun c => c.2.toList.map fun r => (r, c.1) generalizing rev with
  | nil => exact start
  | cons p rest ih => exact ih _ (insert_all_noEmptySet [p.2] rev p.1 start)

/-- The groups of a list by a key below `n` have the length of the list together. -/
theorem sum_length_filter {α : Type} (key : α → Nat) {n : Nat} {items : List α}
    (below : ∀ a ∈ items, key a < n) :
    ((List.range n).map fun k => (items.filter fun a => key a == k).length).sum = items.length := by
  rw [← List.length_flatMap]
  exact (Grouping.flatMap_filter_perm key List.nodup_range items
    fun a member => List.mem_range.mpr (below a member)).length_eq

theorem sum_histoDependency {dependencies : List ChainDependency} {n : Nat}
    (below : ∀ dep ∈ dependencies, dep.source < n) :
    ((List.range n).map fun s => ((histoDependency dependencies)[s]?.getD []).length).sum =
      dependencies.length := by
  rw [← sum_length_filter ChainDependency.source below]
  congr 1
  apply List.map_congr_left
  intro s _
  rw [histoDependency_getElem?, List.length_map]

theorem sum_reverseMappingLists {dependencies : List ChainDependency} {n : Nat}
    (below : ∀ dep ∈ dependencies, dep.target < n) :
    ((List.range n).map fun t =>
      ((reverseMappingLists (histoDependency dependencies))[t]?.getD []).length).sum =
      dependencies.length := by
  have grouped : ((histoDependency dependencies).toList.flatMap (·.2)).Perm
      (dependencies.map (·.target)) :=
    Grouping.group_flatMap_perm ChainDependency.source ChainDependency.target dependencies
  have targets : (mapPairs (histoDependency dependencies)).map (·.1) =
      (histoDependency dependencies).toList.flatMap (·.2) := by
    unfold mapPairs
    rw [List.map_flatMap]
    apply List.flatMap_congr
    intro c _
    rw [List.map_map]
    exact List.map_id c.2
  have inside : ∀ p ∈ mapPairs (histoDependency dependencies), p.1 < n := by
    intro p member
    have listed : p.1 ∈ (mapPairs (histoDependency dependencies)).map (·.1) :=
      List.mem_map_of_mem member
    rw [targets, grouped.mem_iff] at listed
    obtain ⟨dep, isDep, same⟩ := List.mem_map.mp listed
    exact same ▸ below dep isDep
  have length : (mapPairs (histoDependency dependencies)).length = dependencies.length := by
    rw [← List.length_map (·.1), targets, grouped.length_eq, List.length_map]
  rw [← length, ← sum_length_filter Prod.fst inside]
  congr 1
  apply List.map_congr_left
  intro t _
  rw [reverseMappingLists_eq, Grouping.group_empty_getElem?, List.length_map]

section maps

variable {g : BoostGraph} {chains : Chains} (part : Partition g.numVertices chains)
  {maps : DependencyMaps} (built : buildDependencies g chains = .ok maps)
include part built

/-- The maps in terms of the dependencies, one for each edge between chains. -/
theorem buildDependencies_eq : ∃ dependencies,
    dependenciesGenerate g chains (vertexToChainMap chains) = .ok dependencies ∧
      dependencies = (crossEdges g chains).map
        (fun e => ⟨chainOf chains e.1, chainOf chains e.2⟩) ∧
      maps.chainToDependencies = histoDependency dependencies ∧
      maps.reverseMapping = reverseMappingLists (histoDependency dependencies) ∧
      maps.unReverseMapping = reverseMappingSets maps.unDependencies := by
  obtain ⟨dependencies, generated, made⟩ := Loops.bind_eq_ok.mp built
  cases made
  have exact := generated.symm.trans (dependenciesGenerate_eq part)
  exact ⟨dependencies, generated, Except.ok.inj exact, rfl, rfl, rfl⟩

/-- The lists name a pair of different chains as often as an edge joins them. -/
theorem count_lists {s t : Nat} (apart : s ≠ t) :
    (maps.chainToDependencies[s]?.getD []).count t = edgesBetween g chains s t ∧
      (maps.reverseMapping[t]?.getD []).count s = edgesBetween g chains s t := by
  obtain ⟨dependencies, _, listed, histo, reverse, _⟩ := buildDependencies_eq part built
  have counts : dependencies.count ⟨s, t⟩ = edgesBetween g chains s t := by
    rw [← edgesBetween_eq part apart, listed, List.count, List.countP_map]
    apply List.countP_congr
    intro e _
    simp
  rw [histo, reverse, count_reverseMappingLists, count_histoDependency, counts]
  exact ⟨rfl, rfl⟩

theorem count_lists_self (s : Nat) : (maps.chainToDependencies[s]?.getD []).count s = 0 ∧
    (maps.reverseMapping[s]?.getD []).count s = 0 := by
  obtain ⟨dependencies, generated, _, histo, reverse, _⟩ := buildDependencies_eq part built
  have absent : ⟨s, s⟩ ∉ dependencies := by
    intro member
    exact ((mem_dependencies part generated).mp member).1 rfl
  rw [histo, reverse, count_reverseMappingLists, count_histoDependency,
    List.count_eq_zero_of_not_mem absent]
  exact ⟨rfl, rfl⟩

theorem sum_entries :
    ((chains.zipIdx.map fun e => chainGraphEntry g maps e.1 e.2).map (·.fanIn)).sum =
        crossChainEdges g chains ∧
      ((chains.zipIdx.map fun e => chainGraphEntry g maps e.1 e.2).map (·.fanOut)).sum =
        crossChainEdges g chains := by
  obtain ⟨dependencies, generated, listed, histo, reverse, _⟩ := buildDependencies_eq part built
  have length : dependencies.length = crossChainEdges g chains := by
    rw [listed, List.length_map, crossChainEdges_eq part]
  have ends : ∀ dep ∈ dependencies, dep.source < chains.length ∧ dep.target < chains.length := by
    intro dep member
    exact ((mem_dependencies part generated).mp member).lt_length
  rw [chainGraphEntry_map fun _ _ => rfl, chainGraphEntry_map fun _ _ => rfl, ← length, histo,
    reverse]
  constructor
  · exact sum_reverseMappingLists fun dep member => (ends dep member).2
  · exact sum_histoDependency fun dep member => (ends dep member).1

end maps

/-- On every partition the four maps describe the edges between different chains:
the sets hold each related pair once, the lists as often as there are edges, and
fan-in and fan-out add up to the edges between chains. The edges inside a chain
are in none of them. The sums hold of the entries `buildChainGraph` makes, and
so of the chain graph once its levels are set. -/
theorem dependency_maps_exact (g : BoostGraph) (chains : Chains)
    (part : Partition g.numVertices chains) :
    ∃ maps : DependencyMaps, buildDependencies g chains = .ok maps ∧
      (∀ s t : Nat, Depends maps.unDependencies s t ↔
        s ≠ t ∧ ∃ u v, InChain chains s u ∧ InChain chains t v ∧ g.Edge u v) ∧
      (∀ s t : Nat, Depends maps.unReverseMapping t s ↔ Depends maps.unDependencies s t) ∧
      (∀ s t : Nat, s ≠ t →
        (maps.chainToDependencies[s]?.getD []).count t = edgesBetween g chains s t ∧
          (maps.reverseMapping[t]?.getD []).count s = edgesBetween g chains s t) ∧
      (∀ s : Nat, (maps.chainToDependencies[s]?.getD []).count s = 0 ∧
        (maps.reverseMapping[s]?.getD []).count s = 0) ∧
      (((chains.zipIdx.map fun e => chainGraphEntry g maps e.1 e.2).map (·.fanIn)).sum =
          crossChainEdges g chains ∧
        ((chains.zipIdx.map fun e => chainGraphEntry g maps e.1 e.2).map (·.fanOut)).sum =
          crossChainEdges g chains) ∧
      ∀ chainGraph, buildChainGraph g chains maps = .ok chainGraph →
        (chainGraph.map (·.fanIn)).sum = crossChainEdges g chains ∧
          (chainGraph.map (·.fanOut)).sum = crossChainEdges g chains := by
  obtain ⟨maps, built⟩ := buildDependencies_total part
  obtain ⟨_, _, _, _, _, converse⟩ := buildDependencies_eq part built
  have sums := sum_entries part built
  refine ⟨maps, built, depends_iff_chainDep part built, ?_, ?_, ?_, sums, ?_⟩
  · intro s t
    rw [converse]
    exact depends_reverseMappingSets maps.unDependencies s t
  · intro s t apart
    exact count_lists part built apart
  · intro s
    exact count_lists_self part built s
  · intro chainGraph returned
    rw [buildChainGraph_map (fun _ _ => rfl) returned, buildChainGraph_map (fun _ _ => rfl) returned]
    exact sums

/-- Two chains with two edges from the first to the second, one of them twice. -/
def doubledEdge : BoostGraph where
  vertices := (List.range 3).map fun v => ⟨v, ⟨.other "Add", v⟩, v / 2, .other "Add"⟩
  edges := [(0, 1), (0, 2), (0, 2), (1, 2)]
  bounded := by decide

theorem dependency_maps_doubledEdge :
    ∃ maps : DependencyMaps, buildDependencies doubledEdge [[0, 1], [2]] = .ok maps ∧
      (maps.chainToDependencies[0]?.getD []).count 1 = 3 ∧
      ((([[0, 1], [2]] : Chains).zipIdx.map fun e => chainGraphEntry doubledEdge maps e.1 e.2).map
        (·.fanIn)).sum = 3 := by
  have part : Partition doubledEdge.numVertices [[0, 1], [2]] := by
    unfold Partition
    decide
  obtain ⟨maps, built, _, _, counts, _, sums, _⟩ := dependency_maps_exact doubledEdge _ part
  exact ⟨maps, built, (counts 0 1 (by decide)).1, sums.1⟩

/-- An edge inside a chain is no dependency of the chain on itself. -/
theorem doubledEdge_inside :
    ¬ ∀ (g : BoostGraph) (chains : Chains) (maps : DependencyMaps),
      Partition g.numVertices chains → buildDependencies g chains = .ok maps →
      ∀ s t : Nat, (maps.chainToDependencies[s]?.getD []).count t = edgesBetween g chains s t ∧
        (maps.reverseMapping[t]?.getD []).count s = edgesBetween g chains s t := by
  intro claimed
  have part : Partition doubledEdge.numVertices [[0, 1], [2]] := by
    unfold Partition
    decide
  have evaluated : Loops.returns
      (fun maps : DependencyMaps => (maps.chainToDependencies[0]?.getD []).count 0 == 0)
      (buildDependencies doubledEdge [[0, 1], [2]]) = true := by
    decide +kernel
  obtain ⟨maps, built, none⟩ := Loops.returns_iff.mp evaluated
  have one := (claimed doubledEdge _ maps part built 0 0).1
  rw [beq_iff_eq.mp none] at one
  exact absurd one (by decide)

end ChainSaw
