import ChainSaw.Lib.LongestPath
import ChainSaw.Iteration

set_option autoImplicit false

namespace ChainSaw

open Std (TreeMap TreeSet)
open Relation (TransGen ReflTransGen)
open LongestPath (Walk relax)

/-- The level that `chain_graph` has for a chain. -/
def levelOf (chGraph : List ChainGraph) (id : Nat) : Int :=
  ((chGraph.find? (fun m => m.chainId == id)).map (·.level)).getD (-1)

theorem dependents_eq (dependencies : ChainSets) :
    (fun s t => t ∈ dependents dependencies s) = Depends dependencies := by
  funext s t
  exact propext mem_dependents

theorem findChain_total {chGraph : List ChainGraph} {id : Nat}
    (known : id ∈ chGraph.map (·.chainId)) :
    ∃ m, findChain chGraph id = .ok m ∧ m.level = levelOf chGraph id := by
  obtain ⟨m, member, rfl⟩ := List.mem_map.mp known
  cases found : chGraph.find? (fun e => e.chainId == m.chainId) with
  | none =>
    have absent := List.find?_eq_none.mp found m member
    simp at absent
  | some first => exact ⟨first, by rw [findChain, found]; rfl, by simp [levelOf, found]⟩

/-- What is found after a write that keeps the chain ids. -/
theorem find?_updateChain {f : ChainGraph → ChainGraph} (kept : ∀ m, (f m).chainId = m.chainId)
    (id v : Nat) (chGraph : List ChainGraph) :
    (updateChain id f chGraph).find? (fun m => m.chainId == v) =
      if v = id then (chGraph.find? (fun m => m.chainId == id)).map f
      else chGraph.find? (fun m => m.chainId == v) := by
  induction chGraph with
  | nil => simp [updateChain]
  | cons m rest ih =>
    unfold updateChain
    by_cases here : m.chainId = id
    · rw [if_pos here]
      by_cases same : v = id
      · simp [kept, here, same]
      · have other : ¬ m.chainId = v := fun isV => same (isV.symm.trans here)
        simp [kept, same, other]
    · rw [if_neg here]
      by_cases first : m.chainId = v
      · have other : v ≠ id := fun isId => here (first.trans isId)
        simp [first, other]
      · by_cases same : v = id
        · subst same
          simpa [here] using ih
        · simp [first, ih, same]

theorem levelOf_updateChain {chGraph : List ChainGraph} {id : Nat}
    (known : id ∈ chGraph.map (·.chainId)) (l : Int) :
    levelOf (updateChain id (fun m => { m with level := l }) chGraph) =
      Function.update (levelOf chGraph) id l := by
  funext v
  obtain ⟨m, found, _⟩ := findChain_total known
  unfold levelOf
  rw [find?_updateChain (by intro m; rfl), deref_eq_ok.mp found]
  by_cases same : v = id
  · subst same
    simp
  · simp [same]

section search

variable {dependencies : ChainSets} {ids : List Nat}
  (known : ∀ s t, Depends dependencies s t → t ∈ ids)
include known

/-- The search finds every chain it visits, and does to the levels what the
relaxation does. -/
theorem findChainsLevel_relax (depth : Nat) : ∀ l id chGraph level,
    chGraph.map (·.chainId) = ids → id ∈ ids →
    relax (dependents dependencies) depth l id (levelOf chGraph) = some level →
    ∃ final, findChainsLevel dependencies depth l id chGraph = .ok final ∧
      final.map (·.chainId) = ids ∧ levelOf final = level := by
  induction depth with
  | zero => intro l id chGraph level _ _ relaxed; cases relaxed
  | succ depth ih =>
    intro l id chGraph level same member relaxed
    obtain ⟨m, found, itsLevel⟩ := findChain_total (same ▸ member)
    unfold findChainsLevel
    rw [found, Loops.ok_bind, itsLevel]
    unfold relax at relaxed
    split at relaxed
    · rename_i low
      rw [if_pos low]
      rw [← levelOf_updateChain (same ▸ member)] at relaxed
      have raised := (map_updateChain (·.chainId) (f := fun m => { m with level := l })
        (fun _ => rfl) id chGraph).trans same
      generalize updateChain id (fun m => { m with level := l }) chGraph = next at relaxed raised
      have visited : ∃ final, (dependents dependencies id).foldlM
          (fun chGraph dep => findChainsLevel dependencies depth (l + 1) dep chGraph) next =
            .ok final ∧ final.map (·.chainId) = ids ∧ levelOf final = level := by
        refine LongestPath.foldlM_visitAll (fun g => g.map (·.chainId) = ids) ?_ next level raised
          relaxed
        intro dep listed g mid sameG first
        exact ih (l + 1) dep g mid sameG (known id dep (mem_dependents.mp listed)) first
      unfold dependents at visited
      cases found : dependencies[id]? with
      | none =>
        rw [found] at visited
        exact visited
      | some deps =>
        rw [found] at visited
        exact visited
    · rename_i high
      rw [if_neg high]
      cases relaxed
      exact ⟨chGraph, rfl, same, rfl⟩

end search

theorem levelOf_fresh {chGraph : List ChainGraph} (fresh : ∀ m ∈ chGraph, m.level = -1) :
    levelOf chGraph = fun _ => -1 := by
  funext id
  unfold levelOf
  cases found : chGraph.find? (fun m => m.chainId == id) with
  | none => rfl
  | some m => simp [fresh m (List.mem_of_find?_eq_some found)]

theorem level_eq_levelOf {chGraph : List ChainGraph} (distinct : (chGraph.map (·.chainId)).Nodup)
    {m : ChainGraph} (member : m ∈ chGraph) : m.level = levelOf chGraph m.chainId := by
  rw [levelOf, Loops.find?_key_of_mem distinct member]
  rfl

/-- What the search leaves as the level of a chain: the length of the longest
dependency path from chain 0, or -1. -/
def IsLevel (dependencies : ChainSets) (id : Nat) (level : Int) : Prop :=
  (level = -1 ∧ ¬ ReflTransGen (Depends dependencies) 0 id) ∨
    ∃ n : Nat, level = n ∧ IsGreatest {n | Walk (Depends dependencies) 0 n id} n

theorem findChainsLevel_isLevel {dependencies : ChainSets} {chGraph : List ChainGraph}
    (fresh : ∀ m ∈ chGraph, m.level = -1) (root : 0 ∈ chGraph.map (·.chainId))
    (known : ∀ s t, Depends dependencies s t → t ∈ chGraph.map (·.chainId))
    (acyclic : ∀ s, ReflTransGen (Depends dependencies) 0 s → ¬ TransGen (Depends dependencies) s s)
    {depth : Nat} (enough : chGraph.length ≤ depth) :
    ∃ final, findChainsLevel dependencies depth 0 0 chGraph = .ok final ∧
      final.map (·.chainId) = chGraph.map (·.chainId) ∧
      ∀ id, IsLevel dependencies id (levelOf final id) := by
  have within : ∀ n id, Walk (Depends dependencies) 0 n id → id ∈ chGraph.map (·.chainId) := by
    intro n id walk
    cases walk with
    | nil => exact root
    | tail _ depends => exact known _ _ depends
  have short : ∀ n id, Walk (fun s t => t ∈ dependents dependencies s) 0 n id →
      n < chGraph.length := by
    intro n id walk
    rw [dependents_eq] at walk
    simpa using walk.length_lt acyclic within
  obtain ⟨level, relaxed⟩ := LongestPath.relax_total short depth 0 0 (fun _ => -1) .nil (by omega)
  have started := levelOf_fresh fresh
  obtain ⟨final, returned, same, levels⟩ := findChainsLevel_relax known depth 0 0 chGraph level rfl
    root (started ▸ relaxed)
  refine ⟨final, returned, same, fun id => ?_⟩
  have longest := LongestPath.relax_longest relaxed id
  rw [dependents_eq] at longest
  rw [levels]
  exact longest

theorem toUInt32_of_lt {x : Int} (low : 0 ≤ x) (high : x < 2 ^ 32) : toUInt32 x = x.toNat := by
  unfold toUInt32
  rw [Int.emod_eq_of_lt low high]

theorem levelOrder_lt {chGraph : List ChainGraph} (distinct : (chGraph.map (·.chainId)).Nodup)
    {m m' : ChainGraph} (inside : m ∈ chGraph) (inside' : m' ∈ chGraph) (low : 0 ≤ m.level)
    (less : m.level < m'.level) (high : m'.level < 2 ^ 32) :
    ((buildChainLevel chGraph).toList.flatMap (·.2)).idxOf m.chainId <
      ((buildChainLevel chGraph).toList.flatMap (·.2)).idxOf m'.chainId := by
  refine Grouping.group_idxOf_lt (fun ch : ChainGraph => toUInt32 ch.level) (·.chainId) distinct
    inside inside' ?_
  rw [toUInt32_of_lt low (by omega), toUInt32_of_lt (by omega) high]
  omega

/-- A dependency leads to a higher level. -/
theorem IsLevel.lt {dependencies : ChainSets} {s t : Nat} {level level' : Int}
    (ofS : IsLevel dependencies s level) (ofT : IsLevel dependencies t level')
    (reached : ReflTransGen (Depends dependencies) 0 s) (depends : Depends dependencies s t) :
    0 ≤ level ∧ level < level' := by
  rcases ofS with ⟨_, unreached⟩ | ⟨n, rfl, walk, _⟩
  · exact absurd reached unreached
  · have next := walk.tail depends
    rcases ofT with ⟨_, unreached⟩ | ⟨n', rfl, _, greatest⟩
    · exact absurd (reached.tail depends) unreached
    · have := greatest next
      omega

/-- Where the levels are the longest paths and every chain is reached from chain
0, the level order lists the source of a dependency before its target. -/
theorem levelOrder_topological {dependencies : ChainSets} {chGraph : List ChainGraph}
    (distinct : (chGraph.map (·.chainId)).Nodup) (small : ∀ m ∈ chGraph, m.level < 2 ^ 32)
    (levels : ∀ m ∈ chGraph, IsLevel dependencies m.chainId m.level)
    (reached : ∀ m ∈ chGraph, ReflTransGen (Depends dependencies) 0 m.chainId) {s t : Nat}
    (knownS : s ∈ chGraph.map (·.chainId)) (knownT : t ∈ chGraph.map (·.chainId))
    (depends : Depends dependencies s t) :
    ((buildChainLevel chGraph).toList.flatMap (·.2)).idxOf s <
      ((buildChainLevel chGraph).toList.flatMap (·.2)).idxOf t := by
  obtain ⟨m, inside, rfl⟩ := List.mem_map.mp knownS
  obtain ⟨m', inside', rfl⟩ := List.mem_map.mp knownT
  obtain ⟨low, less⟩ := (levels m inside).lt (levels m' inside') (reached m inside) depends
  exact levelOrder_lt distinct inside inside' low less (small m' inside')

theorem IsLevel.lt_length {dependencies : ChainSets} {nodes : List Nat}
    (acyclic : ∀ s, ReflTransGen (Depends dependencies) 0 s → ¬ TransGen (Depends dependencies) s s)
    (within : ∀ n id, Walk (Depends dependencies) 0 n id → id ∈ nodes) {id : Nat} {level : Int}
    (isLevel : IsLevel dependencies id level) : level < nodes.length := by
  rcases isLevel with ⟨rfl, _⟩ | ⟨n, rfl, walk, _⟩
  · omega
  · have := walk.length_lt acyclic within
    omega

/-- Distinct `uint32_t` ids are at most `2 ^ 32` many. -/
theorem length_le_of_lt {ids : List Nat} (distinct : ids.Nodup) (small : ∀ id ∈ ids, id < 2 ^ 32) :
    ids.length ≤ 2 ^ 32 := by
  have sub : ids ⊆ List.range (2 ^ 32) := fun id member => List.mem_range.mpr (small id member)
  have := (List.subperm_of_subset distinct sub).length_le
  rwa [List.length_range] at this

/-- What holds of ids and levels holds in a copy that differs in other fields. -/
theorem copied_levels {P : Nat → Int → Prop} {chGraph final : List ChainGraph}
    (copied : (chGraph.map fun m => (m.chainId, m.level)) = final.map fun m => (m.chainId, m.level))
    (holds : ∀ m ∈ final, P m.chainId m.level) : ∀ m ∈ chGraph, P m.chainId m.level := by
  intro m member
  have pair : (m.chainId, m.level) ∈ chGraph.map fun m => (m.chainId, m.level) :=
    List.mem_map_of_mem member
  rw [copied] at pair
  obtain ⟨m', inside, isPair⟩ := List.mem_map.mp pair
  have itsId : m'.chainId = m.chainId := congrArg Prod.fst isPair
  have itsLevel : m'.level = m.level := congrArg Prod.snd isPair
  rw [← itsId, ← itsLevel]
  exact holds m' inside

/-- The level order of a copy, under the conditions of `levelOrder_topological`. -/
theorem copied_topological {dependencies : ChainSets} {chGraph final : List ChainGraph}
    (copied : (chGraph.map fun m => (m.chainId, m.level)) = final.map fun m => (m.chainId, m.level))
    (distinct : (final.map (·.chainId)).Nodup) (small : ∀ m ∈ final, m.level < 2 ^ 32)
    (levels : ∀ m ∈ final, IsLevel dependencies m.chainId m.level)
    (reached : ∀ m ∈ final, ReflTransGen (Depends dependencies) 0 m.chainId) {s t : Nat}
    (knownS : s ∈ final.map (·.chainId)) (knownT : t ∈ final.map (·.chainId))
    (depends : Depends dependencies s t) :
    ((buildChainLevel chGraph).toList.flatMap (·.2)).idxOf s <
      ((buildChainLevel chGraph).toList.flatMap (·.2)).idxOf t := by
  have ids : chGraph.map (·.chainId) = final.map (·.chainId) := by
    have firsts := congrArg (List.map Prod.fst) copied
    rw [List.map_map, List.map_map] at firsts
    exact firsts
  exact levelOrder_topological (ids ▸ distinct)
    (copied_levels (P := fun _ level => level < 2 ^ 32) copied small)
    (copied_levels (P := IsLevel dependencies) copied levels)
    (copied_levels (P := fun id _ => ReflTransGen (Depends dependencies) 0 id) copied reached)
    (ids ▸ knownS) (ids ▸ knownT) depends

/-- Chain levels are longest paths. For every dependency map over the chains of
`chain_graph` without a cycle that chain 0 leads to, `findChainsLevel` ends, its
recursion no deeper than the number of chains, and each level is the length of
the longest path from chain 0, or -1 where there is none. Where chain 0 leads to
all chains, `preschedule` stacks the source of a dependency before its target.
`createChainBlocks` runs in between and only writes block ids. -/
theorem levels_are_longest_paths {dependencies : ChainSets} {chGraph : List ChainGraph}
    (distinct : (chGraph.map (·.chainId)).Nodup) (small : ∀ m ∈ chGraph, m.chainId < 2 ^ 32)
    (fresh : ∀ m ∈ chGraph, m.level = -1) (root : 0 ∈ chGraph.map (·.chainId))
    (known : ∀ s t, Depends dependencies s t →
      s ∈ chGraph.map (·.chainId) ∧ t ∈ chGraph.map (·.chainId))
    (acyclic : ∀ s, ReflTransGen (Depends dependencies) 0 s → ¬ TransGen (Depends dependencies) s s)
    {depth : Nat} (enough : chGraph.length ≤ depth) :
    ∃ final, findChainsLevel dependencies depth 0 0 chGraph = .ok final ∧
      final.map (·.chainId) = chGraph.map (·.chainId) ∧
      (∀ m ∈ final,
        (m.level = -1 ∧ ¬ ReflTransGen (Depends dependencies) 0 m.chainId) ∨
          ∃ n : Nat, m.level = n ∧ IsGreatest {n | Walk (Depends dependencies) 0 n m.chainId} n) ∧
      ((∀ m ∈ final, ReflTransGen (Depends dependencies) 0 m.chainId) →
        ∀ (σ : Type) (c : Core σ), c.stackScheChain = [] →
          (c.graph.chainGraph.map fun m => (m.chainId, m.level)) =
            (final.map fun m => (m.chainId, m.level)) →
          ∀ s t, Depends dependencies s t →
            c.fillStack.stackScheChain.idxOf s < c.fillStack.stackScheChain.idxOf t) := by
  obtain ⟨final, returned, same, isLevel⟩ :=
    findChainsLevel_isLevel fresh root (fun s t depends => (known s t depends).2) acyclic enough
  have once : (final.map (·.chainId)).Nodup := same ▸ distinct
  have levels : ∀ m ∈ final, IsLevel dependencies m.chainId m.level := by
    intro m member
    rw [level_eq_levelOf once member]
    exact isLevel m.chainId
  refine ⟨final, returned, same, levels, ?_⟩
  intro reached σ c empty copied s t depends
  have within : ∀ n id, Walk (Depends dependencies) 0 n id → id ∈ chGraph.map (·.chainId) := by
    intro n id walk
    cases walk with
    | nil => exact root
    | tail _ depends => exact (known _ _ depends).2
  have few : (chGraph.map (·.chainId)).length ≤ 2 ^ 32 := by
    refine length_le_of_lt distinct ?_
    intro id member
    obtain ⟨m, inside, rfl⟩ := List.mem_map.mp member
    exact small m inside
  have below : ∀ m ∈ final, m.level < 2 ^ 32 := by
    intro m member
    have := (levels m member).lt_length acyclic within
    omega
  have stack : c.fillStack.stackScheChain =
      (buildChainLevel c.graph.chainGraph).toList.flatMap (·.2) := by
    simp [Core.fillStack, empty]
  rw [stack]
  exact copied_topological copied once below levels reached (same ▸ (known s t depends).1)
    (same ▸ (known s t depends).2) depends

/-- Chains 1 and 2 depend on chain 0, and chain 2 on chain 1. -/
def twoWays : ChainSets := ((∅ : ChainSets).insert 0 {1, 2}).insert 1 {2}

/-- The entries of the three chains before the search. -/
def twoWaysChains : List ChainGraph :=
  (List.range 3).map fun i => ⟨i, 0, 1, 0, 0, 0, 0, -1, false, [i]⟩

theorem levels_twoWays :
    ∃ final, findChainsLevel twoWays 3 0 0 twoWaysChains = .ok final ∧
      ∀ m ∈ final,
        (m.level = -1 ∧ ¬ ReflTransGen (Depends twoWays) 0 m.chainId) ∨
          ∃ n : Nat, m.level = n ∧ IsGreatest {n | Walk (Depends twoWays) 0 n m.chainId} n := by
  have entries : ∀ e ∈ tableEntries twoWays, e.2 < e.1 ∧ e.1 < 3 := by decide +kernel
  have forward : ∀ s t, Depends twoWays s t → s < t ∧ t < 3 :=
    fun s t depends => entries (t, s) (mem_tableEntries.mpr depends)
  have ids : twoWaysChains.map (·.chainId) = [0, 1, 2] := rfl
  have known : ∀ s t, Depends twoWays s t →
      s ∈ twoWaysChains.map (·.chainId) ∧ t ∈ twoWaysChains.map (·.chainId) := by
    intro s t depends
    have := forward s t depends
    rw [ids]
    simp
    omega
  have acyclic : ∀ s, ReflTransGen (Depends twoWays) 0 s → ¬ TransGen (Depends twoWays) s s := by
    intro s _ cycle
    exact Relations.Acyclic.of_lt id (fun s t depends => (forward s t depends).1) s cycle
  obtain ⟨final, returned, _, levels, _⟩ := levels_are_longest_paths (by decide) (by decide)
    (by decide) (by decide) known acyclic (Nat.le_refl 3)
  exact ⟨final, returned, levels⟩

theorem initializeGraph_levels {param : GraphParam} {instructionLlvm : Opcode → Option Nat}
    {dirty : BoostGraph} {graph : NewGraph}
    (returned : initializeGraph param instructionLlvm dirty = .ok graph) :
    ∃ built, buildChainGraph graph.origGraph graph.chains graph.maps = .ok built ∧
      ((graph.chainGraph.map fun m => (m.chainId, m.level)) =
        built.map fun m => (m.chainId, m.level)) ∧
      ∀ s, ReflTransGen (Depends graph.maps.unDependencies) 0 s →
        ¬ TransGen (Depends graph.maps.unDependencies) s s := by
  obtain ⟨_, _, _, _, searched, built, levelled, blocked⟩ := initializeGraph_stages returned
  refine ⟨built, levelled, createChainBlocks_map _ (fun _ _ => rfl) blocked, ?_⟩
  intro s reached cycle
  obtain ⟨loop, exactly, found⟩ := hasLoop_exact graph.maps.unDependencies
  rw [searched] at exactly
  cases exactly
  have contradiction := found.mpr ⟨s, reached, cycle⟩
  cases contradiction

/-- `buildChainGraph` returns, and leaves the levels that the search is for. -/
theorem buildChainGraph_total (orig : BoostGraph) (maps : DependencyMaps) {chains : Chains}
    (nonempty : 0 < chains.length)
    (known : ∀ s t, Depends maps.unDependencies s t → t < chains.length)
    (acyclic : ∀ s, ReflTransGen (Depends maps.unDependencies) 0 s →
      ¬ TransGen (Depends maps.unDependencies) s s) :
    ∃ built, buildChainGraph orig chains maps = .ok built ∧
      ∀ m ∈ built, IsLevel maps.unDependencies m.chainId m.level := by
  have ids := chainGraphEntry_ids orig chains maps
  have fresh : ∀ m ∈ chains.zipIdx.map (fun e => chainGraphEntry orig maps e.1 e.2),
      m.level = -1 := by
    intro m member
    obtain ⟨_, _, rfl⟩ := List.mem_map.mp member
    rfl
  have enough : (chains.zipIdx.map fun e => chainGraphEntry orig maps e.1 e.2).length ≤
      chains.length + 1 := by
    simp
  obtain ⟨built, returned, same, levels⟩ := findChainsLevel_isLevel fresh
    (ids ▸ List.mem_range.mpr nonempty)
    (fun s t depends => ids ▸ List.mem_range.mpr (known s t depends)) acyclic enough
  refine ⟨built, returned, ?_⟩
  intro m member
  have once : (built.map (·.chainId)).Nodup := (same.trans ids) ▸ List.nodup_range
  rw [level_eq_levelOf once member]
  exact levels m.chainId

theorem buildChainGraph_isLevel {orig : BoostGraph} {chains : Chains} {maps : DependencyMaps}
    {built : List ChainGraph} (returned : buildChainGraph orig chains maps = .ok built)
    (known : ∀ s t, Depends maps.unDependencies s t → t < chains.length)
    (acyclic : ∀ s, ReflTransGen (Depends maps.unDependencies) 0 s →
      ¬ TransGen (Depends maps.unDependencies) s s) :
    ∀ m ∈ built, IsLevel maps.unDependencies m.chainId m.level := by
  obtain ⟨built', returned', levels⟩ := buildChainGraph_total orig maps
    (buildChainGraph_root returned) known acyclic
  rw [returned] at returned'
  cases returned'
  exact levels

/-- In a graph that `initialize` accepts, if chain 0 leads to every chain, then
`preschedule` takes the source of every dependency before its target. -/
theorem Config.levelOrder_before (cfg : Config) (full : cfg.NonEmpty)
    (reached : ∀ id < cfg.numChains, ReflTransGen (Depends cfg.graph.maps.unDependencies) 0 id)
    {s t : Nat} (depends : Depends cfg.graph.maps.unDependencies s t) :
    cfg.levelOrder.idxOf s < cfg.levelOrder.idxOf t := by
  obtain ⟨built, returned, copied, acyclic⟩ := initializeGraph_levels cfg.read
  have ids : built.map (·.chainId) = List.range cfg.numChains := buildChainGraph_ids returned
  have levels := buildChainGraph_isLevel returned (fun s t depends => (cfg.depends_lt depends).2)
    acyclic
  have within : ∀ n id, Walk (Depends cfg.graph.maps.unDependencies) 0 n id →
      id ∈ List.range cfg.numChains := by
    intro n id walk
    cases walk with
    | nil => exact List.mem_range.mpr (buildChainGraph_root returned)
    | tail _ depends => exact List.mem_range.mpr (cfg.depends_lt depends).2
  have few : cfg.numChains < 2 ^ 32 := by
    have none : cfg.graph.chains.count [] = 0 := by
      rw [List.count_eq_zero]
      intro member
      obtain ⟨i, inside, empty⟩ := List.mem_iff_getElem.mp member
      exact full i inside (by simpa [Config.vertices, inside] using empty)
    have all := countChains_add_count cfg.graph.chains
    have few := countChains_le cfg.accepted.part
    have small := cfg.accepted.small
    unfold Config.numChains
    omega
  have small : ∀ m ∈ built, m.level < 2 ^ 32 := by
    intro m member
    have below := (levels m member).lt_length acyclic within
    rw [List.length_range] at below
    omega
  refine copied_topological copied (ids ▸ List.nodup_range) small levels ?_ ?_ ?_ depends
  · intro m member
    have itsId : m.chainId ∈ built.map (·.chainId) := List.mem_map_of_mem member
    rw [ids, List.mem_range] at itsId
    exact reached m.chainId itsId
  · exact ids ▸ List.mem_range.mpr (cfg.depends_lt depends).1
  · exact ids ▸ List.mem_range.mpr (cfg.depends_lt depends).2

end ChainSaw
