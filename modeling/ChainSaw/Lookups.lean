import ChainSaw.IlpGraph
import ChainSaw.StartNode

set_option autoImplicit false

namespace ChainSaw

open Std (TreeMap TreeSet)
open Relation (TransGen ReflTransGen)
open LongestPath (Walk)

/-- The chains that hold a vertex, with chain 0. -/
def walkable (chains : Chains) : List Nat :=
  0 :: (List.range chains.length).filter fun c => !(chains.getD c []).isEmpty

theorem walkable_length {n : Nat} {chains : Chains} (part : Partition n chains) :
    (walkable chains).length ≤ n + 1 := by
  have counted : ((List.range chains.length).filter fun c => !(chains.getD c []).isEmpty).length =
      countChains chains := by
    conv_rhs => rw [chains_eq_range chains, countChains, List.countP_map]
    rw [← List.countP_eq_length_filter]
    rfl
  have few := countChains_le part
  rw [walkable, List.length_cons, counted]
  omega

theorem walk_walkable {g : BoostGraph} {chains : Chains} {n c : Nat}
    (walk : Walk (ChainDep g chains) 0 n c) : c ∈ walkable chains := by
  cases walk with
  | nil => exact List.mem_cons_self
  | tail _ depends =>
    obtain ⟨_, _, v, _, inside, _⟩ := depends
    refine List.mem_cons_of_mem _ (List.mem_filter.mpr ⟨List.mem_range.mpr inside.lt_length, ?_⟩)
    have nonempty : chains.getD c [] ≠ [] := List.ne_nil_of_mem inside
    simpa using nonempty

section accepted

variable {g : BoostGraph} {chains : Chains} {maps : DependencyMaps}
  (part : Partition g.numVertices chains) (built : buildDependencies g chains = .ok maps)
include part built

theorem depends_eq_chainDep : Depends maps.unDependencies = ChainDep g chains := by
  funext s t
  exact propext (depends_iff_chainDep part built s t)

theorem unReverseMapping_converse (s t : Nat) :
    Depends maps.unReverseMapping t s ↔ Depends maps.unDependencies s t := by
  obtain ⟨_, _, _, _, _, converse⟩ := buildDependencies_eq part built
  rw [converse]
  exact depends_reverseMappingSets maps.unDependencies s t

/-- A chain that another depends on has a node. -/
theorem parent_ne_nil {j p : Nat} (depends : Depends maps.unReverseMapping j p) :
    chains.getD p [] ≠ [] := by
  rw [unReverseMapping_converse part built, depends_iff_chainDep part built] at depends
  exact depends.source_ne_nil

end accepted

/-- The chain graph that `createChainBlocks` hands on has the chains as they are. -/
theorem masked_of_copied {orig : BoostGraph} {chains : Chains} {maps : DependencyMaps}
    {built final : List ChainGraph} (returned : buildChainGraph orig chains maps = .ok built)
    (copied : (final.map fun m => (m.chainId, m.nodes)) = built.map fun m => (m.chainId, m.nodes)) :
    Masked chains (fun _ => false) final := by
  refine masked_of_entries (copied.trans ?_)
  rw [buildChainGraph_map (fun _ _ => rfl) returned, List.map_map]
  rfl

/-- The lookups after the loop assertion. For every graph with one start block
whose chains pass the loop check, the level search, `createChainBlocks` and
`buildILPGraph` find all they look up exactly when an edge leads from chain 0 to
another chain. -/
theorem lookups_succeed_iff (param : GraphParam) (clean orig : BoostGraph) (v : Nat) (p : VertexProp)
    (chains : Chains) (maps : DependencyMaps) (write : Nat → VertexProp → VertexProp)
    (read : cleanRemoveReadGraphHelper clean = .ok orig) (start : StartBlock orig v p)
    (decomposed : decompose param clean orig (startChains orig) = .ok (chains, maps))
    (passed : hasLoop maps.unDependencies = .ok false) :
    (∃ built final blocks graphs, buildChainGraph orig chains maps = .ok built ∧
        createChainBlocks maps param.blockLimit (buildChainLevel built) built =
          .ok (final, blocks) ∧
        buildILPGraph write orig maps.unReverseMapping final = .ok graphs) ↔
      ∃ t, ChainDep orig chains 0 t := by
  have part := decompose_partition (startChains_partition orig) decomposed
  obtain ⟨_, _, _, dependencies⟩ := decompose_ok decomposed
  have small := (cleanRemoveReadGraphHelper_ok read).2.1
  have same := depends_eq_chainDep part dependencies
  have some : 0 < chains.length := by
    have inside : v < orig.numVertices := (List.getElem?_eq_some_iff.mp start.found).1
    obtain ⟨i, inChain⟩ := part.exists_chain inside
    exact Nat.zero_lt_of_lt inChain.lt_length
  have known : ∀ s t, Depends maps.unDependencies s t → t < chains.length :=
    fun _ _ depends => (depends_lt_length part dependencies depends).2
  have acyclic : ∀ s, ReflTransGen (Depends maps.unDependencies) 0 s →
      ¬ TransGen (Depends maps.unDependencies) s s := by
    intro s reached cycle
    rw [same] at reached cycle
    exact (hasLoop_false_iff part dependencies).mp passed ⟨s, reached, cycle⟩
  constructor
  · rintro ⟨built, final, blocks, graphs, returned, created, _⟩
    have root : 0 ∈ built.map (·.chainId) := by
      rw [buildChainGraph_ids returned]
      exact List.mem_range.mpr some
    obtain ⟨_, _, children, found⟩ := createChainBlocks_ok root created
    obtain ⟨t, member⟩ := buildDependencies_noEmptySet dependencies 0 children found
    refine ⟨t, ?_⟩
    rw [← same]
    simpa [Depends, found] using member
  · rintro ⟨t, depends⟩
    rw [← same] at depends
    obtain ⟨built, returned, isLevel⟩ := buildChainGraph_total orig maps some known acyclic
    have below : ∀ m ∈ built, m.level < 2 ^ 32 := by
      intro m member
      have within : ∀ n c, Walk (Depends maps.unDependencies) 0 n c → c ∈ walkable chains := by
        intro n c walk
        rw [same] at walk
        exact walk_walkable walk
      have less := (isLevel m member).lt_length acyclic within
      have few := walkable_length part
      omega
    obtain ⟨_, final, blocks, _, _, created⟩ := buildChainGraph_blocks returned below isLevel
      (acyclic 0 .refl) known (unReverseMapping_converse part dependencies) depends param.blockLimit
    obtain ⟨graphs, ilp, _⟩ := buildILPGraph_total
      (fun j p depends => parent_ne_nil part dependencies depends) write small part
      (masked_of_copied returned (createChainBlocks_map _ (fun _ _ => rfl) created))
    exact ⟨built, final, blocks, graphs, returned, created, ilp⟩

theorem lookups_unreachedLoop :
    ∃ chains maps, decompose ⟨0, 0, 0, 3⟩ unreachedLoop unreachedLoop (startChains unreachedLoop) =
        .ok (chains, maps) ∧
      ∃ built final blocks graphs, buildChainGraph unreachedLoop chains maps = .ok built ∧
        createChainBlocks maps 3 (buildChainLevel built) built = .ok (final, blocks) ∧
        buildILPGraph (fun name p => { p with name }) unreachedLoop maps.unReverseMapping final =
          .ok graphs := by
  have evaluated : Loops.returns
      (fun result : Chains × DependencyMaps =>
        decide (hasLoop result.2.unDependencies = .ok false) &&
          decide (InChain result.1 0 0) && decide (InChain result.1 1 1))
      (decompose ⟨0, 0, 0, 3⟩ unreachedLoop unreachedLoop (startChains unreachedLoop)) = true := by
    decide +kernel
  obtain ⟨⟨chains, maps⟩, decomposed, facts⟩ := Loops.returns_iff.mp evaluated
  simp only [Bool.and_eq_true, decide_eq_true_eq] at facts
  obtain ⟨⟨passed, first⟩, second⟩ := facts
  have start : StartBlock unreachedLoop 0 ⟨0, ⟨.bb, 0⟩, 0, .bb⟩ := by
    refine ⟨rfl, rfl, ?_⟩
    intro w q found isBB
    have only : ∀ e ∈ unreachedLoop.vertices.zipIdx, e.1.opcode = .bb → e.2 = 0 := by decide
    exact only (q, w) (List.mk_mem_zipIdx_iff_getElem?.mpr found) isBB
  have edge : ChainDep unreachedLoop chains 0 1 :=
    ⟨by decide, 0, 1, first, second, by decide⟩
  exact ⟨chains, maps, decomposed, (lookups_succeed_iff ⟨0, 0, 0, 3⟩ unreachedLoop unreachedLoop 0 _
    chains maps _ rfl start decomposed passed).mpr ⟨1, edge⟩⟩

/-- A start block without instructions. -/
def loneStart : BoostGraph where
  vertices := [⟨0, ⟨.bb, 0⟩, 0, .bb⟩]
  edges := []
  bounded := by decide

/-- The loop check accepts the lone start block, and `createChainBlocks` then reads
through the end of `un_dependencies`. -/
theorem loneStart_fails :
    StartBlock loneStart 0 ⟨0, ⟨.bb, 0⟩, 0, .bb⟩ ∧
      cleanRemoveReadGraphHelper loneStart = .ok loneStart ∧
      ∃ chains maps built,
        decompose ⟨1, 1, 1, 3⟩ loneStart loneStart (startChains loneStart) = .ok (chains, maps) ∧
        hasLoop maps.unDependencies = .ok false ∧
        buildChainGraph loneStart chains maps = .ok built ∧
        createChainBlocks maps 3 (buildChainLevel built) built = .error .dereference := by
  have start : StartBlock loneStart 0 ⟨0, ⟨.bb, 0⟩, 0, .bb⟩ := by
    refine ⟨rfl, rfl, ?_⟩
    intro w q found _
    have inside : w < 1 := (List.getElem?_eq_some_iff.mp found).1
    omega
  refine ⟨start, rfl, ?_⟩
  have evaluated : Loops.returns
      (fun result : Chains × DependencyMaps =>
        decide (hasLoop result.2.unDependencies = .ok false) &&
          Loops.returns (fun built => match createChainBlocks result.2 3 (buildChainLevel built) built with
            | .error fault => decide (fault = .dereference)
            | .ok _ => false) (buildChainGraph loneStart result.1 result.2))
      (decompose ⟨1, 1, 1, 3⟩ loneStart loneStart (startChains loneStart)) = true := by
    decide +kernel
  obtain ⟨⟨chains, maps⟩, decomposed, facts⟩ := Loops.returns_iff.mp evaluated
  simp only [Bool.and_eq_true, decide_eq_true_eq] at facts
  obtain ⟨built, returned, failed⟩ := Loops.returns_iff.mp facts.2
  refine ⟨chains, maps, built, decomposed, facts.1, returned, ?_⟩
  split at failed
  · rename_i fault isFault
    rw [isFault, of_decide_eq_true failed]
  · cases failed

end ChainSaw
