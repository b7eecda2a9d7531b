import ChainSaw.Merging
import ChainSaw.Reading

set_option autoImplicit false

namespace ChainSaw

open Std (TreeMap TreeSet)
open Relation (TransGen ReflTransGen)
open Relations (Acyclic)

theorem crossEdges_congr {P Q : Type} {g : AdjacencyList P} {h : AdjacencyList Q}
    (same : ∀ v, g.outEdges v = h.outEdges v) (chains : Chains) :
    crossEdges g chains = crossEdges h chains := by
  simp only [crossEdges, same]

theorem unDependenciesOf_congr {P Q : Type} {g : AdjacencyList P} {h : AdjacencyList Q}
    (same : ∀ v, g.outEdges v = h.outEdges v) (chains : Chains) :
    unDependenciesOf g chains = unDependenciesOf h chains := by
  unfold unDependenciesOf dependenciesGenerate
  rw [crossEdges_congr same]

theorem buildDependencies_unDependencies {g : BoostGraph} {chains : Chains} {maps : DependencyMaps}
    (returned : buildDependencies g chains = .ok maps) :
    unDependenciesOf g chains = .ok maps.unDependencies := by
  obtain ⟨dependencies, generated, returned⟩ := Loops.bind_eq_ok.mp returned
  cases returned
  unfold unDependenciesOf
  rw [generated]
  rfl

theorem buildDependencies_total {g : BoostGraph} {chains : Chains}
    (part : Partition g.numVertices chains) : ∃ maps, buildDependencies g chains = .ok maps := by
  dsimp only [buildDependencies]
  rw [dependenciesGenerate_eq part]
  exact ⟨_, rfl⟩

/-- The sets of `un_dependencies` are the edges between the final chains. -/
theorem depends_iff_chainDep {g : BoostGraph} {chains : Chains} {maps : DependencyMaps}
    (part : Partition g.numVertices chains) (returned : buildDependencies g chains = .ok maps)
    (s t : Nat) : Depends maps.unDependencies s t ↔ ChainDep g chains s t := by
  obtain ⟨un, generated, exact⟩ := unDependenciesOf_total part
  rw [buildDependencies_unDependencies returned] at generated
  cases generated
  exact exact s t

theorem depends_lt_length {g : BoostGraph} {chains : Chains} {maps : DependencyMaps}
    (part : Partition g.numVertices chains) (returned : buildDependencies g chains = .ok maps)
    {s t : Nat} (depends : Depends maps.unDependencies s t) :
    s < chains.length ∧ t < chains.length :=
  ((depends_iff_chainDep part returned s t).mp depends).lt_length

/-- What `decompose` has done when it returns. -/
theorem decompose_ok {param : GraphParam} {clean orig : BoostGraph} {chains final : Chains}
    {maps : DependencyMaps} (returned : decompose param clean orig chains = .ok (final, maps)) :
    ∃ broken, breakPasses param orig chains = .ok broken ∧
      mergePass param clean broken = .ok final ∧ buildDependencies orig final = .ok maps := by
  obtain ⟨broken, cut, returned⟩ := Loops.bind_eq_ok.mp returned
  obtain ⟨merged, joined, returned⟩ := Loops.bind_eq_ok.mp returned
  obtain ⟨maps', built, returned⟩ := Loops.bind_eq_ok.mp returned
  cases returned
  exact ⟨broken, cut, joined, built⟩

theorem decompose_partition {param : GraphParam} {clean orig : BoostGraph} {chains final : Chains}
    {maps : DependencyMaps} (part : Partition orig.numVertices chains)
    (returned : decompose param clean orig chains = .ok (final, maps)) :
    Partition orig.numVertices final := by
  obtain ⟨broken, cut, joined, _⟩ := decompose_ok returned
  obtain ⟨broken', cut', splits, _⟩ := breakPasses_total param orig part
  rw [cut] at cut'
  cases cut'
  exact merges_partition (mergePass_ok joined) (splits_partition splits part)

/-- Either flag leaves path chains of an acyclic graph without a loop between them. -/
theorem breakPasses_acyclic {param : GraphParam} {g : BoostGraph} {chains : Chains}
    (part : Partition g.numVertices chains) (paths : Paths g chains) (acyclic : Acyclic g.Edge)
    (flag : param.breakLiveOut ≠ 0 ∨ param.breakLiveIn ≠ 0) {broken : Chains}
    (returned : breakPasses param g chains = .ok broken) :
    Acyclic (ChainDep g broken) ∧ Paths g broken := by
  obtain ⟨broken', cut, splits, first, last⟩ := breakPasses_total param g part
  rw [returned] at cut
  cases cut
  have stillPaths := (splits_refines splits).paths paths
  refine ⟨?_, stillPaths⟩
  by_cases live : param.breakLiveIn ≠ 0
  · exact (first live).acyclic stillPaths acyclic
  · have unset : param.breakLiveIn = 0 := Decidable.byContradiction live
    exact (last unset (flag.resolve_right live)).acyclic stillPaths acyclic

/-- The check on the final maps passes if it passed on the unmerged chains: the
last merge was accepted by the same check on the same dependencies. -/
theorem merged_loopFree {clean orig : BoostGraph} (same : ∀ v, orig.outEdges v = clean.outEdges v)
    {broken final : Chains} (merges : ReflTransGen (MergeStep clean) broken final)
    (start : (unDependenciesOf orig broken >>= hasLoop) = .ok false) :
    (unDependenciesOf orig final >>= hasLoop) = .ok false := by
  cases merges with
  | refl => exact start
  | tail _ step =>
    rw [unDependenciesOf_congr same]
    exact step.loopFree

/-- The loop check on a partition answers, and finds exactly the loops between
chains that chain 0 leads to. -/
theorem loopCheck_exact {g : BoostGraph} {chains : Chains} (part : Partition g.numVertices chains) :
    ∃ loop, (unDependenciesOf g chains >>= hasLoop) = .ok loop ∧
      (loop = true ↔ ∃ c, ReflTransGen (ChainDep g chains) 0 c ∧ TransGen (ChainDep g chains) c c) := by
  obtain ⟨un, generated, same⟩ := unDependenciesOf_total part
  have same : Depends un = ChainDep g chains := by
    funext s t
    exact propext (same s t)
  obtain ⟨loop, checked, found⟩ := hasLoop_exact un
  refine ⟨loop, ?_, by rw [← same]; exact found⟩
  rw [generated, Loops.ok_bind, checked]

theorem acyclic_loopFree {g : BoostGraph} {chains : Chains}
    (part : Partition g.numVertices chains) (acyclic : Acyclic (ChainDep g chains)) :
    (unDependenciesOf g chains >>= hasLoop) = .ok false := by
  obtain ⟨loop, checked, found⟩ := loopCheck_exact part
  cases loop with
  | false => exact checked
  | true =>
    obtain ⟨c, _, cycle⟩ := found.mp rfl
    exact absurd cycle (acyclic c)

/-- With a break flag set, every partition of an acyclic graph into non-empty
paths is broken into paths whose dependency graph is acyclic, and the loop
assertion of `initialize` holds with and without merging. -/
theorem breaking_makes_loop_free (param : GraphParam) (clean orig : BoostGraph) (chains : Chains)
    (read : cleanRemoveReadGraphHelper clean = .ok orig) (acyclic : Acyclic orig.Edge)
    (part : Partition orig.numVertices chains) (nonempty : ∀ c ∈ chains, c ≠ [])
    (paths : Paths orig chains) (flag : param.breakLiveOut ≠ 0 ∨ param.breakLiveIn ≠ 0) :
    (∃ broken, breakPasses param orig chains = .ok broken ∧ Acyclic (ChainDep orig broken) ∧
        Paths orig broken) ∧
      ∃ final maps, decompose param clean orig chains = .ok (final, maps) ∧
        hasLoop maps.unDependencies = .ok false := by
  obtain ⟨sameVertices, _, same⟩ := cleanRemoveReadGraphHelper_ok read
  obtain ⟨broken, cut, splits, _⟩ := breakPasses_total param orig part
  have brokenPart := splits_partition splits part
  obtain ⟨brokenAcyclic, brokenPaths⟩ := breakPasses_acyclic part paths acyclic flag cut
  refine ⟨⟨broken, cut, brokenAcyclic, brokenPaths⟩, ?_⟩
  have brokenNonempty := splits_nonempty splits nonempty
  have sameSize : orig.numVertices = clean.numVertices := congrArg List.length sameVertices
  obtain ⟨final, joined⟩ := mergePass_total param (sameSize ▸ brokenPart) brokenNonempty
  have merges := mergePass_ok joined
  obtain ⟨maps, built⟩ := buildDependencies_total (merges_partition merges brokenPart)
  have checked := merged_loopFree same merges (acyclic_loopFree brokenPart brokenAcyclic)
  rw [buildDependencies_unDependencies built, Loops.ok_bind] at checked
  refine ⟨final, maps, ?_, checked⟩
  unfold decompose
  rw [cut, Loops.ok_bind, joined, Loops.ok_bind, built]
  rfl

/-- Two crossing paths: each chain has an edge into the other one. -/
def crossingPaths : BoostGraph where
  vertices := (List.range 4).map fun v => ⟨v, ⟨.other "Add", v⟩, v % 2, .other "Add"⟩
  edges := [(0, 2), (0, 3), (1, 3), (1, 2)]
  bounded := by decide

theorem breaking_crossingPaths :
    (∃ broken, breakPasses ⟨1, 0, 1, 3⟩ crossingPaths [[0, 2], [1, 3]] = .ok broken ∧
        Acyclic (ChainDep crossingPaths broken) ∧ Paths crossingPaths broken) ∧
      ∃ final maps, decompose ⟨1, 0, 1, 3⟩ crossingPaths crossingPaths [[0, 2], [1, 3]] =
        .ok (final, maps) ∧ hasLoop maps.unDependencies = .ok false := by
  apply breaking_makes_loop_free
  · rfl
  · refine Acyclic.of_lt id fun u v edge => ?_
    have increasing : ∀ e ∈ crossingPaths.edges, e.1 < e.2 := by decide
    exact increasing (u, v) ((crossingPaths.edge_iff u v).mp edge)
  · unfold Partition
    decide
  · decide
  · intro c member
    have path : ∀ c ∈ [[0, 2], [1, 3]], c.IsChain crossingPaths.Edge := by decide
    exact path c member
  · decide

/-- The loop check from chain 0 accepts exactly when no loop between chains can
be reached from chain 0. -/
theorem hasLoop_false_iff {g : BoostGraph} {chains : Chains} {maps : DependencyMaps}
    (part : Partition g.numVertices chains) (built : buildDependencies g chains = .ok maps) :
    hasLoop maps.unDependencies = .ok false ↔
      ¬ ∃ c, ReflTransGen (ChainDep g chains) 0 c ∧ TransGen (ChainDep g chains) c c := by
  obtain ⟨loop, checked, found⟩ := loopCheck_exact part
  rw [buildDependencies_unDependencies built, Loops.ok_bind] at checked
  rw [checked, ← found]
  cases loop <;> simp

/-- Two chains that wait for each other, beside a start block that leads to
neither of them. -/
def unreachedLoop : BoostGraph where
  vertices := [⟨0, ⟨.bb, 0⟩, 0, .bb⟩, ⟨1, ⟨.other "Add", 1⟩, 1, .other "Add"⟩,
    ⟨2, ⟨.other "Add", 2⟩, 2, .other "Add"⟩, ⟨3, ⟨.other "Add", 3⟩, 3, .other "Add"⟩,
    ⟨4, ⟨.other "Add", 4⟩, 2, .other "Add"⟩, ⟨5, ⟨.other "Add", 5⟩, 3, .other "Add"⟩]
  edges := [(0, 1), (2, 5), (3, 4)]
  bounded := by decide

end ChainSaw
