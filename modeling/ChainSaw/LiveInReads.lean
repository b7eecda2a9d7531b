import ChainSaw.Splitting

set_option autoImplicit false

namespace ChainSaw

/-- The targets of the edges that leave the nodes of chain `s`, in the order in
which the helpers go through them. -/
def targets (g : BoostGraph) (chains : Chains) (s : Nat) : List Nat :=
  (chains.getD s []).flatMap g.outEdges

/-- Every edge of chain `s` leads to the front of chain `t`. -/
def AllToFront (g : BoostGraph) (chains : Chains) (s t : Nat) : Prop :=
  ∀ v ∈ targets g chains s, (chains.getD t []).head? = some v

/-- Edge after edge of chain `s` leads to the front of chain `t`, up to one that
leads to a later node of chain `t`. -/
def FrontsThenInner (g : BoostGraph) (chains : Chains) (s t : Nat) : Prop :=
  ∃ before v after, targets g chains s = before ++ v :: after ∧
    (∀ u ∈ before, (chains.getD t []).head? = some u) ∧
    InChain chains t v ∧ (chains.getD t []).head? ≠ some v

/-- The search that `breakInHelper` makes for one dependency. -/
def scanTargets (g : BoostGraph) (chains : Chains) (s t : Nat) : Result (Option Chains) :=
  (targets g chains s).findSomeM? (readTarget chains t)

theorem breakInHelperReads_eq (chains : Chains) (dependencies : List ChainDependency)
    (g : BoostGraph) : breakInHelperReads chains dependencies g =
      dependencies.findSomeM? fun dep => scanTargets g chains dep.source dep.target := by
  unfold breakInHelperReads scanTargets targets
  congr 1
  funext dep
  rw [Loops.findSomeM?_flatMap]

/-- A read is valid exactly when the target is a node of the chain. -/
theorem readTarget_eq (chains : Chains) (t target : Nat) : readTarget chains t target =
    if (chains.getD t []).head? = some target then .ok none
    else if InChain chains t target then
      .ok (some (splitChain chains t ((chains.getD t []).idxOf target)))
    else .error .dereference := by
  dsimp only [readTarget]
  by_cases member : InChain chains t target
  · have inside := List.idxOf_lt_length_of_mem member
    obtain ⟨front, rest, shape⟩ := List.exists_cons_of_ne_nil (List.ne_nil_of_mem member)
    have head : (chains.getD t []).head? = some front := by rw [shape, List.head?_cons]
    rw [List.getElem?_idxOf member, head]
    simp only [deref, Loops.ok_bind, Loops.pure_eq_ok, Option.some.injEq]
    by_cases first : target = front
    · rw [if_pos first, if_pos first.symm]
    · rw [if_neg first, if_neg (Ne.symm first), if_pos inside.ne, if_pos member]
  · have missing : (chains.getD t []).idxOf target = (chains.getD t []).length :=
      List.idxOf_eq_length_iff.mpr member
    have front : (chains.getD t []).head? ≠ some target :=
      fun head => member (List.mem_of_head? head)
    rw [missing, List.getElem?_eq_none (Nat.le_refl _), if_neg front, if_neg member]
    rfl

theorem readTarget_none_iff {chains : Chains} {t target : Nat} :
    readTarget chains t target = .ok none ↔ (chains.getD t []).head? = some target := by
  rw [readTarget_eq]
  split
  · simp_all
  · split <;> simp_all

theorem readTarget_some_iff {chains : Chains} {t target : Nat} :
    (∃ next, readTarget chains t target = .ok (some next)) ↔
      InChain chains t target ∧ (chains.getD t []).head? ≠ some target := by
  rw [readTarget_eq]
  split
  · simp_all
  · split <;> simp_all

theorem scanTargets_none_iff {g : BoostGraph} {chains : Chains} {s t : Nat} :
    scanTargets g chains s t = .ok none ↔ AllToFront g chains s t := by
  unfold scanTargets AllToFront
  rw [Loops.findSomeM?_none_iff]
  simp only [readTarget_none_iff]

theorem scanTargets_some_iff {g : BoostGraph} {chains : Chains} {s t : Nat} :
    (∃ next, scanTargets g chains s t = .ok (some next)) ↔ FrontsThenInner g chains s t := by
  unfold scanTargets FrontsThenInner
  simp only [Loops.findSomeM?_some_iff, readTarget_none_iff]
  constructor
  · rintro ⟨next, before, v, after, split, fronts, read⟩
    exact ⟨before, v, after, split, fronts, readTarget_some_iff.mp ⟨next, read⟩⟩
  · rintro ⟨before, v, after, split, fronts, inner⟩
    obtain ⟨next, read⟩ := readTarget_some_iff.mpr inner
    exact ⟨next, before, v, after, split, fronts, read⟩

/-- Where no read goes wrong, `breakInHelper` is what the reads compute. -/
theorem breakInHelperReads_ok {chains : Chains} {dependencies : List ChainDependency}
    {g : BoostGraph} {broken : Option Chains}
    (returned : breakInHelperReads chains dependencies g = .ok broken) :
    broken = breakInHelper chains dependencies g := by
  apply Loops.findSomeM?_ok_eq _ returned
  intro dep scanned returned
  apply Loops.findSomeM?_ok_eq _ returned
  intro node scanned returned
  apply Loops.findSomeM?_ok_eq _ returned
  intro target read returned
  rw [readTarget_eq] at returned
  by_cases front : (chains.getD dep.target []).head? = some target
  · rw [if_pos front] at returned ⊢
    cases returned
    rfl
  · rw [if_neg front] at returned ⊢
    by_cases member : InChain chains dep.target target
    · rw [if_pos member] at returned
      cases returned
      exact (if_pos member).symm
    · rw [if_neg member] at returned
      cases returned

/-- The targets of the edges that leave chain `s` for another chain. -/
def crossTargets (g : BoostGraph) (chains : Chains) (s : Nat) : List Nat :=
  (targets g chains s).filter fun v => v ∉ chains.getD s []

/-- The search that `breakInHelper` makes for the dependencies of chain `s`. -/
def scanChain (g : BoostGraph) (chains : Chains) (s : Nat) : Result (Option Chains) :=
  (crossTargets g chains s).findSomeM? fun v => scanTargets g chains s (chainOf chains v)

/-- Chain `s` has an edge to another chain. -/
def LeavesChain (g : BoostGraph) (chains : Chains) (s : Nat) : Prop := crossTargets g chains s ≠ []

/-- All edges of chain `s` lead to the front of one other chain. -/
def OneFront (g : BoostGraph) (chains : Chains) (s : Nat) : Prop :=
  ∃ t, t ≠ s ∧ AllToFront g chains s t

/-- The edges of chain `s` lead to the front of one other chain, up to one that
leads to a later node of that chain. -/
def OneInner (g : BoostGraph) (chains : Chains) (s : Nat) : Prop :=
  ∃ t, t ≠ s ∧ FrontsThenInner g chains s t

section Partitioned

variable {g : BoostGraph} {chains : Chains}

theorem mem_targets {s v : Nat} :
    v ∈ targets g chains s ↔ ∃ u, InChain chains s u ∧ g.Edge u v := by
  simp [targets, InChain, AdjacencyList.Edge]

theorem mem_crossTargets (part : Partition g.numVertices chains) {s v : Nat}
    (cross : v ∈ crossTargets g chains s) :
    v ∈ targets g chains s ∧ chainOf chains v ≠ s ∧ InChain chains (chainOf chains v) v := by
  obtain ⟨target, outside⟩ := List.mem_filter.mp cross
  obtain ⟨u, _, edge⟩ := mem_targets.mp target
  obtain ⟨t, inside⟩ := part.exists_chain edge.bounds.2
  rw [chainOf_eq part.nodup inside]
  refine ⟨target, ?_, inside⟩
  intro same
  rw [same] at inside
  exact of_decide_eq_true outside inside

/-- The first dependency of a chain decides: where its search finds nothing, all
dependencies of the chain are the same. -/
theorem scanChain_eq (part : Partition g.numVertices chains) {s first : Nat} {rest : List Nat}
    (cross : crossTargets g chains s = first :: rest) :
    scanChain g chains s = scanTargets g chains s (chainOf chains first) := by
  unfold scanChain
  rw [cross, Loops.findSomeM?_cons]
  cases scanned : scanTargets g chains s (chainOf chains first) with
  | error fault => rfl
  | ok found =>
    cases found with
    | some next => rfl
    | none =>
      rw [Loops.ok_bind, Loops.findSomeM?_none_iff.mpr]
      intro v later
      have member : v ∈ crossTargets g chains s := by rw [cross]; exact .tail _ later
      obtain ⟨target, _, inside⟩ := mem_crossTargets part member
      have front := scanTargets_none_iff.mp scanned v target
      have same : InChain chains (chainOf chains first) v := List.mem_of_head? front
      rw [part.unique inside same]
      exact scanned

theorem scanChain_none_iff (part : Partition g.numVertices chains) {s : Nat} :
    scanChain g chains s = .ok none ↔ (LeavesChain g chains s → OneFront g chains s) := by
  unfold LeavesChain
  cases cross : crossTargets g chains s with
  | nil => simp [scanChain, cross]
  | cons first rest =>
    obtain ⟨target, other, inside⟩ :=
      mem_crossTargets part (v := first) (by rw [cross]; exact .head _)
    rw [scanChain_eq part cross, scanTargets_none_iff]
    constructor
    · exact fun front _ => ⟨_, other, front⟩
    · intro front
      obtain ⟨t, _, front⟩ := front (by simp)
      have same : InChain chains t first := List.mem_of_head? (front first target)
      rw [part.unique inside same]
      exact front

theorem scanChain_some_iff (part : Partition g.numVertices chains) {s : Nat} :
    (∃ next, scanChain g chains s = .ok (some next)) ↔ OneInner g chains s := by
  constructor
  · rintro ⟨next, scanned⟩
    cases cross : crossTargets g chains s with
    | nil => simp [scanChain, cross] at scanned
    | cons first rest =>
      obtain ⟨_, other, _⟩ := mem_crossTargets part (v := first) (by rw [cross]; exact .head _)
      rw [scanChain_eq part cross] at scanned
      exact ⟨_, other, scanTargets_some_iff.mp ⟨next, scanned⟩⟩
  · rintro ⟨t, other, before, v, after, split, fronts, inner⟩
    -- the first target of all is a node of `t`, so it is the first cross target too
    obtain ⟨first, rest, shape⟩ : ∃ first rest, targets g chains s = first :: rest := by
      rw [split]
      exact List.exists_cons_of_ne_nil (by simp)
    have inT : InChain chains t first := by
      cases before with
      | nil =>
        cases shape.symm.trans split
        exact inner.1
      | cons u before =>
        cases shape.symm.trans split
        exact List.mem_of_head? (fronts first (by simp))
    have outside : first ∉ chains.getD s [] := fun inS => other (part.unique inT inS)
    have cross : crossTargets g chains s = first :: rest.filter fun v => v ∉ chains.getD s [] := by
      unfold crossTargets
      rw [shape, List.filter_cons_of_pos (by simpa using outside)]
    rw [scanChain_eq part cross, chainOf_eq part.nodup inT]
    exact scanTargets_some_iff.mpr ⟨before, v, after, split, fronts, inner⟩

theorem dependencies_by_chain (part : Partition g.numVertices chains) :
    (crossEdges g chains).map (fun e => ChainDependency.mk (chainOf chains e.1) (chainOf chains e.2)) =
      (List.range chains.length).flatMap fun s =>
        (crossTargets g chains s).map fun v => ⟨s, chainOf chains v⟩ := by
  unfold crossEdges
  rw [flatMap_eq_range, List.map_flatMap]
  apply List.flatMap_congr
  intro s _
  unfold crossTargets targets
  rw [List.filter_flatMap, List.map_flatMap, List.map_flatMap]
  apply List.flatMap_congr
  intro v member
  rw [List.map_map]
  apply List.map_congr_left
  intro t _
  rw [Function.comp_apply, chainOf_eq part.nodup member]

/-- The dependencies come chain by chain. -/
theorem breakInHelperReads_by_chain (part : Partition g.numVertices chains)
    {dependencies : List ChainDependency}
    (generated : dependenciesGenerate g chains (vertexToChainMap chains) = .ok dependencies) :
    breakInHelperReads chains dependencies g =
      (List.range chains.length).findSomeM? (scanChain g chains) := by
  rw [dependenciesGenerate_eq part, dependencies_by_chain part] at generated
  cases generated
  rw [breakInHelperReads_eq, Loops.findSomeM?_flatMap]
  congr 1
  funext s
  unfold scanChain
  generalize crossTargets g chains s = cross
  induction cross with
  | nil => rfl
  | cons v rest ih => rw [List.map_cons, Loops.findSomeM?_cons, Loops.findSomeM?_cons, ih]

theorem LeavesChain.lt_length {s : Nat} (leaves : LeavesChain g chains s) : s < chains.length := by
  obtain ⟨v, cross⟩ := List.exists_mem_of_ne_nil _ leaves
  obtain ⟨u, inside, _⟩ := mem_targets.mp (List.mem_of_mem_filter cross)
  exact inside.lt_length

end Partitioned

/-- For every graph, every partition and the dependencies made for it: each
iterator that `breakInHelper` reads points into the target chain exactly when
every chain with an edge to another chain, up to the first that gets cut, has
edges to one other chain only: to its front, or to the front up to an edge to a
later node. -/
theorem live_in_reads_iff (g : BoostGraph) (chains : Chains) (dependencies : List ChainDependency)
    (part : Partition g.numVertices chains)
    (generated : dependenciesGenerate g chains (vertexToChainMap chains) = .ok dependencies) :
    (∃ broken, breakInHelperReads chains dependencies g = .ok broken) ↔
      ∀ s, LeavesChain g chains s → (∀ r < s, ¬ OneInner g chains r) →
        OneFront g chains s ∨ OneInner g chains s := by
  rw [breakInHelperReads_by_chain part generated, Loops.findSomeM?_range_iff]
  constructor
  · intro tried s leaves uncut
    -- no chain before `s` is cut, so the search passes all of them
    have passed : ∀ r < s, scanChain g chains r = .ok none := by
      intro r
      induction r using Nat.strongRecOn with
      | ind r ih =>
        intro before
        have inside : r < chains.length := before.trans leaves.lt_length
        obtain ⟨found, scanned⟩ := tried r inside fun q lt => ih q lt (lt.trans before)
        cases found with
        | none => exact scanned
        | some next => exact absurd ((scanChain_some_iff part).mp ⟨next, scanned⟩) (uncut r before)
    obtain ⟨found, scanned⟩ := tried s leaves.lt_length passed
    cases found with
    | none => exact .inl ((scanChain_none_iff part).mp scanned leaves)
    | some next => exact .inr ((scanChain_some_iff part).mp ⟨next, scanned⟩)
  · intro fronts s _ passed
    by_cases leaves : LeavesChain g chains s
    · have uncut : ∀ r < s, ¬ OneInner g chains r := by
        intro r before inner
        obtain ⟨next, scanned⟩ := (scanChain_some_iff part).mpr inner
        rw [passed r before] at scanned
        cases scanned
      rcases fronts s leaves uncut with front | inner
      · exact ⟨none, (scanChain_none_iff part).mpr fun _ => front⟩
      · obtain ⟨next, scanned⟩ := (scanChain_some_iff part).mpr inner
        exact ⟨some next, scanned⟩
    · exact ⟨none, (scanChain_none_iff part).mpr fun present => absurd present leaves⟩

/-- A start block, a chain of two nodes behind it and one more node. -/
def threeInARow : BoostGraph where
  vertices := [⟨0, ⟨.bb, 0⟩, 0, .bb⟩, ⟨1, ⟨.other "Add", 1⟩, 1, .other "Add"⟩,
    ⟨2, ⟨.other "Add", 2⟩, 1, .other "Add"⟩, ⟨3, ⟨.other "Add", 3⟩, 2, .other "Add"⟩]
  edges := [(0, 1), (1, 2), (2, 3)]
  bounded := by decide

/-- The edge inside the second chain makes the helper read through `end()`. -/
theorem threeInARow_reads_end :
    startChains threeInARow = [[0], [1, 2], [3]] ∧
      Partition threeInARow.numVertices [[0], [1, 2], [3]] ∧
      ∃ dependencies, dependenciesGenerate threeInARow [[0], [1, 2], [3]]
          (vertexToChainMap [[0], [1, 2], [3]]) = .ok dependencies ∧
        breakInHelperReads [[0], [1, 2], [3]] dependencies threeInARow = .error .dereference := by
  refine ⟨by decide +kernel, ?_, [⟨0, 1⟩, ⟨1, 2⟩], by decide +kernel, by decide +kernel⟩
  unfold Partition
  decide

/-- The same graph before its second chain is put together. -/
theorem live_in_reads_threeInARow :
    (∃ broken, breakInHelperReads [[0], [1], [2], [3]] [⟨0, 1⟩, ⟨1, 2⟩, ⟨2, 3⟩] threeInARow =
        .ok broken) ↔
      ∀ s, LeavesChain threeInARow [[0], [1], [2], [3]] s →
        (∀ r < s, ¬ OneInner threeInARow [[0], [1], [2], [3]] r) →
        OneFront threeInARow [[0], [1], [2], [3]] s ∨
          OneInner threeInARow [[0], [1], [2], [3]] s := by
  apply live_in_reads_iff
  · unfold Partition
    decide
  · decide +kernel

end ChainSaw
