import ChainSaw.Lib.Pieces
import ChainSaw.LoopCheck

set_option autoImplicit false

namespace ChainSaw

open Relation (ReflTransGen)
open Pieces (Cuts)

theorem splitChain_cuts {chains : Chains} {i k : Nat} (inside : i < chains.length) :
    Cuts chains (splitChain chains i k) := by
  have whole : chains.getD i [] = chains[i] := by simp [inside]
  have parts : chains = chains.take i ++ ([chains[i].take k ++ chains[i].drop k] ++
      chains.drop (i + 1)) := by simp
  have cut := (Cuts.refl (chains.take i)).append
    ((Pieces.cuts_two (chains[i].take k) (chains[i].drop k)).append (Cuts.refl (chains.drop (i + 1))))
  rw [← parts] at cut
  refine cut.perm_right ?_
  unfold splitChain
  rw [whole, List.set_eq_take_append_cons_drop, if_pos inside, List.append_assoc]
  refine List.Perm.append_left _ ?_
  simp only [List.cons_append, List.nil_append]
  refine List.Perm.cons _ ?_
  exact (List.perm_append_singleton _ _).symm

theorem Splits.cuts {chains next : Chains} (split : Splits chains next) : Cuts chains next := by
  obtain ⟨i, k, _, short, rfl⟩ := split
  exact splitChain_cuts (lt_length_of_getD short)

theorem splits_cuts {chains next : Chains} (splits : ReflTransGen Splits chains next) :
    Cuts chains next := by
  induction splits with
  | refl => exact Cuts.refl chains
  | tail _ split ih => exact ih.trans split.cuts

theorem breakingStartNode_cuts (firstNodeId : Nat) (chains : Chains) :
    Cuts chains (breakingStartNode firstNodeId chains) := by
  dsimp only [breakingStartNode]
  split
  · rename_i cut
    exact splitChain_cuts (lt_length_of_getD cut.2)
  · exact Cuts.refl chains

/-- Both break loops end on every partition, every round but the last cutting a
chain into two non-empty parts. Afterwards only last nodes have edges to other
chains, and only first nodes have edges from other chains. -/
theorem break_loops_establish (g : BoostGraph) (chains : Chains)
    (part : Partition g.numVertices chains) :
    (∃ final, breakEveryLiveOut g chains = .ok final ∧ LiveOutLast g final ∧
        ReflTransGen Splits chains final ∧ final.count [] = chains.count []) ∧
      ∃ final, breakEveryLiveIn g chains = .ok final ∧ LiveInFirst g final ∧
        ReflTransGen Splits chains final ∧ final.count [] = chains.count [] := by
  constructor
  · obtain ⟨final, returned, last, splits⟩ := breakEveryLiveOut_total part
    exact ⟨final, returned, last, splits, splits_count_nil splits⟩
  · obtain ⟨final, returned, first, splits⟩ := breakEveryLiveIn_total part
    exact ⟨final, returned, first, splits, splits_count_nil splits⟩

theorem break_loops_crossingPaths :
    (∃ final, breakEveryLiveOut crossingPaths [[0, 2], [], [1, 3]] = .ok final ∧
        LiveOutLast crossingPaths final ∧ ReflTransGen Splits [[0, 2], [], [1, 3]] final ∧
        final.count [] = 1) ∧
      ∃ final, breakEveryLiveIn crossingPaths [[0, 2], [], [1, 3]] = .ok final ∧
        LiveInFirst crossingPaths final ∧ ReflTransGen Splits [[0, 2], [], [1, 3]] final ∧
        final.count [] = 1 := by
  apply break_loops_establish crossingPaths [[0, 2], [], [1, 3]]
  unfold Partition
  decide

/-- The chains after `createChains` and any sequence of the transformations. Only
non-empty chains are merged; `initialize` gives `mergeChain` the graph `clean`. -/
inductive Transformed (clean orig : BoostGraph) : Chains → Prop
  | create : Transformed clean orig (createChains orig).2
  | startNode {chains : Chains} : Transformed clean orig chains →
      Transformed clean orig (breakingStartNode (createChains orig).1 chains)
  | liveOut {chains next : Chains} : Transformed clean orig chains →
      breakEveryLiveOut orig chains = .ok next → Transformed clean orig next
  | liveIn {chains next : Chains} : Transformed clean orig chains →
      breakEveryLiveIn orig chains = .ok next → Transformed clean orig next
  | merge {chains next : Chains} : Transformed clean orig chains → (∀ c ∈ chains, c ≠ []) →
      mergeChain chains clean = .ok (some next) → Transformed clean orig next

theorem Transformed.partition {clean orig : BoostGraph} {chains : Chains}
    (reached : Transformed clean orig chains) : Partition orig.numVertices chains := by
  induction reached with
  | create => exact createChains_partition orig
  | startNode _ ih => exact (breakingStartNode_flatten _ _).trans ih
  | liveOut _ returned ih =>
    obtain ⟨final, total, _, splits⟩ := breakEveryLiveOut_total ih
    rw [returned] at total
    cases total
    exact splits_partition splits ih
  | liveIn _ returned ih =>
    obtain ⟨final, total, _, splits⟩ := breakEveryLiveIn_total ih
    rw [returned] at total
    cases total
    exact splits_partition splits ih
  | merge _ _ returned ih => exact (mergeChain_some returned).partition ih

/-- Two of the chains are replaced by their concatenation. -/
def Concatenates (chains next : Chains) : Prop :=
  ∃ first second rest, chains.Perm (first :: second :: rest) ∧ next.Perm ((first ++ second) :: rest)

theorem set_perm_cons_eraseIdx {chains : Chains} {i : Nat} (inside : i < chains.length)
    (c : List Nat) : (chains.set i c).Perm (c :: chains.eraseIdx i) := by
  rw [List.set_eq_take_append_cons_drop, if_pos inside, List.eraseIdx_eq_take_drop_succ]
  exact List.perm_middle

theorem perm_cons_eraseIdx {chains : Chains} {i : Nat} (inside : i < chains.length) :
    chains.Perm (chains[i] :: chains.eraseIdx i) := by
  have whole := set_perm_cons_eraseIdx inside chains[i]
  rwa [List.set_getElem_self] at whole

theorem joinChains_concatenates {chains : Chains} {i t : Nat} (insideI : i < chains.length)
    (insideT : t < chains.length) (apart : t ≠ i) : Concatenates chains (joinChains chains i t) := by
  have other : chains[t] ∈ chains.eraseIdx i :=
    List.mem_eraseIdx_iff_getElem.mpr ⟨t, insideT, apart, rfl⟩
  have rest := List.perm_cons_erase other
  refine ⟨chains[i], chains[t], (chains.eraseIdx i).erase chains[t],
    (perm_cons_eraseIdx insideI).trans (rest.cons _), ?_⟩
  have inSet : t < (chains.set i (chains[i] ++ chains[t])).length := by simpa using insideT
  have taken := perm_cons_eraseIdx inSet
  rw [List.getElem_set_ne (Ne.symm apart), ← joinChains_eq insideI insideT] at taken
  have placed := set_perm_cons_eraseIdx insideI (chains[i] ++ chains[t])
  have both := taken.symm.trans (placed.trans (rest.cons _))
  exact (both.trans (List.Perm.swap _ _ _)).cons_inv

theorem MergeStep.concatenates {g : BoostGraph} {chains next : Chains}
    (step : MergeStep g chains next) : Concatenates chains next := by
  obtain ⟨i, t, searched, rfl⟩ := step
  have pair := mergePair_some searched
  exact joinChains_concatenates pair.insideI pair.insideT pair.apart

/-- After `createChains` and any sequence of transformations the chains partition
the vertices, so every vertex has its chain and no dependency is a self loop. The
next transformation returns whatever it is; the break steps only cut chains and a
merge only concatenates two. -/
theorem chain_partition_invariant {clean orig : BoostGraph}
    (read : cleanRemoveReadGraphHelper clean = .ok orig) {chains : Chains}
    (reached : Transformed clean orig chains) :
    Partition orig.numVertices chains ∧
      (∀ v < orig.numVertices, ∃ i, (vertexToChainMap chains)[v]? = some i ∧ InChain chains i v) ∧
      (∃ dependencies,
        dependenciesGenerate orig chains (vertexToChainMap chains) = .ok dependencies) ∧
      Cuts chains (breakingStartNode (createChains orig).1 chains) ∧
      (∃ next, breakEveryLiveOut orig chains = .ok next ∧ Cuts chains next) ∧
      (∃ next, breakEveryLiveIn orig chains = .ok next ∧ Cuts chains next) ∧
      ((∀ c ∈ chains, c ≠ []) → ∃ merged, mergeChain chains clean = .ok merged ∧
        ∀ next, merged = some next → Concatenates chains next) := by
  have part := reached.partition
  obtain ⟨sameVertices, _, _⟩ := cleanRemoveReadGraphHelper_ok read
  have sameSize : orig.numVertices = clean.numVertices := congrArg List.length sameVertices
  refine ⟨part, ?_, ⟨_, dependenciesGenerate_eq part⟩, breakingStartNode_cuts _ _, ?_, ?_, ?_⟩
  · intro v bound
    obtain ⟨i, inside⟩ := part.exists_chain bound
    exact ⟨i, vertexToChainMap_of_inChain part.nodup inside, inside⟩
  · obtain ⟨final, returned, _, splits⟩ := breakEveryLiveOut_total part
    exact ⟨final, returned, splits_cuts splits⟩
  · obtain ⟨final, returned, _, splits⟩ := breakEveryLiveIn_total part
    exact ⟨final, returned, splits_cuts splits⟩
  · intro nonempty
    obtain ⟨pair, searched⟩ := mergePair_total (sameSize ▸ part) nonempty
    refine ⟨pair.map fun e => joinChains chains e.1 e.2, ?_, ?_⟩
    · unfold mergeChain
      rw [searched]
      rfl
    · intro next merged
      obtain ⟨⟨i, t⟩, rfl, rfl⟩ := Option.map_eq_some_iff.mp merged
      exact MergeStep.concatenates ⟨i, t, searched, rfl⟩

/-- A start block with its successor in one chain, and a second chain behind it. -/
def startAndTail : BoostGraph where
  vertices := [⟨0, ⟨.bb, 0⟩, 0, .bb⟩, ⟨1, ⟨.other "Add", 1⟩, 0, .other "Add"⟩,
    ⟨2, ⟨.other "Mul", 2⟩, 1, .other "Mul"⟩]
  edges := [(0, 1), (0, 2), (1, 2)]
  bounded := by decide

theorem chain_partition_startAndTail :
    Transformed startAndTail startAndTail [[0], [1, 2]] ∧ Partition 3 [[0], [1, 2]] ∧
      (∃ dependencies, dependenciesGenerate startAndTail [[0], [1, 2]]
        (vertexToChainMap [[0], [1, 2]]) = .ok dependencies) ∧
      ∃ next, breakEveryLiveIn startAndTail [[0], [1, 2]] = .ok next ∧ Cuts [[0], [1, 2]] next := by
  have cut : breakingStartNode (createChains startAndTail).1 (createChains startAndTail).2 =
      [[0], [2], [1]] := by decide +kernel
  have merged : mergeChain [[0], [2], [1]] startAndTail = .ok (some [[0], [1, 2]]) := by
    decide +kernel
  have reached : Transformed startAndTail startAndTail [[0], [1, 2]] := by
    refine .merge (.startNode .create) ?_ ?_
    · rw [cut]
      decide
    · rw [cut]
      exact merged
  obtain ⟨part, _, generated, _, _, broken, _⟩ := chain_partition_invariant rfl reached
  exact ⟨reached, part, generated, broken⟩

end ChainSaw
