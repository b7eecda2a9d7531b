import ChainSaw.Dependencies
import Mathlib.Data.List.Chain
import Mathlib.Data.List.Perm.Basic
import Mathlib.Data.List.Sort

set_option autoImplicit false

namespace ChainSaw

open Std (TreeMap TreeSet)
open Relation (TransGen ReflTransGen)
open Relations (Acyclic)

/-- The vertices with label `ch`, in vertex order. -/
def labelled (g : BoostGraph) (ch : Nat) : List Nat :=
  (g.vertices.zipIdx.filter (fun e => e.1.ch == ch)).map (·.2)

theorem labelled_sorted (g : BoostGraph) (ch : Nat) : (labelled g ch).Pairwise (· < ·) := by
  have sub : (labelled g ch).Sublist (g.vertices.zipIdx.map (·.2)) := List.filter_sublist.map _
  rw [List.zipIdx_map_snd] at sub
  exact (List.pairwise_lt_range' 1).sublist sub

theorem mem_labelled {g : BoostGraph} {ch v : Nat} :
    v ∈ labelled g ch ↔ ∃ p, g.vertices[v]? = some p ∧ p.ch = ch := by
  simp [labelled, List.mem_zipIdx_iff_getElem?]

/-- The first loop of `createChains` groups the vertices by label. -/
theorem labelChains_fst (g : BoostGraph) :
    (labelChains g).1 = Grouping.group (·.1.ch) (·.2) g.vertices.zipIdx ∅ := by
  unfold labelChains Grouping.group
  generalize (∅ : ChainLists) = temp
  generalize (0, 0) = first
  induction g.vertices.zipIdx generalizing temp first with
  | nil => rfl
  | cons e rest ih => exact ih _ _

theorem createChains_eq (g : BoostGraph) :
    (createChains g).2 =
      (labelChains g).1[(labelChains g).2.1]?.getD [] ::
        ((labelChains g).1.toList.filter (fun tm => tm.1 != (labelChains g).2.1)).map (·.2) :=
  rfl

theorem mem_createChains {g : BoostGraph} {c : List Nat} (member : c ∈ (createChains g).2) :
    ∃ ch, c = labelled g ch := by
  rw [createChains_eq, labelChains_fst] at member
  rcases List.mem_cons.mp member with rfl | member
  · exact ⟨_, Grouping.group_empty_getElem? ..⟩
  · obtain ⟨e, listed, rfl⟩ := List.mem_map.mp member
    exact ⟨e.1, Grouping.mem_group_toList (List.mem_of_mem_filter listed)⟩

theorem createChains_partition (g : BoostGraph) :
    Partition g.numVertices (createChains g).2 := by
  have grouped := Grouping.group_flatMap_perm (fun e : VertexProp × Nat => e.1.ch) (·.2)
    g.vertices.zipIdx
  rw [← labelChains_fst, List.zipIdx_map_snd, ← List.range_eq_range'] at grouped
  refine List.Perm.trans ?_ grouped
  rw [createChains_eq, List.flatten_cons, ← List.flatMap_def, ← Grouping.flatMap_filter_toList,
    ← List.flatMap_append]
  exact (List.filter_append_perm _ (labelChains g).1.toList).flatMap_right (·.2)

theorem splitChain_flatten (chains : Chains) (i k : Nat) :
    (splitChain chains i k).flatten.Perm chains.flatten := by
  unfold splitChain
  rw [List.flatten_append, List.flatten_singleton]
  by_cases inside : i < chains.length
  · have whole : chains.getD i [] = chains[i] := by simp [inside]
    rw [whole, List.set_eq_take_append_cons_drop, if_pos inside]
    have parts : chains = chains.take i ++ chains[i] :: chains.drop (i + 1) := by simp
    conv_rhs => rw [parts]
    simp only [List.flatten_append, List.flatten_cons, List.append_assoc]
    refine List.Perm.append_left _ ?_
    have swap : ((chains.drop (i + 1)).flatten ++ chains[i].drop k).Perm
        (chains[i].drop k ++ (chains.drop (i + 1)).flatten) := List.perm_append_comm
    have joined := swap.append_left (chains[i].take k)
    rwa [← List.append_assoc (chains[i].take k) (chains[i].drop k), List.take_append_drop] at joined
  · simp [List.set_eq_of_length_le (Nat.le_of_not_lt inside), inside]

theorem mem_splitChain {chains : Chains} {i k : Nat} (inside : i < chains.length) {c : List Nat}
    (member : c ∈ splitChain chains i k) : ∃ d ∈ chains, c.IsInfix d := by
  have whole : chains.getD i [] = chains[i] := by simp [inside]
  unfold splitChain at member
  rw [whole] at member
  rcases List.mem_append.mp member with old | new
  · rcases List.mem_or_eq_of_mem_set old with old | cut
    · exact ⟨c, old, List.infix_rfl⟩
    · exact ⟨chains[i], List.getElem_mem inside, cut ▸ (List.take_prefix _ _).isInfix⟩
  · refine ⟨chains[i], List.getElem_mem inside, ?_⟩
    rw [List.mem_singleton.mp new]
    exact (List.drop_suffix _ _).isInfix

/-- One successful call of a break helper: a chain is cut into two non-empty
parts, the second of which becomes the last chain. -/
def Splits (chains next : Chains) : Prop :=
  ∃ i k, 0 < k ∧ k < (chains.getD i []).length ∧ next = splitChain chains i k

/-- Every chain of `next` is a contiguous part of a chain of `chains`. -/
def Refines (chains next : Chains) : Prop := ∀ c ∈ next, ∃ d ∈ chains, c.IsInfix d

theorem Refines.refl (chains : Chains) : Refines chains chains :=
  fun c member => ⟨c, member, List.infix_rfl⟩

theorem Refines.trans {a b c : Chains} (first : Refines a b) (second : Refines b c) :
    Refines a c := by
  intro part member
  obtain ⟨mid, inB, sub⟩ := second part member
  obtain ⟨whole, inA, mid⟩ := first mid inB
  exact ⟨whole, inA, sub.trans mid⟩

theorem lt_length_of_getD {chains : Chains} {i k : Nat} (short : k < (chains.getD i []).length) :
    i < chains.length := by
  by_contra outside
  rw [List.getD_eq_getElem?_getD, List.getElem?_eq_none (Nat.le_of_not_lt outside)] at short
  simp at short

theorem Splits.refines {chains next : Chains} (split : Splits chains next) :
    Refines chains next := by
  obtain ⟨i, k, _, short, rfl⟩ := split
  exact fun c member => mem_splitChain (lt_length_of_getD short) member

theorem Splits.partition {n : Nat} {chains next : Chains} (split : Splits chains next)
    (part : Partition n chains) : Partition n next := by
  obtain ⟨i, k, _, _, rfl⟩ := split
  exact (splitChain_flatten chains i k).trans part

def countChains (chains : Chains) : Nat := chains.countP (!·.isEmpty)

theorem Splits.length {chains next : Chains} (split : Splits chains next) :
    next.length = chains.length + 1 := by
  obtain ⟨i, k, _, _, rfl⟩ := split
  simp [splitChain]

/-- Cuts into non-empty parts leave the empty chains as they are. -/
theorem Splits.count_nil {chains next : Chains} (split : Splits chains next) :
    next.count [] = chains.count [] := by
  obtain ⟨i, k, positive, short, rfl⟩ := split
  have inside := lt_length_of_getD short
  have whole : chains.getD i [] = chains[i] := by simp [inside]
  rw [whole] at short
  have first : chains[i].take k ≠ [] := by
    rw [← List.length_pos_iff, List.length_take]
    omega
  have second : chains[i].drop k ≠ [] := by
    rw [← List.length_pos_iff, List.length_drop]
    omega
  have old : chains[i] ≠ [] := List.length_pos_iff.mp (by omega)
  unfold splitChain
  rw [whole, List.count_append, List.count_set inside]
  simp [first, second, old]

theorem countChains_add_count (chains : Chains) :
    countChains chains + chains.count [] = chains.length := by
  induction chains with
  | nil => rfl
  | cons c rest ih =>
    unfold countChains at ih ⊢
    rw [List.countP_cons, List.count_cons, List.length_cons]
    cases c with
    | nil => simp; omega
    | cons v c => simp; omega

theorem Splits.countChains {chains next : Chains} (split : Splits chains next) :
    countChains next = countChains chains + 1 := by
  have before := countChains_add_count chains
  have after := countChains_add_count next
  have longer := split.length
  have same := split.count_nil
  omega

theorem splits_partition {n : Nat} {chains next : Chains} (splits : ReflTransGen Splits chains next)
    (part : Partition n chains) : Partition n next := by
  induction splits with
  | refl => exact part
  | tail _ split ih => exact split.partition ih

theorem splits_refines {chains next : Chains} (splits : ReflTransGen Splits chains next) :
    Refines chains next := by
  induction splits with
  | refl => exact Refines.refl chains
  | tail _ split ih => exact ih.trans split.refines

theorem splits_count_nil {chains next : Chains} (splits : ReflTransGen Splits chains next) :
    next.count [] = chains.count [] := by
  induction splits with
  | refl => rfl
  | tail _ split ih => rw [split.count_nil, ih]

theorem splits_nonempty {chains next : Chains} (splits : ReflTransGen Splits chains next)
    (nonempty : ∀ c ∈ chains, c ≠ []) : ∀ c ∈ next, c ≠ [] := by
  have absent : [] ∉ chains := fun member => nonempty [] member rfl
  rw [← List.count_eq_zero, ← splits_count_nil splits, List.count_eq_zero] at absent
  exact fun c member empty => absent (empty ▸ member)

theorem countChains_le {n : Nat} {chains : Chains} (part : Partition n chains) :
    countChains chains ≤ n := by
  rw [← part.length_flatten]
  clear part
  induction chains with
  | nil => simp [countChains]
  | cons c rest ih =>
    unfold countChains at ih ⊢
    rw [List.countP_cons, List.flatten_cons, List.length_append]
    cases c with
    | nil => simpa using ih
    | cons v c => simp only [List.isEmpty_cons, Bool.not_false, ↓reduceIte, List.length_cons]; omega

theorem breakingStartNode_flatten (firstNodeId : Nat) (chains : Chains) :
    (breakingStartNode firstNodeId chains).flatten.Perm chains.flatten := by
  dsimp only [breakingStartNode]
  split
  · exact splitChain_flatten _ _ _
  · exact List.Perm.refl _

theorem breakingStartNode_refines (firstNodeId : Nat) (chains : Chains) :
    Refines chains (breakingStartNode firstNodeId chains) := by
  dsimp only [breakingStartNode]
  split
  · rename_i cut
    exact fun c member => mem_splitChain (lt_length_of_getD cut.2) member
  · exact Refines.refl chains

theorem startChains_partition (g : BoostGraph) : Partition g.numVertices (startChains g) :=
  (breakingStartNode_flatten _ _).trans (createChains_partition g)

/-- Every chain lists its vertices by number. -/
def Sorted (chains : Chains) : Prop := ∀ c ∈ chains, c.Pairwise (· < ·)

theorem Refines.sorted {chains next : Chains} (refines : Refines chains next)
    (sorted : Sorted chains) : Sorted next := by
  intro c member
  obtain ⟨d, inside, sub⟩ := refines c member
  exact (sorted d inside).sublist sub.sublist

theorem startChains_sorted (g : BoostGraph) : Sorted (startChains g) := by
  refine (breakingStartNode_refines _ _).sorted ?_
  intro c member
  obtain ⟨ch, rfl⟩ := mem_createChains member
  exact labelled_sorted g ch

/-- Only the last node of a chain has edges to other chains. -/
def LiveOutLast (g : BoostGraph) (chains : Chains) : Prop :=
  ∀ s t u v, s ≠ t → InChain chains s u → InChain chains t v → g.Edge u v →
    (chains.getD s []).getLast? = some u

/-- Only the first node of a chain has edges from other chains. -/
def LiveInFirst (g : BoostGraph) (chains : Chains) : Prop :=
  ∀ s t u v, s ≠ t → InChain chains s u → InChain chains t v → g.Edge u v →
    (chains.getD t []).head? = some v

theorem idxOf_succ_lt {c : List Nat} {v : Nat} (member : v ∈ c)
    (inner : c.getLast? ≠ some v) : c.idxOf v + 1 < c.length := by
  have bound := List.idxOf_lt_length_of_mem member
  by_contra last
  apply inner
  have index : c.idxOf v = c.length - 1 := by omega
  rw [List.getLast?_eq_getElem?, ← index, List.getElem?_idxOf member]

theorem idxOf_pos {c : List Nat} {v : Nat} (inner : c.head? ≠ some v) (member : v ∈ c) :
    0 < c.idxOf v := by
  rw [Nat.pos_iff_ne_zero]
  intro first
  apply inner
  rw [List.head?_eq_getElem?, ← first, List.getElem?_idxOf member]

theorem breakOutHelper_some {g : BoostGraph} {chains next : Chains}
    {dependencies : List ChainDependency}
    (broke : breakOutHelper chains dependencies g = some next) : Splits chains next := by
  obtain ⟨dep, _, broke⟩ := List.exists_of_findSome?_eq_some broke
  obtain ⟨node, member, broke⟩ := List.exists_of_findSome?_eq_some broke
  split at broke
  · cases broke
  · rename_i inner
    split at broke
    · cases broke
      exact ⟨dep.source, _, by omega, idxOf_succ_lt member inner, rfl⟩
    · cases broke

theorem breakInHelper_some {g : BoostGraph} {chains next : Chains}
    {dependencies : List ChainDependency}
    (broke : breakInHelper chains dependencies g = some next) : Splits chains next := by
  obtain ⟨dep, _, broke⟩ := List.exists_of_findSome?_eq_some broke
  obtain ⟨node, _, broke⟩ := List.exists_of_findSome?_eq_some broke
  obtain ⟨target, _, broke⟩ := List.exists_of_findSome?_eq_some broke
  split at broke
  · cases broke
  · rename_i inner
    split at broke
    · rename_i member
      cases broke
      exact ⟨dep.target, _, idxOf_pos inner member, List.idxOf_lt_length_of_mem member, rfl⟩
    · cases broke

theorem breakOutHelper_none {g : BoostGraph} {chains : Chains}
    (part : Partition g.numVertices chains) {dependencies : List ChainDependency}
    (returned : dependenciesGenerate g chains (vertexToChainMap chains) = .ok dependencies)
    (done : breakOutHelper chains dependencies g = none) : LiveOutLast g chains := by
  intro s t u v apart inS inT edge
  have listed : ⟨s, t⟩ ∈ dependencies :=
    (mem_dependencies part returned).mpr ⟨apart, u, v, inS, inT, edge⟩
  have kept := List.findSome?_eq_none_iff.mp (List.findSome?_eq_none_iff.mp done _ listed) u inS
  split at kept
  · assumption
  · split at kept
    · cases kept
    · rename_i noTarget
      exact absurd (List.any_eq_true.mpr ⟨v, edge, decide_eq_true inT⟩) noTarget

theorem breakInHelper_none {g : BoostGraph} {chains : Chains}
    (part : Partition g.numVertices chains) {dependencies : List ChainDependency}
    (returned : dependenciesGenerate g chains (vertexToChainMap chains) = .ok dependencies)
    (done : breakInHelper chains dependencies g = none) : LiveInFirst g chains := by
  intro s t u v apart inS inT edge
  have listed : ⟨s, t⟩ ∈ dependencies :=
    (mem_dependencies part returned).mpr ⟨apart, u, v, inS, inT, edge⟩
  have kept := List.findSome?_eq_none_iff.mp (List.findSome?_eq_none_iff.mp done _ listed) u inS
  have kept := List.findSome?_eq_none_iff.mp kept v edge
  split at kept
  · assumption
  · split at kept
    · cases kept
    · rename_i outside
      exact absurd inT outside

/-- A break loop ends within its bound: every round but the last cuts a chain in
two, and the helper does not cut what the loop returns. -/
theorem breakLoop_total {helper : Chains → List ChainDependency → BoostGraph → Option Chains}
    (g : BoostGraph)
    (splits : ∀ chains dependencies next, helper chains dependencies g = some next →
      Splits chains next)
    (rounds : Nat) :
    ∀ chains, Partition g.numVertices chains → g.numVertices < countChains chains + rounds →
      ∃ final dependencies, breakLoop helper g rounds chains = .ok final ∧
        ReflTransGen Splits chains final ∧
        dependenciesGenerate g final (vertexToChainMap final) = .ok dependencies ∧
        helper final dependencies g = none := by
  induction rounds with
  | zero =>
    intro chains part enough
    have := countChains_le part
    omega
  | succ rounds ih =>
    intro chains part enough
    have generated := dependenciesGenerate_eq part
    unfold breakLoop
    rw [generated, Loops.ok_bind]
    cases step : helper chains _ g with
    | none => exact ⟨chains, _, rfl, .refl, generated, step⟩
    | some next =>
      have split := splits _ _ _ step
      have more := split.countChains
      obtain ⟨final, dependencies, returned, later, rest⟩ :=
        ih next (split.partition part) (by omega)
      exact ⟨final, dependencies, returned, .head split later, rest⟩

theorem breakEveryLiveOut_total {g : BoostGraph} {chains : Chains}
    (part : Partition g.numVertices chains) :
    ∃ final, breakEveryLiveOut g chains = .ok final ∧ LiveOutLast g final ∧
      ReflTransGen Splits chains final := by
  obtain ⟨final, dependencies, returned, splits, generated, done⟩ :=
    breakLoop_total g (fun _ _ _ => breakOutHelper_some) (g.numVertices + 1) chains part (by omega)
  exact ⟨final, returned, breakOutHelper_none (splits_partition splits part) generated done, splits⟩

theorem breakEveryLiveIn_total {g : BoostGraph} {chains : Chains}
    (part : Partition g.numVertices chains) :
    ∃ final, breakEveryLiveIn g chains = .ok final ∧ LiveInFirst g final ∧
      ReflTransGen Splits chains final := by
  obtain ⟨final, dependencies, returned, splits, generated, done⟩ :=
    breakLoop_total g (fun _ _ _ => breakInHelper_some) (g.numVertices + 1) chains part (by omega)
  exact ⟨final, returned, breakInHelper_none (splits_partition splits part) generated done, splits⟩

theorem liveOutPass_total (param : GraphParam) (g : BoostGraph) {chains : Chains}
    (part : Partition g.numVertices chains) :
    ∃ broken, liveOutPass param g chains = .ok broken ∧ ReflTransGen Splits chains broken ∧
      (param.breakLiveOut ≠ 0 → LiveOutLast g broken) := by
  unfold liveOutPass
  split
  · obtain ⟨broken, returned, last, splits⟩ := breakEveryLiveOut_total part
    exact ⟨broken, returned, splits, fun _ => last⟩
  · rename_i unset
    exact ⟨chains, rfl, .refl, fun set => absurd set unset⟩

theorem liveInPass_total (param : GraphParam) (g : BoostGraph) {chains : Chains}
    (part : Partition g.numVertices chains) :
    ∃ broken, liveInPass param g chains = .ok broken ∧ ReflTransGen Splits chains broken ∧
      (param.breakLiveIn ≠ 0 → LiveInFirst g broken) ∧
      (param.breakLiveIn = 0 → broken = chains) := by
  unfold liveInPass
  split
  · rename_i set
    obtain ⟨broken, returned, first, splits⟩ := breakEveryLiveIn_total part
    exact ⟨broken, returned, splits, fun _ => first, fun unset => absurd unset set⟩
  · rename_i unset
    exact ⟨chains, rfl, .refl, fun set => absurd set unset, fun _ => rfl⟩

/-- The break passes return and only cut chains. The last pass that is switched
on decides which ends the remaining edges have. -/
theorem breakPasses_total (param : GraphParam) (g : BoostGraph) {chains : Chains}
    (part : Partition g.numVertices chains) :
    ∃ broken, breakPasses param g chains = .ok broken ∧ ReflTransGen Splits chains broken ∧
      (param.breakLiveIn ≠ 0 → LiveInFirst g broken) ∧
      (param.breakLiveIn = 0 → param.breakLiveOut ≠ 0 → LiveOutLast g broken) := by
  obtain ⟨mid, midOk, midSplits, last⟩ := liveOutPass_total param g part
  obtain ⟨broken, returned, splits, first, same⟩ :=
    liveInPass_total param g (splits_partition midSplits part)
  refine ⟨broken, ?_, midSplits.trans splits, first, ?_⟩
  · unfold breakPasses
    rw [midOk, Loops.ok_bind, returned]
  · intro unset
    rw [same unset]
    exact last

/-- Every chain is a path of the graph in list order. -/
def Paths (g : BoostGraph) (chains : Chains) : Prop := ∀ c ∈ chains, c.IsChain g.Edge

theorem Refines.paths {g : BoostGraph} {chains next : Chains} (refines : Refines chains next)
    (paths : Paths g chains) : Paths g next := by
  intro c member
  obtain ⟨d, inside, sub⟩ := refines c member
  exact List.IsChain.infix (paths d inside) sub

theorem Paths.getD {g : BoostGraph} {chains : Chains} (paths : Paths g chains) (i : Nat) :
    (chains.getD i []).IsChain g.Edge :=
  getD_of_forall List.isChain_nil paths i

/-- When edges leave path chains only at their last nodes, a dependency between
two chains is a walk between their last nodes. -/
theorem LiveOutLast.acyclic {g : BoostGraph} {chains : Chains} (last : LiveOutLast g chains)
    (paths : Paths g chains) (acyclic : Acyclic g.Edge) : Acyclic (ChainDep g chains) := by
  refine acyclic.of_lift (fun i => (chains.getD i []).getLast?.getD 0) ?_
  rintro s t ⟨apart, u, v, inS, inT, edge⟩
  have nonempty : chains.getD t [] ≠ [] := List.ne_nil_of_mem inT
  have end_eq := List.getLast?_eq_some_getLast nonempty
  simp only [last s t u v apart inS inT edge, end_eq, Option.getD_some]
  exact .head' edge (Relations.isChain_last (paths.getD t) inT end_eq)

/-- When edges enter path chains only at their first nodes, a dependency between
two chains is a walk between their first nodes. -/
theorem LiveInFirst.acyclic {g : BoostGraph} {chains : Chains} (first : LiveInFirst g chains)
    (paths : Paths g chains) (acyclic : Acyclic g.Edge) : Acyclic (ChainDep g chains) := by
  refine acyclic.of_lift (fun i => (chains.getD i []).head?.getD 0) ?_
  rintro s t ⟨apart, u, v, inS, inT, edge⟩
  have head_eq := first s t u v apart inS inT edge
  have path := paths.getD s
  have inside : u ∈ chains.getD s [] := inS
  cases shape : chains.getD s [] with
  | nil =>
    rw [shape] at inside
    cases inside
  | cons a c =>
    rw [shape] at path inside
    simp only [head_eq, List.head?_cons, Option.getD_some]
    exact .tail' (Relations.isChain_head path inside) edge

end ChainSaw
