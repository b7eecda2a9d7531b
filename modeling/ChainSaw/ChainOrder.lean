import ChainSaw.LoopCheck

set_option autoImplicit false

namespace ChainSaw

open Relation (TransGen ReflTransGen)
open Relations (Acyclic)

/-- Every edge between two nodes of the chain runs forward. -/
def Forward (g : BoostGraph) (c : List Nat) : Prop :=
  ∀ u ∈ c, ∀ v ∈ c, g.Edge u v → c.idxOf u < c.idxOf v

/-- Every chain lists its nodes in dataflow order. -/
def InOrder (g : BoostGraph) (chains : Chains) : Prop := ∀ c ∈ chains, Forward g c

instance (g : BoostGraph) (chains : Chains) : Decidable (InOrder g chains) :=
  inferInstanceAs (Decidable (∀ c ∈ chains, ∀ u ∈ c, ∀ v ∈ c, g.Edge u v → c.idxOf u < c.idxOf v))

theorem idxOf_lt_of_sorted {c : List Nat} (sorted : c.Pairwise (· < ·)) {u v : Nat} (inU : u ∈ c)
    (inV : v ∈ c) : c.idxOf u < c.idxOf v ↔ u < v := by
  have ltU := List.idxOf_lt_length_of_mem inU
  have ltV := List.idxOf_lt_length_of_mem inV
  have increasing := List.pairwise_iff_getElem.mp sorted
  constructor
  · intro less
    simpa using increasing _ _ ltU ltV less
  · intro less
    by_contra notBefore
    rcases Nat.lt_or_eq_of_le (Nat.le_of_not_lt notBefore) with more | same
    · have := increasing _ _ ltV ltU more
      simp only [List.getElem_idxOf] at this
      omega
    · rw [List.idxOf_inj inV] at same
      omega

/-- A chain appended to another is in order with it when it has no edge back. -/
theorem forward_append {g : BoostGraph} {a b : List Nat} (disjoint : a.Disjoint b) :
    Forward g (a ++ b) ↔
      Forward g a ∧ Forward g b ∧ ∀ u ∈ b, ∀ v ∈ a, ¬ g.Edge u v := by
  have inFirst : ∀ v ∈ a, (a ++ b).idxOf v = a.idxOf v :=
    fun v member => List.idxOf_append_of_mem member
  have inSecond : ∀ v ∈ b, (a ++ b).idxOf v = a.length + b.idxOf v :=
    fun v member => List.idxOf_append_of_notMem fun also => disjoint also member
  constructor
  · intro forward
    refine ⟨?_, ?_, ?_⟩
    · intro u inU v inV edge
      have := forward u (by simp [inU]) v (by simp [inV]) edge
      rwa [inFirst u inU, inFirst v inV] at this
    · intro u inU v inV edge
      have := forward u (by simp [inU]) v (by simp [inV]) edge
      rw [inSecond u inU, inSecond v inV] at this
      omega
    · intro u inU v inV edge
      have := forward u (by simp [inU]) v (by simp [inV]) edge
      rw [inSecond u inU, inFirst v inV] at this
      have := List.idxOf_lt_length_of_mem inV
      omega
  · rintro ⟨first, second, noBack⟩ u inU v inV edge
    rcases List.mem_append.mp inU with inU | inU <;> rcases List.mem_append.mp inV with inV | inV
    · rw [inFirst u inU, inFirst v inV]
      exact first u inU v inV edge
    · rw [inFirst u inU, inSecond v inV]
      have := List.idxOf_lt_length_of_mem inU
      omega
    · exact absurd edge (noBack u inU v inV)
    · rw [inSecond u inU, inSecond v inV]
      have := second u inU v inV edge
      omega

/-- No edge leads from chain `t` to chain `i`. -/
def NoEdgeBack (g : BoostGraph) (chains : Chains) (i t : Nat) : Prop :=
  ∀ u ∈ chains.getD t [], ∀ v ∈ chains.getD i [], ¬ g.Edge u v

theorem inOrder_joinChains {g : BoostGraph} {chains : Chains} {i t : Nat}
    (distinct : chains.flatten.Nodup) (insideI : i < chains.length) (insideT : t < chains.length)
    (apart : t ≠ i) :
    InOrder g (joinChains chains i t) ↔ InOrder g chains ∧ NoEdgeBack g chains i t := by
  have disjoint : chains[i].Disjoint chains[t] := by
    intro v inI inT
    exact apart (inChain_unique distinct (inChain_iff.mpr ⟨_, List.getElem?_eq_getElem insideT, inT⟩)
      (inChain_iff.mpr ⟨_, List.getElem?_eq_getElem insideI, inI⟩))
  have wholeI : chains.getD i [] = chains[i] := by simp [insideI]
  have wholeT : chains.getD t [] = chains[t] := by simp [insideT]
  unfold NoEdgeBack
  rw [wholeI, wholeT]
  constructor
  · intro ordered
    have joined := ordered _ (mem_joinChains_self insideI insideT apart)
    obtain ⟨first, second, noBack⟩ := (forward_append disjoint).mp joined
    refine ⟨?_, noBack⟩
    intro c member
    obtain ⟨j, insideJ, rfl⟩ := List.getElem_of_mem member
    by_cases isI : j = i
    · subst isI
      exact first
    · by_cases isT : j = t
      · subst isT
        exact second
      · exact ordered _ (mem_joinChains_other insideI insideT insideJ isI isT)
  · rintro ⟨ordered, noBack⟩ c member
    rcases mem_joinChains insideI insideT member with rfl | old
    · exact (forward_append disjoint).mpr ⟨ordered _ (List.getElem_mem insideI),
        ordered _ (List.getElem_mem insideT), noBack⟩
    · exact ordered c old

/-- A chain whose second node feeds its first one. -/
def backwardChain : BoostGraph where
  vertices := [⟨0, ⟨.bb, 0⟩, 0, .bb⟩, ⟨1, ⟨.other "Add", 1⟩, 1, .other "Add"⟩,
    ⟨2, ⟨.other "Mul", 2⟩, 1, .other "Mul"⟩]
  edges := [(0, 2), (2, 1)]
  bounded := by decide

end ChainSaw
