import ChainSaw.Splitting

set_option autoImplicit false

namespace ChainSaw

open Std (TreeMap TreeSet)
open Relation (TransGen ReflTransGen)
open Relations (Acyclic)

theorem count_flatten_set {chains : Chains} {i : Nat} (inside : i < chains.length) (c : List Nat)
    (v : Nat) :
    (chains.set i c).flatten.count v + chains[i].count v = c.count v + chains.flatten.count v := by
  induction chains generalizing i with
  | nil => simp at inside
  | cons head rest ih =>
    cases i with
    | zero => simp; omega
    | succ i =>
      have tail := ih (Nat.lt_of_succ_lt_succ inside)
      simp only [List.set_cons_succ, List.flatten_cons, List.count_append, List.getElem_cons_succ]
      omega

theorem count_flatten_eraseIdx {chains : Chains} {t : Nat} (inside : t < chains.length) (v : Nat) :
    (chains.eraseIdx t).flatten.count v + chains[t].count v = chains.flatten.count v := by
  induction chains generalizing t with
  | nil => simp at inside
  | cons head rest ih =>
    cases t with
    | zero => simp; omega
    | succ t =>
      have tail := ih (Nat.lt_of_succ_lt_succ inside)
      simp only [List.eraseIdx_cons_succ, List.flatten_cons, List.count_append,
        List.getElem_cons_succ]
      omega

section join

variable {chains : Chains} {i t : Nat} (insideI : i < chains.length) (insideT : t < chains.length)
include insideI insideT

theorem joinChains_eq :
    joinChains chains i t = (chains.set i (chains[i] ++ chains[t])).eraseIdx t := by
  simp [joinChains, insideI, insideT]

theorem joinChains_flatten (apart : t ≠ i) :
    (joinChains chains i t).flatten.Perm chains.flatten := by
  rw [List.perm_iff_count]
  intro v
  rw [joinChains_eq insideI insideT]
  have insideSet : t < (chains.set i (chains[i] ++ chains[t])).length := by simpa using insideT
  have erased := count_flatten_eraseIdx insideSet v
  have joined := count_flatten_set insideI (chains[i] ++ chains[t]) v
  rw [List.getElem_set_ne (Ne.symm apart)] at erased
  rw [List.count_append] at joined
  omega

theorem length_joinChains : (joinChains chains i t).length + 1 = chains.length := by
  rw [joinChains_eq insideI insideT, List.length_eraseIdx_of_lt (by simpa using insideT),
    List.length_set]
  omega

/-- Chain `i` now ends with chain `t`. -/
theorem mem_joinChains_self (apart : t ≠ i) :
    chains[i] ++ chains[t] ∈ joinChains chains i t := by
  rw [joinChains_eq insideI insideT, List.mem_eraseIdx_iff_getElem]
  exact ⟨i, by simpa using insideI, apart.symm, by simp⟩

theorem mem_joinChains_other {j : Nat} (insideJ : j < chains.length) (notI : j ≠ i) (notT : j ≠ t) :
    chains[j] ∈ joinChains chains i t := by
  rw [joinChains_eq insideI insideT, List.mem_eraseIdx_iff_getElem]
  exact ⟨j, by simpa using insideJ, notT, by simp [List.getElem_set_ne (Ne.symm notI)]⟩

theorem mem_joinChains {c : List Nat} (member : c ∈ joinChains chains i t) :
    c = chains[i] ++ chains[t] ∨ c ∈ chains := by
  rw [joinChains_eq insideI insideT] at member
  rcases List.mem_or_eq_of_mem_set (List.mem_of_mem_eraseIdx member) with old | joined
  · exact .inr old
  · exact .inl joined

end join

/-- What the search of `mergeChain` knows about the pair it returns. -/
structure Mergeable (g : BoostGraph) (chains : Chains) (i t : Nat) : Prop where
  positive : 0 < i
  insideI : i < chains.length
  insideT : t < chains.length
  apart : t ≠ i
  edge : ∃ node target, chains[i].getLast? = some node ∧ chains[t].head? = some target ∧
    g.Edge node target
  loopFree : (unDependenciesOf g (joinChains chains i t) >>= hasLoop) = .ok false

theorem vertexToChainMap_some {chains : Chains} {t v : Nat}
    (found : (vertexToChainMap chains)[v]? = some t) : t < chains.length := by
  rw [vertexToChainMap_getElem?] at found
  exact (List.findIdx?_eq_some_iff_getElem.mp found).1

theorem mergePair_some {g : BoostGraph} {chains : Chains} {i t : Nat}
    (returned : mergePair chains g = .ok (some (i, t))) : Mergeable g chains i t := by
  obtain ⟨i', member, returned⟩ := Loops.findSomeM?_some returned
  obtain ⟨node, last, returned⟩ := Loops.bind_eq_ok.mp returned
  obtain ⟨target, edge, returned⟩ := Loops.findSomeM?_some returned
  obtain ⟨t', found, returned⟩ := Loops.bind_eq_ok.mp returned
  simp only [deref_eq_ok] at last found
  obtain ⟨low, high⟩ := List.mem_range'_1.mp member
  have insideI : i' < chains.length := by omega
  have insideT := vertexToChainMap_some found
  split at returned
  · rename_i fits
    obtain ⟨loop, checked, returned⟩ := Loops.bind_eq_ok.mp returned
    cases loop with
    | true => cases returned
    | false =>
      cases returned
      refine ⟨by omega, insideI, insideT, fits.1, ⟨node, target, ?_, ?_, edge⟩, checked⟩
      · simpa [insideI] using last
      · simpa [insideT] using fits.2
  · cases returned

/-- On a partition into non-empty chains the search always answers. -/
theorem mergePair_total {g : BoostGraph} {chains : Chains}
    (part : Partition g.numVertices chains) (nonempty : ∀ c ∈ chains, c ≠ []) :
    ∃ pair, mergePair chains g = .ok pair := by
  apply Loops.findSomeM?_total
  intro i member
  obtain ⟨low, high⟩ := List.mem_range'_1.mp member
  have insideI : i < chains.length := by omega
  have whole : chains.getD i [] = chains[i] := by simp [insideI]
  obtain ⟨node, last⟩ : ∃ node, chains[i].getLast? = some node :=
    ⟨_, List.getLast?_eq_some_getLast (nonempty _ (List.getElem_mem insideI))⟩
  rw [whole, last]
  apply Loops.findSomeM?_total
  intro target edge
  have edge : g.Edge node target := edge
  obtain ⟨t, inT⟩ := part.exists_chain edge.bounds.2
  rw [vertexToChainMap_of_inChain part.nodup inT]
  change ∃ found, (if t ≠ i ∧ (chains.getD t []).head? = some target then _ else _) = _
  split
  · rename_i fits
    have joined : Partition g.numVertices (joinChains chains i t) :=
      (joinChains_flatten insideI inT.lt_length fits.1).trans part
    obtain ⟨un, generated, _⟩ := unDependenciesOf_total joined
    obtain ⟨loop, checked, _⟩ := hasLoop_exact un
    rw [generated, Loops.ok_bind, checked]
    exact ⟨_, rfl⟩
  · exact ⟨_, rfl⟩

/-- One merge of the merge loop. -/
def MergeStep (g : BoostGraph) (chains next : Chains) : Prop :=
  ∃ i t, mergePair chains g = .ok (some (i, t)) ∧ next = joinChains chains i t

theorem mergeChain_some {g : BoostGraph} {chains next : Chains}
    (returned : mergeChain chains g = .ok (some next)) : MergeStep g chains next := by
  obtain ⟨pair, searched, returned⟩ := Loops.bind_eq_ok.mp returned
  cases pair with
  | none => cases returned
  | some pair =>
    obtain ⟨i, t⟩ := pair
    cases returned
    exact ⟨i, t, searched, rfl⟩

theorem MergeStep.partition {g : BoostGraph} {n : Nat} {chains next : Chains}
    (step : MergeStep g chains next) (part : Partition n chains) : Partition n next := by
  obtain ⟨i, t, searched, rfl⟩ := step
  have pair := mergePair_some searched
  exact (joinChains_flatten pair.insideI pair.insideT pair.apart).trans part

theorem MergeStep.nonempty {g : BoostGraph} {chains next : Chains} (step : MergeStep g chains next)
    (nonempty : ∀ c ∈ chains, c ≠ []) : ∀ c ∈ next, c ≠ [] := by
  obtain ⟨i, t, searched, rfl⟩ := step
  have pair := mergePair_some searched
  intro c member
  rcases mem_joinChains pair.insideI pair.insideT member with rfl | old
  · exact List.append_ne_nil_of_left_ne_nil (nonempty _ (List.getElem_mem pair.insideI)) _
  · exact nonempty c old

theorem MergeStep.loopFree {g : BoostGraph} {chains next : Chains}
    (step : MergeStep g chains next) : (unDependenciesOf g next >>= hasLoop) = .ok false := by
  obtain ⟨i, t, searched, rfl⟩ := step
  exact (mergePair_some searched).loopFree

theorem MergeStep.length {g : BoostGraph} {chains next : Chains}
    (step : MergeStep g chains next) : next.length + 1 = chains.length := by
  obtain ⟨i, t, searched, rfl⟩ := step
  have pair := mergePair_some searched
  exact length_joinChains pair.insideI pair.insideT

/-- Every call of the loop that returned `true` merged, and the last one returned
`false`. -/
theorem mergeLoop_ok {g : BoostGraph} {final : Chains} (rounds : Nat) :
    ∀ chains, mergeLoop g rounds chains = .ok final →
      ReflTransGen (MergeStep g) chains final ∧ mergePair final g = .ok none := by
  induction rounds with
  | zero => intro chains returned; cases returned
  | succ rounds ih =>
    intro chains returned
    unfold mergeLoop at returned
    obtain ⟨merged, step, returned⟩ := Loops.bind_eq_ok.mp returned
    cases merged with
    | none =>
      cases returned
      obtain ⟨pair, searched, mapped⟩ := Loops.bind_eq_ok.mp step
      cases pair with
      | none => exact ⟨.refl, searched⟩
      | some pair => cases mapped
    | some next =>
      obtain ⟨merges, last⟩ := ih next returned
      exact ⟨.head (mergeChain_some step) merges, last⟩

theorem mergeLoop_total {g : BoostGraph} (rounds : Nat) :
    ∀ chains : Chains, Partition g.numVertices chains → (∀ c ∈ chains, c ≠ []) →
      chains.length < rounds → ∃ final, mergeLoop g rounds chains = .ok final := by
  induction rounds with
  | zero => intro chains _ _ enough; omega
  | succ rounds ih =>
    intro chains part nonempty enough
    obtain ⟨pair, searched⟩ := mergePair_total part nonempty
    unfold mergeLoop mergeChain
    rw [searched]
    cases pair with
    | none => exact ⟨chains, rfl⟩
    | some pair =>
      obtain ⟨i, t⟩ := pair
      have step : MergeStep g chains (joinChains chains i t) := ⟨i, t, searched, rfl⟩
      have shorter := step.length
      exact ih (joinChains chains i t) (step.partition part) (step.nonempty nonempty) (by omega)

theorem merges_partition {g : BoostGraph} {n : Nat} {chains final : Chains}
    (merges : ReflTransGen (MergeStep g) chains final) (part : Partition n chains) :
    Partition n final := by
  induction merges with
  | refl => exact part
  | tail _ step ih => exact step.partition ih

theorem mergePass_ok {param : GraphParam} {g : BoostGraph} {chains final : Chains}
    (returned : mergePass param g chains = .ok final) :
    ReflTransGen (MergeStep g) chains final := by
  unfold mergePass at returned
  split at returned
  · exact (mergeLoop_ok _ _ returned).1
  · cases returned
    exact .refl

theorem mergePass_total (param : GraphParam) {g : BoostGraph} {chains : Chains}
    (part : Partition g.numVertices chains) (nonempty : ∀ c ∈ chains, c ≠ []) :
    ∃ final, mergePass param g chains = .ok final := by
  unfold mergePass
  split
  · exact mergeLoop_total _ chains part nonempty (by omega)
  · exact ⟨chains, rfl⟩

end ChainSaw
