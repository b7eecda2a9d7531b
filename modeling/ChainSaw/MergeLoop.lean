import ChainSaw.ChainOrder
import ChainSaw.Cutting

set_option autoImplicit false

namespace ChainSaw

open Relation (TransGen ReflTransGen)
open Relations (Acyclic)

/-- The number of chain `j` after chain `t` has been appended to chain `i`. -/
def renumber (i t j : Nat) : Nat :=
  let k := if j = t then i else j
  if k < t then k else k - 1

section renumber

variable {chains : Chains} {i t : Nat} (insideI : i < chains.length) (insideT : t < chains.length)
  (apart : t ≠ i)
include insideI insideT apart

/-- Every node is found in its chain under the new number. -/
theorem InChain.renumber {j v : Nat} (inside : InChain chains j v) :
    InChain (joinChains chains i t) (renumber i t j) v := by
  have insideJ := inside.lt_length
  obtain ⟨c, found, member⟩ := inChain_iff.mp inside
  rw [inChain_iff, joinChains_eq insideI insideT]
  have placed : ∀ k, k ≠ t →
      ((chains.set i (chains[i] ++ chains[t])).eraseIdx t)[if k < t then k else k - 1]? =
        (chains.set i (chains[i] ++ chains[t]))[k]? := by
    intro k other
    rw [List.getElem?_eraseIdx]
    by_cases below : k < t
    · simp [below]
    · have early : ¬ k - 1 < t := by omega
      have back : k - 1 + 1 = k := by omega
      simp [below, early, back]
  unfold ChainSaw.renumber
  by_cases last : j = t
  · subst last
    have same : chains[j] = c := by simpa [insideT] using found
    refine ⟨chains[i] ++ chains[j], ?_, ?_⟩
    · simp only [↓reduceIte]
      rw [placed i (Ne.symm apart)]
      simp [insideI]
    · simp [same, member]
  · simp only [last, ↓reduceIte]
    rw [placed j last]
    by_cases first : j = i
    · subst first
      have same : chains[j] = c := by simpa [insideI] using found
      exact ⟨chains[j] ++ chains[t], by simp [insideI], by simp [same, member]⟩
    · exact ⟨c, by simp [Ne.symm first, found], member⟩

/-- A dependency between two chains stays one, unless the two are merged. -/
theorem chainDep_renumber {g : BoostGraph} {a b : Nat} (depends : ChainDep g chains a b) :
    renumber i t a = renumber i t b ∨
      ChainDep g (joinChains chains i t) (renumber i t a) (renumber i t b) := by
  obtain ⟨_, u, v, inA, inB, edge⟩ := depends
  by_cases same : renumber i t a = renumber i t b
  · exact .inl same
  · exact .inr ⟨same, u, v, inA.renumber insideI insideT apart, inB.renumber insideI insideT apart,
      edge⟩

omit apart in
theorem exists_renumber {k : Nat} (inside : k < (joinChains chains i t).length) :
    ∃ j < chains.length, renumber i t j = k := by
  have length := length_joinChains insideI insideT
  by_cases below : k < t
  · exact ⟨k, by omega, by simp [renumber, Nat.ne_of_lt below, below]⟩
  · refine ⟨k + 1, by omega, ?_⟩
    have other : k + 1 ≠ t := by omega
    have above : ¬ k + 1 < t := by omega
    simp [renumber, other, above]

end renumber

/-- What the merge loop starts from and keeps: non-empty chains without a loop
between them, all of them reachable from chain 0. -/
structure Connected (g : BoostGraph) (chains : Chains) : Prop where
  part : Partition g.numVertices chains
  nonempty : ∀ c ∈ chains, c ≠ []
  acyclic : Acyclic (ChainDep g chains)
  reachable : ∀ i < chains.length, ReflTransGen (ChainDep g chains) 0 i

/-- Chain `t` begins with a target of an edge from the last node of chain `i`. -/
def Joinable (g : BoostGraph) (chains : Chains) (i t : Nat) : Prop :=
  0 < i ∧ t ≠ i ∧ ∃ node target, (chains.getD i []).getLast? = some node ∧
    (chains.getD t []).head? = some target ∧ g.Edge node target

theorem Joinable.insideI {g : BoostGraph} {chains : Chains} {i t : Nat}
    (joinable : Joinable g chains i t) : i < chains.length := by
  obtain ⟨_, _, node, _, last, _⟩ := joinable
  exact InChain.lt_length (v := node) (List.mem_of_getLast? last)

theorem Joinable.insideT {g : BoostGraph} {chains : Chains} {i t : Nat}
    (joinable : Joinable g chains i t) : t < chains.length := by
  obtain ⟨_, _, _, target, _, head, _⟩ := joinable
  exact InChain.lt_length (v := target) (List.mem_of_mem_head? head)

theorem Joinable.chainDep {g : BoostGraph} {chains : Chains} {i t : Nat}
    (joinable : Joinable g chains i t) : ChainDep g chains i t := by
  obtain ⟨_, apart, node, target, last, head, edge⟩ := joinable
  exact ⟨Ne.symm apart, node, target, List.mem_of_getLast? last, List.mem_of_mem_head? head, edge⟩

theorem Mergeable.joinable {g : BoostGraph} {chains : Chains} {i t : Nat}
    (pair : Mergeable g chains i t) : Joinable g chains i t := by
  obtain ⟨node, target, last, head, edge⟩ := pair.edge
  refine ⟨pair.positive, pair.apart, node, target, ?_, ?_, edge⟩
  · simpa [pair.insideI] using last
  · simpa [pair.insideT] using head

/-- Chain 0 is never appended: it would wait for a chain that waits for it. -/
theorem Connected.target_pos {g : BoostGraph} {chains : Chains} {i t : Nat}
    (connected : Connected g chains) (joinable : Joinable g chains i t) : 0 < t := by
  rw [Nat.pos_iff_ne_zero]
  rintro rfl
  have back := connected.reachable i joinable.insideI
  exact connected.acyclic i (.head' joinable.chainDep back)

/-- A merge keeps the chains connected: walks from chain 0 are renumbered, and as
every chain is still reached, the loop check has seen them all. -/
theorem Connected.merge {g : BoostGraph} {chains next : Chains} (connected : Connected g chains)
    (step : MergeStep g chains next) : Connected g next := by
  have part := step.partition connected.part
  have reachable : ∀ k < next.length, ReflTransGen (ChainDep g next) 0 k := by
    obtain ⟨i, t, searched, rfl⟩ := step
    have pair := mergePair_some searched
    have joinable := pair.joinable
    have first : renumber i t 0 = 0 := by
      have := connected.target_pos joinable
      simp [renumber, Nat.ne_of_lt this, this]
    intro k inside
    obtain ⟨j, insideJ, rfl⟩ := exists_renumber pair.insideI pair.insideT inside
    have walk := Relations.reflTransGen_collapse (renumber i t)
      (fun a b => chainDep_renumber pair.insideI pair.insideT pair.apart) (connected.reachable j insideJ)
    rwa [first] at walk
  refine ⟨part, step.nonempty connected.nonempty, ?_, reachable⟩
  intro c cycle
  obtain ⟨loop, checked, found⟩ := loopCheck_exact part
  rw [step.loopFree] at checked
  cases checked
  have inside : c < next.length := by
    obtain ⟨_, ⟨_, _, _, inC, _⟩, _⟩ := TransGen.head'_iff.mp cycle
    exact inC.lt_length
  exact absurd (found.mpr ⟨c, reachable c inside, cycle⟩) (by simp)

/-- The chain that is appended has no edge back. -/
theorem Connected.noEdgeBack {g : BoostGraph} {chains : Chains} {i t : Nat}
    (connected : Connected g chains) (joinable : Joinable g chains i t) :
    NoEdgeBack g chains i t := by
  intro u inT v inI edge
  have back : ChainDep g chains t i := ⟨joinable.2.1, u, v, inT, inI, edge⟩
  exact connected.acyclic i (.tail (.single joinable.chainDep) back)

theorem joinChains_head {chains : Chains} {i t : Nat} (positiveI : 0 < i) (positiveT : 0 < t) :
    (joinChains chains i t)[0]? = chains[0]? := by
  unfold joinChains
  rw [List.getElem?_eraseIdx, if_pos positiveT, List.getElem?_set_ne (by omega)]

/-- When the search finds nothing, every join it could make closes a loop. -/
theorem mergePair_none {g : BoostGraph} {chains : Chains} (part : Partition g.numVertices chains)
    (searched : mergePair chains g = .ok none) {i t : Nat} (joinable : Joinable g chains i t) :
    ¬ Acyclic (ChainDep g (joinChains chains i t)) := by
  have insideI := joinable.insideI
  have insideT := joinable.insideT
  obtain ⟨positive, apart, node, target, last, head, edge⟩ := joinable
  have tried := Loops.findSomeM?_none searched i (List.mem_range'_1.mpr ⟨positive, by omega⟩)
  rw [last, deref, Loops.ok_bind] at tried
  have tried := Loops.findSomeM?_none tried target edge
  have inT : InChain chains t target := List.mem_of_mem_head? head
  rw [vertexToChainMap_of_inChain part.nodup inT, deref, Loops.ok_bind, if_pos ⟨apart, head⟩] at tried
  obtain ⟨loop, checked, tried⟩ := Loops.bind_eq_ok.mp tried
  have joined : Partition g.numVertices (joinChains chains i t) :=
    (joinChains_flatten insideI insideT apart).trans part
  obtain ⟨loop', checked', found⟩ := loopCheck_exact joined
  rw [checked] at checked'
  cases checked'
  cases loop with
  | false => cases tried
  | true =>
    obtain ⟨c, _, cycle⟩ := found.mp rfl
    exact fun acyclic => acyclic c cycle

theorem Connected.merges {g : BoostGraph} {chains mid : Chains} (connected : Connected g chains)
    (merges : ReflTransGen (MergeStep g) chains mid) :
    Connected g mid ∧ (InOrder g chains → InOrder g mid) := by
  induction merges with
  | refl => exact ⟨connected, id⟩
  | tail _ step ih =>
    obtain ⟨before, ordered⟩ := ih
    refine ⟨before.merge step, fun start => ?_⟩
    obtain ⟨i, t, searched, rfl⟩ := step
    have pair := mergePair_some searched
    exact (inOrder_joinChains before.part.nodup pair.insideI pair.insideT pair.apart).mpr
      ⟨ordered start, before.noEdgeBack pair.joinable⟩

/-- The merge loop ends. In every round a chain is appended to a chain other than
chain 0 along an edge from its last node, chain 0 stays where it is, the chains
stay connected without a loop and in order, and in the end every further join
would close a loop. -/
theorem merging_safe_and_maximal (g : BoostGraph) (chains : Chains)
    (connected : Connected g chains) :
    ∃ final, mergeLoop g (chains.length + 1) chains = .ok final ∧
      ReflTransGen (MergeStep g) chains final ∧
      (∀ mid, ReflTransGen (MergeStep g) chains mid →
        Connected g mid ∧ (InOrder g chains → InOrder g mid) ∧
        ∀ next, mergeChain mid g = .ok (some next) →
          next.length + 1 = mid.length ∧ next[0]? = mid[0]? ∧
            ∃ i t, Joinable g mid i t ∧ 0 < t ∧ next = joinChains mid i t) ∧
      ∀ i t, Joinable g final i t → ¬ Acyclic (ChainDep g (joinChains final i t)) := by
  obtain ⟨final, returned⟩ :=
    mergeLoop_total (chains.length + 1) chains connected.part connected.nonempty (by omega)
  obtain ⟨merges, last⟩ := mergeLoop_ok _ _ returned
  refine ⟨final, returned, merges, ?_, ?_⟩
  · intro mid reached
    obtain ⟨before, ordered⟩ := connected.merges reached
    refine ⟨before, ordered, ?_⟩
    intro next merged
    have step := mergeChain_some merged
    refine ⟨step.length, ?_⟩
    obtain ⟨i, t, searched, rfl⟩ := step
    have joinable := (mergePair_some searched).joinable
    have positive := before.target_pos joinable
    exact ⟨joinChains_head joinable.1 positive, i, t, joinable, positive, rfl⟩
  · intro i t joinable
    exact mergePair_none (connected.merges merges).1.part last joinable

theorem merging_startAndTail :
    Connected startAndTail [[0], [2], [1]] ∧
      ∃ final, mergeLoop startAndTail 4 [[0], [2], [1]] = .ok final ∧
        ∀ i t, Joinable startAndTail final i t →
          ¬ Acyclic (ChainDep startAndTail (joinChains final i t)) := by
  have connected : Connected startAndTail [[0], [2], [1]] := by
    refine ⟨by unfold Partition; decide, by decide, ?_, ?_⟩
    · have increasing : ∀ e ∈ startAndTail.edges, ∀ a < 3, ∀ b < 3, a ≠ b →
          InChain [[0], [2], [1]] a e.1 → InChain [[0], [2], [1]] b e.2 →
          [0, 2, 1].getD a 0 < [0, 2, 1].getD b 0 := by decide
      refine Acyclic.of_lt (fun a => [0, 2, 1].getD a 0) ?_
      rintro a b ⟨apart, u, v, inA, inB, edge⟩
      exact increasing (u, v) ((startAndTail.edge_iff u v).mp edge) a inA.lt_length b inB.lt_length
        apart inA inB
    · intro i inside
      match i, inside with
      | 0, _ => exact .refl
      | 1, _ => exact .single ⟨by decide, 0, 2, by decide, by decide, by decide⟩
      | 2, _ => exact .single ⟨by decide, 0, 1, by decide, by decide, by decide⟩
  obtain ⟨final, returned, _, _, maximal⟩ := merging_safe_and_maximal startAndTail _ connected
  exact ⟨connected, final, returned, maximal⟩

end ChainSaw
