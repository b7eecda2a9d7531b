import ChainSaw.NewGraph
import ChainSaw.Lib.CycleSearch
import ChainSaw.Lib.Grouping
import Mathlib.Data.List.Basic
import Mathlib.Data.List.Nodup
import Std.Data.TreeMap.Lemmas
import Std.Data.TreeSet.Lemmas

set_option autoImplicit false

namespace ChainSaw

open Std (TreeMap TreeSet)
open Relation (TransGen ReflTransGen)
open Relations (Acyclic)

/-- Every one of the first `n` vertices stands in exactly one chain, at exactly
one position. Chains may be empty. -/
def Partition (n : Nat) (chains : Chains) : Prop := chains.flatten.Perm (List.range n)

/-- Vertex `v` is a node of chain `i`. -/
def InChain (chains : Chains) (i v : Nat) : Prop := v ∈ chains.getD i []

instance (chains : Chains) (i v : Nat) : Decidable (InChain chains i v) :=
  inferInstanceAs (Decidable (v ∈ chains.getD i []))

theorem getD_of_found {chains : Chains} {i : Nat} {c : List Nat} (found : chains[i]? = some c) :
    chains.getD i [] = c := by
  rw [List.getD_eq_getElem?_getD, found, Option.getD_some]

/-- What holds of all chains and of the empty list holds of the chain with any number. -/
theorem getD_of_forall {p : List Nat → Prop} (empty : p []) {chains : Chains}
    (each : ∀ c ∈ chains, p c) (i : Nat) : p (chains.getD i []) := by
  cases found : chains[i]? with
  | none => rwa [List.getD_eq_getElem?_getD, found]
  | some c =>
    rw [getD_of_found found]
    exact each c (List.mem_of_getElem? found)

theorem inChain_iff {chains : Chains} {i v : Nat} :
    InChain chains i v ↔ ∃ c, chains[i]? = some c ∧ v ∈ c := by
  unfold InChain
  rw [List.getD_eq_getElem?_getD]
  cases chains[i]? <;> simp

theorem InChain.lt_length {chains : Chains} {i v : Nat} (inside : InChain chains i v) :
    i < chains.length := by
  obtain ⟨c, found, _⟩ := inChain_iff.mp inside
  exact (List.getElem?_eq_some_iff.mp found).1

theorem InChain.mem_flatten {chains : Chains} {i v : Nat} (inside : InChain chains i v) :
    v ∈ chains.flatten := by
  obtain ⟨c, found, member⟩ := inChain_iff.mp inside
  exact List.mem_flatten.mpr ⟨c, List.mem_of_getElem? found, member⟩

theorem exists_inChain {chains : Chains} {v : Nat} (member : v ∈ chains.flatten) :
    ∃ i, InChain chains i v := by
  obtain ⟨c, inside, member⟩ := List.mem_flatten.mp member
  obtain ⟨i, found⟩ := List.mem_iff_getElem?.mp inside
  exact ⟨i, inChain_iff.mpr ⟨c, found, member⟩⟩

/-- Chains without a repeated vertex are disjoint. -/
theorem inChain_unique {chains : Chains} (distinct : chains.flatten.Nodup) {i j v : Nat}
    (first : InChain chains i v) (second : InChain chains j v) : i = j := by
  obtain ⟨c, foundC, inC⟩ := inChain_iff.mp first
  obtain ⟨d, foundD, inD⟩ := inChain_iff.mp second
  obtain ⟨ltI, rfl⟩ := List.getElem?_eq_some_iff.mp foundC
  obtain ⟨ltJ, rfl⟩ := List.getElem?_eq_some_iff.mp foundD
  have disjoint := (List.nodup_flatten.mp distinct).2
  rcases Nat.lt_trichotomy i j with less | same | more
  · exact absurd inD (List.pairwise_iff_getElem.mp disjoint i j ltI ltJ less inC)
  · exact same
  · exact absurd inC (List.pairwise_iff_getElem.mp disjoint j i ltJ ltI more inD)

theorem chains_eq_range (chains : Chains) :
    chains = (List.range chains.length).map fun j => chains.getD j [] := by
  apply List.ext_getElem
  · simp
  · intro j before after
    simp [before]

theorem flatMap_eq_range {α : Type} (chains : Chains) (f : List Nat → List α) :
    chains.flatMap f = (List.range chains.length).flatMap fun j => f (chains.getD j []) := by
  conv_lhs => rw [chains_eq_range chains, List.flatMap_map]

theorem flatten_eq_range (chains : Chains) :
    chains.flatten = (List.range chains.length).flatMap fun j => chains.getD j [] := by
  rw [← List.flatMap_id, flatMap_eq_range]
  rfl

namespace Partition

variable {n : Nat} {chains : Chains}

theorem nodup (part : Partition n chains) : chains.flatten.Nodup :=
  part.nodup_iff.mpr List.nodup_range

theorem mem_flatten_iff (part : Partition n chains) {v : Nat} :
    v ∈ chains.flatten ↔ v < n := by
  rw [List.Perm.mem_iff part, List.mem_range]

theorem unique (part : Partition n chains) {i j v : Nat} (first : InChain chains i v)
    (second : InChain chains j v) : i = j :=
  inChain_unique part.nodup first second

theorem exists_chain (part : Partition n chains) {v : Nat} (bound : v < n) :
    ∃ i, InChain chains i v :=
  exists_inChain (part.mem_flatten_iff.mpr bound)

theorem lt (part : Partition n chains) {i v : Nat} (inside : InChain chains i v) : v < n :=
  part.mem_flatten_iff.mp inside.mem_flatten

theorem chain_nodup (part : Partition n chains) (i : Nat) : (chains.getD i []).Nodup :=
  getD_of_forall List.nodup_nil (List.nodup_flatten.mp part.nodup).1 i

theorem length_flatten (part : Partition n chains) : chains.flatten.length = n := by
  rw [part.length_eq, List.length_range]

end Partition

theorem emplace_chain (c : List Nat) (i v : Nat) (chunk : TreeMap Nat Nat) :
    (c.foldl (fun chunk v => chunk.insertIfNew v i) chunk)[v]? =
      chunk[v]?.or (if v ∈ c then some i else none) := by
  induction c generalizing chunk with
  | nil => simp
  | cons head rest ih =>
    rw [List.foldl_cons, ih, TreeMap.getElem?_insertIfNew]
    by_cases same : head = v
    · subst same
      by_cases present : head ∈ chunk
      · simp [present]
      · simp [present]
    · simp [same, Ne.symm same]

theorem emplace_chains (chains : Chains) (k v : Nat) (chunk : TreeMap Nat Nat) :
    ((chains.zipIdx k).foldl
        (fun chunk (c, i) => c.foldl (fun chunk v => chunk.insertIfNew v i) chunk) chunk)[v]? =
      chunk[v]?.or ((chains.findIdx? (fun c => v ∈ c)).map (· + k)) := by
  induction chains generalizing k chunk with
  | nil => simp
  | cons c rest ih =>
    rw [List.zipIdx_cons, List.foldl_cons, ih, emplace_chain, List.findIdx?_cons]
    by_cases member : v ∈ c
    · cases chunk[v]? <;> simp [member]
    · cases chunk[v]? with
      | some old => simp
      | none =>
        cases rest.findIdx? (fun c => v ∈ c) with
        | none => simp [member]
        | some i =>
          simp [member, Nat.add_comm, Nat.add_left_comm]

/-- `emplace` makes the map send a vertex to the first chain that has it. -/
theorem vertexToChainMap_getElem? (chains : Chains) (v : Nat) :
    (vertexToChainMap chains)[v]? = chains.findIdx? (fun c => v ∈ c) := by
  unfold vertexToChainMap
  rw [emplace_chains]
  simp

theorem findIdx?_of_inChain {chains : Chains} (distinct : chains.flatten.Nodup) {i v : Nat}
    (inside : InChain chains i v) : chains.findIdx? (fun c => v ∈ c) = some i := by
  obtain ⟨c, found, member⟩ := inChain_iff.mp inside
  have some : (chains.findIdx? (fun c => v ∈ c)).isSome := by
    rw [List.findIdx?_isSome]
    exact List.any_eq_true.mpr ⟨c, List.mem_of_getElem? found, by simpa using member⟩
  obtain ⟨j, index⟩ := Option.isSome_iff_exists.mp some
  obtain ⟨d, atJ, _⟩ := List.findIdx?_eq_some_iff_getElem.mp index
  have inJ : InChain chains j v :=
    inChain_iff.mpr ⟨chains[j], List.getElem?_eq_getElem d, by simpa using atJ⟩
  rw [index, inChain_unique distinct inJ inside]

theorem vertexToChainMap_of_inChain {chains : Chains} (distinct : chains.flatten.Nodup)
    {i v : Nat} (inside : InChain chains i v) : (vertexToChainMap chains)[v]? = some i := by
  rw [vertexToChainMap_getElem?, findIdx?_of_inChain distinct inside]

/-- Chain `t` depends on chain `s`: an edge leads from one to the other. -/
def ChainDep {P : Type} (g : AdjacencyList P) (chains : Chains) (s t : Nat) : Prop :=
  s ≠ t ∧ ∃ u v, InChain chains s u ∧ InChain chains t v ∧ g.Edge u v

theorem ChainDep.lt_length {P : Type} {g : AdjacencyList P} {chains : Chains} {s t : Nat}
    (depends : ChainDep g chains s t) : s < chains.length ∧ t < chains.length := by
  obtain ⟨_, u, v, inS, inT, _⟩ := depends
  exact ⟨inS.lt_length, inT.lt_length⟩

theorem ChainDep.source_ne_nil {P : Type} {g : AdjacencyList P} {chains : Chains} {s t : Nat}
    (depends : ChainDep g chains s t) : chains.getD s [] ≠ [] := by
  obtain ⟨_, u, _, inside, _, _⟩ := depends
  exact List.ne_nil_of_mem inside

theorem mem_crossEdges {P : Type} {g : AdjacencyList P} {chains : Chains} {u v : Nat} :
    (u, v) ∈ crossEdges g chains ↔ ∃ c ∈ chains, u ∈ c ∧ v ∉ c ∧ g.Edge u v := by
  unfold crossEdges AdjacencyList.Edge
  simp only [List.mem_flatMap, List.mem_map, List.mem_filter, decide_eq_true_eq, Prod.mk.injEq]
  constructor
  · rintro ⟨c, member, w, inC, t, ⟨edge, outside⟩, rfl, rfl⟩
    exact ⟨c, member, inC, outside, edge⟩
  · rintro ⟨c, member, inC, outside, edge⟩
    exact ⟨c, member, u, inC, v, ⟨edge, outside⟩, rfl, rfl⟩

/-- Every cross edge joins two different chains of a partition. -/
theorem crossEdges_chains {P : Type} {g : AdjacencyList P} {chains : Chains}
    (part : Partition g.numVertices chains) {u v : Nat} (cross : (u, v) ∈ crossEdges g chains) :
    ∃ s t, InChain chains s u ∧ InChain chains t v ∧ s ≠ t ∧ g.Edge u v := by
  obtain ⟨c, member, inC, outside, edge⟩ := mem_crossEdges.mp cross
  obtain ⟨s, found⟩ := List.mem_iff_getElem?.mp member
  obtain ⟨t, inT⟩ := part.exists_chain edge.bounds.2
  refine ⟨s, t, inChain_iff.mpr ⟨c, found, inC⟩, inT, ?_, edge⟩
  rintro rfl
  obtain ⟨d, again, inD⟩ := inChain_iff.mp inT
  rw [found] at again
  cases again
  exact outside inD

theorem mem_crossEdges_of_inChain {P : Type} {g : AdjacencyList P} {chains : Chains}
    (distinct : chains.flatten.Nodup) {s t u v : Nat} (inS : InChain chains s u)
    (inT : InChain chains t v) (apart : s ≠ t) (edge : g.Edge u v) :
    (u, v) ∈ crossEdges g chains := by
  obtain ⟨c, found, inC⟩ := inChain_iff.mp inS
  refine mem_crossEdges.mpr ⟨c, List.mem_of_getElem? found, inC, ?_, edge⟩
  intro inside
  exact apart (inChain_unique distinct (inChain_iff.mpr ⟨c, found, inside⟩) inT)

/-- The chain of a vertex. -/
def chainOf (chains : Chains) (v : Nat) : Nat := ((vertexToChainMap chains)[v]?).getD 0

theorem chainOf_eq {chains : Chains} (distinct : chains.flatten.Nodup) {i v : Nat}
    (inside : InChain chains i v) : chainOf chains v = i := by
  rw [chainOf, vertexToChainMap_of_inChain distinct inside, Option.getD_some]

/-- On a partition every lookup succeeds and the self-loop assertion holds. -/
theorem dependenciesGenerate_eq {P : Type} {g : AdjacencyList P} {chains : Chains}
    (part : Partition g.numVertices chains) :
    dependenciesGenerate g chains (vertexToChainMap chains) =
      .ok ((crossEdges g chains).map fun e => ⟨chainOf chains e.1, chainOf chains e.2⟩) := by
  apply Loops.mapM_total
  rintro ⟨u, v⟩ cross
  obtain ⟨s, t, inS, inT, apart, _⟩ := crossEdges_chains part cross
  simp only [vertexToChainMap_of_inChain part.nodup inS, vertexToChainMap_of_inChain part.nodup inT,
    chainOf_eq part.nodup inS, chainOf_eq part.nodup inT]
  simp [deref, check, apart]

theorem mem_dependencies {P : Type} {g : AdjacencyList P} {chains : Chains}
    (part : Partition g.numVertices chains) {dependencies : List ChainDependency}
    (returned : dependenciesGenerate g chains (vertexToChainMap chains) = .ok dependencies)
    {s t : Nat} : ⟨s, t⟩ ∈ dependencies ↔ ChainDep g chains s t := by
  rw [dependenciesGenerate_eq part] at returned
  cases returned
  simp only [List.mem_map, Prod.exists, ChainDependency.mk.injEq]
  constructor
  · rintro ⟨u, v, cross, rfl, rfl⟩
    obtain ⟨s, t, inS, inT, apart, edge⟩ := crossEdges_chains part cross
    rw [chainOf_eq part.nodup inS, chainOf_eq part.nodup inT]
    exact ⟨apart, u, v, inS, inT, edge⟩
  · rintro ⟨apart, u, v, inS, inT, edge⟩
    exact ⟨u, v, mem_crossEdges_of_inChain part.nodup inS inT apart edge,
      chainOf_eq part.nodup inS, chainOf_eq part.nodup inT⟩

/-- Chain `t` is in the set that the map holds for `s`. -/
def Depends (dependencies : ChainSets) (s t : Nat) : Prop := t ∈ dependencies[s]?.getD ∅

instance (dependencies : ChainSets) (s t : Nat) : Decidable (Depends dependencies s t) :=
  inferInstanceAs (Decidable (t ∈ dependencies[s]?.getD ∅))

theorem Depends.exists_set {dependencies : ChainSets} {s t : Nat} (depends : Depends dependencies s t) :
    ∃ set, dependencies[s]? = some set ∧ t ∈ set := by
  unfold Depends at depends
  cases found : dependencies[s]? with
  | none => simp [found] at depends
  | some set => exact ⟨set, rfl, by simpa [found] using depends⟩

theorem histoDependency_getElem? (dependencies : List ChainDependency) (s : Nat) :
    (histoDependency dependencies)[s]?.getD [] =
      (dependencies.filter (fun dep => dep.source == s)).map (·.target) :=
  Grouping.group_empty_getElem? ChainDependency.source ChainDependency.target dependencies s

theorem insert_all (ds : List Nat) (un : ChainSets) (c s t : Nat) :
    Depends (ds.foldl (fun un d => un.alter c (fun ds => some ((ds.getD ∅).insert d))) un) s t ↔
      Depends un s t ∨ (c = s ∧ t ∈ ds) := by
  induction ds generalizing un with
  | nil => simp
  | cons d rest ih =>
    rw [List.foldl_cons, ih]
    unfold Depends
    rw [TreeMap.getElem?_alter]
    by_cases same : c = s
    · subst same
      simp only [Std.compare_self, ↓reduceIte, Option.getD_some, TreeSet.mem_insert,
        Std.compare_eq_iff_eq, true_and, List.mem_cons]
      rw [eq_comm]
      tauto
    · simp [same]

theorem uniqueDependency_from (entries : List (Nat × List Nat)) (un : ChainSets) (s t : Nat) :
    Depends (entries.foldl (fun un c => c.2.foldl
        (fun un d => un.alter c.1 (fun ds => some ((ds.getD ∅).insert d))) un) un) s t ↔
      Depends un s t ∨ ∃ c ∈ entries, c.1 = s ∧ t ∈ c.2 := by
  induction entries generalizing un with
  | nil => simp
  | cons c rest ih =>
    rw [List.foldl_cons, ih, insert_all]
    simp only [List.mem_cons, exists_eq_or_imp, or_assoc]

/-- The set kept for a chain holds exactly the targets of its dependencies. -/
theorem depends_uniqueDependency (dependencies : List ChainDependency) (s t : Nat) :
    Depends (uniqueDependency (histoDependency dependencies)) s t ↔ ⟨s, t⟩ ∈ dependencies := by
  unfold uniqueDependency
  rw [uniqueDependency_from]
  have targets : (∃ c ∈ (histoDependency dependencies).toList, c.1 = s ∧ t ∈ c.2) ↔
      t ∈ (histoDependency dependencies)[s]?.getD [] := by
    constructor
    · rintro ⟨⟨s', ts⟩, listed, rfl, member⟩
      rw [TreeMap.mem_toList_iff_getElem?_eq_some] at listed
      simpa [listed] using member
    · intro member
      cases found : (histoDependency dependencies)[s]? with
      | none => simp [found] at member
      | some ts =>
        exact ⟨(s, ts), TreeMap.mem_toList_iff_getElem?_eq_some.mpr found, rfl,
          by simpa [found] using member⟩
  rw [targets, histoDependency_getElem?]
  simp only [Depends, TreeMap.getElem?_emptyc, Option.getD_none, TreeSet.not_mem_emptyc,
    false_or, List.mem_map, List.mem_filter, beq_iff_eq]
  constructor
  · rintro ⟨dep, ⟨member, rfl⟩, rfl⟩
    exact member
  · intro member
    exact ⟨⟨s, t⟩, ⟨member, rfl⟩, rfl⟩

/-- The map that `initialize` and `mergeChain` check for loops describes the
edges between the chains exactly. -/
theorem unDependenciesOf_total {P : Type} {g : AdjacencyList P} {chains : Chains}
    (part : Partition g.numVertices chains) :
    ∃ un, unDependenciesOf g chains = .ok un ∧ ∀ s t, Depends un s t ↔ ChainDep g chains s t := by
  refine ⟨_, by unfold unDependenciesOf; rw [dependenciesGenerate_eq part]; rfl, ?_⟩
  intro s t
  rw [depends_uniqueDependency]
  exact mem_dependencies part (dependenciesGenerate_eq part)

/-- The dependents of a chain in the order of the set. -/
def dependents (dependencies : ChainSets) (a : Nat) : List Nat :=
  (dependencies[a]?.map (·.toList)).getD []

theorem mem_dependents {dependencies : ChainSets} {a b : Nat} :
    b ∈ dependents dependencies a ↔ Depends dependencies a b := by
  unfold dependents Depends
  cases dependencies[a]? <;> simp

/-- The result of a search that may have gone too deep. -/
def ofSearch {α : Type} : Option α → Result α
  | some value => .ok value
  | none => .error .diverges

theorem checkDependents_eq_scan {visit : Nat → List Nat → Result (Bool × List Nat)}
    {search : Nat → List Nat → Option (Bool × List Nat)}
    (same : ∀ a stack, visit a stack = ofSearch (search a stack)) (rest : List Nat) :
    ∀ stack, checkDependents visit rest stack = ofSearch (CycleSearch.scan search rest stack) := by
  induction rest with
  | nil => intro stack; rfl
  | cons ch rest ih =>
    intro stack
    unfold checkDependents CycleSearch.scan
    split
    · rfl
    · rw [same]
      cases search ch (stack ++ [ch]) with
      | none => rfl
      | some result =>
        obtain ⟨found, stack⟩ := result
        cases found
        · exact ih stack
        · rfl

/-- `checkLoopComplete` is the depth-first search along the dependents. -/
theorem checkLoopComplete_eq_search (dependencies : ChainSets) (depth : Nat) :
    ∀ a stack, checkLoopComplete dependencies depth a stack =
      ofSearch (CycleSearch.search (dependents dependencies) depth a stack) := by
  induction depth with
  | zero => intro a stack; rfl
  | succ depth ih =>
    intro a stack
    unfold checkLoopComplete CycleSearch.search dependents
    cases dependencies[a]? with
    | none => rfl
    | some node => exact checkDependents_eq_scan ih node.toList stack

theorem dependents_listed {dependencies : ChainSets} {a : Nat}
    (branching : dependents dependencies a ≠ []) : a ∈ dependencies.keys := by
  rw [TreeMap.mem_keys, ← TreeMap.isSome_getElem?_iff_mem]
  unfold dependents at branching
  cases found : dependencies[a]? with
  | none => simp [found] at branching
  | some node => rfl

/-- Started on a stack that holds `id` alone, the check answers, and finds
exactly the loops that can be reached from `id`. The answer and the stack that
is left do not depend on the bound. -/
theorem checkLoopComplete_root (dependencies : ChainSets) (id : Nat) :
    ∃ found left, (∀ depth, dependencies.size < depth →
        checkLoopComplete dependencies depth id [id] = .ok (found, left)) ∧
      (found = true ↔ ∃ c, ReflTransGen (Depends dependencies) id c ∧
        TransGen (Depends dependencies) c c) := by
  have listed : ∀ a, dependents dependencies a ≠ [] → a ∈ dependencies.keys :=
    fun _ => dependents_listed
  obtain ⟨found, left, returned, exact⟩ := CycleSearch.search_root listed id
  refine ⟨found, left, ?_, ?_⟩
  · intro depth enough
    rw [← TreeMap.length_keys] at enough
    rw [checkLoopComplete_eq_search, CycleSearch.search_deeper enough id [id] _ returned]
    rfl
  · simpa only [mem_dependents] using exact

/-- The check from chain 0 always answers, and finds exactly the loops that can
be reached from chain 0. -/
theorem hasLoop_exact (dependencies : ChainSets) :
    ∃ loop, hasLoop dependencies = .ok loop ∧
      (loop = true ↔ ∃ c, ReflTransGen (Depends dependencies) 0 c ∧
        TransGen (Depends dependencies) c c) := by
  obtain ⟨loop, left, returned, exact⟩ := checkLoopComplete_root dependencies 0
  refine ⟨loop, ?_, exact⟩
  unfold hasLoop
  rw [returned _ (Nat.lt_succ_self _)]
  rfl

end ChainSaw
