import ChainSaw.Blocks

set_option autoImplicit false

namespace ChainSaw

open Std (TreeMap TreeSet)
open Relation (TransGen ReflTransGen)
open Relations (Acyclic)
open LongestPath (Walk)
open Trees (IsTree leaves)

theorem levelOf_congr {chGraph chGraph' : List ChainGraph}
    (same : (chGraph.map fun m => (m.chainId, m.level)) =
      chGraph'.map fun m => (m.chainId, m.level)) : levelOf chGraph = levelOf chGraph' := by
  have read : ∀ g : List ChainGraph, ∀ id, levelOf g id =
      (((g.map fun m => (m.chainId, m.level)).find? (fun e => e.1 == id)).map (·.2)).getD (-1) := by
    intro g id
    rw [List.find?_map, Option.map_map]
    rfl
  funext id
  rw [read, read, same]

/-- Where chain 0 leads to every chain and no chain back to itself, the longest
paths are levels in the sense of the traversal. -/
theorem levelled_of_isLevel {un : ChainSets} {level : Nat → Int} {ids : List Nat}
    (known : ∀ s t, Depends un s t → s ∈ ids ∧ t ∈ ids) (acyclic : Acyclic (Depends un))
    (reached : ∀ c ∈ ids, ReflTransGen (Depends un) 0 c)
    (isLevel : ∀ c ∈ ids, IsLevel un c (level c)) : Levelled un level ids := by
  have longest : ∀ c ∈ ids, c ≠ 0 → ∃ (n : Nat) (p : Nat), level c = (n + 1 : Nat) ∧
      Walk (Depends un) 0 n p ∧ Depends un p c := by
    intro c isChain other
    rcases isLevel c isChain with ⟨_, unreached⟩ | ⟨n, isN, walk, _⟩
    · exact absurd (reached c isChain) unreached
    · cases walk with
      | nil => exact absurd rfl other
      | tail before depends => exact ⟨_, _, isN, before, depends⟩
  constructor
  · exact known
  · intro s t depends
    have ends := known s t depends
    exact ((isLevel s ends.1).lt (isLevel t ends.2) (reached s ends.1) depends).2
  · intro c isChain other
    obtain ⟨n, _, isN, _, _⟩ := longest c isChain other
    omega
  · intro p depends
    exact acyclic 0 (.tail' (reached p (known p 0 depends).1) depends)
  · intro c isChain other lone
    obtain ⟨n, p, isN, walk, depends⟩ := longest c isChain other
    have isRoot := lone p depends
    subst isRoot
    cases walk with
    | nil => exact ⟨depends, isN⟩
    | tail before back => exact absurd (.tail' before.reflTransGen back) (acyclic 0)

/-- Every chain but 0 has a parent that sees to its block. -/
theorem Levelled.due {un : ChainSets} {level : Nat → Int} {ids : List Nat}
    (levelled : Levelled un level ids) {c : Nat} (isChain : c ∈ ids) (other : c ≠ 0) :
    ∃ p, Depends un p c ∧ (p ≠ 0 ∨ level c = 1) := by
  by_cases lone : ∀ p, Depends un p c → p = 0
  · obtain ⟨depends, low⟩ := levelled.lone c isChain other lone
    exact ⟨0, depends, .inr low⟩
  · obtain ⟨p, parent⟩ := not_forall.mp lone
    obtain ⟨depends, notZero⟩ := Classical.not_imp.mp parent
    exact ⟨p, depends, .inl notZero⟩

/-- The level order begins with chain 0. -/
theorem levelOrder_root {chGraph : List ChainGraph} (distinct : (chGraph.map (·.chainId)).Nodup)
    {m : ChainGraph} (member : m ∈ chGraph) (isRoot : m.chainId = 0) (low : m.level = 0)
    (above : ∀ m ∈ chGraph, m.chainId ≠ 0 → 0 < toUInt32 m.level) :
    ∃ rest, (buildChainLevel chGraph).toList.flatMap (·.2) = 0 :: rest := by
  have listed := buildChainLevel_perm chGraph
  have first : ∀ c ∈ (buildChainLevel chGraph).toList.flatMap (·.2), c ≠ 0 →
      ((buildChainLevel chGraph).toList.flatMap (·.2)).idxOf 0 <
        ((buildChainLevel chGraph).toList.flatMap (·.2)).idxOf c := by
    intro c inOrder other
    obtain ⟨m', member', rfl⟩ := List.mem_map.mp (listed.mem_iff.mp inOrder)
    rw [← isRoot]
    refine Grouping.group_idxOf_lt (fun ch : ChainGraph => toUInt32 ch.level) (·.chainId) distinct
      member member' ?_
    rw [low]
    exact above m' member' other
  have inOrder := listed.mem_iff.mpr (List.mem_map_of_mem member)
  generalize (buildChainLevel chGraph).toList.flatMap (·.2) = order at first inOrder
  cases order with
  | nil => cases inOrder
  | cons c rest =>
    by_cases zero : c = 0
    · exact ⟨rest, by rw [zero]⟩
    · have less := first c (by simp) zero
      rw [List.idxOf_cons_self] at less
      omega

/-- In the levels that `buildChainGraph` leaves, chain 0 comes first. -/
theorem buildChainGraph_order {orig : BoostGraph} {chains : Chains} {maps : DependencyMaps}
    {built : List ChainGraph} (returned : buildChainGraph orig chains maps = .ok built)
    (below : ∀ m ∈ built, m.level < 2 ^ 32)
    (isLevel : ∀ m ∈ built, IsLevel maps.unDependencies m.chainId m.level)
    (acyclic : ¬ TransGen (Depends maps.unDependencies) 0 0) :
    ∃ rest, (buildChainLevel built).toList.flatMap (·.2) = 0 :: rest := by
  have ids := buildChainGraph_ids returned
  have isZero : 0 ∈ List.range chains.length := List.mem_range.mpr (buildChainGraph_root returned)
  obtain ⟨m, member, isRoot⟩ := List.mem_map.mp (ids ▸ isZero)
  have low : m.level = 0 := by
    rcases isLevel m member with ⟨_, unreached⟩ | ⟨n, isN, walk, _⟩
    · exact absurd (isRoot ▸ .refl) unreached
    · rw [isRoot] at walk
      cases walk with
      | nil => exact isN
      | tail before back => exact absurd (.tail' before.reflTransGen back) acyclic
  refine levelOrder_root (ids ▸ List.nodup_range) member isRoot low ?_
  intro m member other
  rcases isLevel m member with ⟨unreached, _⟩ | ⟨n, isN, walk, _⟩
  · rw [unreached]
    decide
  · generalize m.chainId = c at other walk
    cases walk with
    | nil => exact absurd rfl other
    | tail _ _ =>
      rw [toUInt32_of_lt (by omega) (below m member)]
      omega

/-- The traversal of the levels finds all it looks up, if chain 0 has dependents. -/
theorem buildChainGraph_blocks {orig : BoostGraph} {chains : Chains} {maps : DependencyMaps}
    {built : List ChainGraph} (returned : buildChainGraph orig chains maps = .ok built)
    (below : ∀ m ∈ built, m.level < 2 ^ 32)
    (isLevel : ∀ m ∈ built, IsLevel maps.unDependencies m.chainId m.level)
    (acyclic : ¬ TransGen (Depends maps.unDependencies) 0 0)
    (known : ∀ s t, Depends maps.unDependencies s t → t < chains.length)
    (converse : ∀ s t, Depends maps.unReverseMapping t s ↔ Depends maps.unDependencies s t)
    {c : Nat} (depends : Depends maps.unDependencies 0 c) (limit : Nat) :
    ∃ rest final blocks, (buildChainLevel built).toList.flatMap (·.2) = 0 :: rest ∧
      (0 :: rest).Perm (List.range chains.length) ∧
      createChainBlocks maps limit (buildChainLevel built) built = .ok (final, blocks) := by
  have ids := buildChainGraph_ids returned
  obtain ⟨rest, order⟩ := buildChainGraph_order returned below isLevel acyclic
  have listed : (0 :: rest).Perm (List.range chains.length) := by
    rw [← order, ← ids]
    exact buildChainLevel_perm built
  obtain ⟨children, found, _⟩ := depends.exists_set
  obtain ⟨⟨final, blocks⟩, created⟩ := createChainBlocks_total
    (fun s t depends => List.mem_range.mpr (known s t depends)) converse ids
    (buildChainGraph_fresh returned) order listed List.nodup_range found limit
  exact ⟨rest, final, blocks, order, listed, created⟩

section traversal

variable {maps : DependencyMaps} {limit : Nat} {ids : List Nat} {chainGraph : List ChainGraph}

/-- The state of `rootBlocks` when it has looked at the children in `cs`: only they
can have a block. -/
structure RootLoop (un : ChainSets) (limit : Nat) (chainGraph : List ChainGraph) (ids cs : List Nat)
    (s : BlockState) : Prop where
  blocked : Blocked un limit (levelOf chainGraph) ids (fun p c => p = 0 ∧ c ∈ cs) s
  looked : ∀ c, blockOf s.chainGraph c ≠ 0 → c ∈ cs
  levels : (s.chainGraph.map fun m => (m.chainId, m.level)) =
    chainGraph.map fun m => (m.chainId, m.level)

theorem rootLoop_start {un : ChainSets} (isRoot : 0 ∈ chainGraph.map (·.chainId))
    (same : chainGraph.map (·.chainId) = ids) (fresh : ∀ m ∈ chainGraph, m.blockID = 0)
    (blockPass : TreeMap Nat Nat) :
    RootLoop un limit chainGraph ids []
      ⟨0, blockPass, updateChain 0 (fun m => { m with blockID := 0 }) chainGraph⟩ := by
  have without : ∀ c, blockOf (updateChain 0 (fun m => { m with blockID := 0 }) chainGraph) c = 0 := by
    intro c
    rw [blockOf_updateChain isRoot]
    by_cases zero : c = 0
    · simp [zero]
    · rw [Function.update_of_ne zero]
      unfold blockOf
      cases found : chainGraph.find? (fun m => m.chainId == c) with
      | none => rfl
      | some m => exact fresh m (List.mem_of_find?_eq_some found)
  refine ⟨⟨?_, without 0, fun c => Nat.le_of_eq (without c), ?_, ?_, ?_⟩, ?_, ?_⟩
  · rw [map_updateChain (·.chainId) (by intro m; rfl)]
    exact same
  · intro b nonzero below
    exact absurd (Nat.le_zero.mp below) nonzero
  · intro c placed
    exact absurd (without c) placed
  · intro p c none
    exact absurd none.2 List.not_mem_nil
  · intro c placed
    exact absurd (without c) placed
  · exact map_updateChain (fun m => (m.chainId, m.level)) (by intro m; rfl) 0 chainGraph

/-- A child on level 1 opens a block, since none has looked at it before. -/
theorem RootLoop.child {un : ChainSets} {cs : List Nat} {s : BlockState}
    (loop : RootLoop un limit chainGraph ids cs s)
    (levelled : Levelled un (levelOf chainGraph) ids) {child : Nat} (depends : Depends un 0 child)
    (unseen : child ∉ cs) {m : ChainGraph} (found : findChain s.chainGraph child = .ok m) :
    RootLoop un limit chainGraph ids (cs ++ [child])
      (if m.level = 1 then openBlock s child else s) := by
  have isChain := (levelled.known 0 child depends).2
  have itsLevel : m.level = levelOf chainGraph child := by
    obtain ⟨m', found', isLevel⟩ := findChain_total (loop.blocked.same ▸ isChain)
    rw [found] at found'
    cases found'
    rw [isLevel, levelOf_congr loop.levels]
  have extended : ∀ p c, ((p = 0 ∧ c ∈ cs) ∨ p = 0 ∧ c = child) ↔ (p = 0 ∧ c ∈ cs ++ [child]) := by
    intro p c
    simp only [List.mem_append, List.mem_singleton]
    tauto
  rw [itsLevel]
  split
  · rename_i low
    have free : blockOf s.chainGraph child = 0 := by
      by_contra placed
      exact unseen (loop.looked child placed)
    have notZero : child ≠ 0 := fun zero => levelled.top 0 (zero ▸ depends)
    refine ⟨(loop.blocked.openBlock isChain free notZero (.inr low)).congr extended, ?_, ?_⟩
    · intro c placed
      by_cases isChild : c = child
      · simp [isChild]
      · rw [openBlock, blockOf_updateChain (loop.blocked.same ▸ isChain),
          Function.update_of_ne isChild] at placed
        exact List.mem_append_left _ (loop.looked c placed)
    · rw [openBlock_map _ (by intro m b; rfl)]
      exact loop.levels
  · rename_i high
    refine ⟨(loop.blocked.keep fun due => ?_).congr extended, ?_, loop.levels⟩
    · exact absurd (due.resolve_left fun other => other rfl) high
    · intro c placed
      exact List.mem_append_left _ (loop.looked c placed)

/-- The turn of chain 0, at the start of the traversal. -/
theorem rootBlocks_blocked (levelled : Levelled maps.unDependencies (levelOf chainGraph) ids)
    (same : chainGraph.map (·.chainId) = ids) (fresh : ∀ m ∈ chainGraph, m.blockID = 0)
    {next : BlockState}
    (returned : rootBlocks maps { i := 0, blockPass := ∅, chainGraph } = .ok next) :
    Blocked maps.unDependencies limit (levelOf chainGraph) ids
      (fun p c => p = 0 ∧ Depends maps.unDependencies 0 c) next := by
  obtain ⟨m, foundRoot, returned⟩ := Loops.bind_eq_ok.mp returned
  obtain ⟨children, found, looped⟩ := Loops.bind_eq_ok.mp returned
  have listed : ∀ c, c ∈ children.toList ↔ Depends maps.unDependencies 0 c := by
    intro c
    simp [Depends, deref_eq_ok.mp found]
  have isRoot : 0 ∈ chainGraph.map (·.chainId) := by
    refine List.mem_map.mpr ⟨m, List.mem_of_find?_eq_some (deref_eq_ok.mp foundRoot), ?_⟩
    simpa using List.find?_some (deref_eq_ok.mp foundRoot)
  have final := Loops.foldlM_ok_visited (RootLoop maps.unDependencies limit chainGraph ids)
    children.toList ?_ (rootLoop_start isRoot same fresh _) looped
  · refine final.blocked.congr fun p c => ?_
    rw [listed]
  · intro cs child rest s next split loop stepped
    obtain ⟨m, foundChild, stepped⟩ := Loops.bind_eq_ok.mp stepped
    cases stepped
    have once := nodup_toList children
    rw [split] at once
    have unseen : child ∉ cs := by
      intro seen
      exact (List.nodup_append.mp once).2.2 child seen child (by simp) rfl
    exact loop.child levelled ((listed child).mp (by simp [split])) unseen foundChild

/-- An order that has `0` first and sources before targets has the parents of a
chain before it. -/
theorem parents_before {un : ChainSets} {seen later : List Nat} {ch : Nat}
    (before : ∀ s t, Depends un s t →
      (seen ++ ch :: later).idxOf s < (seen ++ ch :: later).idxOf t)
    (unseen : ch ∉ seen) {p : Nat} (depends : Depends un p ch) : p ∈ seen := by
  have order := before p ch depends
  by_contra absent
  rw [List.idxOf_append_of_notMem absent, List.idxOf_append_of_notMem unseen,
    List.idxOf_cons_self] at order
  omega

/-- What holds after the turns of all chains. -/
theorem traversal_blocked (levelled : Levelled maps.unDependencies (levelOf chainGraph) ids)
    (converse : ∀ s t, Depends maps.unReverseMapping t s ↔ Depends maps.unDependencies s t)
    (same : chainGraph.map (·.chainId) = ids) (fresh : ∀ m ∈ chainGraph, m.blockID = 0)
    {rest : List Nat} (listed : (0 :: rest).Perm ids) (distinct : ids.Nodup)
    (before : ∀ s t, Depends maps.unDependencies s t →
      (0 :: rest).idxOf s < (0 :: rest).idxOf t)
    {final : BlockState}
    (returned : (0 :: rest).foldlM (chainBlocks maps limit)
      { i := 0, blockPass := ∅, chainGraph } = .ok final) :
    Blocked maps.unDependencies limit (levelOf chainGraph) ids
      (fun p c => Depends maps.unDependencies p c) final := by
  obtain ⟨opened, rooted, looped⟩ := Loops.foldlM_cons_ok.mp returned
  have start : Blocked maps.unDependencies limit (levelOf chainGraph) ids
      (fun p c => p = 0 ∧ Depends maps.unDependencies 0 c) opened :=
    rootBlocks_blocked levelled same fresh rooted
  have complete := Loops.foldlM_ok_visited (fun (seen : List Nat) (s : BlockState) =>
      Blocked maps.unDependencies limit (levelOf chainGraph) ids
        (fun p c => p ∈ 0 :: seen ∧ Depends maps.unDependencies p c) s) rest ?_
      (start.congr ?_) looped
  · refine complete.congr fun p c => ?_
    constructor
    · exact fun both => both.2
    · exact fun depends => ⟨listed.mem_iff.mpr (levelled.known p c depends).1, depends⟩
  · intro seen ch later s next split blocked stepped
    have once := listed.nodup_iff.mpr distinct
    rw [split, ← List.cons_append] at once
    rw [split, ← List.cons_append] at before
    have unseen : ch ∉ 0 :: seen := by
      intro member
      exact (List.nodup_append.mp once).2.2 ch member ch (by simp) rfl
    have other : ch ≠ 0 := fun zero => unseen (by simp [zero])
    have isChain : ch ∈ ids := listed.mem_iff.mp (by simp [split])
    obtain ⟨p, depends, due⟩ := levelled.due isChain other
    have turned := chainBlocks_blocked levelled converse (fun p c both => both.2)
      (fun c both => unseen both.1) other blocked
      ⟨p, ⟨parents_before before unseen depends, depends⟩, due⟩ stepped
    refine turned.congr fun q c => ?_
    rw [← List.cons_append, List.mem_append, List.mem_singleton]
    constructor
    · rintro (⟨old, itsChild⟩ | ⟨isCh, itsChild⟩)
      · exact ⟨.inl old, itsChild⟩
      · exact ⟨.inr isCh, isCh ▸ itsChild⟩
    · rintro ⟨old | isCh, itsChild⟩
      · exact .inl ⟨old, itsChild⟩
      · exact .inr ⟨isCh, isCh ▸ itsChild⟩
  · intro p c
    rw [List.mem_singleton]
    constructor
    · intro both
      exact ⟨both.1, both.1 ▸ both.2⟩
    · intro both
      exact ⟨both.1, both.1 ▸ both.2⟩

end traversal

theorem fileChain_blkIDs (ch : ChainGraph) (blocks : List Block) :
    (fileChain ch blocks).map (·.blkID) =
      if ch.blockID ∈ blocks.map (·.blkID) then blocks.map (·.blkID)
      else blocks.map (·.blkID) ++ [ch.blockID] := by
  induction blocks with
  | nil => rfl
  | cons bl rest ih =>
    unfold fileChain
    by_cases here : bl.blkID = ch.blockID
    · simp [here]
    · rw [if_neg here, List.map_cons, ih]
      by_cases later : ch.blockID ∈ rest.map (·.blkID)
      · have listed : ch.blockID ∈ (bl :: rest).map (·.blkID) := List.mem_cons_of_mem _ later
        rw [if_pos later, if_pos listed, List.map_cons]
      · have absent : ch.blockID ∉ (bl :: rest).map (·.blkID) := by
          simp only [List.map_cons, List.mem_cons, not_or]
          exact ⟨fun isHead => here isHead.symm, later⟩
        rw [if_neg later, if_neg absent, List.map_cons, List.cons_append]

/-- The chains of `chain_graph` with block id `b`. -/
def filed (chainGraph : List ChainGraph) (b : Nat) : List Nat :=
  (chainGraph.filter fun m => m.blockID == b).map (·.chainId)

theorem filed_append (chainGraph : List ChainGraph) (ch : ChainGraph) (b : Nat) :
    filed (chainGraph ++ [ch]) b =
      filed chainGraph b ++ if ch.blockID = b then [ch.chainId] else [] := by
  unfold filed
  rw [List.filter_append, List.map_append]
  by_cases same : ch.blockID = b
  · simp [same]
  · simp [same]

/-- What `block_chain` holds when the chains so far are filed. -/
structure Filed (chainGraph : List ChainGraph) (blocks : List Block) : Prop where
  distinct : (blocks.map (·.blkID)).Nodup
  chains : ∀ bl ∈ blocks, bl.chains = filed chainGraph bl.blkID
  used : ∀ b, b ∈ blocks.map (·.blkID) ↔ ∃ m ∈ chainGraph, m.blockID = b

theorem fileChain_chains {chainGraph : List ChainGraph} (ch : ChainGraph) {blocks : List Block}
    (distinct : (blocks.map (·.blkID)).Nodup)
    (each : ∀ bl ∈ blocks, bl.chains = filed chainGraph bl.blkID)
    (new : ch.blockID ∉ blocks.map (·.blkID) → filed chainGraph ch.blockID = []) :
    ∀ bl ∈ fileChain ch blocks, bl.chains = filed (chainGraph ++ [ch]) bl.blkID := by
  induction blocks with
  | nil =>
    intro bl member
    cases List.mem_singleton.mp member
    rw [filed_append, if_pos rfl, new (by simp)]
    rfl
  | cons first rest ih =>
    intro bl member
    rw [List.map_cons, List.nodup_cons] at distinct
    unfold fileChain at member
    by_cases here : first.blkID = ch.blockID
    · rw [if_pos here] at member
      rcases List.mem_cons.mp member with rfl | later
      · rw [filed_append, if_pos here.symm, ← each first (by simp)]
      · have apart : ch.blockID ≠ bl.blkID := by
          intro same
          apply distinct.1
          rw [here, same]
          exact List.mem_map_of_mem later
        rw [filed_append, if_neg apart, List.append_nil]
        exact each bl (by simp [later])
    · rw [if_neg here] at member
      rcases List.mem_cons.mp member with rfl | later
      · rw [filed_append, if_neg (Ne.symm here), List.append_nil]
        exact each bl (by simp)
      · refine ih distinct.2 (fun bl member => each bl (by simp [member])) ?_ bl later
        intro absent
        apply new
        simp only [List.map_cons, List.mem_cons, not_or]
        exact ⟨Ne.symm here, absent⟩

theorem fileChains_filed (chainGraph : List ChainGraph) :
    Filed chainGraph (chainGraph.foldl (fun blocks ch => fileChain ch blocks) []) := by
  induction chainGraph using List.reverseRecOn with
  | nil => exact ⟨List.nodup_nil, by simp, by simp⟩
  | append_singleton chainGraph ch ih =>
    rw [List.foldl_append, List.foldl_cons, List.foldl_nil]
    generalize chainGraph.foldl (fun blocks ch => fileChain ch blocks) [] = blocks at ih
    refine ⟨?_, ?_, ?_⟩
    · rw [fileChain_blkIDs]
      split
      · exact ih.distinct
      · rename_i absent
        exact List.nodup_append.mpr ⟨ih.distinct, by simp, by simpa using absent⟩
    · refine fileChain_chains ch ih.distinct ih.chains ?_
      intro absent
      rw [ih.used] at absent
      unfold filed
      rw [List.map_eq_nil_iff, List.filter_eq_nil_iff]
      intro m member same
      exact absent ⟨m, member, beq_iff_eq.mp same⟩
    · intro b
      rw [fileChain_blkIDs]
      simp only [List.mem_append, List.mem_singleton, or_and_right, exists_or, exists_eq_left]
      rw [← ih.used]
      split
      · rename_i listed
        constructor
        · exact .inl
        · rintro (old | rfl)
          · exact old
          · exact listed
      · rw [List.mem_append, List.mem_singleton, eq_comm]

/-- The chains of a block form a tree: one root, and every other chain depends on
chain 0 and on one chain of the block. -/
structure BlockTree (un : ChainSets) (chains : List Nat) (root : Nat) : Prop where
  root_mem : root ∈ chains
  top : ∀ p ∈ chains, ¬ Depends un p root
  parent : ∀ c ∈ chains, c ≠ root → ∃ p ∈ chains, p ≠ 0 ∧ ∀ q, Depends un q c ↔ q = 0 ∨ q = p
  reached : ∀ c ∈ chains,
    ReflTransGen (fun p c => p ∈ chains ∧ c ∈ chains ∧ Depends un p c) root c

theorem BlockTree.unique {un : ChainSets} {chains : List Nat} {root root' : Nat}
    (tree : BlockTree un chains root) (tree' : BlockTree un chains root') : root' = root := by
  by_contra other
  obtain ⟨p, inside, _, only⟩ := tree.parent root' tree'.root_mem other
  exact tree'.top p inside ((only p).mpr (.inr rfl))

theorem BlockTree.of_isTree {un : ChainSets} {level : Nat → Int} {chains : List Nat} {root : Nat}
    (ranked : ∀ s t, Depends un s t → level s < level t)
    (tree : IsTree (OnlyParent un) level chains.toFinset root) : BlockTree un chains root where
  root_mem := List.mem_toFinset.mp tree.root_mem
  top := by
    intro p inside depends
    have higher := ranked p root depends
    have least := tree.least p (List.mem_toFinset.mpr inside)
    omega
  parent := by
    intro c inside other
    obtain ⟨p, above, only⟩ := tree.parent c (List.mem_toFinset.mpr inside) other
    exact ⟨p, List.mem_toFinset.mp above, only.1, only.2⟩
  reached := by
    intro c inside
    have walk := tree.reached (fun p c only => ranked p c only.depends) c
      (List.mem_toFinset.mpr inside)
    refine Relation.ReflTransGen.mono ?_ _ _ walk
    intro p d step
    exact ⟨List.mem_toFinset.mp step.1, List.mem_toFinset.mp step.2.1, step.2.2.depends⟩

/-- The chains of a block from which no dependency leads to a chain of the block. -/
def blockLeaves (un : ChainSets) (chains : List Nat) : Nat :=
  chains.countP fun c => ∀ d ∈ chains, ¬ Depends un c d

theorem blockLeaves_eq {chains : List Nat} (once : chains.Nodup) (un : ChainSets) :
    blockLeaves un chains = (leaves (Depends un) chains.toFinset).card := by
  have listed : leaves (Depends un) chains.toFinset =
      (chains.filter fun c => ∀ d ∈ chains, ¬ Depends un c d).toFinset := by
    ext c
    simp [Trees.mem_leaves]
  rw [listed, List.toFinset_card_of_nodup (once.filter _), blockLeaves,
    List.countP_eq_length_filter]

/-- What `createChainBlocks` makes of the chains. -/
structure BlockStructure (un : ChainSets) (limit : Nat) (ids : List Nat) (blocks : List Block) :
    Prop where
  distinct : (blocks.map (·.blkID)).Nodup
  once : (blocks.flatMap (·.chains)).Perm ids
  first : ⟨0, [0]⟩ ∈ blocks
  tree : ∀ bl ∈ blocks, bl.blkID ≠ 0 → ∃! root, BlockTree un bl.chains root
  leaves : ∀ bl ∈ blocks, blockLeaves un bl.chains ≤ max limit 1

section final

variable {un : ChainSets} {limit : Nat} {level : Nat → Int} {ids : List Nat} {s : BlockState}

theorem blockOf_chainId {chainGraph : List ChainGraph}
    (distinct : (chainGraph.map (·.chainId)).Nodup) {m : ChainGraph} (member : m ∈ chainGraph) :
    blockOf chainGraph m.chainId = m.blockID := by
  rw [blockOf, Loops.find?_key_of_mem distinct member]
  rfl

theorem mem_filed {chainGraph : List ChainGraph} (distinct : (chainGraph.map (·.chainId)).Nodup)
    {b c : Nat} : c ∈ filed chainGraph b ↔
      c ∈ blockMembers (chainGraph.map (·.chainId)) (blockOf chainGraph) b := by
  rw [mem_blockMembers]
  simp only [filed, List.mem_map, List.mem_filter, beq_iff_eq]
  constructor
  · rintro ⟨m, ⟨member, same⟩, rfl⟩
    exact ⟨⟨m, member, rfl⟩, (blockOf_chainId distinct member).trans same⟩
  · rintro ⟨⟨m, member, rfl⟩, same⟩
    exact ⟨m, ⟨member, (blockOf_chainId distinct member).symm.trans same⟩, rfl⟩

theorem filed_nodup {chainGraph : List ChainGraph} (distinct : (chainGraph.map (·.chainId)).Nodup)
    (b : Nat) : (filed chainGraph b).Nodup :=
  distinct.sublist (List.filter_sublist.map _)

theorem filed_zero (levelled : Levelled un level ids) (distinct : ids.Nodup) (root : 0 ∈ ids)
    (blocked : Blocked un limit level ids (fun p c => Depends un p c) s) :
    filed s.chainGraph 0 = [0] := by
  have once : (s.chainGraph.map (·.chainId)).Nodup := blocked.same ▸ distinct
  rw [← List.perm_singleton, List.perm_ext_iff_of_nodup (filed_nodup once 0) (by simp)]
  intro c
  rw [mem_filed once, blocked.same, mem_blockMembers, List.mem_singleton]
  constructor
  · intro both
    by_contra other
    obtain ⟨p, depends, due⟩ := levelled.due both.1 other
    exact blocked.assigned p c depends due both.2
  · intro isZero
    rw [isZero]
    exact ⟨root, blocked.zero⟩

/-- Filing the chains of a finished traversal. -/
theorem blockStructure_of_blocked (levelled : Levelled un level ids) (distinct : ids.Nodup)
    (root : 0 ∈ ids) (blocked : Blocked un limit level ids (fun p c => Depends un p c) s) :
    BlockStructure un limit ids
      (s.chainGraph.foldl (fun blocks ch => fileChain ch blocks) []) := by
  have once : (s.chainGraph.map (·.chainId)).Nodup := blocked.same ▸ distinct
  have members : ∀ b, (filed s.chainGraph b).toFinset =
      blockMembers ids (blockOf s.chainGraph) b := by
    intro b
    ext c
    rw [List.mem_toFinset, mem_filed once, blocked.same]
  have zero := filed_zero levelled distinct root blocked
  have files := fileChains_filed s.chainGraph
  have permuted := fileChains_perm s.chainGraph []
  generalize s.chainGraph.foldl (fun blocks ch => fileChain ch blocks) [] = blocks at files permuted
  have grown : ∀ bl ∈ blocks, bl.blkID ≠ 0 →
      Grown un limit level bl.chains.toFinset s.blockPass[bl.blkID]? := by
    intro bl listed other
    rw [files.chains bl listed, members]
    refine blocked.grown bl.blkID other ?_
    obtain ⟨m, member, isBlock⟩ := (files.used bl.blkID).mp (List.mem_map_of_mem listed)
    rw [← isBlock, ← blockOf_chainId once member]
    exact blocked.bounded m.chainId
  refine ⟨files.distinct, ?_, ?_, ?_, ?_⟩
  · rw [← blocked.same]
    exact permuted
  · obtain ⟨m, member, isRoot⟩ := List.mem_map.mp (blocked.same ▸ root)
    have atZero : m.blockID = 0 := by
      rw [← blockOf_chainId once member, isRoot]
      exact blocked.zero
    obtain ⟨bl, listed, isZero⟩ := List.mem_map.mp ((files.used 0).mpr ⟨m, member, atZero⟩)
    have chains := files.chains bl listed
    rw [isZero, zero] at chains
    have isFirst : bl = ⟨0, [0]⟩ := by
      cases bl
      simp only at isZero chains
      rw [isZero, chains]
    exact isFirst ▸ listed
  · intro bl listed other
    obtain ⟨r, tree⟩ := (grown bl listed other).tree
    have isTree := BlockTree.of_isTree levelled.ranked tree
    exact ⟨r, isTree, fun r' tree' => isTree.unique tree'⟩
  · intro bl listed
    by_cases first : bl.blkID = 0
    · rw [files.chains bl listed, first, zero]
      exact List.countP_le_length.trans (Nat.le_max_right _ _)
    · obtain ⟨n, _, few, most⟩ := (grown bl listed first).width
      rw [blockLeaves_eq (files.chains bl listed ▸ filed_nodup once bl.blkID)]
      exact few.trans most

end final

/-- The block structure. For every dependency map between at least two chains,
without a loop and with every chain reached from chain 0, and for every limit:
`createChainBlocks` runs on the levels that `buildChainGraph` leaves, and its
blocks are block 0 with chain 0 alone and trees no wider than the limit. -/
theorem block_structure (orig : BoostGraph) (chains : Chains) (maps : DependencyMaps) (limit : Nat)
    (two : 2 ≤ chains.length) (small : chains.length ≤ 2 ^ 32)
    (known : ∀ s t, Depends maps.unDependencies s t → s < chains.length ∧ t < chains.length)
    (converse : ∀ s t, Depends maps.unReverseMapping t s ↔ Depends maps.unDependencies s t)
    (acyclic : Acyclic (Depends maps.unDependencies))
    (reached : ∀ c < chains.length, ReflTransGen (Depends maps.unDependencies) 0 c) :
    ∃ chainGraph final blocks, buildChainGraph orig chains maps = .ok chainGraph ∧
      createChainBlocks maps limit (buildChainLevel chainGraph) chainGraph = .ok (final, blocks) ∧
      BlockStructure maps.unDependencies limit (List.range chains.length) blocks := by
  have inRange : ∀ s t, Depends maps.unDependencies s t →
      s ∈ List.range chains.length ∧ t ∈ List.range chains.length := by
    intro s t depends
    simpa using known s t depends
  have allReached : ∀ c ∈ List.range chains.length,
      ReflTransGen (Depends maps.unDependencies) 0 c :=
    fun c member => reached c (List.mem_range.mp member)
  obtain ⟨built, returned, isLevel⟩ := buildChainGraph_total orig maps (by omega)
    (fun s t depends => (known s t depends).2) fun c _ => acyclic c
  have ids := buildChainGraph_ids returned
  have once : (built.map (·.chainId)).Nodup := ids ▸ List.nodup_range
  have levelled : Levelled maps.unDependencies (levelOf built) (List.range chains.length) := by
    refine levelled_of_isLevel inRange acyclic allReached ?_
    intro c member
    obtain ⟨m, inside, rfl⟩ := List.mem_map.mp (ids ▸ member)
    rw [← level_eq_levelOf once inside]
    exact isLevel m inside
  have below : ∀ m ∈ built, m.level < 2 ^ 32 := by
    intro m member
    have within : ∀ n c, Walk (Depends maps.unDependencies) 0 n c → c ∈ List.range chains.length := by
      intro n c walk
      cases walk with
      | nil => exact List.mem_range.mpr (by omega)
      | tail _ depends => exact (inRange _ _ depends).2
    have := (isLevel m member).lt_length (fun c _ => acyclic c) within
    rw [List.length_range] at this
    omega
  have child : ∃ c, Depends maps.unDependencies 0 c := by
    rcases (reached 1 (by omega)).cases_head with same | ⟨c, depends, _⟩
    · exact absurd same Nat.zero_ne_one
    · exact ⟨c, depends⟩
  obtain ⟨c, depends⟩ := child
  obtain ⟨rest, final, blocks, order, listed, created⟩ := buildChainGraph_blocks returned below isLevel
    (acyclic 0) (fun s t depends => (known s t depends).2) converse depends limit
  have before : ∀ s t, Depends maps.unDependencies s t →
      (0 :: rest).idxOf s < (0 :: rest).idxOf t := by
    intro s t depends
    rw [← order]
    refine levelOrder_topological once below isLevel ?_ (ids ▸ (inRange s t depends).1)
      (ids ▸ (inRange s t depends).2) depends
    intro m member
    exact allReached m.chainId (ids ▸ List.mem_map_of_mem member)
  refine ⟨built, final, blocks, returned, created, ?_⟩
  obtain ⟨s, looped, made⟩ := Loops.bind_eq_ok.mp created
  rw [order] at looped
  cases made
  exact blockStructure_of_blocked levelled List.nodup_range (List.mem_range.mpr (by omega))
    (traversal_blocked levelled converse ids (buildChainGraph_fresh returned) listed
      List.nodup_range before looped)

/-- Chains 1, 2 and 3 depend on chain 0, and chains 2 and 3 on chain 1. -/
def forkGraph : BoostGraph where
  vertices := (List.range 4).map fun v => ⟨v, ⟨.other "Add", v⟩, v, .other "Add"⟩
  edges := [(0, 1), (0, 2), (0, 3), (1, 2), (1, 3)]
  bounded := by decide

theorem block_structure_forkGraph :
    ∃ maps chainGraph final blocks,
      buildDependencies forkGraph [[0], [1], [2], [3]] = .ok maps ∧
      buildChainGraph forkGraph [[0], [1], [2], [3]] maps = .ok chainGraph ∧
      createChainBlocks maps 1 (buildChainLevel chainGraph) chainGraph = .ok (final, blocks) ∧
      BlockStructure maps.unDependencies 1 [0, 1, 2, 3] blocks := by
  have evaluated : Loops.returns
      (fun maps : DependencyMaps =>
        decide (∀ e ∈ tableEntries maps.unDependencies, e.2 < e.1 ∧ e.1 < 4) &&
          decide (∀ c ∈ ([1, 2, 3] : List Nat), Depends maps.unDependencies 0 c))
      (buildDependencies forkGraph [[0], [1], [2], [3]]) = true := by
    decide +kernel
  obtain ⟨maps, built, facts⟩ := Loops.returns_iff.mp evaluated
  rw [Bool.and_eq_true, decide_eq_true_eq, decide_eq_true_eq] at facts
  obtain ⟨entries, children⟩ := facts
  have forward : ∀ s t, Depends maps.unDependencies s t → s < t ∧ t < 4 :=
    fun s t depends => entries (t, s) (mem_tableEntries.mpr depends)
  have converse : ∀ s t, Depends maps.unReverseMapping t s ↔ Depends maps.unDependencies s t := by
    obtain ⟨_, _, made⟩ := Loops.bind_eq_ok.mp built
    cases made
    exact depends_reverseMappingSets _
  obtain ⟨chainGraph, final, blocks, returned, created, structured⟩ :=
    block_structure forkGraph [[0], [1], [2], [3]] maps 1 (by decide) (by decide)
      (fun s t depends => by have := forward s t depends; simp; omega) converse
      (Acyclic.of_lt id fun s t depends => (forward s t depends).1) (by
        intro c below
        rcases Nat.eq_zero_or_pos c with rfl | positive
        · exact .refl
        · simp only [List.length_cons, List.length_nil] at below
          exact .single (children c (by simp; omega)))
  exact ⟨maps, chainGraph, final, blocks, built, returned, created, structured⟩

end ChainSaw
