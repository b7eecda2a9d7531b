import ChainSaw.Lib.Trees
import ChainSaw.ChainLevels
import ChainSaw.DependencyCounts

set_option autoImplicit false

namespace ChainSaw

open Std (TreeMap TreeSet)
open Relation (TransGen ReflTransGen)
open Relations (Acyclic)
open Trees (IsTree leaves)

theorem mem_updateChain {id : Nat} {f : ChainGraph → ChainGraph} {chGraph : List ChainGraph}
    {m : ChainGraph} (member : m ∈ updateChain id f chGraph) :
    m ∈ chGraph ∨ ∃ old ∈ chGraph, m = f old := by
  induction chGraph with
  | nil => cases member
  | cons first rest ih =>
    unfold updateChain at member
    split at member
    · rcases List.mem_cons.mp member with rfl | later
      · exact .inr ⟨first, by simp, rfl⟩
      · exact .inl (by simp [later])
    · rcases List.mem_cons.mp member with rfl | later
      · exact .inl (by simp)
      · rcases ih later with old | ⟨old, inside, rfl⟩
        · exact .inl (by simp [old])
        · exact .inr ⟨old, by simp [inside], rfl⟩

/-- The block id of every chain has an entry in `m_block_pass`. -/
structure Registered (ids : List Nat) (s : BlockState) : Prop where
  ids : s.chainGraph.map (·.chainId) = ids
  known : ∀ m ∈ s.chainGraph, m.blockID ∈ s.blockPass

section lookups

variable {maps : DependencyMaps} {ids : List Nat}

/-- A write of a block id that has an entry. -/
theorem Registered.assign {s : BlockState} (registered : Registered ids s) {pass : TreeMap Nat Nat}
    (grown : ∀ b, b ∈ s.blockPass → b ∈ pass) {b : Nat} (entry : b ∈ pass) (i child : Nat) :
    Registered ids
      { i, blockPass := pass,
        chainGraph := updateChain child (fun m => { m with blockID := b }) s.chainGraph } where
  ids := by
    rw [map_updateChain (·.chainId) (by intro m; rfl)]
    exact registered.ids
  known := by
    intro m member
    rcases mem_updateChain member with old | ⟨old, _, rfl⟩
    · exact grown _ (registered.known m old)
    · exact entry

theorem Registered.openBlock {s : BlockState} (registered : Registered ids s) (child : Nat) :
    Registered ids (openBlock s child) := by
  refine registered.assign ?_ ?_ (s.i + 1) child
  · intro b entry
    simp [entry]
  · simp

variable (known : ∀ s t, Depends maps.unDependencies s t → t ∈ ids)
  (converse : ∀ s t, Depends maps.unReverseMapping t s ↔ Depends maps.unDependencies s t)
include known converse

theorem childBlock_total {s : BlockState × Nat} (registered : Registered ids s.1) (blockLimit : Nat)
    {chId child : Nat} (isChain : chId ∈ ids) (depends : Depends maps.unDependencies chId child) :
    ∃ next, childBlock maps blockLimit chId s child = .ok next ∧ Registered ids next.1 := by
  obtain ⟨parents, foundParents, _⟩ := ((converse chId child).mpr depends).exists_set
  obtain ⟨ch, foundCh, _⟩ := findChain_total (registered.ids ▸ isChain)
  obtain ⟨m, foundChild, _⟩ := findChain_total (registered.ids ▸ known chId child depends)
  have entry : ch.blockID ∈ s.1.blockPass :=
    registered.known ch (List.mem_of_find?_eq_some (deref_eq_ok.mp foundCh))
  obtain ⟨pass, foundPass⟩ := Option.isSome_iff_exists.mp (TreeMap.isSome_getElem?_iff_mem.mpr entry)
  have opened : Registered ids (if m.blockID = 0 then openBlock s.1 child else s.1) := by
    split
    · exact registered.openBlock child
    · exact registered
  unfold childBlock
  rw [foundParents, foundCh, foundChild]
  simp only [deref, Loops.ok_bind, Loops.pure_eq_ok, foundPass]
  split
  · exact ⟨_, rfl, registered.assign (fun _ entry => entry) entry s.1.i child⟩
  · split
    · split
      · refine ⟨_, rfl, registered.assign ?_ (by simp) s.1.i child⟩
        intro b entry
        simp [entry]
      · exact ⟨_, rfl, opened⟩
    · exact ⟨_, rfl, opened⟩

theorem chainBlocks_total {s : BlockState} (registered : Registered ids s) (blockLimit : Nat)
    {chId : Nat} (isChain : chId ∈ ids) (other : chId ≠ 0) :
    ∃ next, chainBlocks maps blockLimit s chId = .ok next ∧ Registered ids next := by
  obtain ⟨ch, foundCh, _⟩ := findChain_total (registered.ids ▸ isChain)
  unfold chainBlocks
  rw [if_neg other, foundCh, Loops.ok_bind]
  cases found : maps.unDependencies[chId]? with
  | none => exact ⟨s, rfl, registered⟩
  | some children =>
    have loop := Loops.foldlM_total (f := childBlock maps blockLimit chId)
      (fun s : BlockState × Nat => Registered ids s.1) children.toList (b := (s, 1)) ?_ registered
    · obtain ⟨⟨next, cntChild⟩, looped, registered⟩ := loop
      refine ⟨next, ?_, registered⟩
      dsimp only
      rw [looped]
      rfl
    · intro s registered child listed
      refine childBlock_total known converse registered blockLimit isChain ?_
      simpa [Depends, found] using listed

omit converse in
theorem rootBlocks_total {s : BlockState} (same : s.chainGraph.map (·.chainId) = ids)
    (fresh : ∀ m ∈ s.chainGraph, m.blockID = s.i) (isChain : 0 ∈ ids) {children : TreeSet Nat compare}
    (found : maps.unDependencies[0]? = some children) :
    ∃ next, rootBlocks maps s = .ok next ∧ Registered ids next := by
  obtain ⟨ch, foundCh, _⟩ := findChain_total (same ▸ isChain)
  unfold rootBlocks
  rw [foundCh, found]
  simp only [deref, Loops.ok_bind, Loops.pure_eq_ok]
  refine Loops.foldlM_total (Registered ids) children.toList ?_ ?_
  · intro s registered child listed
    have depends : Depends maps.unDependencies 0 child := by
      simpa [Depends, found] using listed
    obtain ⟨m, foundChild, _⟩ := findChain_total (registered.ids ▸ known 0 child depends)
    rw [foundChild, Loops.ok_bind]
    refine ⟨_, rfl, ?_⟩
    split
    · exact registered.openBlock child
    · exact registered
  · refine ⟨?_, ?_⟩
    · rw [map_updateChain (·.chainId) (by intro m; rfl)]
      exact same
    · intro m member
      rcases mem_updateChain member with old | ⟨old, _, rfl⟩
      · simp [fresh m old]
      · simp

omit converse known in
/-- No chain has a block before the traversal. -/
theorem buildChainGraph_fresh {orig : BoostGraph} {chains : Chains} {chainGraph : List ChainGraph}
    (returned : buildChainGraph orig chains maps = .ok chainGraph) :
    ∀ m ∈ chainGraph, m.blockID = 0 := by
  intro m member
  have listed : m.blockID ∈ chainGraph.map (·.blockID) := List.mem_map_of_mem member
  have zeros : (chains.zipIdx.map fun e => chainGraphEntry orig maps e.1 e.2).map (·.blockID) =
      (List.range chains.length).map fun _ => 0 :=
    chainGraphEntry_map (by intro ch i; rfl) chains
  rw [buildChainGraph_map (by intro m l; rfl) returned, zeros] at listed
  obtain ⟨_, _, isZero⟩ := List.mem_map.mp listed
  exact isZero.symm

/-- `createChainBlocks` finds all it looks up, if chain 0 comes first in the level
order and has dependents. -/
theorem createChainBlocks_total {chainLevel : ChainLists} {chainGraph : List ChainGraph}
    (same : chainGraph.map (·.chainId) = ids) (fresh : ∀ m ∈ chainGraph, m.blockID = 0)
    {rest : List Nat} (first : chainLevel.toList.flatMap (·.2) = 0 :: rest)
    (listed : (0 :: rest).Perm ids) (distinct : ids.Nodup) {children : TreeSet Nat compare}
    (found : maps.unDependencies[0]? = some children) (blockLimit : Nat) :
    ∃ result, createChainBlocks maps blockLimit chainLevel chainGraph = .ok result := by
  have isChain : 0 ∈ ids := listed.mem_iff.mp (by simp)
  obtain ⟨opened, rooted, registered⟩ := rootBlocks_total known same
    (s := { i := 0, blockPass := ∅, chainGraph }) fresh isChain found
  have others : ∀ chId ∈ rest, chId ≠ 0 := by
    intro chId member zero
    have once := listed.nodup_iff.mpr distinct
    exact (List.nodup_cons.mp once).1 (zero ▸ member)
  obtain ⟨final, looped, _⟩ := Loops.foldlM_total (f := chainBlocks maps blockLimit) (Registered ids)
    rest (fun s registered chId member => chainBlocks_total known converse registered blockLimit
      (listed.mem_iff.mp (by simp [member])) (others chId member)) registered
  unfold createChainBlocks
  have turn : chainBlocks maps blockLimit { i := 0, blockPass := ∅, chainGraph } 0 = .ok opened := by
    unfold chainBlocks
    rw [if_pos rfl, rooted]
  rw [first, Loops.foldlM_cons_ok.mpr ⟨opened, turn, looped⟩]
  exact ⟨_, rfl⟩

end lookups

/-- The block id that `chain_graph` has for a chain. -/
def blockOf (chGraph : List ChainGraph) (id : Nat) : Nat :=
  ((chGraph.find? (fun m => m.chainId == id)).map (·.blockID)).getD 0

theorem findChain_blockOf {chGraph : List ChainGraph} {id : Nat} {m : ChainGraph}
    (found : findChain chGraph id = .ok m) : m.blockID = blockOf chGraph id := by
  unfold blockOf
  rw [deref_eq_ok.mp found]
  rfl

theorem blockOf_updateChain {chGraph : List ChainGraph} {id : Nat}
    (known : id ∈ chGraph.map (·.chainId)) (b : Nat) :
    blockOf (updateChain id (fun m => { m with blockID := b }) chGraph) =
      Function.update (blockOf chGraph) id b := by
  funext v
  obtain ⟨m, found, _⟩ := findChain_total known
  unfold blockOf
  rw [find?_updateChain (by intro m; rfl), deref_eq_ok.mp found]
  by_cases same : v = id
  · subst same
    simp
  · simp [same]

/-- `p` is the only predecessor of `c` beside chain 0. -/
def OnlyParent (un : ChainSets) (p c : Nat) : Prop :=
  p ≠ 0 ∧ ∀ q, Depends un q c ↔ q = 0 ∨ q = p

theorem OnlyParent.depends {un : ChainSets} {p c : Nat} (only : OnlyParent un p c) :
    Depends un p c := (only.2 p).mpr (.inr rfl)

theorem OnlyParent.eq {un : ChainSets} {p q c : Nat} (only : OnlyParent un p c) (other : q ≠ 0)
    (depends : Depends un q c) : q = p := ((only.2 q).mp depends).resolve_left other

theorem nodup_toList (set : TreeSet Nat) : set.toList.Nodup := by
  refine set.distinct_toList.imp ?_
  intro a b apart same
  exact apart (by simp [same])

/-- The test for a single parent, as the traversal makes it at the turn of `ch`. -/
theorem singleParent_iff {maps : DependencyMaps}
    (converse : ∀ s t, Depends maps.unReverseMapping t s ↔ Depends maps.unDependencies s t)
    {ch child : Nat} {parents : TreeSet Nat compare}
    (found : maps.unReverseMapping[child]? = some parents) (other : ch ≠ 0)
    (depends : Depends maps.unDependencies ch child) :
    (parents.size == 2 && parents.contains 0) = true ↔ OnlyParent maps.unDependencies ch child := by
  have listed : ∀ q, q ∈ parents.toList ↔ Depends maps.unDependencies q child := by
    intro q
    rw [← converse, TreeSet.mem_toList]
    simp [Depends, found]
  have once := nodup_toList parents
  have isChild := (listed ch).mpr depends
  rw [Bool.and_eq_true, beq_iff_eq, TreeSet.contains_iff_mem, ← TreeSet.mem_toList,
    ← TreeSet.length_toList]
  constructor
  · intro both
    obtain ⟨length, zero⟩ := both
    refine ⟨other, fun q => ?_⟩
    rw [← listed]
    obtain ⟨a, b, pair⟩ := List.length_eq_two.mp length
    rw [pair] at zero isChild ⊢
    simp only [List.mem_cons, List.not_mem_nil, or_false] at zero isChild ⊢
    omega
  · intro only
    have pair : parents.toList.Perm [0, ch] := by
      refine (List.perm_ext_iff_of_nodup once (by simp [other.symm])).mpr ?_
      intro q
      rw [listed, only.2]
      simp
    exact ⟨pair.length_eq, pair.mem_iff.mpr (by simp)⟩

/-- The chains with block id `b`. -/
def blockMembers (ids : List Nat) (block : Nat → Nat) (b : Nat) : Finset Nat :=
  ids.toFinset.filter fun c => block c = b

theorem mem_blockMembers {ids : List Nat} {block : Nat → Nat} {b c : Nat} :
    c ∈ blockMembers ids block b ↔ c ∈ ids ∧ block c = b := by
  simp [blockMembers]

theorem blockMembers_update_self {ids : List Nat} {c : Nat} (isChain : c ∈ ids)
    (block : Nat → Nat) (b : Nat) :
    blockMembers ids (Function.update block c b) b = insert c (blockMembers ids block b) := by
  ext d
  rw [mem_blockMembers, Finset.mem_insert, mem_blockMembers]
  by_cases same : d = c
  · simp [same, isChain]
  · simp [same]

theorem blockMembers_update_of_ne {ids : List Nat} {block : Nat → Nat} {b c : Nat} {b' : Nat}
    (before : block c ≠ b') (after : b ≠ b') :
    blockMembers ids (Function.update block c b) b' = blockMembers ids block b' := by
  ext d
  rw [mem_blockMembers, mem_blockMembers]
  by_cases same : d = c
  · simp [same, before, after]
  · simp [same]

/-- What the levels and the dependencies between reached chains look like. -/
structure Levelled (un : ChainSets) (level : Nat → Int) (ids : List Nat) : Prop where
  known : ∀ s t, Depends un s t → s ∈ ids ∧ t ∈ ids
  ranked : ∀ s t, Depends un s t → level s < level t
  positive : ∀ c ∈ ids, c ≠ 0 → 1 ≤ level c
  top : ∀ p, ¬ Depends un p 0
  /-- A chain that depends on no chain but 0 is on level 1. -/
  lone : ∀ c ∈ ids, c ≠ 0 → (∀ p, Depends un p c → p = 0) → Depends un 0 c ∧ level c = 1

/-- The chains of one block form a tree, no wider than its bypass counter says. -/
structure Grown (un : ChainSets) (limit : Nat) (level : Nat → Int) (members : Finset Nat)
    (pass : Option Nat) : Prop where
  tree : ∃ root, IsTree (OnlyParent un) level members root
  width : ∃ n, pass = some n ∧ (leaves (Depends un) members).card ≤ n ∧ n ≤ max limit 1

/-- The invariant of the traversal: `handled p c` says that parent `p` has been at
its child `c`. -/
structure Blocked (un : ChainSets) (limit : Nat) (level : Nat → Int) (ids : List Nat)
    (handled : Nat → Nat → Prop) (s : BlockState) : Prop where
  same : s.chainGraph.map (·.chainId) = ids
  zero : blockOf s.chainGraph 0 = 0
  bounded : ∀ c, blockOf s.chainGraph c ≤ s.i
  grown : ∀ b, b ≠ 0 → b ≤ s.i →
    Grown un limit level (blockMembers ids (blockOf s.chainGraph) b) s.blockPass[b]?
  origin : ∀ c, blockOf s.chainGraph c ≠ 0 → level c = 1 ∨ ∃ p, p ≠ 0 ∧ handled p c
  assigned : ∀ p c, handled p c → p ≠ 0 ∨ level c = 1 → blockOf s.chainGraph c ≠ 0

section traversal

variable {un : ChainSets} {limit : Nat} {level : Nat → Int} {ids : List Nat}
  {handled : Nat → Nat → Prop} {s : BlockState}

/-- A turn that leaves the child where it is. -/
theorem Blocked.keep (blocked : Blocked un limit level ids handled s) {p c : Nat}
    (has : p ≠ 0 ∨ level c = 1 → blockOf s.chainGraph c ≠ 0) :
    Blocked un limit level ids (fun q d => handled q d ∨ q = p ∧ d = c) s where
  same := blocked.same
  zero := blocked.zero
  bounded := blocked.bounded
  grown := blocked.grown
  origin := by
    intro d inBlock
    rcases blocked.origin d inBlock with low | ⟨q, other, before⟩
    · exact .inl low
    · exact .inr ⟨q, other, .inl before⟩
  assigned := by
    intro q d turn due
    rcases turn with before | ⟨rfl, rfl⟩
    · exact blocked.assigned q d before due
    · exact has due

/-- A turn that gives a new block id to a chain without one. -/
theorem Blocked.assign (blocked : Blocked un limit level ids handled s) {p c b i : Nat}
    {pass : TreeMap Nat Nat} (isChain : c ∈ ids) (other : c ≠ 0)
    (due : p ≠ 0 ∨ level c = 1) (new : b ≠ 0) (within : b ≤ i) (more : s.i ≤ i)
    (grown : ∀ b', b' ≠ 0 → b' ≤ i →
      Grown un limit level (blockMembers ids (Function.update (blockOf s.chainGraph) c b) b')
        pass[b']?) :
    Blocked un limit level ids (fun q d => handled q d ∨ q = p ∧ d = c)
      { i, blockPass := pass,
        chainGraph := updateChain c (fun m => { m with blockID := b }) s.chainGraph } := by
  have written := blockOf_updateChain (blocked.same ▸ isChain) b
  constructor
  · rw [map_updateChain (·.chainId) (by intro m; rfl)]
    exact blocked.same
  · rw [written, Function.update_of_ne other.symm]
    exact blocked.zero
  · intro d
    rw [written]
    by_cases same : d = c
    · rw [same, Function.update_self]
      exact within
    · rw [Function.update_of_ne same]
      exact (blocked.bounded d).trans more
  · intro b' nonzero below
    rw [written]
    exact grown b' nonzero below
  · intro d inBlock
    rw [written] at inBlock
    by_cases same : d = c
    · rcases due with parent | low
      · exact .inr ⟨p, parent, .inr ⟨rfl, same⟩⟩
      · exact .inl (same ▸ low)
    · rw [Function.update_of_ne same] at inBlock
      rcases blocked.origin d inBlock with low | ⟨q, parent, before⟩
      · exact .inl low
      · exact .inr ⟨q, parent, .inl before⟩
  · intro q d turn dueD
    rw [written]
    by_cases same : d = c
    · rw [same, Function.update_self]
      exact new
    · rw [Function.update_of_ne same]
      rcases turn with before | ⟨_, isC⟩
      · exact blocked.assigned q d before dueD
      · exact absurd isC same

/-- A turn that opens a block for the child. -/
theorem Blocked.openBlock (blocked : Blocked un limit level ids handled s) {p c : Nat}
    (isChain : c ∈ ids) (without : blockOf s.chainGraph c = 0) (other : c ≠ 0)
    (due : p ≠ 0 ∨ level c = 1) :
    Blocked un limit level ids (fun q d => handled q d ∨ q = p ∧ d = c) (openBlock s c) := by
  refine blocked.assign isChain other due (by omega) (Nat.le_refl _) (Nat.le_succ _) ?_
  intro b nonzero below
  by_cases isNew : b = s.i + 1
  · have empty : blockMembers ids (blockOf s.chainGraph) b = ∅ := by
      apply Finset.eq_empty_of_forall_notMem
      intro d member
      have := blocked.bounded d
      have := (mem_blockMembers.mp member).2
      omega
    have single : blockMembers ids (Function.update (blockOf s.chainGraph) c (s.i + 1)) b = {c} := by
      rw [isNew, blockMembers_update_self isChain, ← isNew, empty]
      rfl
    rw [single]
    refine ⟨⟨c, IsTree.singleton c⟩, 1, by simp [isNew], ?_, Nat.le_max_right _ _⟩
    exact Finset.card_le_card (Finset.filter_subset _ {c})
  · rw [blockMembers_update_of_ne (by omega) (fun same => isNew same.symm)]
    have kept : (s.blockPass.insert (s.i + 1) 1)[b]? = s.blockPass[b]? := by
      rw [TreeMap.getElem?_insert]
      simp [Ne.symm isNew]
    rw [kept]
    exact blocked.grown b nonzero (by omega)

/-- The counter after a chain has joined the block of `p`: it stands still when
`p` had no child in the block, and otherwise counts a chain that the limit allows. -/
def Counted (un : ChainSets) (limit : Nat) (ids : List Nat) (s : BlockState) (p : Nat)
    (pass : TreeMap Nat Nat) : Prop :=
  (pass = s.blockPass ∧
      p ∈ leaves (Depends un) (blockMembers ids (blockOf s.chainGraph) (blockOf s.chainGraph p))) ∨
    ∃ n, s.blockPass[blockOf s.chainGraph p]? = some n ∧ n + 1 ≤ limit ∧
      pass = s.blockPass.insert (blockOf s.chainGraph p) (n + 1)

theorem Grown.insert {members : Finset Nat} {pass : Option Nat}
    (grown : Grown un limit level members pass) {p c : Nat} (inside : p ∈ members)
    (only : OnlyParent un p c) (higher : level p < level c) {pass' : Option Nat}
    (counted : pass' = pass ∧ p ∈ leaves (Depends un) members ∨
      ∃ n, pass = some n ∧ n + 1 ≤ limit ∧ pass' = some (n + 1)) :
    Grown un limit level (insert c members) pass' := by
  obtain ⟨root, tree⟩ := grown.tree
  obtain ⟨n, isPass, enough, most⟩ := grown.width
  refine ⟨⟨root, tree.insert inside only higher⟩, ?_⟩
  rcases counted with ⟨rfl, leaf⟩ | ⟨n', isN, allowed, rfl⟩
  · exact ⟨n, isPass, (Trees.card_leaves_insert_below leaf only.depends).trans enough, most⟩
  · rw [isPass] at isN
    cases isN
    have : (leaves (Depends un) (Insert.insert c members)).card ≤
        (leaves (Depends un) members).card + 1 :=
      Trees.card_leaves_insert c
    exact ⟨n + 1, rfl, by omega, by omega⟩

/-- A turn in which the child joins the block of its parent. -/
theorem Blocked.join (blocked : Blocked un limit level ids handled s)
    (levelled : Levelled un level ids) {p c : Nat} (without : blockOf s.chainGraph c = 0)
    (only : OnlyParent un p c) (inBlock : blockOf s.chainGraph p ≠ 0) {pass : TreeMap Nat Nat}
    (counted : Counted un limit ids s p pass) :
    Blocked un limit level ids (fun q d => handled q d ∨ q = p ∧ d = c)
      { i := s.i, blockPass := pass,
        chainGraph := updateChain c (fun m => { m with blockID := blockOf s.chainGraph p })
          s.chainGraph } := by
  have isParent := levelled.known p c only.depends
  have other : c ≠ 0 := fun zero => levelled.top p (zero ▸ only.depends)
  refine blocked.assign isParent.2 other (.inl only.1) inBlock (blocked.bounded p) (Nat.le_refl _) ?_
  intro b nonzero below
  by_cases same : b = blockOf s.chainGraph p
  · subst same
    rw [blockMembers_update_self isParent.2]
    refine (blocked.grown _ nonzero below).insert (mem_blockMembers.mpr ⟨isParent.1, rfl⟩) only
      (levelled.ranked p c only.depends) ?_
    rcases counted with ⟨rfl, leaf⟩ | ⟨n, found, allowed, rfl⟩
    · exact .inl ⟨rfl, leaf⟩
    · exact .inr ⟨n, found, allowed, by simp⟩
  · rw [blockMembers_update_of_ne (by omega) (fun isB => same isB.symm)]
    have kept : pass[b]? = s.blockPass[b]? := by
      rcases counted with ⟨rfl, _⟩ | ⟨n, _, _, rfl⟩
      · rfl
      · rw [TreeMap.getElem?_insert]
        simp [Ne.symm same]
    rw [kept]
    exact blocked.grown b nonzero below

end traversal

/-- What `childBlock` has done when it returns. -/
theorem childBlock_cases {maps : DependencyMaps} {limit : Nat} {ch child : Nat}
    {s next : BlockState × Nat}
    (converse : ∀ s t, Depends maps.unReverseMapping t s ↔ Depends maps.unDependencies s t)
    (other : ch ≠ 0) (depends : Depends maps.unDependencies ch child)
    (returned : childBlock maps limit ch s child = .ok next) :
    (OnlyParent maps.unDependencies ch child ∧ next.2 = s.2 + 1 ∧ ∃ pass,
      next.1 = { i := s.1.i, blockPass := pass,
                 chainGraph := updateChain child
                   (fun m => { m with blockID := blockOf s.1.chainGraph ch }) s.1.chainGraph } ∧
      (s.2 = 1 ∧ pass = s.1.blockPass ∨ ∃ n, s.1.blockPass[blockOf s.1.chainGraph ch]? = some n ∧
        n + 1 ≤ limit ∧ pass = s.1.blockPass.insert (blockOf s.1.chainGraph ch) (n + 1))) ∨
    ((OnlyParent maps.unDependencies ch child → s.2 ≠ 1) ∧ next.2 = s.2 ∧
      next.1 = if blockOf s.1.chainGraph child = 0 then openBlock s.1 child else s.1) := by
  obtain ⟨parents, foundParents, returned⟩ := Loops.bind_eq_ok.mp returned
  obtain ⟨m, foundCh, returned⟩ := Loops.bind_eq_ok.mp returned
  obtain ⟨m', foundChild, returned⟩ := Loops.bind_eq_ok.mp returned
  have single := singleParent_iff converse (deref_eq_ok.mp foundParents) other depends
  rw [findChain_blockOf foundCh, findChain_blockOf foundChild] at returned
  generalize (parents.size == 2 && parents.contains 0) = isSingleParent at single returned
  split at returned
  · rename_i first
    cases returned
    simp only [Bool.and_eq_true, beq_iff_eq] at first
    exact .inl ⟨single.mp first.1, rfl, s.1.blockPass, rfl, .inl ⟨first.2, rfl⟩⟩
  · rename_i notFirst
    have notOne : OnlyParent maps.unDependencies ch child → s.2 ≠ 1 := by
      intro only one
      exact notFirst (by simp [single.mpr only, one])
    split at returned
    · rename_i later
      simp only [Bool.and_eq_true] at later
      obtain ⟨n, foundPass, returned⟩ := Loops.bind_eq_ok.mp returned
      split at returned
      · rename_i allowed
        cases returned
        exact .inl ⟨single.mp later.1, rfl, _, rfl, .inr ⟨n, deref_eq_ok.mp foundPass, allowed, rfl⟩⟩
      · cases returned
        exact .inr ⟨notOne, rfl, rfl⟩
    · cases returned
      exact .inr ⟨notOne, rfl, rfl⟩

theorem Blocked.congr {un : ChainSets} {limit : Nat} {level : Nat → Int} {ids : List Nat}
    {handled handled' : Nat → Nat → Prop} {s : BlockState}
    (blocked : Blocked un limit level ids handled s) (same : ∀ p c, handled p c ↔ handled' p c) :
    Blocked un limit level ids handled' s := by
  have equal : handled = handled' := by
    funext p c
    exact propext (same p c)
  exact equal ▸ blocked

section turn

variable {maps : DependencyMaps} {limit : Nat} {level : Nat → Int} {ids : List Nat}
  {handled : Nat → Nat → Prop} {ch : Nat}
  (levelled : Levelled maps.unDependencies level ids)
  (converse : ∀ s t, Depends maps.unReverseMapping t s ↔ Depends maps.unDependencies s t)
  (sound : ∀ p c, handled p c → Depends maps.unDependencies p c)
  (fresh : ∀ c, ¬ handled ch c) (other : ch ≠ 0)
include levelled sound fresh other

/-- At the turn of `ch`, a chain that hangs below `ch` alone got its block in this turn. -/
theorem Blocked.seen_of_onlyParent {cs : List Nat} {s : BlockState}
    (blocked : Blocked maps.unDependencies limit level ids
      (fun p c => handled p c ∨ p = ch ∧ c ∈ cs) s)
    {c : Nat} (only : OnlyParent maps.unDependencies ch c) (inBlock : blockOf s.chainGraph c ≠ 0) :
    c ∈ cs := by
  have higher := levelled.ranked ch c only.depends
  have positive := levelled.positive ch (levelled.known ch c only.depends).1 other
  rcases blocked.origin c inBlock with low | ⟨p, parent, before | now⟩
  · omega
  · have isCh := only.eq parent (sound p c before)
    exact absurd (isCh ▸ before) (fresh c)
  · exact now.2

/-- Before its first child joins, `ch` is a leaf of its block. -/
theorem Blocked.leaf {cs : List Nat} {s : BlockState}
    (blocked : Blocked maps.unDependencies limit level ids
      (fun p c => handled p c ∨ p = ch ∧ c ∈ cs) s)
    (isChain : ch ∈ ids) (inBlock : blockOf s.chainGraph ch ≠ 0)
    (none : ∀ c ∈ cs, ¬ OnlyParent maps.unDependencies ch c) :
    ch ∈ leaves (Depends maps.unDependencies)
      (blockMembers ids (blockOf s.chainGraph) (blockOf s.chainGraph ch)) := by
  refine Trees.mem_leaves.mpr ⟨mem_blockMembers.mpr ⟨isChain, rfl⟩, ?_⟩
  intro d member depends
  obtain ⟨root, tree⟩ := (blocked.grown _ inBlock (blocked.bounded ch)).tree
  by_cases isRoot : d = root
  · have higher := levelled.ranked ch d depends
    have least := tree.least ch (mem_blockMembers.mpr ⟨isChain, rfl⟩)
    rw [isRoot] at higher
    omega
  · obtain ⟨p, _, only⟩ := tree.parent d member isRoot
    have isCh := only.eq other depends
    subst isCh
    have sameBlock := (mem_blockMembers.mp member).2
    have seen := blocked.seen_of_onlyParent levelled sound fresh other only (sameBlock ▸ inBlock)
    exact none d seen only

include converse

/-- One child of `ch`. -/
theorem childBlock_blocked {cs : List Nat} {s next : BlockState × Nat} {child : Nat}
    (blocked : Blocked maps.unDependencies limit level ids
      (fun p c => handled p c ∨ p = ch ∧ c ∈ cs) s.1)
    (counting : 1 ≤ s.2) (none : s.2 = 1 → ∀ c ∈ cs, ¬ OnlyParent maps.unDependencies ch c)
    (inBlock : blockOf s.1.chainGraph ch ≠ 0) (depends : Depends maps.unDependencies ch child)
    (unseen : child ∉ cs) (returned : childBlock maps limit ch s child = .ok next) :
    Blocked maps.unDependencies limit level ids
        (fun p c => handled p c ∨ p = ch ∧ c ∈ cs ++ [child]) next.1 ∧
      1 ≤ next.2 ∧
      (next.2 = 1 → ∀ c ∈ cs ++ [child], ¬ OnlyParent maps.unDependencies ch c) := by
  have isChain := (levelled.known ch child depends).1
  have extended : ∀ p c, ((handled p c ∨ p = ch ∧ c ∈ cs) ∨ p = ch ∧ c = child) ↔
      (handled p c ∨ p = ch ∧ c ∈ cs ++ [child]) := by
    intro p c
    simp only [List.mem_append, List.mem_singleton]
    tauto
  rcases childBlock_cases converse other depends returned with
    ⟨only, counted, pass, isNext, choice⟩ | ⟨notFirst, counted, isNext⟩
  · have without : blockOf s.1.chainGraph child = 0 := by
      by_contra placed
      exact unseen (blocked.seen_of_onlyParent levelled sound fresh other only placed)
    rw [isNext, counted]
    refine ⟨(blocked.join levelled without only inBlock ?_).congr extended, by omega, by omega⟩
    rcases choice with ⟨one, isPass⟩ | more
    · exact .inl ⟨isPass, blocked.leaf levelled sound fresh other isChain inBlock (none one)⟩
    · exact .inr more
  · rw [isNext, counted]
    refine ⟨?_, counting, ?_⟩
    · have notZero : child ≠ 0 := fun zero => levelled.top ch (zero ▸ depends)
      split
      · rename_i without
        exact (blocked.openBlock (levelled.known ch child depends).2 without notZero
          (.inl other)).congr extended
      · rename_i placed
        exact (blocked.keep fun _ => placed).congr extended
    · intro one c member only
      rcases List.mem_append.mp member with old | new
      · exact none one c old only
      · rw [List.mem_singleton.mp new] at only
        exact notFirst only one

/-- The turn of a chain other than 0. -/
theorem chainBlocks_blocked {s next : BlockState}
    (blocked : Blocked maps.unDependencies limit level ids handled s)
    (own : ∃ p, handled p ch ∧ (p ≠ 0 ∨ level ch = 1))
    (returned : chainBlocks maps limit s ch = .ok next) :
    Blocked maps.unDependencies limit level ids
      (fun p c => handled p c ∨ p = ch ∧ Depends maps.unDependencies ch c) next := by
  unfold chainBlocks at returned
  rw [if_neg other] at returned
  obtain ⟨_, _, returned⟩ := Loops.bind_eq_ok.mp returned
  split at returned
  · rename_i absent
    cases returned
    refine blocked.congr fun p c => ?_
    have none : ¬ Depends maps.unDependencies ch c := by simp [Depends, absent]
    simp [none]
  · rename_i children found
    obtain ⟨⟨last, cntChild⟩, looped, returned⟩ := Loops.bind_eq_ok.mp returned
    cases returned
    have listed : ∀ c, c ∈ children.toList ↔ Depends maps.unDependencies ch c := by
      intro c
      simp [Depends, found]
    have start : Blocked maps.unDependencies limit level ids
        (fun p c => handled p c ∨ p = ch ∧ c ∈ ([] : List Nat)) s := by
      refine blocked.congr fun p c => ?_
      simp
    have final := Loops.foldlM_ok_visited (fun (cs : List Nat) (s : BlockState × Nat) =>
        Blocked maps.unDependencies limit level ids
            (fun p c => handled p c ∨ p = ch ∧ c ∈ cs) s.1 ∧
          1 ≤ s.2 ∧ (s.2 = 1 → ∀ c ∈ cs, ¬ OnlyParent maps.unDependencies ch c))
      children.toList ?_ ⟨start, Nat.le_refl 1, by simp⟩ looped
    · refine final.1.congr fun p c => ?_
      rw [listed]
    · intro cs child rest s next split holds stepped
      obtain ⟨blocked, counting, none⟩ := holds
      have once := nodup_toList children
      rw [split] at once
      have unseen : child ∉ cs := by
        intro seen
        exact (List.nodup_append.mp once).2.2 child seen child (by simp) rfl
      obtain ⟨p, before, due⟩ := own
      have inBlock := blocked.assigned p ch (.inl before) due
      have depends := (listed child).mp (by simp [split])
      exact childBlock_blocked levelled converse sound fresh other blocked counting none inBlock
        depends unseen stepped

end turn

end ChainSaw
