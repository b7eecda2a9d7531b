import ChainSaw.Dilworth
import ChainSaw.Reading
import ChainSaw.Dependencies
import ChainSaw.Lib.Matchings

set_option autoImplicit false

namespace ChainSaw

open Std (TreeSet)
open Relations (Acyclic)
open PathCovers (Linked Walk Sweep HeadsFirst)
open Matchings (IsMatching IsMaximum Doubled successor)

/-- The mate that the map holds for a vertex. -/
def mates (mateMap : MateMap) (v : Nat) : Option Nat := mateMap[v]?.join

/-- An undirected edge between the two vertices. -/
def AdjacencyList.Joined {P : Type} (g : AdjacencyList P) (u v : Nat) : Prop :=
  g.Edge u v ∨ g.Edge v u

/-- The matching succeeds on the graph and writes the mates of a maximum matching. -/
structure ReturnsMaximum (matching : UndirectedGraph → Bool × MateMap) (UG : UndirectedGraph) :
    Prop where
  success : (matching UG).1 = true
  length : (matching UG).2.length = UG.numVertices
  maximum : IsMaximum UG.numVertices UG.Joined (mates (matching UG).2)

section Doubling

variable {P : Type} (G : AdjacencyList P)

theorem doubledGraph_parts :
    (doubledGraph G).numVertices = 2 * G.numVertices ∧
      (doubledGraph G).edges = G.edges.map fun e => (e.1, G.numVertices + e.2) := by
  let base : UndirectedGraph := AdjacencyList.ofVertices (List.replicate (2 * G.numVertices) ())
  have size : base.vertices.length = 2 * G.numVertices := List.length_replicate
  have inside : ∀ e ∈ G.edges.map fun e => (e.1, G.numVertices + e.2),
      e.1 < base.vertices.length ∧ e.2 < base.vertices.length := by
    intro e member
    obtain ⟨e, listed, rfl⟩ := List.mem_map.mp member
    have bounds : e.1 < G.numVertices ∧ e.2 < G.numVertices := G.bounded e listed
    rw [size]
    dsimp only
    omega
  have added := AdjacencyList.foldl_addEdge _ base inside
  rw [List.foldl_map] at added
  exact ⟨(congrArg List.length added.1).trans size, added.2.trans (List.nil_append _)⟩

/-- An edge of the doubled graph joins the left copy of a source to the right
copy of its target. -/
theorem doubledGraph_joined :
    (doubledGraph G).Joined = Doubled G.numVertices G.Edge := by
  have edge : ∀ u v, (doubledGraph G).Edge u v ↔ ∃ t, v = G.numVertices + t ∧ G.Edge u t := by
    intro u v
    rw [AdjacencyList.edge_iff, (doubledGraph_parts G).2]
    simp only [AdjacencyList.edge_iff, List.mem_map, Prod.exists, Prod.mk.injEq]
    constructor
    · rintro ⟨u, t, member, rfl, rfl⟩
      exact ⟨t, rfl, member⟩
    · rintro ⟨t, rfl, member⟩
      exact ⟨u, t, member, rfl, rfl⟩
  funext u v
  exact propext (or_congr (edge u v) (edge v u))

end Doubling

/-- The mates of the vertices that have their place are cleared, those of the
others are as the matching left them. -/
structure Cleared (n : Nat) (first mateMap : MateMap) (inChains : TreeSet Nat) : Prop where
  length : mateMap.length = first.length
  kept : ∀ v < n, mateMap[v]? = if v ∈ inChains then some none else first[v]?

theorem Cleared.set {n : Nat} {first mateMap : MateMap} {inChains after : TreeSet Nat}
    (cleared : Cleared n first mateMap inChains) {v : Nat} (inside : v < first.length)
    (placed : ∀ u, u ∈ after ↔ u ∈ inChains ∨ u = v) :
    Cleared n first (mateMap.set v none) after where
  length := (List.length_set ..).trans cleared.length
  kept := by
    intro u below
    rw [List.getElem?_set]
    by_cases same : v = u
    · subst same
      rw [if_pos rfl, if_pos (cleared.length ▸ inside), if_pos ((placed v).mpr (.inr rfl))]
    · rw [if_neg same, cleared.kept u below]
      have unchanged : u ∈ after ↔ u ∈ inChains := by
        rw [placed]
        exact or_iff_left (Ne.symm same)
      simp only [unchanged]

/-- What the loops read: nothing where the vertex has its place, else the mate
that the matching found. -/
theorem Cleared.entry {n : Nat} {first mateMap : MateMap} {inChains : TreeSet Nat}
    (cleared : Cleared n first mateMap inChains) (long : first.length = 2 * n) {v : Nat}
    (below : v < n) : mateMap[v]? = some (if v ∈ inChains then none else mates first v) := by
  have inside : v < first.length := by omega
  rw [cleared.kept v below]
  by_cases placed : v ∈ inChains
  · rw [if_pos placed, if_pos placed]
  · rw [if_neg placed, if_neg placed, mates, List.getElem?_eq_getElem inside]
    rfl

theorem readMate_of_entry {mateMap : MateMap} {v : Nat} {mate : Option Nat}
    (entry : mateMap[v]? = some mate) : readMate mateMap v = .ok mate := by
  rw [readMate, entry]

/-- Clearing a mate leaves one mate less. -/
theorem countP_clear {mateMap : MateMap} {v w : Nat} (entry : mateMap[v]? = some (some w)) :
    (mateMap.set v none).countP Option.isSome < mateMap.countP Option.isSome := by
  obtain ⟨inside, value⟩ := List.getElem?_eq_some_iff.mp entry
  have positive : 0 < mateMap.countP Option.isSome :=
    List.countP_pos_iff.mpr ⟨_, List.mem_of_getElem? entry, rfl⟩
  rw [List.countP_set inside, value]
  simp only [Option.isSome_some, Option.isSome_none, ↓reduceIte, Bool.false_eq_true]
  omega

section Mates

variable {n : Nat} {edge : Nat → Nat → Prop} {first : MateMap}
  (matching : IsMatching (Doubled n edge) (mates first))
  (bounded : ∀ u v, edge u v → u < n ∧ v < n) (long : first.length = 2 * n)

include matching bounded long in
/-- The inner loop follows the mates from a vertex until it meets one that has
its place, or one without a mate. -/
theorem followMates_walk (turns : Nat) :
    ∀ (next v : Nat) (chain : List Nat) (mateMap : MateMap) (inChains : TreeSet Nat),
      (if n ≤ next then next - n else next) = v → v < n → mateMap.countP Option.isSome < turns →
      Cleared n first mateMap inChains →
      ∃ found mateMap' inChains',
        followMates n turns next chain mateMap inChains = .ok (chain ++ found, mateMap', inChains') ∧
        Walk (successor n (mates first)) {u | u ∈ inChains} v found ∧
        Cleared n first mateMap' inChains' ∧ ∀ u, u ∈ inChains' ↔ u ∈ inChains ∨ u ∈ found := by
  induction turns with
  | zero =>
    intro next v chain mateMap inChains _ _ enough
    omega
  | succ turns ih =>
    intro next v chain mateMap inChains reduced below enough cleared
    have inside : v < first.length := by omega
    dsimp only [followMates]
    rw [reduced]
    have entry := cleared.entry long below
    by_cases old : v ∈ inChains
    · rw [if_pos old] at entry
      refine ⟨[], mateMap.set v none, inChains, ?_, .placed old, ?_, by simp⟩
      · simp [readMate_of_entry entry, old]
      · apply cleared.set inside
        intro u
        exact ⟨.inl, fun placed => placed.elim id fun same => same ▸ old⟩
    · have placed : ∀ u, u ∈ inChains.insert v ↔ u ∈ inChains ∨ u = v := by
        intro u
        rw [TreeSet.mem_insert, Std.compare_eq_iff_eq, eq_comm, or_comm]
      have after := cleared.set inside placed
      rw [if_neg old] at entry
      rw [readMate_of_entry entry, Loops.ok_bind, if_neg old]
      cases mated : mates first v with
      | none =>
        refine ⟨[v], _, _, rfl, .last old ?_, after, by simpa using placed⟩
        rw [successor, if_pos below, mated]
        rfl
      | some w =>
        obtain ⟨t, rfl, joined⟩ := Matchings.mate_left matching below mated
        have link := (Matchings.successor_eq_some matching).mpr ⟨below, mated⟩
        rw [mated] at entry
        have fewer := countP_clear entry
        obtain ⟨found, mateMap', inChains', returned, walk, done, within⟩ :=
          ih (n + t) t (chain ++ [v]) _ _ (by simp) (bounded _ _ joined).2 (by omega) after
        refine ⟨v :: found, mateMap', inChains', ?_, ?_, done, ?_⟩
        · rw [List.append_assoc] at returned
          exact returned
        · have same : {u | u ∈ inChains.insert v} = insert v {u | u ∈ inChains} := by
            ext u
            simp only [Set.mem_ofPred_eq, Set.mem_insert_iff, placed]
            exact or_comm
          rw [same] at walk
          exact .step old link walk
        · intro u
          rw [within, placed, List.mem_cons, or_assoc]

/-- The state of the walks before the turn of vertex `k`. -/
structure Walked (n : Nat) (first : MateMap) (k : Nat) (walks : Walks) : Prop where
  sweep : Sweep (successor n (mates first)) k walks.minimalChains
  inChains : ∀ v, v ∈ walks.inChains ↔ v ∈ walks.minimalChains.flatten
  cleared : Cleared n first walks.mateMap walks.inChains

include long in
theorem Walked.reads {k v : Nat} {walks : Walks} (walked : Walked n first k walks)
    (below : v < n) : readMate walks.mateMap v =
      .ok (if v ∈ walks.minimalChains.flatten then none else mates first v) := by
  rw [readMate_of_entry (walked.cleared.entry long below)]
  simp only [walked.inChains]

include matching bounded long in
theorem beginChain_walked {k : Nat} (below : k < n) {walks : Walks}
    (walked : Walked n first k walks) :
    ∃ after, beginChain n walks k = .ok after ∧ Walked n first (k + 1) after := by
  unfold beginChain
  rw [walked.reads long below, Loops.ok_bind]
  by_cases placed : k ∈ walks.minimalChains.flatten
  · rw [if_pos placed]
    exact ⟨walks, rfl, walked.sweep.skip fun _ => placed, walked.inChains, walked.cleared⟩
  · rw [if_neg placed]
    cases mated : mates first k with
    | none =>
      refine ⟨walks, rfl, walked.sweep.skip fun linked => ?_, walked.inChains, walked.cleared⟩
      rw [successor, if_pos below, mated] at linked
      exact absurd rfl linked
    | some w =>
      obtain ⟨found, mateMap, inChains, returned, walk, cleared, within⟩ :=
        followMates_walk matching bounded long (walks.mateMap.length + 1) k k [] walks.mateMap
          walks.inChains (if_neg (by omega)) below
          (Nat.lt_succ_of_le List.countP_le_length) walked.cleared
      have linked : successor n (mates first) k ≠ none := by
        rw [successor, if_pos below, mated]
        exact Option.some_ne_none _
      have same : {u | u ∈ walks.inChains} = {u | u ∈ walks.minimalChains.flatten} := by
        ext u
        exact walked.inChains u
      rw [same] at walk
      rw [List.nil_append] at returned
      refine ⟨_, by rw [returned]; rfl, walked.sweep.walk linked placed walk, ?_, cleared⟩
      intro v
      rw [within, walked.inChains]
      simp

include long in
/-- When the loop is through, every vertex with a link has its place, so that
another turn does nothing. -/
theorem beginChain_done {k : Nat} (below : k < n) {walks : Walks} (walked : Walked n first n walks) :
    beginChain n walks k = .ok walks := by
  have cleared : (if k ∈ walks.minimalChains.flatten then none else mates first k) = none := by
    by_cases linked : successor n (mates first) k = none
    · rw [successor, if_pos below, Option.map_eq_none_iff] at linked
      rw [linked, ite_self]
    · rw [if_pos (walked.sweep.placed k below linked)]
  unfold beginChain
  rw [walked.reads long below, Loops.ok_bind, cleared]
  rfl

include matching bounded long in
/-- The outer loop makes one pass, and another one if that pass has begun a chain. -/
theorem walkPasses_walked :
    ∃ walks, walkPasses n (n + 1) ⟨[], first, ∅, false⟩ = .ok walks ∧ Walked n first n walks := by
  have start : Walked n first 0 ⟨[], first, ∅, false⟩ := by
    refine ⟨Sweep.start _, by simp, rfl, ?_⟩
    simp
  obtain ⟨walks, returned, walked⟩ := Loops.foldlM_range (Walked n first) n
    (fun k below walks walked => beginChain_walked matching bounded long below walked) start
  dsimp only [walkPasses]
  rw [returned, Loops.ok_bind]
  by_cases flag : walks.flag = true
  · have again : Walked n first n { walks with flag := false } :=
      ⟨walked.sweep, walked.inChains, walked.cleared⟩
    cases n with
    | zero =>
      cases returned
      cases flag
    | succ m =>
      obtain ⟨same, repeated, rfl⟩ := Loops.foldlM_range
        (fun _ after => after = { walks with flag := false }) (m + 1)
        (fun k below after unchanged => by
          subst unchanged
          exact ⟨_, beginChain_done long below again, rfl⟩) rfl
      refine ⟨_, ?_, again⟩
      rw [if_pos flag]
      dsimp only [walkPasses]
      rw [repeated]
      rfl
  · exact ⟨walks, if_neg flag, walked⟩

end Mates

/-- The sizes add up to the number of vertices in the chains, as a `uint32_t`. -/
theorem foldl_sizes (chains : Chains) (sum : Nat) :
    chains.foldl (fun sum m => (sum + m.length) % 2 ^ 32) (sum % 2 ^ 32) =
      (sum + chains.flatten.length) % 2 ^ 32 := by
  induction chains generalizing sum with
  | nil => rfl
  | cons c rest ih =>
    rw [List.foldl_cons, Nat.mod_add_mod, ih, List.flatten_cons, List.length_append, Nat.add_assoc]

section Chains

variable {P : Type} {matching : UndirectedGraph → Bool × MateMap} {G : AdjacencyList P}

/-- The links that the matching makes between the vertices of `G`. -/
def links (matching : UndirectedGraph → Bool × MateMap) (G : AdjacencyList P) (v : Nat) :
    Option Nat :=
  successor G.numVertices (mates (matching (doubledGraph G)).2) v

/-- `|M|`. -/
def matchingSize (matching : UndirectedGraph → Bool × MateMap) (G : AdjacencyList P) : Nat :=
  Matchings.size (doubledGraph G).numVertices (mates (matching (doubledGraph G)).2)

variable (maximum : ReturnsMaximum matching (doubledGraph G))

include maximum in
theorem ReturnsMaximum.isMatching :
    IsMatching (Doubled G.numVertices G.Edge) (mates (matching (doubledGraph G)).2) := by
  have isMatching := maximum.maximum.toIsMatching
  rwa [doubledGraph_joined] at isMatching

include maximum in
theorem links_edge {u v : Nat} (link : links matching G u = some v) : G.Edge u v :=
  Matchings.successor_edge maximum.isMatching link

include maximum in
theorem links_bounded (u v : Nat) (link : links matching G u = some v) :
    u < G.numVertices ∧ v < G.numVertices :=
  (links_edge maximum link).bounds

include maximum in
theorem matchingSize_eq :
    matchingSize matching G = ((List.range G.numVertices).filterMap (links matching G)).length := by
  unfold matchingSize
  rw [(doubledGraph_parts G).1]
  exact Matchings.size_eq_links maximum.isMatching fun _ _ edge => edge.bounds

include maximum in
/-- Without the last assertion, the function returns the cover of a sweep. -/
theorem generateMinimalChains_eq : ∃ chains, Sweep (links matching G) G.numVertices chains ∧
    generateMinimalChains matching G =
      if G.numVertices < 2 ^ 32 then .ok (PathCovers.cover G.numVertices chains)
      else .error (.assertion "All vertices not accounted for") := by
  have long := maximum.length.trans (doubledGraph_parts G).1
  obtain ⟨walks, returned, walked⟩ :=
    walkPasses_walked maximum.isMatching (fun _ _ edge => edge.bounds) long
  refine ⟨walks.minimalChains, walked.sweep, ?_⟩
  have perm := PathCovers.cover_perm walked.sweep (links_bounded maximum)
  have cover : walks.minimalChains ++ ((List.range G.numVertices).filter
      fun v => v ∉ walks.inChains).map (fun v => [v]) =
      PathCovers.cover G.numVertices walks.minimalChains := by
    unfold PathCovers.cover
    simp only [walked.inChains]
  have sum := foldl_sizes (PathCovers.cover G.numVertices walks.minimalChains) 0
  rw [perm.length_eq, List.length_range, Nat.zero_add, Nat.zero_mod] at sum
  dsimp only [generateMinimalChains]
  rw [maximum.success, returned]
  simp only [check, Loops.ok_bind, ↓reduceIte, cover, sum]
  by_cases small : G.numVertices < 2 ^ 32
  · rw [if_pos small, Nat.mod_eq_of_lt small, beq_self_eq_true]
    rfl
  · have wrapped : G.numVertices % 2 ^ 32 ≠ G.numVertices := by
      have := Nat.mod_lt G.numVertices (by decide : 0 < 2 ^ 32)
      omega
    rw [if_neg small, beq_eq_false_iff_ne.mpr wrapped]
    rfl

include maximum in
theorem generateMinimalChains_ok {chains : Chains}
    (returned : generateMinimalChains matching G = .ok chains) :
    G.numVertices < 2 ^ 32 ∧
      ∃ walked, Sweep (links matching G) G.numVertices walked ∧
        chains = PathCovers.cover G.numVertices walked := by
  obtain ⟨walked, sweep, eq⟩ := generateMinimalChains_eq maximum
  rw [eq] at returned
  split at returned
  · rename_i small
    cases returned
    exact ⟨small, walked, sweep, rfl⟩
  · cases returned

include maximum in
/-- What is returned always covers the vertices by disjoint paths of the graph,
and never by fewer than `n - |M|`. -/
theorem generateMinimalChains_covers {chains : Chains}
    (returned : generateMinimalChains matching G = .ok chains) :
    (∀ c ∈ chains, c ≠ []) ∧ Partition G.numVertices chains ∧ (∀ c ∈ chains, c.IsChain G.Edge) ∧
      G.numVertices ≤ chains.length + matchingSize matching G := by
  obtain ⟨_, walked, sweep, rfl⟩ := generateMinimalChains_ok maximum returned
  refine ⟨PathCovers.cover_nonempty sweep, PathCovers.cover_perm sweep (links_bounded maximum), ?_, ?_⟩
  · intro c member
    exact (PathCovers.cover_paths sweep c member).imp fun u v link => links_edge maximum link
  · rw [matchingSize_eq maximum]
    exact PathCovers.cover_length_ge sweep (links_bounded maximum)

include maximum in
theorem generateMinimalChains_length_iff (acyclic : Acyclic G.Edge) {chains : Chains}
    (returned : generateMinimalChains matching G = .ok chains) :
    chains.length = G.numVertices - matchingSize matching G ↔ HeadsFirst (links matching G) := by
  have enough := (generateMinimalChains_covers maximum returned).2.2.2
  obtain ⟨_, walked, sweep, rfl⟩ := generateMinimalChains_ok maximum returned
  have noCycle : Acyclic (Linked (links matching G)) :=
    acyclic.of_lift id fun u v link => .single (links_edge maximum link)
  rw [← PathCovers.cover_length_iff sweep (links_bounded maximum)
    (Matchings.successor_injective maximum.isMatching) noCycle, ← matchingSize_eq maximum]
  have few : matchingSize matching G ≤ G.numVertices := by
    rw [matchingSize_eq maximum]
    exact (List.length_filterMap_le _ _).trans_eq List.length_range
  omega

include maximum in
/-- Where the matching's paths begin at their lowest vertices, no other way to
cover the vertices by disjoint paths has fewer of them. -/
theorem generateMinimalChains_fewest (acyclic : Acyclic G.Edge)
    (first : HeadsFirst (links matching G)) {chains : Chains}
    (returned : generateMinimalChains matching G = .ok chains) {other : Chains}
    (part : Partition G.numVertices other) (nonempty : ∀ c ∈ other, c ≠ [])
    (paths : ∀ c ∈ other, c.IsChain G.Edge) : chains.length ≤ other.length := by
  have count := (generateMinimalChains_length_iff maximum acyclic returned).mpr first
  have largest := maximum.maximum
  rw [doubledGraph_joined, (doubledGraph_parts G).1] at largest
  have least := largest.le_length (fun _ _ edge => edge.bounds) part nonempty paths
  rw [matchingSize, (doubledGraph_parts G).1] at count
  omega

include maximum in
/-- In a graph whose edges all lead to higher numbers the paths do begin there. -/
theorem headsFirst_of_ascending (ascending : ∀ u v, G.Edge u v → u < v) :
    HeadsFirst (links matching G) := by
  rintro s v - walk -
  induction walk with
  | single link => exact ascending s _ (links_edge maximum link)
  | tail _ link ih => exact ih.trans (ascending _ _ (links_edge maximum link))

end Chains

/-- For every acyclic graph and every maximum matching of its doubled graph: the
function returns non-empty, disjoint chains that cover all vertices, follow the
edges and number `n - |M|` exactly when there are fewer than `2 ^ 32` vertices
and every path of the matching begins at the lowest of its vertices, the last
one left out. -/
theorem minimal_chains_iff {P : Type} (matching : UndirectedGraph → Bool × MateMap)
    (G : AdjacencyList P) (acyclic : Acyclic G.Edge)
    (maximum : ReturnsMaximum matching (doubledGraph G)) :
    (∃ chains, generateMinimalChains matching G = .ok chains ∧ (∀ c ∈ chains, c ≠ []) ∧
        Partition G.numVertices chains ∧ (∀ c ∈ chains, c.IsChain G.Edge) ∧
        chains.length = G.numVertices - matchingSize matching G) ↔
      G.numVertices < 2 ^ 32 ∧ HeadsFirst (links matching G) := by
  constructor
  · rintro ⟨chains, returned, _, _, _, count⟩
    exact ⟨(generateMinimalChains_ok maximum returned).1,
      (generateMinimalChains_length_iff maximum acyclic returned).mp count⟩
  · rintro ⟨small, first⟩
    obtain ⟨walked, _, eq⟩ := generateMinimalChains_eq maximum
    rw [if_pos small] at eq
    obtain ⟨nonempty, part, paths, _⟩ := generateMinimalChains_covers maximum eq
    exact ⟨_, eq, nonempty, part, paths,
      (generateMinimalChains_length_iff maximum acyclic eq).mpr first⟩

instance {P : Type} (g : AdjacencyList P) (u v : Nat) : Decidable (g.Joined u v) :=
  inferInstanceAs (Decidable (g.Edge u v ∨ g.Edge v u))

/-- The entries of a mate map show that it is a matching. -/
theorem isMatching_of_entries {UG : UndirectedGraph} {mateMap : MateMap}
    (entries : ∀ e ∈ mateMap.zipIdx, ∀ v ∈ e.1, mates mateMap v = some e.2 ∧ UG.Joined e.2 v) :
    IsMatching UG.Joined (mates mateMap) := by
  have both : ∀ u v, mates mateMap u = some v → mates mateMap v = some u ∧ UG.Joined u v := by
    intro u v mated
    have listed : mateMap[u]? = some (some v) := Option.join_eq_some_iff.mp mated
    exact entries (some v, u) (List.mem_zipIdx_iff_getElem?.mpr listed) v rfl
  exact ⟨fun u v mated => (both u v mated).1, fun u v mated => (both u v mated).2⟩

/-- The path 1, 0, 2: the walk begins at vertex 0, in its middle. -/
def enteredInside : BoostGraph where
  vertices := (List.range 3).map fun v => ⟨v, ⟨.other "Add", v⟩, v, .other "Add"⟩
  edges := [(1, 0), (0, 2)]
  bounded := by decide

/-- The only maximum matching of its doubled graph takes both edges. -/
def enteredInsideMatching (_ : UndirectedGraph) : Bool × MateMap :=
  (true, [some 5, some 3, none, some 1, none, some 0])

theorem enteredInside_acyclic : Acyclic enteredInside.Edge := by
  refine Acyclic.of_lt (fun v => if v = 1 then 0 else v + 1) fun u v edge => ?_
  have increasing : ∀ e ∈ enteredInside.edges,
      (if e.1 = 1 then 0 else e.1 + 1) < if e.2 = 1 then 0 else e.2 + 1 := by decide
  exact increasing (u, v) ((enteredInside.edge_iff u v).mp edge)

theorem enteredInside_maximum :
    ReturnsMaximum enteredInsideMatching (doubledGraph enteredInside) := by
  refine ⟨rfl, by decide, isMatching_of_entries (by decide), ?_⟩
  intro other isMatching
  rw [doubledGraph_joined] at isMatching
  rw [(doubledGraph_parts enteredInside).1]
  apply (Matchings.size_le isMatching (fun _ _ edge => edge.bounds)
    (fun u => enteredInside.outEdges u ≠ []) _).trans (by decide)
  intro u v edge
  exact decide_eq_true (List.ne_nil_of_mem edge)

/-- Two chains are returned where the matching allows one. -/
theorem enteredInside_two_chains :
    Acyclic enteredInside.Edge ∧
      ReturnsMaximum enteredInsideMatching (doubledGraph enteredInside) ∧
      generateMinimalChains enteredInsideMatching enteredInside = .ok [[0, 2], [1]] ∧
      enteredInside.numVertices - matchingSize enteredInsideMatching enteredInside = 1 :=
  ⟨enteredInside_acyclic, enteredInside_maximum, by decide +kernel, by decide +kernel⟩

theorem minimal_chains_enteredInside :
    (∃ chains, generateMinimalChains enteredInsideMatching enteredInside = .ok chains ∧
        (∀ c ∈ chains, c ≠ []) ∧ Partition enteredInside.numVertices chains ∧
        (∀ c ∈ chains, c.IsChain enteredInside.Edge) ∧
        chains.length =
          enteredInside.numVertices - matchingSize enteredInsideMatching enteredInside) ↔
      enteredInside.numVertices < 2 ^ 32 ∧
        HeadsFirst (links enteredInsideMatching enteredInside) :=
  minimal_chains_iff _ _ enteredInside_acyclic enteredInside_maximum

end ChainSaw
