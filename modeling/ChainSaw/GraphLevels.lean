import ChainSaw.Lib.LongestPath
import ChainSaw.Lib.Acyclic
import ChainSaw.NewGraph
import Mathlib.Order.Lattice.Nat

set_option autoImplicit false

namespace ChainSaw

open Relation (TransGen ReflTransGen)
open Relations (Acyclic)
open LongestPath (Walk relax)

variable {P : Type}

/-- The entry of `m_level` for a vertex. -/
def levelAt (mLevel : List Int) (v : Nat) : Int := mLevel.getD v (-1)

/-- The targets that the recursion descends into. -/
def levelTargets (g : AdjacencyList P) (v : Nat) : List Nat :=
  if v = 0 then (g.outEdges v).filter (fun t => g.inDegree t == 1) else g.outEdges v

theorem mem_levelTargets {g : AdjacencyList P} {u v : Nat} :
    v ∈ levelTargets g u ↔ g.Edge u v ∧ (u = 0 → g.inDegree v = 1) := by
  unfold levelTargets AdjacencyList.Edge
  split
  · rename_i root
    simp [root]
  · rename_i other
    simp [other]

theorem levelAt_set {mLevel : List Int} {v : Nat} (inside : v < mLevel.length) (l : Int) :
    levelAt (mLevel.set v l) = Function.update (levelAt mLevel) v l := by
  funext w
  unfold levelAt
  rw [List.getD_eq_getElem?_getD, List.getElem?_set]
  by_cases same : v = w
  · subst same
    simp [inside]
  · simp [same, Ne.symm same, List.getD_eq_getElem?_getD]

/-- No index leaves `m_level`, and the levels are those of the relaxation. -/
theorem findGrahpLevel_relax (g : AdjacencyList P) (depth : Nat) : ∀ id mLevel l level,
    mLevel.length = g.numVertices → id < g.numVertices →
    relax (levelTargets g) depth l id (levelAt mLevel) = some level →
    ∃ final, findGrahpLevel g depth id mLevel l = .ok final ∧
      final.length = g.numVertices ∧ levelAt final = level := by
  induction depth with
  | zero => intro id mLevel l level _ _ relaxed; cases relaxed
  | succ depth ih =>
    intro id mLevel l level size inside relaxed
    have bound : id < mLevel.length := size ▸ inside
    have entry : levelAt mLevel id = mLevel[id] := by
      simp [levelAt, bound]
    unfold findGrahpLevel
    rw [List.getElem?_eq_getElem bound]
    unfold relax at relaxed
    rw [entry] at relaxed
    dsimp only
    split at relaxed
    · rename_i low
      rw [if_pos low]
      rw [← levelAt_set bound] at relaxed
      have raised : (mLevel.set id l).length = g.numVertices := by rw [List.length_set, size]
      apply LongestPath.foldlM_visitAll (fun mLevel => mLevel.length = g.numVertices) _ _ level
        raised relaxed
      intro t listed s mid sameSize visited
      exact ih t s (l + 1) mid sameSize (mem_levelTargets.mp listed).1.bounds.2 visited
    · rename_i high
      rw [if_neg high]
      cases relaxed
      exact ⟨mLevel, rfl, size, rfl⟩

theorem walk_bound {g : AdjacencyList P} (nonempty : 0 < g.numVertices) {n v : Nat}
    (walk : Walk g.Edge 0 n v) : v ∈ List.range g.numVertices := by
  cases walk with
  | nil => exact List.mem_range.mpr nonempty
  | tail _ edge => exact List.mem_range.mpr edge.bounds.2

/-- The recursion ends on a graph without a cycle. -/
theorem findGrahpLevel_total (g : AdjacencyList P) (nonempty : 0 < g.numVertices)
    (acyclic : Acyclic g.Edge) {depth : Nat} (enough : g.numVertices ≤ depth) :
    ∃ final, findGrahpLevel g depth 0 (List.replicate g.numVertices (-1)) 0 = .ok final ∧
      final.length = g.numVertices ∧
      ∀ v, (levelAt final v = -1 ∧ ¬ ReflTransGen (fun u v => v ∈ levelTargets g u) 0 v) ∨
        ∃ n : Nat, levelAt final v = n ∧
          IsGreatest {n | Walk (fun u v => v ∈ levelTargets g u) 0 n v} n := by
  have short : ∀ n v, Walk (fun u v => v ∈ levelTargets g u) 0 n v → n < g.numVertices := by
    intro n v walk
    have inGraph : Walk g.Edge 0 n v := walk.mono fun u v step => (mem_levelTargets.mp step).1
    simpa using inGraph.length_lt (fun v _ => acyclic v) (fun n v => walk_bound nonempty)
  obtain ⟨level, relaxed⟩ := LongestPath.relax_total short depth 0 0 (fun _ => -1) .nil (by omega)
  have started : levelAt (List.replicate g.numVertices (-1)) = fun _ => -1 := by
    funext v
    simp only [levelAt, List.getD_eq_getElem?_getD, List.getElem?_replicate]
    split <;> rfl
  obtain ⟨final, returned, size, levels⟩ := findGrahpLevel_relax g depth 0
    (List.replicate g.numVertices (-1)) 0 level (by simp) nonempty (started ▸ relaxed)
  refine ⟨final, returned, size, fun v => ?_⟩
  rw [levels]
  exact LongestPath.relax_longest relaxed v

section filter

variable {g : AdjacencyList P} (nonempty : 0 < g.numVertices) (acyclic : Acyclic g.Edge)
  (reached : ∀ v < g.numVertices, ReflTransGen g.Edge 0 v)

/-- Vertex `v` has two or more in-edges, all of them from vertex 0. -/
def OnlyParallel (g : AdjacencyList P) (v : Nat) : Prop :=
  2 ≤ g.inDegree v ∧ ∀ u, g.Edge u v → u = 0

theorem inDegree_pos {u v : Nat} (edge : g.Edge u v) : 0 < g.inDegree v := by
  unfold AdjacencyList.inDegree
  exact List.length_pos_of_mem (List.mem_filter.mpr ⟨(g.edge_iff u v).mp edge, by simp⟩)

include acyclic reached

/-- A longest walk leaves vertex 0 along an only in-edge: another in-edge of the
same vertex would come from further down. -/
theorem longest_levelTargets (none : ∀ v < g.numVertices, ¬ OnlyParallel g v) {n v : Nat}
    (walk : Walk g.Edge 0 n v) (longest : ∀ m, Walk g.Edge 0 m v → m ≤ n) :
    Walk (fun u v => v ∈ levelTargets g u) 0 n v := by
  induction walk with
  | nil => exact .nil
  | @tail n b c walk edge ih =>
    have before : ∀ m, Walk g.Edge 0 m b → m ≤ n := by
      intro m other
      have := longest (m + 1) (other.tail edge)
      omega
    refine (ih before).tail (mem_levelTargets.mpr ⟨edge, ?_⟩)
    rintro rfl
    have single : ¬ 2 ≤ g.inDegree c := by
      intro several
      apply none c edge.bounds.2
      refine ⟨several, ?_⟩
      intro u other
      by_contra inner
      obtain ⟨m, toU⟩ := LongestPath.exists_walk (reached u other.bounds.1)
      cases toU with
      | nil => exact inner rfl
      | @tail m w _ toW edge' =>
        have := longest (m + 1 + 1) ((toW.tail edge').tail other)
        have start : n = 0 := by
          cases walk with
          | nil => rfl
          | tail walk back =>
            exact absurd (TransGen.tail' walk.reflTransGen back) (acyclic 0)
        omega
    have := inDegree_pos edge
    omega

include nonempty

/-- Where every vertex is reached from vertex 0, there is a longest walk to it. -/
theorem exists_longest {v : Nat} (inside : v < g.numVertices) :
    ∃ n, IsGreatest {n | Walk g.Edge 0 n v} n := by
  obtain ⟨n, walk⟩ := LongestPath.exists_walk (reached v inside)
  have bounded : BddAbove {n | Walk g.Edge 0 n v} := by
    refine ⟨g.numVertices, ?_⟩
    intro m other
    have := Walk.length_lt (fun v _ => acyclic v) (fun n v => walk_bound nonempty) other
    rw [List.length_range] at this
    omega
  exact ⟨_, Nat.sSup_mem ⟨n, walk⟩ bounded, fun m other => le_csSup bounded other⟩

/-- Graph levels with the in-degree filter. On every acyclic multigraph in which
vertex 0 leads to all vertices, `findGrahpLevel` ends, its recursion no deeper
than the number of vertices, and every level is the length of the longest path
exactly when no vertex has several in-edges that all come from vertex 0. -/
theorem graph_levels_iff {depth : Nat} (enough : g.numVertices ≤ depth) :
    ∃ final, findGrahpLevel g depth 0 (List.replicate g.numVertices (-1)) 0 = .ok final ∧
      final.length = g.numVertices ∧
      ((∀ v < g.numVertices, ∃ n : Nat, final[v]? = some (n : Int) ∧
          IsGreatest {n | Walk g.Edge 0 n v} n) ↔
        ∀ v < g.numVertices, ¬ OnlyParallel g v) := by
  obtain ⟨final, returned, size, levels⟩ := findGrahpLevel_total g nonempty acyclic enough
  refine ⟨final, returned, size, ?_⟩
  have entry : ∀ v < g.numVertices, final[v]? = some (levelAt final v) := by
    intro v inside
    have bound : v < final.length := size ▸ inside
    simp [levelAt, bound]
  constructor
  · intro longest v inside parallel
    obtain ⟨n, level, walk, _⟩ := longest v inside
    rw [entry v inside] at level
    rcases levels v with ⟨unseen, _⟩ | ⟨m, _, seen, _⟩
    · rw [unseen] at level
      have impossible := Option.some.inj level
      omega
    · cases seen with
      | nil =>
        cases walk with
        | nil =>
          -- vertex 0 itself has no in-edge
          have positive : 0 < g.inDegree 0 := by have := parallel.1; omega
          obtain ⟨e, member⟩ := List.exists_mem_of_length_pos positive
          obtain ⟨listed, isTarget⟩ := List.mem_filter.mp member
          have edge : g.Edge e.1 0 := by
            rw [g.edge_iff, ← beq_iff_eq.mp isTarget]
            exact listed
          exact acyclic 0 (.single (parallel.2 e.1 edge ▸ edge))
        | tail walk back => exact acyclic 0 (.tail' walk.reflTransGen back)
      | tail _ step =>
        obtain ⟨edge, single⟩ := mem_levelTargets.mp step
        have := single (parallel.2 _ edge)
        have := parallel.1
        omega
  · intro none v inside
    obtain ⟨n, walk, greatest⟩ := exists_longest nonempty acyclic reached inside
    have seen := longest_levelTargets acyclic reached none walk fun m other => greatest other
    refine ⟨n, ?_, walk, greatest⟩
    rw [entry v inside]
    rcases levels v with ⟨_, unreached⟩ | ⟨m, level, other, most⟩
    · exact absurd seen.reflTransGen unreached
    · have low : m ≤ n := greatest (other.mono fun u v step => (mem_levelTargets.mp step).1)
      have high : n ≤ m := most seen
      rw [level, Nat.le_antisymm low high]

end filter

/-- Vertex 2 is reached directly from vertex 0 and over vertex 1. -/
def detour : AdjacencyList Unit where
  vertices := [(), (), ()]
  edges := [(0, 2), (0, 1), (1, 2)]
  bounded := by decide

theorem graph_levels_detour :
    ∃ final, findGrahpLevel detour 3 0 [-1, -1, -1] 0 = .ok final ∧ final.length = 3 ∧
      ((∀ v < 3, ∃ n : Nat, final[v]? = some (n : Int) ∧
          IsGreatest {n | Walk detour.Edge 0 n v} n) ↔
        ∀ v < 3, ¬ OnlyParallel detour v) := by
  have increasing : ∀ e ∈ detour.edges, e.1 < e.2 := by decide
  have acyclic : Acyclic detour.Edge :=
    Acyclic.of_lt id fun u v edge => increasing (u, v) ((detour.edge_iff u v).mp edge)
  have reached : ∀ v < detour.numVertices, ReflTransGen detour.Edge 0 v := by
    intro v inside
    have cases : v = 0 ∨ detour.Edge 0 v := by
      have each : ∀ v < 3, v = 0 ∨ detour.Edge 0 v := by decide
      exact each v inside
    rcases cases with rfl | edge
    · exact .refl
    · exact .single edge
  exact graph_levels_iff (by decide) acyclic reached (Nat.le_refl 3)

end ChainSaw
