import ChainSaw.NewGraph
import Mathlib.Data.List.Nodup

set_option autoImplicit false

namespace ChainSaw

namespace AdjacencyList

variable {P : Type}

theorem vertices_addEdge [Inhabited P] {g : AdjacencyList P} {u v : Nat}
    (inside : u < g.vertices.length ∧ v < g.vertices.length) :
    (g.addEdge u v).vertices = g.vertices := by
  have none : max u v + 1 - g.vertices.length = 0 := by omega
  simp [addEdge, none]

/-- Adding edges between existing vertices leaves the vertices alone. -/
theorem foldl_addEdge [Inhabited P] (es : List (Nat × Nat)) (g : AdjacencyList P)
    (inside : ∀ e ∈ es, e.1 < g.vertices.length ∧ e.2 < g.vertices.length) :
    (es.foldl (fun g e => g.addEdge e.1 e.2) g).vertices = g.vertices ∧
      (es.foldl (fun g e => g.addEdge e.1 e.2) g).edges = g.edges ++ es := by
  induction es generalizing g with
  | nil => simp
  | cons e rest ih =>
    have kept := vertices_addEdge (inside e (by simp))
    obtain ⟨vertices, edges⟩ := ih (g.addEdge e.1 e.2) (by
      rw [kept]
      exact fun e' member => inside e' (by simp [member]))
    rw [List.foldl_cons]
    refine ⟨vertices.trans kept, ?_⟩
    rw [edges]
    simp [addEdge]

theorem mem_edgesByVertex {g : AdjacencyList P} {e : Nat × Nat} :
    e ∈ g.edgesByVertex ↔ e ∈ g.edges := by
  obtain ⟨u, v⟩ := e
  simp only [edgesByVertex, List.mem_flatMap, List.mem_range, List.mem_map, Prod.mk.injEq]
  constructor
  · rintro ⟨u, _, v, edge, rfl, rfl⟩
    exact (g.edge_iff u v).mp edge
  · intro member
    have edge := (g.edge_iff u v).mpr member
    exact ⟨u, edge.bounds.1, v, edge, rfl, rfl⟩

theorem outEdges_eq_nil {g : AdjacencyList P} {u : Nat} (outside : g.numVertices ≤ u) :
    g.outEdges u = [] := by
  rw [List.eq_nil_iff_forall_not_mem]
  intro v edge
  have := Edge.bounds edge
  omega

theorem filter_edgesByVertex (g : AdjacencyList P) (u : Nat) :
    (g.edgesByVertex.filter (fun e => e.1 == u)).map (·.2) = g.outEdges u := by
  unfold edgesByVertex
  rw [List.filter_flatMap, List.map_flatMap]
  have one : ∀ w, (((g.outEdges w).map fun t => (w, t)).filter fun e => e.1 == u).map (·.2) =
      if w = u then g.outEdges u else [] := by
    intro w
    by_cases same : w = u
    · subst same
      simp [List.filter_map, Function.comp_def]
    · simp [List.filter_map, Function.comp_def, same]
  simp only [one]
  by_cases inside : u < g.numVertices
  · obtain ⟨before, after, parts⟩ := List.append_of_mem (List.mem_range.mpr inside)
    have distinct : (before ++ u :: after).Nodup := parts ▸ List.nodup_range
    rw [List.nodup_middle, List.nodup_cons] at distinct
    have notBefore : ∀ w ∈ before, ¬ w = u := fun w member same => distinct.1 (by simp [← same, member])
    have notAfter : ∀ w ∈ after, ¬ w = u := fun w member same => distinct.1 (by simp [← same, member])
    have nil : ∀ ws : List Nat, (∀ w ∈ ws, ¬ w = u) →
        (ws.flatMap fun w => if w = u then g.outEdges u else []) = [] := by
      intro ws avoid
      rw [List.flatMap_eq_nil_iff]
      intro w member
      rw [if_neg (avoid w member)]
    rw [parts, List.flatMap_append, List.flatMap_cons, nil before notBefore, nil after notAfter]
    simp
  · rw [outEdges_eq_nil (Nat.le_of_not_lt inside)]
    simp

/-- A graph rebuilt by a loop over vertices and out-edges has the same edges. -/
theorem outEdges_copy {Q : Type} [Inhabited Q] (g : AdjacencyList P) (props : List Q)
    (same : props.length = g.numVertices) (u : Nat) :
    (g.edgesByVertex.foldl (fun h e => h.addEdge e.1 e.2) (ofVertices props)).outEdges u =
      g.outEdges u := by
  have copied := foldl_addEdge g.edgesByVertex (ofVertices props) (by
    intro e member
    change e.1 < props.length ∧ e.2 < props.length
    rw [same]
    exact g.bounded e (mem_edgesByVertex.mp member))
  conv_lhs => unfold outEdges
  rw [copied.2]
  exact filter_edgesByVertex g u

theorem vertices_copy {Q : Type} [Inhabited Q] (g : AdjacencyList P) (props : List Q)
    (same : props.length = g.numVertices) :
    (g.edgesByVertex.foldl (fun h e => h.addEdge e.1 e.2) (ofVertices props)).vertices = props := by
  exact (foldl_addEdge g.edgesByVertex (ofVertices props) (by
    intro e member
    change e.1 < props.length ∧ e.2 < props.length
    rw [same]
    exact g.bounded e (mem_edgesByVertex.mp member))).1

end AdjacencyList

/-- `orig_graph` has the vertices and the out-edges of `clean_graph`. -/
theorem cleanRemoveReadGraphHelper_ok {clean orig : BoostGraph}
    (returned : cleanRemoveReadGraphHelper clean = .ok orig) :
    orig.vertices = clean.vertices ∧ orig.numVertices < 2 ^ 32 ∧
      ∀ v, orig.outEdges v = clean.outEdges v := by
  unfold cleanRemoveReadGraphHelper at returned
  split at returned
  · rename_i small
    cases returned
    have kept := clean.vertices_copy clean.vertices rfl
    refine ⟨kept, ?_, clean.outEdges_copy clean.vertices rfl⟩
    unfold AdjacencyList.numVertices
    rw [kept]
    exact small
  · cases returned

end ChainSaw
