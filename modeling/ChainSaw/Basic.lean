import Mathlib.Algebra.Order.Ring.Nat
import Mathlib.Algebra.Order.Ring.Int
import Std.Data.TreeMap
import Std.Data.TreeSet
import ChainSaw.Lib.Loops

set_option autoImplicit false

namespace ChainSaw

/-- The ways in which a call of the simulator does not come back with a value.
`dereference` is a read through `end()` (or the front of an empty container),
`outOfRange` an index past a fixed-size array or a vector, and `diverges` a
loop or a recursion of the source that never ends. -/
inductive Fault where
  | assertion (text : String)
  | dereference
  | outOfRange
  | diverges
deriving DecidableEq, Repr

abbrev Result (α : Type) := Except Fault α

/-- `*it` for an iterator that a `find` returned. -/
def deref {α : Type} : Option α → Result α
  | some value => .ok value
  | none => .error .dereference

/-- `assert(condition && text)`. -/
def check (condition : Bool) (text : String) : Result Unit :=
  if condition then .ok () else .error (.assertion text)

@[simp] theorem deref_eq_ok {α : Type} {found : Option α} {value : α} :
    deref found = .ok value ↔ found = some value := by
  cases found <;> simp [deref]

@[simp] theorem check_eq_ok {condition : Bool} {text : String} {u : Unit} :
    check condition text = .ok u ↔ condition = true := by
  cases condition <;> simp [check]

theorem check_pass {condition : Bool} {text : String} (holds : condition = true) :
    check condition text = .ok () :=
  if_pos holds

/-- `MAX_NUM_CHAIN`: the size of the scheduler's fixed tables. -/
def maxNumChain : Nat := 700

/-- The operation names the simulator tells apart; every other name of
`Instruction.def` only selects a latency. -/
inductive Opcode where
  | bb
  | load
  | store
  | nop
  | other (text : String)
deriving DecidableEq, Repr, Inhabited

/-- A node label `Op(id)`. `reg_type` and `reg_id` of `completeReadGraphHelper`
capture these two parts; a label of any other shape makes `stoi` throw. -/
structure Label where
  opcode : Opcode
  id : Nat
deriving DecidableEq, Repr, Inhabited

/-- `vertex_prop`, with `ch` as the number `stoi` reads from it. -/
structure VertexProp where
  name : Nat
  label : Label
  ch : Nat
  opcode : Opcode
deriving DecidableEq, Repr, Inhabited

/-- `vertex_prop_com`. -/
structure VertexPropCom where
  name : Nat
  id : Nat
  ch : Nat
  label : Label
  opcode : Opcode
  latency : Nat
  level : Int
deriving DecidableEq, Repr, Inhabited

/-- A `boost::adjacency_list<listS, vecS, bidirectionalS>`: vertices are their
positions, and the out-edges of a vertex stand in insertion order. -/
structure AdjacencyList (P : Type) where
  vertices : List P
  edges : List (Nat × Nat)
  bounded : ∀ e ∈ edges, e.1 < vertices.length ∧ e.2 < vertices.length

abbrev BoostGraph := AdjacencyList VertexProp
abbrev BoostGraphComp := AdjacencyList VertexPropCom

namespace AdjacencyList

variable {P : Type}

def numVertices (g : AdjacencyList P) : Nat := g.vertices.length

/-- The targets of the out-edges of `v`. -/
def outEdges (g : AdjacencyList P) (v : Nat) : List Nat :=
  (g.edges.filter (fun e => e.1 == v)).map (·.2)

def inDegree (g : AdjacencyList P) (v : Nat) : Nat :=
  (g.edges.filter (fun e => e.2 == v)).length

/-- The edge relation of the graph. -/
def Edge (g : AdjacencyList P) (u v : Nat) : Prop := v ∈ g.outEdges u

instance (g : AdjacencyList P) (u v : Nat) : Decidable (g.Edge u v) :=
  inferInstanceAs (Decidable (v ∈ g.outEdges u))

def ofVertices (vertices : List P) : AdjacencyList P where
  vertices := vertices
  edges := []
  bounded := by simp

/-- `add_edge` grows the vertex vector when an end lies past it. -/
def addEdge [Inhabited P] (g : AdjacencyList P) (u v : Nat) : AdjacencyList P where
  vertices := g.vertices ++ List.replicate (max u v + 1 - g.vertices.length) default
  edges := g.edges ++ [(u, v)]
  bounded := by
    intro e member
    simp only [List.length_append, List.length_replicate]
    rcases List.mem_append.mp member with old | new
    · have := g.bounded e old
      omega
    · rw [List.mem_singleton.mp new]
      dsimp only
      omega

/-- The edges in the order of a loop over all vertices and their out-edges. -/
def edgesByVertex (g : AdjacencyList P) : List (Nat × Nat) :=
  (List.range g.numVertices).flatMap fun v => (g.outEdges v).map fun t => (v, t)

theorem edge_iff (g : AdjacencyList P) (u v : Nat) : g.Edge u v ↔ (u, v) ∈ g.edges := by
  simp [Edge, outEdges]

theorem Edge.bounds {g : AdjacencyList P} {u v : Nat} (edge : g.Edge u v) :
    u < g.numVertices ∧ v < g.numVertices :=
  g.bounded (u, v) ((g.edge_iff u v).mp edge)

end AdjacencyList

end ChainSaw
