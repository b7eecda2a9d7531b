import ChainSaw.LabelCuts
import ChainSaw.MergeLoop

set_option autoImplicit false

namespace ChainSaw

open Relation (TransGen ReflTransGen)
open Relations (Acyclic)

section definitions

variable (param : GraphParam) (g : BoostGraph)

/-- One step between vertices: inside a piece, or along an edge. -/
def Leads (a b : Nat) : Prop := Together param g a b ∨ g.Edge a b

/-- The start node's piece leads to `v`. -/
def Reached (v : Nat) : Prop := ∃ o, Origin g o ∧ ReflTransGen (Leads param g) o v

/-- Pieces that the start node's piece does not lead to never lead to each other. -/
def UnreachedOrdered : Prop :=
  ∀ a b, ¬ Reached param g a → TransGen (Leads param g) a b → TransGen (Leads param g) b a →
    Together param g a b

/-- An edge along which `mergeChain` may append the piece of `v` to that of `u`. -/
structure Joins (u v : Nat) : Prop where
  edge : g.Edge u v
  apart : ¬ Together param g u v
  last : ∀ x, Together param g u x → x ≤ u
  first : ∀ x, Together param g v x → v ≤ x

/-- The piece of `b` may be appended to that of `a`. -/
def PieceJoin (a b : Nat) : Prop :=
  ∃ x y, Together param g a x ∧ Joins param g x y ∧ Together param g y b

/-- The check that `mergeChain` makes from chain 0 sees every chain it joins: a
piece that is appended is reached, and is not the start node's own. -/
def JoinsSeen : Prop :=
  ∀ u v, Joins param g u v → ¬ StartPiece param g u →
    Reached param g v ∧ ¬ StartPiece param g v

/-- No edge inside a piece goes to a lower number and, where chains are merged, no
edge goes back to a piece from one that may stand behind it. -/
def ChainsOrdered : Prop :=
  (∀ u v, g.Edge u v → Together param g u v → u < v) ∧
    (param.merge ≠ 0 → ¬ ∃ u v, g.Edge u v ∧ TransGen (PieceJoin param g) v u)

/-- In a merged chain `u` may stand before `v`. -/
def Ahead (u v : Nat) : Prop :=
  Together param g u v ∧ u < v ∨ ¬ Together param g u v ∧ TransGen (PieceJoin param g) u v

end definitions

section together

variable {param : GraphParam} {g : BoostGraph}

theorem Together.refl {v : Nat} (bound : v < g.numVertices) : Together param g v v := by
  refine ⟨SameLabel.refl bound, ?_⟩
  rintro x ⟨_, _, between⟩
  omega

theorem Together.symm {u v : Nat} (together : Together param g u v) : Together param g v u :=
  ⟨together.1.symm, fun x divides => together.2 x divides.symm⟩

theorem Together.trans {u v w : Nat} (first : Together param g u v)
    (second : Together param g v w) : Together param g u w := by
  refine ⟨first.1.trans second.1, fun x divides => ?_⟩
  rcases divides.cases first.1 second.1 with left | right
  · exact first.2 x left
  · exact second.2 x right

theorem Leads.bounds {a b : Nat} (leads : Leads param g a b) :
    a < g.numVertices ∧ b < g.numVertices := by
  rcases leads with together | edge
  · exact together.1.bounds
  · exact edge.bounds

theorem Reached.walk {a b : Nat} (reached : Reached param g a)
    (walk : ReflTransGen (Leads param g) a b) : Reached param g b := by
  obtain ⟨o, origin, first⟩ := reached
  exact ⟨o, origin, first.trans walk⟩

theorem Joins.pieceJoin {u v : Nat} (joins : Joins param g u v) : PieceJoin param g u v :=
  ⟨u, v, .refl joins.edge.bounds.1, joins, .refl joins.edge.bounds.2⟩

theorem PieceJoin.walk {a b : Nat} (join : PieceJoin param g a b) :
    ReflTransGen (Leads param g) a b := by
  obtain ⟨x, y, first, joins, second⟩ := join
  exact .tail (.tail (.single (.inl first)) (.inr joins.edge)) (.inl second)

theorem pieceJoins_walk {a b : Nat} (joins : TransGen (PieceJoin param g) a b) :
    ReflTransGen (Leads param g) a b := by
  induction joins with
  | single join => exact join.walk
  | tail _ join ih => exact ih.trans join.walk

/-- What may be appended to a piece is reached. -/
theorem JoinsSeen.reached (seen : JoinsSeen param g) {a b : Nat} (join : PieceJoin param g a b) :
    Reached param g b := by
  obtain ⟨x, y, _, joins, second⟩ := join
  have target : Reached param g y := by
    by_cases start : StartPiece param g x
    · obtain ⟨o, origin, together⟩ := start
      exact ⟨o, origin, .tail (.single (.inl together)) (.inr joins.edge)⟩
    · exact (seen x y joins start).1
  exact target.walk (.single (.inl second))

end together

/-- What holds of the chains all along the merge loop: pieces stay whole, and
chains grow along joins. -/
structure Merged (param : GraphParam) (g : BoostGraph) (chains : Chains) : Prop where
  part : Partition g.numVertices chains
  keeps : ∀ u v, Together param g u v → SameChain chains u v
  order : ∀ c ∈ chains, c.Pairwise (Ahead param g)

/-- Where the check of `mergeChain` sees all joins: chain 0 stays the start node's
piece, and no chain holds two pieces that are not reached. -/
structure Visible (param : GraphParam) (g : BoostGraph) (chains : Chains) : Prop where
  first : ∀ x, InChain chains 0 x ↔ StartPiece param g x
  alone : ∀ u v, SameChain chains u v → ¬ Reached param g u → ¬ Reached param g v →
    Together param g u v

theorem sameChain_of_mem {chains : Chains} {c : List Nat} (listed : c ∈ chains) {u v : Nat}
    (inU : u ∈ c) (inV : v ∈ c) : SameChain chains u v := by
  obtain ⟨j, found⟩ := List.mem_iff_getElem?.mp listed
  exact ⟨j, inChain_iff.mpr ⟨c, found, inU⟩, inChain_iff.mpr ⟨c, found, inV⟩⟩

namespace LabelPieces

variable {param : GraphParam} {g : BoostGraph} {chains : Chains}
  (pieces : LabelPieces param g chains)
include pieces

theorem merged : Merged param g chains := by
  refine ⟨pieces.part, fun u v => (pieces.same u v).mpr, fun c listed => ?_⟩
  refine (pieces.sorted c listed).imp_of_mem ?_
  intro u v inU inV less
  exact .inl ⟨(pieces.same u v).mp (sameChain_of_mem listed inU inV), less⟩

theorem visible : Visible param g chains :=
  ⟨pieces.first, fun u v same _ _ => (pieces.same u v).mp same⟩

end LabelPieces

theorem rel_of_idxOf_lt {r : Nat → Nat → Prop} {c : List Nat} (ordered : c.Pairwise r) {u v : Nat}
    (inU : u ∈ c) (inV : v ∈ c) (before : c.idxOf u < c.idxOf v) : r u v := by
  have boundU := List.idxOf_lt_length_of_mem inU
  have boundV := List.idxOf_lt_length_of_mem inV
  have related := List.pairwise_iff_getElem.mp ordered _ _ boundU boundV before
  simpa using related

section step

variable {param : GraphParam} {g : BoostGraph} {chains : Chains} {i t : Nat}
  (merged : Merged param g chains)
include merged

theorem Merged.ahead {j u v : Nat} (inU : InChain chains j u) (inV : InChain chains j v)
    (before : (chains.getD j []).idxOf u < (chains.getD j []).idxOf v) : Ahead param g u v :=
  rel_of_idxOf_lt (merged.order _ (getD_mem inU)) inU inV before

theorem Merged.not_together {i t : Nat} (apart : t ≠ i) {u v : Nat} (inU : InChain chains i u)
    (inV : InChain chains t v) : ¬ Together param g u v := by
  intro together
  obtain ⟨j, alsoU, alsoV⟩ := merged.keeps u v together
  exact apart ((merged.part.unique inV alsoV).trans (merged.part.unique alsoU inU))

/-- The last node of a chain is the last of its piece and comes after the others. -/
theorem Merged.last {node : Nat} (isLast : (chains.getD i []).getLast? = some node) :
    (∀ x, Together param g node x → x ≤ node) ∧
      ∀ u, InChain chains i u → Together param g u node ∨ TransGen (PieceJoin param g) u node := by
  have inNode : InChain chains i node := List.mem_of_getLast? isLast
  obtain ⟨initial, whole⟩ := List.getLast?_eq_some_iff.mp isLast
  have ordered := merged.order _ (getD_mem inNode)
  rw [whole, List.pairwise_append] at ordered
  have before : ∀ u, InChain chains i u → u = node ∨ Ahead param g u node := by
    intro u inU
    unfold InChain at inU
    rw [whole] at inU
    rcases List.mem_append.mp inU with early | final
    · exact .inr (ordered.2.2 u early node (by simp))
    · exact .inl (List.mem_singleton.mp final)
  constructor
  · intro x together
    obtain ⟨j, alsoNode, inX⟩ := merged.keeps node x together
    have same := merged.part.unique alsoNode inNode
    subst same
    rcases before x inX with rfl | ⟨_, less⟩ | ⟨apart, _⟩
    · exact Nat.le_refl x
    · exact Nat.le_of_lt less
    · exact absurd together.symm apart
  · intro u inU
    rcases before u inU with rfl | ⟨together, _⟩ | ⟨_, joins⟩
    · exact .inl (.refl (merged.part.lt inU))
    · exact .inl together
    · exact .inr joins

theorem Merged.first {target : Nat} (isFirst : (chains.getD t []).head? = some target) :
    (∀ x, Together param g target x → target ≤ x) ∧
      ∀ v, InChain chains t v →
        Together param g target v ∨ TransGen (PieceJoin param g) target v := by
  have inTarget : InChain chains t target := List.mem_of_mem_head? isFirst
  obtain ⟨rest, whole⟩ := List.head?_eq_some_iff.mp isFirst
  have ordered := merged.order _ (getD_mem inTarget)
  rw [whole, List.pairwise_cons] at ordered
  have after : ∀ v, InChain chains t v → v = target ∨ Ahead param g target v := by
    intro v inV
    unfold InChain at inV
    rw [whole] at inV
    rcases List.mem_cons.mp inV with first | late
    · exact .inl first
    · exact .inr (ordered.1 v late)
  constructor
  · intro x together
    obtain ⟨j, alsoTarget, inX⟩ := merged.keeps target x together
    have same := merged.part.unique alsoTarget inTarget
    subst same
    rcases after x inX with rfl | ⟨_, less⟩ | ⟨apart, _⟩
    · exact Nat.le_refl x
    · exact Nat.le_of_lt less
    · exact absurd together apart
  · intro v inV
    rcases after v inV with rfl | ⟨together, _⟩ | ⟨_, joins⟩
    · exact .inl (.refl (merged.part.lt inV))
    · exact .inl together
    · exact .inr joins

/-- The edge that `mergeChain` found joins two pieces. -/
theorem Merged.joins (joinable : Joinable g chains i t) :
    ∃ node target, InChain chains i node ∧ InChain chains t target ∧ Joins param g node target ∧
      (∀ u, InChain chains i u → Together param g u node ∨ TransGen (PieceJoin param g) u node) ∧
      ∀ v, InChain chains t v →
        Together param g target v ∨ TransGen (PieceJoin param g) target v := by
  obtain ⟨_, apart, node, target, isLast, isFirst, edge⟩ := joinable
  have inNode : InChain chains i node := List.mem_of_getLast? isLast
  have inTarget : InChain chains t target := List.mem_of_mem_head? isFirst
  obtain ⟨last, upTo⟩ := merged.last isLast
  obtain ⟨first, onward⟩ := merged.first isFirst
  exact ⟨node, target, inNode, inTarget,
    ⟨edge, merged.not_together apart inNode inTarget, last, first⟩, upTo, onward⟩

theorem Merged.join (joinable : Joinable g chains i t) : Merged param g (joinChains chains i t) := by
  have insideI := joinable.insideI
  have insideT := joinable.insideT
  have apart := joinable.2.1
  have wholeI : chains.getD i [] = chains[i] := by simp [insideI]
  have wholeT : chains.getD t [] = chains[t] := by simp [insideT]
  refine ⟨(joinChains_flatten insideI insideT apart).trans merged.part, ?_, ?_⟩
  · intro u v together
    obtain ⟨j, inU, inV⟩ := merged.keeps u v together
    exact ⟨_, inU.renumber insideI insideT apart, inV.renumber insideI insideT apart⟩
  · intro c listed
    rcases mem_joinChains insideI insideT listed with rfl | old
    · refine List.pairwise_append.mpr ⟨merged.order _ (List.getElem_mem insideI),
        merged.order _ (List.getElem_mem insideT), ?_⟩
      intro u inU v inV
      have inU : InChain chains i u := by rwa [InChain, wholeI]
      have inV : InChain chains t v := by rwa [InChain, wholeT]
      obtain ⟨node, target, _, _, joins, upTo, onward⟩ := merged.joins joinable
      refine .inr ⟨merged.not_together apart inU inV, ?_⟩
      -- from `u` to the end of its chain, over the join, and on to `v`
      rcases upTo u inU with near | far <;> rcases onward v inV with here | there
      · exact .single ⟨node, target, near, joins, here⟩
      · exact .head ⟨node, target, near, joins, .refl joins.edge.bounds.2⟩ there
      · exact .tail far ⟨node, target, .refl joins.edge.bounds.1, joins, here⟩
      · exact (TransGen.tail far joins.pieceJoin).trans there
    · exact merged.order c old

theorem Visible.join (visible : Visible param g chains) (seen : JoinsSeen param g)
    (joinable : Joinable g chains i t) :
    Visible param g (joinChains chains i t) := by
  have insideI := joinable.insideI
  have insideT := joinable.insideT
  have wholeI : chains.getD i [] = chains[i] := by simp [insideI]
  have wholeT : chains.getD t [] = chains[t] := by simp [insideT]
  obtain ⟨node, target, inNode, inTarget, joins, _, onward⟩ := merged.joins joinable
  have later : ¬ StartPiece param g node := by
    intro start
    have := merged.part.unique inNode ((visible.first node).mpr start)
    have := joinable.1
    omega
  obtain ⟨reached, notStart⟩ := seen node target joins later
  have positive : 0 < t := by
    rw [Nat.pos_iff_ne_zero]
    rintro rfl
    exact notStart ((visible.first target).mp inTarget)
  -- the chain that is appended is reached as a whole
  have appended : ∀ x, InChain chains t x → Reached param g x := by
    intro x inX
    rcases onward x inX with together | joins
    · exact reached.walk (.single (.inl together))
    · exact reached.walk (pieceJoins_walk joins)
  refine ⟨fun x => ?_, ?_⟩
  · rw [← visible.first x, InChain, InChain, List.getD_eq_getElem?_getD,
      joinChains_head joinable.1 positive, ← List.getD_eq_getElem?_getD]
  · rintro u v ⟨k, inU, inV⟩ notU notV
    rcases mem_joinChains insideI insideT (getD_mem inU) with both | old
    · have front : ∀ x, InChain (joinChains chains i t) k x → ¬ Reached param g x →
          InChain chains i x := by
        intro x inX notReached
        unfold InChain at inX
        rw [both, ← wholeI, ← wholeT] at inX
        exact (List.mem_append.mp inX).resolve_right fun inT => notReached (appended x inT)
      exact visible.alone u v ⟨i, front u inU notU, front v inV notV⟩ notU notV
    · exact visible.alone u v (sameChain_of_mem old inU inV) notU notV

end step

theorem MergeStep.joinable {g clean : BoostGraph} (same : ∀ v, g.outEdges v = clean.outEdges v)
    {chains next : Chains} (step : MergeStep clean chains next) :
    ∃ i t, Joinable g chains i t ∧ next = joinChains chains i t := by
  obtain ⟨i, t, searched, rfl⟩ := step
  obtain ⟨positive, apart, node, target, last, head, edge⟩ := (mergePair_some searched).joinable
  refine ⟨i, t, ⟨positive, apart, node, target, last, head, ?_⟩, rfl⟩
  unfold AdjacencyList.Edge
  rw [same]
  exact edge

/-- The final chains are merged pieces, in the order of the joins. -/
theorem merges_merged {param : GraphParam} {g clean : BoostGraph}
    (same : ∀ v, g.outEdges v = clean.outEdges v) {chains final : Chains}
    (merges : ReflTransGen (MergeStep clean) chains final) (pieces : LabelPieces param g chains) :
    Merged param g final := by
  induction merges with
  | refl => exact pieces.merged
  | tail _ step ih =>
    obtain ⟨i, t, joinable, rfl⟩ := step.joinable same
    exact ih.join joinable

theorem merges_visible {param : GraphParam} {g clean : BoostGraph}
    (same : ∀ v, g.outEdges v = clean.outEdges v) (seen : JoinsSeen param g) {chains final : Chains}
    (merges : ReflTransGen (MergeStep clean) chains final) (pieces : LabelPieces param g chains) :
    Visible param g final := by
  induction merges with
  | refl => exact pieces.visible
  | tail merges step ih =>
    obtain ⟨i, t, joinable, rfl⟩ := step.joinable same
    exact ih.join (merges_merged same merges pieces) seen joinable

section loops

variable {param : GraphParam} {g : BoostGraph} {chains : Chains} (merged : Merged param g chains)
include merged

/-- A walk between vertices is one between their chains. -/
theorem Merged.walk {a b s t : Nat} (walk : ReflTransGen (Leads param g) a b)
    (inS : InChain chains s a) (inT : InChain chains t b) :
    ReflTransGen (ChainDep g chains) s t := by
  induction walk using ReflTransGen.head_induction_on generalizing s with
  | refl => rw [merged.part.unique inS inT]
  | head leads _ ih =>
    obtain ⟨j, inJ⟩ := merged.part.exists_chain leads.bounds.2
    rcases leads with together | edge
    · obtain ⟨k, first, second⟩ := merged.keeps _ _ together
      have same := (merged.part.unique inS first).trans (merged.part.unique second inJ)
      exact same ▸ ih inJ
    · by_cases same : s = j
      · exact same ▸ ih inJ
      · exact .head ⟨same, _, _, inS, inJ, edge⟩ (ih inJ)

variable (visible : Visible param g chains)
include visible

theorem Visible.reached_chain {c x : Nat} (inside : InChain chains c x)
    (reached : Reached param g x) : ReflTransGen (ChainDep g chains) 0 c := by
  obtain ⟨o, origin, walk⟩ := reached
  have bound : o < g.numVertices := by
    obtain ⟨_, _, _, atO, _⟩ := origin
    exact (SameLabel.bounds ⟨_, atO, atO⟩).1
  exact merged.walk walk ((visible.first o).mpr ⟨o, origin, .refl bound⟩) inside

variable (accepted : ¬ ∃ c, ReflTransGen (ChainDep g chains) 0 c ∧ TransGen (ChainDep g chains) c c)
include accepted

/-- No vertex of a chain on a loop is reached. -/
theorem Visible.not_reached {c x : Nat} (loop : TransGen (ChainDep g chains) c c)
    (inside : InChain chains c x) : ¬ Reached param g x :=
  fun reached => accepted ⟨c, visible.reached_chain merged inside reached, loop⟩

/-- On a loop the chains are single pieces, so it is a loop of `Leads`. -/
theorem Visible.leads {c d : Nat} (there : ReflTransGen (ChainDep g chains) d c)
    (loop : TransGen (ChainDep g chains) c c) (back : ReflTransGen (ChainDep g chains) c d)
    {a b : Nat} (inA : InChain chains d a) (inB : InChain chains c b) :
    ReflTransGen (Leads param g) a b := by
  induction there using ReflTransGen.head_induction_on generalizing a with
  | refl =>
    have notA := visible.not_reached merged accepted loop inA
    have notB := visible.not_reached merged accepted loop inB
    exact .single (.inl (visible.alone a b ⟨c, inA, inB⟩ notA notB))
  | head step rest ih =>
    obtain ⟨apart, u, v, inU, inV, edge⟩ := step
    have around : TransGen (ChainDep g chains) _ _ :=
      .head' ⟨apart, u, v, inU, inV, edge⟩ (rest.trans back)
    have notA := visible.not_reached merged accepted around inA
    have notU := visible.not_reached merged accepted around inU
    have together := visible.alone a u ⟨_, inA, inU⟩ notA notU
    have onward := ih (back.tail ⟨apart, u, v, inU, inV, edge⟩) inV
    exact .head (.inl together) (.head (.inr edge) onward)

theorem Visible.acyclic_iff : Acyclic (ChainDep g chains) ↔ UnreachedOrdered param g := by
  constructor
  · intro acyclic a b notReached there back
    obtain ⟨_, first, _⟩ := TransGen.head'_iff.mp there
    obtain ⟨_, second, _⟩ := TransGen.head'_iff.mp back
    obtain ⟨s, inA⟩ := merged.part.exists_chain first.bounds.1
    obtain ⟨t, inB⟩ := merged.part.exists_chain second.bounds.1
    by_cases same : s = t
    · subst same
      have alsoNot := fun reached : Reached param g b => notReached (reached.walk back.to_reflTransGen)
      exact visible.alone a b ⟨s, inA, inB⟩ notReached alsoNot
    · have forth := merged.walk there.to_reflTransGen inA inB
      have around := merged.walk back.to_reflTransGen inB inA
      rcases Relation.reflTransGen_iff_eq_or_transGen.mp forth with equal | forth
      · exact absurd equal.symm same
      · exact absurd (TransGen.trans_left forth around) (acyclic s)
  · intro ordered c loop
    obtain ⟨d, ⟨apart, u, v, inU, inV, edge⟩, rest⟩ := TransGen.head'_iff.mp loop
    have back := visible.leads merged accepted rest loop
      (.single ⟨apart, u, v, inU, inV, edge⟩) inV inU
    have notReached := visible.not_reached merged accepted loop inU
    have same : TransGen (Leads param g) v u := .tail' back (.inl (.refl edge.bounds.1))
    obtain ⟨j, alsoU, alsoV⟩ :=
      merged.keeps u v (ordered u v notReached (.single (.inr edge)) same)
    exact apart ((merged.part.unique inU alsoU).trans (merged.part.unique alsoV inV))

end loops

section order

variable {param : GraphParam} {g : BoostGraph} {chains : Chains} (merged : Merged param g chains)
include merged

theorem Merged.inOrder (within : ∀ u v, g.Edge u v → Together param g u v → u < v)
    (noBack : ∀ u v, g.Edge u v → SameChain chains u v → ¬ Together param g u v →
      ¬ TransGen (PieceJoin param g) v u) : InOrder g chains := by
  intro c listed u inU v inV edge
  by_contra notBefore
  rcases Nat.lt_or_eq_of_le (Nat.le_of_not_lt notBefore) with after | same
  · rcases rel_of_idxOf_lt (merged.order c listed) inV inU after with ⟨together, less⟩ | ⟨apart, joins⟩
    · have := within u v edge together.symm
      omega
    · exact noBack u v edge (sameChain_of_mem listed inU inV) (fun together => apart together.symm) joins
  · have loop := (List.idxOf_inj inV).mp same
    subst loop
    exact absurd (within v v edge (.refl edge.bounds.1)) (Nat.lt_irrefl v)

theorem Merged.within (ordered : InOrder g chains) {u v : Nat} (edge : g.Edge u v)
    (together : Together param g u v) : u < v := by
  obtain ⟨j, inU, inV⟩ := merged.keeps u v together
  rcases merged.ahead inU inV (ordered _ (getD_mem inU) u inU v inV edge) with ⟨_, less⟩ | ⟨apart, _⟩
  · exact less
  · exact absurd together apart

/-- Inside a piece a chain follows the vertex numbers. -/
theorem Merged.idxOf_le {j u v : Nat} (inU : InChain chains j u) (inV : InChain chains j v)
    (together : Together param g u v) (upTo : u ≤ v) :
    (chains.getD j []).idxOf u ≤ (chains.getD j []).idxOf v := by
  by_contra after
  rcases merged.ahead inV inU (Nat.lt_of_not_le after) with ⟨_, less⟩ | ⟨apart, _⟩
  · omega
  · exact apart together.symm

/-- Where a chain is in order, a piece stands behind one it is appended to. -/
theorem Merged.pieceJoin_before (ordered : InOrder g chains) {j a b : Nat}
    (inA : InChain chains j a) (inB : InChain chains j b) (join : PieceJoin param g a b) :
    (chains.getD j []).idxOf a < (chains.getD j []).idxOf b := by
  obtain ⟨x, y, first, joins, second⟩ := join
  have inX : InChain chains j x := by
    obtain ⟨k, alsoA, inX⟩ := merged.keeps a x first
    exact merged.part.unique alsoA inA ▸ inX
  have inY : InChain chains j y := by
    obtain ⟨k, inY, alsoB⟩ := merged.keeps y b second
    exact merged.part.unique alsoB inB ▸ inY
  have upToX := merged.idxOf_le inA inX first (joins.last a first.symm)
  have across := ordered _ (getD_mem inX) x inX y inY joins.edge
  have fromY := merged.idxOf_le inY inB second (joins.first b second)
  omega

variable (visible : Visible param g chains)
  (accepted : ¬ ∃ c, ReflTransGen (ChainDep g chains) 0 c ∧ TransGen (ChainDep g chains) c c)
include visible accepted

/-- Reached vertices that lead to each other are in one chain. -/
theorem Visible.inChain {j a b : Nat} (inA : InChain chains j a) (reached : Reached param g a)
    (there : ReflTransGen (Leads param g) a b) (back : ReflTransGen (Leads param g) b a) :
    InChain chains j b := by
  have bound : b < g.numVertices := by
    rcases ReflTransGen.cases_tail there with rfl | ⟨_, _, last⟩
    · exact merged.part.lt inA
    · exact last.bounds.2
  obtain ⟨t, inB⟩ := merged.part.exists_chain bound
  have around := merged.walk back inB inA
  rcases Relation.reflTransGen_iff_eq_or_transGen.mp (merged.walk there inA inB) with same | forth
  · exact same ▸ inB
  · exact absurd ⟨j, visible.reached_chain merged inA reached, forth.trans_left around⟩ accepted

/-- Pieces that are joined one after the other and lead back to the first are in
one chain, in the order of the joins. -/
theorem Visible.joins_before (ordered : InOrder g chains) {j v b : Nat}
    (inV : InChain chains j v) (reached : Reached param g v) (joins : TransGen (PieceJoin param g) v b)
    (back : ReflTransGen (Leads param g) b v) :
    InChain chains j b ∧ (chains.getD j []).idxOf v < (chains.getD j []).idxOf b := by
  induction joins with
  | single join =>
    have inB := visible.inChain merged accepted inV reached join.walk back
    exact ⟨inB, merged.pieceJoin_before ordered inV inB join⟩
  | tail earlier join ih =>
    obtain ⟨inM, before⟩ := ih (join.walk.trans back)
    have inB := visible.inChain merged accepted inM (reached.walk (pieceJoins_walk earlier)) join.walk
      (back.trans (pieceJoins_walk earlier))
    exact ⟨inB, before.trans (merged.pieceJoin_before ordered inM inB join)⟩

end order

/-- The final chains, in terms of labels, numbers, edges and flags. -/
theorem decompose_merged {param : GraphParam} {clean orig : BoostGraph}
    (read : cleanRemoveReadGraphHelper clean = .ok orig) {final : Chains} {maps : DependencyMaps}
    (returned : decompose param clean orig (startChains orig) = .ok (final, maps)) :
    Merged param orig final ∧ (param.merge = 0 → LabelPieces param orig final) ∧
    ((param.merge ≠ 0 → JoinsSeen param orig) → Visible param orig final) := by
  obtain ⟨_, _, same⟩ := cleanRemoveReadGraphHelper_ok read
  obtain ⟨broken, cut, joined, _⟩ := decompose_ok returned
  have pieces := breakPasses_pieces cut
  have merges := mergePass_ok joined
  have unmerged : param.merge = 0 → LabelPieces param orig final := by
    intro unset
    unfold mergePass at joined
    rw [if_neg (not_not.mpr unset)] at joined
    cases joined
    exact pieces
  refine ⟨merges_merged same merges pieces, unmerged, fun seen => ?_⟩
  by_cases unset : param.merge = 0
  · exact (unmerged unset).visible
  · exact merges_visible same (seen unset) merges pieces

theorem startAndTail_joinsSeen (param : GraphParam) : JoinsSeen param startAndTail := by
  have edges : ∀ e, e ∈ startAndTail.edges ↔ startAndTail.Edge e.1 e.2 :=
    fun e => (startAndTail.edge_iff e.1 e.2).symm
  have remembered : (labelChains startAndTail).2 = (0, 0) := by decide +kernel
  have origin : Origin startAndTail 0 :=
    ⟨0, 0, startLabel_iff.mpr remembered, ⟨_, rfl, rfl⟩, fun v _ => Nat.zero_le v⟩
  intro u v joins later
  have listed := (edges (u, v)).mpr joins.edge
  have cases : (u, v) = (0, 1) ∨ (u, v) = (0, 2) ∨ (u, v) = (1, 2) := by
    simpa [startAndTail] using listed
  rcases cases with same | same | same
  · cases same
    exact absurd ⟨0, origin, .refl (by decide)⟩ later
  · cases same
    exact absurd ⟨0, origin, .refl (by decide)⟩ later
  · cases same
    refine ⟨⟨0, origin, .single (.inr ((edges (0, 2)).mp (by decide)))⟩, ?_⟩
    rintro ⟨o, ⟨ch, name, starts, atO, _⟩, ⟨ch', also, tail⟩, _⟩
    have first := startLabel_iff.mp starts
    rw [remembered] at first
    cases first
    have clash := tail.unique (b := 1) ⟨_, rfl, rfl⟩
    rw [← atO.unique also] at clash
    cases clash

/-- A vertex numbering that grows along every edge is enough for any labelling. -/
theorem chainsOrdered_of_increasing {param : GraphParam} {g : BoostGraph}
    (increasing : ∀ u v, g.Edge u v → u < v) : ChainsOrdered param g := by
  have forward : ∀ {a b}, TransGen (PieceJoin param g) a b → a < b := by
    intro a b joins
    have step : ∀ {a b}, PieceJoin param g a b → a < b := by
      rintro a b ⟨x, y, first, joins, second⟩
      have upTo := joins.last a first.symm
      have across := increasing x y joins.edge
      have onward := joins.first b second
      omega
    induction joins with
    | single join => exact step join
    | tail _ join ih => exact ih.trans (step join)
  refine ⟨fun u v edge _ => increasing u v edge, ?_⟩
  rintro _ ⟨u, v, edge, joins⟩
  have := increasing u v edge
  have := forward joins
  omega

end ChainSaw
