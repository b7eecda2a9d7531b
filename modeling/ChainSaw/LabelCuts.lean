import ChainSaw.BothBreaks
import ChainSaw.StartNode

set_option autoImplicit false

namespace ChainSaw

open Relation (ReflTransGen)

/-- Vertex `v` carries the label `ch`. -/
def HasLabel (g : BoostGraph) (v ch : Nat) : Prop := ∃ p, g.vertices[v]? = some p ∧ p.ch = ch

def SameLabel (g : BoostGraph) (u v : Nat) : Prop := ∃ ch, HasLabel g u ch ∧ HasLabel g v ch

/-- `w` is the next vertex after `u` with its label. -/
def NextOfLabel (g : BoostGraph) (u w : Nat) : Prop :=
  SameLabel g u w ∧ u < w ∧ ∀ x, SameLabel g u x → u < x → w ≤ x

/-- `v` is not the first vertex with its label. -/
def InnerOfLabel (g : BoostGraph) (v : Nat) : Prop := ∃ u, SameLabel g u v ∧ u < v

/-- A cut before `x` separates `u` and `v`, which have its label. -/
def Divides (g : BoostGraph) (u x v : Nat) : Prop :=
  SameLabel g u v ∧ SameLabel g u x ∧ (u < x ∧ x ≤ v ∨ v < x ∧ x ≤ u)

/-- The label and the name of the start node: those of the last `BB` vertex, or
0 where there is none. -/
def StartLabel (g : BoostGraph) (ch name : Nat) : Prop :=
  (∃ (v : Nat) (p : VertexProp), g.vertices[v]? = some p ∧ p.opcode = .bb ∧ p.ch = ch ∧
    p.name = name ∧ ∀ (w : Nat) (q : VertexProp), g.vertices[w]? = some q → q.opcode = .bb → w ≤ v) ∨
  (∀ (w : Nat) (q : VertexProp), g.vertices[w]? = some q → q.opcode ≠ .bb) ∧ ch = 0 ∧ name = 0

/-- The cut behind the start node: its name is taken for a vertex number. -/
def StartCut (g : BoostGraph) (w : Nat) : Prop :=
  ∃ ch k, StartLabel g ch k ∧ HasLabel g k ch ∧ NextOfLabel g k w

/-- The cuts of a break pass. An edge from `u` to `v` gives a cut at the `w` with
`place u v w` when its ends have different labels, or are separated by a cut made
before or by one of this pass. -/
inductive PassCut (g : BoostGraph) (place : Nat → Nat → Nat → Prop) (before : Nat → Prop) :
    Nat → Prop
  | cross {u v w : Nat} : g.Edge u v → ¬ SameLabel g u v → place u v w → PassCut g place before w
  | earlier {u x v w : Nat} : g.Edge u v → Divides g u x v → before x → place u v w →
      PassCut g place before w
  | later {u x v w : Nat} : g.Edge u v → Divides g u x v → PassCut g place before x →
      place u v w → PassCut g place before w

/-- The live-out pass cuts behind the source of an edge. -/
def OutCut (param : GraphParam) (g : BoostGraph) (w : Nat) : Prop :=
  param.breakLiveOut ≠ 0 ∧ PassCut g (fun u _ w => NextOfLabel g u w) (StartCut g) w

/-- The live-in pass, which comes second, cuts before the target of an edge. -/
def InCut (param : GraphParam) (g : BoostGraph) (w : Nat) : Prop :=
  param.breakLiveIn ≠ 0 ∧ PassCut g (fun _ v w => w = v ∧ InnerOfLabel g v)
    (fun x => StartCut g x ∨ OutCut param g x) w

/-- The vertices that begin a piece of their label under the flags `param`. -/
def Cut (param : GraphParam) (g : BoostGraph) (w : Nat) : Prop :=
  (StartCut g w ∨ OutCut param g w) ∨ InCut param g w

/-- `u` and `v` have one label and no cut separates them. -/
def Together (param : GraphParam) (g : BoostGraph) (u v : Nat) : Prop :=
  SameLabel g u v ∧ ∀ x, Divides g u x v → ¬ Cut param g x

/-- The first vertex with the label of the start node. -/
def Origin (g : BoostGraph) (o : Nat) : Prop :=
  ∃ ch k, StartLabel g ch k ∧ HasLabel g o ch ∧ ∀ v, HasLabel g v ch → o ≤ v

/-- `x` is in the piece that the start node's label begins with. -/
def StartPiece (param : GraphParam) (g : BoostGraph) (x : Nat) : Prop :=
  ∃ o, Origin g o ∧ Together param g o x

section labels

variable {g : BoostGraph}

theorem HasLabel.unique {v a b : Nat} (first : HasLabel g v a) (second : HasLabel g v b) :
    a = b := by
  obtain ⟨p, found, rfl⟩ := first
  obtain ⟨q, also, rfl⟩ := second
  rw [found] at also
  cases also
  rfl

theorem hasLabel_iff {v ch : Nat} : HasLabel g v ch ↔ v ∈ labelled g ch := mem_labelled.symm

theorem exists_hasLabel {v : Nat} (bound : v < g.numVertices) : ∃ ch, HasLabel g v ch :=
  ⟨_, _, List.getElem?_eq_getElem bound, rfl⟩

theorem SameLabel.symm {u v : Nat} (same : SameLabel g u v) : SameLabel g v u := by
  obtain ⟨ch, atU, atV⟩ := same
  exact ⟨ch, atV, atU⟩

theorem SameLabel.trans {u v w : Nat} (first : SameLabel g u v) (second : SameLabel g v w) :
    SameLabel g u w := by
  obtain ⟨ch, atU, atV⟩ := first
  obtain ⟨ch', also, atW⟩ := second
  have same := atV.unique also
  subst same
  exact ⟨ch, atU, atW⟩

theorem SameLabel.refl {v : Nat} (bound : v < g.numVertices) : SameLabel g v v := by
  obtain ⟨ch, atV⟩ := exists_hasLabel bound
  exact ⟨ch, atV, atV⟩

theorem SameLabel.bounds {u v : Nat} (same : SameLabel g u v) :
    u < g.numVertices ∧ v < g.numVertices := by
  obtain ⟨ch, ⟨p, foundU, _⟩, ⟨q, foundV, _⟩⟩ := same
  exact ⟨(List.getElem?_eq_some_iff.mp foundU).1, (List.getElem?_eq_some_iff.mp foundV).1⟩

theorem Divides.symm {u x v : Nat} (divides : Divides g u x v) : Divides g v x u := by
  obtain ⟨same, sameX, between⟩ := divides
  exact ⟨same.symm, same.symm.trans sameX, between.symm⟩

/-- What separates the ends of two steps separates those of one of them. -/
theorem Divides.cases {u v w x : Nat} (first : SameLabel g u v) (second : SameLabel g v w)
    (divides : Divides g u x w) : Divides g u x v ∨ Divides g v x w := by
  obtain ⟨_, sameX, between⟩ := divides
  by_cases left : u < x ∧ x ≤ v ∨ v < x ∧ x ≤ u
  · exact .inl ⟨first, sameX, left⟩
  · exact .inr ⟨second, first.symm.trans sameX, by omega⟩

/-- The start node's label and name are what `createChains` remembers. -/
theorem startLabel_iff {ch name : Nat} :
    StartLabel g ch name ↔ (labelChains g).2 = (ch, name) := by
  have determined : ∀ ch name, StartLabel g ch name → (labelChains g).2 = (ch, name) := by
    rintro ch name (⟨v, p, found, isBB, rfl, rfl, last⟩ | ⟨none, rfl, rfl⟩)
    · exact labelChains_snd_of_last found isBB last
    · rw [labelChains_snd, foldl_lastStart_none]
      intro e member
      exact none e.2 e.1 (List.mem_zipIdx_iff_getElem?.mp member)
  refine ⟨determined ch name, fun remembered => ?_⟩
  obtain ⟨ch', name', starts⟩ : ∃ ch name, StartLabel g ch name := by
    classical
    let isBB : Nat → Prop := fun v => ∃ p, g.vertices[v]? = some p ∧ p.opcode = .bb
    by_cases some : ∃ v, isBB v
    · obtain ⟨v, atV⟩ := some
      have inside : ∀ w, isBB w → w ≤ g.numVertices := fun w ⟨p, found, _⟩ =>
        Nat.le_of_lt (List.getElem?_eq_some_iff.mp found).1
      obtain ⟨p, found, bb⟩ := Nat.findGreatest_spec (inside v atV) atV
      exact ⟨_, _, Or.inl ⟨_, p, found, bb, rfl, rfl, fun w q foundW bbW =>
        Nat.le_findGreatest (inside w ⟨q, foundW, bbW⟩) ⟨q, foundW, bbW⟩⟩⟩
    · exact ⟨0, 0, Or.inr ⟨fun w q found bb => some ⟨w, q, found, bb⟩, rfl, rfl⟩⟩
  have same := determined ch' name' starts
  rw [remembered] at same
  cases same
  exact starts

end labels

/-- Each chain holds the vertices of one label, in vertex order. -/
structure ByLabel (g : BoostGraph) (base : Chains) : Prop where
  part : Partition g.numVertices base
  label : ∀ c ∈ base, ∃ ch, c = labelled g ch

theorem createChains_byLabel (g : BoostGraph) : ByLabel g (createChains g).2 :=
  ⟨createChains_partition g, fun _ => mem_createChains⟩

namespace ByLabel

variable {g : BoostGraph} {base : Chains} (byLabel : ByLabel g base)
include byLabel

theorem hasLabel {m v : Nat} (inside : InChain base m v) :
    ∃ ch, base.getD m [] = labelled g ch ∧ HasLabel g v ch := by
  obtain ⟨ch, whole⟩ := byLabel.label _ (getD_mem inside)
  exact ⟨ch, whole, hasLabel_iff.mpr (whole ▸ inside)⟩

theorem sameLabel {m u v : Nat} (inU : InChain base m u) (inV : InChain base m v) :
    SameLabel g u v := by
  obtain ⟨ch, whole, atU⟩ := byLabel.hasLabel inU
  exact ⟨ch, atU, hasLabel_iff.mpr (whole ▸ inV)⟩

theorem inChain {m u v : Nat} (inU : InChain base m u) (same : SameLabel g u v) :
    InChain base m v := by
  obtain ⟨ch, atU, atV⟩ := same
  obtain ⟨ch', whole, also⟩ := byLabel.hasLabel inU
  have same := atU.unique also
  subst same
  unfold InChain
  rw [whole]
  exact hasLabel_iff.mp atV

theorem exists_chain {u v : Nat} (same : SameLabel g u v) :
    ∃ m, InChain base m u ∧ InChain base m v := by
  obtain ⟨m, inU⟩ := byLabel.part.exists_chain same.bounds.1
  exact ⟨m, inU, byLabel.inChain inU same⟩

theorem before_iff {m u v : Nat} (inU : InChain base m u) (inV : InChain base m v) :
    (base.getD m []).idxOf u < (base.getD m []).idxOf v ↔ u < v := by
  obtain ⟨ch, whole, _⟩ := byLabel.hasLabel inU
  exact idxOf_lt_of_sorted (whole ▸ labelled_sorted g ch) inU inV

theorem between_iff {u x v : Nat} :
    Between base u x v ↔ SameLabel g u v ∧ SameLabel g u x ∧ u < x ∧ x ≤ v := by
  constructor
  · rintro ⟨m, inU, inX, inV, after, upTo⟩
    have notBefore := mt (byLabel.before_iff inV inX).mpr (Nat.not_lt_of_le upTo)
    exact ⟨byLabel.sameLabel inU inV, byLabel.sameLabel inU inX,
      (byLabel.before_iff inU inX).mp after, Nat.le_of_not_lt notBefore⟩
  · rintro ⟨same, sameX, after, upTo⟩
    obtain ⟨m, inU, inV⟩ := byLabel.exists_chain same
    have inX := byLabel.inChain inU sameX
    have notBefore := mt (byLabel.before_iff inV inX).mp (Nat.not_lt_of_le upTo)
    exact ⟨m, inU, inX, inV, (byLabel.before_iff inU inX).mpr after, Nat.le_of_not_lt notBefore⟩

theorem follows_iff {u w : Nat} : Follows base u w ↔ NextOfLabel g u w := by
  constructor
  · rintro ⟨m, inU, inW, next⟩
    refine ⟨byLabel.sameLabel inU inW, (byLabel.before_iff inU inW).mp (by omega), ?_⟩
    intro x same after
    have inX := byLabel.inChain inU same
    have later := (byLabel.before_iff inU inX).mpr after
    by_contra early
    have := (byLabel.before_iff inX inW).mpr (Nat.lt_of_not_le early)
    omega
  · rintro ⟨same, after, least⟩
    obtain ⟨m, inU, inW⟩ := byLabel.exists_chain same
    have later := (byLabel.before_iff inU inW).mpr after
    have bound := List.idxOf_lt_length_of_mem inW
    refine ⟨m, inU, inW, ?_⟩
    by_contra apart
    have inside : (base.getD m []).idxOf u + 1 < (base.getD m []).length := by omega
    have inX : InChain base m (base.getD m [])[(base.getD m []).idxOf u + 1] :=
      List.getElem_mem inside
    have place := (byLabel.part.chain_nodup m).idxOf_getElem _ inside
    have afterU := (byLabel.before_iff inU inX).mp (by omega)
    have beforeW := (byLabel.before_iff inX inW).mp (by omega)
    have := least _ (byLabel.sameLabel inU inX) afterU
    omega

theorem inner_iff {w : Nat} : Inner base w ↔ InnerOfLabel g w := by
  constructor
  · rintro ⟨m, inW, deep⟩
    have bound := List.idxOf_lt_length_of_mem inW
    have inside : 0 < (base.getD m []).length := by omega
    have inX : InChain base m (base.getD m [])[0] := List.getElem_mem inside
    have place := (byLabel.part.chain_nodup m).idxOf_getElem _ inside
    exact ⟨_, byLabel.sameLabel inX inW, (byLabel.before_iff inX inW).mp (by omega)⟩
  · rintro ⟨u, same, before⟩
    obtain ⟨m, inU, inW⟩ := byLabel.exists_chain same
    have := (byLabel.before_iff inU inW).mpr before
    exact ⟨m, inW, by omega⟩

theorem divides_iff {u x v : Nat} : Divides g u x v ↔ Between base u x v ∨ Between base v x u := by
  rw [byLabel.between_iff, byLabel.between_iff]
  constructor
  · rintro ⟨same, sameX, forward | backward⟩
    · exact .inl ⟨same, sameX, forward⟩
    · exact .inr ⟨same.symm, same.symm.trans sameX, backward⟩
  · rintro (⟨same, sameX, forward⟩ | ⟨same, sameX, backward⟩)
    · exact ⟨same, sameX, .inl forward⟩
    · exact ⟨same.symm, same.symm.trans sameX, .inr backward⟩

end ByLabel

section cutBy

variable {g : BoostGraph} {base chains : Chains} {cut : Nat → Prop}
  (parts : CutBy g base chains cut) (byLabel : ByLabel g base)
include parts byLabel

/-- Vertices in different chains have different labels, or a cut separates them. -/
theorem CutBy.cases_of_apart {u v : Nat} (apart : Apart chains u v) :
    ¬ SameLabel g u v ∨ ∃ x, Divides g u x v ∧ cut x := by
  by_cases same : SameLabel g u v
  · right
    obtain ⟨m, inU, inV⟩ := byLabel.exists_chain same
    have differ : u ≠ v := by
      rintro rfl
      obtain ⟨s, t, differ, atU, atV⟩ := apart
      exact differ (parts.part.unique atU atV)
    rcases Nat.lt_or_gt_of_ne differ with before | after
    · obtain ⟨x, between, isCut⟩ := parts.between_of_apart byLabel.part inU inV
        ((byLabel.before_iff inU inV).mpr before) apart
      exact ⟨x, byLabel.divides_iff.mpr (.inl between), isCut⟩
    · obtain ⟨s, t, differ, atU, atV⟩ := apart
      obtain ⟨x, between, isCut⟩ := parts.between_of_apart byLabel.part inV inU
        ((byLabel.before_iff inV inU).mpr after) ⟨t, s, differ.symm, atV, atU⟩
      exact ⟨x, byLabel.divides_iff.mpr (.inr between), isCut⟩
  · exact .inl same

theorem CutBy.apart_of_label {u v : Nat} (edge : g.Edge u v) (differ : ¬ SameLabel g u v) :
    Apart chains u v := by
  obtain ⟨m, inU⟩ := byLabel.part.exists_chain edge.bounds.1
  obtain ⟨n, inV⟩ := byLabel.part.exists_chain edge.bounds.2
  refine parts.apart_of_apart byLabel.part ⟨m, n, ?_, inU, inV⟩
  rintro rfl
  exact differ (byLabel.sameLabel inU inV)

theorem CutBy.apart_of_divides {u x v : Nat} (divides : Divides g u x v) (head : Heads chains x) :
    Apart chains u v := by
  rcases byLabel.divides_iff.mp divides with between | between
  · exact parts.apart_of_between byLabel.part between head
  · obtain ⟨s, t, differ, atV, atU⟩ := parts.apart_of_between byLabel.part between head
    exact ⟨t, s, differ.symm, atU, atV⟩

variable {place : Nat → Nat → Nat → Prop} {before : Nat → Prop}

/-- Where the pass has nothing left to cut, every node of `PassCut` begins a chain. -/
theorem PassCut.heads (kept : ∀ x, before x → Heads chains x)
    (done : ∀ u v w, g.Edge u v → Apart chains u v → place u v w → Heads chains w) {w : Nat}
    (isCut : PassCut g place before w) : Heads chains w := by
  induction isCut with
  | cross edge differ placed => exact done _ _ _ edge (parts.apart_of_label byLabel edge differ) placed
  | earlier edge divides old placed =>
    exact done _ _ _ edge (parts.apart_of_divides byLabel divides (kept _ old)) placed
  | later edge divides _ placed ih =>
    exact done _ _ _ edge (parts.apart_of_divides byLabel divides ih) placed

omit parts in
/-- An edge between two of the current chains gives a cut of the pass. -/
theorem CutBy.passCut (parts : CutBy g base chains fun w => before w ∨ PassCut g place before w)
    {u v w : Nat} (edge : g.Edge u v) (apart : Apart chains u v) (placed : place u v w) :
    PassCut g place before w := by
  rcases parts.cases_of_apart byLabel apart with differ | ⟨x, divides, old | new⟩
  · exact .cross edge differ placed
  · exact .earlier edge divides old placed
  · exact .later edge divides new placed

end cutBy

/-- The chains are the parts of those in `base` between the nodes of `cut`. -/
structure CutAt (g : BoostGraph) (base chains : Chains) (cut : Nat → Prop) : Prop where
  parts : CutBy g base chains cut
  heads : ∀ w, cut w → Heads chains w

theorem CutAt.congr {g : BoostGraph} {base chains : Chains} {cut other : Nat → Prop}
    (cuts : CutAt g base chains cut) (same : ∀ w, cut w ↔ other w) : CutAt g base chains other :=
  ⟨cuts.parts.mono fun w => (same w).mp, fun w isCut => cuts.heads w ((same w).mpr isCut)⟩

theorem NextOfLabel.unique {g : BoostGraph} {u w x : Nat} (first : NextOfLabel g u w)
    (second : NextOfLabel g u x) : w = x :=
  Nat.le_antisymm (first.2.2 x second.1 second.2.1) (second.2.2 w first.1 first.2.1)

/-- `breakingStartNode` cuts behind the start node, if anything follows it. -/
theorem breakingStartNode_cutAt {g : BoostGraph} {base : Chains}
    (part : Partition g.numVertices base) (k : Nat) :
    CutAt g base (breakingStartNode k base) (fun w => InChain base 0 k ∧ Follows base k w) := by
  have follower : ∀ w, InChain base 0 k ∧ Follows base k w →
      InChain base 0 w ∧ (base.getD 0 []).idxOf w = (base.getD 0 []).idxOf k + 1 := by
    rintro w ⟨named, t, atK, atW, next⟩
    have same := part.unique atK named
    subst same
    exact ⟨atW, next⟩
  by_cases broken : k ∈ base.getD 0 [] ∧ 1 < (base.getD 0 []).length
  · have result : breakingStartNode k base =
        splitChain base 0 ((base.getD 0 []).idxOf k + 1) := if_pos broken
    rw [result]
    by_cases isLast : (base.getD 0 []).getLast? = some k
    · have whole := (idxOf_last part broken.1).mp isLast
      have inside := InChain.lt_length (v := k) broken.1
      have same : splitChain base 0 ((base.getD 0 []).idxOf k + 1) = base ++ [[]] := by
        have first : base.getD 0 [] = base[0] := by simp [inside]
        unfold splitChain
        rw [whole, List.take_length, List.drop_length, first, List.set_getElem_self]
      refine ⟨⟨(splitChain_flatten _ _ _).trans part, fun c => mem_splitChain inside, ?_⟩, ?_⟩
      · rw [same]
        rintro w ⟨c, member, head⟩ inner
        rcases List.mem_append.mp member with old | new
        · have uncut := part.cutBy fun w => InChain base 0 k ∧ Follows base k w
          exact uncut.heads w ⟨c, old, head⟩ inner
        · rw [List.mem_singleton.mp new] at head
          cases head
      · intro w next
        obtain ⟨atW, next⟩ := follower w next
        have := List.idxOf_lt_length_of_mem atW
        omega
    · obtain ⟨w, follows, atW⟩ := exists_follows part broken.1 isLast
      have next := (follower w ⟨broken.1, follows⟩).2
      rw [← next]
      obtain ⟨parts, _⟩ := (part.cutBy fun w => InChain base 0 k ∧ Follows base k w).split atW
        (by omega) ⟨broken.1, follows⟩
      refine ⟨parts, ?_⟩
      intro x next'
      obtain ⟨atX, place⟩ := follower x next'
      have same : x = w := (List.idxOf_inj atX).mp (place.trans next.symm)
      rw [same]
      exact heads_splitChain atW
  · have result : breakingStartNode k base = base := if_neg broken
    rw [result]
    refine ⟨part.cutBy _, ?_⟩
    intro w next
    obtain ⟨atW, place⟩ := follower w next
    have := List.idxOf_lt_length_of_mem atW
    exact absurd ⟨next.1, by omega⟩ broken

/-- The first chain of `createChains` holds the label of the start node. -/
theorem createChains_first {g : BoostGraph} {ch name : Nat} (starts : StartLabel g ch name) :
    (createChains g).1 = name ∧ (createChains g).2.getD 0 [] = labelled g ch := by
  have remembered := startLabel_iff.mp starts
  have found : (labelChains g).1[ch]?.getD [] = labelled g ch := by
    rw [labelChains_fst]
    exact Grouping.group_empty_getElem? ..
  constructor
  · show (labelChains g).2.2 = name
    rw [remembered]
  · rw [createChains_eq, remembered, List.getD_cons_zero, found]

theorem exists_startLabel (g : BoostGraph) : ∃ ch name, StartLabel g ch name :=
  ⟨_, _, startLabel_iff.mpr rfl⟩

theorem startCut_iff (g : BoostGraph) (w : Nat) :
    StartCut g w ↔ InChain (createChains g).2 0 (createChains g).1 ∧
      Follows (createChains g).2 (createChains g).1 w := by
  rw [(createChains_byLabel g).follows_iff]
  constructor
  · rintro ⟨ch, k, starts, named, next⟩
    obtain ⟨rfl, first⟩ := createChains_first starts
    refine ⟨?_, next⟩
    unfold InChain
    rw [first]
    exact hasLabel_iff.mp named
  · rintro ⟨inside, next⟩
    obtain ⟨ch, name, starts⟩ := exists_startLabel g
    obtain ⟨rfl, first⟩ := createChains_first starts
    unfold InChain at inside
    rw [first] at inside
    exact ⟨ch, _, starts, hasLabel_iff.mpr inside, next⟩

theorem startChains_cutAt (g : BoostGraph) :
    CutAt g (createChains g).2 (startChains g) (StartCut g) :=
  (breakingStartNode_cutAt (createChains_partition g) (createChains g).1).congr
    fun w => (startCut_iff g w).symm

section passes

variable {param : GraphParam} {g : BoostGraph} {base chains next : Chains}
  (byLabel : ByLabel g base)
include byLabel

theorem liveOutPass_cutAt (cuts : CutAt g base chains (StartCut g))
    (returned : liveOutPass param g chains = .ok next) :
    CutAt g base next (fun w => StartCut g w ∨ OutCut param g w) := by
  unfold liveOutPass at returned
  split at returned
  · rename_i flag
    obtain ⟨mid, total, last, _⟩ := breakEveryLiveOut_total cuts.parts.part
    rw [returned] at total
    cases total
    obtain ⟨parts, kept⟩ :
        CutBy g base next
            (fun w => StartCut g w ∨ PassCut g (fun u _ w => NextOfLabel g u w) (StartCut g) w) ∧
          ∀ x, StartCut g x → Heads next x := by
      refine breakLoop_cutBy (fun parts edge apart placed => .inr (parts.passCut byLabel edge apart placed))
        (fun parts generated broke => ?_) (cuts.parts.mono fun _ => .inl) cuts.heads returned
      obtain ⟨j, u, v, w, edge, apart, follows, rest⟩ :=
        breakOutHelper_cutsOne byLabel.part parts generated broke
      exact ⟨j, u, v, w, edge, apart, byLabel.follows_iff.mp follows, rest⟩
    refine CutAt.congr ⟨parts, ?_⟩ fun w => or_congr_right (and_iff_right flag).symm
    rintro w (old | new)
    · exact kept w old
    · refine PassCut.heads parts byLabel kept ?_ new
      intro u v w edge ⟨s, t, differ, atU, atV⟩ placed
      rw [parts.heads_iff_last byLabel.part (byLabel.follows_iff.mpr placed) atU]
      exact last s t u v differ atU atV edge
  · rename_i unset
    cases returned
    exact cuts.congr fun w => (or_iff_left fun both => unset both.1).symm

theorem liveInPass_cutAt (cuts : CutAt g base chains (fun w => StartCut g w ∨ OutCut param g w))
    (returned : liveInPass param g chains = .ok next) : CutAt g base next (Cut param g) := by
  unfold liveInPass at returned
  split at returned
  · rename_i flag
    obtain ⟨mid, total, first, _⟩ := breakEveryLiveIn_total cuts.parts.part
    rw [returned] at total
    cases total
    obtain ⟨parts, kept⟩ :
        CutBy g base next (fun w => (StartCut g w ∨ OutCut param g w) ∨
            PassCut g (fun _ v w => w = v ∧ InnerOfLabel g v)
              (fun x => StartCut g x ∨ OutCut param g x) w) ∧
          ∀ x, StartCut g x ∨ OutCut param g x → Heads next x := by
      refine breakLoop_cutBy (fun parts edge apart placed => .inr (parts.passCut byLabel edge apart placed))
        (fun parts generated broke => ?_) (cuts.parts.mono fun _ => .inl) cuts.heads returned
      obtain ⟨j, u, v, w, edge, apart, ⟨same, inner⟩, rest⟩ :=
        breakInHelper_cutsOne byLabel.part parts generated broke
      exact ⟨j, u, v, w, edge, apart, ⟨same, byLabel.inner_iff.mp inner⟩, rest⟩
    refine CutAt.congr ⟨parts, ?_⟩ fun w => or_congr_right (and_iff_right flag).symm
    rintro w (old | new)
    · exact kept w old
    · refine PassCut.heads parts byLabel kept ?_ new
      intro u v w edge ⟨s, t, differ, atU, atV⟩ ⟨isTarget, _⟩
      rw [isTarget, heads_iff parts.part atV]
      exact first s t u v differ atU atV edge
  · rename_i unset
    cases returned
    exact cuts.congr fun w => (or_iff_left fun both => unset both.1).symm

end passes

/-- `u` and `v` are nodes of one chain. -/
def SameChain (chains : Chains) (u v : Nat) : Prop := ∃ j, InChain chains j u ∧ InChain chains j v

/-- The first node of chain 0 stays where it is. -/
theorem splitChain_head {chains : Chains} {i k : Nat} (positive : 0 < k)
    (inside : i < chains.length) :
    ((splitChain chains i k).getD 0 []).head? = (chains.getD 0 []).head? := by
  obtain ⟨c, rest, rfl⟩ := List.exists_cons_of_length_pos (by omega : 0 < chains.length)
  unfold splitChain
  cases i with
  | zero => simp [List.head?_take, Nat.ne_of_gt positive]
  | succ i => simp

theorem Splits.head {chains next : Chains} (split : Splits chains next) :
    (next.getD 0 []).head? = (chains.getD 0 []).head? := by
  obtain ⟨i, k, positive, short, rfl⟩ := split
  exact splitChain_head positive (lt_length_of_getD short)

theorem splits_head {chains next : Chains} (splits : ReflTransGen Splits chains next) :
    (next.getD 0 []).head? = (chains.getD 0 []).head? := by
  induction splits with
  | refl => rfl
  | tail _ split ih => exact split.head.trans ih

theorem startChains_head (g : BoostGraph) :
    ((startChains g).getD 0 []).head? = ((createChains g).2.getD 0 []).head? := by
  unfold startChains breakingStartNode
  simp only
  split
  · rename_i cut
    exact splitChain_head (Nat.succ_pos _) (lt_length_of_getD cut.2)
  · rfl

/-- Chain 0 begins with the first vertex that has the start node's label. -/
theorem origin_iff {g : BoostGraph} {o : Nat} :
    Origin g o ↔ ((createChains g).2.getD 0 []).head? = some o := by
  obtain ⟨ch, name, starts⟩ := exists_startLabel g
  have sorted := labelled_sorted g ch
  rw [(createChains_first starts).2]
  constructor
  · rintro ⟨ch', name', also, atO, least⟩
    have same := (startLabel_iff.mp starts).symm.trans (startLabel_iff.mp also)
    cases same
    have member := hasLabel_iff.mp atO
    obtain ⟨first, head⟩ : ∃ first, (labelled g ch).head? = some first :=
      ⟨_, List.head?_eq_some_head (List.ne_nil_of_mem member)⟩
    obtain ⟨rest, whole⟩ := List.head?_eq_some_iff.mp head
    have upTo := least first (hasLabel_iff.mpr (List.mem_of_mem_head? head))
    rw [whole] at member sorted
    rcases List.mem_cons.mp member with rfl | later
    · exact head
    · have := List.rel_of_pairwise_cons sorted later
      omega
  · intro head
    refine ⟨ch, name, starts, hasLabel_iff.mpr (List.mem_of_mem_head? head), ?_⟩
    intro v atV
    obtain ⟨rest, whole⟩ := List.head?_eq_some_iff.mp head
    have member := hasLabel_iff.mp atV
    rw [whole] at member sorted
    rcases List.mem_cons.mp member with rfl | later
    · exact Nat.le_refl v
    · exact Nat.le_of_lt (List.rel_of_pairwise_cons sorted later)

/-- What the chains handed to the merge pass are, in terms of the labels, the
vertex numbers and the flags. -/
structure LabelPieces (param : GraphParam) (g : BoostGraph) (chains : Chains) : Prop where
  part : Partition g.numVertices chains
  sorted : Sorted chains
  same : ∀ u v, SameChain chains u v ↔ Together param g u v
  first : ∀ x, InChain chains 0 x ↔ StartPiece param g x

theorem breakPasses_pieces {param : GraphParam} {g : BoostGraph} {broken : Chains}
    (returned : breakPasses param g (startChains g) = .ok broken) : LabelPieces param g broken := by
  have byLabel := createChains_byLabel g
  obtain ⟨mid, out, into⟩ := Loops.bind_eq_ok.mp returned
  have cuts := liveInPass_cutAt byLabel (liveOutPass_cutAt byLabel (startChains_cutAt g) out) into
  obtain ⟨broken', total, splits, _⟩ := breakPasses_total param g (startChains_partition g)
  rw [returned] at total
  cases total
  have part := cuts.parts.part
  have same : ∀ u v, SameChain broken u v ↔ Together param g u v := by
    intro u v
    constructor
    · rintro ⟨j, atU, atV⟩
      have together : ¬ Apart broken u v := by
        rintro ⟨s, t, differ, alsoU, alsoV⟩
        exact differ ((part.unique alsoU atU).trans (part.unique atV alsoV))
      obtain ⟨m, inU⟩ := byLabel.part.exists_chain (part.lt atU)
      obtain ⟨start, stretch⟩ := cuts.parts.stretch byLabel.part atU inU
      refine ⟨byLabel.sameLabel inU (stretch.sub v atV).1, fun x divides isCut => ?_⟩
      exact together (cuts.parts.apart_of_divides byLabel divides (cuts.heads x isCut))
    · rintro ⟨label, uncut⟩
      obtain ⟨s, atU⟩ := part.exists_chain label.bounds.1
      obtain ⟨t, atV⟩ := part.exists_chain label.bounds.2
      by_cases one : s = t
      · subst one
        exact ⟨s, atU, atV⟩
      · rcases cuts.parts.cases_of_apart byLabel ⟨s, t, one, atU, atV⟩ with
          differ | ⟨x, divides, isCut⟩
        · exact absurd label differ
        · exact absurd isCut (uncut x divides)
  have head : (broken.getD 0 []).head? = ((createChains g).2.getD 0 []).head? := by
    rw [← startChains_head g]
    exact splits_head splits
  refine ⟨part, (splits_refines splits).sorted (startChains_sorted g), same, fun x => ?_⟩
  constructor
  · intro inside
    obtain ⟨o, first⟩ : ∃ o, (broken.getD 0 []).head? = some o :=
      ⟨_, List.head?_eq_some_head (List.ne_nil_of_mem inside)⟩
    exact ⟨o, origin_iff.mpr (head ▸ first), (same o x).mp ⟨0, List.mem_of_mem_head? first, inside⟩⟩
  · rintro ⟨o, origin, together⟩
    have first : InChain broken 0 o :=
      List.mem_of_mem_head? (head.trans (origin_iff.mp origin))
    obtain ⟨j, atO, atX⟩ := (same o x).mpr together
    rwa [part.unique first atO]

end ChainSaw
