import ChainSaw.ChainOrder
import ChainSaw.Cutting

set_option autoImplicit false

namespace ChainSaw

open Relation (TransGen ReflTransGen)
open Relations (Acyclic)

/-- On a path a walk leads from every node to every later one. -/
theorem isChain_walk {r : Nat → Nat → Prop} {c : List Nat} (path : c.IsChain r) {u v : Nat}
    (inU : u ∈ c) (inV : v ∈ c) (before : c.idxOf u ≤ c.idxOf v) : ReflTransGen r u v := by
  have boundU := List.idxOf_lt_length_of_mem inU
  have boundV := List.idxOf_lt_length_of_mem inV
  have rest : c.drop (c.idxOf u) = u :: c.drop (c.idxOf u + 1) := by
    rw [List.drop_eq_getElem_cons boundU, List.getElem_idxOf]
  have tail : (u :: c.drop (c.idxOf u + 1)).IsChain r := by
    rw [← rest]
    exact List.IsChain.suffix path (List.drop_suffix _ _)
  refine Relations.isChain_head tail ?_
  rw [← rest, List.mem_drop_iff_getElem]
  refine ⟨c.idxOf v - c.idxOf u, by omega, ?_⟩
  simp [Nat.add_sub_cancel' before]

/-- In an acyclic graph the edges inside a path run forward. -/
theorem Paths.inOrder {g : BoostGraph} {chains : Chains} (paths : Paths g chains)
    (acyclic : Acyclic g.Edge) : InOrder g chains := by
  intro c member u inU v inV edge
  by_contra backward
  have back := isChain_walk (paths c member) inV inU (Nat.le_of_not_lt backward)
  exact acyclic u (.head' edge back)

/-- The list `part` is the stretch of `whole` that begins at position `start`. -/
structure Stretch (whole part : List Nat) (start : Nat) : Prop where
  sub : ∀ v ∈ part, v ∈ whole ∧ whole.idxOf v = start + part.idxOf v
  mem : ∀ v ∈ whole, start ≤ whole.idxOf v → whole.idxOf v < start + part.length → v ∈ part

theorem exists_stretch {whole part : List Nat} (distinct : whole.Nodup) (sub : part.IsInfix whole) :
    ∃ start, Stretch whole part start := by
  obtain ⟨before, after, rfl⟩ := sub
  refine ⟨before.length, ?_, ?_⟩
  · intro v member
    have fresh : v ∉ before := by
      intro early
      rw [List.append_assoc] at distinct
      exact (List.nodup_append.mp distinct).2.2 v early v (by simp [member]) rfl
    refine ⟨by simp [member], ?_⟩
    rw [List.append_assoc, List.idxOf_append_of_notMem fresh, List.idxOf_append_of_mem member]
  · intro v member low high
    rcases List.mem_append.mp member with front | late
    · rcases List.mem_append.mp front with early | inside
      · rw [List.append_assoc, List.idxOf_append_of_mem early] at low
        have := List.idxOf_lt_length_of_mem early
        omega
      · exact inside
    · have fresh : v ∉ before ++ part := fun early =>
        (List.nodup_append.mp distinct).2.2 v early v late rfl
      rw [List.idxOf_append_of_notMem fresh, List.length_append] at high
      omega

namespace Stretch

variable {whole part : List Nat} {start : Nat} (stretch : Stretch whole part start)
include stretch

theorem head_iff {v : Nat} (member : v ∈ part) : part.head? = some v ↔ whole.idxOf v = start := by
  rw [(stretch.sub v member).2]
  constructor
  · intro head
    obtain ⟨rest, rfl⟩ := List.head?_eq_some_iff.mp head
    simp
  · intro first
    by_contra inner
    have := idxOf_pos inner member
    omega

theorem last_iff (distinct : part.Nodup) {v : Nat} (member : v ∈ part) :
    part.getLast? = some v ↔ whole.idxOf v + 1 = start + part.length := by
  rw [(stretch.sub v member).2]
  constructor
  · intro last
    obtain ⟨rest, rfl⟩ := List.getLast?_eq_some_iff.mp last
    have fresh : v ∉ rest := by
      rw [List.nodup_append] at distinct
      exact fun early => distinct.2.2 v early v (by simp) rfl
    rw [List.idxOf_append_of_notMem fresh, List.idxOf_cons_self, List.length_append,
      List.length_singleton]
    omega
  · intro final
    by_contra inner
    have := idxOf_succ_lt member inner
    omega

end Stretch

/-- `u` and `v` are nodes of different chains. -/
def Apart (chains : Chains) (u v : Nat) : Prop :=
  ∃ s t, s ≠ t ∧ InChain chains s u ∧ InChain chains t v

/-- In one chain, `x` stands behind `u` and not behind `v`. -/
def Between (chains : Chains) (u x v : Nat) : Prop :=
  ∃ t, InChain chains t u ∧ InChain chains t x ∧ InChain chains t v ∧
    (chains.getD t []).idxOf u < (chains.getD t []).idxOf x ∧
    (chains.getD t []).idxOf x ≤ (chains.getD t []).idxOf v

/-- In one chain, `w` stands right behind `u`. -/
def Follows (chains : Chains) (u w : Nat) : Prop :=
  ∃ t, InChain chains t u ∧ InChain chains t w ∧
    (chains.getD t []).idxOf w = (chains.getD t []).idxOf u + 1

/-- `w` is a node of a chain, but not its first. -/
def Inner (chains : Chains) (w : Nat) : Prop :=
  ∃ t, InChain chains t w ∧ 0 < (chains.getD t []).idxOf w

/-- `w` is the first node of a chain. -/
def Heads (chains : Chains) (w : Nat) : Prop := ∃ c ∈ chains, c.head? = some w

theorem getD_mem {chains : Chains} {i v : Nat} (inside : InChain chains i v) :
    chains.getD i [] ∈ chains := by
  obtain ⟨c, found, _⟩ := inChain_iff.mp inside
  have whole := getD_of_found found
  exact whole ▸ List.mem_of_getElem? found

theorem Follows.inner {chains : Chains} {u w : Nat} (follows : Follows chains u w) :
    Inner chains w := by
  obtain ⟨t, _, inW, next⟩ := follows
  exact ⟨t, inW, by omega⟩

/-- A node that is not the last of its chain is followed by another. -/
theorem exists_follows {n : Nat} {chains : Chains} (part : Partition n chains) {t u : Nat}
    (inside : InChain chains t u) (inner : (chains.getD t []).getLast? ≠ some u) :
    ∃ w, Follows chains u w ∧ InChain chains t w := by
  have bound := idxOf_succ_lt inside inner
  have member := List.getElem_mem bound
  exact ⟨_, ⟨t, inside, member, (part.chain_nodup t).idxOf_getElem _ _⟩, member⟩

section heads

variable {n : Nat} {chains : Chains} (part : Partition n chains)
include part

theorem heads_iff {j w : Nat} (inside : InChain chains j w) :
    Heads chains w ↔ (chains.getD j []).head? = some w := by
  constructor
  · intro ⟨c, listed, head⟩
    obtain ⟨i, found⟩ := List.mem_iff_getElem?.mp listed
    have whole := getD_of_found found
    have same := part.unique inside (inChain_iff.mpr ⟨c, found, List.mem_of_mem_head? head⟩)
    rw [same, whole]
    exact head
  · intro head
    exact ⟨_, getD_mem inside, head⟩

theorem idxOf_head {j w : Nat} (inside : InChain chains j w) :
    (chains.getD j []).head? = some w ↔ (chains.getD j []).idxOf w = 0 := by
  obtain ⟨start, stretch⟩ := exists_stretch (part.chain_nodup j) List.infix_rfl
  have first := (stretch.sub w inside).2
  rw [stretch.head_iff inside]
  omega

theorem idxOf_last {j w : Nat} (inside : InChain chains j w) :
    (chains.getD j []).getLast? = some w ↔
      (chains.getD j []).idxOf w + 1 = (chains.getD j []).length := by
  obtain ⟨start, stretch⟩ := exists_stretch (part.chain_nodup j) List.infix_rfl
  have first := (stretch.sub w inside).2
  rw [stretch.last_iff (part.chain_nodup j) inside]
  omega

end heads

/-- The chains are parts of those in `base`, which are cut at most at the nodes
of `cut`. -/
structure CutBy (g : BoostGraph) (base chains : Chains) (cut : Nat → Prop) : Prop where
  part : Partition g.numVertices chains
  refines : Refines base chains
  heads : ∀ w, Heads chains w → Inner base w → cut w

theorem Partition.cutBy {g : BoostGraph} {base : Chains} (basePart : Partition g.numVertices base)
    (cut : Nat → Prop) : CutBy g base base cut := by
  refine ⟨basePart, Refines.refl base, ?_⟩
  intro w head ⟨t, inside, deep⟩
  rw [heads_iff basePart inside, idxOf_head basePart inside] at head
  omega

/-- The node that a chain is split at begins the new chain. -/
theorem heads_splitChain {chains : Chains} {j w : Nat} (inside : InChain chains j w) :
    Heads (splitChain chains j ((chains.getD j []).idxOf w)) w := by
  refine ⟨_, List.mem_append_right _ (List.mem_singleton.mpr rfl), ?_⟩
  rw [List.head?_drop, List.getElem?_idxOf inside]

namespace CutBy

variable {g : BoostGraph} {base chains : Chains} {cut : Nat → Prop}

theorem mono (parts : CutBy g base chains cut) {more : Nat → Prop} (sub : ∀ w, cut w → more w) :
    CutBy g base chains more :=
  ⟨parts.part, parts.refines, fun w head inner => sub w (parts.heads w head inner)⟩

/-- A further cut, at a node of `cut`. The nodes that begin a chain still do. -/
theorem split (parts : CutBy g base chains cut) {j w : Nat} (inside : InChain chains j w)
    (deep : 0 < (chains.getD j []).idxOf w) (isCut : cut w) :
    CutBy g base (splitChain chains j ((chains.getD j []).idxOf w)) cut ∧
      ∀ x, Heads chains x → Heads (splitChain chains j ((chains.getD j []).idxOf w)) x := by
  have bound := List.idxOf_lt_length_of_mem inside
  have splits : Splits chains (splitChain chains j ((chains.getD j []).idxOf w)) :=
    ⟨j, _, deep, bound, rfl⟩
  have front : ((chains.getD j []).take ((chains.getD j []).idxOf w)).head? =
      (chains.getD j []).head? := by
    rw [List.head?_take, if_neg (by omega)]
  have back : ((chains.getD j []).drop ((chains.getD j []).idxOf w)).head? = some w := by
    rw [List.head?_drop, List.getElem?_idxOf inside]
  refine ⟨⟨splits.partition parts.part, parts.refines.trans splits.refines, ?_⟩, ?_⟩
  · intro x ⟨c, member, head⟩ inner
    rcases List.mem_append.mp member with old | new
    · rcases List.mem_or_eq_of_mem_set old with old | rfl
      · exact parts.heads x ⟨c, old, head⟩ inner
      · exact parts.heads x ⟨_, getD_mem inside, front ▸ head⟩ inner
    · rw [List.mem_singleton.mp new, back] at head
      cases head
      exact isCut
  · intro x ⟨c, member, head⟩
    obtain ⟨i, found⟩ := List.mem_iff_getElem?.mp member
    have whole := getD_of_found found
    by_cases same : j = i
    · subst same
      refine ⟨_, List.mem_append_left _ (List.mem_set inside.lt_length _), ?_⟩
      rw [front, whole]
      exact head
    · refine ⟨c, List.mem_append_left _ (List.mem_of_getElem? (i := i) ?_), head⟩
      rw [List.getElem?_set_ne same]
      exact found

variable (parts : CutBy g base chains cut) (basePart : Partition g.numVertices base)
include parts basePart

/-- Every chain is a stretch of the chain of `base` that it comes from. -/
theorem stretch {j m v : Nat} (inside : InChain chains j v) (inBase : InChain base m v) :
    ∃ start, Stretch (base.getD m []) (chains.getD j []) start := by
  obtain ⟨d, listed, sub⟩ := parts.refines _ (getD_mem inside)
  obtain ⟨i, found⟩ := List.mem_iff_getElem?.mp listed
  have whole := getD_of_found found
  have same := basePart.unique inBase (inChain_iff.mpr ⟨d, found, sub.subset inside⟩)
  rw [same, whole]
  exact exists_stretch (whole ▸ basePart.chain_nodup i) sub

/-- Two nodes that no stretch holds together are apart. -/
theorem apart_of_stretch {u v m n : Nat} (inU : InChain base m u) (inV : InChain base n v)
    (never : ∀ s start, Stretch (base.getD m []) (chains.getD s []) start →
      InChain chains s u → ¬ InChain chains s v) : Apart chains u v := by
  obtain ⟨s, atU⟩ := parts.part.exists_chain (basePart.lt inU)
  obtain ⟨t, atV⟩ := parts.part.exists_chain (basePart.lt inV)
  refine ⟨s, t, ?_, atU, atV⟩
  intro same
  subst same
  obtain ⟨start, stretch⟩ := parts.stretch basePart atU inU
  exact never s start stretch atU atV

theorem apart_of_apart {u v : Nat} (apart : Apart base u v) : Apart chains u v := by
  obtain ⟨m, n, differ, inU, inV⟩ := apart
  apply parts.apart_of_stretch basePart inU inV
  intro s start stretch _ atV
  exact differ (basePart.unique (stretch.sub v atV).1 inV)

/-- Two nodes are apart once a node between them begins a chain. -/
theorem apart_of_between {u x v : Nat} (between : Between base u x v) (head : Heads chains x) :
    Apart chains u v := by
  obtain ⟨m, inU, inX, inV, after, upTo⟩ := between
  apply parts.apart_of_stretch basePart inU inV
  intro s start stretch atU atV
  have first := (stretch.sub u atU).2
  have last := (stretch.sub v atV).2
  have bound := List.idxOf_lt_length_of_mem atV
  have atX : InChain chains s x := stretch.mem x inX (by omega) (by omega)
  have begins := (stretch.head_iff atX).mp ((heads_iff parts.part atX).mp head)
  omega

/-- Two nodes of one chain of `base` are apart by a node of `cut` between them. -/
theorem between_of_apart {u v n : Nat} (inU : InChain base n u) (inV : InChain base n v)
    (forward : (base.getD n []).idxOf u < (base.getD n []).idxOf v) (apart : Apart chains u v) :
    ∃ x, Between base u x v ∧ cut x := by
  obtain ⟨s, t, differ, atU, atV⟩ := apart
  obtain ⟨start, stretch⟩ := parts.stretch basePart atV inV
  obtain ⟨x, head⟩ : ∃ x, (chains.getD t []).head? = some x :=
    ⟨_, List.head?_eq_some_head (List.ne_nil_of_mem atV)⟩
  have atX : InChain chains t x := List.mem_of_mem_head? head
  have first := (stretch.head_iff atX).mp head
  have position := (stretch.sub v atV).2
  have bound := List.idxOf_lt_length_of_mem atV
  have early : (base.getD n []).idxOf u < start := by
    by_contra late
    have both : InChain chains t u := stretch.mem u inU (by omega) (by omega)
    exact differ (parts.part.unique atU both)
  have inX := (stretch.sub x atX).1
  refine ⟨x, ⟨n, inU, inX, inV, by omega, by omega⟩, ?_⟩
  exact parts.heads x ((heads_iff parts.part atX).mpr head) ⟨n, inX, by omega⟩

/-- An edge between two chains was one in `base`, or leads over a node that
begins a chain since. -/
theorem apart_cases (ordered : InOrder g base) {u v : Nat} (edge : g.Edge u v)
    (apart : Apart chains u v) :
    Apart base u v ∨ ∃ x, Between base u x v ∧ cut x := by
  obtain ⟨n, inU⟩ := basePart.exists_chain edge.bounds.1
  obtain ⟨m, inV⟩ := basePart.exists_chain edge.bounds.2
  by_cases same : n = m
  · subst same
    have forward := ordered _ (getD_mem inU) u inU v inV edge
    exact .inr (parts.between_of_apart basePart inU inV forward apart)
  · exact .inl ⟨n, m, same, inU, inV⟩

/-- A node is the last of its chain when the next one begins a chain. -/
theorem heads_iff_last {s u w : Nat} (follows : Follows base u w) (atU : InChain chains s u) :
    Heads chains w ↔ (chains.getD s []).getLast? = some u := by
  obtain ⟨m, inU, inW, next⟩ := follows
  obtain ⟨j, atW⟩ := parts.part.exists_chain (basePart.lt inW)
  obtain ⟨start, stretch⟩ := parts.stretch basePart atU inU
  have distinct := parts.part.chain_nodup s
  have position := (stretch.sub u atU).2
  have bound := List.idxOf_lt_length_of_mem atU
  rw [stretch.last_iff distinct atU, heads_iff parts.part atW]
  constructor
  · intro head
    by_contra inner
    have also : InChain chains s w := stretch.mem w inW (by omega) (by omega)
    have same := parts.part.unique atW also
    subst same
    have := (stretch.head_iff also).mp head
    omega
  · intro last
    obtain ⟨begin, other⟩ := parts.stretch basePart atW inW
    have place := (other.sub w atW).2
    have short := List.idxOf_lt_length_of_mem atW
    rw [other.head_iff atW]
    by_contra inner
    have also : InChain chains j u := other.mem u inU (by omega) (by omega)
    have same := parts.part.unique atU also
    subst same
    have inside := (stretch.sub w atW).2
    omega

/-- The last node of a chain of `base` stays the last of its chain. -/
theorem last_of_last {m s u : Nat} (inU : InChain base m u)
    (isLast : (base.getD m []).getLast? = some u) (atU : InChain chains s u) :
    (chains.getD s []).getLast? = some u := by
  by_contra inner
  obtain ⟨w, ⟨j, alsoU, _, next⟩, atW⟩ := exists_follows parts.part atU inner
  have same := parts.part.unique alsoU atU
  subst same
  obtain ⟨start, stretch⟩ := parts.stretch basePart atU inU
  have ends := (idxOf_last basePart inU).mp isLast
  have placeU := (stretch.sub u atU).2
  obtain ⟨inW, placeW⟩ := stretch.sub w atW
  have bound := List.idxOf_lt_length_of_mem inW
  omega

end CutBy

/-- The nodes at which a pass cuts the chains. For an edge from `u` to `v`
between two chains it cuts at the node `w` with `place u v w`; two nodes of one
chain get into different chains by the cuts of `before` and by its own. -/
inductive CutsAt (g : BoostGraph) (chains : Chains) (place : Nat → Nat → Nat → Prop)
    (before : Nat → Prop) : Nat → Prop
  | cross {u v w : Nat} : g.Edge u v → Apart chains u v → place u v w →
      CutsAt g chains place before w
  | earlier {u x v w : Nat} : g.Edge u v → Between chains u x v → before x → place u v w →
      CutsAt g chains place before w
  | later {u x v w : Nat} : g.Edge u v → Between chains u x v → CutsAt g chains place before x →
      place u v w → CutsAt g chains place before w

/-- The live-out pass cuts behind the source of an edge. -/
def LiveOutCut (g : BoostGraph) (chains : Chains) : Nat → Prop :=
  CutsAt g chains (fun u _ w => Follows chains u w) (fun _ => False)

/-- The live-in pass, which comes second, cuts before the target of an edge. -/
def LiveInCut (g : BoostGraph) (chains : Chains) : Nat → Prop :=
  CutsAt g chains (fun _ v w => w = v ∧ Inner chains v) (LiveOutCut g chains)

/-- Where an edge inside a chain leads over a cut of the live-in pass, one of
the passes also cuts right behind the source of the edge. -/
def CutsAligned (g : BoostGraph) (chains : Chains) : Prop :=
  ∀ u x v w, g.Edge u v → Between chains u x v → LiveInCut g chains x → Follows chains u w →
    LiveOutCut g chains w ∨ LiveInCut g chains w

/-- What one cut of a helper must be for `CutsAt`: it separates the ends of an
edge between two of the current chains, at the place of the pass. -/
def CutsOne (g : BoostGraph) (place : Nat → Nat → Nat → Prop) (chains next : Chains) : Prop :=
  ∃ j u v w, g.Edge u v ∧ Apart chains u v ∧ place u v w ∧ InChain chains j w ∧
    0 < (chains.getD j []).idxOf w ∧ next = splitChain chains j ((chains.getD j []).idxOf w)

/-- An invariant of a break loop: every round keeps it, whatever the helper does
with the dependencies of the current chains. -/
theorem breakLoop_keeps {helper : Chains → List ChainDependency → BoostGraph → Option Chains}
    {g : BoostGraph} (inv : Chains → Prop)
    (step : ∀ chains dependencies next, inv chains →
      dependenciesGenerate g chains (vertexToChainMap chains) = .ok dependencies →
      helper chains dependencies g = some next → inv next) {final : Chains} (rounds : Nat) :
    ∀ chains, inv chains → breakLoop helper g rounds chains = .ok final → inv final := by
  induction rounds with
  | zero => intro chains _ returned; cases returned
  | succ rounds ih =>
    intro chains holds returned
    unfold breakLoop at returned
    obtain ⟨dependencies, generated, returned⟩ := Loops.bind_eq_ok.mp returned
    split at returned
    · cases returned
      exact holds
    · rename_i next broke
      exact ih next (step chains dependencies next holds generated broke) returned

section pass

variable {g : BoostGraph} {base : Chains} {place : Nat → Nat → Nat → Prop} {before : Nat → Prop}
  (basePart : Partition g.numVertices base)
include basePart

/-- An edge between two of the current chains gives a cut of the pass. -/
theorem CutBy.cutsAt {chains : Chains} (ordered : InOrder g base)
    (parts : CutBy g base chains fun w => before w ∨ CutsAt g base place before w) {u v w : Nat}
    (edge : g.Edge u v) (apart : Apart chains u v) (placed : place u v w) :
    CutsAt g base place before w := by
  rcases parts.apart_cases basePart ordered edge apart with cross | ⟨x, between, old | new⟩
  · exact .cross edge cross placed
  · exact .earlier edge between old placed
  · exact .later edge between new placed

/-- Where the pass has nothing left to cut, every node of `CutsAt` begins a chain. -/
theorem CutsAt.heads {final : Chains} {cut : Nat → Prop} (parts : CutBy g base final cut)
    (kept : ∀ x, before x → Heads final x)
    (done : ∀ u v w, g.Edge u v → Apart final u v → place u v w → Heads final w) {w : Nat}
    (isCut : CutsAt g base place before w) : Heads final w := by
  induction isCut with
  | cross edge apart placed => exact done _ _ _ edge (parts.apart_of_apart basePart apart) placed
  | earlier edge between old placed =>
    exact done _ _ _ edge (parts.apart_of_between basePart between (kept _ old)) placed
  | later edge between _ placed ih =>
    exact done _ _ _ edge (parts.apart_of_between basePart between ih) placed

end pass

/-- A break loop cuts at nodes of `cut` only, when those are closed under the cuts
of the pass. -/
theorem breakLoop_cutBy {helper : Chains → List ChainDependency → BoostGraph → Option Chains}
    {g : BoostGraph} {base : Chains} {place : Nat → Nat → Nat → Prop} {before cut : Nat → Prop}
    (closed : ∀ {chains u v w}, CutBy g base chains cut → g.Edge u v → Apart chains u v →
      place u v w → cut w)
    (found : ∀ {chains dependencies next}, CutBy g base chains cut →
      dependenciesGenerate g chains (vertexToChainMap chains) = .ok dependencies →
      helper chains dependencies g = some next → CutsOne g place chains next)
    {rounds : Nat} {chains final : Chains} (parts : CutBy g base chains cut)
    (kept : ∀ x, before x → Heads chains x)
    (returned : breakLoop helper g rounds chains = .ok final) :
    CutBy g base final cut ∧ ∀ x, before x → Heads final x := by
  let inv : Chains → Prop := fun current =>
    CutBy g base current cut ∧ ∀ x, before x → Heads current x
  refine breakLoop_keeps inv ?_ rounds chains ⟨parts, kept⟩ returned
  intro current dependencies next ⟨parts, kept⟩ generated broke
  obtain ⟨j, u, v, w, edge, apart, placed, inside, deep, rfl⟩ := found parts generated broke
  obtain ⟨more, stay⟩ := parts.split inside deep (closed parts edge apart placed)
  exact ⟨more, fun x old => stay x (kept x old)⟩

theorem breakOutHelper_cutsOne {g : BoostGraph} {base chains next : Chains} {cut : Nat → Prop}
    (basePart : Partition g.numVertices base) (parts : CutBy g base chains cut)
    {dependencies : List ChainDependency}
    (generated : dependenciesGenerate g chains (vertexToChainMap chains) = .ok dependencies)
    (broke : breakOutHelper chains dependencies g = some next) :
    CutsOne g (fun u _ w => Follows base u w) chains next := by
  obtain ⟨dep, listed, broke⟩ := List.exists_of_findSome?_eq_some broke
  obtain ⟨u, atU, broke⟩ := List.exists_of_findSome?_eq_some broke
  have depends := (mem_dependencies parts.part generated).mp listed
  split at broke
  · cases broke
  · rename_i inner
    split at broke
    · rename_i leaves
      obtain ⟨v, edge, atV⟩ := List.any_eq_true.mp leaves
      cases broke
      obtain ⟨w, ⟨s, alsoU, alsoW, next⟩, atW⟩ := exists_follows parts.part atU inner
      obtain ⟨m, inU⟩ := basePart.exists_chain (parts.part.lt atU)
      obtain ⟨start, stretch⟩ := parts.stretch basePart atU inU
      have same := parts.part.unique alsoU atU
      subst same
      have placeU := (stretch.sub u atU).2
      have placeW := (stretch.sub w atW).2
      refine ⟨dep.source, u, v, w, edge, ⟨_, _, depends.1, atU, of_decide_eq_true atV⟩,
        ⟨m, inU, (stretch.sub w atW).1, by omega⟩, atW, by omega, ?_⟩
      rw [next]
    · cases broke

theorem breakInHelper_cutsOne {g : BoostGraph} {base chains next : Chains} {cut : Nat → Prop}
    (basePart : Partition g.numVertices base) (parts : CutBy g base chains cut)
    {dependencies : List ChainDependency}
    (generated : dependenciesGenerate g chains (vertexToChainMap chains) = .ok dependencies)
    (broke : breakInHelper chains dependencies g = some next) :
    CutsOne g (fun _ v w => w = v ∧ Inner base v) chains next := by
  obtain ⟨dep, listed, broke⟩ := List.exists_of_findSome?_eq_some broke
  obtain ⟨u, atU, broke⟩ := List.exists_of_findSome?_eq_some broke
  obtain ⟨v, edge, broke⟩ := List.exists_of_findSome?_eq_some broke
  have depends := (mem_dependencies parts.part generated).mp listed
  split at broke
  · cases broke
  · rename_i inner
    split at broke
    · rename_i atV
      cases broke
      have deep := idxOf_pos inner atV
      obtain ⟨m, inV⟩ := basePart.exists_chain (parts.part.lt atV)
      obtain ⟨start, stretch⟩ := parts.stretch basePart atV inV
      have place := (stretch.sub v atV).2
      exact ⟨dep.target, u, v, v, edge, ⟨_, _, depends.1, atU, atV⟩,
        ⟨rfl, m, inV, by omega⟩, atV, deep, rfl⟩
    · cases broke

/-- After the live-out pass the chains are cut exactly at `LiveOutCut`. -/
theorem breakEveryLiveOut_cuts {g : BoostGraph} {chains : Chains}
    (part : Partition g.numVertices chains) (ordered : InOrder g chains) :
    ∃ mid, breakEveryLiveOut g chains = .ok mid ∧ CutBy g chains mid (LiveOutCut g chains) ∧
      ∀ w, LiveOutCut g chains w → Heads mid w := by
  obtain ⟨mid, returned, last, _⟩ := breakEveryLiveOut_total part
  obtain ⟨mids, _⟩ : CutBy g chains mid (LiveOutCut g chains) ∧ ∀ x, False → Heads mid x :=
    breakLoop_cutBy
      (fun parts edge apart placed =>
        (parts.mono fun _ => .inr).cutsAt part ordered edge apart placed)
      (fun parts => breakOutHelper_cutsOne part parts) (part.cutBy _) (fun _ none => none.elim)
      returned
  refine ⟨mid, returned, mids, ?_⟩
  intro w isCut
  refine CutsAt.heads part mids (fun _ none => none.elim) ?_ isCut
  intro u v w edge ⟨s, t, differ, atU, atV⟩ follows
  rw [mids.heads_iff_last part follows atU]
  exact last s t u v differ atU atV edge

/-- After the live-in pass they are cut exactly at the nodes of either pass. -/
theorem breakEveryLiveIn_cuts {g : BoostGraph} {chains mid : Chains}
    (part : Partition g.numVertices chains) (ordered : InOrder g chains)
    (mids : CutBy g chains mid (LiveOutCut g chains))
    (kept : ∀ w, LiveOutCut g chains w → Heads mid w) :
    ∃ final, breakEveryLiveIn g mid = .ok final ∧ LiveInFirst g final ∧
      CutBy g chains final (fun w => LiveOutCut g chains w ∨ LiveInCut g chains w) ∧
      ∀ w, LiveOutCut g chains w ∨ LiveInCut g chains w → Heads final w := by
  obtain ⟨final, returned, first, _⟩ := breakEveryLiveIn_total mids.part
  obtain ⟨parts, stay⟩ :
      CutBy g chains final (fun w => LiveOutCut g chains w ∨ LiveInCut g chains w) ∧
        ∀ x, LiveOutCut g chains x → Heads final x :=
    breakLoop_cutBy
      (fun parts edge apart placed => .inr (parts.cutsAt part ordered edge apart placed))
      (fun parts => breakInHelper_cutsOne part parts) (mids.mono fun _ => .inl) kept returned
  refine ⟨final, returned, first, parts, ?_⟩
  intro w either
  rcases either with old | new
  · exact stay w old
  · refine CutsAt.heads part parts stay ?_ new
    intro u v x edge ⟨s, t, differ, atU, atV⟩ ⟨isTarget, _⟩
    rw [isTarget, heads_iff parts.part atV]
    exact first s t u v differ atU atV edge

/-- Every edge between two chains goes from the last node of the one to the
first node of the other. -/
def LastToFirst (g : BoostGraph) (chains : Chains) : Prop :=
  ∀ s t u v, s ≠ t → InChain chains s u → InChain chains t v → g.Edge u v →
    (chains.getD s []).getLast? = some u ∧ (chains.getD t []).head? = some v

section bothPasses

variable {g : BoostGraph} {chains final : Chains} (part : Partition g.numVertices chains)
  (parts : CutBy g chains final fun w => LiveOutCut g chains w ∨ LiveInCut g chains w)
include part parts

theorem liveOutLast_of_aligned (ordered : InOrder g chains) (aligned : CutsAligned g chains)
    (cuts : ∀ w, LiveOutCut g chains w ∨ LiveInCut g chains w → Heads final w) :
    LiveOutLast g final := by
  intro s t u v differ atU atV edge
  obtain ⟨m, inU⟩ := part.exists_chain edge.bounds.1
  by_cases isLast : (chains.getD m []).getLast? = some u
  · exact parts.last_of_last part inU isLast atU
  · obtain ⟨w, follows, _⟩ := exists_follows part inU isLast
    rw [← parts.heads_iff_last part follows atU]
    apply cuts
    rcases parts.apart_cases part ordered edge ⟨s, t, differ, atU, atV⟩ with
      cross | ⟨x, between, liveOut | liveIn⟩
    · exact .inl (.cross edge cross follows)
    · exact .inl (.later edge between liveOut follows)
    · exact aligned u x v w edge between liveIn follows

theorem aligned_of_liveOutLast (last : LiveOutLast g final)
    (cuts : ∀ w, LiveOutCut g chains w ∨ LiveInCut g chains w → Heads final w) :
    CutsAligned g chains := by
  intro u x v w edge between isCut follows
  obtain ⟨s, t, differ, atU, atV⟩ := parts.apart_of_between part between (cuts x (.inr isCut))
  have isLast := last s t u v differ atU atV edge
  rw [← parts.heads_iff_last part follows atU] at isLast
  exact parts.heads w isLast follows.inner

end bothPasses

/-- After the two passes, each made once, every edge between two chains goes from
a last to a first node exactly when the cuts of the live-in pass are aligned: it
separates the ends of inner edges, and the live-out pass does not come again. -/
theorem break_passes_iff (param : GraphParam) (liveOut : param.breakLiveOut ≠ 0)
    (liveIn : param.breakLiveIn ≠ 0) (g : BoostGraph) (acyclic : Acyclic g.Edge) (chains : Chains)
    (part : Partition g.numVertices chains) (paths : Paths g chains) :
    ∃ final, breakPasses param g chains = .ok final ∧
      (LastToFirst g final ↔ CutsAligned g chains) := by
  have ordered := paths.inOrder acyclic
  obtain ⟨mid, out, mids, kept⟩ := breakEveryLiveOut_cuts part ordered
  obtain ⟨final, returned, first, parts, cuts⟩ := breakEveryLiveIn_cuts part ordered mids kept
  refine ⟨final, ?_, ?_⟩
  · unfold breakPasses liveOutPass liveInPass
    rw [if_pos liveOut, out]
    show (if param.breakLiveIn ≠ 0 then _ else _) = _
    rw [if_pos liveIn]
    exact returned
  · constructor
    · intro edges
      refine aligned_of_liveOutLast part parts ?_ cuts
      intro s t u v differ atU atV edge
      exact (edges s t u v differ atU atV edge).1
    · intro aligned s t u v differ atU atV edge
      exact ⟨liveOutLast_of_aligned part parts ordered aligned cuts s t u v differ atU atV edge,
        first s t u v differ atU atV edge⟩

theorem break_passes_crossingPaths :
    ∃ final, breakPasses ⟨1, 1, 0, 3⟩ crossingPaths [[0, 2], [1, 3]] = .ok final ∧
      (LastToFirst crossingPaths final ↔ CutsAligned crossingPaths [[0, 2], [1, 3]]) := by
  apply break_passes_iff
  · decide
  · decide
  · refine Acyclic.of_lt id fun u v edge => ?_
    have increasing : ∀ e ∈ crossingPaths.edges, e.1 < e.2 := by decide
    exact increasing (u, v) ((crossingPaths.edge_iff u v).mp edge)
  · unfold Partition
    decide
  · unfold Paths
    decide

/-- The chain of vertices 1, 2 and 4 has an edge over vertex 2, and vertex 3,
outside it, an edge to vertex 4. -/
def skippingEdge : BoostGraph where
  vertices := [⟨0, ⟨.bb, 0⟩, 0, .bb⟩, ⟨1, ⟨.other "Add", 1⟩, 1, .other "Add"⟩,
    ⟨2, ⟨.other "Add", 2⟩, 1, .other "Add"⟩, ⟨3, ⟨.other "Mul", 3⟩, 2, .other "Mul"⟩,
    ⟨4, ⟨.other "Add", 4⟩, 1, .other "Add"⟩]
  edges := [(0, 1), (0, 3), (1, 2), (1, 4), (2, 4), (3, 4)]
  bounded := by decide

/-- The live-in pass cuts before vertex 4, which leaves the edge from vertex 1 in
the middle of its chain. -/
theorem skippingEdge_not_lastToFirst :
    startChains skippingEdge = [[0], [1, 2, 4], [3]] ∧
      Partition skippingEdge.numVertices [[0], [1, 2, 4], [3]] ∧
      Paths skippingEdge [[0], [1, 2, 4], [3]] ∧ Acyclic skippingEdge.Edge ∧
      breakPasses ⟨1, 1, 0, 3⟩ skippingEdge [[0], [1, 2, 4], [3]] = .ok [[0], [1, 2], [3], [4]] ∧
      ¬ LastToFirst skippingEdge [[0], [1, 2], [3], [4]] := by
  refine ⟨by decide +kernel, by unfold Partition; decide, by unfold Paths; decide, ?_,
    by decide +kernel, ?_⟩
  · refine Acyclic.of_lt id fun u v edge => ?_
    have increasing : ∀ e ∈ skippingEdge.edges, e.1 < e.2 := by decide
    exact increasing (u, v) ((skippingEdge.edge_iff u v).mp edge)
  · intro edges
    have wrong := (edges 1 3 1 4 (by decide) (by decide) (by decide) (by decide)).1
    exact absurd wrong (by decide)

end ChainSaw
