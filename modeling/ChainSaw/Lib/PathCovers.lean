import Mathlib.Data.List.Chain
import Mathlib.Data.List.Nodup
import Mathlib.Data.List.Perm.Subperm
import Mathlib.Data.Set.Insert
import ChainSaw.Lib.Acyclic

set_option autoImplicit false

/- Vertices joined by a partial injection `next`, and lists of vertices that
follow it. The links of a partial injection without cycles are disjoint paths;
a greedy sweep starts a walk at each vertex that has no place yet and stops it
at the first vertex that has one. -/
namespace PathCovers

open Relation (TransGen ReflTransGen)
open Relations (Acyclic)

variable {α : Type} {next : α → Option α}

def Linked (next : α → Option α) (u v : α) : Prop := next u = some v

/-- No two vertices are linked to the same one. -/
def Injective (next : α → Option α) : Prop :=
  ∀ ⦃u v w⦄, next u = some w → next v = some w → u = v

/-- Nothing is linked to `v`. -/
def Source (next : α → Option α) (v : α) : Prop := ∀ u, next u ≠ some v

/-- A vertex is reached from one source at most. -/
theorem Source.unique (injective : Injective next) {s t v : α} (first : Source next s)
    (second : Source next t) (fromS : ReflTransGen (Linked next) s v)
    (fromT : ReflTransGen (Linked next) t v) : s = t := by
  induction fromS with
  | refl =>
    rcases ReflTransGen.cases_tail fromT with same | ⟨u, _, link⟩
    · exact same
    · exact absurd link (first u)
  | tail _ link ih =>
    rcases ReflTransGen.cases_tail fromT with same | ⟨u, walk, link'⟩
    · subst same
      exact absurd link (second _)
    · rw [injective link' link] at walk
      exact ih walk

/-- Among finitely many linked vertices without a cycle, walks begin at sources. -/
theorem exists_source (acyclic : Acyclic (Linked next)) {linked : List α}
    (listed : ∀ u, next u ≠ none → u ∈ linked) (v : α) :
    ∃ s, Source next s ∧ ReflTransGen (Linked next) s v := by
  classical
  let before := (v :: linked).filter fun u => ReflTransGen (Linked next) u v
  have self : v ∈ before := List.mem_filter.mpr ⟨by simp, decide_eq_true .refl⟩
  obtain ⟨s, inside, least⟩ := acyclic.exists_minimal (List.ne_nil_of_mem self)
  have walk : ReflTransGen (Linked next) s v := of_decide_eq_true (List.mem_filter.mp inside).2
  refine ⟨s, ?_, walk⟩
  intro u link
  have inLinked : u ∈ linked := listed u (by rw [link]; exact Option.some_ne_none s)
  apply least u _ link
  exact List.mem_filter.mpr ⟨by simp [inLinked], decide_eq_true (.head link walk)⟩

/-- The vertices that a walk from `v` finds a place for: it follows the links
until it meets a vertex of `seen` or one without a link. -/
inductive Walk (next : α → Option α) : Set α → α → List α → Prop
  | placed {seen : Set α} {v : α} (old : v ∈ seen) : Walk next seen v []
  | last {seen : Set α} {v : α} (fresh : v ∉ seen) (unlinked : next v = none) :
      Walk next seen v [v]
  | step {seen : Set α} {v w : α} {rest : List α} (fresh : v ∉ seen) (link : next v = some w)
      (walk : Walk next (insert v seen) w rest) : Walk next seen v (v :: rest)

theorem Walk.head {seen : Set α} {v : α} {found : List α} (walk : Walk next seen v found)
    (fresh : v ∉ seen) : found.head? = some v := by
  cases walk with
  | placed old => exact absurd old fresh
  | last _ _ => rfl
  | step _ _ _ => rfl

theorem Walk.isChain {seen : Set α} {v : α} {found : List α} (walk : Walk next seen v found) :
    found.IsChain (Linked next) := by
  induction walk with
  | placed old => exact List.isChain_nil
  | last fresh unlinked => exact List.isChain_singleton _
  | step fresh link walk ih =>
    apply List.isChain_cons.mpr
    refine ⟨?_, ih⟩
    intro u first
    cases walk with
    | placed old => cases first
    | last _ _ => cases first; exact link
    | step _ _ _ => cases first; exact link

theorem Walk.fresh {seen : Set α} {v : α} {found : List α} (walk : Walk next seen v found) :
    found.Nodup ∧ ∀ u ∈ found, u ∉ seen := by
  induction walk with
  | placed old => simp
  | last fresh unlinked => simpa using fresh
  | step fresh link walk ih =>
    refine ⟨List.nodup_cons.mpr ⟨fun again => ih.2 _ again (Set.mem_insert _ _), ih.1⟩, ?_⟩
    intro u inside
    rcases List.mem_cons.mp inside with rfl | later
    · exact fresh
    · exact fun old => ih.2 u later (Set.mem_insert_of_mem _ old)

/-- A walk leaves no link that goes out of what it has placed. -/
theorem Walk.closed {seen : Set α} {v : α} {found : List α} (walk : Walk next seen v found) :
    (v ∈ seen ∨ v ∈ found) ∧
      ∀ u ∈ found, ∀ w, next u = some w → w ∈ seen ∨ w ∈ found := by
  induction walk with
  | placed old => exact ⟨.inl old, by simp⟩
  | last fresh unlinked =>
    refine ⟨.inr (by simp), ?_⟩
    intro u inside w link
    rw [List.mem_singleton.mp inside, unlinked] at link
    cases link
  | @step seen v w rest fresh link walk ih =>
    have widen : ∀ x, x ∈ insert v seen ∨ x ∈ rest → x ∈ seen ∨ x ∈ v :: rest := by
      intro x placed
      rcases placed with (rfl | old) | later
      · exact .inr (by simp)
      · exact .inl old
      · exact .inr (by simp [later])
    refine ⟨.inr (by simp), ?_⟩
    intro u inside x link'
    rcases List.mem_cons.mp inside with rfl | later
    · rw [link] at link'
      cases link'
      exact widen _ ih.1
    · exact widen x (ih.2 u later x link')

/-- The elements of some lists are their heads and what follows the heads. -/
theorem flatten_perm_heads (chains : List (List α)) :
    chains.flatten.Perm (chains.filterMap List.head? ++ chains.flatMap List.tail) := by
  induction chains with
  | nil => exact List.Perm.refl _
  | cons c rest ih =>
    cases c with
    | nil =>
      rw [List.filterMap_cons_none List.head?_nil]
      exact ih
    | cons h c =>
      simp only [List.flatten_cons, List.filterMap_cons, List.head?_cons, List.flatMap_cons,
        List.tail_cons, List.cons_append]
      apply List.Perm.cons
      have swap : (c ++ (rest.filterMap List.head? ++ rest.flatMap List.tail)).Perm
          (rest.filterMap List.head? ++ (c ++ rest.flatMap List.tail)) := by
        rw [← List.append_assoc, ← List.append_assoc]
        exact List.Perm.append_right _ List.perm_append_comm
      exact (ih.append_left c).trans swap

theorem length_heads {chains : List (List α)} (nonempty : ∀ c ∈ chains, c ≠ []) :
    (chains.filterMap List.head?).length = chains.length := by
  induction chains with
  | nil => rfl
  | cons c rest ih =>
    obtain ⟨h, tail, rfl⟩ := List.exists_cons_of_ne_nil (nonempty c (by simp))
    rw [List.filterMap_cons_some (List.head?_cons ..), List.length_cons, List.length_cons,
      ih fun c member => nonempty c (by simp [member])]

theorem exists_linked {c : List α} (path : c.IsChain (Linked next)) {v : α} (inside : v ∈ c.tail) :
    ∃ u, next u = some v := by
  cases c with
  | nil => cases inside
  | cons h c =>
    obtain ⟨before, after, split⟩ := List.append_of_mem inside
    rw [List.tail_cons] at split
    obtain ⟨front, u, shape⟩ : ∃ front u, h :: before = front ++ [u] :=
      ⟨_, _, (List.dropLast_append_getLast (List.cons_ne_nil h before)).symm⟩
    have whole : h :: c = front ++ u :: v :: after := by
      rw [split, ← List.cons_append, shape, List.append_assoc]
      rfl
    rw [whole] at path
    exact ⟨u, (List.isChain_append_cons_cons.mp path).2.1⟩

section Counting

variable {chains : List (List α)} {targets : List α} (nonempty : ∀ c ∈ chains, c ≠ [])
  (distinct : chains.flatten.Nodup) (paths : ∀ c ∈ chains, c.IsChain (Linked next))
  (listed : ∀ v, v ∈ targets ↔ ∃ u, next u = some v)

include distinct paths listed in
theorem tails_subperm : (chains.flatMap List.tail).Subperm targets := by
  have both := (flatten_perm_heads chains).nodup_iff.mp distinct
  apply List.subperm_of_subset (List.nodup_append.mp both).2.1
  intro v inside
  obtain ⟨c, member, inside⟩ := List.mem_flatMap.mp inside
  exact (listed v).mpr (exists_linked (paths c member) inside)

include nonempty in
theorem length_add_tails :
    chains.length + (chains.flatMap List.tail).length = chains.flatten.length := by
  rw [(flatten_perm_heads chains).length_eq, List.length_append, length_heads nonempty]

include nonempty distinct paths listed in
/-- No cover by paths has fewer paths than vertices without a link to them. -/
theorem length_flatten_le : chains.flatten.length ≤ chains.length + targets.length := by
  have fewer := (tails_subperm distinct paths listed).length_le
  have whole := length_add_tails nonempty
  omega

include nonempty distinct paths listed in
/-- A cover uses every link exactly when each of its paths begins at a source. -/
theorem length_eq_iff (single : targets.Nodup) (covered : ∀ v ∈ targets, v ∈ chains.flatten) :
    chains.length + targets.length = chains.flatten.length ↔
      ∀ c ∈ chains, ∀ h, c.head? = some h → Source next h := by
  have whole := length_add_tails nonempty
  have within := tails_subperm distinct paths listed
  have split := flatten_perm_heads chains
  have apart := (List.nodup_append.mp (split.nodup_iff.mp distinct)).2.2
  constructor
  · intro count c member h head u link
    have all : (chains.flatMap List.tail).Perm targets := within.perm_of_length_le (by omega)
    have inTail : h ∈ chains.flatMap List.tail := all.mem_iff.mpr ((listed h).mpr ⟨u, link⟩)
    exact apart h (List.mem_filterMap.mpr ⟨c, member, head⟩) h inTail rfl
  · intro sources
    have all : targets.Subperm (chains.flatMap List.tail) := by
      apply List.subperm_of_subset single
      intro v target
      rcases List.mem_append.mp (split.mem_iff.mp (covered v target)) with head | inTail
      · obtain ⟨c, member, head⟩ := List.mem_filterMap.mp head
        obtain ⟨u, link⟩ := (listed v).mp target
        exact absurd link (sources c member v head u)
      · exact inTail
    have := within.length_le
    have := all.length_le
    omega

end Counting

/-- Vertex `u` stands in a list that begins with `h`. -/
def HeadedBy (chains : List (List α)) (h u : α) : Prop :=
  ∃ c ∈ chains, c.head? = some h ∧ u ∈ c

theorem HeadedBy.unique {chains : List (List α)} (distinct : chains.flatten.Nodup) {h h' u : α}
    (first : HeadedBy chains h u) (second : HeadedBy chains h' u) : h = h' := by
  obtain ⟨c, member, head, inside⟩ := first
  obtain ⟨c', member', head', inside'⟩ := second
  have apart := (List.nodup_flatten.mp distinct).2
  have same : c = c' := by
    by_contra other
    have : Std.Symm (List.Disjoint (α := α)) := ⟨fun _ _ => List.Disjoint.symm⟩
    exact apart.forall member member' other inside inside'
  subst same
  exact Option.some.inj (head.symm.trans head')

theorem HeadedBy.mem_flatten {chains : List (List α)} {h u : α} (headed : HeadedBy chains h u) :
    u ∈ chains.flatten := by
  obtain ⟨c, member, _, inside⟩ := headed
  exact List.mem_flatten.mpr ⟨c, member, inside⟩

/-- The lists that the walks from the vertices below `k` have made: each begins
at its least linked vertex, and the list that a link leads to was made no later
than the one it comes from. -/
structure Sweep (next : Nat → Option Nat) (k : Nat) (chains : List (List Nat)) : Prop where
  begins : ∀ c ∈ chains, ∃ h, c.head? = some h ∧ h < k ∧ next h ≠ none
  distinct : chains.flatten.Nodup
  paths : ∀ c ∈ chains, c.IsChain (Linked next)
  closed : ∀ u ∈ chains.flatten, ∀ w, next u = some w → w ∈ chains.flatten
  placed : ∀ u < k, next u ≠ none → u ∈ chains.flatten
  least : ∀ h u, HeadedBy chains h u → next u ≠ none → h ≤ u
  earlier : ∀ h u h' v, HeadedBy chains h u → HeadedBy chains h' v → next u = some v → h' ≤ h

namespace Sweep

variable {next : Nat → Option Nat} {k : Nat} {chains : List (List Nat)}

theorem start (next : Nat → Option Nat) : Sweep next 0 [] where
  begins := by simp
  distinct := by simp
  paths := by simp
  closed := by simp
  placed := by simp
  least := by simp [HeadedBy]
  earlier := by simp [HeadedBy]

theorem skip (sweep : Sweep next k chains) (done : next k ≠ none → k ∈ chains.flatten) :
    Sweep next (k + 1) chains where
  begins := by
    intro c member
    obtain ⟨h, head, below, linked⟩ := sweep.begins c member
    exact ⟨h, head, by omega, linked⟩
  distinct := sweep.distinct
  paths := sweep.paths
  closed := sweep.closed
  placed := by
    intro u below linked
    rcases Nat.lt_succ_iff_lt_or_eq.mp below with less | rfl
    · exact sweep.placed u less linked
    · exact done linked
  least := sweep.least
  earlier := sweep.earlier

theorem nonempty (sweep : Sweep next k chains) : ∀ c ∈ chains, c ≠ [] := by
  intro c member empty
  obtain ⟨h, head, _, _⟩ := sweep.begins c member
  rw [empty] at head
  cases head

theorem head_lt (sweep : Sweep next k chains) {h u : Nat} (headed : HeadedBy chains h u) :
    h < k := by
  obtain ⟨c, member, head, _⟩ := headed
  obtain ⟨h', head', below, _⟩ := sweep.begins c member
  rw [head] at head'
  cases head'
  exact below

theorem exists_head (sweep : Sweep next k chains) {u : Nat} (inside : u ∈ chains.flatten) :
    ∃ h, HeadedBy chains h u := by
  obtain ⟨c, member, inside⟩ := List.mem_flatten.mp inside
  obtain ⟨h, head, _, _⟩ := sweep.begins c member
  exact ⟨h, c, member, head, inside⟩

theorem headedBy_concat {found : List Nat} (first : found.head? = some k) {h u : Nat} :
    HeadedBy (chains ++ [found]) h u ↔ HeadedBy chains h u ∨ (h = k ∧ u ∈ found) := by
  constructor
  · rintro ⟨c, member, head, inside⟩
    rcases List.mem_append.mp member with old | new
    · exact .inl ⟨c, old, head, inside⟩
    · rw [List.mem_singleton.mp new] at head inside
      exact .inr ⟨Option.some.inj (head.symm.trans first), inside⟩
  · rintro (⟨c, old, head, inside⟩ | ⟨rfl, inside⟩)
    · exact ⟨c, by simp [old], head, inside⟩
    · exact ⟨found, by simp, first, inside⟩

/-- A walk from the next vertex, if it has a link and no place yet. -/
theorem walk (sweep : Sweep next k chains) (live : next k ≠ none) (free : k ∉ chains.flatten)
    {found : List Nat} (walk : Walk next {v | v ∈ chains.flatten} k found) :
    Sweep next (k + 1) (chains ++ [found]) := by
  have first := walk.head free
  have joined : (chains ++ [found]).flatten = chains.flatten ++ found := by simp
  refine ⟨?_, ?_, ?_, ?_, ?_, ?_, ?_⟩
  · intro c member
    rcases List.mem_append.mp member with old | new
    · obtain ⟨h, head, below, linked⟩ := sweep.begins c old
      exact ⟨h, head, by omega, linked⟩
    · rw [List.mem_singleton.mp new]
      exact ⟨k, first, by omega, live⟩
  · rw [joined]
    apply List.nodup_append.mpr
    refine ⟨sweep.distinct, walk.fresh.1, ?_⟩
    rintro u old v new rfl
    exact walk.fresh.2 u new old
  · intro c member
    rcases List.mem_append.mp member with old | new
    · exact sweep.paths c old
    · rw [List.mem_singleton.mp new]
      exact walk.isChain
  · rw [joined]
    intro u inside w link
    rw [List.mem_append]
    rcases List.mem_append.mp inside with old | new
    · exact .inl (sweep.closed u old w link)
    · exact walk.closed.2 u new w link
  · rw [joined]
    intro u below linked
    rw [List.mem_append]
    rcases Nat.lt_succ_iff_lt_or_eq.mp below with less | rfl
    · exact .inl (sweep.placed u less linked)
    · exact .inr (List.mem_of_head? first)
  · intro h u headed linked
    rcases (headedBy_concat first).mp headed with old | ⟨rfl, new⟩
    · exact sweep.least h u old linked
    · by_contra less
      exact walk.fresh.2 u new (sweep.placed u (by omega) linked)
  · intro h u h' v headed headed' link
    rcases (headedBy_concat first).mp headed' with old' | ⟨rfl, new'⟩
    · have below := sweep.head_lt old'
      rcases (headedBy_concat first).mp headed with old | ⟨rfl, _⟩
      · exact sweep.earlier h u h' v old old' link
      · omega
    · rcases (headedBy_concat first).mp headed with old | ⟨rfl, _⟩
      · exact absurd (sweep.closed u old.mem_flatten v link) (walk.fresh.2 v new')
      · exact Nat.le_refl _

end Sweep

/-- Every path of the links begins at the least of its vertices, the last one
left out. -/
def HeadsFirst (next : Nat → Option Nat) : Prop :=
  ∀ s v, Source next s → TransGen (Linked next) s v → next v ≠ none → s < v

/-- A linked source begins its own list. -/
theorem Sweep.headedBy_self {next : Nat → Option Nat} {n : Nat} {chains : List (List Nat)}
    (sweep : Sweep next n chains) {s : Nat} (source : Source next s)
    (inside : s ∈ chains.flatten) : HeadedBy chains s s := by
  obtain ⟨c, member, inside⟩ := List.mem_flatten.mp inside
  obtain ⟨h, head, _, _⟩ := sweep.begins c member
  obtain ⟨tail, rfl⟩ := List.head?_eq_some_iff.mp head
  rcases List.mem_cons.mp inside with rfl | later
  · exact ⟨_, member, head, by simp⟩
  · obtain ⟨u, link⟩ := exists_linked (sweep.paths _ member) later
    exact absurd link (source u)

/-- Along the links the heads of the lists do not grow. -/
theorem Sweep.head_le {next : Nat → Option Nat} {n : Nat} {chains : List (List Nat)}
    (sweep : Sweep next n chains) {s u : Nat} (headed : HeadedBy chains s s)
    (walk : ReflTransGen (Linked next) s u) : ∃ h, HeadedBy chains h u ∧ h ≤ s := by
  induction walk with
  | refl => exact ⟨s, headed, Nat.le_refl s⟩
  | tail _ link ih =>
    obtain ⟨h, before, le⟩ := ih
    obtain ⟨h', after⟩ := sweep.exists_head (sweep.closed _ before.mem_flatten _ link)
    exact ⟨h', after, (sweep.earlier _ _ _ _ before after link).trans le⟩

/-- The lists of a whole sweep begin at sources exactly when every path of the
links begins at its least vertex. -/
theorem Sweep.sources_iff {next : Nat → Option Nat} {n : Nat} {chains : List (List Nat)}
    (sweep : Sweep next n chains) (injective : Injective next) (acyclic : Acyclic (Linked next))
    (bounded : ∀ u, next u ≠ none → u < n) :
    (∀ c ∈ chains, ∀ h, c.head? = some h → Source next h) ↔ HeadsFirst next := by
  constructor
  · intro sources s v source walk linked
    obtain ⟨h, headed⟩ := sweep.exists_head (sweep.placed v (bounded v linked) linked)
    have le := sweep.least h v headed linked
    obtain ⟨c, member, head, inside⟩ := headed
    obtain ⟨tail, rfl⟩ := List.head?_eq_some_iff.mp head
    have same : s = h := source.unique injective (sources _ member h head) walk.to_reflTransGen
      (Relations.isChain_head (sweep.paths _ member) inside)
    subst same
    rcases Nat.lt_or_eq_of_le le with less | rfl
    · exact less
    · exact absurd walk (acyclic s)
  · intro first c member h head u link
    obtain ⟨s, source, walk⟩ := exists_source acyclic
      (fun u linked => List.mem_range.mpr (bounded u linked)) u
    have toHead : TransGen (Linked next) s h := TransGen.tail' walk link
    obtain ⟨h', head', _, linked⟩ := sweep.begins c member
    rw [head] at head'
    cases head'
    have less := first s h source toHead linked
    have linkedS : next s ≠ none := by
      obtain ⟨w, step, _⟩ := TransGen.head'_iff.mp toHead
      rw [show next s = some w from step]
      exact Option.some_ne_none w
    have inside := sweep.placed s (bounded s linkedS) linkedS
    obtain ⟨h', headed, le⟩ :=
      sweep.head_le (sweep.headedBy_self source inside) toHead.to_reflTransGen
    have own : HeadedBy chains h h := ⟨c, member, head, List.mem_of_head? head⟩
    have same := headed.unique sweep.distinct own
    omega

/-- The lists of a sweep, and each other vertex on its own. -/
def cover (n : Nat) (chains : List (List Nat)) : List (List Nat) :=
  chains ++ ((List.range n).filter fun v => v ∉ chains.flatten).map fun v => [v]

section Cover

variable {next : Nat → Option Nat} {n : Nat} {chains : List (List Nat)}
  (sweep : Sweep next n chains) (bounded : ∀ u v, next u = some v → u < n ∧ v < n)

include bounded in
theorem lt_of_linked {u : Nat} (linked : next u ≠ none) : u < n := by
  obtain ⟨v, link⟩ := Option.ne_none_iff_exists'.mp linked
  exact (bounded u v link).1

include sweep bounded in
theorem lt_of_mem {v : Nat} (inside : v ∈ chains.flatten) : v < n := by
  obtain ⟨c, member, inside⟩ := List.mem_flatten.mp inside
  obtain ⟨h, head, _, linked⟩ := sweep.begins c member
  obtain ⟨tail, rfl⟩ := List.head?_eq_some_iff.mp head
  rcases List.mem_cons.mp inside with rfl | later
  · exact lt_of_linked bounded linked
  · obtain ⟨u, link⟩ := exists_linked (sweep.paths _ member) later
    exact (bounded u v link).2

theorem flatten_singletons (lone : List Nat) : (lone.map fun v => [v]).flatten = lone := by
  rw [← List.flatMap_def, List.flatMap_singleton']

include sweep bounded in
/-- The cover has every vertex once. -/
theorem cover_perm : (cover n chains).flatten.Perm (List.range n) := by
  unfold cover
  rw [List.flatten_append, flatten_singletons]
  have placed : chains.flatten.Perm ((List.range n).filter fun v => v ∈ chains.flatten) := by
    apply (List.perm_ext_iff_of_nodup sweep.distinct (List.nodup_range.filter _)).mpr
    intro v
    simp only [List.mem_filter, List.mem_range, decide_eq_true_eq]
    exact ⟨fun inside => ⟨lt_of_mem sweep bounded inside, inside⟩, fun both => both.2⟩
  refine (placed.append_right _).trans ?_
  simpa only [decide_not] using List.filter_append_perm (fun v => v ∈ chains.flatten) (List.range n)

include sweep in
theorem cover_nonempty : ∀ c ∈ cover n chains, c ≠ [] := by
  intro c member
  rcases List.mem_append.mp member with walked | lone
  · exact sweep.nonempty c walked
  · obtain ⟨v, _, rfl⟩ := List.mem_map.mp lone
    exact List.cons_ne_nil v []

include sweep in
theorem cover_paths : ∀ c ∈ cover n chains, c.IsChain (Linked next) := by
  intro c member
  rcases List.mem_append.mp member with walked | lone
  · exact sweep.paths c walked
  · obtain ⟨v, _, rfl⟩ := List.mem_map.mp lone
    exact List.isChain_singleton v

include sweep bounded in
/-- A vertex that no walk has placed is linked to nothing, and nothing to it. -/
theorem lone_source {v : Nat} (outside : v ∉ chains.flatten) : Source next v := by
  intro u link
  have linked : next u ≠ none := by
    rw [link]
    exact Option.some_ne_none v
  exact outside (sweep.closed u (sweep.placed u (bounded u v link).1 linked) v link)

include bounded in
theorem mem_targets {v : Nat} :
    v ∈ (List.range n).filterMap next ↔ ∃ u, next u = some v := by
  rw [List.mem_filterMap]
  constructor
  · rintro ⟨u, _, link⟩
    exact ⟨u, link⟩
  · rintro ⟨u, link⟩
    exact ⟨u, List.mem_range.mpr (bounded u v link).1, link⟩

include sweep bounded in
/-- The cover has no fewer lists than the links allow. -/
theorem cover_length_ge :
    n ≤ (cover n chains).length + ((List.range n).filterMap next).length := by
  have perm := cover_perm sweep bounded
  have least := length_flatten_le (cover_nonempty sweep) (perm.nodup_iff.mpr List.nodup_range)
    (cover_paths sweep) fun v => mem_targets bounded
  rwa [perm.length_eq, List.length_range] at least

include sweep bounded in
/-- It has as few lists as the links allow exactly when every path of the links
begins at its least vertex. -/
theorem cover_length_iff (injective : Injective next) (acyclic : Acyclic (Linked next)) :
    (cover n chains).length + ((List.range n).filterMap next).length = n ↔ HeadsFirst next := by
  have perm := cover_perm sweep bounded
  have single : ((List.range n).filterMap next).Nodup :=
    List.nodup_range.filterMap fun u v w first second => injective first second
  have covered : ∀ v ∈ (List.range n).filterMap next, v ∈ (cover n chains).flatten := by
    intro v target
    obtain ⟨u, link⟩ := (mem_targets bounded).mp target
    exact perm.mem_iff.mpr (List.mem_range.mpr (bounded u v link).2)
  have count := length_eq_iff (cover_nonempty sweep) (perm.nodup_iff.mpr List.nodup_range)
    (cover_paths sweep) (fun v => mem_targets bounded) single covered
  rw [perm.length_eq, List.length_range] at count
  rw [count, ← sweep.sources_iff injective acyclic fun u linked => lt_of_linked bounded linked]
  constructor
  · exact fun sources c member => sources c (List.mem_append_left _ member)
  · intro sources c member h head
    rcases List.mem_append.mp member with walked | lone
    · exact sources c walked h head
    · obtain ⟨v, outside, rfl⟩ := List.mem_map.mp lone
      cases head
      exact lone_source sweep bounded (of_decide_eq_true (List.mem_filter.mp outside).2)

end Cover

end PathCovers
