import ChainSaw.Lib.Loops
import ChainSaw.Lib.PathCovers

set_option autoImplicit false

/- Matchings of an undirected graph as maps from vertices to their mates, and
the matchings of a doubled directed graph: each of its vertices `v < n` is `v`
on the left and `n + v` on the right, and an edge joins the left copy of its
source to the right copy of its target. Such a matching links the vertices by a
partial injection. -/
namespace Matchings

open PathCovers (Linked Injective)

structure IsMatching {α : Type} (adjacent : α → α → Prop) (mate : α → Option α) : Prop where
  symmetric : ∀ u v, mate u = some v → mate v = some u
  joined : ∀ u v, mate u = some v → adjacent u v

/-- The number of matched edges, each counted at its smaller end. -/
def size (n : Nat) (mate : Nat → Option Nat) : Nat :=
  (List.range n).countP fun u => (mate u).any fun v => u < v

/-- A matching of the graph on the first `n` numbers that no other one exceeds. -/
structure IsMaximum (n : Nat) (adjacent : Nat → Nat → Prop) (mate : Nat → Option Nat) : Prop
    extends IsMatching adjacent mate where
  largest : ∀ other, IsMatching adjacent other → size n other ≤ size n mate

/-- The doubled graph of `edge`. -/
def Doubled (n : Nat) (edge : Nat → Nat → Prop) (u v : Nat) : Prop :=
  (∃ t, v = n + t ∧ edge u t) ∨ ∃ t, u = n + t ∧ edge v t

/-- The vertex that a mate map of the doubled graph links `u` to. -/
def successor (n : Nat) (mate : Nat → Option Nat) (u : Nat) : Option Nat :=
  if u < n then (mate u).map (· - n) else none

section Doubling

variable {n : Nat} {edge : Nat → Nat → Prop} {mate : Nat → Option Nat}
  (matching : IsMatching (Doubled n edge) mate)

include matching in
theorem mate_left {u v : Nat} (left : u < n) (mated : mate u = some v) :
    ∃ t, v = n + t ∧ edge u t := by
  rcases matching.joined u v mated with ahead | ⟨t, rfl, _⟩
  · exact ahead
  · omega

include matching in
theorem mate_right (bounded : ∀ u v, edge u v → u < n ∧ v < n) {t v : Nat} (mated : mate (n + t) = some v) : edge v t := by
  rcases matching.joined (n + t) v mated with ⟨t', _, link⟩ | ⟨t', same, link⟩
  · have := bounded _ _ link
    omega
  · have : t = t' := by omega
    exact this ▸ link

include matching in
theorem successor_eq_some {u v : Nat} :
    successor n mate u = some v ↔ u < n ∧ mate u = some (n + v) := by
  unfold successor
  constructor
  · intro link
    split at link
    · rename_i left
      obtain ⟨w, mated, rfl⟩ := Option.map_eq_some_iff.mp link
      obtain ⟨t, rfl, _⟩ := mate_left matching left mated
      rw [Nat.add_sub_cancel_left]
      exact ⟨left, mated⟩
    · cases link
  · rintro ⟨left, mated⟩
    rw [if_pos left, mated, Option.map_some, Nat.add_sub_cancel_left]

include matching in
theorem successor_edge {u v : Nat} (link : successor n mate u = some v) : edge u v := by
  obtain ⟨left, mated⟩ := (successor_eq_some matching).mp link
  obtain ⟨t, same, joined⟩ := mate_left matching left mated
  rwa [show v = t by omega]

include matching in
theorem successor_injective : Injective (successor n mate) := by
  intro u v w first second
  have toU := matching.symmetric _ _ ((successor_eq_some matching).mp first).2
  have toV := matching.symmetric _ _ ((successor_eq_some matching).mp second).2
  exact Option.some.inj (toU.symm.trans toV)

include matching in
theorem successor_isSome {u : Nat} (left : u < n) :
    (successor n mate u).isSome = (mate u).any fun v => u < v := by
  unfold successor
  rw [if_pos left, Option.isSome_map]
  cases mated : mate u with
  | none => rfl
  | some v =>
    obtain ⟨t, rfl, _⟩ := mate_left matching left mated
    simp
    omega

include matching in
/-- The matched edges are the links. -/
theorem size_eq_links (bounded : ∀ u v, edge u v → u < n ∧ v < n) :
    size (2 * n) mate = ((List.range n).filterMap (successor n mate)).length := by
  have lefts : (List.range n).countP (fun u => (mate u).any fun v => u < v) =
      (List.range n).countP fun u => (successor n mate u).isSome := by
    apply List.countP_congr
    intro u inside
    rw [successor_isSome matching (List.mem_range.mp inside)]
  have rights : ((List.range n).map (n + ·)).countP (fun u => (mate u).any fun v => u < v) = 0 := by
    rw [List.countP_eq_zero]
    intro u inside
    obtain ⟨t, _, rfl⟩ := List.mem_map.mp inside
    cases mated : mate (n + t) with
    | none => simp
    | some v =>
      have := bounded _ _ (mate_right matching bounded mated)
      simp
      omega
  unfold size
  rw [show 2 * n = n + n by omega, List.range_add, List.countP_append, lefts, rights,
    List.length_filterMap_eq_countP, Nat.add_zero]

include matching in
/-- A matching has no more edges than there are vertices with an edge. -/
theorem size_le (bounded : ∀ u v, edge u v → u < n ∧ v < n) (p : Nat → Bool)
    (leaves : ∀ u v, edge u v → p u = true) : size (2 * n) mate ≤ (List.range n).countP p := by
  rw [size_eq_links matching bounded, List.length_filterMap_eq_countP]
  apply List.countP_mono_left
  intro u _ linked
  obtain ⟨v, link⟩ := Option.isSome_iff_exists.mp linked
  exact leaves u v (successor_edge matching link)

end Doubling

section Covers

/-- The steps inside the lists. -/
def steps (chains : List (List Nat)) : List (Nat × Nat) := chains.flatMap fun c => c.zip c.tail

theorem zip_tail_snd (c : List Nat) : (c.zip c.tail).map Prod.snd = c.tail :=
  List.map_snd_zip (by simp)

theorem zip_tail_fst (c : List Nat) : (c.zip c.tail).map Prod.fst = c.dropLast := by
  induction c with
  | nil => rfl
  | cons a c ih =>
    cases c with
    | nil => rfl
    | cons b c => exact congrArg (a :: ·) ih

theorem steps_snd (chains : List (List Nat)) :
    (steps chains).map Prod.snd = chains.flatMap List.tail := by
  unfold steps
  rw [List.map_flatMap]
  exact List.flatMap_congr fun c _ => zip_tail_snd c

theorem steps_fst (chains : List (List Nat)) :
    (steps chains).map Prod.fst = chains.flatMap List.dropLast := by
  unfold steps
  rw [List.map_flatMap]
  exact List.flatMap_congr fun c _ => zip_tail_fst c

theorem flatMap_sublist {part : List Nat → List Nat} (inside : ∀ c, (part c).Sublist c)
    (chains : List (List Nat)) : (chains.flatMap part).Sublist chains.flatten := by
  induction chains with
  | nil => exact .slnil
  | cons c rest ih =>
    rw [List.flatMap_cons, List.flatten_cons]
    exact (inside c).append ih

/-- The mates that the steps of the lists make in the doubled graph. -/
def stepMate (n : Nat) (chains : List (List Nat)) (u : Nat) : Option Nat :=
  if u < n then ((steps chains).find? fun e => e.1 == u).map (n + ·.2)
  else ((steps chains).find? fun e => e.2 == u - n).map (·.1)

variable {n : Nat} {edge : Nat → Nat → Prop} {chains : List (List Nat)}
  (perm : chains.flatten.Perm (List.range n)) (nonempty : ∀ c ∈ chains, c ≠ [])
  (paths : ∀ c ∈ chains, c.IsChain edge)

include paths in
theorem steps_edge {u v : Nat} (step : (u, v) ∈ steps chains) : edge u v := by
  obtain ⟨c, member, inside⟩ := List.mem_flatMap.mp step
  have path := paths c member
  clear member
  induction c with
  | nil => cases inside
  | cons a c ih =>
    cases c with
    | nil => cases inside
    | cons b c =>
      rw [List.isChain_cons_cons] at path
      rcases List.mem_cons.mp inside with here | later
      · cases here
        exact path.1
      · exact ih later path.2

include perm in
theorem steps_nodup :
    ((steps chains).map Prod.fst).Nodup ∧ ((steps chains).map Prod.snd).Nodup := by
  have distinct : chains.flatten.Nodup := perm.nodup_iff.mpr List.nodup_range
  rw [steps_fst, steps_snd]
  exact ⟨distinct.sublist (flatMap_sublist List.dropLast_sublist chains),
    distinct.sublist (flatMap_sublist List.tail_sublist chains)⟩

include perm paths in
theorem stepMate_eq_some (bounded : ∀ u v, edge u v → u < n ∧ v < n) {u w : Nat} :
    stepMate n chains u = some w ↔
      (∃ v, (u, v) ∈ steps chains ∧ w = n + v) ∨ ∃ v, (w, v) ∈ steps chains ∧ u = n + v := by
  obtain ⟨fromOne, toOne⟩ := steps_nodup perm
  unfold stepMate
  constructor
  · intro mated
    split at mated
    · obtain ⟨⟨a, v⟩, found, rfl⟩ := Option.map_eq_some_iff.mp mated
      have same : a = u := by simpa using List.find?_some found
      exact .inl ⟨v, same ▸ List.mem_of_find?_eq_some found, rfl⟩
    · rename_i right
      obtain ⟨⟨a, v⟩, found, rfl⟩ := Option.map_eq_some_iff.mp mated
      have same : v = u - n := by simpa using List.find?_some found
      exact .inr ⟨v, List.mem_of_find?_eq_some found, by omega⟩
  · rintro (⟨v, step, rfl⟩ | ⟨v, step, rfl⟩)
    · have left := (bounded u v (steps_edge paths step)).1
      have found := Loops.find?_key_of_mem fromOne step
      rw [if_pos left, found, Option.map_some]
    · have found := Loops.find?_key_of_mem toOne step
      rw [if_neg (by omega), Nat.add_sub_cancel_left, found, Option.map_some]

include perm paths in
/-- The steps of a cover by paths are a matching of the doubled graph. -/
theorem stepMate_isMatching (bounded : ∀ u v, edge u v → u < n ∧ v < n) :
    IsMatching (Doubled n edge) (stepMate n chains) where
  symmetric := by
    intro u w mated
    rw [stepMate_eq_some perm paths bounded] at mated ⊢
    exact mated.symm
  joined := by
    intro u w mated
    rcases (stepMate_eq_some perm paths bounded).mp mated with ⟨v, step, same⟩ | ⟨v, step, same⟩
    · exact .inl ⟨v, same, steps_edge paths step⟩
    · exact .inr ⟨v, same, steps_edge paths step⟩

include perm nonempty paths in
/-- It has one edge less than vertices for each path. -/
theorem stepMate_size (bounded : ∀ u v, edge u v → u < n ∧ v < n) :
    size (2 * n) (stepMate n chains) + chains.length = n := by
  have matching := stepMate_isMatching perm paths bounded
  have lefts : ((List.range n).filter fun u => (successor n (stepMate n chains) u).isSome).Perm
      ((steps chains).map Prod.fst) := by
    apply (List.perm_ext_iff_of_nodup (List.nodup_range.filter _) (steps_nodup perm).1).mpr
    intro u
    rw [List.mem_filter, List.mem_range, Option.isSome_iff_exists, List.mem_map]
    constructor
    · rintro ⟨below, v, link⟩
      have mated := ((successor_eq_some matching).mp link).2
      rcases (stepMate_eq_some perm paths bounded).mp mated with ⟨t, step, _⟩ | ⟨t, _, same⟩
      · exact ⟨(u, t), step, rfl⟩
      · omega
    · rintro ⟨⟨a, v⟩, step, rfl⟩
      have below := (bounded a v (steps_edge paths step)).1
      refine ⟨below, v, (successor_eq_some matching).mpr ⟨below, ?_⟩⟩
      exact (stepMate_eq_some perm paths bounded).mpr (.inl ⟨v, step, rfl⟩)
  have whole := PathCovers.length_add_tails nonempty
  rw [size_eq_links matching bounded, List.length_filterMap_eq_countP, List.countP_eq_length_filter,
    lefts.length_eq, List.length_map, ← List.length_map Prod.snd, steps_snd]
  rw [perm.length_eq, List.length_range] at whole
  omega

end Covers

/-- No cover by paths has fewer paths than a maximum matching leaves. -/
theorem IsMaximum.le_length {n : Nat} {edge : Nat → Nat → Prop} {mate : Nat → Option Nat}
    (maximum : IsMaximum (2 * n) (Doubled n edge) mate)
    (bounded : ∀ u v, edge u v → u < n ∧ v < n) {chains : List (List Nat)}
    (perm : chains.flatten.Perm (List.range n)) (nonempty : ∀ c ∈ chains, c ≠ [])
    (paths : ∀ c ∈ chains, c.IsChain edge) : n ≤ chains.length + size (2 * n) mate := by
  have size := stepMate_size perm nonempty paths bounded
  have least := maximum.largest _ (stepMate_isMatching perm paths bounded)
  omega

end Matchings
