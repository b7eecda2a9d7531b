import ChainSaw.Cutting

set_option autoImplicit false

namespace ChainSaw

open Std (TreeMap)

/-- Vertex `v` with the properties `p` is the only start block of the graph. -/
structure StartBlock (g : BoostGraph) (v : Nat) (p : VertexProp) : Prop where
  found : g.vertices[v]? = some p
  isBB : p.opcode = .bb
  only : ∀ w q, g.vertices[w]? = some q → q.opcode = .bb → w = v

/-- The label and the name that the first loop of `createChains` remembers. -/
def lastStart (first : Nat × Nat) (e : VertexProp × Nat) : Nat × Nat :=
  if e.1.opcode = .bb then (e.1.ch, e.1.name) else first

theorem labelChains_snd (g : BoostGraph) :
    (labelChains g).2 = g.vertices.zipIdx.foldl lastStart (0, 0) := by
  unfold labelChains
  generalize (∅ : ChainLists) = temp
  generalize (0, 0) = first
  induction g.vertices.zipIdx generalizing temp first with
  | nil => rfl
  | cons e rest ih => exact ih _ _

theorem foldl_lastStart_none {items : List (VertexProp × Nat)} (none : ∀ e ∈ items, e.1.opcode ≠ .bb)
    (first : Nat × Nat) : items.foldl lastStart first = first := by
  induction items with
  | nil => rfl
  | cons e rest ih =>
    rw [List.foldl_cons, lastStart, if_neg (none e (by simp))]
    exact ih fun e member => none e (by simp [member])

/-- The last `BB` vertex is remembered. -/
theorem labelChains_snd_of_last {g : BoostGraph} {v : Nat} {p : VertexProp}
    (found : g.vertices[v]? = some p) (isBB : p.opcode = .bb)
    (last : ∀ w q, g.vertices[w]? = some q → q.opcode = .bb → w ≤ v) :
    (labelChains g).2 = (p.ch, p.name) := by
  have listed : (p, v) ∈ g.vertices.zipIdx := List.mem_zipIdx_iff_getElem?.mpr found
  obtain ⟨before, after, parts⟩ := List.append_of_mem listed
  have isBefore : ∀ e ∈ after, e.1.opcode ≠ .bb := by
    intro e member isBB
    have inside : e ∈ g.vertices.zipIdx := by simp [parts, member]
    have upTo := last e.2 e.1 (List.mem_zipIdx_iff_getElem?.mp inside) isBB
    have increasing : (g.vertices.zipIdx.map (·.2)).Pairwise (· < ·) := by
      rw [List.zipIdx_map_snd]
      exact List.pairwise_lt_range' 1
    rw [parts, List.map_append, List.map_cons, List.pairwise_append] at increasing
    have above := List.rel_of_pairwise_cons increasing.2.1 (List.mem_map.mpr ⟨e, member, rfl⟩)
    exact absurd upTo (Nat.not_le_of_lt above)
  rw [labelChains_snd, parts, List.foldl_append, List.foldl_cons,
    foldl_lastStart_none isBefore, lastStart, if_pos isBB]

theorem StartBlock.labelChains_snd {g : BoostGraph} {v : Nat} {p : VertexProp}
    (start : StartBlock g v p) : (labelChains g).2 = (p.ch, p.name) :=
  labelChains_snd_of_last start.found start.isBB fun w q found isBB =>
    Nat.le_of_eq (start.only w q found isBB)

/-- The chain of the start block comes first; the others are not empty. -/
theorem StartBlock.createChains_eq {g : BoostGraph} {v : Nat} {p : VertexProp}
    (start : StartBlock g v p) : ∃ others, createChains g = (p.name, labelled g p.ch :: others) ∧
      ∀ c ∈ others, c ≠ [] := by
  have snd := start.labelChains_snd
  refine ⟨((labelChains g).1.toList.filter (fun tm => tm.1 != p.ch)).map (·.2), ?_, ?_⟩
  · have first : (labelChains g).1[p.ch]?.getD [] = labelled g p.ch := by
      rw [labelChains_fst]
      exact Grouping.group_empty_getElem? ..
    have name : (createChains g).1 = (labelChains g).2.2 := rfl
    have chains := ChainSaw.createChains_eq g
    rw [snd] at name chains
    rw [first] at chains
    rw [← Prod.mk.eta (p := createChains g), name, chains]
  · intro c member
    obtain ⟨e, listed, rfl⟩ := List.mem_map.mp member
    have found := TreeMap.mem_toList_iff_getElem?_eq_some.mp (List.mem_of_mem_filter listed)
    rw [labelChains_fst] at found
    exact Grouping.group_ne_nil (by simp) _ _ found

theorem splitChain_zero (c : List Nat) (others : Chains) (k : Nat) :
    splitChain (c :: others) 0 k = c.take k :: others ++ [c.drop k] := rfl

theorem idxOf_append_cons {before : List Nat} {v : Nat} (fresh : v ∉ before) (after : List Nat) :
    (before ++ v :: after).idxOf v = before.length := by
  simp [List.idxOf_append, fresh]

/-- The cut that `breakingStartNode` makes behind vertex `k` of the first chain. -/
theorem breakingStartNode_eq {before after : List Nat} {k : Nat} (others : Chains)
    (fresh : k ∉ before) (long : 1 < (before ++ k :: after).length) :
    breakingStartNode k ((before ++ k :: after) :: others) =
      (before ++ [k]) :: others ++ [after] := by
  have index := idxOf_append_cons fresh after
  unfold breakingStartNode
  simp only [List.getD_cons_zero, long, and_true]
  rw [if_pos (by simp), index, splitChain_zero]
  have shape : before ++ k :: after = (before ++ [k]) ++ after := by simp
  have length : before.length + 1 = (before ++ [k]).length := by simp
  rw [shape, length, List.take_left, List.drop_left]

/-- What the later passes rely on: chain 0 ends with the start block `v`, the
nodes behind it in its chain are a chain of their own, and no chain is empty. -/
structure StartIsolated (g : BoostGraph) (v : Nat) (chains : Chains) : Prop where
  last : (chains.getD 0 []).getLast? = some v
  rest : ∀ before after, before ++ v :: after ∈ (createChains g).2 → after ≠ [] → after ∈ chains
  nonempty : ∀ c ∈ chains, c ≠ []

/-- The nodes behind `v` in its chain are those with higher numbers. -/
theorem exists_above_iff {g : BoostGraph} {ch v : Nat} {before after : List Nat}
    (parts : labelled g ch = before ++ v :: after) :
    (∃ w ∈ labelled g ch, v < w) ↔ after ≠ [] := by
  have sorted := labelled_sorted g ch
  rw [parts, List.pairwise_append, List.pairwise_cons] at sorted
  obtain ⟨_, ⟨above, _⟩, below⟩ := sorted
  rw [parts]
  constructor
  · rintro ⟨w, member, higher⟩ rfl
    rcases List.mem_append.mp member with early | last
    · have := below w early v (by simp)
      omega
    · rw [List.mem_singleton.mp last] at higher
      omega
  · intro nonempty
    obtain ⟨w, member⟩ := List.exists_mem_of_ne_nil after nonempty
    exact ⟨w, by simp [member], above w member⟩

/-- A node occurs once among those with its label. -/
theorem not_mem_before {g : BoostGraph} {ch k : Nat} {b a : List Nat}
    (shape : labelled g ch = b ++ k :: a) : k ∉ b := by
  have distinct := (labelled_sorted g ch).nodup
  rw [shape] at distinct
  exact fun member => (List.nodup_append.mp distinct).2.2 k member k (by simp) rfl

section isolated

variable {g : BoostGraph} {v : Nat} {p : VertexProp} (start : StartBlock g v p)
include start

theorem StartBlock.mem_labelled : v ∈ labelled g p.ch :=
  ChainSaw.mem_labelled.mpr ⟨p, start.found, rfl⟩

/-- The chain of the start block is the one with its label. -/
theorem StartBlock.chain_eq {c : List Nat} (listed : c ∈ (createChains g).2) (member : v ∈ c) :
    c = labelled g p.ch := by
  obtain ⟨ch, rfl⟩ := mem_createChains listed
  obtain ⟨q, found, rfl⟩ := ChainSaw.mem_labelled.mp member
  rw [start.found] at found
  cases found
  rfl

theorem StartBlock.after_eq {before after b a : List Nat}
    (parts : labelled g p.ch = before ++ v :: after) (listed : b ++ v :: a ∈ (createChains g).2) :
    a = after := by
  have same := start.chain_eq listed (by simp)
  have freshA : v ∉ b := not_mem_before same.symm
  have freshB : v ∉ before := not_mem_before parts
  have length : b.length = before.length := by
    rw [← idxOf_append_cons freshA, ← idxOf_append_cons freshB, same, parts]
  rw [parts] at same
  have tails := (List.append_inj same length).2
  exact (List.cons.inj tails).2

section cases

variable {others : Chains} (full : ∀ c ∈ others, c ≠ [])
include full

/-- Without a cut the start block is isolated when nothing follows it. -/
theorem StartBlock.isolated_uncut {before after : List Nat}
    (parts : labelled g p.ch = before ++ v :: after) :
    StartIsolated g v (labelled g p.ch :: others) ↔ after = [] := by
  constructor
  · rintro ⟨last, _, _⟩
    by_contra nonempty
    obtain ⟨w, inAfter⟩ := List.exists_mem_of_ne_nil after nonempty
    have distinct := (labelled_sorted g p.ch).nodup
    rw [parts, List.nodup_append, List.nodup_cons] at distinct
    rw [List.getD_cons_zero, parts, List.getLast?_append_of_ne_nil _ (by simp),
      List.getLast?_cons_of_ne_nil nonempty] at last
    exact distinct.2.1.1 (List.mem_of_getLast? last)
  · rintro rfl
    refine ⟨by simp [parts], ?_, ?_⟩
    · intro b a listed nonempty
      exact absurd (start.after_eq parts listed) nonempty
    · intro c member
      rcases List.mem_cons.mp member with rfl | old
      · exact List.ne_nil_of_mem start.mem_labelled
      · exact full c old

/-- A cut behind node `k` isolates the start block when `k` is the start block
and other nodes follow it. -/
theorem StartBlock.isolated_cut {b a : List Nat} {k : Nat} (parts : labelled g p.ch = b ++ k :: a) :
    StartIsolated g v ((b ++ [k]) :: others ++ [a]) ↔ k = v ∧ a ≠ [] := by
  constructor
  · rintro ⟨last, _, nonempty⟩
    exact ⟨by simpa using last, nonempty a (by simp)⟩
  · rintro ⟨rfl, nonempty⟩
    refine ⟨by simp, ?_, ?_⟩
    · intro b' a' listed _
      rw [start.after_eq parts listed]
      simp
    · intro c member
      simp only [List.cons_append, List.mem_cons, List.mem_append, List.not_mem_nil, or_false]
        at member
      rcases member with rfl | old | rfl
      · simp
      · exact full c old
      · exact nonempty

theorem StartBlock.startChains_isolated_cut {before after : List Nat}
    (created : createChains g = (p.name, labelled g p.ch :: others))
    (parts : labelled g p.ch = before ++ v :: after) (named : p.name ∈ labelled g p.ch)
    (long : 1 < (labelled g p.ch).length) :
    StartIsolated g v (startChains g) ↔ p.name = v ∧ after ≠ [] := by
  obtain ⟨b, a, shape⟩ := List.append_of_mem named
  have broken := breakingStartNode_eq others (not_mem_before shape) (shape ▸ long)
  have began : startChains g = (b ++ [p.name]) :: others ++ [a] := by
    unfold startChains
    rw [created, ← broken, ← shape]
  have tail (same : p.name = v) : a = after := by
    refine start.after_eq (b := b) parts ?_
    rw [created, ← same, ← shape]
    simp
  rw [began, start.isolated_cut full shape]
  exact and_congr_right fun same => by rw [tail same]

theorem StartBlock.startChains_isolated_uncut {before after : List Nat}
    (created : createChains g = (p.name, labelled g p.ch :: others))
    (parts : labelled g p.ch = before ++ v :: after)
    (cut : ¬ (p.name ∈ labelled g p.ch ∧ 1 < (labelled g p.ch).length)) :
    StartIsolated g v (startChains g) ↔ after = [] := by
  have kept : startChains g = labelled g p.ch :: others := by
    unfold startChains breakingStartNode
    rw [created]
    simp only [List.getD_cons_zero]
    rw [if_neg cut]
  rw [kept, start.isolated_uncut full parts]

end cases

/-- The start block is isolated exactly when it is alone in its chain, when its
name is its vertex number and other nodes follow it, or when it ends its chain
and its name is not the number of any node in it. -/
theorem start_isolated_iff :
    StartIsolated g v (startChains g) ↔
      labelled g p.ch = [v] ∨ (p.name = v ∧ ∃ w ∈ labelled g p.ch, v < w) ∨
        (p.name ∉ labelled g p.ch ∧ ∀ w ∈ labelled g p.ch, w ≤ v) := by
  obtain ⟨others, created, full⟩ := start.createChains_eq
  obtain ⟨before, after, parts⟩ := List.append_of_mem start.mem_labelled
  have above := exists_above_iff parts
  have below : (∀ w ∈ labelled g p.ch, w ≤ v) ↔ after = [] := by
    rw [← not_iff_not, ← ne_eq, ← above]
    simp only [not_forall, not_le, exists_prop]
  have size : (labelled g p.ch).length = before.length + (after.length + 1) := by
    rw [parts, List.length_append, List.length_cons]
  rw [above, below]
  by_cases cut : p.name ∈ labelled g p.ch ∧ 1 < (labelled g p.ch).length
  · obtain ⟨named, long⟩ := cut
    have alone : labelled g p.ch ≠ [v] := by
      intro alone
      rw [alone] at long
      simp at long
    rw [start.startChains_isolated_cut full created parts named long]
    constructor
    · exact fun both => .inr (.inl both)
    · rintro (isAlone | both | ⟨absent, _⟩)
      · exact absurd isAlone alone
      · exact both
      · exact absurd named absent
  · rw [start.startChains_isolated_uncut full created parts cut]
    constructor
    · intro last
      by_cases named : p.name ∈ labelled g p.ch
      · have short : (labelled g p.ch).length ≤ 1 := Nat.le_of_not_lt fun long => cut ⟨named, long⟩
        have nothing : before = [] := List.length_eq_zero_iff.mp (by omega)
        exact .inl (by rw [parts, nothing, last]; rfl)
      · exact .inr (.inr ⟨named, last⟩)
    · rintro (alone | ⟨same, nonempty⟩ | ⟨_, last⟩)
      · have length := congrArg List.length alone
        rw [List.length_singleton] at length
        exact List.length_eq_zero_iff.mp (by omega)
      · have named : p.name ∈ labelled g p.ch := same ▸ start.mem_labelled
        have positive := List.length_pos_iff.mpr nonempty
        exact absurd ⟨named, by omega⟩ cut
      · exact last

end isolated

/-- A start block whose name is not its vertex number, with a successor in its
chain. -/
def renamedStart : BoostGraph where
  vertices := [⟨5, ⟨.bb, 5⟩, 0, .bb⟩, ⟨6, ⟨.other "Add", 6⟩, 0, .other "Add"⟩]
  edges := [(0, 1)]
  bounded := by decide

theorem renamedStart_not_isolated :
    StartBlock renamedStart 0 ⟨5, ⟨.bb, 5⟩, 0, .bb⟩ ∧
      ¬ StartIsolated renamedStart 0 (startChains renamedStart) := by
  refine ⟨⟨rfl, rfl, ?_⟩, ?_⟩
  · intro w q found isBB
    match w with
    | 0 => rfl
    | 1 =>
      cases found
      cases isBB
    | w + 2 => cases found
  · intro isolated
    have last : ((startChains renamedStart).getD 0 []).getLast? = some 1 := by decide +kernel
    rw [isolated.last] at last
    cases last

theorem start_isolated_startAndTail :
    StartBlock startAndTail 0 ⟨0, ⟨.bb, 0⟩, 0, .bb⟩ ∧
      StartIsolated startAndTail 0 (startChains startAndTail) := by
  have start : StartBlock startAndTail 0 ⟨0, ⟨.bb, 0⟩, 0, .bb⟩ := by
    refine ⟨rfl, rfl, ?_⟩
    intro w q found isBB
    match w with
    | 0 => rfl
    | 1 | 2 =>
      cases found
      cases isBB
    | w + 3 => cases found
  have follows : 1 ∈ labelled startAndTail 0 := by decide
  exact ⟨start, (start_isolated_iff start).mpr (.inr (.inl ⟨rfl, 1, follows, by decide⟩))⟩

end ChainSaw
