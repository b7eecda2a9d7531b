import ChainSaw.Lib.ListScheduling
import ChainSaw.SchedulerState

set_option autoImplicit false

namespace ChainSaw

variable {σ : Type}

/-- Non-empty chains with their own ids that share no instruction. The numbers
of the instructions are of type `uint32_t`. -/
structure ChainSet (chains : List Chain) : Prop where
  ids : (chains.map (·.id)).Nodup
  full : ∀ ch ∈ chains, ch.instructionList ≠ []
  apart : ((inputContents chains).map (·.newId)).Nodup
  words : ∀ ins ∈ inputContents chains, ins.newId < 2 ^ 32

/-- The chains that `buildChains` makes of an accepted graph are such a set. -/
theorem Config.NonEmpty.chainSet {cfg : Config} (full : cfg.NonEmpty) : ChainSet cfg.built where
  ids := by
    rw [full.built_ids]
    exact List.nodup_range
  full := by
    intro ch member
    obtain ⟨i, inside, rfl⟩ := List.mem_map.mp member
    simpa [Config.chain, Config.instructions] using full i (List.mem_range.mp inside)
  apart := by
    rw [inputContents_newIds]
    exact cfg.accepted.part.nodup
  words := by
    intro ins member
    obtain ⟨i, inside, member⟩ := mem_inputContents_built.mp member
    obtain ⟨v, listed, rfl⟩ := List.mem_map.mp member
    exact (cfg.accepted.part.lt listed).trans cfg.accepted.small

/-- The number of instructions of the chain with an id. -/
def instructionCount (chains : List Chain) (id : Nat) : Nat :=
  ((chains.find? fun item => item.id == id).map (·.instructionList.length)).getD 0

/-- The number of instructions in a lane's buffer. -/
def laneTotal (chains : List Chain) (buffer : List Nat) : Nat :=
  (buffer.map (instructionCount chains)).sum

/-- The number of instructions of the largest chain. -/
def largestChain (chains : List Chain) : Nat :=
  (chains.map (·.instructionList.length)).max?.getD 0

@[simp] theorem laneTotal_nil (chains : List Chain) : laneTotal chains [] = 0 := rfl

@[simp] theorem laneTotal_append (chains : List Chain) (first second : List Nat) :
    laneTotal chains (first ++ second) = laneTotal chains first + laneTotal chains second := by
  simp [laneTotal]

theorem laneTotal_singleton (chains : List Chain) (id : Nat) :
    laneTotal chains [id] = instructionCount chains id := by
  simp [laneTotal]

theorem instructionCount_le (chains : List Chain) (id : Nat) :
    instructionCount chains id ≤ largestChain chains := by
  unfold instructionCount
  cases found : chains.find? fun item => item.id == id with
  | none => simp
  | some ch =>
    apply List.le_max?_getD_of_mem
    exact List.mem_map_of_mem (List.mem_of_find?_eq_some found)

namespace ChainSet

variable {chains : List Chain}

theorem find (set : ChainSet chains) {ch : Chain} (member : ch ∈ chains) :
    chains.find? (fun item => item.id == ch.id) = some ch :=
  Loops.find?_key_of_mem set.ids member

theorem instructionCount_eq (set : ChainSet chains) {ch : Chain} (member : ch ∈ chains) :
    instructionCount chains ch.id = ch.instructionList.length := by
  rw [instructionCount, set.find member]
  rfl

/-- All chains together have at most one instruction for each number. -/
theorem total_le (set : ChainSet chains) : laneTotal chains (chains.map (·.id)) ≤ 2 ^ 32 := by
  have counts : laneTotal chains (chains.map (·.id)) =
      ((inputContents chains).map (·.newId)).length := by
    rw [laneTotal, List.map_map, List.length_map, inputContents, List.length_flatMap]
    congr 1
    exact List.map_congr_left fun ch member => set.instructionCount_eq member
  have numbers : (inputContents chains).map (·.newId) ⊆ List.range (2 ^ 32) := by
    intro number member
    obtain ⟨ins, listed, rfl⟩ := List.mem_map.mp member
    exact List.mem_range.mpr (set.words ins listed)
  rw [counts, ← List.length_range (n := 2 ^ 32)]
  exact (List.subperm_of_subset set.apart numbers).length_le

/-- While a chain is still to come, the chains before it have fewer instructions
than there are numbers. -/
theorem total_lt (set : ChainSet chains) {seen rest : List Nat} {id : Nat}
    (order : (seen ++ id :: rest).Perm (chains.map (·.id))) : laneTotal chains seen < 2 ^ 32 := by
  have listed : id ∈ chains.map (·.id) := order.mem_iff.mp (by simp)
  obtain ⟨ch, member, rfl⟩ := List.mem_map.mp listed
  have all : laneTotal chains (seen ++ ch.id :: rest) = laneTotal chains (chains.map (·.id)) :=
    (order.map _).sum_eq
  have some := List.length_pos_iff.mpr (set.full ch member)
  have bound := set.total_le
  rw [← all, laneTotal_append, ← List.singleton_append, laneTotal_append, laneTotal_singleton,
    set.instructionCount_eq member] at bound
  omega

end ChainSet

theorem laneTotal_modify (chains : List Chain) {buffers : List (List Nat)} {index : Nat}
    (inside : index < buffers.length) (id i : Nat) :
    laneTotal chains ((buffers.modify index (· ++ [id])).getD i []) =
      if index = i then laneTotal chains (buffers.getD index []) + instructionCount chains id
      else laneTotal chains (buffers.getD i []) := by
  rw [getD_modify inside]
  split
  · rename_i same
    rw [← same, laneTotal_append, laneTotal_singleton]
  · rfl

/-- The plan after the chains in `seen` have gone to lanes of least size. -/
structure Balanced (chains : List Chain) (limit : Nat) (seen : List Nat) (plan : Plan) : Prop where
  length : plan.buffers.length = limit
  placed : plan.buffers.flatten.Perm seen
  order : ∀ i, (plan.buffers.getD i []).Sublist seen
  sizes : ∀ i < maxNumChain,
    plan.sizes i = laneTotal chains (plan.buffers.getD i []) % 2 ^ 32
  spread : ListScheduling.Spread {i | i < limit} (largestChain chains)
    fun i => laneTotal chains (plan.buffers.getD i [])

theorem balanced_empty (chains : List Chain) (limit : Nat) {sizes : Nat → Nat}
    (zero : ∀ i < maxNumChain, sizes i = 0) :
    Balanced chains limit [] ⟨List.replicate limit [], sizes⟩ where
  length := List.length_replicate
  placed := by simp
  order := by
    intro i
    rw [getD_replicate_nil]
  sizes := by
    intro i inside
    rw [getD_replicate_nil]
    exact zero i inside
  spread := by
    have empty : (fun i => laneTotal chains ((List.replicate limit ([] : List Nat)).getD i [])) =
        fun _ => 0 := by
      funext i
      rw [getD_replicate_nil, laneTotal_nil]
    rw [empty]
    exact ListScheduling.spread_const _ (Nat.zero_le _) 0

/-- No counter of a lane has wrapped as long as a chain is still to come. -/
theorem Balanced.size_eq {chains : List Chain} {limit : Nat} {seen : List Nat} {plan : Plan}
    (balanced : Balanced chains limit seen plan) (below : laneTotal chains seen < 2 ^ 32) {i : Nat}
    (inside : i < maxNumChain) : plan.sizes i = laneTotal chains (plan.buffers.getD i []) := by
  rw [balanced.sizes i inside]
  apply Nat.mod_eq_of_lt
  refine Nat.lt_of_le_of_lt ?_ below
  have total : laneTotal chains plan.buffers.flatten = laneTotal chains seen :=
    (balanced.placed.map _).sum_eq
  rw [← total]
  exact List.Sublist.sum_le_sum ((getD_sublist_flatten plan.buffers i).map _) (by simp)

section step

variable {chains : List Chain} {limit : Nat} (set : ChainSet chains)
  (lanes : 0 < limit ∧ limit ≤ maxNumChain)
include set lanes

/-- `findMinimum` picks a lane with the fewest instructions, which takes the next
chain. -/
theorem Balanced.place {seen rest : List Nat} {id : Nat} {plan : Plan}
    (balanced : Balanced chains limit seen plan)
    (order : (seen ++ id :: rest).Perm (chains.map (·.id))) :
    ∃ next, plan.place chains (fun plan => findMinimum plan.sizes limit, id) = .ok next ∧
      Balanced chains limit (seen ++ [id]) next := by
  have listed : id ∈ chains.map (·.id) := order.mem_iff.mp (by simp)
  obtain ⟨ch, member, rfl⟩ := List.mem_map.mp listed
  have count := set.instructionCount_eq member
  have below := set.total_lt order
  obtain ⟨index, found, inside, least⟩ := findMinimum_total plan.sizes lanes.1 lanes.2
  have known : index < plan.buffers.length := by rwa [balanced.length]
  have fits : index < maxNumChain := by omega
  have placed : plan.place chains (fun plan => findMinimum plan.sizes limit, ch.id) =
      plan.push index ch.id ch.instructionList.length := by
    unfold Plan.place Plan.scheduled
    rw [set.find member, Loops.ok_bind]
    simp only [found, Loops.ok_bind]
  refine ⟨_, placed.trans (Plan.push_eq known fits _ _), ?_, ?_, ?_, ?_, ?_⟩
  · rw [List.length_modify, balanced.length]
  · exact (modify_append_flatten known ch.id).trans (balanced.placed.append_right _)
  · intro i
    rw [getD_modify known]
    split
    · exact (balanced.order i).append (List.Sublist.refl _)
    · exact (balanced.order i).trans (List.sublist_append_left _ _)
  · intro i small
    simp only
    rw [laneTotal_modify chains known, count]
    by_cases same : i = index
    · rw [if_pos same, if_pos same.symm, balanced.size_eq below fits]
    · rw [if_neg same, if_neg (Ne.symm same), balanced.sizes i small]
  · refine balanced.spread.assign (k := index) ?_ (Nat.zero_le _)
      (instructionCount_le chains ch.id) ?_ ?_
    · intro j inside
      have lower := least j inside
      rwa [balanced.size_eq below fits,
        balanced.size_eq below (Nat.lt_of_lt_of_le inside lanes.2)] at lower
    · exact (laneTotal_modify chains known ch.id index).trans (if_pos rfl)
    · intro i other
      exact (laneTotal_modify chains known ch.id i).trans (if_neg (Ne.symm other))

theorem balanced_plan {order : List Nat} (listed : order.Perm (chains.map (·.id)))
    {sizes : Nat → Nat} (zero : ∀ i < maxNumChain, sizes i = 0) :
    ∃ plan, order.foldlM (fun plan ch =>
        Plan.place chains plan (fun plan => findMinimum plan.sizes limit, ch))
        ⟨List.replicate limit [], sizes⟩ = .ok plan ∧ Balanced chains limit order plan := by
  refine Loops.foldlM_total_visited (Balanced chains limit) order ?_ (balanced_empty chains limit zero)
  intro seen id rest plan split balanced
  rw [split] at listed
  exact balanced.place set lanes listed

end step

/-- The stack of `preschedule` lists every chain once, whether it is filled now or
was filled in an earlier iteration. -/
theorem fillStack_perm {c : Core σ}
    (known : (c.graph.chainGraph.map (·.chainId)).Perm (c.inputChain.map (·.id)))
    (stack : c.stackScheChain = [] ∨ c.stackScheChain.Perm (c.inputChain.map (·.id))) :
    c.fillStack.stackScheChain.Perm (c.inputChain.map (·.id)) := by
  unfold Core.fillStack
  simp only
  split
  · exact (buildChainLevel_perm c.graph.chainGraph).trans known
  · rename_i filled
    exact stack.resolve_left fun empty => filled (by simp [empty])

/-- Level scheduling places every chain on one lane, keeps the order of the stack
in each lane, and leaves the lanes within the largest chain of each other. -/
theorem preschedule_balanced {c : Core σ} (lanes : 0 < c.numLanes ∧ c.numLanes ≤ maxNumChain)
    (set : ChainSet c.inputChain) (loaded : 0 < c.graph.chainGraph.length)
    (known : (c.graph.chainGraph.map (·.chainId)).Perm (c.inputChain.map (·.id)))
    (stack : c.stackScheChain = [] ∨ c.stackScheChain.Perm (c.inputChain.map (·.id)))
    (buffers : c.lanePreSchedule = List.replicate c.numLanes [])
    (sizes : ∀ i < maxNumChain, c.lanePreScheduleSize i = 0) :
    ∃ next, c.preschedule = .ok next ∧ next.lanePreSchedule.length = c.numLanes ∧
      next.lanePreSchedule.flatten.Perm (c.inputChain.map (·.id)) ∧
      (∀ buffer ∈ next.lanePreSchedule, buffer.Sublist next.stackScheChain) ∧
      ∀ a ∈ next.lanePreSchedule, ∀ b ∈ next.lanePreSchedule,
        laneTotal c.inputChain a ≤ laneTotal c.inputChain b + largestChain c.inputChain := by
  have listed := fillStack_perm known stack
  obtain ⟨plan, planned, balanced⟩ := balanced_plan set lanes listed sizes
  have getD : ∀ {buffer : List Nat}, buffer ∈ plan.buffers →
      ∃ i < c.numLanes, plan.buffers.getD i [] = buffer := by
    intro buffer member
    obtain ⟨i, inside, rfl⟩ := List.mem_iff_getElem.mp member
    exact ⟨i, balanced.length ▸ inside, by simp [inside]⟩
  refine ⟨c.fillStack.withPlan plan, ?_, balanced.length, balanced.placed.trans listed, ?_, ?_⟩
  · rw [c.preschedule_withPlan loaded, buffers, planned]
    rfl
  · intro buffer member
    obtain ⟨i, _, rfl⟩ := getD member
    exact balanced.order i
  · intro a first b second
    obtain ⟨i, inside, rfl⟩ := getD first
    obtain ⟨j, inside', rfl⟩ := getD second
    exact balanced.spread i inside j inside'

theorem preschedule_balanced_joiningChains :
    ∃ (cfg : Config) (c next : Core (List Nat)), cfg.dirtyGraph = joiningChains ∧
      cfg.numLanes = 2 ∧ (cfg.boot ⟨fifoRuby, [], []⟩).buildChains = .ok c ∧
      c.preschedule = .ok next ∧ next.lanePreSchedule.flatten.Perm [0, 1, 2] ∧
      ∀ a ∈ next.lanePreSchedule, ∀ b ∈ next.lanePreSchedule,
        laneTotal c.inputChain a ≤ laneTotal c.inputChain b + largestChain c.inputChain := by
  have evaluated : Loops.returns (fun graph => decide (graph.chains = [[0], [1, 2], [3]]))
      (initializeGraph ⟨0, 0, 0, 3⟩ sampleLlvm joiningChains) = true := by
    decide +kernel
  obtain ⟨graph, read, chains⟩ := Loops.returns_iff.mp evaluated
  have chains := of_decide_eq_true chains
  let cfg : Config := ⟨⟨0, 0, 0, 3⟩, sampleLlvm, joiningChains, graph, read, 2, ⟨0, 0⟩,
    ⟨1, 25, 100, 2, 2⟩, fun _ _ => none⟩
  have count : cfg.numChains = 3 := by
    change graph.chains.length = 3
    rw [chains]
    rfl
  have full : cfg.NonEmpty := by
    rw [Config.NonEmpty, count]
    change ∀ i < 3, graph.chains.getD i [] ≠ []
    rw [chains]
    decide
  have built := (boot_idle cfg (⟨fifoRuby, [], []⟩ : Ruby (List Nat))).fixed.buildChains rfl
  have ids : (cfg.graph.chainGraph.map (·.chainId)).Perm (cfg.built.map (·.id)) := by
    rw [cfg.accepted.ids, full.built_ids]
    rfl
  obtain ⟨next, returned, _, placed, _, spread⟩ := preschedule_balanced
    (c := { cfg.boot (⟨fifoRuby, [], []⟩ : Ruby (List Nat)) with
      inputChain := cfg.built
      unDependencies := cfg.graph.maps.unDependencies
      numChains := cfg.numChains }) (by simp [cfg, Config.boot, Core.new, maxNumChain]) full.chainSet (chainGraph_nonempty cfg) ids
    (.inl rfl) rfl (fun _ _ => rfl)
  refine ⟨cfg, _, next, rfl, rfl, built, returned, ?_, spread⟩
  rw [full.built_ids, count] at placed
  exact placed

end ChainSaw
