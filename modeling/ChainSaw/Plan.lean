import ChainSaw.Accepted
import ChainSaw.Core
import Mathlib.Algebra.Order.BigOperators.Group.List
import Mathlib.Algebra.Order.Group.Nat

set_option autoImplicit false

namespace ChainSaw

open Std (TreeMap TreeSet)

/-- What is fixed for a whole simulation: the parameter files, the graph that
`newGraph::initialize` accepted, the lanes and the accelerator trace. -/
structure Config where
  graphParam : GraphParam
  instructionLlvm : Opcode → Option Nat
  dirtyGraph : BoostGraph
  graph : NewGraph
  read : initializeGraph graphParam instructionLlvm dirtyGraph = .ok graph
  numLanes : Nat
  coreParam : CoreParam
  laneParam : LaneParam
  memaddrMap : Nat → Nat → Option MemValue

namespace Config

variable (cfg : Config)

theorem accepted : Accepted cfg.instructionLlvm cfg.graph := initializeGraph_ok cfg.read

def numChains : Nat := cfg.graph.chains.length

/-- The vertices of chain `i`. -/
def vertices (i : Nat) : List Nat := cfg.graph.chains.getD i []

def opcode (v : Nat) : Opcode := (cfg.graph.compGraph.vertices[v]?.map (·.opcode)).getD .nop

/-- The instruction of vertex `v` in chain `i`. -/
def node (i v : Nat) : Node where
  cId := i
  oldId := cfg.graph.origMap[v]?.getD 0
  newId := v
  name := v
  type := cfg.opcode v
  latency := (cfg.instructionLlvm (cfg.opcode v)).getD 0

def instructions (i : Nat) : List Node := (cfg.vertices i).map (cfg.node i)

/-- Chain `i` as `buildChains` makes it. -/
def chain (i : Nat) : Chain where
  id := if (cfg.vertices i).isEmpty then 0 else i
  numDependencies := (cfg.graph.maps.unReverseMapping[i]?.getD ∅).size
  liveIn := cfg.graph.maps.unReverseMapping[i]?.getD ∅
  liveOut := cfg.graph.maps.unDependencies[i]?.getD ∅
  instructionList := cfg.instructions i
  chMem := (cfg.instructions i).any (·.type.isMem)

def built : List Chain := (List.range cfg.numChains).map cfg.chain

theorem buildNode_eq {i v : Nat} (inside : v < cfg.graph.origGraph.numVertices) :
    Core.buildNode cfg.graph cfg.instructionLlvm i v = .ok (cfg.node i v) := by
  rw [← cfg.accepted.vertices] at inside
  have found := List.getElem?_eq_getElem inside
  obtain ⟨latency, known⟩ := cfg.accepted.known v _ found
  have isOpcode : cfg.opcode v = cfg.graph.compGraph.vertices[v].opcode := by
    simp [opcode, found]
  simp [Core.buildNode, found, known, deref, node, isOpcode]

theorem buildChain_eq {c : List Nat} {i : Nat} (found : cfg.graph.chains[i]? = some c) :
    Core.buildChain cfg.graph cfg.instructionLlvm c i = .ok (cfg.chain i) := by
  have isChain : cfg.vertices i = c := by simp [vertices, found]
  have nodes : c.mapM (Core.buildNode cfg.graph cfg.instructionLlvm i) =
      .ok (cfg.instructions i) := by
    rw [instructions, isChain]
    apply Loops.mapM_total
    intro v member
    exact cfg.buildNode_eq (cfg.accepted.part.lt (inChain_iff.mpr ⟨c, found, member⟩))
  unfold Core.buildChain
  rw [nodes]
  simp [chain, isChain]

theorem builtChains_eq : Core.builtChains cfg.graph cfg.instructionLlvm = .ok cfg.built := by
  have each : Core.builtChains cfg.graph cfg.instructionLlvm =
      .ok (cfg.graph.chains.zipIdx.map fun e => cfg.chain e.2) := by
    apply Loops.mapM_total
    rintro ⟨c, i⟩ member
    exact cfg.buildChain_eq (List.mem_zipIdx_iff_getElem?.mp member)
  have indices : (cfg.graph.chains.zipIdx.map fun e => cfg.chain e.2) = cfg.built := by
    rw [built, numChains, List.range_eq_range', ← List.zipIdx_map_snd 0 cfg.graph.chains,
      List.map_map]
    rfl
  rw [each, indices]

/-- A lookup by id finds the chain of that index; an empty chain other than
chain 0 is never found, since its id stays 0. -/
theorem find_built {id : Nat} {ch : Chain} (inside : id < cfg.numChains)
    (found : cfg.built.find? (fun item => item.id == id) = some ch) :
    ch = cfg.chain id ∧ (id ≠ 0 → cfg.vertices id ≠ []) := by
  have same : ch.id = id := by simpa using List.find?_some found
  by_cases first : id = 0
  · subst first
    refine ⟨?_, fun absurd => absurd rfl |>.elim⟩
    have head : cfg.built = cfg.chain 0 :: (List.range' 1 (cfg.numChains - 1)).map cfg.chain := by
      rw [built, List.range_eq_range', show cfg.numChains = (cfg.numChains - 1) + 1 by omega]
      rfl
    have zero : (cfg.chain 0).id = 0 := by simp [chain]
    rw [head, List.find?_cons_of_pos (by simp [zero])] at found
    exact (Option.some.inj found).symm
  · obtain ⟨j, _, rfl⟩ := List.mem_map.mp (List.mem_of_find?_eq_some found)
    have idIs : (cfg.chain j).id = if (cfg.vertices j).isEmpty then 0 else j := rfl
    rw [idIs] at same
    split at same
    · exact absurd same.symm first
    · rename_i full
      subst same
      exact ⟨rfl, fun _ empty => full (by simp [empty])⟩

/-- Every chain has an instruction. -/
def NonEmpty : Prop := ∀ i < cfg.numChains, cfg.vertices i ≠ []

theorem NonEmpty.chain_id {cfg : Config} (full : cfg.NonEmpty) {i : Nat}
    (inside : i < cfg.numChains) : (cfg.chain i).id = i := by
  have := full i inside
  simp [chain, this]

theorem NonEmpty.built_ids {cfg : Config} (full : cfg.NonEmpty) :
    cfg.built.map (·.id) = List.range cfg.numChains := by
  rw [built, List.map_map]
  conv_rhs => rw [← List.map_id (List.range cfg.numChains)]
  exact List.map_congr_left fun i member => full.chain_id (List.mem_range.mp member)

theorem chain_zero_nonempty : cfg.vertices 0 ≠ [] := by
  obtain ⟨t, depends⟩ := cfg.accepted.root
  exact ((cfg.accepted.depends 0 t).mp depends).source_ne_nil

/-- The number of instructions of chain `i`. -/
def count (i : Nat) : Nat := (cfg.vertices i).length

theorem length_instructions (i : Nat) : (cfg.instructions i).length = cfg.count i :=
  List.length_map _

theorem sum_count : ((List.range cfg.numChains).map cfg.count).sum =
    cfg.graph.origGraph.numVertices := by
  rw [← cfg.accepted.part.length_flatten, List.length_flatten]
  congr 1
  apply List.ext_getElem?
  intro i
  by_cases inside : i < cfg.numChains
  · have inside' : i < cfg.graph.chains.length := inside
    simp [inside, inside', count, vertices]
  · have outside : cfg.graph.chains.length ≤ i := Nat.le_of_not_lt inside
    simp [inside, outside]

end Config

/-- `lane_pre_schedule` and `lane_pre_schedule_size`. -/
structure Plan where
  buffers : List (List Nat)
  sizes : Nat → Nat

namespace Plan

def empty (n : Nat) : Plan := ⟨List.replicate n [], fun _ => 0⟩

/-- Put chain `ch` with `count` instructions at the end of a lane's buffer. -/
def push (plan : Plan) (index ch count : Nat) : Result Plan :=
  if index < plan.buffers.length then do
    let size ← readSize plan.sizes index
    let sizes ← writeSize plan.sizes index ((size + count) % 2 ^ 32)
    pure ⟨plan.buffers.modify index (· ++ [ch]), sizes⟩
  else .error .outOfRange

/-- The lookup of either scheduler, with its assertion. -/
def scheduled (inputs : List Chain) (id : Nat) : Result Chain :=
  match inputs.find? (fun item => item.id == id) with
  | some ch => .ok ch
  | none => .error (.assertion "\nERROR: Wrong scheduling!\n")

/-- Place one chain; the first part of the step chooses its lane. -/
def place (inputs : List Chain) (plan : Plan) (step : (Plan → Result Nat) × Nat) :
    Result Plan := do
  let ch ← scheduled inputs step.2
  let index ← step.1 plan
  plan.push index step.2 ch.instructionList.length

end Plan

namespace Config

variable (cfg : Config)

/-- The chains by level, as `preschedule` lists them. -/
def levelOrder : List Nat := (buildChainLevel cfg.graph.chainGraph).toList.flatMap (·.2)

/-- The chains by block, each with the number of its block. -/
def blockOrder : List (Nat × Nat) :=
  cfg.graph.blockChain.zipIdx.flatMap fun (bl, i) => bl.chains.map fun ch => (i, ch)

/-- The chains in the order of the selected scheduler, with the choice of a lane. -/
def steps : List ((Plan → Result Nat) × Nat) :=
  if cfg.coreParam.scheduler ≠ 0 then
    cfg.blockOrder.map fun e => (fun _ => .ok (e.1 % cfg.numLanes), e.2)
  else cfg.levelOrder.map fun ch => (fun plan => findMinimum plan.sizes cfg.numLanes, ch)

/-- What the selected scheduler puts into the buffers of the lanes. -/
def plan : Result Plan := cfg.steps.foldlM (Plan.place cfg.built) (Plan.empty cfg.numLanes)

theorem blockOrder_perm : (cfg.blockOrder.map (·.2)).Perm (List.range cfg.numChains) := by
  refine List.Perm.trans (List.Perm.of_eq ?_) cfg.accepted.blocks
  have ids : cfg.blockOrder.map (·.2) = cfg.graph.blockChain.zipIdx.flatMap fun e => e.1.chains := by
    simp [blockOrder, List.map_flatMap, Function.comp_def]
  rw [ids]
  conv_rhs => rw [← List.zipIdx_map_fst 0 cfg.graph.blockChain, List.flatMap_map]

theorem levelOrder_perm : cfg.levelOrder.Perm (List.range cfg.numChains) :=
  (buildChainLevel_perm cfg.graph.chainGraph).trans (List.Perm.of_eq cfg.accepted.ids)

/-- Either scheduler treats every chain once. -/
theorem steps_perm : (cfg.steps.map (·.2)).Perm (List.range cfg.numChains) := by
  unfold steps
  split
  · simpa [Function.comp_def] using cfg.blockOrder_perm
  · simpa [Function.comp_def] using cfg.levelOrder_perm

end Config

theorem modify_append_flatten {buffers : List (List Nat)} {index : Nat}
    (inside : index < buffers.length) (ch : Nat) :
    (buffers.modify index (· ++ [ch])).flatten.Perm (buffers.flatten ++ [ch]) := by
  rw [List.modify_eq_take_cons_drop inside]
  have parts : buffers = buffers.take index ++ buffers[index] :: buffers.drop (index + 1) := by simp
  conv_rhs => rw [parts]
  simp only [List.flatten_append, List.flatten_cons, List.append_assoc]
  refine List.Perm.append_left _ (List.Perm.append_left _ ?_)
  exact List.perm_append_comm

theorem getD_modify {buffers : List (List Nat)} {index : Nat} (inside : index < buffers.length)
    (f : List Nat → List Nat) (i : Nat) :
    (buffers.modify index f).getD i [] =
      if index = i then f (buffers.getD i []) else buffers.getD i [] := by
  rw [List.getD_eq_getElem?_getD, List.getD_eq_getElem?_getD, List.getElem?_modify]
  by_cases same : index = i
  · subst same
    simp [inside]
  · simp [same]

theorem getD_sublist_flatten (buffers : List (List Nat)) (i : Nat) :
    (buffers.getD i []).Sublist buffers.flatten :=
  getD_of_forall (p := (·.Sublist buffers.flatten)) (List.nil_sublist _)
    (fun _ => List.sublist_flatten_of_mem) i

/-- The plan after the chains in `seen` have been placed. -/
structure Planned (cfg : Config) (seen : List Nat) (plan : Plan) : Prop where
  length : plan.buffers.length = cfg.numLanes
  chains : plan.buffers.flatten.Perm seen
  sizes : ∀ i, plan.sizes i = ((plan.buffers.getD i []).map cfg.count).sum
  full : ∀ id ∈ seen, id ≠ 0 → cfg.vertices id ≠ []
  inside : ∀ i, plan.buffers.getD i [] ≠ [] → i < maxNumChain

@[simp] theorem getD_replicate_nil (n i : Nat) :
    (List.replicate n ([] : List Nat)).getD i [] = [] := by
  by_cases inside : i < n
  · simp [inside]
  · simp [inside]

theorem planned_empty (cfg : Config) : Planned cfg [] (Plan.empty cfg.numLanes) where
  length := List.length_replicate
  chains := by simp [Plan.empty]
  sizes := by
    intro i
    rw [Plan.empty, getD_replicate_nil]
    rfl
  full := by simp
  inside := by
    intro i used
    exact absurd (getD_replicate_nil cfg.numLanes i) used

theorem Plan.push_ok {plan next : Plan} {index ch count : Nat}
    (pushed : plan.push index ch count = .ok next) :
    index < plan.buffers.length ∧ index < maxNumChain ∧
      next.buffers = plan.buffers.modify index (· ++ [ch]) ∧
      next.sizes = fun j => if j = index then (plan.sizes index + count) % 2 ^ 32
        else plan.sizes j := by
  unfold Plan.push at pushed
  split at pushed
  · rename_i inside
    obtain ⟨size, read, pushed⟩ := Loops.bind_eq_ok.mp pushed
    obtain ⟨sizes, written, pushed⟩ := Loops.bind_eq_ok.mp pushed
    cases pushed
    obtain ⟨small, rfl⟩ := readSize_eq_ok.mp read
    obtain ⟨_, rfl⟩ := writeSize_eq_ok.mp written
    exact ⟨inside, small, rfl, rfl⟩
  · cases pushed

theorem Plan.push_eq {plan : Plan} {index : Nat} (inside : index < plan.buffers.length)
    (small : index < maxNumChain) (ch count : Nat) :
    plan.push index ch count = .ok ⟨plan.buffers.modify index (· ++ [ch]),
      fun j => if j = index then (plan.sizes index + count) % 2 ^ 32 else plan.sizes j⟩ := by
  unfold Plan.push
  rw [if_pos inside, readSize_eq_ok.mpr ⟨small, rfl⟩, Loops.ok_bind,
    writeSize_eq_ok.mpr ⟨small, rfl⟩]
  rfl

/-- The chains of one buffer are some of the chains placed so far. -/
theorem Planned.sum_le {cfg : Config} {seen : List Nat} {plan : Plan}
    (planned : Planned cfg seen plan) (i : Nat) : plan.sizes i ≤ (seen.map cfg.count).sum := by
  rw [planned.sizes]
  have total : ((plan.buffers.flatten).map cfg.count).sum = (seen.map cfg.count).sum :=
    (planned.chains.map cfg.count).sum_eq
  rw [← total]
  exact List.Sublist.sum_le_sum ((getD_sublist_flatten plan.buffers i).map _) (by simp)

theorem Plan.scheduled_ok {inputs : List Chain} {id : Nat} {ch : Chain}
    (found : Plan.scheduled inputs id = .ok ch) :
    inputs.find? (fun item => item.id == id) = some ch := by
  unfold Plan.scheduled at found
  split at found
  · cases found
    assumption
  · cases found

theorem Planned.place {cfg : Config} {seen : List Nat} (rest : List Nat) {plan next : Plan}
    {step : (Plan → Result Nat) × Nat} (planned : Planned cfg seen plan)
    (order : (seen ++ step.2 :: rest).Perm (List.range cfg.numChains))
    (placed : plan.place cfg.built step = .ok next) : Planned cfg (seen ++ [step.2]) next := by
  obtain ⟨ch, found, placed⟩ := Loops.bind_eq_ok.mp placed
  obtain ⟨index, _, placed⟩ := Loops.bind_eq_ok.mp placed
  obtain ⟨inside, small, buffers, sizes⟩ := Plan.push_ok placed
  have known : step.2 < cfg.numChains := by
    rw [← List.mem_range, ← order.mem_iff]
    simp
  obtain ⟨rfl, full⟩ := cfg.find_built known (Plan.scheduled_ok found)
  have bounded : ((seen ++ [step.2]).map cfg.count).sum ≤ cfg.graph.origGraph.numVertices := by
    rw [← cfg.sum_count, ← (order.map cfg.count).sum_eq]
    simp only [List.map_append, List.sum_append, List.map_cons, List.sum_cons, List.map_nil,
      List.sum_nil]
    omega
  refine ⟨?_, ?_, ?_, ?_, ?_⟩
  · rw [buffers, List.length_modify, planned.length]
  · rw [buffers]
    exact (modify_append_flatten inside step.2).trans (planned.chains.append_right _)
  · intro i
    rw [buffers, sizes, getD_modify inside]
    by_cases same : index = i
    · subst same
      have old := planned.sizes index
      have below := planned.sum_le index
      have small := cfg.accepted.small
      simp only [List.map_append, List.sum_append, List.map_cons, List.sum_cons, List.map_nil,
        List.sum_nil, Nat.add_zero] at bounded
      have length : (cfg.chain step.2).instructionList.length = cfg.count step.2 :=
        cfg.length_instructions step.2
      simp only [↓reduceIte, List.map_append, List.sum_append, List.map_cons, List.sum_cons,
        List.map_nil, List.sum_nil, Nat.add_zero, length, ← old]
      exact Nat.mod_eq_of_lt (by omega)
    · simp only [same, Ne.symm same, ↓reduceIte]
      exact planned.sizes i
  · intro id member
    rcases List.mem_append.mp member with old | new
    · exact planned.full id old
    · rw [List.mem_singleton.mp new]
      exact full
  · intro i used
    rw [buffers, getD_modify inside] at used
    by_cases same : index = i
    · rw [← same]
      exact small
    · rw [if_neg same] at used
      exact planned.inside i used

/-- A plan that the scheduler returns spreads all chains over the lanes. -/
theorem plan_planned {cfg : Config} {plan : Plan} (returned : cfg.plan = .ok plan) :
    Planned cfg (cfg.steps.map (·.2)) plan := by
  refine Loops.foldlM_ok_visited (fun seen plan => Planned cfg (seen.map (·.2)) plan) cfg.steps ?_
    (planned_empty cfg) returned
  intro seen step rest plan next split planned placed
  rw [List.map_append]
  refine planned.place (rest.map (·.2)) ?_ placed
  have order := cfg.steps_perm
  rw [split] at order
  simpa using order

/-- The buffers of the lanes partition the chains. -/
theorem plan_partition {cfg : Config} {plan : Plan} (returned : cfg.plan = .ok plan) :
    Partition cfg.numChains plan.buffers :=
  (plan_planned returned).chains.trans cfg.steps_perm

/-- A scheduler that returns has found every chain, so none is empty. -/
theorem nonEmpty_of_plan {cfg : Config} {plan : Plan} (returned : cfg.plan = .ok plan) :
    cfg.NonEmpty := by
  intro i inside
  by_cases first : i = 0
  · rw [first]
    exact cfg.chain_zero_nonempty
  · refine (plan_planned returned).full i ?_ first
    rw [cfg.steps_perm.mem_iff, List.mem_range]
    exact inside

theorem Config.NonEmpty.find_built {cfg : Config} (full : cfg.NonEmpty) {id : Nat}
    (known : id < cfg.numChains) :
    cfg.built.find? (fun item => item.id == id) = some (cfg.chain id) := by
  cases search : cfg.built.find? (fun item => item.id == id) with
  | none =>
    have member : cfg.chain id ∈ cfg.built := List.mem_map_of_mem (List.mem_range.mpr known)
    have absent := List.find?_eq_none.mp search _ member
    simp [full.chain_id known] at absent
  | some ch => rw [(cfg.find_built known search).1]

/-- The scan of `findMinimum` stays in the array and returns a least entry. -/
theorem findMinimum_total (arr : Nat → Nat) {limit : Nat} (positive : 0 < limit)
    (fits : limit ≤ maxNumChain) :
    ∃ index, findMinimum arr limit = .ok index ∧ index < limit ∧ ∀ j < limit, arr index ≤ arr j := by
  unfold findMinimum
  rw [readSize_eq_ok.mpr ⟨by omega, rfl⟩, Loops.ok_bind]
  obtain ⟨⟨min, index⟩, looped, isEntry, below, least⟩ := Loops.foldlM_total_visited
    (f := fun (least : Nat × Nat) i => do
      let value ← readSize arr i
      pure (if value < least.1 then (value, i) else (least.1, least.2)))
    -- The pair is an entry and its index, no larger than the entries read so far.
    (fun seen least => least.1 = arr least.2 ∧ least.2 < limit ∧ ∀ j ∈ 0 :: seen, least.1 ≤ arr j)
    (List.range' 1 (limit - 1)) (by
      rintro seen i rest ⟨min, index⟩ split ⟨isEntry, below, least⟩
      have member : i ∈ List.range' 1 (limit - 1) := by simp [split]
      obtain ⟨_, high⟩ := List.mem_range'_1.mp member
      refine ⟨_, by rw [readSize_eq_ok.mpr ⟨by omega, rfl⟩]; rfl, ?_⟩
      simp only [List.mem_cons, List.mem_append, List.not_mem_nil, or_false] at least ⊢
      split
      · rename_i smaller
        refine ⟨rfl, by simp only; omega, ?_⟩
        rintro j (first | old | rfl)
        · exact (Nat.le_of_lt smaller).trans (least j (.inl first))
        · exact (Nat.le_of_lt smaller).trans (least j (.inr old))
        · exact Nat.le_refl _
      · rename_i kept
        refine ⟨isEntry, below, ?_⟩
        rintro j (first | old | rfl)
        · exact least j (.inl first)
        · exact least j (.inr old)
        · exact Nat.le_of_not_lt kept)
    (b := (arr 0, 0)) (by simp [positive])
  refine ⟨index, by rw [looped]; rfl, below, ?_⟩
  intro j inside
  rw [← isEntry]
  apply least
  rw [List.mem_cons, List.mem_range'_1]
  omega

section total

variable {cfg : Config} (lanes : 0 < cfg.numLanes ∧ cfg.numLanes ≤ maxNumChain)
include lanes

theorem steps_choice {step : (Plan → Result Nat) × Nat} (member : step ∈ cfg.steps) (plan : Plan) :
    ∃ index, step.1 plan = .ok index ∧ index < cfg.numLanes := by
  unfold Config.steps at member
  split at member
  · obtain ⟨e, _, rfl⟩ := List.mem_map.mp member
    exact ⟨_, rfl, Nat.mod_lt _ lanes.1⟩
  · obtain ⟨ch, _, rfl⟩ := List.mem_map.mp member
    obtain ⟨index, found, below, _⟩ := findMinimum_total plan.sizes lanes.1 lanes.2
    exact ⟨index, found, below⟩

theorem plan_total (full : cfg.NonEmpty) : ∃ plan, cfg.plan = .ok plan := by
  obtain ⟨plan, returned, _⟩ := Loops.foldlM_total_visited
    (f := Plan.place cfg.built) (fun seen plan => Planned cfg (seen.map (·.2)) plan) cfg.steps (by
      intro seen step rest plan split planned
      have order := cfg.steps_perm
      rw [split] at order
      have known : step.2 < cfg.numChains := by
        rw [← List.mem_range, ← order.mem_iff]
        simp
      have found := full.find_built known
      obtain ⟨index, chosen, below⟩ := steps_choice lanes (by simp [split] : step ∈ cfg.steps) plan
      have placed : ∃ next, plan.place cfg.built step = .ok next := by
        unfold Plan.place Plan.scheduled
        rw [found, Loops.ok_bind, chosen, Loops.ok_bind,
          Plan.push_eq (by rwa [planned.length]) (by omega)]
        exact ⟨_, rfl⟩
      obtain ⟨next, placed⟩ := placed
      refine ⟨next, placed, ?_⟩
      rw [List.map_append]
      exact planned.place (rest.map (·.2)) (by simpa using order) placed)
    (b := Plan.empty cfg.numLanes) (planned_empty cfg)
  exact ⟨plan, returned⟩

end total

theorem findMinimum_error {arr : Nat → Nat} {limit : Nat} {fault : Fault}
    (failed : findMinimum arr limit = .error fault) : fault = .outOfRange := by
  rcases Loops.bind_eq_error.mp failed with first | ⟨_, _, failed⟩
  · exact readSize_error first
  rcases Loops.bind_eq_error.mp failed with looped | ⟨_, _, impossible⟩
  · obtain ⟨i, _, least, turn⟩ := Loops.foldlM_fails looped
    rcases Loops.bind_eq_error.mp turn with read | ⟨_, _, impossible⟩
    · exact readSize_error read
    · cases impossible
  · cases impossible

theorem Plan.push_error {plan : Plan} {index ch count : Nat} {fault : Fault}
    (failed : plan.push index ch count = .error fault) : fault = .outOfRange := by
  unfold Plan.push at failed
  split at failed
  · rcases Loops.bind_eq_error.mp failed with read | ⟨size, read, failed⟩
    · exact readSize_error read
    · rw [writeSize_eq_ok.mpr ⟨(readSize_eq_ok.mp read).1, rfl⟩] at failed
      cases failed
  · cases failed
    rfl

/-- Whatever the number of lanes, no lookup of a scheduler misses: a scheduler
can only fail by leaving the arrays of the lanes. -/
theorem plan_error {cfg : Config} (full : cfg.NonEmpty) {fault : Fault}
    (failed : cfg.plan = .error fault) : fault = .outOfRange := by
  obtain ⟨step, member, plan, failed⟩ := Loops.foldlM_fails failed
  have known : step.2 < cfg.numChains := by
    rw [← List.mem_range, ← cfg.steps_perm.mem_iff]
    exact List.mem_map_of_mem member
  unfold Plan.place Plan.scheduled at failed
  rw [full.find_built known, Loops.ok_bind] at failed
  rcases Loops.bind_eq_error.mp failed with choice | ⟨index, _, pushed⟩
  · unfold Config.steps at member
    split at member
    · obtain ⟨e, _, rfl⟩ := List.mem_map.mp member
      cases choice
    · obtain ⟨ch, _, rfl⟩ := List.mem_map.mp member
      exact findMinimum_error choice
  · exact Plan.push_error pushed

end ChainSaw
