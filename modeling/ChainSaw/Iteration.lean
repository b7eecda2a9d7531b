import ChainSaw.Plan
import ChainSaw.LanePipeline

set_option autoImplicit false

namespace ChainSaw

open Std (TreeMap TreeSet)

variable {σ : Type}

namespace Core

def withPlan (c : Core σ) (plan : Plan) : Core σ :=
  { c with lanePreSchedule := plan.buffers, lanePreScheduleSize := plan.sizes }

theorem pushPreSchedule_withPlan (c : Core σ) (plan : Plan) (index ch count : Nat) :
    (c.withPlan plan).pushPreSchedule index ch count =
      (plan.push index ch count).map c.withPlan := by
  unfold pushPreSchedule Plan.push withPlan
  simp only
  split
  · by_cases inside : index < maxNumChain
    · simp [readSize, writeSize, inside, Except.map]
    · simp [readSize, inside, Except.map, bind, Except.bind]
  · rfl

/-- Placing a chain changes the plan and nothing else. -/
theorem pushPreSchedule_ok {c c' : Core σ} {index ch count : Nat}
    (returned : c.pushPreSchedule index ch count = .ok c') : ∃ plan, c' = c.withPlan plan := by
  unfold pushPreSchedule at returned
  split at returned
  · obtain ⟨size, _, returned⟩ := Loops.bind_eq_ok.mp returned
    obtain ⟨sizes, _, returned⟩ := Loops.bind_eq_ok.mp returned
    cases returned
    exact ⟨⟨_, sizes⟩, rfl⟩
  · cases returned

theorem prescheduleChain_withPlan (c : Core σ) (plan : Plan) (ch : Nat) :
    (c.withPlan plan).prescheduleChain ch =
      (plan.place c.inputChain (fun plan => findMinimum plan.sizes c.numLanes, ch)).map
        c.withPlan := by
  have found : (c.withPlan plan).findScheduled ch = Plan.scheduled c.inputChain ch := rfl
  unfold prescheduleChain Plan.place
  rw [found]
  cases Plan.scheduled c.inputChain ch with
  | error fault => rfl
  | ok chain =>
    simp only [Loops.ok_bind]
    change (findMinimum plan.sizes c.numLanes >>= _) = _
    cases findMinimum plan.sizes c.numLanes with
    | error fault => rfl
    | ok index => exact pushPreSchedule_withPlan c plan index ch _

theorem blockPrescheduleChain_withPlan (c : Core σ) (plan : Plan) (e : Nat × Nat) :
    (c.withPlan plan).blockPrescheduleChain e =
      (plan.place c.inputChain (fun _ => .ok (e.1 % c.lanes.length), e.2)).map c.withPlan := by
  have found : (c.withPlan plan).findScheduled e.2 = Plan.scheduled c.inputChain e.2 := rfl
  unfold blockPrescheduleChain Plan.place
  rw [found]
  cases Plan.scheduled c.inputChain e.2 with
  | error fault => rfl
  | ok chain => exact pushPreSchedule_withPlan c plan _ e.2 _

/-- `preschedule` is a loop on the plan. -/
theorem preschedule_withPlan (c : Core σ) (loaded : 0 < c.graph.chainGraph.length) :
    c.preschedule = (c.fillStack.stackScheChain.foldlM (fun plan ch =>
      Plan.place c.inputChain plan (fun plan => findMinimum plan.sizes c.numLanes, ch))
      ⟨c.lanePreSchedule, c.lanePreScheduleSize⟩).map c.fillStack.withPlan := by
  unfold preschedule
  rw [(check_eq_ok (u := ())).mpr (decide_eq_true loaded), Loops.ok_bind]
  exact Loops.foldlM_map c.fillStack.withPlan c.fillStack.stackScheChain
    (fun plan ch _ => prescheduleChain_withPlan c.fillStack plan ch)
    ⟨c.lanePreSchedule, c.lanePreScheduleSize⟩

end Core

theorem foldlM_writeTable {entries : List (Nat × Nat)} {value : Nat} :
    ∀ {table next : DepenTable},
      entries.foldlM (fun table e => writeTable table e.1 e.2 value) table = .ok next →
      next = fun row col => if (row, col) ∈ entries then value else table row col := by
  induction entries with
  | nil =>
    intro table next returned
    cases returned
    simp
  | cons e rest ih =>
    intro table next returned
    obtain ⟨mid, written, returned⟩ := Loops.foldlM_cons_ok.mp returned
    obtain ⟨_, rfl⟩ := writeTable_eq_ok.mp written
    rw [ih returned]
    funext row col
    by_cases later : (row, col) ∈ rest
    · simp [later]
    · by_cases here : (row, col) = e
      · simp [← here]
      · have apart : ¬ (row = e.1 ∧ col = e.2) := fun both => here (Prod.ext both.1 both.2)
        simp [later, here, apart]

theorem foldlM_writeTable_total {entries : List (Nat × Nat)} (value : Nat)
    (inside : ∀ e ∈ entries, e.1 < maxNumChain ∧ e.2 < maxNumChain) (table : DepenTable) :
    ∃ next, entries.foldlM (fun table e => writeTable table e.1 e.2 value) table = .ok next := by
  obtain ⟨next, returned, _⟩ := Loops.foldlM_total
    (f := fun (table : DepenTable) (e : Nat × Nat) => writeTable table e.1 e.2 value)
    (fun _ => True) entries (fun table _ e member =>
      ⟨_, writeTable_eq_ok.mpr ⟨inside e member, rfl⟩, trivial⟩) (b := table) trivial
  exact ⟨next, returned⟩

/-- The entries of the dependency table: row `t` has one for every chain that
chain `t` waits for. -/
def tableEntries (un : ChainSets) : List (Nat × Nat) :=
  un.toList.flatMap fun dep => dep.2.toList.map fun t => (t, dep.1)

theorem mem_tableEntries {un : ChainSets} {s t : Nat} :
    (t, s) ∈ tableEntries un ↔ Depends un s t := by
  unfold tableEntries Depends
  simp only [List.mem_flatMap, List.mem_map, Prod.mk.injEq]
  constructor
  · rintro ⟨⟨s, set⟩, listed, t, member, rfl, rfl⟩
    rw [TreeMap.mem_toList_iff_getElem?_eq_some] at listed
    simpa [listed] using member
  · intro member
    cases found : un[s]? with
    | none => simp [found] at member
    | some set =>
      exact ⟨(s, set), TreeMap.mem_toList_iff_getElem?_eq_some.mpr found, t,
        by simpa [found] using member, rfl, rfl⟩

/-- What no step of the simulation changes. -/
structure Fixed (cfg : Config) (c : Core σ) : Prop where
  graph : c.graph = cfg.graph
  param : c.param = cfg.coreParam
  numLanes : c.numLanes = cfg.numLanes
  llvm : c.instructionLlvm = cfg.instructionLlvm
  lanes : c.lanes.length = cfg.numLanes

/-- The state of the scheduler between two iterations. -/
structure Idle (cfg : Config) (c : Core σ) : Prop where
  fixed : Fixed cfg c
  inputs : c.inputChain = []
  buffers : c.lanePreSchedule = List.replicate cfg.numLanes []
  sizes : c.lanePreScheduleSize = fun _ => 0
  table : c.depenTable = fun _ _ => 0
  stack : c.stackScheChain = [] ∨ c.stackScheChain = cfg.levelOrder
  finished : c.queues.finishedChains = []
  lanes : ∀ l ∈ c.lanes, l.Valid

/-- The core after `buildChains`, `coreSetIter` and `initialize`. -/
def Core.begun (cfg : Config) (c : Core σ) (n : Nat) (plan : Plan) (stack : List Nat) : Core σ :=
  { c with
    numIter := n
    inputChain := cfg.built
    unDependencies := cfg.graph.maps.unDependencies
    numChains := cfg.numChains
    depenTable := fun t s => if Depends cfg.graph.maps.unDependencies s t then 1 else 0
    lanePreSchedule := plan.buffers
    lanePreScheduleSize := plan.sizes
    stackScheChain := stack }

theorem chainGraph_nonempty (cfg : Config) : 0 < cfg.graph.chainGraph.length := by
  have ids := congrArg List.length cfg.accepted.ids
  rw [List.length_map, List.length_range] at ids
  rw [ids]
  obtain ⟨t, depends⟩ := cfg.accepted.root
  exact ((cfg.accepted.depends 0 t).mp depends).lt_length.1

section schedule

variable {cfg : Config} {c : Core σ} (fixed : Fixed cfg c) (inputs : c.inputChain = cfg.built)
  (buffers : c.lanePreSchedule = List.replicate cfg.numLanes [])
  (sizes : c.lanePreScheduleSize = fun _ => 0)
include fixed inputs buffers sizes

theorem blockPreschedule_eq (scheduler : cfg.coreParam.scheduler ≠ 0) :
    c.blockPreschedule = cfg.plan.map c.withPlan := by
  have start : c.withPlan (Plan.empty cfg.numLanes) = c := by
    rw [Core.withPlan, Plan.empty, ← buffers, ← sizes]
  have placed : cfg.blockOrder.foldlM Core.blockPrescheduleChain
      (c.withPlan (Plan.empty cfg.numLanes)) =
      (cfg.blockOrder.foldlM (fun plan e =>
        Plan.place cfg.built plan (fun _ => .ok (e.1 % cfg.numLanes), e.2))
        (Plan.empty cfg.numLanes)).map c.withPlan := by
    apply Loops.foldlM_map
    intro plan e _
    rw [Core.blockPrescheduleChain_withPlan, inputs, fixed.lanes]
  have loaded : 0 < cfg.graph.chainGraph.length := chainGraph_nonempty cfg
  unfold Core.blockPreschedule Config.plan Config.steps
  rw [fixed.graph, (check_eq_ok (u := ())).mpr (decide_eq_true loaded), Loops.ok_bind,
    if_pos scheduler, List.foldlM_map, ← placed, start]
  rfl

theorem preschedule_eq (stack : c.stackScheChain = [] ∨ c.stackScheChain = cfg.levelOrder)
    (scheduler : ¬ cfg.coreParam.scheduler ≠ 0) :
    c.preschedule = cfg.plan.map { c with stackScheChain := cfg.levelOrder }.withPlan := by
  have order : c.fillStack = { c with stackScheChain := cfg.levelOrder } := by
    unfold Core.fillStack
    rw [fixed.graph]
    rcases stack with empty | filled
    · simp [empty, Config.levelOrder]
    · simp only [filled]
      split <;> rfl
  have loaded : 0 < c.graph.chainGraph.length := by
    rw [fixed.graph]
    exact chainGraph_nonempty cfg
  unfold Config.plan Config.steps
  rw [c.preschedule_withPlan loaded, order, if_neg scheduler, List.foldlM_map, inputs,
    fixed.numLanes, buffers, sizes]
  rfl

end schedule

theorem Fixed.buildChains {cfg : Config} {c : Core σ} (fixed : Fixed cfg c)
    (inputs : c.inputChain = []) :
    c.buildChains = .ok { c with
      inputChain := cfg.built
      unDependencies := cfg.graph.maps.unDependencies
      numChains := cfg.numChains } := by
  unfold Core.buildChains
  rw [fixed.graph, fixed.llvm, cfg.builtChains_eq, Loops.ok_bind, inputs]
  simp [Config.built]

/-- Every iteration starts from the same plan and the same dependency table. -/
theorem Idle.beginIteration {cfg : Config} {c : Core σ} (idle : Idle cfg c) (n : Nat)
    {table : DepenTable}
    (filled : (tableEntries cfg.graph.maps.unDependencies).foldlM
      (fun table e => writeTable table e.1 e.2 1) c.depenTable = .ok table) :
    ∃ stack, (stack = [] ∨ stack = cfg.levelOrder) ∧
      c.beginIteration n = cfg.plan.map fun plan => c.begun cfg n plan stack := by
  obtain ⟨fixed, inputs, buffers, sizes, clear, stacked, _, _⟩ := idle
  have value : table = fun t s => if Depends cfg.graph.maps.unDependencies s t then 1 else 0 := by
    rw [foldlM_writeTable filled]
    funext t s
    rw [clear]
    simp only [mem_tableEntries]
  let ready : Core σ := { c with
    numIter := n
    inputChain := cfg.built
    unDependencies := cfg.graph.maps.unDependencies
    numChains := cfg.numChains
    depenTable := table }
  have fixedReady : Fixed cfg ready := ⟨fixed.graph, fixed.param, fixed.numLanes, fixed.llvm,
    fixed.lanes⟩
  have begun : c.beginIteration n =
      if ready.param.scheduler ≠ 0 then ready.blockPreschedule else ready.preschedule := by
    unfold Core.beginIteration Core.initializeCore Core.initializeDepenTable
    rw [fixed.buildChains inputs, Loops.ok_bind]
    unfold tableEntries at filled
    simp only [Core.coreSetIter, filled, Loops.ok_bind, Loops.pure_eq_ok]
    rfl
  rw [begun, fixedReady.param]
  split
  · rename_i scheduler
    refine ⟨c.stackScheChain, stacked, ?_⟩
    rw [blockPreschedule_eq fixedReady rfl buffers sizes scheduler]
    simp only [ready, value]
    rfl
  · rename_i scheduler
    refine ⟨cfg.levelOrder, .inr rfl, ?_⟩
    rw [preschedule_eq fixedReady rfl buffers sizes stacked scheduler]
    simp only [ready, value]
    rfl

theorem Idle.beginIteration_ok {cfg : Config} {c c' : Core σ} (idle : Idle cfg c) {n : Nat}
    (returned : c.beginIteration n = .ok c') :
    ∃ plan stack, cfg.plan = .ok plan ∧ (stack = [] ∨ stack = cfg.levelOrder) ∧
      c' = c.begun cfg n plan stack := by
  have filled : ∃ table, (tableEntries cfg.graph.maps.unDependencies).foldlM
      (fun table e => writeTable table e.1 e.2 1) c.depenTable = .ok table := by
    obtain ⟨next, built, initialized⟩ := Loops.bind_eq_ok.mp returned
    obtain ⟨chains, _, built⟩ := Loops.bind_eq_ok.mp built
    cases built
    obtain ⟨_, initialized, _⟩ := Loops.bind_eq_ok.mp initialized
    obtain ⟨table, filled, _⟩ := Loops.bind_eq_ok.mp initialized
    simp only [Core.coreSetIter, idle.fixed.graph] at filled
    exact ⟨table, filled⟩
  obtain ⟨table, filled⟩ := filled
  obtain ⟨stack, stacked, begun⟩ := idle.beginIteration n filled
  rw [begun] at returned
  cases planned : cfg.plan with
  | error fault =>
    rw [planned] at returned
    cases returned
  | ok plan =>
    rw [planned] at returned
    cases returned
    exact ⟨plan, stack, rfl, stacked, rfl⟩

/-- The sizes of the tables and arrays suffice for the graph and the lanes. -/
structure Config.Fits (cfg : Config) : Prop where
  nonEmpty : cfg.NonEmpty
  chains : cfg.numChains ≤ maxNumChain
  lanes : 0 < cfg.numLanes ∧ cfg.numLanes ≤ maxNumChain

theorem Config.depends_lt (cfg : Config) {s t : Nat}
    (depends : Depends cfg.graph.maps.unDependencies s t) :
    s < cfg.numChains ∧ t < cfg.numChains :=
  ((cfg.accepted.depends s t).mp depends).lt_length

/-- An iteration starts with the plan, or fails as the plan does. -/
theorem Idle.beginIteration_planned {cfg : Config} {c : Core σ} (idle : Idle cfg c)
    (few : cfg.numChains ≤ maxNumChain) (n : Nat) :
    ∃ stack, c.beginIteration n = cfg.plan.map fun plan => c.begun cfg n plan stack := by
  have inside : ∀ e ∈ tableEntries cfg.graph.maps.unDependencies,
      e.1 < maxNumChain ∧ e.2 < maxNumChain := by
    rintro ⟨t, s⟩ member
    have small := cfg.depends_lt (mem_tableEntries.mp member)
    simp only
    omega
  obtain ⟨table, filled⟩ := foldlM_writeTable_total 1 inside c.depenTable
  obtain ⟨stack, _, begun⟩ := idle.beginIteration n filled
  exact ⟨stack, begun⟩

theorem Idle.beginIteration_total {cfg : Config} {c : Core σ} (idle : Idle cfg c)
    (fits : cfg.Fits) (n : Nat) : ∃ c', c.beginIteration n = .ok c' := by
  obtain ⟨stack, begun⟩ := idle.beginIteration_planned fits.chains n
  obtain ⟨plan, planned⟩ := plan_total fits.lanes fits.nonEmpty
  rw [begun, planned]
  exact ⟨_, rfl⟩

theorem Idle.beginIteration_error {cfg : Config} {c : Core σ} (idle : Idle cfg c)
    (full : cfg.NonEmpty) (few : cfg.numChains ≤ maxNumChain) {n : Nat} {fault : Fault}
    (failed : c.beginIteration n = .error fault) : fault = .outOfRange := by
  obtain ⟨stack, begun⟩ := idle.beginIteration_planned few n
  rw [begun] at failed
  cases planned : cfg.plan with
  | error raised =>
    rw [planned] at failed
    cases failed
    exact plan_error full planned
  | ok plan =>
    rw [planned] at failed
    cases failed

end ChainSaw
