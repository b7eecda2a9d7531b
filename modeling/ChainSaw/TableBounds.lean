import ChainSaw.SchedulerState

set_option autoImplicit false

namespace ChainSaw

variable {σ : Type}

namespace Core

/-- The entries of `depen_table` that `initialize_depen_table` sets. -/
def initializeDepenTableUses (c : Core σ) : List (Nat × Nat) := tableEntries c.unDependencies

/-- The entries of `depen_table` that `updateChains` clears. -/
def updateChainsUses (c : Core σ) : List (Nat × Nat) :=
  c.queues.finishedChains.flatMap fun tempC =>
    (c.unDependencies[tempC]?.getD ∅).toList.map fun chFree => (chFree, tempC)

/-- The chains of a buffer whose rows are read: up to the first that waits for
nothing. -/
def rowsRead (c : Core σ) : List Nat → List Nat
  | [] => []
  | schCh :: rest =>
    schCh :: if c.rowStatus schCh = .ok 0 then [] else c.rowsRead rest

/-- The entries of `depen_table` that the turn of lane `i` in `ooo_scheduler` reads. -/
def laneTableUses (c : Core σ) (i : Nat) : List (Nat × Nat) :=
  match c.lanes[i]?, c.lanePreSchedule[i]? with
  | some lane, some scheBuff =>
    if lane.isFree then
      (c.rowsRead scheBuff).flatMap fun schCh => (List.range c.numChains).map fun j => (schCh, j)
    else []
  | _, _ => []

/-- The entries of `lane_pre_schedule_size` that this turn updates. -/
def laneSizeUses (c : Core σ) (i : Nat) : List Nat :=
  match c.lanes[i]?, c.lanePreSchedule[i]? with
  | some lane, some scheBuff =>
    if lane.isFree then
      match c.findFree scheBuff with
      | .ok (some _) => [i]
      | _ => []
    else []
  | _, _ => []

/-- The entries of `lane_pre_schedule_size` that `preschedule` uses for a chain it
finds: those that `findMinimum` compares, and the one it returns. -/
def prescheduleUses (c : Core σ) (schCh : Nat) : List Nat :=
  match c.findScheduled schCh with
  | .error _ => []
  | .ok _ =>
    0 :: List.range' 1 (c.numLanes - 1) ++
      match findMinimum c.lanePreScheduleSize c.numLanes with
      | .ok laneIndex => [laneIndex]
      | .error _ => []

/-- The entry that `block_preschedule` uses for a chain it finds. -/
def blockPrescheduleUses (c : Core σ) (e : Nat × Nat) : List Nat :=
  match c.findScheduled e.2 with
  | .error _ => []
  | .ok _ => [e.1 % c.lanes.length]

end Core

/-- `Core::initialize` stays inside the tables, in every turn it comes to. -/
structure StartInRange (c : Core σ) : Prop where
  table : ∀ e ∈ c.initializeDepenTableUses, e.1 < maxNumChain ∧ e.2 < maxNumChain
  level : ∀ filled, c.initializeDepenTable = .ok filled → ¬ filled.param.scheduler ≠ 0 →
    ∀ schCh mid, Loops.Turn Core.prescheduleChain filled.fillStack.stackScheChain
      filled.fillStack schCh mid → ∀ i ∈ mid.prescheduleUses schCh, i < maxNumChain
  block : ∀ filled, c.initializeDepenTable = .ok filled → filled.param.scheduler ≠ 0 →
    ∀ e mid, Loops.Turn Core.blockPrescheduleChain
      (filled.graph.blockChain.zipIdx.flatMap fun (bl, i) => bl.chains.map fun ch => (i, ch))
      filled e mid → ∀ i ∈ mid.blockPrescheduleUses e, i < maxNumChain

/-- The scheduler stages of the next cycle stay inside the tables, in the turn of
every completion and every lane they come to. -/
def CycleInRange (c : Core σ) : Prop :=
  ∀ sent woken, c.runOneCycleCore.sendMemoryReq = .ok sent → sent.updateMemExe = .ok woken →
    (∀ e ∈ woken.updateChainsUses, e.1 < maxNumChain ∧ e.2 < maxNumChain) ∧
      ∀ released, woken.updateChains = .ok released → ∀ i mid,
        Loops.Turn Core.scheduleLane (List.range released.lanes.length) released i mid →
        (∀ e ∈ mid.laneTableUses i, e.1 < maxNumChain ∧ e.2 < maxNumChain) ∧
          ∀ k ∈ mid.laneSizeUses i, k < maxNumChain

/-- The result of `findMinimum` is one of the entries it has read. -/
theorem findMinimum_lt {arr : Nat → Nat} {limit index : Nat}
    (returned : findMinimum arr limit = .ok index) : index < maxNumChain := by
  obtain ⟨first, read, returned⟩ := Loops.bind_eq_ok.mp returned
  obtain ⟨⟨least, last⟩, looped, returned⟩ := Loops.bind_eq_ok.mp returned
  cases returned
  refine Loops.foldlM_ok (fun best : Nat × Nat => best.2 < maxNumChain) _ ?_
    (readSize_eq_ok.mp read).1 looped
  intro best inside i _ next turn
  obtain ⟨value, read, turn⟩ := Loops.bind_eq_ok.mp turn
  cases turn
  split
  · exact (readSize_eq_ok.mp read).1
  · exact inside

theorem fileChain_length (ch : ChainGraph) (blocks : List Block) :
    (fileChain ch blocks).length ≤ blocks.length + 1 := by
  induction blocks with
  | nil => simp [fileChain]
  | cons bl rest ih =>
    unfold fileChain
    split
    · simp
    · simpa using ih

theorem fileChains_length (chainGraph : List ChainGraph) (blocks : List Block) :
    (chainGraph.foldl (fun blocks ch => fileChain ch blocks) blocks).length ≤
      blocks.length + chainGraph.length := by
  induction chainGraph generalizing blocks with
  | nil => simp
  | cons ch rest ih =>
    have longer := ih (fileChain ch blocks)
    have filed := fileChain_length ch blocks
    rw [List.foldl_cons, List.length_cons]
    omega

/-- A block is opened for a chain only, so there are not more blocks than chains. -/
theorem blockChain_length (cfg : Config) : cfg.graph.blockChain.length ≤ cfg.numChains := by
  have ids := congrArg List.length cfg.accepted.ids
  rw [List.length_map, List.length_range] at ids
  obtain ⟨_, _, _, _, _, built, _, blocked⟩ := initializeGraph_stages cfg.read
  obtain ⟨s, _, blocked⟩ := Loops.bind_eq_ok.mp blocked
  have filed := fileChains_length s.chainGraph []
  have same := Prod.mk.inj (Except.ok.inj blocked)
  rw [same.2, same.1, List.length_nil, Nat.zero_add] at filed
  exact filed.trans (Nat.le_of_eq ids)

theorem prescheduleUses_lt {c : Core σ} (few : c.numLanes ≤ maxNumChain) (schCh : Nat) :
    ∀ i ∈ c.prescheduleUses schCh, i < maxNumChain := by
  intro i used
  unfold Core.prescheduleUses at used
  split at used
  · cases used
  · rcases List.mem_append.mp used with compared | chosen
    · rcases List.mem_cons.mp compared with rfl | compared
      · decide
      · have := List.mem_range'_1.mp compared
        omega
    · split at chosen
      · rename_i found
        rw [List.mem_singleton.mp chosen]
        exact findMinimum_lt found
      · cases chosen

theorem blockPrescheduleUses_le {c : Core σ} {e : Nat × Nat} :
    ∀ i ∈ c.blockPrescheduleUses e, i ≤ e.1 := by
  intro i used
  unfold Core.blockPrescheduleUses at used
  split at used
  · cases used
  · rw [List.mem_singleton.mp used]
    exact Nat.mod_le e.1 c.lanes.length

/-- `preschedule` goes on with the lane count it started with. -/
theorem turn_numLanes {c mid : Core σ} {stack : List Nat} {schCh : Nat}
    (turn : Loops.Turn Core.prescheduleChain stack c schCh mid) : mid.numLanes = c.numLanes := by
  apply turn.holds (fun mid => mid.numLanes = c.numLanes) _ rfl
  intro mid kept ch _ next stepped
  obtain ⟨_, _, stepped⟩ := Loops.bind_eq_ok.mp stepped
  obtain ⟨_, _, stepped⟩ := Loops.bind_eq_ok.mp stepped
  obtain ⟨plan, rfl⟩ := Core.pushPreSchedule_ok stepped
  exact kept

theorem Idle.startInRange {cfg : Config} {c built : Core σ} (idle : Idle cfg c)
    (few : cfg.numChains ≤ maxNumChain)
    (lanes : cfg.coreParam.scheduler = 0 → cfg.numLanes ≤ maxNumChain) (n : Nat)
    (returned : c.buildChains = .ok built) : StartInRange (built.coreSetIter n) := by
  rw [idle.fixed.buildChains idle.inputs] at returned
  cases returned
  refine ⟨?_, ?_, ?_⟩
  · rintro ⟨t, s⟩ member
    have small := cfg.depends_lt (mem_tableEntries.mp member)
    exact ⟨by omega, by omega⟩
  · intro filled tabled level schCh mid turn
    obtain ⟨table, _, tabled⟩ := Loops.bind_eq_ok.mp tabled
    cases tabled
    have bound : cfg.numLanes ≤ maxNumChain := by
      apply lanes
      rw [← idle.fixed.param]
      exact Decidable.not_not.mp level
    have limit : mid.numLanes = cfg.numLanes := (turn_numLanes turn).trans idle.fixed.numLanes
    exact prescheduleUses_lt (limit ▸ bound) schCh
  · intro filled tabled block e mid turn i used
    obtain ⟨table, _, tabled⟩ := Loops.bind_eq_ok.mp tabled
    cases tabled
    have number : e.1 < cfg.graph.blockChain.length := by
      obtain ⟨⟨bl, k⟩, listed, inside⟩ := List.mem_flatMap.mp turn.mem
      obtain ⟨ch, _, rfl⟩ := List.mem_map.mp inside
      have found := List.mem_zipIdx_iff_getElem?.mp listed
      have graph : c.graph = cfg.graph := idle.fixed.graph
      simp only [Core.coreSetIter, graph] at found
      exact (List.getElem?_eq_some_iff.mp found).1
    have blocks := blockChain_length cfg
    have below := blockPrescheduleUses_le i used
    omega

theorem rowsRead_sublist (c : Core σ) (scheBuff : List Nat) :
    (c.rowsRead scheBuff).Sublist scheBuff := by
  induction scheBuff with
  | nil => exact List.Sublist.refl _
  | cons schCh rest ih =>
    unfold Core.rowsRead
    refine List.Sublist.cons_cons schCh ?_
    split
    · exact List.nil_sublist rest
    · exact ih

section cycle

variable {cfg : Config} {plan : Plan} {begun c : Core σ} {done : List Node} {consumed : List Nat}
  (old : Scheduled cfg plan begun c done consumed)
include old

theorem Scheduled.updateChainsUses (few : cfg.numChains ≤ maxNumChain) :
    ∀ e ∈ c.updateChainsUses, e.1 < maxNumChain ∧ e.2 < maxNumChain := by
  intro e used
  obtain ⟨tempC, _, used⟩ := List.mem_flatMap.mp used
  obtain ⟨chFree, member, rfl⟩ := List.mem_map.mp used
  rw [old.un tempC] at member
  have depends : Depends cfg.graph.maps.unDependencies tempC chFree := by
    simpa [Depends] using member
  have small := cfg.depends_lt depends
  exact ⟨by omega, by omega⟩

theorem Scheduled.laneTableUses (few : cfg.numChains ≤ maxNumChain) (i : Nat) :
    ∀ e ∈ c.laneTableUses i, e.1 < maxNumChain ∧ e.2 < maxNumChain := by
  intro e used
  unfold Core.laneTableUses at used
  split at used
  · rename_i lane scheBuff laneAt buffAt
    split at used
    · obtain ⟨schCh, read, used⟩ := List.mem_flatMap.mp used
      obtain ⟨j, column, rfl⟩ := List.mem_map.mp used
      have waiting := old.mem_buffer buffAt ((rowsRead_sublist c scheBuff).subset read)
      have row := List.mem_range.mp (old.ids_sublist.subset waiting)
      have column := List.mem_range.mp column
      rw [old.numChains] at column
      exact ⟨by omega, by omega⟩
    · cases used
  · cases used

theorem Scheduled.laneSizeUses (i : Nat) : ∀ k ∈ c.laneSizeUses i, k < maxNumChain := by
  intro k used
  unfold Core.laneSizeUses at used
  split at used
  · rename_i lane scheBuff laneAt buffAt
    split at used
    · split at used
      · rename_i found
        rw [List.mem_singleton.mp used]
        exact old.lane_lt buffAt (findFree_some found).1
      · cases used
    · cases used
  · cases used

end cycle

theorem Running.cycleInRange {cfg : Config} {plan : Plan} {begun c : Core σ} {done : List Node}
    (running : Running cfg plan begun c done) (few : cfg.numChains ≤ maxNumChain) :
    CycleInRange c := by
  intro sent woken sending waking
  have afterWake := (running.runOneCycleCore.sendMemoryReq sending).updateMemExe waking
  refine ⟨afterWake.updateChainsUses few, ?_⟩
  intro released releasing i mid turn
  have atTurn := turn.holds (fun mid => Scheduled cfg plan begun mid _ _)
    (fun mid kept i _ next stepped => kept.scheduleLane stepped) (afterWake.updateChains releasing).1
  exact ⟨atTurn.laneTableUses few i, atTurn.laneSizeUses i⟩

/-- In every run on at most `MAX_NUM_CHAIN` chains and, where the lanes are
compared by their load, at most as many lanes, no index leaves the tables. -/
theorem tables_in_range {cfg : Config} (few : cfg.numChains ≤ maxNumChain)
    (lanes : cfg.coreParam.scheduler = 0 → cfg.numLanes ≤ maxNumChain) {begun c : Core σ}
    {done : List Node} {running : Bool} (reach : Run cfg begun c done running) :
    (running = false → ∀ n ruby built, ({ c with ruby } : Core σ).buildChains = .ok built →
        StartInRange (built.coreSetIter n)) ∧
      (running = true → CycleInRange c) := by
  constructor
  · intro stopped n ruby built returned
    subst stopped
    exact (reach.idle.withRuby ruby).startInRange few lanes n returned
  · intro going
    subst going
    obtain ⟨plan, running⟩ := reach.running
    exact running.cycleInRange few

theorem tables_in_range_joiningChains :
    ∃ (cfg : Config) (begun c : Core (List Nat)) (done : List Node),
      cfg.dirtyGraph = joiningChains ∧ cfg.numChains ≤ maxNumChain ∧
      (cfg.coreParam.scheduler = 0 → cfg.numLanes ≤ maxNumChain) ∧ Run cfg begun c done true ∧
      CycleInRange c := by
  have tested : firstIteration ⟨0, 0, 0, 3⟩ sampleLlvm joiningChains 2 ⟨0, 0⟩
      ⟨1, 25, 100, 2, 2⟩ (fun _ _ => none) ⟨fifoRuby, [], []⟩ 2
      (fun graph _ _ _ => decide (graph.chains.length = 3)) = true := by
    decide +kernel
  obtain ⟨graph, read, begun, c, done, facts, runs⟩ := exists_run tested
  let cfg : Config := ⟨⟨0, 0, 0, 3⟩, sampleLlvm, joiningChains, graph, read, 2, ⟨0, 0⟩,
    ⟨1, 25, 100, 2, 2⟩, fun _ _ => none⟩
  have count : cfg.numChains = 3 := of_decide_eq_true facts
  have few : cfg.numChains ≤ maxNumChain := by rw [count]; decide
  have lanes : cfg.coreParam.scheduler = 0 → cfg.numLanes ≤ maxNumChain := fun _ => by
    simp [cfg, maxNumChain]
  have run := runs (fun _ _ => True) (fun _ => True) trivial (fun _ _ _ => trivial)
  exact ⟨cfg, begun, c, done, rfl, few, lanes, run, (tables_in_range few lanes run).2 rfl⟩

/-- With 701 lanes `findMinimum` reads entry 700 of `lane_pre_schedule_size`. -/
theorem manyLanes_out_of_range :
    ∃ (cfg : Config) (c built : Core (List Nat)), cfg.dirtyGraph = joiningChains ∧
      cfg.numLanes = 701 ∧ cfg.coreParam.scheduler = 0 ∧ Run cfg c c [] false ∧
      c.buildChains = .ok built ∧ ¬ StartInRange (built.coreSetIter 0) := by
  have tested : Loops.returns (fun graph =>
      Loops.returns (fun built : Core (List Nat) =>
        Loops.returns (fun filled : Core (List Nat) =>
          decide (filled.param.scheduler = 0 ∧ ∃ schCh ∈ filled.fillStack.stackScheChain.head?,
            700 ∈ filled.fillStack.prescheduleUses schCh))
          (built.coreSetIter 0).initializeDepenTable)
        (Core.new 701 graph ⟨0, 0⟩ ⟨1, 25, 100, 2, 2⟩ sampleLlvm (fun _ _ => none)
          ⟨fifoRuby, [], []⟩).buildChains)
      (initializeGraph ⟨0, 0, 0, 3⟩ sampleLlvm joiningChains) = true := by
    decide +kernel
  obtain ⟨graph, read, tested⟩ := Loops.returns_iff.mp tested
  obtain ⟨built, builds, tested⟩ := Loops.returns_iff.mp tested
  obtain ⟨filled, tabled, tested⟩ := Loops.returns_iff.mp tested
  obtain ⟨level, schCh, first, used⟩ := of_decide_eq_true tested
  let cfg : Config := ⟨⟨0, 0, 0, 3⟩, sampleLlvm, joiningChains, graph, read, 701, ⟨0, 0⟩,
    ⟨1, 25, 100, 2, 2⟩, fun _ _ => none⟩
  refine ⟨cfg, cfg.boot ⟨fifoRuby, [], []⟩, built, rfl, rfl, rfl, .boot _, builds, ?_⟩
  intro inRange
  obtain ⟨rest, stack⟩ := List.head?_eq_some_iff.mp first
  have below := inRange.level filled tabled (not_not.mpr level) schCh filled.fillStack
    ⟨[], rest, stack, rfl⟩ 700 used
  exact absurd below (by decide)

end ChainSaw
