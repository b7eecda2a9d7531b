import ChainSaw.Scheduling
import ChainSaw.Mshr

set_option autoImplicit false

namespace ChainSaw

variable {σ : Type}

theorem mem_inputContents_built {cfg : Config} {ins : Node} :
    ins ∈ inputContents cfg.built ↔ ∃ i < cfg.numChains, ins ∈ cfg.instructions i := by
  simp only [inputContents, Config.built, List.mem_flatMap, List.mem_map, List.mem_range]
  constructor
  · rintro ⟨_, ⟨i, inside, rfl⟩, member⟩
    exact ⟨i, inside, member⟩
  · rintro ⟨i, inside, member⟩
    exact ⟨_, ⟨i, inside, rfl⟩, member⟩

theorem Config.cId_of_mem {cfg : Config} {i : Nat} {ins : Node} (member : ins ∈ cfg.instructions i) :
    ins.cId = i := by
  obtain ⟨v, _, rfl⟩ := List.mem_map.mp member
  rfl

theorem inputContents_newIds (cfg : Config) :
    (inputContents cfg.built).map (·.newId) = cfg.graph.chains.flatten := by
  have vertices : cfg.graph.chains = (List.range cfg.numChains).map cfg.vertices := by
    apply List.ext_getElem?
    intro i
    by_cases inside : i < cfg.graph.chains.length
    · simp [Config.numChains, Config.vertices, inside]
    · simp [Config.numChains, inside]
  conv_rhs => rw [vertices]
  simp [inputContents, Config.built, Config.chain, Config.instructions, List.flatMap,
    List.map_flatten, Function.comp_def, Config.node]

/-- No instruction is built twice. -/
theorem inputContents_nodup (cfg : Config) : (inputContents cfg.built).Nodup := by
  refine List.Nodup.of_map (·.newId) ?_
  rw [inputContents_newIds]
  exact cfg.accepted.part.nodup

/-- The core before the first line of the trace. -/
def Config.boot (cfg : Config) (ruby : Ruby σ) : Core σ :=
  Core.new cfg.numLanes cfg.graph cfg.coreParam cfg.laneParam cfg.instructionLlvm cfg.memaddrMap
    ruby

/-- The states `main` takes the core through. `begun` is the core at the start of
the last iteration, `done` lists the instructions completed since, and the flag
tells whether its cycle loop is still going on. Between two iterations `main`
uses Ruby on its own; `Begin` says which iteration may then start on which Ruby,
and `Cycle` on which cores a cycle may run. -/
inductive Reach (cfg : Config) (Begin : Nat → Ruby σ → Prop) (Cycle : Core σ → Prop) :
    Core σ → Core σ → List Node → Bool → Prop
  | boot (ruby : Ruby σ) : Reach cfg Begin Cycle (cfg.boot ruby) (cfg.boot ruby) [] false
  | begin {begun c c' : Core σ} {done : List Node} (n : Nat) (ruby : Ruby σ) :
      Reach cfg Begin Cycle begun c done false → Begin n ruby →
      ({ c with ruby } : Core σ).beginIteration n = .ok c' → Reach cfg Begin Cycle c' c' [] true
  | cycle {begun c c' : Core σ} {done : List Node} {finished : Bool} :
      Reach cfg Begin Cycle begun c done true → Cycle c → c.runACycle = .ok (c', finished) →
      Reach cfg Begin Cycle begun c' (done ++ c.completions) !finished

/-- Every run, with nothing assumed about Ruby. -/
abbrev Run (cfg : Config) : Core σ → Core σ → List Node → Bool → Prop :=
  Reach cfg (fun _ _ => True) (fun _ => True)

/-- An iteration starts when nothing is outstanding in Ruby. -/
def Drained {system : RubySystem σ} (lawful : system.Lawful) (_ : Nat) (ruby : Ruby σ) : Prop :=
  ruby.system = system ∧ ruby.outstanding lawful = 0

theorem Reach.mono {cfg : Config} {Begin Begin' : Nat → Ruby σ → Prop} {Cycle Cycle' : Core σ → Prop}
    (begins : ∀ n ruby, Begin n ruby → Begin' n ruby)
    (cycles : ∀ begun c done, Reach cfg Begin Cycle begun c done true → Cycle c → Cycle' c)
    {begun c : Core σ} {done : List Node} {running : Bool}
    (reach : Reach cfg Begin Cycle begun c done running) :
    Reach cfg Begin' Cycle' begun c done running := by
  induction reach with
  | boot ruby => exact .boot ruby
  | begin n ruby _ allowed returned ih => exact .begin n ruby ih (begins n ruby allowed) returned
  | cycle earlier allowed returned ih => exact .cycle ih (cycles _ _ _ earlier allowed) returned

theorem runACycle_ok {c c' : Core σ} {finished : Bool} (returned : c.runACycle = .ok (c', finished)) :
    ∃ sent woken released, c.runOneCycleCore.sendMemoryReq = .ok sent ∧
      sent.updateMemExe = .ok woken ∧ woken.updateChains = .ok released ∧
      released.oooScheduler = .ok c' ∧ finished = c'.isFinish := by
  obtain ⟨sent, sending, returned⟩ := Loops.bind_eq_ok.mp returned
  obtain ⟨woken, waking, returned⟩ := Loops.bind_eq_ok.mp returned
  obtain ⟨released, releasing, returned⟩ := Loops.bind_eq_ok.mp returned
  obtain ⟨last, scheduling, returned⟩ := Loops.bind_eq_ok.mp returned
  cases returned
  exact ⟨sent, woken, released, sending, waking, releasing, scheduling, rfl⟩

/-- The fields that only the scheduler writes during a cycle. -/
def Core.schedule (c : Core σ) : List Chain × List (List Nat) × Nat × Nat :=
  (c.inputChain, c.lanePreSchedule, c.coreFree, c.coreIdle)

/-- The scheduler invariant between two cycles: all completions are treated. -/
def Running (cfg : Config) (plan : Plan) (begun c : Core σ) (done : List Node) : Prop :=
  Scheduled cfg plan begun c done (done.map (·.cId))

namespace Running

variable {cfg : Config} {plan : Plan} {begun c : Core σ} {done : List Node}
  (running : Running cfg plan begun c done)
include running

theorem finishedChains : c.queues.finishedChains = [] := by
  have reported := running.reported
  exact List.append_cancel_left (reported.symm.trans (List.append_nil _).symm)

/-- The state before the scheduler stage of a cycle. -/
theorem runACycle_released {c' : Core σ} {finished : Bool}
    (returned : c.runACycle = .ok (c', finished)) :
    ∃ released, List.Forall₂ Woken (c.lanes.map Core.cycled) released.lanes ∧
      released.schedule = c.schedule ∧
      Scheduled cfg plan begun released (done ++ c.completions)
        ((done ++ c.completions).map (·.cId)) ∧
      released.oooScheduler = .ok c' ∧ finished = c'.isFinish := by
  obtain ⟨sent, woken, released, sending, waking, releasing, scheduling, isFinish⟩ :=
    runACycle_ok returned
  have afterWake := (running.runOneCycleCore.sendMemoryReq sending).updateMemExe waking
  have sentSame : sent.lanes = c.lanes.map Core.cycled ∧ sent.schedule = c.schedule := by
    obtain ⟨_, _, rfl⟩ := sendMemoryReq_ok sending
    exact ⟨runOneCycleCore_lanes c, rfl⟩
  have wokenSame : List.Forall₂ Woken sent.lanes woken.lanes ∧ woken.schedule = sent.schedule := by
    obtain ⟨_, _, _, rfl, woke⟩ := updateMemExe_ok waking
    exact ⟨woke, rfl⟩
  have releasedSame : released.lanes = woken.lanes ∧ released.schedule = woken.schedule := by
    obtain ⟨_, _, rfl⟩ := updateChains_ok afterWake.un (funext₂ afterWake.table) releasing
    exact ⟨rfl, rfl⟩
  refine ⟨released, ?_, ?_, (afterWake.updateChains releasing).1, scheduling, isFinish⟩
  · rw [releasedSame.1, ← sentSame.1]
    exact wokenSame.1
  · rw [releasedSame.2, wokenSame.2, sentSame.2]

theorem runACycle_stages {c' : Core σ} {finished : Bool}
    (returned : c.runACycle = .ok (c', finished)) :
    ∃ released, List.Forall₂ Woken (c.lanes.map Core.cycled) released.lanes ∧
      released.inputChain = c.inputChain ∧
      Scheduled cfg plan begun released (done ++ c.completions)
        ((done ++ c.completions).map (·.cId)) ∧
      released.oooScheduler = .ok c' ∧ finished = c'.isFinish := by
  obtain ⟨released, woken, kept, stages⟩ := running.runACycle_released returned
  exact ⟨released, woken, congrArg Prod.fst kept, stages⟩

theorem runACycle {c' : Core σ} {finished : Bool} (returned : c.runACycle = .ok (c', finished)) :
    Running cfg plan begun c' (done ++ c.completions) := by
  obtain ⟨_, _, _, scheduled, scheduling, _⟩ := running.runACycle_stages returned
  exact scheduled.oooScheduler scheduling

theorem buffers_empty (inputs : c.inputChain = []) :
    c.lanePreSchedule = List.replicate cfg.numLanes [] := by
  have buffers := running.buffers
  rw [inputs] at buffers
  exact List.eq_replicate_iff.mpr
    ⟨running.length, List.flatten_eq_nil_iff.mp buffers.eq_nil⟩

/-- With the last chain loaded the scheduler is back in its initial state. -/
theorem idle (inputs : c.inputChain = []) : Idle cfg c where
  fixed := running.fixed
  inputs := inputs
  buffers := running.buffers_empty inputs
  sizes := by
    funext i
    rw [running.sizes, running.buffers_empty inputs]
    by_cases inside : i < cfg.numLanes <;> simp [inside]
  table := by
    funext t s
    rw [running.table, if_neg]
    rintro ⟨depends, unfinished⟩
    refine unfinished (running.released t (cfg.depends_lt depends).2 ?_ s depends)
    simp [inputs]
  stack := running.stack
  finished := running.finishedChains
  lanes := running.lanes

end Running

theorem isFinish_iff {c : Core σ} :
    c.isFinish = true ↔ c.inputChain = [] ∧ ∀ l ∈ c.lanes, l.isFree = true := by
  simp [Core.isFinish]

theorem boot_idle (cfg : Config) (ruby : Ruby σ) : Idle cfg (cfg.boot ruby) where
  fixed := ⟨rfl, rfl, rfl, rfl, by simp [Config.boot, Core.new]⟩
  inputs := rfl
  buffers := rfl
  sizes := rfl
  table := rfl
  stack := .inl rfl
  finished := rfl
  lanes := by
    intro l member
    obtain ⟨i, _, rfl⟩ := List.mem_map.mp member
    exact Lane.valid_new i _ _ _

theorem Idle.withRuby {cfg : Config} {c : Core σ} (idle : Idle cfg c) (ruby : Ruby σ) :
    Idle cfg { c with ruby } :=
  ⟨⟨idle.fixed.graph, idle.fixed.param, idle.fixed.numLanes, idle.fixed.llvm, idle.fixed.lanes⟩,
    idle.inputs, idle.buffers, idle.sizes, idle.table, idle.stack, idle.finished, idle.lanes⟩

/-- An iteration starts with all chains in the input and the whole plan ahead. -/
theorem Idle.running {cfg : Config} {c c' : Core σ} (idle : Idle cfg c) {n : Nat}
    (returned : c.beginIteration n = .ok c') : ∃ plan, Running cfg plan c' c' [] := by
  obtain ⟨plan, stack, planned, stacked, rfl⟩ := idle.beginIteration_ok returned
  have placed := plan_planned planned
  have ids := (nonEmpty_of_plan planned).built_ids
  exact ⟨plan,
    { planned := planned
      fixed := ⟨idle.fixed.graph, idle.fixed.param, idle.fixed.numLanes, idle.fixed.llvm,
        idle.fixed.lanes⟩
      numChains := rfl
      inputs := List.Sublist.refl _
      length := placed.length
      buffers := (plan_partition planned).trans (List.Perm.of_eq ids.symm)
      sizes := placed.sizes
      loads := fun i => ⟨[], by simp, List.Perm.refl _⟩
      un := fun _ => rfl
      table := fun t s => by simp [Core.begun]
      released := by
        intro t inside absent
        have present : t ∈ cfg.built.map (·.id) := by
          rw [ids]
          exact List.mem_range.mpr inside
        exact absurd present absent
      reported := by simp [Core.begun, idle.finished]
      stack := stacked
      lanes := idle.lanes
      conserved := List.Perm.refl _ }⟩

/-- What holds in every state of every run. -/
theorem Reach.invariant {cfg : Config} {Begin : Nat → Ruby σ → Prop} {Cycle : Core σ → Prop}
    {begun c : Core σ} {done : List Node} {running : Bool}
    (reach : Reach cfg Begin Cycle begun c done running) :
    (running = true → ∃ plan, Running cfg plan begun c done) ∧
      (running = false → Idle cfg c) := by
  induction reach with
  | boot ruby => exact ⟨by simp, fun _ => boot_idle cfg ruby⟩
  | begin n ruby _ _ returned ih =>
    exact ⟨fun _ => ((ih.2 rfl).withRuby ruby).running returned, by simp⟩
  | @cycle begun c c' done finished _ _ returned ih =>
    obtain ⟨plan, running⟩ := ih.1 rfl
    have next := running.runACycle returned
    refine ⟨fun _ => ⟨plan, next⟩, ?_⟩
    intro stops
    obtain ⟨_, _, _, _, _, _, _, isFinish⟩ := runACycle_ok returned
    have finish : c'.isFinish = true := by rw [← isFinish]; simpa using stops
    exact next.idle (isFinish_iff.mp finish).1

theorem Reach.running {cfg : Config} {Begin : Nat → Ruby σ → Prop} {Cycle : Core σ → Prop}
    {begun c : Core σ} {done : List Node} (reach : Reach cfg Begin Cycle begun c done true) :
    ∃ plan, Running cfg plan begun c done := reach.invariant.1 rfl

theorem Reach.idle {cfg : Config} {Begin : Nat → Ruby σ → Prop} {Cycle : Core σ → Prop}
    {begun c : Core σ} {done : List Node} (reach : Reach cfg Begin Cycle begun c done false) :
    Idle cfg c := reach.invariant.2 rfl

/-- At most `fuel` turns of `while(!testCore.run_a_cycle())`, with the
instructions they complete; the flag tells whether the loop ended. -/
def Core.runCycles : Nat → Core σ → List Node → Result (Core σ × List Node × Bool)
  | 0, c, done => .ok (c, done, false)
  | fuel + 1, c, done => do
    let (next, finished) ← c.runACycle
    if finished then pure (next, done ++ c.completions, true)
    else next.runCycles fuel (done ++ c.completions)

theorem Reach.runCycles {cfg : Config} {Begin : Nat → Ruby σ → Prop} {Cycle : Core σ → Prop}
    (allowed : ∀ c c', c.runACycle = .ok (c', false) → Cycle c) (fuel : Nat) :
    ∀ {begun c c' : Core σ} {done done' : List Node}, Reach cfg Begin Cycle begun c done true →
      c.runCycles fuel done = .ok (c', done', false) → Reach cfg Begin Cycle begun c' done' true := by
  induction fuel with
  | zero =>
    intro begun c c' done done' reach returned
    cases returned
    exact reach
  | succ fuel ih =>
    intro begun c c' done done' reach returned
    obtain ⟨⟨next, last⟩, stepped, returned⟩ := Loops.bind_eq_ok.mp returned
    cases last with
    | true => cases returned
    | false => exact ih (reach.cycle (allowed c next stepped) stepped) returned

/-- The latencies of `Instruction.def` for the operations of the samples. -/
def sampleLlvm : Opcode → Option Nat
  | .other "FMul" => some 5
  | _ => some 2

theorem sampleLlvm_lt {op : Opcode} {latency : Nat} (known : sampleLlvm op = some latency) :
    latency < 2 ^ 31 := by
  unfold sampleLlvm at known
  split at known <;> cases known <;> decide

/-- A test of the first iteration of a simulation after `fuel` cycles. -/
def firstIteration (param : GraphParam) (llvm : Opcode → Option Nat) (dirty : BoostGraph)
    (lanes : Nat) (core : CoreParam) (lane : LaneParam)
    (memaddrMap : Nat → Nat → Option MemValue) (ruby : Ruby σ) (fuel : Nat)
    (test : NewGraph → Core σ → Core σ → List Node → Bool) : Bool :=
  Loops.returns (fun graph =>
    Loops.returns (fun begun : Core σ =>
      Loops.returns (fun (c, done, stops) => !stops && test graph begun c done)
        (begun.runCycles fuel []))
      ((Core.new lanes graph core lane llvm memaddrMap ruby).beginIteration 0))
    (initializeGraph param llvm dirty)

/-- A test that succeeds is about a run. -/
theorem exists_run {param : GraphParam} {llvm : Opcode → Option Nat} {dirty : BoostGraph}
    {lanes : Nat} {core : CoreParam} {lane : LaneParam}
    {memaddrMap : Nat → Nat → Option MemValue} {ruby : Ruby σ} {fuel : Nat}
    {test : NewGraph → Core σ → Core σ → List Node → Bool}
    (tested : firstIteration param llvm dirty lanes core lane memaddrMap ruby fuel test = true) :
    ∃ (graph : NewGraph) (read : initializeGraph param llvm dirty = .ok graph) (begun c : Core σ)
      (done : List Node), test graph begun c done = true ∧
      ∀ (Begin : Nat → Ruby σ → Prop) (Cycle : Core σ → Prop), Begin 0 ruby →
        (∀ c c', c.runACycle = .ok (c', false) → Cycle c) →
        Reach ⟨param, llvm, dirty, graph, read, lanes, core, lane, memaddrMap⟩ Begin Cycle
          begun c done true := by
  obtain ⟨graph, read, tested⟩ := Loops.returns_iff.mp tested
  obtain ⟨begun, began, tested⟩ := Loops.returns_iff.mp tested
  obtain ⟨⟨c, done, stops⟩, cycled, tested⟩ := Loops.returns_iff.mp tested
  obtain ⟨running, tested⟩ := Bool.and_eq_true_iff.mp tested
  refine ⟨graph, read, begun, c, done, tested, fun Begin Cycle begins cycles => ?_⟩
  cases stops with
  | true => cases running
  | false =>
    have booted : Reach ⟨param, llvm, dirty, graph, read, lanes, core, lane, memaddrMap⟩ Begin
        Cycle (Core.new lanes graph core lane llvm memaddrMap ruby)
        (Core.new lanes graph core lane llvm memaddrMap ruby) [] false := .boot ruby
    exact (booted.begin 0 ruby begins began).runCycles cycles fuel cycled

end ChainSaw
