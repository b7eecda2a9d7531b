import ChainSaw.Runs

set_option autoImplicit false

namespace ChainSaw

variable {σ : Type}

/-- The scheduler state that every iteration starts from. -/
structure StartsWith (cfg : Config) (plan : Plan) (begun : Core σ) : Prop where
  inputs : begun.inputChain = cfg.built
  buffers : begun.lanePreSchedule = plan.buffers
  sizes : begun.lanePreScheduleSize = plan.sizes
  table : begun.depenTable = tableAfter cfg []

theorem Reach.startsWith {cfg : Config} {Begin : Nat → Ruby σ → Prop} {Cycle : Core σ → Prop}
    {begun c : Core σ} {done : List Node} {running : Bool}
    (reach : Reach cfg Begin Cycle begun c done running) (loop : running = true) {plan : Plan}
    (planned : cfg.plan = .ok plan) : StartsWith cfg plan begun := by
  induction reach with
  | boot ruby => cases loop
  | begin n ruby earlier _ returned =>
    obtain ⟨plan', stack, planned', _, rfl⟩ := (earlier.idle.withRuby ruby).beginIteration_ok returned
    rw [planned] at planned'
    cases planned'
    refine ⟨rfl, rfl, rfl, ?_⟩
    funext t s
    simp [tableAfter, Core.begun]
  | cycle _ _ _ ih => exact ih rfl

/-- The containers of the scheduler at a cycle boundary, after the instructions
in `done` have completed. -/
structure InStep (cfg : Config) (c : Core σ) (done : List Node) : Prop where
  nodup : c.lanePreSchedule.flatten.Nodup
  chains : ∀ id, id ∈ c.lanePreSchedule.flatten ↔ id ∈ c.inputChain.map (·.id)
  sizes : ∀ i, c.lanePreScheduleSize i =
    ((c.lanePreSchedule.getD i []).map fun id => (cfg.instructions id).length).sum
  table : ∀ t s, c.depenTable t s =
    if Depends cfg.graph.maps.unDependencies s t ∧ s ∉ done.map (·.cId) then 1 else 0

/-- The scheduler stages of the next cycle return: `updateChains` treats the
completions of that cycle and all lookups of `ooo_scheduler` succeed. -/
def StagesReturn (c : Core σ) : Prop :=
  ∀ sent woken, c.runOneCycleCore.sendMemoryReq = .ok sent → sent.updateMemExe = .ok woken →
    woken.queues.finishedChains = c.completions.map (·.cId) ∧
      ∃ released next, woken.updateChains = .ok released ∧ released.oooScheduler = .ok next

namespace Running

variable {cfg : Config} {plan : Plan} {begun c : Core σ} {done : List Node}
  (running : Running cfg plan begun c done)
include running

theorem inStep : InStep cfg c done where
  nodup := running.buffers.nodup_iff.mpr (running.ids_sublist.nodup List.nodup_range)
  chains := fun _ => running.buffers.mem_iff
  sizes := by
    intro i
    rw [running.sizes]
    congr 1
    exact List.map_congr_left fun id _ => (cfg.length_instructions id).symm
  table := running.table

theorem stagesReturn (fits : cfg.Fits) : StagesReturn c := by
  intro sent woken sending waking
  have afterWake := (running.runOneCycleCore.sendMemoryReq sending).updateMemExe waking
  constructor
  · obtain ⟨_, _, rfl⟩ := sendMemoryReq_ok sending
    obtain ⟨_, _, _, rfl, _⟩ := updateMemExe_ok waking
    exact (runOneCycleCore_finished c).trans (by rw [running.finishedChains, List.nil_append])
  · obtain ⟨released, releasing⟩ := afterWake.updateChains_total fits.chains
    obtain ⟨next, scheduling⟩ := (afterWake.updateChains releasing).1.oooScheduler_total fits.chains
    exact ⟨released, next, releasing, scheduling⟩

/-- An iteration that ends has loaded all chains of the plan. -/
theorem loads_all {c' : Core σ} (returned : c.runACycle = .ok (c', true)) (i : Nat) :
    ∃ loads, c'.schChains i = begun.schChains i ++ loads ∧ loads.Perm (plan.buffers.getD i []) := by
  have next := running.runACycle returned
  obtain ⟨_, _, _, _, _, _, _, isFinish⟩ := runACycle_ok returned
  have buffers := next.buffers_empty (isFinish_iff.mp isFinish.symm).1
  obtain ⟨loads, chains, shared⟩ := next.loads i
  refine ⟨loads, chains, ?_⟩
  rw [buffers] at shared
  by_cases inside : i < cfg.numLanes
  · simpa [inside] using shared
  · simpa [inside] using shared

end Running

/-- In every run the containers of the scheduler stay in step. Each chain is
loaded once, on the lane it was planned for, no scheduler stage fails, and the
end of an iteration leaves the scheduler as the next one must find it. -/
theorem scheduler_state_invariant {cfg : Config} (fits : cfg.Fits) :
    ∃ plan, cfg.plan = .ok plan ∧ plan.buffers.flatten.Perm (List.range cfg.numChains) ∧
      ∀ (begun c : Core σ) (done : List Node),
        (Run cfg begun c done true →
          StartsWith cfg plan begun ∧ InStep cfg c done ∧ StagesReturn c ∧
            (∀ i, ∃ loads, c.schChains i = begun.schChains i ++ loads ∧
              (loads ++ c.lanePreSchedule.getD i []).Perm (plan.buffers.getD i [])) ∧
            ∀ c', c.runACycle = .ok (c', true) →
              ∀ i, ∃ loads, c'.schChains i = begun.schChains i ++ loads ∧
                loads.Perm (plan.buffers.getD i [])) ∧
        (Run cfg begun c done false →
          (∀ buffer ∈ c.lanePreSchedule, buffer = []) ∧ (∀ i, c.lanePreScheduleSize i = 0) ∧
            (∀ t s, c.depenTable t s = 0) ∧
            ∀ n ruby, ∃ c', ({ c with ruby } : Core σ).beginIteration n = .ok c') := by
  obtain ⟨plan, planned⟩ := plan_total fits.lanes fits.nonEmpty
  refine ⟨plan, planned, plan_partition planned, ?_⟩
  intro begun c done
  constructor
  · intro reach
    obtain ⟨plan', running⟩ := reach.running
    have same := running.planned
    rw [planned] at same
    cases same
    exact ⟨reach.startsWith rfl planned, running.inStep, running.stagesReturn fits, running.loads,
      fun _ returned => running.loads_all returned⟩
  · intro reach
    have idle := reach.idle
    refine ⟨?_, ?_, ?_, ?_⟩
    · intro buffer member
      rw [idle.buffers] at member
      exact List.eq_of_mem_replicate member
    · intro i
      rw [idle.sizes]
    · intro t s
      rw [idle.table]
    · intro n ruby
      exact (idle.withRuby ruby).beginIteration_total fits n

/-- Three chains; the last one waits for the two others. -/
def joiningChains : BoostGraph where
  vertices := [⟨0, ⟨.bb, 0⟩, 0, .bb⟩, ⟨1, ⟨.other "Add", 1⟩, 1, .other "Add"⟩,
    ⟨2, ⟨.other "Mul", 2⟩, 1, .other "Mul"⟩, ⟨3, ⟨.other "Add", 3⟩, 2, .other "Add"⟩]
  edges := [(0, 1), (0, 3), (1, 2), (2, 3)]
  bounded := by decide

theorem scheduler_state_joiningChains :
    ∃ cfg : Config, cfg.dirtyGraph = joiningChains ∧ cfg.numChains = 3 ∧ cfg.Fits ∧
      ∃ plan, cfg.plan = .ok plan ∧ plan.buffers.flatten.Perm (List.range cfg.numChains) ∧
        ∀ (begun c : Core (List Nat)) (done : List Node), Run cfg begun c done true →
          StartsWith cfg plan begun ∧ InStep cfg c done := by
  have evaluated : Loops.returns (fun graph => decide (graph.chains = [[0], [1, 2], [3]]))
      (initializeGraph ⟨0, 0, 0, 3⟩ (fun _ => some 1) joiningChains) = true := by
    decide +kernel
  obtain ⟨graph, read, chains⟩ := Loops.returns_iff.mp evaluated
  have chains := of_decide_eq_true chains
  let cfg : Config := ⟨⟨0, 0, 0, 3⟩, fun _ => some 1, joiningChains, graph, read, 2, ⟨0, 0⟩,
    ⟨2, 10, 100, 4, 1⟩, fun _ _ => none⟩
  have count : cfg.numChains = 3 := by
    change graph.chains.length = 3
    rw [chains]
    rfl
  have fits : cfg.Fits := by
    refine ⟨?_, by rw [count]; decide, by simp [cfg], by simp [cfg, maxNumChain]⟩
    rw [Config.NonEmpty, count]
    change ∀ i < 3, graph.chains.getD i [] ≠ []
    rw [chains]
    decide
  obtain ⟨plan, planned, spread, runs⟩ := scheduler_state_invariant (σ := List Nat) fits
  refine ⟨cfg, rfl, count, fits, plan, planned, spread, ?_⟩
  intro begun c done run
  have state := (runs begun c done).1 run
  exact ⟨state.1, state.2.1⟩

end ChainSaw
