import ChainSaw.Runs

set_option autoImplicit false

namespace ChainSaw

variable {σ : Type}

namespace Running

variable {cfg : Config} {plan : Plan} {begun c : Core σ} {done : List Node}
  (running : Running cfg plan begun c done)
include running

/-- A chain that has been loaded is no longer in the input. -/
theorem loaded_not_input {i t : Nat} {loads : List Nat}
    (chains : c.schChains i = begun.schChains i ++ loads) (loaded : t ∈ loads) :
    t ∉ c.inputChain.map (·.id) := by
  intro present
  obtain ⟨loads', chains', shared⟩ := running.loads i
  have same : loads = loads' := List.append_cancel_left (chains.symm.trans chains')
  subst same
  have part := plan_partition running.planned
  have onLane : InChain plan.buffers i t := shared.subset (by simp [loaded])
  obtain ⟨j, here⟩ := exists_inChain (running.buffers.mem_iff.mpr present)
  obtain ⟨_, _, shared'⟩ := running.loads j
  have onOther : InChain plan.buffers j t := shared'.subset (List.mem_append_right _ here)
  have lanes := part.unique onLane onOther
  subst lanes
  exact List.disjoint_of_nodup_append (shared.nodup_iff.mpr (part.chain_nodup i)) loaded here

end Running

/-- More copies of `ins` have completed than earlier iterations had left over, so
the one of this iteration has. -/
def Completed (begun : Core σ) (done : List Node) (ins : Node) : Prop :=
  (laneContents begun.lanes).count ins < done.count ins

instance (begun : Core σ) (done : List Node) (ins : Node) : Decidable (Completed begun done ins) :=
  inferInstanceAs (Decidable ((laneContents begun.lanes).count ins < done.count ins))

/-- Every chain loaded by the cycle from `c` to `c'` finds all instructions
of the chains it depends on completed. -/
def OrderedLoads (cfg : Config) (begun c c' : Core σ) (done : List Node) : Prop :=
  ∀ i loads t s, c'.schChains i = c.schChains i ++ loads → t ∈ loads →
    Depends cfg.graph.maps.unDependencies s t →
    ∀ ins ∈ cfg.instructions s, Completed begun (done ++ c.completions) ins

/-- A copy of `ins` is in a lane or in the input and will not complete in the next cycle. -/
def Core.Outstanding (c : Core σ) (ins : Node) : Prop :=
  c.completions.count ins < (laneContents c.lanes ++ inputContents c.inputChain).count ins

/-- The next cycle reports a chain as finished that another chain depends on, with
an instruction of the reported chain still outstanding. -/
def Core.ReportsEarly (cfg : Config) (c : Core σ) : Prop :=
  ∃ ins ∈ c.completions, (∃ t, Depends cfg.graph.maps.unDependencies ins.cId t) ∧
    ∃ other ∈ cfg.instructions ins.cId, c.Outstanding other

/-- No lane holds an instruction of a chain that another chain depends on. -/
def NoSource (cfg : Config) (lanes : List Lane) : Prop :=
  ∀ ins ∈ laneContents lanes, ∀ t, ¬ Depends cfg.graph.maps.unDependencies ins.cId t

/-- Every chain that another chain depends on is a single instruction. -/
def SingleSources (cfg : Config) : Prop :=
  ∀ s t, Depends cfg.graph.maps.unDependencies s t → cfg.count s = 1

section sources

variable {cfg : Config} {plan : Plan} {begun c : Core σ} {done : List Node}

theorem eq_of_single {s : Nat} {a b : Node} (single : cfg.count s = 1)
    (first : a ∈ cfg.instructions s) (second : b ∈ cfg.instructions s) : a = b := by
  rw [← cfg.length_instructions] at single
  obtain ⟨only, whole⟩ := List.length_eq_one_iff.mp single
  rw [whole, List.mem_singleton] at first second
  rw [first, second]

/-- A completion reported for a source chain is its instruction of this iteration. -/
theorem Running.source_done (running : Running cfg plan begun c done)
    (clean : NoSource cfg begun.lanes) {s t : Nat}
    (depends : Depends cfg.graph.maps.unDependencies s t) (reported : s ∈ done.map (·.cId)) :
    ∃ ins ∈ done, ins ∈ cfg.instructions s := by
  obtain ⟨ins, member, rfl⟩ := List.mem_map.mp reported
  refine ⟨ins, member, ?_⟩
  have kept : ins ∈ laneContents begun.lanes ++ inputContents cfg.built :=
    running.conserved.mem_iff.mpr (by simp [member])
  rcases List.mem_append.mp kept with leftover | built
  · exact absurd depends (clean ins leftover t)
  · obtain ⟨i, _, inside⟩ := mem_inputContents_built.mp built
    rw [Config.cId_of_mem inside]
    exact inside

/-- The end of an iteration leaves no source behind: every chain has been loaded,
so all sources have been released, each by its only instruction. -/
theorem Running.noSource (running : Running cfg plan begun c done) (single : SingleSources cfg)
    (clean : NoSource cfg begun.lanes) (inputs : c.inputChain = []) : NoSource cfg c.lanes := by
  intro ins member t depends
  have released : ins.cId ∈ done.map (·.cId) :=
    running.released t (cfg.depends_lt depends).2 (by simp [inputs]) _ depends
  obtain ⟨other, completed, inside⟩ := running.source_done clean depends released
  have conserved := running.conserved
  rw [inputs] at conserved
  have kept : ins ∈ laneContents begun.lanes ++ inputContents cfg.built :=
    conserved.mem_iff.mpr (by simp [member])
  have built : ins ∈ inputContents cfg.built :=
    (List.mem_append.mp kept).resolve_left fun leftover => clean ins leftover t depends
  obtain ⟨i, _, insInside⟩ := mem_inputContents_built.mp built
  rw [← Config.cId_of_mem insInside] at insInside
  have same : other = ins := eq_of_single (single _ _ depends) inside insInside
  subst same
  -- the instruction was built once, but has completed and is still in a lane
  have once : (laneContents begun.lanes ++ inputContents cfg.built).count other = 1 := by
    rw [List.count_append, List.count_eq_zero_of_not_mem fun leftover => clean _ leftover t depends,
      List.count_eq_one_of_mem (inputContents_nodup cfg) built]
  have twice := conserved.count_eq other
  rw [once, List.count_append, List.count_append] at twice
  have first := List.count_pos_iff.mpr completed
  have second := List.count_pos_iff.mpr member
  omega

end sources

theorem Reach.noSource {cfg : Config} {Begin : Nat → Ruby σ → Prop} {Cycle : Core σ → Prop}
    {begun c : Core σ} {done : List Node} {running : Bool} (single : SingleSources cfg)
    (reach : Reach cfg Begin Cycle begun c done running) :
    NoSource cfg (if running then begun.lanes else c.lanes) := by
  induction reach with
  | boot ruby =>
    intro ins member
    obtain ⟨l, inside, holds⟩ := List.mem_flatMap.mp member
    obtain ⟨i, _, rfl⟩ := List.mem_map.mp inside
    simp [Lane.contents, Lane.new] at holds
  | begin n ruby earlier _ returned ih =>
    obtain ⟨_, _, _, _, rfl⟩ := (earlier.idle.withRuby ruby).beginIteration_ok returned
    exact ih
  | @cycle begun c c' done finished earlier _ returned ih =>
    cases finished with
    | false => exact ih
    | true =>
      obtain ⟨plan, running⟩ := earlier.running
      obtain ⟨_, _, _, _, _, _, _, isFinish⟩ := runACycle_ok returned
      exact (running.runACycle returned).noSource single ih (isFinish_iff.mp isFinish.symm).1

/-- What is built for this iteration and no longer outstanding has completed. -/
theorem Running.completed_of_not_outstanding {cfg : Config} {plan : Plan} {begun c : Core σ}
    {done : List Node} (running : Running cfg plan begun c done) {ins : Node}
    (built : ins ∈ inputContents cfg.built) (treated : ¬ c.Outstanding ins) :
    Completed begun (done ++ c.completions) ins := by
  have once := List.count_eq_one_of_mem (inputContents_nodup cfg) built
  have conserved := running.conserved.count_eq ins
  rw [List.append_assoc, List.count_append, once, List.count_append] at conserved
  unfold Core.Outstanding at treated
  unfold Completed
  rw [List.count_append]
  omega

/-- While no cycle reports a chain early, all instructions of a reported chain
that another chain depends on have completed. -/
theorem Reach.reported_completed {cfg : Config} {Begin : Nat → Ruby σ → Prop} {begun c : Core σ}
    {done : List Node} {running : Bool}
    (reach : Reach cfg Begin (fun c => ¬ c.ReportsEarly cfg) begun c done running) {s t : Nat}
    (depends : Depends cfg.graph.maps.unDependencies s t) (reported : s ∈ done.map (·.cId)) :
    ∀ ins ∈ cfg.instructions s, Completed begun done ins := by
  induction reach with
  | boot ruby => cases reported
  | begin n ruby _ _ _ _ => cases reported
  | @cycle begun c c' done finished earlier kept _ ih =>
    intro ins inside
    rw [List.map_append, List.mem_append] at reported
    rcases reported with before | now
    · have completed : Completed begun done ins := ih before ins inside
      exact Nat.lt_of_lt_of_le completed (List.Sublist.count_le ins (List.sublist_append_left _ _))
    · obtain ⟨plan, running⟩ := earlier.running
      obtain ⟨first, completes, rfl⟩ := List.mem_map.mp now
      have built : ins ∈ inputContents cfg.built :=
        mem_inputContents_built.mpr ⟨_, (cfg.depends_lt depends).1, inside⟩
      refine running.completed_of_not_outstanding built ?_
      intro outstanding
      exact kept ⟨first, completes, ⟨t, depends⟩, ins, inside, outstanding⟩

/-- Single instructions are never reported early: a source chain completes once,
with its only instruction. -/
theorem SingleSources.not_reportsEarly {cfg : Config} (single : SingleSources cfg)
    {begun c : Core σ} {done : List Node} (run : Run cfg begun c done true) :
    ¬ c.ReportsEarly cfg := by
  rintro ⟨ins, completes, ⟨t, depends⟩, other, inside, outstanding⟩
  obtain ⟨plan, running⟩ := run.running
  have clean : NoSource cfg begun.lanes := run.noSource single
  have held : ins ∈ laneContents c.lanes :=
    (laneContents_cycled fun l member => running.lanes l member).mem_iff.mpr
      (List.mem_append_left _ completes)
  have conserved := running.conserved
  have kept : ins ∈ laneContents begun.lanes ++ inputContents cfg.built :=
    conserved.mem_iff.mpr (by simp [held])
  have fresh : ins ∉ laneContents begun.lanes := fun leftover => clean ins leftover t depends
  have built := (List.mem_append.mp kept).resolve_left fresh
  obtain ⟨i, _, insInside⟩ := mem_inputContents_built.mp built
  rw [← Config.cId_of_mem insInside] at insInside
  have same : ins = other := eq_of_single (single _ _ depends) insInside inside
  subst same
  have once := List.count_eq_one_of_mem (inputContents_nodup cfg) built
  have total := conserved.count_eq ins
  rw [List.append_assoc, List.count_append, List.count_eq_zero_of_not_mem fresh, once,
    List.count_append] at total
  have positive := List.count_pos_iff.mpr completes
  unfold Core.Outstanding at outstanding
  omega

/-- Completions are counted per instruction but release the whole chain. In a run
none of whose cycles reports a chain early the order is kept: every load finds
the chains it depends on completed. -/
theorem loads_ordered_of_not_early {cfg : Config} {begun c c' : Core σ} {done : List Node}
    {finished : Bool}
    (run : Reach cfg (fun _ _ => True) (fun c => ¬ c.ReportsEarly cfg) begun c done true)
    (last : ¬ c.ReportsEarly cfg) (returned : c.runACycle = .ok (c', finished)) :
    OrderedLoads cfg begun c c' done := by
  intro i loads t s chains loaded depends
  obtain ⟨plan, running⟩ := run.running
  have next := running.runACycle returned
  obtain ⟨before, earlier, _⟩ := running.loads i
  have absent : t ∉ c'.inputChain.map (·.id) := by
    refine next.loaded_not_input (i := i) ?_ (List.mem_append_right before loaded)
    rw [chains, earlier, List.append_assoc]
  have reported := next.released t (cfg.depends_lt depends).2 absent s depends
  exact (run.cycle last returned).reported_completed depends reported

/-- A chain of two instructions that the last chain waits for. -/
def pipelinedSource : BoostGraph where
  vertices := [⟨0, ⟨.bb, 0⟩, 0, .bb⟩, ⟨1, ⟨.other "FMul", 1⟩, 1, .other "FMul"⟩,
    ⟨2, ⟨.other "Add", 2⟩, 1, .other "Add"⟩, ⟨3, ⟨.other "Add", 3⟩, 2, .other "Add"⟩]
  edges := [(0, 1), (1, 2), (2, 3)]
  bounded := by decide

/-- The multiplication completes and releases the last chain, although the
addition behind it has not run. -/
theorem pipelinedSource_loads_early :
    ∃ (cfg : Config) (begun c c' : Core (List Nat)) (done : List Node),
      cfg.dirtyGraph = pipelinedSource ∧ Run cfg begun c done true ∧
        c.runACycle = .ok (c', false) ∧ ¬ OrderedLoads cfg begun c c' done := by
  have tested : firstIteration ⟨0, 0, 0, 3⟩ sampleLlvm pipelinedSource 2 ⟨0, 0⟩
      ⟨1, 25, 100, 2, 2⟩ (fun _ _ => none) ⟨fifoRuby, [], []⟩ 17 (fun graph begun c done =>
        decide (graph.chains.getD 1 [] = [1, 2] ∧ graph.origMap[2]?.getD 0 = 2 ∧
          (graph.compGraph.vertices[2]?.map (·.opcode)).getD .nop = .other "Add" ∧
          Depends graph.maps.unDependencies 1 2) &&
        Loops.returns (fun (c', stops) => decide (stops = false ∧
          c'.schChains 0 = c.schChains 0 ++ [2] ∧
          ¬ Completed begun (done ++ c.completions) ⟨1, 2, 2, 2, .other "Add", 2⟩))
          c.runACycle) = true := by
    decide +kernel
  obtain ⟨graph, read, begun, c, done, facts, runs⟩ := exists_run tested
  have run := runs (fun _ _ => True) (fun _ => True) trivial (fun _ _ _ => trivial)
  obtain ⟨facts, ran⟩ := Bool.and_eq_true_iff.mp facts
  obtain ⟨chains, origMap, opcode, depends⟩ := of_decide_eq_true facts
  obtain ⟨⟨c', stops'⟩, stepped, checked⟩ := Loops.returns_iff.mp ran
  obtain ⟨rfl, loaded, late⟩ := of_decide_eq_true checked
  let cfg : Config := ⟨⟨0, 0, 0, 3⟩, sampleLlvm, pipelinedSource, graph, read, 2, ⟨0, 0⟩,
    ⟨1, 25, 100, 2, 2⟩, fun _ _ => none⟩
  have isNode : cfg.node 1 2 = ⟨1, 2, 2, 2, .other "Add", 2⟩ := by
    have isOpcode : cfg.opcode 2 = .other "Add" := opcode
    have isOld : cfg.graph.origMap[2]?.getD 0 = 2 := origMap
    have latency : cfg.instructionLlvm (.other "Add") = some 2 := rfl
    rw [Config.node, isOpcode, isOld, latency]
    rfl
  have inside : cfg.node 1 2 ∈ cfg.instructions 1 := by
    have vertices : cfg.vertices 1 = [1, 2] := chains
    rw [Config.instructions, vertices]
    simp
  refine ⟨cfg, begun, c, c', done, rfl, run, stepped, ?_⟩
  intro ordered
  rw [← isNode] at late
  exact late (ordered 0 [2] 2 1 loaded (by simp) depends _ inside)

/-- A start block that another chain waits for. -/
def singleSource : BoostGraph where
  vertices := [⟨0, ⟨.bb, 0⟩, 0, .bb⟩, ⟨1, ⟨.other "Mul", 1⟩, 1, .other "Mul"⟩]
  edges := [(0, 1)]
  bounded := by decide

theorem loads_ordered_singleSource :
    ∃ (cfg : Config) (begun c c' : Core (List Nat)) (done : List Node),
      cfg.dirtyGraph = singleSource ∧
        Reach cfg (fun _ _ => True) (fun c => ¬ c.ReportsEarly cfg) begun c done true ∧
        ¬ c.ReportsEarly cfg ∧ c.runACycle = .ok (c', false) ∧
        c'.schChains 1 = c.schChains 1 ++ [1] ∧ OrderedLoads cfg begun c c' done := by
  have tested : firstIteration ⟨0, 0, 0, 3⟩ sampleLlvm singleSource 2 ⟨0, 0⟩
      ⟨1, 25, 100, 2, 2⟩ (fun _ _ => none) ⟨fifoRuby, [], []⟩ 7 (fun graph _ c _ =>
        decide (graph.chains = [[0], [1]]) &&
        Loops.returns (fun (c', stops) => decide (stops = false ∧
          c'.schChains 1 = c.schChains 1 ++ [1])) c.runACycle) = true := by
    decide +kernel
  obtain ⟨graph, read, begun, c, done, facts, runs⟩ := exists_run tested
  have run := runs (fun _ _ => True) (fun _ => True) trivial (fun _ _ _ => trivial)
  obtain ⟨facts, ran⟩ := Bool.and_eq_true_iff.mp facts
  have chains := of_decide_eq_true facts
  obtain ⟨⟨c', stops'⟩, stepped, checked⟩ := Loops.returns_iff.mp ran
  obtain ⟨rfl, loaded⟩ := of_decide_eq_true checked
  let cfg : Config := ⟨⟨0, 0, 0, 3⟩, sampleLlvm, singleSource, graph, read, 2, ⟨0, 0⟩,
    ⟨1, 25, 100, 2, 2⟩, fun _ _ => none⟩
  have single : SingleSources cfg := by
    have each : ∀ s < 2, ([[0], [1]].getD s []).length = 1 := by decide
    intro s t depends
    have inside : s < graph.chains.length := (cfg.depends_lt depends).1
    change (graph.chains.getD s []).length = 1
    rw [chains] at inside ⊢
    exact each s inside
  have kept := run.mono (fun _ _ allowed => allowed)
    fun begun c done earlier _ => single.not_reportsEarly earlier
  have last := single.not_reportsEarly run
  exact ⟨cfg, begun, c, c', done, rfl, kept, last, stepped, loaded,
    loads_ordered_of_not_early kept last stepped⟩

end ChainSaw
