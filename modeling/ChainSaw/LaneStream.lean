import ChainSaw.LaneRuns

set_option autoImplicit false

namespace ChainSaw

/-- A lane after any sequence of the calls it gets, with the lists loaded into
it, the instructions completed by its cycles and the entries these cycles put on
`finished_chains`. `update_mem_exe` sets the counter without looking at it. -/
inductive LaneRun : Lane → List (List Node) → List Node → List Nat → Prop
  | new (id mode size : Nat) (param : LaneParam) : LaneRun (Lane.new id mode size param) [] [] []
  | load {l : Lane} {loads : List (List Node)} {completed : List Node} {reported : List Nat}
      (instructions : List Node) (chId : Nat) : LaneRun l loads completed reported →
      LaneRun (l.loadInstructionQueue instructions chId) (loads ++ [instructions]) completed reported
  | run {l : Lane} {loads : List (List Node)} {completed : List Node} {reported pushed : List Nat}
      (q : LaneQueues) : LaneRun l loads completed reported →
      (l.run q).2.finishedChains = q.finishedChains ++ pushed →
      LaneRun (l.run q).1 loads (completed ++ l.retiring.toList) (reported ++ pushed)
  | wake {l : Lane} {loads : List (List Node)} {completed : List Node} {reported : List Nat} :
      LaneRun l loads completed reported → LaneRun (l.setExeCounter 0) loads completed reported
  | stall {l : Lane} {loads : List (List Node)} {completed : List Node} {reported : List Nat}
      (stall : Nat) : LaneRun l loads completed reported →
      LaneRun { l with stall } loads completed reported

namespace LaneRun

variable {l : Lane} {loads : List (List Node)} {completed : List Node} {reported : List Nat}

theorem valid (run : LaneRun l loads completed reported) : l.Valid := by
  induction run with
  | new id mode size param => exact Lane.valid_new id mode size param
  | load instructions chId _ ih => exact ih.loadInstructionQueue instructions chId
  | run q _ _ ih => exact ih.run q
  | wake _ ih => exact ih.wake
  | stall stall _ ih => exact ⟨ih.single, ih.busy⟩

theorem conserves (run : LaneRun l loads completed reported) :
    completed ++ l.contents = loads.flatten := by
  induction run with
  | new id mode size param => rfl
  | load instructions chId _ ih =>
    rw [Lane.loadInstructionQueue_contents, ← List.append_assoc, ih, List.flatten_append,
      List.flatten_singleton]
  | run q earlier _ ih =>
    rw [List.append_assoc, ← Lane.run_contents earlier.valid q]
    exact ih
  | wake _ ih => exact ih
  | stall stall _ ih => exact ih

theorem reports (run : LaneRun l loads completed reported) :
    reported = completed.map (·.cId) := by
  induction run with
  | new id mode size param => rfl
  | load instructions chId _ ih => exact ih
  | @run l _ _ _ pushed q _ pushes ih =>
    rw [Lane.run_queues] at pushes
    have same : pushed = (l.retiring.map (·.cId)).toList := (List.append_cancel_left pushes).symm
    rw [List.map_append, ih, same]
    cases l.retiring <;> rfl
  | wake _ ih => exact ih
  | stall stall _ ih => exact ih

theorem cycle (run : LaneRun l loads completed reported) :
    LaneRun (Core.cycled l) loads (completed ++ l.retiring.toList)
      (reported ++ (l.retiring.map (·.cId)).toList) := by
  refine LaneRun.run ⟨[], []⟩ run ?_
  rw [Lane.run_queues]

end LaneRun

theorem laneRun_invariant (cfg : Config) :
    LaneInvariant cfg fun _ l => ∃ loads completed reported, LaneRun l loads completed reported where
  new := fun i _ => ⟨_, _, _, .new i _ _ _⟩
  run := fun _ _ _ ⟨_, _, _, run⟩ => ⟨_, _, _, run.cycle⟩
  wake := fun _ _ ⟨_, _, _, run⟩ => ⟨_, _, _, run.wake⟩
  stall := fun _ _ stall ⟨_, _, _, run⟩ => ⟨_, _, _, run.stall stall⟩
  load := fun _ _ _ id _ _ _ ⟨_, _, _, run⟩ => ⟨_, _, _, run.load (cfg.instructions id) id⟩

/-- The lanes of a core are in such a run at any time. -/
theorem Reach.laneRun {σ : Type} {cfg : Config} {Begin : Nat → Ruby σ → Prop}
    {Cycle : Core σ → Prop} {begun c : Core σ} {done : List Node} {running : Bool}
    (reach : Reach cfg Begin Cycle begun c done running) :
    Lanes (fun _ l => ∃ loads completed reported, LaneRun l loads completed reported) c.lanes :=
  reach.lanes (laneRun_invariant cfg)

/-- Lane pipeline conservation. Whatever the order of loads, cycles and wake-ups,
the completed instructions followed by those in the three stages are the loaded
ones in load order; the execute stage holds one instruction at most and counts
only while it holds one, so that `execute` finds one where it reads the front;
and a completion reports the chain of its instruction, once. -/
theorem lane_conserves_instructions {l : Lane} {loads : List (List Node)} {completed : List Node}
    {reported : List Nat} (run : LaneRun l loads completed reported) :
    completed ++ (l.exeStack ++ l.fetchStack ++ l.instructionQueue) = loads.flatten ∧
      l.exeStack.length ≤ 1 ∧ (l.exeCnt ≠ 0 → l.exeStack.length = 1) ∧
      (0 < l.updateCounter.exeCnt → l.updateCounter.exeStack ≠ []) ∧
      reported = completed.map (·.cId) ∧
      ∀ q, (l.run q).2.finishedChains =
        q.finishedChains ++ (l.retiring.map (·.cId)).toList := by
  have valid := run.valid
  have held (counting : l.exeCnt ≠ 0) : 0 < l.exeStack.length :=
    List.length_pos_iff.mpr (valid.busy counting)
  refine ⟨run.conserves, valid.single, ?_, ?_, run.reports, ?_⟩
  · intro counting
    have := held counting
    have := valid.single
    omega
  · intro counting
    apply valid.busy
    intro zero
    rw [Lane.updateCounter_exeCnt_eq_zero.mpr (.inl zero)] at counting
    omega
  · intro q
    rw [Lane.run_queues]

/-- Two instructions of chain 3 loaded at once; the first is completed by the
sixth cycle. -/
theorem lane_conserves_twoInstructions :
    ∃ l : Lane, [⟨3, 0, 7, 7, .other "Add", 1⟩] ++ (l.exeStack ++ l.fetchStack ++ l.instructionQueue) =
        [[⟨3, 0, 7, 7, .other "Add", 1⟩, ⟨3, 0, 8, 8, .load, 1⟩]].flatten ∧ l.exeStack.length ≤ 1 := by
  have loaded : LaneRun _ _ [] [] := (LaneRun.new 0 3 300 ⟨4, 10, 50, 4, 1⟩).load
    [⟨3, 0, 7, 7, .other "Add", 1⟩, ⟨3, 0, 8, 8, .load, 1⟩] 3
  have run : LaneRun _ _ [⟨3, 0, 7, 7, .other "Add", 1⟩] [3] :=
    loaded.cycle.cycle.cycle.cycle.cycle.cycle
  obtain ⟨conserved, single, _⟩ := lane_conserves_instructions run
  exact ⟨_, conserved, single⟩

end ChainSaw
