import ChainSaw.Main
import ChainSaw.Runs

set_option autoImplicit false

namespace ChainSaw

variable {σ : Type}

/-- The five steps in the loop of `run_all`. -/
def Core.runSteps (c : Core σ) : Result (Core σ) := do
  let c := c.runOneCycleCore
  let c ← c.sendMemoryReq
  let c ← c.updateMemExe
  let c ← c.updateChains
  c.oooScheduler

/-- At most `fuel` turns of `while(!is_finish())` in `run_all`, with its
`cycle_cnt`; the flag tells whether the loop ended. -/
def Core.runAllCycles : Nat → Core σ → Nat → Result (Core σ × Nat × Bool)
  | 0, c, cycleCnt => .ok (c, cycleCnt, false)
  | fuel + 1, c, cycleCnt =>
    if c.isFinish then .ok (c, cycleCnt, true)
    else do
      let next ← c.runSteps
      next.runAllCycles fuel ((cycleCnt + 1) % 2 ^ 32)

/-- `run_all`; its first two steps are those of `Core::initialize`. -/
def Core.runAll (c : Core σ) (fuel : Nat) : Result (Core σ × Nat × Bool) := do
  let c ← c.initializeCore
  c.runAllCycles fuel 0

/-- At most `fuel` turns of `while(!testCore.run_a_cycle())` in `main`; the flag
tells whether the loop ended. -/
def Sim.runChunk : Nat → Sim σ → Result (Sim σ × Bool)
  | 0, s => .ok (s, false)
  | fuel + 1, s => do
    let (next, _) ← s.step
    if next.phase = .running then next.runChunk fuel else pure (next, true)

/-- `run_a_cycle` makes the same five steps and then tests for the end. -/
theorem runACycle_eq (c : Core σ) :
    c.runACycle = c.runSteps >>= fun next => pure (next, next.isFinish) := by
  unfold Core.runACycle Core.runSteps
  simp only [bind_assoc]

theorem runACycle_ok_iff {c next : Core σ} {stops : Bool} :
    c.runACycle = .ok (next, stops) ↔ c.runSteps = .ok next ∧ stops = next.isFinish := by
  rw [runACycle_eq, Loops.bind_eq_ok]
  constructor
  · intro ⟨c', stepped, same⟩
    cases same
    exact ⟨stepped, rfl⟩
  · intro ⟨stepped, same⟩
    exact ⟨next, stepped, by rw [same]; rfl⟩

theorem runAllCycles_done {c : Core σ} (finished : c.isFinish = true) (fuel n : Nat) :
    c.runAllCycles (fuel + 1) n = .ok (c, n, true) := by
  unfold Core.runAllCycles
  rw [if_pos finished]

theorem runAllCycles_turn {c next : Core σ} (unfinished : c.isFinish = false)
    (stepped : c.runSteps = .ok next) (fuel n : Nat) :
    c.runAllCycles (fuel + 1) n = next.runAllCycles fuel ((n + 1) % 2 ^ 32) := by
  rw [Core.runAllCycles, if_neg (by simp [unfinished]), stepped]
  rfl

/-- More fuel does not change where the loop ends. -/
theorem runAllCycles_more {fuel : Nat} : ∀ {c last : Core σ} {n count : Nat} (more : Nat),
    c.runAllCycles fuel n = .ok (last, count, true) →
    c.runAllCycles (fuel + more) n = .ok (last, count, true) := by
  induction fuel with
  | zero =>
    intro c last n count more ended
    cases ended
  | succ fuel ih =>
    intro c last n count more ended
    rw [Nat.succ_add_eq_add_succ, Nat.add_succ]
    unfold Core.runAllCycles at ended ⊢
    split at ended
    · rename_i finished
      rw [if_pos finished]
      exact ended
    · rename_i unfinished
      obtain ⟨next, stepped, ended⟩ := Loops.bind_eq_ok.mp ended
      rw [if_neg unfinished, stepped]
      exact ih more ended

theorem runAllCycles_unique {fuel fuel' : Nat} {c last last' : Core σ} {n count count' : Nat}
    (first : c.runAllCycles fuel n = .ok (last, count, true))
    (second : c.runAllCycles fuel' n = .ok (last', count', true)) :
    last = last' ∧ count = count' := by
  have long := runAllCycles_more fuel' first
  rw [Nat.add_comm, runAllCycles_more fuel second] at long
  cases long
  exact ⟨rfl, rfl⟩

/-- One turn of the loop in `main`: the counters move unless it is the last. -/
theorem Sim.step_running {s next : Sim σ} {calls : HostCalls} (running : s.phase = .running)
    (stepped : s.step = .ok (next, calls)) :
    s.core.runSteps = .ok next.core ∧
      (if next.core.isFinish then
        next.phase ≠ .running ∧ next.cycleCnt = s.cycleCnt ∧ next.globalCnt = s.globalCnt
      else next.phase = .running ∧ next.cycleCnt = (s.cycleCnt + 1) % 2 ^ 32 ∧
        next.globalCnt = (s.globalCnt + 1) % 2 ^ 32) := by
  unfold Sim.step at stepped
  rw [running] at stepped
  obtain ⟨⟨core, stops⟩, cycled, stepped⟩ := Loops.bind_eq_ok.mp stepped
  obtain ⟨steps, rfl⟩ := runACycle_ok_iff.mp cycled
  cases finished : core.isFinish with
  | true =>
    rw [finished] at stepped
    cases stepped
    refine ⟨steps, ?_⟩
    rw [if_pos finished]
    refine ⟨?_, rfl, rfl⟩
    dsimp only
    split <;> simp
  | false =>
    rw [finished] at stepped
    cases stepped
    refine ⟨steps, ?_⟩
    rw [if_neg (by simp [finished])]
    exact ⟨rfl, rfl, rfl⟩

/-- The loop of `run_all` makes the cycles of the loop in `main`, and counts one more. -/
theorem Sim.runChunk_counts {fuel : Nat} : ∀ {s last : Sim σ} (n : Nat), s.phase = .running →
    s.runChunk fuel = .ok (last, true) →
    ∃ next count, s.core.runSteps = .ok next ∧
      next.runAllCycles fuel ((n + 1) % 2 ^ 32) = .ok (last.core, count, true) ∧
      (last.cycleCnt + 1 + n) % 2 ^ 32 = (s.cycleCnt + count) % 2 ^ 32 ∧
      (last.globalCnt + 1 + n) % 2 ^ 32 = (s.globalCnt + count) % 2 ^ 32 := by
  induction fuel with
  | zero =>
    intro s last n _ ended
    cases ended
  | succ fuel ih =>
    intro s last n running ended
    obtain ⟨⟨next, calls⟩, stepped, ended⟩ := Loops.bind_eq_ok.mp ended
    obtain ⟨steps, counters⟩ := Sim.step_running running stepped
    dsimp only at ended
    split at counters
    · rename_i finished
      obtain ⟨stopped, cycles, globals⟩ := counters
      rw [if_neg stopped] at ended
      cases ended
      refine ⟨last.core, (n + 1) % 2 ^ 32, steps, runAllCycles_done finished fuel _, ?_, ?_⟩
      · rw [cycles]
        omega
      · rw [globals]
        omega
    · rename_i unfinished
      obtain ⟨still, cycles, globals⟩ := counters
      rw [if_pos still] at ended
      obtain ⟨after, count, more, loop, cycleSum, globalSum⟩ :=
        ih ((n + 1) % 2 ^ 32) still ended
      rw [cycles] at cycleSum
      rw [globals] at globalSum
      refine ⟨next.core, count, steps, ?_, by omega, by omega⟩
      rw [runAllCycles_turn (by simpa using unfinished) more]
      exact loop

/-- `Core::initialize` leaves the chains in `input_chain`. -/
theorem initializeCore_inputChain {c c' : Core σ} (returned : c.initializeCore = .ok c') :
    c'.inputChain = c.inputChain := by
  obtain ⟨filled, tabled, returned⟩ := Loops.bind_eq_ok.mp returned
  obtain ⟨table, _, tabled⟩ := Loops.bind_eq_ok.mp tabled
  cases tabled
  split at returned
  · obtain ⟨_, _, returned⟩ := Loops.bind_eq_ok.mp returned
    refine Loops.foldlM_ok (fun mid => mid.inputChain = c.inputChain) _ ?_ rfl returned
    intro mid same e _ next stepped
    obtain ⟨_, _, stepped⟩ := Loops.bind_eq_ok.mp stepped
    obtain ⟨plan, rfl⟩ := Core.pushPreSchedule_ok stepped
    exact same
  · obtain ⟨_, _, returned⟩ := Loops.bind_eq_ok.mp returned
    refine Loops.foldlM_ok (fun mid => mid.inputChain = c.inputChain) _ ?_ rfl returned
    intro mid same e _ next stepped
    obtain ⟨_, _, stepped⟩ := Loops.bind_eq_ok.mp stepped
    obtain ⟨_, _, stepped⟩ := Loops.bind_eq_ok.mp stepped
    obtain ⟨plan, rfl⟩ := Core.pushPreSchedule_ok stepped
    exact same

/-- A chunk never counts the cycle in which the loop of `main` ends: from every
state after `buildChains` with a chain to run, where that loop ends so does the
one of `run_all`, in the same state of the core and with one cycle more than is
added to either counter. -/
theorem main_counts_one_less {s begun last : Sim σ} {iter fuel : Nat} {calls : HostCalls}
    {built : Core σ} (starting : s.phase = .starting iter)
    (builds : s.core.buildChains = .ok built)
    (chain : ∃ ch ∈ built.inputChain, ch.instructionList ≠ [])
    (begins : s.step = .ok (begun, calls)) (ends : begun.runChunk fuel = .ok (last, true)) :
    (∃ enough count, (built.coreSetIter iter).runAll enough = .ok (last.core, count, true)) ∧
      ∀ enough core count, (built.coreSetIter iter).runAll enough = .ok (core, count, true) →
        core = last.core ∧
        (last.cycleCnt + 1) % 2 ^ 32 = (s.cycleCnt + count) % 2 ^ 32 ∧
        (last.globalCnt + 1) % 2 ^ 32 = (s.globalCnt + count) % 2 ^ 32 ∧
        last.cycleCnt ≠ (s.cycleCnt + count) % 2 ^ 32 ∧
        last.globalCnt ≠ (s.globalCnt + count) % 2 ^ 32 := by
  unfold Sim.step at begins
  rw [starting] at begins
  obtain ⟨core, began, begins⟩ := Loops.bind_eq_ok.mp begins
  cases begins
  unfold Core.beginIteration at began
  rw [builds, Loops.ok_bind] at began
  obtain ⟨next, count, stepped, loop, cycles, globals⟩ := Sim.runChunk_counts 0 rfl ends
  have unfinished : core.isFinish = false := by
    obtain ⟨ch, listed, _⟩ := chain
    have inputs : core.inputChain ≠ [] := by
      rw [initializeCore_inputChain began]
      exact List.ne_nil_of_mem listed
    simp [Core.isFinish, inputs]
  have all : (built.coreSetIter iter).runAll (fuel + 1) = .ok (last.core, count, true) := by
    unfold Core.runAll
    rw [began, Loops.ok_bind, runAllCycles_turn unfinished stepped]
    exact loop
  refine ⟨⟨fuel + 1, count, all⟩, ?_⟩
  intro enough core' count' ended
  unfold Core.runAll at all ended
  rw [began, Loops.ok_bind] at all ended
  obtain ⟨rfl, rfl⟩ := runAllCycles_unique all ended
  dsimp only at cycles globals
  exact ⟨rfl, by omega, by omega, by omega, by omega⟩

/-- The start block and a subtraction. -/
def blockAndSub : BoostGraph where
  vertices := [⟨0, ⟨.bb, 0⟩, 0, .bb⟩, ⟨1, ⟨.other "Sub", 1⟩, 1, .other "Sub"⟩]
  edges := [(0, 1)]
  bounded := by decide

/-- A trace that is one chunk, on one lane. -/
def oneChunk (graph : NewGraph) : Sim (List Nat) :=
  Sim.new (Core.new 1 graph ⟨0, 0⟩ ⟨1, 25, 100, 2, 2⟩ sampleLlvm (fun _ _ => none)
    ⟨fifoRuby, [], []⟩) [.chunk 0]

/-- The states of the chunk, and what either driver counts. -/
theorem blockAndSub_chunk :
    ∃ (graph : NewGraph) (s begun last : Sim (List Nat)) (built core : Core (List Nat))
      (first calls : HostCalls), initializeGraph ⟨0, 0, 0, 3⟩ sampleLlvm blockAndSub = .ok graph ∧
      (oneChunk graph).step = .ok (s, first) ∧ s.phase = .starting 0 ∧ s.cycleCnt = 0 ∧
      s.core.buildChains = .ok built ∧ (∃ ch ∈ built.inputChain, ch.instructionList ≠ []) ∧
      s.step = .ok (begun, calls) ∧ begun.runChunk 15 = .ok (last, true) ∧ last.cycleCnt = 14 ∧
      (built.coreSetIter 0).runAll 16 = .ok (core, 15, true) := by
  have tested : Loops.returns (fun graph =>
      Loops.returns (fun ((s, _) : Sim (List Nat) × HostCalls) =>
        decide (s.phase = .starting 0 ∧ s.cycleCnt = 0) &&
        (Loops.returns (fun ((begun, _) : Sim (List Nat) × HostCalls) =>
            Loops.returns (fun ((last, ended) : Sim (List Nat) × Bool) =>
              decide (ended = true ∧ last.cycleCnt = 14)) (begun.runChunk 15)) s.step &&
          Loops.returns (fun built : Core (List Nat) =>
            decide (∃ ch ∈ built.inputChain, ch.instructionList ≠ []) &&
            Loops.returns (fun ((_, count, ended) : Core (List Nat) × Nat × Bool) =>
              decide (ended = true ∧ count = 15)) ((built.coreSetIter 0).runAll 16))
            s.core.buildChains)) (oneChunk graph).step)
      (initializeGraph ⟨0, 0, 0, 3⟩ sampleLlvm blockAndSub) = true := by
    decide +kernel
  obtain ⟨graph, read, tested⟩ := Loops.returns_iff.mp tested
  obtain ⟨⟨s, first⟩, stepped, tested⟩ := Loops.returns_iff.mp tested
  obtain ⟨starting, tested⟩ := Bool.and_eq_true_iff.mp tested
  obtain ⟨phase, zero⟩ := of_decide_eq_true starting
  obtain ⟨chunk, all⟩ := Bool.and_eq_true_iff.mp tested
  obtain ⟨⟨begun, calls⟩, begins, chunk⟩ := Loops.returns_iff.mp chunk
  obtain ⟨⟨last, ended⟩, ends, counted⟩ := Loops.returns_iff.mp chunk
  obtain ⟨built, builds, all⟩ := Loops.returns_iff.mp all
  obtain ⟨chain, all⟩ := Bool.and_eq_true_iff.mp all
  obtain ⟨⟨core, count, stopped⟩, ran, totals⟩ := Loops.returns_iff.mp all
  obtain ⟨isEnd, cycles⟩ := of_decide_eq_true counted
  obtain ⟨isLast, fifteen⟩ := of_decide_eq_true totals
  rw [isEnd] at ends
  rw [isLast, fifteen] at ran
  exact ⟨graph, s, begun, last, built, core, first, calls, read, stepped, phase, zero, builds,
    of_decide_eq_true chain, begins, ends, cycles, ran⟩

/-- `main` adds 14 cycles for the chunk, `run_all` reports 15. -/
theorem blockAndSub_counts_differ :
    ∃ (graph : NewGraph) (s begun last : Sim (List Nat)) (built core : Core (List Nat))
      (first calls : HostCalls) (count : Nat),
      initializeGraph ⟨0, 0, 0, 3⟩ sampleLlvm blockAndSub = .ok graph ∧
      (oneChunk graph).step = .ok (s, first) ∧ s.phase = .starting 0 ∧
      s.core.buildChains = .ok built ∧ (∃ ch ∈ built.inputChain, ch.instructionList ≠ []) ∧
      s.step = .ok (begun, calls) ∧ begun.runChunk 15 = .ok (last, true) ∧
      (built.coreSetIter 0).runAll 16 = .ok (core, count, true) ∧
      last.cycleCnt ≠ s.cycleCnt + count := by
  obtain ⟨graph, s, begun, last, built, core, first, calls, read, stepped, phase, zero, builds,
    chain, begins, ends, cycles, ran⟩ := blockAndSub_chunk
  refine ⟨graph, s, begun, last, built, core, first, calls, 15, read, stepped, phase, builds, chain,
    begins, ends, ran, ?_⟩
  rw [zero, cycles]
  decide

theorem main_counts_blockAndSub :
    ∃ (s last : Sim (List Nat)) (built : Core (List Nat)), s.phase = .starting 0 ∧
      s.core.buildChains = .ok built ∧ last.cycleCnt ≠ (s.cycleCnt + 15) % 2 ^ 32 ∧
      last.globalCnt ≠ (s.globalCnt + 15) % 2 ^ 32 := by
  obtain ⟨_, s, begun, last, built, core, _, calls, _, _, phase, _, builds, chain, begins, ends, _,
    ran⟩ := blockAndSub_chunk
  have counts := (main_counts_one_less phase builds chain begins ends).2 16 core 15 ran
  exact ⟨s, last, built, phase, builds, counts.2.2.2⟩

end ChainSaw
