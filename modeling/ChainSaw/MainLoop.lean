import ChainSaw.RubyTermination
import ChainSaw.Separation

set_option autoImplicit false

namespace ChainSaw

open Relations Progress

variable {σ : Type}

/-- The turns of the loops of `main`, one for each way through their bodies. -/
inductive Sim.Moves (s : Sim σ) : Sim σ → Prop
  | ends : s.phase = .reading → s.lines = [] → Moves s { s with phase := .finished }
  | chunk {n : Nat} {rest : List TraceLine} : s.phase = .reading → s.lines = .chunk n :: rest →
      Moves s { s with lines := rest, phase := if s.flagEmpty then .starting n else .draining n }
  | merged {opcode : Opcode} {addr : Nat} {rest : List TraceLine} {next : Sim σ} :
      s.phase = .reading → s.lines = .request opcode addr :: rest →
      ({ s with lines := rest, flagEmpty := false } : Sim σ).advanceTime.popQueue = .ok next →
      Moves s next
  | request {opcode : Opcode} {addr : Nat} {rest : List TraceLine} :
      s.phase = .reading → s.lines = .request opcode addr :: rest →
      Moves s { ({ s with lines := rest, flagEmpty := false } : Sim σ).advanceTime with
        phase := .sending (Memory.baseAddr addr) (opcode == .store) }
  | send {addr : Nat} {isWrite : Bool} {next : Sim σ} : s.phase = .sending addr isWrite →
      (s.sendRequest addr isWrite).popQueue = .ok next → Moves s { next with phase := .reading }
  | wait {addr : Nat} {isWrite : Bool} : s.phase = .sending addr isWrite →
      s.core.ruby.isReady addr = false → Moves s s.advanceTime
  | drained {n : Nat} : s.phase = .draining n →
      Moves s { s with flagEmpty := true, phase := .starting n }
  | drain {n : Nat} {next : Sim σ} : s.phase = .draining n → s.memoryVector ≠ [] →
      s.advanceTime.popQueue = .ok next → Moves s next
  | start {n : Nat} {core : Core σ} : s.phase = .starting n → s.core.beginIteration n = .ok core →
      Moves s { s with core, phase := .running }
  | cycle {core : Core σ} : s.phase = .running → s.core.runACycle = .ok (core, false) →
      Moves s { s with
        core
        globalCnt := (s.globalCnt + 1) % 2 ^ 32
        cycleCnt := (s.cycleCnt + 1) % 2 ^ 32 }
  | last {core : Core σ} : s.phase = .running → s.core.runACycle = .ok (core, true) →
      Moves s { s with
        core
        numChunkCall := (s.numChunkCall + 1) % 2 ^ 32
        phase := if chunkLimit < s.numChunkCall then .finished else .reading }
  | stays : s.phase = .finished → Moves s s

theorem Sim.moves {s s' : Sim σ} {calls : HostCalls} (stepped : s.step = .ok (s', calls)) :
    s.Moves s' := by
  unfold Sim.step at stepped
  split at stepped
  · rename_i phase
    split at stepped
    · rename_i lines
      cases stepped
      exact .ends phase lines
    · rename_i line rest lines
      cases line with
      | chunk n =>
        cases stepped
        exact .chunk phase lines
      | request opcode addr =>
        simp only [Sim.read] at stepped
        split at stepped
        · obtain ⟨next, popped, stepped⟩ := Loops.bind_eq_ok.mp stepped
          cases stepped
          exact .merged phase lines popped
        · cases stepped
          exact .request phase lines
  · rename_i addr isWrite phase
    split at stepped
    · obtain ⟨next, popped, stepped⟩ := Loops.bind_eq_ok.mp stepped
      cases stepped
      exact .send phase popped
    · rename_i busy
      cases stepped
      exact .wait phase (by simpa using busy)
  · rename_i n phase
    split at stepped
    · cases stepped
      exact .drained phase
    · rename_i full
      obtain ⟨next, popped, stepped⟩ := Loops.bind_eq_ok.mp stepped
      cases stepped
      exact .drain phase (by simpa using full) popped
  · rename_i n phase
    obtain ⟨core, began, stepped⟩ := Loops.bind_eq_ok.mp stepped
    cases stepped
    exact .start phase began
  · rename_i phase
    obtain ⟨⟨core, stops⟩, returned, stepped⟩ := Loops.bind_eq_ok.mp stepped
    cases stops with
    | true =>
      cases stepped
      exact .last phase returned
    | false =>
      cases stepped
      exact .cycle phase returned
  · rename_i phase
    cases stepped
    exact .stays phase

theorem Sim.popQueue_ok {s next : Sim σ} (popped : s.popQueue = .ok next) :
    ∃ memoryVector, Sim.popResponses s.memoryVector s.core.ruby.queue = .ok memoryVector ∧
      next = { s with
        core := { s.core with ruby := { s.core.ruby with queue := [] } }
        memoryVector } := by
  obtain ⟨memoryVector, answered, popped⟩ := Loops.bind_eq_ok.mp popped
  cases popped
  exact ⟨memoryVector, answered, rfl⟩

def TraceLine.isChunk : TraceLine → Bool
  | .chunk _ => true
  | .request _ _ => false

/-- The chunk whose line has been read and whose cycle loop has not ended. -/
def Phase.inChunk : Phase → Nat
  | .draining _ | .starting _ | .running => 1
  | .reading | .sending _ _ | .finished => 0

/-- The bookkeeping of `main` on a trace with `total` chunks. -/
structure Sim.Counted (total : Nat) (s : Sim σ) : Prop where
  chunks : s.numChunkCall + s.phase.inChunk + s.lines.countP TraceLine.isChunk = total
  going : s.phase ≠ .finished → s.numChunkCall ≤ chunkLimit + 1
  stopped : s.phase = .finished → s.numChunkCall = min total (chunkLimit + 2)
  ended : s.phase = .finished → s.lines = [] ∨ s.numChunkCall = chunkLimit + 2
  cycles : s.globalCnt = (s.rubyCycle + s.cycleCnt) % 2 ^ 32
  small : s.rubyCycle < 2 ^ 32 ∧ s.cycleCnt < 2 ^ 32

/-- `global_cnt - ruby_cycle`, which `main` prints as `ACC CYCLE`. -/
def Sim.accCycle (s : Sim σ) : Nat := toUInt32 ((s.globalCnt : Int) - s.rubyCycle)

theorem Sim.Counted.accCycle {total : Nat} {s : Sim σ} (counted : s.Counted total) :
    s.accCycle = s.cycleCnt := by
  have cycles := counted.cycles
  have small := counted.small
  unfold Sim.accCycle toUInt32
  omega

theorem Sim.Counted.keep {total : Nat} {s s' : Sim σ} (counted : s.Counted total)
    (going : s.phase ≠ .finished) (calls : s'.numChunkCall = s.numChunkCall)
    (left : s'.phase.inChunk + s'.lines.countP TraceLine.isChunk =
      s.phase.inChunk + s.lines.countP TraceLine.isChunk)
    (still : s'.phase ≠ .finished)
    (cycles : s'.globalCnt = (s'.rubyCycle + s'.cycleCnt) % 2 ^ 32)
    (small : s'.rubyCycle < 2 ^ 32 ∧ s'.cycleCnt < 2 ^ 32) : s'.Counted total := by
  have chunks := counted.chunks
  refine ⟨by omega, fun _ => ?_, fun ended => absurd ended still, fun ended => absurd ended still,
    cycles, small⟩
  rw [calls]
  exact counted.going going

theorem Sim.Moves.counted {total : Nat} {s s' : Sim σ} (moves : s.Moves s')
    (counted : s.Counted total) : s'.Counted total := by
  have chunks := counted.chunks
  have cycles := counted.cycles
  have small := counted.small
  have wrapped : ∀ n : Nat, (n + 1) % 2 ^ 32 < 2 ^ 32 := fun n => Nat.mod_lt _ (by decide)
  cases moves with
  | ends phase lines =>
    have going := counted.going (by simp [phase])
    simp only [phase, lines, Phase.inChunk, List.countP_nil] at chunks
    refine ⟨by simp only [lines, Phase.inChunk, List.countP_nil]; omega, by simp, fun _ => ?_,
      fun _ => .inl lines, cycles, small⟩
    dsimp only
    omega
  | @chunk n rest phase lines =>
    refine counted.keep (by simp [phase]) rfl ?_ (by dsimp only; split <;> simp) cycles small
    have inChunk : (if s.flagEmpty then Phase.starting n else .draining n).inChunk = 1 := by
      split <;> rfl
    rw [inChunk, phase, lines, List.countP_cons_of_pos rfl, Phase.inChunk]
    dsimp only
    omega
  | @merged opcode addr rest next phase lines popped =>
    obtain ⟨_, _, rfl⟩ := Sim.popQueue_ok popped
    refine counted.keep (by simp [phase]) rfl ?_ (by simp [Sim.advanceTime, phase]) ?_
      ⟨wrapped _, small.2⟩
    · simp [Sim.advanceTime, lines, TraceLine.isChunk]
    · simp only [Sim.advanceTime]
      omega
  | @request opcode addr rest phase lines =>
    refine counted.keep (by simp [phase]) rfl ?_ (by simp) ?_ ⟨wrapped _, small.2⟩
    · simp [Sim.advanceTime, lines, phase, Phase.inChunk, TraceLine.isChunk]
    · simp only [Sim.advanceTime]
      omega
  | send phase popped =>
    obtain ⟨_, _, rfl⟩ := Sim.popQueue_ok popped
    refine counted.keep (by simp [phase]) rfl ?_ (by simp) cycles small
    simp [Sim.sendRequest, phase, Phase.inChunk]
  | wait phase _ =>
    refine counted.keep (by simp [phase]) rfl rfl (by simp [Sim.advanceTime, phase]) ?_
      ⟨wrapped _, small.2⟩
    simp only [Sim.advanceTime]
    omega
  | drained phase =>
    refine counted.keep (by simp [phase]) rfl ?_ (by simp) cycles small
    simp [phase, Phase.inChunk]
  | drain phase _ popped =>
    obtain ⟨_, _, rfl⟩ := Sim.popQueue_ok popped
    refine counted.keep (by simp [phase]) rfl rfl (by simp [Sim.advanceTime, phase]) ?_
      ⟨wrapped _, small.2⟩
    simp only [Sim.advanceTime]
    omega
  | start phase _ =>
    refine counted.keep (by simp [phase]) rfl ?_ (by simp) cycles small
    simp [phase, Phase.inChunk]
  | cycle phase _ =>
    refine counted.keep (by simp [phase]) rfl rfl (by simp [phase]) ?_ ⟨small.1, wrapped _⟩
    dsimp only
    omega
  | last phase _ =>
    have going := counted.going (by simp [phase])
    simp only [phase, Phase.inChunk, chunkLimit] at chunks going
    have next : (s.numChunkCall + 1) % 2 ^ 32 = s.numChunkCall + 1 := by omega
    by_cases beyond : chunkLimit < s.numChunkCall
    · have limit : s.numChunkCall + 1 = chunkLimit + 2 := by
        simp only [chunkLimit] at beyond ⊢
        omega
      refine ⟨?_, ?_, fun _ => ?_, fun _ => .inr (next.trans limit), cycles, small⟩
      · simp only [beyond, ↓reduceIte, Phase.inChunk, next]
        omega
      · simp [beyond]
      · simp only [next, chunkLimit] at beyond ⊢
        omega
    · refine ⟨?_, fun _ => ?_, ?_, ?_, cycles, small⟩
      · simp only [beyond, ↓reduceIte, Phase.inChunk, next]
        omega
      · simp only [next, chunkLimit] at beyond ⊢
        omega
      · simp [beyond]
      · simp [beyond]
  | stays _ => exact counted

theorem Sim.counted_of_run {core : Core σ} {lines : List TraceLine} {s : Sim σ}
    {sent popped : List Nat} (run : SimRun (Sim.new core lines) s sent popped) :
    s.Counted (lines.countP TraceLine.isChunk) := by
  induction run with
  | start =>
    exact ⟨by simp [Sim.new, Phase.inChunk], by simp [Sim.new], by simp [Sim.new], by simp [Sim.new],
      by simp [Sim.new], by simp [Sim.new]⟩
  | step _ stepped ih => exact (Sim.moves stepped).counted ih

/-- In every run of `main`, whatever Ruby and the accelerator do: the chunks run
so far, the one that runs and those left in the trace are all of its chunks; the
simulation stops with no line left or after its 101st chunk, and not before; the
total of the cycles is that of Ruby's and the accelerator's, and the difference
that is printed is the accelerator's. -/
theorem main_counts_chunks (core : Core σ) (lines : List TraceLine) {s : Sim σ}
    {sent popped : List Nat} (run : SimRun (Sim.new core lines) s sent popped) :
    s.Counted (lines.countP TraceLine.isChunk) ∧ s.accCycle = s.cycleCnt := by
  have counted := Sim.counted_of_run run
  exact ⟨counted, counted.accCycle⟩

/-- A host that reads a line, two chunks that load it too and a store at the end. -/
def twoChunks : List TraceLine :=
  [.request .load 70, .chunk 0, .request .store 64, .request .store 65, .chunk 1, .request .load 8]

/-- The state in which the first of two chunks runs. -/
theorem main_counts_twoChunks :
    ∃ (core : Core (List Nat)) (s : Sim (List Nat)) (sent popped : List Nat),
      SimRun (Sim.new core twoChunks) s sent popped ∧ s.phase = .running ∧ s.cycleCnt = 12 ∧
      s.Counted 2 ∧ s.accCycle = s.cycleCnt := by
  have tested : Loops.returns (fun graph =>
      Loops.returns (fun ((s, _) : Sim (List Nat) × HostCalls) =>
        decide (s.phase = .running ∧ s.cycleCnt = 12))
        ((Sim.new (Core.new 1 graph ⟨3, 0⟩ ⟨1, 25, 100, 2, 2⟩ sampleLlvm
          (fun _ _ => some ⟨false, 64⟩) ⟨fifoRuby, [], []⟩) twoChunks).steps 18 ⟨[], []⟩))
      (initializeGraph ⟨0, 0, 0, 3⟩ sampleLlvm singleLoad) = true := by
    decide +kernel
  obtain ⟨graph, _, tested⟩ := Loops.returns_iff.mp tested
  obtain ⟨⟨s, calls⟩, stepped, facts⟩ := Loops.returns_iff.mp tested
  obtain ⟨phase, cycles⟩ := of_decide_eq_true facts
  have run := SimRun.start.steps 18 stepped
  exact ⟨_, s, _, _, run, phase, cycles, main_counts_chunks _ _ run⟩

section ends

variable {cfg : Config} {system : RubySystem σ} {lawful : system.Lawful} {s s' : Sim σ}

/-- What is left of the trace, and where `main` stands in its line. -/
def Sim.linesRank (s : Sim σ) : Nat :=
  match s.phase with
  | .reading => 4 * s.lines.length + 1
  | .running => 4 * s.lines.length + 2
  | .sending _ _ | .starting _ => 4 * s.lines.length + 3
  | .draining _ => 4 * s.lines.length + 4
  | .finished => 0

/-- What is left of the wait that `main` is in. -/
def Sim.waitRank (lawful : system.Lawful) (s : Sim σ) : Nat × Nat :=
  match s.phase with
  | .sending _ _ => ((lawful.pending s.core.ruby.state).card, 0)
  | .draining _ => (s.memoryVector.length, 0)
  | .running => s.core.rubyRank
  | .reading | .starting _ | .finished => (0, 0)

def Sim.rank (lawful : system.Lawful) (s : Sim σ) : Nat × Nat × Nat :=
  (s.linesRank, s.waitRank lawful)

abbrev rankLess : Nat × Nat × Nat → Nat × Nat × Nat → Prop :=
  Prod.Lex (· < ·) (Prod.Lex (· < ·) (· < ·))

/-- The turn takes something away, or Ruby has still to answer and nothing but
its time has passed. -/
def Sim.Advances (lawful : system.Lawful) (s s' : Sim σ) : Prop :=
  rankLess (s'.rank lawful) (s.rank lawful) ∨
    (s'.rank lawful = s.rank lawful ∧
      s'.core.ruby.state = (system.advanceTime s.core.ruby.state).1 ∧
      (system.advanceTime s.core.ruby.state).2 = [] ∧ lawful.pending s.core.ruby.state ≠ 0)

theorem Sim.advances_of_lines (less : s'.linesRank < s.linesRank) : s.Advances lawful s' :=
  .inl (Prod.lex_def.mpr (.inl less))

theorem Sim.advances_of_wait (same : s'.linesRank = s.linesRank)
    (less : (s'.waitRank lawful).1 < (s.waitRank lawful).1) : s.Advances lawful s' :=
  .inl (Prod.lex_def.mpr (.inr ⟨same, Prod.lex_def.mpr (.inl less)⟩))

/-- Ruby holds fewer requests after a cycle in which it answers. -/
theorem RubySystem.Lawful.card_advanceTime (lawful : system.Lawful) (state : σ) :
    (lawful.pending (system.advanceTime state).1).card + (system.advanceTime state).2.length =
      (lawful.pending state).card := by
  rw [← lawful.advanceTime state, Multiset.card_add, Multiset.coe_card]

theorem HostTurn.of_separated (separated : Separated cfg lawful s) (phase : s.phase ≠ .running) :
    HostTurn cfg lawful s := by
  have turn := separated.turn
  cases at_phase : s.phase with
  | reading => rw [at_phase] at turn; exact turn.1
  | sending addr isWrite => rw [at_phase] at turn; exact turn.1
  | draining n => rw [at_phase] at turn; exact turn.1
  | starting n => rw [at_phase] at turn; exact turn.1
  | running => exact absurd at_phase phase
  | finished => rw [at_phase] at turn; exact turn

/-- Waiting for `isReady`: without a response Ruby still holds the requests it holds. -/
theorem Sim.advances_wait (responsive : RubySystem.Responsive lawful)
    (separated : Separated cfg lawful s) {addr : Nat} {isWrite : Bool}
    (phase : s.phase = .sending addr isWrite) (busy : s.core.ruby.isReady addr = false) :
    s.Advances lawful s.advanceTime := by
  have turn := HostTurn.of_separated separated (by simp [phase])
  have card := lawful.card_advanceTime s.core.ruby.state
  have state : s.advanceTime.core.ruby.state = (system.advanceTime s.core.ruby.state).1 := by
    rw [← turn.system]
    rfl
  have lines : s.advanceTime.linesRank = s.linesRank := rfl
  have waits : ∀ t : Sim σ, t.phase = .sending addr isWrite →
      t.waitRank lawful = ((lawful.pending t.core.ruby.state).card, 0) := by
    intro t at_phase
    unfold Sim.waitRank
    rw [at_phase]
  have before := waits s phase
  have after := waits s.advanceTime phase
  rw [state] at after
  by_cases silent : (system.advanceTime s.core.ruby.state).2 = []
  · refine .inr ⟨?_, state, silent, fun none => ?_⟩
    · rw [silent, List.length_nil, Nat.add_zero] at card
      rw [Sim.rank, Sim.rank, lines, before, after, card]
    · unfold Ruby.isReady at busy
      rw [turn.system, responsive.ready _ addr none] at busy
      cases busy
  · have answered := List.length_pos_iff.mpr silent
    exact advances_of_wait lines (by rw [before, after]; dsimp only; omega)

/-- Emptying `memory_vector`: without a response Ruby still holds its lines. -/
theorem Sim.advances_drain (separated : Separated cfg lawful s) {n : Nat}
    (phase : s.phase = .draining n) (full : s.memoryVector ≠ [])
    (popped : s.advanceTime.popQueue = .ok s') : s.Advances lawful s' := by
  have turn := HostTurn.of_separated separated (by simp [phase])
  obtain ⟨_, popped', _, _, moved, _, lines', phase'⟩ :=
    turn.advanceTime.popQueue separated.distinct
  rw [popped] at popped'
  cases popped'
  have state : s'.core.ruby.state = (system.advanceTime s.core.ruby.state).1 := by
    obtain ⟨_, _, rfl⟩ := Sim.popQueue_ok popped
    rw [← turn.system]
    rfl
  have queue : s.advanceTime.core.ruby.queue =
      s.core.ruby.queue ++ (system.advanceTime s.core.ruby.state).2 := by
    rw [← turn.system]
    rfl
  have waits : ∀ t : Sim σ, t.phase = .draining n → t.waitRank lawful = (t.memoryVector.length, 0) := by
    intro t at_phase
    unfold Sim.waitRank
    rw [at_phase]
  have lines : s'.linesRank = s.linesRank := by
    unfold Sim.linesRank
    rw [phase', lines']
    rfl
  have before := waits s phase
  have after := waits s' (phase'.trans phase)
  have length := moved.length_eq
  rw [queue, List.length_append, List.length_append] at length
  have same : s.advanceTime.memoryVector = s.memoryVector := rfl
  rw [same] at length
  by_cases none : s.core.ruby.queue = [] ∧ (system.advanceTime s.core.ruby.state).2 = []
  · refine .inr ⟨?_, state, none.2, fun nothing => ?_⟩
    · rw [none.1, none.2] at length
      rw [Sim.rank, Sim.rank, lines, before, after, length]
      simp
    · have outstanding := turn.outstanding
      rw [Ruby.outstanding, nothing, none.1] at outstanding
      exact full ((Multiset.coe_eq_zero _).mp outstanding.symm)
  · have answered : 0 < s.core.ruby.queue.length + (system.advanceTime s.core.ruby.state).2.length := by
      by_contra zero
      exact none ⟨List.length_eq_zero_iff.mp (by omega), List.length_eq_zero_iff.mp (by omega)⟩
    exact advances_of_wait lines (by rw [before, after]; dsimp only; omega)

/-- The cycle loop of the accelerator. -/
theorem Sim.advances_cycle (few : cfg.numChains ≤ maxNumChain) (mode : cfg.RubyMode)
    (acyclic : Acyclic (Depends cfg.graph.maps.unDependencies))
    (responsive : RubySystem.Responsive lawful) (separated : Separated cfg lawful s)
    {core : Core σ} (phase : s.phase = .running) (returned : s.core.runACycle = .ok (core, false))
    (lines : s'.linesRank = s.linesRank) (kept : s'.phase = .running) (next : s'.core = core) :
    s.Advances lawful s' := by
  have turn := separated.turn
  rw [phase] at turn
  obtain ⟨⟨begun, done, reach⟩, _⟩ := turn
  obtain ⟨plan, running⟩ := reach.running
  have settled := (reach.settled few mode).1 rfl
  have waits : ∀ t : Sim σ, t.phase = .running → t.waitRank lawful = t.core.rubyRank := by
    intro t at_phase
    unfold Sim.waitRank
    rw [at_phase]
  rw [Sim.Advances, Sim.rank, Sim.rank, lines, waits s phase, waits s' kept, next]
  rcases settled.turn mode acyclic responsive running (reach.lanes (stalling_invariant mode))
    returned with less | ⟨equal, moved, silent, pending⟩
  · exact .inl (Prod.lex_def.mpr (.inr ⟨rfl, less⟩))
  · exact .inr ⟨by rw [equal], moved, silent, pending⟩

theorem Sim.Moves.advances (few : cfg.numChains ≤ maxNumChain) (mode : cfg.RubyMode)
    (acyclic : Acyclic (Depends cfg.graph.maps.unDependencies))
    (responsive : RubySystem.Responsive lawful) (separated : Separated cfg lawful s)
    (going : s.phase ≠ .finished) (moves : s.Moves s') : s.Advances lawful s' := by
  cases moves with
  | ends phase lines => exact advances_of_lines (by simp [Sim.linesRank, phase])
  | chunk phase lines =>
    refine advances_of_lines ?_
    cases s.flagEmpty <;> simp [Sim.linesRank, phase, lines] <;> omega
  | merged phase lines popped =>
    obtain ⟨_, _, rfl⟩ := Sim.popQueue_ok popped
    exact advances_of_lines (by simp [Sim.linesRank, Sim.advanceTime, phase, lines])
  | request phase lines =>
    exact advances_of_lines (by simp [Sim.linesRank, Sim.advanceTime, phase, lines]; omega)
  | send phase popped =>
    obtain ⟨_, _, rfl⟩ := Sim.popQueue_ok popped
    exact advances_of_lines (by simp [Sim.linesRank, Sim.sendRequest, phase])
  | wait phase busy => exact advances_wait responsive separated phase busy
  | drained phase => exact advances_of_lines (by simp [Sim.linesRank, phase])
  | drain phase full popped => exact advances_drain separated phase full popped
  | start phase _ => exact advances_of_lines (by simp [Sim.linesRank, phase])
  | cycle phase returned =>
    exact advances_cycle few mode acyclic responsive separated phase returned rfl phase rfl
  | last phase _ =>
    refine advances_of_lines ?_
    by_cases beyond : chunkLimit < s.numChunkCall <;> simp [Sim.linesRank, phase, beyond]
  | stays phase => exact absurd phase going

end ends

/-- One turn of `main`, with the calls it makes itself. -/
def Sim.turn (state : Sim σ × HostCalls) : Result (Sim σ × HostCalls) := do
  let (next, more) ← state.1.step
  pure (next, ⟨state.2.sent ++ more.sent, state.2.popped ++ more.popped⟩)

theorem steps_of_reaches {state : Sim σ × HostCalls}
    (reaches : Reaches Sim.turn (fun state => state.1.phase = .finished) state) :
    ∃ fuel last calls, state.1.steps fuel state.2 = .ok (last, calls) ∧ last.phase = .finished := by
  induction reaches with
  | @here state ended => exact ⟨0, state.1, state.2, rfl, ended⟩
  | @after state next stepped _ ih =>
    obtain ⟨⟨mid, more⟩, returned, stepped⟩ := Loops.bind_eq_ok.mp stepped
    cases stepped
    obtain ⟨fuel, last, calls, ended, finished⟩ := ih
    refine ⟨fuel + 1, last, calls, ?_, finished⟩
    unfold Sim.steps
    rw [returned]
    exact ended

/-- From every state that keeps the traffic of the host and the accelerator apart,
the turns of `main` lead to its end. -/
theorem Separated.ends {cfg : Config} (fits : cfg.Fits) (mode : cfg.RubyMode)
    (acyclic : Acyclic (Depends cfg.graph.maps.unDependencies)) {system : RubySystem σ}
    {lawful : system.Lawful} (responsive : RubySystem.Responsive lawful) {s : Sim σ}
    (separated : Separated cfg lawful s) (calls : HostCalls) :
    ∃ fuel last calls', s.steps fuel calls = .ok (last, calls') ∧ last.phase = .finished := by
  suffices reaches : Reaches Sim.turn (fun state => state.1.phase = .finished) (s, calls) from
    steps_of_reaches reaches
  refine Reaches.of_progress (WellFounded.prod_lex Nat.lt_wfRel.wf
      (WellFounded.prod_lex Nat.lt_wfRel.wf Nat.lt_wfRel.wf))
    (fun state => Separated cfg lawful state.1) (fun state => state.1.rank lawful)
    (fun state => state.1.core.ruby.state) (fun state => (system.advanceTime state).1)
    (fun state => (system.advanceTime state).2 ≠ []) ?_ separated
  rintro ⟨s, calls⟩ separated going
  rcases separated.step fits.nonEmpty fits.chains mode with
    ⟨next, more, stepped, separated', _⟩ | ⟨_, outside⟩
  · refine ⟨(next, ⟨calls.sent ++ more.sent, calls.popped ++ more.popped⟩), ?_, separated', ?_⟩
    · unfold Sim.turn
      rw [stepped]
      rfl
    · rcases (Sim.moves stepped).advances fits.chains mode acyclic responsive separated going with
        less | ⟨equal, moved, silent, pending⟩
      · exact .inl less
      · exact .inr ⟨equal, moved, fun answered => answered silent, responsive.answers _ pending⟩
  · exact absurd fits outside

/-- With a Ruby that answers, `main` comes to its end on every trace: each wait for
`isReady`, for `memory_vector` and for the accelerator is over after finitely
many cycles. -/
theorem main_ends {cfg : Config} (fits : cfg.Fits) (mode : cfg.RubyMode)
    (acyclic : Acyclic (Depends cfg.graph.maps.unDependencies)) {ruby : Ruby σ}
    {lawful : ruby.system.Lawful} (responsive : RubySystem.Responsive lawful)
    (quiet : ruby.outstanding lawful = 0) {lines : List TraceLine}
    (traced : ∀ n, .chunk n ∈ lines → cfg.Traced n) :
    ∃ fuel last calls, (Sim.new (cfg.boot ruby) lines).steps fuel ⟨[], []⟩ = .ok (last, calls) ∧
      last.phase = .finished :=
  (separated_new ruby rfl quiet traced).ends fits mode acyclic responsive ⟨[], []⟩

theorem main_ends_singleLoad :
    ∃ cfg : Config, cfg.dirtyGraph = singleLoad ∧ cfg.Fits ∧ cfg.RubyMode ∧
      Acyclic (Depends cfg.graph.maps.unDependencies) ∧
      RubySystem.Responsive fifoRuby_lawful ∧ (∀ n, .chunk n ∈ twoChunks → cfg.Traced n) ∧
      ∃ fuel last calls, (Sim.new (cfg.boot ⟨fifoRuby, [], []⟩) twoChunks).steps fuel ⟨[], []⟩ =
        .ok (last, calls) ∧ last.phase = .finished := by
  have tested : Loops.returns (fun graph =>
      decide (graph.chains = [[0], [1]] ∧ (graph.origGraph.vertices.map (·.label.id)).Nodup) &&
        (List.range 2).all fun s => (List.range 2).all fun t =>
          decide (Depends graph.maps.unDependencies s t → s < t))
      (initializeGraph ⟨0, 0, 0, 3⟩ sampleLlvm singleLoad) = true := by
    decide +kernel
  obtain ⟨graph, read, tested⟩ := Loops.returns_iff.mp tested
  obtain ⟨facts, forward⟩ := Bool.and_eq_true_iff.mp tested
  obtain ⟨chains, labels⟩ := of_decide_eq_true facts
  let cfg : Config := ⟨⟨0, 0, 0, 3⟩, sampleLlvm, singleLoad, graph, read, 1, ⟨3, 0⟩,
    ⟨1, 25, 100, 2, 2⟩, fun _ _ => some ⟨false, 64⟩⟩
  have count : cfg.numChains = 2 := congrArg List.length chains
  have fits : cfg.Fits := by
    refine ⟨?_, by rw [count]; decide, by simp [cfg], by simp [cfg, maxNumChain]⟩
    rw [Config.NonEmpty, count]
    change ∀ i < 2, graph.chains.getD i [] ≠ []
    rw [chains]
    decide
  have mode : cfg.RubyMode := ⟨rfl, labels, fun op latency _ => sampleLlvm_lt⟩
  have traced : ∀ n, .chunk n ∈ twoChunks → cfg.Traced n :=
    fun _ _ _ _ _ _ _ => ⟨⟨false, 64⟩, rfl, by decide⟩
  have acyclic : Acyclic (Depends cfg.graph.maps.unDependencies) := by
    refine Acyclic.of_lt id fun s t depends => ?_
    have known := cfg.depends_lt depends
    rw [count] at known
    have row := List.all_eq_true.mp forward s (List.mem_range.mpr known.1)
    exact of_decide_eq_true (List.all_eq_true.mp row t (List.mem_range.mpr known.2)) depends
  exact ⟨cfg, rfl, fits, mode, acyclic, fifoRuby_responsive, traced,
    main_ends fits mode acyclic fifoRuby_responsive rfl traced⟩

end ChainSaw
