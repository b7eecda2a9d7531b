import ChainSaw.Main
import ChainSaw.Wakeup

set_option autoImplicit false

namespace ChainSaw

variable {σ : Type}

/-- The states of `main` from `s₀` on, with the lines it has sent to Ruby itself
and the responses it has popped itself. -/
inductive SimRun (s₀ : Sim σ) : Sim σ → List Nat → List Nat → Prop
  | start : SimRun s₀ s₀ [] []
  | step {s s' : Sim σ} {sent popped : List Nat} {calls : HostCalls} :
      SimRun s₀ s sent popped → s.step = .ok (s', calls) →
      SimRun s₀ s' (sent ++ calls.sent) (popped ++ calls.popped)

/-- Between two iterations: all that Ruby owes are the lines in `memory_vector`. -/
structure HostTurn (cfg : Config) {system : RubySystem σ} (lawful : system.Lawful) (s : Sim σ) :
    Prop where
  reach : ∃ begun c done, Reach cfg (cfg.Starts lawful) (fun _ => True) begun c done false ∧
    s.core = { c with ruby := s.core.ruby }
  system : s.core.ruby.system = system
  outstanding : s.core.ruby.outstanding lawful = (s.memoryVector : Multiset Nat)

/-- During an iteration `main` waits for nothing. -/
structure AcceleratorTurn (cfg : Config) {system : RubySystem σ} (lawful : system.Lawful)
    (s : Sim σ) : Prop where
  reach : ∃ begun done, Reach cfg (cfg.Starts lawful) (fun _ => True) begun s.core done true
  empty : s.memoryVector = []

/-- What holds at each place of the loops of `main`. -/
def Turn (cfg : Config) {system : RubySystem σ} (lawful : system.Lawful) (s : Sim σ) : Phase → Prop
  | .reading => HostTurn cfg lawful s ∧ (s.flagEmpty = true → s.memoryVector = [])
  | .sending addr _ => HostTurn cfg lawful s ∧ addr ∉ s.memoryVector ∧ s.flagEmpty = false
  | .draining n => HostTurn cfg lawful s ∧ cfg.Traced n
  | .starting n => HostTurn cfg lawful s ∧ s.memoryVector = [] ∧ cfg.Traced n
  | .running => AcceleratorTurn cfg lawful s
  | .finished => HostTurn cfg lawful s

/-- The invariant of `main`: its lines are distinct, the rest of the trace only
has chunks with addresses, and the client whose turn it is has Ruby to itself. -/
structure Separated (cfg : Config) {system : RubySystem σ} (lawful : system.Lawful) (s : Sim σ) :
    Prop where
  distinct : s.memoryVector.Nodup
  traced : ∀ n, .chunk n ∈ s.lines → cfg.Traced n
  turn : Turn cfg lawful s s.phase

section host

variable {cfg : Config} {system : RubySystem σ} {lawful : system.Lawful} {s : Sim σ}

theorem HostTurn.advanceTime (turn : HostTurn cfg lawful s) : HostTurn cfg lawful s.advanceTime := by
  obtain ⟨⟨begun, c, done, reach, core⟩, same, outstanding⟩ := turn
  refine ⟨⟨begun, c, done, reach, ?_⟩, same, ?_⟩
  · simp only [Sim.advanceTime]
    rw [core]
  · exact (Ruby.outstanding_advanceTime lawful same).trans outstanding

theorem HostTurn.sendRequest (turn : HostTurn cfg lawful s) {addr : Nat}
    (ready : s.core.ruby.isReady addr = true) (isWrite : Bool) :
    HostTurn cfg lawful (s.sendRequest addr isWrite) := by
  obtain ⟨⟨begun, c, done, reach, core⟩, same, outstanding⟩ := turn
  refine ⟨⟨begun, c, done, reach, ?_⟩, same, ?_⟩
  · simp only [Sim.sendRequest]
    rw [core]
  · refine (Ruby.outstanding_sendRequest lawful same ready isWrite).trans ?_
    rw [outstanding, Multiset.cons_coe]
    exact Multiset.coe_eq_coe.mpr (List.perm_append_singleton addr _).symm

/-- Responses that are all in the vector are taken out one by one. -/
theorem popResponses_total {pending : Multiset Nat} (queue : List Nat) :
    ∀ vector : List Nat, (vector : Multiset Nat) = pending + (queue : Multiset Nat) →
      ∃ rest, Sim.popResponses vector queue = .ok rest ∧ (rest : Multiset Nat) = pending ∧
        rest.Sublist vector ∧ vector.Perm (queue ++ rest) := by
  induction queue with
  | nil =>
    intro vector whole
    exact ⟨vector, rfl, by simpa using whole, List.Sublist.refl _, List.Perm.refl _⟩
  | cons addr queue ih =>
    intro vector whole
    have member : addr ∈ vector := by
      have : addr ∈ (vector : Multiset Nat) := by
        rw [whole]
        simp
      exact this
    have smaller : ((vector.erase addr : List Nat) : Multiset Nat) = pending + (queue : Multiset Nat) := by
      rw [← Multiset.coe_erase, whole, ← Multiset.cons_coe, Multiset.add_cons,
        Multiset.erase_cons_head]
    obtain ⟨rest, popped, final, sub, split⟩ := ih (vector.erase addr) smaller
    refine ⟨rest, ?_, final, sub.trans List.erase_sublist, ?_⟩
    · unfold Sim.popResponses
      rw [if_pos member]
      exact popped
    · exact (List.perm_cons_erase member).trans (split.cons addr)

theorem HostTurn.popQueue (turn : HostTurn cfg lawful s) (distinct : s.memoryVector.Nodup) :
    ∃ next, s.popQueue = .ok next ∧ HostTurn cfg lawful next ∧ next.memoryVector.Nodup ∧
      s.memoryVector.Perm (s.core.ruby.queue ++ next.memoryVector) ∧
      next.flagEmpty = s.flagEmpty ∧ next.lines = s.lines ∧ next.phase = s.phase := by
  obtain ⟨⟨begun, c, done, reach, core⟩, same, outstanding⟩ := turn
  obtain ⟨rest, popped, final, sub, split⟩ :=
    popResponses_total s.core.ruby.queue s.memoryVector outstanding.symm
  refine ⟨{ s with
    core := { s.core with ruby := { s.core.ruby with queue := [] } }
    memoryVector := rest }, ?_, ⟨⟨begun, c, done, reach, ?_⟩, same, ?_⟩, distinct.sublist sub, split,
    rfl, rfl, rfl⟩
  · unfold Sim.popQueue
    rw [popped]
    rfl
  · simp only
    rw [core]
  · simpa [Ruby.outstanding] using final.symm

/-- A turn of the loops of `main` that returns and keeps the two clients apart;
the lines it sends and pops itself are those that enter and leave `memory_vector`. -/
def Keeps (cfg : Config) {system : RubySystem σ} (lawful : system.Lawful) (s : Sim σ) : Prop :=
  ∃ next calls, s.step = .ok (next, calls) ∧ Separated cfg lawful next ∧
    (s.memoryVector ++ calls.sent).Perm (calls.popped ++ next.memoryVector)

theorem Separated.reading (separated : Separated cfg lawful s) (phase : s.phase = .reading) :
    Keeps cfg lawful s := by
  obtain ⟨distinct, traced, turn⟩ := separated
  rw [phase] at turn
  obtain ⟨turn, flag⟩ := turn
  unfold Keeps Sim.step
  rw [phase]
  cases lines : s.lines with
  | nil => exact ⟨_, _, rfl, ⟨distinct, by simp, turn.reach, turn.system, turn.outstanding⟩, by simp⟩
  | cons line rest =>
    rw [lines] at traced
    have traced' : ∀ n, .chunk n ∈ rest → cfg.Traced n := fun n member => traced n (by simp [member])
    cases line with
    | chunk n =>
      have known : cfg.Traced n := traced n (by simp)
      refine ⟨_, _, rfl, ⟨distinct, traced', ?_⟩, by simp⟩
      cases empty : s.flagEmpty with
      | true => exact ⟨⟨turn.reach, turn.system, turn.outstanding⟩, flag empty, known⟩
      | false => exact ⟨⟨turn.reach, turn.system, turn.outstanding⟩, known⟩
    | request opcode addr =>
      have later : HostTurn cfg lawful
          ({ s with lines := rest, flagEmpty := false, phase := .reading } : Sim σ).advanceTime :=
        HostTurn.advanceTime ⟨turn.reach, turn.system, turn.outstanding⟩
      simp only [Sim.read]
      split
      · obtain ⟨next, popped, after, distinct', moved, flag', lines', phase'⟩ :=
          later.popQueue distinct
        refine ⟨next, _, by rw [popped]; rfl, ⟨distinct', by rw [lines']; exact traced', ?_⟩, ?_⟩
        · rw [phase']
          exact ⟨after, by rw [flag']; nofun⟩
        · simpa [Sim.advanceTime] using moved
      · rename_i absent
        exact ⟨_, _, rfl, ⟨distinct, traced', ⟨later.reach, later.system, later.outstanding⟩, absent,
          rfl⟩, by simp [Sim.advanceTime]⟩

theorem Separated.sending (separated : Separated cfg lawful s) {addr : Nat} {isWrite : Bool}
    (phase : s.phase = .sending addr isWrite) : Keeps cfg lawful s := by
  obtain ⟨distinct, traced, turn⟩ := separated
  rw [phase] at turn
  obtain ⟨turn, absent, flag⟩ := turn
  unfold Keeps Sim.step
  rw [phase]
  simp only
  split
  · rename_i ready
    have distinct' : (s.sendRequest addr isWrite).memoryVector.Nodup := by
      simpa [Sim.sendRequest, List.nodup_append] using ⟨distinct, fun a member same => absent (same ▸ member)⟩
    obtain ⟨next, popped, after, distinct', moved, flag', lines', _⟩ :=
      (turn.sendRequest ready isWrite).popQueue distinct'
    refine ⟨{ next with phase := .reading }, ⟨[addr], (s.sendRequest addr isWrite).core.ruby.queue⟩,
      by rw [popped]; rfl, ⟨distinct', ?_, ⟨after.reach, after.system, after.outstanding⟩, ?_⟩, moved⟩
    · simp only [lines']
      exact traced
    · simp only [flag', Sim.sendRequest, flag]
      nofun
  · refine ⟨_, _, rfl, ⟨distinct, traced, ?_⟩, by simp [Sim.advanceTime]⟩
    rw [show s.advanceTime.phase = _ from phase]
    exact ⟨turn.advanceTime, absent, flag⟩

theorem Separated.draining (separated : Separated cfg lawful s) {n : Nat}
    (phase : s.phase = .draining n) : Keeps cfg lawful s := by
  obtain ⟨distinct, traced, turn⟩ := separated
  rw [phase] at turn
  obtain ⟨turn, known⟩ := turn
  unfold Keeps Sim.step
  rw [phase]
  simp only
  split
  · rename_i empty
    exact ⟨_, _, rfl, ⟨distinct, traced, ⟨turn.reach, turn.system, turn.outstanding⟩,
      List.isEmpty_iff.mp empty, known⟩, by simp⟩
  · obtain ⟨next, popped, after, distinct', moved, _, lines', phase'⟩ :=
      turn.advanceTime.popQueue distinct
    refine ⟨next, _, by rw [popped]; rfl, ⟨distinct', by rw [lines']; exact traced, ?_⟩, ?_⟩
    · rw [phase', show s.advanceTime.phase = _ from phase]
      exact ⟨after, known⟩
    · simpa [Sim.advanceTime] using moved

/-- An iteration starts on a drained Ruby, unless the lanes leave their arrays. -/
theorem Separated.starting (separated : Separated cfg lawful s) (full : cfg.NonEmpty)
    (few : cfg.numChains ≤ maxNumChain) {n : Nat} (phase : s.phase = .starting n) :
    Keeps cfg lawful s ∨ s.step = .error .outOfRange ∧ ¬cfg.Fits := by
  obtain ⟨distinct, traced, turn⟩ := separated
  rw [phase] at turn
  obtain ⟨⟨⟨begun, c, done, reach, core⟩, same, outstanding⟩, empty, known⟩ := turn
  have idle : Idle cfg s.core := by
    rw [core]
    exact reach.idle.withRuby s.core.ruby
  have stepped : s.step = s.core.beginIteration n >>= fun core =>
      pure ({ s with core, phase := .running }, ⟨[], []⟩) := by
    unfold Sim.step
    rw [phase]
  cases returned : s.core.beginIteration n with
  | ok next =>
    have starts : cfg.Starts lawful n s.core.ruby := ⟨⟨same, by rw [outstanding, empty]; rfl⟩, known⟩
    have running := reach.begin n s.core.ruby starts (core ▸ returned)
    exact .inl ⟨{ s with core := next, phase := .running }, ⟨[], []⟩, by rw [stepped, returned]; rfl,
      ⟨distinct, traced, ⟨next, [], running⟩, empty⟩, by simp⟩
  | error fault =>
    refine .inr ⟨?_, fun fits => ?_⟩
    · rw [stepped, returned, idle.beginIteration_error full few returned]
      rfl
    · obtain ⟨next, returned'⟩ := idle.beginIteration_total fits n
      rw [returned] at returned'
      cases returned'

/-- When the iteration ends Ruby owes nothing, and it is the host's turn again. -/
theorem Separated.running (separated : Separated cfg lawful s) (mode : cfg.RubyMode)
    (few : cfg.numChains ≤ maxNumChain) (phase : s.phase = .running) : Keeps cfg lawful s := by
  obtain ⟨distinct, traced, turn⟩ := separated
  rw [phase] at turn
  obtain ⟨⟨begun, done, reach⟩, empty⟩ := turn
  obtain ⟨plan, state⟩ := reach.running
  obtain ⟨_, next, finished, returned, settled⟩ :=
    ((reach.settled few mode).1 rfl).runACycle few mode state
  have later := reach.cycle trivial returned
  unfold Keeps Sim.step
  rw [phase]
  simp only [returned, Loops.ok_bind]
  cases finished with
  | false =>
    refine ⟨_, _, rfl, ⟨distinct, traced, ?_⟩, by simp⟩
    exact ⟨⟨begun, _, later⟩, empty⟩
  | true =>
    obtain ⟨_, _, _, _, _, _, _, isFinish⟩ := runACycle_ok returned
    obtain ⟨_, drained⟩ := settled.finish isFinish.symm
    have host : ∀ after : Sim σ, after.core = next → after.memoryVector = [] →
        HostTurn cfg lawful after := by
      intro after core vector
      refine ⟨⟨begun, next, _, later, by rw [core]⟩, ?_, ?_⟩
      · rw [core]
        exact settled.system
      · rw [core, vector]
        exact drained
    refine ⟨_, _, rfl, ⟨distinct, traced, ?_⟩, by simp⟩
    simp only
    split
    · exact host _ rfl empty
    · exact ⟨host _ rfl empty, fun _ => empty⟩

/-- The two clients stay apart, whatever turn `main` makes. -/
theorem Separated.step (separated : Separated cfg lawful s) (full : cfg.NonEmpty)
    (few : cfg.numChains ≤ maxNumChain) (mode : cfg.RubyMode) :
    Keeps cfg lawful s ∨ s.step = .error .outOfRange ∧ ¬cfg.Fits := by
  cases phase : s.phase with
  | reading => exact .inl (separated.reading phase)
  | sending addr isWrite => exact .inl (separated.sending phase)
  | draining n => exact .inl (separated.draining phase)
  | starting n => exact separated.starting full few phase
  | running => exact .inl (separated.running mode few phase)
  | finished =>
    refine .inl ⟨s, ⟨[], []⟩, ?_, separated, by simp⟩
    unfold Sim.step
    rw [phase]
    rfl

theorem separated_new (ruby : Ruby σ) (same : ruby.system = system)
    (quiet : ruby.outstanding lawful = 0) {lines : List TraceLine}
    (traced : ∀ n, .chunk n ∈ lines → cfg.Traced n) :
    Separated cfg lawful (Sim.new (cfg.boot ruby) lines) where
  distinct := List.nodup_nil
  traced := traced
  turn := ⟨⟨⟨_, _, _, .boot ruby, rfl⟩, same, quiet⟩, fun _ => rfl⟩

/-- What every run of `main` keeps. -/
theorem SimRun.separated {s₀ : Sim σ} (begins : Separated cfg lawful s₀)
    (empty : s₀.memoryVector = []) (full : cfg.NonEmpty) (few : cfg.numChains ≤ maxNumChain)
    (mode : cfg.RubyMode) {sent popped : List Nat} (run : SimRun s₀ s sent popped) :
    Separated cfg lawful s ∧ sent.Perm (popped ++ s.memoryVector) := by
  induction run with
  | start => exact ⟨begins, by simp [empty]⟩
  | @step s s' sent popped calls earlier stepped ih =>
    obtain ⟨separated, balance⟩ := ih
    rcases separated.step full few mode with ⟨next, calls', stepped', after, moved⟩ | ⟨failed, _⟩
    · rw [stepped] at stepped'
      cases stepped'
      refine ⟨after, (balance.append_right _).trans ?_⟩
      rw [List.append_assoc, List.append_assoc]
      exact moved.append_left popped
    · rw [stepped] at failed
      cases failed

end host

/-- In every run of `main`, whatever Ruby answers when, no turn fails unless the
lanes leave their arrays; `memory_vector` holds without repetition what `main` has
sent and not popped; while the accelerator runs it is empty and Ruby owes lines to
the accelerator only, and otherwise the accelerator has no request left. -/
theorem host_accelerator_separation {cfg : Config} (full : cfg.NonEmpty)
    (few : cfg.numChains ≤ maxNumChain) (mode : cfg.RubyMode) {ruby : Ruby σ}
    (lawful : ruby.system.Lawful) (quiet : ruby.outstanding lawful = 0) {lines : List TraceLine}
    (traced : ∀ n, .chunk n ∈ lines → cfg.Traced n) {s : Sim σ} {sent popped : List Nat}
    (run : SimRun (Sim.new (cfg.boot ruby) lines) s sent popped) :
    (∀ fault, s.step = .error fault →
        fault = .outOfRange ∧ ¬(0 < cfg.numLanes ∧ cfg.numLanes ≤ maxNumChain)) ∧
      s.memoryVector.Nodup ∧ sent.Perm (popped ++ s.memoryVector) ∧
      (s.phase = .running → s.memoryVector = [] ∧ s.core.ruby.outstanding lawful =
        (s.core.memory.issued.map MemRequest.line : Multiset Nat)) ∧
      (s.phase ≠ .running → s.core.memory.ldstAddrBuffer = [] ∧
        s.core.ruby.outstanding lawful = (s.memoryVector : Multiset Nat)) := by
  have begins : Separated cfg lawful (Sim.new (cfg.boot ruby) lines) :=
    separated_new ruby rfl quiet traced
  obtain ⟨separated, balance⟩ := run.separated begins rfl full few mode
  refine ⟨?_, separated.distinct, balance, ?_, ?_⟩
  · intro fault failed
    rcases separated.step full few mode with ⟨_, _, stepped, _⟩ | ⟨failed', outside⟩
    · rw [stepped] at failed
      cases failed
    · rw [failed] at failed'
      cases failed'
      exact ⟨rfl, fun lanes => outside ⟨full, few, lanes⟩⟩
  · intro phase
    have turn := separated.turn
    rw [phase] at turn
    obtain ⟨⟨_, _, reach⟩, empty⟩ := turn
    exact ⟨empty, ((reach.settled few mode).1 rfl).agrees.consistent.lines.symm⟩
  · intro phase
    have turn : HostTurn cfg lawful s := by
      have turn := separated.turn
      cases at_phase : s.phase with
      | reading => rw [at_phase] at turn; exact turn.1
      | sending addr isWrite => rw [at_phase] at turn; exact turn.1
      | draining n => rw [at_phase] at turn; exact turn.1
      | starting n => rw [at_phase] at turn; exact turn.1
      | running => exact absurd at_phase phase
      | finished => rw [at_phase] at turn; exact turn
    obtain ⟨⟨_, c, _, reach, core⟩, _, outstanding⟩ := turn
    refine ⟨?_, outstanding⟩
    rw [core]
    exact ((reach.settled few mode).2 rfl).2.2

/-- `fuel` turns of `main`, with the calls it makes itself. -/
def Sim.steps : Nat → Sim σ → HostCalls → Result (Sim σ × HostCalls)
  | 0, s, calls => .ok (s, calls)
  | fuel + 1, s, calls => do
    let (next, more) ← s.step
    next.steps fuel ⟨calls.sent ++ more.sent, calls.popped ++ more.popped⟩

theorem SimRun.steps {s₀ : Sim σ} (fuel : Nat) : ∀ {s s' : Sim σ} {calls calls' : HostCalls},
    SimRun s₀ s calls.sent calls.popped → s.steps fuel calls = .ok (s', calls') →
    SimRun s₀ s' calls'.sent calls'.popped := by
  induction fuel with
  | zero =>
    intro s s' calls calls' run returned
    cases returned
    exact run
  | succ fuel ih =>
    intro s s' calls calls' run returned
    obtain ⟨⟨next, more⟩, stepped, returned⟩ := Loops.bind_eq_ok.mp returned
    exact ih (run.step stepped) returned

/-- The host reads a line that the accelerator then reads too. -/
theorem host_accelerator_sharedLine :
    ∃ (cfg : Config) (s : Sim (List Nat)), cfg.dirtyGraph = singleLoad ∧ cfg.NonEmpty ∧
      cfg.numChains ≤ maxNumChain ∧ cfg.RubyMode ∧
      SimRun (Sim.new (cfg.boot ⟨fifoRuby, [], []⟩) [.request .load 70, .chunk 0]) s [64] [64] ∧
      s.phase = .running ∧ s.core.ruby.state = [64] ∧ s.memoryVector = [] ∧
      s.core.ruby.outstanding fifoRuby_lawful =
        (s.core.memory.issued.map MemRequest.line : Multiset Nat) ∧
      ∃ next, s.step = .ok next := by
  have tested : Loops.returns (fun graph =>
      Loops.returns (fun ((s, calls) : Sim (List Nat) × HostCalls) =>
        decide (graph.chains = [[0], [1]] ∧ (graph.origGraph.vertices.map (·.label.id)).Nodup ∧
          calls.sent = [64] ∧ calls.popped = [64] ∧ s.phase = .running ∧ s.core.ruby.state = [64]))
        ((Sim.new (Core.new 1 graph ⟨3, 0⟩ ⟨1, 25, 100, 2, 2⟩ sampleLlvm
          (fun _ _ => some ⟨false, 64⟩) ⟨fifoRuby, [], []⟩)
          [.request .load 70, .chunk 0]).steps 19 ⟨[], []⟩))
      (initializeGraph ⟨0, 0, 0, 3⟩ sampleLlvm singleLoad) = true := by
    decide +kernel
  obtain ⟨graph, read, tested⟩ := Loops.returns_iff.mp tested
  obtain ⟨⟨s, calls⟩, stepped, facts⟩ := Loops.returns_iff.mp tested
  obtain ⟨chains, labels, sent, popped, phase, state⟩ := of_decide_eq_true facts
  let cfg : Config := ⟨⟨0, 0, 0, 3⟩, sampleLlvm, singleLoad, graph, read, 1, ⟨3, 0⟩,
    ⟨1, 25, 100, 2, 2⟩, fun _ _ => some ⟨false, 64⟩⟩
  have count : cfg.numChains = 2 := congrArg List.length chains
  have few : cfg.numChains ≤ maxNumChain := by rw [count]; decide
  have full : cfg.NonEmpty := by
    rw [Config.NonEmpty, count]
    change ∀ i < 2, graph.chains.getD i [] ≠ []
    rw [chains]
    decide
  have mode : cfg.RubyMode := ⟨rfl, labels, fun op latency _ => sampleLlvm_lt⟩
  have traced : ∀ n, .chunk n ∈ [TraceLine.request .load 70, .chunk 0] → cfg.Traced n :=
    fun _ _ _ _ _ _ _ => ⟨⟨false, 64⟩, rfl, by decide⟩
  have run : SimRun (Sim.new (cfg.boot ⟨fifoRuby, [], []⟩) [.request .load 70, .chunk 0]) s
      calls.sent calls.popped := SimRun.start.steps 19 stepped
  rw [sent, popped] at run
  obtain ⟨returns, _, _, accelerator, _⟩ :=
    host_accelerator_separation full few mode fifoRuby_lawful rfl traced run
  obtain ⟨empty, outstanding⟩ := accelerator phase
  refine ⟨cfg, s, rfl, full, few, mode, run, phase, state, empty, outstanding, ?_⟩
  cases returned : s.step with
  | ok next => exact ⟨next, rfl⟩
  | error fault => exact absurd (by simp [cfg, maxNumChain]) (returns fault returned).2

end ChainSaw
