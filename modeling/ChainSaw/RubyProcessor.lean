import ChainSaw.Processor
import ChainSaw.Mshr

set_option autoImplicit false

namespace ChainSaw

/-- Values of the parameters with which Ruby can run. -/
structure SequencerConfig.Proper (cfg : SequencerConfig) : Prop where
  threshold : 0 < cfg.deadlockThreshold
  latency : 0 < cfg.sequencerToControllerLatency
  size : 0 ≤ cfg.outstandingRequests
  threads : 0 < cfg.smtThreads

namespace Processor

variable {κ η : Type} [DecidableEq κ] {cfg : SequencerConfig} {h : Hierarchy κ η}
  {answers : h.Answers}

/-- The states of the event queue that a driver can get to. -/
def Reached (cfg : SequencerConfig) (answers : h.Answers)
    (m : EventQueue (Option κ) (Processor η)) : Prop :=
  ∃ scheduled woken asked popped, Run cfg answers m scheduled woken asked popped

/-- `O3simInterface::makeRequest`. -/
def request (cfg : SequencerConfig) (h : Hierarchy κ η) (m : EventQueue (Option κ) (Processor η))
    (request : CacheMsg) : Result (EventQueue (Option κ) (Processor η)) := do
  let (world, events) ← makeRequest cfg h m.globalTime m.world request
  EventQueue.scheduleAll { m with world } events

theorem Run.request {m next : EventQueue (Option κ) (Processor η)}
    {scheduled woken : List (Option κ × Int)} {asked : Multiset CacheMsg} {popped : Multiset Nat}
    {request : CacheMsg} (run : Run cfg answers m scheduled woken asked popped)
    (allowed : Allowed cfg m.globalTime m.world request)
    (made : Processor.request cfg h m request = .ok next) :
    ∃ events, Run cfg answers next (scheduled ++ events) woken (request ::ₘ asked) popped := by
  obtain ⟨⟨world, events⟩, made, added⟩ := Loops.bind_eq_ok.mp made
  exact ⟨events, run.makeRequest allowed made added⟩

theorem Run.advance {m next : EventQueue (Option κ) (Processor η)} {turns : Nat}
    {scheduled woken : List (Option κ × Int)} {asked : Multiset CacheMsg} {popped : Multiset Nat}
    (run : Run cfg answers m scheduled woken asked popped)
    (returned : m.triggerEvents (wakeups cfg h) turns (m.globalTime + 1) = .ok next) :
    ∃ scheduled woken, Run cfg answers next scheduled woken asked popped := by
  obtain ⟨events, wakes, triggers⟩ := EventQueue.triggers_of_returned returned
  exact ⟨_, _, run.triggerEvents (by omega) triggers⟩

theorem Reached.request {m next : EventQueue (Option κ) (Processor η)} {request : CacheMsg}
    (reached : Reached cfg answers m) (allowed : Allowed cfg m.globalTime m.world request)
    (made : Processor.request cfg h m request = .ok next) : Reached cfg answers next := by
  obtain ⟨_, _, _, _, run⟩ := reached
  obtain ⟨_, run⟩ := run.request allowed made
  exact ⟨_, _, _, _, run⟩

theorem Reached.advance {m next : EventQueue (Option κ) (Processor η)} {turns : Nat}
    (reached : Reached cfg answers m)
    (returned : m.triggerEvents (wakeups cfg h) turns (m.globalTime + 1) = .ok next) :
    Reached cfg answers next := by
  obtain ⟨_, _, _, _, run⟩ := reached
  obtain ⟨_, _, run⟩ := run.advance returned
  exact ⟨_, _, _, _, run⟩

/-- The driver pops every address from its queue. -/
def drain (m : EventQueue (Option κ) (Processor η)) : EventQueue (Option κ) (Processor η) :=
  { m with world := { m.world with callbackQueue := [] } }

theorem Run.drain {m : EventQueue (Option κ) (Processor η)}
    {scheduled woken : List (Option κ × Int)} {asked : Multiset CacheMsg} {popped : Multiset Nat}
    (run : Run cfg answers m scheduled woken asked popped) :
    ∃ popped, Run cfg answers (drain m) scheduled woken asked popped := by
  induction queue : m.world.callbackQueue generalizing m popped with
  | nil =>
    refine ⟨popped, ?_⟩
    have same : Processor.drain m = m := by
      unfold Processor.drain
      rw [← queue]
    rw [same]
    exact run
  | cons address rest ih =>
    exact @ih { m with world := { m.world with callbackQueue := rest } } _ (run.rubyQueuePop queue) rfl

theorem Reached.drain {m : EventQueue (Option κ) (Processor η)} (reached : Reached cfg answers m) :
    Reached cfg answers (drain m) := by
  obtain ⟨_, _, _, _, run⟩ := reached
  obtain ⟨_, run⟩ := run.drain
  exact ⟨_, _, _, _, run⟩

end Processor

open Processor in
/-- The memory system behind `O3sim_ruby`: a processor with its event queue, between
two calls, when all addresses have been handed over. `aborted` after an assertion
has ended the program. -/
structure RubyProcessor {κ η : Type} [DecidableEq κ] {h : Hierarchy κ η} (cfg : SequencerConfig)
    (answers : h.Answers) where
  state : EventQueue (Option κ) (Processor η)
  aborted : Bool
  reached : Reached cfg answers state
  drained : state.world.callbackQueue = []

namespace RubyProcessor

open Processor

variable {κ η : Type} [DecidableEq κ] {cfg : SequencerConfig} {h : Hierarchy κ η}
  {answers : h.Answers}

/-- The message for a request of `O3simInterface::makeRequest` or `isReady`. -/
def message (p : RubyProcessor cfg answers) (addr : Nat) (isWrite : Bool) : CacheMsg where
  address := addr
  type := if isWrite then .st else .ld
  prefetch := false
  threadID := 0
  time := p.state.globalTime

def isReady (p : RubyProcessor cfg answers) (addr : Nat) : Bool :=
  !p.aborted && p.state.world.sequencer.isReady cfg (p.message addr false)

/-- The state that a call leaves, and the addresses it hands over. -/
def after (m : EventQueue (Option κ) (Processor η)) (reached : Reached cfg answers m) :
    RubyProcessor cfg answers × List Nat :=
  (⟨drain m, false, reached.drain, rfl⟩, m.world.callbackQueue)

theorem allowed (p : RubyProcessor cfg answers) {addr : Nat} (ready : p.isReady addr = true)
    (threads : 0 < cfg.smtThreads) (isWrite : Bool) :
    Allowed cfg p.state.globalTime p.state.world (p.message addr isWrite) := by
  have ready := (Bool.and_eq_true_iff.mp ready).2
  refine ⟨ready, threads, ?_, rfl⟩
  cases isWrite <;> rfl

/-- `send_request`. The callers ask `isReady` before; the state stands still on a
request that it refuses. -/
def sendRequest (p : RubyProcessor cfg answers) (addr : Nat) (isWrite : Bool) :
    RubyProcessor cfg answers × List Nat :=
  if ready : p.isReady addr = true ∧ 0 < cfg.smtThreads then
    match made : request cfg h p.state (p.message addr isWrite) with
    | .ok next => after next (p.reached.request (p.allowed ready.1 ready.2 isWrite) made)
    | .error _ => ({ p with aborted := true }, [])
  else ({ p with aborted := true }, [])

/-- `advance_time`: the call returns, or the deadlock check aborts. -/
noncomputable def advanceTime (p : RubyProcessor cfg answers) : RubyProcessor cfg answers × List Nat :=
  open Classical in
  if returns : p.aborted = false ∧ ∃ next turns,
      p.state.triggerEvents (wakeups cfg h) turns (p.state.globalTime + 1) = .ok next then
    after returns.2.choose (p.reached.advance returns.2.choose_spec.choose_spec)
  else ({ p with aborted := true }, [])

/-- What the program sees of the processor. -/
noncomputable def system (cfg : SequencerConfig) (answers : h.Answers) :
    RubySystem (RubyProcessor cfg answers) where
  isReady := isReady
  sendRequest := sendRequest
  advanceTime := advanceTime

/-- The addresses that will be handed over. -/
def pending (p : RubyProcessor cfg answers) : Multiset Nat :=
  addresses (p.state.world.requests cfg)

/-- A request that `isReady` accepts is taken. -/
theorem sendRequest_eq (proper : cfg.Proper) {p : RubyProcessor cfg answers} {addr : Nat}
    (ready : p.isReady addr = true) (isWrite : Bool) : ∃ next reached,
      request cfg h p.state (p.message addr isWrite) = .ok next ∧
        p.sendRequest addr isWrite = after next reached := by
  have allowed := p.allowed ready proper.threads isWrite
  obtain ⟨scheduled, woken, asked, popped, run⟩ := p.reached
  obtain ⟨world, events, next, made, added⟩ :=
    run.takes proper.threshold proper.latency proper.size allowed
  have taken : request cfg h p.state (p.message addr isWrite) = .ok next :=
    Loops.bind_eq_ok.mpr ⟨(world, events), made, added⟩
  refine ⟨next, p.reached.request allowed taken, taken, ?_⟩
  unfold sendRequest
  rw [dif_pos ⟨ready, proper.threads⟩]
  split
  · rename_i next' made'
    rw [taken] at made'
    cases made'
    rfl
  · rename_i fault failed
    rw [taken] at failed
    cases failed

theorem pending_sendRequest (proper : cfg.Proper) (p : RubyProcessor cfg answers) (addr : Nat)
    (isWrite : Bool) (ready : p.isReady addr = true) :
    pending (p.sendRequest addr isWrite).1 + ((p.sendRequest addr isWrite).2 : Multiset Nat) =
      addr ::ₘ p.pending := by
  obtain ⟨next, reached, made, sent⟩ := sendRequest_eq proper ready isWrite
  obtain ⟨scheduled, woken, asked, popped, run⟩ := p.reached
  obtain ⟨events, run'⟩ := run.request (p.allowed ready proper.threads isWrite) made
  have before := (run.kept proper.threshold proper.latency proper.size).1.balance
  have now := (run'.kept proper.threshold proper.latency proper.size).1.balance
  rw [addresses_cons, ← before, p.drained, Multiset.coe_nil, add_zero, ← add_assoc] at now
  rw [sent]
  exact add_right_cancel now

theorem pending_advanceTime (proper : cfg.Proper) (p : RubyProcessor cfg answers) :
    pending p.advanceTime.1 + (p.advanceTime.2 : Multiset Nat) = p.pending := by
  unfold advanceTime
  split
  · rename_i returns
    obtain ⟨scheduled, woken, asked, popped, run⟩ := p.reached
    obtain ⟨_, _, run'⟩ := run.advance returns.2.choose_spec.choose_spec
    have before := (run.kept proper.threshold proper.latency proper.size).1.balance
    have now := (run'.kept proper.threshold proper.latency proper.size).1.balance
    rw [← before, p.drained, Multiset.coe_nil, add_zero] at now
    exact add_right_cancel now
  · exact add_zero _

end RubyProcessor

theorem o3simConfig_proper : o3simConfig.Proper :=
  ⟨by decide, by decide, by decide, by decide⟩

end ChainSaw
