import ChainSaw.Core

set_option autoImplicit false

namespace ChainSaw

/-- `CHUNK_LIMIT`. -/
def chunkLimit : Nat := 99

/-- A line of the host trace: two fields begin a chunk of the accelerator, three
or four give a host request. -/
inductive TraceLine where
  | chunk (iter : Nat)
  | request (opcode : Opcode) (addr : Nat)
deriving DecidableEq, Repr

/-- Where `main` stands in its loop over the trace. `sending` is the loop that
waits for `isReady`, `draining` the one that empties `memory_vector`. -/
inductive Phase where
  | reading
  | sending (addr : Nat) (isWrite : Bool)
  | draining (iter : Nat)
  | starting (iter : Nat)
  | running
  | finished
deriving DecidableEq, Repr

/-- The variables of `main`. The Ruby object is the one the core points to. -/
structure Sim (σ : Type) where
  core : Core σ
  memoryVector : List Nat
  flagEmpty : Bool
  globalCnt : Nat
  cycleCnt : Nat
  rubyCycle : Nat
  numChunkCall : Nat
  lines : List TraceLine
  phase : Phase

/-- The calls of `send_request` and `RubyQueuePop` that `main` itself makes. -/
structure HostCalls where
  sent : List Nat
  popped : List Nat

namespace Sim

variable {σ : Type}

def new (core : Core σ) (lines : List TraceLine) : Sim σ where
  core := core
  memoryVector := []
  flagEmpty := true
  globalCnt := 0
  cycleCnt := 0
  rubyCycle := 0
  numChunkCall := 0
  lines := lines
  phase := .reading

/-- `m_ruby->advance_time()` with its two counters. -/
def advanceTime (s : Sim σ) : Sim σ :=
  { s with
    core := { s.core with ruby := s.core.ruby.advanceTime }
    globalCnt := (s.globalCnt + 1) % 2 ^ 32
    rubyCycle := (s.rubyCycle + 1) % 2 ^ 32 }

/-- `m_ruby->send_request(..)` after the line has been put on `memory_vector`. -/
def sendRequest (s : Sim σ) (addr : Nat) (isWrite : Bool) : Sim σ :=
  { s with
    core := { s.core with ruby := s.core.ruby.sendRequest addr isWrite }
    memoryVector := s.memoryVector ++ [addr] }

/-- The loop over Ruby's queue: every response must be a line of `memory_vector`. -/
def popResponses : List Nat → List Nat → Result (List Nat)
  | vector, [] => .ok vector
  | vector, addr :: queue =>
    if addr ∈ vector then popResponses (vector.erase addr) queue
    else .error (.assertion "ERROR")

/-- Answer all responses in Ruby's queue. -/
def popQueue (s : Sim σ) : Result (Sim σ) := do
  let memoryVector ← popResponses s.memoryVector s.core.ruby.queue
  pure { s with
    core := { s.core with ruby := { s.core.ruby with queue := [] } }
    memoryVector }

/-- One line of the trace. -/
def read (s : Sim σ) : TraceLine → Result (Sim σ × HostCalls)
  | .chunk iter =>
    pure ({ s with phase := if s.flagEmpty then .starting iter else .draining iter }, ⟨[], []⟩)
  | .request opcode addr => do
    let s := ({ s with flagEmpty := false } : Sim σ).advanceTime
    if Memory.baseAddr addr ∈ s.memoryVector then do
      let next ← s.popQueue
      pure (next, ⟨[], s.core.ruby.queue⟩)
    else pure ({ s with phase := .sending (Memory.baseAddr addr) (opcode == .store) }, ⟨[], []⟩)

/-- One turn of whichever loop of `main` is running. -/
def step (s : Sim σ) : Result (Sim σ × HostCalls) :=
  match s.phase with
  | .reading =>
    match s.lines with
    | [] => pure ({ s with phase := .finished }, ⟨[], []⟩)
    | line :: lines => ({ s with lines } : Sim σ).read line
  | .sending addr isWrite =>
    if s.core.ruby.isReady addr then do
      let s := s.sendRequest addr isWrite
      let next ← s.popQueue
      pure ({ next with phase := .reading }, ⟨[addr], s.core.ruby.queue⟩)
    else pure (s.advanceTime, ⟨[], []⟩)
  | .draining iter =>
    if s.memoryVector.isEmpty then
      pure ({ s with flagEmpty := true, phase := .starting iter }, ⟨[], []⟩)
    else do
      let s := s.advanceTime
      let next ← s.popQueue
      pure (next, ⟨[], s.core.ruby.queue⟩)
  | .starting iter => do
    let core ← s.core.beginIteration iter
    pure ({ s with core, phase := .running }, ⟨[], []⟩)
  | .running => do
    let (core, stops) ← s.core.runACycle
    if stops then
      pure ({ s with
        core
        numChunkCall := (s.numChunkCall + 1) % 2 ^ 32
        phase := if chunkLimit < s.numChunkCall then .finished else .reading }, ⟨[], []⟩)
    else
      pure ({ s with
        core
        globalCnt := (s.globalCnt + 1) % 2 ^ 32
        cycleCnt := (s.cycleCnt + 1) % 2 ^ 32 }, ⟨[], []⟩)
  | .finished => pure (s, ⟨[], []⟩)

end Sim

end ChainSaw
