import ChainSaw.Basic

set_option autoImplicit false

namespace ChainSaw

/-- `chainNode`: an instruction as `buildChains` makes it. -/
structure Node where
  cId : Nat
  oldId : Nat
  newId : Nat
  name : Nat
  type : Opcode
  latency : Nat
deriving DecidableEq, Repr

/-- The entries of `Lane.def`. -/
structure LaneParam where
  l1MissLatency : Nat
  l2MissLatency : Nat
  l3MissLatency : Nat
  fetchDelay : Nat
  decodeDelay : Nat

/-- The two static queues that all lanes share. -/
structure LaneQueues where
  finishedChains : List Nat
  memReqQueue : List (Nat × Nat)

/-- A lane without the decode stage, which no cycle runs. An empty
`m_current_op` is `none`. -/
structure Lane where
  laneID : Nat
  memoryMode : Nat
  laneSize : Nat
  fetchCnt : Nat
  decodeCnt : Nat
  exeCnt : Int
  memoryStall : Nat
  stall : Nat
  currentCh : Int
  currentOp : Option Opcode
  instructionQueue : List Node
  fetchStack : List Node
  exeStack : List Node
  laneParam : LaneParam
  schChainsList : List Nat

/-- The conversion of a `uint32_t` argument to the `int32_t` of `setExeCounter`. -/
def toInt32 (x : Nat) : Int := Int.bmod x (2 ^ 32)

def Opcode.isMem : Opcode → Bool
  | .load => true
  | .store => true
  | _ => false

namespace Lane

/-- The constructor `Lane(ID, m_mode, lane_size)`. -/
def new (id mode size : Nat) (param : LaneParam) : Lane where
  laneID := id
  memoryMode := mode
  laneSize := size
  fetchCnt := 0
  decodeCnt := 0
  exeCnt := 0
  memoryStall := 0
  stall := 0
  currentCh := -1
  currentOp := none
  instructionQueue := []
  fetchStack := []
  exeStack := []
  laneParam := param
  schChainsList := []

/-- `LoadInstructionQueue`; its return value is not used. -/
def loadInstructionQueue (l : Lane) (inputChain : List Node) (chId : Nat) : Lane :=
  { l with
    instructionQueue := l.instructionQueue ++ inputChain
    currentCh := chId
    decodeCnt := l.laneParam.decodeDelay
    schChainsList := l.schChainsList ++ [chId] }

/-- `setExeCounter`. -/
def setExeCounter (l : Lane) (delay : Int) : Lane := { l with exeCnt := delay }

/-- `updateCounter`. -/
def updateCounter (l : Lane) : Lane :=
  { l with
    fetchCnt := l.fetchCnt - 1
    exeCnt := if 0 < l.exeCnt then l.exeCnt - 1 else l.exeCnt
    memoryStall := if l.exeCnt = -1 then (l.memoryStall + 1) % 2 ^ 32 else l.memoryStall }

/-- What `execute` passes to `setExeCounter` for an instruction it starts. The
switch over the memory mode has no default, so another mode sets nothing. A
`Nop` sets 2 and then its latency like any other instruction. -/
def startDelay (l : Lane) (ins : Node) : Int :=
  if ins.type.isMem then
    match l.memoryMode with
    | 0 => toInt32 l.laneParam.l1MissLatency
    | 1 => toInt32 l.laneParam.l2MissLatency
    | 2 => toInt32 l.laneParam.l3MissLatency
    | 3 => -1
    | _ => l.exeCnt
  else toInt32 ins.latency

/-- The memory requests that starting an instruction puts on the queue. -/
def startRequest (l : Lane) (ins : Node) : List (Nat × Nat) :=
  if ins.type.isMem ∧ l.memoryMode = 3 then [(l.laneID, ins.oldId)] else []

/-- `execute`. -/
def execute (l : Lane) (q : LaneQueues) : Lane × LaneQueues :=
  if l.exeCnt = 0 then
    match l.exeStack with
    | ins :: rest =>
      ({ l with exeStack := rest, currentOp := none },
        { q with finishedChains := q.finishedChains ++ [ins.cId] })
    | [] =>
      match l.fetchStack with
      | [] => (l, q)
      | ins :: rest =>
        if l.fetchCnt = 0 then
          ({ l with exeStack := [ins], currentOp := some ins.type,
                    exeCnt := l.startDelay ins, fetchStack := rest },
            { q with memReqQueue := q.memReqQueue ++ l.startRequest ins })
        else (l, q)
  else if 0 < l.exeCnt then ({ l with currentOp := l.exeStack.head?.map (·.type) }, q)
  else (l, q)

/-- `fetch`. The delay is the constant 4, not the parameter `FETCH_DELAY`. -/
def fetch (l : Lane) : Lane :=
  if 0 < l.fetchCnt then l
  else match l.instructionQueue with
    | [] => l
    | ins :: rest =>
      { l with fetchStack := l.fetchStack ++ [ins], instructionQueue := rest, fetchCnt := 4 }

/-- `run`: one cycle of a lane. -/
def run (l : Lane) (q : LaneQueues) : Lane × LaneQueues :=
  let (l, q) := l.updateCounter.execute q
  (l.fetch, q)

/-- `is_free`. -/
def isFree (l : Lane) : Bool :=
  l.fetchCnt == 0 && l.exeCnt == 0 && l.instructionQueue.isEmpty && l.exeStack.isEmpty

/-- The instruction that the next `run` completes. -/
def retiring (l : Lane) : Option Node :=
  if l.updateCounter.exeCnt = 0 then l.exeStack.head? else none

/-- The instructions a lane holds, oldest first. -/
def contents (l : Lane) : List Node := l.exeStack ++ l.fetchStack ++ l.instructionQueue

end Lane

end ChainSaw
