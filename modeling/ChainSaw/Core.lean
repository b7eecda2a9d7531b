import ChainSaw.NewGraph
import ChainSaw.Lane
import ChainSaw.Memory

set_option autoImplicit false

namespace ChainSaw

open Std (TreeMap TreeSet)

/-- `Chain`. -/
structure Chain where
  id : Nat
  numDependencies : Nat
  liveIn : TreeSet Nat
  liveOut : TreeSet Nat
  instructionList : List Node
  chMem : Bool

/-- The entries of `Core.def` that are read. -/
structure CoreParam where
  memoryMode : Nat
  scheduler : Nat

/-- `depen_table`: `MAX_NUM_CHAIN` rows and columns. -/
abbrev DepenTable := Nat → Nat → Nat

def readTable (table : DepenTable) (row col : Nat) : Result Nat :=
  if row < maxNumChain ∧ col < maxNumChain then .ok (table row col) else .error .outOfRange

def writeTable (table : DepenTable) (row col value : Nat) : Result DepenTable :=
  if row < maxNumChain ∧ col < maxNumChain then
    .ok fun r c => if r = row ∧ c = col then value else table r c
  else .error .outOfRange

def readSize (sizes : Nat → Nat) (i : Nat) : Result Nat :=
  if i < maxNumChain then .ok (sizes i) else .error .outOfRange

def writeSize (sizes : Nat → Nat) (i value : Nat) : Result (Nat → Nat) :=
  if i < maxNumChain then .ok fun j => if j = i then value else sizes j
  else .error .outOfRange

@[simp] theorem readTable_eq_ok {table : DepenTable} {row col value : Nat} :
    readTable table row col = .ok value ↔
      (row < maxNumChain ∧ col < maxNumChain) ∧ table row col = value := by
  unfold readTable
  split
  · rename_i inside
    simp [inside]
  · rename_i outside
    simp only [reduceCtorEq, false_iff]
    exact fun both => outside both.1

@[simp] theorem writeTable_eq_ok {table next : DepenTable} {row col value : Nat} :
    writeTable table row col value = .ok next ↔ (row < maxNumChain ∧ col < maxNumChain) ∧
      (fun r c => if r = row ∧ c = col then value else table r c) = next := by
  unfold writeTable
  split
  · rename_i inside
    simp [inside]
  · rename_i outside
    simp only [reduceCtorEq, false_iff]
    exact fun both => outside both.1

@[simp] theorem readSize_eq_ok {sizes : Nat → Nat} {i value : Nat} :
    readSize sizes i = .ok value ↔ i < maxNumChain ∧ sizes i = value := by
  unfold readSize
  split
  · rename_i inside
    simp [inside]
  · rename_i outside
    simp only [reduceCtorEq, false_iff]
    exact fun both => outside both.1

@[simp] theorem writeSize_eq_ok {sizes next : Nat → Nat} {i value : Nat} :
    writeSize sizes i value = .ok next ↔
      i < maxNumChain ∧ (fun j => if j = i then value else sizes j) = next := by
  unfold writeSize
  split
  · rename_i inside
    simp [inside]
  · rename_i outside
    simp only [reduceCtorEq, false_iff]
    exact fun both => outside both.1

theorem readSize_error {sizes : Nat → Nat} {i : Nat} {fault : Fault}
    (failed : readSize sizes i = .error fault) : fault = .outOfRange := by
  unfold readSize at failed
  split at failed
  · cases failed
  · cases failed
    rfl

/-- `findMinimum`: the first index of the least of the first `limit` entries. -/
def findMinimum (arr : Nat → Nat) (limit : Nat) : Result Nat := do
  let first ← readSize arr 0
  let (_, index) ← (List.range' 1 (limit - 1)).foldlM
    (fun (min, index) i => do
      let value ← readSize arr i
      pure (if value < min then (value, i) else (min, index))) (first, 0)
  pure index

/-- `Core`, with the static queues of the lanes and the Ruby object it points to. -/
structure Core (σ : Type) where
  numIter : Nat
  numLanes : Nat
  graph : NewGraph
  param : CoreParam
  instructionLlvm : Opcode → Option Nat
  inputChain : List Chain
  depenTable : DepenTable
  lanePreScheduleSize : Nat → Nat
  lanePreSchedule : List (List Nat)
  stackScheChain : List Nat
  memory : Memory
  ruby : Ruby σ
  lanes : List Lane
  queues : LaneQueues
  chaintoLane : TreeMap Nat Nat
  numChains : Nat
  memReqMap : TreeMap Nat Nat
  unDependencies : ChainSets
  coreFree : Nat
  coreIdle : Nat

namespace Core

variable {σ : Type}

/-- The constructor, followed by `m_graph.initialize` and `memoryInitialize`. -/
def new (n : Nat) (graph : NewGraph) (param : CoreParam) (laneParam : LaneParam)
    (instructionLlvm : Opcode → Option Nat) (memaddrMap : Nat → Nat → Option MemValue)
    (ruby : Ruby σ) : Core σ where
  numIter := 0
  numLanes := n
  graph := graph
  param := param
  instructionLlvm := instructionLlvm
  inputChain := []
  depenTable := fun _ _ => 0
  lanePreScheduleSize := fun _ => 0
  lanePreSchedule := List.replicate n []
  stackScheChain := []
  memory := Memory.new memaddrMap
  ruby := ruby
  lanes := (List.range n).map fun i => Lane.new i param.memoryMode 300 laneParam
  queues := ⟨[], []⟩
  chaintoLane := ∅
  numChains := maxNumChain
  memReqMap := ∅
  unDependencies := ∅
  coreFree := 0
  coreIdle := 0

/-- The instruction `buildChains` makes for a vertex. -/
def buildNode (graph : NewGraph) (instructionLlvm : Opcode → Option Nat) (i ins : Nat) :
    Result Node := do
  match graph.compGraph.vertices[ins]? with
  | none => .error .outOfRange
  | some p => do
    let latency ← deref (instructionLlvm p.opcode)
    pure { cId := i, oldId := graph.origMap[ins]?.getD 0, newId := ins, name := ins,
           type := p.opcode, latency }

/-- One turn of the loop of `buildChains`. The constructor ignores its argument
and the id is only set in the loop over the instructions. -/
def buildChain (graph : NewGraph) (instructionLlvm : Opcode → Option Nat) (c : List Nat)
    (i : Nat) : Result Chain := do
  let instructionList ← c.mapM (buildNode graph instructionLlvm i)
  let liveIn := graph.maps.unReverseMapping[i]?.getD ∅
  pure { id := if c.isEmpty then 0 else i, numDependencies := liveIn.size, liveIn,
         liveOut := graph.maps.unDependencies[i]?.getD ∅, instructionList,
         chMem := instructionList.any (·.type.isMem) }

/-- The chains that `buildChains` appends to `input_chain`. -/
def builtChains (graph : NewGraph) (instructionLlvm : Opcode → Option Nat) :
    Result (List Chain) :=
  graph.chains.zipIdx.mapM fun (c, i) => buildChain graph instructionLlvm c i

/-- `buildChains`, on the arguments `main` gives it. -/
def buildChains (c : Core σ) : Result (Core σ) := do
  let built ← builtChains c.graph c.instructionLlvm
  pure { c with
    inputChain := c.inputChain ++ built
    unDependencies := c.graph.maps.unDependencies
    numChains := (c.inputChain ++ built).length }

/-- `coreSetIter`. -/
def coreSetIter (c : Core σ) (n : Nat) : Core σ := { c with numIter := n }

/-- `initialize_depen_table`. -/
def initializeDepenTable (c : Core σ) : Result (Core σ) := do
  let table ← (c.unDependencies.toList.flatMap fun dep => dep.2.toList.map fun t => (t, dep.1)).foldlM
    (fun table e => writeTable table e.1 e.2 1) c.depenTable
  pure { c with depenTable := table }

/-- `find_if` over `input_chain` by id. -/
def findInput (c : Core σ) (id : Nat) : Option Chain :=
  c.inputChain.find? (fun item => item.id == id)

/-- The lookup of either scheduler, with its assertion. -/
def findScheduled (c : Core σ) (id : Nat) : Result Chain :=
  match c.findInput id with
  | some ch => .ok ch
  | none => .error (.assertion "\nERROR: Wrong scheduling!\n")

/-- Put chain `ch` with `count` instructions at the end of a lane's buffer. -/
def pushPreSchedule (c : Core σ) (index ch count : Nat) : Result (Core σ) := do
  if index < c.lanePreSchedule.length then do
    let size ← readSize c.lanePreScheduleSize index
    let sizes ← writeSize c.lanePreScheduleSize index ((size + count) % 2 ^ 32)
    pure { c with
      lanePreSchedule := c.lanePreSchedule.modify index (· ++ [ch])
      lanePreScheduleSize := sizes }
  else .error .outOfRange

/-- `stack_sche_chain` is filled by level the first time only. -/
def fillStack (c : Core σ) : Core σ :=
  { c with stackScheChain :=
      if c.stackScheChain.isEmpty then
        (buildChainLevel c.graph.chainGraph).toList.flatMap (·.2)
      else c.stackScheChain }

/-- The scheduling loop of `preschedule`. -/
def prescheduleChain (c : Core σ) (schCh : Nat) : Result (Core σ) := do
  let ch ← c.findScheduled schCh
  let laneIndex ← findMinimum c.lanePreScheduleSize c.numLanes
  c.pushPreSchedule laneIndex schCh ch.instructionList.length

/-- `preschedule`, up to its communication counts. -/
def preschedule (c : Core σ) : Result (Core σ) := do
  check (0 < c.graph.chainGraph.length)
    "\nERROR: Before scheduling you should load the graph"
  c.fillStack.stackScheChain.foldlM prescheduleChain c.fillStack

/-- One chain of a block in `block_preschedule`. -/
def blockPrescheduleChain (c : Core σ) (e : Nat × Nat) : Result (Core σ) := do
  let chIt ← c.findScheduled e.2
  c.pushPreSchedule (e.1 % c.lanes.length) e.2 chIt.instructionList.length

/-- `block_preschedule`, up to its communication counts: block `i` goes to lane
`i` modulo the number of lanes. -/
def blockPreschedule (c : Core σ) : Result (Core σ) := do
  check (0 < c.graph.chainGraph.length)
    "\nERROR: Before scheduling you should load the graph"
  (c.graph.blockChain.zipIdx.flatMap fun (bl, i) => bl.chains.map fun ch => (i, ch)).foldlM
    blockPrescheduleChain c

/-- `Core::initialize`. -/
def initializeCore (c : Core σ) : Result (Core σ) := do
  let c ← c.initializeDepenTable
  if c.param.scheduler ≠ 0 then c.blockPreschedule else c.preschedule

/-- What `main` does with the core at a chunk line before the cycle loop. -/
def beginIteration (c : Core σ) (n : Nat) : Result (Core σ) := do
  let c ← c.buildChains
  (c.coreSetIter n).initializeCore

/-- The lane loop of `run_one_cycle_core`. -/
def runLanes : List Lane → LaneQueues → List Lane × LaneQueues
  | [], q => ([], q)
  | l :: rest, q =>
    let (l, q) := l.run q
    let (rest, q) := runLanes rest q
    (l :: rest, q)

/-- `run_one_cycle_core`. -/
def runOneCycleCore (c : Core σ) : Core σ :=
  let (lanes, queues) := runLanes c.lanes c.queues
  { c with lanes, queues, ruby := c.ruby.advanceTime }

/-- Send the request of a lane and remember it in `mem_req_map`. -/
def sendRequest (iter : Nat) (state : TreeMap Nat Nat × Memory) (request : Nat × Nat) :
    Result (TreeMap Nat Nat × Memory) := do
  let memory ← state.2.sendReq iter request.2
  pure (state.1.insert request.1 request.2, memory)

/-- `send_memory_req`. -/
def sendMemoryReq (c : Core σ) : Result (Core σ) := do
  let (memReqMap, memory) ← c.queues.memReqQueue.foldlM (sendRequest c.numIter)
    (c.memReqMap, c.memory)
  pure { c with memReqMap, memory, queues := { c.queues with memReqQueue := [] } }

/-- The lookup of `update_mem_exe`: the first lane whose last request was `n`. -/
def findWaiting (memReqMap : TreeMap Nat Nat) (n : Nat) : Option (Nat × Nat) :=
  memReqMap.toList.find? (fun e => e.2 == n)

/-- Wake the lane that the lookup finds for a response. -/
def wakeLane (memReqMap : TreeMap Nat Nat) (lanes : List Lane) (n : Nat) : Result (List Lane) := do
  let found ← deref (findWaiting memReqMap n)
  if found.1 < lanes.length then pure (lanes.modify found.1 (·.setExeCounter 0))
  else .error .outOfRange

/-- `update_mem_exe`. -/
def updateMemExe (c : Core σ) : Result (Core σ) := do
  let (memory, ruby, nodes) ← c.memory.recvResp c.ruby
  let lanes ← nodes.foldlM (wakeLane c.memReqMap) c.lanes
  pure { c with memory, ruby, lanes }

/-- One completion in `updateChains`; `un_dependencies[temp_c]` makes an entry. -/
def releaseChain (c : Core σ) (tempC : Nat) : Result (Core σ) := do
  let table ← (c.unDependencies[tempC]?.getD ∅).toList.foldlM
    (fun table chFree => writeTable table chFree tempC 0) c.depenTable
  pure { c with depenTable := table, unDependencies := c.unDependencies.insertIfNew tempC ∅ }

/-- `updateChains`. -/
def updateChains (c : Core σ) : Result (Core σ) := do
  let done ← c.queues.finishedChains.foldlM releaseChain c
  pure { done with queues := { done.queues with finishedChains := [] } }

/-- `temp_status`: the number of unfinished chains that chain `schCh` waits for. -/
def rowStatus (c : Core σ) (schCh : Nat) : Result Nat :=
  (List.range c.numChains).foldlM
    (fun status j => do
      let entry ← readTable c.depenTable schCh j
      pure (status + entry)) 0

/-- The first chain of a lane's buffer that waits for nothing. -/
def findFree (c : Core σ) (scheBuff : List Nat) : Result (Option Nat) :=
  scheBuff.findSomeM? fun schCh => do
    let status ← c.rowStatus schCh
    pure (if status = 0 then some schCh else none)

/-- "Steps to load a chain" of `ooo_scheduler`. -/
def loadChain (c : Core σ) (i : Nat) (scheBuff : List Nat) (freeId : Nat) : Result (Core σ) := do
  check (freeId ∈ scheBuff) "ERROR: Couldn't find chain in preschedule lanes"
  let ch ← deref (c.findInput freeId)
  let size ← readSize c.lanePreScheduleSize i
  let sizes ← writeSize c.lanePreScheduleSize i
    ((size + 2 ^ 32 - ch.instructionList.length % 2 ^ 32) % 2 ^ 32)
  pure { c with
    lanePreSchedule := c.lanePreSchedule.set i (scheBuff.erase freeId)
    lanePreScheduleSize := sizes
    lanes := c.lanes.modify i (·.loadInstructionQueue ch.instructionList freeId)
    chaintoLane := c.chaintoLane.insert ch.id i
    inputChain := c.inputChain.eraseP (fun item => item.id == freeId) }

/-- The body of `ooo_scheduler` for lane `i`. -/
def scheduleLane (c : Core σ) (i : Nat) : Result (Core σ) := do
  match c.lanes[i]?, c.lanePreSchedule[i]? with
  | some lane, some scheBuff =>
    if !lane.isFree then pure c
    else if scheBuff.isEmpty then pure { c with coreFree := (c.coreFree + 1) % 2 ^ 32 }
    else do
      let free ← c.findFree scheBuff
      let c := { c with
        coreIdle := (c.coreIdle + 1) % 2 ^ 32
        lanes := c.lanes.modify i fun l => { l with stall := (l.stall + 1) % 2 ^ 32 } }
      match free with
      | none => pure c
      | some freeId => c.loadChain i scheBuff freeId
  | _, _ => .error .outOfRange

/-- `ooo_scheduler`, without the lane status file. -/
def oooScheduler (c : Core σ) : Result (Core σ) :=
  (List.range c.lanes.length).foldlM scheduleLane c

/-- `is_finish`. -/
def isFinish (c : Core σ) : Bool := c.inputChain.isEmpty && c.lanes.all (·.isFree)

/-- `run_a_cycle`. -/
def runACycle (c : Core σ) : Result (Core σ × Bool) := do
  let c := c.runOneCycleCore
  let c ← c.sendMemoryReq
  let c ← c.updateMemExe
  let c ← c.updateChains
  let c ← c.oooScheduler
  pure (c, c.isFinish)

end Core

end ChainSaw
