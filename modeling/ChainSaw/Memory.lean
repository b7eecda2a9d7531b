import ChainSaw.Basic

set_option autoImplicit false

namespace ChainSaw

/-- `MemValue`. -/
structure MemValue where
  isWrite : Bool
  addr : Nat
deriving DecidableEq, Repr

/-- `MemValue_t`. -/
structure MemRequest where
  isWrite : Bool
  nodeid : Nat
  vaddr : Nat
  isIssue : Bool
deriving DecidableEq, Repr

/-- What `operator==` of `MemValue_t` compares. -/
def MemRequest.key (r : MemRequest) : Bool × Nat × Nat := (r.isWrite, r.nodeid, r.vaddr)

/-- The memory system behind `O3sim_ruby`, with states of type `σ`. The lists
are the addresses for which `hitCallback` runs during the call. -/
structure RubySystem (σ : Type) where
  isReady : σ → Nat → Bool
  sendRequest : σ → Nat → Bool → σ × List Nat
  advanceTime : σ → σ × List Nat

/-- `O3sim_ruby` for the one core: its memory system and `m_callback_queue[0]`. -/
structure Ruby (σ : Type) where
  system : RubySystem σ
  state : σ
  queue : List Nat

namespace Ruby

variable {σ : Type}

/-- `isReady`; both callers pass `is_write = false`. -/
def isReady (r : Ruby σ) (addr : Nat) : Bool := r.system.isReady r.state addr

/-- `send_request`; a hit in the first-level cache calls back at once. -/
def sendRequest (r : Ruby σ) (addr : Nat) (isWrite : Bool) : Ruby σ :=
  let (state, hits) := r.system.sendRequest r.state addr isWrite
  { r with state, queue := r.queue ++ hits }

/-- `advance_time`. -/
def advanceTime (r : Ruby σ) : Ruby σ :=
  let (state, hits) := r.system.advanceTime r.state
  { r with state, queue := r.queue ++ hits }

end Ruby

/-- `MEM_MSHR_SIZE`. -/
def memMshrSize : Int := 10

/-- `Memory`. The `unordered_map` of the trace is only looked up. -/
structure Memory where
  memaddrMap : Nat → Nat → Option MemValue
  ldstAddrBuffer : List MemRequest
  memReqStack : Int

namespace Memory

variable {σ : Type}

/-- `Memory::initialize` after the trace has been read. -/
def new (memaddrMap : Nat → Nat → Option MemValue) : Memory where
  memaddrMap := memaddrMap
  ldstAddrBuffer := []
  memReqStack := memMshrSize

/-- `addr & ~63` on 64-bit addresses. -/
def baseAddr (addr : Nat) : Nat := addr &&& (2 ^ 64 - 64)

def lineSize : Nat := 64

/-- `send_req`. -/
def sendReq (m : Memory) (iter nodeid : Nat) : Result Memory :=
  match m.memaddrMap iter nodeid with
  | some value =>
    .ok { m with
      ldstAddrBuffer := m.ldstAddrBuffer ++ [⟨value.isWrite, nodeid, value.addr, false⟩] }
  | none => .error (.assertion "Chainsaw: sent request not in memaddr_map \n")

/-- The loop of `access` over the buffer: mark the first request that is ready
and not issued, and return it. -/
def issueFirst (r : Ruby σ) : List MemRequest → Option (MemRequest × List MemRequest)
  | [] => none
  | req :: rest =>
    if r.isReady (baseAddr req.vaddr) ∧ req.isIssue = false then
      some (req, { req with isIssue := true } :: rest)
    else (issueFirst r rest).map fun (issued, rest) => (issued, req :: rest)

/-- `access`. -/
def access (m : Memory) (r : Ruby σ) : Memory × Ruby σ :=
  if m.memReqStack ≠ 0 then
    match issueFirst r m.ldstAddrBuffer with
    | some (req, buffer) =>
      ({ m with ldstAddrBuffer := buffer, memReqStack := m.memReqStack - 1 },
        r.sendRequest (baseAddr req.vaddr) req.isWrite)
    | none => (m, r)
  else (m, r)

/-- `search_req`; the bound `addr + size` is a 64-bit sum. -/
def searchReq (m : Memory) (addr size : Nat) : Option MemRequest :=
  m.ldstAddrBuffer.find? fun req =>
    decide (addr ≤ req.vaddr) && decide (req.vaddr < (addr + size) % 2 ^ 64)

/-- One turn of the loop of `process_mshr`: the response at the top of the
queue, and the node it answers. `list::remove` erases every equal request. -/
def processResponse (m : Memory) (addr : Nat) : Result (Memory × Nat) :=
  match m.searchReq addr lineSize with
  | some req =>
    .ok ({ m with
      memReqStack := m.memReqStack + 1
      ldstAddrBuffer := m.ldstAddrBuffer.filter fun other => other.key != req.key }, req.nodeid)
  | none => .error (.assertion "Addr returned from Ruby not found in ldst_addr_buffer")

/-- `process_mshr` on the addresses in Ruby's queue. -/
def processMshr (m : Memory) : List Nat → Result (Memory × List Nat)
  | [] => .ok (m, [])
  | addr :: rest => do
    let (m, n) ← m.processResponse addr
    let (m, ns) ← m.processMshr rest
    pure (m, n :: ns)

/-- `recv_resp`: issue at most one request, then answer every response. -/
def recvResp (m : Memory) (r : Ruby σ) : Result (Memory × Ruby σ × List Nat) := do
  let (m, r) := m.access r
  let (m, nodes) ← m.processMshr r.queue
  pure (m, { r with queue := [] }, nodes)

end Memory

end ChainSaw
