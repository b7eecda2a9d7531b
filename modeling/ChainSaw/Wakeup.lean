import ChainSaw.LaneRuns
import ChainSaw.Completeness

set_option autoImplicit false

namespace ChainSaw

open Std (TreeMap)

variable {σ : Type}

/-- The configuration sends memory instructions to Ruby. The labels of the nodes
are distinct and the other latencies are non-negative `int32_t`. -/
structure Config.RubyMode (cfg : Config) : Prop where
  mode : cfg.coreParam.memoryMode = 3
  labels : (cfg.graph.origGraph.vertices.map (·.label.id)).Nodup
  latency : ∀ op latency, op.isMem = false → cfg.instructionLlvm op = some latency →
    latency < 2 ^ 31

/-- The plan gives the chain of the node with id `n` to lane `i`. -/
def Owns (cfg : Config) (i n : Nat) : Prop :=
  ∃ plan cId ins, cfg.plan = .ok plan ∧ InChain plan.buffers i cId ∧ cId < cfg.numChains ∧
    ins ∈ cfg.instructions cId ∧ ins.oldId = n

theorem Placed.owns {cfg : Config} {i : Nat} {l : Lane} (placed : Placed cfg i l) {ins : Node}
    (member : ins ∈ l.contents) : Owns cfg i ins.oldId := by
  obtain ⟨plan, planned, onLane, known, inside⟩ := placed.owned ins member
  exact ⟨plan, ins.cId, ins, planned, onLane, known, inside, rfl⟩

theorem Config.oldId_eq {cfg : Config} {cId v : Nat} (inside : v ∈ cfg.vertices cId) :
    ∃ bound : v < cfg.graph.origGraph.vertices.length,
      (cfg.node cId v).oldId = (cfg.graph.origGraph.vertices[v]).label.id := by
  have bound : v < cfg.graph.origGraph.vertices.length := cfg.accepted.part.lt inside
  refine ⟨bound, ?_⟩
  have label := cfg.accepted.labels v _ (List.getElem?_eq_getElem bound)
  simp [Config.node, label]

/-- A node runs on the same lane in every iteration. -/
theorem Owns.unique {cfg : Config} (mode : cfg.RubyMode) {i j n : Nat} (first : Owns cfg i n)
    (second : Owns cfg j n) : i = j := by
  obtain ⟨plan, s, a, planned, onI, _, inS, rfl⟩ := first
  obtain ⟨plan', t, b, planned', onJ, _, inT, same⟩ := second
  rw [planned] at planned'
  cases planned'
  obtain ⟨u, inU, rfl⟩ := List.mem_map.mp inS
  obtain ⟨v, inV, rfl⟩ := List.mem_map.mp inT
  obtain ⟨boundU, oldU⟩ := Config.oldId_eq inU
  obtain ⟨boundV, oldV⟩ := Config.oldId_eq inV
  rw [oldU, oldV] at same
  have vertex : v = u := by
    have distinct := List.pairwise_iff_getElem.mp mode.labels
    simp only [List.length_map, List.getElem_map] at distinct
    rcases Nat.lt_trichotomy v u with less | equal | more
    · exact absurd same (distinct v u boundV boundU less)
    · exact equal
    · exact absurd same.symm (distinct u v boundU boundV more)
  subst vertex
  have chain : s = t := cfg.accepted.part.unique (i := s) (j := t) inU inV
  subst chain
  exact (plan_partition planned).unique onI onJ

/-- The node that the lane's execute stage waits for. -/
def Lane.waitingOn (l : Lane) : Option Nat :=
  if l.exeCnt = -1 then l.exeStack.head?.map (·.oldId) else none

theorem Lane.waitingOn_eq_some {l : Lane} {n : Nat} :
    l.waitingOn = some n ↔ l.exeCnt = -1 ∧ l.exeStack.head?.map (·.oldId) = some n := by
  unfold Lane.waitingOn
  split
  · rename_i stalled
    simp [stalled]
  · rename_i running
    simp [running]

def waitingOn (lanes : List Lane) : List Nat := lanes.filterMap Lane.waitingOn

theorem Placed.owns_waiting {cfg : Config} {i : Nat} {l : Lane} (placed : Placed cfg i l) {n : Nat}
    (waiting : l.waitingOn = some n) : Owns cfg i n := by
  obtain ⟨_, head⟩ := Lane.waitingOn_eq_some.mp waiting
  obtain ⟨ins, front, rfl⟩ := Option.map_eq_some_iff.mp head
  exact placed.owns (by simp [Lane.contents, List.mem_of_mem_head? front])

theorem mem_waitingOn {lanes : List Lane} {n : Nat} :
    n ∈ waitingOn lanes ↔ ∃ (i : Nat) (l : Lane), lanes[i]? = some l ∧ l.waitingOn = some n := by
  unfold waitingOn
  rw [List.mem_filterMap]
  constructor
  · rintro ⟨l, member, waiting⟩
    obtain ⟨i, at_i⟩ := List.mem_iff_getElem?.mp member
    exact ⟨i, l, at_i, waiting⟩
  · rintro ⟨i, l, at_i, waiting⟩
    exact ⟨l, List.mem_of_getElem? at_i, waiting⟩

/-- Two lanes never wait for the same node. -/
theorem waitingOn_nodup {cfg : Config} (mode : cfg.RubyMode) {lanes : List Lane}
    (placed : Lanes (Placed cfg) lanes) : (waitingOn lanes).Nodup := by
  unfold waitingOn List.Nodup
  rw [List.pairwise_filterMap, List.pairwise_iff_getElem]
  intro i j boundI boundJ less n first m second same
  subst same
  have ownsI := (placed i _ (List.getElem?_eq_getElem boundI)).owns_waiting first
  have ownsJ := (placed j _ (List.getElem?_eq_getElem boundJ)).owns_waiting second
  have := ownsI.unique mode ownsJ
  omega

/-- Setting the counter to zero ends the wait of one lane. -/
theorem waitingOn_wake {lanes : List Lane} {i : Nat} {l : Lane} {n : Nat}
    (found : lanes[i]? = some l) (waiting : l.waitingOn = some n) :
    (waitingOn lanes).Perm (n :: waitingOn (lanes.modify i (·.setExeCounter 0))) := by
  induction lanes generalizing i with
  | nil => simp at found
  | cons head rest ih =>
    unfold waitingOn at ih ⊢
    cases i with
    | zero =>
      have same : head = l := by simpa using found
      subst same
      have awake : (head.setExeCounter 0).waitingOn = none := by
        simp [Lane.waitingOn, Lane.setExeCounter]
      rw [List.modify_zero_cons, List.filterMap_cons_some waiting, List.filterMap_cons_none awake]
    | succ i =>
      have tail := ih (i := i) (by simpa using found)
      rw [List.modify_succ_cons, List.filterMap_cons, List.filterMap_cons]
      cases head.waitingOn with
      | none => exact tail
      | some m => exact (tail.cons m).trans (List.Perm.swap _ _ _)

/-- A cycle makes a lane wait exactly for the request it posts. -/
theorem cycled_waitingOn {cfg : Config} (mode : cfg.RubyMode) {i : Nat} {l : Lane}
    (placed : Placed cfg i l) :
    (Core.cycled l).waitingOn.toList = l.waitingOn.toList ++ l.requesting.map (·.2) := by
  have kind := placed.kind
  simp only [Lane.kind, Prod.mk.injEq] at kind
  have idle (done : l.updateCounter.exeCnt = 0) : l.waitingOn = none := by
    have := Lane.updateCounter_exeCnt_eq_zero.mp done
    unfold Lane.waitingOn
    rw [if_neg (by omega)]
  unfold Core.cycled
  rcases Lane.run_cases l ⟨[], []⟩ with ⟨ins, rest, completes, ran⟩ | ⟨ins, rest, starts, ran⟩ |
    ⟨waits, op, ran⟩
  · rw [ran, idle completes.2, Lane.requesting_eq_nil (.inr (by simp [completes.1]))]
    simp [Lane.waitingOn, completes.2]
  · rw [ran, idle starts.2.1, Lane.requesting_of_starts starts]
    have memoryMode : l.updateCounter.memoryMode = 3 := kind.2.1.trans mode.mode
    cases isMem : ins.type.isMem with
    | true =>
      have delay : l.updateCounter.startDelay ins = -1 := by
        simp [Lane.startDelay, isMem, memoryMode]
      have request : l.startRequest ins = [(l.laneID, ins.oldId)] := by
        simp [Lane.startRequest, isMem, kind.2.1, mode.mode]
      simp [Lane.waitingOn, Lane.start, delay, request]
    | false =>
      obtain ⟨_, _, _, _, built⟩ :=
        placed.owned ins (by simp [Lane.contents, starts.2.2.1])
      obtain ⟨v, _, same⟩ := List.mem_map.mp built
      have small : ins.latency < 2 ^ 31 := by
        rw [← same] at isMem ⊢
        exact cfg.node_latency_lt fun latency => mode.latency _ latency isMem
      have delay : l.updateCounter.startDelay ins = ins.latency := by
        rw [← toInt32_of_lt small]
        simp [Lane.startDelay, isMem]
      have request : l.startRequest ins = [] := by simp [Lane.startRequest, isMem]
      have positive : (ins.latency : Int) ≠ -1 := by omega
      simp [Lane.waitingOn, Lane.start, delay, request, positive]
  · rw [ran, Lane.requesting_eq_nil (.inl waits)]
    have counter : l.updateCounter.exeCnt = -1 ↔ l.exeCnt = -1 := by
      simp only [Lane.updateCounter]
      split <;> omega
    have stack : l.updateCounter.exeStack = l.exeStack := rfl
    simp only [Lane.waitingOn, Lane.fetch_exeCnt, Lane.fetch_exeStack, counter, stack,
      List.map_nil, List.append_nil]

/-- The trace has an address for every memory node in iteration `n`. -/
def Config.Traced (cfg : Config) (n : Nat) : Prop :=
  ∀ cId < cfg.numChains, ∀ ins ∈ cfg.instructions cId, ins.type.isMem = true →
    ∃ value, cfg.memaddrMap n ins.oldId = some value ∧ value.addr < 2 ^ 63

/-- The lanes that wait, the requests in the buffer and those still in the queue
are in step, and `mem_req_map` leads from a request to its lane. -/
structure Agrees (cfg : Config) (outstanding : Multiset Nat) (c : Core σ) : Prop where
  trace : c.memory.memaddrMap = cfg.memaddrMap
  consistent : c.memory.Consistent outstanding
  placed : Lanes (Placed cfg) c.lanes
  waiting : (waitingOn c.lanes).Perm
    (c.memory.ldstAddrBuffer.map (·.nodeid) ++ c.queues.memReqQueue.map (·.2))
  recorded : ∀ i l n, c.lanes[i]? = some l → l.waitingOn = some n →
    c.memReqMap[i]? = some n ∨ (i, n) ∈ c.queues.memReqQueue
  posted : ∀ e ∈ c.queues.memReqQueue, ∃ l : Lane, c.lanes[e.1]? = some l ∧ l.waitingOn = some e.2
  owned : ∀ i n : Nat, c.memReqMap[i]? = some n → Owns cfg i n

theorem waitingOn_cycled {cfg : Config} (mode : cfg.RubyMode) {lanes : List Lane}
    (placed : Lanes (Placed cfg) lanes) : (waitingOn (lanes.map Core.cycled)).Perm
      (waitingOn lanes ++ (lanes.flatMap Lane.requesting).map (·.2)) := by
  have each : ∀ l ∈ lanes, (Core.cycled l).waitingOn.toList =
      l.waitingOn.toList ++ l.requesting.map (·.2) := by
    intro l member
    obtain ⟨i, at_i⟩ := List.mem_iff_getElem?.mp member
    exact cycled_waitingOn mode (placed i l at_i)
  unfold waitingOn
  rw [List.filterMap_eq_flatMap_toList, List.filterMap_eq_flatMap_toList, List.flatMap_map,
    List.flatMap_congr each, List.map_flatMap]
  exact (List.flatMap_append_perm lanes _ _).symm

/-- A lane posts its own number and a node that the trace knows. -/
theorem Placed.mem_requesting {cfg : Config} {i : Nat} {l : Lane} (placed : Placed cfg i l)
    {e : Nat × Nat} (member : e ∈ l.requesting) :
    e.1 = i ∧ ∀ n, cfg.Traced n → ∃ value, cfg.memaddrMap n e.2 = some value ∧ value.addr < 2 ^ 63 := by
  have id : l.laneID = i := congrArg (·.1) placed.kind
  unfold Lane.requesting at member
  split at member
  · rename_i ins rest empty fetched
    split at member
    · unfold Lane.startRequest at member
      split at member
      · rename_i isMem
        rw [List.mem_singleton.mp member]
        refine ⟨id, fun n traced => ?_⟩
        obtain ⟨_, _, _, known, built⟩ := placed.owned ins (by simp [Lane.contents, fetched])
        exact traced _ known ins built isMem.1
      · cases member
    · cases member
  · cases member

theorem Agrees.runOneCycleCore {cfg : Config} (mode : cfg.RubyMode) {outstanding : Multiset Nat}
    {c : Core σ} (valid : ∀ l ∈ c.lanes, l.Valid) (sent : c.queues.memReqQueue = [])
    (agrees : Agrees cfg outstanding c) : Agrees cfg outstanding c.runOneCycleCore := by
  have queue : c.runOneCycleCore.queues.memReqQueue = c.lanes.flatMap Lane.requesting := by
    unfold Core.runOneCycleCore
    rw [Core.runLanes_eq, sent]
    rfl
  have waiting := agrees.waiting
  rw [sent, List.map_nil, List.append_nil] at waiting
  have placed := (placed_invariant cfg).cycled valid agrees.placed
  refine ⟨agrees.trace, agrees.consistent, ?_, ?_, ?_, ?_, agrees.owned⟩
  · rw [runOneCycleCore_lanes]
    exact placed
  · rw [runOneCycleCore_lanes, queue]
    exact (waitingOn_cycled mode agrees.placed).trans (waiting.append_right _)
  · intro i l n found isWaiting
    rw [runOneCycleCore_lanes, List.getElem?_map] at found
    obtain ⟨before, at_i, rfl⟩ := Option.map_eq_some_iff.mp found
    have split := cycled_waitingOn mode (agrees.placed i before at_i)
    rw [isWaiting, Option.toList_some] at split
    have member : n ∈ before.waitingOn.toList ++ before.requesting.map (·.2) := by
      rw [← split]
      simp
    rcases List.mem_append.mp member with earlier | posted
    · have recorded := agrees.recorded i before n at_i (Option.mem_toList.mp earlier)
      rw [sent] at recorded
      exact .inl (recorded.resolve_right (by simp))
    · obtain ⟨e, inside, rfl⟩ := List.mem_map.mp posted
      rw [queue]
      refine .inr (List.mem_flatMap.mpr ⟨before, List.mem_of_getElem? at_i, ?_⟩)
      rw [← ((agrees.placed i before at_i).mem_requesting inside).1]
      exact inside
  · intro e member
    rw [queue] at member
    obtain ⟨before, inside, posted⟩ := List.mem_flatMap.mp member
    obtain ⟨i, at_i⟩ := List.mem_iff_getElem?.mp inside
    have here := (agrees.placed i before at_i).mem_requesting posted
    refine ⟨Core.cycled before, ?_, ?_⟩
    · rw [runOneCycleCore_lanes, List.getElem?_map, here.1, at_i]
      rfl
    · have split := cycled_waitingOn mode (agrees.placed i before at_i)
      have member : e.2 ∈ (Core.cycled before).waitingOn.toList := by
        rw [split]
        exact List.mem_append_right _ (List.mem_map_of_mem posted)
      exact Option.mem_toList.mp member

/-- A request that is in the trace, and not yet in the buffer, is put at its end. -/
theorem sendReq_total {numIter n : Nat} {outstanding : Multiset Nat} {m : Memory}
    (consistent : m.Consistent outstanding)
    (distinct : (m.ldstAddrBuffer.map (·.nodeid) ++ [n]).Nodup)
    (traced : ∃ value, m.memaddrMap numIter n = some value ∧ value.addr < 2 ^ 63) :
    ∃ next, m.sendReq numIter n = .ok next ∧ next.Consistent outstanding ∧
      next.memaddrMap = m.memaddrMap ∧
      next.ldstAddrBuffer.map (·.nodeid) = m.ldstAddrBuffer.map (·.nodeid) ++ [n] := by
  obtain ⟨value, found, small⟩ := traced
  let next : Memory := { m with
    ldstAddrBuffer := m.ldstAddrBuffer ++ [⟨value.isWrite, n, value.addr, false⟩] }
  have sent : m.sendReq numIter n = .ok next := by
    unfold Memory.sendReq
    rw [found]
  have ids : next.ldstAddrBuffer.map (·.nodeid) = m.ldstAddrBuffer.map (·.nodeid) ++ [n] := by
    simp [next]
  have keys : (next.ldstAddrBuffer.map MemRequest.key).Nodup := by
    apply List.Nodup.of_map (fun key => key.2.1)
    rw [List.map_map]
    exact ids ▸ distinct
  have addresses : ∀ req ∈ next.ldstAddrBuffer, req.vaddr < 2 ^ 63 := by
    intro req member
    rcases List.mem_append.mp member with old | new
    · exact consistent.small req old
    · rw [List.mem_singleton.mp new]
      exact small
  exact ⟨next, sent, consistent.sendReq sent keys addresses, rfl, ids⟩

/-- The loop of `send_memory_req`: every request is in the trace, so it ends with
all of them in the buffer and the last request of each lane in the map. -/
theorem sendLoop_total {numIter : Nat} {outstanding : Multiset Nat} (queue : List (Nat × Nat)) :
    ∀ (map : TreeMap Nat Nat) (m : Memory), m.Consistent outstanding →
      (m.ldstAddrBuffer.map (·.nodeid) ++ queue.map (·.2)).Nodup →
      (∀ e ∈ queue, ∃ value, m.memaddrMap numIter e.2 = some value ∧ value.addr < 2 ^ 63) →
      ∃ map' m', queue.foldlM (Core.sendRequest numIter) (map, m) = .ok (map', m') ∧
        m'.Consistent outstanding ∧ m'.memaddrMap = m.memaddrMap ∧
        m'.ldstAddrBuffer.map (·.nodeid) = m.ldstAddrBuffer.map (·.nodeid) ++ queue.map (·.2) ∧
        (∀ i n : Nat, (map[i]? = some n ∨ (i, n) ∈ queue) → (∀ k, (i, k) ∈ queue → k = n) →
          map'[i]? = some n) ∧
        ∀ i n : Nat, map'[i]? = some n → map[i]? = some n ∨ (i, n) ∈ queue := by
  induction queue with
  | nil =>
    intro map m consistent _ _
    exact ⟨map, m, rfl, consistent, rfl, by simp, by simp, by simp⟩
  | cons e rest ih =>
    intro map m consistent distinct traced
    obtain ⟨l, n⟩ := e
    rw [List.map_cons, List.append_cons] at distinct
    obtain ⟨next, sent, sentConsistent, sameTrace, ids⟩ :=
      sendReq_total consistent distinct.of_append_left (traced (l, n) (by simp))
    obtain ⟨map', m', looped, consistent', trace, buffer, recorded, known⟩ :=
      ih (map.insert l n) next sentConsistent (ids ▸ distinct)
        (fun e member => sameTrace ▸ traced e (by simp [member]))
    refine ⟨map', m', ?_, consistent', trace.trans sameTrace, ?_, ?_, ?_⟩
    · refine Loops.foldlM_cons_ok.mpr ⟨(map.insert l n, next), ?_, looped⟩
      unfold Core.sendRequest
      rw [sent]
      rfl
    · rw [buffer, ids]
      simp
    · intro i k before last
      refine recorded i k ?_ fun k' member => last k' (by simp [member])
      by_cases same : l = i
      · subst same
        have equal : n = k := last n (by simp)
        exact .inl (by simp [equal])
      · rw [TreeMap.getElem?_insert]
        simpa [same, Ne.symm same] using before
    · intro i k found'
      rcases known i k found' with inserted | later
      · rw [TreeMap.getElem?_insert] at inserted
        by_cases same : l = i
        · subst same
          have equal : n = k := by simpa using inserted
          simp [equal]
        · exact .inl (by simpa [same] using inserted)
      · exact .inr (by simp [later])

theorem Agrees.sendMemoryReq {cfg : Config} (mode : cfg.RubyMode) {outstanding : Multiset Nat}
    {c : Core σ} (agrees : Agrees cfg outstanding c)
    (traced : ∀ e ∈ c.queues.memReqQueue,
      ∃ value, cfg.memaddrMap c.numIter e.2 = some value ∧ value.addr < 2 ^ 63) :
    ∃ sent, c.sendMemoryReq = .ok sent ∧ Agrees cfg outstanding sent ∧
      sent.queues.memReqQueue = [] ∧ sent.ruby = c.ruby ∧ sent.numIter = c.numIter := by
  have distinct := agrees.waiting.nodup_iff.mp (waitingOn_nodup mode agrees.placed)
  obtain ⟨memReqMap, memory, looped, consistent, trace, buffer, recorded, known⟩ :=
    sendLoop_total c.queues.memReqQueue c.memReqMap c.memory agrees.consistent distinct
      (by rw [agrees.trace]; exact traced)
  refine ⟨{ c with memReqMap, memory, queues := { c.queues with memReqQueue := [] } }, ?_, ?_, rfl,
    rfl, rfl⟩
  · unfold Core.sendMemoryReq
    rw [looped]
    rfl
  · refine ⟨trace.trans agrees.trace, consistent, agrees.placed, ?_, ?_, by simp, ?_⟩
    · simp only [buffer, List.map_nil, List.append_nil]
      exact agrees.waiting
    · intro i l n at_i waiting
      refine .inl (recorded i n (agrees.recorded i l n at_i waiting) fun k member => ?_)
      obtain ⟨l', at_i', waiting'⟩ := agrees.posted (i, k) member
      rw [at_i] at at_i'
      cases at_i'
      rw [waiting] at waiting'
      exact (Option.some.inj waiting').symm
    · intro i n found
      rcases known i n found with old | posted
      · exact agrees.owned i n old
      · obtain ⟨l, at_i, waiting⟩ := agrees.posted (i, n) posted
        exact (agrees.placed i l at_i).owns_waiting waiting

/-- `mem_req_map` is searched by node; the entries of other lanes are never found. -/
theorem findWaiting_eq {cfg : Config} (mode : cfg.RubyMode) {memReqMap : TreeMap Nat Nat}
    (owned : ∀ i n : Nat, memReqMap[i]? = some n → Owns cfg i n) {i n : Nat}
    (recorded : memReqMap[i]? = some n) : Core.findWaiting memReqMap n = some (i, n) := by
  have listed := TreeMap.mem_toList_iff_getElem?_eq_some.mpr recorded
  cases found : Core.findWaiting memReqMap n with
  | none =>
    have absent := List.find?_eq_none.mp found (i, n) listed
    simp at absent
  | some e =>
    obtain ⟨j, m⟩ := e
    have same : m = n := by simpa using List.find?_some found
    subst same
    have stored := TreeMap.mem_toList_iff_getElem?_eq_some.mp (List.mem_of_find?_eq_some found)
    rw [(owned j m stored).unique mode (owned i m recorded)]

/-- The map holds for every waiting lane the node it waits for. -/
def Recorded (memReqMap : TreeMap Nat Nat) : List Lane → Prop :=
  Lanes fun i l => ∀ n, l.waitingOn = some n → memReqMap[i]? = some n

/-- The loop of `update_mem_exe` wakes the lanes that wait for the answered nodes. -/
theorem wakeLoop_total {cfg : Config} (mode : cfg.RubyMode) {memReqMap : TreeMap Nat Nat}
    (owned : ∀ i n : Nat, memReqMap[i]? = some n → Owns cfg i n) (rest nodes : List Nat) :
    ∀ lanes : List Lane, Lanes (Placed cfg) lanes → Recorded memReqMap lanes →
      (waitingOn lanes).Perm (nodes ++ rest) →
      ∃ lanes', nodes.foldlM (Core.wakeLane memReqMap) lanes = .ok lanes' ∧
        Lanes (Placed cfg) lanes' ∧ Recorded memReqMap lanes' ∧
        (waitingOn lanes').Perm rest := by
  induction nodes with
  | nil =>
    intro lanes placed recorded waiting
    exact ⟨lanes, rfl, placed, recorded, waiting⟩
  | cons n nodes ih =>
    intro lanes placed recorded waiting
    have member : n ∈ waitingOn lanes := waiting.mem_iff.mpr (by simp)
    obtain ⟨i, l, at_i, isWaiting⟩ := mem_waitingOn.mp member
    have found := findWaiting_eq mode owned (recorded i l at_i n isWaiting)
    have inside := (List.getElem?_eq_some_iff.mp at_i).1
    have woke : Core.wakeLane memReqMap lanes n = .ok (lanes.modify i (·.setExeCounter 0)) := by
      unfold Core.wakeLane
      rw [found, deref, Loops.ok_bind, if_pos inside]
      rfl
    have placed' : Lanes (Placed cfg) (lanes.modify i (·.setExeCounter 0)) :=
      placed.modify fun l _ => (placed_invariant cfg).wake i l
    have recorded' : Recorded memReqMap (lanes.modify i (·.setExeCounter 0)) := by
      refine Lanes.modify recorded fun l _ _ m woken => ?_
      simp [Lane.waitingOn, Lane.setExeCounter] at woken
    have waiting' := ((waitingOn_wake at_i isWaiting).symm.trans waiting).cons_inv
    obtain ⟨lanes', looped, final⟩ := ih _ placed' recorded' waiting'
    exact ⟨lanes', Loops.foldlM_cons_ok.mpr ⟨_, woke, looped⟩, final⟩

theorem Agrees.updateMemExe {cfg : Config} (mode : cfg.RubyMode) {system : RubySystem σ}
    {lawful : system.Lawful} {c : Core σ} (agrees : Agrees cfg (c.ruby.outstanding lawful) c)
    (same : c.ruby.system = system) (sent : c.queues.memReqQueue = []) :
    ∃ memory ruby nodes woken, c.memory.recvResp c.ruby = .ok (memory, ruby, nodes) ∧
      c.updateMemExe = .ok woken ∧ woken.ruby.system = system ∧
      Agrees cfg (woken.ruby.outstanding lawful) woken ∧ woken.queues.memReqQueue = [] ∧
      woken.numIter = c.numIter ∧
      ∀ n ∈ nodes, ∃ (i : Nat) (l : Lane), Core.findWaiting c.memReqMap n = some (i, n) ∧
        c.lanes[i]? = some l ∧ l.waitingOn = some n := by
  obtain ⟨memory, answered, received, answers, consistent, trace⟩ :=
    agrees.consistent.recvResp lawful same
  have recorded : Recorded c.memReqMap c.lanes := by
    intro i l at_i n waiting
    refine (agrees.recorded i l n at_i waiting).resolve_right ?_
    simp [sent]
  have waiting : (waitingOn c.lanes).Perm
      (answered.map (·.nodeid) ++ memory.ldstAddrBuffer.map (·.nodeid)) := by
    have before := agrees.waiting
    rw [sent, List.map_nil, List.append_nil, ← MshrRun.access_nodeids c.memory c.ruby] at before
    rw [← List.map_append]
    exact before.trans (answers.perm.map _)
  obtain ⟨lanes, looped, placed, recorded', waiting'⟩ :=
    wakeLoop_total mode agrees.owned _ _ c.lanes agrees.placed recorded waiting
  refine ⟨memory, _, _, { c with memory, ruby := { (c.memory.access c.ruby).2 with queue := [] }, lanes },
    received, ?_, ?_, ?_, sent, rfl, ?_⟩
  · unfold Core.updateMemExe
    rw [received, Loops.ok_bind]
    simp only [looped, Loops.ok_bind, Loops.pure_eq_ok]
  · simp [same]
  · refine ⟨trace.trans agrees.trace, ?_, placed, ?_, ?_, ?_, agrees.owned⟩
    · simpa [Ruby.outstanding] using consistent
    · simp only [sent, List.map_nil, List.append_nil]
      exact waiting'
    · exact fun i l n at_i isWaiting => .inl (recorded' i l at_i n isWaiting)
    · simp [sent]
  · intro n member
    obtain ⟨i, l, at_i, isWaiting⟩ :=
      mem_waitingOn.mp (waiting.mem_iff.mpr (List.mem_append_left _ member))
    exact ⟨i, l, findWaiting_eq mode agrees.owned (recorded i l at_i n isWaiting), at_i, isWaiting⟩

/-- The state between two cycles of an iteration. -/
structure Settled (cfg : Config) {system : RubySystem σ} (lawful : system.Lawful) (c : Core σ) :
    Prop where
  system : c.ruby.system = system
  agrees : Agrees cfg (c.ruby.outstanding lawful) c
  sent : c.queues.memReqQueue = []
  traced : cfg.Traced c.numIter

theorem Agrees.sameMemory {cfg : Config} {outstanding : Multiset Nat} {c c' : Core σ}
    (agrees : Agrees cfg outstanding c) (sent : c.queues.memReqQueue = []) (same : SameMemory c c')
    (placed : Lanes (Placed cfg) c'.lanes)
    (waiting : c'.lanes.map Lane.waitingOn = c.lanes.map Lane.waitingOn) :
    Agrees cfg outstanding c' := by
  have lane : ∀ (i : Nat) (l' : Lane), c'.lanes[i]? = some l' →
      ∃ l, c.lanes[i]? = some l ∧ l'.waitingOn = l.waitingOn := by
    intro i l' found
    have at_i : (c.lanes.map Lane.waitingOn)[i]? = some l'.waitingOn := by
      rw [← waiting, List.getElem?_map, found]
      rfl
    rw [List.getElem?_map] at at_i
    obtain ⟨l, at_i, equal⟩ := Option.map_eq_some_iff.mp at_i
    exact ⟨l, at_i, equal.symm⟩
  have all : waitingOn c'.lanes = waitingOn c.lanes := by
    have ids : ∀ lanes : List Lane, waitingOn lanes = (lanes.map Lane.waitingOn).filterMap id := by
      intro lanes
      rw [List.filterMap_map]
      rfl
    rw [ids, waiting, ← ids]
  refine ⟨by rw [same.memory, agrees.trace], by rw [same.memory]; exact agrees.consistent, placed,
    by rw [all, same.memory, same.memReqQueue]; exact agrees.waiting, ?_, ?_,
    by rw [same.memReqMap]; exact agrees.owned⟩
  · intro i l' n found isWaiting
    obtain ⟨l, at_i, equal⟩ := lane i l' found
    rw [same.memReqMap, same.memReqQueue]
    exact agrees.recorded i l n at_i (equal ▸ isWaiting)
  · rw [same.memReqQueue, sent]
    simp

/-- The requests posted by a cycle are in the trace. -/
theorem runOneCycleCore_traced {cfg : Config} {c : Core σ} (placed : Lanes (Placed cfg) c.lanes)
    (sent : c.queues.memReqQueue = []) {n : Nat} (traced : cfg.Traced n) :
    ∀ e ∈ c.runOneCycleCore.queues.memReqQueue,
      ∃ value, cfg.memaddrMap n e.2 = some value ∧ value.addr < 2 ^ 63 := by
  intro e member
  unfold Core.runOneCycleCore at member
  rw [Core.runLanes_eq, sent] at member
  obtain ⟨l, inside, posted⟩ := List.mem_flatMap.mp member
  obtain ⟨i, at_i⟩ := List.mem_iff_getElem?.mp inside
  exact ((placed i l at_i).mem_requesting posted).2 n traced

/-- In the next cycle every node that `recv_resp` returns leads to the lane
that waits for it. -/
def FindsWaiting (c : Core σ) : Prop :=
  ∃ sent memory ruby nodes, c.runOneCycleCore.sendMemoryReq = .ok sent ∧
    sent.memory.recvResp sent.ruby = .ok (memory, ruby, nodes) ∧
    ∀ n ∈ nodes, ∃ (i : Nat) (l : Lane), Core.findWaiting sent.memReqMap n = some (i, n) ∧
      sent.lanes[i]? = some l ∧ l.waitingOn = some n

theorem Settled.runACycle {cfg : Config} (few : cfg.numChains ≤ maxNumChain) (mode : cfg.RubyMode)
    {system : RubySystem σ} {lawful : system.Lawful} {plan : Plan} {begun c : Core σ}
    {done : List Node} (running : Running cfg plan begun c done) (settled : Settled cfg lawful c) :
    FindsWaiting c ∧
      ∃ c' finished, c.runACycle = .ok (c', finished) ∧ Settled cfg lawful c' := by
  have afterRun := settled.agrees.runOneCycleCore mode running.lanes settled.sent
  obtain ⟨sent, sending, afterSend, queue, ruby, iter⟩ := afterRun.sendMemoryReq mode
    (runOneCycleCore_traced settled.agrees.placed settled.sent settled.traced)
  have outstanding : sent.ruby.outstanding lawful = c.ruby.outstanding lawful := by
    rw [ruby]
    exact Ruby.outstanding_advanceTime lawful settled.system
  rw [← outstanding] at afterSend
  have sameSystem : sent.ruby.system = system := by
    rw [ruby]
    exact settled.system
  obtain ⟨_, _, _, woken, received, waking, system', afterWake, queue', iter', found⟩ :=
    afterSend.updateMemExe mode sameSystem queue
  refine ⟨⟨sent, _, _, _, sending, received, found⟩, ?_⟩
  have scheduled := (running.runOneCycleCore.sendMemoryReq sending).updateMemExe waking
  obtain ⟨released, releasing⟩ := scheduled.updateChains_total few
  have scheduled' := (scheduled.updateChains releasing).1
  obtain ⟨c', scheduling⟩ := scheduled'.oooScheduler_total few
  have sameReleased := updateChains_sameMemory releasing
  have sameScheduled := oooScheduler_sameMemory scheduling
  have same := sameReleased.trans sameScheduled
  have lanes : released.lanes = woken.lanes := by
    obtain ⟨_, _, rfl⟩ := updateChains_ok scheduled.un (funext₂ scheduled.table) releasing
    rfl
  have placed : Lanes (Placed cfg) c'.lanes :=
    (placed_invariant cfg).oooScheduler scheduled' scheduling (lanes ▸ afterWake.placed)
  have waiting : c'.lanes.map Lane.waitingOn = woken.lanes.map Lane.waitingOn := by
    rw [← lanes]
    exact oooScheduler_map (fun _ _ => rfl) (fun _ _ _ => rfl) scheduling
  refine ⟨c', c'.isFinish, ?_, ?_⟩
  · unfold Core.runACycle
    simp only [sending, waking, releasing, scheduling, Loops.ok_bind, Loops.pure_eq_ok]
  · refine ⟨by rw [same.ruby, system'], ?_, by rw [same.memReqQueue, queue'], ?_⟩
    · rw [same.ruby]
      exact afterWake.sameMemory queue' same placed waiting
    · rw [same.numIter, iter', iter]
      exact settled.traced

/-- The accelerator starts an iteration on a drained Ruby, with addresses for
all its memory nodes. -/
def Config.Starts (cfg : Config) {system : RubySystem σ} (lawful : system.Lawful) (n : Nat)
    (ruby : Ruby σ) : Prop :=
  Drained lawful n ruby ∧ cfg.Traced n

/-- A cycle that ends the iteration leaves no request behind. -/
theorem Settled.finish {cfg : Config} {system : RubySystem σ} {lawful : system.Lawful} {c : Core σ}
    (settled : Settled cfg lawful c) (finish : c.isFinish = true) :
    c.memory.ldstAddrBuffer = [] ∧ c.ruby.outstanding lawful = 0 := by
  have none : waitingOn c.lanes = [] := by
    refine List.filterMap_eq_nil_iff.mpr fun l member => ?_
    have free := Lane.isFree_iff.mp ((isFinish_iff.mp finish).2 l member)
    simp [Lane.waitingOn, free.2.1]
  have waiting := settled.agrees.waiting
  rw [none, settled.sent, List.map_nil, List.append_nil] at waiting
  have empty : c.memory.ldstAddrBuffer = [] := by simpa using waiting.symm.eq_nil
  refine ⟨empty, ?_⟩
  rw [← settled.agrees.consistent.lines]
  simp [Memory.issued, empty]

theorem boot_agrees (cfg : Config) (ruby : Ruby σ) : Agrees cfg 0 (cfg.boot ruby) := by
  have lanes : ∀ l ∈ (cfg.boot ruby).lanes, l.waitingOn = none := by
    intro l member
    obtain ⟨i, _, rfl⟩ := List.mem_map.mp member
    simp [Lane.waitingOn, Lane.new]
  have booted : Run cfg (cfg.boot ruby) (cfg.boot ruby) [] false := .boot ruby
  refine ⟨rfl, Memory.consistent_new _, booted.placed, ?_, ?_, by simp [Config.boot, Core.new], ?_⟩
  · rw [waitingOn, List.filterMap_eq_nil_iff.mpr lanes]
    simp [Config.boot, Core.new, Memory.new]
  · intro i l n found waiting
    rw [lanes l (List.mem_of_getElem? found)] at waiting
    cases waiting
  · intro i n found
    simp [Config.boot, Core.new] at found

theorem Reach.settled {cfg : Config} (few : cfg.numChains ≤ maxNumChain) (mode : cfg.RubyMode)
    {system : RubySystem σ} {lawful : system.Lawful} {Cycle : Core σ → Prop} {begun c : Core σ}
    {done : List Node} {running : Bool}
    (reach : Reach cfg (cfg.Starts lawful) Cycle begun c done running) :
    (running = true → Settled cfg lawful c) ∧
      (running = false → Agrees cfg 0 c ∧ c.queues.memReqQueue = [] ∧
        c.memory.ldstAddrBuffer = []) := by
  induction reach with
  | boot ruby => exact ⟨by simp, fun _ => ⟨boot_agrees cfg ruby, rfl, rfl⟩⟩
  | begin n ruby earlier starts returned ih =>
    obtain ⟨_, _, _, _, rfl⟩ := (earlier.idle.withRuby ruby).beginIteration_ok returned
    obtain ⟨agrees, sent, _⟩ := ih.2 rfl
    refine ⟨fun _ => ⟨starts.1.1, ?_, sent, starts.2⟩, by simp⟩
    have drained : ruby.outstanding lawful = 0 := starts.1.2
    simp only [Core.begun, drained]
    exact ⟨agrees.trace, agrees.consistent, agrees.placed, agrees.waiting, agrees.recorded,
      agrees.posted, agrees.owned⟩
  | @cycle begun c c' done finished earlier _ returned ih =>
    obtain ⟨plan, running⟩ := earlier.running
    obtain ⟨_, _, _, returned', settled⟩ := (ih.1 rfl).runACycle few mode running
    rw [returned] at returned'
    cases returned'
    refine ⟨fun _ => settled, fun stops => ?_⟩
    obtain ⟨_, _, _, _, _, _, _, isFinish⟩ := runACycle_ok returned
    have stops : finished = true := by simpa using stops
    obtain ⟨empty, drained⟩ := settled.finish (isFinish ▸ stops)
    exact ⟨drained ▸ settled.agrees, settled.sent, empty⟩

theorem Reach.agrees {cfg : Config} (few : cfg.numChains ≤ maxNumChain) (mode : cfg.RubyMode)
    {system : RubySystem σ} {lawful : system.Lawful} {Cycle : Core σ → Prop} {begun c : Core σ}
    {done : List Node} {running : Bool}
    (reach : Reach cfg (cfg.Starts lawful) Cycle begun c done running) :
    (∃ outstanding, Agrees cfg outstanding c) ∧ c.queues.memReqQueue = [] ∧
      ∀ l ∈ c.lanes, l.Valid := by
  cases running with
  | true =>
    have settled := (reach.settled few mode).1 rfl
    obtain ⟨_, running⟩ := reach.running
    exact ⟨⟨_, settled.agrees⟩, settled.sent, running.lanes⟩
  | false =>
    obtain ⟨agrees, sent, _⟩ := (reach.settled few mode).2 rfl
    exact ⟨⟨_, agrees⟩, sent, reach.idle.lanes⟩

/-- In every run the stalled lanes and the requests in the buffer correspond one
to one, every response finds the lane that waits for it, and the buffer is
empty when an iteration ends. -/
theorem memory_wakeup_agreement {cfg : Config} (fits : cfg.Fits) (mode : cfg.RubyMode)
    {system : RubySystem σ} {lawful : system.Lawful} {begun c : Core σ} {done : List Node}
    {running : Bool} (run : Reach cfg (cfg.Starts lawful) (fun _ => True) begun c done running) :
    (∀ (i : Nat) (l : Lane), c.lanes[i]? = some l → (l.exeCnt = -1 ↔
        ∃ ins, l.exeStack.head? = some ins ∧
          (c.memory.ldstAddrBuffer.map (·.nodeid)).count ins.oldId = 1)) ∧
      (∀ req ∈ c.memory.ldstAddrBuffer, ∃! i : Nat, ∃ l ins, c.lanes[i]? = some l ∧ l.exeCnt = -1 ∧
        l.exeStack.head? = some ins ∧ ins.oldId = req.nodeid) ∧
      (running = true → FindsWaiting c ∧ ∃ c' finished, c.runACycle = .ok (c', finished) ∧
        (finished = true → c'.memory.ldstAddrBuffer = [])) := by
  obtain ⟨⟨_, agrees⟩, sent, valid⟩ := run.agrees fits.chains mode
  have waiting := agrees.waiting
  rw [sent, List.map_nil, List.append_nil] at waiting
  have distinct := waitingOn_nodup mode agrees.placed
  refine ⟨?_, ?_, ?_⟩
  · intro i l at_i
    constructor
    · intro stalled
      have busy := (valid l (List.mem_of_getElem? at_i)).busy (by omega)
      obtain ⟨ins, rest, stack⟩ := List.exists_cons_of_ne_nil busy
      refine ⟨ins, by simp [stack], ?_⟩
      rw [← waiting.count_eq]
      refine List.count_eq_one_of_mem distinct (mem_waitingOn.mpr ⟨i, l, at_i, ?_⟩)
      exact Lane.waitingOn_eq_some.mpr ⟨stalled, by simp [stack]⟩
    · rintro ⟨ins, head, once⟩
      have member : ins.oldId ∈ waitingOn c.lanes :=
        waiting.mem_iff.mpr (List.count_pos_iff.mp (by omega))
      obtain ⟨j, other, at_j, isWaiting⟩ := mem_waitingOn.mp member
      have held : ins ∈ l.contents := by simp [Lane.contents, List.mem_of_mem_head? head]
      have here := (agrees.placed i l at_i).owns held
      have same := here.unique mode ((agrees.placed j other at_j).owns_waiting isWaiting)
      subst same
      rw [at_i] at at_j
      cases at_j
      exact (Lane.waitingOn_eq_some.mp isWaiting).1
  · intro req member
    have isWaiting : req.nodeid ∈ waitingOn c.lanes :=
      waiting.mem_iff.mpr (List.mem_map_of_mem member)
    obtain ⟨i, l, at_i, isWaiting⟩ := mem_waitingOn.mp isWaiting
    obtain ⟨stalled, head⟩ := Lane.waitingOn_eq_some.mp isWaiting
    obtain ⟨ins, front, id⟩ := Option.map_eq_some_iff.mp head
    refine ⟨i, ⟨l, ins, at_i, stalled, front, id⟩, ?_⟩
    rintro j ⟨other, ins', at_j, stalled', front', id'⟩
    have there : other.waitingOn = some req.nodeid :=
      Lane.waitingOn_eq_some.mpr ⟨stalled', by simp [front', id']⟩
    exact ((agrees.placed j other at_j).owns_waiting there).unique mode
      ((agrees.placed i l at_i).owns_waiting isWaiting)
  · intro going
    subst going
    obtain ⟨plan, state⟩ := run.running
    obtain ⟨finds, c', finished, returned, settled⟩ :=
      ((run.settled fits.chains mode).1 rfl).runACycle fits.chains mode state
    refine ⟨finds, c', finished, returned, fun stops => ?_⟩
    obtain ⟨_, _, _, _, _, _, _, isFinish⟩ := runACycle_ok returned
    exact (settled.finish (isFinish ▸ stops)).1

/-- A start block and a chain that loads from memory. -/
def singleLoad : BoostGraph where
  vertices := [⟨0, ⟨.bb, 0⟩, 0, .bb⟩, ⟨1, ⟨.load, 1⟩, 1, .load⟩]
  edges := [(0, 1)]
  bounded := by decide

theorem memory_wakeup_singleLoad :
    ∃ (cfg : Config) (begun c : Core (List Nat)) (done : List Node), cfg.dirtyGraph = singleLoad ∧
      cfg.Fits ∧ cfg.RubyMode ∧
      Reach cfg (cfg.Starts fifoRuby_lawful) (fun _ => True) begun c done true ∧
      c.memory.ldstAddrBuffer.map (·.nodeid) = [1] ∧ c.lanes.map (·.exeCnt) = [-1] ∧
      (∀ req ∈ c.memory.ldstAddrBuffer, ∃! i : Nat, ∃ l ins, c.lanes[i]? = some l ∧
        l.exeCnt = -1 ∧ l.exeStack.head? = some ins ∧ ins.oldId = req.nodeid) ∧
      FindsWaiting c := by
  have tested : firstIteration ⟨0, 0, 0, 3⟩ sampleLlvm singleLoad 1 ⟨3, 0⟩ ⟨1, 25, 100, 2, 2⟩
      (fun _ _ => some ⟨false, 64⟩) ⟨fifoRuby, [], []⟩ 13 (fun graph _ c _ =>
        decide (graph.chains = [[0], [1]] ∧
          (graph.origGraph.vertices.map (·.label.id)).Nodup ∧
          c.memory.ldstAddrBuffer.map (·.nodeid) = [1] ∧ c.lanes.map (·.exeCnt) = [-1])) = true := by
    decide +kernel
  obtain ⟨graph, read, begun, c, done, facts, runs⟩ := exists_run tested
  obtain ⟨chains, labels, buffer, stalled⟩ := of_decide_eq_true facts
  let cfg : Config := ⟨⟨0, 0, 0, 3⟩, sampleLlvm, singleLoad, graph, read, 1, ⟨3, 0⟩,
    ⟨1, 25, 100, 2, 2⟩, fun _ _ => some ⟨false, 64⟩⟩
  have count : cfg.numChains = 2 := congrArg List.length chains
  have fits : cfg.Fits := by
    refine ⟨?_, by rw [count]; decide, by simp [cfg], by simp [cfg, maxNumChain]⟩
    rw [Config.NonEmpty, count]
    change ∀ i < 2, graph.chains.getD i [] ≠ []
    rw [chains]
    decide
  have mode : cfg.RubyMode := ⟨rfl, labels, fun op latency _ => sampleLlvm_lt⟩
  have traced : cfg.Traced 0 := fun _ _ _ _ _ => ⟨⟨false, 64⟩, rfl, by decide⟩
  have run := runs (cfg.Starts fifoRuby_lawful) (fun _ => True) ⟨⟨rfl, rfl⟩, traced⟩
    (fun _ _ _ => trivial)
  have agreement := memory_wakeup_agreement fits mode run
  exact ⟨cfg, begun, c, done, rfl, fits, mode, run, buffer, stalled, agreement.2.1,
    (agreement.2.2 rfl).1⟩

end ChainSaw
