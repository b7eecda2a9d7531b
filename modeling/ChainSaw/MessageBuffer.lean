import ChainSaw.PrioHeap
import Mathlib.Data.List.Range

set_option autoImplicit false

namespace ChainSaw

/-- The value that an `int` keeps of a result: 32 bits, with a sign. -/
def wrapInt (x : Int) : Int := x.bmod (2 ^ 32)

theorem wrapInt_of_lt {x : Int} (low : -2 ^ 31 ≤ x) (high : x < 2 ^ 31) : wrapInt x = x := by
  unfold wrapInt
  exact Int.bmod_eq_of_le (by simp; omega) (by simp; omega)

/-- `Message`: what the buffers read and write of a message, and the rest of it. -/
structure Message (μ : Type) where
  lastEnqueueTime : Int
  delayedCycles : Int
  body : μ
deriving DecidableEq, Repr, Inhabited

structure MessageBufferNode (μ : Type) where
  time : Int
  msgCounter : Int
  msgptr : Message μ
deriving DecidableEq, Repr, Inhabited

namespace MessageBufferNode

variable {μ : Type}

instance : HeapNode (MessageBufferNode μ) where
  nodeLessThenEq n1 n2 :=
    if n1.time = n2.time then do
      check (n1.msgCounter ≠ n2.msgCounter) "n1.m_msg_counter != n2.m_msg_counter"
      .ok (decide (n1.msgCounter ≤ n2.msgCounter))
    else .ok (decide (n1.time ≤ n2.time))

def le (n1 n2 : MessageBufferNode μ) : Prop :=
  n1.time < n2.time ∨ (n1.time = n2.time ∧ n1.msgCounter ≤ n2.msgCounter)

instance : IsTrans (MessageBufferNode μ) le where
  trans n1 n2 n3 first second := by
    unfold le at *
    omega

instance : Std.Total (le : MessageBufferNode μ → MessageBufferNode μ → Prop) where
  total n1 n2 := by
    unfold le
    omega

theorem le.time_le {n1 n2 : MessageBufferNode μ} (before : n1.le n2) : n1.time ≤ n2.time := by
  rcases before with less | ⟨same, _⟩
  · exact Int.le_of_lt less
  · exact Int.le_of_eq same

abbrev Distinct (n1 n2 : MessageBufferNode μ) : Prop := n1.msgCounter ≠ n2.msgCounter

theorem compares : PrioHeap.Compares (le : MessageBufferNode μ → MessageBufferNode μ → Prop)
    Distinct := by
  intro n1 n2 distinct
  simp only [nodeLessThenEq, le]
  by_cases same : n1.time = n2.time
  · rw [if_pos same, check_pass (decide_eq_true distinct), Loops.ok_bind]
    refine ⟨_, rfl, decide_eq_true_iff.trans ?_⟩
    omega
  · rw [if_neg same]
    refine ⟨_, rfl, decide_eq_true_iff.trans ?_⟩
    omega

end MessageBufferNode

/-- `MessageBuffer`, with consumers of type `κ`. -/
structure MessageBuffer (κ μ : Type) where
  consumer : Option κ
  prioHeap : PrioHeap (MessageBufferNode μ)
  maxSize : Int
  size : Int
  timeLastTimeSizeChecked : Int
  sizeLastTimeSizeChecked : Int
  timeLastTimeEnqueue : Int
  timeLastTimePop : Int
  sizeAtCycleStart : Int
  msgsThisCycle : Int
  notAvailCount : Int
  msgCounter : Int
  strictFifo : Bool
  orderingSet : Bool
  randomization : Bool
  lastArrivalTime : Int

/-- `random_time` on the values of its calls of `random`. -/
def randomTime (first second third : Nat) : Int :=
  1 + (first &&& 3 : Nat) + if second &&& 7 = 0 then (100 + third % 15 : Nat) else 0

theorem randomTime_pos (first second third : Nat) : 1 ≤ randomTime first second third := by
  unfold randomTime
  split <;> omega

namespace MessageBuffer

variable {κ μ : Type}

/-- A new buffer. -/
def init [Inhabited μ] : MessageBuffer κ μ where
  consumer := none
  prioHeap := .init
  maxSize := -1
  size := 0
  timeLastTimeSizeChecked := 0
  sizeLastTimeSizeChecked := 0
  timeLastTimeEnqueue := 0
  timeLastTimePop := 0
  sizeAtCycleStart := 0
  msgsThisCycle := 0
  notAvailCount := 0
  msgCounter := 0
  strictFifo := true
  orderingSet := false
  randomization := true
  lastArrivalTime := 0

def setConsumer (b : MessageBuffer κ μ) (consumer : κ) : Result (MessageBuffer κ μ) := do
  check b.consumer.isNone "m_consumer_ptr==NULL"
  .ok { b with consumer := some consumer }

def setOrdering (b : MessageBuffer κ μ) (order : Bool) : MessageBuffer κ μ :=
  { b with strictFifo := order, orderingSet := true }

def setSize (b : MessageBuffer κ μ) (size : Int) : MessageBuffer κ μ := { b with maxSize := size }

def setRandomization (b : MessageBuffer κ μ) (flag : Bool) : MessageBuffer κ μ :=
  { b with randomization := flag }

/-- `getSize`: the size as of its first call in a cycle. -/
def getSize (b : MessageBuffer κ μ) (now : Int) : Int × MessageBuffer κ μ :=
  if b.timeLastTimeSizeChecked = now then (b.sizeLastTimeSizeChecked, b)
  else (b.size, { b with timeLastTimeSizeChecked := now, sizeLastTimeSizeChecked := b.size })

/-- The size that `areNSlotsAvailable` goes by. -/
def currentSize (b : MessageBuffer κ μ) (now : Int) : Int :=
  if b.timeLastTimePop < now then b.size
  else if b.timeLastTimeEnqueue < now then b.sizeAtCycleStart
  else wrapInt (b.sizeAtCycleStart + b.msgsThisCycle)

def areNSlotsAvailable (b : MessageBuffer κ μ) (now n : Int) : Bool × MessageBuffer κ μ :=
  if b.maxSize = -1 then (true, b)
  else if wrapInt (b.currentSize now + n) ≤ b.maxSize then (true, b)
  else (false, { b with notAvailCount := wrapInt (b.notAvailCount + 1) })

def isReady (b : MessageBuffer κ μ) (now : Int) : Result Bool :=
  if 0 < b.prioHeap.size then do
    let least ← b.prioHeap.peekMin
    .ok (decide (least.time ≤ now))
  else .ok false

def peek (b : MessageBuffer κ μ) (now : Int) : Result (Message μ) := do
  check (← b.isReady now) "isReady()"
  let least ← b.prioHeap.peekMin
  .ok least.msgptr

/-- The first lines of `enqueue`: the counters. -/
def count (b : MessageBuffer κ μ) (now : Int) : MessageBuffer κ μ :=
  { b with
    msgCounter := wrapInt (b.msgCounter + 1)
    size := wrapInt (b.size + 1)
    msgsThisCycle := wrapInt ((if b.timeLastTimeEnqueue < now then 0 else b.msgsThisCycle) + 1)
    timeLastTimeEnqueue :=
      if b.timeLastTimeEnqueue < now then now else b.timeLastTimeEnqueue }

/-- The last lines of `pop`: the size of the buffer. -/
def take (b : MessageBuffer κ μ) (now : Int) : MessageBuffer κ μ :=
  { b with
    sizeAtCycleStart := if b.timeLastTimePop < now then b.size else b.sizeAtCycleStart
    timeLastTimePop := if b.timeLastTimePop < now then now else b.timeLastTimePop
    size := wrapInt (b.size - 1) }

/-- The arrival time of a message, and `m_last_arrival_time` before it is checked
and set. `RANDOMIZATION` is the parameter of Ruby, `random` the time drawn. -/
def arrival (b : MessageBuffer κ μ) (RANDOMIZATION : Bool) (now delta random : Int) : Int × Int :=
  if ¬RANDOMIZATION ∨ b.randomization = false then (now + delta, b.lastArrivalTime)
  else if b.strictFifo then
    let last := if b.lastArrivalTime < now then now else b.lastArrivalTime
    (last + random, last)
  else (now + random, b.lastArrivalTime)

/-- What `enqueue` writes to the message. -/
def stamp (message : Message μ) (now arrival : Int) : Message μ :=
  { message with
    delayedCycles := wrapInt (now - message.lastEnqueueTime + message.delayedCycles)
    lastEnqueueTime := arrival }

/-- The node of the next message. -/
def nextNode (b : MessageBuffer κ μ) (now t : Int) (message : Message μ) : MessageBufferNode μ :=
  ⟨t, wrapInt (b.msgCounter + 1), stamp message now t⟩

/-- `enqueue`, with the wakeup that it schedules. -/
def enqueue (b : MessageBuffer κ μ) (RANDOMIZATION : Bool) (now : Int) (message : Message μ)
    (delta random : Int) : Result (MessageBuffer κ μ × κ × Int) := do
  let b := b.count now
  check b.orderingSet "Ordering property of this queue has not been set"
  check (0 < delta) "delta>0"
  let (arrivalTime, last) := b.arrival RANDOMIZATION now delta random
  check (now < arrivalTime) "arrival_time > current_time"
  check (!b.strictFifo || decide (last ≤ arrivalTime)) "FIFO ordering violated"
  check (message.lastEnqueueTime ≤ now) "g_eventQueue_ptr->getTime() >= msg_ptr->getLastEnqueueTime()"
  let prioHeap ← b.prioHeap.insert ⟨arrivalTime, b.msgCounter, stamp message now arrivalTime⟩
  match b.consumer with
  | some consumer =>
    .ok ({ b with prioHeap, lastArrivalTime := arrivalTime }, consumer, arrivalTime)
  | none => .error (.assertion "No consumer")

/-- `pop`, with the node it takes away. -/
def pop (b : MessageBuffer κ μ) (now : Int) :
    Result (MessageBufferNode μ × MessageBuffer κ μ) := do
  check (← b.isReady now) "isReady()"
  let (node, prioHeap) ← b.prioHeap.extractMin
  .ok (node, { b with prioHeap }.take now)

/-- `recycle`, with the wakeup that it schedules. -/
def recycle (b : MessageBuffer κ μ) (RECYCLE_LATENCY now : Int) :
    Result (MessageBuffer κ μ × κ × Int) := do
  check (← b.isReady now) "isReady()"
  let (node, prioHeap) ← b.prioHeap.extractMin
  let prioHeap ← prioHeap.insert { node with time := now + RECYCLE_LATENCY }
  match b.consumer with
  | some consumer => .ok ({ b with prioHeap }, consumer, now + RECYCLE_LATENCY)
  | none => .error (.assertion "consumer != NULL")

/-- `setAndReturnDelayCycles`. -/
def setAndReturnDelayCycles (message : Message μ) (now : Int) : Result (Int × Message μ) := do
  check (message.lastEnqueueTime ≤ now) "msg_ptr->getLastEnqueueTime() <= g_eventQueue_ptr->getTime()"
  let delayedCycles := wrapInt (now - message.lastEnqueueTime + message.delayedCycles)
  check (0 ≤ delayedCycles) "delay_cycles >= 0"
  .ok (delayedCycles, { message with delayedCycles })

/-- `dequeue_getDelayCycles(message)`. -/
def dequeueGetDelayCycles (b : MessageBuffer κ μ) (now : Int) :
    Result (Int × Message μ × MessageBuffer κ μ) := do
  let (node, b) ← b.pop now
  let (delayCycles, message) ← setAndReturnDelayCycles node.msgptr now
  .ok (delayCycles, message, b)

/-- The messages in the buffer. -/
def items (b : MessageBuffer κ μ) : Multiset (MessageBufferNode μ) := b.prioHeap.items

/-- A message in the buffer, whatever its time. -/
def tag (node : MessageBufferNode μ) : Int × Message μ := (node.msgCounter, node.msgptr)

theorem apart_of_nodup {nodes : Multiset (MessageBufferNode μ)}
    (distinct : (nodes.map MessageBufferNode.msgCounter).Nodup) :
    ImplicitHeap.Apart MessageBufferNode.Distinct nodes := by
  intro a b pair same
  have counters := Multiset.nodup_of_le (Multiset.map_le_map pair) distinct
  simp [same] at counters

theorem nonempty_iff (b : MessageBuffer κ μ) : 0 < b.prioHeap.size ↔ b.items ≠ 0 := by
  have card := ImplicitHeap.card_items b.prioHeap.heap b.prioHeap.currentSize
  rw [← Multiset.card_pos]
  exact Iff.of_eq (congrArg (0 < ·) card.symm)

/-- What the heap of a buffer has to satisfy: its messages have different counters. -/
structure Sound (b : MessageBuffer κ μ) : Prop where
  valid : b.prioHeap.Valid MessageBufferNode.le
  distinct : (b.items.map MessageBufferNode.msgCounter).Nodup
  bounded : ∀ node ∈ b.items, node.msgCounter ≤ b.msgCounter
  positive : 0 ≤ b.msgCounter

/-- The next message gets a number of its own. -/
def Room (b : MessageBuffer κ μ) : Prop := b.msgCounter + 1 < 2 ^ 31

theorem Sound.nextCounter {b : MessageBuffer κ μ} (sound : b.Sound) (room : b.Room) :
    wrapInt (b.msgCounter + 1) = b.msgCounter + 1 := by
  have positive := sound.positive
  exact wrapInt_of_lt (by omega) room

/-- The first message, and the heap without it. -/
theorem Sound.first {b : MessageBuffer κ μ} (sound : b.Sound) (nonempty : b.items ≠ 0) :
    ∃ node prioHeap, b.prioHeap.peekMin = .ok node ∧
      b.prioHeap.extractMin = .ok (node, prioHeap) ∧ prioHeap.Valid MessageBufferNode.le ∧
      b.items = node ::ₘ prioHeap.items ∧ ∀ other ∈ b.items, node.le other := by
  obtain ⟨node, prioHeap, extracted, peeked, valid, items, first⟩ :=
    PrioHeap.extractMin_ok MessageBufferNode.compares sound.valid
      ((nonempty_iff b).mpr nonempty) (apart_of_nodup sound.distinct)
  exact ⟨node, prioHeap, peeked, extracted, valid, items, first⟩

theorem Sound.isReady {b : MessageBuffer κ μ} (sound : b.Sound) (now : Int) :
    ∃ answer, b.isReady now = .ok answer ∧
      (answer = true ↔ ∃ node ∈ b.items, node.time ≤ now) := by
  unfold MessageBuffer.isReady
  by_cases nonempty : b.items = 0
  · rw [if_neg fun some => (nonempty_iff b).mp some nonempty, nonempty]
    exact ⟨false, rfl, by simp⟩
  · obtain ⟨least, prioHeap, peeked, _, _, items, first⟩ := sound.first nonempty
    rw [if_pos ((nonempty_iff b).mpr nonempty), peeked]
    refine ⟨_, rfl, decide_eq_true_iff.trans ⟨fun due => ?_, ?_⟩⟩
    · exact ⟨least, items ▸ Multiset.mem_cons_self _ _, due⟩
    · rintro ⟨node, member, due⟩
      exact Int.le_trans ((first node member).time_le) due

theorem arrival_last (b : MessageBuffer κ μ) (RANDOMIZATION : Bool) (now delta random : Int) :
    b.lastArrivalTime ≤ (b.arrival RANDOMIZATION now delta random).2 := by
  unfold arrival
  split
  · exact Int.le_refl _
  · split
    · dsimp only
      split <;> omega
    · exact Int.le_refl _

/-- `insert` can compare the next message with those in the buffer. -/
theorem Sound.insert {b : MessageBuffer κ μ} (sound : b.Sound) (room : b.Room) (t : Int)
    (message : Message μ) :
    ∃ prioHeap, b.prioHeap.insert ⟨t, wrapInt (b.msgCounter + 1), message⟩ = .ok prioHeap ∧
      prioHeap.Valid MessageBufferNode.le ∧
      prioHeap.items = ⟨t, wrapInt (b.msgCounter + 1), message⟩ ::ₘ b.items := by
  rw [sound.nextCounter room]
  refine PrioHeap.insert_ok MessageBufferNode.compares sound.valid (apart_of_nodup ?_)
  rw [Multiset.map_cons, Multiset.nodup_cons]
  refine ⟨fun used => ?_, sound.distinct⟩
  obtain ⟨node, member, same⟩ := Multiset.mem_map.mp used
  have bounded := sound.bounded node member
  dsimp only at same
  omega

theorem enqueue_cases {b next : MessageBuffer κ μ} {RANDOMIZATION : Bool} {now delta random t : Int}
    {message : Message μ} {c : κ} (sound : b.Sound) (room : b.Room)
    (returned : b.enqueue RANDOMIZATION now message delta random = .ok (next, c, t)) :
    b.consumer = some c ∧ (b.strictFifo = true → b.lastArrivalTime ≤ t) ∧ now < t ∧
      ∃ prioHeap, prioHeap.Valid MessageBufferNode.le ∧
        prioHeap.items = b.nextNode now t message ::ₘ b.items ∧
        next = { b.count now with prioHeap, lastArrivalTime := t } := by
  unfold enqueue at returned
  dsimp only at returned
  have last := (b.count now).arrival_last RANDOMIZATION now delta random
  generalize (b.count now).arrival RANDOMIZATION now delta random = times at returned last
  obtain ⟨arrivalTime, lastArrival⟩ := times
  dsimp only at returned last
  obtain ⟨_, _, returned⟩ := Loops.bind_eq_ok.mp returned
  obtain ⟨_, _, returned⟩ := Loops.bind_eq_ok.mp returned
  obtain ⟨_, later, returned⟩ := Loops.bind_eq_ok.mp returned
  obtain ⟨_, ordered, returned⟩ := Loops.bind_eq_ok.mp returned
  obtain ⟨_, _, returned⟩ := Loops.bind_eq_ok.mp returned
  obtain ⟨prioHeap, inserted, returned⟩ := Loops.bind_eq_ok.mp returned
  obtain ⟨prioHeap', inserted', valid, items⟩ :=
    sound.insert room arrivalTime (stamp message now arrivalTime)
  have inserted : b.prioHeap.insert (b.nextNode now arrivalTime message) = .ok prioHeap := inserted
  rw [nextNode] at inserted
  rw [inserted'] at inserted
  cases inserted
  split at returned
  · rename_i consumer isConsumer
    cases returned
    refine ⟨isConsumer, fun strict => ?_, of_decide_eq_true (check_eq_ok.mp later), prioHeap, valid,
      items, rfl⟩
    have upTo := check_eq_ok.mp ordered
    rw [show (b.count now).strictFifo = true from strict] at upTo
    exact Int.le_trans last (of_decide_eq_true upTo)
  · cases returned

theorem pop_cases {b next : MessageBuffer κ μ} {now : Int} {node : MessageBufferNode μ}
    (sound : b.Sound) (returned : b.pop now = .ok (node, next)) :
    node.time ≤ now ∧ (∀ other ∈ b.items, node.le other) ∧
      ∃ prioHeap, prioHeap.Valid MessageBufferNode.le ∧ b.items = node ::ₘ prioHeap.items ∧
        next = { b with prioHeap }.take now := by
  unfold pop at returned
  obtain ⟨answer, ready, returned⟩ := Loops.bind_eq_ok.mp returned
  obtain ⟨_, isReady, returned⟩ := Loops.bind_eq_ok.mp returned
  obtain ⟨⟨_, prioHeap⟩, extracted, returned⟩ := Loops.bind_eq_ok.mp returned
  cases returned
  obtain ⟨answer', ready', due⟩ := sound.isReady now
  rw [ready'] at ready
  cases ready
  obtain ⟨other, member, time⟩ := due.mp (check_eq_ok.mp isReady)
  obtain ⟨_, _, _, extracted', valid, items, first⟩ :=
    sound.first (fun empty => by rw [empty] at member; cases member)
  rw [extracted'] at extracted
  cases extracted
  exact ⟨Int.le_trans (first other member).time_le time, first, prioHeap, valid, items, rfl⟩

theorem recycle_cases {b next : MessageBuffer κ μ} {RECYCLE_LATENCY now t : Int} {c : κ}
    (sound : b.Sound) (returned : b.recycle RECYCLE_LATENCY now = .ok (next, c, t)) :
    b.consumer = some c ∧ t = now + RECYCLE_LATENCY ∧ ∃ node rest prioHeap,
      node.time ≤ now ∧ b.items = node ::ₘ rest ∧
      prioHeap.Valid MessageBufferNode.le ∧ prioHeap.items = { node with time := t } ::ₘ rest ∧
      next = { b with prioHeap } := by
  unfold recycle at returned
  obtain ⟨answer, ready, returned⟩ := Loops.bind_eq_ok.mp returned
  obtain ⟨_, isReady, returned⟩ := Loops.bind_eq_ok.mp returned
  obtain ⟨⟨node, rest⟩, extracted, returned⟩ := Loops.bind_eq_ok.mp returned
  obtain ⟨prioHeap, inserted, returned⟩ := Loops.bind_eq_ok.mp returned
  obtain ⟨answer', ready', due⟩ := sound.isReady now
  rw [ready'] at ready
  cases ready
  obtain ⟨other, member, time⟩ := due.mp (check_eq_ok.mp isReady)
  obtain ⟨_, _, _, extracted', valid, items, first⟩ :=
    sound.first (fun empty => by rw [empty] at member; cases member)
  rw [extracted'] at extracted
  cases extracted
  have distinct := sound.distinct
  rw [items, Multiset.map_cons] at distinct
  obtain ⟨prioHeap', inserted', valid', items'⟩ := PrioHeap.insert_ok MessageBufferNode.compares valid
    (@apart_of_nodup _ ({ node with time := now + RECYCLE_LATENCY } ::ₘ rest.items)
      (by rw [Multiset.map_cons]; exact distinct))
  rw [inserted'] at inserted
  cases inserted
  split at returned
  · rename_i consumer isConsumer
    cases returned
    exact ⟨isConsumer, rfl, node, rest.items, prioHeap,
      Int.le_trans (first other member).time_le time, items, valid', items', rfl⟩
  · cases returned

theorem Sound.pop {b : MessageBuffer κ μ} (sound : b.Sound) {now : Int}
    (due : ∃ node ∈ b.items, node.time ≤ now) : ∃ node next, b.pop now = .ok (node, next) := by
  obtain ⟨answer, ready, isReady⟩ := sound.isReady now
  have nonempty : b.items ≠ 0 := by
    obtain ⟨node, member, _⟩ := due
    intro empty
    rw [empty] at member
    cases member
  obtain ⟨node, prioHeap, _, extracted, _⟩ := sound.first nonempty
  unfold MessageBuffer.pop
  rw [ready, Loops.ok_bind, check_pass (isReady.mpr due), Loops.ok_bind, extracted]
  exact ⟨node, _, rfl⟩

/-- The conditions under which `enqueue` takes a message. -/
theorem Sound.enqueue {b : MessageBuffer κ μ} (sound : b.Sound) (room : b.Room)
    {RANDOMIZATION : Bool} {now delta : Int} {message : Message μ} (consumer : b.consumer.isSome)
    (ordering : b.orderingSet = true) (later : 0 < delta)
    (enqueued : message.lastEnqueueTime ≤ now)
    (fifo : b.strictFifo = true → RANDOMIZATION = false ∨ b.randomization = false →
      b.lastArrivalTime ≤ now + delta) (first second third : Nat) :
    ∃ result, b.enqueue RANDOMIZATION now message delta (randomTime first second third) =
      .ok result := by
  have positive := randomTime_pos first second third
  generalize randomTime first second third = random at positive ⊢
  have times : now < (b.arrival RANDOMIZATION now delta random).1 ∧
      (b.strictFifo = true → (b.arrival RANDOMIZATION now delta random).2 ≤
        (b.arrival RANDOMIZATION now delta random).1) := by
    unfold arrival
    split
    · rename_i fixed
      exact ⟨by dsimp only; omega, fun strict => fifo strict (fixed.imp eq_false_of_ne_true id)⟩
    · split
      · dsimp only
        split <;> exact ⟨by omega, fun _ => by omega⟩
      · rename_i unordered
        exact ⟨by dsimp only; omega, fun strict => absurd strict unordered⟩
  obtain ⟨after, ordered⟩ := times
  have same : (b.count now).arrival RANDOMIZATION now delta random =
      b.arrival RANDOMIZATION now delta random := rfl
  unfold MessageBuffer.enqueue
  dsimp only
  rw [same]
  generalize b.arrival RANDOMIZATION now delta random = times at after ordered ⊢
  obtain ⟨t, last⟩ := times
  obtain ⟨prioHeap, inserted, _⟩ := sound.insert room t (stamp message now t)
  obtain ⟨c, isConsumer⟩ := Option.isSome_iff_exists.mp consumer
  have fifoHolds : (!b.strictFifo || decide (last ≤ t)) = true := by
    cases strict : b.strictFifo with
    | false => rfl
    | true => simpa [strict] using ordered strict
  rw [check_pass (show (b.count now).orderingSet = true from ordering), Loops.ok_bind,
    check_pass (decide_eq_true later), Loops.ok_bind]
  dsimp only
  rw [check_pass (decide_eq_true after), Loops.ok_bind,
    check_pass (show (!(b.count now).strictFifo || decide (last ≤ t)) = true from fifoHolds),
    Loops.ok_bind, check_pass (decide_eq_true enqueued), Loops.ok_bind,
    show (b.count now).prioHeap.insert ⟨t, (b.count now).msgCounter, _⟩ = _ from inserted,
    Loops.ok_bind, show (b.count now).consumer = some c from isConsumer]
  exact ⟨_, rfl⟩

/-- A buffer with its consumer, size and ordering set. -/
def configured [Inhabited μ] (consumer : Option κ) (maxSize : Int)
    (strictFifo orderingSet randomization : Bool) : MessageBuffer κ μ :=
  { (init : MessageBuffer κ μ) with consumer, maxSize, strictFifo, orderingSet, randomization }

/-- The buffers that calls lead to, with the cycle, the messages enqueued and popped
so far, the wakeups scheduled, and whether a message has been recycled. -/
inductive Run [Inhabited μ] (RANDOMIZATION : Bool) (RECYCLE_LATENCY : Int) : MessageBuffer κ μ → Int →
    List (MessageBufferNode μ) → List (MessageBufferNode μ) → List (κ × Int) → Bool → Prop
  | init (consumer : Option κ) (maxSize : Int) (strictFifo orderingSet randomization : Bool)
      {now : Int} : 0 ≤ now →
      Run RANDOMIZATION RECYCLE_LATENCY
        (configured consumer maxSize strictFifo orderingSet randomization) now [] [] [] false
  | wait {b : MessageBuffer κ μ} {now later : Int} {sent received : List (MessageBufferNode μ)}
      {wakes : List (κ × Int)} {recycled : Bool} :
      Run RANDOMIZATION RECYCLE_LATENCY b now sent received wakes recycled → now ≤ later →
      Run RANDOMIZATION RECYCLE_LATENCY b later sent received wakes recycled
  | enqueue {b next : MessageBuffer κ μ} {now delta random t : Int} {message : Message μ} {c : κ}
      {sent received : List (MessageBufferNode μ)} {wakes : List (κ × Int)} {recycled : Bool} :
      Run RANDOMIZATION RECYCLE_LATENCY b now sent received wakes recycled →
      b.enqueue RANDOMIZATION now message delta random = .ok (next, c, t) →
      Run RANDOMIZATION RECYCLE_LATENCY next now
        (sent ++ [b.nextNode now t message]) received (wakes ++ [(c, t)]) recycled
  | pop {b next : MessageBuffer κ μ} {now : Int} {node : MessageBufferNode μ}
      {sent received : List (MessageBufferNode μ)} {wakes : List (κ × Int)} {recycled : Bool} :
      Run RANDOMIZATION RECYCLE_LATENCY b now sent received wakes recycled →
      b.pop now = .ok (node, next) →
      Run RANDOMIZATION RECYCLE_LATENCY next now sent (received ++ [node]) wakes recycled
  | recycle {b next : MessageBuffer κ μ} {now t : Int} {c : κ}
      {sent received : List (MessageBufferNode μ)} {wakes : List (κ × Int)} {recycled : Bool} :
      Run RANDOMIZATION RECYCLE_LATENCY b now sent received wakes recycled →
      b.recycle RECYCLE_LATENCY now = .ok (next, c, t) →
      Run RANDOMIZATION RECYCLE_LATENCY next now sent received (wakes ++ [(c, t)]) true

/-- The messages enqueued in the current cycle. -/
def sentThisCycle (b : MessageBuffer κ μ) (now : Int) : Int :=
  if b.timeLastTimeEnqueue < now then 0 else b.msgsThisCycle

/-- The numbers of the first `n` messages. -/
def counters (n : Nat) : List Int := (List.range n).map fun i : Nat => (i : Int) + 1

theorem counters_succ (n : Nat) : counters (n + 1) = counters n ++ [(n : Int) + 1] := by
  simp [counters, List.range_succ]

theorem counters_increasing (n : Nat) : (counters n).Pairwise (· < ·) := by
  unfold counters
  rw [List.pairwise_map]
  exact List.pairwise_lt_range.imp fun less => by omega

theorem mem_counters {n : Nat} {counter : Int} (listed : counter ∈ counters n) : counter ≤ n := by
  obtain ⟨i, inside, rfl⟩ := List.mem_map.mp listed
  have := List.mem_range.mp inside
  omega

/-- How the state of a buffer goes with the log. -/
structure Delivers (b : MessageBuffer κ μ) (now : Int) (sent received : List (MessageBufferNode μ))
    (wakes : List (κ × Int)) (recycled : Bool) : Prop where
  sound : b.Sound
  balance : b.items.map tag + (received.map tag : Multiset (Int × Message μ)) =
    (sent.map tag : Multiset (Int × Message μ))
  counter : b.msgCounter = sent.length
  counters : sent.map (·.msgCounter) = MessageBuffer.counters sent.length
  size : b.size = b.items.card
  wakes : ∀ node ∈ b.items, ∃ c, b.consumer = some c ∧ (c, node.time) ∈ wakes
  popped : b.timeLastTimePop ≤ now
  enqueued : b.timeLastTimeEnqueue ≤ now
  atStart : 0 ≤ b.sizeAtCycleStart ∧ b.sizeAtCycleStart ≤ sent.length
  thisCycle : 0 ≤ b.msgsThisCycle ∧ b.msgsThisCycle ≤ sent.length
  visible : b.timeLastTimePop = now → b.size ≤ b.sizeAtCycleStart + b.sentThisCycle now
  ordered : b.strictFifo = true → recycled = false → ∃ rest, sent = received ++ rest ∧
    b.items = (rest : Multiset (MessageBufferNode μ)) ∧
    (sent.Pairwise fun n1 n2 => n1.time ≤ n2.time) ∧ ∀ node ∈ sent, node.time ≤ b.lastArrivalTime

/-- The counters of the messages enqueued are different, so those in the buffer are. -/
theorem sound_of_balance {b : MessageBuffer κ μ} {sent received : List (MessageBufferNode μ)}
    (valid : b.prioHeap.Valid MessageBufferNode.le)
    (balance : b.items.map tag + (received.map tag : Multiset (Int × Message μ)) =
      (sent.map tag : Multiset (Int × Message μ)))
    (counter : b.msgCounter = sent.length)
    (numbered : sent.map (·.msgCounter) = counters sent.length) : b.Sound := by
  have held : b.items.map MessageBufferNode.msgCounter ≤ (counters sent.length : Multiset Int) := by
    have tags := Multiset.map_le_map (f := Prod.fst) (balance ▸ Multiset.le_add_right _ _)
    rw [Multiset.map_map, Multiset.map_coe, List.map_map] at tags
    rw [← numbered]
    exact tags
  have distinct : (counters sent.length).Nodup := (counters_increasing _).imp Int.ne_of_lt
  refine ⟨valid, Multiset.nodup_of_le held (Multiset.coe_nodup.mpr distinct), ?_, by omega⟩
  intro node member
  rw [counter]
  exact mem_counters (Multiset.mem_coe.mp (Multiset.mem_of_le held (Multiset.mem_map_of_mem _ member)))

theorem delivers_init [Inhabited μ] (consumer : Option κ) (maxSize : Int)
    (strictFifo orderingSet randomization : Bool) {now : Int} (started : 0 ≤ now) :
    Delivers (configured consumer maxSize strictFifo orderingSet randomization : MessageBuffer κ μ)
      now [] [] [] false := by
  have valid : (PrioHeap.init : PrioHeap (MessageBufferNode μ)).Valid MessageBufferNode.le :=
    PrioHeap.valid_init
  have none : (configured consumer maxSize strictFifo orderingSet randomization :
      MessageBuffer κ μ).sentThisCycle now = 0 := by
    unfold sentThisCycle
    split <;> rfl
  have sound : (configured consumer maxSize strictFifo orderingSet randomization :
      MessageBuffer κ μ).Sound :=
    @sound_of_balance κ μ _ [] [] valid rfl rfl rfl
  refine ⟨sound, rfl, rfl, rfl, rfl, ?_, started, started, ⟨Int.le_refl 0, Int.le_refl 0⟩,
    ⟨Int.le_refl 0, Int.le_refl 0⟩, fun _ => Int.le_of_eq (by rw [none]; rfl), ?_⟩
  · intro node member
    cases member
  · intro _ _
    exact ⟨[], rfl, rfl, List.Pairwise.nil, by simp⟩

theorem sentThisCycle_count (b : MessageBuffer κ μ) (now : Int) :
    (b.count now).sentThisCycle now = wrapInt (b.sentThisCycle now + 1) := by
  have here : ¬ (b.count now).timeLastTimeEnqueue < now := by
    simp only [count]
    split <;> omega
  rw [sentThisCycle, if_neg here]
  rfl

section steps

variable {b next : MessageBuffer κ μ} {RANDOMIZATION : Bool} {RECYCLE_LATENCY now t : Int} {c : κ}
  {sent received : List (MessageBufferNode μ)} {wakes : List (κ × Int)} {recycled : Bool}
  (delivers : Delivers b now sent received wakes recycled)
include delivers

theorem Delivers.room (few : sent.length + 1 < 2 ^ 31) : b.Room := by
  have counter := delivers.counter
  unfold Room
  omega

/-- No more messages are in the buffer than have been enqueued. -/
theorem Delivers.size_le : 0 ≤ b.size ∧ b.size ≤ sent.length := by
  have cards := congrArg Multiset.card delivers.balance
  simp only [Multiset.card_add, Multiset.card_map, Multiset.coe_card, List.length_map] at cards
  have size := delivers.size
  omega

theorem Delivers.sentThisCycle_le :
    0 ≤ b.sentThisCycle now ∧ b.sentThisCycle now ≤ sent.length := by
  have thisCycle := delivers.thisCycle
  unfold sentThisCycle
  split <;> omega

theorem Delivers.wait {later : Int} (after : now ≤ later) :
    Delivers b later sent received wakes recycled := by
  have popped := delivers.popped
  have enqueued := delivers.enqueued
  rcases Int.lt_or_eq_of_le after with before | rfl
  · refine ⟨delivers.sound, delivers.balance, delivers.counter, delivers.counters, delivers.size,
      delivers.wakes, popped.trans after, enqueued.trans after, delivers.atStart, delivers.thisCycle,
      fun here => ?_, delivers.ordered⟩
    omega
  · exact delivers

theorem Delivers.enqueue (few : sent.length + 1 < 2 ^ 31) {delta random : Int} {message : Message μ}
    (returned : b.enqueue RANDOMIZATION now message delta random = .ok (next, c, t)) :
    Delivers next now (sent ++ [b.nextNode now t message]) received (wakes ++ [(c, t)])
      recycled := by
  have room := delivers.room few
  have number := delivers.sound.nextCounter room
  have sizes := delivers.size_le
  have sentBefore := delivers.sentThisCycle_le
  have atStart := delivers.atStart
  have length : (sent ++ [b.nextNode now t message]).length = sent.length + 1 := by simp
  have larger : wrapInt (b.size + 1) = b.size + 1 := wrapInt_of_lt (by omega) (by omega)
  have sentNow : (b.count now).sentThisCycle now = b.sentThisCycle now + 1 := by
    rw [sentThisCycle_count, wrapInt_of_lt (by omega) (by omega)]
  have inCycle : (b.count now).msgsThisCycle = b.sentThisCycle now + 1 := by
    change wrapInt (b.sentThisCycle now + 1) = _
    exact wrapInt_of_lt (by omega) (by omega)
  obtain ⟨isConsumer, upTo, after, prioHeap, valid, items, rfl⟩ :=
    enqueue_cases delivers.sound room returned
  have contents : ({ b.count now with prioHeap, lastArrivalTime := t } : MessageBuffer κ μ).items =
      b.nextNode now t message ::ₘ b.items := items
  have balance : prioHeap.items.map tag + (received.map tag : Multiset (Int × Message μ)) =
      ((sent ++ [b.nextNode now t message]).map tag : Multiset (Int × Message μ)) := by
    rw [show prioHeap.items = _ from contents, Multiset.map_cons, Multiset.cons_add, delivers.balance, List.map_append,
      ← Multiset.coe_add, List.map_singleton, Multiset.coe_singleton, add_comm,
      Multiset.singleton_add]
  have counter : (b.count now).msgCounter = (sent ++ [b.nextNode now t message]).length := by
    have before := delivers.counter
    change wrapInt (b.msgCounter + 1) = _
    rw [number, length]
    omega
  have numbered : (sent ++ [b.nextNode now t message]).map (·.msgCounter) =
      MessageBuffer.counters (sent ++ [b.nextNode now t message]).length := by
    rw [length, counters_succ, List.map_append, delivers.counters, List.map_singleton, nextNode, number,
      delivers.counter]
  refine ⟨sound_of_balance valid balance counter numbered, balance, counter, numbered, ?_, ?_,
    delivers.popped, ?_, ?_, ?_, ?_, ?_⟩
  · rw [contents, Multiset.card_cons, Nat.cast_add, ← delivers.size]
    exact larger
  · intro node member
    rw [contents, Multiset.mem_cons] at member
    rcases member with rfl | member
    · exact ⟨c, isConsumer, by simp [nextNode]⟩
    · obtain ⟨c', isConsumer', listed⟩ := delivers.wakes node member
      exact ⟨c', isConsumer', List.mem_append_left _ listed⟩
  · have before := delivers.enqueued
    simp only [count]
    split <;> omega
  · rw [length]
    change 0 ≤ b.sizeAtCycleStart ∧ b.sizeAtCycleStart ≤ _
    omega
  · rw [length]
    change 0 ≤ (b.count now).msgsThisCycle ∧ (b.count now).msgsThisCycle ≤ _
    omega
  · intro here
    have visible := delivers.visible here
    change wrapInt (b.size + 1) ≤ b.sizeAtCycleStart + (b.count now).sentThisCycle now
    omega
  · intro strict fifo
    obtain ⟨rest, parts, held, sorted, last⟩ := delivers.ordered strict fifo
    have upTo := upTo strict
    refine ⟨rest ++ [b.nextNode now t message], ?_, ?_, ?_, ?_⟩
    · rw [parts, List.append_assoc]
    · rw [contents, held, ← Multiset.coe_add, Multiset.coe_singleton, add_comm,
        Multiset.singleton_add]
    · refine List.pairwise_append.mpr ⟨sorted, List.pairwise_singleton _ _, ?_⟩
      intro node listed new isNew
      rw [List.mem_singleton.mp isNew]
      exact (last node listed).trans upTo
    · intro node listed
      rcases List.mem_append.mp listed with old | new
      · exact (last node old).trans upTo
      · rw [List.mem_singleton.mp new]
        exact Int.le_refl t

/-- In a buffer that keeps the order, the first message of the heap is the one that
was enqueued first. -/
theorem Delivers.oldest {node : MessageBufferNode μ} {rest : List (MessageBufferNode μ)}
    (parts : sent = received ++ rest) (held : b.items = (rest : Multiset (MessageBufferNode μ)))
    (sorted : sent.Pairwise fun n1 n2 => n1.time ≤ n2.time) (member : node ∈ b.items)
    (first : ∀ other ∈ b.items, node.le other) : ∃ later, rest = node :: later := by
  have increasing : sent.Pairwise fun n1 n2 => n1.msgCounter < n2.msgCounter := by
    have counters : (sent.map (·.msgCounter)).Pairwise (· < ·) := by
      rw [delivers.counters]
      exact counters_increasing _
    exact List.pairwise_map.mp counters
  rw [held] at member first
  rw [parts] at sorted increasing
  cases rest with
  | nil => cases member
  | cons oldest later =>
    refine ⟨later, ?_⟩
    rcases List.mem_cons.mp (Multiset.mem_coe.mp member) with rfl | younger
    · rfl
    · have time := List.rel_of_pairwise_cons (List.pairwise_append.mp sorted).2.1 younger
      have counter := List.rel_of_pairwise_cons (List.pairwise_append.mp increasing).2.1 younger
      rcases first oldest (by simp) with less | ⟨_, upTo⟩ <;> omega

theorem Delivers.pop (few : sent.length < 2 ^ 31) {node : MessageBufferNode μ}
    (returned : b.pop now = .ok (node, next)) :
    Delivers next now sent (received ++ [node]) wakes recycled := by
  have sizes := delivers.size_le
  have smaller : wrapInt (b.size - 1) = b.size - 1 := wrapInt_of_lt (by omega) (by omega)
  obtain ⟨due, first, prioHeap, valid, items, rfl⟩ := pop_cases delivers.sound returned
  have contents : ({ b with prioHeap }.take now).items = prioHeap.items := rfl
  have balance : prioHeap.items.map tag +
      ((received ++ [node]).map tag : Multiset (Int × Message μ)) =
        (sent.map tag : Multiset (Int × Message μ)) := by
    have before := delivers.balance
    rw [items, Multiset.map_cons, Multiset.cons_add] at before
    rw [← before, List.map_append, ← Multiset.coe_add, List.map_singleton, Multiset.coe_singleton,
      ← add_assoc, add_comm _ {tag node}, Multiset.singleton_add]
  have isItem : node ∈ b.items := items ▸ Multiset.mem_cons_self _ _
  refine ⟨sound_of_balance valid balance delivers.counter delivers.counters, balance,
    delivers.counter, delivers.counters, ?_, ?_, ?_, delivers.enqueued, ?_, delivers.thisCycle, ?_, ?_⟩
  · have size := delivers.size
    rw [items, Multiset.card_cons] at size
    rw [contents]
    change wrapInt (b.size - 1) = _
    omega
  · intro other member
    exact delivers.wakes other (items ▸ Multiset.mem_cons_of_mem member)
  · have before := delivers.popped
    simp only [take]
    split <;> omega
  · have atStart := delivers.atStart
    simp only [take]
    split <;> omega
  · intro _
    have before := delivers.popped
    have visible := delivers.visible
    have counted := delivers.sentThisCycle_le
    change wrapInt (b.size - 1) ≤ (if b.timeLastTimePop < now then b.size else b.sizeAtCycleStart) +
      b.sentThisCycle now
    split <;> omega
  · intro strict fifo
    obtain ⟨rest, parts, held, sorted, last⟩ := delivers.ordered strict fifo
    obtain ⟨later, rfl⟩ := delivers.oldest parts held sorted isItem first
    refine ⟨later, by rw [parts]; simp, ?_, sorted, last⟩
    rw [items, ← Multiset.cons_coe, Multiset.cons_inj_right] at held
    exact held

theorem Delivers.recycle
    (returned : b.recycle RECYCLE_LATENCY now = .ok (next, c, t)) :
    Delivers next now sent received (wakes ++ [(c, t)]) true := by
  obtain ⟨isConsumer, rfl, node, rest, prioHeap, due, items, valid, items', rfl⟩ :=
    recycle_cases delivers.sound returned
  have contents : ({ b with prioHeap } : MessageBuffer κ μ).items =
      { node with time := now + RECYCLE_LATENCY } ::ₘ rest := items'
  have balance : prioHeap.items.map tag + (received.map tag : Multiset (Int × Message μ)) =
      (sent.map tag : Multiset (Int × Message μ)) := by
    rw [← delivers.balance, items, items', Multiset.map_cons, Multiset.map_cons]
    rfl
  refine ⟨sound_of_balance valid balance delivers.counter delivers.counters, balance,
    delivers.counter, delivers.counters, ?_, ?_, delivers.popped, delivers.enqueued,
    delivers.atStart, delivers.thisCycle, delivers.visible, ?_⟩
  · rw [contents, Multiset.card_cons, ← Multiset.card_cons node, ← items]
    exact delivers.size
  · intro other member
    rw [contents, Multiset.mem_cons] at member
    rcases member with rfl | member
    · exact ⟨c, isConsumer, by simp⟩
    · obtain ⟨c', isConsumer', listed⟩ :=
        delivers.wakes other (items ▸ Multiset.mem_cons_of_mem member)
      exact ⟨c', isConsumer', List.mem_append_left _ listed⟩
  · intro _ fifo
    cases fifo

/-- The size a buffer goes by lies between its true size and twice the number of
its messages so far. -/
theorem Delivers.currentSize_bounds (few : 2 * sent.length < 2 ^ 31) :
    b.size ≤ b.currentSize now ∧ b.currentSize now ≤ 2 * sent.length := by
  have sizes := delivers.size_le
  have atStart := delivers.atStart
  have thisCycle := delivers.thisCycle
  have popped := delivers.popped
  have visible := delivers.visible
  unfold currentSize
  split
  · omega
  · have visible := visible (by omega)
    unfold sentThisCycle at visible
    split
    · rename_i before
      rw [if_pos before] at visible
      omega
    · rename_i here
      rw [if_neg here] at visible
      rw [wrapInt_of_lt (by omega) (by omega)]
      omega

end steps

theorem Run.delivers [Inhabited μ] {RANDOMIZATION : Bool} {RECYCLE_LATENCY now : Int}
    {b : MessageBuffer κ μ} {sent received : List (MessageBufferNode μ)} {wakes : List (κ × Int)}
    {recycled : Bool} (run : Run RANDOMIZATION RECYCLE_LATENCY b now sent received wakes recycled)
    (few : sent.length < 2 ^ 31) : Delivers b now sent received wakes recycled := by
  induction run with
  | init consumer maxSize strictFifo orderingSet randomization started =>
    exact delivers_init consumer maxSize strictFifo orderingSet randomization started
  | wait _ after ih => exact (ih few).wait after
  | enqueue _ returned ih =>
    rw [List.length_append, List.length_singleton] at few
    exact (ih (by omega)).enqueue few returned
  | pop _ returned ih => exact (ih few).pop few returned
  | recycle _ returned ih => exact (ih few).recycle returned

section runs

variable [Inhabited μ] {RANDOMIZATION : Bool} {RECYCLE_LATENCY now : Int} {b : MessageBuffer κ μ}
  {sent received : List (MessageBufferNode μ)} {wakes : List (κ × Int)} {recycled : Bool}

/-- A buffer that has been given fewer than `2 ^ 31` messages, so that the `int`
that numbers them has not wrapped, delivers every message once. It offers a
message when one has arrived, and has then its consumer woken up; and it keeps the
order if it is meant to and nothing has been recycled. -/
theorem message_buffer_delivers
    (run : Run RANDOMIZATION RECYCLE_LATENCY b now sent received wakes recycled)
    (few : sent.length < 2 ^ 31) :
    b.items.map tag + (received.map tag : Multiset (Int × Message μ)) =
        (sent.map tag : Multiset (Int × Message μ)) ∧
      (sent.map (·.msgCounter)).Nodup ∧
      (b.strictFifo = true → recycled = false →
        ∃ rest, sent = received ++ rest ∧ b.items = (rest : Multiset (MessageBufferNode μ))) ∧
      (∀ node ∈ b.items, ∃ c, b.consumer = some c ∧ (c, node.time) ∈ wakes) ∧
      ∃ answer, b.isReady now = .ok answer ∧
        (answer = true ↔ ∃ node ∈ b.items, node.time ≤ now) ∧
        (answer = true → ∃ node next, b.pop now = .ok (node, next) ∧ node.time ≤ now ∧
          ∀ other ∈ b.items, node.le other) := by
  have delivers := run.delivers few
  obtain ⟨answer, ready, isReady⟩ := delivers.sound.isReady now
  refine ⟨delivers.balance, ?_, fun strict fifo => ?_, delivers.wakes, answer, ready, isReady,
    fun due => ?_⟩
  · rw [delivers.counters]
    exact (counters_increasing _).imp Int.ne_of_lt
  · obtain ⟨rest, parts, held, _⟩ := delivers.ordered strict fifo
    exact ⟨rest, parts, held⟩
  · obtain ⟨node, next, popped⟩ := delivers.sound.pop (isReady.mp due)
    obtain ⟨arrived, first, _⟩ := pop_cases delivers.sound popped
    exact ⟨node, next, popped, arrived, first⟩

/-- A buffer that has `n` slots available has them, as long as `n` and its messages
so far leave room in an `int`; and `enqueue` takes every message that has not been
enqueued for later, after a delay that keeps the order. -/
theorem message_buffer_takes
    (run : Run RANDOMIZATION RECYCLE_LATENCY b now sent received wakes recycled)
    (few : sent.length + 1 < 2 ^ 31) :
    (∀ n : Nat, 2 * sent.length + n < 2 ^ 31 → (b.areNSlotsAvailable now n).1 = true →
        b.maxSize = -1 ∨ (b.items.card : Int) + n ≤ b.maxSize) ∧
      ∀ delta message first second third, b.consumer.isSome → b.orderingSet = true → 0 < delta →
        message.lastEnqueueTime ≤ now →
        (b.strictFifo = true → RANDOMIZATION = false ∨ b.randomization = false →
          b.lastArrivalTime ≤ now + delta) →
        ∃ result, b.enqueue RANDOMIZATION now message delta (randomTime first second third) =
          .ok result := by
  have delivers := run.delivers (by omega)
  refine ⟨fun n room available => ?_, fun delta message first second third consumer ordering later
    enqueued fifo => delivers.sound.enqueue (delivers.room few) consumer ordering later enqueued
      fifo first second third⟩
  have sizes := delivers.size_le
  have bounds := delivers.currentSize_bounds (by omega)
  have sum : wrapInt (b.currentSize now + n) = b.currentSize now + n :=
    wrapInt_of_lt (by omega) (by omega)
  rw [← delivers.size]
  unfold areNSlotsAvailable at available
  rw [sum] at available
  split at available
  · exact .inl ‹_›
  · split at available
    · exact .inr (by omega)
    · cases available

end runs

end MessageBuffer

/-- A run in which one of two messages has been received. -/
theorem MessageBuffer.twoMessages_run :
    ∃ (b : MessageBuffer Unit Nat) (sent received : List (MessageBufferNode Nat))
      (wakes : List (Unit × Int)), Run false 10 b 5 sent received wakes false ∧
        sent.length = 2 ∧ received.length = 1 ∧ b.strictFifo = true ∧ b.orderingSet = true ∧
        b.consumer = some () ∧ b.maxSize = 2 ∧ b.lastArrivalTime = 5 ∧ b.items.card = 1 := by
  have tested : Loops.returns (fun e : MessageBufferNode Nat × MessageBuffer Unit Nat =>
      decide (e.2.strictFifo = true ∧ e.2.orderingSet = true ∧ e.2.consumer = some () ∧
        e.2.maxSize = 2 ∧ e.2.lastArrivalTime = 5 ∧ e.2.prioHeap.size = 1)) (do
      let (b, _) ← (configured (some ()) 2 true true true).enqueue false 1 ⟨1, 0, 7⟩ 4 0
      let (b, _) ← b.enqueue false 1 ⟨1, 0, 8⟩ 4 0
      b.pop 5) = true := by
    decide +kernel
  obtain ⟨⟨node, b⟩, returned, kept⟩ := Loops.returns_iff.mp tested
  obtain ⟨strict, ordering, consumer, maxSize, last, size⟩ := of_decide_eq_true kept
  obtain ⟨⟨first, _, _⟩, sent, returned⟩ := Loops.bind_eq_ok.mp returned
  obtain ⟨⟨second, _, _⟩, sent', popped⟩ := Loops.bind_eq_ok.mp returned
  have start : Run false 10 (configured (some ()) 2 true true true : MessageBuffer Unit Nat) 1 [] []
      [] false := .init _ _ _ _ _ (by decide)
  have run := (((start.enqueue sent).enqueue sent').wait (by decide : (1 : Int) ≤ 5)).pop popped
  exact ⟨b, _, _, _, run, rfl, rfl, strict, ordering, consumer, maxSize, last,
    (ImplicitHeap.card_items _ _).trans size⟩

theorem message_buffer_delivers_twoMessages :
    ∃ (b : MessageBuffer Unit Nat) (sent received rest : List (MessageBufferNode Nat)),
      sent.length = 2 ∧ received.length = 1 ∧ sent = received ++ rest ∧
        b.items = (rest : Multiset (MessageBufferNode Nat)) := by
  obtain ⟨b, sent, received, wakes, run, two, one, strict, _⟩ := MessageBuffer.twoMessages_run
  obtain ⟨_, _, ordered, _⟩ := MessageBuffer.message_buffer_delivers run (by rw [two]; decide)
  obtain ⟨rest, parts, held⟩ := ordered strict rfl
  exact ⟨b, sent, received, rest, two, one, parts, held⟩

theorem message_buffer_takes_twoMessages :
    ∃ b : MessageBuffer Unit Nat, b.items.card = 1 ∧ (b.areNSlotsAvailable 5 2).1 = false ∧
      ∃ result, b.enqueue false 5 ⟨5, 0, 9⟩ 4 (randomTime 0 0 0) = .ok result := by
  obtain ⟨b, sent, received, wakes, run, two, _, _, ordering, consumer, maxSize, last, card⟩ :=
    MessageBuffer.twoMessages_run
  obtain ⟨slots, takes⟩ := MessageBuffer.message_buffer_takes run (by rw [two]; decide)
  refine ⟨b, card, ?_, takes 4 ⟨5, 0, 9⟩ 0 0 0 (by rw [consumer]; rfl) ordering (by decide)
    (by decide) (fun _ _ => by rw [last]; decide)⟩
  refine Bool.eq_false_iff.mpr fun available => ?_
  have full := slots 2 (by rw [two]; decide) available
  rw [card, maxSize] at full
  omega

end ChainSaw
