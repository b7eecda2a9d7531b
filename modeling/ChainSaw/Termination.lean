import ChainSaw.LaneRuns
import ChainSaw.Completeness

set_option autoImplicit false

namespace ChainSaw

open Relations

variable {σ : Type}

namespace Lane

/-- More than any start delay and one cycle for its completion. -/
def fetchedWork : Nat := 2 ^ 31 + 2

/-- A fetch adds four cycles of `fetch_cnt`. -/
def queuedWork : Nat := fetchedWork + 5

def work (l : Lane) : Nat :=
  queuedWork * l.instructionQueue.length + fetchedWork * l.fetchStack.length + l.exeStack.length +
    l.exeCnt.toNat + l.fetchCnt

/-- The lane has nothing to do. -/
def Still (l : Lane) : Prop := l.work = 0

theorem still_iff {l : Lane} (counts : 0 ≤ l.exeCnt) : l.Still ↔
    l.isFree = true ∧ l.contents = [] := by
  have fetched : 0 < fetchedWork := by decide
  have queued : 0 < queuedWork := by decide
  rw [isFree_iff]
  simp only [Still, work, Nat.add_eq_zero_iff, Nat.mul_eq_zero, List.length_eq_zero_iff, contents,
    List.append_eq_nil_iff, Int.toNat_eq_zero]
  constructor
  · rintro ⟨⟨⟨⟨queue, fetch⟩, exe⟩, counter⟩, fetchCnt⟩
    have queue := queue.resolve_left (by omega)
    exact ⟨⟨fetchCnt, by omega, queue, exe⟩, ⟨exe, fetch.resolve_left (by omega)⟩, queue⟩
  · rintro ⟨⟨fetchCnt, counter, queue, exe⟩, ⟨_, fetch⟩, _⟩
    exact ⟨⟨⟨⟨.inr queue, .inr fetch⟩, exe⟩, by omega⟩, fetchCnt⟩

theorem fetch_work (l : Lane) :
    l.fetch.work ≤ l.work ∧ (l.fetchCnt = 0 → l.instructionQueue ≠ [] → l.fetch.work < l.work) := by
  rcases fetch_cases l with ⟨same, idle⟩ | ⟨ins, rest, zero, queue, same⟩
  · rw [same]
    refine ⟨Nat.le_refl _, fun zero full => ?_⟩
    rcases idle with positive | empty
    · omega
    · exact absurd empty full
  · have smaller : l.fetch.work < l.work := by
      rw [same]
      simp only [work, queue, zero, List.length_append, List.length_cons, List.length_nil,
        queuedWork, fetchedWork]
      omega
    exact ⟨Nat.le_of_lt smaller, fun _ _ => smaller⟩

/-- What the start of an instruction sets lies within the bounds of the work. -/
def Bounded (l : Lane) : Prop :=
  0 ≤ l.exeCnt ∧ ∀ ins ∈ l.contents, 0 ≤ l.startDelay ins ∧ l.startDelay ins < 2 ^ 31

theorem updateCounter_work (l : Lane) :
    l.updateCounter.work ≤ l.work ∧
      (0 < l.exeCnt ∨ l.fetchCnt ≠ 0 → l.updateCounter.work < l.work) := by
  simp only [work, updateCounter]
  split <;> omega

/-- The lane only waits for memory: it has nothing left to fetch. -/
def Stalled (l : Lane) : Prop := l.exeCnt < 0 ∧ l.fetchCnt = 0 ∧ l.instructionQueue = []

/-- Every cycle of a lane that has something to do and does not only wait for
memory takes some of its work away. -/
theorem run_work_of {l : Lane} (delays : ∀ ins ∈ l.contents, l.startDelay ins < 2 ^ 31)
    (q : LaneQueues) :
    (l.run q).1.work ≤ l.work ∧ (¬ l.Still → ¬ l.Stalled → (l.run q).1.work < l.work) := by
  have counted := updateCounter_work l
  have shrunk (mid : Lane) (ran : (l.run q).1 = mid.fetch)
      (less : mid.work < l.updateCounter.work) :
      (l.run q).1.work ≤ l.work ∧ (¬ l.Still → ¬ l.Stalled → (l.run q).1.work < l.work) := by
    have fetched := (fetch_work mid).1
    rw [ran]
    exact ⟨by omega, fun _ _ => by omega⟩
  rcases run_cases l q with ⟨ins, rest, completes, ran⟩ | ⟨ins, rest, starts, ran⟩ | ⟨waits, op, ran⟩
  · refine shrunk _ (congrArg Prod.fst ran) ?_
    have stack : l.updateCounter.exeStack = ins :: rest := completes.1
    simp only [work, stack, List.length_cons]
    omega
  · obtain ⟨empty, done, fetchStack, ready⟩ := starts
    refine shrunk _ (congrArg Prod.fst ran) ?_
    have delay := delays ins (by simp [contents, fetchStack])
    have stack : l.updateCounter.exeStack = [] := empty
    have fetch : l.updateCounter.fetchStack = ins :: rest := fetchStack
    have same : l.updateCounter.startDelay ins = l.startDelay ins ∨
        l.updateCounter.startDelay ins = 0 := by
      unfold startDelay
      split
      · simp only [updateCounter]
        split <;> try exact .inl rfl
        exact .inr done
      · exact .inl rfl
    simp only [work, start, stack, fetch, done, List.length_cons, List.length_nil, fetchedWork]
    omega
  · have ran : (l.run q).1 = ({ l.updateCounter with currentOp := op } : Lane).fetch :=
      congrArg Prod.fst ran
    have fetched := fetch_work ({ l.updateCounter with currentOp := op } : Lane)
    rw [← ran] at fetched
    have relabelled : ({ l.updateCounter with currentOp := op } : Lane).work =
        l.updateCounter.work := rfl
    rw [relabelled] at fetched
    refine ⟨by omega, fun moving open' => ?_⟩
    by_cases counting : 0 < l.exeCnt ∨ l.fetchCnt ≠ 0
    · have := counted.2 counting
      omega
    · have zeroFetch : l.fetchCnt = 0 := by omega
      have queue : l.instructionQueue ≠ [] := by
        intro queue
        have notNegative : ¬ l.exeCnt < 0 := fun negative => open' ⟨negative, zeroFetch, queue⟩
        have zeroExe : l.exeCnt = 0 := by omega
        have done := updateCounter_exeCnt_eq_zero.mpr (.inl zeroExe)
        obtain ⟨empty, early⟩ := waits.resolve_left fun unfinished => unfinished done
        have nothing : l.fetchStack = [] := early.resolve_right (by omega)
        refine moving ?_
        simp [Still, work, queue, nothing, empty, zeroExe, zeroFetch]
      have smaller := fetched.2 (by simp [updateCounter, zeroFetch]) queue
      omega

/-- Every cycle of a lane that has something to do takes some of its work away. -/
theorem run_work {l : Lane} (bounded : l.Bounded) (q : LaneQueues) :
    (l.run q).1.work ≤ l.work ∧ (¬ l.Still → (l.run q).1.work < l.work) := by
  obtain ⟨counts, delays⟩ := bounded
  obtain ⟨less, strict⟩ := run_work_of (fun ins member => (delays ins member).2) q
  exact ⟨less, fun moving => strict moving fun stalled => by
    have := stalled.1
    omega⟩

theorem wake_work {l l' : Lane} (woken : Woken l l') : l'.work ≤ l.work := by
  rcases woken with rfl | rfl
  · exact Nat.le_refl _
  · simp only [work, setExeCounter, Int.toNat_zero]
    omega

end Lane

/-- No memory request goes to Ruby, and all delays are non-negative `int32_t`. -/
structure Config.Timed (cfg : Config) : Prop where
  mode : cfg.coreParam.memoryMode ≤ 2
  l1Miss : cfg.laneParam.l1MissLatency < 2 ^ 31
  l2Miss : cfg.laneParam.l2MissLatency < 2 ^ 31
  l3Miss : cfg.laneParam.l3MissLatency < 2 ^ 31
  latency : ∀ op latency, cfg.instructionLlvm op = some latency → latency < 2 ^ 31

theorem toInt32_bounds {x : Nat} (small : x < 2 ^ 31) : 0 ≤ toInt32 x ∧ toInt32 x < 2 ^ 31 := by
  rw [toInt32_of_lt small]
  omega

theorem Placed.startDelay {cfg : Config} (timed : cfg.Timed) {i : Nat} {l : Lane}
    (placed : Placed cfg i l) {ins : Node} (member : ins ∈ l.contents) :
    0 ≤ l.startDelay ins ∧ l.startDelay ins < 2 ^ 31 := by
  have kind := placed.kind
  simp only [Lane.kind, Prod.mk.injEq] at kind
  obtain ⟨_, mode, param⟩ := kind
  have modes := timed.mode
  rw [← mode] at modes
  unfold Lane.startDelay
  split
  · rw [param]
    have one : l.memoryMode = 0 ∨ l.memoryMode = 1 ∨ l.memoryMode = 2 := by omega
    rcases one with selected | selected | selected <;> simp only [selected]
    · exact toInt32_bounds timed.l1Miss
    · exact toInt32_bounds timed.l2Miss
    · exact toInt32_bounds timed.l3Miss
  · obtain ⟨_, _, _, _, inside⟩ := placed.owned ins member
    obtain ⟨v, _, same⟩ := List.mem_map.mp inside
    rw [← same]
    exact toInt32_bounds (cfg.node_latency_lt fun latency => timed.latency _ latency)

/-- The counter of the execute stage never gets stuck below zero. -/
theorem counting_invariant {cfg : Config} (timed : cfg.Timed) :
    LaneInvariant cfg fun i l => Placed cfg i l ∧ 0 ≤ l.exeCnt where
  new := fun i inside => ⟨(placed_invariant cfg).new i inside, by simp [Lane.new]⟩
  run := by
    rintro i l valid ⟨placed, counts⟩
    refine ⟨(placed_invariant cfg).run i l valid placed, ?_⟩
    have counted : 0 ≤ l.updateCounter.exeCnt := by
      simp only [Lane.updateCounter]
      split <;> omega
    unfold Core.cycled
    rcases Lane.run_cases l ⟨[], []⟩ with ⟨ins, rest, _, ran⟩ | ⟨ins, rest, starts, ran⟩ | ⟨_, op, ran⟩
    · rw [ran, Lane.fetch_exeCnt]
      exact counted
    · rw [ran, Lane.fetch_exeCnt]
      have placed' : Placed cfg i l.updateCounter := ⟨placed.kind, placed.owned⟩
      exact (placed'.startDelay timed (by
        have fetched := starts.2.2.1
        simp [Lane.contents, Lane.updateCounter, fetched])).1
    · rw [ran, Lane.fetch_exeCnt]
      exact counted
  wake := fun i l ⟨placed, _⟩ => ⟨(placed_invariant cfg).wake i l placed, Int.le_refl 0⟩
  stall := fun i l stall ⟨placed, counts⟩ => ⟨(placed_invariant cfg).stall i l stall placed, counts⟩
  load := fun plan i l id planned member known ⟨placed, counts⟩ =>
    ⟨(placed_invariant cfg).load plan i l id planned member known placed, counts⟩

/-- The work of the lanes and, for each chain of the input, that of its
instructions and of loading it. -/
def Core.work (c : Core σ) : Nat :=
  (c.lanes.map Lane.work).sum +
    (c.inputChain.map fun ch => Lane.queuedWork * ch.instructionList.length + 1).sum

theorem sum_work_modify {lanes : List Lane} {i : Nat} {l : Lane} (found : lanes[i]? = some l)
    (f : Lane → Lane) :
    ((lanes.modify i f).map Lane.work).sum + l.work = (lanes.map Lane.work).sum + (f l).work := by
  induction lanes generalizing i with
  | nil => simp at found
  | cons head rest ih =>
    cases i with
    | zero =>
      have same : head = l := by simpa using found
      subst same
      simp only [List.modify_zero_cons, List.map_cons, List.sum_cons]
      omega
    | succ i =>
      have tail := ih (i := i) (by simpa using found)
      simp only [List.modify_succ_cons, List.map_cons, List.sum_cons]
      omega

/-- Lane `i` is busy, or all chains of its buffer still wait for others. -/
def Core.Blocked (c : Core σ) (i : Nat) : Prop :=
  ∀ lane scheBuff, c.lanes[i]? = some lane → c.lanePreSchedule[i]? = some scheBuff →
    lane.isFree = true → ∀ id ∈ scheBuff, ¬ c.Ready id

/-- The lane without its stall counter. -/
def Lane.unstalled (l : Lane) : Lane := { l with stall := 0 }

/-- Nothing but counters has changed. -/
structure Unmoved (c c' : Core σ) : Prop where
  lanes : c'.lanes.map Lane.unstalled = c.lanes.map Lane.unstalled
  inputs : c'.inputChain = c.inputChain
  buffers : c'.lanePreSchedule = c.lanePreSchedule
  table : c'.depenTable = c.depenTable
  numChains : c'.numChains = c.numChains

namespace Unmoved

variable {c c' c'' : Core σ}

theorem trans (first : Unmoved c c') (second : Unmoved c' c'') : Unmoved c c'' :=
  ⟨second.lanes.trans first.lanes, second.inputs.trans first.inputs,
    second.buffers.trans first.buffers, second.table.trans first.table,
    second.numChains.trans first.numChains⟩

theorem work (same : Unmoved c c') : c'.work = c.work := by
  have forget : ∀ lanes : List Lane, lanes.map Lane.work = (lanes.map Lane.unstalled).map Lane.work := by
    intro lanes
    rw [List.map_map]
    rfl
  rw [Core.work, Core.work, forget, same.lanes, ← forget, same.inputs]

theorem blocked (same : Unmoved c c') {i : Nat} (blocked : c'.Blocked i) : c.Blocked i := by
  intro lane scheBuff laneAt buffAt free id member ready
  have laneAt' : (c'.lanes.map Lane.unstalled)[i]? = some lane.unstalled := by
    rw [same.lanes, List.getElem?_map, laneAt]
    rfl
  rw [List.getElem?_map] at laneAt'
  obtain ⟨lane', laneAt', unstalled⟩ := Option.map_eq_some_iff.mp laneAt'
  have free' : lane'.isFree = true := by
    change lane'.unstalled.isFree = true
    rw [unstalled]
    exact free
  refine blocked lane' scheBuff laneAt' (by rw [same.buffers, buffAt]) free' id member ?_
  intro s known
  rw [same.table]
  exact ready s (by rw [← same.numChains]; exact known)

theorem stalled (c : Core σ) (i : Nat) : Unmoved c (c.stalled i) := by
  refine ⟨?_, rfl, rfl, rfl, rfl⟩
  apply List.ext_getElem?
  intro j
  rw [List.getElem?_map, List.getElem?_map, Core.stalled, List.getElem?_modify]
  cases c.lanes[j]? with
  | none => rfl
  | some l => by_cases same : i = j <;> simp [same, Lane.unstalled]

end Unmoved

section progress

variable {cfg : Config} {plan : Plan} {begun c c' : Core σ} {done : List Node} {consumed : List Nat}
  (old : Scheduled cfg plan begun c done consumed)
include old

/-- The scheduler either loads a chain on a lane, which takes work away, or the
lane cannot be given one. -/
theorem Scheduled.scheduleLane_work {i : Nat} (returned : c.scheduleLane i = .ok c') :
    c'.work < c.work ∨ (c.Blocked i ∧ Unmoved c c') := by
  obtain ⟨lane, scheBuff, laneAt, buffAt, branch⟩ := scheduleLane_cases returned
  have blocked (stuck : lane.isFree = true → ∀ id ∈ scheBuff, ¬ c.Ready id) : c.Blocked i := by
    intro lane' scheBuff' laneAt' buffAt'
    rw [laneAt] at laneAt'
    rw [buffAt] at buffAt'
    cases laneAt'
    cases buffAt'
    exact stuck
  rcases branch with ⟨busy, rfl⟩ | ⟨_, empty, rfl⟩ | ⟨_, _, waiting, rfl⟩ | ⟨freeId, _, _, _, loaded⟩
  · exact .inr ⟨blocked fun free => by simp [busy] at free, rfl, rfl, rfl, rfl, rfl⟩
  · exact .inr ⟨blocked fun _ => by simp [empty], rfl, rfl, rfl, rfl, rfl⟩
  · exact .inr ⟨blocked fun _ => waiting, Unmoved.stalled c i⟩
  · left
    obtain ⟨ch, found, rfl⟩ := loadChain_ok loaded
    have stalledAt : (c.stalled i).lanes[i]? =
        some { lane with stall := (lane.stall + 1) % 2 ^ 32 } := by
      simp [Core.stalled, laneAt]
    have lanes := sum_work_modify stalledAt (·.loadInstructionQueue ch.instructionList freeId)
    have inputs := ((perm_cons_eraseP found).map
      fun ch => Lane.queuedWork * ch.instructionList.length + 1).sum_eq
    have grown : (({ lane with stall := (lane.stall + 1) % 2 ^ 32 } : Lane).loadInstructionQueue
        ch.instructionList freeId).work =
        ({ lane with stall := (lane.stall + 1) % 2 ^ 32 } : Lane).work +
          Lane.queuedWork * ch.instructionList.length := by
      simp only [Lane.work, Lane.loadInstructionQueue, List.length_append, Nat.mul_add]
      omega
    rw [← (Unmoved.stalled c i).work]
    rw [List.map_cons, List.sum_cons] at inputs
    simp only [Core.work]
    omega

theorem Scheduled.oooScheduler_work (returned : c.oooScheduler = .ok c') :
    c'.work ≤ c.work ∧ (c'.work < c.work ∨ ∀ i < c.lanes.length, c.Blocked i) := by
  have looped := Loops.foldlM_ok_visited
    (fun seen mid => Scheduled cfg plan begun mid done consumed ∧
      (mid.work < c.work ∨ (Unmoved c mid ∧ ∀ i ∈ seen, c.Blocked i)))
    (List.range c.lanes.length) (by
      rintro seen i rest mid next _ ⟨old', sofar⟩ stepped
      refine ⟨old'.scheduleLane stepped, ?_⟩
      have step := old'.scheduleLane_work stepped
      rcases sofar with less | ⟨same, before⟩
      · left
        rcases step with lower | ⟨_, unmoved⟩
        · omega
        · rw [unmoved.work]
          exact less
      · rcases step with lower | ⟨blocked, unmoved⟩
        · left
          rw [← same.work]
          exact lower
        · refine .inr ⟨same.trans unmoved, fun j member => ?_⟩
          rcases List.mem_append.mp member with old | last
          · exact before j old
          · rw [List.mem_singleton.mp last]
            exact same.blocked blocked)
    (b := c) ⟨old, .inr ⟨⟨rfl, rfl, rfl, rfl, rfl⟩, by simp⟩⟩ returned
  rcases looped.2 with less | ⟨same, blocked⟩
  · exact ⟨Nat.le_of_lt less, .inl less⟩
  · exact ⟨Nat.le_of_eq same.work, .inr fun i inside => blocked i (List.mem_range.mpr inside)⟩

/-- When all lanes are empty, an acyclic dependency relation leaves some lane a
chain that waits for nothing. -/
theorem Scheduled.exists_unblocked (acyclic : Acyclic (Depends cfg.graph.maps.unDependencies))
    (all : consumed = done.map (·.cId)) (empty : laneContents c.lanes = [])
    (free : ∀ l ∈ c.lanes, l.isFree = true) (inputs : c.inputChain ≠ []) :
    ∃ i < c.lanes.length, ¬ c.Blocked i := by
  have waiting : c.inputChain.map (·.id) ≠ [] := by simpa using inputs
  obtain ⟨t, member, minimal⟩ := acyclic.exists_minimal waiting
  obtain ⟨scheBuff, inBuffers, inBuffer⟩ := List.mem_flatten.mp (old.buffers.mem_iff.mpr member)
  obtain ⟨i, buffAt⟩ := List.mem_iff_getElem?.mp inBuffers
  have inside : i < c.lanes.length := by
    have bound := (List.getElem?_eq_some_iff.mp buffAt).1
    rw [old.length, ← old.fixed.lanes] at bound
    exact bound
  refine ⟨i, inside, fun blocked => ?_⟩
  have laneAt := List.getElem?_eq_getElem inside
  refine blocked _ scheBuff laneAt buffAt (free _ (List.mem_of_getElem? laneAt)) t inBuffer ?_
  intro s known
  rw [old.table, if_neg]
  rintro ⟨depends, unfinished⟩
  -- chain `s` has been loaded and the lanes are empty, so it has completed
  have gone : s ∉ c.inputChain.map (·.id) := fun present => minimal s present depends
  obtain ⟨v, inChain⟩ := List.exists_mem_of_ne_nil _ (old.full s (cfg.depends_lt depends).1)
  have built : cfg.node s v ∈ inputContents cfg.built :=
    mem_inputContents_built.mpr ⟨s, (cfg.depends_lt depends).1, List.mem_map_of_mem inChain⟩
  have somewhere := old.conserved.mem_iff.mp (List.mem_append_right _ built)
  rw [empty, List.append_nil] at somewhere
  rcases List.mem_append.mp somewhere with completed | waiting
  · rw [all] at unfinished
    exact unfinished (List.mem_map_of_mem (f := (·.cId)) completed)
  · obtain ⟨ch, inInputs, inside'⟩ := List.mem_flatMap.mp waiting
    obtain ⟨j, known', rfl⟩ := List.mem_map.mp (old.inputs.subset inInputs)
    have same : s = j := Config.cId_of_mem inside'
    subst same
    refine gone (List.mem_map.mpr ⟨_, inInputs, ?_⟩)
    exact old.full.chain_id (List.mem_range.mp known')

/-- With nothing in the lanes and no chain to load, the iteration is over. -/
theorem Scheduled.idle_finishes (acyclic : Acyclic (Depends cfg.graph.maps.unDependencies))
    (all : consumed = done.map (·.cId))
    (idle : ∀ l ∈ c.lanes, l.isFree = true ∧ l.contents = [])
    (blocked : ∀ i < c.lanes.length, c.Blocked i) (returned : c.oooScheduler = .ok c') :
    c'.isFinish = true := by
  by_cases empty : c.inputChain = []
  · obtain ⟨empty', same⟩ := old.oooScheduler_nothing empty returned
    rw [isFinish_iff, same]
    exact ⟨empty', fun l member => (idle l member).1⟩
  · have nothing : laneContents c.lanes = [] :=
      List.flatMap_eq_nil_iff.mpr fun l member => (idle l member).2
    obtain ⟨i, inside, open'⟩ := old.exists_unblocked acyclic all nothing
      (fun l member => (idle l member).1) empty
    exact absurd (blocked i inside) open'

end progress

/-- No request is on its way, in the accelerator or in Ruby. -/
structure Unused {system : RubySystem σ} (lawful : system.Lawful) (c : Core σ) : Prop where
  requests : c.queues.memReqQueue = []
  buffer : c.memory.ldstAddrBuffer = []
  system : c.ruby.system = system
  outstanding : c.ruby.outstanding lawful = 0

theorem Placed.requesting {cfg : Config} (timed : cfg.Timed) {i : Nat} {l : Lane}
    (placed : Placed cfg i l) : l.requesting = [] := by
  have mode : l.memoryMode = cfg.coreParam.memoryMode :=
    congrArg (fun kind => kind.2.1) placed.kind
  have modes := timed.mode
  have none : ∀ ins, l.startRequest ins = [] := by
    intro ins
    unfold Lane.startRequest
    rw [if_neg]
    omega
  unfold Lane.requesting
  split
  · rw [none]
    split <;> rfl
  · rfl

section unused

variable {system : RubySystem σ} {lawful : system.Lawful} {c : Core σ}

theorem Unused.sameMemory {c' : Core σ} (unused : Unused lawful c) (same : SameMemory c c') :
    Unused lawful c' :=
  ⟨same.memReqQueue.trans unused.requests, by rw [same.memory, unused.buffer],
    by rw [same.ruby, unused.system], by rw [same.ruby, unused.outstanding]⟩

theorem Unused.queue (unused : Unused lawful c) : c.ruby.queue = [] := by
  have none := congrArg Multiset.card unused.outstanding
  rw [Ruby.outstanding, Multiset.card_add, Multiset.coe_card, Multiset.card_zero] at none
  exact List.length_eq_zero_iff.mp (by omega)

theorem Unused.runOneCycleCore {cfg : Config} (timed : cfg.Timed)
    (placed : Lanes (Placed cfg) c.lanes) (unused : Unused lawful c) :
    Unused lawful c.runOneCycleCore := by
  refine ⟨?_, unused.buffer, unused.system, ?_⟩
  · unfold Core.runOneCycleCore
    rw [Core.runLanes_eq, unused.requests]
    simp only [List.nil_append, List.flatMap_eq_nil_iff]
    intro l member
    obtain ⟨i, at_i⟩ := List.mem_iff_getElem?.mp member
    exact (placed i l at_i).requesting timed
  · exact (Ruby.outstanding_advanceTime lawful unused.system).trans unused.outstanding

theorem Unused.sendMemoryReq (unused : Unused lawful c) :
    ∃ c', c.sendMemoryReq = .ok c' ∧ Unused lawful c' := by
  refine ⟨{ c with queues := { c.queues with memReqQueue := [] } }, ?_, ?_⟩
  · unfold Core.sendMemoryReq
    rw [unused.requests]
    rfl
  · exact ⟨rfl, unused.buffer, unused.system, unused.outstanding⟩

theorem Unused.updateMemExe (unused : Unused lawful c) :
    c.updateMemExe = .ok c := by
  have accessed : c.memory.access c.ruby = (c.memory, c.ruby) := by
    unfold Memory.access
    rw [unused.buffer]
    split <;> rfl
  have received : c.memory.recvResp c.ruby = .ok (c.memory, c.ruby, []) := by
    have same : { c.ruby with queue := [] } = c.ruby := by rw [← unused.queue]
    unfold Memory.recvResp
    rw [accessed]
    simp only [unused.queue, Memory.processMshr, Loops.ok_bind, Loops.pure_eq_ok, same]
  unfold Core.updateMemExe
  rw [received]
  rfl

end unused

/-- A cycle takes work away from the lanes unless all of them have nothing to do. -/
theorem sum_work_cycled {lanes lanes' : List Lane}
    (woken : List.Forall₂ Woken (lanes.map Core.cycled) lanes') (bounded : ∀ l ∈ lanes, l.Bounded) :
    (lanes'.map Lane.work).sum ≤ (lanes.map Lane.work).sum ∧
      ((lanes'.map Lane.work).sum < (lanes.map Lane.work).sum ∨ ∀ l ∈ lanes', l.Still) := by
  induction lanes generalizing lanes' with
  | nil =>
    cases woken
    simp
  | cons l rest ih =>
    cases woken with
    | @cons _ l' _ rest' head tail =>
      have ⟨tailLess, tailStill⟩ := ih tail fun l member => bounded l (by simp [member])
      have ran := Lane.run_work (bounded l (by simp)) ⟨[], []⟩
      have woke : l'.work ≤ (Core.cycled l).work := Lane.wake_work head
      have same : (Core.cycled l).work = (l.run ⟨[], []⟩).1.work := rfl
      simp only [List.map_cons, List.sum_cons, List.forall_mem_cons]
      by_cases still : l.Still
      · have zero : l.work = 0 := still
        refine ⟨by omega, tailStill.imp (by omega) fun rest => ⟨?_, rest⟩⟩
        have : l'.work = 0 := by omega
        exact this
      · have less := ran.2 still
        exact ⟨by omega, .inl (by omega)⟩

section ends

variable {cfg : Config} {plan : Plan} {begun c c' : Core σ} {done : List Node} {finished : Bool}

theorem Running.runACycle_unused (running : Running cfg plan begun c done) (fits : cfg.Fits)
    (timed : cfg.Timed) (placed : Lanes (Placed cfg) c.lanes) {system : RubySystem σ}
    {lawful : system.Lawful} (unused : Unused lawful c) :
    ∃ c' finished, c.runACycle = .ok (c', finished) ∧ Unused lawful c' := by
  obtain ⟨sent, sending, idle⟩ := (unused.runOneCycleCore timed placed).sendMemoryReq
  have waking := idle.updateMemExe
  have afterWake := (running.runOneCycleCore.sendMemoryReq sending).updateMemExe waking
  obtain ⟨released, releasing⟩ := afterWake.updateChains_total fits.chains
  obtain ⟨c', scheduling⟩ := (afterWake.updateChains releasing).1.oooScheduler_total fits.chains
  refine ⟨c', c'.isFinish, ?_, ?_⟩
  · unfold Core.runACycle
    simp only [sending, waking, releasing, scheduling, Loops.ok_bind, Loops.pure_eq_ok]
  · exact (idle.sameMemory (updateChains_sameMemory releasing)).sameMemory
      (oooScheduler_sameMemory scheduling)

/-- Every cycle that does not end the iteration takes work away. -/
theorem Running.work_decreases (running : Running cfg plan begun c done) (timed : cfg.Timed)
    (acyclic : Acyclic (Depends cfg.graph.maps.unDependencies))
    (lanes : Lanes (fun i l => Placed cfg i l ∧ 0 ≤ l.exeCnt) c.lanes)
    (returned : c.runACycle = .ok (c', false)) : c'.work < c.work := by
  obtain ⟨released, woken, inputs, scheduled, scheduling, stops⟩ := running.runACycle_stages returned
  have bounded : ∀ l ∈ c.lanes, l.Bounded := by
    intro l member
    obtain ⟨i, at_i⟩ := List.mem_iff_getElem?.mp member
    obtain ⟨placed, counts⟩ := lanes i l at_i
    exact ⟨counts, fun ins held => placed.startDelay timed held⟩
  have inv := counting_invariant timed
  have lanes' := inv.woken woken (inv.cycled running.lanes lanes)
  obtain ⟨cycled, allStill⟩ := sum_work_cycled woken bounded
  obtain ⟨scheduledLess, progress⟩ := scheduled.oooScheduler_work scheduling
  have before : released.work ≤ c.work ∧
      (released.work < c.work ∨ ∀ l ∈ released.lanes, l.Still) := by
    simp only [Core.work, inputs]
    exact ⟨by omega, allStill.imp (fun less => by omega) id⟩
  by_contra stuck
  have still := before.2.resolve_left (by omega)
  have blocked := progress.resolve_left (by omega)
  have idle : ∀ l ∈ released.lanes, l.isFree = true ∧ l.contents = [] := by
    intro l member
    obtain ⟨i, at_i⟩ := List.mem_iff_getElem?.mp member
    exact (Lane.still_iff (lanes' i l at_i).2).mp (still l member)
  have finish := scheduled.idle_finishes acyclic rfl idle blocked scheduling
  rw [← stops] at finish
  cases finish

end ends

theorem Reach.unused {cfg : Config} (timed : cfg.Timed) {system : RubySystem σ}
    {lawful : system.Lawful} {Cycle : Core σ → Prop} {begun c : Core σ} {done : List Node}
    {running : Bool} (fits : cfg.Fits)
    (reach : Reach cfg (Drained lawful) Cycle begun c done running) :
    (c.queues.memReqQueue = [] ∧ c.memory.ldstAddrBuffer = []) ∧
      (running = true → Unused lawful c) := by
  induction reach with
  | boot ruby => exact ⟨⟨rfl, rfl⟩, by simp⟩
  | begin n ruby earlier drained returned ih =>
    obtain ⟨_, _, _, _, rfl⟩ := (earlier.idle.withRuby ruby).beginIteration_ok returned
    exact ⟨ih.1, fun _ => ⟨ih.1.1, ih.1.2, drained.1, drained.2⟩⟩
  | @cycle begun c c' done finished earlier _ returned ih =>
    obtain ⟨plan, running⟩ := earlier.running
    obtain ⟨_, _, returned', unused⟩ :=
      running.runACycle_unused fits timed earlier.placed (ih.2 rfl)
    rw [returned] at returned'
    cases returned'
    exact ⟨⟨unused.requests, unused.buffer⟩, fun _ => unused⟩

/-- From every state of an iteration the cycle loop comes to its end: each cycle
returns, and the work left bounds the number of cycles. -/
theorem accelerator_loop_ends {cfg : Config} (fits : cfg.Fits) (timed : cfg.Timed)
    (acyclic : Acyclic (Depends cfg.graph.maps.unDependencies)) {system : RubySystem σ}
    {lawful : system.Lawful} {begun c : Core σ} {done : List Node}
    (run : Reach cfg (Drained lawful) (fun _ => True) begun c done true) :
    ∃ fuel c' done', c.runCycles fuel done = .ok (c', done', true) := by
  induction bound : c.work using Nat.strongRecOn generalizing c done with
  | _ work ih =>
    obtain ⟨plan, running⟩ := run.running
    obtain ⟨c', finished, returned, _⟩ :=
      running.runACycle_unused fits timed run.placed ((run.unused timed fits).2 rfl)
    cases finished with
    | true =>
      refine ⟨1, c', done ++ c.completions, ?_⟩
      unfold Core.runCycles
      rw [returned]
      rfl
    | false =>
      have less := running.work_decreases timed acyclic (run.lanes (counting_invariant timed)) returned
      obtain ⟨fuel, last, all, ended⟩ := ih c'.work (by omega) (run.cycle trivial returned) rfl
      refine ⟨fuel + 1, last, all, ?_⟩
      unfold Core.runCycles
      rw [returned]
      exact ended

/-- The start block, a chain of two instructions and a chain that waits for it. -/
def threeChains : BoostGraph where
  vertices := [⟨0, ⟨.bb, 0⟩, 0, .bb⟩, ⟨1, ⟨.other "FMul", 1⟩, 1, .other "FMul"⟩,
    ⟨2, ⟨.load, 2⟩, 1, .load⟩, ⟨3, ⟨.other "Add", 3⟩, 2, .other "Add"⟩]
  edges := [(0, 1), (1, 2), (2, 3)]
  bounded := by decide

theorem accelerator_loop_ends_threeChains :
    ∃ (cfg : Config) (begun c : Core (List Nat)) (done : List Node),
      cfg.dirtyGraph = threeChains ∧ cfg.Fits ∧ cfg.Timed ∧
      Acyclic (Depends cfg.graph.maps.unDependencies) ∧
      Reach cfg (Drained fifoRuby_lawful) (fun _ => True) begun c done true ∧
      ∃ fuel c' done', c.runCycles fuel done = .ok (c', done', true) := by
  have tested : firstIteration ⟨0, 0, 0, 3⟩ sampleLlvm threeChains 2 ⟨2, 1⟩
      ⟨1, 25, 100, 2, 2⟩ (fun _ _ => none) ⟨fifoRuby, [], []⟩ 3 (fun graph _ _ _ =>
        decide (graph.chains = [[0], [1, 2], [3]]) && (List.range 3).all fun s =>
          (List.range 3).all fun t => decide (Depends graph.maps.unDependencies s t → s < t)) =
      true := by
    decide +kernel
  obtain ⟨graph, read, begun, c, done, facts, runs⟩ := exists_run tested
  obtain ⟨chains, forward⟩ := Bool.and_eq_true_iff.mp facts
  have chains := of_decide_eq_true chains
  let cfg : Config := ⟨⟨0, 0, 0, 3⟩, sampleLlvm, threeChains, graph, read, 2, ⟨2, 1⟩,
    ⟨1, 25, 100, 2, 2⟩, fun _ _ => none⟩
  have count : cfg.numChains = 3 := congrArg List.length chains
  have fits : cfg.Fits := by
    refine ⟨?_, by rw [count]; decide, by simp [cfg], by simp [cfg, maxNumChain]⟩
    rw [Config.NonEmpty, count]
    change ∀ i < 3, graph.chains.getD i [] ≠ []
    rw [chains]
    decide
  have timed : cfg.Timed := by
    exact ⟨by simp [cfg], by simp [cfg], by simp [cfg], by simp [cfg], fun _ _ => sampleLlvm_lt⟩
  have acyclic : Acyclic (Depends cfg.graph.maps.unDependencies) := by
    refine Acyclic.of_lt id fun s t depends => ?_
    have known := cfg.depends_lt depends
    rw [count] at known
    have row := List.all_eq_true.mp forward s (List.mem_range.mpr known.1)
    exact of_decide_eq_true (List.all_eq_true.mp row t (List.mem_range.mpr known.2)) depends
  have run := runs (Drained fifoRuby_lawful) (fun _ => True) ⟨rfl, rfl⟩ (fun _ _ _ => trivial)
  exact ⟨cfg, begun, c, done, rfl, fits, timed, acyclic, run,
    accelerator_loop_ends fits timed acyclic run⟩

end ChainSaw
