import ChainSaw.Termination
import ChainSaw.Wakeup
import ChainSaw.Lib.Progress
import Mathlib.Data.Prod.Lex

set_option autoImplicit false

namespace ChainSaw

open Relations Progress

variable {σ : Type}

/-- With nothing pending Ruby takes any request, and it comes back with a
response after finitely many cycles while a request is pending. -/
structure RubySystem.Responsive {system : RubySystem σ} (lawful : system.Lawful) : Prop where
  ready : ∀ state addr, lawful.pending state = 0 → system.isReady state addr = true
  answers : ∀ state, lawful.pending state ≠ 0 →
    Eventually (fun state => (system.advanceTime state).1)
      (fun state => (system.advanceTime state).2 ≠ []) state

theorem fifoRuby_responsive : RubySystem.Responsive fifoRuby_lawful where
  ready := by
    intro held addr none
    have empty : held = [] := (Multiset.coe_eq_zero held).mp none
    simp [fifoRuby, empty]
  answers := by
    intro held some
    refine .now ?_
    cases held with
    | nil => exact absurd rfl some
    | cons addr held => simp [fifoRuby]

theorem Placed.startDelay_bounds {cfg : Config} (mode : cfg.RubyMode) {i : Nat} {l : Lane}
    (placed : Placed cfg i l) {ins : Node} (member : ins ∈ l.contents) :
    -1 ≤ l.startDelay ins ∧ l.startDelay ins < 2 ^ 31 := by
  have memoryMode : l.memoryMode = 3 :=
    (congrArg (fun kind => kind.2.1) placed.kind).trans mode.mode
  unfold Lane.startDelay
  cases isMem : ins.type.isMem with
  | true => simp [memoryMode]
  | false =>
    obtain ⟨_, _, _, _, inside⟩ := placed.owned ins member
    obtain ⟨v, _, same⟩ := List.mem_map.mp inside
    have small : ins.latency < 2 ^ 31 := by
      rw [← same] at isMem ⊢
      exact cfg.node_latency_lt fun latency => mode.latency _ latency isMem
    have := toInt32_bounds small
    simp only [Bool.false_eq_true, ↓reduceIte]
    omega

/-- The counter of the execute stage is never below the mark of a request. -/
theorem stalling_invariant {cfg : Config} (mode : cfg.RubyMode) :
    LaneInvariant cfg fun i l => Placed cfg i l ∧ -1 ≤ l.exeCnt where
  new := fun i inside => ⟨(placed_invariant cfg).new i inside, by simp [Lane.new]⟩
  run := by
    rintro i l valid ⟨placed, counts⟩
    refine ⟨(placed_invariant cfg).run i l valid placed, ?_⟩
    have counted : -1 ≤ l.updateCounter.exeCnt := by
      simp only [Lane.updateCounter]
      split <;> omega
    unfold Core.cycled
    rcases Lane.run_cases l ⟨[], []⟩ with ⟨ins, rest, _, ran⟩ | ⟨ins, rest, starts, ran⟩ | ⟨_, op, ran⟩
    · rw [ran, Lane.fetch_exeCnt]
      exact counted
    · rw [ran, Lane.fetch_exeCnt]
      have placed' : Placed cfg i l.updateCounter := ⟨placed.kind, placed.owned⟩
      have fetched := starts.2.2.1
      exact (placed'.startDelay_bounds mode (by
        simp [Lane.contents, Lane.updateCounter, fetched])).1
    · rw [ran, Lane.fetch_exeCnt]
      exact counted
  wake := fun i l ⟨placed, _⟩ => ⟨(placed_invariant cfg).wake i l placed, by simp [Lane.setExeCounter]⟩
  stall := fun i l stall ⟨placed, counts⟩ => ⟨(placed_invariant cfg).stall i l stall placed, counts⟩
  load := fun plan i l id planned member known ⟨placed, counts⟩ =>
    ⟨(placed_invariant cfg).load plan i l id planned member known placed, counts⟩

/-- A lane that posts a request makes progress. -/
theorem requesting_cases (l : Lane) :
    l.requesting = [] ∨ (l.requesting.length ≤ 1 ∧ ¬l.Still ∧ ¬l.Stalled) := by
  rcases Lane.run_cases l ⟨[], []⟩ with ⟨ins, rest, completes, _⟩ | ⟨ins, rest, starts, _⟩ |
    ⟨waits, _⟩
  · exact .inl (Lane.requesting_eq_nil (.inr (by simp [completes.1])))
  · right
    rw [Lane.requesting_of_starts starts]
    obtain ⟨_, done, fetched, _⟩ := starts
    refine ⟨?_, ?_, ?_⟩
    · unfold Lane.startRequest
      split <;> simp
    · simp [Lane.Still, Lane.work, fetched, Lane.fetchedWork]
    · rintro ⟨negative, _⟩
      have := Lane.updateCounter_exeCnt_eq_zero.mp done
      omega
  · exact .inl (Lane.requesting_eq_nil (.inl waits))

/-- Twice the work of the lanes, and one for each request they wait for. -/
def rubyWork (lanes : List Lane) : Nat := 2 * (lanes.map Lane.work).sum + (waitingOn lanes).length

theorem rubyWork_cons (l : Lane) (lanes : List Lane) :
    rubyWork (l :: lanes) = 2 * l.work + l.waitingOn.toList.length + rubyWork lanes := by
  simp only [rubyWork, waitingOn, List.map_cons, List.sum_cons, List.filterMap_cons]
  cases l.waitingOn <;> simp <;> omega

/-- A cycle takes something away unless all lanes are done or wait for memory. -/
theorem rubyWork_cycled {cfg : Config} (mode : cfg.RubyMode) {lanes : List Lane}
    (placed : ∀ l ∈ lanes, ∃ i, Placed cfg i l) :
    rubyWork (lanes.map Core.cycled) ≤ rubyWork lanes ∧
      (rubyWork (lanes.map Core.cycled) < rubyWork lanes ∨ ∀ l ∈ lanes, l.Still ∨ l.Stalled) := by
  induction lanes with
  | nil => simp
  | cons l rest ih =>
    obtain ⟨i, here⟩ := placed l (by simp)
    obtain ⟨tailLess, tailResting⟩ := ih fun l member => placed l (by simp [member])
    have posted := congrArg List.length (cycled_waitingOn mode here)
    rw [List.length_append, List.length_map] at posted
    have ran : (Core.cycled l).work ≤ l.work ∧
        (¬l.Still → ¬l.Stalled → (Core.cycled l).work < l.work) :=
      Lane.run_work_of (fun ins member => (here.startDelay_bounds mode member).2) ⟨[], []⟩
    have requests := requesting_cases l
    rw [List.map_cons, rubyWork_cons, rubyWork_cons, List.forall_mem_cons]
    by_cases resting : l.Still ∨ l.Stalled
    · have none : l.requesting = [] := by
        refine requests.resolve_right fun ⟨_, moving, open'⟩ => ?_
        exact resting.elim moving open'
      rw [none, List.length_nil] at posted
      exact ⟨by omega, tailResting.imp (by omega) fun rest => ⟨resting, rest⟩⟩
    · have less := ran.2 (fun still => resting (.inl still)) (fun stalled => resting (.inr stalled))
      have few : l.requesting.length ≤ 1 := by
        rcases requests with none | ⟨few, _⟩
        · simp [none]
        · exact few
      exact ⟨by omega, .inl (by omega)⟩

theorem sum_work_woken {lanes lanes' : List Lane} (woken : List.Forall₂ Woken lanes lanes') :
    (lanes'.map Lane.work).sum ≤ (lanes.map Lane.work).sum := by
  induction woken with
  | nil => simp
  | cons head _ ih =>
    have woke := Lane.wake_work head
    simp only [List.map_cons, List.sum_cons]
    omega

/-- A lane that rests after a cycle is done or waits for memory. -/
theorem cycled_resting {cfg : Config} (mode : cfg.RubyMode) {i : Nat} {l : Lane}
    (placed : Placed cfg i l) (counts : -1 ≤ l.exeCnt) (valid : l.Valid)
    (resting : l.Still ∨ l.Stalled) :
    (Core.cycled l).Still ∨ ∃ n, (Core.cycled l).waitingOn = some n := by
  rcases resting with still | stalled
  · left
    have ran : (Core.cycled l).work ≤ l.work :=
      (Lane.run_work_of (fun ins member => (placed.startDelay_bounds mode member).2) ⟨[], []⟩).1
    have none : l.work = 0 := still
    have : (Core.cycled l).work = 0 := by omega
    exact this
  · right
    have stack : l.exeStack ≠ [] := valid.busy (by have := stalled.1; omega)
    obtain ⟨ins, rest, stack⟩ := List.exists_cons_of_ne_nil stack
    have waiting : l.waitingOn = some ins.oldId := by
      rw [Lane.waitingOn_eq_some]
      have := stalled.1
      exact ⟨by omega, by simp [stack]⟩
    have kept := cycled_waitingOn mode placed
    rw [waiting] at kept
    exact ⟨ins.oldId, Option.mem_toList.mp (by rw [kept]; simp)⟩

namespace Memory

/-- The requests that have not been sent to Ruby. -/
def unissued (m : Memory) : Nat := m.ldstAddrBuffer.countP fun req => !req.isIssue

theorem Answers.length {buffer buffer' answered : List MemRequest} {queue : List Nat}
    (answers : Answers buffer queue answered buffer') : answered.length = queue.length := by
  induction answers with
  | nil => rfl
  | cons _ _ _ ih => simp [ih]

theorem Answers.silent {buffer buffer' answered : List MemRequest}
    (answers : Answers buffer [] answered buffer') : answered = [] ∧ buffer' = buffer := by
  cases answers
  exact ⟨rfl, rfl⟩

theorem issueFirst_none {r : Ruby σ} {buffer : List MemRequest}
    (notFound : issueFirst r buffer = none) :
    ∀ req ∈ buffer, r.isReady req.line = true → req.isIssue = true := by
  induction buffer with
  | nil => simp
  | cons head rest ih =>
    unfold issueFirst at notFound
    split at notFound
    · cases notFound
    · rename_i skipped
      rw [Option.map_eq_none_iff] at notFound
      refine List.forall_mem_cons.mpr ⟨fun ready => ?_, ih notFound⟩
      by_contra fresh
      exact skipped ⟨ready, by simpa using fresh⟩

/-- `access` sends one more request, or it finds none that it can send. -/
theorem access_cases (m : Memory) (r : Ruby σ) :
    (m.access r).1.unissued + 1 = m.unissued ∨
      (m.access r = (m, r) ∧
        (m.memReqStack = 0 ∨ ∀ req ∈ m.ldstAddrBuffer, r.isReady req.line = true → req.isIssue = true)) := by
  unfold access
  split
  · split
    · rename_i found
      left
      obtain ⟨before, after, whole, rfl, fresh, _⟩ := issueFirst_some found
      simp only [unissued, whole, List.countP_append, List.countP_cons, fresh]
      simp
      omega
    · rename_i notFound
      exact .inr ⟨rfl, .inr (issueFirst_none notFound)⟩
  · rename_i full
    exact .inr ⟨rfl, .inl (by simpa using full)⟩

/-- With nothing pending in a Ruby that answers, `access` sends a request if the
buffer holds one. -/
theorem Consistent.access_issues {system : RubySystem σ} {lawful : system.Lawful}
    (responsive : RubySystem.Responsive lawful) {m : Memory} {r : Ruby σ} (same : r.system = system)
    (valid : m.Consistent (r.outstanding lawful)) (none : r.outstanding lawful = 0)
    (silent : ¬ (m.access r).1.unissued + 1 = m.unissued) :
    m.ldstAddrBuffer = [] := by
  obtain ⟨_, stuck⟩ := (access_cases m r).resolve_left silent
  have noneIssued : m.issued = [] := by
    have lines := valid.lines
    rw [none, Multiset.coe_eq_zero] at lines
    exact List.map_eq_nil_iff.mp lines
  have room : m.memReqStack ≠ 0 := by
    have free := valid.free
    rw [noneIssued, List.length_nil, memMshrSize] at free
    omega
  have ready : ∀ addr, r.isReady addr = true := by
    intro addr
    unfold Ruby.isReady
    rw [same]
    refine responsive.ready r.state addr ?_
    exact Multiset.le_zero.mp (none ▸ Multiset.le_add_right _ _)
  refine List.eq_nil_iff_forall_not_mem.mpr fun req member => ?_
  have issued := stuck.resolve_left room req member (ready _)
  have : req ∈ m.issued := List.mem_filter.mpr ⟨member, issued⟩
  rw [noneIssued] at this
  cases this

end Memory

section cycle

variable {cfg : Config} {system : RubySystem σ} {lawful : system.Lawful} {c c' : Core σ}

/-- Every response ends the wait of one lane. Without a response nothing changes
but what `access` does. -/
theorem Agrees.updateMemExe_waiting (agrees : Agrees cfg (c.ruby.outstanding lawful) c)
    (same : c.ruby.system = system) (sent : c.queues.memReqQueue = [])
    (agrees' : Agrees cfg (c'.ruby.outstanding lawful) c') (waking : c.updateMemExe = .ok c') :
    (waitingOn c.lanes).length =
        (c.memory.access c.ruby).2.queue.length + (waitingOn c'.lanes).length ∧
      ((c.memory.access c.ruby).2.queue = [] → c'.lanes = c.lanes ∧
        c'.memory.ldstAddrBuffer = (c.memory.access c.ruby).1.ldstAddrBuffer ∧
        c'.ruby = { (c.memory.access c.ruby).2 with queue := [] }) := by
  obtain ⟨memory, answered, received, answers, _⟩ := agrees.consistent.recvResp lawful same
  obtain ⟨⟨_, _, _⟩, received', waking⟩ := Loops.bind_eq_ok.mp waking
  rw [received] at received'
  cases received'
  obtain ⟨lanes, looped, waking⟩ := Loops.bind_eq_ok.mp waking
  cases waking
  constructor
  · have before := agrees.waiting.length_eq
    rw [sent, List.map_nil, List.append_nil, ← MshrRun.access_nodeids c.memory c.ruby] at before
    have after : (waitingOn lanes).length = memory.ldstAddrBuffer.length := by
      simpa [sent] using agrees'.waiting.length_eq
    have moved := answers.perm.length_eq
    rw [List.length_append, answers.length] at moved
    rw [List.length_map] at before
    dsimp only
    omega
  · intro silent
    rw [silent] at answers
    obtain ⟨none, buffer⟩ := answers.silent
    rw [none] at looped
    cases looped
    exact ⟨rfl, buffer, rfl⟩

/-- The core of `c` after its requests have been sent, and before the scheduler. -/
structure Stages (cfg : Config) (lawful : system.Lawful) (plan : Plan) (begun c : Core σ)
    (done : List Node) (sent released : Core σ) : Prop where
  lanes : sent.lanes = c.lanes.map Core.cycled
  inputs : sent.inputChain = c.inputChain
  ruby : sent.ruby = c.ruby.advanceTime
  system : sent.ruby.system = system
  unsent : c.lanes.flatMap Lane.requesting = [] → sent.memory = c.memory
  agrees : Agrees cfg (sent.ruby.outstanding lawful) sent
  queue : sent.queues.memReqQueue = []
  woken : List.Forall₂ Woken sent.lanes released.lanes
  kept : released.inputChain = sent.inputChain
  responses : (waitingOn sent.lanes).length =
    (sent.memory.access sent.ruby).2.queue.length + (waitingOn released.lanes).length
  silent : (sent.memory.access sent.ruby).2.queue = [] → released.lanes = sent.lanes ∧
    released.memory.ldstAddrBuffer = (sent.memory.access sent.ruby).1.ldstAddrBuffer ∧
    released.ruby = { (sent.memory.access sent.ruby).2 with queue := [] }
  scheduled : Scheduled cfg plan begun released (done ++ c.completions)
    ((done ++ c.completions).map (·.cId))

theorem Settled.stages {plan : Plan} {begun : Core σ} {done : List Node} (mode : cfg.RubyMode)
    (running : Running cfg plan begun c done) (settled : Settled cfg lawful c) {finished : Bool}
    (returned : c.runACycle = .ok (c', finished)) :
    ∃ sent released, Stages cfg lawful plan begun c done sent released ∧
      released.oooScheduler = .ok c' ∧ finished = c'.isFinish := by
  obtain ⟨sent, woken, released, sending, waking, releasing, scheduling, stops⟩ :=
    runACycle_ok returned
  have afterRun := settled.agrees.runOneCycleCore mode running.lanes settled.sent
  obtain ⟨_, sending', afterSend, queue, ruby, _⟩ := afterRun.sendMemoryReq mode
    (runOneCycleCore_traced settled.agrees.placed settled.sent settled.traced)
  rw [sending] at sending'
  cases sending'
  have outstanding : sent.ruby.outstanding lawful = c.ruby.outstanding lawful := by
    rw [ruby]
    exact Ruby.outstanding_advanceTime lawful settled.system
  rw [← outstanding] at afterSend
  have sameSystem : sent.ruby.system = system := by
    rw [ruby]
    exact settled.system
  obtain ⟨_, _, _, _, _, waking', _, afterWake, _⟩ := afterSend.updateMemExe mode sameSystem queue
  rw [waking] at waking'
  cases waking'
  obtain ⟨responses, silent⟩ := afterSend.updateMemExe_waiting sameSystem queue afterWake waking
  have scheduled := (running.runOneCycleCore.sendMemoryReq sending).updateMemExe waking
  have scheduled' := (scheduled.updateChains releasing).1
  have sameMemory := updateChains_sameMemory releasing
  have sameLanes : released.lanes = woken.lanes ∧ released.inputChain = woken.inputChain := by
    obtain ⟨_, _, rfl⟩ := updateChains_ok scheduled.un (funext₂ scheduled.table) releasing
    exact ⟨rfl, rfl⟩
  have lanes : sent.lanes = c.lanes.map Core.cycled ∧ sent.inputChain = c.inputChain := by
    obtain ⟨_, _, rfl⟩ := sendMemoryReq_ok sending
    exact ⟨runOneCycleCore_lanes c, rfl⟩
  have woke : List.Forall₂ Woken sent.lanes woken.lanes ∧ woken.inputChain = sent.inputChain := by
    obtain ⟨_, _, _, rfl, woke⟩ := updateMemExe_ok waking
    exact ⟨woke, rfl⟩
  have unsent (none : c.lanes.flatMap Lane.requesting = []) : sent.memory = c.memory := by
    have noQueue : c.runOneCycleCore.queues.memReqQueue = [] := by
      unfold Core.runOneCycleCore
      rw [Core.runLanes_eq, settled.sent]
      exact none
    unfold Core.sendMemoryReq at sending
    rw [noQueue] at sending
    cases sending
    rfl
  rw [← sameLanes.1] at woke responses silent
  rw [← sameMemory.memory, ← sameMemory.ruby] at silent
  exact ⟨sent, released, ⟨lanes.1, lanes.2, ruby, sameSystem, unsent, afterSend, queue, woke.1,
    sameLanes.2.trans woke.2, responses, silent, scheduled'⟩, scheduling, stops⟩

/-- The work of the core with one for each request a lane waits for, and the
requests that have still to be sent. -/
def Core.rubyRank (c : Core σ) : Nat × Nat :=
  (2 * c.work + (waitingOn c.lanes).length, c.memory.unissued)

theorem rubyRank_fst (c : Core σ) : c.rubyRank.1 = rubyWork c.lanes +
    2 * (c.inputChain.map fun ch => Lane.queuedWork * ch.instructionList.length + 1).sum := by
  simp only [Core.rubyRank, Core.work, rubyWork]
  omega

variable {plan : Plan} {begun sent released : Core σ} {done : List Node}

/-- The rank falls with every lane that is not at rest, every response and every
chain that is loaded. -/
theorem Stages.rank (mode : cfg.RubyMode)
    (stages : Stages cfg lawful plan begun c done sent released)
    (placed : Lanes (Placed cfg) c.lanes) (scheduling : released.oooScheduler = .ok c') :
    c'.rubyRank.1 < c.rubyRank.1 ∨ (c'.rubyRank.1 = c.rubyRank.1 ∧
      (∀ l ∈ c.lanes, l.Still ∨ l.Stalled) ∧ (sent.memory.access sent.ruby).2.queue = [] ∧
      ∀ i < released.lanes.length, released.Blocked i) := by
  have inLanes : ∀ l ∈ c.lanes, ∃ i, Placed cfg i l := by
    intro l member
    obtain ⟨i, at_i⟩ := List.mem_iff_getElem?.mp member
    exact ⟨i, placed i l at_i⟩
  obtain ⟨cycled, resting⟩ := rubyWork_cycled mode inLanes
  obtain ⟨scheduledLess, blocked⟩ := stages.scheduled.oooScheduler_work scheduling
  have waiting : (waitingOn c'.lanes).length = (waitingOn released.lanes).length := by
    have same := oooScheduler_map (g := Lane.waitingOn) (fun _ _ => rfl) (fun _ _ _ => rfl) scheduling
    have ids : ∀ lanes : List Lane, waitingOn lanes = (lanes.map Lane.waitingOn).filterMap id := by
      intro lanes
      rw [List.filterMap_map]
      rfl
    rw [ids, same, ← ids]
  have woke := sum_work_woken stages.woken
  have responses := stages.responses
  have before := rubyRank_fst c
  have after : c'.rubyRank.1 + 2 * released.work = 2 * c'.work + released.rubyRank.1 := by
    simp only [Core.rubyRank, waiting]
    omega
  have middle := rubyRank_fst released
  rw [stages.kept, stages.inputs] at middle
  rw [← stages.lanes] at cycled resting
  simp only [rubyWork] at before middle cycled resting
  by_cases loaded : c'.work < released.work
  · exact .inl (by omega)
  · by_cases answered : (sent.memory.access sent.ruby).2.queue.length = 0
    · rcases resting with moved | resting
      · exact .inl (by omega)
      · by_cases equal : c'.rubyRank.1 = c.rubyRank.1
        · exact .inr ⟨equal, resting, List.length_eq_zero_iff.mp answered, blocked.resolve_left loaded⟩
        · exact .inl (by omega)
    · exact .inl (by omega)

theorem requesting_resting {lanes : List Lane} (resting : ∀ l ∈ lanes, l.Still ∨ l.Stalled) :
    lanes.flatMap Lane.requesting = [] := by
  refine List.flatMap_eq_nil_iff.mpr fun l member => ?_
  refine (requesting_cases l).resolve_right fun ⟨_, moving, open'⟩ => ?_
  exact (resting l member).elim moving open'

/-- The lanes are empty once none of them waits for memory or moves. -/
theorem Stages.idle (mode : cfg.RubyMode)
    (stages : Stages cfg lawful plan begun c done sent released) (valid : ∀ l ∈ c.lanes, l.Valid)
    (lanes : Lanes (fun i l => Placed cfg i l ∧ -1 ≤ l.exeCnt) c.lanes)
    (resting : ∀ l ∈ c.lanes, l.Still ∨ l.Stalled) (none : waitingOn sent.lanes = []) :
    ∀ l ∈ sent.lanes, l.isFree = true ∧ l.contents = [] := by
  have inv := stalling_invariant mode
  have lanes' := inv.cycled valid lanes
  rw [stages.lanes] at none ⊢
  intro l member
  have awake : l.waitingOn = .none := List.filterMap_eq_nil_iff.mp none l member
  obtain ⟨before, inside, rfl⟩ := List.mem_map.mp member
  obtain ⟨i, at_i⟩ := List.mem_iff_getElem?.mp inside
  obtain ⟨placed, counts⟩ := lanes i before at_i
  have still : (Core.cycled before).Still := by
    rcases cycled_resting mode placed counts (valid before inside) (resting before inside) with
      still | ⟨n, waits⟩
    · exact still
    · rw [awake] at waits
      cases waits
  obtain ⟨j, at_j⟩ := List.mem_iff_getElem?.mp member
  refine (Lane.still_iff ?_).mp still
  by_contra negative
  have counter : (Core.cycled before).exeCnt = -1 := by
    have := (lanes' j _ at_j).2
    omega
  have busy := ((valid before inside).run ⟨[], []⟩).busy (by
    change (Core.cycled before).exeCnt ≠ 0
    omega)
  obtain ⟨ins, rest, stack⟩ := List.exists_cons_of_ne_nil busy
  have waits : (Core.cycled before).waitingOn = some ins.oldId :=
    Lane.waitingOn_eq_some.mpr ⟨counter, by
      change (before.run ⟨[], []⟩).1.exeStack.head?.map (·.oldId) = _
      simp [stack]⟩
  rw [awake] at waits
  cases waits

/-- A cycle that does not end the iteration takes something away, or Ruby has
still to answer and nothing but its time has passed. -/
theorem Settled.turn (mode : cfg.RubyMode)
    (acyclic : Acyclic (Depends cfg.graph.maps.unDependencies))
    (responsive : RubySystem.Responsive lawful) (running : Running cfg plan begun c done)
    (settled : Settled cfg lawful c)
    (lanes : Lanes (fun i l => Placed cfg i l ∧ -1 ≤ l.exeCnt) c.lanes)
    (returned : c.runACycle = .ok (c', false)) :
    Prod.Lex (· < ·) (· < ·) c'.rubyRank c.rubyRank ∨
      (c'.rubyRank = c.rubyRank ∧ c'.ruby.state = (system.advanceTime c.ruby.state).1 ∧
        (system.advanceTime c.ruby.state).2 = [] ∧ lawful.pending c.ruby.state ≠ 0) := by
  obtain ⟨sent, released, stages, scheduling, stops⟩ := settled.stages mode running returned
  have same := oooScheduler_sameMemory scheduling
  rcases stages.rank mode (fun i l at_i => (lanes i l at_i).1) scheduling with
    less | ⟨equal, resting, queue, blocked⟩
  · exact .inl (Prod.lex_def.mpr (.inl less))
  have sameMemory := stages.unsent (requesting_resting resting)
  obtain ⟨sameLanes, buffer, ruby⟩ := stages.silent queue
  have unissued : c'.memory.unissued = (sent.memory.access sent.ruby).1.unissued := by
    rw [same.memory, Memory.unissued, buffer]
    rfl
  by_cases issued : (sent.memory.access sent.ruby).1.unissued + 1 = sent.memory.unissued
  · left
    refine Prod.lex_def.mpr (.inr ⟨equal, ?_⟩)
    change c'.memory.unissued < c.memory.unissued
    rw [unissued, ← sameMemory]
    omega
  · obtain ⟨kept, _⟩ := (Memory.access_cases sent.memory sent.ruby).resolve_left issued
    rw [kept] at queue ruby unissued
    have ruby : c'.ruby.state = sent.ruby.state := by rw [same.ruby, ruby]
    rw [stages.ruby] at queue ruby
    obtain ⟨empty, silent⟩ := List.append_eq_nil_iff.mp queue
    refine .inr ⟨Prod.ext equal (unissued.trans (congrArg Memory.unissued sameMemory)), ?_, ?_, ?_⟩
    · rw [ruby, ← settled.system]
      rfl
    · rw [← settled.system]
      exact silent
    · -- otherwise the buffer is empty, so no lane waits and the iteration is over
      intro none
      have drained : sent.ruby.outstanding lawful = 0 := by
        rw [stages.ruby, Ruby.outstanding_advanceTime lawful settled.system]
        simp [Ruby.outstanding, none, empty]
      have nothing := stages.agrees.consistent.access_issues responsive stages.system drained issued
      have noneWaits : waitingOn sent.lanes = [] := by
        have waiting := stages.agrees.waiting
        rw [nothing, stages.queue] at waiting
        exact waiting.eq_nil
      have idle := stages.idle mode running.lanes lanes resting noneWaits
      rw [← sameLanes] at idle
      have finish := stages.scheduled.idle_finishes acyclic rfl idle blocked scheduling
      rw [← stops] at finish
      cases finish

end cycle

/-- One turn of the loop `while(!testCore.run_a_cycle())`. -/
def Core.turn (state : Core σ × List Node) : Result (Core σ × List Node) := do
  let (next, _) ← state.1.runACycle
  pure (next, state.2 ++ state.1.completions)

theorem runCycles_of_reaches {state : Core σ × List Node}
    (reaches : Reaches Core.turn (fun state => ∃ last, state.1.runACycle = .ok (last, true)) state) :
    ∃ fuel c' done', state.1.runCycles fuel state.2 = .ok (c', done', true) := by
  induction reaches with
  | @here state ends =>
    obtain ⟨last, returned⟩ := ends
    refine ⟨1, last, state.2 ++ state.1.completions, ?_⟩
    simp only [Core.runCycles, returned, Loops.ok_bind, ↓reduceIte, Loops.pure_eq_ok]
  | @after state next stepped _ ih =>
    obtain ⟨⟨mid, finished⟩, returned, stepped⟩ := Loops.bind_eq_ok.mp stepped
    cases stepped
    cases finished with
    | true =>
      refine ⟨1, mid, state.2 ++ state.1.completions, ?_⟩
      simp only [Core.runCycles, returned, Loops.ok_bind, ↓reduceIte, Loops.pure_eq_ok]
    | false =>
      obtain ⟨fuel, c', done', ended⟩ := ih
      refine ⟨fuel + 1, c', done', ?_⟩
      simp only [Core.runCycles, returned, Loops.ok_bind, Bool.false_eq_true, ↓reduceIte]
      exact ended

/-- With a Ruby that answers, the cycle loop comes to its end from every state of
an iteration that sends its memory instructions there. -/
theorem accelerator_loop_ends_ruby {cfg : Config} (fits : cfg.Fits) (mode : cfg.RubyMode)
    (acyclic : Acyclic (Depends cfg.graph.maps.unDependencies)) {system : RubySystem σ}
    {lawful : system.Lawful} (responsive : RubySystem.Responsive lawful) {begun c : Core σ}
    {done : List Node}
    (run : Reach cfg (cfg.Starts lawful) (fun _ => True) begun c done true) :
    ∃ fuel c' done', c.runCycles fuel done = .ok (c', done', true) := by
  suffices reaches : Reaches Core.turn (fun state => ∃ last, state.1.runACycle = .ok (last, true))
      (c, done) from runCycles_of_reaches reaches
  refine Reaches.of_progress (WellFounded.prod_lex Nat.lt_wfRel.wf Nat.lt_wfRel.wf)
    (fun state => ∃ begun, Reach cfg (cfg.Starts lawful) (fun _ => True) begun state.1 state.2 true)
    (fun state => state.1.rubyRank) (fun state => state.1.ruby.state)
    (fun state => (system.advanceTime state).1) (fun state => (system.advanceTime state).2 ≠ [])
    ?_ ⟨begun, run⟩
  rintro ⟨c, done⟩ ⟨begun, run⟩ going
  obtain ⟨plan, running⟩ := run.running
  have settled := (run.settled fits.chains mode).1 rfl
  obtain ⟨_, c', finished, returned, _⟩ := settled.runACycle fits.chains mode running
  cases finished with
  | true => exact absurd ⟨c', returned⟩ going
  | false =>
    refine ⟨(c', done ++ c.completions), ?_, ⟨begun, run.cycle trivial returned⟩, ?_⟩
    · unfold Core.turn
      rw [returned]
      rfl
    · have lanes := run.lanes (stalling_invariant mode)
      rcases settled.turn mode acyclic responsive running lanes returned with
        less | ⟨equal, moved, silent, pending⟩
      · exact .inl less
      · exact .inr ⟨equal, moved, fun answered => answered silent, responsive.answers _ pending⟩

theorem accelerator_loop_ends_singleLoad :
    ∃ (cfg : Config) (begun c : Core (List Nat)) (done : List Node), cfg.dirtyGraph = singleLoad ∧
      cfg.Fits ∧ cfg.RubyMode ∧ Acyclic (Depends cfg.graph.maps.unDependencies) ∧
      RubySystem.Responsive fifoRuby_lawful ∧
      Reach cfg (cfg.Starts fifoRuby_lawful) (fun _ => True) begun c done true ∧
      c.lanes.map (·.exeCnt) = [-1] ∧
      ∃ fuel c' done', c.runCycles fuel done = .ok (c', done', true) := by
  have tested : firstIteration ⟨0, 0, 0, 3⟩ sampleLlvm singleLoad 1 ⟨3, 0⟩ ⟨1, 25, 100, 2, 2⟩
      (fun _ _ => some ⟨false, 64⟩) ⟨fifoRuby, [], []⟩ 13 (fun graph _ c _ =>
        decide (graph.chains = [[0], [1]] ∧
          (graph.origGraph.vertices.map (·.label.id)).Nodup ∧
          c.lanes.map (·.exeCnt) = [-1]) && (List.range 2).all fun s =>
            (List.range 2).all fun t => decide (Depends graph.maps.unDependencies s t → s < t)) =
      true := by
    decide +kernel
  obtain ⟨graph, read, begun, c, done, facts, runs⟩ := exists_run tested
  obtain ⟨facts, forward⟩ := Bool.and_eq_true_iff.mp facts
  obtain ⟨chains, labels, stalled⟩ := of_decide_eq_true facts
  let cfg : Config := ⟨⟨0, 0, 0, 3⟩, sampleLlvm, singleLoad, graph, read, 1, ⟨3, 0⟩,
    ⟨1, 25, 100, 2, 2⟩, fun _ _ => some ⟨false, 64⟩⟩
  have count : cfg.numChains = 2 := congrArg List.length chains
  have fits : cfg.Fits := by
    refine ⟨?_, by rw [count]; decide, by simp [cfg], by simp [cfg, maxNumChain]⟩
    rw [Config.NonEmpty, count]
    change ∀ i < 2, graph.chains.getD i [] ≠ []
    rw [chains]
    decide
  have mode : cfg.RubyMode := ⟨rfl, labels, fun op latency _ => sampleLlvm_lt⟩
  have traced : cfg.Traced 0 := fun _ _ _ _ _ => ⟨⟨false, 64⟩, rfl, by decide⟩
  have acyclic : Acyclic (Depends cfg.graph.maps.unDependencies) := by
    refine Acyclic.of_lt id fun s t depends => ?_
    have known := cfg.depends_lt depends
    rw [count] at known
    have row := List.all_eq_true.mp forward s (List.mem_range.mpr known.1)
    exact of_decide_eq_true (List.all_eq_true.mp row t (List.mem_range.mpr known.2)) depends
  have run := runs (cfg.Starts fifoRuby_lawful) (fun _ => True) ⟨⟨rfl, rfl⟩, traced⟩
    (fun _ _ _ => trivial)
  exact ⟨cfg, begun, c, done, rfl, fits, mode, acyclic, fifoRuby_responsive, run, stalled,
    accelerator_loop_ends_ruby fits mode acyclic fifoRuby_responsive run⟩

end ChainSaw
