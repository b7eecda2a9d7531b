import Mathlib.Algebra.BigOperators.Ring.Finset
import ChainSaw.Communication
import ChainSaw.Completeness
import ChainSaw.LaneRuns
import ChainSaw.Refinement

set_option autoImplicit false

/- What `finishCore` prints at the end of the simulation, against the cycles. -/
namespace ChainSaw

variable {σ : Type}

/-- The totals that `finishCore` prints. -/
structure Totals where
  memStall : Nat
  coreStall : Nat
  internalCom : Nat
  externalCom : Nat
  coreFree : Nat
  coreIdle : Nat

/-- `finishCore`. -/
def Core.finishCore (c : Core σ) (com : Communication) : Totals where
  memStall := c.lanes.foldl (fun total l => (total + l.memoryStall) % 2 ^ 32) 0
  coreStall := c.lanes.foldl (fun total l => (total + l.stall) % 2 ^ 32) 0
  internalCom := com.internalCom
  externalCom := com.externalCom
  coreFree := c.coreFree
  coreIdle := c.coreIdle

/-- What the scheduler finds at a lane: it is at work, it is free and has no
chain left, it has chains left but all of them wait, or it gets a chain. -/
inductive LaneTurn
  | busy
  | empty
  | blocked
  | loads
deriving DecidableEq

/-- The lane is free and has chains left. -/
def LaneTurn.idle (turn : LaneTurn) : Bool := turn = .blocked || turn = .loads

/-- Each chain that chain `t` depends on has completed an instruction. -/
def Config.released (cfg : Config) (completed : List Node) (t : Nat) : Bool :=
  (List.range cfg.numChains).all fun s =>
    !decide (Depends cfg.graph.maps.unDependencies s t) || completed.any (·.cId == s)

def Config.turn (cfg : Config) (completed : List Node) (lane : Lane) (scheBuff : List Nat) :
    LaneTurn :=
  if !lane.isFree then .busy
  else if scheBuff.isEmpty then .empty
  else if scheBuff.any (cfg.released completed) then .loads
  else .blocked

/-- The turn of lane `i` in a scheduler stage that starts from `c`. -/
def Core.turnAt (c : Core σ) (cfg : Config) (completed : List Node) (i : Nat) : LaneTurn :=
  match c.lanes[i]? with
  | some lane => cfg.turn completed lane (c.lanePreSchedule.getD i [])
  | none => .busy

theorem turn_busy {cfg : Config} {completed : List Node} {lane : Lane} {scheBuff : List Nat}
    (works : lane.isFree = false) : cfg.turn completed lane scheBuff = .busy := by
  simp [Config.turn, works]

theorem turn_empty {cfg : Config} {completed : List Node} {lane : Lane}
    (free : lane.isFree = true) : cfg.turn completed lane [] = .empty := by
  simp [Config.turn, free]

section turns

variable {cfg : Config} {plan : Plan} {begun c c' : Core σ} {done : List Node}
  (old : Scheduled cfg plan begun c done (done.map (·.cId)))
include old

theorem Scheduled.released_iff (t : Nat) : cfg.released done t = true ↔ c.Ready t := by
  rw [old.ready_iff]
  simp only [Config.released, List.all_eq_true, List.mem_range, Bool.or_eq_true,
    Bool.not_eq_true', decide_eq_false_iff_not, List.any_eq_true, beq_iff_eq]
  constructor
  · intro all s depends
    rcases all s (cfg.depends_lt depends).1 with unrelated | ⟨ins, member, same⟩
    · exact absurd depends unrelated
    · exact List.mem_map.mpr ⟨ins, member, same⟩
  · intro ready s _
    by_cases depends : Depends cfg.graph.maps.unDependencies s t
    · obtain ⟨ins, member, same⟩ := List.mem_map.mp (ready s depends)
      exact .inr ⟨ins, member, same⟩
    · exact .inl depends

theorem Scheduled.turn_blocked {lane : Lane} {scheBuff : List Nat} (free : lane.isFree = true)
    (full : scheBuff ≠ []) (blocked : ∀ t ∈ scheBuff, ¬ c.Ready t) :
    cfg.turn done lane scheBuff = .blocked := by
  have waiting : scheBuff.any (cfg.released done) = false := by
    rw [List.any_eq_false]
    exact fun t member => mt (old.released_iff t).mp (blocked t member)
  simp [Config.turn, free, full, waiting]

theorem Scheduled.turn_loads {lane : Lane} {scheBuff : List Nat} {t : Nat}
    (free : lane.isFree = true) (member : t ∈ scheBuff) (ready : c.Ready t) :
    cfg.turn done lane scheBuff = .loads := by
  have found : scheBuff.any (cfg.released done) = true :=
    List.any_eq_true.mpr ⟨t, member, (old.released_iff t).mpr ready⟩
  simp [Config.turn, free, List.ne_nil_of_mem member, found]

end turns

/-- The counters after the turn of lane `i`. -/
structure Turned (c c' : Core σ) (i : Nat) (turn : LaneTurn) (lane lane' : Lane) : Prop where
  before : c.lanes[i]? = some lane
  after : c'.lanes[i]? = some lane'
  lanes : ∀ j, j ≠ i → c'.lanes[j]? = c.lanes[j]?
  buffers : ∀ j, j ≠ i → c'.lanePreSchedule.getD j [] = c.lanePreSchedule.getD j []
  memoryStall : lane'.memoryStall = lane.memoryStall
  stall : lane'.stall = if turn.idle then (lane.stall + 1) % 2 ^ 32 else lane.stall
  chains : lane'.schChainsList.length =
    lane.schChainsList.length + if turn = .loads then 1 else 0
  coreFree : c'.coreFree = if turn = .empty then (c.coreFree + 1) % 2 ^ 32 else c.coreFree
  coreIdle : c'.coreIdle = if turn.idle then (c.coreIdle + 1) % 2 ^ 32 else c.coreIdle

theorem Scheduled.scheduleLane_turned {cfg : Config} {plan : Plan} {begun c c' : Core σ}
    {done : List Node} {i : Nat} (old : Scheduled cfg plan begun c done (done.map (·.cId)))
    (returned : c.scheduleLane i = .ok c') :
    ∃ lane lane', Turned c c' i (c.turnAt cfg done i) lane lane' := by
  obtain ⟨lane, scheBuff, laneAt, buffAt, stage⟩ := scheduleLane_cases returned
  have turn : c.turnAt cfg done i = cfg.turn done lane scheBuff := by
    simp only [Core.turnAt, laneAt, getD_of_found buffAt]
  refine ⟨lane, ?_⟩
  rw [turn]
  rcases stage with ⟨works, rfl⟩ | ⟨free, rfl, rfl⟩ | ⟨free, full, blocked, rfl⟩ |
    ⟨t, free, member, ready, loaded⟩
  · rw [turn_busy works]
    exact ⟨lane, laneAt, laneAt, fun _ _ => rfl, fun _ _ => rfl, rfl, rfl, rfl, rfl, rfl⟩
  · rw [turn_empty free]
    exact ⟨lane, laneAt, laneAt, fun _ _ => rfl, fun _ _ => rfl, rfl, rfl, rfl, rfl, rfl⟩
  · rw [old.turn_blocked free full blocked]
    refine ⟨{ lane with stall := (lane.stall + 1) % 2 ^ 32 }, laneAt, ?_, fun j other => ?_,
      fun _ _ => rfl, rfl, rfl, rfl, rfl, rfl⟩
    · simp [Core.stalled, laneAt]
    · simp [Core.stalled, Ne.symm other]
  · rw [old.turn_loads free member ready]
    obtain ⟨ch, found, rfl⟩ := loadChain_ok loaded
    refine ⟨{ lane with stall := (lane.stall + 1) % 2 ^ 32 }.loadInstructionQueue
      ch.instructionList t, laneAt, ?_, fun j other => ?_, fun j other => ?_, rfl, rfl, ?_, rfl, rfl⟩
    · simp [Core.stalled, laneAt]
    · simp [Core.stalled, Ne.symm other]
    · change (c.lanePreSchedule.set i _).getD j [] = _
      rw [getD_set buffAt, if_neg other]
    · exact List.length_append

/-- A sum kept in a machine word, of numbers that are kept in one. -/
theorem foldl_mod_sum {α : Type} {f : α → Nat} {g : Nat → Nat} (items : List α)
    (same : ∀ i a, items[i]? = some a → f a = g i % 2 ^ 32) :
    items.foldl (fun total a => (total + f a) % 2 ^ 32) 0 =
      (∑ i ∈ Finset.range items.length, g i) % 2 ^ 32 := by
  induction items using List.reverseRecOn with
  | nil => rfl
  | append_singleton items a ih =>
    have earlier : ∀ i b, items[i]? = some b → f b = g i % 2 ^ 32 := fun i b found =>
      same i b (by rw [List.getElem?_append_left (List.getElem?_eq_some_iff.mp found).1]; exact found)
    have last := same items.length a (by simp)
    rw [List.foldl_append, List.foldl_cons, List.foldl_nil, ih earlier, last, List.length_append,
      List.length_singleton, Finset.sum_range_succ, ← Nat.add_mod]

theorem sum_range_length {α : Type} (lists : List (List α)) :
    ∑ i ∈ Finset.range lists.length, (lists.getD i []).length = lists.flatten.length := by
  induction lists with
  | nil => rfl
  | cons list rest ih =>
    rw [List.length_cons, Finset.sum_range_succ', List.flatten_cons, List.length_append, ← ih]
    simp [Nat.add_comm]

/-- The counters of the lanes and of the core, as numbers of cycles: how often each lane
has waited for memory, was idle, got a chain and was free with no chain left. -/
structure Counts (cfg : Config) (c : Core σ) (waits idles loads empties : Nat → Nat) : Prop where
  lanes : ∀ i l, c.lanes[i]? = some l → l.memoryStall = waits i % 2 ^ 32 ∧
    l.stall = idles i % 2 ^ 32 ∧ l.schChainsList.length = loads i
  coreFree : c.coreFree = (∑ i ∈ Finset.range cfg.numLanes, empties i) % 2 ^ 32
  coreIdle : c.coreIdle = (∑ i ∈ Finset.range cfg.numLanes, idles i) % 2 ^ 32

/-- One more for `i`, if the turn there counts. -/
def bump (count : Nat → Nat) (i : Nat) (counts : Bool) : Nat → Nat :=
  fun j => count j + if j = i ∧ counts = true then 1 else 0

theorem sum_bump (count : Nat → Nat) {i n : Nat} (inside : i < n) (counts : Bool) :
    ∑ j ∈ Finset.range n, bump count i counts j =
      (∑ j ∈ Finset.range n, count j) + if counts = true then 1 else 0 := by
  unfold bump
  rw [Finset.sum_add_distrib]
  congr 1
  cases counts with
  | false => simp
  | true => simp [inside]

theorem succ_mod_of_eq {x n : Nat} (same : x = n % 2 ^ 32) : (x + 1) % 2 ^ 32 = (n + 1) % 2 ^ 32 := by
  rw [same, Nat.mod_add_mod]

theorem count_mod {x n : Nat} (same : x = n % 2 ^ 32) (counts : Bool) :
    (if counts = true then (x + 1) % 2 ^ 32 else x) =
      (n + if counts = true then 1 else 0) % 2 ^ 32 := by
  cases counts with
  | false => simpa using same
  | true => simpa using succ_mod_of_eq same

theorem Counts.turned {cfg : Config} {c c' : Core σ} {i : Nat} {turn : LaneTurn}
    {lane lane' : Lane} {waits idles loads empties : Nat → Nat}
    (counts : Counts cfg c waits idles loads empties) (turned : Turned c c' i turn lane lane')
    (inside : i < cfg.numLanes) :
    Counts cfg c' waits (bump idles i turn.idle) (bump loads i (turn = .loads))
      (bump empties i (turn = .empty)) where
  lanes := by
    intro j l found
    by_cases here : j = i
    · subst here
      rw [turned.after] at found
      cases found
      obtain ⟨memoryStall, stall, chains⟩ := counts.lanes j lane turned.before
      refine ⟨turned.memoryStall.trans memoryStall, ?_, ?_⟩
      · rw [turned.stall, count_mod stall]
        simp [bump]
      · rw [turned.chains, chains]
        simp [bump]
    · rw [turned.lanes j here] at found
      simpa [bump, here] using counts.lanes j l found
  coreFree := by
    rw [turned.coreFree, sum_bump empties inside]
    simpa using count_mod counts.coreFree (turn = .empty)
  coreIdle := by
    rw [turned.coreIdle, sum_bump idles inside, count_mod counts.coreIdle]

/-- The counts after the turns at the lanes `seen`. -/
def tally (count : Nat → Nat) (counts : Nat → Bool) (seen : List Nat) : Nat → Nat :=
  fun i => count i + if i ∈ seen ∧ counts i = true then 1 else 0

@[simp] theorem tally_nil (count : Nat → Nat) (counts : Nat → Bool) : tally count counts [] = count := by
  funext i
  simp [tally]

theorem tally_append (count : Nat → Nat) (counts : Nat → Bool) {seen : List Nat} {i : Nat}
    (fresh : i ∉ seen) :
    tally count counts (seen ++ [i]) = bump (tally count counts seen) i (counts i) := by
  funext j
  by_cases here : j = i
  · subst here
    simp [tally, bump, fresh]
  · simp [tally, bump, here]

/-- A lane that does not exist has no turn. -/
theorem turnAt_of_length_le {c : Core σ} (cfg : Config) (completed : List Node) {i : Nat}
    (outside : c.lanes.length ≤ i) : c.turnAt cfg completed i = .busy := by
  simp [Core.turnAt, List.getElem?_eq_none outside]

theorem turnAt_congr {c mid : Core σ} (cfg : Config) (completed : List Node) {i : Nat}
    (lanes : mid.lanes[i]? = c.lanes[i]?)
    (buffers : mid.lanePreSchedule.getD i [] = c.lanePreSchedule.getD i []) :
    mid.turnAt cfg completed i = c.turnAt cfg completed i := by
  rw [Core.turnAt, Core.turnAt, lanes, buffers]

theorem tally_range {c : Core σ} (cfg : Config) (completed : List Node) (count : Nat → Nat)
    (counts : LaneTurn → Bool) (atWork : counts .busy = false) :
    tally count (fun i => counts (c.turnAt cfg completed i)) (List.range c.lanes.length) =
      fun i => count i + if counts (c.turnAt cfg completed i) = true then 1 else 0 := by
  funext i
  by_cases inside : i < c.lanes.length
  · simp [tally, inside]
  · simp [tally, inside, turnAt_of_length_le cfg completed (Nat.le_of_not_lt inside), atWork]

theorem Scheduled.oooScheduler_counts {cfg : Config} {plan : Plan} {begun c c' : Core σ}
    {done : List Node} (old : Scheduled cfg plan begun c done (done.map (·.cId)))
    (returned : c.oooScheduler = .ok c') {waits idles loads empties : Nat → Nat}
    (counts : Counts cfg c waits idles loads empties) :
    Counts cfg c' waits
      (fun i => idles i + if (c.turnAt cfg done i).idle = true then 1 else 0)
      (fun i => loads i + if decide (c.turnAt cfg done i = .loads) = true then 1 else 0)
      (fun i => empties i + if decide (c.turnAt cfg done i = .empty) = true then 1 else 0) := by
  have kept := Loops.foldlM_ok_visited
    (fun seen mid => Scheduled cfg plan begun mid done (done.map (·.cId)) ∧
      (∀ i, i ∉ seen → mid.lanes[i]? = c.lanes[i]? ∧
        mid.lanePreSchedule.getD i [] = c.lanePreSchedule.getD i []) ∧
      Counts cfg mid waits (tally idles (fun i => (c.turnAt cfg done i).idle) seen)
        (tally loads (fun i => c.turnAt cfg done i = .loads) seen)
        (tally empties (fun i => c.turnAt cfg done i = .empty) seen))
    (List.range c.lanes.length) ?_ ⟨old, fun _ _ => ⟨rfl, rfl⟩, by simpa using counts⟩
    returned
  · obtain ⟨_, _, total⟩ := kept
    rwa [tally_range cfg done idles LaneTurn.idle rfl,
      tally_range cfg done loads (fun turn => turn = .loads) rfl,
      tally_range cfg done empties (fun turn => turn = .empty) rfl] at total
  · rintro seen i rest mid next split ⟨scheduled, untouched, sofar⟩ stepped
    have once : (seen ++ i :: rest).Nodup := split ▸ List.nodup_range
    have fresh : i ∉ seen := fun member =>
      (List.nodup_append.mp once).2.2 i member i List.mem_cons_self rfl
    have inside : i < cfg.numLanes := by
      have member : i ∈ List.range c.lanes.length := by simp [split]
      rw [← old.fixed.lanes]
      exact List.mem_range.mp member
    obtain ⟨lane, lane', turned⟩ := scheduled.scheduleLane_turned stepped
    rw [turnAt_congr cfg done (untouched i fresh).1 (untouched i fresh).2] at turned
    refine ⟨scheduled.scheduleLane stepped, fun j later => ?_, ?_⟩
    · have other : j ≠ i := by
        rintro rfl
        exact later (by simp)
      have unseen : j ∉ seen := fun member => later (by simp [member])
      exact ⟨(turned.lanes j other).trans (untouched j unseen).1,
        (turned.buffers j other).trans (untouched j unseen).2⟩
    · rw [tally_append _ _ fresh, tally_append _ _ fresh, tally_append _ _ fresh]
      exact sofar.turned turned inside

namespace Lane

/-- What a lane reports at the end. -/
def report (l : Lane) : Nat × Nat × List Nat := (l.memoryStall, l.stall, l.schChainsList)

@[simp] theorem fetch_report (l : Lane) : l.fetch.report = l.report := by
  rcases fetch_cases l with ⟨same, _⟩ | ⟨ins, rest, _, _, same⟩
  · rw [same]
  · rw [same]
    rfl

/-- A cycle counts in a lane only that it waits for memory. -/
theorem run_report (l : Lane) (q : LaneQueues) : (l.run q).1.report =
    (if l.exeCnt = -1 then (l.memoryStall + 1) % 2 ^ 32 else l.memoryStall, l.stall,
      l.schChainsList) := by
  rcases run_cases l q with ⟨ins, rest, _, ran⟩ | ⟨ins, rest, _, ran⟩ | ⟨_, op, ran⟩
  · rw [ran, fetch_report]
    rfl
  · rw [ran, fetch_report]
    rfl
  · rw [ran, fetch_report]
    rfl

end Lane

theorem Woken.report {l l' : Lane} (woken : Woken l l') : l'.report = l.report := by
  rcases woken with rfl | rfl
  · rfl
  · rfl

/-- Lane `i` waits for memory when the cycle starts. -/
def Core.waitsAt (c : Core σ) (i : Nat) : Bool := c.lanes[i]?.map (·.exeCnt) = some (-1)

/-- The turn of lane `i` in the cycle that starts from `c`. -/
def Core.cycleTurn (c : Core σ) (cfg : Config) (done : List Node) (i : Nat) : LaneTurn :=
  ({ c with lanes := c.lanes.map Core.cycled } : Core σ).turnAt cfg (done ++ c.completions) i

section cycle

variable {cfg : Config} {plan : Plan} {begun c released : Core σ} {done : List Node}

theorem turnAt_released (running : Running cfg plan begun c done)
    (woken : List.Forall₂ Woken (c.lanes.map Core.cycled) released.lanes)
    (kept : released.schedule = c.schedule) (i : Nat) :
    released.turnAt cfg (done ++ c.completions) i = c.cycleTurn cfg done i := by
  have buffers : released.lanePreSchedule = c.lanePreSchedule := congrArg (·.2.1) kept
  unfold Core.cycleTurn
  cases found : released.lanes[i]? with
  | none =>
    have outside := List.getElem?_eq_none_iff.mp found
    rw [turnAt_of_length_le _ _ outside, turnAt_of_length_le]
    rwa [← woken.length_eq] at outside
  | some lane =>
    obtain ⟨before, beforeAt, woke⟩ := forall₂_getElem? woken found
    have valid : before.Valid := by
      obtain ⟨l, member, rfl⟩ := List.mem_map.mp (List.mem_of_getElem? beforeAt)
      exact (running.lanes l member).run ⟨[], []⟩
    simp only [Core.turnAt, found, beforeAt, buffers, Config.turn,
      Lane.isFree_of_woken woke valid]

theorem Counts.ofWoken {waits idles loads empties : Nat → Nat}
    (counts : Counts cfg c waits idles loads empties)
    (woken : List.Forall₂ Woken (c.lanes.map Core.cycled) released.lanes)
    (kept : released.schedule = c.schedule) :
    Counts cfg released (fun i => waits i + if c.waitsAt i = true then 1 else 0) idles loads
      empties where
  lanes := by
    intro i l found
    obtain ⟨before, beforeAt, woke⟩ := forall₂_getElem? woken found
    rw [List.getElem?_map] at beforeAt
    obtain ⟨first, firstAt, rfl⟩ := Option.map_eq_some_iff.mp beforeAt
    obtain ⟨memoryStall, stall, chains⟩ := counts.lanes i first firstAt
    have report := woke.report.trans (Lane.run_report first ⟨[], []⟩)
    refine ⟨?_, (congrArg (·.2.1) report).trans stall, ?_⟩
    · have waited := count_mod memoryStall (first.exeCnt = -1)
      simp only [decide_eq_true_eq] at waited
      rw [show l.memoryStall = _ from congrArg Prod.fst report, waited]
      simp [Core.waitsAt, firstAt]
    · rw [show l.schChainsList = first.schChainsList from congrArg (·.2.2) report, chains]
  coreFree := (congrArg (·.2.2.1) kept).trans counts.coreFree
  coreIdle := (congrArg (·.2.2.2) kept).trans counts.coreIdle

theorem Running.runACycle_counts {c' : Core σ} {finished : Bool}
    (running : Running cfg plan begun c done) (returned : c.runACycle = .ok (c', finished))
    {waits idles loads empties : Nat → Nat} (counts : Counts cfg c waits idles loads empties) :
    Counts cfg c' (fun i => waits i + if c.waitsAt i = true then 1 else 0)
      (fun i => idles i + if (c.cycleTurn cfg done i).idle = true then 1 else 0)
      (fun i => loads i + if decide (c.cycleTurn cfg done i = .loads) = true then 1 else 0)
      (fun i => empties i + if decide (c.cycleTurn cfg done i = .empty) = true then 1 else 0) := by
  obtain ⟨released, woken, kept, scheduled, scheduling, _⟩ := running.runACycle_released returned
  have total := scheduled.oooScheduler_counts scheduling (counts.ofWoken woken kept)
  simpa only [turnAt_released running woken kept] using total

end cycle

/-- A run with its cycles, each with the core it starts from and the instructions
completed before it in its iteration, and with the number of iterations begun. -/
inductive History (cfg : Config) :
    List (Core σ × List Node) → Nat → Core σ → Core σ → List Node → Bool → Prop
  | boot (ruby : Ruby σ) : History cfg [] 0 (cfg.boot ruby) (cfg.boot ruby) [] false
  | begin {cycles : List (Core σ × List Node)} {k : Nat} {begun c c' : Core σ} {done : List Node}
      (n : Nat) (ruby : Ruby σ) : History cfg cycles k begun c done false →
      ({ c with ruby } : Core σ).beginIteration n = .ok c' →
      History cfg cycles (k + 1) c' c' [] true
  | cycle {cycles : List (Core σ × List Node)} {k : Nat} {begun c c' : Core σ} {done : List Node}
      {finished : Bool} : History cfg cycles k begun c done true →
      c.runACycle = .ok (c', finished) →
      History cfg (cycles ++ [(c, done)]) k begun c' (done ++ c.completions) !finished

theorem Reach.history {cfg : Config} {begun c : Core σ} {done : List Node} {running : Bool}
    (run : Run cfg begun c done running) :
    ∃ cycles k, History cfg cycles k begun c done running := by
  induction run with
  | boot ruby => exact ⟨[], 0, .boot ruby⟩
  | begin n ruby _ _ returned ih =>
    obtain ⟨cycles, k, history⟩ := ih
    exact ⟨cycles, k + 1, history.begin n ruby returned⟩
  | cycle _ _ returned ih =>
    obtain ⟨cycles, k, history⟩ := ih
    exact ⟨_, k, history.cycle returned⟩

/-- The number of cycles in which lane `i` waited for memory. -/
def waitingCycles (cycles : List (Core σ × List Node)) (i : Nat) : Nat :=
  cycles.countP fun e => e.1.waitsAt i

/-- The number of cycles in which lane `i` had a turn of some kind. -/
def turnCycles (cfg : Config) (cycles : List (Core σ × List Node)) (kind : LaneTurn → Bool)
    (i : Nat) : Nat :=
  cycles.countP fun e => kind (e.1.cycleTurn cfg e.2 i)

theorem Reach.lanes_length {cfg : Config} {begun c : Core σ} {done : List Node} {running : Bool}
    (run : Run cfg begun c done running) : c.lanes.length = cfg.numLanes := by
  cases running with
  | true =>
    obtain ⟨plan, running⟩ := run.running
    exact running.fixed.lanes
  | false => exact run.idle.fixed.lanes

theorem waitingCycles_append (cycles : List (Core σ × List Node)) (e : Core σ × List Node) :
    waitingCycles (cycles ++ [e]) =
      fun i => waitingCycles cycles i + if e.1.waitsAt i = true then 1 else 0 := by
  funext i
  rw [waitingCycles, List.countP_append, List.countP_singleton]
  rfl

theorem turnCycles_append (cfg : Config) (cycles : List (Core σ × List Node))
    (e : Core σ × List Node) (kind : LaneTurn → Bool) :
    turnCycles cfg (cycles ++ [e]) kind =
      fun i => turnCycles cfg cycles kind i +
        if kind (e.1.cycleTurn cfg e.2 i) = true then 1 else 0 := by
  funext i
  rw [turnCycles, List.countP_append, List.countP_singleton]
  rfl

namespace History

variable {cfg : Config} {cycles : List (Core σ × List Node)} {k : Nat} {begun c : Core σ}
  {done : List Node} {running : Bool}

theorem run (history : History cfg cycles k begun c done running) :
    Run cfg begun c done running := by
  induction history with
  | boot ruby => exact .boot ruby
  | begin n ruby _ returned ih => exact .begin n ruby ih trivial returned
  | cycle _ returned ih => exact .cycle ih trivial returned

theorem counts (history : History cfg cycles k begun c done running) :
    Counts cfg c (waitingCycles cycles) (turnCycles cfg cycles LaneTurn.idle)
      (turnCycles cfg cycles fun turn => turn = .loads)
      (turnCycles cfg cycles fun turn => turn = .empty) := by
  induction history with
  | boot ruby =>
    refine ⟨fun i l found => ?_, by simp [turnCycles, Config.boot, Core.new],
      by simp [turnCycles, Config.boot, Core.new]⟩
    obtain ⟨j, _, rfl⟩ := List.mem_map.mp (List.mem_of_getElem? found)
    exact ⟨rfl, rfl, rfl⟩
  | begin n ruby earlier returned ih =>
    obtain ⟨_, _, _, _, rfl⟩ := (earlier.run.idle.withRuby ruby).beginIteration_ok returned
    exact ⟨ih.lanes, ih.coreFree, ih.coreIdle⟩
  | cycle earlier returned ih =>
    obtain ⟨plan, running⟩ := earlier.run.running
    rw [waitingCycles_append, turnCycles_append, turnCycles_append, turnCycles_append]
    exact running.runACycle_counts returned ih

/-- An iteration that ends has loaded every chain once. -/
theorem chains_loaded (history : History cfg cycles k begun c done running) :
    (running = false →
      ∑ i ∈ Finset.range cfg.numLanes, (c.schChains i).length = k * cfg.numChains) ∧
    (running = true →
      (∑ i ∈ Finset.range cfg.numLanes, (begun.schChains i).length) + cfg.numChains =
        k * cfg.numChains) := by
  induction history with
  | boot ruby =>
    refine ⟨fun _ => ?_, by simp⟩
    rw [Nat.zero_mul]
    refine Finset.sum_eq_zero fun i member => ?_
    simp [Core.schChains, Config.boot, Core.new, Lane.new, Finset.mem_range.mp member]
  | begin n ruby earlier returned ih =>
    obtain ⟨_, _, _, _, rfl⟩ := (earlier.run.idle.withRuby ruby).beginIteration_ok returned
    refine ⟨by simp, fun _ => ?_⟩
    rw [Nat.add_mul, Nat.one_mul, ← ih.1 rfl]
    rfl
  | @cycle cycles k begun c c' done finished earlier returned ih =>
    refine ⟨fun ends => ?_, fun _ => ih.2 rfl⟩
    obtain rfl : finished = true := by simpa using ends
    obtain ⟨plan, running⟩ := earlier.run.running
    have loaded : ∀ i, (c'.schChains i).length =
        (begun.schChains i).length + (plan.buffers.getD i []).length := by
      intro i
      obtain ⟨loads, chains, shared⟩ := running.loads_all returned i
      rw [chains, List.length_append, shared.length_eq]
    have planned := plan_planned running.planned
    have whole := sum_range_length plan.buffers
    rw [planned.length, (plan_partition running.planned).length_eq, List.length_range] at whole
    rw [Finset.sum_congr rfl fun i _ => loaded i, Finset.sum_add_distrib, whole]
    exact ih.2 rfl

end History

/-- The number of turns of one kind of all lanes together. -/
def laneTurns (cfg : Config) (cycles : List (Core σ × List Node)) (kind : LaneTurn) : Nat :=
  ∑ i ∈ Finset.range cfg.numLanes, turnCycles cfg cycles (fun turn => turn = kind) i

theorem turnCycles_idle (cfg : Config) (cycles : List (Core σ × List Node)) (i : Nat) :
    turnCycles cfg cycles LaneTurn.idle i =
      turnCycles cfg cycles (fun turn => turn = .blocked) i +
        turnCycles cfg cycles (fun turn => turn = .loads) i := by
  induction cycles with
  | nil => rfl
  | cons e rest ih =>
    simp only [turnCycles, List.countP_cons] at ih ⊢
    rw [ih]
    cases e.1.cycleTurn cfg e.2 i <;> simp [LaneTurn.idle] <;> omega

/-- In every cycle every lane has one turn. -/
theorem turnCycles_all (cfg : Config) (cycles : List (Core σ × List Node)) (i : Nat) :
    turnCycles cfg cycles (fun turn => turn = .busy) i +
      turnCycles cfg cycles (fun turn => turn = .empty) i +
        turnCycles cfg cycles (fun turn => turn = .blocked) i +
          turnCycles cfg cycles (fun turn => turn = .loads) i = cycles.length := by
  induction cycles with
  | nil => rfl
  | cons e rest ih =>
    simp only [turnCycles, List.countP_cons, List.length_cons] at ih ⊢
    cases e.1.cycleTurn cfg e.2 i <;> simp <;> omega

/-- The totals that `finishCore` prints, in every state of every run: TOTAL CORE STALL and
TOTAL CORE IDLE are the same number. They count, over all lanes, the cycles in which a lane
was free and each chain left to it waited for another, and one for each chain loaded, which
is every chain once per iteration. TOTAL CORE FREE counts the cycles in which a lane was
free with no chain left, and TOTAL MEM STALL those in which one waited for memory. -/
theorem finish_core_accounts {cfg : Config} {cycles : List (Core σ × List Node)} {k : Nat}
    {begun c : Core σ} {done : List Node} {running : Bool}
    (history : History cfg cycles k begun c done running) (com : Communication) :
    (c.finishCore com).coreStall =
        (laneTurns cfg cycles .blocked + laneTurns cfg cycles .loads) % 2 ^ 32 ∧
      (c.finishCore com).coreIdle = (c.finishCore com).coreStall ∧
      (c.finishCore com).coreFree = laneTurns cfg cycles .empty % 2 ^ 32 ∧
      (c.finishCore com).memStall =
        (∑ i ∈ Finset.range cfg.numLanes, waitingCycles cycles i) % 2 ^ 32 ∧
      laneTurns cfg cycles .busy + laneTurns cfg cycles .empty + laneTurns cfg cycles .blocked +
        laneTurns cfg cycles .loads = cfg.numLanes * cycles.length ∧
      (running = false → laneTurns cfg cycles .loads = k * cfg.numChains) := by
  have counts := history.counts
  have lanes : c.lanes.length = cfg.numLanes := history.run.lanes_length
  have idles : ∑ i ∈ Finset.range cfg.numLanes, turnCycles cfg cycles LaneTurn.idle i =
      laneTurns cfg cycles .blocked + laneTurns cfg cycles .loads := by
    rw [Finset.sum_congr rfl fun i _ => turnCycles_idle cfg cycles i, Finset.sum_add_distrib]
    rfl
  have stalls : (c.finishCore com).coreStall =
      (laneTurns cfg cycles .blocked + laneTurns cfg cycles .loads) % 2 ^ 32 := by
    rw [← idles, ← lanes]
    exact foldl_mod_sum _ fun i l found => (counts.lanes i l found).2.1
  refine ⟨stalls, ?_, counts.coreFree, ?_, ?_, fun ends => ?_⟩
  · rw [stalls, ← idles]
    exact counts.coreIdle
  · rw [← lanes]
    exact foldl_mod_sum _ fun i l found => (counts.lanes i l found).1
  · unfold laneTurns
    rw [← Finset.sum_add_distrib, ← Finset.sum_add_distrib, ← Finset.sum_add_distrib,
      Finset.sum_congr rfl fun i _ => turnCycles_all cfg cycles i]
    simp
  · rw [← history.chains_loaded.1 ends]
    refine Finset.sum_congr rfl fun i member => ?_
    obtain ⟨l, found⟩ : ∃ l, c.lanes[i]? = some l :=
      ⟨_, List.getElem?_eq_getElem (by rw [lanes]; exact Finset.mem_range.mp member)⟩
    rw [← (counts.lanes i l found).2.2]
    simp [Core.schChains, found]

theorem finish_core_accounts_twoSteps :
    ∃ (cfg : Config) (cycles : List (Core (List Nat) × List Node)) (k : Nat)
      (begun c : Core (List Nat)) (done : List Node),
      cfg.dirtyGraph = twoSteps ∧ History cfg cycles k begun c done false ∧
        (c.finishCore ⟨0, 0⟩).coreIdle = 9 ∧ (c.finishCore ⟨0, 0⟩).coreStall = 9 ∧
        laneTurns cfg cycles .loads = k * cfg.numChains := by
  have tested : firstIteration ⟨0, 0, 0, 3⟩ sampleLlvm twoSteps 2 ⟨0, 0⟩
      ⟨1, 25, 100, 2, 2⟩ (fun _ _ => none) ⟨fifoRuby, [], []⟩ 14 (fun _ _ c _ =>
        Loops.returns (fun (c', stops) => stops && decide (c'.coreIdle = 9)) c.runACycle) = true := by
    decide +kernel
  obtain ⟨graph, read, begun, c, done, ran, runs⟩ := exists_run tested
  have run := runs (fun _ _ => True) (fun _ => True) trivial (fun _ _ _ => trivial)
  obtain ⟨⟨c', stops⟩, stepped, ended⟩ := Loops.returns_iff.mp ran
  obtain ⟨rfl, counted⟩ := Bool.and_eq_true_iff.mp ended
  have idle : (c'.finishCore ⟨0, 0⟩).coreIdle = 9 := of_decide_eq_true counted
  obtain ⟨cycles, k, history⟩ := (run.cycle trivial stepped).history
  obtain ⟨_, same, _, _, _, loaded⟩ := finish_core_accounts history ⟨0, 0⟩
  exact ⟨_, cycles, k, begun, c', _, rfl, history, idle, same ▸ idle, loaded rfl⟩

end ChainSaw
