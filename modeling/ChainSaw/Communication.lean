import ChainSaw.SchedulerState
import Mathlib.Data.Bool.Count

set_option autoImplicit false

namespace ChainSaw

variable {σ : Type}

/-- `internal_com` and `external_com`. -/
structure Communication where
  internalCom : Nat
  externalCom : Nat
deriving DecidableEq, Repr

/-- Count one comparison of `l_source` with `l_target`. -/
def Communication.count (com : Communication) (same : Bool) : Communication :=
  if same then { com with internalCom := (com.internalCom + 1) % 2 ^ 32 }
  else { com with externalCom := (com.externalCom + 1) % 2 ^ 32 }

/-- The lane loops of `preschedule`, which stop at the first lane with the chain. -/
def firstLane (buffers : List (List Nat)) (ch sentinel : Nat) : Nat :=
  (buffers.findIdx? fun lane => ch ∈ lane).getD sentinel

/-- One turn of the lane loop of `block_preschedule`, which does not stop. -/
def blockLaneTurn (dep : ChainDependency) (state : (Nat × Nat) × Communication)
    (e : List Nat × Nat) : (Nat × Nat) × Communication :=
  let lSource := if dep.source ∈ e.1 then e.2 else state.1.1
  let lTarget := if dep.target ∈ e.1 then e.2 else state.1.2
  ((lSource, lTarget), state.2.count (lSource == lTarget))

/-- The counts that `block_preschedule` makes after a block. `l_source` and
`l_target` are not initialised; `junk k` is what they hold for entry `k`. -/
def countBlock (dependencies : List ChainDependency) (junk : Nat → Nat × Nat)
    (buffers : List (List Nat)) : Communication :=
  dependencies.zipIdx.foldl
    (fun com e => (buffers.zipIdx.foldl (blockLaneTurn e.1) (junk e.2, com)).2) ⟨0, 0⟩

namespace Core

/-- The counts at the end of `preschedule`. -/
def countPreschedule (c : Core σ) : Communication :=
  c.graph.maps.dependencies.foldl
    (fun com dep => com.count
      (firstLane c.lanePreSchedule dep.source ((c.lanes.length + 1) % 2 ^ 32) ==
        firstLane c.lanePreSchedule dep.target ((c.lanes.length + 2) % 2 ^ 32))) ⟨0, 0⟩

/-- `preschedule` with its counts. -/
def prescheduleCom (c : Core σ) : Result (Core σ × Communication) := do
  let c ← c.preschedule
  pure (c, c.countPreschedule)

/-- One block in `block_preschedule`: its chains are placed, then the counts
start again. -/
def blockPrescheduleBlock (junk : Nat → Nat → Nat × Nat) (state : Core σ × Communication)
    (e : Block × Nat) : Result (Core σ × Communication) := do
  let c ← (e.1.chains.map fun ch => (e.2, ch)).foldlM blockPrescheduleChain state.1
  pure (c, countBlock c.graph.maps.dependencies (junk e.2) c.lanePreSchedule)

/-- `block_preschedule` with its counts. -/
def blockPrescheduleCom (c : Core σ) (junk : Nat → Nat → Nat × Nat) (com : Communication) :
    Result (Core σ × Communication) := do
  check (0 < c.graph.chainGraph.length)
    "\nERROR: Before scheduling you should load the graph"
  c.graph.blockChain.zipIdx.foldlM (blockPrescheduleBlock junk) (c, com)

/-- `Core::initialize` with the counts of the scheduler it selects. -/
def initializeCoreCom (c : Core σ) (junk : Nat → Nat → Nat × Nat) (com : Communication) :
    Result (Core σ × Communication) := do
  let c ← c.initializeDepenTable
  if c.param.scheduler ≠ 0 then c.blockPrescheduleCom junk com else c.prescheduleCom

end Core

theorem foldl_count_from (bits : List Bool) (a b : Nat) :
    bits.foldl Communication.count ⟨a % 2 ^ 32, b % 2 ^ 32⟩ =
      ⟨(a + bits.count true) % 2 ^ 32, (b + bits.count false) % 2 ^ 32⟩ := by
  induction bits generalizing a b with
  | nil => rfl
  | cons bit rest ih =>
    cases bit with
    | true =>
      have step : Communication.count ⟨a % 2 ^ 32, b % 2 ^ 32⟩ true =
          ⟨(a + 1) % 2 ^ 32, b % 2 ^ 32⟩ := by
        simp [Communication.count]
      rw [List.foldl_cons, step, ih]
      simp [Nat.add_assoc, Nat.add_comm 1]
    | false =>
      have step : Communication.count ⟨a % 2 ^ 32, b % 2 ^ 32⟩ false =
          ⟨a % 2 ^ 32, (b + 1) % 2 ^ 32⟩ := by
        simp [Communication.count]
      rw [List.foldl_cons, step, ih]
      simp [Nat.add_assoc, Nat.add_comm 1]

theorem foldl_count (bits : List Bool) : bits.foldl Communication.count ⟨0, 0⟩ =
    ⟨bits.count true % 2 ^ 32, bits.count false % 2 ^ 32⟩ := by
  simpa using foldl_count_from bits 0 0

theorem countPreschedule_eq (c : Core σ) : c.countPreschedule =
    (c.graph.maps.dependencies.map fun dep =>
      firstLane c.lanePreSchedule dep.source ((c.lanes.length + 1) % 2 ^ 32) ==
        firstLane c.lanePreSchedule dep.target ((c.lanes.length + 2) % 2 ^ 32)).foldl
      Communication.count ⟨0, 0⟩ := by
  rw [List.foldl_map]
  rfl

/-- The comparisons that the lane loop of `block_preschedule` makes for an entry. -/
def laneBits (dep : ChainDependency) : Nat × Nat → List (List Nat × Nat) → List Bool
  | _, [] => []
  | state, e :: rest =>
    let lSource := if dep.source ∈ e.1 then e.2 else state.1
    let lTarget := if dep.target ∈ e.1 then e.2 else state.2
    (lSource == lTarget) :: laneBits dep (lSource, lTarget) rest

theorem length_laneBits (dep : ChainDependency) (lanes : List (List Nat × Nat)) :
    ∀ state, (laneBits dep state lanes).length = lanes.length := by
  induction lanes with
  | nil => exact fun _ => rfl
  | cons e rest ih =>
    intro state
    simp [laneBits, ih]

theorem foldl_blockLaneTurn (dep : ChainDependency) (lanes : List (List Nat × Nat)) :
    ∀ state com, (lanes.foldl (blockLaneTurn dep) (state, com)).2 =
      (laneBits dep state lanes).foldl Communication.count com := by
  induction lanes with
  | nil => exact fun _ _ => rfl
  | cons e rest ih =>
    intro state com
    rw [List.foldl_cons]
    exact ih _ _

theorem countBlock_eq (dependencies : List ChainDependency) (junk : Nat → Nat × Nat)
    (buffers : List (List Nat)) : countBlock dependencies junk buffers =
      (dependencies.zipIdx.flatMap fun e => laneBits e.1 (junk e.2) buffers.zipIdx).foldl
        Communication.count ⟨0, 0⟩ := by
  rw [List.foldl_flatMap]
  unfold countBlock
  simp only [foldl_blockLaneTurn]

/-- `block_preschedule` counts every entry once for every lane. -/
theorem countBlock_total (dependencies : List ChainDependency) (junk : Nat → Nat × Nat)
    (buffers : List (List Nat)) :
    ((countBlock dependencies junk buffers).internalCom +
      (countBlock dependencies junk buffers).externalCom) % 2 ^ 32 =
        buffers.length * dependencies.length % 2 ^ 32 := by
  have length : (dependencies.zipIdx.flatMap fun e =>
      laneBits e.1 (junk e.2) buffers.zipIdx).length = buffers.length * dependencies.length := by
    rw [List.length_flatMap]
    simp [length_laneBits, Nat.mul_comm]
  rw [countBlock_eq, foldl_count, ← length, ← List.count_true_add_count_false]
  exact (Nat.add_mod _ _ _).symm

/-- Two chains were placed on one lane. -/
def SameLane (buffers : List (List Nat)) (s t : Nat) : Prop :=
  ∃ i < buffers.length, InChain buffers i s ∧ InChain buffers i t

/-- Two chains were placed on different lanes. -/
def DifferentLanes (buffers : List (List Nat)) (s t : Nat) : Prop :=
  ∃ i < buffers.length, ∃ j < buffers.length, i ≠ j ∧ InChain buffers i s ∧ InChain buffers j t

instance (buffers : List (List Nat)) (s t : Nat) : Decidable (SameLane buffers s t) :=
  inferInstanceAs (Decidable (∃ i < buffers.length, InChain buffers i s ∧ InChain buffers i t))

instance (buffers : List (List Nat)) (s t : Nat) : Decidable (DifferentLanes buffers s t) :=
  inferInstanceAs (Decidable (∃ i < buffers.length, ∃ j < buffers.length, i ≠ j ∧
    InChain buffers i s ∧ InChain buffers j t))

/-- The counts tell the entries within a lane from those between two lanes. -/
structure CountsRight (dependencies : List ChainDependency) (buffers : List (List Nat))
    (com : Communication) : Prop where
  internal : com.internalCom =
    dependencies.countP fun dep => SameLane buffers dep.source dep.target
  external : com.externalCom =
    dependencies.countP fun dep => DifferentLanes buffers dep.source dep.target
  total : com.internalCom + com.externalCom = dependencies.length

section placement

variable {n : Nat} {buffers : List (List Nat)} (part : Partition n buffers)
include part

theorem sameLane_iff {i j s t : Nat} (first : InChain buffers i s) (second : InChain buffers j t) :
    SameLane buffers s t ↔ i = j := by
  constructor
  · rintro ⟨k, _, atS, atT⟩
    exact (part.unique first atS).trans (part.unique atT second)
  · rintro rfl
    exact ⟨i, first.lt_length, first, second⟩

theorem differentLanes_iff {s t : Nat} (first : s < n) (second : t < n) :
    DifferentLanes buffers s t ↔ ¬ SameLane buffers s t := by
  obtain ⟨i, atS⟩ := part.exists_chain first
  obtain ⟨j, atT⟩ := part.exists_chain second
  rw [sameLane_iff part atS atT]
  constructor
  · rintro ⟨i', _, j', _, apart, atS', atT'⟩
    rwa [part.unique atS atS', part.unique atT atT']
  · intro apart
    exact ⟨i, atS.lt_length, j, atT.lt_length, apart, atS, atT⟩

theorem firstLane_eq {s t : Nat} (first : s < n) (second : t < n) (a b : Nat) :
    (firstLane buffers s a == firstLane buffers t b) = decide (SameLane buffers s t) := by
  obtain ⟨i, atS⟩ := part.exists_chain first
  obtain ⟨j, atT⟩ := part.exists_chain second
  unfold firstLane
  rw [findIdx?_of_inChain part.nodup atS, findIdx?_of_inChain part.nodup atT]
  simp only [sameLane_iff part atS atT, Option.getD_some]
  rfl

/-- One comparison for each entry gives the counts of the placement. -/
theorem countsRight_of_placement {dependencies : List ChainDependency}
    (inside : ∀ dep ∈ dependencies, dep.source < n ∧ dep.target < n)
    (few : dependencies.length < 2 ^ 32) :
    CountsRight dependencies buffers ((dependencies.map fun dep =>
      decide (SameLane buffers dep.source dep.target)).foldl Communication.count ⟨0, 0⟩) := by
  let same : ChainDependency → Bool := fun dep => decide (SameLane buffers dep.source dep.target)
  have internal : (dependencies.map same).count true = dependencies.countP same := by
    rw [List.count, List.countP_map]
    exact List.countP_congr fun dep _ => by simp
  have external : (dependencies.map same).count false =
      dependencies.countP fun dep => DifferentLanes buffers dep.source dep.target := by
    rw [List.count, List.countP_map]
    refine List.countP_congr fun dep member => ?_
    simp [same, differentLanes_iff part (inside dep member).1 (inside dep member).2]
  have total := List.count_true_add_count_false (dependencies.map same)
  rw [List.length_map] at total
  change CountsRight dependencies buffers ((dependencies.map same).foldl Communication.count ⟨0, 0⟩)
  rw [foldl_count, Nat.mod_eq_of_lt (by omega), Nat.mod_eq_of_lt (by omega)]
  exact ⟨internal, external, total⟩

end placement

/-- With a single lane `block_preschedule` compares once for each entry. -/
theorem countBlock_single {n : Nat} {buffer : List Nat} (part : Partition n [buffer])
    {dependencies : List ChainDependency}
    (inside : ∀ dep ∈ dependencies, dep.source < n ∧ dep.target < n) (junk : Nat → Nat × Nat) :
    countBlock dependencies junk [buffer] = (dependencies.map fun dep =>
      decide (SameLane [buffer] dep.source dep.target)).foldl Communication.count ⟨0, 0⟩ := by
  have placed : ∀ ch < n, ch ∈ buffer := by
    intro ch below
    simpa using part.mem_flatten_iff.mpr below
  have once : (dependencies.zipIdx.flatMap fun e => laneBits e.1 (junk e.2) [(buffer, 0)]) =
      dependencies.map fun dep => decide (SameLane [buffer] dep.source dep.target) := by
    conv_rhs => rw [← List.zipIdx_map_fst 0 dependencies, List.map_map, List.map_eq_flatMap]
    refine List.flatMap_congr fun e member => ?_
    obtain ⟨below, below'⟩ := inside e.1 (List.fst_mem_of_mem_zipIdx member)
    have same : SameLane [buffer] e.1.source e.1.target :=
      ⟨0, by simp, by simpa [InChain] using placed _ below, by simpa [InChain] using placed _ below'⟩
    simp [laneBits, placed _ below, placed _ below', same]
  rw [countBlock_eq, ← once]
  rfl

/-- The counts have no influence on the placement. -/
theorem blockPrescheduleBlock_fst (junk : Nat → Nat → Nat × Nat) (blocks : List (Block × Nat)) :
    ∀ state : Core σ × Communication,
      (blocks.foldlM (Core.blockPrescheduleBlock junk) state).map (·.1) =
        (blocks.flatMap fun e => e.1.chains.map fun ch => (e.2, ch)).foldlM
          Core.blockPrescheduleChain state.1 := by
  induction blocks with
  | nil => exact fun _ => rfl
  | cons e rest ih =>
    intro state
    rw [List.foldlM_cons, List.flatMap_cons, List.foldlM_append]
    unfold Core.blockPrescheduleBlock
    cases (e.1.chains.map fun ch => (e.2, ch)).foldlM Core.blockPrescheduleChain state.1 with
    | error fault => rfl
    | ok c => exact ih _

theorem initializeCoreCom_fst (c : Core σ) (junk : Nat → Nat → Nat × Nat) (old : Communication) :
    (c.initializeCoreCom junk old).map (·.1) = c.initializeCore := by
  unfold Core.initializeCoreCom Core.initializeCore
  cases c.initializeDepenTable with
  | error fault => rfl
  | ok filled =>
    simp only [Loops.ok_bind]
    split
    · unfold Core.blockPrescheduleCom Core.blockPreschedule
      cases check (0 < filled.graph.chainGraph.length)
        "\nERROR: Before scheduling you should load the graph" with
      | error fault => rfl
      | ok _ => exact blockPrescheduleBlock_fst junk filled.graph.blockChain.zipIdx (filled, old)
    · unfold Core.prescheduleCom
      cases filled.preschedule with
      | error fault => rfl
      | ok next => rfl

/-- The counts of the last block stay. -/
theorem blockPrescheduleCom_counts {c next : Core σ} {junk : Nat → Nat → Nat × Nat}
    {old com : Communication} (returned : c.blockPrescheduleCom junk old = .ok (next, com))
    (some : c.graph.blockChain ≠ []) :
    ∃ k, com = countBlock next.graph.maps.dependencies (junk k) next.lanePreSchedule := by
  obtain ⟨_, _, looped⟩ := Loops.bind_eq_ok.mp returned
  refine Loops.foldlM_ok_visited (fun seen state => seen ≠ [] → ∃ k, state.2 =
    countBlock state.1.graph.maps.dependencies (junk k) state.1.lanePreSchedule)
    c.graph.blockChain.zipIdx ?_ (fun absurd => absurd rfl |>.elim) looped
    (by simpa [List.zipIdx_eq_nil_iff] using some)
  intro _ e _ _ _ _ _ turn _
  obtain ⟨placed, _, made⟩ := Loops.bind_eq_ok.mp turn
  cases made
  exact ⟨e.2, rfl⟩

theorem initializeCoreCom_counts {c next : Core σ} {junk : Nat → Nat → Nat × Nat}
    {old com : Communication} (some : c.graph.blockChain ≠ [])
    (returned : c.initializeCoreCom junk old = .ok (next, com)) :
    (c.param.scheduler = 0 → com = next.countPreschedule) ∧
      (c.param.scheduler ≠ 0 →
        ∃ k, com = countBlock next.graph.maps.dependencies (junk k) next.lanePreSchedule) := by
  obtain ⟨filled, tabled, scheduled⟩ := Loops.bind_eq_ok.mp returned
  obtain ⟨table, _, made⟩ := Loops.bind_eq_ok.mp tabled
  cases made
  by_cases level : c.param.scheduler = 0
  · rw [if_neg (not_not.mpr level)] at scheduled
    obtain ⟨placed, _, counted⟩ := Loops.bind_eq_ok.mp scheduled
    cases counted
    exact ⟨fun _ => rfl, fun block => absurd level block⟩
  · rw [if_pos level] at scheduled
    exact ⟨fun level' => absurd level' level,
      fun _ => blockPrescheduleCom_counts scheduled some⟩

namespace Config

variable (cfg : Config)

theorem mem_dependencies {s t : Nat} : ⟨s, t⟩ ∈ cfg.graph.maps.dependencies ↔
    Depends cfg.graph.maps.unDependencies s t := by
  obtain ⟨_, _, _, decomposed, _⟩ := initializeGraph_stages cfg.read
  obtain ⟨_, _, _, built⟩ := decompose_ok decomposed
  obtain ⟨dependencies, _, made⟩ := Loops.bind_eq_ok.mp built
  rw [← Except.ok.inj made]
  exact (depends_uniqueDependency dependencies s t).symm

theorem dependencies_inside {dep : ChainDependency} (member : dep ∈ cfg.graph.maps.dependencies) :
    dep.source < cfg.numChains ∧ dep.target < cfg.numChains :=
  cfg.depends_lt (cfg.mem_dependencies.mp member)

theorem exists_dependency : ∃ dep, dep ∈ cfg.graph.maps.dependencies := by
  obtain ⟨t, depends⟩ := cfg.accepted.root
  exact ⟨⟨0, t⟩, cfg.mem_dependencies.mpr depends⟩

theorem blockChain_ne_nil : cfg.graph.blockChain ≠ [] := by
  intro none
  have filed := cfg.accepted.blocks.length_eq
  have loaded := congrArg List.length cfg.accepted.ids
  have some := chainGraph_nonempty cfg
  simp only [none, List.flatMap_nil, List.length_nil, List.length_range, List.length_map]
    at filed loaded
  omega

end Config

section counts

variable {cfg : Config} {c built next : Core σ} (idle : Idle cfg c)
  (builds : c.buildChains = .ok built) {n : Nat} {junk : Nat → Nat → Nat × Nat}
  {old com : Communication}
  (returned : (built.coreSetIter n).initializeCoreCom junk old = .ok (next, com))
include idle builds returned

/-- The placement that `initialize` leaves and the counts that it makes of it. -/
theorem initialize_counts : next.graph = cfg.graph ∧ next.lanePreSchedule.length = cfg.numLanes ∧
    Partition cfg.numChains next.lanePreSchedule ∧
    (cfg.coreParam.scheduler = 0 → com = next.countPreschedule) ∧
    (cfg.coreParam.scheduler ≠ 0 →
      ∃ k, com = countBlock cfg.graph.maps.dependencies (junk k) next.lanePreSchedule) := by
  have begun : c.beginIteration n = .ok next := by
    unfold Core.beginIteration
    rw [builds, Loops.ok_bind, ← initializeCoreCom_fst _ junk old, returned]
    rfl
  obtain ⟨plan, stack, planned, _, rfl⟩ := idle.beginIteration_ok begun
  rw [idle.fixed.buildChains idle.inputs] at builds
  cases builds
  have graph : (c.begun cfg n plan stack).graph = cfg.graph := idle.fixed.graph
  have counted := initializeCoreCom_counts (idle.fixed.graph ▸ cfg.blockChain_ne_nil) returned
  simp only [Core.coreSetIter, idle.fixed.param, graph] at counted
  exact ⟨graph, (plan_planned planned).length, plan_partition planned, counted⟩

/-- The level scheduler counts each dependency once; the block scheduler counts it
once for every lane. -/
theorem communication_counts_iff :
    (cfg.coreParam.scheduler = 0 ∨ cfg.numLanes = 1 →
      cfg.graph.maps.dependencies.length < 2 ^ 32 →
      CountsRight cfg.graph.maps.dependencies next.lanePreSchedule com) ∧
    (CountsRight cfg.graph.maps.dependencies next.lanePreSchedule com →
      cfg.coreParam.scheduler = 0 ∨ cfg.numLanes = 1 ∨
        2 ^ 32 ≤ (cfg.numLanes - 1) * cfg.graph.maps.dependencies.length) := by
  obtain ⟨graph, lanes, part, level, block⟩ := initialize_counts idle builds returned
  have inside : ∀ dep ∈ cfg.graph.maps.dependencies,
      dep.source < cfg.numChains ∧ dep.target < cfg.numChains :=
    fun _ => cfg.dependencies_inside
  constructor
  · intro condition few
    have right := countsRight_of_placement part inside few
    by_cases scheduler : cfg.coreParam.scheduler = 0
    · rw [level scheduler, countPreschedule_eq, graph]
      rwa [List.map_congr_left fun dep member =>
        firstLane_eq part (inside dep member).1 (inside dep member).2 _ _]
    · obtain ⟨k, counted⟩ := block scheduler
      rw [condition.resolve_left scheduler, List.length_eq_one_iff] at lanes
      obtain ⟨buffer, single⟩ := lanes
      rw [single] at part right counted ⊢
      rwa [counted, countBlock_single part inside]
  · intro right
    by_cases scheduler : cfg.coreParam.scheduler = 0
    · exact .inl scheduler
    · obtain ⟨k, counted⟩ := block scheduler
      have total := countBlock_total cfg.graph.maps.dependencies (junk k) next.lanePreSchedule
      rw [← counted, right.total, lanes] at total
      obtain ⟨dep, member⟩ := cfg.exists_dependency
      obtain ⟨i, placed⟩ := part.exists_chain (inside dep member).1
      have positive : 0 < cfg.numLanes := by
        rw [← lanes]
        exact Nat.zero_lt_of_lt placed.lt_length
      have wraps : 2 ^ 32 ∣ (cfg.numLanes - 1) * cfg.graph.maps.dependencies.length := by
        rw [Nat.sub_mul, Nat.one_mul]
        exact Nat.dvd_of_mod_eq_zero (Nat.sub_mod_eq_zero_of_mod_eq total.symm)
      by_cases single : cfg.numLanes = 1
      · exact .inr (.inl single)
      · refine .inr (.inr (Nat.le_of_dvd ?_ wraps))
        exact Nat.mul_pos (by omega) (List.length_pos_of_mem member)

end counts

theorem communication_counts_joiningChains :
    ∃ (cfg : Config) (built next : Core (List Nat)) (com : Communication),
      cfg.dirtyGraph = joiningChains ∧ cfg.numLanes = 2 ∧ cfg.coreParam.scheduler = 0 ∧
      (cfg.boot ⟨fifoRuby, [], []⟩).buildChains = .ok built ∧
      (built.coreSetIter 0).initializeCoreCom (fun _ _ => (0, 0)) ⟨0, 0⟩ = .ok (next, com) ∧
      CountsRight cfg.graph.maps.dependencies next.lanePreSchedule com := by
  have tested : Loops.returns (fun graph =>
      Loops.returns (fun built : Core (List Nat) =>
        Loops.returns (fun _ => decide (graph.maps.dependencies.length = 3))
          ((built.coreSetIter 0).initializeCoreCom (fun _ _ => (0, 0)) ⟨0, 0⟩))
        (Core.new 2 graph ⟨0, 0⟩ ⟨1, 25, 100, 2, 2⟩ sampleLlvm (fun _ _ => none)
          ⟨fifoRuby, [], []⟩).buildChains)
      (initializeGraph ⟨0, 0, 0, 3⟩ sampleLlvm joiningChains) = true := by
    decide +kernel
  obtain ⟨graph, read, tested⟩ := Loops.returns_iff.mp tested
  obtain ⟨built, builds, tested⟩ := Loops.returns_iff.mp tested
  obtain ⟨⟨next, com⟩, returned, tested⟩ := Loops.returns_iff.mp tested
  have entries : graph.maps.dependencies.length = 3 := of_decide_eq_true tested
  let cfg : Config := ⟨⟨0, 0, 0, 3⟩, sampleLlvm, joiningChains, graph, read, 2, ⟨0, 0⟩,
    ⟨1, 25, 100, 2, 2⟩, fun _ _ => none⟩
  have right := (communication_counts_iff (boot_idle cfg _) builds returned).1 (.inl rfl)
    (by simp [cfg, entries])
  exact ⟨cfg, built, next, com, rfl, rfl, rfl, builds, returned, right⟩

/-- With two lanes the block scheduler counts each of the three dependencies twice,
whatever the uninitialised variables hold. -/
theorem joiningChains_counted_twice :
    ∃ (cfg : Config) (built : Core (List Nat)), cfg.dirtyGraph = joiningChains ∧
      cfg.numLanes = 2 ∧ cfg.coreParam.scheduler = 1 ∧
      cfg.graph.maps.dependencies.length = 3 ∧
      (cfg.boot ⟨fifoRuby, [], []⟩).buildChains = .ok built ∧
      ∀ (junk : Nat → Nat → Nat × Nat) (old : Communication), ∃ next com,
        (built.coreSetIter 0).initializeCoreCom junk old = .ok (next, com) ∧
        ¬ CountsRight cfg.graph.maps.dependencies next.lanePreSchedule com := by
  have tested : Loops.returns (fun graph =>
      Loops.returns (fun built : Core (List Nat) =>
        Loops.returns (fun _ => decide (graph.maps.dependencies.length = 3))
          (built.coreSetIter 0).initializeCore)
        (Core.new 2 graph ⟨0, 1⟩ ⟨1, 25, 100, 2, 2⟩ sampleLlvm (fun _ _ => none)
          ⟨fifoRuby, [], []⟩).buildChains)
      (initializeGraph ⟨0, 0, 0, 3⟩ sampleLlvm joiningChains) = true := by
    decide +kernel
  obtain ⟨graph, read, tested⟩ := Loops.returns_iff.mp tested
  obtain ⟨built, builds, tested⟩ := Loops.returns_iff.mp tested
  obtain ⟨next, initialized, tested⟩ := Loops.returns_iff.mp tested
  have entries : graph.maps.dependencies.length = 3 := of_decide_eq_true tested
  let cfg : Config := ⟨⟨0, 0, 0, 3⟩, sampleLlvm, joiningChains, graph, read, 2, ⟨0, 1⟩,
    ⟨1, 25, 100, 2, 2⟩, fun _ _ => none⟩
  refine ⟨cfg, built, rfl, rfl, rfl, entries, builds, fun junk old => ?_⟩
  have same := initializeCoreCom_fst (built.coreSetIter 0) junk old
  rw [initialized] at same
  cases returned : (built.coreSetIter 0).initializeCoreCom junk old with
  | error fault =>
    rw [returned] at same
    cases same
  | ok result =>
    obtain ⟨next, com⟩ := result
    refine ⟨next, com, rfl, fun right => ?_⟩
    obtain ⟨_, lanes, _, _, block⟩ := initialize_counts (boot_idle cfg _) builds returned
    obtain ⟨k, counted⟩ := block Nat.one_ne_zero
    have total := countBlock_total cfg.graph.maps.dependencies (junk k) next.lanePreSchedule
    rw [← counted, right.total, lanes] at total
    simp [cfg, entries] at total

end ChainSaw
