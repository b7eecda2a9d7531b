import ChainSaw.Runs

set_option autoImplicit false

namespace ChainSaw

variable {σ : Type}

theorem forall₂_getElem? {R : Lane → Lane → Prop} {lanes lanes' : List Lane}
    (related : List.Forall₂ R lanes lanes') {i : Nat} {l' : Lane} (found : lanes'[i]? = some l') :
    ∃ l, lanes[i]? = some l ∧ R l l' := by
  induction related generalizing i with
  | nil => simp at found
  | @cons l first _ _ head _ ih =>
    cases i with
    | zero =>
      have same : first = l' := by simpa using found
      exact ⟨l, by simp, same ▸ head⟩
    | succ i => simpa using ih (by simpa using found)

/-- A property of lanes by position that everything which happens to a lane
keeps. Loading is the only step that brings instructions into a lane. -/
structure LaneInvariant (cfg : Config) (P : Nat → Lane → Prop) : Prop where
  new : ∀ i < cfg.numLanes, P i (Lane.new i cfg.coreParam.memoryMode 300 cfg.laneParam)
  run : ∀ i l, l.Valid → P i l → P i (Core.cycled l)
  wake : ∀ i l, P i l → P i (l.setExeCounter 0)
  stall : ∀ i l stall, P i l → P i { l with stall }
  load : ∀ plan i l id, cfg.plan = .ok plan → id ∈ plan.buffers.getD i [] → id < cfg.numChains →
    P i l → P i (l.loadInstructionQueue (cfg.instructions id) id)

/-- The property holds of every lane. -/
def Lanes (P : Nat → Lane → Prop) (lanes : List Lane) : Prop :=
  ∀ i l, lanes[i]? = some l → P i l

theorem Lanes.modify {P : Nat → Lane → Prop} {lanes : List Lane} {f : Lane → Lane} {i : Nat}
    (holds : Lanes P lanes) (kept : ∀ l, lanes[i]? = some l → P i l → P i (f l)) :
    Lanes P (lanes.modify i f) := by
  intro j l found
  rw [List.getElem?_modify] at found
  cases before : lanes[j]? with
  | none => simp [before] at found
  | some l' =>
    by_cases same : i = j
    · subst same
      have changed : f l' = l := by simpa [before] using found
      rw [← changed]
      exact kept l' before (holds i l' before)
    · have unchanged : l' = l := by simpa [before, same] using found
      rw [← unchanged]
      exact holds j l' before

namespace LaneInvariant

variable {cfg : Config} {P : Nat → Lane → Prop} (inv : LaneInvariant cfg P)
include inv

theorem cycled {lanes : List Lane} (valid : ∀ l ∈ lanes, l.Valid) (holds : Lanes P lanes) :
    Lanes P (lanes.map Core.cycled) := by
  intro i l found
  rw [List.getElem?_map] at found
  obtain ⟨before, at_i, rfl⟩ := Option.map_eq_some_iff.mp found
  exact inv.run i before (valid before (List.mem_of_getElem? at_i)) (holds i before at_i)

theorem woken {lanes lanes' : List Lane} (woken : List.Forall₂ Woken lanes lanes')
    (holds : Lanes P lanes) : Lanes P lanes' := by
  intro i l found
  obtain ⟨before, at_i, same | woke⟩ := forall₂_getElem? woken found
  · rw [same]
    exact holds i before at_i
  · rw [woke]
    exact inv.wake i before (holds i before at_i)

variable {plan : Plan} {begun c c' : Core σ} {done : List Node} {consumed : List Nat}

theorem scheduleLane (old : Scheduled cfg plan begun c done consumed) {i : Nat}
    (returned : c.scheduleLane i = .ok c') (holds : Lanes P c.lanes) : Lanes P c'.lanes := by
  obtain ⟨lane, scheBuff, laneAt, buffAt, ⟨_, rfl⟩ | ⟨_, _, rfl⟩ | ⟨_, _, _, rfl⟩ |
    ⟨freeId, _, member, _, loaded⟩⟩ := scheduleLane_cases returned
  · exact holds
  · exact holds
  · exact holds.modify fun l _ => inv.stall i l _
  · obtain ⟨ch, found, rfl⟩ := loadChain_ok loaded
    obtain ⟨known, rfl⟩ := (old.stalled i).find_ok found
    have stalled : Lanes P (c.stalled i).lanes := holds.modify fun l _ => inv.stall i l _
    refine stalled.modify fun l _ => inv.load plan i l freeId old.planned ?_ known
    obtain ⟨loads, _, shared⟩ := old.loads i
    refine shared.subset (List.mem_append_right _ ?_)
    rw [getD_of_found buffAt]
    exact member

theorem oooScheduler (old : Scheduled cfg plan begun c done consumed)
    (returned : c.oooScheduler = .ok c') (holds : Lanes P c.lanes) : Lanes P c'.lanes := by
  have kept := Loops.foldlM_ok
    (fun mid => Scheduled cfg plan begun mid done consumed ∧ Lanes P mid.lanes) _
    (fun mid ⟨old', holds'⟩ i _ next stepped =>
      ⟨old'.scheduleLane stepped, inv.scheduleLane old' stepped holds'⟩) ⟨old, holds⟩ returned
  exact kept.2

end LaneInvariant

/-- A lane invariant holds in every state of every run. -/
theorem Reach.lanes {cfg : Config} {P : Nat → Lane → Prop} (inv : LaneInvariant cfg P)
    {Begin : Nat → Ruby σ → Prop} {Cycle : Core σ → Prop} {begun c : Core σ} {done : List Node}
    {running : Bool} (reach : Reach cfg Begin Cycle begun c done running) : Lanes P c.lanes := by
  induction reach with
  | boot ruby =>
    intro i l found
    have inside : i < cfg.numLanes := by
      have := (List.getElem?_eq_some_iff.mp found).1
      simpa [Config.boot, Core.new] using this
    have same : Lane.new i cfg.coreParam.memoryMode 300 cfg.laneParam = l := by
      simpa [Config.boot, Core.new, inside] using found
    rw [← same]
    exact inv.new i inside
  | begin n ruby earlier _ returned ih =>
    obtain ⟨_, _, _, _, rfl⟩ := (earlier.idle.withRuby ruby).beginIteration_ok returned
    exact ih
  | cycle earlier _ returned ih =>
    obtain ⟨plan, running⟩ := earlier.running
    obtain ⟨released, woken, _, scheduled, scheduling, _⟩ := running.runACycle_stages returned
    exact inv.oooScheduler scheduled scheduling (inv.woken woken (inv.cycled running.lanes ih))

/-- The identity and the parameters of a lane. -/
def Lane.kind (l : Lane) : Nat × Nat × LaneParam := (l.laneID, l.memoryMode, l.laneParam)

/-- Lane `i` has its own number and holds instructions of its own chains only. -/
structure Placed (cfg : Config) (i : Nat) (l : Lane) : Prop where
  kind : l.kind = (i, cfg.coreParam.memoryMode, cfg.laneParam)
  owned : ∀ ins ∈ l.contents, ∃ plan, cfg.plan = .ok plan ∧ ins.cId ∈ plan.buffers.getD i [] ∧
    ins.cId < cfg.numChains ∧ ins ∈ cfg.instructions ins.cId

theorem cycled_kind (l : Lane) : (Core.cycled l).kind = l.kind :=
  congrArg (fun fixed => (fixed.1, fixed.2.1, fixed.2.2.1)) (Lane.run_fixed l ⟨[], []⟩)

theorem placed_invariant (cfg : Config) : LaneInvariant cfg (Placed cfg) where
  new := fun i _ => ⟨rfl, by simp [Lane.contents, Lane.new]⟩
  run := by
    intro i l valid placed
    refine ⟨(cycled_kind l).trans placed.kind, fun ins member => placed.owned ins ?_⟩
    rw [Lane.run_contents valid ⟨[], []⟩]
    exact List.mem_append_right _ member
  wake := fun i l placed => ⟨placed.kind, placed.owned⟩
  stall := fun i l _ placed => ⟨placed.kind, placed.owned⟩
  load := by
    intro plan i l id planned member known placed
    refine ⟨placed.kind, fun ins inside => ?_⟩
    rw [Lane.loadInstructionQueue_contents] at inside
    rcases List.mem_append.mp inside with old | fresh
    · exact placed.owned ins old
    · have source := Config.cId_of_mem fresh
      exact ⟨plan, planned, source ▸ member, source ▸ known, source ▸ fresh⟩

theorem Reach.placed {cfg : Config} {Begin : Nat → Ruby σ → Prop} {Cycle : Core σ → Prop}
    {begun c : Core σ} {done : List Node} {running : Bool}
    (reach : Reach cfg Begin Cycle begun c done running) : Lanes (Placed cfg) c.lanes :=
  reach.lanes (placed_invariant cfg)

theorem toInt32_of_lt {x : Nat} (small : x < 2 ^ 31) : toInt32 x = x := by
  unfold toInt32 Int.bmod
  dsimp only
  split <;> omega

theorem Config.node_latency_lt (cfg : Config) {i v : Nat}
    (small : ∀ latency, cfg.instructionLlvm (cfg.opcode v) = some latency → latency < 2 ^ 31) :
    (cfg.node i v).latency < 2 ^ 31 := by
  simp only [Config.node]
  cases found : cfg.instructionLlvm (cfg.opcode v) with
  | none => simp
  | some latency => exact small latency found

end ChainSaw
