import ChainSaw.DataflowOrder
import ChainSaw.Lib.Dataflow

set_option autoImplicit false

/- The cores against the dataflow machine of their chains. -/
namespace ChainSaw

open Std (TreeMap TreeSet)
open Relation (TransGen)

variable {σ : Type}

/-- The chains as tasks: a chain waits for the chains it depends on, and reports
with every instruction of its own that completes. -/
def Config.tasks (cfg : Config) : Dataflow.Tasks Nat Node where
  parent := Depends cfg.graph.maps.unDependencies
  work := cfg.instructions
  owner := Node.cId

/-- A core as a dataflow machine, after the instructions `done`. -/
def Core.dataflow (c : Core σ) (done : List Node) : Dataflow.State Nat Nat Node where
  waiting i := c.lanePreSchedule.getD i []
  queue i := (c.lanes[i]?.map Lane.contents).getD []
  reported := {s | s ∈ done.map (·.cId)}

/-- The chain that a lane loads is the first of its buffer that is ready. -/
theorem scheduleLane_first {c c' : Core σ} {i : Nat} (returned : c.scheduleLane i = .ok c') :
    ∃ lane scheBuff, c.lanes[i]? = some lane ∧ c.lanePreSchedule[i]? = some scheBuff ∧
      (c' = c ∨ c' = { c with coreFree := (c.coreFree + 1) % 2 ^ 32 } ∨ c' = c.stalled i ∨
        ∃ before t after, scheBuff = before ++ t :: after ∧ (∀ u ∈ before, ¬ c.Ready u) ∧
          c.Ready t ∧ (c.stalled i).loadChain i scheBuff t = .ok c') := by
  unfold Core.scheduleLane at returned
  split at returned
  · rename_i lane scheBuff laneAt buffAt
    refine ⟨lane, scheBuff, laneAt, buffAt, ?_⟩
    split at returned
    · cases returned
      exact .inl rfl
    · split at returned
      · cases returned
        exact .inr (.inl rfl)
      · obtain ⟨found, search, returned⟩ := Loops.bind_eq_ok.mp returned
        cases found with
        | none =>
          cases returned
          exact .inr (.inr (.inl rfl))
        | some t =>
          obtain ⟨before, t', after, rfl, passed, here⟩ := Loops.findSomeM?_some_iff.mp search
          obtain ⟨status, row, here⟩ := Loops.bind_eq_ok.mp here
          split at here
          · rename_i zero
            cases here
            refine .inr (.inr (.inr ⟨before, t, after, rfl, fun u member => ?_,
              (rowStatus_eq_zero_iff row).mp zero, returned⟩))
            obtain ⟨status', row', tried⟩ := Loops.bind_eq_ok.mp (passed u member)
            split at tried
            · cases tried
            · rename_i positive
              exact fun ready => positive ((rowStatus_eq_zero_iff row').mpr ready)
          · cases here
  · cases returned

theorem stalled_map {α : Type} {g : Lane → α}
    (stalls : ∀ (l : Lane) (stall : Nat), g { l with stall } = g l) (c : Core σ) (i j : Nat) :
    (c.stalled i).lanes[j]?.map g = c.lanes[j]?.map g := by
  have same : (c.stalled i).lanes.map g = c.lanes.map g :=
    map_modify_of_same (fun l => stalls l _) c.lanes i
  rw [← List.getElem?_map, same, List.getElem?_map]

/-- What a lane gains from a change at lane `i`. -/
theorem map_modify_append {β : Type} {g : Lane → List β} {lanes : List Lane} {i : Nat} {lane : Lane}
    {f : Lane → Lane} {extra : List β} (found : lanes[i]? = some lane)
    (grown : g (f lane) = g lane ++ extra) (j : Nat) :
    ((lanes.modify i f)[j]?.map g).getD [] =
      (lanes[j]?.map g).getD [] ++ if j = i then extra else [] := by
  rw [List.getElem?_modify]
  by_cases here : j = i
  · subst here
    simp [found, grown]
  · simp [here, Ne.symm here]

section schedule

variable {cfg : Config} {plan : Plan} {begun c c' : Core σ} {done : List Node}
  (old : Scheduled cfg plan begun c done (done.map (·.cId)))
include old

theorem Scheduled.ready_iff (t : Nat) :
    c.Ready t ↔ Dataflow.Ready cfg.tasks (c.dataflow done) t := by
  constructor
  · intro ready s depends
    have zero := ready s (by rw [old.numChains]; exact (cfg.depends_lt depends).1)
    rw [old.table] at zero
    by_contra unfinished
    exact absurd zero (by rw [if_pos ⟨depends, unfinished⟩]; exact one_ne_zero)
  · intro ready s _
    rw [old.table, if_neg]
    rintro ⟨depends, unfinished⟩
    exact unfinished (ready s depends)

/-- A turn of the scheduler at a lane is no step of the dataflow machine, or a load. -/
theorem Scheduled.scheduleLane_dataflow {i : Nat} (returned : c.scheduleLane i = .ok c') :
    ∃ events, Dataflow.Run cfg.tasks (c.dataflow done) events (c'.dataflow done) ∧
      Dataflow.finished events = [] ∧
      ∀ j, c'.schChains j = c.schChains j ++ events.filterMap (Dataflow.loadedOn j) := by
  obtain ⟨lane, scheBuff, laneAt, buffAt, rfl | rfl | rfl | ⟨before, t, after, rfl, blocked, ready,
    loaded⟩⟩ := scheduleLane_first returned
  · exact ⟨[], .nil, rfl, fun _ => (List.append_nil _).symm⟩
  · exact ⟨[], .nil, rfl, fun _ => (List.append_nil _).symm⟩
  · refine ⟨[], ?_, rfl, fun j => ?_⟩
    · have same : (c.stalled i).dataflow done = c.dataflow done :=
        Dataflow.State.ext rfl
          (funext fun j => congrArg (fun queued => queued.getD [])
            (stalled_map (g := Lane.contents) (fun _ _ => rfl) c i j)) rfl
      rw [same]
      exact .nil
    · unfold Core.schChains
      rw [stalled_map fun _ _ => rfl]
      exact (List.append_nil _).symm
  · have stalledAt : (c.stalled i).lanes[i]? =
        some { lane with stall := (lane.stall + 1) % 2 ^ 32 } := by
      simp [Core.stalled, laneAt]
    obtain ⟨ch, found, rfl⟩ := loadChain_ok loaded
    obtain ⟨_, rfl⟩ := old.find_ok found
    have erased : (before ++ t :: after).erase t = before ++ after := by
      rw [List.erase_append_right _ fun member => blocked t member ready, List.erase_cons_head]
    have buffer : c.lanePreSchedule.getD i [] = before ++ t :: after := getD_of_found buffAt
    refine ⟨[.load i t], ?_, rfl, fun j => ?_⟩
    · convert Dataflow.Run.single (.load (i := i) (t := t) (s := c.dataflow done) buffer
        (fun u member => mt (old.ready_iff u).mpr (blocked u member))
        ((old.ready_iff t).mp ready)) using 1
      refine Dataflow.State.ext (funext fun j => ?_) (funext fun j => ?_) rfl
      · change (c.lanePreSchedule.set i ((before ++ t :: after).erase t)).getD j [] = _
        rw [erased, getD_set buffAt]
        exact (Function.update_apply (c.dataflow done).waiting i (before ++ after) j).symm
      · have grown := map_modify_append (g := Lane.contents)
          (f := (·.loadInstructionQueue (cfg.chain t).instructionList t)) stalledAt
          (Lane.loadInstructionQueue_contents _ _ t) j
        rw [stalled_map (g := Lane.contents) fun _ _ => rfl] at grown
        refine grown.trans ?_
        by_cases here : j = i
        · subst here
          simp [Core.dataflow, Config.tasks, Config.chain]
        · simp [Core.dataflow, here]
    · have grown := map_modify_append (g := fun l => l.schChainsList) 
        (f := (·.loadInstructionQueue (cfg.chain t).instructionList t)) stalledAt rfl j
      rw [stalled_map (g := fun l => l.schChainsList) fun _ _ => rfl] at grown
      refine grown.trans ?_
      by_cases here : j = i
      · simp [Core.schChains, Dataflow.loadedOn, here]
      · simp [Core.schChains, Dataflow.loadedOn, here, Ne.symm here]

theorem Scheduled.oooScheduler_dataflow (returned : c.oooScheduler = .ok c') :
    ∃ events, Dataflow.Run cfg.tasks (c.dataflow done) events (c'.dataflow done) ∧
      Dataflow.finished events = [] ∧
      ∀ j, c'.schChains j = c.schChains j ++ events.filterMap (Dataflow.loadedOn j) := by
  have kept := Loops.foldlM_ok (fun mid => Scheduled cfg plan begun mid done (done.map (·.cId)) ∧
    ∃ events, Dataflow.Run cfg.tasks (c.dataflow done) events (mid.dataflow done) ∧
      Dataflow.finished events = [] ∧
      ∀ j, mid.schChains j = c.schChains j ++ events.filterMap (Dataflow.loadedOn j)) _ ?_
    ⟨old, [], .nil, rfl, fun _ => (List.append_nil _).symm⟩ returned
  · exact kept.2
  · rintro mid ⟨scheduled, events, run, quiet, loads⟩ i _ next stepped
    obtain ⟨later, run', quiet', loads'⟩ := scheduled.scheduleLane_dataflow stepped
    refine ⟨scheduled.scheduleLane stepped, events ++ later, run.trans run', ?_, fun j => ?_⟩
    · rw [Dataflow.finished_append, quiet, quiet', List.append_nil]
    · rw [loads' j, loads j, List.filterMap_append, List.append_assoc]

end schedule

/-- The instructions that complete in a cycle, with their lanes. -/
def Core.completionsAt (c : Core σ) : List (Nat × Node) :=
  c.lanes.zipIdx.filterMap fun e => e.1.retiring.map fun ins => (e.2, ins)

theorem completionsAt_map_snd (c : Core σ) : c.completionsAt.map Prod.snd = c.completions := by
  have first : ∀ e : Lane × Nat, (e.1.retiring.map fun ins => (e.2, ins)).map Prod.snd =
      (Lane.retiring ∘ Prod.fst) e := by
    intro e
    simp [Option.map_map, Function.comp_def]
  unfold Core.completionsAt Core.completions
  rw [List.map_filterMap, List.filterMap_congr fun e _ => first e, ← List.filterMap_map,
    List.zipIdx_map_fst]

theorem completionsAt_nodup (c : Core σ) : (c.completionsAt.map Prod.fst).Nodup := by
  have indices : (c.lanes.zipIdx.map Prod.snd).Nodup := by
    rw [List.zipIdx_map_snd]
    exact List.nodup_range'
  refine List.Nodup.sublist ?_ indices
  unfold Core.completionsAt
  induction c.lanes.zipIdx with
  | nil => exact List.Sublist.slnil
  | cons e rest ih =>
    cases completes : e.1.retiring with
    | none => simpa [completes] using ih.cons e.2
    | some ins => simpa [completes] using ih.cons_cons e.2

theorem mem_completionsAt {c : Core σ} {e : Nat × Node} :
    e ∈ c.completionsAt ↔ ∃ l, c.lanes[e.1]? = some l ∧ l.retiring = some e.2 := by
  unfold Core.completionsAt
  rw [List.mem_filterMap]
  constructor
  · rintro ⟨⟨l, i⟩, member, found⟩
    obtain ⟨ins, completes, rfl⟩ := Option.map_eq_some_iff.mp found
    exact ⟨l, List.mem_zipIdx_iff_getElem?.mp member, completes⟩
  · rintro ⟨l, found, completes⟩
    exact ⟨(l, e.1), List.mem_zipIdx_iff_getElem?.mpr found, by simp [completes]⟩

/-- Waking a lane up only changes its counter. -/
theorem woken_map {α : Type} {g : Lane → α} (wakes : ∀ l : Lane, g (l.setExeCounter 0) = g l)
    {lanes lanes' : List Lane} (woken : List.Forall₂ Woken lanes lanes') :
    lanes'.map g = lanes.map g := by
  induction woken with
  | nil => rfl
  | cons head _ ih =>
    rw [List.map_cons, List.map_cons, ih]
    rcases head with rfl | rfl
    · rfl
    · rw [wakes]

theorem cycled_schChains (l : Lane) : (Core.cycled l).schChainsList = l.schChainsList :=
  congrArg (·.2.2.2) (Lane.run_fixed l ⟨[], []⟩)

section cycle

variable {cfg : Config} {plan : Plan} {begun c c' : Core σ} {done : List Node}
  (running : Running cfg plan begun c done)
include running

/-- Running the lanes finishes the instructions at the heads of their queues. -/
theorem Running.lanes_dataflow {released : Core σ}
    (woken : List.Forall₂ Woken (c.lanes.map Core.cycled) released.lanes)
    (buffers : released.lanePreSchedule = c.lanePreSchedule) :
    Dataflow.Run cfg.tasks (c.dataflow done) (Dataflow.finishAll c.completionsAt)
      (released.dataflow (done ++ c.completions)) := by
  have contents : released.lanes.map Lane.contents =
      c.lanes.map fun l => (Core.cycled l).contents := by
    rw [woken_map (fun _ => rfl) woken, List.map_map]
    rfl
  refine Dataflow.Run.finishes (completionsAt_nodup c) ?_ ?_ ?_ ?_
  · rintro ⟨i, ins⟩ member
    obtain ⟨l, found, completes⟩ := mem_completionsAt.mp member
    have split := Lane.run_contents (running.lanes l (List.mem_of_getElem? found)) ⟨[], []⟩
    simp [Core.dataflow, found, split, completes]
  · funext i
    simp [Core.dataflow, buffers]
  · intro i
    simp only [Core.dataflow, ← List.getElem?_map, contents]
    rw [List.getElem?_map, List.getElem?_map]
    cases found : c.lanes[i]? with
    | none => simp
    | some l =>
      have split := Lane.run_contents (running.lanes l (List.mem_of_getElem? found)) ⟨[], []⟩
      change l.contents = l.retiring.toList ++ (Core.cycled l).contents at split
      have listed : i ∈ c.completionsAt.map Prod.fst ↔ ∃ ins, l.retiring = some ins := by
        rw [List.mem_map]
        constructor
        · rintro ⟨e, member, rfl⟩
          obtain ⟨l', found', completes⟩ := mem_completionsAt.mp member
          rw [found] at found'
          cases found'
          exact ⟨e.2, completes⟩
        · rintro ⟨ins, completes⟩
          exact ⟨(i, ins), mem_completionsAt.mpr ⟨l, found, completes⟩, rfl⟩
      cases completes : l.retiring with
      | none =>
        rw [if_neg (by simp [listed, completes])]
        simp [split, completes]
      | some ins =>
        rw [if_pos (by simp [listed, completes])]
        simp [split, completes]
  · intro t
    rw [← completionsAt_map_snd]
    simp [Core.dataflow, Config.tasks]

/-- A cycle of the core is a run of the dataflow machine. -/
theorem Running.cycle_dataflow {finished : Bool} (returned : c.runACycle = .ok (c', finished)) :
    ∃ events, Dataflow.Run cfg.tasks (c.dataflow done) events
        (c'.dataflow (done ++ c.completions)) ∧
      Dataflow.finished events = c.completions ∧
      ∀ j, c'.schChains j = c.schChains j ++ events.filterMap (Dataflow.loadedOn j) := by
  obtain ⟨released, woken, kept, scheduled, scheduling, _⟩ := running.runACycle_released returned
  have first := running.lanes_dataflow woken (congrArg (·.2.1) kept)
  obtain ⟨events, run, quiet, loads⟩ := scheduled.oooScheduler_dataflow scheduling
  refine ⟨_, first.trans run, ?_, fun j => ?_⟩
  · rw [Dataflow.finished_append, Dataflow.finished_finishAll, quiet, List.append_nil,
      completionsAt_map_snd]
  · have chains : released.lanes.map (·.schChainsList) = c.lanes.map (·.schChainsList) := by
      rw [woken_map (fun _ => rfl) woken, List.map_map]
      exact List.map_congr_left fun l _ => cycled_schChains l
    rw [List.filterMap_append, Dataflow.loadedOn_finishAll, List.nil_append, loads j]
    simp only [Core.schChains, ← List.getElem?_map, chains]

end cycle

theorem Reach.dataflow {cfg : Config} {Begin : Nat → Ruby σ → Prop} {Cycle : Core σ → Prop}
    {begun c : Core σ} {done : List Node} {running : Bool}
    (reach : Reach cfg Begin Cycle begun c done running) :
    ∃ events, Dataflow.Run cfg.tasks (begun.dataflow []) events (c.dataflow done) ∧
      Dataflow.finished events = done ∧
      ∀ j, c.schChains j = begun.schChains j ++ events.filterMap (Dataflow.loadedOn j) := by
  induction reach with
  | boot ruby => exact ⟨[], .nil, rfl, fun _ => (List.append_nil _).symm⟩
  | begin n ruby _ _ _ _ => exact ⟨[], .nil, rfl, fun _ => (List.append_nil _).symm⟩
  | cycle reach _ returned ih =>
    obtain ⟨events, run, finished, loads⟩ := ih
    obtain ⟨plan, running⟩ := reach.running
    obtain ⟨later, run', finished', loads'⟩ := running.cycle_dataflow returned
    refine ⟨events ++ later, run.trans run', ?_, fun j => ?_⟩
    · rw [Dataflow.finished_append, finished, finished']
    · rw [loads' j, loads j, List.filterMap_append, List.append_assoc]

/-- The core is a dataflow machine of its chains: what completes and what is loaded in
an iteration, in the order of the cycles and of the lanes, is a run of that machine.
A chain is loaded after an instruction of each chain it depends on; if the lanes were
empty at the start, no instruction completes before one of each chain that its own
depends on, directly or through others. -/
theorem core_refines_dataflow {cfg : Config} {begun c : Core σ} {done : List Node} {running : Bool}
    (run : Run cfg begun c done running) :
    ∃ events, Dataflow.Run cfg.tasks (begun.dataflow []) events (c.dataflow done) ∧
      Dataflow.finished events = done ∧
      (∀ i, c.schChains i = begun.schChains i ++ events.filterMap (Dataflow.loadedOn i)) ∧
      (∀ before i t after, events = before ++ .load i t :: after →
        ∀ s, Depends cfg.graph.maps.unDependencies s t →
          ∃ j ins, .finish j ins ∈ before ∧ ins.cId = s) ∧
      (laneContents begun.lanes = [] →
        ∀ before i ins after, events = before ++ .finish i ins :: after →
          ∀ s, TransGen (Depends cfg.graph.maps.unDependencies) s ins.cId →
            ∃ j other, .finish j other ∈ before ∧ other.cId = s) := by
  obtain ⟨events, machine, finished, loads⟩ := run.dataflow
  refine ⟨events, machine, finished, loads, ?_, ?_⟩
  · intro before i t after split s depends
    rcases machine.load_after split depends with early | later
    · cases early
    · exact later
  · intro clean before i ins after split s ancestor
    have idle : ∀ i, (begun.dataflow []).queue i = [] := by
      intro i
      cases found : begun.lanes[i]? with
      | none => simp [Core.dataflow, found]
      | some l =>
        have empty := List.flatMap_eq_nil_iff.mp clean l (List.mem_of_getElem? found)
        simpa [Core.dataflow, found] using empty
    have none : (begun.dataflow []).reported = ∅ := Set.eq_empty_of_forall_notMem fun s early => by
      cases early
    exact machine.causal idle none (fun t a inside => cfg.cId_of_mem inside) ancestor split rfl

theorem core_refines_dataflow_pipelinedSource :
    ∃ (cfg : Config) (begun c : Core (List Nat)) (done : List Node) (events : _),
      cfg.dirtyGraph = pipelinedSource ∧ done.map (·.newId) = [0, 1, 2] ∧
        laneContents begun.lanes = [] ∧
        Dataflow.Run cfg.tasks (begun.dataflow []) events (c.dataflow done) ∧
        Dataflow.finished events = done := by
  have tested : firstIteration ⟨0, 0, 0, 3⟩ sampleLlvm pipelinedSource 2 ⟨0, 0⟩
      ⟨1, 25, 100, 2, 2⟩ (fun _ _ => none) ⟨fifoRuby, [], []⟩ 24 (fun _ begun _ done =>
        decide (done.map (·.newId) = [0, 1, 2] ∧ laneContents begun.lanes = [])) = true := by
    decide +kernel
  obtain ⟨graph, read, begun, c, done, facts, runs⟩ := exists_run tested
  have run := runs (fun _ _ => True) (fun _ => True) trivial (fun _ _ _ => trivial)
  obtain ⟨completed, empty⟩ := of_decide_eq_true facts
  obtain ⟨events, machine, finished, _⟩ := core_refines_dataflow run
  exact ⟨_, begun, c, done, events, rfl, completed, empty, machine, finished⟩

end ChainSaw
