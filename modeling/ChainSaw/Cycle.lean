import ChainSaw.Iteration

set_option autoImplicit false

namespace ChainSaw

open Std (TreeMap TreeSet)

variable {σ : Type}

def laneContents (lanes : List Lane) : List Node := lanes.flatMap Lane.contents

def inputContents (inputs : List Chain) : List Node := inputs.flatMap (·.instructionList)

namespace Core

/-- The instructions that the next cycle completes. -/
def completions (c : Core σ) : List Node := c.lanes.filterMap Lane.retiring

/-- The chains that lane `i` has been loaded with since the simulation started. -/
def schChains (c : Core σ) (i : Nat) : List Nat := (c.lanes[i]?.map (·.schChainsList)).getD []

end Core

theorem laneContents_cycled {lanes : List Lane} (valid : ∀ l ∈ lanes, l.Valid) :
    (laneContents lanes).Perm
      (lanes.filterMap Lane.retiring ++ laneContents (lanes.map Core.cycled)) := by
  induction lanes with
  | nil => simp [laneContents]
  | cons l rest ih =>
    have tail := ih fun l member => valid l (by simp [member])
    have head := Lane.run_contents (valid l (by simp)) ⟨[], []⟩
    simp only [laneContents, List.map_cons, List.flatMap_cons] at tail ⊢
    rw [head]
    change (l.retiring.toList ++ (Core.cycled l).contents ++ _).Perm _
    cases retired : l.retiring with
    | none =>
      simp only [List.filterMap_cons, retired, Option.toList_none, List.nil_append]
      refine (tail.append_left _).trans ?_
      rw [← List.append_assoc, ← List.append_assoc]
      exact List.perm_append_comm.append_right _
    | some ins =>
      simp only [List.filterMap_cons, retired, Option.toList_some, List.cons_append,
        List.nil_append]
      refine List.Perm.cons ins ((tail.append_left _).trans ?_)
      rw [← List.append_assoc, ← List.append_assoc]
      exact List.perm_append_comm.append_right _

/-- The state of an iteration that began in `begun`: `done` are the instructions
completed since, `consumed` the completions that `updateChains` has treated. -/
structure Scheduled (cfg : Config) (plan : Plan) (begun c : Core σ) (done : List Node)
    (consumed : List Nat) : Prop where
  planned : cfg.plan = .ok plan
  fixed : Fixed cfg c
  numChains : c.numChains = cfg.numChains
  inputs : c.inputChain.Sublist cfg.built
  length : c.lanePreSchedule.length = cfg.numLanes
  buffers : c.lanePreSchedule.flatten.Perm (c.inputChain.map (·.id))
  sizes : ∀ i, c.lanePreScheduleSize i = ((c.lanePreSchedule.getD i []).map cfg.count).sum
  loads : ∀ i, ∃ loads, c.schChains i = begun.schChains i ++ loads ∧
    (loads ++ c.lanePreSchedule.getD i []).Perm (plan.buffers.getD i [])
  un : ∀ s : Nat, c.unDependencies[s]?.getD ∅ = cfg.graph.maps.unDependencies[s]?.getD ∅
  table : ∀ t s, c.depenTable t s =
    if Depends cfg.graph.maps.unDependencies s t ∧ s ∉ consumed then 1 else 0
  released : ∀ t < cfg.numChains, t ∉ c.inputChain.map (·.id) →
    ∀ s, Depends cfg.graph.maps.unDependencies s t → s ∈ consumed
  reported : done.map (·.cId) = consumed ++ c.queues.finishedChains
  stack : c.stackScheChain = [] ∨ c.stackScheChain = cfg.levelOrder
  lanes : ∀ l ∈ c.lanes, l.Valid
  conserved : (laneContents begun.lanes ++ inputContents cfg.built).Perm
    (done ++ laneContents c.lanes ++ inputContents c.inputChain)

/-- The fields of the core that only the scheduler and `updateChains` write. -/
structure SameSchedule (c c' : Core σ) : Prop where
  graph : c'.graph = c.graph
  param : c'.param = c.param
  numLanes : c'.numLanes = c.numLanes
  llvm : c'.instructionLlvm = c.instructionLlvm
  inputs : c'.inputChain = c.inputChain
  table : c'.depenTable = c.depenTable
  sizes : c'.lanePreScheduleSize = c.lanePreScheduleSize
  buffers : c'.lanePreSchedule = c.lanePreSchedule
  stack : c'.stackScheChain = c.stackScheChain
  numChains : c'.numChains = c.numChains
  un : c'.unDependencies = c.unDependencies

/-- A step that leaves the scheduler alone and loses no instruction. -/
theorem Scheduled.keep {cfg : Config} {plan : Plan} {begun c c' : Core σ} {done done' : List Node}
    {consumed : List Nat} (old : Scheduled cfg plan begun c done consumed)
    (same : SameSchedule c c') (length : c'.lanes.length = c.lanes.length)
    (chains : ∀ i, c'.schChains i = c.schChains i) (valid : ∀ l ∈ c'.lanes, l.Valid)
    (reported : done'.map (·.cId) = consumed ++ c'.queues.finishedChains)
    (moved : (done ++ laneContents c.lanes).Perm (done' ++ laneContents c'.lanes)) :
    Scheduled cfg plan begun c' done' consumed where
  planned := old.planned
  fixed := ⟨same.graph.trans old.fixed.graph, same.param.trans old.fixed.param,
    same.numLanes.trans old.fixed.numLanes, same.llvm.trans old.fixed.llvm,
    length.trans old.fixed.lanes⟩
  numChains := same.numChains.trans old.numChains
  inputs := same.inputs ▸ old.inputs
  length := same.buffers ▸ old.length
  buffers := by
    rw [same.buffers, same.inputs]
    exact old.buffers
  sizes := by
    rw [same.sizes, same.buffers]
    exact old.sizes
  loads := by
    intro i
    rw [chains, same.buffers]
    exact old.loads i
  un := same.un ▸ old.un
  table := same.table ▸ old.table
  released := same.inputs ▸ old.released
  reported := reported
  stack := same.stack ▸ old.stack
  lanes := valid
  conserved := by
    rw [same.inputs]
    exact old.conserved.trans (moved.append_right _)

theorem schChains_map (lanes : List Lane) (f : Lane → Lane)
    (kept : ∀ l ∈ lanes, (f l).schChainsList = l.schChainsList) (i : Nat) :
    ((lanes.map f)[i]?.map (·.schChainsList)).getD [] =
      (lanes[i]?.map (·.schChainsList)).getD [] := by
  rw [List.getElem?_map]
  cases found : lanes[i]? with
  | none => rfl
  | some l => simp [kept l (List.mem_of_getElem? found)]

theorem cycled_schChainsList (l : Lane) : (Core.cycled l).schChainsList = l.schChainsList :=
  congrArg (fun fixed => fixed.2.2.2) (Lane.run_fixed l ⟨[], []⟩)

theorem runOneCycleCore_lanes (c : Core σ) : c.runOneCycleCore.lanes = c.lanes.map Core.cycled := by
  unfold Core.runOneCycleCore
  rw [Core.runLanes_eq]

theorem runOneCycleCore_finished (c : Core σ) : c.runOneCycleCore.queues.finishedChains =
    c.queues.finishedChains ++ c.completions.map (·.cId) := by
  unfold Core.runOneCycleCore
  rw [Core.runLanes_eq]
  rfl

theorem Scheduled.runOneCycleCore {cfg : Config} {plan : Plan} {begun c : Core σ}
    {done : List Node} {consumed : List Nat} (old : Scheduled cfg plan begun c done consumed) :
    Scheduled cfg plan begun c.runOneCycleCore (done ++ c.completions) consumed := by
  refine old.keep ⟨rfl, rfl, rfl, rfl, rfl, rfl, rfl, rfl, rfl, rfl, rfl⟩ ?_ ?_ ?_ ?_ ?_
  · rw [runOneCycleCore_lanes, List.length_map]
  · intro i
    unfold Core.schChains
    rw [runOneCycleCore_lanes]
    exact schChains_map c.lanes Core.cycled (fun l _ => cycled_schChainsList l) i
  · rw [runOneCycleCore_lanes]
    intro l member
    obtain ⟨before, inside, rfl⟩ := List.mem_map.mp member
    exact (old.lanes before inside).run _
  · rw [List.map_append, old.reported, runOneCycleCore_finished, List.append_assoc]
  · rw [runOneCycleCore_lanes, List.append_assoc]
    exact (laneContents_cycled old.lanes).append_left done

theorem sendMemoryReq_ok {c c' : Core σ} (returned : c.sendMemoryReq = .ok c') :
    ∃ memReqMap memory, c' =
      { c with memReqMap, memory, queues := { c.queues with memReqQueue := [] } } := by
  obtain ⟨⟨memReqMap, memory⟩, _, returned⟩ := Loops.bind_eq_ok.mp returned
  cases returned
  exact ⟨memReqMap, memory, rfl⟩

theorem Scheduled.sendMemoryReq {cfg : Config} {plan : Plan} {begun c c' : Core σ}
    {done : List Node} {consumed : List Nat} (old : Scheduled cfg plan begun c done consumed)
    (returned : c.sendMemoryReq = .ok c') : Scheduled cfg plan begun c' done consumed := by
  obtain ⟨memReqMap, memory, rfl⟩ := sendMemoryReq_ok returned
  exact old.keep ⟨rfl, rfl, rfl, rfl, rfl, rfl, rfl, rfl, rfl, rfl, rfl⟩ rfl (fun _ => rfl)
    old.lanes old.reported (List.Perm.refl _)

/-- Lane by lane, nothing but a wake-up has happened. -/
def Woken (l l' : Lane) : Prop := l' = l ∨ l' = l.setExeCounter 0

theorem wakeLane_ok {memReqMap : TreeMap Nat Nat} {lanes lanes' : List Lane} {n : Nat}
    (returned : Core.wakeLane memReqMap lanes n = .ok lanes') :
    ∃ i m, Core.findWaiting memReqMap n = some (i, m) ∧ i < lanes.length ∧
      lanes' = lanes.modify i (·.setExeCounter 0) := by
  obtain ⟨⟨i, m⟩, found, returned⟩ := Loops.bind_eq_ok.mp returned
  split at returned
  · rename_i inside
    cases returned
    exact ⟨i, m, deref_eq_ok.mp found, inside, rfl⟩
  · cases returned

theorem forall₂_modify {R : Lane → Lane → Prop} {f : Lane → Lane} (same : ∀ l, R l l)
    (changed : ∀ l, R l (f l)) (lanes : List Lane) (i : Nat) :
    List.Forall₂ R lanes (lanes.modify i f) := by
  induction lanes generalizing i with
  | nil => simp
  | cons l rest ih =>
    cases i with
    | zero => exact .cons (changed l) (List.forall₂_same.mpr fun l _ => same l)
    | succ i => exact .cons (same l) (ih i)

theorem Woken.trans {a b c : Lane} (first : Woken a b) (second : Woken b c) : Woken a c := by
  rcases first with rfl | rfl
  · exact second
  · rcases second with rfl | rfl
    · exact .inr rfl
    · exact .inr rfl

theorem forall₂_woken_trans {a b c : List Lane} (first : List.Forall₂ Woken a b)
    (second : List.Forall₂ Woken b c) : List.Forall₂ Woken a c := by
  induction first generalizing c with
  | nil => exact second
  | cons head _ ih =>
    cases second with
    | cons head' tail' => exact .cons (head.trans head') (ih tail')

theorem updateMemExe_ok {c c' : Core σ} (returned : c.updateMemExe = .ok c') :
    ∃ memory ruby lanes, c' = { c with memory, ruby, lanes } ∧
      List.Forall₂ Woken c.lanes lanes := by
  obtain ⟨⟨memory, ruby, nodes⟩, _, returned⟩ := Loops.bind_eq_ok.mp returned
  obtain ⟨lanes, woken, returned⟩ := Loops.bind_eq_ok.mp returned
  cases returned
  refine ⟨memory, ruby, lanes, rfl, ?_⟩
  refine Loops.foldlM_ok (fun lanes => List.Forall₂ Woken c.lanes lanes) nodes ?_
    (List.forall₂_same.mpr fun _ _ => .inl rfl) woken
  intro mid sofar n _ next waked
  obtain ⟨i, m, _, _, rfl⟩ := wakeLane_ok waked
  exact forall₂_woken_trans sofar (forall₂_modify (fun _ => .inl rfl) (fun _ => .inr rfl) mid i)

/-- The lane keeps its instructions, its history and its invariant. -/
structure Quiet (l l' : Lane) : Prop where
  contents : l'.contents = l.contents
  chains : l'.schChainsList = l.schChainsList
  valid : l.Valid → l'.Valid

theorem Quiet.refl (l : Lane) : Quiet l l := ⟨rfl, rfl, id⟩

theorem Woken.quiet {l l' : Lane} (woken : Woken l l') : Quiet l l' := by
  rcases woken with rfl | rfl
  · exact .refl _
  · exact ⟨rfl, rfl, Lane.Valid.wake⟩

section quiet

variable {lanes lanes' : List Lane} (quiet : List.Forall₂ Quiet lanes lanes')
include quiet

theorem quiet_laneContents : laneContents lanes' = laneContents lanes := by
  induction quiet with
  | nil => rfl
  | cons head _ ih =>
    unfold laneContents at ih ⊢
    rw [List.flatMap_cons, List.flatMap_cons, ih, head.contents]

theorem quiet_schChains (i : Nat) : (lanes'[i]?.map (·.schChainsList)).getD [] =
    (lanes[i]?.map (·.schChainsList)).getD [] := by
  induction quiet generalizing i with
  | nil => rfl
  | cons head _ ih =>
    cases i with
    | zero => simp [head.chains]
    | succ i => simpa using ih i

theorem quiet_valid (valid : ∀ l ∈ lanes, l.Valid) : ∀ l ∈ lanes', l.Valid := by
  induction quiet with
  | nil => simp
  | cons head _ ih =>
    intro l member
    rcases List.mem_cons.mp member with rfl | member
    · exact head.valid (valid _ (by simp))
    · exact ih (fun l inside => valid l (by simp [inside])) l member

end quiet

/-- Steps that only make lanes wait or wake keep the scheduler invariant. -/
theorem Scheduled.quiet {cfg : Config} {plan : Plan} {begun c c' : Core σ}
    {done : List Node} {consumed : List Nat} (old : Scheduled cfg plan begun c done consumed)
    (same : SameSchedule c c') (finished : c'.queues.finishedChains = c.queues.finishedChains)
    (quiet : List.Forall₂ Quiet c.lanes c'.lanes) : Scheduled cfg plan begun c' done consumed :=
  old.keep same quiet.length_eq.symm (quiet_schChains quiet) (quiet_valid quiet old.lanes)
    (by rw [finished, old.reported])
    ((List.Perm.of_eq (quiet_laneContents quiet).symm).append_left done)

theorem Scheduled.updateMemExe {cfg : Config} {plan : Plan} {begun c c' : Core σ}
    {done : List Node} {consumed : List Nat} (old : Scheduled cfg plan begun c done consumed)
    (returned : c.updateMemExe = .ok c') : Scheduled cfg plan begun c' done consumed := by
  obtain ⟨memory, ruby, lanes, rfl, woken⟩ := updateMemExe_ok returned
  exact old.quiet ⟨rfl, rfl, rfl, rfl, rfl, rfl, rfl, rfl, rfl, rfl, rfl⟩ rfl
    (woken.imp fun _ _ => Woken.quiet)

theorem getD_insertIfNew (un : ChainSets) (k s : Nat) :
    (un.insertIfNew k ∅)[s]?.getD ∅ = un[s]?.getD ∅ := by
  rw [TreeMap.getElem?_insertIfNew]
  split
  · rename_i fresh
    have same : k = s := by simpa using fresh.1
    subst same
    have missing : un[k]? = none := by simpa using fresh.2
    rw [missing]
    rfl
  · rfl

/-- One completion clears the column of its chain. -/
theorem releaseChain_ok {c c' : Core σ} {tempC : Nat} (returned : c.releaseChain tempC = .ok c') :
    c' = { c with
      depenTable := fun t s => if s = tempC ∧ Depends c.unDependencies s t then 0
        else c.depenTable t s
      unDependencies := c.unDependencies.insertIfNew tempC ∅ } := by
  obtain ⟨table, cleared, returned⟩ := Loops.bind_eq_ok.mp returned
  cases returned
  have entries : ((c.unDependencies[tempC]?.getD ∅).toList.map fun t => (t, tempC)).foldlM
      (fun table e => writeTable table e.1 e.2 0) c.depenTable = .ok table := by
    rw [List.foldlM_map]
    exact cleared
  rw [foldlM_writeTable entries]
  congr 1
  funext t s
  by_cases same : s = tempC
  · subst same
    simp [Depends]
  · simp [same, Ne.symm same]

/-- The dependency table when the completions in `consumed` have been treated. -/
def tableAfter (cfg : Config) (consumed : List Nat) : DepenTable := fun t s =>
  if Depends cfg.graph.maps.unDependencies s t ∧ s ∉ consumed then 1 else 0

theorem updateChains_ok {cfg : Config} {c c' : Core σ} {consumed : List Nat}
    (un : ∀ s : Nat, c.unDependencies[s]?.getD ∅ = cfg.graph.maps.unDependencies[s]?.getD ∅)
    (table : c.depenTable = tableAfter cfg consumed) (returned : c.updateChains = .ok c') :
    ∃ un' : ChainSets,
      (∀ s : Nat, un'[s]?.getD ∅ = cfg.graph.maps.unDependencies[s]?.getD ∅) ∧
      c' = { c with
        depenTable := tableAfter cfg (consumed ++ c.queues.finishedChains)
        unDependencies := un'
        queues := { c.queues with finishedChains := [] } } := by
  obtain ⟨final, released, returned⟩ := Loops.bind_eq_ok.mp returned
  cases returned
  have looped := Loops.foldlM_ok_visited
    (fun seen mid => ∃ un' : ChainSets,
      (∀ s : Nat, un'[s]?.getD ∅ = cfg.graph.maps.unDependencies[s]?.getD ∅) ∧
      mid = { c with depenTable := tableAfter cfg (consumed ++ seen), unDependencies := un' })
    c.queues.finishedChains (by
      rintro seen tempC rest mid next _ ⟨un', same, rfl⟩ stepped
      refine ⟨un'.insertIfNew tempC ∅, ?_, ?_⟩
      · intro s
        rw [getD_insertIfNew, same]
      · rw [releaseChain_ok stepped]
        congr 1
        funext t s
        have dependsIff : Depends un' s t ↔ Depends cfg.graph.maps.unDependencies s t := by
          unfold Depends
          rw [same]
        simp only [tableAfter, dependsIff, List.mem_append, List.mem_singleton]
        by_cases isTemp : s = tempC
        · subst isTemp
          by_cases waits : Depends cfg.graph.maps.unDependencies s t <;> simp [waits]
        · simp [isTemp])
    (b := c) ⟨c.unDependencies, un, by rw [List.append_nil, ← table]⟩ released
  obtain ⟨un', same, rfl⟩ := looped
  exact ⟨un', same, rfl⟩

theorem Scheduled.updateChains {cfg : Config} {plan : Plan} {begun c c' : Core σ}
    {done : List Node} {consumed : List Nat} (old : Scheduled cfg plan begun c done consumed)
    (returned : c.updateChains = .ok c') :
    Scheduled cfg plan begun c' done (done.map (·.cId)) ∧ c'.queues.finishedChains = [] := by
  obtain ⟨un', same, rfl⟩ := updateChains_ok old.un (funext₂ old.table) returned
  rw [← old.reported]
  refine ⟨?_, rfl⟩
  have more : ∀ s ∈ consumed, s ∈ done.map (·.cId) := by
    intro s member
    rw [old.reported]
    simp [member]
  exact
    { planned := old.planned
      fixed := ⟨old.fixed.graph, old.fixed.param, old.fixed.numLanes, old.fixed.llvm,
        old.fixed.lanes⟩
      numChains := old.numChains
      inputs := old.inputs
      length := old.length
      buffers := old.buffers
      sizes := old.sizes
      loads := old.loads
      un := same
      table := fun _ _ => rfl
      released := fun t inside absent s depends => more s (old.released t inside absent s depends)
      reported := by simp
      stack := old.stack
      lanes := old.lanes
      conserved := old.conserved }

theorem Scheduled.updateChains_total {cfg : Config} {plan : Plan} {begun c : Core σ}
    {done : List Node} {consumed : List Nat} (old : Scheduled cfg plan begun c done consumed)
    (few : cfg.numChains ≤ maxNumChain) : ∃ c', c.updateChains = .ok c' := by
  obtain ⟨final, released, _⟩ := Loops.foldlM_total
    (f := Core.releaseChain)
    (fun mid : Core σ => ∀ s : Nat, mid.unDependencies[s]?.getD ∅ =
      cfg.graph.maps.unDependencies[s]?.getD ∅)
    c.queues.finishedChains (by
      intro mid same tempC _
      have known : ∀ e ∈ (mid.unDependencies[tempC]?.getD ∅).toList.map fun t => (t, tempC),
          e.1 < maxNumChain ∧ e.2 < maxNumChain := by
        intro e member
        obtain ⟨t, inside, rfl⟩ := List.mem_map.mp member
        rw [TreeSet.mem_toList, same] at inside
        have small := cfg.depends_lt (s := tempC) (t := t) inside
        simp only
        omega
      obtain ⟨table, cleared⟩ := foldlM_writeTable_total 0 known mid.depenTable
      rw [List.foldlM_map] at cleared
      have step : mid.releaseChain tempC = .ok { mid with
          depenTable := table
          unDependencies := mid.unDependencies.insertIfNew tempC ∅ } := by
        unfold Core.releaseChain
        rw [cleared]
        rfl
      refine ⟨_, step, ?_⟩
      intro s
      rw [getD_insertIfNew, same])
    (b := c) old.un
  refine ⟨{ final with queues := { final.queues with finishedChains := [] } }, ?_⟩
  unfold Core.updateChains
  rw [released]
  rfl

end ChainSaw
