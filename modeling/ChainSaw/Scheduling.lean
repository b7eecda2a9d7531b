import ChainSaw.Cycle

set_option autoImplicit false

namespace ChainSaw

open Std (TreeMap TreeSet)

variable {σ : Type}

theorem rowStatus_eq {c : Core σ} {schCh status : Nat} (returned : c.rowStatus schCh = .ok status) :
    status = ((List.range c.numChains).map (c.depenTable schCh)).sum := by
  refine Loops.foldlM_ok_visited
    (fun seen status => status = (seen.map (c.depenTable schCh)).sum)
    (List.range c.numChains) ?_ rfl returned
  rintro seen j rest status next _ rfl stepped
  obtain ⟨entry, read, stepped⟩ := Loops.bind_eq_ok.mp stepped
  cases stepped
  simp [(readTable_eq_ok.mp read).2]

theorem rowStatus_total {c : Core σ} {schCh : Nat} (few : c.numChains ≤ maxNumChain)
    (inside : schCh < maxNumChain) : ∃ status, c.rowStatus schCh = .ok status := by
  obtain ⟨status, returned, _⟩ := Loops.foldlM_total
    (f := fun status j => do
      let entry ← readTable c.depenTable schCh j
      pure (status + entry))
    (fun _ => True) (List.range c.numChains) (by
      intro status _ j member
      have known := List.mem_range.mp member
      have read : readTable c.depenTable schCh j = .ok (c.depenTable schCh j) :=
        readTable_eq_ok.mpr ⟨by omega, rfl⟩
      refine ⟨status + c.depenTable schCh j, ?_, trivial⟩
      rw [read]
      rfl)
    (b := 0) trivial
  exact ⟨status, returned⟩

/-- The chain waits for no unfinished chain. -/
def Core.Ready (c : Core σ) (id : Nat) : Prop := ∀ s < c.numChains, c.depenTable id s = 0

theorem rowStatus_eq_zero_iff {c : Core σ} {id status : Nat}
    (returned : c.rowStatus id = .ok status) : status = 0 ↔ c.Ready id := by
  rw [rowStatus_eq returned, List.sum_eq_zero_iff]
  simp [Core.Ready]

theorem findFree_some {c : Core σ} {scheBuff : List Nat} {freeId : Nat}
    (returned : c.findFree scheBuff = .ok (some freeId)) : freeId ∈ scheBuff ∧ c.Ready freeId := by
  obtain ⟨id, member, tried⟩ := Loops.findSomeM?_some returned
  obtain ⟨status, row, tried⟩ := Loops.bind_eq_ok.mp tried
  split at tried
  · rename_i zero
    cases tried
    exact ⟨member, (rowStatus_eq_zero_iff row).mp zero⟩
  · cases tried

theorem findFree_none {c : Core σ} {scheBuff : List Nat}
    (returned : c.findFree scheBuff = .ok none) : ∀ id ∈ scheBuff, ¬ c.Ready id := by
  intro id member
  obtain ⟨status, row, tried⟩ := Loops.bind_eq_ok.mp (Loops.findSomeM?_none returned id member)
  split at tried
  · cases tried
  · rename_i positive
    exact fun ready => positive ((rowStatus_eq_zero_iff row).mpr ready)

theorem findFree_total {c : Core σ} {scheBuff : List Nat} (few : c.numChains ≤ maxNumChain)
    (inside : ∀ id ∈ scheBuff, id < maxNumChain) : ∃ free, c.findFree scheBuff = .ok free := by
  refine Loops.findSomeM?_total ?_
  intro id member
  obtain ⟨status, row⟩ := rowStatus_total few (inside id member)
  rw [row]
  exact ⟨_, rfl⟩

/-- The counters of a free lane whose buffer is not empty. -/
def Core.stalled (c : Core σ) (i : Nat) : Core σ :=
  { c with
    coreIdle := (c.coreIdle + 1) % 2 ^ 32
    lanes := c.lanes.modify i fun l => { l with stall := (l.stall + 1) % 2 ^ 32 } }

theorem loadChain_ok {c c' : Core σ} {i : Nat} {scheBuff : List Nat} {freeId : Nat}
    (returned : c.loadChain i scheBuff freeId = .ok c') :
    ∃ ch, c.findInput freeId = some ch ∧ c' = { c with
      lanePreSchedule := c.lanePreSchedule.set i (scheBuff.erase freeId)
      lanePreScheduleSize := fun j => if j = i then
        (c.lanePreScheduleSize i + 2 ^ 32 - ch.instructionList.length % 2 ^ 32) % 2 ^ 32
        else c.lanePreScheduleSize j
      lanes := c.lanes.modify i (·.loadInstructionQueue ch.instructionList freeId)
      chaintoLane := c.chaintoLane.insert ch.id i
      inputChain := c.inputChain.eraseP (fun item => item.id == freeId) } := by
  obtain ⟨_, _, returned⟩ := Loops.bind_eq_ok.mp returned
  obtain ⟨ch, found, returned⟩ := Loops.bind_eq_ok.mp returned
  obtain ⟨size, read, returned⟩ := Loops.bind_eq_ok.mp returned
  obtain ⟨sizes, written, returned⟩ := Loops.bind_eq_ok.mp returned
  cases returned
  obtain ⟨_, rfl⟩ := readSize_eq_ok.mp read
  obtain ⟨_, rfl⟩ := writeSize_eq_ok.mp written
  exact ⟨ch, deref_eq_ok.mp found, rfl⟩

theorem scheduleLane_cases {c c' : Core σ} {i : Nat} (returned : c.scheduleLane i = .ok c') :
    ∃ lane scheBuff, c.lanes[i]? = some lane ∧ c.lanePreSchedule[i]? = some scheBuff ∧
      ((lane.isFree = false ∧ c' = c) ∨
        (lane.isFree = true ∧ scheBuff = [] ∧
          c' = { c with coreFree := (c.coreFree + 1) % 2 ^ 32 }) ∨
        (lane.isFree = true ∧ scheBuff ≠ [] ∧ (∀ id ∈ scheBuff, ¬ c.Ready id) ∧
          c' = c.stalled i) ∨
        ∃ freeId, lane.isFree = true ∧ freeId ∈ scheBuff ∧ c.Ready freeId ∧
          (c.stalled i).loadChain i scheBuff freeId = .ok c') := by
  unfold Core.scheduleLane at returned
  split at returned
  · rename_i lane scheBuff laneAt buffAt
    refine ⟨lane, scheBuff, laneAt, buffAt, ?_⟩
    split at returned
    · rename_i busy
      cases returned
      exact .inl ⟨by simpa using busy, rfl⟩
    · rename_i free
      have free : lane.isFree = true := by simpa using free
      split at returned
      · rename_i empty
        cases returned
        exact .inr (.inl ⟨free, by simpa using empty, rfl⟩)
      · rename_i full
        obtain ⟨found, search, returned⟩ := Loops.bind_eq_ok.mp returned
        cases found with
        | none =>
          cases returned
          exact .inr (.inr (.inl ⟨free, by simpa using full, findFree_none search, rfl⟩))
        | some freeId =>
          have ⟨member, ready⟩ := findFree_some search
          exact .inr (.inr (.inr ⟨freeId, free, member, ready, returned⟩))
  · cases returned

theorem perm_cons_eraseP {α : Type} {items : List α} {p : α → Bool} {a : α}
    (found : items.find? p = some a) : items.Perm (a :: items.eraseP p) := by
  induction items with
  | nil => cases found
  | cons head rest ih =>
    by_cases here : p head = true
    · rw [List.find?_cons_of_pos here] at found
      cases found
      rw [List.eraseP_cons_of_pos here]
    · rw [List.find?_cons_of_neg here] at found
      rw [List.eraseP_cons_of_neg here]
      exact ((ih found).cons head).trans (List.Perm.swap _ _ _)

theorem set_erase_flatten {buffers : List (List Nat)} {i : Nat} {buffer : List Nat} {id : Nat}
    (found : buffers[i]? = some buffer) (member : id ∈ buffer) :
    buffers.flatten.Perm (id :: (buffers.set i (buffer.erase id)).flatten) := by
  induction buffers generalizing i with
  | nil => simp at found
  | cons head rest ih =>
    cases i with
    | zero =>
      have same : head = buffer := by simpa using found
      subst same
      simp only [List.set_cons_zero, List.flatten_cons]
      exact (List.perm_cons_erase member).append_right _
    | succ i =>
      simp only [List.set_cons_succ, List.flatten_cons]
      exact ((ih (by simpa using found)).append_left head).trans List.perm_middle

theorem getD_set {buffers : List (List Nat)} {i : Nat} {buffer : List Nat}
    (found : buffers[i]? = some buffer) (next : List Nat) (j : Nat) :
    (buffers.set i next).getD j [] = if j = i then next else buffers.getD j [] := by
  have inside := (List.getElem?_eq_some_iff.mp found).1
  rw [List.getD_eq_getElem?_getD, List.getElem?_set, List.getD_eq_getElem?_getD]
  by_cases same : j = i
  · subst same
    simp [inside]
  · simp [same, Ne.symm same]

theorem forall_mem_modify {P : Lane → Prop} {lanes : List Lane} {f : Lane → Lane}
    (each : ∀ l ∈ lanes, P l) (kept : ∀ l, P l → P (f l)) (i : Nat) :
    ∀ l ∈ lanes.modify i f, P l := by
  induction lanes generalizing i with
  | nil => simp
  | cons head rest ih =>
    have tail : ∀ l ∈ rest, P l := fun l member => each l (by simp [member])
    cases i with
    | zero =>
      rw [List.modify_zero_cons, List.forall_mem_cons]
      exact ⟨kept head (each head (by simp)), tail⟩
    | succ i =>
      rw [List.modify_succ_cons, List.forall_mem_cons]
      exact ⟨each head (by simp), ih tail i⟩

theorem exists_mem_modify {P : Lane → Prop} {lanes : List Lane} {f : Lane → Lane} {l : Lane}
    (inside : l ∈ lanes) (holds : P l) (kept : P l → P (f l)) (i : Nat) :
    ∃ l ∈ lanes.modify i f, P l := by
  obtain ⟨j, at_j⟩ := List.mem_iff_getElem?.mp inside
  by_cases same : i = j
  · subst same
    exact ⟨f l, List.mem_of_getElem? (i := i) (by simp [at_j]), kept holds⟩
  · exact ⟨l, List.mem_of_getElem? (i := j) (by simp [at_j, same]), holds⟩

theorem laneContents_modify {lanes : List Lane} {i : Nat} {lane : Lane} {f : Lane → Lane}
    {extra : List Node} (found : lanes[i]? = some lane)
    (grown : (f lane).contents = lane.contents ++ extra) :
    (laneContents (lanes.modify i f)).Perm (laneContents lanes ++ extra) := by
  induction lanes generalizing i with
  | nil => simp at found
  | cons head rest ih =>
    unfold laneContents at ih ⊢
    cases i with
    | zero =>
      have same : head = lane := by simpa using found
      subst same
      simp only [List.modify_zero_cons, List.flatMap_cons, grown, List.append_assoc]
      exact List.perm_append_comm.append_left _
    | succ i =>
      simp only [List.modify_succ_cons, List.flatMap_cons, List.append_assoc]
      exact (ih (by simpa using found)).append_left _

theorem schChains_modify {lanes : List Lane} {i : Nat} {lane : Lane} {f : Lane → Lane} {id : Nat}
    (found : lanes[i]? = some lane) (grown : ∀ l, (f l).schChainsList = l.schChainsList ++ [id])
    (j : Nat) : ((lanes.modify i f)[j]?.map (·.schChainsList)).getD [] =
      (lanes[j]?.map (·.schChainsList)).getD [] ++ if j = i then [id] else [] := by
  have inside := (List.getElem?_eq_some_iff.mp found).1
  rw [List.getElem?_modify]
  by_cases same : j = i
  · subst same
    simp [inside, grown]
  · simp [same, Ne.symm same]

section load

variable {cfg : Config} {plan : Plan} {begun c : Core σ} {done : List Node} {consumed : List Nat}
  (old : Scheduled cfg plan begun c done consumed)
include old

theorem Scheduled.full : cfg.NonEmpty := nonEmpty_of_plan old.planned

theorem Scheduled.ids_sublist : (c.inputChain.map (·.id)).Sublist (List.range cfg.numChains) := by
  rw [← old.full.built_ids]
  exact old.inputs.map _

theorem Scheduled.find_ok {id : Nat} {ch : Chain} (found : c.findInput id = some ch) :
    id < cfg.numChains ∧ ch = cfg.chain id := by
  have member := old.inputs.subset (List.mem_of_find?_eq_some found)
  obtain ⟨i, inside, rfl⟩ := List.mem_map.mp member
  have inside := List.mem_range.mp inside
  have same : (cfg.chain i).id = id := by simpa using List.find?_some found
  rw [old.full.chain_id inside] at same
  exact ⟨same ▸ inside, by rw [same]⟩

/-- The lookups of the scheduler never miss. -/
theorem Scheduled.find_total {id : Nat} (member : id ∈ c.inputChain.map (·.id)) :
    c.findInput id = some (cfg.chain id) := by
  cases found : c.findInput id with
  | some ch => rw [(old.find_ok found).2]
  | none =>
    obtain ⟨ch, inside, rfl⟩ := List.mem_map.mp member
    have absent := List.find?_eq_none.mp found ch inside
    simp at absent

theorem Scheduled.mem_buffer {i : Nat} {buffer : List Nat} {id : Nat}
    (found : c.lanePreSchedule[i]? = some buffer) (member : id ∈ buffer) :
    id ∈ c.inputChain.map (·.id) :=
  old.buffers.mem_iff.mp (List.mem_flatten.mpr ⟨buffer, List.mem_of_getElem? found, member⟩)

theorem Scheduled.size_lt (i : Nat) : c.lanePreScheduleSize i < 2 ^ 32 := by
  have buffer := getD_sublist_flatten c.lanePreSchedule i
  calc c.lanePreScheduleSize i
      = ((c.lanePreSchedule.getD i []).map cfg.count).sum := old.sizes i
    _ ≤ (c.lanePreSchedule.flatten.map cfg.count).sum :=
        List.Sublist.sum_le_sum (buffer.map _) (by simp)
    _ = ((c.inputChain.map (·.id)).map cfg.count).sum := (old.buffers.map _).sum_eq
    _ ≤ ((List.range cfg.numChains).map cfg.count).sum :=
        List.Sublist.sum_le_sum (old.ids_sublist.map _) (by simp)
    _ = cfg.graph.origGraph.numVertices := cfg.sum_count
    _ < 2 ^ 32 := cfg.accepted.small

/-- A lane's share, with one of its chains taken out. -/
theorem Scheduled.size_erase {i : Nat} {scheBuff : List Nat} {freeId : Nat}
    (buffer : c.lanePreSchedule.getD i [] = scheBuff) (member : freeId ∈ scheBuff) :
    (c.lanePreScheduleSize i + 2 ^ 32 - cfg.count freeId % 2 ^ 32) % 2 ^ 32 =
      ((scheBuff.erase freeId).map cfg.count).sum := by
  have size := old.sizes i
  have small := old.size_lt i
  rw [buffer, ((List.perm_cons_erase member).map cfg.count).sum_eq, List.map_cons,
    List.sum_cons] at size
  omega

/-- A chain is loaded when its sources are consumed. -/
theorem Scheduled.released_erase {freeId : Nat} (ready : c.Ready freeId) :
    ∀ t < cfg.numChains, t ∉ (c.inputChain.map (·.id)).erase freeId →
      ∀ s, Depends cfg.graph.maps.unDependencies s t → s ∈ consumed := by
  intro t inside absent s depends
  by_cases loaded : t = freeId
  · subst loaded
    have entry := old.table t s
    rw [ready s (by rw [old.numChains]; exact (cfg.depends_lt depends).1)] at entry
    by_contra unfinished
    simp [depends, unfinished] at entry
  · apply old.released t inside _ s depends
    intro present
    exact absent ((List.mem_erase_of_ne loaded).mpr present)

/-- The instructions of a loaded chain are in its lane. -/
theorem Scheduled.conserved_load {i : Nat} {lane : Lane} {freeId : Nat} {ch : Chain}
    (laneAt : c.lanes[i]? = some lane) (found : c.findInput freeId = some ch) :
    (laneContents begun.lanes ++ inputContents cfg.built).Perm
      (done ++ laneContents (c.lanes.modify i (·.loadInstructionQueue ch.instructionList freeId)) ++
        inputContents (c.inputChain.eraseP fun item => item.id == freeId)) := by
  have lanes := laneContents_modify (f := (·.loadInstructionQueue ch.instructionList freeId)) laneAt
    (lane.loadInstructionQueue_contents _ _)
  have inputs : (inputContents c.inputChain).Perm (ch.instructionList ++
      inputContents (c.inputChain.eraseP fun item => item.id == freeId)) :=
    (perm_cons_eraseP found).flatMap_right _
  apply old.conserved.trans
  rw [List.append_assoc, List.append_assoc]
  apply List.Perm.append_left done ((inputs.append_left _).trans _)
  rw [← List.append_assoc]
  exact (lanes.symm).append_right _

/-- Loading a ready chain takes it out of the input and out of its lane's buffer. -/
theorem Scheduled.loadChain {c' : Core σ} {i : Nat} {lane : Lane} {scheBuff : List Nat}
    {freeId : Nat} (laneAt : c.lanes[i]? = some lane)
    (buffAt : c.lanePreSchedule[i]? = some scheBuff) (member : freeId ∈ scheBuff)
    (ready : c.Ready freeId) (returned : c.loadChain i scheBuff freeId = .ok c') :
    Scheduled cfg plan begun c' done consumed := by
  obtain ⟨ch, found, rfl⟩ := loadChain_ok returned
  have conserved := old.conserved_load laneAt found
  have length : ∀ id, (cfg.chain id).instructionList.length = cfg.count id :=
    cfg.length_instructions
  obtain ⟨known, rfl⟩ := old.find_ok found
  have ids : (c.inputChain.eraseP (fun item => item.id == freeId)).map (·.id) =
      (c.inputChain.map (·.id)).erase freeId := by
    rw [List.erase_eq_eraseP', List.eraseP_map]
    rfl
  have buffer : c.lanePreSchedule.getD i [] = scheBuff := getD_of_found buffAt
  refine
    { planned := old.planned
      fixed := ⟨old.fixed.graph, old.fixed.param, old.fixed.numLanes, old.fixed.llvm, ?_⟩
      numChains := old.numChains
      inputs := List.eraseP_sublist.trans old.inputs
      length := by rw [List.length_set, old.length]
      buffers := ?_
      sizes := ?_
      loads := ?_
      un := old.un
      table := old.table
      released := ids ▸ old.released_erase ready
      reported := old.reported
      stack := old.stack
      lanes := forall_mem_modify old.lanes (fun l valid => valid.loadInstructionQueue _ _) i
      conserved := conserved }
  · rw [List.length_modify, old.fixed.lanes]
  · rw [ids]
    have moved := (set_erase_flatten buffAt member).symm.trans old.buffers
    exact (List.cons_perm_iff_perm_erase.mp moved).2
  · intro j
    rw [getD_set buffAt]
    by_cases same : j = i
    · subst same
      simp only [↓reduceIte, length]
      exact old.size_erase buffer member
    · simp only [same, ↓reduceIte]
      exact old.sizes j
  · intro j
    obtain ⟨loads, chains, shared⟩ := old.loads j
    have grown := schChains_modify
      (f := (·.loadInstructionQueue (cfg.chain freeId).instructionList freeId)) laneAt
      (fun _ => rfl) j
    refine ⟨loads ++ if j = i then [freeId] else [], ?_, ?_⟩
    · rw [← List.append_assoc, ← chains]
      exact grown
    · rw [getD_set buffAt]
      by_cases same : j = i
      · subst same
        rw [buffer] at shared
        simp only [↓reduceIte, List.append_assoc, List.singleton_append]
        exact ((List.perm_cons_erase member).symm.append_left loads).trans shared
      · simpa [same] using shared

theorem Scheduled.stalled (i : Nat) : Scheduled cfg plan begun (c.stalled i) done consumed :=
  old.quiet ⟨rfl, rfl, rfl, rfl, rfl, rfl, rfl, rfl, rfl, rfl, rfl⟩ rfl
    (forall₂_modify (f := fun l => { l with stall := (l.stall + 1) % 2 ^ 32 }) Quiet.refl
      (fun _ => ⟨rfl, rfl, fun valid => ⟨valid.single, valid.busy⟩⟩) c.lanes i)

theorem Scheduled.scheduleLane {c' : Core σ} {i : Nat} (returned : c.scheduleLane i = .ok c') :
    Scheduled cfg plan begun c' done consumed := by
  obtain ⟨lane, scheBuff, laneAt, buffAt, ⟨_, rfl⟩ | ⟨_, _, rfl⟩ | ⟨_, _, _, rfl⟩ |
    ⟨freeId, _, member, ready, loaded⟩⟩ := scheduleLane_cases returned
  · exact old
  · exact old.quiet ⟨rfl, rfl, rfl, rfl, rfl, rfl, rfl, rfl, rfl, rfl, rfl⟩ rfl
      (List.forall₂_same.mpr fun l _ => Quiet.refl l)
  · exact old.stalled i
  · have stalledAt : (c.stalled i).lanes[i]? =
        some { lane with stall := (lane.stall + 1) % 2 ^ 32 } := by
      simp [Core.stalled, laneAt]
    exact (old.stalled i).loadChain stalledAt buffAt member ready loaded

/-- A lane with a chain in its buffer has a place in `lane_pre_schedule_size`. -/
theorem Scheduled.lane_lt {i : Nat} {scheBuff : List Nat} {ch : Nat}
    (buffAt : c.lanePreSchedule[i]? = some scheBuff) (member : ch ∈ scheBuff) : i < maxNumChain := by
  obtain ⟨loads, _, whole⟩ := old.loads i
  refine (plan_planned old.planned).inside i (List.ne_nil_of_mem (a := ch) ?_)
  rw [← whole.mem_iff, getD_of_found buffAt]
  simp [member]

theorem Scheduled.scheduleLane_total (few : cfg.numChains ≤ maxNumChain) {i : Nat}
    (inside : i < cfg.numLanes) :
    ∃ c', c.scheduleLane i = .ok c' := by
  obtain ⟨lane, laneAt⟩ : ∃ lane, c.lanes[i]? = some lane :=
    ⟨_, List.getElem?_eq_getElem (by rw [old.fixed.lanes]; exact inside)⟩
  obtain ⟨scheBuff, buffAt⟩ : ∃ scheBuff, c.lanePreSchedule[i]? = some scheBuff :=
    ⟨_, List.getElem?_eq_getElem (by rw [old.length]; exact inside)⟩
  unfold Core.scheduleLane
  rw [laneAt, buffAt]
  simp only
  split
  · exact ⟨_, rfl⟩
  · split
    · exact ⟨_, rfl⟩
    · have known : ∀ id ∈ scheBuff, id < maxNumChain := fun id member =>
        Nat.lt_of_lt_of_le
          (List.mem_range.mp (old.ids_sublist.subset (old.mem_buffer buffAt member))) few
      obtain ⟨free, search⟩ := findFree_total (old.numChains ▸ few) known
      rw [search, Loops.ok_bind]
      cases free with
      | none => exact ⟨_, rfl⟩
      | some freeId =>
        have member := (findFree_some search).1
        have lookup : (c.stalled i).findInput freeId = some (cfg.chain freeId) :=
          old.find_total (old.mem_buffer buffAt member)
        have := old.lane_lt buffAt member
        change ∃ c', (c.stalled i).loadChain i scheBuff freeId = .ok c'
        unfold Core.loadChain
        rw [(check_eq_ok (u := ())).mpr (decide_eq_true member), Loops.ok_bind, lookup, deref,
          Loops.ok_bind, readSize_eq_ok.mpr ⟨by omega, rfl⟩, Loops.ok_bind,
          writeSize_eq_ok.mpr ⟨by omega, rfl⟩]
        exact ⟨_, rfl⟩

theorem Scheduled.oooScheduler {c' : Core σ} (returned : c.oooScheduler = .ok c') :
    Scheduled cfg plan begun c' done consumed :=
  Loops.foldlM_ok (fun c => Scheduled cfg plan begun c done consumed) _
    (fun _ holds _ _ _ stepped => holds.scheduleLane stepped) old returned

theorem Scheduled.oooScheduler_total (few : cfg.numChains ≤ maxNumChain) :
    ∃ c', c.oooScheduler = .ok c' := by
  obtain ⟨c', returned, _⟩ := Loops.foldlM_total (f := Core.scheduleLane)
    (fun c => Scheduled cfg plan begun c done consumed) (List.range c.lanes.length) (by
      intro c old' i member
      rw [old.fixed.lanes, List.mem_range] at member
      obtain ⟨next, stepped⟩ := old'.scheduleLane_total few member
      exact ⟨next, stepped, old'.scheduleLane stepped⟩) (b := c) old
  exact ⟨c', returned⟩

/-- With nothing left in the input the scheduler finds all buffers empty. -/
theorem Scheduled.oooScheduler_nothing (inputs : c.inputChain = []) {c' : Core σ}
    (returned : c.oooScheduler = .ok c') : c'.inputChain = [] ∧ c'.lanes = c.lanes := by
  have kept := Loops.foldlM_ok
    (fun mid => Scheduled cfg plan begun mid done consumed ∧ mid.inputChain = [] ∧
      mid.lanes = c.lanes) (List.range c.lanes.length) (by
      rintro mid ⟨old', inputs', lanes⟩ i _ next stepped
      refine ⟨old'.scheduleLane stepped, ?_⟩
      obtain ⟨lane, scheBuff, _, buffAt, ⟨_, rfl⟩ | ⟨_, _, rfl⟩ | ⟨_, full, _, rfl⟩ |
        ⟨freeId, _, member, _, _⟩⟩ := scheduleLane_cases stepped
      · exact ⟨inputs', lanes⟩
      · exact ⟨inputs', lanes⟩
      · obtain ⟨id, member⟩ := List.exists_mem_of_ne_nil _ full
        have present := old'.mem_buffer buffAt member
        simp [inputs'] at present
      · have present := old'.mem_buffer buffAt member
        simp [inputs'] at present) (b := c) ⟨old, inputs, rfl⟩ returned
  exact kept.2

/-- A scheduler stage that takes a chain out of the input leaves its
instructions in the queue of a lane. -/
theorem Scheduled.oooScheduler_loads {c' : Core σ} (returned : c.oooScheduler = .ok c') :
    c'.inputChain = c.inputChain ∨ ∃ l ∈ c'.lanes, l.instructionQueue ≠ [] := by
  have kept := Loops.foldlM_ok
    (fun mid => Scheduled cfg plan begun mid done consumed ∧
      (mid.inputChain = c.inputChain ∨ ∃ l ∈ mid.lanes, l.instructionQueue ≠ []))
    (List.range c.lanes.length) (by
      rintro mid ⟨old', sofar⟩ i _ next stepped
      refine ⟨old'.scheduleLane stepped, ?_⟩
      obtain ⟨lane, scheBuff, laneAt, buffAt, ⟨_, rfl⟩ | ⟨_, _, rfl⟩ | ⟨_, _, _, rfl⟩ |
        ⟨freeId, _, member, _, loaded⟩⟩ := scheduleLane_cases stepped
      · exact sofar
      · exact sofar
      · refine sofar.imp id ?_
        rintro ⟨l, inside, queued⟩
        exact exists_mem_modify inside queued (fun _ => queued) i
      · obtain ⟨ch, found, rfl⟩ := loadChain_ok loaded
        obtain ⟨known, rfl⟩ := (old'.stalled i).find_ok found
        refine .inr ⟨_, List.mem_of_getElem? (i := i) (by simp [Core.stalled, laneAt]; rfl), ?_⟩
        have full := old'.full freeId known
        simp [Lane.loadInstructionQueue, Config.chain, Config.instructions, full])
    (b := c) ⟨old, .inl rfl⟩ returned
  exact kept.2

end load

/-- The fields of the core that have to do with memory requests. -/
structure SameMemory (c c' : Core σ) : Prop where
  numIter : c'.numIter = c.numIter
  memory : c'.memory = c.memory
  ruby : c'.ruby = c.ruby
  memReqMap : c'.memReqMap = c.memReqMap
  memReqQueue : c'.queues.memReqQueue = c.queues.memReqQueue

theorem SameMemory.refl (c : Core σ) : SameMemory c c := ⟨rfl, rfl, rfl, rfl, rfl⟩

theorem SameMemory.trans {c c' c'' : Core σ} (first : SameMemory c c')
    (second : SameMemory c' c'') : SameMemory c c'' :=
  ⟨second.numIter.trans first.numIter, second.memory.trans first.memory,
    second.ruby.trans first.ruby, second.memReqMap.trans first.memReqMap,
    second.memReqQueue.trans first.memReqQueue⟩

theorem updateChains_sameMemory {c c' : Core σ} (returned : c.updateChains = .ok c') :
    SameMemory c c' := by
  obtain ⟨final, released, returned⟩ := Loops.bind_eq_ok.mp returned
  cases returned
  have kept := Loops.foldlM_ok (fun mid => SameMemory c mid) c.queues.finishedChains (by
    intro mid same tempC _ next stepped
    rw [releaseChain_ok stepped]
    exact same.trans ⟨rfl, rfl, rfl, rfl, rfl⟩) (SameMemory.refl c) released
  exact kept.trans ⟨rfl, rfl, rfl, rfl, rfl⟩

theorem scheduleLane_sameMemory {c c' : Core σ} {i : Nat} (returned : c.scheduleLane i = .ok c') :
    SameMemory c c' := by
  obtain ⟨_, _, _, _, ⟨_, rfl⟩ | ⟨_, _, rfl⟩ | ⟨_, _, _, rfl⟩ | ⟨_, _, _, _, loaded⟩⟩ :=
    scheduleLane_cases returned
  · exact .refl _
  · exact ⟨rfl, rfl, rfl, rfl, rfl⟩
  · exact ⟨rfl, rfl, rfl, rfl, rfl⟩
  · obtain ⟨_, _, rfl⟩ := loadChain_ok loaded
    exact ⟨rfl, rfl, rfl, rfl, rfl⟩

theorem oooScheduler_sameMemory {c c' : Core σ} (returned : c.oooScheduler = .ok c') :
    SameMemory c c' :=
  Loops.foldlM_ok (fun mid => SameMemory c mid) _
    (fun _ same _ _ _ stepped => same.trans (scheduleLane_sameMemory stepped)) (.refl c) returned

theorem map_modify_of_same {α : Type} {g : Lane → α} {f : Lane → Lane} (same : ∀ l, g (f l) = g l)
    (lanes : List Lane) (i : Nat) : (lanes.modify i f).map g = lanes.map g := by
  apply List.ext_getElem?
  intro j
  rw [List.getElem?_map, List.getElem?_map, List.getElem?_modify]
  cases lanes[j]? with
  | none => rfl
  | some l => by_cases here : i = j <;> simp [here, same]

/-- The scheduler only counts stalls and adds to the instruction queues. -/
theorem oooScheduler_map {α : Type} {g : Lane → α}
    (stalls : ∀ (l : Lane) (stall : Nat), g { l with stall } = g l)
    (loads : ∀ (l : Lane) (instructions : List Node) (id : Nat),
      g (l.loadInstructionQueue instructions id) = g l)
    {c c' : Core σ} (returned : c.oooScheduler = .ok c') : c'.lanes.map g = c.lanes.map g := by
  refine Loops.foldlM_ok (fun mid => mid.lanes.map g = c.lanes.map g) _ ?_ rfl returned
  intro mid same i _ next stepped
  obtain ⟨_, _, _, _, ⟨_, rfl⟩ | ⟨_, _, rfl⟩ | ⟨_, _, _, rfl⟩ | ⟨_, _, _, _, loaded⟩⟩ :=
    scheduleLane_cases stepped
  · exact same
  · exact same
  · exact (map_modify_of_same (fun l => stalls l _) mid.lanes i).trans same
  · obtain ⟨_, _, rfl⟩ := loadChain_ok loaded
    exact (map_modify_of_same (fun l => loads l _ _) _ i).trans
      ((map_modify_of_same (fun l => stalls l _) mid.lanes i).trans same)

end ChainSaw
