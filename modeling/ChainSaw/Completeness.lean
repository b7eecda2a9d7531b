import ChainSaw.Runs

set_option autoImplicit false

namespace ChainSaw

variable {σ : Type}

namespace Lane

/-- The next `run` leaves the lane free. -/
def Finishing (l : Lane) : Prop :=
  l.fetchCnt ≤ 1 ∧ l.instructionQueue = [] ∧
    ((l.exeStack = [] ∧ l.fetchStack = []) ∨ (l.exeStack ≠ [] ∧ (l.exeCnt = 0 ∨ l.exeCnt = 1)))

instance (l : Lane) : Decidable l.Finishing :=
  inferInstanceAs (Decidable (_ ∧ _ ∧ ((_ ∧ _) ∨ (_ ∧ (_ ∨ _)))))

theorem isFree_iff {l : Lane} : l.isFree = true ↔
    l.fetchCnt = 0 ∧ l.exeCnt = 0 ∧ l.instructionQueue = [] ∧ l.exeStack = [] := by
  simp [isFree, and_assoc]

theorem fetch_isFree {l : Lane} : l.fetch.isFree = l.isFree := by
  rcases fetch_cases l with ⟨same, _⟩ | ⟨ins, rest, zero, queue, same⟩
  · rw [same]
  · rw [same, Bool.eq_iff_iff, isFree_iff, isFree_iff]
    simp [queue]

/-- A lane is free after a cycle that completed its last instruction in the
execute stage, whether or not the fetch stage holds more. -/
theorem run_isFree {l : Lane} (valid : l.Valid) (q : LaneQueues) :
    (l.run q).1.isFree = true ↔ l.Finishing := by
  have counter : l.updateCounter.fetchCnt = l.fetchCnt - 1 := rfl
  rcases run_cases l q with ⟨ins, rest, completes, ran⟩ | ⟨ins, rest, starts, ran⟩ | ⟨waits, op, ran⟩
  · have done := updateCounter_exeCnt_eq_zero.mp completes.2
    have queue : l.updateCounter.instructionQueue = l.instructionQueue := rfl
    rw [ran, fetch_isFree, isFree_iff]
    simp [Finishing, completes.1, completes.rest_eq valid, completes.2, counter, queue, done]
    omega
  · rw [ran, fetch_isFree, isFree_iff]
    simp [start, Finishing, starts.1, starts.2.2.1]
  · have queue : l.updateCounter.instructionQueue = l.instructionQueue := rfl
    have stack : l.updateCounter.exeStack = l.exeStack := rfl
    rw [ran, fetch_isFree, isFree_iff]
    simp only [counter, queue, stack, Finishing]
    rcases waits with unfinished | ⟨empty, early⟩
    · have counting : ¬ (l.exeCnt = 0 ∨ l.exeCnt = 1) := fun done =>
        unfinished (updateCounter_exeCnt_eq_zero.mpr done)
      have busy := valid.busy fun zero => counting (.inl zero)
      simp [unfinished, busy, counting]
    · have zero : l.exeCnt = 0 := by
        by_contra counting
        exact valid.busy counting empty
      have done := updateCounter_exeCnt_eq_zero.mpr (.inl zero)
      simp only [done, empty, true_and, and_true, ne_eq, not_true_eq_false, false_and, or_false]
      constructor
      · rintro ⟨fetched, nothing⟩
        exact ⟨by omega, nothing, early.resolve_right (by omega)⟩
      · rintro ⟨fetched, nothing, _⟩
        exact ⟨by omega, nothing⟩

/-- What such a lane still holds is what was fetched. -/
theorem Finishing.contents {l : Lane} (finishing : l.Finishing) (valid : l.Valid) (q : LaneQueues) :
    (l.run q).1.contents = l.fetchStack := by
  obtain ⟨_, queue, empty | ⟨busy, done⟩⟩ := finishing
  · have nothing : l.contents = [] := by simp [Lane.contents, queue, empty]
    have kept := run_contents valid q
    rw [nothing] at kept
    rw [(List.append_eq_nil_iff.mp kept.symm).2, empty.2]
  · obtain ⟨ins, rest, stack⟩ := List.exists_cons_of_ne_nil busy
    have completes : l.Completes ins rest := ⟨stack, updateCounter_exeCnt_eq_zero.mpr done⟩
    have kept := run_contents valid q
    rw [retiring_eq_some completes] at kept
    simp only [Lane.contents, stack, completes.rest_eq valid, queue, List.append_nil,
      Option.toList_some, List.singleton_append, List.cons.injEq, true_and] at kept
    exact kept.symm

theorem isFree_of_woken {l l' : Lane} (woken : Woken l l') (valid : l.Valid) :
    l'.isFree = l.isFree := by
  rcases woken with rfl | rfl
  · rfl
  · by_cases zero : l.exeCnt = 0
    · rw [setExeCounter, ← zero]
    · have busy := valid.busy zero
      rw [Bool.eq_iff_iff, isFree_iff, isFree_iff]
      simp [setExeCounter, busy]

end Lane

/-- The next cycle ends the iteration while a lane that completes an instruction
has another one in its fetch stage. -/
def Core.Abandons (c : Core σ) : Prop :=
  c.inputChain = [] ∧ (∀ l ∈ c.lanes, l.Finishing) ∧ ∃ l ∈ c.lanes, l.exeStack ≠ [] ∧ l.fetchStack ≠ []

/-- The instructions completed are those of the iteration's chains, each once,
and the lanes are empty. -/
def Complete (cfg : Config) (c : Core σ) (done : List Node) : Prop :=
  done.Perm (inputContents cfg.built) ∧
    ∀ l ∈ c.lanes, l.instructionQueue = [] ∧ l.fetchStack = [] ∧ l.exeStack = []

theorem woken_isFree {lanes lanes' : List Lane} (woken : List.Forall₂ Woken lanes lanes')
    (valid : ∀ l ∈ lanes, l.Valid) :
    (∀ l ∈ lanes', l.isFree = true) ↔ ∀ l ∈ lanes, l.isFree = true := by
  induction woken with
  | nil => simp
  | cons head _ ih =>
    rw [List.forall_mem_cons, List.forall_mem_cons, Lane.isFree_of_woken head (valid _ (by simp)),
      ih fun l member => valid l (by simp [member])]

namespace Running

variable {cfg : Config} {plan : Plan} {begun c c' : Core σ} {done : List Node} {finished : Bool}
  (running : Running cfg plan begun c done) (returned : c.runACycle = .ok (c', finished))
include running returned

/-- A cycle ends the iteration when the input is empty and all lanes finish. -/
theorem finished_iff :
    finished = true ↔ c.inputChain = [] ∧ ∀ l ∈ c.lanes, l.Finishing := by
  obtain ⟨released, woken, inputs, scheduled, scheduling, rfl⟩ := running.runACycle_stages returned
  have valid : ∀ l ∈ c.lanes.map Core.cycled, l.Valid := by
    intro l member
    obtain ⟨before, inside, rfl⟩ := List.mem_map.mp member
    exact (running.lanes before inside).run _
  have free : (∀ l ∈ released.lanes, l.isFree = true) ↔ ∀ l ∈ c.lanes, l.Finishing := by
    rw [woken_isFree woken valid, List.forall_mem_map]
    exact forall₂_congr fun l member => Lane.run_isFree (running.lanes l member) _
  rw [isFinish_iff, ← free, ← inputs]
  constructor
  · rintro ⟨empty, allFree⟩
    have empty : released.inputChain = [] := by
      rcases scheduled.oooScheduler_loads scheduling with same | ⟨l, inside, queued⟩
      · rw [← same, empty]
      · exact absurd (Lane.isFree_iff.mp (allFree l inside)).2.2.1 queued
    have lanes := (scheduled.oooScheduler_nothing empty scheduling).2
    exact ⟨empty, lanes ▸ allFree⟩
  · rintro ⟨empty, allFree⟩
    obtain ⟨empty', lanes⟩ := scheduled.oooScheduler_nothing empty scheduling
    exact ⟨empty', lanes ▸ allFree⟩

end Running

theorem laneContents_eq_nil {lanes : List Lane} : laneContents lanes = [] ↔
    ∀ l ∈ lanes, l.instructionQueue = [] ∧ l.fetchStack = [] ∧ l.exeStack = [] := by
  simp only [laneContents, List.flatMap_eq_nil_iff, Lane.contents, List.append_eq_nil_iff]
  exact forall₂_congr fun l _ => by tauto

/-- The end of an iteration leaves in the lanes what they had fetched. -/
theorem Running.leftover {cfg : Config} {plan : Plan} {begun c c' : Core σ} {done : List Node}
    (running : Running cfg plan begun c done) (returned : c.runACycle = .ok (c', true)) :
    laneContents c'.lanes = c.lanes.flatMap (·.fetchStack) := by
  obtain ⟨empty, finishing⟩ := (running.finished_iff returned).mp rfl
  obtain ⟨released, woken, inputs, scheduled, scheduling, _⟩ := running.runACycle_stages returned
  rw [(scheduled.oooScheduler_nothing (inputs.trans empty) scheduling).2,
    quiet_laneContents (woken.imp fun _ _ => Woken.quiet), laneContents, List.flatMap_map]
  exact List.flatMap_congr fun l member =>
    (finishing l member).contents (running.lanes l member) _

theorem Running.complete_iff {cfg : Config} {plan : Plan} {begun c c' : Core σ} {done : List Node}
    (running : Running cfg plan begun c done) (clean : laneContents begun.lanes = [])
    (returned : c.runACycle = .ok (c', true)) :
    Complete cfg c' (done ++ c.completions) ↔ ¬ c.Abandons := by
  have next := running.runACycle returned
  obtain ⟨empty, finishing⟩ := (running.finished_iff returned).mp rfl
  have fetched : laneContents c'.lanes = [] ↔ ¬ c.Abandons := by
    rw [running.leftover returned, List.flatMap_eq_nil_iff]
    constructor
    · rintro nothing ⟨_, _, l, inside, _, held⟩
      exact held (nothing l inside)
    · intro kept l inside
      by_contra held
      obtain ⟨_, _, idle | busy⟩ := finishing l inside
      · exact held idle.2
      · exact kept ⟨empty, finishing, l, inside, busy.1, held⟩
  rw [Complete, ← laneContents_eq_nil, ← fetched, and_iff_right_iff_imp]
  intro nothing
  have inputs : c'.inputChain = [] := by
    obtain ⟨_, _, _, _, _, isFinish⟩ := running.runACycle_stages returned
    exact (isFinish_iff.mp isFinish.symm).1
  have conserved := next.conserved
  rw [clean, nothing, inputs] at conserved
  simpa [inputContents] using conserved.symm

theorem Reach.clean {cfg : Config} {Begin : Nat → Ruby σ → Prop} {begun c : Core σ}
    {done : List Node} {running : Bool}
    (reach : Reach cfg Begin (fun c => ¬ c.Abandons) begun c done running) :
    laneContents (if running then begun.lanes else c.lanes) = [] := by
  induction reach with
  | boot ruby =>
    rw [if_neg (by simp), laneContents_eq_nil]
    intro l member
    obtain ⟨i, _, rfl⟩ := List.mem_map.mp member
    exact ⟨rfl, rfl, rfl⟩
  | begin n ruby earlier _ returned ih =>
    obtain ⟨_, _, _, _, rfl⟩ := (earlier.idle.withRuby ruby).beginIteration_ok returned
    exact ih
  | @cycle begun c c' done finished earlier kept returned ih =>
    cases finished with
    | false => exact ih
    | true =>
      obtain ⟨plan, running⟩ := earlier.running
      exact laneContents_eq_nil.mpr ((running.complete_iff ih returned).mpr kept).2

/-- A cycle that does not end the iteration abandons nothing. -/
theorem Reach.abandons_none {cfg : Config} {Begin : Nat → Ruby σ → Prop} {begun c : Core σ}
    {done : List Node} {running : Bool}
    (reach : Reach cfg Begin (fun c => ∃ c', c.runACycle = .ok (c', false)) begun c done running) :
    Reach cfg Begin (fun c => ¬ c.Abandons) begun c done running := by
  refine reach.mono (fun _ _ allowed => allowed) ?_
  rintro begun c done earlier ⟨c', returned⟩ ⟨empty, finishing, _⟩
  obtain ⟨plan, running⟩ := earlier.running
  exact absurd ((running.finished_iff returned).mpr ⟨empty, finishing⟩) (by simp)

/-- In a run none of whose cycles so far has abandoned an instruction, the end
of an iteration is complete exactly when its last cycle abandons none either. -/
theorem iteration_complete_iff {cfg : Config} {begun c c' : Core σ} {done : List Node}
    (run : Reach cfg (fun _ _ => True) (fun c => ¬ c.Abandons) begun c done true)
    (returned : c.runACycle = .ok (c', true)) :
    Complete cfg c' (done ++ c.completions) ↔ ¬ c.Abandons := by
  obtain ⟨plan, running⟩ := run.running
  exact running.complete_iff run.clean returned

/-- A slow multiplication with an addition behind it in the last chain. -/
def slowBeforeLast : BoostGraph where
  vertices := [⟨0, ⟨.bb, 0⟩, 0, .bb⟩, ⟨1, ⟨.other "FMul", 1⟩, 1, .other "FMul"⟩,
    ⟨2, ⟨.other "Add", 2⟩, 1, .other "Add"⟩]
  edges := [(0, 1), (1, 2)]
  bounded := by decide

/-- The iteration ends with the addition in the fetch stage. -/
theorem slowBeforeLast_incomplete :
    ∃ (cfg : Config) (begun c c' : Core (List Nat)) (done : List Node),
      cfg.dirtyGraph = slowBeforeLast ∧ Run cfg begun c done true ∧
        c.runACycle = .ok (c', true) ∧ ¬ Complete cfg c' (done ++ c.completions) := by
  have tested : firstIteration ⟨0, 0, 0, 3⟩ sampleLlvm slowBeforeLast 1 ⟨0, 0⟩
      ⟨1, 25, 100, 2, 2⟩ (fun _ _ => none) ⟨fifoRuby, [], []⟩ 17 (fun _ _ c _ =>
        Loops.returns (fun (c', stops) => stops && c'.lanes.any (fun l => !l.fetchStack.isEmpty))
          c.runACycle) = true := by
    decide +kernel
  obtain ⟨graph, read, begun, c, done, ran, runs⟩ := exists_run tested
  have run := runs (fun _ _ => True) (fun _ => True) trivial (fun _ _ _ => trivial)
  obtain ⟨⟨c', stops⟩, stepped, ended⟩ := Loops.returns_iff.mp ran
  obtain ⟨rfl, held⟩ := Bool.and_eq_true_iff.mp ended
  refine ⟨_, begun, c, c', done, rfl, run, stepped, ?_⟩
  intro complete
  obtain ⟨l, inside, held⟩ := List.any_eq_true.mp held
  simp [(complete.2 l inside).2.1] at held

/-- Two chains of one instruction. -/
def twoSteps : BoostGraph where
  vertices := [⟨0, ⟨.bb, 0⟩, 0, .bb⟩, ⟨1, ⟨.other "Add", 1⟩, 1, .other "Add"⟩]
  edges := [(0, 1)]
  bounded := by decide

theorem iteration_complete_twoSteps :
    ∃ (cfg : Config) (begun c c' : Core (List Nat)) (done : List Node),
      cfg.dirtyGraph = twoSteps ∧
        Reach cfg (fun _ _ => True) (fun c => ¬ c.Abandons) begun c done true ∧
        c.runACycle = .ok (c', true) ∧ ¬ c.Abandons ∧ Complete cfg c' (done ++ c.completions) := by
  have tested : firstIteration ⟨0, 0, 0, 3⟩ sampleLlvm twoSteps 1 ⟨0, 0⟩
      ⟨1, 25, 100, 2, 2⟩ (fun _ _ => none) ⟨fifoRuby, [], []⟩ 14 (fun _ _ c _ =>
        c.lanes.all (fun l => l.fetchStack.isEmpty) &&
        Loops.returns (fun (_, stops) => stops) c.runACycle) = true := by
    decide +kernel
  obtain ⟨graph, read, begun, c, done, ran, runs⟩ := exists_run tested
  have run := runs (fun _ _ => True) (fun c => ∃ c', c.runACycle = .ok (c', false)) trivial
    (fun _ c' returned => ⟨c', returned⟩)
  obtain ⟨nothing, ran⟩ := Bool.and_eq_true_iff.mp ran
  obtain ⟨⟨c', stops⟩, stepped, rfl⟩ := Loops.returns_iff.mp ran
  have kept := run.abandons_none
  have last : ¬ c.Abandons := by
    rintro ⟨_, _, l, inside, _, held⟩
    exact held (by simpa using List.all_eq_true.mp nothing l inside)
  exact ⟨_, begun, c, c', done, rfl, kept, stepped, last,
    (iteration_complete_iff kept stepped).mpr last⟩

end ChainSaw
