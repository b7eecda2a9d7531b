import ChainSaw.Core
import Mathlib.Data.List.Basic

set_option autoImplicit false

namespace ChainSaw

namespace Lane

/-- `execute` takes the first fetched instruction into the empty execute stage. -/
def start (l : Lane) (ins : Node) (rest : List Node) : Lane :=
  { l with exeStack := [ins], currentOp := some ins.type, exeCnt := l.startDelay ins,
           fetchStack := rest }

/-- The next `run` completes `ins`. -/
def Completes (l : Lane) (ins : Node) (rest : List Node) : Prop :=
  l.exeStack = ins :: rest ∧ l.updateCounter.exeCnt = 0

/-- The next `run` starts `ins`. -/
def Starts (l : Lane) (ins : Node) (rest : List Node) : Prop :=
  l.exeStack = [] ∧ l.updateCounter.exeCnt = 0 ∧ l.fetchStack = ins :: rest ∧ l.fetchCnt ≤ 1

/-- The next `run` neither completes nor starts an instruction. -/
def Waits (l : Lane) : Prop :=
  l.updateCounter.exeCnt ≠ 0 ∨ (l.exeStack = [] ∧ (l.fetchStack = [] ∨ 1 < l.fetchCnt))

theorem updateCounter_exeCnt_eq_zero {l : Lane} :
    l.updateCounter.exeCnt = 0 ↔ l.exeCnt = 0 ∨ l.exeCnt = 1 := by
  simp only [updateCounter]
  split <;> omega

theorem execute_completes {l : Lane} {ins : Node} {rest : List Node} (q : LaneQueues)
    (done : l.exeCnt = 0) (stack : l.exeStack = ins :: rest) :
    l.execute q = ({ l with exeStack := rest, currentOp := none },
      { q with finishedChains := q.finishedChains ++ [ins.cId] }) := by
  unfold execute
  rw [if_pos done, stack]

theorem execute_starts {l : Lane} {ins : Node} {rest : List Node} (q : LaneQueues)
    (done : l.exeCnt = 0) (empty : l.exeStack = []) (fetched : l.fetchStack = ins :: rest)
    (ready : l.fetchCnt = 0) :
    l.execute q = (l.start ins rest,
      { q with memReqQueue := q.memReqQueue ++ l.startRequest ins }) := by
  unfold execute
  rw [if_pos done, empty, fetched]
  simp only [ready, ↓reduceIte]
  simp [start, ready]

theorem execute_waits {l : Lane} (q : LaneQueues)
    (waits : l.exeCnt ≠ 0 ∨ (l.exeStack = [] ∧ (l.fetchStack = [] ∨ l.fetchCnt ≠ 0))) :
    ∃ op, l.execute q = ({ l with currentOp := op }, q) := by
  unfold execute
  split
  · rename_i done
    obtain ⟨empty, noStart⟩ := waits.resolve_left (fun unfinished => unfinished done)
    split
    · rename_i busy
      rw [empty] at busy
      cases busy
    · split
      · exact ⟨l.currentOp, rfl⟩
      · rename_i fetched
        have early : ¬ l.fetchCnt = 0 := noStart.resolve_left (by simp [fetched])
        exact ⟨l.currentOp, if_neg early⟩
  · split
    · exact ⟨_, rfl⟩
    · exact ⟨l.currentOp, rfl⟩

/-- The three things a cycle of a lane can do before it fetches. -/
theorem run_cases (l : Lane) (q : LaneQueues) :
    (∃ ins rest, l.Completes ins rest ∧
        l.run q = ({ l.updateCounter with exeStack := rest, currentOp := none }.fetch,
          { q with finishedChains := q.finishedChains ++ [ins.cId] })) ∨
      (∃ ins rest, l.Starts ins rest ∧
        l.run q = ((l.updateCounter.start ins rest).fetch,
          { q with memReqQueue := q.memReqQueue ++ l.startRequest ins })) ∨
      (l.Waits ∧ ∃ op, l.run q = ({ l.updateCounter with currentOp := op }.fetch, q)) := by
  have ran : l.run q = ((l.updateCounter.execute q).1.fetch, (l.updateCounter.execute q).2) := rfl
  have counter : l.updateCounter.fetchCnt = l.fetchCnt - 1 := rfl
  have waiting (waits : l.Waits) :
      l.Waits ∧ ∃ op, l.run q = ({ l.updateCounter with currentOp := op }.fetch, q) := by
    obtain ⟨op, waited⟩ := execute_waits (l := l.updateCounter) q (waits.imp id fun idle =>
      ⟨idle.1, idle.2.imp id fun early => by omega⟩)
    exact ⟨waits, op, by rw [ran, waited]⟩
  by_cases done : l.updateCounter.exeCnt = 0
  · cases stack : l.exeStack with
    | cons ins rest =>
      exact .inl ⟨ins, rest, ⟨stack, done⟩, by rw [ran, execute_completes q done stack]⟩
    | nil =>
      cases fetched : l.fetchStack with
      | nil => exact .inr (.inr (waiting (.inr ⟨stack, .inl fetched⟩)))
      | cons ins rest =>
        by_cases ready : l.fetchCnt ≤ 1
        · refine .inr (.inl ⟨ins, rest, ⟨stack, done, fetched, ready⟩, ?_⟩)
          rw [ran, execute_starts q done stack fetched (by omega)]
          rfl
        · exact .inr (.inr (waiting (.inr ⟨stack, .inr (by omega)⟩)))
  · exact .inr (.inr (waiting (.inl done)))

theorem fetch_cases (l : Lane) :
    (l.fetch = l ∧ (0 < l.fetchCnt ∨ l.instructionQueue = [])) ∨
      ∃ ins rest, l.fetchCnt = 0 ∧ l.instructionQueue = ins :: rest ∧
        l.fetch = { l with fetchStack := l.fetchStack ++ [ins], instructionQueue := rest,
                           fetchCnt := 4 } := by
  unfold fetch
  split
  · rename_i positive
    exact .inl ⟨rfl, .inl positive⟩
  · rename_i zero
    split
    · rename_i empty
      exact .inl ⟨rfl, .inr empty⟩
    · rename_i ins rest queue
      exact .inr ⟨ins, rest, by omega, queue, rfl⟩

@[simp] theorem fetch_exeStack (l : Lane) : l.fetch.exeStack = l.exeStack := by
  rcases fetch_cases l with ⟨same, _⟩ | ⟨ins, rest, _, _, same⟩ <;> rw [same]

@[simp] theorem fetch_exeCnt (l : Lane) : l.fetch.exeCnt = l.exeCnt := by
  rcases fetch_cases l with ⟨same, _⟩ | ⟨ins, rest, _, _, same⟩ <;> rw [same]

/-- The parts of a lane that no cycle changes. -/
def fixed (l : Lane) : Nat × Nat × LaneParam × List Nat :=
  (l.laneID, l.memoryMode, l.laneParam, l.schChainsList)

@[simp] theorem fetch_fixed (l : Lane) : l.fetch.fixed = l.fixed := by
  rcases fetch_cases l with ⟨same, _⟩ | ⟨ins, rest, _, _, same⟩
  · rw [same]
  · rw [same]
    rfl

@[simp] theorem fetch_contents (l : Lane) : l.fetch.contents = l.contents := by
  rcases fetch_cases l with ⟨same, _⟩ | ⟨ins, rest, _, queue, same⟩
  · rw [same]
  · rw [same]
    simp [contents, queue]

theorem run_fixed (l : Lane) (q : LaneQueues) : (l.run q).1.fixed = l.fixed := by
  rcases run_cases l q with ⟨ins, rest, _, ran⟩ | ⟨ins, rest, _, ran⟩ | ⟨_, op, ran⟩
  · rw [ran, fetch_fixed]
    rfl
  · rw [ran, fetch_fixed]
    rfl
  · rw [ran, fetch_fixed]
    rfl

/-- The execute stage holds at most one instruction, and counts only while it
holds one. -/
structure Valid (l : Lane) : Prop where
  single : l.exeStack.length ≤ 1
  busy : l.exeCnt ≠ 0 → l.exeStack ≠ []

theorem valid_new (id mode size : Nat) (param : LaneParam) : (new id mode size param).Valid :=
  ⟨by simp [new], by simp [new]⟩

theorem Completes.rest_eq {l : Lane} {ins : Node} {rest : List Node}
    (completes : l.Completes ins rest) (valid : l.Valid) : rest = [] := by
  have := valid.single
  rw [completes.1, List.length_cons] at this
  exact List.length_eq_zero_iff.mp (by omega)

theorem Valid.run {l : Lane} (valid : l.Valid) (q : LaneQueues) : (l.run q).1.Valid := by
  rcases run_cases l q with ⟨ins, rest, completes, ran⟩ | ⟨ins, rest, _, ran⟩ | ⟨waits, op, ran⟩
  · rw [ran]
    refine ⟨?_, ?_⟩
    · simp [completes.rest_eq valid]
    · intro counting
      simp only [fetch_exeCnt, completes.2] at counting
      exact absurd rfl counting
  · rw [ran]
    refine ⟨?_, ?_⟩ <;> simp [start]
  · rw [ran]
    refine ⟨?_, ?_⟩
    · rw [fetch_exeStack]
      exact valid.single
    · intro counting
      simp only [fetch_exeCnt, fetch_exeStack] at counting ⊢
      have unfinished : l.exeCnt ≠ 0 := fun zero =>
        counting (updateCounter_exeCnt_eq_zero.mpr (.inl zero))
      exact valid.busy unfinished

theorem Valid.loadInstructionQueue {l : Lane} (valid : l.Valid) (instructions : List Node)
    (chId : Nat) : (l.loadInstructionQueue instructions chId).Valid :=
  ⟨valid.single, valid.busy⟩

theorem Valid.wake {l : Lane} (valid : l.Valid) : (l.setExeCounter 0).Valid :=
  ⟨valid.single, fun counting => absurd rfl counting⟩

theorem retiring_eq_some {l : Lane} {ins : Node} {rest : List Node}
    (completes : l.Completes ins rest) : l.retiring = some ins := by
  simp [retiring, completes.1, completes.2]

theorem retiring_eq_none {l : Lane} (idle : l.updateCounter.exeCnt ≠ 0 ∨ l.exeStack = []) :
    l.retiring = none := by
  rcases idle with unfinished | empty
  · simp [retiring, unfinished]
  · simp [retiring, empty]

theorem Waits.retiring {l : Lane} (waits : l.Waits) : l.retiring = none :=
  retiring_eq_none (waits.imp id (·.1))

/-- The memory request that the next `run` makes. -/
def requesting (l : Lane) : List (Nat × Nat) :=
  match l.exeStack, l.fetchStack with
  | [], ins :: _ => if l.updateCounter.exeCnt = 0 ∧ l.fetchCnt ≤ 1 then l.startRequest ins else []
  | _, _ => []

theorem requesting_of_starts {l : Lane} {ins : Node} {rest : List Node}
    (starts : l.Starts ins rest) : l.requesting = l.startRequest ins := by
  obtain ⟨empty, done, fetched, ready⟩ := starts
  simp [requesting, empty, done, fetched, ready]

theorem requesting_eq_nil {l : Lane} (idle : l.Waits ∨ l.exeStack ≠ []) : l.requesting = [] := by
  unfold requesting
  split
  · rename_i ins rest empty fetched
    rw [if_neg]
    rintro ⟨done, ready⟩
    rcases idle with waits | busy
    · rcases waits with unfinished | ⟨_, nothing | early⟩
      · exact unfinished done
      · rw [fetched] at nothing
        cases nothing
      · omega
    · exact busy empty
  · rfl

/-- A cycle reports the completed instruction's chain and posts the requests. -/
theorem run_queues (l : Lane) (q : LaneQueues) :
    (l.run q).2 =
      ⟨q.finishedChains ++ (l.retiring.map (·.cId)).toList, q.memReqQueue ++ l.requesting⟩ := by
  rcases run_cases l q with ⟨ins, rest, completes, ran⟩ | ⟨ins, rest, starts, ran⟩ | ⟨waits, op, ran⟩
  · rw [ran, retiring_eq_some completes, requesting_eq_nil (.inr (by simp [completes.1]))]
    simp
  · rw [ran, retiring_eq_none (.inr starts.1), requesting_of_starts starts]
    simp
  · rw [ran, waits.retiring, requesting_eq_nil (.inl waits)]
    simp

/-- No instruction is lost: what a cycle takes out of a lane it completes. -/
theorem run_contents {l : Lane} (valid : l.Valid) (q : LaneQueues) :
    l.contents = l.retiring.toList ++ (l.run q).1.contents := by
  rcases run_cases l q with ⟨ins, rest, completes, ran⟩ | ⟨ins, rest, starts, ran⟩ | ⟨waits, op, ran⟩
  · rw [ran, retiring_eq_some completes, fetch_contents, completes.rest_eq valid]
    have stack := completes.1
    rw [completes.rest_eq valid] at stack
    simp [contents, stack, updateCounter]
  · rw [ran, retiring_eq_none (.inr starts.1), fetch_contents]
    obtain ⟨empty, _, fetched, _⟩ := starts
    simp [contents, start, empty, fetched, updateCounter]
  · rw [ran, waits.retiring, fetch_contents]
    rfl

theorem loadInstructionQueue_contents (l : Lane) (instructions : List Node) (chId : Nat) :
    (l.loadInstructionQueue instructions chId).contents = l.contents ++ instructions := by
  simp [contents, loadInstructionQueue]

end Lane

namespace Core

variable {σ : Type}

/-- What a lane becomes does not depend on the queues it writes to. -/
theorem run_fst (l : Lane) (q q' : LaneQueues) : (l.run q).1 = (l.run q').1 := by
  unfold Lane.run Lane.execute
  dsimp only
  split
  · split
    · rfl
    · split
      · rfl
      · split <;> rfl
  · split <;> rfl

/-- A cycle runs every lane once. -/
def cycled (l : Lane) : Lane := (l.run ⟨[], []⟩).1

theorem runLanes_eq (lanes : List Lane) (q : LaneQueues) :
    runLanes lanes q = (lanes.map cycled,
      ⟨q.finishedChains ++ (lanes.filterMap Lane.retiring).map (·.cId),
        q.memReqQueue ++ lanes.flatMap Lane.requesting⟩) := by
  induction lanes generalizing q with
  | nil => simp [runLanes]
  | cons l rest ih =>
    have queues := Lane.run_queues l q
    have lane := run_fst l q ⟨[], []⟩
    unfold runLanes
    simp only [ih, queues, lane]
    cases retired : l.retiring <;> simp [cycled, retired]

end Core

end ChainSaw
