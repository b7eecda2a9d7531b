import ChainSaw.LaneRuns
import Mathlib.Order.Bounds.Basic

set_option autoImplicit false

namespace ChainSaw

/-- A lane that is given `n` instructions fetches in cycles 1, 5, and so on. In
these cycles, and in all of them after the last fetch has passed, `execute` finds
`fetch_cnt` 0. -/
def Slot (n t : Nat) : Prop := t % 4 = 1 ∨ 4 * n + 1 ≤ t

instance (n t : Nat) : Decidable (Slot n t) :=
  inferInstanceAs (Decidable (t % 4 = 1 ∨ 4 * n + 1 ≤ t))

/-- The cycles `S j` in which instruction `j` of `n` enters execution and the
cycles `F j` in which it completes, for execution delays `L j`. -/
structure TimingLaw (n : Nat) (L S F : Nat → Nat) : Prop where
  zero : F 0 = 0
  start : ∀ j, 1 ≤ j → j ≤ n →
    IsLeast {t | max (4 * j + 1) (F (j - 1) + 1) ≤ t ∧ (t % 4 = 1 ∨ 4 * n + 1 ≤ t)} (S j)
  finish : ∀ j, 1 ≤ j → j ≤ n → F j = S j + max (L j) 1

/-- The first cycle from `m` on in which an instruction can start. -/
def nextSlot (n m : Nat) : Nat := if 4 * n + 1 ≤ m then m else m + (4 - (m + 3) % 4) % 4

theorem nextSlot_isLeast (n m : Nat) :
    IsLeast {t | m ≤ t ∧ (t % 4 = 1 ∨ 4 * n + 1 ≤ t)} (nextSlot n m) := by
  unfold nextSlot
  constructor
  · show m ≤ _ ∧ _
    split <;> omega
  · rintro t ⟨late, slot⟩
    split <;> omega

/-- `S j` and `F j`, computed along the list. -/
def startAndFinish (n : Nat) (L : Nat → Nat) : Nat → Nat × Nat
  | 0 => (0, 0)
  | j + 1 =>
    let start := nextSlot n (max (4 * (j + 1) + 1) ((startAndFinish n L j).2 + 1))
    (start, start + max (L (j + 1)) 1)

theorem exists_timingLaw (n : Nat) (L : Nat → Nat) : ∃ S F, TimingLaw n L S F := by
  refine ⟨fun j => (startAndFinish n L j).1, fun j => (startAndFinish n L j).2, rfl, ?_, ?_⟩
  · intro j first _
    obtain ⟨i, rfl⟩ := Nat.exists_eq_add_of_le' first
    exact nextSlot_isLeast n _
  · intro j first _
    obtain ⟨i, rfl⟩ := Nat.exists_eq_add_of_le' first
    rfl

namespace TimingLaw

variable {n : Nat} {L S F : Nat → Nat} (law : TimingLaw n L S F)
include law

theorem start_slot {j : Nat} (first : 1 ≤ j) (last : j ≤ n) :
    4 * j + 1 ≤ S j ∧ F (j - 1) < S j ∧ Slot n (S j) := by
  obtain ⟨late, slot⟩ := (law.start j first last).1
  exact ⟨by omega, by omega, slot⟩

/-- An instruction starts in the first slot that it can use. -/
theorem start_le {j t : Nat} (first : 1 ≤ j) (last : j ≤ n) (fetched : 4 * j + 1 ≤ t)
    (free : F (j - 1) < t) (slot : Slot n t) : S j ≤ t :=
  (law.start j first last).2 ⟨by omega, slot⟩

theorem start_lt_finish {j : Nat} (first : 1 ≤ j) (last : j ≤ n) : S j < F j := by
  rw [law.finish j first last]
  omega

/-- The instructions start one after the other. -/
theorem start_mono {i j : Nat} (first : 1 ≤ i) (before : i ≤ j) (last : j ≤ n) : S i ≤ S j := by
  induction j, before using Nat.le_induction with
  | base => exact Nat.le_refl _
  | succ j before ih =>
    have earlier := ih (by omega)
    have ends := law.start_lt_finish (j := j) (by omega) (by omega)
    have next := (law.start_slot (j := j + 1) (by omega) last).2.1
    rw [Nat.add_sub_cancel] at next
    omega

theorem finish_mono {i j : Nat} (first : 1 ≤ i) (before : i ≤ j) (last : j ≤ n) : F i ≤ F j := by
  rcases Nat.eq_or_lt_of_le before with rfl | less
  · exact Nat.le_refl _
  · have next := (law.start_slot (j := i + 1) (by omega) (by omega)).2.1
    have later := law.start_mono (i := i + 1) (by omega) less last
    have ends := law.start_lt_finish (j := j) (by omega) last
    rw [Nat.add_sub_cancel] at next
    omega

end TimingLaw

/-- The number of instructions fetched in the first `t` cycles. -/
def fetched (n t : Nat) : Nat := min n ((t + 3) / 4)

/-- `fetch_cnt` after `t` cycles. -/
def fetchCounter (n t : Nat) : Nat := if t = 0 ∨ 4 * n < t then 0 else 4 - (t - 1) % 4

theorem fetchCounter_le_one (n t : Nat) : fetchCounter n t ≤ 1 ↔ Slot n (t + 1) := by
  unfold fetchCounter Slot
  split <;> omega

/-- The fetch stage of a lane after `t` cycles, when `k` instructions have started. -/
structure Fetching (ins : List Node) (t k : Nat) (l : Lane) : Prop where
  started : k ≤ fetched ins.length t
  queue : l.instructionQueue = ins.drop (fetched ins.length t)
  stack : l.fetchStack = (ins.take (fetched ins.length t)).drop k

theorem Fetching.within {ins : List Node} {t k : Nat} {l : Lane} (fetching : Fetching ins t k l) :
    k ≤ ins.length :=
  fetching.started.trans (Nat.min_le_left _ _)

theorem drop_eq_cons {ins rest : List Node} {x : Node} {k : Nat} (split : ins.drop k = x :: rest) :
    ∃ inside : k < ins.length, x = ins[k] ∧ rest = ins.drop (k + 1) := by
  have inside : k < ins.length := by
    by_contra outside
    rw [List.drop_eq_nil_of_le (Nat.le_of_not_lt outside)] at split
    cases split
  rw [List.drop_eq_getElem_cons inside] at split
  obtain ⟨rfl, rfl⟩ := List.cons.inj split
  exact ⟨inside, rfl, rfl⟩

theorem take_succ_drop {ins rest : List Node} {x : Node} {f k : Nat} (within : k ≤ f)
    (split : ins.drop f = x :: rest) :
    (ins.take f).drop k ++ [x] = (ins.take (f + 1)).drop k ∧ rest = ins.drop (f + 1) := by
  obtain ⟨inside, rfl, rfl⟩ := drop_eq_cons split
  refine ⟨?_, rfl⟩
  rw [List.take_succ_eq_append_getElem inside, List.drop_append_of_le_length]
  rw [List.length_take]
  omega

theorem drop_take_cons {ins rest : List Node} {x : Node} {f k : Nat}
    (split : (ins.take f).drop k = x :: rest) :
    k < f ∧ ins[k]? = some x ∧ rest = (ins.take f).drop (k + 1) := by
  obtain ⟨inside, rfl, rfl⟩ := drop_eq_cons split
  rw [List.length_take] at inside
  refine ⟨by omega, ?_, rfl⟩
  rw [List.getElem_take, List.getElem?_eq_getElem]

theorem drop_take_one {ins : List Node} {x : Node} {k : Nat} (at_k : ins[k]? = some x) :
    (ins.take (k + 1)).drop k = [x] := by
  obtain ⟨bound, rfl⟩ := List.getElem?_eq_some_iff.mp at_k
  rw [List.take_succ_eq_append_getElem bound, List.drop_append_of_le_length]
  · simp
  · rw [List.length_take]
    omega

/-- What `fetch` does in cycle `t + 1`, after the counter has been updated. -/
theorem Fetching.fetch {ins : List Node} {t k : Nat} {l : Lane} (fetching : Fetching ins t k l)
    (counter : l.fetchCnt = fetchCounter ins.length t - 1) :
    Fetching ins (t + 1) k l.fetch ∧ l.fetch.fetchCnt = fetchCounter ins.length (t + 1) := by
  obtain ⟨started, queue, stack⟩ := fetching
  rcases Lane.fetch_cases l with ⟨same, waits⟩ | ⟨x, rest, zero, found, same⟩
  · have still : fetched ins.length (t + 1) = fetched ins.length t ∧
        fetchCounter ins.length (t + 1) = fetchCounter ins.length t - 1 := by
      rcases waits with positive | empty
      · rw [counter] at positive
        unfold fetched fetchCounter at *
        split at positive <;> split <;> omega
      · rw [queue, List.drop_eq_nil_iff] at empty
        unfold fetched fetchCounter at *
        split <;> split <;> omega
    rw [same, still.2]
    exact ⟨⟨still.1 ▸ started, still.1 ▸ queue, still.1 ▸ stack⟩, counter⟩
  · rw [queue] at found
    obtain ⟨inside, _⟩ := drop_eq_cons found
    have slot : Slot ins.length (t + 1) := by
      rw [← fetchCounter_le_one]
      omega
    have next : fetched ins.length (t + 1) = fetched ins.length t + 1 ∧
        fetchCounter ins.length (t + 1) = 4 := by
      unfold fetched fetchCounter Slot at *
      split <;> omega
    obtain ⟨grown, left⟩ := take_succ_drop started found
    rw [same, next.2]
    refine ⟨⟨?_, ?_, ?_⟩, rfl⟩
    · omega
    · rw [next.1]
      exact left
    · rw [next.1]
      dsimp only
      rw [stack]
      exact grown

/-- The execution delay of an instruction in the memory modes 0 to 2. -/
def Lane.delay (l : Lane) (x : Node) : Nat :=
  if x.type.isMem then
    match l.memoryMode with
    | 0 => l.laneParam.l1MissLatency
    | 1 => l.laneParam.l2MissLatency
    | _ => l.laneParam.l3MissLatency
  else x.latency

theorem delay_congr {l l' : Lane} (same : l'.kind = l.kind) (x : Node) :
    l'.delay x = l.delay x := by
  have mode : l'.memoryMode = l.memoryMode := congrArg (·.2.1) same
  have param : l'.laneParam = l.laneParam := congrArg (·.2.2) same
  unfold Lane.delay
  rw [mode, param]

theorem startDelay_eq {l : Lane} {x : Node} (mode : l.memoryMode ≤ 2) (small : l.delay x < 2 ^ 31) :
    l.startDelay x = l.delay x := by
  unfold Lane.startDelay Lane.delay at *
  split
  · rename_i memory
    rw [if_pos memory] at small
    split at small
    · rename_i zero
      simp only [zero]
      exact toInt32_of_lt small
    · rename_i one
      simp only [one]
      exact toInt32_of_lt small
    · rename_i notZero notOne
      have notZero : l.memoryMode ≠ 0 := notZero
      have notOne : l.memoryMode ≠ 1 := notOne
      have two : l.memoryMode = 2 := by omega
      simp only [two]
      exact toInt32_of_lt small
  · rename_i arithmetic
    rw [if_neg arithmetic] at small
    exact toInt32_of_lt small

/-- The execute stage of a lane after `t` cycles, when `k` instructions have
started: the last of them is under way, or it is done and the next one waits. -/
inductive Executing (ins : List Node) (L S F : Nat → Nat) (t : Nat) : Nat → Lane → Prop
  | idle {k : Nat} {l : Lane} : l.exeStack = [] → l.exeCnt = 0 → F k ≤ t →
      (k < ins.length → t < S (k + 1)) → Executing ins L S F t k l
  | busy {k : Nat} {l : Lane} {x : Node} : ins[k]? = some x → l.exeStack = [x] →
      S (k + 1) ≤ t → t < F (k + 1) → l.exeCnt = ((L (k + 1) - (t - S (k + 1)) : Nat) : Int) →
      Executing ins L S F t (k + 1) l

/-- A lane that was given the instructions, after `t` cycles. -/
structure InTime (ins : List Node) (L S F : Nat → Nat) (t k : Nat) (l : Lane) : Prop where
  fetching : Fetching ins t k l
  counter : l.fetchCnt = fetchCounter ins.length t
  executing : Executing ins L S F t k l

section step

variable {ins : List Node} {L S F : Nat → Nat} (law : TimingLaw ins.length L S F) {t k : Nat}
  {l : Lane}

/-- The fetch stage in the next cycle, when `execute` left its queue alone. -/
theorem InTime.fetch (inTime : InTime ins L S F t k l) {next : Lane} {k' : Nat}
    (started : k' ≤ fetched ins.length t) (queue : next.instructionQueue = l.instructionQueue)
    (stack : next.fetchStack = (ins.take (fetched ins.length t)).drop k')
    (counter : next.fetchCnt = l.fetchCnt - 1)
    (executing : Executing ins L S F (t + 1) k' next.fetch) :
    InTime ins L S F (t + 1) k' next.fetch := by
  have fetching : Fetching ins t k' next := ⟨started, queue.trans inTime.fetching.queue, stack⟩
  obtain ⟨later, counted⟩ := fetching.fetch (by rw [counter, inTime.counter])
  exact ⟨later, counted, executing⟩

include law

/-- The last started instruction completes in cycle `F (k + 1)` and not before. -/
theorem completes_iff (inside : k < ins.length) (begun : S (k + 1) ≤ t) (going : t < F (k + 1))
    (counting : l.exeCnt = ((L (k + 1) - (t - S (k + 1)) : Nat) : Int)) :
    l.updateCounter.exeCnt = 0 ↔ F (k + 1) = t + 1 := by
  have ends := law.finish (k + 1) (by omega) inside
  rw [Lane.updateCounter_exeCnt_eq_zero, counting]
  omega

theorem InTime.busy_step {x : Node} (inTime : InTime ins L S F t (k + 1) l)
    (at_k : ins[k]? = some x) (stack : l.exeStack = [x]) (begun : S (k + 1) ≤ t)
    (going : t < F (k + 1)) (counting : l.exeCnt = ((L (k + 1) - (t - S (k + 1)) : Nat) : Int))
    (q : LaneQueues) : InTime ins L S F (t + 1) (k + 1) (l.run q).1 := by
  have inside := (List.getElem?_eq_some_iff.mp at_k).1
  have zero := completes_iff law inside begun going counting
  rcases Lane.run_cases l q with ⟨y, rest, completes, ran⟩ | ⟨y, rest, starts, _⟩ | ⟨waits, op, ran⟩
  · have done := zero.mp completes.2
    obtain ⟨rfl, rfl⟩ : x = y ∧ [] = rest := List.cons.inj (stack.symm.trans completes.1)
    rw [ran]
    refine inTime.fetch inTime.fetching.started rfl inTime.fetching.stack rfl ?_
    refine .idle (by rw [Lane.fetch_exeStack]) (by rw [Lane.fetch_exeCnt]; exact completes.2)
      (Nat.le_of_eq done) ?_
    intro more
    have next := (law.start_slot (j := k + 1 + 1) (by omega) more).2.1
    rw [Nat.add_sub_cancel] at next
    omega
  · rw [starts.1] at stack
    cases stack
  · have early : ¬ F (k + 1) = t + 1 := by
      rw [← zero]
      rcases waits with unfinished | ⟨empty, _⟩
      · exact unfinished
      · rw [empty] at stack
        cases stack
    rw [ran]
    refine inTime.fetch inTime.fetching.started rfl inTime.fetching.stack rfl ?_
    refine .busy at_k (by rw [Lane.fetch_exeStack]; exact stack) (by omega) (by omega) ?_
    rw [Lane.fetch_exeCnt]
    simp only [Lane.updateCounter, counting]
    split <;> omega

/-- The next instruction starts in cycle `S (k + 1)` and not before. -/
theorem InTime.idle_step (inTime : InTime ins L S F t k l) (empty : l.exeStack = [])
    (counting : l.exeCnt = 0) (free : F k ≤ t) (early : k < ins.length → t < S (k + 1))
    (delays : ∀ x, ins[k]? = some x → l.updateCounter.startDelay x = L (k + 1))
    (q : LaneQueues) : ∃ k', InTime ins L S F (t + 1) k' (l.run q).1 := by
  have startable : (k < fetched ins.length t ∧ l.fetchCnt ≤ 1) →
      k < ins.length ∧ S (k + 1) = t + 1 := by
    rintro ⟨waiting, ready⟩
    rw [inTime.counter, fetchCounter_le_one] at ready
    have inside : k < ins.length := by
      unfold fetched at waiting
      omega
    have late : 4 * (k + 1) + 1 ≤ t + 1 := by
      unfold fetched at waiting
      unfold Slot at ready
      omega
    have := law.start_le (j := k + 1) (by omega) inside late
      (by rw [Nat.add_sub_cancel]; omega) ready
    have := early inside
    omega
  rcases Lane.run_cases l q with ⟨y, rest, completes, _⟩ | ⟨y, rest, starts, ran⟩ | ⟨waits, op, ran⟩
  · rw [completes.1] at empty
    cases empty
  · obtain ⟨_, _, found, ready⟩ := starts
    obtain ⟨waiting, at_k, left⟩ := drop_take_cons (inTime.fetching.stack.symm.trans found)
    obtain ⟨inside, now⟩ := startable ⟨waiting, ready⟩
    refine ⟨k + 1, ?_⟩
    rw [ran]
    refine inTime.fetch (by omega) rfl left rfl ?_
    refine .busy at_k (by rw [Lane.fetch_exeStack]; rfl) (Nat.le_of_eq now) ?_ ?_
    · rw [← now]
      exact law.start_lt_finish (by omega) inside
    · rw [Lane.fetch_exeCnt, now, Nat.sub_self, Nat.sub_zero]
      exact delays y at_k
  · refine ⟨k, ?_⟩
    rw [ran]
    refine inTime.fetch inTime.fetching.started rfl inTime.fetching.stack rfl ?_
    refine .idle (by rw [Lane.fetch_exeStack]; exact empty)
      (by rw [Lane.fetch_exeCnt]; exact Lane.updateCounter_exeCnt_eq_zero.mpr (.inl counting))
      (by omega) ?_
    intro inside
    have before := early inside
    by_contra passed
    have now : S (k + 1) = t + 1 := by omega
    obtain ⟨late, _, slot⟩ := law.start_slot (j := k + 1) (by omega) inside
    rw [now, ← fetchCounter_le_one, ← inTime.counter] at slot
    have waiting : k < fetched ins.length t := by
      unfold fetched
      omega
    rcases waits with unfinished | ⟨_, nothing | notReady⟩
    · exact unfinished (Lane.updateCounter_exeCnt_eq_zero.mpr (.inl counting))
    · rw [inTime.fetching.stack, List.drop_eq_nil_iff, List.length_take] at nothing
      unfold fetched at *
      omega
    · omega

/-- The instructions that have started by cycle `t` are the first `k`. -/
theorem InTime.started_iff (inTime : InTime ins L S F t k l) {j : Nat} (first : 1 ≤ j)
    (last : j ≤ ins.length) : S j ≤ t ↔ j ≤ k := by
  have within := inTime.fetching.within
  cases inTime.executing with
  | idle _ _ free early =>
    constructor
    · intro started
      by_contra later
      have := early (by omega)
      have := law.start_mono (i := k + 1) (by omega) (Nat.lt_of_not_le later) last
      omega
    · intro before
      have := law.start_mono first before within
      have := law.start_lt_finish (j := k) (by omega) within
      omega
  | @busy k _ _ _ _ begun going _ =>
    constructor
    · intro started
      by_contra later
      have := law.start_mono (i := k + 2) (by omega) (Nat.lt_of_not_le later) last
      have := (law.start_slot (j := k + 2) (by omega) (by omega)).2.1
      rw [show k + 2 - 1 = k + 1 by omega] at this
      omega
    · intro before
      have := law.start_mono first before within
      omega

/-- An instruction that started before the last one has completed. -/
theorem InTime.finish_le (inTime : InTime ins L S F t k l) {j : Nat} (first : 1 ≤ j)
    (before : j < k) : F j ≤ t := by
  have within := inTime.fetching.within
  have begun := (inTime.started_iff law (j := k) (by omega) within).mpr (Nat.le_refl k)
  have := (law.start_slot (j := k) (by omega) within).2.1
  have := law.finish_mono first (Nat.le_sub_one_of_lt before) (by omega)
  omega

end step

/-- The instructions of a list, counted from 1, whose number has property `p`. -/
def numbered (ins : List Node) (p : Nat → Prop) [DecidablePred p] : List Node :=
  ((ins.zipIdx 1).filter fun e => p e.2).map (·.1)

theorem filter_zipIdx {ins : List Node} {p : Nat → Prop} [DecidablePred p] {a b : Nat}
    (within : a ≤ b) (s : Nat)
    (spec : ∀ j, s < j → j ≤ s + ins.length → (p j ↔ a < j ∧ j ≤ b)) :
    ((ins.zipIdx (s + 1)).filter fun e => p e.2).map (·.1) =
      (ins.take (b - s)).drop (a - s) := by
  induction ins generalizing s with
  | nil => simp
  | cons x rest ih =>
    have first := spec (s + 1) (by omega) (by simp)
    have others := ih (s + 1) fun j low high =>
      spec j (by omega) (by rw [List.length_cons]; omega)
    rw [List.zipIdx_cons, List.filter_cons]
    by_cases inside : p (s + 1)
    · have bounds := first.mp inside
      rw [if_pos (decide_eq_true inside), List.map_cons, others,
        show a - s = 0 by omega, show a - (s + 1) = 0 by omega,
        show b - s = (b - (s + 1)) + 1 by omega]
      rfl
    · have outside : ¬ (a < s + 1 ∧ s + 1 ≤ b) := fun bounds => inside (first.mpr bounds)
      rw [if_neg (by simp [inside]), others]
      by_cases late : s < a
      · rw [show a - s = (a - (s + 1)) + 1 by omega, show b - s = (b - (s + 1)) + 1 by omega]
        rfl
      · rw [show b - s = 0 by omega, show b - (s + 1) = 0 by omega]
        simp

/-- A property of an interval of numbers selects a stretch of the list. -/
theorem numbered_eq {ins : List Node} {p : Nat → Prop} [DecidablePred p] {a b : Nat}
    (within : a ≤ b) (spec : ∀ j, 1 ≤ j → j ≤ ins.length → (p j ↔ a < j ∧ j ≤ b)) :
    numbered ins p = (ins.take b).drop a :=
  filter_zipIdx within 0 fun j low high => spec j low (by omega)

/-- The delays of a list of instructions on a lane, counted from 1. -/
def Lane.delays (l : Lane) (ins : List Node) (j : Nat) : Nat := (ins[j - 1]?.map l.delay).getD 0

/-- Everything a lane holds is determined by the law. -/
structure Held (ins : List Node) (S F : Nat → Nat) (t : Nat) (l : Lane) : Prop where
  queue : l.instructionQueue = numbered ins fun j => t < 4 * (j - 1) + 1
  fetching : l.fetchStack = numbered ins fun j => 4 * (j - 1) + 1 ≤ t ∧ t < S j
  executing : l.exeStack = numbered ins fun j => S j ≤ t ∧ t < F j
  completing : l.retiring.toList = numbered ins fun j => F j = t + 1

section held

variable {ins : List Node} {L S F : Nat → Nat} {t k : Nat} {l : Lane}
  (inTime : InTime ins L S F t k l) (law : TimingLaw ins.length L S F)
include inTime law

/-- What completes in the next cycle has started. -/
theorem InTime.started_of_finish {j : Nat} (first : 1 ≤ j) (last : j ≤ ins.length)
    (done : F j = t + 1) : j ≤ k := by
  have begun := law.start_lt_finish first last
  exact (inTime.started_iff law first last).mp (by omega)

theorem InTime.exeStack_eq : l.exeStack = numbered ins fun j => S j ≤ t ∧ t < F j := by
  have within := inTime.fetching.within
  cases inTime.executing with
  | idle empty _ free _ =>
    rw [empty, numbered_eq (Nat.le_refl k)]
    · simp
    · intro j first last
      have started := inTime.started_iff law first last
      constructor
      · intro ⟨begun, going⟩
        have := law.finish_mono first (started.mp begun) within
        omega
      · intro bounds
        omega
  | @busy k _ x at_k stack begun going _ =>
    rw [stack, numbered_eq (Nat.le_succ k), drop_take_one at_k]
    intro j first last
    have started := inTime.started_iff law first last
    constructor
    · intro ⟨isBegun, isGoing⟩
      refine ⟨?_, started.mp isBegun⟩
      by_contra before
      have := inTime.finish_le law first (by omega : j < k + 1)
      omega
    · intro bounds
      obtain rfl : j = k + 1 := by omega
      exact ⟨begun, going⟩

theorem InTime.retiring_eq : l.retiring.toList = numbered ins fun j => F j = t + 1 := by
  have within := inTime.fetching.within
  cases inTime.executing with
  | idle empty _ free _ =>
    rw [Lane.retiring_eq_none (.inr empty), numbered_eq (Nat.le_refl k)]
    · simp
    · intro j first last
      constructor
      · intro done
        have := law.finish_mono first (inTime.started_of_finish law first last done) within
        omega
      · intro bounds
        omega
  | @busy k _ x at_k stack begun going counting =>
    have inside := (List.getElem?_eq_some_iff.mp at_k).1
    have zero := completes_iff law inside begun going counting
    have only : ∀ j, 1 ≤ j → j ≤ ins.length → F j = t + 1 → j = k + 1 := by
      intro j first last done
      have started := inTime.started_of_finish law first last done
      by_contra before
      have := inTime.finish_le law first (by omega : j < k + 1)
      omega
    by_cases done : F (k + 1) = t + 1
    · rw [Lane.retiring_eq_some ⟨stack, zero.mpr done⟩, numbered_eq (Nat.le_succ k),
        drop_take_one at_k]
      · rfl
      · intro j first last
        constructor
        · intro now
          have := only j first last now
          omega
        · intro bounds
          obtain rfl : j = k + 1 := by omega
          exact done
    · rw [Lane.retiring_eq_none (.inl (fun now => done (zero.mp now))),
        numbered_eq (Nat.le_refl k)]
      · simp
      · intro j first last
        constructor
        · intro now
          exact absurd (only j first last now ▸ now) done
        · intro bounds
          omega

/-- The instructions in the stages after `t` cycles, by their numbers. -/
theorem InTime.held : Held ins S F t l := by
  refine ⟨?_, ?_, inTime.exeStack_eq law, inTime.retiring_eq law⟩
  · rw [inTime.fetching.queue, numbered_eq (a := fetched ins.length t) (b := ins.length),
      List.take_length]
    · exact Nat.min_le_left _ _
    · intro j first last
      unfold fetched
      omega
  · rw [inTime.fetching.stack, numbered_eq inTime.fetching.started]
    intro j first last
    have started := inTime.started_iff law first last
    unfold fetched
    omega

end held

/-- The idle lane that has just been given the instructions. -/
theorem InTime.loaded {l : Lane} (queue : l.instructionQueue = []) (fetching : l.fetchStack = [])
    (executing : l.exeStack = []) (fetchCnt : l.fetchCnt = 0) (exeCnt : l.exeCnt = 0)
    {ins : List Node} {L S F : Nat → Nat} (law : TimingLaw ins.length L S F) (chId : Nat) :
    InTime ins L S F 0 0 (l.loadInstructionQueue ins chId) := by
  refine ⟨⟨Nat.zero_le _, ?_, ?_⟩, ?_, .idle executing exeCnt (Nat.le_of_eq law.zero) ?_⟩
  · simp [Lane.loadInstructionQueue, queue, fetched]
  · simp [Lane.loadInstructionQueue, fetching, fetched]
  · simp [Lane.loadInstructionQueue, fetchCnt, fetchCounter]
  · intro some
    have := (law.start_slot (Nat.le_refl 1) some).1
    show 0 < S 1
    omega

/-- Lane timing law. In an idle lane that is given a list of instructions and
then only runs, instruction `j` is in the instruction queue until it is fetched
in cycle `4 (j - 1) + 1`, from then on in the fetch stack until it enters
execution in cycle `S j`, and from then on in execution until it completes in
cycle `F j`. -/
theorem lane_timing_law {l : Lane} (queue : l.instructionQueue = []) (fetching : l.fetchStack = [])
    (executing : l.exeStack = []) (fetchCnt : l.fetchCnt = 0) (exeCnt : l.exeCnt = 0)
    (mode : l.memoryMode ≤ 2) {ins : List Node} (small : ∀ x ∈ ins, l.delay x < 2 ^ 31) (chId : Nat)
    {lane : Nat → Lane} {q : Nat → LaneQueues} (start : lane 0 = l.loadInstructionQueue ins chId)
    (runs : ∀ t, lane (t + 1) = ((lane t).run (q t)).1) :
    ∃ S F, TimingLaw ins.length (l.delays ins) S F ∧ ∀ t, Held ins S F t (lane t) := by
  obtain ⟨S, F, law⟩ := exists_timingLaw ins.length (l.delays ins)
  refine ⟨S, F, law, fun t => ?_⟩
  suffices inTime : (lane t).kind = l.kind ∧ ∃ k, InTime ins (l.delays ins) S F t k (lane t) by
    obtain ⟨_, k, inTime⟩ := inTime
    exact inTime.held law
  induction t with
  | zero =>
    rw [start]
    exact ⟨rfl, 0, .loaded queue fetching executing fetchCnt exeCnt law chId⟩
  | succ t ih =>
    obtain ⟨kind, k, inTime⟩ := ih
    rw [runs]
    refine ⟨?_, ?_⟩
    · exact (congrArg (fun fixed => (fixed.1, fixed.2.1, fixed.2.2.1))
        (Lane.run_fixed (lane t) (q t))).trans kind
    · cases inTime.executing with
      | idle empty counting free early =>
        refine inTime.idle_step law empty counting free early ?_ (q t)
        intro x at_k
        have sameMode : (lane t).memoryMode = l.memoryMode := congrArg (·.2.1) kind
        have sameDelay : (lane t).updateCounter.delay x = l.delay x := delay_congr kind x
        have member := small x (List.mem_of_getElem? at_k)
        rw [startDelay_eq (by exact sameMode ▸ mode) (by rw [sameDelay]; exact member), sameDelay]
        simp [Lane.delays, at_k]
      | busy at_k stack begun going counting =>
        exact ⟨_, inTime.busy_step law at_k stack begun going counting (q t)⟩

/-- A multiplication and a load. -/
def mulAndLoad : List Node := [⟨1, 1, 1, 1, .other "Mul", 2⟩, ⟨1, 2, 2, 2, .load, 2⟩]

/-- With delays 2 and 6 the load waits for the slot in cycle 9. -/
theorem lane_timing_mulAndLoad :
    ∃ S F, TimingLaw 2 ((Lane.new 0 0 300 ⟨6, 25, 100, 2, 2⟩).delays mulAndLoad) S F ∧
      ∀ t, Held mulAndLoad S F t (Core.cycled^[t]
        ((Lane.new 0 0 300 ⟨6, 25, 100, 2, 2⟩).loadInstructionQueue mulAndLoad 1)) := by
  have small : ∀ x ∈ mulAndLoad, (Lane.new 0 0 300 ⟨6, 25, 100, 2, 2⟩).delay x < 2 ^ 31 := by
    decide
  refine lane_timing_law rfl rfl rfl rfl rfl (Nat.zero_le 2) small 1 (q := fun _ => ⟨[], []⟩) rfl ?_
  intro t
  rw [Function.iterate_succ_apply']
  rfl

example :
    startAndFinish 2 ((Lane.new 0 0 300 ⟨6, 25, 100, 2, 2⟩).delays mulAndLoad) 2 = (9, 15) := by
  decide

end ChainSaw
