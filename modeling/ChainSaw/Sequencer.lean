import ChainSaw.EventQueue
import Mathlib.Data.List.AList
import Mathlib.Algebra.BigOperators.Group.Finset.Basic
import Mathlib.Tactic.Abel

set_option autoImplicit false

namespace ChainSaw

open Function (update)

inductive CacheRequestType where
  | ld | st | atomic | ifetch | io | replacement | commit | ldXact | ldxXact | stXact
  | beginXact | commitXact | abortXact | null | accLd | accSt
deriving DecidableEq, Repr

/-- The types that go to the write request table. -/
def CacheRequestType.isWrite : CacheRequestType → Bool
  | st | stXact | ldxXact | atomic => true
  | _ => false

/-- The types that `readCallback` answers. -/
def CacheRequestType.isRead : CacheRequestType → Bool
  | ld | ldXact | ifetch => true
  | _ => false

/-- `CacheMsg`, as far as the sequencer looks into it. -/
structure CacheMsg where
  address : Nat
  type : CacheRequestType
  prefetch : Bool
  threadID : Nat
  time : Int
deriving DecidableEq, Repr

/-- The addresses that the driver is told when a request is answered. -/
def hits (request : CacheMsg) : List Nat := if request.prefetch then [] else [request.address]

/-- The parameters of Ruby that the sequencer reads. -/
structure SequencerConfig where
  smtThreads : Nat
  outstandingRequests : Int
  deadlockThreshold : Int
  sequencerToControllerLatency : Int
  dataBlockBits : Nat
  removeSingleCycleDcacheFastPath : Bool

/-- `line_address`. -/
def SequencerConfig.lineAddress (cfg : SequencerConfig) (address : Nat) : Nat :=
  address >>> cfg.dataBlockBits <<< cfg.dataBlockBits

/-- A `Map<Address, CacheMsg>`. -/
abbrev RequestTable : Type := AList fun _ : Nat => CacheMsg

structure Sequencer where
  writeRequestTable : Nat → RequestTable
  readRequestTable : Nat → RequestTable
  outstandingCount : Int
  deadlockCheckScheduled : Bool

namespace Sequencer

variable (cfg : SequencerConfig)

def init : Sequencer := ⟨fun _ => ∅, fun _ => ∅, 0, false⟩

/-- The request tables for writes, or for reads. -/
def table (s : Sequencer) : Bool → Nat → RequestTable
  | true => s.writeRequestTable
  | false => s.readRequestTable

def setTable (s : Sequencer) (write : Bool) (thread : Nat) (table : RequestTable) : Sequencer :=
  match write with
  | true => { s with writeRequestTable := update s.writeRequestTable thread table }
  | false => { s with readRequestTable := update s.readRequestTable thread table }

/-- `total_outstanding`, as the functions of the sequencer add it up. -/
def totalOutstanding (s : Sequencer) : Nat :=
  ((List.range cfg.smtThreads).map fun p =>
    (s.writeRequestTable p).entries.length + (s.readRequestTable p).entries.length).sum

/-- The assertion on `m_outstanding_count`. -/
def checkCount (s : Sequencer) : Result Unit :=
  check (s.outstandingCount = s.totalOutstanding cfg) "m_outstanding_count == total_outstanding"

/-- The table of a thread; there is one for each SMT thread. -/
def tableOf (s : Sequencer) (write : Bool) (thread : Nat) : Result RequestTable :=
  if thread < cfg.smtThreads then .ok (s.table write thread) else .error .outOfRange

/-- The requests of all tables that are too old at a time. -/
def overdue (s : Sequencer) (now : Int) : Bool :=
  (List.range cfg.smtThreads).any fun p =>
    ((s.readRequestTable p).entries ++ (s.writeRequestTable p).entries).any fun e =>
      decide (cfg.deadlockThreshold ≤ now - e.2.time)

/-- `wakeup`: the deadlock check, with the times for which it schedules itself. -/
def wakeup (s : Sequencer) (now : Int) : Result (Sequencer × List Int) := do
  check (!s.overdue cfg now) "Aborting"
  s.checkCount cfg
  if 0 < s.outstandingCount then .ok (s, [now + cfg.deadlockThreshold])
  else .ok ({ s with deadlockCheckScheduled := false }, [])

/-- `isReady`. -/
def isReady (s : Sequencer) (request : CacheMsg) : Bool :=
  !decide (cfg.outstandingRequests ≤ s.outstandingCount) &&
    (List.range cfg.smtThreads).all fun p =>
      !(decide (cfg.lineAddress request.address ∈ s.writeRequestTable p) ||
        decide (cfg.lineAddress request.address ∈ s.readRequestTable p))

/-- The sequencer once it has scheduled its deadlock check. -/
def scheduled (s : Sequencer) : Sequencer := { s with deadlockCheckScheduled := true }

/-- `insertRequest`: whether there was a request for the line, and the times for
which the deadlock check is scheduled. -/
def insertRequest (s : Sequencer) (now : Int) (request : CacheMsg) :
    Result (Bool × Sequencer × List Int) := do
  s.checkCount cfg
  let checks := if s.deadlockCheckScheduled = false then [now + cfg.deadlockThreshold] else []
  let s := s.scheduled
  let table ← s.tableOf cfg request.type.isWrite request.threadID
  let line := cfg.lineAddress request.address
  let next := s.setTable request.type.isWrite request.threadID (table.insert line request)
  if line ∈ table then .ok (true, next, checks)
  else do
    let next := { next with outstandingCount := next.outstandingCount + 1 }
    next.checkCount cfg
    .ok (false, next, checks)

/-- `removeRequest`. -/
def removeRequest (s : Sequencer) (request : CacheMsg) : Result Sequencer := do
  s.checkCount cfg
  let table ← s.tableOf cfg request.type.isWrite request.threadID
  let line := cfg.lineAddress request.address
  check (line ∈ table) "exist(key)"
  let s := s.setTable request.type.isWrite request.threadID (table.erase line)
  let s := { s with outstandingCount := s.outstandingCount - 1 }
  s.checkCount cfg
  .ok s

/-- The loop over the threads in `readCallback` and `writeCallback`: the thread with
the oldest request for the line. -/
def oldestThread (s : Sequencer) (write : Bool) (address : Nat) : Option (Nat × Int) :=
  (List.range cfg.smtThreads).foldl (fun oldest t =>
    match (s.table write t).lookup address, oldest with
    | none, _ => oldest
    | some request, none => some (t, request.time)
    | some request, some (thread, time) =>
      if request.time < time then some (t, request.time) else some (thread, time)) none

/-- `hitCallback`: the address that the driver is told, unless it is a prefetch. -/
def hitCallback (now : Int) (request : CacheMsg) : Result (List Nat) := do
  check (request.time ≤ now) "g_eventQueue_ptr->getTime() >= issued_time"
  .ok (hits request)

/-- What `readCallback` and `writeCallback` have in common. -/
def callback (write : Bool) (answers : CacheRequestType → Bool) (s : Sequencer) (now : Int)
    (address : Nat) : Result (Sequencer × List Nat) := do
  match s.oldestThread cfg write address with
  | none => .error (.assertion "thread != -1")
  | some (thread, _) => do
    check (address = cfg.lineAddress address) "address == line_address(address)"
    match (s.table write thread).lookup (cfg.lineAddress address) with
    | none => .error (.assertion "exist(line_address(address))")
    | some request => do
      check (request.threadID = thread) "request.getThreadID() == thread"
      let s ← s.removeRequest cfg request
      check (answers request.type) "request.getType()"
      let hits ← hitCallback now request
      .ok (s, hits)

def writeCallback (s : Sequencer) (now : Int) (address : Nat) : Result (Sequencer × List Nat) :=
  s.callback cfg true CacheRequestType.isWrite now address

def readCallback (s : Sequencer) (now : Int) (address : Nat) : Result (Sequencer × List Nat) :=
  s.callback cfg false CacheRequestType.isRead now address

end Sequencer

namespace RequestTable

def values (t : RequestTable) : Multiset CacheMsg := (t.entries.map Sigma.snd : List CacheMsg)

theorem mem_values {t : RequestTable} {request : CacheMsg} :
    request ∈ t.values ↔ ∃ key, t.lookup key = some request := by
  simp only [values, Multiset.mem_coe, List.mem_map]
  constructor
  · rintro ⟨⟨key, value⟩, member, rfl⟩
    exact ⟨key, Option.mem_def.mp (AList.mem_lookup_iff.mpr member)⟩
  · rintro ⟨key, found⟩
    exact ⟨⟨key, request⟩, AList.mem_lookup_iff.mp (Option.mem_def.mpr found), rfl⟩

theorem values_insert {t : RequestTable} {key : Nat} (fresh : key ∉ t) (request : CacheMsg) :
    values (t.insert key request) = request ::ₘ t.values := by
  rw [values, AList.entries_insert_of_notMem fresh]
  rfl

theorem values_erase {t : RequestTable} {key : Nat} {request : CacheMsg}
    (found : t.lookup key = some request) : t.values = request ::ₘ values (t.erase key) := by
  have isKey : key ∈ t.entries.keys := AList.mem_keys.mp (AList.lookup_isSome.mp (by rw [found]; rfl))
  obtain ⟨value, before, after, _, parts, erased⟩ := List.exists_of_kerase isKey
  have same : value = request := by
    have listed : (⟨key, value⟩ : Sigma fun _ : Nat => CacheMsg) ∈ t.entries := by simp [parts]
    have found' := Option.mem_def.mp (AList.mem_lookup_iff.mpr listed)
    rw [found] at found'
    exact (Option.some.inj found').symm
  subst same
  rw [values, values, parts, show (t.erase key).entries = before ++ after from erased, List.map_append,
    List.map_cons, List.map_append, Multiset.cons_coe, Multiset.coe_eq_coe]
  exact List.perm_middle

end RequestTable

namespace Sequencer

variable {cfg : SequencerConfig}

/-- The outstanding requests. -/
def requests (cfg : SequencerConfig) (s : Sequencer) : Multiset CacheMsg :=
  ∑ p ∈ Finset.range cfg.smtThreads, ((s.table true p).values + (s.table false p).values)

theorem card_requests (s : Sequencer) : (s.requests cfg).card = s.totalOutstanding cfg := by
  unfold requests totalOutstanding
  induction cfg.smtThreads with
  | zero => rfl
  | succ n ih =>
    rw [Finset.sum_range_succ, Multiset.card_add, ih, List.range_succ, List.map_append,
      List.sum_append, Multiset.card_add]
    simp [RequestTable.values, table]

@[simp] theorem table_setTable (s : Sequencer) (write write' : Bool) (p p' : Nat) (t : RequestTable) :
    (s.setTable write p t).table write' p' =
      if write' = write ∧ p' = p then t else s.table write' p' := by
  cases write <;> cases write' <;> simp [setTable, table, Function.update_apply]

theorem requests_setTable (s : Sequencer) (write : Bool) {p : Nat} (inside : p < cfg.smtThreads)
    (t : RequestTable) :
    (s.setTable write p t).requests cfg + (s.table write p).values =
      s.requests cfg + t.values := by
  have isThread : p ∈ Finset.range cfg.smtThreads := Finset.mem_range.mpr inside
  unfold requests
  rw [← Finset.add_sum_erase _ _ isThread, ← Finset.add_sum_erase _ _ isThread]
  have rest : ∀ q ∈ (Finset.range cfg.smtThreads).erase p,
      ((s.setTable write p t).table true q).values + ((s.setTable write p t).table false q).values =
        (s.table true q).values + (s.table false q).values := by
    intro q member
    have other := Finset.ne_of_mem_erase member
    simp [other]
  rw [Finset.sum_congr rfl rest]
  cases write
  · simp only [table_setTable, and_true, Bool.true_eq_false, if_true, if_false]
    abel
  · simp only [table_setTable, and_true, Bool.false_eq_true, if_true, if_false]
    abel

theorem mem_requests {s : Sequencer} {request : CacheMsg} :
    request ∈ s.requests cfg ↔ ∃ write, ∃ p < cfg.smtThreads, ∃ key,
      (s.table write p).lookup key = some request := by
  simp only [requests, Multiset.mem_sum, Multiset.mem_add, RequestTable.mem_values, Finset.mem_range]
  constructor
  · rintro ⟨p, inside, ⟨key, found⟩ | ⟨key, found⟩⟩
    · exact ⟨true, p, inside, key, found⟩
    · exact ⟨false, p, inside, key, found⟩
  · rintro ⟨write, p, inside, key, found⟩
    cases write with
    | true => exact ⟨p, inside, .inl ⟨key, found⟩⟩
    | false => exact ⟨p, inside, .inr ⟨key, found⟩⟩

/-- The requests that a callback of this kind answers. -/
def answeredBy : Bool → CacheRequestType → Bool
  | true => CacheRequestType.isWrite
  | false => CacheRequestType.isRead

theorem isWrite_of_answeredBy {write : Bool} {type : CacheRequestType}
    (answers : answeredBy write type = true) : type.isWrite = write := by
  cases write <;> cases type <;> simp_all [answeredBy, CacheRequestType.isWrite, CacheRequestType.isRead]

/-- The invariant of the sequencer. -/
structure Sound (cfg : SequencerConfig) (now : Int) (s : Sequencer) : Prop where
  counted : s.outstandingCount = s.totalOutstanding cfg
  placed : ∀ write, ∀ p < cfg.smtThreads, ∀ key request, (s.table write p).lookup key = some request →
    key = cfg.lineAddress request.address ∧ request.threadID = p ∧
      answeredBy write request.type = true ∧ request.time ≤ now
  distinct : ((s.requests cfg).map fun request => cfg.lineAddress request.address).Nodup

theorem Sound.checkCount {now : Int} {s : Sequencer} (sound : s.Sound cfg now) :
    s.checkCount cfg = .ok () :=
  check_eq_ok.mpr (decide_eq_true sound.counted)

theorem sound_init (now : Int) : init.Sound cfg now := by
  have none : init.requests cfg = 0 :=
    Finset.sum_eq_zero fun p _ => by simp [RequestTable.values, table, init]
  refine ⟨?_, ?_, ?_⟩
  · rw [← card_requests, none]
    rfl
  · intro write p _ key request found
    cases write <;> cases found
  · rw [none]
    exact Multiset.nodup_zero

theorem Sound.later {now later : Int} {s : Sequencer} (sound : s.Sound cfg now) (after : now ≤ later) :
    s.Sound cfg later := by
  refine ⟨sound.counted, fun write p inside key request found => ?_, sound.distinct⟩
  obtain ⟨isKey, thread, kind, time⟩ := sound.placed write p inside key request found
  exact ⟨isKey, thread, kind, time.trans after⟩

/-- No two outstanding requests are for the same line. -/
theorem Sound.unique {now : Int} {s : Sequencer} (sound : s.Sound cfg now) {r r' : CacheMsg}
    (member : r ∈ s.requests cfg) (member' : r' ∈ s.requests cfg)
    (same : cfg.lineAddress r.address = cfg.lineAddress r'.address) : r = r' :=
  Multiset.inj_on_of_nodup_map sound.distinct r member r' member' same

theorem isReady_iff {s : Sequencer} {request : CacheMsg} :
    s.isReady cfg request = true ↔ s.outstandingCount < cfg.outstandingRequests ∧
      ∀ write, ∀ p < cfg.smtThreads, cfg.lineAddress request.address ∉ s.table write p := by
  simp only [isReady, Bool.and_eq_true, Bool.not_eq_true', decide_eq_false_iff_not, Int.not_le,
    List.all_eq_true, List.mem_range, Bool.or_eq_false_iff]
  refine and_congr_right fun _ => ⟨fun free write p inside => ?_, fun free p inside => ?_⟩
  · cases write with
    | true => exact (free p inside).1
    | false => exact (free p inside).2
  · exact ⟨free true p inside, free false p inside⟩

theorem tableOf_eq {s : Sequencer} {write : Bool} {p : Nat} (inside : p < cfg.smtThreads) :
    s.tableOf cfg write p = .ok (s.table write p) :=
  if_pos inside

/-- The state after a request has been put into its table. -/
def inserted (cfg : SequencerConfig) (s : Sequencer) (request : CacheMsg) : Sequencer :=
  let next := s.scheduled.setTable request.type.isWrite request.threadID
    ((s.scheduled.table request.type.isWrite request.threadID).insert
      (cfg.lineAddress request.address) request)
  { next with outstandingCount := next.outstandingCount + 1 }

theorem table_scheduled (s : Sequencer) (write : Bool) (p : Nat) :
    s.scheduled.table write p = s.table write p := by
  cases write <;> rfl

theorem table_count (s : Sequencer) (count : Int) (write : Bool) (p : Nat) :
    ({ s with outstandingCount := count } : Sequencer).table write p = s.table write p := by
  cases write <;> rfl

theorem table_inserted (s : Sequencer) (request : CacheMsg) (write : Bool) (p : Nat) :
    (s.inserted cfg request).table write p =
      if write = request.type.isWrite ∧ p = request.threadID then
        (s.table request.type.isWrite request.threadID).insert
          (cfg.lineAddress request.address) request
      else s.table write p := by
  rw [inserted, table_count, table_setTable, table_scheduled, table_scheduled]

theorem setTable_outstandingCount (s : Sequencer) (write : Bool) (p : Nat) (t : RequestTable) :
    (s.setTable write p t).outstandingCount = s.outstandingCount := by
  cases write <;> rfl

theorem setTable_deadlockCheckScheduled (s : Sequencer) (write : Bool) (p : Nat) (t : RequestTable) :
    (s.setTable write p t).deadlockCheckScheduled = s.deadlockCheckScheduled := by
  cases write <;> rfl

/-- A request that the sequencer is ready for becomes outstanding. -/
theorem Sound.insert {now : Int} {s : Sequencer} (sound : s.Sound cfg now) {request : CacheMsg}
    (ready : s.isReady cfg request = true) (inside : request.threadID < cfg.smtThreads)
    (answers : answeredBy request.type.isWrite request.type = true) (time : request.time ≤ now) :
    s.insertRequest cfg now request = .ok (false, s.inserted cfg request,
        if s.deadlockCheckScheduled = false then [now + cfg.deadlockThreshold] else []) ∧
      (s.inserted cfg request).Sound cfg now ∧
      (s.inserted cfg request).requests cfg = request ::ₘ s.requests cfg := by
  obtain ⟨_, free⟩ := isReady_iff.mp ready
  have fresh := free request.type.isWrite request.threadID inside
  have fresh' : cfg.lineAddress request.address ∉
      s.scheduled.table request.type.isWrite request.threadID := by
    rw [table_scheduled]
    exact fresh
  have added : (s.inserted cfg request).requests cfg = request ::ₘ s.requests cfg := by
    have moved := requests_setTable s.scheduled request.type.isWrite inside
      ((s.scheduled.table request.type.isWrite request.threadID).insert
        (cfg.lineAddress request.address) request)
    rw [RequestTable.values_insert fresh', Multiset.add_cons, ← Multiset.cons_add] at moved
    exact add_right_cancel moved
  have sound' : (s.inserted cfg request).Sound cfg now := by
    refine ⟨?_, ?_, ?_⟩
    · rw [← card_requests, added, Multiset.card_cons, card_requests, Nat.cast_add, ← sound.counted]
      exact congrArg (· + 1) (setTable_outstandingCount _ _ _ _)
    · intro write p insideP key other found
      rw [table_inserted] at found
      split at found
      · rename_i here
        obtain ⟨rfl, rfl⟩ := here
        by_cases isLine : key = cfg.lineAddress request.address
        · subst isLine
          rw [AList.lookup_insert] at found
          cases found
          exact ⟨rfl, rfl, answers, time⟩
        · rw [AList.lookup_insert_ne isLine] at found
          exact sound.placed _ _ insideP key other found
      · exact sound.placed write p insideP key other found
    · rw [added, Multiset.map_cons, Multiset.nodup_cons]
      refine ⟨fun used => ?_, sound.distinct⟩
      obtain ⟨other, member, same⟩ := Multiset.mem_map.mp used
      obtain ⟨write, p, insideP, key, found⟩ := mem_requests.mp member
      obtain ⟨isKey, _⟩ := sound.placed write p insideP key other found
      refine free write p insideP ?_
      rw [← same, ← isKey]
      exact AList.lookup_isSome.mp (by rw [found]; rfl)
  refine ⟨?_, sound', added⟩
  unfold insertRequest
  rw [sound.checkCount, Loops.ok_bind]
  dsimp only
  rw [tableOf_eq inside, Loops.ok_bind, if_neg fresh']
  exact Loops.bind_eq_ok.mpr ⟨(), sound'.checkCount, rfl⟩

/-- The state after a request has been taken from its table. -/
def removed (cfg : SequencerConfig) (s : Sequencer) (request : CacheMsg) : Sequencer :=
  let next := s.setTable request.type.isWrite request.threadID
    ((s.table request.type.isWrite request.threadID).erase (cfg.lineAddress request.address))
  { next with outstandingCount := next.outstandingCount - 1 }

theorem table_removed (s : Sequencer) (request : CacheMsg) (write : Bool) (p : Nat) :
    (s.removed cfg request).table write p =
      if write = request.type.isWrite ∧ p = request.threadID then
        (s.table request.type.isWrite request.threadID).erase (cfg.lineAddress request.address)
      else s.table write p := by
  rw [removed, table_count, table_setTable]

theorem Sound.remove {now : Int} {s : Sequencer} (sound : s.Sound cfg now) {request : CacheMsg}
    (inside : request.threadID < cfg.smtThreads)
    (found : (s.table request.type.isWrite request.threadID).lookup
      (cfg.lineAddress request.address) = some request) :
    s.removeRequest cfg request = .ok (s.removed cfg request) ∧
      (s.removed cfg request).Sound cfg now ∧
      s.requests cfg = request ::ₘ (s.removed cfg request).requests cfg := by
  have listed : cfg.lineAddress request.address ∈ s.table request.type.isWrite request.threadID :=
    AList.lookup_isSome.mp (by rw [found]; rfl)
  have taken : s.requests cfg = request ::ₘ (s.removed cfg request).requests cfg := by
    have moved := requests_setTable s request.type.isWrite inside
      ((s.table request.type.isWrite request.threadID).erase (cfg.lineAddress request.address))
    rw [RequestTable.values_erase found, Multiset.add_cons, ← Multiset.cons_add] at moved
    exact (add_right_cancel moved).symm
  have sound' : (s.removed cfg request).Sound cfg now := by
    refine ⟨?_, ?_, ?_⟩
    · have size := congrArg Multiset.card taken
      rw [card_requests, Multiset.card_cons, card_requests] at size
      have counted := sound.counted
      have count : (s.removed cfg request).outstandingCount = s.outstandingCount - 1 :=
        congrArg (· - 1) (setTable_outstandingCount _ _ _ _)
      omega
    · intro write p insideP key other isOther
      rw [table_removed] at isOther
      split at isOther
      · rename_i here
        obtain ⟨rfl, rfl⟩ := here
        by_cases isLine : key = cfg.lineAddress request.address
        · subst isLine
          rw [AList.lookup_erase] at isOther
          cases isOther
        · rw [AList.lookup_erase_ne isLine] at isOther
          exact sound.placed _ _ insideP key other isOther
      · exact sound.placed write p insideP key other isOther
    · have distinct := sound.distinct
      rw [taken, Multiset.map_cons, Multiset.nodup_cons] at distinct
      exact distinct.2
  refine ⟨?_, sound', taken⟩
  unfold removeRequest
  rw [sound.checkCount, Loops.ok_bind, tableOf_eq inside, Loops.ok_bind]
  dsimp only
  rw [check_pass (decide_eq_true listed), Loops.ok_bind]
  exact Loops.bind_eq_ok.mpr ⟨(), sound'.checkCount, rfl⟩

/-- The loop over the threads finds the only one that has a request for the line. -/
theorem oldestThread_eq {s : Sequencer} {write : Bool} {address p : Nat} {request : CacheMsg}
    (inside : p < cfg.smtThreads) (found : (s.table write p).lookup address = some request)
    (only : ∀ q < cfg.smtThreads, q ≠ p → (s.table write q).lookup address = none) :
    s.oldestThread cfg write address = some (p, request.time) := by
  unfold oldestThread
  suffices upTo : ∀ n ≤ cfg.smtThreads, (List.range n).foldl (fun oldest t =>
      match (s.table write t).lookup address, oldest with
      | none, _ => oldest
      | some request, none => some (t, request.time)
      | some request, some (thread, time) =>
        if request.time < time then some (t, request.time) else some (thread, time)) none =
      if p < n then some (p, request.time) else none by
    rw [upTo _ (Nat.le_refl _), if_pos inside]
  intro n
  induction n with
  | zero => exact fun _ => rfl
  | succ n ih =>
    intro upTo
    rw [List.range_succ, List.foldl_append, ih (by omega), List.foldl_cons, List.foldl_nil]
    by_cases here : n = p
    · subst here
      rw [if_neg (Nat.lt_irrefl n), found, if_pos (Nat.lt_succ_self n)]
    · rw [only n (by omega) here]
      by_cases before : p < n
      · rw [if_pos before, if_pos (by omega)]
      · rw [if_neg before, if_neg (by omega)]

/-- A callback for the line of an outstanding request answers this request. -/
theorem Sound.answer {now : Int} {s : Sequencer} (sound : s.Sound cfg now) {request : CacheMsg}
    (outstanding : request ∈ s.requests cfg) :
    s.callback cfg request.type.isWrite (answeredBy request.type.isWrite) now
        (cfg.lineAddress request.address) = .ok (s.removed cfg request, hits request) ∧
      (s.removed cfg request).Sound cfg now ∧
      s.requests cfg = request ::ₘ (s.removed cfg request).requests cfg := by
  obtain ⟨write, p, inside, key, found⟩ := mem_requests.mp outstanding
  obtain ⟨rfl, rfl, answers, time⟩ := sound.placed write p inside key request found
  obtain rfl := isWrite_of_answeredBy answers
  obtain ⟨removes, sound', taken⟩ := sound.remove inside found
  have only : ∀ q < cfg.smtThreads, q ≠ request.threadID →
      (s.table request.type.isWrite q).lookup (cfg.lineAddress request.address) = none := by
    intro q insideQ other
    rw [Option.eq_none_iff_forall_not_mem]
    intro other' found'
    obtain ⟨isKey, thread, _⟩ := sound.placed _ q insideQ _ other' found'
    have same := sound.unique outstanding (mem_requests.mpr ⟨_, q, insideQ, _, found'⟩) isKey
    rw [same] at other
    exact other thread.symm
  have aligned : cfg.lineAddress (cfg.lineAddress request.address) =
      cfg.lineAddress request.address := by
    simp only [SequencerConfig.lineAddress, Nat.shiftLeft_shiftRight]
  refine ⟨?_, sound', taken⟩
  unfold callback
  rw [oldestThread_eq inside found only]
  dsimp only
  rw [aligned, found, check_pass (decide_eq_true rfl), Loops.ok_bind]
  dsimp only
  rw [check_pass (decide_eq_true rfl), Loops.ok_bind, removes, Loops.ok_bind,
    check_pass answers, Loops.ok_bind]
  unfold hitCallback
  rw [check_pass (decide_eq_true time), Loops.ok_bind]
  rfl

/-- The deadlock check fails exactly if a request is too old. -/
theorem Sound.wakeup {now : Int} {s : Sequencer} (sound : s.Sound cfg now) :
    (s.wakeup cfg now = .error (.assertion "Aborting") ∧
        ∃ request ∈ s.requests cfg, cfg.deadlockThreshold ≤ now - request.time) ∨
      ((∀ request ∈ s.requests cfg, now - request.time < cfg.deadlockThreshold) ∧
        s.wakeup cfg now = if 0 < s.outstandingCount then .ok (s, [now + cfg.deadlockThreshold])
          else .ok ({ s with deadlockCheckScheduled := false }, [])) := by
  have overdue_iff : s.overdue cfg now = true ↔
      ∃ request ∈ s.requests cfg, cfg.deadlockThreshold ≤ now - request.time := by
    simp only [overdue, List.any_eq_true, List.mem_range, List.mem_append, decide_eq_true_eq,
      mem_requests]
    constructor
    · rintro ⟨p, inside, ⟨key, request⟩, listed | listed, old⟩
      · exact ⟨request, ⟨false, p, inside, key, AList.mem_lookup_iff.mpr listed⟩, old⟩
      · exact ⟨request, ⟨true, p, inside, key, AList.mem_lookup_iff.mpr listed⟩, old⟩
    · rintro ⟨request, ⟨write, p, inside, key, found⟩, old⟩
      have listed := AList.mem_lookup_iff.mp (Option.mem_def.mpr found)
      cases write with
      | true => exact ⟨p, inside, ⟨key, request⟩, .inr listed, old⟩
      | false => exact ⟨p, inside, ⟨key, request⟩, .inl listed, old⟩
  unfold Sequencer.wakeup
  cases old : s.overdue cfg now with
  | true => exact .inl ⟨rfl, overdue_iff.mp old⟩
  | false =>
    refine .inr ⟨fun request member => ?_, ?_⟩
    · refine Int.not_le.mp fun aged => ?_
      rw [overdue_iff.mpr ⟨request, member, aged⟩] at old
      cases old
    · rw [Bool.not_false, check_pass rfl, Loops.ok_bind, sound.checkCount, Loops.ok_bind]

end Sequencer

end ChainSaw
