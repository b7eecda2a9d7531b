import ChainSaw.Sequencer

set_option autoImplicit false

namespace ChainSaw

/-- A call from a cache controller to its sequencer. -/
structure Callback where
  write : Bool
  address : Nat
deriving DecidableEq, Repr

/-- The caches and the network behind the sequencer, with consumers of type `κ` and
states of type `η`: they look a line up, take a message into the mandatory queue
with its delay, and work in the wakeups of their consumers. -/
structure Hierarchy (κ η : Type) where
  tryCacheAccess : Nat → CacheRequestType → η → Bool × η
  enqueue : CacheMsg → Int → Int → η → η × List (κ × Int)
  wakeup : κ → Int → η → η × List Callback × List (κ × Int)

/-- One processor of Ruby: its sequencer, the caches and the queue of the driver. -/
structure Processor (η : Type) where
  sequencer : Sequencer
  hierarchy : η
  callbackQueue : List Nat

namespace Processor

variable {κ η : Type} (cfg : SequencerConfig) (h : Hierarchy κ η)

/-- A callback, and `O3simInterface::hitCallback` behind it. -/
def callback (now : Int) (m : Processor η) (call : Callback) : Result (Processor η) := do
  let (sequencer, hits) ←
    if call.write then m.sequencer.writeCallback cfg now call.address
    else m.sequencer.readCallback cfg now call.address
  .ok { m with sequencer, callbackQueue := m.callbackQueue ++ hits }

/-- The wakeups of the sequencer, which is the consumer `none`, and of the others. -/
def wakeups : Wakeups (Option κ) (Processor η) where
  wakeup
    | none, now, m => do
      let (sequencer, times) ← m.sequencer.wakeup cfg now
      .ok ({ m with sequencer }, times.map fun t => (none, t))
    | some c, now, m => do
      let (hierarchy, calls, events) := h.wakeup c now m.hierarchy
      let m ← calls.foldlM (callback cfg now) { m with hierarchy }
      .ok (m, events.map fun e => (some e.1, e.2))

/-- `makeRequest` with `doRequest` and `issueRequest`, and the events it schedules. -/
def makeRequest (now : Int) (m : Processor η) (request : CacheMsg) :
    Result (Processor η × List (Option κ × Int)) := do
  let (hit, hierarchy) :=
    h.tryCacheAccess (cfg.lineAddress request.address) request.type m.hierarchy
  let m := { m with hierarchy }
  if hit = true ∧ (request.type = .ifetch ∨ cfg.removeSingleCycleDcacheFastPath = false) then do
    let hits ← Sequencer.hitCallback now request
    .ok ({ m with callbackQueue := m.callbackQueue ++ hits }, [])
  else do
    let (found, sequencer, checks) ← m.sequencer.insertRequest cfg now request
    let m := { m with sequencer }
    let checks := checks.map fun t => (none, t)
    if found then .ok (m, checks)
    else do
      check (0 < cfg.sequencerToControllerLatency) "latency > 0"
      let msg := { request with address := cfg.lineAddress request.address }
      let (hierarchy, events) := h.enqueue msg cfg.sequencerToControllerLatency now m.hierarchy
      .ok ({ m with hierarchy }, checks ++ events.map fun e => (some e.1, e.2))

end Processor

/-- What the driver is told for these requests. -/
def addresses (requests : Multiset CacheMsg) : Multiset Nat :=
  requests.bind fun request => (hits request : Multiset Nat)

theorem addresses_cons (request : CacheMsg) (requests : Multiset CacheMsg) :
    addresses (request ::ₘ requests) = (hits request : Multiset Nat) + addresses requests :=
  Multiset.cons_bind request requests _

def Callback.key (call : Callback) : Nat × Bool := (call.address, call.write)

/-- The lines of requests, as callbacks name them. -/
def SequencerConfig.lines (cfg : SequencerConfig) (requests : Multiset CacheMsg) :
    Multiset (Nat × Bool) :=
  requests.map fun request => (cfg.lineAddress request.address, request.type.isWrite)

/-- The contract of the caches and the network: they call back once for every message
of the mandatory queue, at any time and in any order, and schedule for later cycles. -/
structure Hierarchy.Answers {κ η : Type} (h : Hierarchy κ η) where
  held : η → Multiset (Nat × Bool)
  tryCacheAccess : ∀ address type state, held (h.tryCacheAccess address type state).2 = held state
  enqueue : ∀ msg latency now state, held (h.enqueue msg latency now state).1 =
    (msg.address, msg.type.isWrite) ::ₘ held state
  enqueueLater : ∀ msg latency now state, 0 < latency →
    ∀ e ∈ (h.enqueue msg latency now state).2, now < e.2
  wakeup : ∀ c now state, held (h.wakeup c now state).1 +
    ((h.wakeup c now state).2.1.map Callback.key : Multiset (Nat × Bool)) = held state
  wakeupLater : ∀ c now state, ∀ e ∈ (h.wakeup c now state).2.2, now < e.2

namespace Processor

variable {κ η : Type} {cfg : SequencerConfig} {h : Hierarchy κ η}

/-- The outstanding requests of the sequencer. -/
def requests (cfg : SequencerConfig) (m : Processor η) : Multiset CacheMsg :=
  m.sequencer.requests cfg

theorem callback_eq (now : Int) (m : Processor η) (call : Callback) :
    m.callback cfg now call = (m.sequencer.callback cfg call.write
        (Sequencer.answeredBy call.write) now call.address).map fun result =>
      { m with sequencer := result.1, callbackQueue := m.callbackQueue ++ result.2 } := by
  have same : m.callback cfg now call =
      (m.sequencer.callback cfg call.write (Sequencer.answeredBy call.write) now call.address >>=
        fun result =>
          .ok { m with sequencer := result.1, callbackQueue := m.callbackQueue ++ result.2 }) := by
    obtain ⟨write, address⟩ := call
    cases write <;> rfl
  rw [same]
  cases m.sequencer.callback cfg call.write (Sequencer.answeredBy call.write) now call.address <;> rfl

/-- The callbacks of a wakeup take their requests from the tables. -/
theorem foldlM_callback {now : Int} {asked : Multiset Nat} {calls : List Callback} :
    ∀ {m : Processor η} {rest : Multiset (Nat × Bool)}, m.sequencer.Sound cfg now →
      cfg.lines (m.requests cfg) = rest + (calls.map Callback.key : Multiset (Nat × Bool)) →
      addresses (m.requests cfg) + (m.callbackQueue : Multiset Nat) = asked →
      ∃ next, calls.foldlM (callback cfg now) m = .ok next ∧ next.hierarchy = m.hierarchy ∧
        next.sequencer.Sound cfg now ∧ cfg.lines (next.requests cfg) = rest ∧
        addresses (next.requests cfg) + (next.callbackQueue : Multiset Nat) = asked ∧
        next.sequencer.deadlockCheckScheduled = m.sequencer.deadlockCheckScheduled ∧
        next.requests cfg ≤ m.requests cfg := by
  induction calls with
  | nil =>
    intro m rest sound lines balance
    refine ⟨m, rfl, rfl, sound, ?_, balance, rfl, le_rfl⟩
    rw [lines, List.map_nil, Multiset.coe_nil, add_zero]
  | cons call calls ih =>
    intro m rest sound lines balance
    rw [List.map_cons, ← Multiset.cons_coe, Multiset.add_cons] at lines
    have listed : call.key ∈ cfg.lines (m.requests cfg) := lines ▸ Multiset.mem_cons_self _ _
    obtain ⟨request, outstanding, isKey⟩ := Multiset.mem_map.mp listed
    obtain ⟨answered, sound', taken⟩ := sound.answer outstanding
    have isAddress : cfg.lineAddress request.address = call.address := congrArg Prod.fst isKey
    have isWrite : request.type.isWrite = call.write := congrArg Prod.snd isKey
    rw [isAddress, isWrite] at answered
    let mid : Processor η :=
      { m with
        sequencer := m.sequencer.removed cfg request
        callbackQueue := m.callbackQueue ++ hits request }
    have stepped : m.callback cfg now call = .ok mid := by
      rw [callback_eq, answered]
      rfl
    have taken : m.requests cfg = request ::ₘ mid.requests cfg := taken
    obtain ⟨next, returned, hierarchy, sound'', lines', balance', flag, fewer⟩ :=
      @ih mid rest sound'
        (by
          rw [taken, SequencerConfig.lines, Multiset.map_cons, isKey] at lines
          exact (Multiset.cons_inj_right _).mp lines)
        (by
          rw [← balance, taken, addresses_cons]
          simp only [mid, ← Multiset.coe_add]
          abel)
    refine ⟨next, Loops.foldlM_cons_ok.mpr ⟨mid, stepped, returned⟩, hierarchy, sound'', lines',
      balance', flag.trans (Sequencer.setTable_deadlockCheckScheduled _ _ _ _), ?_⟩
    exact fewer.trans (taken ▸ Multiset.le_cons_self _ _)

/-- The invariant of the processor: `asked` are the requests made, `popped` the
addresses the driver has taken from its queue. -/
structure Kept (cfg : SequencerConfig) (answers : h.Answers) (asked : Multiset CacheMsg)
    (popped : Multiset Nat) (now : Int) (m : Processor η) : Prop where
  sound : m.sequencer.Sound cfg now
  held : answers.held m.hierarchy = cfg.lines (m.requests cfg)
  balance : addresses (m.requests cfg) + (m.callbackQueue : Multiset Nat) + popped = addresses asked
  among : m.requests cfg ≤ asked
  room : m.sequencer.outstandingCount ≤ cfg.outstandingRequests

section kept

variable {answers : h.Answers} {asked : Multiset CacheMsg} {popped : Multiset Nat} {now : Int}
  {m : Processor η}

theorem Kept.later {later : Int} (kept : Kept cfg answers asked popped now m) (after : now ≤ later) :
    Kept cfg answers asked popped later m :=
  ⟨kept.sound.later after, kept.held, kept.balance, kept.among, kept.room⟩

theorem count_eq (sound : m.sequencer.Sound cfg now) :
    m.sequencer.outstandingCount = (m.requests cfg).card := by
  rw [sound.counted, requests, Sequencer.card_requests]

/-- A wakeup of the caches or the network. -/
theorem Kept.wakeup (kept : Kept cfg answers asked popped now m) (c : κ) :
    ∃ next events, (wakeups cfg h).wakeup (some c) now m = .ok (next, events) ∧
      Kept cfg answers asked popped now next ∧ (∀ e ∈ events, now < e.2) ∧
      next.sequencer.deadlockCheckScheduled = m.sequencer.deadlockCheckScheduled ∧
      next.requests cfg ≤ m.requests cfg := by
  have held := answers.wakeup c now m.hierarchy
  have later := answers.wakeupLater c now m.hierarchy
  rw [kept.held] at held
  obtain ⟨next, returned, hierarchy, sound, lines, balance, flag, fewer⟩ :=
    foldlM_callback (m := { m with hierarchy := (h.wakeup c now m.hierarchy).1 })
      kept.sound held.symm rfl
  refine ⟨next, (h.wakeup c now m.hierarchy).2.2.map fun e => (some e.1, e.2), ?_,
    ⟨sound, ?_, ?_, fewer.trans kept.among, ?_⟩, ?_, flag, fewer⟩
  · change ((h.wakeup c now m.hierarchy).2.1.foldlM (callback cfg now)
      { m with hierarchy := (h.wakeup c now m.hierarchy).1 } >>= _) = _
    rw [returned]
    rfl
  · rw [hierarchy]
    exact lines.symm
  · rw [balance]
    exact kept.balance
  · rw [count_eq sound]
    have room := kept.room
    rw [count_eq kept.sound] at room
    have card := Multiset.card_le_card fewer
    exact le_trans (Int.ofNat_le.mpr card) room
  · intro e member
    obtain ⟨e', listed, rfl⟩ := List.mem_map.mp member
    exact later e' listed

/-- The deadlock check. -/
theorem Kept.check (kept : Kept cfg answers asked popped now m)
    (threshold : 0 < cfg.deadlockThreshold) :
    ((wakeups cfg h).wakeup none now m = .error (.assertion "Aborting") ∧
        ∃ request ∈ m.requests cfg, cfg.deadlockThreshold ≤ now - request.time) ∨
      ∃ next events, (wakeups cfg h).wakeup none now m = .ok (next, events) ∧
        Kept cfg answers asked popped now next ∧ next.requests cfg = m.requests cfg ∧
        (∀ e ∈ events, now < e.2) ∧
        (∀ request ∈ m.requests cfg, now - request.time < cfg.deadlockThreshold) ∧
        ((m.requests cfg ≠ 0 ∧ next = m ∧ (none, now + cfg.deadlockThreshold) ∈ events) ∨
          (m.requests cfg = 0 ∧ next.sequencer.deadlockCheckScheduled = false)) := by
  rcases kept.sound.wakeup with ⟨failed, request, outstanding, old⟩ | ⟨young, woke⟩
  · refine .inl ⟨?_, request, outstanding, old⟩
    change (m.sequencer.wakeup cfg now >>= _) = _
    rw [failed]
    rfl
  · refine .inr ?_
    have count := count_eq kept.sound
    by_cases some : 0 < m.sequencer.outstandingCount
    · rw [if_pos some] at woke
      refine ⟨m, [(none, now + cfg.deadlockThreshold)], ?_, kept, rfl, ?_, young, .inl ⟨?_, rfl, by simp⟩⟩
      · change (m.sequencer.wakeup cfg now >>= _) = _
        rw [woke]
        rfl
      · intro e member
        rw [List.mem_singleton.mp member]
        dsimp only
        omega
      · intro none
        rw [none, Multiset.card_zero] at count
        omega
    · rw [if_neg some] at woke
      refine ⟨{ m with sequencer := { m.sequencer with deadlockCheckScheduled := false } }, [], ?_,
        ⟨⟨kept.sound.counted, kept.sound.placed, kept.sound.distinct⟩, kept.held, kept.balance,
          kept.among, kept.room⟩, rfl, by simp, young, .inr ⟨?_, rfl⟩⟩
      · change (m.sequencer.wakeup cfg now >>= _) = _
        rw [woke]
        rfl
      · refine Multiset.card_eq_zero.mp ?_
        omega

/-- A wakeup that fails is a deadlock check that aborts. -/
theorem Kept.fault (kept : Kept cfg answers asked popped now m)
    (threshold : 0 < cfg.deadlockThreshold) {c : Option κ} {fault : Fault}
    (failed : (wakeups cfg h).wakeup c now m = .error fault) : fault = .assertion "Aborting" := by
  cases c with
  | none =>
    rcases kept.check threshold with ⟨aborts, _⟩ | ⟨_, _, woke, _⟩
    · rw [aborts] at failed
      cases failed
      rfl
    · rw [woke] at failed
      cases failed
  | some c =>
    obtain ⟨_, _, woke, _⟩ := kept.wakeup c
    rw [woke] at failed
    cases failed

/-- The wakeups keep the invariant and schedule for later cycles. -/
theorem prompt (answers : h.Answers) (threshold : 0 < cfg.deadlockThreshold)
    (asked : Multiset CacheMsg) (popped : Multiset Nat) :
    EventQueue.Prompt (wakeups cfg h) (Kept cfg answers asked popped) where
  wakeup := by
    intro c now m next events kept woke
    cases c with
    | none =>
      rcases kept.check threshold with ⟨failed, _⟩ | ⟨next', events', woke', kept', _, later, _⟩
      · rw [failed] at woke
        cases woke
      · rw [woke'] at woke
        cases woke
        exact ⟨kept', later⟩
    | some c =>
      obtain ⟨next', events', woke', kept', later, _⟩ := kept.wakeup c
      rw [woke'] at woke
      cases woke
      exact ⟨kept', later⟩
  later := fun _ _ _ kept after => kept.later after

/-- The driver may make a request. -/
structure Allowed (cfg : SequencerConfig) (now : Int) (m : Processor η) (request : CacheMsg) :
    Prop where
  ready : m.sequencer.isReady cfg request = true
  thread : request.threadID < cfg.smtThreads
  type : Sequencer.answeredBy request.type.isWrite request.type = true
  time : request.time = now

/-- A request becomes outstanding, unless it hits on the fast path. -/
theorem Kept.makeRequest (kept : Kept cfg answers asked popped now m) {request : CacheMsg}
    (allowed : Allowed cfg now m request) (threshold : 0 < cfg.deadlockThreshold)
    (latency : 0 < cfg.sequencerToControllerLatency) :
    ∃ next events, makeRequest cfg h now m request = .ok (next, events) ∧
      Kept cfg answers (request ::ₘ asked) popped now next ∧ (∀ e ∈ events, now < e.2) ∧
      ((next.sequencer = m.sequencer ∧ events = []) ∨
        (next.sequencer.deadlockCheckScheduled = true ∧
          next.requests cfg = request ::ₘ m.requests cfg ∧
          (m.sequencer.deadlockCheckScheduled = false →
            (none, now + cfg.deadlockThreshold) ∈ events))) := by
  have inTime : request.time ≤ now := Int.le_of_eq allowed.time
  have lookup := answers.tryCacheAccess (cfg.lineAddress request.address) request.type m.hierarchy
  generalize tried : h.tryCacheAccess (cfg.lineAddress request.address) request.type m.hierarchy =
    result at lookup
  obtain ⟨hit, hierarchy⟩ := result
  unfold Processor.makeRequest
  rw [tried]
  dsimp only
  split
  · rw [Sequencer.hitCallback, check_pass (decide_eq_true inTime), Loops.ok_bind, Loops.ok_bind]
    refine ⟨_, _, rfl, ⟨kept.sound, lookup.trans kept.held, ?_, ?_, kept.room⟩, by simp,
      .inl ⟨rfl, rfl⟩⟩
    · rw [addresses_cons, ← kept.balance]
      simp only [requests, ← Multiset.coe_add]
      abel
    · exact kept.among.trans (Multiset.le_cons_self _ _)
  · obtain ⟨inserts, sound, added⟩ :=
      kept.sound.insert allowed.ready allowed.thread allowed.type inTime
    rw [inserts, Loops.ok_bind]
    dsimp only
    rw [if_neg Bool.false_ne_true, check_pass (decide_eq_true latency), Loops.ok_bind]
    refine ⟨_, _, rfl, ⟨sound, ?_, ?_, ?_, ?_⟩, ?_, .inr ⟨?_, added, ?_⟩⟩
    · rw [answers.enqueue, lookup, kept.held]
      change _ = cfg.lines ((m.sequencer.inserted cfg request).requests cfg)
      rw [added]
      exact (Multiset.map_cons _ _ _).symm
    · rw [addresses_cons, ← kept.balance, requests, added, addresses_cons]
      simp only [requests]
      abel
    · rw [requests, added]
      exact Multiset.cons_le_cons _ kept.among
    · have free := (Sequencer.isReady_iff.mp allowed.ready).1
      have count : (m.sequencer.inserted cfg request).outstandingCount =
          m.sequencer.outstandingCount + 1 :=
        congrArg (· + 1) (Sequencer.setTable_outstandingCount _ _ _ _)
      dsimp only
      omega
    · intro e member
      rcases List.mem_append.mp member with check | sent
      · obtain ⟨t, listed, rfl⟩ := List.mem_map.mp check
        split at listed
        · rw [List.mem_singleton.mp listed]
          dsimp only
          omega
        · cases listed
      · obtain ⟨e', listed, rfl⟩ := List.mem_map.mp sent
        exact answers.enqueueLater _ _ _ _ latency e' listed
    · exact Sequencer.setTable_deadlockCheckScheduled _ _ _ _
    · intro unchecked
      rw [if_pos unchecked]
      simp

end kept

/-- While requests are outstanding the sequencer has a wakeup ahead that comes before
any of them is twice as old as the threshold. -/
structure Watched (cfg : SequencerConfig) (now : Int) (m : Processor η)
    (scheduled woken : List (Option κ × Int)) : Prop where
  positive : 0 < now
  flagged : m.requests cfg ≠ 0 → m.sequencer.deadlockCheckScheduled = true
  ahead : m.sequencer.deadlockCheckScheduled = true → ∃ t, 0 < t ∧ (none, t) ∈ scheduled ∧
    (none, t) ∉ woken ∧ t ≤ now + cfg.deadlockThreshold ∧
    ∀ request ∈ m.requests cfg, t < request.time + 2 * cfg.deadlockThreshold

section watched

variable {answers : h.Answers} {asked : Multiset CacheMsg} {popped : Multiset Nat} {now : Int}
  {m : Processor η} {scheduled woken : List (Option κ × Int)}

theorem Watched.later {later : Int} (watched : Watched cfg now m scheduled woken)
    (after : now ≤ later) : Watched cfg later m scheduled woken := by
  refine ⟨Int.lt_of_lt_of_le watched.positive after, watched.flagged, fun flag => ?_⟩
  obtain ⟨t, positive, listed, fresh, soon, early⟩ := watched.ahead flag
  exact ⟨t, positive, listed, fresh, by omega, early⟩

theorem Watched.wakeup {next : Processor η} {c : Option κ} {events : List (Option κ × Int)}
    (watched : Watched cfg now m scheduled woken) (kept : Kept cfg answers asked popped now m)
    (threshold : 0 < cfg.deadlockThreshold) (past : ∀ c' t', (c', t') ∈ woken → t' ≤ now)
    (woke : (wakeups cfg h).wakeup c now m = .ok (next, events)) :
    Watched cfg now next (scheduled ++ events) (woken ++ [(c, now)]) := by
  have positive := watched.positive
  cases c with
  | none =>
    rcases kept.check threshold with
      ⟨failed, _⟩ | ⟨next', events', woke', _, same, _, young, ⟨some, rfl, again⟩ | ⟨none, off⟩⟩
    · rw [failed] at woke
      cases woke
    · rw [woke'] at woke
      cases woke
      refine ⟨positive, watched.flagged, fun _ => ⟨now + cfg.deadlockThreshold, by omega,
        List.mem_append_right _ again, fun woke => ?_, Int.le_refl _,
        fun request outstanding => ?_⟩⟩
      · rcases List.mem_append.mp woke with old | new
        · have := past _ _ old
          omega
        · have same := congrArg Prod.snd (List.mem_singleton.mp new)
          dsimp only at same
          omega
      · have := young request outstanding
        omega
    · rw [woke'] at woke
      cases woke
      refine ⟨positive, fun some => absurd (same.trans none) some, fun flag => ?_⟩
      rw [off] at flag
      cases flag
  | some c =>
    obtain ⟨next', events', woke', _, _, flag, fewer⟩ := kept.wakeup c
    rw [woke'] at woke
    cases woke
    refine ⟨positive, fun some => ?_, fun flagged => ?_⟩
    · rw [flag]
      refine watched.flagged fun none => some ?_
      rw [none] at fewer
      exact Multiset.le_zero.mp fewer
    · rw [flag] at flagged
      obtain ⟨t, ahead, listed, fresh, soon, early⟩ := watched.ahead flagged
      refine ⟨t, ahead, List.mem_append_left _ listed, ?_, soon, fun request outstanding =>
        early request (Multiset.mem_of_le fewer outstanding)⟩
      simp [fresh]

theorem Watched.makeRequest {next : Processor η} {request : CacheMsg}
    {events : List (Option κ × Int)} (watched : Watched cfg now m scheduled woken)
    (past : ∀ c' t', (c', t') ∈ woken → t' ≤ now) (threshold : 0 < cfg.deadlockThreshold)
    (time : request.time = now)
    (made : (next.sequencer = m.sequencer ∧ events = []) ∨
      (next.sequencer.deadlockCheckScheduled = true ∧
        next.requests cfg = request ::ₘ m.requests cfg ∧
        (m.sequencer.deadlockCheckScheduled = false →
          (none, now + cfg.deadlockThreshold) ∈ events))) :
    Watched cfg now next (scheduled ++ events) woken := by
  have positive := watched.positive
  rcases made with ⟨same, rfl⟩ | ⟨flag, added, checked⟩
  · rw [List.append_nil]
    have kept : next.requests cfg = m.requests cfg := congrArg (Sequencer.requests cfg) same
    refine ⟨positive, fun some => ?_, fun flagged => ?_⟩
    · rw [same]
      exact watched.flagged (kept ▸ some)
    · rw [kept]
      exact watched.ahead (same ▸ flagged)
  · refine ⟨positive, fun _ => flag, fun _ => ?_⟩
    cases before : m.sequencer.deadlockCheckScheduled with
    | true =>
      obtain ⟨t, ahead, listed, fresh, soon, early⟩ := watched.ahead before
      refine ⟨t, ahead, List.mem_append_left _ listed, fresh, soon, fun request' outstanding => ?_⟩
      rw [added, Multiset.mem_cons] at outstanding
      rcases outstanding with rfl | outstanding
      · omega
      · exact early request' outstanding
    | false =>
      have none : m.requests cfg = 0 := by
        by_contra some
        rw [watched.flagged some] at before
        cases before
      refine ⟨now + cfg.deadlockThreshold, by omega, List.mem_append_right _ (checked before),
        fun woke => ?_, Int.le_refl _, fun request' outstanding => ?_⟩
      · have := past _ _ woke
        omega
      · rw [added, none, Multiset.mem_cons] at outstanding
        rcases outstanding with rfl | outstanding
        · omega
        · cases outstanding

end watched

variable [DecidableEq κ]

/-- The states in which the driver can call Ruby, with the events scheduled, the
wakeups, the requests made and the addresses popped so far. -/
inductive Run (cfg : SequencerConfig) (answers : h.Answers) :
    EventQueue (Option κ) (Processor η) → List (Option κ × Int) → List (Option κ × Int) →
      Multiset CacheMsg → Multiset Nat → Prop
  | init (hierarchy : η) : answers.held hierarchy = 0 →
      Run cfg answers (.init ⟨.init, hierarchy, []⟩) [] [] 0 0
  | makeRequest {m next : EventQueue (Option κ) (Processor η)}
      {scheduled woken events : List (Option κ × Int)} {asked : Multiset CacheMsg}
      {popped : Multiset Nat} {request : CacheMsg} {world : Processor η} :
      Run cfg answers m scheduled woken asked popped →
      Allowed cfg m.globalTime m.world request →
      makeRequest cfg h m.globalTime m.world request = .ok (world, events) →
      EventQueue.scheduleAll { m with world } events = .ok next →
      Run cfg answers next (scheduled ++ events) woken (request ::ₘ asked) popped
  | rubyQueuePop {m : EventQueue (Option κ) (Processor η)}
      {scheduled woken : List (Option κ × Int)} {asked : Multiset CacheMsg}
      {popped : Multiset Nat} {address : Nat} {rest : List Nat} :
      Run cfg answers m scheduled woken asked popped →
      m.world.callbackQueue = address :: rest →
      Run cfg answers { m with world := { m.world with callbackQueue := rest } } scheduled woken
        asked (address ::ₘ popped)
  | triggerEvents {m next : EventQueue (Option κ) (Processor η)} {t : Int}
      {scheduled woken events wakes : List (Option κ × Int)} {asked : Multiset CacheMsg}
      {popped : Multiset Nat} :
      Run cfg answers m scheduled woken asked popped → m.globalTime ≤ t →
      EventQueue.Triggers (wakeups cfg h) t m next events wakes →
      Run cfg answers next (scheduled ++ events) (woken ++ wakes) asked popped

/-- The runs of the processor are runs of its event queue. -/
theorem Run.queue {answers : h.Answers} {m : EventQueue (Option κ) (Processor η)}
    {scheduled woken : List (Option κ × Int)} {asked : Multiset CacheMsg} {popped : Multiset Nat}
    (run : Run cfg answers m scheduled woken asked popped) :
    EventQueue.Run (wakeups cfg h) m scheduled woken := by
  induction run with
  | init hierarchy _ => exact .init _
  | makeRequest _ _ _ added ih => exact (ih.work _).scheduleAll added
  | rubyQueuePop _ _ ih => exact ih.work _
  | triggerEvents _ before triggers ih => exact ih.trigger before triggers

section runs

variable {answers : h.Answers} {m : EventQueue (Option κ) (Processor η)}
  {scheduled woken : List (Option κ × Int)} {asked : Multiset CacheMsg} {popped : Multiset Nat}
  (threshold : 0 < cfg.deadlockThreshold) (latency : 0 < cfg.sequencerToControllerLatency)
  (size : 0 ≤ cfg.outstandingRequests)
include threshold latency size

theorem Run.kept (run : Run cfg answers m scheduled woken asked popped) :
    Kept cfg answers asked popped m.globalTime m.world ∧
      Watched cfg m.globalTime m.world scheduled woken := by
  induction run with
  | init hierarchy none =>
    have empty : Sequencer.init.requests cfg = 0 := by
      have sound : Sequencer.init.Sound cfg 0 := Sequencer.sound_init 0
      have counted := sound.counted
      have zero : Sequencer.init.outstandingCount = 0 := rfl
      rw [← Multiset.card_eq_zero, Sequencer.card_requests]
      omega
    refine ⟨⟨Sequencer.sound_init _, ?_, ?_, ?_, size⟩, Int.one_pos, fun some => absurd empty some,
      fun flag => ?_⟩
    · exact none.trans (congrArg cfg.lines empty).symm
    · exact congrArg (addresses · + 0 + 0) empty
    · exact le_of_eq empty
    · cases flag
  | @makeRequest m next scheduled woken events asked popped request world run allowed made added ih =>
    obtain ⟨kept, watched⟩ := ih
    obtain ⟨world', events', made', kept', after, how⟩ := kept.makeRequest allowed threshold latency
    rw [made'] at made
    cases made
    obtain ⟨logged, _⟩ := (run.queue.work world).logged
    obtain ⟨_, time, world⟩ := logged.scheduleAll added
    have past : ∀ c t, (c, t) ∈ woken → t ≤ m.globalTime := fun c t woke =>
      (logged.past c t woke).2.2.trans (logged.last c).1
    rw [time, world]
    exact ⟨kept', watched.makeRequest past threshold allowed.time how⟩
  | @rubyQueuePop m scheduled woken asked popped address rest _ first ih =>
    obtain ⟨kept, watched⟩ := ih
    refine ⟨⟨kept.sound, kept.held, ?_, kept.among, kept.room⟩,
      ⟨watched.positive, watched.flagged, watched.ahead⟩⟩
    rw [← kept.balance, first, ← Multiset.cons_coe, Multiset.add_cons, Multiset.add_cons,
      Multiset.cons_add]
    rfl
  | @triggerEvents m next t scheduled woken events wakes asked popped run before triggers ih =>
    exact EventQueue.Triggers.keeps
      (fun now world scheduled woken => Kept cfg answers asked popped now world ∧
        Watched cfg now world scheduled woken)
      (fun _ _ _ _ _ ⟨kept, watched⟩ after => ⟨kept.later after, watched.later after⟩)
      (fun c now _ _ _ _ _ ⟨kept, watched⟩ past _ woke =>
        ⟨((prompt answers threshold asked popped).wakeup c now _ _ _ kept woke).1,
          watched.wakeup kept threshold past woke⟩)
      triggers run.queue.logged.1 before ih

/-- The call of `triggerEvents` comes to a deadlock check that finds an outstanding
request as old as the threshold. -/
def Deadlocks (cfg : SequencerConfig) (h : Hierarchy κ η) (t : Int)
    (m : EventQueue (Option κ) (Processor η)) : Prop :=
  ∃ last, EventQueue.Wakes (wakeups cfg h) t m none last ∧ last.globalTime ≤ t ∧
    ∃ request ∈ last.world.requests cfg, cfg.deadlockThreshold ≤ last.globalTime - request.time

/-- Time moves on, unless the deadlock check aborts on an outstanding request that is
as old as its threshold. -/
theorem Run.moves (run : Run cfg answers m scheduled woken asked popped) {t : Int}
    (before : m.globalTime ≤ t) : ∃ turns,
      (∃ next, m.triggerEvents (wakeups cfg h) turns t = .ok next) ∨
        (m.triggerEvents (wakeups cfg h) turns t = .error (.assertion "Aborting") ∧
          Deadlocks cfg h t m) := by
  obtain ⟨kept, _⟩ := run.kept threshold latency size
  obtain ⟨logged, _⟩ := run.queue.logged
  have kind := prompt answers threshold asked popped
  obtain ⟨turns, ⟨_, now, world, fault, _, kept', failed, ended⟩ | ⟨next, returned, _⟩⟩ :=
    EventQueue.Logged.returns kind ⟨_, _, logged⟩ before kept
  · have aborts : fault = .assertion "Aborting" := kept'.fault threshold failed
    subst aborts
    obtain ⟨c, last, wakes, inTime, keptLast, failedLast⟩ :=
      EventQueue.Logged.wakes_of_failed kind (by simp) turns ⟨_, _, logged⟩ kept ended
    cases c with
    | none =>
      rcases keptLast.check threshold with ⟨_, request, outstanding, old⟩ | ⟨_, _, woke, _⟩
      · exact ⟨turns, .inr ⟨ended, last, wakes, inTime, request, outstanding, old⟩⟩
      · rw [woke] at failedLast
        cases failedLast
    | some c =>
      obtain ⟨_, _, woke, _⟩ := keptLast.wakeup c
      rw [woke] at failedLast
      cases failedLast
  · exact ⟨turns, .inl ⟨next, returned⟩⟩

/-- A request that the sequencer is ready for is taken. -/
theorem Run.takes (run : Run cfg answers m scheduled woken asked popped) {request : CacheMsg}
    (allowed : Allowed cfg m.globalTime m.world request) : ∃ world events next,
      Processor.makeRequest cfg h m.globalTime m.world request = .ok (world, events) ∧
        EventQueue.scheduleAll { m with world } events = .ok next := by
  obtain ⟨kept, _⟩ := run.kept threshold latency size
  obtain ⟨logged, _⟩ := run.queue.logged
  obtain ⟨world, events, made, _, after, _⟩ := kept.makeRequest allowed threshold latency
  obtain ⟨next, added, _⟩ :=
    EventQueue.scheduleAll_total (m := { m with world }) logged.valid after
  exact ⟨world, events, next, made, added⟩

/-- In a run that goes on no request stays outstanding for twice the threshold of the
deadlock check. -/
theorem deadlock_check_in_time (run : Run cfg answers m scheduled woken asked popped) :
    ∀ request ∈ m.world.requests cfg,
      m.globalTime - request.time < 2 * cfg.deadlockThreshold - 1 := by
  intro request outstanding
  obtain ⟨kept, watched⟩ := run.kept threshold latency size
  obtain ⟨logged, later⟩ := run.queue.logged
  have some : m.world.requests cfg ≠ 0 := by
    intro none
    rw [none] at outstanding
    cases outstanding
  obtain ⟨t, positive, listed, fresh, _, early⟩ := watched.ahead (watched.flagged some)
  have before := early request outstanding
  have ahead : m.globalTime < t :=
    later _ ((logged.kept none t listed positive).resolve_left fresh)
  omega

end runs

end Processor

/-- The values of the parameters in `O3simconfig.defaults`. -/
def o3simConfig : SequencerConfig where
  smtThreads := 1
  outstandingRequests := 16
  deadlockThreshold := 500000
  sequencerToControllerLatency := 4
  dataBlockBits := 6
  removeSingleCycleDcacheFastPath := true

/-- Caches that hold every line: their controller answers all messages when it wakes up. -/
def perfectCaches : Hierarchy Unit (List CacheMsg) where
  tryCacheAccess _ _ waiting := (true, waiting)
  enqueue msg latency now waiting := (msg :: waiting, [((), now + latency)])
  wakeup _ _ waiting := ([], waiting.map fun msg => ⟨msg.type.isWrite, msg.address⟩, [])

def perfectCaches_answers : perfectCaches.Answers where
  held waiting := (waiting.map fun msg => (msg.address, msg.type.isWrite) : List (Nat × Bool))
  tryCacheAccess _ _ _ := rfl
  enqueue _ _ _ _ := rfl
  enqueueLater := by
    intro msg latency now waiting positive e listed
    rw [List.mem_singleton.mp listed]
    exact Int.lt_add_of_pos_right now positive
  wakeup _ _ waiting := by simp [perfectCaches, Callback.key, Function.comp_def]
  wakeupLater _ _ _ e listed := by cases listed

/-- A load of an address in the second line. -/
def oneLoad : CacheMsg := ⟨72, .ld, false, 0, 1⟩

namespace Processor

/-- A run in which one load has been requested. -/
theorem oneLoad_run : ∃ m scheduled,
    Run o3simConfig perfectCaches_answers m scheduled [] {oneLoad} 0 ∧ m.globalTime = 1 ∧
      oneLoad ∈ m.world.requests o3simConfig := by
  have start : Run o3simConfig perfectCaches_answers (.init ⟨.init, [], []⟩) [] [] 0 0 := .init [] rfl
  have allowed : Allowed o3simConfig 1 (⟨.init, [], []⟩ : Processor (List CacheMsg)) oneLoad :=
    ⟨by decide +kernel, by decide, by decide, rfl⟩
  obtain ⟨kept, _⟩ := start.kept (by decide) (by decide) (by decide)
  obtain ⟨world, events, made, _, after, how⟩ :=
    kept.makeRequest allowed (by decide) (by decide)
  obtain ⟨logged, _⟩ := (start.queue.work world).logged
  obtain ⟨next, added, time, _⟩ := EventQueue.scheduleAll_total logged.valid after
  obtain ⟨_, _, same⟩ := logged.scheduleAll added
  have run := start.makeRequest allowed made added
  refine ⟨next, _, run, time, ?_⟩
  rw [same]
  rcases how with ⟨_, none⟩ | ⟨_, requests, _⟩
  · have sent : Loops.returns (fun e : Processor (List CacheMsg) × List (Option Unit × Int) =>
        !e.2.isEmpty) (makeRequest o3simConfig perfectCaches 1 ⟨.init, [], []⟩ oneLoad) = true := by
      decide +kernel
    rw [show makeRequest o3simConfig perfectCaches 1 ⟨.init, [], []⟩ oneLoad = _ from made, none] at sent
    cases sent
  · rw [requests]
    exact Multiset.mem_cons_self _ _

theorem deadlock_check_in_time_oneLoad : ∃ m scheduled,
    Run o3simConfig perfectCaches_answers m scheduled [] {oneLoad} 0 ∧
      oneLoad ∈ m.world.requests o3simConfig ∧ m.globalTime - oneLoad.time < 999999 := by
  obtain ⟨m, scheduled, run, _, outstanding⟩ := oneLoad_run
  exact ⟨m, scheduled, run, outstanding,
    deadlock_check_in_time (by decide) (by decide) (by decide) run oneLoad outstanding⟩

end Processor

end ChainSaw
