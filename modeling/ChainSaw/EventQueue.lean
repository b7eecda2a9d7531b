import ChainSaw.PrioHeap

set_option autoImplicit false

namespace ChainSaw

open Function (update)

/-- What `Consumer` keeps for the event queue. -/
structure Consumer where
  lastScheduledWakeup : Int
  lastWakeup : Int

def Consumer.setLastScheduledWakeup (c : Consumer) (time : Int) : Consumer :=
  { c with lastScheduledWakeup := time }

def Consumer.setLastWakeup (c : Consumer) (time : Int) : Consumer := { c with lastWakeup := time }

/-- The `wakeup` of each consumer, at a time, over the rest of the machine: what it
leaves, and the events it schedules in their order. -/
structure Wakeups (κ σ : Type) where
  wakeup : κ → Int → σ → Result (σ × List (κ × Int))

/-- `EventQueue` with the consumers it wakes and the state they work on. -/
structure EventQueue (κ σ : Type) where
  prioHeap : PrioHeap (EventQueueNode κ)
  globalTime : Int
  consumers : κ → Consumer
  world : σ

namespace EventQueue

variable {κ σ : Type}

/-- `init`, with consumers as `Consumer::Consumer` leaves them. -/
def init (world : σ) : EventQueue κ σ := ⟨.init, 1, fun _ => ⟨0, 0⟩, world⟩

variable [DecidableEq κ]

/-- `scheduleEventAbsolute`. -/
def scheduleEventAbsolute (m : EventQueue κ σ) (consumer : κ) (timeAbs : Int) :
    Result (EventQueue κ σ) :=
  if (m.consumers consumer).lastScheduledWakeup ≠ timeAbs then do
    check (m.globalTime < timeAbs) "timeAbs > m_globalTime"
    let prioHeap ← m.prioHeap.insert ⟨timeAbs, some consumer⟩
    .ok { m with
      prioHeap
      consumers := update m.consumers consumer
        ((m.consumers consumer).setLastScheduledWakeup timeAbs) }
  else .ok m

/-- `scheduleEvent`. -/
def scheduleEvent (m : EventQueue κ σ) (consumer : κ) (timeDelta : Int) :
    Result (EventQueue κ σ) :=
  m.scheduleEventAbsolute consumer (timeDelta + m.globalTime)

def scheduleAll (m : EventQueue κ σ) (events : List (κ × Int)) : Result (EventQueue κ σ) :=
  events.foldlM (fun m e => m.scheduleEventAbsolute e.1 e.2) m

def setLastWakeup (m : EventQueue κ σ) (consumer : κ) : EventQueue κ σ :=
  { m with
    consumers := update m.consumers consumer
      ((m.consumers consumer).setLastWakeup m.globalTime) }

/-- `triggerWakeup`: a consumer wakes up at most once in a cycle. -/
def triggerWakeup (wakeups : Wakeups κ σ) (m : EventQueue κ σ) (consumer : κ) :
    Result (EventQueue κ σ) :=
  if (m.consumers consumer).lastWakeup ≠ m.globalTime then do
    let (world, events) ← wakeups.wakeup consumer m.globalTime m.world
    let m ← scheduleAll { m with world } events
    .ok (m.setLastWakeup consumer)
  else .ok m

/-- The head of the loop of `triggerEvents`: the next event up to time `t`. -/
def nextEvent (m : EventQueue κ σ) (t : Int) : Result (Option (κ × EventQueue κ σ)) :=
  if 0 < m.prioHeap.size then do
    let least ← m.prioHeap.peekMin
    if least.time ≤ t then do
      let (node, prioHeap) ← m.prioHeap.extractMin
      match node.consumer with
      | some consumer => .ok (some (consumer, { m with prioHeap, globalTime := least.time }))
      | none => .error (.assertion "thisNode.m_consumer_ptr != NULL")
    else .ok none
  else .ok none

/-- `triggerEvents`; the first argument bounds the number of turns. -/
def triggerEvents (wakeups : Wakeups κ σ) :
    Nat → Int → EventQueue κ σ → Result (EventQueue κ σ)
  | 0, _, _ => .error .diverges
  | turns + 1, t, m => do
    match ← m.nextEvent t with
    | some (consumer, m) => do
      let m ← m.triggerWakeup wakeups consumer
      triggerEvents wakeups turns t m
    | none => .ok { m with globalTime := t }

/-- `O3simInterface::advanceTime`. -/
def advanceTime (wakeups : Wakeups κ σ) (turns : Nat) (m : EventQueue κ σ) :
    Result (EventQueue κ σ) :=
  m.triggerEvents wakeups turns (m.globalTime + 1)

/-- An event for `consumer` at `time`. -/
def event (consumer : κ) (time : Int) : EventQueueNode κ := ⟨time, some consumer⟩

/-- The events that have not been triggered. -/
def pending (m : EventQueue κ σ) : Multiset (EventQueueNode κ) := m.prioHeap.items

omit [DecidableEq κ] in
theorem unrelated (nodes : Multiset (EventQueueNode κ)) :
    ImplicitHeap.Apart (fun _ _ => True) nodes :=
  fun _ _ _ => trivial

/-- The call adds an event, or finds that the last one it added is the same. -/
theorem scheduleEventAbsolute_cases {m next : EventQueue κ σ} {c : κ} {t : Int}
    (valid : m.prioHeap.Valid EventQueueNode.le)
    (returned : m.scheduleEventAbsolute c t = .ok next) :
    ((m.consumers c).lastScheduledWakeup = t ∧ next = m) ∨
      (m.globalTime < t ∧ ∃ prioHeap, prioHeap.Valid EventQueueNode.le ∧
        prioHeap.items = event c t ::ₘ m.pending ∧
        next = { m with
          prioHeap
          consumers := update m.consumers c ((m.consumers c).setLastScheduledWakeup t) }) := by
  unfold scheduleEventAbsolute at returned
  split at returned
  · obtain ⟨_, later, returned⟩ := Loops.bind_eq_ok.mp returned
    obtain ⟨prioHeap, inserted, returned⟩ := Loops.bind_eq_ok.mp returned
    cases returned
    obtain ⟨prioHeap', inserted', valid', items⟩ :=
      PrioHeap.insert_ok EventQueueNode.compares valid (unrelated (event c t ::ₘ _))
    rw [show m.prioHeap.insert (event c t) = _ from inserted] at inserted'
    cases inserted'
    exact .inr ⟨of_decide_eq_true (check_eq_ok.mp later), prioHeap, valid', items, rfl⟩
  · rename_i same
    cases returned
    exact .inl ⟨Decidable.not_not.mp same, rfl⟩

theorem scheduleEventAbsolute_total {m : EventQueue κ σ} {c : κ} {t : Int}
    (valid : m.prioHeap.Valid EventQueueNode.le) (later : m.globalTime < t) :
    ∃ next, m.scheduleEventAbsolute c t = .ok next := by
  unfold scheduleEventAbsolute
  split
  · obtain ⟨prioHeap, inserted, _⟩ :=
      PrioHeap.insert_ok EventQueueNode.compares valid (unrelated (event c t ::ₘ _))
    rw [check_pass (decide_eq_true later), Loops.ok_bind]
    rw [show m.prioHeap.insert ⟨t, some c⟩ = _ from inserted, Loops.ok_bind]
    exact ⟨_, rfl⟩
  · exact ⟨m, rfl⟩

omit [DecidableEq κ] in
/-- `nextEvent` takes away the first event, if one is due and has a consumer. -/
theorem nextEvent_cases {m : EventQueue κ σ} (valid : m.prioHeap.Valid EventQueueNode.le)
    (named : ∀ node ∈ m.pending, node.consumer.isSome) (t : Int) :
    (m.nextEvent t = .ok none ∧ ∀ node ∈ m.pending, t < node.time) ∨
      ∃ c time prioHeap,
        m.nextEvent t = .ok (some (c, { m with prioHeap, globalTime := time })) ∧
        prioHeap.Valid EventQueueNode.le ∧ time ≤ t ∧
        m.pending = event c time ::ₘ prioHeap.items ∧ ∀ node ∈ m.pending, time ≤ node.time := by
  unfold nextEvent
  by_cases nonempty : 0 < m.prioHeap.size
  · obtain ⟨least, prioHeap, extracted, peeked, valid', items, first⟩ :=
      PrioHeap.extractMin_ok EventQueueNode.compares valid nonempty (unrelated _)
    rw [if_pos nonempty, peeked, Loops.ok_bind]
    have isPending : least ∈ m.prioHeap.items := items ▸ Multiset.mem_cons_self _ _
    obtain ⟨time, consumer⟩ := least
    obtain ⟨c, rfl⟩ := Option.isSome_iff_exists.mp (named _ isPending)
    dsimp only
    by_cases due : time ≤ t
    · rw [if_pos due, extracted, Loops.ok_bind]
      exact .inr ⟨c, time, prioHeap, rfl, valid', due, items, first⟩
    · rw [if_neg due]
      refine .inl ⟨rfl, fun node member => ?_⟩
      have before : time ≤ node.time := first node member
      omega
  · have empty : m.pending = 0 := by
      have card := ImplicitHeap.card_items m.prioHeap.heap m.prioHeap.currentSize
      exact Multiset.card_eq_zero.mp (card.trans (Nat.eq_zero_of_not_pos nonempty))
    rw [if_neg nonempty]
    refine .inl ⟨rfl, fun node member => ?_⟩
    rw [empty] at member
    cases member

omit [DecidableEq κ] in
theorem nextEvent_world {m mid : EventQueue κ σ} {c : κ} {t : Int}
    (head : m.nextEvent t = .ok (some (c, mid))) : mid.world = m.world := by
  unfold nextEvent at head
  split at head
  · obtain ⟨least, _, head⟩ := Loops.bind_eq_ok.mp head
    split at head
    · obtain ⟨⟨node, prioHeap⟩, _, head⟩ := Loops.bind_eq_ok.mp head
      dsimp only at head
      split at head
      · cases head
        rfl
      · cases head
    · cases head
  · cases head

/-- The log of one call of `triggerEvents`: the events its wakeups schedule and the
wakeups themselves. -/
inductive Triggers (wakeups : Wakeups κ σ) (t : Int) :
    EventQueue κ σ → EventQueue κ σ → List (κ × Int) → List (κ × Int) → Prop
  | done {m : EventQueue κ σ} : m.nextEvent t = .ok none →
      Triggers wakeups t m { m with globalTime := t } [] []
  | skip {m mid next : EventQueue κ σ} {c : κ} {scheduled woken : List (κ × Int)} :
      m.nextEvent t = .ok (some (c, mid)) → (mid.consumers c).lastWakeup = mid.globalTime →
      Triggers wakeups t mid next scheduled woken → Triggers wakeups t m next scheduled woken
  | wake {m mid mid' next : EventQueue κ σ} {c : κ} {world : σ}
      {events scheduled woken : List (κ × Int)} :
      m.nextEvent t = .ok (some (c, mid)) → (mid.consumers c).lastWakeup ≠ mid.globalTime →
      wakeups.wakeup c mid.globalTime mid.world = .ok (world, events) →
      scheduleAll { mid with world } events = .ok mid' →
      Triggers wakeups t (mid'.setLastWakeup c) next scheduled woken →
      Triggers wakeups t m next (events ++ scheduled) ((c, mid.globalTime) :: woken)

theorem triggers_of_returned {wakeups : Wakeups κ σ} {turns : Nat} {t : Int} :
    ∀ {m next : EventQueue κ σ}, m.triggerEvents wakeups turns t = .ok next →
      ∃ scheduled woken, Triggers wakeups t m next scheduled woken := by
  induction turns with
  | zero => intro m next returned; cases returned
  | succ turns ih =>
    intro m next returned
    obtain ⟨found, head, returned⟩ := Loops.bind_eq_ok.mp returned
    match found with
    | none =>
      cases returned
      exact ⟨_, _, .done head⟩
    | some (c, mid) =>
      obtain ⟨after, triggered, returned⟩ := Loops.bind_eq_ok.mp returned
      obtain ⟨scheduled, woken, rest⟩ := ih returned
      unfold triggerWakeup at triggered
      split at triggered
      · rename_i asleep
        obtain ⟨⟨world, events⟩, woke, triggered⟩ := Loops.bind_eq_ok.mp triggered
        obtain ⟨mid', added, triggered⟩ := Loops.bind_eq_ok.mp triggered
        cases triggered
        exact ⟨_, _, .wake head asleep woke added rest⟩
      · rename_i awake
        cases triggered
        exact ⟨_, _, .skip head (Decidable.not_not.mp awake) rest⟩

/-- The event queue between two calls, with all events scheduled and all wakeups so far. -/
inductive Run (wakeups : Wakeups κ σ) :
    EventQueue κ σ → List (κ × Int) → List (κ × Int) → Prop
  | init (world : σ) : Run wakeups (init world) [] []
  | work {m : EventQueue κ σ} {scheduled woken : List (κ × Int)} (world : σ) :
      Run wakeups m scheduled woken → Run wakeups { m with world } scheduled woken
  | schedule {m next : EventQueue κ σ} {scheduled woken : List (κ × Int)} {c : κ} {t : Int} :
      Run wakeups m scheduled woken → m.scheduleEventAbsolute c t = .ok next →
      Run wakeups next (scheduled ++ [(c, t)]) woken
  | trigger {m next : EventQueue κ σ} {t : Int} {scheduled woken events wakes : List (κ × Int)} :
      Run wakeups m scheduled woken → m.globalTime ≤ t →
      Triggers wakeups t m next events wakes →
      Run wakeups next (scheduled ++ events) (woken ++ wakes)

/-- How the state of the event queue and of its consumers goes with the log. -/
structure Logged (m : EventQueue κ σ) (scheduled woken : List (κ × Int)) : Prop where
  valid : m.prioHeap.Valid EventQueueNode.le
  positive : 0 < m.globalTime
  pending : ∀ node ∈ m.pending, m.globalTime ≤ node.time ∧
    ∃ c, node.consumer = some c ∧ (c, node.time) ∈ scheduled
  kept : ∀ c t, (c, t) ∈ scheduled → 0 < t → (c, t) ∈ woken ∨ event c t ∈ m.pending
  past : ∀ c t, (c, t) ∈ woken → (c, t) ∈ scheduled ∧ 0 < t ∧ t ≤ (m.consumers c).lastWakeup
  last : ∀ c, (m.consumers c).lastWakeup ≤ m.globalTime ∧
    ((m.consumers c).lastWakeup ≠ 0 → (c, (m.consumers c).lastWakeup) ∈ woken)
  combined : ∀ c, (m.consumers c).lastScheduledWakeup ≠ 0 →
    (c, (m.consumers c).lastScheduledWakeup) ∈ scheduled
  ordered : woken.Pairwise fun e e' => e.2 ≤ e'.2
  once : woken.Nodup

omit [DecidableEq κ] in
theorem Logged.named {m : EventQueue κ σ} {scheduled woken : List (κ × Int)}
    (logged : Logged m scheduled woken) (node : EventQueueNode κ) (member : node ∈ m.pending) :
    node.consumer.isSome := by
  obtain ⟨_, c, isSome, _⟩ := logged.pending node member
  rw [isSome]
  rfl

omit [DecidableEq κ] in
theorem logged_init (world : σ) : Logged (init world : EventQueue κ σ) [] [] where
  valid := PrioHeap.valid_init
  positive := Int.one_pos
  pending := by
    intro node member
    cases member
  kept := by simp
  past := by simp
  last := fun c => ⟨Int.le_of_lt Int.one_pos, fun other => absurd rfl other⟩
  combined := fun c other => absurd rfl other
  ordered := List.Pairwise.nil
  once := List.nodup_nil

theorem Logged.schedule {m next : EventQueue κ σ} {scheduled woken : List (κ × Int)} {c : κ} {t : Int}
    (logged : Logged m scheduled woken) (returned : m.scheduleEventAbsolute c t = .ok next) :
    Logged next (scheduled ++ [(c, t)]) woken ∧ next.globalTime = m.globalTime ∧
      next.world = m.world := by
  rcases scheduleEventAbsolute_cases logged.valid returned with
    ⟨same, rfl⟩ | ⟨later, prioHeap, valid, items, rfl⟩
  · refine ⟨⟨logged.valid, logged.positive, ?_, ?_, ?_, logged.last, ?_, logged.ordered,
      logged.once⟩, rfl, rfl⟩
    · intro node member
      obtain ⟨after, c', isSome, listed⟩ := logged.pending node member
      exact ⟨after, c', isSome, List.mem_append_left _ listed⟩
    · intro c' t' listed positive
      rcases List.mem_append.mp listed with old | new
      · exact logged.kept c' t' old positive
      · cases List.mem_singleton.mp new
        refine logged.kept c t ?_ positive
        rw [← same]
        exact logged.combined c (by omega)
    · intro c' t' member
      obtain ⟨listed, rest⟩ := logged.past c' t' member
      exact ⟨List.mem_append_left _ listed, rest⟩
    · intro c' other
      exact List.mem_append_left _ (logged.combined c' other)
  · have kept : ∀ c', (update m.consumers c ((m.consumers c).setLastScheduledWakeup t) c').lastWakeup =
        (m.consumers c').lastWakeup := by
      intro c'
      by_cases same : c' = c
      · rw [same, Function.update_self]
        rfl
      · rw [Function.update_of_ne same]
    refine ⟨⟨valid, logged.positive, ?_, ?_, ?_, ?_, ?_, logged.ordered, logged.once⟩, rfl, rfl⟩
    · intro node member
      rw [EventQueue.pending, items, Multiset.mem_cons] at member
      rcases member with rfl | member
      · exact ⟨Int.le_of_lt later, c, rfl, by simp [event]⟩
      · obtain ⟨after, c', isSome, listed⟩ := logged.pending node member
        exact ⟨after, c', isSome, List.mem_append_left _ listed⟩
    · intro c' t' listed positive
      rw [EventQueue.pending, items, Multiset.mem_cons]
      rcases List.mem_append.mp listed with old | new
      · exact (logged.kept c' t' old positive).imp id .inr
      · cases List.mem_singleton.mp new
        exact .inr (.inl rfl)
    · intro c' t' member
      obtain ⟨listed, rest⟩ := logged.past c' t' member
      dsimp only
      rw [kept]
      exact ⟨List.mem_append_left _ listed, rest⟩
    · intro c'
      dsimp only
      rw [kept]
      exact logged.last c'
    · intro c' other
      by_cases same : c' = c
      · subst same
        simp [Consumer.setLastScheduledWakeup]
      · dsimp only at other ⊢
        rw [Function.update_of_ne same] at other ⊢
        exact List.mem_append_left _ (logged.combined c' other)

theorem Logged.scheduleAll {events : List (κ × Int)} : ∀ {m next : EventQueue κ σ}
    {scheduled woken : List (κ × Int)}, Logged m scheduled woken → m.scheduleAll events = .ok next →
    Logged next (scheduled ++ events) woken ∧ next.globalTime = m.globalTime ∧
      next.world = m.world := by
  induction events with
  | nil =>
    intro m next scheduled woken logged returned
    cases returned
    exact ⟨by simpa using logged, rfl, rfl⟩
  | cons e events ih =>
    intro m next scheduled woken logged returned
    obtain ⟨mid, added, returned⟩ := Loops.foldlM_cons_ok.mp returned
    obtain ⟨logged', time, world⟩ := logged.schedule added
    obtain ⟨logged'', time', world'⟩ := ih logged' returned
    exact ⟨by simpa using logged'', time'.trans time, world'.trans world⟩

/-- The calls do not look at `m_last_wakeup`. -/
theorem scheduleEventAbsolute_setLastWakeup (m : EventQueue κ σ) (c c' : κ) (t : Int) :
    (m.setLastWakeup c).scheduleEventAbsolute c' t =
      (m.scheduleEventAbsolute c' t).map fun next => next.setLastWakeup c := by
  have same : ((m.setLastWakeup c).consumers c').lastScheduledWakeup =
      (m.consumers c').lastScheduledWakeup := by
    by_cases here : c' = c
    · subst here
      simp [setLastWakeup, Consumer.setLastWakeup]
    · simp [setLastWakeup, Function.update_of_ne here]
  have swapped : update (m.setLastWakeup c).consumers c'
      (((m.setLastWakeup c).consumers c').setLastScheduledWakeup t) =
      update (update m.consumers c' ((m.consumers c').setLastScheduledWakeup t)) c
        ((update m.consumers c' ((m.consumers c').setLastScheduledWakeup t) c).setLastWakeup
          m.globalTime) := by
    by_cases here : c' = c
    · subst here
      simp [setLastWakeup, Consumer.setLastWakeup, Consumer.setLastScheduledWakeup]
    · have kept : (m.setLastWakeup c).consumers c' = m.consumers c' := Function.update_of_ne here _ _
      rw [Function.update_of_ne (Ne.symm here), kept]
      exact Function.update_comm (Ne.symm here) _ _ _
  unfold scheduleEventAbsolute
  rw [same, swapped]
  split
  · change (check (decide (m.globalTime < t)) _ >>= fun _ => m.prioHeap.insert _ >>= _) = _
    cases check (decide (m.globalTime < t)) "timeAbs > m_globalTime" with
    | error fault => rfl
    | ok u =>
      simp only [Loops.ok_bind]
      cases m.prioHeap.insert ⟨t, some c'⟩ <;> rfl
  · rfl

theorem scheduleAll_setLastWakeup (c : κ) {events : List (κ × Int)} {m next : EventQueue κ σ}
    (returned : m.scheduleAll events = .ok next) :
    (m.setLastWakeup c).scheduleAll events = .ok (next.setLastWakeup c) := by
  let schedule (m : EventQueue κ σ) (e : κ × Int) := m.scheduleEventAbsolute e.1 e.2
  let noted (m : EventQueue κ σ) := m.setLastWakeup c
  have turn : ∀ m, ∀ e ∈ events, schedule (noted m) e = (schedule m e).map noted :=
    fun m e _ => scheduleEventAbsolute_setLastWakeup m c e.1 e.2
  exact (Loops.foldlM_map noted events turn m).trans (congrArg (Except.map noted) returned)

/-- Taking the first event off the queue. Its consumer has been woken up in this
cycle, or the wakeup can be written down. -/
theorem Logged.next {m mid : EventQueue κ σ} {scheduled woken : List (κ × Int)} {c : κ} {t : Int}
    (logged : Logged m scheduled woken) (head : m.nextEvent t = .ok (some (c, mid))) :
    m.globalTime ≤ mid.globalTime ∧ mid.globalTime ≤ t ∧
      ((mid.consumers c).lastWakeup = mid.globalTime → Logged mid scheduled woken) ∧
      ((mid.consumers c).lastWakeup ≠ mid.globalTime →
        Logged (mid.setLastWakeup c) scheduled (woken ++ [(c, mid.globalTime)])) := by
  rcases nextEvent_cases logged.valid logged.named t with
    ⟨found, _⟩ | ⟨c', time, prioHeap, found, valid, due, items, first⟩
  · rw [found] at head
    cases head
  rw [found] at head
  cases head
  have isPending : event c time ∈ m.pending := items ▸ Multiset.mem_cons_self _ _
  obtain ⟨after, _, isConsumer, listed⟩ := logged.pending _ isPending
  cases isConsumer
  have after : m.globalTime ≤ time := after
  have positive : 0 < time := Int.lt_of_lt_of_le logged.positive after
  have rest : ∀ node ∈ prioHeap.items, time ≤ node.time ∧
      ∃ c', node.consumer = some c' ∧ (c', node.time) ∈ scheduled := by
    intro node member
    have member : node ∈ m.pending := items ▸ Multiset.mem_cons_of_mem member
    exact ⟨first node member, (logged.pending node member).2⟩
  have kept : ∀ c' t', (c', t') ∈ scheduled → 0 < t' →
      (c', t') ∈ woken ∨ (c' = c ∧ t' = time) ∨ event c' t' ∈ prioHeap.items := by
    intro c' t' listed positive
    rcases logged.kept c' t' listed positive with woke | waiting
    · exact .inl woke
    · rw [items, Multiset.mem_cons] at waiting
      rcases waiting with same | waiting
      · cases same
        exact .inr (.inl ⟨rfl, rfl⟩)
      · exact .inr (.inr waiting)
  refine ⟨after, due, fun awake => ?_, fun asleep => ?_⟩
  · have awake : (m.consumers c).lastWakeup = time := awake
    refine ⟨valid, positive, rest, ?_, logged.past, ?_, logged.combined, logged.ordered,
      logged.once⟩
    · intro c' t' listed positive'
      rcases kept c' t' listed positive' with woke | ⟨rfl, rfl⟩ | waiting
      · exact .inl woke
      · have woke := (logged.last c').2 (by omega)
        rw [awake] at woke
        exact .inl woke
      · exact .inr waiting
    · intro c'
      exact ⟨(logged.last c').1.trans after, (logged.last c').2⟩
  · have asleep : (m.consumers c).lastWakeup ≠ time := asleep
    have earlier : ∀ c' t', (c', t') ∈ woken → t' ≤ time := by
      intro c' t' woke
      have upTo := (logged.past c' t' woke).2.2
      have now := (logged.last c').1
      omega
    have fresh : (c, time) ∉ woken := by
      intro woke
      have upTo := (logged.past c time woke).2.2
      have now := (logged.last c).1
      omega
    refine ⟨valid, positive, rest, ?_, ?_, ?_, ?_, ?_, ?_⟩
    · intro c' t' listed positive'
      rcases kept c' t' listed positive' with woke | ⟨rfl, rfl⟩ | waiting
      · exact .inl (List.mem_append_left _ woke)
      · exact .inl (List.mem_append_right _ (List.mem_singleton.mpr rfl))
      · exact .inr waiting
    · intro c' t' woke
      rcases List.mem_append.mp woke with old | new
      · obtain ⟨listed', positive', upTo⟩ := logged.past c' t' old
        refine ⟨listed', positive', ?_⟩
        by_cases here : c' = c
        · subst here
          simpa [setLastWakeup, Consumer.setLastWakeup] using earlier c' t' old
        · simpa [setLastWakeup, Function.update_of_ne here] using upTo
      · cases List.mem_singleton.mp new
        exact ⟨listed, positive, by simp [setLastWakeup, Consumer.setLastWakeup]⟩
    · intro c'
      by_cases here : c' = c
      · subst here
        simp [setLastWakeup, Consumer.setLastWakeup]
      · have before := logged.last c'
        simp only [setLastWakeup, Function.update_of_ne here]
        exact ⟨before.1.trans after, fun other => List.mem_append_left _ (before.2 other)⟩
    · intro c' other
      by_cases here : c' = c
      · subst here
        simp only [setLastWakeup, Function.update_self] at other ⊢
        exact logged.combined c' other
      · simp only [setLastWakeup, Function.update_of_ne here] at other ⊢
        exact logged.combined c' other
    · refine List.pairwise_append.mpr ⟨logged.ordered, List.pairwise_singleton _ _, ?_⟩
      intro e woke e' new
      rw [List.mem_singleton.mp new]
      exact earlier e.1 e.2 woke
    · refine List.nodup_append.mpr ⟨logged.once, List.nodup_singleton _, ?_⟩
      rintro e woke e' new rfl
      rw [List.mem_singleton.mp new] at woke
      exact fresh woke

/-- A wakeup that has been written down. -/
theorem Logged.wake {mid mid' : EventQueue κ σ} {scheduled woken events : List (κ × Int)} {c : κ}
    {world : σ} (noted : Logged (mid.setLastWakeup c) scheduled woken)
    (added : EventQueue.scheduleAll { mid with world } events = .ok mid') :
    Logged (mid'.setLastWakeup c) (scheduled ++ events) woken ∧
      (mid'.setLastWakeup c).globalTime = mid.globalTime ∧
      (mid'.setLastWakeup c).world = world := by
  -- setting `m_last_wakeup` before the wakeup instead of behind it makes no difference
  have swapped := scheduleAll_setLastWakeup c added
  have noted' : Logged ({ mid with world }.setLastWakeup c) scheduled woken :=
    ⟨noted.valid, noted.positive, noted.pending, noted.kept, noted.past, noted.last,
      noted.combined, noted.ordered, noted.once⟩
  exact noted'.scheduleAll swapped

theorem Logged.triggers {wakeups : Wakeups κ σ} {t : Int} {m next : EventQueue κ σ}
    {events wakes : List (κ × Int)} (triggers : Triggers wakeups t m next events wakes) :
    ∀ {scheduled woken : List (κ × Int)}, Logged m scheduled woken → m.globalTime ≤ t →
      Logged next (scheduled ++ events) (woken ++ wakes) ∧ next.globalTime = t ∧
        ∀ node ∈ next.pending, t < node.time := by
  induction triggers with
  | @done m head =>
    intro scheduled woken logged before
    rcases nextEvent_cases logged.valid logged.named t with ⟨_, later⟩ | ⟨_, _, _, found, _⟩
    · rw [List.append_nil, List.append_nil]
      refine ⟨⟨logged.valid, Int.lt_of_lt_of_le logged.positive before, ?_, logged.kept, logged.past,
        ?_, logged.combined, logged.ordered, logged.once⟩, rfl, later⟩
      · intro node member
        exact ⟨Int.le_of_lt (later node member), (logged.pending node member).2⟩
      · intro c
        exact ⟨(logged.last c).1.trans before, (logged.last c).2⟩
    · rw [found] at head
      cases head
  | skip head awake _ ih =>
    intro scheduled woken logged before
    obtain ⟨_, due, keeps, _⟩ := logged.next head
    exact ih (keeps awake) due
  | @wake m mid mid' next c world events rest wakes head asleep _ added _ ih =>
    intro scheduled woken logged before
    obtain ⟨_, due, _, keeps⟩ := logged.next head
    obtain ⟨logged', time, _⟩ := (keeps asleep).wake added
    obtain ⟨final, here, later⟩ := ih logged' (time ▸ due)
    refine ⟨?_, here, later⟩
    simpa using final

/-- The invariant rule of `triggerEvents`: it is enough to look at the world before
and behind one wakeup. -/
theorem Triggers.keeps {wakeups : Wakeups κ σ} {t : Int}
    (P : Int → σ → List (κ × Int) → List (κ × Int) → Prop)
    (later : ∀ now t world scheduled woken, P now world scheduled woken → now ≤ t →
      P t world scheduled woken)
    (step : ∀ c now world world' events scheduled woken, P now world scheduled woken →
      (∀ c' t', (c', t') ∈ woken → t' ≤ now) → (c, now) ∉ woken →
      wakeups.wakeup c now world = .ok (world', events) →
      P now world' (scheduled ++ events) (woken ++ [(c, now)]))
    {m next : EventQueue κ σ} {events wakes : List (κ × Int)}
    (triggers : Triggers wakeups t m next events wakes) :
    ∀ {scheduled woken : List (κ × Int)}, Logged m scheduled woken → m.globalTime ≤ t →
      P m.globalTime m.world scheduled woken →
      P next.globalTime next.world (scheduled ++ events) (woken ++ wakes) := by
  induction triggers with
  | done _ =>
    intro scheduled woken _ before holds
    rw [List.append_nil, List.append_nil]
    exact later _ _ _ _ _ holds before
  | skip head awake _ ih =>
    intro scheduled woken logged before holds
    obtain ⟨after, due, keeps, _⟩ := logged.next head
    have world := nextEvent_world head
    exact ih (keeps awake) due (world ▸ later _ _ _ _ _ holds after)
  | @wake m mid mid' next c world events rest wakes head asleep woke added _ ih =>
    intro scheduled woken logged before holds
    obtain ⟨after, due, _, keeps⟩ := logged.next head
    have noted := keeps asleep
    obtain ⟨logged', time, world'⟩ := noted.wake added
    have fresh : (c, mid.globalTime) ∉ woken := by
      have once := noted.once
      rw [List.nodup_append] at once
      exact fun woke => once.2.2 _ woke _ (by simp) rfl
    have earlier : ∀ c' t', (c', t') ∈ woken → t' ≤ mid.globalTime := by
      intro c' t' woke
      have upTo := (logged.past c' t' woke).2.2
      have now := (logged.last c').1
      omega
    have moved := later _ _ _ _ _ holds after
    rw [← nextEvent_world head] at moved
    have stepped := step c _ _ _ _ _ _ moved earlier fresh woke
    have final := ih logged' (time ▸ due) (by rw [time, world']; exact stepped)
    simpa using final

/-- Between two calls nothing in the queue is due. -/
theorem Run.logged {wakeups : Wakeups κ σ} {m : EventQueue κ σ} {scheduled woken : List (κ × Int)}
    (run : Run wakeups m scheduled woken) :
    Logged m scheduled woken ∧ ∀ node ∈ m.pending, m.globalTime < node.time := by
  induction run with
  | init world =>
    refine ⟨logged_init world, ?_⟩
    intro node member
    cases member
  | work world _ ih =>
    obtain ⟨logged, later⟩ := ih
    exact ⟨⟨logged.valid, logged.positive, logged.pending, logged.kept, logged.past, logged.last,
      logged.combined, logged.ordered, logged.once⟩, later⟩
  | schedule _ returned ih =>
    obtain ⟨logged, later⟩ := ih
    refine ⟨(logged.schedule returned).1, ?_⟩
    rcases scheduleEventAbsolute_cases logged.valid returned with
      ⟨_, rfl⟩ | ⟨after, prioHeap, _, items, rfl⟩
    · exact later
    · intro node member
      rw [EventQueue.pending, items, Multiset.mem_cons] at member
      rcases member with rfl | member
      · exact after
      · exact later node member
  | trigger _ before triggers ih =>
    obtain ⟨logged, time, later⟩ := Logged.triggers triggers ih.1 before
    rw [time]
    exact ⟨logged, later⟩

theorem Run.scheduleAll {wakeups : Wakeups κ σ} {events : List (κ × Int)} :
    ∀ {m next : EventQueue κ σ} {scheduled woken : List (κ × Int)}, Run wakeups m scheduled woken →
      m.scheduleAll events = .ok next → Run wakeups next (scheduled ++ events) woken := by
  induction events with
  | nil =>
    intro m next scheduled woken run returned
    cases returned
    simpa using run
  | cons e events ih =>
    intro m next scheduled woken run returned
    obtain ⟨mid, added, returned⟩ := Loops.foldlM_cons_ok.mp returned
    simpa using ih (run.schedule added) returned

/-- A consumer is woken up in exactly the cycles it has been scheduled for, up to
the time of the queue, in the order of the cycles and once in each; the events in
the queue are the other ones. -/
theorem event_queue_wakes {wakeups : Wakeups κ σ} {m : EventQueue κ σ}
    {scheduled woken : List (κ × Int)} (run : Run wakeups m scheduled woken) :
    (woken.Pairwise fun e e' => e.2 ≤ e'.2) ∧ woken.Nodup ∧
      (∀ c t, (c, t) ∈ woken ↔ (c, t) ∈ scheduled ∧ 0 < t ∧ t ≤ m.globalTime) ∧
      ∀ c t, event c t ∈ m.pending ↔ (c, t) ∈ scheduled ∧ m.globalTime < t := by
  obtain ⟨logged, later⟩ := run.logged
  have early : ∀ c t, (c, t) ∈ woken → t ≤ m.globalTime := by
    intro c t woke
    exact (logged.past c t woke).2.2.trans (logged.last c).1
  refine ⟨logged.ordered, logged.once, fun c t => ⟨fun woke => ?_, ?_⟩, fun c t => ⟨?_, ?_⟩⟩
  · obtain ⟨listed, positive, _⟩ := logged.past c t woke
    exact ⟨listed, positive, early c t woke⟩
  · rintro ⟨listed, positive, due⟩
    refine (logged.kept c t listed positive).resolve_right fun waiting => ?_
    have after : m.globalTime < t := later _ waiting
    omega
  · intro waiting
    obtain ⟨_, c', isConsumer, listed⟩ := logged.pending _ waiting
    cases isConsumer
    exact ⟨listed, later _ waiting⟩
  · rintro ⟨listed, after⟩
    refine (logged.kept c t listed (Int.lt_trans logged.positive after)).resolve_left fun woke => ?_
    have due := early c t woke
    omega

/-- `I` is kept by the wakeups and by time, and what a wakeup schedules comes after
the time it is at. -/
structure Prompt (wakeups : Wakeups κ σ) (I : Int → σ → Prop) : Prop where
  wakeup : ∀ c now world world' events, I now world →
    wakeups.wakeup c now world = .ok (world', events) → I now world' ∧ ∀ e ∈ events, now < e.2
  later : ∀ now t world, I now world → now ≤ t → I t world

/-- The number of events up to a time. -/
def dueAt (nodes : Multiset (EventQueueNode κ)) (now : Int) : Nat :=
  nodes.countP fun node => node.time ≤ now

def due (m : EventQueue κ σ) : Nat := dueAt m.pending m.globalTime

omit [DecidableEq κ] in
theorem dueAt_later {c : κ} {t now : Int} (nodes : Multiset (EventQueueNode κ)) (later : now < t) :
    dueAt (event c t ::ₘ nodes) now = dueAt nodes now :=
  Multiset.countP_cons_of_neg (p := fun node : EventQueueNode κ => node.time ≤ now) _ (Int.not_le.mpr later)

omit [DecidableEq κ] in
theorem dueAt_now {c : κ} {t now : Int} (nodes : Multiset (EventQueueNode κ)) (upTo : t ≤ now) :
    dueAt (event c t ::ₘ nodes) now = dueAt nodes now + 1 :=
  Multiset.countP_cons_of_pos (p := fun node : EventQueueNode κ => node.time ≤ now) _ upTo

theorem scheduleAll_total {m : EventQueue κ σ} {events : List (κ × Int)}
    (valid : m.prioHeap.Valid EventQueueNode.le) (later : ∀ e ∈ events, m.globalTime < e.2) :
    ∃ next, m.scheduleAll events = .ok next ∧ next.globalTime = m.globalTime ∧
      next.due = m.due := by
  obtain ⟨next, returned, _, same⟩ := Loops.foldlM_total
    (f := fun (m : EventQueue κ σ) (e : κ × Int) => m.scheduleEventAbsolute e.1 e.2)
    (fun next => next.prioHeap.Valid EventQueueNode.le ∧ next.globalTime = m.globalTime ∧
      next.due = m.due) events
    (fun before ⟨valid, time, count⟩ e member => by
      have after : before.globalTime < e.2 := time ▸ later e member
      obtain ⟨next, returned⟩ := scheduleEventAbsolute_total (c := e.1) valid after
      refine ⟨next, returned, ?_⟩
      rcases scheduleEventAbsolute_cases valid returned with
        ⟨_, rfl⟩ | ⟨_, prioHeap, valid', items, rfl⟩
      · exact ⟨valid, time, count⟩
      · refine ⟨valid', time, ?_⟩
        rw [← count, due, EventQueue.pending, items, dueAt_later _ after]
        rfl)
    ⟨valid, rfl, rfl⟩
  exact ⟨next, returned, same⟩

/-- The loop of `triggerEvents` ends in a wakeup that fails. -/
def Fails (wakeups : Wakeups κ σ) (I : Int → σ → Prop) (t : Int)
    (result : Result (EventQueue κ σ)) : Prop :=
  ∃ c now world fault, now ≤ t ∧ I now world ∧ wakeups.wakeup c now world = .error fault ∧
    result = .error fault

/-- One turn of the loop of `triggerEvents`. -/
theorem Logged.turn {wakeups : Wakeups κ σ} {I : Int → σ → Prop} (prompt : Prompt wakeups I)
    {m mid : EventQueue κ σ} {scheduled woken : List (κ × Int)} {c : κ} {t : Int}
    (logged : Logged m scheduled woken) (head : m.nextEvent t = .ok (some (c, mid)))
    (holds : I mid.globalTime mid.world) :
    (∃ fault, (mid.consumers c).lastWakeup ≠ mid.globalTime ∧
        wakeups.wakeup c mid.globalTime mid.world = .error fault ∧
        mid.triggerWakeup wakeups c = .error fault) ∨
      ∃ next, mid.triggerWakeup wakeups c = .ok next ∧ next.globalTime = mid.globalTime ∧
        next.due = mid.due ∧ I next.globalTime next.world ∧
        ∃ scheduled woken, Logged next scheduled woken := by
  obtain ⟨_, _, awake, asleep⟩ := logged.next head
  unfold triggerWakeup
  by_cases woke : (mid.consumers c).lastWakeup = mid.globalTime
  · rw [if_neg (not_not.mpr woke)]
    exact .inr ⟨mid, rfl, rfl, rfl, holds, _, _, awake woke⟩
  rw [if_pos woke]
  cases returned : wakeups.wakeup c mid.globalTime mid.world with
  | error fault => exact .inl ⟨fault, woke, rfl, rfl⟩
  | ok result =>
    obtain ⟨world, events⟩ := result
    obtain ⟨holds', later⟩ := prompt.wakeup c _ _ _ _ holds returned
    have noted := asleep woke
    obtain ⟨next, added, time, count⟩ :=
      scheduleAll_total (m := { mid with world }) noted.valid later
    obtain ⟨logged', _, world'⟩ := noted.wake added
    refine .inr ⟨next.setLastWakeup c, ?_, time, count, ?_, _, _, logged'⟩
    · rw [Loops.ok_bind]
      dsimp only
      rw [added]
      rfl
    · rw [world', show (next.setLastWakeup c).globalTime = _ from time]
      exact holds'

/-- The loop comes to its end: a turn leaves fewer events for its cycle, or the
cycle is a later one. -/
theorem Logged.returns {wakeups : Wakeups κ σ} {I : Int → σ → Prop} (prompt : Prompt wakeups I)
    {t : Int} {m : EventQueue κ σ} (logged : ∃ scheduled woken, Logged m scheduled woken)
    (before : m.globalTime ≤ t) (holds : I m.globalTime m.world) :
    ∃ turns, Fails wakeups I t (m.triggerEvents wakeups turns t) ∨
      ∃ next, m.triggerEvents wakeups turns t = .ok next ∧ I next.globalTime next.world := by
  induction span : (t - m.globalTime).toNat using Nat.strongRecOn generalizing m with
  | _ n ihLater =>
    induction count : m.due using Nat.strongRecOn generalizing m with
    | _ k ihNow =>
      obtain ⟨scheduled, woken, logged⟩ := logged
      rcases nextEvent_cases logged.valid logged.named t with
        ⟨head, _⟩ | ⟨c, time, prioHeap, head, valid, upTo, items, first⟩
      · refine ⟨1, .inr ⟨{ m with globalTime := t }, ?_, prompt.later _ _ _ holds before⟩⟩
        unfold triggerEvents
        rw [head]
        rfl
      · obtain ⟨after, _⟩ := logged.next head
        have after : m.globalTime ≤ time := after
        have opened : ∀ turns, m.triggerEvents wakeups (turns + 1) t =
            EventQueue.triggerWakeup wakeups ⟨prioHeap, time, m.consumers, m.world⟩ c >>=
              triggerEvents wakeups turns t := by
          intro turns
          rw [triggerEvents, head]
          rfl
        have holds := prompt.later _ _ _ holds after
        rcases logged.turn prompt head holds with
          ⟨fault, _, failed, turned⟩ | ⟨next, turned, time', count', holds', logged'⟩
        · refine ⟨1, .inl ⟨c, time, m.world, fault, upTo, holds, failed, ?_⟩⟩
          rw [opened, turned]
          rfl
        have time' : next.globalTime = time := time'
        have rest : ∃ turns, Fails wakeups I t (next.triggerEvents wakeups turns t) ∨
            ∃ last, next.triggerEvents wakeups turns t = .ok last ∧
              I last.globalTime last.world := by
          by_cases same : time = m.globalTime
          · subst same
            refine ihNow _ ?_ logged' (time' ▸ before) holds' (by rw [time']; exact span) rfl
            rw [count', ← count, due, due, items, dueAt_now _ (Int.le_refl _)]
            exact Nat.lt_succ_self _
          · exact ihLater _ (by omega) logged' (time' ▸ upTo) holds' rfl
        obtain ⟨turns, ended⟩ := rest
        refine ⟨turns + 1, ?_⟩
        rw [opened, turned, Loops.ok_bind]
        exact ended

/-- The call of `triggerEvents` on the first queue comes to the wakeup of a consumer,
with the second queue as it is then. -/
inductive Wakes (wakeups : Wakeups κ σ) (t : Int) :
    EventQueue κ σ → κ → EventQueue κ σ → Prop
  | here {m mid : EventQueue κ σ} {c : κ} : m.nextEvent t = .ok (some (c, mid)) →
      (mid.consumers c).lastWakeup ≠ mid.globalTime → Wakes wakeups t m c mid
  | later {m mid next last : EventQueue κ σ} {c c' : κ} : m.nextEvent t = .ok (some (c, mid)) →
      mid.triggerWakeup wakeups c = .ok next → Wakes wakeups t next c' last →
      Wakes wakeups t m c' last

/-- A call that fails, other than for want of turns, fails in the wakeup it has come to. -/
theorem Logged.wakes_of_failed {wakeups : Wakeups κ σ} {I : Int → σ → Prop}
    (prompt : Prompt wakeups I) {t : Int} {fault : Fault} (stopped : fault ≠ .diverges)
    (turns : Nat) :
    ∀ {m : EventQueue κ σ}, (∃ scheduled woken, Logged m scheduled woken) →
      I m.globalTime m.world → m.triggerEvents wakeups turns t = .error fault →
      ∃ c last, Wakes wakeups t m c last ∧ last.globalTime ≤ t ∧ I last.globalTime last.world ∧
        wakeups.wakeup c last.globalTime last.world = .error fault := by
  induction turns with
  | zero =>
    intro m _ _ failed
    cases failed
    exact absurd rfl stopped
  | succ turns ih =>
    rintro m ⟨scheduled, woken, logged⟩ holds failed
    rcases nextEvent_cases logged.valid logged.named t with
      ⟨head, _⟩ | ⟨c, time, prioHeap, head, _, upTo, _⟩
    · rw [triggerEvents, head] at failed
      cases failed
    have after := (logged.next head).1
    rw [triggerEvents, head, Loops.ok_bind] at failed
    dsimp only at failed
    rcases logged.turn prompt head (prompt.later _ _ _ holds after) with
      ⟨fault', asleep, woke, turned⟩ | ⟨next, turned, _, _, holds', logged'⟩
    · rw [turned] at failed
      cases failed
      exact ⟨c, _, .here head asleep, upTo, prompt.later _ _ _ holds after, woke⟩
    · rw [turned, Loops.ok_bind] at failed
      obtain ⟨c', last, wakes, rest⟩ := ih logged' holds' failed
      exact ⟨c', last, .later head turned wakes, rest⟩

/-- If no wakeup schedules for the cycle it is in, every call that moves the time
forward comes back, after any run: it returns, or fails in a wakeup. -/
theorem event_queue_returns {wakeups : Wakeups κ σ} {I : Int → σ → Prop}
    (prompt : Prompt wakeups I) {m : EventQueue κ σ} {scheduled woken : List (κ × Int)}
    (run : Run wakeups m scheduled woken) (holds : I m.globalTime m.world) :
    (∀ c t, m.globalTime < t → ∃ next, m.scheduleEventAbsolute c t = .ok next) ∧
      ∀ t, m.globalTime ≤ t → ∃ turns, Fails wakeups I t (m.triggerEvents wakeups turns t) ∨
        ∃ next events wakes, m.triggerEvents wakeups turns t = .ok next ∧ next.globalTime = t ∧
          I t next.world ∧ Run wakeups next (scheduled ++ events) (woken ++ wakes) := by
  obtain ⟨logged, _⟩ := run.logged
  refine ⟨fun c t => scheduleEventAbsolute_total logged.valid, fun t before => ?_⟩
  obtain ⟨turns, fails | ⟨next, returned, holds'⟩⟩ :=
    Logged.returns prompt ⟨_, _, logged⟩ before holds
  · exact ⟨turns, .inl fails⟩
  · obtain ⟨events, wakes, triggers⟩ := triggers_of_returned returned
    obtain ⟨_, time, _⟩ := Logged.triggers triggers logged before
    exact ⟨turns, .inr ⟨next, events, wakes, returned, time, time ▸ holds',
      run.trigger before triggers⟩⟩

end EventQueue

/-- A consumer that schedules itself for the cycle after the next one. -/
def everyOtherCycle : Wakeups Unit Nat where
  wakeup _ now world := .ok (world + 1, [((), now + 2)])

theorem everyOtherCycle_prompt : EventQueue.Prompt everyOtherCycle fun _ _ => True where
  wakeup := by
    intro _ now _ _ _ _ returned
    cases returned
    simp
  later := fun _ _ _ _ _ => trivial

theorem event_queue_wakes_everyOtherCycle : ∃ m scheduled woken,
    EventQueue.Run everyOtherCycle m scheduled woken ∧ m.globalTime = 4 ∧ ((), 3) ∈ woken := by
  have tested : Loops.returns (fun m : EventQueue Unit Nat => decide (m.globalTime = 4)) (do
      let m ← (EventQueue.init 0).scheduleEventAbsolute () 3
      m.triggerEvents everyOtherCycle 3 4) = true := by
    decide +kernel
  obtain ⟨m, returned, time⟩ := Loops.returns_iff.mp tested
  have time : m.globalTime = 4 := of_decide_eq_true time
  obtain ⟨first, scheduled, returned⟩ := Loops.bind_eq_ok.mp returned
  obtain ⟨events, wakes, triggers⟩ := EventQueue.triggers_of_returned returned
  have start : EventQueue.Run everyOtherCycle first [((), 3)] [] :=
    (EventQueue.Run.init 0).schedule scheduled
  have now : first.globalTime ≤ 4 := by
    rw [((EventQueue.logged_init 0).schedule scheduled).2.1]
    decide
  have run := start.trigger now triggers
  obtain ⟨_, _, woke, _⟩ := EventQueue.event_queue_wakes run
  exact ⟨m, _, _, run, time, (woke () 3).mpr ⟨by simp, by decide, by rw [time]; decide⟩⟩

theorem event_queue_returns_everyOtherCycle :
    ∃ turns next, (EventQueue.init 0).triggerEvents everyOtherCycle turns 100 = .ok next ∧
      next.globalTime = 100 := by
  obtain ⟨_, returns⟩ := EventQueue.event_queue_returns everyOtherCycle_prompt
    (EventQueue.Run.init 0) trivial
  obtain ⟨turns, ⟨_, _, _, _, _, _, failed, _⟩ | ⟨next, _, _, returned, time, _⟩⟩ :=
    returns 100 (by decide)
  · cases failed
  · exact ⟨turns, next, returned, time⟩

end ChainSaw
