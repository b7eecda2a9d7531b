import ChainSaw.Basic
import ChainSaw.Lib.ImplicitHeap
import Mathlib.Algebra.Order.Group.Multiset

set_option autoImplicit false

namespace ChainSaw

open Function (update)
open ImplicitHeap

/-- The types a `PrioHeap` is used at, each with its `node_less_then_eq`. -/
class HeapNode (α : Type) where
  nodeLessThenEq : α → α → Result Bool

export HeapNode (nodeLessThenEq)

/-- `PrioHeap`: `m_heap` is a `Vector` with `m_size` entries in use, entry 0 of which
holds nothing. Entries past them keep what was last written there. Sizes are taken
to stay below the `int` capacity of `Vector`. -/
structure PrioHeap (α : Type) where
  heap : Nat → α
  heapSize : Nat
  currentSize : Nat

def getParent (i : Nat) : Nat := i >>> 1

def getRight (i : Nat) : Nat := (i <<< 1) ||| 1

def getLeft (i : Nat) : Nat := i <<< 1

namespace PrioHeap

variable {α : Type}

/-- A default-constructed heap; the entries of a new array are default values. -/
def init [Inhabited α] : PrioHeap α := ⟨fun _ => default, 0, 0⟩

def size (q : PrioHeap α) : Nat := q.currentSize

/-- `Vector::ref`, with its bounds check. -/
def ref (q : PrioHeap α) (index : Nat) : Result α :=
  if index < q.heapSize then .ok (q.heap index) else .error (.assertion "index < m_size")

/-- An assignment through `Vector::ref`. -/
def assign (q : PrioHeap α) (index : Nat) (a : α) : Result (PrioHeap α) :=
  if index < q.heapSize then .ok { q with heap := update q.heap index a }
  else .error (.assertion "index < m_size")

/-- `prio_heap_swap`. -/
def prioHeapSwap (q : PrioHeap α) (i j : Nat) : Result (PrioHeap α) := do
  let temp ← q.ref i
  let other ← q.ref j
  let q ← q.assign i other
  q.assign j temp

@[simp] theorem getParent_eq (i : Nat) : getParent i = i / 2 := by
  simp [getParent, Nat.shiftRight_eq_div_pow]

@[simp] theorem getLeft_eq (i : Nat) : getLeft i = 2 * i := by
  simp [getLeft, Nat.shiftLeft_eq, Nat.mul_comm]

@[simp] theorem getRight_eq (i : Nat) : getRight i = 2 * i + 1 := by
  have shifted := Nat.shiftLeft_add_eq_or_of_lt (b := 1) (i := 1) (by decide) i
  rw [getRight, ← shifted, Nat.shiftLeft_eq]
  omega

theorem ref_eq {q : PrioHeap α} {i : Nat} (inside : i < q.heapSize) : q.ref i = .ok (q.heap i) :=
  if_pos inside

theorem assign_eq {q : PrioHeap α} {i : Nat} (inside : i < q.heapSize) (a : α) :
    q.assign i a = .ok { q with heap := update q.heap i a } :=
  if_pos inside

theorem prioHeapSwap_eq {q : PrioHeap α} {i j : Nat} (insideI : i < q.heapSize)
    (insideJ : j < q.heapSize) :
    q.prioHeapSwap i j = .ok { q with heap := swap q.heap i j } := by
  unfold prioHeapSwap
  rw [ref_eq insideI, Loops.ok_bind, ref_eq insideJ, Loops.ok_bind, assign_eq insideI,
    Loops.ok_bind]
  exact assign_eq (q := ⟨update q.heap i (q.heap j), q.heapSize, q.currentSize⟩) insideJ _

/-- The nodes in the heap. -/
def items (q : PrioHeap α) : Multiset α := ImplicitHeap.items q.heap q.currentSize

/-- The array has room for the nodes, and none comes before its parent. -/
structure Valid (le : α → α → Prop) (q : PrioHeap α) : Prop where
  room : 0 < q.currentSize → q.currentSize < q.heapSize
  ordered : Ordered le q.heap q.currentSize

variable [HeapNode α]

/-- The loop of `insert` and the write behind it; the first argument bounds the
number of turns. -/
def shiftUp (key : α) : Nat → Nat → PrioHeap α → Result (PrioHeap α)
  | 0, _, _ => .error .diverges
  | turns + 1, i, q =>
    if 1 < i then do
      let parent ← q.ref (getParent i)
      if ← nodeLessThenEq key parent then do
        let q ← q.assign i parent
        shiftUp key turns (getParent i) q
      else q.assign i key
    else q.assign i key

/-- The lines of `insert` before its loop: room for one more node, and a value in
entry 0. -/
def grow (q : PrioHeap α) (key : α) : Result (PrioHeap α) :=
  let q : PrioHeap α :=
    { q with currentSize := q.currentSize + 1, heapSize := q.currentSize + 2 }
  if q.currentSize = 1 then q.assign 0 key else .ok q

def insert (q : PrioHeap α) (key : α) : Result (PrioHeap α) := do
  let q ← q.grow key
  shiftUp key q.currentSize q.currentSize q

def peekMin (q : PrioHeap α) : Result α := do
  check (0 < q.size) "size() > 0"
  q.ref 1

/-- One comparison of `heapify`: `child`, if it is in the heap and not after `least`. -/
def earlier (q : PrioHeap α) (child least : Nat) : Result Nat :=
  if child ≤ q.currentSize then do
    let node ← q.ref child
    let key ← q.ref least
    pure (if ← nodeLessThenEq node key then child else least)
  else .ok least

/-- The smallest of a node and its children. -/
def smallest (q : PrioHeap α) (node : Nat) : Result Nat := do
  let least ← q.earlier (getLeft node) node
  q.earlier (getRight node) least

/-- The loop of `heapify`; the first argument bounds the number of turns. -/
def heapifyFrom : Nat → Nat → PrioHeap α → Result (PrioHeap α)
  | 0, _, _ => .error .diverges
  | turns + 1, node, q => do
    let least ← q.smallest node
    if least = node then pure q
    else do
      let q ← q.prioHeapSwap node least
      heapifyFrom turns least q

def heapify (q : PrioHeap α) : Result (PrioHeap α) := heapifyFrom (q.currentSize + 1) 1 q

def extractMin (q : PrioHeap α) : Result (α × PrioHeap α) := do
  check (0 < q.size) "size() > 0"
  let temp ← q.ref 1
  let last ← q.ref q.currentSize
  let q ← q.assign 1 last
  let q ← { q with currentSize := q.currentSize - 1 }.heapify
  pure (temp, q)

/-- The test of `verifyHeap` at an index. -/
def inOrder (q : PrioHeap α) (index : Nat) : Result Bool :=
  if index = 1 then .ok true
  else do
    let parent ← q.ref (getParent index)
    let node ← q.ref index
    nodeLessThenEq parent node

/-- `verifyHeap` below an index; the first argument bounds the depth of the recursion. -/
def verifyFrom (q : PrioHeap α) : Nat → Nat → Result Bool
  | 0, _ => .error .diverges
  | depth + 1, index =>
    if q.currentSize < index then .ok true
    else do
      if ← q.inOrder index then do
        if ← verifyFrom q depth (getRight index) then verifyFrom q depth (getLeft index)
        else .ok false
      else .ok false

def verifyHeap (q : PrioHeap α) : Result Bool := q.verifyFrom (q.currentSize + 1) 1

/-- `node_less_then_eq` answers on nodes that may be compared, and decides the order. -/
def Compares (le S : α → α → Prop) : Prop :=
  ∀ a b, S a b → ∃ answer, nodeLessThenEq a b = .ok answer ∧ (answer = true ↔ le a b)

section order

variable {le S : α → α → Prop} [IsTrans α le] [Std.Total le] (compares : Compares le S)
include compares

theorem shiftUp_ok {turns : Nat} {key : α} : ∀ {i : Nat} {q : PrioHeap α}, i ≤ turns → 1 ≤ i →
    i ≤ q.currentSize → q.currentSize < q.heapSize →
    Rising le (update q.heap i key) q.currentSize i →
    Apart S (ImplicitHeap.items (update q.heap i key) q.currentSize) →
    ∃ h, shiftUp key turns i q = .ok { q with heap := h } ∧ Ordered le h q.currentSize ∧
      ImplicitHeap.items h q.currentSize =
        ImplicitHeap.items (update q.heap i key) q.currentSize := by
  induction turns with
  | zero => intro i q enough positive; omega
  | succ turns ih =>
    intro i q enough positive inside room rising apart
    unfold shiftUp
    have placed := assign_eq (q := q) (i := i) (by omega) key
    by_cases inner : 1 < i
    · rw [if_pos inner, getParent_eq, ref_eq (by omega), Loops.ok_bind]
      have other : i ≠ i / 2 := by omega
      have related := apart.entries positive inside (by omega : 1 ≤ i / 2) (by omega) other
      rw [Function.update_self, Function.update_of_ne other.symm] at related
      obtain ⟨answer, compared, isLe⟩ := compares _ _ related
      rw [compared, Loops.ok_bind]
      cases answer with
      | true =>
        have before : le (update q.heap i key i) (update q.heap i key (i / 2)) := by
          rw [Function.update_self, Function.update_of_ne other.symm]
          exact isLe.mp rfl
        -- the key stays out of the array: writing it at the parent is the swap
        have swapped : update (update q.heap i (q.heap (i / 2))) (i / 2) key =
            swap (update q.heap i key) i (i / 2) := by
          unfold swap
          rw [Function.update_self, Function.update_of_ne other.symm, Function.update_idem]
        have kept := items_swap (h := update q.heap i key) positive inside
          (by omega : 1 ≤ i / 2) (by omega)
        have moved := rising.move inner inside before
        rw [← swapped] at kept moved
        obtain ⟨h, returned, ordered, same⟩ := ih (i := i / 2)
          (q := ⟨update q.heap i (q.heap (i / 2)), q.heapSize, q.currentSize⟩) (by omega) (by omega)
          (by dsimp only; omega) room moved (by rw [kept]; exact apart)
        refine ⟨h, ?_, ordered, same.trans kept⟩
        rw [if_pos rfl, assign_eq (by omega), Loops.ok_bind]
        exact returned
      | false =>
        refine ⟨_, placed, rising.finish fun _ => ?_, rfl⟩
        have after : ¬ le key (q.heap (i / 2)) := fun before => Bool.false_ne_true (isLe.mpr before)
        rw [Function.update_self, Function.update_of_ne other.symm]
        exact (Std.Total.total _ _).resolve_left after
    · rw [if_neg inner]
      exact ⟨_, placed, rising.finish fun positive => absurd positive inner, rfl⟩

omit [HeapNode α] [IsTrans α le] [Std.Total le] compares in
theorem grow_ok (q : PrioHeap α) (key : α) :
    ∃ h, q.grow key = .ok ⟨h, q.currentSize + 2, q.currentSize + 1⟩ ∧
      ∀ i, 1 ≤ i → i ≤ q.currentSize → h i = q.heap i := by
  unfold grow
  dsimp only
  by_cases first : q.currentSize + 1 = 1
  · rw [if_pos first]
    exact ⟨_, assign_eq (by dsimp only; omega) key, fun i positive inside => by omega⟩
  · rw [if_neg first]
    exact ⟨q.heap, rfl, fun _ _ _ => rfl⟩

/-- `insert` adds its key to the nodes. -/
theorem insert_ok {q : PrioHeap α} (valid : q.Valid le) {key : α}
    (apart : Apart S (key ::ₘ q.items)) :
    ∃ next, q.insert key = .ok next ∧ next.Valid le ∧ next.items = key ::ₘ q.items := by
  obtain ⟨h, grown, same⟩ := q.grow_ok key
  have added : ImplicitHeap.items (update h (q.currentSize + 1) key) (q.currentSize + 1) =
      key ::ₘ q.items := by
    rw [items_succ, Function.update_self, items_update_outside (Nat.lt_succ_self _),
      items_congr same]
    rfl
  have ordered := valid.ordered.congr fun i positive inside => (same i positive inside).symm
  obtain ⟨final, returned, ordered, kept⟩ := shiftUp_ok compares
    (q := ⟨h, q.currentSize + 2, q.currentSize + 1⟩) le_rfl (Nat.succ_pos _) le_rfl
    (Nat.lt_succ_self _) (ordered.rising key) (by rw [added]; exact apart)
  refine ⟨⟨final, q.currentSize + 2, q.currentSize + 1⟩, ?_,
    ⟨fun _ => Nat.lt_succ_self _, ordered⟩, kept.trans added⟩
  unfold insert
  rw [grown, Loops.ok_bind]
  exact returned

omit [IsTrans α le] in
theorem earlier_ok {q : PrioHeap α} {child least : Nat} (positive : 1 ≤ child) (apart : child ≠ least)
    (positiveL : 1 ≤ least) (insideL : least ≤ q.currentSize) (room : q.currentSize < q.heapSize)
    (related : Apart S q.items) :
    ∃ next, q.earlier child least = .ok next ∧
      (next = least ∨ (next = child ∧ child ≤ q.currentSize)) ∧
      le (q.heap next) (q.heap least) ∧
      (child ≤ q.currentSize → le (q.heap next) (q.heap child)) := by
  have reflexive : ∀ a, le a a := fun a => (Std.Total.total a a).elim id id
  unfold earlier
  by_cases inside : child ≤ q.currentSize
  · obtain ⟨answer, compared, isLe⟩ :=
      compares _ _ (related.entries positive inside positiveL insideL apart)
    rw [if_pos inside, ref_eq (by omega), Loops.ok_bind, ref_eq (by omega), Loops.ok_bind, compared,
      Loops.ok_bind]
    cases answer with
    | true => exact ⟨child, rfl, .inr ⟨rfl, inside⟩, isLe.mp rfl, fun _ => reflexive _⟩
    | false =>
      have after : ¬ le (q.heap child) (q.heap least) :=
        fun before => Bool.false_ne_true (isLe.mpr before)
      exact ⟨least, rfl, .inl rfl, reflexive _, fun _ => (Std.Total.total _ _).resolve_left after⟩
  · rw [if_neg inside]
    exact ⟨least, rfl, .inl rfl, reflexive _, fun within => absurd within inside⟩

/-- `smallest` is a node or its child, and comes before all of them. -/
theorem smallest_ok {q : PrioHeap α} {node : Nat} (positive : 1 ≤ node)
    (inside : node ≤ q.currentSize) (room : q.currentSize < q.heapSize)
    (related : Apart S q.items) :
    ∃ least, q.smallest node = .ok least ∧
      (least = node ∨ (least / 2 = node ∧ least ≤ q.currentSize)) ∧
      le (q.heap least) (q.heap node) ∧
      ∀ j, 1 < j → j ≤ q.currentSize → j / 2 = node → le (q.heap least) (q.heap j) := by
  obtain ⟨first, chosen, isFirst, beforeNode, beforeLeft⟩ := earlier_ok compares
    (by omega : 1 ≤ 2 * node) (by omega) positive inside room related
  obtain ⟨least, picked, isLeast, beforeFirst, beforeRight⟩ := earlier_ok compares
    (by omega : 1 ≤ 2 * node + 1) (by omega : 2 * node + 1 ≠ first) (by omega : 1 ≤ first) (by omega)
    room related
  refine ⟨least, ?_, by omega, trans_of le beforeFirst beforeNode, ?_⟩
  · unfold smallest
    rw [getLeft_eq, getRight_eq, chosen, Loops.ok_bind]
    exact picked
  · intro j _ insideJ child
    rcases (by omega : j = 2 * node ∨ j = 2 * node + 1) with rfl | rfl
    · exact trans_of le beforeFirst (beforeLeft insideJ)
    · exact beforeRight insideJ

theorem heapifyFrom_ok {turns : Nat} : ∀ {node : Nat} {q : PrioHeap α},
    q.currentSize + 1 ≤ turns + node → 1 ≤ node → node ≤ q.currentSize →
    q.currentSize < q.heapSize → Sinking le q.heap q.currentSize node → Apart S q.items →
    ∃ h, heapifyFrom turns node q = .ok { q with heap := h } ∧ Ordered le h q.currentSize ∧
      ImplicitHeap.items h q.currentSize = q.items := by
  induction turns with
  | zero => intro node q enough; omega
  | succ turns ih =>
    intro node q enough positive inside room sinking related
    obtain ⟨least, picked, isLeast, before, beforeAll⟩ :=
      smallest_ok compares positive inside room related
    unfold heapifyFrom
    rw [picked, Loops.ok_bind]
    by_cases settled : least = node
    · rw [if_pos settled]
      subst settled
      exact ⟨q.heap, rfl, sinking.finish beforeAll, rfl⟩
    · obtain ⟨child, insideL⟩ := isLeast.resolve_left settled
      rw [if_neg settled, prioHeapSwap_eq (by omega) (by omega), Loops.ok_bind]
      have kept := items_swap (h := q.heap) positive inside (by omega : 1 ≤ least) insideL
      obtain ⟨h, returned, ordered, same⟩ := @ih least
        ⟨swap q.heap node least, q.heapSize, q.currentSize⟩ (by dsimp only; omega) (by omega)
        insideL room (sinking.move positive child insideL before beforeAll)
        (by rw [items, kept]; exact related)
      exact ⟨h, returned, ordered, same.trans kept⟩

/-- `extractMin` takes away a node that no node comes before. -/
theorem extractMin_ok {q : PrioHeap α} (valid : q.Valid le) (nonempty : 0 < q.currentSize)
    (related : Apart S q.items) :
    ∃ least next, q.extractMin = .ok (least, next) ∧ q.peekMin = .ok least ∧ next.Valid le ∧
      q.items = least ::ₘ next.items ∧ ∀ a ∈ q.items, le least a := by
  have room := valid.room nonempty
  have first : ∀ a ∈ q.items, le (q.heap 1) a := by
    intro a member
    obtain ⟨i, positive, inside, rfl⟩ := mem_items.mp member
    exact valid.ordered.root_le i positive inside
  obtain ⟨n, size⟩ : ∃ n, q.currentSize = n + 1 := ⟨q.currentSize - 1, by omega⟩
  let moved : PrioHeap α := ⟨update q.heap 1 (q.heap q.currentSize), q.heapSize, n⟩
  have taken : q.items = q.heap 1 ::ₘ moved.items := by
    have replaced := items_update (h := q.heap) le_rfl nonempty (q.heap q.currentSize)
    rw [size, items_succ] at replaced
    by_cases last : n = 0
    · rw [items, size, last, items_succ, items, items_zero]
      simp [moved, last, items_zero]
    · rw [Function.update_of_ne (by omega), Multiset.cons_swap] at replaced
      have rest := (Multiset.cons_inj_right _).mp replaced
      rw [items, size, ← rest]
      simp only [moved, items, size]
  have positive : check (decide (0 < q.size)) "size() > 0" = .ok () :=
    check_eq_ok.mpr (decide_eq_true nonempty)
  have opened : q.extractMin = moved.heapify >>= fun next => .ok (q.heap 1, next) := by
    unfold extractMin
    rw [positive, Loops.ok_bind, ref_eq (by omega), Loops.ok_bind, ref_eq room, Loops.ok_bind,
      assign_eq (by omega), Loops.ok_bind]
    simp [moved, size]
  have peeked : q.peekMin = .ok (q.heap 1) := by
    unfold peekMin
    rw [positive, Loops.ok_bind]
    exact ref_eq (by omega)
  obtain ⟨next, heaped, valid', same⟩ : ∃ next, moved.heapify = .ok next ∧ next.Valid le ∧
      next.items = moved.items := by
    by_cases last : n = 0
    · refine ⟨moved, ?_, ⟨fun positive => ?_, fun i positive inside => ?_⟩, rfl⟩
      · simp [heapify, heapifyFrom, smallest, earlier, moved, last]
      · dsimp only [moved] at positive
        omega
      · dsimp only [moved] at inside
        omega
    · have sinking := (valid.ordered.mono (by omega : n ≤ q.currentSize)).sinking
        (q.heap q.currentSize)
      have fewer : moved.items ≤ q.items := taken ▸ Multiset.le_cons_self _ _
      obtain ⟨h, returned, ordered, same⟩ := heapifyFrom_ok compares (q := moved)
        (by omega : moved.currentSize + 1 ≤ moved.currentSize + 1 + 1) le_rfl
        (by dsimp only [moved]; omega) (by dsimp only [moved]; omega) sinking (related.mono fewer)
      exact ⟨_, returned, ⟨fun _ => by dsimp only [moved]; omega, ordered⟩, same⟩
  refine ⟨q.heap 1, next, ?_, peeked, valid', taken.trans (by rw [same]), first⟩
  rw [opened, heaped]
  rfl

omit [IsTrans α le] [Std.Total le] in
theorem inOrder_ok {q : PrioHeap α} {index : Nat} (positive : 1 ≤ index)
    (inside : index ≤ q.currentSize) (room : q.currentSize < q.heapSize)
    (related : Apart S q.items) :
    ∃ answer, q.inOrder index = .ok answer ∧
      (answer = true ↔ (1 < index → le (q.heap (index / 2)) (q.heap index))) := by
  unfold inOrder
  by_cases root : index = 1
  · rw [if_pos root]
    exact ⟨true, rfl, fun _ inner => by omega, fun _ => rfl⟩
  · obtain ⟨answer, compared, isLe⟩ := compares _ _ (related.entries
      (by omega : 1 ≤ index / 2) (by omega) positive inside (by omega))
    rw [if_neg root, getParent_eq, ref_eq (by omega), Loops.ok_bind, ref_eq (by omega),
      Loops.ok_bind]
    exact ⟨answer, compared, isLe.trans ⟨fun holds _ => holds, fun holds => holds (by omega)⟩⟩

omit [IsTrans α le] [Std.Total le] in
theorem verifyFrom_ok {q : PrioHeap α} (room : 0 < q.currentSize → q.currentSize < q.heapSize)
    (related : Apart S q.items) {depth : Nat} : ∀ {index : Nat}, 1 ≤ index → 1 ≤ depth →
    q.currentSize + 2 ≤ depth + index →
    ∃ answer, q.verifyFrom depth index = .ok answer ∧ (answer = true ↔
      ∀ j, Below index j → 1 < j → j ≤ q.currentSize → le (q.heap (j / 2)) (q.heap j)) := by
  induction depth with
  | zero =>
    intro index _ positive
    omega
  | succ depth ih =>
    intro index positive _ enough
    unfold verifyFrom
    by_cases outside : q.currentSize < index
    · rw [if_pos outside]
      refine ⟨true, rfl, fun _ j below _ inside => ?_, fun _ => rfl⟩
      have := below.le
      omega
    · obtain ⟨above, compared, isAbove⟩ :=
        inOrder_ok compares positive (by omega) (room (by omega)) related
      obtain ⟨right, verifiedR, isRight⟩ := @ih (2 * index + 1) (by omega) (by omega) (by omega)
      obtain ⟨left, verifiedL, isLeft⟩ := @ih (2 * index) (by omega) (by omega) (by omega)
      rw [if_neg outside, compared, Loops.ok_bind, getRight_eq, getLeft_eq]
      -- the entries below an index are the index and those below its two children
      have parts : (∀ j, Below index j → 1 < j → j ≤ q.currentSize →
          le (q.heap (j / 2)) (q.heap j)) ↔ above = true ∧ right = true ∧ left = true := by
        rw [isAbove, isRight, isLeft]
        constructor
        · intro all
          exact ⟨fun inner => all index (below_iff.mpr (.inl rfl)) inner (by omega),
            fun j below => all j (below_iff.mpr (.inr (.inr below))),
            fun j below => all j (below_iff.mpr (.inr (.inl below)))⟩
        · rintro ⟨here, onRight, onLeft⟩ j below
          rcases below_iff.mp below with rfl | below | below
          · exact fun inner _ => here inner
          · exact onLeft j below
          · exact onRight j below
      rw [parts]
      cases above with
      | false => exact ⟨false, rfl, by simp⟩
      | true =>
        rw [if_pos rfl, verifiedR, Loops.ok_bind]
        cases right with
        | false => exact ⟨false, rfl, by simp⟩
        | true => exact ⟨left, verifiedL, by simp⟩

omit [IsTrans α le] [Std.Total le] in
/-- `verifyHeap` decides whether the nodes are in order. -/
theorem verifyHeap_ok {q : PrioHeap α} (room : 0 < q.currentSize → q.currentSize < q.heapSize)
    (related : Apart S q.items) :
    ∃ answer, q.verifyHeap = .ok answer ∧
      (answer = true ↔ Ordered le q.heap q.currentSize) := by
  obtain ⟨answer, verified, isOrdered⟩ := verifyFrom_ok compares room related le_rfl
    (Nat.succ_pos _) (le_rfl : q.currentSize + 2 ≤ q.currentSize + 1 + 1)
  refine ⟨answer, verified, isOrdered.trans ⟨fun all j => ?_, fun ordered j _ => ordered j⟩⟩
  intro positive
  exact all j (below_root j (by omega)) positive

end order

/-- The heaps that calls from the empty heap lead to, with the keys inserted and
the nodes extracted so far, the last ones first. -/
inductive Run [Inhabited α] : PrioHeap α → List α → List α → Prop
  | init : Run init [] []
  | insert {q next : PrioHeap α} {inserted extracted : List α} {key : α} :
      Run q inserted extracted → q.insert key = .ok next → Run next (key :: inserted) extracted
  | extractMin {q next : PrioHeap α} {inserted extracted : List α} {least : α} :
      Run q inserted extracted → q.extractMin = .ok (least, next) →
      Run next inserted (least :: extracted)

section run

variable {le S : α → α → Prop} [IsTrans α le] [Std.Total le] [Inhabited α]

omit [HeapNode α] [IsTrans α le] [Std.Total le] in
theorem valid_init : (init : PrioHeap α).Valid le := by
  refine ⟨fun positive => ?_, fun i positive inside => ?_⟩
  · exact absurd positive (Nat.lt_irrefl 0)
  · have inside : i ≤ 0 := inside
    omega

theorem Run.valid (compares : Compares le S) {q : PrioHeap α} {inserted extracted : List α}
    (run : Run q inserted extracted) (related : Apart S (inserted : Multiset α)) :
    q.Valid le ∧ q.items + (extracted : Multiset α) = (inserted : Multiset α) := by
  induction run with
  | init => exact ⟨valid_init, rfl⟩
  | @insert q next inserted extracted key _ returned ih =>
    rw [← Multiset.cons_coe] at related ⊢
    obtain ⟨valid, balance⟩ := ih (related.mono (Multiset.le_cons_self _ _))
    have held : key ::ₘ q.items ≤ key ::ₘ (inserted : Multiset α) := by
      rw [← balance]
      exact Multiset.cons_le_cons key (Multiset.le_add_right _ _)
    obtain ⟨next', returned', valid', items⟩ := insert_ok compares valid (related.mono held)
    rw [returned] at returned'
    cases returned'
    exact ⟨valid', by rw [items, Multiset.cons_add, balance]⟩
  | @extractMin q next inserted extracted least _ returned ih =>
    obtain ⟨valid, balance⟩ := ih related
    have nonempty : 0 < q.currentSize := by
      obtain ⟨_, checked, _⟩ := Loops.bind_eq_ok.mp returned
      exact of_decide_eq_true (check_eq_ok.mp checked)
    have held : q.items ≤ (inserted : Multiset α) := balance ▸ Multiset.le_add_right _ _
    obtain ⟨least', next', returned', _, valid', items, _⟩ :=
      extractMin_ok compares valid nonempty (related.mono held)
    rw [returned] at returned'
    cases returned'
    refine ⟨valid', ?_⟩
    rw [← balance, items, ← Multiset.cons_coe, Multiset.add_cons, Multiset.cons_add]

/-- `PrioHeap` is a priority queue, after any sequence of calls on keys that
`node_less_then_eq` can compare: the nodes in it are those inserted and not
extracted, `verifyHeap` accepts it, no call runs into a bounds check, and
`extractMin` fails exactly on the empty heap and otherwise takes away a node that
no other one comes before. -/
theorem prio_heap_calls (compares : Compares le S) {q : PrioHeap α} {inserted extracted : List α}
    (run : Run q inserted extracted) (related : Apart S (inserted : Multiset α)) :
    q.items + (extracted : Multiset α) = (inserted : Multiset α) ∧ q.size = q.items.card ∧
      q.verifyHeap = .ok true ∧
      (∀ key, Apart S (key ::ₘ (inserted : Multiset α)) →
        ∃ next, q.insert key = .ok next ∧ next.items = key ::ₘ q.items) ∧
      (q.items = 0 → q.extractMin = .error (.assertion "size() > 0")) ∧
      (q.items ≠ 0 → ∃ least next, q.extractMin = .ok (least, next) ∧ q.peekMin = .ok least ∧
        q.items = least ::ₘ next.items ∧ ∀ a ∈ q.items, le least a) := by
  obtain ⟨valid, balance⟩ := run.valid compares related
  have held : q.items ≤ (inserted : Multiset α) := balance ▸ Multiset.le_add_right _ _
  have size : q.items.card = q.currentSize := card_items _ _
  refine ⟨balance, size.symm, ?_, ?_, ?_, ?_⟩
  · obtain ⟨answer, verified, isOrdered⟩ :=
      verifyHeap_ok compares valid.room (related.mono held)
    rw [verified, isOrdered.mpr valid.ordered]
  · intro key apart
    obtain ⟨next, returned, _, items⟩ :=
      insert_ok compares valid (apart.mono (Multiset.cons_le_cons key held))
    exact ⟨next, returned, items⟩
  · intro empty
    rw [empty, Multiset.card_zero] at size
    unfold extractMin
    simp [PrioHeap.size, ← size, check]
    rfl
  · intro nonempty
    have positive : 0 < q.currentSize := by
      rw [← size]
      exact Multiset.card_pos.mpr nonempty
    obtain ⟨least, next, returned, peeked, _, items, first⟩ :=
      extractMin_ok compares valid positive (related.mono held)
    exact ⟨least, next, returned, peeked, items, first⟩

end run

end PrioHeap

/-- `EventQueueNode`; a `Time` is a 64-bit cycle count. -/
structure EventQueueNode (κ : Type) where
  time : Int
  consumer : Option κ
deriving DecidableEq, Repr, Inhabited

namespace EventQueueNode

variable {κ : Type}

instance : HeapNode (EventQueueNode κ) where
  nodeLessThenEq n1 n2 := .ok (decide (n1.time ≤ n2.time))

def le (n1 n2 : EventQueueNode κ) : Prop := n1.time ≤ n2.time

instance : IsTrans (EventQueueNode κ) le where
  trans _ _ _ first second := Int.le_trans first second

instance : Std.Total (le : EventQueueNode κ → EventQueueNode κ → Prop) where
  total n1 n2 := Int.le_total n1.time n2.time

theorem compares : PrioHeap.Compares (le : EventQueueNode κ → EventQueueNode κ → Prop)
    (fun _ _ => True) :=
  fun n1 n2 _ => ⟨decide (n1.time ≤ n2.time), rfl, decide_eq_true_iff⟩

end EventQueueNode

theorem prio_heap_calls_threeEvents :
    ∃ q : PrioHeap (EventQueueNode Unit), PrioHeap.Run q [⟨4, ()⟩, ⟨3, ()⟩, ⟨5, ()⟩] [⟨3, ()⟩] ∧
      q.items = {⟨4, ()⟩, ⟨5, ()⟩} ∧ q.verifyHeap = .ok true := by
  have tested : Loops.returns (fun e : EventQueueNode Unit × PrioHeap (EventQueueNode Unit) =>
      decide (e.1 = ⟨3, ()⟩)) (do
        let q ← PrioHeap.init.insert ⟨5, ()⟩
        let q ← q.insert ⟨3, ()⟩
        let q ← q.insert ⟨4, ()⟩
        q.extractMin) = true := by
    decide +kernel
  obtain ⟨⟨least, q⟩, returned, isLeast⟩ := Loops.returns_iff.mp tested
  obtain ⟨first, inserted, returned⟩ := Loops.bind_eq_ok.mp returned
  obtain ⟨second, inserted', returned⟩ := Loops.bind_eq_ok.mp returned
  obtain ⟨third, inserted'', extracted⟩ := Loops.bind_eq_ok.mp returned
  have isLeast : least = ⟨3, ()⟩ := of_decide_eq_true isLeast
  subst isLeast
  have run := (((PrioHeap.Run.init.insert inserted).insert inserted').insert inserted'').extractMin
    extracted
  obtain ⟨balance, _, verified, _⟩ :=
    PrioHeap.prio_heap_calls EventQueueNode.compares run (fun _ _ _ => trivial)
  refine ⟨q, run, ?_, verified⟩
  have parts : Multiset.ofList [⟨4, ()⟩, ⟨3, ()⟩, ⟨5, ()⟩] =
      ({⟨4, ()⟩, ⟨5, ()⟩} : Multiset (EventQueueNode Unit)) + Multiset.ofList [⟨3, ()⟩] := by
    decide
  rw [parts] at balance
  exact add_right_cancel balance

end ChainSaw
