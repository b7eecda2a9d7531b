import Mathlib.Data.Set.Insert
import Mathlib.Logic.Function.Basic
import Mathlib.Logic.Relation
import Mathlib.Tactic.Tauto

set_option autoImplicit false

/- Dataflow machines. Tasks wait in lanes until their parents have reported; a
lane that loads a task queues its items, and works them off in their order. -/
namespace Dataflow

open Function (update update_of_ne)
open Relation (TransGen)

/-- A task waits for its parents, and reports with every item of its own that is
finished. -/
structure Tasks (τ α : Type) where
  parent : τ → τ → Prop
  work : τ → List α
  owner : α → τ

@[ext] structure State (ι τ α : Type) where
  waiting : ι → List τ
  queue : ι → List α
  reported : Set τ

inductive Event (ι τ α : Type) where
  | finish (i : ι) (a : α)
  | load (i : ι) (t : τ)

variable {ι τ α : Type}

def Ready (tasks : Tasks τ α) (s : State ι τ α) (t : τ) : Prop :=
  ∀ p, tasks.parent p t → p ∈ s.reported

def finishedItem : Event ι τ α → Option α
  | .finish _ a => some a
  | .load _ _ => none

def finished (events : List (Event ι τ α)) : List α := events.filterMap finishedItem

/-- Every lane of the list finishes an item. -/
def finishAll (items : List (ι × α)) : List (Event ι τ α) := items.map fun e => .finish e.1 e.2

@[simp] theorem finished_append (events later : List (Event ι τ α)) :
    finished (events ++ later) = finished events ++ finished later := List.filterMap_append

@[simp] theorem finished_finishAll (items : List (ι × α)) :
    finished (finishAll items : List (Event ι τ α)) = items.map Prod.snd := by
  simp [finished, finishAll, List.filterMap_map, Function.comp_def, finishedItem]

variable [DecidableEq ι] {tasks : Tasks τ α}

/-- A lane finishes the first item of its queue, or loads the first of its tasks
that is ready. -/
inductive Step (tasks : Tasks τ α) : State ι τ α → Event ι τ α → State ι τ α → Prop
  | finish {s : State ι τ α} {i : ι} {a : α} {rest : List α} : s.queue i = a :: rest →
      Step tasks s (.finish i a)
        { s with queue := update s.queue i rest, reported := insert (tasks.owner a) s.reported }
  | load {s : State ι τ α} {i : ι} {t : τ} {before after : List τ} :
      s.waiting i = before ++ t :: after → (∀ u ∈ before, ¬ Ready tasks s u) → Ready tasks s t →
      Step tasks s (.load i t)
        { s with
          waiting := update s.waiting i (before ++ after)
          queue := update s.queue i (s.queue i ++ tasks.work t) }

inductive Run (tasks : Tasks τ α) (start : State ι τ α) : List (Event ι τ α) → State ι τ α → Prop
  | nil : Run tasks start [] start
  | step {events : List (Event ι τ α)} {s next : State ι τ α} {e : Event ι τ α} :
      Run tasks start events s → Step tasks s e next → Run tasks start (events ++ [e]) next

def finishedOn (i : ι) : Event ι τ α → Option α
  | .finish j a => if j = i then some a else none
  | .load _ _ => none

def loadedOn (i : ι) : Event ι τ α → Option τ
  | .finish _ _ => none
  | .load j t => if j = i then some t else none

@[simp] theorem loadedOn_finishAll (i : ι) (items : List (ι × α)) :
    (finishAll items : List (Event ι τ α)).filterMap (loadedOn i) = [] := by
  simp [finishAll, List.filterMap_map, Function.comp_def, loadedOn]

namespace Run

variable {start mid s : State ι τ α} {events later : List (Event ι τ α)}

theorem single {e : Event ι τ α} (step : Step tasks start e s) : Run tasks start [e] s :=
  Run.nil.step step

theorem trans (run : Run tasks start events mid) (rest : Run tasks mid later s) :
    Run tasks start (events ++ later) s := by
  induction rest with
  | nil => rwa [List.append_nil]
  | step _ next ih =>
    rw [← List.append_assoc]
    exact ih.step next

/-- The step that an event of a run stands for. -/
theorem at_event (run : Run tasks start events s) {before after : List (Event ι τ α)}
    {e : Event ι τ α} (split : events = before ++ e :: after) :
    ∃ here next, Run tasks start before here ∧ Step tasks here e next := by
  induction run generalizing after with
  | nil => exact absurd split.symm (by simp)
  | @step events here next e' run step ih =>
    rcases List.eq_nil_or_concat after with rfl | ⟨after, last, rfl⟩
    · obtain ⟨rfl, same⟩ := List.append_inj' split rfl
      cases same
      exact ⟨here, next, run, step⟩
    · have split : events ++ [e'] = (before ++ e :: after) ++ [last] := by simpa using split
      exact ih (List.append_inj' split rfl).1

theorem reported (run : Run tasks start events s) :
    s.reported = start.reported ∪ {t | ∃ i a, .finish i a ∈ events ∧ tasks.owner a = t} := by
  induction run with
  | nil => simp
  | step run step ih =>
    cases step with
    | @finish i a _ _ =>
      ext t
      rw [Set.mem_insert_iff, ih]
      simp only [Set.mem_union, Set.mem_ofPred_eq, List.mem_append, List.mem_singleton,
        Event.finish.injEq]
      constructor
      · rintro (rfl | early | ⟨j, b, member, owns⟩)
        · exact .inr ⟨i, a, .inr ⟨rfl, rfl⟩, rfl⟩
        · exact .inl early
        · exact .inr ⟨j, b, .inl member, owns⟩
      · rintro (early | ⟨j, b, member | ⟨rfl, rfl⟩, owns⟩)
        · exact .inr (.inl early)
        · exact .inr (.inr ⟨j, b, member, owns⟩)
        · exact .inl owns.symm
    | load => simpa using ih

/-- Every lane finishes what it had queued and then the items of the tasks it
loads, in the order of the loads. -/
theorem queue (run : Run tasks start events s) (i : ι) :
    start.queue i ++ (events.filterMap (loadedOn i)).flatMap tasks.work =
      events.filterMap (finishedOn i) ++ s.queue i := by
  induction run with
  | nil => simp
  | @step events s next e run step ih =>
    rw [List.filterMap_append, List.filterMap_append, List.flatMap_append, ← List.append_assoc, ih]
    cases step with
    | @finish j a rest head =>
      by_cases here : j = i
      · subst here
        simp [loadedOn, finishedOn, head]
      · simp [finishedOn, here, update_of_ne (Ne.symm here), loadedOn]
    | @load j t before after split blocked ready =>
      by_cases here : j = i
      · subst here
        simp [loadedOn, finishedOn]
      · simp [loadedOn, finishedOn, here, update_of_ne (Ne.symm here)]

/-- A task is loaded after each of its parents has reported. -/
theorem load_after (run : Run tasks start events s) {before after : List (Event ι τ α)} {i : ι}
    {t : τ} (split : events = before ++ .load i t :: after) {p : τ} (parent : tasks.parent p t) :
    p ∈ start.reported ∨ ∃ j b, .finish j b ∈ before ∧ tasks.owner b = p := by
  obtain ⟨here, next, run, step⟩ := run.at_event split
  cases step with
  | load _ _ ready =>
    have told := ready p parent
    rwa [run.reported] at told

/-- An item is finished after its task has been loaded, if no lane was at work at the start. -/
theorem finish_after (run : Run tasks start events s) (idle : ∀ i, start.queue i = [])
    (owns : ∀ t, ∀ a ∈ tasks.work t, tasks.owner a = t) {before after : List (Event ι τ α)}
    {i : ι} {a : α} (split : events = before ++ .finish i a :: after) :
    .load i (tasks.owner a) ∈ before := by
  obtain ⟨here, next, run, step⟩ := run.at_event split
  cases step with
  | @finish _ _ rest head =>
    have balance := run.queue i
    rw [idle i, List.nil_append, head] at balance
    have listed : a ∈ (before.filterMap (loadedOn i)).flatMap tasks.work := by
      rw [balance]
      simp
    obtain ⟨t, loaded, inside⟩ := List.mem_flatMap.mp listed
    obtain ⟨e, member, isLoad⟩ := List.mem_filterMap.mp loaded
    cases e with
    | finish j b => cases isLoad
    | load j u =>
      simp only [loadedOn] at isLoad
      split at isLoad
      · rename_i here
        cases isLoad
        rw [owns t a inside, ← here]
        exact member
      · cases isLoad

/-- An item is finished after all ancestors of its task have reported. -/
theorem causal (run : Run tasks start events s) (idle : ∀ i, start.queue i = [])
    (none : start.reported = ∅) (owns : ∀ t, ∀ a ∈ tasks.work t, tasks.owner a = t) {p t : τ}
    (ancestor : TransGen tasks.parent p t) {before after : List (Event ι τ α)} {i : ι} {a : α}
    (split : events = before ++ .finish i a :: after) (task : tasks.owner a = t) :
    ∃ j b, .finish j b ∈ before ∧ tasks.owner b = p := by
  have reports {p t : τ} (parent : tasks.parent p t) {before after : List (Event ι τ α)} {i : ι}
      {a : α} (split : events = before ++ .finish i a :: after) (task : tasks.owner a = t) :
      ∃ first j b rest, before = first ++ .finish j b :: rest ∧ tasks.owner b = p := by
    have loaded := run.finish_after idle owns split
    obtain ⟨first, rest, rfl⟩ := List.append_of_mem loaded
    have split : events = first ++ .load i (tasks.owner a) :: (rest ++ .finish i a :: after) := by
      simpa using split
    rcases run.load_after split (task ▸ parent) with early | ⟨j, b, member, owner⟩
    · rw [none] at early
      cases early
    · obtain ⟨first, rest', rfl⟩ := List.append_of_mem member
      exact ⟨first, j, b, rest' ++ .load i (tasks.owner a) :: rest, by simp, owner⟩
  induction ancestor generalizing before after i a with
  | single parent =>
    obtain ⟨first, j, b, rest, rfl, owner⟩ := reports parent split task
    exact ⟨j, b, by simp, owner⟩
  | tail _ parent ih =>
    obtain ⟨first, j, b, rest, rfl, owner⟩ := reports parent split task
    have split : events = first ++ .finish j b :: (rest ++ .finish i a :: after) := by
      simpa using split
    obtain ⟨k, d, member, owner⟩ := ih split owner
    exact ⟨k, d, by simp [member], owner⟩

/-- Several lanes finish the first item of their queue. -/
theorem finishes {items : List (ι × α)} (distinct : (items.map Prod.fst).Nodup)
    (heads : ∀ e ∈ items, (start.queue e.1).head? = some e.2)
    (waiting : s.waiting = start.waiting)
    (queue : ∀ i, s.queue i = if i ∈ items.map Prod.fst then (start.queue i).tail else start.queue i)
    (reported : ∀ t, t ∈ s.reported ↔ t ∈ start.reported ∨ ∃ e ∈ items, tasks.owner e.2 = t) :
    Run tasks start (finishAll items) s := by
  induction items generalizing start with
  | nil =>
    have same : s = start := by
      refine State.ext waiting (funext fun i => ?_) (Set.ext fun t => ?_)
      · simpa using queue i
      · simpa using reported t
    subst same
    exact .nil
  | cons e rest ih =>
    rw [List.map_cons, List.nodup_cons] at distinct
    obtain ⟨tail, queued⟩ : ∃ tail, start.queue e.1 = e.2 :: tail := by
      have head := heads e (by simp)
      cases queued : start.queue e.1 with
      | nil => rw [queued] at head; cases head
      | cons a tail =>
        rw [queued] at head
        cases head
        exact ⟨tail, rfl⟩
    refine (single (.finish queued)).trans (ih distinct.2 ?_ waiting ?_ ?_)
    · intro f member
      have apart : f.1 ≠ e.1 := fun same => distinct.1 (List.mem_map.mpr ⟨f, member, same⟩)
      have head := heads f (by simp [member])
      simpa [update_of_ne apart] using head
    · intro i
      rw [queue i]
      by_cases here : i = e.1
      · subst here
        simp [distinct.1, queued]
      · simp only [List.map_cons, List.mem_cons, here, false_or, update_of_ne here]
    · intro t
      rw [reported t]
      simp only [List.mem_cons, exists_eq_or_imp, Set.mem_insert_iff]
      tauto

end Run

end Dataflow
