import ChainSaw.Lib.Loops
import Mathlib.Logic.Function.Basic
import Mathlib.Logic.Relation
import Mathlib.Order.Bounds.Basic
import Mathlib.Data.List.Perm.Subperm

set_option autoImplicit false

/- Longest paths from a root by depth-first relaxation: a visit raises the level
of its node and visits all successors with the next level, unless the level is
high enough already. Nodes are visited again whenever their level rises. -/
namespace LongestPath

open Relation

variable {α : Type}

/-- There is a walk of length `n` from `a` to `b`. -/
inductive Walk (r : α → α → Prop) (a : α) : Nat → α → Prop
  | nil : Walk r a 0 a
  | tail {n : Nat} {b c : α} : Walk r a n b → r b c → Walk r a (n + 1) c

variable {r : α → α → Prop} {a : α}

theorem Walk.reflTransGen {n : Nat} {b : α} (walk : Walk r a n b) : ReflTransGen r a b := by
  induction walk with
  | nil => exact .refl
  | tail _ step ih => exact ih.tail step

theorem Walk.mono {s : α → α → Prop} (sub : ∀ b c, r b c → s b c) {n : Nat} {b : α}
    (walk : Walk r a n b) : Walk s a n b := by
  induction walk with
  | nil => exact .nil
  | tail _ step ih => exact ih.tail (sub _ _ step)

theorem exists_walk {b : α} (steps : ReflTransGen r a b) : ∃ n, Walk r a n b := by
  induction steps with
  | refl => exact ⟨0, .nil⟩
  | tail _ step ih =>
    obtain ⟨n, walk⟩ := ih
    exact ⟨n + 1, walk.tail step⟩

/-- Where no cycle is reached, a walk visits every node once. -/
theorem Walk.exists_visited (acyclic : ∀ b, ReflTransGen r a b → ¬ TransGen r b b) {n : Nat} {b : α}
    (walk : Walk r a n b) :
    ∃ visited : List α, visited.length = n + 1 ∧ visited.Nodup ∧
      ∀ c ∈ visited, (∃ m, Walk r a m c) ∧ ReflTransGen r c b := by
  induction walk with
  | nil => exact ⟨[a], rfl, by simp, by simpa using ⟨⟨0, .nil⟩, .refl⟩⟩
  | @tail n b c walk step ih =>
    obtain ⟨visited, length, distinct, known⟩ := ih
    refine ⟨c :: visited, by rw [List.length_cons, length], List.nodup_cons.mpr ⟨?_, distinct⟩, ?_⟩
    · intro again
      have back := (known c again).2.tail step
      have reached := (walk.tail step).reflTransGen
      rcases reflTransGen_iff_eq_or_transGen.mp (known c again).2 with same | cycle
      · exact acyclic c reached (.single (same ▸ step))
      · exact acyclic c reached (cycle.tail step)
    · intro d member
      rcases List.mem_cons.mp member with rfl | old
      · exact ⟨⟨n + 1, walk.tail step⟩, .refl⟩
      · exact ⟨(known d old).1, (known d old).2.tail step⟩

theorem Walk.length_lt (acyclic : ∀ b, ReflTransGen r a b → ¬ TransGen r b b) {nodes : List α}
    (within : ∀ n b, Walk r a n b → b ∈ nodes) {n : Nat} {b : α} (walk : Walk r a n b) :
    n < nodes.length := by
  obtain ⟨visited, length, distinct, known⟩ := walk.exists_visited acyclic
  have sub : visited ⊆ nodes := by
    intro c member
    obtain ⟨m, reached⟩ := (known c member).1
    exact within m c reached
  have := (List.subperm_of_subset distinct sub).length_le
  omega

/-- Visit nodes one after another. -/
def visitAll (visit : α → (α → Int) → Option (α → Int)) : List α → (α → Int) → Option (α → Int)
  | [], level => some level
  | b :: rest, level => (visit b level).bind (visitAll visit rest)

/-- A loop over nodes follows the visits that its turns follow. The levels are
read off the state of the loop. -/
theorem foldlM_visitAll {ε β : Type} {step : β → α → Except ε β}
    {visit : α → (α → Int) → Option (α → Int)} {read : β → α → Int} (inv : β → Prop)
    {nodes : List α}
    (turns : ∀ b ∈ nodes, ∀ s level, inv s → visit b (read s) = some level →
      ∃ next, step s b = .ok next ∧ inv next ∧ read next = level) :
    ∀ s level, inv s → visitAll visit nodes (read s) = some level →
      ∃ final, nodes.foldlM step s = .ok final ∧ inv final ∧ read final = level := by
  induction nodes with
  | nil =>
    intro s level holds visited
    cases visited
    exact ⟨s, rfl, holds, rfl⟩
  | cons b rest ih =>
    intro s level holds visited
    obtain ⟨mid, first, visited⟩ := Option.bind_eq_some_iff.mp visited
    obtain ⟨next, stepped, kept, atNext⟩ := turns b (by simp) s mid holds first
    rw [← atNext] at visited
    obtain ⟨final, looped, facts⟩ :=
      ih (fun c member => turns c (by simp [member])) next level kept visited
    exact ⟨final, Loops.foldlM_cons_ok.mpr ⟨next, stepped, looped⟩, facts⟩

variable [DecidableEq α]

/-- The relaxation; `none` when the recursion goes deeper than the bound. -/
def relax (succ : α → List α) : Nat → Int → α → (α → Int) → Option (α → Int)
  | 0, _, _, _ => none
  | depth + 1, l, b, level =>
    if level b < l then
      visitAll (relax succ depth (l + 1)) (succ b) (Function.update level b l)
    else some level

variable {succ : α → List α}

/-- Levels only rise, to `l` at least for the given nodes, and a node whose level
has risen is below its successors. -/
structure Raised (succ : α → List α) (l : Int) (nodes : List α) (level final : α → Int) : Prop where
  mono : ∀ b, level b ≤ final b
  reached : ∀ b ∈ nodes, l ≤ final b
  settled : ∀ b, final b = level b ∨ ∀ c ∈ succ b, final b + 1 ≤ final c

omit [DecidableEq α] in
theorem Raised.refl {l : Int} {level : α → Int} {nodes : List α} (high : ∀ b ∈ nodes, l ≤ level b) :
    Raised succ l nodes level level :=
  ⟨fun _ => Int.le_refl _, high, fun _ => .inl rfl⟩

omit [DecidableEq α] in
theorem Raised.trans {l : Int} {level mid final : α → Int} {nodes rest : List α}
    (first : Raised succ l nodes level mid) (second : Raised succ l rest mid final) :
    Raised succ l (nodes ++ rest) level final where
  mono := fun b => (first.mono b).trans (second.mono b)
  reached := by
    intro b member
    rcases List.mem_append.mp member with old | new
    · exact (first.reached b old).trans (second.mono b)
    · exact second.reached b new
  settled := by
    intro b
    rcases second.settled b with same | below
    · rcases first.settled b with unchanged | below
      · exact .inl (same.trans unchanged)
      · refine .inr fun c member => ?_
        have := below c member
        have := second.mono c
        omega
    · exact .inr below

omit [DecidableEq α] in
theorem visitAll_raised {visit : α → (α → Int) → Option (α → Int)} {l : Int}
    (each : ∀ b level final, visit b level = some final → Raised succ l [b] level final)
    (nodes : List α) : ∀ level final, visitAll visit nodes level = some final →
      Raised succ l nodes level final := by
  induction nodes with
  | nil =>
    intro level final returned
    cases returned
    exact Raised.refl (by simp)
  | cons b rest ih =>
    intro level final returned
    obtain ⟨mid, visited, returned⟩ := Option.bind_eq_some_iff.mp returned
    exact (each b level mid visited).trans (ih mid final returned)

theorem relax_raised (depth : Nat) : ∀ l b level final,
    relax succ depth l b level = some final → Raised succ l [b] level final := by
  induction depth with
  | zero => intro l b level final returned; cases returned
  | succ depth ih =>
    intro l b level final returned
    unfold relax at returned
    split at returned
    · rename_i low
      have visited := visitAll_raised (ih (l + 1)) (succ b) _ _ returned
      have start : l ≤ final b := by simpa using visited.mono b
      refine ⟨?_, by simpa using start, ?_⟩
      · intro c
        have := visited.mono c
        by_cases same : c = b
        · subst same
          omega
        · rwa [Function.update_of_ne same] at this
      · intro c
        rcases visited.settled c with unchanged | below
        · by_cases same : c = b
          · -- the level of `b` itself is still `l`, and its successors have one more
            subst same
            rw [Function.update_self] at unchanged
            exact .inr fun d member => unchanged ▸ visited.reached d member
          · rw [Function.update_of_ne same] at unchanged
            exact .inl unchanged
        · exact .inr below
    · rename_i high
      cases returned
      exact Raised.refl (by simpa using Int.le_of_not_gt high)

/-- Every level but -1 is the length of a walk from the root. -/
def Lengths (r : α → α → Prop) (root : α) (level : α → Int) : Prop :=
  ∀ b, level b = -1 ∨ ∃ n : Nat, level b = n ∧ Walk r root n b

omit [DecidableEq α] in
theorem visitAll_keeps {visit : α → (α → Int) → Option (α → Int)} {P : (α → Int) → Prop}
    {nodes : List α}
    (each : ∀ b ∈ nodes, ∀ level final, P level → visit b level = some final → P final) :
    ∀ level final, P level → visitAll visit nodes level = some final → P final := by
  induction nodes with
  | nil =>
    intro level final holds returned
    cases returned
    exact holds
  | cons b rest ih =>
    intro level final holds returned
    obtain ⟨mid, visited, returned⟩ := Option.bind_eq_some_iff.mp returned
    exact ih (fun c member => each c (by simp [member])) mid final
      (each b (by simp) level mid holds visited) returned

theorem relax_lengths {root : α} (depth : Nat) : ∀ (n : Nat) b level final,
    Walk (fun b c => c ∈ succ b) root n b → Lengths (fun b c => c ∈ succ b) root level →
    relax succ depth n b level = some final → Lengths (fun b c => c ∈ succ b) root final := by
  induction depth with
  | zero => intro n b level final _ _ returned; cases returned
  | succ depth ih =>
    intro n b level final walk lengths returned
    unfold relax at returned
    split at returned
    · refine visitAll_keeps (P := Lengths (fun b c => c ∈ succ b) root) ?_ _ final ?_ returned
      · intro c member mid next holds visited
        exact ih (n + 1) c mid next (walk.tail member) holds (by exact_mod_cast visited)
      · intro c
        by_cases same : c = b
        · subst same
          exact .inr ⟨n, by simp, walk⟩
        · rw [Function.update_of_ne same]
          exact lengths c
    · cases returned
      exact lengths

omit [DecidableEq α] in
theorem visitAll_total {visit : α → (α → Int) → Option (α → Int)} {nodes : List α}
    (each : ∀ b ∈ nodes, ∀ level, ∃ final, visit b level = some final) :
    ∀ level, ∃ final, visitAll visit nodes level = some final := by
  induction nodes with
  | nil => exact fun level => ⟨level, rfl⟩
  | cons b rest ih =>
    intro level
    obtain ⟨mid, visited⟩ := each b (by simp) level
    obtain ⟨final, returned⟩ := ih (fun c member => each c (by simp [member])) mid
    refine ⟨final, ?_⟩
    rw [visitAll, visited]
    exact returned

/-- The relaxation ends when the walks from the root are shorter than the bound. -/
theorem relax_total {root : α} {size : Nat}
    (short : ∀ n b, Walk (fun b c => c ∈ succ b) root n b → n < size) (depth : Nat) :
    ∀ (n : Nat) b level, Walk (fun b c => c ∈ succ b) root n b → size ≤ depth + n →
      ∃ final, relax succ depth n b level = some final := by
  induction depth with
  | zero =>
    intro n b level walk enough
    have := short n b walk
    omega
  | succ depth ih =>
    intro n b level walk enough
    unfold relax
    split
    · refine visitAll_total ?_ _
      intro c member mid
      obtain ⟨next, visited⟩ := ih (n + 1) c mid (walk.tail member) (by omega)
      exact ⟨next, by exact_mod_cast visited⟩
    · exact ⟨level, rfl⟩

/-- A relaxation from the root leaves the length of the longest walk to every
node, and -1 where there is none. -/
theorem relax_longest {root : α} {depth : Nat} {final : α → Int}
    (returned : relax succ depth 0 root (fun _ => -1) = some final) (b : α) :
    (final b = -1 ∧ ¬ ReflTransGen (fun b c => c ∈ succ b) root b) ∨
      ∃ n : Nat, final b = n ∧ IsGreatest {n | Walk (fun b c => c ∈ succ b) root n b} n := by
  have raised := relax_raised depth _ _ _ _ returned
  have lengths := relax_lengths depth 0 root _ final .nil (fun _ => .inl rfl) returned
  have above : ∀ (n : Nat) c, Walk (fun b c => c ∈ succ b) root n c → (n : Int) ≤ final c := by
    intro n c walk
    induction walk with
    | nil => exact raised.reached root (by simp)
    | @tail n c d _ step ih =>
      rcases raised.settled c with unchanged | below
      · omega
      · have := below d step
        push_cast
        omega
  rcases lengths b with unreached | ⟨n, same, walk⟩
  · refine .inl ⟨unreached, fun steps => ?_⟩
    obtain ⟨n, walk⟩ := exists_walk steps
    have := above n b walk
    omega
  · refine .inr ⟨n, same, walk, ?_⟩
    intro m other
    have := above m b other
    omega

end LongestPath
