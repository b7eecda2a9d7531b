import Mathlib.Data.List.Basic

set_option autoImplicit false

/- Backtracking patterns: sequences of single and repeated characters, some of
them captured. The ways to match a text are listed in the order in which a
backtracking matcher tries them. -/
namespace Patterns

variable {α : Type}

/-- How often a piece takes a character; `reluctant` prefers the shorter run. -/
inductive Times where
  | once
  | greedy
  | reluctant
deriving DecidableEq, Repr

structure Piece (α : Type) where
  test : α → Bool
  times : Times
  captured : Bool

abbrev Pattern (α : Type) := List (Piece α)

/-- The ways to split off characters that pass the test, the shortest run first. -/
def runs (test : α → Bool) : List α → List (List α × List α)
  | [] => [([], [])]
  | c :: rest => ([], c :: rest) ::
      if test c then (runs test rest).map fun e => (c :: e.1, e.2) else []

def Piece.tries (piece : Piece α) (text : List α) : List (List α × List α) :=
  match piece.times with
  | .once =>
    match text with
    | [] => []
    | c :: rest => if piece.test c then [([c], rest)] else []
  | .greedy => (runs piece.test text).reverse
  | .reluctant => runs piece.test text

/-- The ways to match at the start of a text: what is captured and what is left. -/
def tries : Pattern α → List α → List (List (List α) × List α)
  | [], text => [([], text)]
  | piece :: pattern, text =>
    (piece.tries text).flatMap fun e => (tries pattern e.2).map fun found =>
      (if piece.captured then e.1 :: found.1 else found.1, found.2)

/-- The pattern matches the whole text. -/
def fullMatch (pattern : Pattern α) (text : List α) : Bool :=
  (tries pattern text).any (·.2.isEmpty)

/-- What the first match at the start of the text captures. -/
def startMatch (pattern : Pattern α) (text : List α) : Option (List (List α)) :=
  (tries pattern text).head?.map (·.1)

/-- The pattern of a fixed word. -/
def literal [DecidableEq α] (word : List α) : Pattern α :=
  word.map fun d => ⟨(· == d), .once, false⟩

theorem runs_pass {test : α → Bool} {c : α} (pass : test c = true) (rest : List α) :
    runs test (c :: rest) = ([], c :: rest) :: (runs test rest).map fun e => (c :: e.1, e.2) := by
  rw [runs, if_pos pass]

theorem runs_fail {test : α → Bool} {c : α} (fail : ¬ test c = true) (rest : List α) :
    runs test (c :: rest) = [([], c :: rest)] := by
  rw [runs, if_neg fail]

theorem mem_runs {test : α → Bool} {text : List α} {e : List α × List α} :
    e ∈ runs test text ↔ text = e.1 ++ e.2 ∧ ∀ c ∈ e.1, test c = true := by
  induction text generalizing e with
  | nil =>
    obtain ⟨first, rest⟩ := e
    rw [runs, List.mem_singleton, Prod.mk.injEq, eq_comm (a := []), List.append_eq_nil_iff]
    constructor
    · rintro ⟨rfl, rfl⟩
      simp
    · exact And.left
  | cons c text ih =>
    obtain ⟨first, rest⟩ := e
    cases first with
    | nil =>
      by_cases pass : test c = true
      · simp [runs_pass pass, eq_comm (a := rest)]
      · simp [runs_fail pass, eq_comm (a := rest)]
    | cons d first =>
      by_cases pass : test c = true
      · rw [runs_pass pass, List.mem_cons, List.mem_map]
        constructor
        · rintro (absurd | ⟨e, member, same⟩)
          · cases absurd
          · cases same
            obtain ⟨split, all⟩ := ih.mp member
            exact ⟨congrArg (c :: ·) split, List.forall_mem_cons.mpr ⟨pass, all⟩⟩
        · rintro ⟨split, all⟩
          obtain ⟨rfl, split⟩ := List.cons.inj split
          exact .inr ⟨(first, rest), ih.mpr ⟨split, (List.forall_mem_cons.mp all).2⟩, rfl⟩
      · rw [runs_fail pass, List.mem_singleton]
        constructor
        · intro absurd
          cases absurd
        · rintro ⟨split, all⟩
          obtain ⟨rfl, _⟩ := List.cons.inj split
          exact absurd (List.forall_mem_cons.mp all).1 pass

theorem fullMatch_cons {piece : Piece α} {pattern : Pattern α} {text : List α} :
    fullMatch (piece :: pattern) text = true ↔
      ∃ e ∈ piece.tries text, fullMatch pattern e.2 = true := by
  unfold fullMatch
  rw [tries, List.any_flatMap, List.any_eq_true]
  simp only [List.any_map, Function.comp_def]

@[simp] theorem fullMatch_nil (text : List α) : fullMatch [] text = text.isEmpty := by
  simp [fullMatch, tries]

/-- A repeated piece takes any run of characters that pass. -/
theorem fullMatch_many {test : α → Bool} {times : Times} {captured : Bool} {pattern : Pattern α}
    (many : times ≠ .once) {text : List α} :
    fullMatch (⟨test, times, captured⟩ :: pattern) text = true ↔ ∃ first rest,
      text = first ++ rest ∧ (∀ c ∈ first, test c = true) ∧ fullMatch pattern rest = true := by
  have tried : ∀ e, e ∈ (⟨test, times, captured⟩ : Piece α).tries text ↔ e ∈ runs test text := by
    intro e
    unfold Piece.tries
    cases times with
    | once => exact absurd rfl many
    | greedy => exact List.mem_reverse
    | reluctant => exact Iff.rfl
  rw [fullMatch_cons]
  constructor
  · rintro ⟨e, member, matched⟩
    obtain ⟨split, all⟩ := mem_runs.mp ((tried e).mp member)
    exact ⟨e.1, e.2, split, all, matched⟩
  · rintro ⟨first, rest, split, all, matched⟩
    exact ⟨(first, rest), (tried _).mpr (mem_runs.mpr ⟨split, all⟩), matched⟩

/-- A last piece takes all the rest. -/
theorem fullMatch_rest {test : α → Bool} {times : Times} {captured : Bool} (many : times ≠ .once)
    {text : List α} : fullMatch [⟨test, times, captured⟩] text = true ↔
      ∀ c ∈ text, test c = true := by
  rw [fullMatch_many many]
  constructor
  · rintro ⟨first, rest, rfl, all, empty⟩
    simpa [List.isEmpty_iff.mp ((fullMatch_nil rest).symm.trans empty)] using all
  · intro all
    exact ⟨text, [], by simp, all, rfl⟩

theorem fullMatch_literal [DecidableEq α] {word : List α} {pattern : Pattern α} {text : List α} :
    fullMatch (literal word ++ pattern) text = true ↔
      ∃ rest, text = word ++ rest ∧ fullMatch pattern rest = true := by
  induction word generalizing text with
  | nil => simp [literal]
  | cons d word ih =>
    change fullMatch (⟨(· == d), .once, false⟩ :: (literal word ++ pattern)) text = true ↔ _
    rw [fullMatch_cons]
    cases text with
    | nil => simp [Piece.tries]
    | cons c text =>
      by_cases same : c = d
      · subst same
        simp [Piece.tries, ih]
      · simp [Piece.tries, same]

theorem fullMatch_word [DecidableEq α] {word text : List α} :
    fullMatch (literal word) text = true ↔ text = word := by
  rw [← List.append_nil (literal word), fullMatch_literal]
  simp

theorem startMatch_nil (text : List α) : startMatch [] text = some [] := rfl

theorem startMatch_literal [DecidableEq α] (word : List α) (pattern : Pattern α) (text : List α) :
    startMatch (literal word ++ pattern) (word ++ text) = startMatch pattern text := by
  have same : tries (literal word ++ pattern) (word ++ text) = tries pattern text := by
    induction word with
    | nil => rfl
    | cons d word ih =>
      change tries (⟨(· == d), .once, false⟩ :: (literal word ++ pattern)) (d :: (word ++ text)) = _
      simp [tries, Piece.tries, ih]
  rw [startMatch, same, startMatch]

/-- A run that passes stands in the list between the shorter and the longer ones. -/
theorem runs_split {test : α → Bool} {first : List α} (pass : ∀ c ∈ first, test c = true)
    (rest : List α) : ∃ shorter longer,
      runs test (first ++ rest) = shorter ++ (first, rest) :: longer ∧
      (∀ e ∈ shorter, ∃ c ∈ first, ∃ later, e.2 = c :: later) ∧
      ∀ e ∈ longer, ∃ c between, test c = true ∧ rest = c :: between ++ e.2 := by
  induction first with
  | nil =>
    cases rest with
    | nil => exact ⟨[], [], rfl, by simp, by simp⟩
    | cons c rest =>
      refine ⟨[], if test c then (runs test rest).map fun e => (c :: e.1, e.2) else [], rfl,
        by simp, ?_⟩
      intro e member
      split at member
      · rename_i pass
        obtain ⟨e', listed, rfl⟩ := List.mem_map.mp member
        exact ⟨c, e'.1, pass, congrArg (c :: ·) (mem_runs.mp listed).1⟩
      · cases member
  | cons c first ih =>
    obtain ⟨here, pass⟩ := List.forall_mem_cons.mp pass
    obtain ⟨shorter, longer, split, before, after⟩ := ih pass
    refine ⟨([], c :: (first ++ rest)) :: shorter.map fun e => (c :: e.1, e.2),
      longer.map fun e => (c :: e.1, e.2), ?_, ?_, ?_⟩
    · rw [List.cons_append, runs_pass here, split]
      simp
    · intro e member
      rcases List.mem_cons.mp member with rfl | member
      · exact ⟨c, by simp, _, rfl⟩
      · obtain ⟨e', listed, rfl⟩ := List.mem_map.mp member
        obtain ⟨d, inside, later, starts⟩ := before e' listed
        exact ⟨d, by simp [inside], later, starts⟩
    · intro e member
      obtain ⟨e', listed, rfl⟩ := List.mem_map.mp member
      exact after e' listed

/-- The matcher settles on the first way after which the rest of the pattern matches. -/
theorem startMatch_settles {piece : Piece α} {pattern : Pattern α} {text : List α}
    {skipped later : List (List α × List α)} {e : List α × List α} {groups : List (List α)}
    (tried : piece.tries text = skipped ++ e :: later)
    (fails : ∀ e ∈ skipped, startMatch pattern e.2 = none)
    (matched : startMatch pattern e.2 = some groups) :
    startMatch (piece :: pattern) text =
      some (if piece.captured then e.1 :: groups else groups) := by
  have none : ∀ e ∈ skipped, tries pattern e.2 = [] := by
    intro e member
    simpa [startMatch] using fails e member
  have before : (skipped.flatMap fun e => (tries pattern e.2).map fun found =>
      (if piece.captured then e.1 :: found.1 else found.1, found.2)) = [] := by
    rw [List.flatMap_eq_nil_iff]
    intro e member
    rw [none e member, List.map_nil]
  obtain ⟨found, first, rfl⟩ := Option.map_eq_some_iff.mp matched
  obtain ⟨others, all⟩ := List.head?_eq_some_iff.mp first
  rw [startMatch, tries, tried, List.flatMap_append, before, List.nil_append, List.flatMap_cons, all]
  cases piece.captured <;> rfl

/-- A greedy run takes every character that passes. -/
theorem startMatch_longest {test : α → Bool} {captured : Bool} {pattern : Pattern α}
    {first rest : List α} {groups : List (List α)} (pass : ∀ c ∈ first, test c = true)
    (matched : startMatch pattern rest = some groups)
    (stop : ∀ c later, rest = c :: later → ¬ test c = true) :
    startMatch (⟨test, .greedy, captured⟩ :: pattern) (first ++ rest) =
      some (if captured then first :: groups else groups) := by
  obtain ⟨shorter, longer, split, _, after⟩ := runs_split pass rest
  have tried : (⟨test, .greedy, captured⟩ : Piece α).tries (first ++ rest) =
      longer.reverse ++ (first, rest) :: shorter.reverse := by
    simp [Piece.tries, split]
  refine startMatch_settles tried ?_ matched
  intro e member
  obtain ⟨c, between, passes, starts⟩ := after e (List.mem_reverse.mp member)
  exact absurd passes (stop c _ starts)

theorem startMatch_char_of_ne [DecidableEq α] {d : α} {pattern : Pattern α} {text : List α}
    (other : ∀ later, text ≠ d :: later) : startMatch (literal [d] ++ pattern) text = none := by
  cases text with
  | nil => rfl
  | cons c text =>
    have differs : c ≠ d := fun same => other text (same ▸ rfl)
    simp [startMatch, literal, tries, Piece.tries, differs]

section delimited

variable [DecidableEq α] {test : α → Bool} {captured : Bool} {d : α} {pattern : Pattern α}
  {first rest : List α} {groups : List (List α)} (pass : ∀ c ∈ first, test c = true)
  (matched : startMatch pattern rest = some groups)
include pass matched

/-- A reluctant run ends at the first delimiter. -/
theorem startMatch_reluctant (absent : d ∉ first) :
    startMatch (⟨test, .reluctant, captured⟩ :: (literal [d] ++ pattern)) (first ++ d :: rest) =
      some (if captured then first :: groups else groups) := by
  obtain ⟨shorter, longer, split, before, _⟩ := runs_split pass (d :: rest)
  have tried : (⟨test, .reluctant, captured⟩ : Piece α).tries (first ++ d :: rest) =
      shorter ++ (first, d :: rest) :: longer := split
  refine startMatch_settles tried ?_ ((startMatch_literal [d] pattern rest).trans matched)
  intro e member
  obtain ⟨c, inside, later, starts⟩ := before e member
  apply startMatch_char_of_ne
  intro later' starts'
  rw [starts] at starts'
  exact absent ((List.cons.inj starts').1 ▸ inside)

/-- A greedy run ends at the last delimiter. -/
theorem startMatch_greedy (absent : d ∉ rest) :
    startMatch (⟨test, .greedy, captured⟩ :: (literal [d] ++ pattern)) (first ++ d :: rest) =
      some (if captured then first :: groups else groups) := by
  obtain ⟨shorter, longer, split, _, after⟩ := runs_split pass (d :: rest)
  have tried : (⟨test, .greedy, captured⟩ : Piece α).tries (first ++ d :: rest) =
      longer.reverse ++ (first, d :: rest) :: shorter.reverse := by
    simp [Piece.tries, split]
  refine startMatch_settles tried ?_ ((startMatch_literal [d] pattern rest).trans matched)
  intro e member
  obtain ⟨c, between, _, starts⟩ := after e (List.mem_reverse.mp member)
  apply startMatch_char_of_ne
  intro later starts'
  rw [starts', List.cons_append] at starts
  exact absent ((List.cons.inj starts).2 ▸ by simp)

end delimited

end Patterns
