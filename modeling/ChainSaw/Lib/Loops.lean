import Mathlib.Data.List.Forall2

set_option autoImplicit false

/- Invariant rules for the loops of a program with failures: a loop over a list
is a `foldlM`, `mapM` or `findSomeM?` in `Except ε`. The partial rules speak of
loops that returned, the total rules also show that they do. -/
namespace Loops

variable {ε α β : Type}

theorem bind_eq_ok {first : Except ε α} {next : α → Except ε β} {value : β} :
    (first >>= next) = .ok value ↔ ∃ a, first = .ok a ∧ next a = .ok value := by
  cases first <;> simp [bind, Except.bind]

theorem bind_eq_error {first : Except ε α} {next : α → Except ε β} {fault : ε} :
    (first >>= next) = .error fault ↔
      first = .error fault ∨ ∃ a, first = .ok a ∧ next a = .error fault := by
  cases first <;> simp [bind, Except.bind]

@[simp] theorem ok_bind (a : α) (next : α → Except ε β) : (Except.ok a >>= next) = next a := rfl

@[simp] theorem pure_eq_ok (a : α) : (pure a : Except ε α) = .ok a := rfl

/-- The computation returns a value that passes the test. -/
def returns (test : α → Bool) : Except ε α → Bool
  | .ok value => test value
  | .error _ => false

theorem returns_iff {test : α → Bool} {result : Except ε α} :
    returns test result = true ↔ ∃ value, result = .ok value ∧ test value = true := by
  cases result <;> simp [returns]

theorem foldlM_cons_ok {f : β → α → Except ε β} {a : α} {rest : List α} {b value : β} :
    (a :: rest).foldlM f b = .ok value ↔
      ∃ next, f b a = .ok next ∧ rest.foldlM f next = .ok value := by
  rw [List.foldlM_cons, bind_eq_ok]

/-- A loop invariant that also sees which elements have been treated. -/
theorem foldlM_ok_visited {f : β → α → Except ε β} (inv : List α → β → Prop) (items : List α)
    (step : ∀ seen a rest b next, items = seen ++ a :: rest → inv seen b → f b a = .ok next →
      inv (seen ++ [a]) next)
    {b value : β} (start : inv [] b) (returned : items.foldlM f b = .ok value) :
    inv items value := by
  suffices general : ∀ (rest seen : List α) (b : β), items = seen ++ rest → inv seen b →
      rest.foldlM f b = .ok value → inv items value by
    exact general items [] b rfl start returned
  intro rest
  induction rest with
  | nil =>
    intro seen b split holds returned
    cases returned
    simpa [split] using holds
  | cons a rest ih =>
    intro seen b split holds returned
    obtain ⟨next, stepped, returned⟩ := foldlM_cons_ok.mp returned
    have holds := step seen a rest b next split holds stepped
    exact ih (seen ++ [a]) next (by simpa using split) holds returned

theorem foldlM_ok {f : β → α → Except ε β} (inv : β → Prop) (items : List α)
    (step : ∀ b, inv b → ∀ a ∈ items, ∀ next, f b a = .ok next → inv next)
    {b value : β} (start : inv b) (returned : items.foldlM f b = .ok value) : inv value :=
  foldlM_ok_visited (fun _ b => inv b) items
    (fun _ a _ b next split holds stepped => step b holds a (by simp [split]) next stepped) start
    returned

/-- The loop comes to the turn of `a` in the state `mid`. -/
def Turn (f : β → α → Except ε β) (items : List α) (b : β) (a : α) (mid : β) : Prop :=
  ∃ before after, items = before ++ a :: after ∧ before.foldlM f b = .ok mid

theorem Turn.mem {f : β → α → Except ε β} {items : List α} {b mid : β} {a : α}
    (turn : Turn f items b a mid) : a ∈ items := by
  obtain ⟨before, after, rfl, _⟩ := turn
  simp

theorem Turn.holds {f : β → α → Except ε β} {items : List α} {b mid : β} {a : α}
    (turn : Turn f items b a mid) (inv : β → Prop)
    (step : ∀ b, inv b → ∀ a ∈ items, ∀ next, f b a = .ok next → inv next) (start : inv b) :
    inv mid := by
  obtain ⟨before, after, rfl, returned⟩ := turn
  exact foldlM_ok inv before (fun b holds a member => step b holds a (by simp [member])) start
    returned

/-- A loop that returned made a turn for every element. -/
theorem foldlM_turn {f : β → α → Except ε β} {items : List α} {a : α} (member : a ∈ items) :
    ∀ {b value : β}, items.foldlM f b = .ok value → ∃ before next, f before a = .ok next := by
  induction items with
  | nil => cases member
  | cons head rest ih =>
    intro b value returned
    obtain ⟨next, stepped, returned⟩ := foldlM_cons_ok.mp returned
    rcases List.mem_cons.mp member with rfl | member
    · exact ⟨b, next, stepped⟩
    · exact ih member returned

/-- A loop that fails does so in one of its turns. -/
theorem foldlM_fails {f : β → α → Except ε β} {items : List α} {fault : ε} :
    ∀ {b : β}, items.foldlM f b = .error fault → ∃ a ∈ items, ∃ before, f before a = .error fault := by
  induction items with
  | nil =>
    intro b returned
    cases returned
  | cons a rest ih =>
    intro b returned
    rw [List.foldlM_cons] at returned
    cases turn : f b a with
    | error raised =>
      rw [turn] at returned
      cases returned
      exact ⟨a, by simp, b, turn⟩
    | ok next =>
      rw [turn, ok_bind] at returned
      obtain ⟨later, member, failed⟩ := ih returned
      exact ⟨later, by simp [member], failed⟩

/-- The total rule: every turn returns and keeps the invariant, so the loop does. -/
theorem foldlM_total_visited {f : β → α → Except ε β} (inv : List α → β → Prop) (items : List α)
    (step : ∀ seen a rest b, items = seen ++ a :: rest → inv seen b →
      ∃ next, f b a = .ok next ∧ inv (seen ++ [a]) next)
    {b : β} (start : inv [] b) : ∃ value, items.foldlM f b = .ok value ∧ inv items value := by
  suffices general : ∀ (rest seen : List α) (b : β), items = seen ++ rest → inv seen b →
      ∃ value, rest.foldlM f b = .ok value ∧ inv items value by
    exact general items [] b rfl start
  intro rest
  induction rest with
  | nil =>
    intro seen b split holds
    refine ⟨b, rfl, ?_⟩
    simpa [split] using holds
  | cons a rest ih =>
    intro seen b split holds
    obtain ⟨next, stepped, holds⟩ := step seen a rest b split holds
    obtain ⟨value, returned, final⟩ := ih (seen ++ [a]) next (by simpa using split) holds
    exact ⟨value, foldlM_cons_ok.mpr ⟨next, stepped, returned⟩, final⟩

theorem foldlM_total {f : β → α → Except ε β} (inv : β → Prop) (items : List α)
    (step : ∀ b, inv b → ∀ a ∈ items, ∃ next, f b a = .ok next ∧ inv next)
    {b : β} (start : inv b) : ∃ value, items.foldlM f b = .ok value ∧ inv value :=
  foldlM_total_visited (fun _ b => inv b) items
    (fun seen a rest b split holds => step b holds a (by simp [split])) start

/-- The total rule for a loop over the numbers below `n`. -/
theorem foldlM_range {f : β → Nat → Except ε β} (inv : Nat → β → Prop) (n : Nat)
    (step : ∀ k < n, ∀ b, inv k b → ∃ next, f b k = .ok next ∧ inv (k + 1) next)
    {b : β} (start : inv 0 b) : ∃ value, (List.range n).foldlM f b = .ok value ∧ inv n value := by
  induction n with
  | zero => exact ⟨b, rfl, start⟩
  | succ n ih =>
    obtain ⟨mid, returned, holds⟩ := ih fun k below => step k (by omega)
    obtain ⟨value, last, holds⟩ := step n (Nat.lt_succ_self n) mid holds
    refine ⟨value, ?_, holds⟩
    rw [List.range_succ, List.foldlM_append, returned, ok_bind, List.foldlM_cons, last]
    rfl

/-- A loop whose turns only change a part of the state is a loop on that part. -/
theorem foldlM_map {γ : Type} {f : β → α → Except ε β} {f' : γ → α → Except ε γ} (g : γ → β)
    (items : List α) (turn : ∀ c, ∀ a ∈ items, f (g c) a = (f' c a).map g) (c : γ) :
    items.foldlM f (g c) = (items.foldlM f' c).map g := by
  induction items generalizing c with
  | nil => rfl
  | cons a rest ih =>
    rw [List.foldlM_cons, List.foldlM_cons, turn c a (by simp)]
    cases f' c a with
    | error e => rfl
    | ok next => exact ih (fun c a member => turn c a (by simp [member])) next

/-- A traversal that returns is pointwise evaluation. -/
theorem mapM_eq_ok {f : α → Except ε β} {items : List α} {values : List β} :
    items.mapM f = .ok values ↔ List.Forall₂ (fun a b => f a = .ok b) items values := by
  induction items generalizing values with
  | nil => cases values <;> simp
  | cons a rest ih =>
    rw [List.mapM_cons]
    constructor
    · intro returned
      obtain ⟨b, head, returned⟩ := bind_eq_ok.mp returned
      obtain ⟨bs, tail, returned⟩ := bind_eq_ok.mp returned
      cases returned
      exact .cons head (ih.mp tail)
    · intro pointwise
      cases pointwise with
      | cons head tail => rw [head, ok_bind, ih.mpr tail]; rfl

theorem mapM_total {f : α → Except ε β} {g : α → β} {items : List α}
    (each : ∀ a ∈ items, f a = .ok (g a)) : items.mapM f = .ok (items.map g) := by
  rw [mapM_eq_ok, List.forall₂_map_right_iff, List.forall₂_same]
  exact each

theorem findSomeM?_cons {f : α → Except ε (Option β)} (a : α) (rest : List α) :
    (a :: rest).findSomeM? f = f a >>= fun
      | some b => .ok (some b)
      | none => rest.findSomeM? f := by
  rw [List.findSomeM?]
  rfl

/-- A search passes over the elements that give nothing. -/
theorem findSomeM?_pass {f : α → Except ε (Option β)} {before : List α} (rest : List α)
    (passed : ∀ a ∈ before, f a = .ok none) :
    (before ++ rest).findSomeM? f = rest.findSomeM? f := by
  induction before with
  | nil => rfl
  | cons a before ih =>
    rw [List.cons_append, findSomeM?_cons, passed a (by simp), ok_bind]
    exact ih fun b member => passed b (by simp [member])

/-- A search that found a value found it at the first element that gives one. -/
theorem findSomeM?_some_iff {f : α → Except ε (Option β)} {items : List α} {value : β} :
    items.findSomeM? f = .ok (some value) ↔ ∃ before a after, items = before ++ a :: after ∧
      (∀ b ∈ before, f b = .ok none) ∧ f a = .ok (some value) := by
  constructor
  · intro returned
    induction items with
    | nil => cases returned
    | cons a rest ih =>
      rw [findSomeM?_cons] at returned
      obtain ⟨found, head, returned⟩ := bind_eq_ok.mp returned
      cases found with
      | some b =>
        cases returned
        exact ⟨[], a, rest, rfl, by simp, head⟩
      | none =>
        obtain ⟨before, a', after, rfl, passed, tail⟩ := ih returned
        refine ⟨a :: before, a', after, rfl, ?_, tail⟩
        intro b member
        rcases List.mem_cons.mp member with rfl | member
        · exact head
        · exact passed b member
  · rintro ⟨before, a, after, rfl, passed, head⟩
    rw [findSomeM?_pass _ passed, findSomeM?_cons, head, ok_bind]

theorem findSomeM?_some {f : α → Except ε (Option β)} {items : List α} {value : β}
    (returned : items.findSomeM? f = .ok (some value)) :
    ∃ a ∈ items, f a = .ok (some value) := by
  obtain ⟨before, a, after, rfl, _, head⟩ := findSomeM?_some_iff.mp returned
  exact ⟨a, by simp, head⟩

/-- A search that found nothing tried every element. -/
theorem findSomeM?_none {f : α → Except ε (Option β)} {items : List α}
    (returned : items.findSomeM? f = .ok none) : ∀ a ∈ items, f a = .ok none := by
  induction items with
  | nil => simp
  | cons a rest ih =>
    rw [findSomeM?_cons] at returned
    obtain ⟨found, head, returned⟩ := bind_eq_ok.mp returned
    cases found with
    | some b => cases returned
    | none =>
      intro a' member
      rcases List.mem_cons.mp member with rfl | member
      · exact head
      · exact ih returned a' member

theorem findSomeM?_none_iff {f : α → Except ε (Option β)} {items : List α} :
    items.findSomeM? f = .ok none ↔ ∀ a ∈ items, f a = .ok none := by
  constructor
  · exact findSomeM?_none
  · intro passed
    have searched := findSomeM?_pass [] passed
    rwa [List.append_nil] at searched

/-- A search comes back exactly when every element it gets to does. -/
theorem findSomeM?_ok_iff {f : α → Except ε (Option β)} {items : List α} :
    (∃ found, items.findSomeM? f = .ok found) ↔ ∀ before a after, items = before ++ a :: after →
      (∀ b ∈ before, f b = .ok none) → ∃ found, f a = .ok found := by
  constructor
  · rintro ⟨found, returned⟩ before a after rfl passed
    rw [findSomeM?_pass _ passed, findSomeM?_cons] at returned
    obtain ⟨head, tried, _⟩ := bind_eq_ok.mp returned
    exact ⟨head, tried⟩
  · intro tried
    induction items with
    | nil => exact ⟨none, rfl⟩
    | cons a rest ih =>
      obtain ⟨found, head⟩ := tried [] a rest rfl (by simp)
      rw [findSomeM?_cons, head, ok_bind]
      cases found with
      | some b => exact ⟨some b, rfl⟩
      | none =>
        apply ih
        intro before a' after split passed
        apply tried (a :: before) a' after (by rw [split, List.cons_append])
        intro b member
        rcases List.mem_cons.mp member with rfl | member
        · exact head
        · exact passed b member

/-- A search that comes back found what the search without failures finds. -/
theorem findSomeM?_ok_eq {f : α → Except ε (Option β)} {pure : α → Option β}
    (same : ∀ a found, f a = .ok found → found = pure a) {items : List α} {found : Option β}
    (returned : items.findSomeM? f = .ok found) : found = items.findSome? pure := by
  induction items with
  | nil =>
    cases returned
    rfl
  | cons a rest ih =>
    rw [findSomeM?_cons] at returned
    obtain ⟨head, tried, returned⟩ := bind_eq_ok.mp returned
    rw [List.findSome?_cons, ← same a head tried]
    cases head with
    | some b =>
      cases returned
      rfl
    | none => exact ih returned

/-- The same for a search over the numbers below `n`. -/
theorem findSomeM?_range_iff {f : Nat → Except ε (Option β)} {n : Nat} :
    (∃ found, (List.range n).findSomeM? f = .ok found) ↔
      ∀ k < n, (∀ j < k, f j = .ok none) → ∃ found, f k = .ok found := by
  rw [findSomeM?_ok_iff]
  have increasing : (List.range n).Pairwise (· < ·) := List.pairwise_lt_range
  constructor
  · intro tried k inside passed
    obtain ⟨before, after, split⟩ := List.append_of_mem (List.mem_range.mpr inside)
    rw [split] at increasing
    apply tried before k after split
    intro j earlier
    exact passed j ((List.pairwise_append.mp increasing).2.2 j earlier k (by simp))
  · intro tried before k after split passed
    have inside : k < n := List.mem_range.mp (by rw [split]; simp)
    rw [split] at increasing
    apply tried k inside
    intro j less
    have listed : j ∈ before ++ k :: after := by
      rw [← split]
      exact List.mem_range.mpr (Nat.lt_trans less inside)
    rcases List.mem_append.mp listed with earlier | later
    · exact passed j earlier
    · rcases List.mem_cons.mp later with same | later
      · omega
      · have := List.rel_of_pairwise_cons (List.pairwise_append.mp increasing).2.1 later
        omega

/-- A search in a search is one search over all the inner elements. -/
theorem findSomeM?_flatMap {γ : Type} {f : β → Except ε (Option γ)} {inner : α → List β}
    (items : List α) : (items.flatMap inner).findSomeM? f =
      items.findSomeM? fun a => (inner a).findSomeM? f := by
  have append : ∀ first rest : List β, (first ++ rest).findSomeM? f =
      first.findSomeM? f >>= fun
        | some c => .ok (some c)
        | none => rest.findSomeM? f := by
    intro first rest
    induction first with
    | nil => rfl
    | cons b first ih =>
      rw [List.cons_append, findSomeM?_cons, findSomeM?_cons]
      cases f b with
      | error fault => rfl
      | ok found =>
        cases found with
        | some c => rfl
        | none => exact ih
  induction items with
  | nil => rfl
  | cons a rest ih => rw [List.flatMap_cons, append, findSomeM?_cons, ih]

theorem findSomeM?_total {f : α → Except ε (Option β)} {items : List α}
    (each : ∀ a ∈ items, ∃ found, f a = .ok found) : ∃ found, items.findSomeM? f = .ok found := by
  induction items with
  | nil => exact ⟨none, rfl⟩
  | cons a rest ih =>
    obtain ⟨found, head⟩ := each a (by simp)
    rw [findSomeM?_cons, head, ok_bind]
    cases found with
    | some b => exact ⟨some b, rfl⟩
    | none => exact ih fun a member => each a (by simp [member])

/-- A search by a key that no two elements share. -/
theorem find?_key_of_mem [DecidableEq β] {key : α → β} {items : List α}
    (distinct : (items.map key).Nodup) {a : α} (member : a ∈ items) :
    items.find? (fun e => key e == key a) = some a := by
  induction items with
  | nil => cases member
  | cons first rest ih =>
    rw [List.map_cons, List.nodup_cons] at distinct
    rcases List.mem_cons.mp member with rfl | later
    · simp
    · have other : key first ≠ key a := fun same => distinct.1 (same ▸ List.mem_map_of_mem later)
      simpa [other] using ih distinct.2 later

end Loops
