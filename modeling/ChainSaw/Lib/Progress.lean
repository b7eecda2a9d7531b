import Mathlib.Order.WellFounded

set_option autoImplicit false

/- Progress of a loop with failures that has to wait for its environment: the
environment moves on its own with `tick` and comes to an answer after finitely
many ticks. -/
namespace Progress

variable {ε α β : Type}

/-- The steps from here on return, and one of them leads into `goal`. -/
inductive Reaches (step : α → Except ε α) (goal : α → Prop) : α → Prop
  | here {a : α} : goal a → Reaches step goal a
  | after {a b : α} : step a = .ok b → Reaches step goal b → Reaches step goal a

/-- After finitely many ticks `stop` holds. -/
inductive Eventually (tick : β → β) (stop : β → Prop) : β → Prop
  | now {b : β} : stop b → Eventually tick stop b
  | later {b : β} : Eventually tick stop (tick b) → Eventually tick stop b

/-- The loop reaches its goal if every turn takes something off the rank, except
those that only let the environment tick while it has still to answer. -/
theorem Reaches.of_progress {step : α → Except ε α} {goal : α → Prop} {W : Type}
    {less : W → W → Prop} (wf : WellFounded less) (inv : α → Prop) (rank : α → W) (env : α → β)
    (tick : β → β) (stop : β → Prop)
    (turn : ∀ a, inv a → ¬goal a → ∃ b, step a = .ok b ∧ inv b ∧
      (less (rank b) (rank a) ∨ (rank b = rank a ∧ env b = tick (env a) ∧ ¬stop (env a) ∧
        Eventually tick stop (env a))))
    {a : α} (holds : inv a) : Reaches step goal a := by
  induction ranked : rank a using wf.induction generalizing a with
  | _ w ih =>
    have follow : ∀ a, inv a → rank a = w →
        (∀ b, inv b → rank b = w → env b = tick (env a) → ¬stop (env a) →
          Eventually tick stop (env a) → Reaches step goal b) → Reaches step goal a := by
      intro a holds ranked waiting
      by_cases done : goal a
      · exact .here done
      · obtain ⟨b, stepped, next, smaller | ⟨equal, moved, going, answers⟩⟩ := turn a holds done
        · exact .after stepped (ih _ (ranked ▸ smaller) next rfl)
        · exact .after stepped (waiting b next (equal.trans ranked) moved going answers)
    have waits : ∀ e, Eventually tick stop e → ∀ a, inv a → rank a = w → env a = e →
        Reaches step goal a := by
      intro e answers
      -- the wait ends by induction on the ticks that are left
      induction answers with
      | now stops =>
        rintro a holds ranked rfl
        exact follow a holds ranked fun _ _ _ _ going _ => absurd stops going
      | later _ ihTick =>
        rintro a holds ranked rfl
        exact follow a holds ranked fun b next equal moved _ _ => ihTick b next equal moved
    refine follow a holds ranked fun b next equal moved going answers => ?_
    cases answers with
    | now stops => exact absurd stops going
    | later rest => exact waits _ rest b next equal moved

end Progress
