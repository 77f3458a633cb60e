import Mathlib.Logic.Function.Basic
import InotifyRealtime.Foundation.Machine
/-!
# Foundation.Components

Machines made of components that share a state.

Each component has a part of the state to itself, and all of them read and write
the shared rest. A step of the machine is a step of one component, and leaves the
other components' parts as they are.

What is wanted is mostly an assertion about one component, over its own part and
the shared state. It holds in a whole run when the component's own steps keep it
and the steps of the others do not interfere with it (`Run.each`). The second
condition is where the components meet, so it may be limited to the runs whose
steps meet a side condition.
-/

namespace Machine

variable {ι σ μ α : Type*}

/-- What the components share, and the part of each. -/
structure Composed (ι σ μ : Type*) where
  shared : σ
  parts : ι → μ

/-- Every component has its assertion. -/
def Composed.Each (I : ι → σ → μ → Prop) (s : Composed ι σ μ) : Prop :=
  ∀ i, I i s.shared (s.parts i)

variable [DecidableEq ι] (step : ι → σ → μ → α → Option (σ × μ))

namespace Composed

/-- The component that the action names takes a step. -/
def next (s : Composed ι σ μ) (x : ι × α) : Option (Composed ι σ μ) :=
  (step x.1 s.shared (s.parts x.1) x.2).map fun (shared, part) =>
    ⟨shared, Function.update s.parts x.1 part⟩

/-- The steps of the components. -/
def Step (s : Composed ι σ μ) (x : ι × α) (s' : Composed ι σ μ) : Prop :=
  next step s x = some s'

variable {step}

theorem step_cases {s s' : Composed ι σ μ} {i : ι} {a : α} (h : Step step s (i, a) s') :
    ∃ shared part, step i s.shared (s.parts i) a = some (shared, part) ∧
      s' = ⟨shared, Function.update s.parts i part⟩ := by
  obtain ⟨⟨shared, part⟩, hstep, hs'⟩ := Option.map_eq_some_iff.mp h
  exact ⟨shared, part, hstep, hs'.symm⟩

/-- A step keeps all assertions when it keeps that of the component whose step it
is and interferes with none of the others. -/
theorem Each.keep {I : ι → σ → μ → Prop} {s s' : Composed ι σ μ} {i : ι} {a : α}
    (hI : s.Each I) (h : Step step s (i, a) s')
    (own : ∀ shared part, step i s.shared (s.parts i) a = some (shared, part) → I i shared part)
    (other : ∀ shared part, step i s.shared (s.parts i) a = some (shared, part) →
      ∀ j, j ≠ i → I j s.shared (s.parts j) → I j shared (s.parts j)) :
    s'.Each I := by
  obtain ⟨shared, part, hstep, rfl⟩ := step_cases h
  intro j
  by_cases hj : j = i
  · subst hj
    show I j shared (Function.update s.parts j part j)
    rw [Function.update_self]
    exact own shared part hstep
  · show I j shared (Function.update s.parts i part j)
    rw [Function.update_of_ne hj]
    exact other shared part hstep j hj (hI j)

end Composed

/-- **Interference freedom.** An assertion about each component that its own steps
keep, and that steps of others which meet `C` do not interfere with, holds of every
component throughout a run whose every step meets `C`. -/
theorem Run.each {step : ι → σ → μ → α → Option (σ × μ)} {I : ι → σ → μ → Prop}
    {C : Composed ι σ μ → ι × α → Prop}
    (own : ∀ i shared part a shared' part', I i shared part →
      step i shared part a = some (shared', part') → I i shared' part')
    (other : ∀ s i a shared part, C s (i, a) →
      step i s.shared (s.parts i) a = some (shared, part) →
      ∀ j, j ≠ i → I j s.shared (s.parts j) → I j shared (s.parts j))
    {s u : Composed ι σ μ} {hist : List (Composed ι σ μ × (ι × α))}
    (r : Run (Composed.Step step) s hist u) (hI : s.Each I) (hC : Meets C hist) :
    u.Each I ∧ ∀ x ∈ hist, x.1.Each I := by
  refine r.invariant_of_meets ?_ hI hC
  intro s x s' hs hc hstep
  exact Composed.Each.keep hs hstep (fun shared part => own x.1 _ _ x.2 shared part (hs x.1))
    (fun shared part => other s x.1 x.2 shared part hc)

end Machine
