import InotifyRealtime.Foundation.Machine
/-!
# Foundation.Progress

How long a machine goes on.

A measure of a state that pays for the steps still to come bounds their number. Not
every step has to make it smaller: a step that is no work is free, and a disturbance
may put back a fixed amount. So the work done in a run is bounded by the measure of
its first state and by the disturbances in it (`Run.work_le`).

Where every step makes the measure smaller there is an end: a state in which no step is
possible (`Final`) can be reached, and is reached by whoever goes on
(`exists_run_final`).
-/

namespace Machine

variable {σ α : Type*} {step : σ → α → σ → Prop}

/-- No step is possible. -/
def Final (step : σ → α → σ → Prop) (s : σ) : Prop := ∀ a t, ¬ step s a t

/-- A run that does not end in a final state can go on. -/
theorem not_final_iff {s : σ} : ¬ Final step s ↔ ∃ a t, step s a t := by
  simp [Final]

namespace Run

/-- Two runs in a row. -/
theorem append {s t u : σ} {hist hist' : List (σ × α)} (r : Run step s hist t)
    (r' : Run step t hist' u) : Run step s (hist ++ hist') u := by
  induction r with
  | nil s => exact r'
  | cons hs _ ih => exact .cons hs (ih r')

/-- What no step makes smaller has its greatest value at the end. -/
theorem le_last {I : σ → Prop} {f : σ → Nat} (keep : ∀ s a t, I s → step s a t → I t)
    (mono : ∀ s a t, I s → step s a t → f s ≤ f t) {s u : σ} {hist : List (σ × α)}
    (r : Run step s hist u) (hI : I s) : f s ≤ f u ∧ ∀ x ∈ hist, f x.1 ≤ f u := by
  induction r with
  | nil => exact ⟨Nat.le_refl _, by simp⟩
  | cons hs _ ih =>
      obtain ⟨hu, hall⟩ := ih (keep _ _ _ hI hs)
      have hfirst := Nat.le_trans (mono _ _ _ hI hs) hu
      refine ⟨hfirst, fun x hx => ?_⟩
      rcases List.mem_cons.mp hx with rfl | hx
      · exact hfirst
      · exact hall x hx

/-- **Work is paid for.** When each step that is work takes one off the measure, a
disturbance puts back at most `k`, and no other step puts back anything, the work in a
run is bounded by the measure it began with and the disturbances in it. -/
theorem work_le {I : σ → Prop} {C : σ → α → Prop} {μ : σ → Nat} {k : Nat}
    {w d : σ → α → Bool} (keep : ∀ s a t, I s → C s a → step s a t → I t)
    (pays : ∀ s a t, I s → C s a → step s a t →
      (if w s a then 1 else 0) + μ t ≤ μ s + if d s a then k else 0)
    {s u : σ} {hist : List (σ × α)} (r : Run step s hist u) (hI : I s) (hC : Meets C hist) :
    (hist.countP fun x => w x.1 x.2) + μ u ≤
      μ s + k * hist.countP fun x => d x.1 x.2 := by
  induction r with
  | nil => simp
  | @cons s t u a hist hs _ ih =>
      obtain ⟨hc, hrest⟩ := meets_cons.mp hC
      have hlater := ih (keep _ _ _ hI hc hs) hrest
      have hhere := pays s a t hI hc hs
      have hback : (if d s a then k else 0) = k * if d s a then 1 else 0 := by
        split <;> simp
      simp only [List.countP_cons, Nat.mul_add]
      omega

/-- When every step takes one off the measure, there are no more of them. -/
theorem length_le {I : σ → Prop} {μ : σ → Nat} (keep : ∀ s a t, I s → step s a t → I t)
    (less : ∀ s a t, I s → step s a t → μ t < μ s) {s u : σ} {hist : List (σ × α)}
    (r : Run step s hist u) (hI : I s) : hist.length + μ u ≤ μ s := by
  induction r with
  | nil => simp
  | @cons s t u a hist hs _ ih =>
      have hlater := ih (keep _ _ _ hI hs)
      have hhere := less _ _ _ hI hs
      rw [List.length_cons]
      omega

end Run

/-- Whoever goes on comes to an end. -/
theorem exists_run_final {I : σ → Prop} {μ : σ → Nat} (keep : ∀ s a t, I s → step s a t → I t)
    (less : ∀ s a t, I s → step s a t → μ t < μ s) {s : σ} (hI : I s) :
    ∃ hist u, Run step s hist u ∧ Final step u := by
  induction hn : μ s using Nat.strongRecOn generalizing s with
  | ind n ih =>
      by_cases hfinal : Final step s
      · exact ⟨[], s, .nil s, hfinal⟩
      · obtain ⟨a, t, hstep⟩ := not_final_iff.mp hfinal
        have hless := less s a t hI hstep
        obtain ⟨hist, u, hrun, hu⟩ := ih (μ t) (hn ▸ hless) (keep s a t hI hstep) rfl
        exact ⟨(s, a) :: hist, u, .cons hstep hrun, hu⟩

end Machine
