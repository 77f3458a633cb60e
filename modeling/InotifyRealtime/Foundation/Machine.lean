import Mathlib.Init
/-!
# Foundation.Machine

Labelled machines and their finite runs.

A machine is a relation `step s a t`: in state `s` the action `a` may lead to
state `t`. Actions carry everything the environment decides (the results of
system calls, the schedule), so a run is determined by what happened around the
program and says nothing about how likely it was.

A `Run` keeps its **history**: the list of the states left and of the actions
taken in them. That lets a property of a whole run be stated over the run
itself, in two shapes that recur:

* an invariant of every state reached (`Run.invariant`), possibly only along
  runs whose every step meets a side condition (`Run.invariant_of_meets`);
* an exact answer (`Run.forall_visited_iff`): a property holds in every state of
  a run precisely when every step of the run met a condition.
-/

namespace Machine

variable {σ α : Type*}

/-- A finite run from one state to another, with its history: the states left
and the actions taken in them, oldest first. -/
inductive Run (step : σ → α → σ → Prop) : σ → List (σ × α) → σ → Prop
  | nil (s : σ) : Run step s [] s
  | cons {s t u : σ} {a : α} {hist : List (σ × α)} :
      step s a t → Run step t hist u → Run step s ((s, a) :: hist) u

/-- Some run leads from `s` to `u`. -/
def Reaches (step : σ → α → σ → Prop) (s u : σ) : Prop :=
  ∃ hist, Run step s hist u

/-- The states a run passes through: those it left and the one it ended in. -/
def visited (hist : List (σ × α)) (last : σ) : List σ :=
  hist.map Prod.fst ++ [last]

/-- Every step of the history met the condition `C`. -/
def Meets (C : σ → α → Prop) (hist : List (σ × α)) : Prop :=
  ∀ x ∈ hist, C x.1 x.2

instance {C : σ → α → Prop} [∀ s a, Decidable (C s a)] (hist : List (σ × α)) :
    Decidable (Meets C hist) :=
  inferInstanceAs (Decidable (∀ x ∈ hist, C x.1 x.2))

@[simp] theorem visited_nil (s : σ) : visited ([] : List (σ × α)) s = [s] := rfl

@[simp] theorem visited_cons (x : σ × α) (hist : List (σ × α)) (s : σ) :
    visited (x :: hist) s = x.1 :: visited hist s := rfl

theorem mem_visited_last (hist : List (σ × α)) (s : σ) : s ∈ visited hist s := by
  simp [visited]

/-- The actions after one more step. -/
theorem actions_snoc (past : List (σ × α)) (s : σ) (a : α) :
    (past ++ [(s, a)]).map Prod.snd = past.map Prod.snd ++ [a] := by
  rw [List.map_append, List.map_singleton]

@[simp] theorem meets_nil (C : σ → α → Prop) : Meets C [] := by
  simp [Meets]

@[simp] theorem meets_cons {C : σ → α → Prop} {x : σ × α} {hist : List (σ × α)} :
    Meets C (x :: hist) ↔ C x.1 x.2 ∧ Meets C hist := by
  simp [Meets]

@[simp] theorem meets_append {C : σ → α → Prop} {past hist : List (σ × α)} :
    Meets C (past ++ hist) ↔ Meets C past ∧ Meets C hist :=
  List.forall_mem_append

variable {step : σ → α → σ → Prop}

namespace Run

/-- One more step at the end. -/
theorem snoc {s t u : σ} {a : α} {hist : List (σ × α)} (r : Run step s hist t)
    (h : step t a u) : Run step s (hist ++ [(t, a)]) u := by
  induction r with
  | nil s => exact .cons h (.nil u)
  | cons hs _ ih => exact .cons hs (ih h)

/-- A step of the history is a step of the machine, out of a state passed through. -/
theorem mem_step {s u : σ} {hist : List (σ × α)} (r : Run step s hist u) {x : σ × α}
    (hx : x ∈ hist) : x.1 ∈ visited hist u ∧ ∃ t, step x.1 x.2 t := by
  refine ⟨List.mem_append_left _ (List.mem_map_of_mem hx), ?_⟩
  induction r with
  | nil => exact absurd hx List.not_mem_nil
  | @cons s t u a hist hs _ ih =>
      rcases List.mem_cons.mp hx with rfl | hx
      · exact ⟨t, hs⟩
      · exact ih hx

/-- An invariant kept by every step that meets `C` holds wherever a run of such
steps ends, and in every state it left. -/
theorem invariant_of_meets {I : σ → Prop} {C : σ → α → Prop}
    (keep : ∀ s a t, I s → C s a → step s a t → I t)
    {s u : σ} {hist : List (σ × α)} (r : Run step s hist u) (hI : I s)
    (hC : Meets C hist) : I u ∧ ∀ x ∈ hist, I x.1 := by
  induction r with
  | nil => exact ⟨hI, by simp⟩
  | cons hs _ ih =>
      obtain ⟨hc, hrest⟩ := meets_cons.mp hC
      obtain ⟨hu, hall⟩ := ih (keep _ _ _ hI hc hs) hrest
      refine ⟨hu, fun x hx => ?_⟩
      rcases List.mem_cons.mp hx with rfl | hx
      · exact hI
      · exact hall x hx

/-- An invariant kept by every step holds wherever a run ends. -/
theorem invariant {I : σ → Prop} (keep : ∀ s a t, I s → step s a t → I t)
    {s u : σ} {hist : List (σ × α)} (r : Run step s hist u) (hI : I s) : I u :=
  (r.invariant_of_meets (C := fun _ _ => True) (fun s a t h _ hs => keep s a t h hs) hI
    (fun _ _ => trivial)).1

/-- An invariant that relates a state to the history behind it, from a state with a
past of its own. -/
theorem invariant_past_of_meets {I : List (σ × α) → σ → Prop} {C : σ → α → Prop}
    (keep : ∀ past s a t, I past s → C s a → step s a t → I (past ++ [(s, a)]) t)
    {s u : σ} {hist : List (σ × α)} (r : Run step s hist u) :
    ∀ {past : List (σ × α)}, Meets C hist → I past s → I (past ++ hist) u := by
  induction r with
  | nil =>
      intro past _ h
      rwa [List.append_nil]
  | @cons s t u a hist hs _ ih =>
      intro past hC h
      obtain ⟨hc, hrest⟩ := meets_cons.mp hC
      have hnext := ih hrest (keep past s a t h hc hs)
      rwa [List.append_assoc] at hnext

/-- An invariant that relates a state to the whole history behind it, kept by every
step that meets `C`. -/
theorem invariant_hist_of_meets {I : List (σ × α) → σ → Prop} {C : σ → α → Prop}
    (keep : ∀ past s a t, I past s → C s a → step s a t → I (past ++ [(s, a)]) t)
    {s u : σ} {hist : List (σ × α)} (r : Run step s hist u) (hC : Meets C hist)
    (h : I [] s) : I hist u := by
  have hall := r.invariant_past_of_meets keep hC h
  rwa [List.nil_append] at hall

/-- An invariant that relates a state to the whole history behind it. -/
theorem invariant_hist {I : List (σ × α) → σ → Prop}
    (keep : ∀ past s a t, I past s → step s a t → I (past ++ [(s, a)]) t)
    {s u : σ} {hist : List (σ × α)} (r : Run step s hist u) (h : I [] s) : I hist u :=
  r.invariant_hist_of_meets (C := fun _ _ => True)
    (fun past s a t hI _ hs => keep past s a t hI hs) (fun _ _ => trivial) h

/-- Two conditions that agree below an invariant are met by the same runs. -/
theorem meets_congr {I : σ → Prop} {C D : σ → α → Prop}
    (keep : ∀ s a t, I s → step s a t → I t) (congr : ∀ s a, I s → (C s a ↔ D s a))
    {s u : σ} {hist : List (σ × α)} (r : Run step s hist u) (hI : I s) :
    Meets C hist ↔ Meets D hist := by
  have hall := (r.invariant_of_meets (C := fun _ _ => True)
    (fun s a t h _ hs => keep s a t h hs) hI (fun _ _ => trivial)).2
  constructor
  · intro h x hx
    exact (congr x.1 x.2 (hall x hx)).mp (h x hx)
  · intro h x hx
    exact (congr x.1 x.2 (hall x hx)).mpr (h x hx)

/-- Two conditions that agree below an invariant which steps with the second keep are
met by the same runs. -/
theorem meets_iff {I : σ → Prop} {C D : σ → α → Prop}
    (keep : ∀ s a t, I s → D s a → step s a t → I t)
    (exact_step : ∀ s a t, I s → step s a t → (C s a ↔ D s a))
    {s u : σ} {hist : List (σ × α)} (r : Run step s hist u) (hI : I s) :
    Meets C hist ↔ Meets D hist := by
  induction r with
  | nil => simp
  | @cons s t u a hist hs _ ih =>
      have here : C s a ↔ D s a := exact_step s a t hI hs
      rw [meets_cons, meets_cons, here]
      exact and_congr_right fun hD => ih (keep s a t hI hD hs)

/-- **Exactness along a run.** When, below an invariant, each step out of a
state with `P` keeps `P` precisely if it meets `C`, a run has `P` throughout
precisely if its every step met `C`. -/
theorem forall_visited_iff {I P : σ → Prop} {C : σ → α → Prop}
    (keep : ∀ s a t, I s → step s a t → I t)
    (exact_step : ∀ s a t, I s → P s → step s a t → (P t ↔ C s a))
    {s u : σ} {hist : List (σ × α)} (r : Run step s hist u) (hI : I s) (hP : P s) :
    (∀ t ∈ visited hist u, P t) ↔ Meets C hist := by
  induction r with
  | nil => simpa using hP
  | @cons s t u a hist hs _ ih =>
      have here : P t ↔ C s a := exact_step s a t hI hP hs
      have hIt : I t := keep s a t hI hs
      rw [meets_cons, visited_cons]
      constructor
      · intro hall
        have hPt : P t := by
          refine hall t (List.mem_cons_of_mem _ ?_)
          cases hist with
          | nil => cases ‹Run step t [] u›; simp
          | cons x hist => cases ‹Run step t (x :: hist) u›; simp
        exact ⟨here.mp hPt, (ih hIt hPt).mp fun v hv => hall v (List.mem_cons_of_mem _ hv)⟩
      · rintro ⟨hc, hrest⟩ v hv
        rcases List.mem_cons.mp hv with rfl | hv
        · exact hP
        · exact (ih hIt (here.mpr hc)).mpr hrest v hv

/-- **Where a run first breaks a condition.** `P` holds as long as every step meets
`C`, a step that does not leads to `Q`, and `Q` stays: then the state a run ends
in tells whether all its steps met `C`. -/
theorem meets_or_breaks {P Q : σ → Prop} {C : σ → α → Prop}
    (keep : ∀ s a t, P s → C s a → step s a t → P t)
    (breaks : ∀ s a t, P s → ¬ C s a → step s a t → Q t)
    (stays : ∀ s a t, Q s → step s a t → Q t)
    {s u : σ} {hist : List (σ × α)} (r : Run step s hist u) (hP : P s) :
    (Meets C hist ∧ P u) ∨ (¬ Meets C hist ∧ Q u) := by
  induction r with
  | nil => exact .inl ⟨meets_nil C, hP⟩
  | @cons s t u a hist hs hrun ih =>
      rw [meets_cons]
      by_cases hC : C s a
      · rcases ih (keep s a t hP hC hs) with ⟨hmeets, hPu⟩ | ⟨hbroken, hQu⟩
        · exact .inl ⟨⟨hC, hmeets⟩, hPu⟩
        · exact .inr ⟨fun h => hbroken h.2, hQu⟩
      · exact .inr ⟨fun h => hC h.1, hrun.invariant stays (breaks s a t hP hC hs)⟩

end Run

/-- An invariant of the machine holds in every state it reaches. -/
theorem Reaches.invariant {I : σ → Prop} (keep : ∀ s a t, I s → step s a t → I t)
    {s u : σ} (h : Reaches step s u) (hI : I s) : I u := by
  obtain ⟨hist, r⟩ := h
  exact r.invariant keep hI

/-! ### Refinement

One machine stands for another when each of its steps is a step of the other, or none,
between the states it stands for. -/

/-- A machine that can do more has the runs of the other. -/
theorem Run.mono {step' : σ → α → σ → Prop} (h : ∀ s a t, step s a t → step' s a t) {s u : σ}
    {hist : List (σ × α)} (r : Run step s hist u) : Run step' s hist u := by
  induction r with
  | nil s => exact .nil s
  | cons hs _ ih => exact .cons (h _ _ _ hs) ih

/-- A run whose steps meet a condition is one of the machine that takes no others. -/
theorem Run.meeting {C : σ → α → Prop} {s u : σ} {hist : List (σ × α)} (r : Run step s hist u)
    (h : Meets C hist) : Run (fun s a t => step s a t ∧ C s a) s hist u := by
  induction r with
  | nil s => exact .nil s
  | cons hs _ ih =>
      obtain ⟨hc, hrest⟩ := meets_cons.mp h
      exact .cons ⟨hs, hc⟩ (ih hrest)

/-- A run stands for a run of the other machine, which takes the steps that are seen. -/
theorem Run.maps {σ' β : Type*} {step' : σ' → β → σ' → Prop} {f : σ → σ'} {l : σ → α → Option β}
    {I : σ → Prop} (keep : ∀ s a t, I s → step s a t → I t)
    (seen : ∀ s a t b, I s → step s a t → l s a = some b → step' (f s) b (f t))
    (hidden : ∀ s a t, I s → step s a t → l s a = none → f t = f s)
    {s u : σ} {hist : List (σ × α)} (r : Run step s hist u) (hI : I s) :
    Run step' (f s) (hist.filterMap fun x => (l x.1 x.2).map fun b => (f x.1, b)) (f u) := by
  induction r with
  | nil s => exact .nil _
  | @cons s t u a hist hs _ ih =>
      have hrun := ih (keep _ _ _ hI hs)
      cases hl : l s a with
      | none =>
          rw [hidden s a t hI hs hl] at hrun
          simpa [hl] using hrun
      | some b => simpa [hl] using .cons (seen s a t b hI hs hl) hrun

/-- What the steps meet is met by those that are seen. -/
theorem Meets.maps {σ' β : Type*} {C : σ → α → Prop} {C' : σ' → β → Prop} {f : σ → σ'}
    {l : σ → α → Option β} {hist : List (σ × α)} (h : Meets C hist)
    (seen : ∀ s a b, C s a → l s a = some b → C' (f s) b) :
    Meets C' (hist.filterMap fun x => (l x.1 x.2).map fun b => (f x.1, b)) := by
  intro x hx
  obtain ⟨y, hy, heq⟩ := List.mem_filterMap.mp hx
  obtain ⟨b, hb, rfl⟩ := Option.map_eq_some_iff.mp heq
  exact seen y.1 y.2 b (h y hy) hb

/-! ### Partial functions as machines

A machine is often given as `next s a`, the state after the action, or nothing
when the action is not possible. Such a machine can be executed. -/

/-- The history and the last state of the run that takes these actions, if every
one of them is possible in its turn. -/
def exec (next : σ → α → Option σ) : σ → List α → Option (List (σ × α) × σ)
  | s, [] => some ([], s)
  | s, a :: as =>
      (next s a).bind fun t => (exec next t as).map fun (hist, u) => ((s, a) :: hist, u)

/-- An execution is a run. -/
theorem run_of_exec {next : σ → α → Option σ} {as : List α} :
    ∀ {s u : σ} {hist : List (σ × α)}, exec next s as = some (hist, u) →
      Run (fun s a t => next s a = some t) s hist u := by
  induction as with
  | nil =>
      intro s u hist h
      obtain ⟨rfl, rfl⟩ : [] = hist ∧ s = u := by simpa [exec] using h
      exact .nil s
  | cons a as ih =>
      intro s u hist h
      obtain ⟨t, ht, h⟩ := Option.bind_eq_some_iff.mp h
      obtain ⟨⟨rest, v⟩, hrest, h⟩ := Option.map_eq_some_iff.mp h
      obtain ⟨rfl, rfl⟩ : (s, a) :: rest = hist ∧ v = u := by simpa using h
      exact .cons ht (ih hrest)

/-- Its history has these actions. -/
theorem actions_of_exec {next : σ → α → Option σ} {as : List α} :
    ∀ {s u : σ} {hist : List (σ × α)}, exec next s as = some (hist, u) →
      hist.map Prod.snd = as := by
  induction as with
  | nil =>
      intro s u hist h
      obtain ⟨rfl, -⟩ : [] = hist ∧ s = u := by simpa [exec] using h
      rfl
  | cons a as ih =>
      intro s u hist h
      obtain ⟨t, -, h⟩ := Option.bind_eq_some_iff.mp h
      obtain ⟨⟨rest, v⟩, hrest, h⟩ := Option.map_eq_some_iff.mp h
      obtain ⟨rfl, -⟩ : (s, a) :: rest = hist ∧ v = u := by simpa using h
      rw [List.map_cons, ih hrest]

/-- A condition that each action meets in whatever state is met. -/
theorem meets_of_actions {C : σ → α → Prop} {hist : List (σ × α)} {as : List α}
    (h : hist.map Prod.snd = as) (hC : ∀ a ∈ as, ∀ s, C s a) : Meets C hist := by
  intro x hx
  exact hC x.2 (h ▸ List.mem_map_of_mem hx) x.1

/-! ### Counting back

How often something has happened since the last time something else did, for
invariants over the history behind a state (`Run.invariant_hist`). -/

variable {ends counts : α → Prop} [DecidablePred ends] [DecidablePred counts]

/-- The actions counted since the last one that ends the count. -/
def countSince (ends counts : α → Prop) [DecidablePred ends] [DecidablePred counts]
    (past : List α) : Nat :=
  (past.reverse.takeWhile fun a => ¬ ends a).countP fun a => counts a

@[simp] theorem countSince_nil : countSince ends counts [] = 0 := rfl

theorem countSince_of_ends (past : List α) {a : α} (h : ends a) :
    countSince ends counts (past ++ [a]) = 0 := by
  simp [countSince, h]

theorem countSince_of_counts (past : List α) {a : α} (hends : ¬ ends a) (h : counts a) :
    countSince ends counts (past ++ [a]) = countSince ends counts past + 1 := by
  simp [countSince, hends, h]

theorem countSince_of_neither (past : List α) {a : α} (hends : ¬ ends a) (h : ¬ counts a) :
    countSince ends counts (past ++ [a]) = countSince ends counts past := by
  simp [countSince, hends, h]

end Machine
