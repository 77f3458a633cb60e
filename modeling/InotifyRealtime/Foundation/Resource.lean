import Mathlib.Data.List.Infix
/-!
# Foundation.Resource

Logs of what a program does with resources.

A resource may be acquired again under the number it had before, so to release it
once means: between two releases of a number it has been acquired anew
(`ReleasedOnce`). Nothing is left over when each acquisition has a release after it
(`AllReleased`). Of a kind of object, at most one is alive at any time when no
prefix of the log has two more births than deaths (`AtMostOneLive`).
-/

namespace Resource

variable {ι α : Type}

/-- Between any two releases of a resource it has been acquired anew. -/
def ReleasedOnce (acquires releases : ι → α → Prop) (log : List α) : Prop :=
  ∀ n l m r a b, log = l ++ a :: (m ++ b :: r) → releases n a → releases n b →
    ∃ e ∈ m, acquires n e

variable {acquires releases : ι → α → Prop}

theorem releasedOnce_of_no_release {log : List α} (h : ∀ e ∈ log, ∀ n, ¬ releases n e) :
    ReleasedOnce acquires releases log := by
  rintro n l m r a b rfl ha _
  exact absurd ha (h a (by simp) n)

/-- A log that releases twice keeps doing so when it grows. -/
theorem ReleasedOnce.of_append {log added : List α}
    (h : ReleasedOnce acquires releases (log ++ added)) : ReleasedOnce acquires releases log := by
  intro n l m r a b hlog
  exact h n l m (r ++ added) a b (by simp [hlog])

/-- Every resource acquired is released later. -/
def AllReleased (acquires releases : ι → α → Prop) (log : List α) : Prop :=
  ∀ n l r a, log = l ++ a :: r → acquires n a → ∃ e ∈ r, releases n e

/-- What comes before `log` may acquire what `log` releases. -/
theorem AllReleased.cons {a : α} {log : List α} (h : AllReleased acquires releases log)
    (ha : ∀ n, acquires n a → ∃ e ∈ log, releases n e) :
    AllReleased acquires releases (a :: log) := by
  intro n l r b hlog hb
  cases l with
  | nil =>
      obtain ⟨rfl, rfl⟩ := List.cons.inj hlog
      exact ha n hb
  | cons c l =>
      obtain ⟨-, hlog⟩ := List.cons.inj hlog
      exact h n l r b hlog hb

theorem AllReleased.append {before log : List α} (h : AllReleased acquires releases log)
    (hbefore : ∀ a ∈ before, ∀ n, acquires n a → ∃ e ∈ log, releases n e) :
    AllReleased acquires releases (before ++ log) := by
  induction before with
  | nil => exact h
  | cons a before ih =>
      refine (ih fun b hb => hbefore b (List.mem_cons_of_mem _ hb)).cons fun n hn => ?_
      obtain ⟨e, he, hreleases⟩ := hbefore a List.mem_cons_self n hn
      exact ⟨e, List.mem_append_right _ he, hreleases⟩

theorem allReleased_of_no_acquire {log : List α} (h : ∀ e ∈ log, ∀ n, ¬ acquires n e) :
    AllReleased acquires releases log := by
  rintro n l r a rfl ha
  exact absurd ha (h a (by simp) n)

variable (born dies : α → Bool)

/-- At no time two objects are alive. -/
def AtMostOneLive (log : List α) : Prop :=
  ∀ l, l <+: log → l.countP born ≤ l.countP dies + 1

variable {born dies}

/-- One birth alone never makes two. -/
theorem atMostOneLive_of_countP_le {log : List α} (h : log.countP born ≤ 1) :
    AtMostOneLive born dies log := by
  intro l hl
  have hcount : l.countP born ≤ log.countP born := hl.sublist.countP_le
  omega

/-- When all that were born have died, a log that keeps to one may follow. -/
theorem AtMostOneLive.append_of_balanced {log added : List α} (h : AtMostOneLive born dies log)
    (hbalanced : log.countP born = log.countP dies) (hadded : AtMostOneLive born dies added) :
    AtMostOneLive born dies (log ++ added) := by
  intro l hl
  rcases List.prefix_or_prefix_of_prefix hl (List.prefix_append log added) with hl' | ⟨l', rfl⟩
  · exact h l hl'
  · have hl' : l' <+: added := (List.prefix_append_right_inj log).mp hl
    have hcount := hadded l' hl'
    rw [List.countP_append, List.countP_append]
    omega

/-- Where nothing is born, one stays one. -/
theorem AtMostOneLive.append_of_no_birth {log added : List α} (h : AtMostOneLive born dies log)
    (hadded : added.countP born = 0) : AtMostOneLive born dies (log ++ added) := by
  intro l hl
  rcases List.prefix_or_prefix_of_prefix hl (List.prefix_append log added) with hl' | ⟨l', rfl⟩
  · exact h l hl'
  · have hl' : l' <+: added := (List.prefix_append_right_inj log).mp hl
    have hnone : l'.countP born ≤ added.countP born := hl'.sublist.countP_le
    have hcount := h log (List.prefix_refl log)
    rw [List.countP_append, List.countP_append]
    omega

end Resource
