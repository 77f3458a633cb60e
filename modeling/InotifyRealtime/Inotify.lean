import Mathlib.Logic.Function.Basic
/-!
# InotifyRealtime.Inotify

The kernel's side: an inotify instance and the watches it holds.

An instance numbers its watches from 1 and never reuses a number. A watch belongs
to a directory object, not to a path: adding an object that is already watched
answers the number it has. Removing a watch (its directory is deleted or
unmounted) frees the object, not the number.

`Inotify` carries these facts as fields. `add` and `drop` are all an instance
does, so every instance that can be built has them.
-/

namespace InotifyRealtime

/-- An inotify instance over directory objects `Obj`: the next number to give out
and the number of each watched object. -/
structure Inotify (Obj : Type) where
  next : Int
  wdOf : Obj → Option Int
  next_pos : 1 ≤ next
  wdOf_range : ∀ o w, wdOf o = some w → 1 ≤ w ∧ w < next
  wdOf_injective : ∀ o o' w, wdOf o = some w → wdOf o' = some w → o = o'

namespace Inotify

variable {Obj : Type}

/-- A fresh instance: no watch, and the first one will be number 1. -/
def fresh : Inotify Obj where
  next := 1
  wdOf := fun _ => none
  next_pos := by omega
  wdOf_range := by simp
  wdOf_injective := by simp

/-- The watch `w` exists. -/
def Live (i : Inotify Obj) (w : Int) : Prop := ∃ o, i.wdOf o = some w

@[simp] theorem fresh_wdOf (o : Obj) : (fresh : Inotify Obj).wdOf o = none := rfl

theorem not_live_fresh (w : Int) : ¬ (fresh : Inotify Obj).Live w := by
  simp [Live]

variable [DecidableEq Obj]

/-- Give the object a new number. -/
def assign (i : Inotify Obj) (o : Obj) : Inotify Obj where
  next := i.next + 1
  wdOf := Function.update i.wdOf o (some i.next)
  next_pos := by have := i.next_pos; omega
  wdOf_range := by
    intro o' w h
    by_cases ho : o' = o
    · subst ho
      rw [Function.update_self, Option.some.injEq] at h
      have := i.next_pos
      omega
    · rw [Function.update_of_ne ho] at h
      have := i.wdOf_range o' w h
      omega
  wdOf_injective := by
    have hnew : ∀ {o' w}, o' ≠ o → Function.update i.wdOf o (some i.next) o' = some w →
        w ≠ i.next := by
      intro o' w ho h
      rw [Function.update_of_ne ho] at h
      have := i.wdOf_range o' w h
      omega
    intro o₁ o₂ w h₁ h₂
    by_cases ho₁ : o₁ = o <;> by_cases ho₂ : o₂ = o
    · rw [ho₁, ho₂]
    · subst ho₁
      rw [Function.update_self, Option.some.injEq] at h₁
      exact absurd h₁.symm (hnew ho₂ h₂)
    · subst ho₂
      rw [Function.update_self, Option.some.injEq] at h₂
      exact absurd h₂.symm (hnew ho₁ h₁)
    · rw [Function.update_of_ne ho₁] at h₁
      rw [Function.update_of_ne ho₂] at h₂
      exact i.wdOf_injective o₁ o₂ w h₁ h₂

/-- Watch an object: the number it has, or a new one. -/
def add (i : Inotify Obj) (o : Obj) : Int × Inotify Obj :=
  match i.wdOf o with
  | some w => (w, i)
  | none => (i.next, i.assign o)

/-- The object's watch is removed. -/
def drop (i : Inotify Obj) (o : Obj) : Inotify Obj where
  next := i.next
  wdOf := Function.update i.wdOf o none
  next_pos := i.next_pos
  wdOf_range := by
    intro o' w h
    by_cases ho : o' = o
    · subst ho
      simp at h
    · rw [Function.update_of_ne ho] at h
      exact i.wdOf_range o' w h
  wdOf_injective := by
    intro o₁ o₂ w h₁ h₂
    by_cases ho₁ : o₁ = o
    · subst ho₁
      simp at h₁
    · by_cases ho₂ : o₂ = o
      · subst ho₂
        simp at h₂
      · rw [Function.update_of_ne ho₁] at h₁
        rw [Function.update_of_ne ho₂] at h₂
        exact i.wdOf_injective o₁ o₂ w h₁ h₂

/-- Adding an object leaves it with the number answered, and others as they are. -/
theorem add_wdOf (i : Inotify Obj) (o o' : Obj) :
    (i.add o).2.wdOf o' = if o' = o then some (i.add o).1 else i.wdOf o' := by
  unfold add
  cases h : i.wdOf o with
  | some w =>
      by_cases ho : o' = o
      · simp [ho, h]
      · simp [ho]
  | none => simp [assign, Function.update_apply]

theorem add_wdOf_self (i : Inotify Obj) (o : Obj) : (i.add o).2.wdOf o = some (i.add o).1 := by
  simp [add_wdOf]

/-- A watched object keeps its number. -/
theorem add_wdOf_of_watched (i : Inotify Obj) (o : Obj) {o' : Obj} {w : Int}
    (h : i.wdOf o' = some w) : (i.add o).2.wdOf o' = some w := by
  rw [add_wdOf]
  split
  · next ho =>
      subst ho
      simp [add, h]
  · exact h

/-- The number answered is a watch descriptor, not an error. -/
theorem add_pos (i : Inotify Obj) (o : Obj) : 0 < (i.add o).1 := by
  have := ((i.add o).2.wdOf_range o _ (add_wdOf_self i o)).1
  omega

theorem drop_wdOf (i : Inotify Obj) (o o' : Obj) :
    (i.drop o).wdOf o' = if o' = o then none else i.wdOf o' := by
  simp [drop, Function.update_apply]

/-- Adding makes no watch live but the one answered. -/
theorem live_add {i : Inotify Obj} {o : Obj} {w : Int} (h : (i.add o).2.Live w) :
    w = (i.add o).1 ∨ i.Live w := by
  obtain ⟨o', ho'⟩ := h
  rw [add_wdOf] at ho'
  by_cases ho : o' = o
  · rw [if_pos ho, Option.some.injEq] at ho'
    exact .inl ho'.symm
  · rw [if_neg ho] at ho'
    exact .inr ⟨o', ho'⟩

/-- Removing a watch makes none live. -/
theorem live_drop {i : Inotify Obj} {o : Obj} {w : Int} (h : (i.drop o).Live w) : i.Live w := by
  obtain ⟨o', ho'⟩ := h
  rw [drop_wdOf] at ho'
  by_cases ho : o' = o
  · rw [if_pos ho] at ho'
    exact absurd ho'.symm (Option.some_ne_none w)
  · rw [if_neg ho] at ho'
    exact ⟨o', ho'⟩

end Inotify

end InotifyRealtime
