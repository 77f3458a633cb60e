import Mathlib.Data.List.Induction
/-!
# InotifyRealtime.Foundation.Firsts

Lists that take each value **once, in the order of first coming**.

`enlist` puts a value behind those already held unless it is among them. A run over
`xs` leaves `xs.eraseDups` (`foldl_enlist_nil`), and what is held stays in front of
what comes (`prefix_foldl_enlist`): where only the first few places count, nothing
changes once they are taken (`take_foldl_enlist`).
-/

namespace InotifyRealtime.Firsts

variable {α : Type}

/-- The places of a list with one value put behind. -/
theorem getElem?_append_singleton_iff {held : List α} {x y : α} {i : Nat} :
    (held ++ [x])[i]? = some y ↔ held[i]? = some y ∨ i = held.length ∧ y = x := by
  rcases Nat.lt_trichotomy i held.length with hlt | rfl | hgt
  · rw [List.getElem?_append_left hlt]
    exact ⟨.inl, fun hor => hor.resolve_right fun hand => Nat.ne_of_lt hlt hand.1⟩
  · simp [eq_comm]
  · rw [List.getElem?_eq_none (by simp; omega), List.getElem?_eq_none (by omega)]
    exact ⟨.inl, fun hor => hor.resolve_right fun hand => Nat.ne_of_gt hgt hand.1⟩

variable [BEq α] [LawfulBEq α]

/-- Hold a value, once. -/
def enlist (held : List α) (x : α) : List α :=
  if x ∈ held then held else held ++ [x]

theorem enlist_of_mem {held : List α} {x : α} (h : x ∈ held) : enlist held x = held :=
  if_pos h

theorem enlist_of_not_mem {held : List α} {x : α} (h : x ∉ held) :
    enlist held x = held ++ [x] :=
  if_neg h

theorem mem_enlist {held : List α} {x y : α} : y ∈ enlist held x ↔ y ∈ held ∨ y = x := by
  by_cases h : x ∈ held
  · rw [enlist_of_mem h]
    constructor
    · exact .inl
    · intro hor
      rcases hor with hy | rfl
      · exact hy
      · exact h
  · rw [enlist_of_not_mem h, List.mem_append, List.mem_singleton]

theorem mem_foldl_enlist {xs held : List α} {y : α} :
    y ∈ xs.foldl enlist held ↔ y ∈ held ∨ y ∈ xs := by
  induction xs generalizing held with
  | nil => simp
  | cons x xs ih => rw [List.foldl_cons, ih, mem_enlist, List.mem_cons, or_assoc]

theorem prefix_enlist (held : List α) (x : α) : held <+: enlist held x := by
  by_cases h : x ∈ held
  · exact ⟨[], by rw [List.append_nil, enlist_of_mem h]⟩
  · exact ⟨[x], (enlist_of_not_mem h).symm⟩

theorem prefix_foldl_enlist (xs held : List α) : held <+: xs.foldl enlist held := by
  induction xs generalizing held with
  | nil => exact List.prefix_refl held
  | cons x xs ih => exact (prefix_enlist held x).trans (ih (enlist held x))

/-- A run from nothing, by induction on its last value. -/
theorem foldl_enlist_nil (xs : List α) : xs.foldl enlist [] = xs.eraseDups := by
  induction xs using List.reverseRecOn with
  | nil => rfl
  | append_singleton xs x ih =>
      rw [List.foldl_append, List.foldl_cons, List.foldl_nil, ih, List.eraseDups_append]
      by_cases h : x ∈ xs
      · rw [enlist_of_mem (List.mem_eraseDups.mpr h)]
        simp [List.removeAll, h]
      · rw [enlist_of_not_mem (mt List.mem_eraseDups.mp h)]
        simp [List.removeAll, h, List.eraseDups_cons]

/-- Once the first `n` places are taken they stay as they are. -/
theorem take_foldl_enlist {n : Nat} {held : List α} (h : n ≤ held.length) (xs : List α) :
    (xs.foldl enlist held).take n = held.take n := by
  obtain ⟨rest, hrest⟩ := prefix_foldl_enlist xs held
  rw [← hrest, List.take_append_of_le_length h]

end InotifyRealtime.Firsts
