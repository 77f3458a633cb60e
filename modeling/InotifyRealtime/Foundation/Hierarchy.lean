import InotifyRealtime.Foundation.Location
/-!
# Foundation.Hierarchy

Directories that move.

A `Hierarchy` says which directory is at which location, and where each directory
is; the two agree. A rename takes a directory and everything below it to a new
place (`relocate`): directories keep their identity and change their location.
-/

open Location (Name)

/-- Directories of identity `ι`, each at one location. -/
structure Hierarchy (ι : Type) where
  dirAt : List Name → Option ι
  locationOf : ι → Option (List Name)
  agree : ∀ o l, locationOf o = some l ↔ dirAt l = some o

namespace Hierarchy

variable {ι : Type}

/-- Where a location is after a rename of `p` to `q`. -/
def relocate (p q l : List Name) : List Name := if p <+: l then q ++ l.drop p.length else l

theorem relocate_below (p q r : List Name) : relocate p q (p ++ r) = q ++ r := by
  simp [relocate]

theorem relocate_of_not_below {p l : List Name} (q : List Name) (h : ¬ p <+: l) :
    relocate p q l = l := by
  rw [relocate, if_neg h]

/-- A rename of `p` to `q` is possible: there is a directory to move, it does not
move below itself, and its new place is free. -/
structure Renames (h : Hierarchy ι) (p q : List Name) : Prop where
  source : h.dirAt p ≠ none
  not_below : ¬ p <+: q
  free : ∀ l, q <+: l → h.dirAt l = none

/-- The hierarchy after a rename. -/
def rename (h : Hierarchy ι) (p q : List Name) (possible : h.Renames p q) : Hierarchy ι where
  dirAt l :=
    if q <+: l then h.dirAt (p ++ l.drop q.length) else if p <+: l then none else h.dirAt l
  locationOf o := (h.locationOf o).map (relocate p q)
  agree := by
    intro o l
    constructor
    · intro ho
      obtain ⟨l₀, hl₀, rfl⟩ := Option.map_eq_some_iff.mp ho
      by_cases hp : p <+: l₀
      · obtain ⟨r, rfl⟩ := hp
        rw [relocate_below, if_pos (List.prefix_append q r), List.drop_left]
        exact (h.agree o _).mp hl₀
      · rw [relocate_of_not_below q hp]
        have hat : h.dirAt l₀ = some o := (h.agree o l₀).mp hl₀
        have hq : ¬ q <+: l₀ := fun hq => absurd (hat.symm.trans (possible.free l₀ hq)) nofun
        rw [if_neg hq, if_neg hp]
        exact hat
    · intro hat
      by_cases hq : q <+: l
      · obtain ⟨r, rfl⟩ := hq
        rw [if_pos (List.prefix_append q r), List.drop_left] at hat
        rw [(h.agree o _).mpr hat, Option.map_some, relocate_below]
      · rw [if_neg hq] at hat
        by_cases hp : p <+: l
        · rw [if_pos hp] at hat
          exact absurd hat nofun
        · rw [if_neg hp] at hat
          rw [(h.agree o l).mpr hat, Option.map_some, relocate_of_not_below q hp]

@[simp] theorem rename_locationOf (h : Hierarchy ι) (p q : List Name) (possible : h.Renames p q)
    (o : ι) : (h.rename p q possible).locationOf o = (h.locationOf o).map (relocate p q) := rfl

end Hierarchy
