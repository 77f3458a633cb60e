import InotifyRealtime.Foundation.Bytes
/-!
# Foundation.Location

Places in a file hierarchy, and their absolute path names.

A `Location` is the list of names that leads from the root to a place. Its
canonical path name writes a slash in front of each; the root itself is `/`. As
names are neither empty nor contain a slash, a canonical path name belongs to one
location (`canonical_injective`).
-/

namespace Location

open Bytes

/-- The byte `/`. -/
def slash : Byte := 0x2f#8

/-- The name of a directory entry. -/
structure Name where
  bytes : List Byte
  ne_nil : bytes ≠ []
  no_slash : slash ∉ bytes
  no_nul : 0#8 ∉ bytes

@[ext] theorem Name.ext {n m : Name} (h : n.bytes = m.bytes) : n = m := by
  cases n
  cases m
  simpa using h

instance : DecidableEq Name := fun _ _ => decidable_of_iff _ Name.ext_iff.symm

/-- The names, each with a slash in front. -/
def spelled : List Name → List Byte
  | [] => []
  | n :: ns => slash :: (n.bytes ++ spelled ns)

/-- The absolute path name of a location. -/
def canonical (l : List Name) : List Byte := if l = [] then [slash] else spelled l

@[simp] theorem spelled_nil : spelled [] = [] := rfl

/-- Up to the next slash stands exactly the first name. -/
theorem takeWhile_name (n : Name) (l : List Name) :
    (n.bytes ++ spelled l).takeWhile (· ≠ slash) = n.bytes := by
  have hname : ∀ b ∈ n.bytes, decide (b ≠ slash) = true := by
    intro b hb
    simpa using fun heq : b = slash => n.no_slash (heq ▸ hb)
  rw [List.takeWhile_append_of_pos hname]
  cases l with
  | nil => simp
  | cons m l => simp [spelled]

theorem spelled_injective : ∀ {l l' : List Name}, spelled l = spelled l' → l = l'
  | [], [], _ => rfl
  | [], _ :: _, h => by simp [spelled] at h
  | _ :: _, [], h => by simp [spelled] at h
  | n :: l, m :: l', h => by
      have htail : n.bytes ++ spelled l = m.bytes ++ spelled l' := (List.cons.inj h).2
      have hname : n.bytes = m.bytes := by
        rw [← takeWhile_name n l, htail, takeWhile_name]
      rw [hname] at htail
      rw [Name.ext hname, spelled_injective (List.append_cancel_left htail)]

/-- The root is the only location whose path name is a single slash. -/
theorem spelled_ne_slash (l : List Name) : spelled l ≠ [slash] := by
  cases l with
  | nil => simp
  | cons n l =>
      intro h
      have hnil : n.bytes ++ spelled l = [] := (List.cons.inj h).2
      exact n.ne_nil (List.append_eq_nil_iff.mp hnil).1

/-- A canonical path name belongs to one location. -/
theorem canonical_injective {l l' : List Name} (h : canonical l = canonical l') : l = l' := by
  unfold canonical at h
  by_cases hl : l = [] <;> by_cases hl' : l' = []
  · rw [hl, hl']
  · rw [if_pos hl, if_neg hl'] at h
    exact absurd h.symm (spelled_ne_slash l')
  · rw [if_neg hl, if_pos hl'] at h
    exact absurd h (spelled_ne_slash l)
  · rw [if_neg hl, if_neg hl'] at h
    exact spelled_injective h

end Location
