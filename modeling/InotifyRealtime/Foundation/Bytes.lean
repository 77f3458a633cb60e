import Mathlib
/-!
# Foundation.Bytes

Raw memory as lists of bytes: little-endian 32-bit words, and C strings.

A C string has no length of its own. Reading one means walking the bytes up to
the first NUL, so `cString` answers `none` when the bytes at hand run out first:
whatever is read then lies outside them. The lemmas say when the string read
back is the string written (`cString_terminated`) and that the first byte alone
decides whether it is empty (`cString_eq_nil_iff`).
-/

namespace Bytes

/-- An octet of memory. -/
abbrev Byte := BitVec 8

/-- The four bytes of a 32-bit word, least significant first. -/
def wordBytes (w : BitVec 32) : List Byte :=
  [w.extractLsb' 0 8, w.extractLsb' 8 8, w.extractLsb' 16 8, w.extractLsb' 24 8]

/-- Read a little-endian 32-bit word off the front of some bytes. -/
def takeWord : List Byte → Option (BitVec 32 × List Byte)
  | b₀ :: b₁ :: b₂ :: b₃ :: rest => some (b₃ ++ b₂ ++ b₁ ++ b₀, rest)
  | _ => none

@[simp] theorem wordBytes_length (w : BitVec 32) : (wordBytes w).length = 4 := rfl

theorem append_extract_bytes (w : BitVec 32) :
    (w.extractLsb' 24 8 ++ w.extractLsb' 16 8 ++ w.extractLsb' 8 8 ++ w.extractLsb' 0 8 :
      BitVec 32) = w := by
  rw [BitVec.extractLsb'_append_extractLsb'_eq_extractLsb' (by rfl),
    BitVec.extractLsb'_append_extractLsb'_eq_extractLsb' (by rfl),
    BitVec.extractLsb'_append_extractLsb'_eq_extractLsb' (by rfl)]
  simp

/-- A word written little-endian reads back, leaving the bytes after it. -/
@[simp] theorem takeWord_wordBytes (w : BitVec 32) (rest : List Byte) :
    takeWord (wordBytes w ++ rest) = some (w, rest) := by
  simp only [wordBytes, List.cons_append, List.nil_append, takeWord, append_extract_bytes]

/-- The C string at the front of some bytes: those before the first NUL, or
`none` when there is no NUL among them. -/
def cString : List Byte → Option (List Byte)
  | [] => none
  | b :: bs => if b = 0#8 then some [] else (cString bs).map (b :: ·)

/-- A NUL-free string reads back when a NUL follows it. -/
theorem cString_terminated {s : List Byte} (hs : 0#8 ∉ s) (rest : List Byte) :
    cString (s ++ 0#8 :: rest) = some s := by
  induction s with
  | nil => rfl
  | cons b s ih =>
      have hb : 0#8 ≠ b := List.ne_of_not_mem_cons hs
      have hs : 0#8 ∉ s := List.not_mem_of_not_mem_cons hs
      rw [List.cons_append, cString, if_neg hb.symm, ih hs]
      rfl

/-- A string is read inside the bytes at hand exactly when there is a NUL among them. -/
theorem cString_ne_none_iff {bs : List Byte} : cString bs ≠ none ↔ 0#8 ∈ bs := by
  induction bs with
  | nil => simp [cString]
  | cons b bs ih =>
      by_cases hb : b = 0#8
      · simp [cString, hb]
      · rw [cString, if_neg hb, ne_eq, Option.map_eq_none_iff, List.mem_cons]
        rw [ne_eq] at ih
        rw [ih]
        exact ⟨.inr, fun h => h.resolve_left (Ne.symm hb)⟩

/-- What follows a NUL does not matter. -/
theorem cString_append {bs : List Byte} (h : 0#8 ∈ bs) (rest : List Byte) :
    cString (bs ++ rest) = cString bs := by
  induction bs with
  | nil => exact absurd h List.not_mem_nil
  | cons b bs ih =>
      rw [List.cons_append, cString, cString]
      by_cases hb : b = 0#8
      · rw [if_pos hb, if_pos hb]
      · rw [if_neg hb, if_neg hb, ih ((List.mem_cons.mp h).resolve_left (Ne.symm hb))]

/-- The string at the front is empty exactly when the first byte is a NUL. -/
theorem cString_eq_nil_iff {bs : List Byte} : cString bs = some [] ↔ bs.head? = some 0#8 := by
  cases bs with
  | nil => simp [cString]
  | cons b bs =>
      by_cases hb : b = 0#8
      · subst hb
        simp [cString]
      · rw [cString, if_neg hb]
        simpa using hb

end Bytes
