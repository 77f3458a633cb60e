import Std.Data.String.ToInt
import InotifyRealtime.Foundation.Bytes
/-!
# Foundation.Text

Text written to a file, as the bytes that arrive there.

ASCII text is its own encoding (`encode`), `%d` writes a number in decimal and `%s` the
bytes of a string up to its first NUL. Text made of such pieces can be taken apart again
where the pieces are set off by bytes they do not contain: the first such byte ends the
piece before it (`cut_first`), and the last one begins the piece behind it (`cut_last`).
-/

namespace Text

open Bytes

variable {α : Type*}

/-! ### Cutting -/

/-- The first separator is where the piece before it ends. -/
theorem cut_first {sep : α} {a a' x x' : List α} (ha : sep ∉ a) (ha' : sep ∉ a')
    (h : a ++ sep :: x = a' ++ sep :: x') : a = a' ∧ x = x' := by
  induction a generalizing a' with
  | nil =>
      cases a' with
      | nil => exact ⟨rfl, (List.cons.inj h).2⟩
      | cons c a' => exact absurd (List.cons.inj h).1 (List.ne_of_not_mem_cons ha')
  | cons c a ih =>
      cases a' with
      | nil => exact absurd (List.cons.inj h).1.symm (List.ne_of_not_mem_cons ha)
      | cons c' a' =>
          obtain ⟨hc, hrest⟩ := List.cons.inj h
          obtain ⟨hsame, hx⟩ := ih (List.not_mem_of_not_mem_cons ha)
            (List.not_mem_of_not_mem_cons ha') hrest
          exact ⟨by rw [hc, hsame], hx⟩

/-- The last separator is where the piece behind it begins. -/
theorem cut_last {sep : α} {a a' x x' : List α} (hx : sep ∉ x) (hx' : sep ∉ x')
    (h : a ++ sep :: x = a' ++ sep :: x') : a = a' ∧ x = x' := by
  have hreverse := congrArg List.reverse h
  simp only [List.reverse_append, List.reverse_cons, List.append_assoc,
    List.singleton_append] at hreverse
  obtain ⟨hsame, hrest⟩ := cut_first (by simpa using hx) (by simpa using hx') hreverse
  exact ⟨List.reverse_injective hrest, List.reverse_injective hsame⟩

/-- What stands before the first separator, when there is one behind `a` at the latest. -/
theorem exists_first (sep : α) (a x : List α) :
    ∃ a₀ y, a ++ sep :: x = a₀ ++ sep :: y ∧ sep ∉ a₀ ∧ a₀ ⊆ a := by
  induction a with
  | nil => exact ⟨[], x, rfl, List.not_mem_nil, List.nil_subset []⟩
  | cons c a ih =>
      by_cases hc : c = sep
      · subst hc
        exact ⟨[], a ++ c :: x, rfl, List.not_mem_nil, List.nil_subset _⟩
      · obtain ⟨a₀, y, hsplit, hnone, hsub⟩ := ih
        refine ⟨c :: a₀, y, by rw [List.cons_append, hsplit, List.cons_append], fun hmem => ?_,
          List.cons_subset_cons c hsub⟩
        exact (List.mem_cons.mp hmem).elim (Ne.symm hc) hnone

/-! ### Characters -/

/-- The ASCII characters but the control characters. -/
def isPrintable (c : Char) : Bool := 0x20 ≤ c.toNat && c.toNat < 0x7f

def byteOf (c : Char) : Byte := BitVec.ofNat 8 c.toNat

def encode (s : List Char) : List Byte := s.map byteOf

theorem byteOf_toNat {c : Char} (h : isPrintable c = true) :
    (byteOf c).toNat = c.toNat ∧ 0x20 ≤ c.toNat := by
  simp only [isPrintable, Bool.and_eq_true, decide_eq_true_eq] at h
  refine ⟨?_, h.1⟩
  rw [byteOf, BitVec.toNat_ofNat]
  omega

/-- Text can be read. -/
theorem map_encode {s : List Char} (hs : ∀ c ∈ s, isPrintable c = true) :
    (encode s).map (fun b => Char.ofNat b.toNat) = s := by
  rw [encode, List.map_map]
  refine (List.map_congr_left fun c hc => ?_).trans (List.map_id s)
  rw [Function.comp_apply, (byteOf_toNat (hs c hc)).1, Char.ofNat_toNat, id]

theorem encode_inj {s s' : List Char} (hs : ∀ c ∈ s, isPrintable c = true)
    (hs' : ∀ c ∈ s', isPrintable c = true) (h : encode s = encode s') : s = s' := by
  rw [← map_encode hs, h, map_encode hs']

/-- Text has no control characters. -/
theorem control_not_mem {s : List Char} (hs : ∀ c ∈ s, isPrintable c = true) {b : Byte}
    (hb : b.toNat < 0x20) : b ∉ encode s := by
  intro hmem
  obtain ⟨c, hc, rfl⟩ := List.mem_map.mp hmem
  obtain ⟨hval, hle⟩ := byteOf_toNat (hs c hc)
  omega

/-! ### Conversions -/

/-- What `%d` writes. -/
def decimal (n : Int) : List Char := n.repr.toList

theorem decimal_inj {n n' : Int} (h : decimal n = decimal n') : n = n' :=
  Int.repr_injective (String.toList_inj.mp h)

theorem mem_decimal {c : Char} {n : Int} (h : c ∈ decimal n) : c.isDigit = true ∨ c = '-' := by
  cases n with
  | ofNat n =>
      have hmem : c ∈ Nat.toDigits 10 n := by
        rw [← Nat.toList_repr]
        exact h
      exact .inl (Nat.isDigit_of_mem_toDigits (by decide) (by decide) hmem)
  | negSucc n =>
      have hmem : c = '-' ∨ c ∈ Nat.toDigits 10 (n + 1) := by
        rw [← Nat.toList_repr]
        simpa [decimal, Int.repr] using h
      rcases hmem with hsign | hdigit
      · exact .inr hsign
      · exact .inl (Nat.isDigit_of_mem_toDigits (by decide) (by decide) hdigit)

theorem decimal_printable {c : Char} {n : Int} (h : c ∈ decimal n) : isPrintable c = true := by
  rcases mem_decimal h with hdigit | rfl
  · have hrange := Char.isDigit_iff_toNat.mp hdigit
    have hzero : '0'.toNat = 0x30 := rfl
    have hnine : '9'.toNat = 0x39 := rfl
    simp only [isPrintable, Bool.and_eq_true, decide_eq_true_eq]
    omega
  · decide

/-- What `%s` writes of a string. -/
def cStr (s : List Byte) : List Byte := s.takeWhile fun b => b ≠ 0#8

theorem cStr_eq {s : List Byte} (h : 0#8 ∉ s) : cStr s = s := by
  refine List.takeWhile_eq_self_iff.mpr fun b hb => ?_
  simpa using fun hzero : b = 0#8 => h (hzero ▸ hb)

end Text
