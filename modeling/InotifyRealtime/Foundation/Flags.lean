import Mathlib.Data.List.Nodup
import Mathlib.Tactic.Common
/-!
# Foundation.Flags

Flags packed into a word, and their names.

A `Table` gives each of some single bits of a word a name. The text of a mask is the
names of the bits set in it, in the order of the table, with a separator between
them. Such a text can be read: names are not empty and do not contain the separator,
so splitting at the separators gives them back, also where one name begins like
another. What is read is the mask, up to the bits that have no name
(`Table.read_text`), and that is all a text depends on (`Table.text_eq_iff`).
-/

namespace Flags

variable {w : Nat} {α ν : Type*}

/-- One bit of a word. -/
def IsFlag (b : BitVec w) : Prop := ∃ i < w, b = BitVec.twoPow w i

instance (b : BitVec w) : Decidable (IsFlag b) :=
  inferInstanceAs (Decidable (∃ i < w, b = BitVec.twoPow w i))

/-- The bits of all entries together. -/
def union (entries : List (BitVec w × ν)) : BitVec w :=
  entries.foldr (fun e bits => e.1 ||| bits) 0#w

/-- The entries whose bit is set. -/
def present (mask : BitVec w) (entries : List (BitVec w × ν)) : List (BitVec w × ν) :=
  entries.filter fun e => mask &&& e.1 ≠ 0#w

@[simp] theorem union_nil : union ([] : List (BitVec w × ν)) = 0#w := rfl

@[simp] theorem union_cons (e : BitVec w × ν) (entries : List (BitVec w × ν)) :
    union (e :: entries) = e.1 ||| union entries := rfl

@[simp] theorem present_nil (mask : BitVec w) : present mask ([] : List (BitVec w × ν)) = [] := rfl

theorem present_cons_of_set {mask : BitVec w} {e : BitVec w × ν} (h : mask &&& e.1 ≠ 0#w)
    (entries : List (BitVec w × ν)) : present mask (e :: entries) = e :: present mask entries := by
  simp [present, h]

theorem present_cons_of_clear {mask : BitVec w} {e : BitVec w × ν} (h : mask &&& e.1 = 0#w)
    (entries : List (BitVec w × ν)) : present mask (e :: entries) = present mask entries := by
  simp [present, h]

/-- A single bit is set as a whole. -/
theorem IsFlag.and_eq {b mask : BitVec w} (hb : IsFlag b) (h : mask &&& b ≠ 0#w) :
    mask &&& b = b := by
  obtain ⟨i, -, rfl⟩ := hb
  rw [BitVec.and_twoPow] at h ⊢
  split
  · rfl
  · next hclear =>
      rw [if_neg hclear] at h
      exact absurd rfl h

/-- The bits that are set and have a name. -/
theorem union_present {entries : List (BitVec w × ν)} (h : ∀ e ∈ entries, IsFlag e.1)
    (mask : BitVec w) : union (present mask entries) = mask &&& union entries := by
  induction entries with
  | nil => simp
  | cons e entries ih =>
      have hrest := ih fun e' he' => h e' (List.mem_cons_of_mem _ he')
      rw [union_cons, BitVec.and_or_distrib_left, ← hrest]
      by_cases hset : mask &&& e.1 = 0#w
      · rw [present_cons_of_clear hset, hset, BitVec.zero_or]
      · rw [present_cons_of_set hset, union_cons, (h e List.mem_cons_self).and_eq hset]

theorem union_and_of_mem {entries : List (BitVec w × ν)} {e : BitVec w × ν} (h : e ∈ entries) :
    union entries &&& e.1 = e.1 := by
  induction entries with
  | nil => exact absurd h List.not_mem_nil
  | cons e' entries ih =>
      rw [union_cons, BitVec.and_or_distrib_right]
      rcases List.mem_cons.mp h with rfl | h
      · ext i hi
        simp only [BitVec.getElem_or, BitVec.getElem_and, Bool.and_self]
        cases e.1[i] <;> simp
      · rw [ih h]
        ext i hi
        simp only [BitVec.getElem_or, BitVec.getElem_and]
        cases e.1[i] <;> simp

/-- Only bits that have a name matter. -/
theorem present_congr {entries : List (BitVec w × ν)} {mask mask' : BitVec w}
    (h : mask &&& union entries = mask' &&& union entries) :
    present mask entries = present mask' entries := by
  refine List.filter_congr fun e he => ?_
  have hknown (m : BitVec w) : m &&& e.1 = m &&& union entries &&& e.1 := by
    rw [BitVec.and_assoc, union_and_of_mem he]
  rw [hknown mask, hknown mask', h]

/-- Clearing a bit that no entry has changes nothing. -/
theorem present_clear {entries : List (BitVec w × ν)} {b : BitVec w}
    (h : ∀ e ∈ entries, b &&& e.1 = 0#w) (mask : BitVec w) :
    present (mask &&& ~~~b) entries = present mask entries := by
  refine List.filter_congr fun e he => ?_
  have hsame : mask &&& ~~~b &&& e.1 = mask &&& e.1 := by
    ext i hi
    have hbit : (b &&& e.1)[i] = (0#w)[i] := by rw [h e he]
    simp only [BitVec.getElem_and, BitVec.getElem_not, BitVec.getElem_zero] at hbit ⊢
    cases hbi : b[i]
    · simp
    · rw [hbi, Bool.true_and] at hbit
      simp [hbit]
  rw [hsame]

/-! ### Lists of names -/

/-- No separator at the front, at the end or next to another one. -/
structure Punctuated (separator : α) (text : List α) : Prop where
  leading : text.head? ≠ some separator
  trailing : text.getLast? ≠ some separator
  doubled : ¬ [separator, separator] <:+: text

section Text

variable [DecidableEq α] {separator : α}

/-- A stray separator would leave an empty piece. -/
theorem punctuated_of_splitOn {text : List α} (h : [] ∉ text.splitOn separator) :
    Punctuated separator text := by
  have hsplit (before after : List α) (htext : text = before ++ separator :: after) :
      [] ∉ before.splitOn separator ∧ [] ∉ after.splitOn separator := by
    rw [htext, List.splitOn_append_cons_self, List.mem_append] at h
    exact not_or.mp h
  refine ⟨fun hhead => ?_, fun hlast => ?_, fun hdoubled => ?_⟩
  · obtain ⟨after, rfl⟩ := List.head?_eq_some_iff.mp hhead
    exact (hsplit [] after rfl).1 (by simp)
  · obtain ⟨before, rfl⟩ := List.getLast?_eq_some_iff.mp hlast
    exact (hsplit before [] rfl).2 (by simp)
  · obtain ⟨before, after, rfl⟩ := hdoubled
    have hrest := (hsplit before (separator :: after) (by simp)).2
    rw [List.splitOn_cons_eq_if_modifyHead, if_pos (beq_self_eq_true _)] at hrest
    exact hrest List.mem_cons_self

omit [DecidableEq α] in
theorem intercalate_ne_nil {names : List (List α)} (h : names ≠ []) (hne : [] ∉ names) :
    [separator].intercalate names ≠ [] := by
  cases names with
  | nil => exact absurd rfl h
  | cons name names =>
      have hname : name ≠ [] := fun hnil => hne (hnil ▸ List.mem_cons_self)
      cases names with
      | nil => rwa [List.intercalate_singleton]
      | cons name' names => simp [hname]

omit [DecidableEq α] in
/-- One more name at the end. -/
theorem intercalate_concat {names : List (List α)} (h : names ≠ []) (name : List α) :
    [separator].intercalate (names ++ [name]) =
      [separator].intercalate names ++ [separator] ++ name := by
  induction names with
  | nil => exact absurd rfl h
  | cons first names ih =>
      cases names with
      | nil => simp
      | cons second names =>
          have hrest := ih (List.cons_ne_nil second names)
          simp only [List.cons_append, List.intercalate_cons_cons] at hrest ⊢
          rw [hrest]
          simp only [List.append_assoc]

theorem punctuated_intercalate {names : List (List α)} (hne : [] ∉ names)
    (hfree : ∀ name ∈ names, separator ∉ name) :
    Punctuated separator ([separator].intercalate names) := by
  by_cases hnames : names = []
  · subst hnames
    exact ⟨by simp, by simp, by simp⟩
  · refine punctuated_of_splitOn ?_
    rwa [List.splitOn_intercalate separator hfree hnames]

end Text

/-! ### Tables -/

/-- Single bits with names that can be told apart in a list. -/
structure Table (w : Nat) (α : Type*) where
  separator : α
  entries : List (BitVec w × List α)
  isFlag : ∀ e ∈ entries, IsFlag e.1
  disjoint : entries.Pairwise fun e e' => e.1 &&& e'.1 = 0#w
  names_nodup : (entries.map Prod.snd).Nodup
  name_ne_nil : ∀ e ∈ entries, e.2 ≠ []
  separator_not_mem : ∀ e ∈ entries, separator ∉ e.2

namespace Table

variable (t : Table w α)

/-- The bits that have a name. -/
def known : BitVec w := union t.entries

/-- The names of the bits set in a mask, in table order. -/
def names (mask : BitVec w) : List (List α) := (present mask t.entries).map Prod.snd

def text (mask : BitVec w) : List α := [t.separator].intercalate (t.names mask)

/-- Each name stands there once. -/
theorem nodup_names (mask : BitVec w) : (t.names mask).Nodup :=
  t.names_nodup.sublist (List.filter_sublist.map Prod.snd)

theorem mem_names {mask : BitVec w} {name : List α} (h : name ∈ t.names mask) :
    name ≠ [] ∧ t.separator ∉ name := by
  obtain ⟨e, he, rfl⟩ := List.mem_map.mp h
  have hmem := List.mem_of_mem_filter he
  exact ⟨t.name_ne_nil e hmem, t.separator_not_mem e hmem⟩

theorem nil_not_mem_names (mask : BitVec w) : [] ∉ t.names mask :=
  fun h => (t.mem_names h).1 rfl

variable [DecidableEq α]

theorem text_punctuated (mask : BitVec w) : Punctuated t.separator (t.text mask) :=
  punctuated_intercalate (t.nil_not_mem_names mask) fun _ h => (t.mem_names h).2

/-- The bit that has a name. -/
def bit? (name : List α) : Option (BitVec w) :=
  (t.entries.find? fun e => e.2 = name).map Prod.fst

/-- The bits named in a list; `none` where a name is not in the table. -/
def read (text : List α) : Option (BitVec w) :=
  if text = [] then some 0#w
  else ((text.splitOn t.separator).mapM t.bit?).map (List.foldr (· ||| ·) 0#w)

theorem bit?_name {e : BitVec w × List α} (h : e ∈ t.entries) : t.bit? e.2 = some e.1 := by
  have hfind : (t.entries.find? fun e' => e'.2 = e.2) = some e := by
    obtain ⟨e', he'⟩ : ∃ e', (t.entries.find? fun e' => e'.2 = e.2) = some e' :=
      Option.isSome_iff_exists.mp (List.find?_isSome.mpr ⟨e, h, by simp⟩)
    have hname : e'.2 = e.2 := by simpa using List.find?_some he'
    rw [he', List.inj_on_of_nodup_map t.names_nodup (List.mem_of_find?_eq_some he') h hname]
  rw [bit?, hfind, Option.map_some]

theorem mapM_bit?_names {entries : List (BitVec w × List α)} (h : ∀ e ∈ entries, e ∈ t.entries) :
    (entries.map Prod.snd).mapM t.bit? = some (entries.map Prod.fst) := by
  induction entries with
  | nil => rfl
  | cons e entries ih =>
      have hrest := ih fun e' he' => h e' (List.mem_cons_of_mem _ he')
      rw [List.map_cons, List.mapM_cons, t.bit?_name (h e List.mem_cons_self), hrest]
      rfl

/-- **Reading the text of a mask** gives the mask, up to the bits without a name. -/
theorem read_text (mask : BitVec w) : t.read (t.text mask) = some (mask &&& t.known) := by
  have hunion : union (present mask t.entries) = mask &&& t.known := union_present t.isFlag mask
  by_cases hnone : t.names mask = []
  · have hpresent : present mask t.entries = [] := List.map_eq_nil_iff.mp hnone
    rw [text, hnone, List.intercalate_nil, read, if_pos rfl, ← hunion, hpresent, union_nil]
  · have hne : t.text mask ≠ [] := intercalate_ne_nil hnone (t.nil_not_mem_names mask)
    have hsplit : (t.text mask).splitOn t.separator = t.names mask :=
      List.splitOn_intercalate t.separator (fun _ h => (t.mem_names h).2) hnone
    have hbits : (t.names mask).mapM t.bit? = some ((present mask t.entries).map Prod.fst) :=
      t.mapM_bit?_names fun _ h => List.mem_of_mem_filter h
    rw [read, if_neg hne, hsplit, hbits, Option.map_some, List.foldr_map, ← hunion]
    rfl

/-- **What a text says** is which of the bits that have a name are set. -/
theorem text_eq_iff (mask mask' : BitVec w) :
    t.text mask = t.text mask' ↔ mask &&& t.known = mask' &&& t.known := by
  constructor
  · intro h
    have hread := t.read_text mask
    rw [h, t.read_text mask', Option.some.injEq] at hread
    exact hread.symm
  · intro h
    rw [text, text, names, names, present_congr h]

end Table

end Flags
