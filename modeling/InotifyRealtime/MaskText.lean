import InotifyRealtime.Foundation.Flags
import InotifyRealtime.InotifyMask
/-!
# InotifyRealtime.MaskText

What the text of an event mask says.

`InotifyMaskToString` clears each bit once it has named it. The bits of the table are
single and apart, so this changes nothing for the entries behind it, and the text is
what `Flags.Table.text` gives for the table (`inotifyMaskToString_eq`). All that is
known of such texts holds of it: it can be read back, and it says of a mask which of
the 13 bits are set and no more (`maskText_faithful`).
-/

namespace InotifyRealtime

open Flags

/-- The `masks` table, with what makes lists of its names readable. -/
def maskTable : Table 64 Char where
  separator := ','
  entries := masks
  isFlag := by decide +kernel
  disjoint := by decide
  names_nodup := by decide
  name_ne_nil := by decide
  separator_not_mem := by decide

/-- A turn that finds its bit set writes one more name and clears the bit. -/
theorem maskItem_of_set {names : List (List Char)} {mask : BitVec 64}
    {item : BitVec 64 × List Char} (hne : [] ∉ names) (hset : mask &&& item.1 ≠ 0#64) :
    maskItem ([','].intercalate names, mask) item =
      ([','].intercalate (names ++ [item.2]), mask &&& ~~~item.1) := by
  by_cases hnames : names = []
  · subst hnames
    simp [maskItem, hset]
  · have htext : [','].intercalate names ≠ [] := intercalate_ne_nil hnames hne
    simp only [maskItem, hset, htext, ne_eq, not_false_eq_true, if_true]
    rw [intercalate_concat hnames]

theorem maskItem_of_clear {result : List Char} {mask : BitVec 64} {item : BitVec 64 × List Char}
    (hclear : mask &&& item.1 = 0#64) : maskItem (result, mask) item = (result, mask) := by
  simp [maskItem, hclear]

/-- The loop over some entries, by induction on them: to the names written so far it
adds those of the entries set in the mask, from which only bits already named are
missing. -/
theorem foldl_maskItem {entries : List (BitVec 64 × List Char)}
    (hdisjoint : entries.Pairwise fun e e' => e.1 &&& e'.1 = 0#64)
    (hentries : ∀ e ∈ entries, e.2 ≠ []) {names : List (List Char)} (hne : [] ∉ names)
    (mask : BitVec 64) :
    (entries.foldl maskItem ([','].intercalate names, mask)).1 =
      [','].intercalate (names ++ (present mask entries).map Prod.snd) := by
  induction entries generalizing names mask with
  | nil => simp
  | cons e entries ih =>
      obtain ⟨hapart, hrest⟩ := List.pairwise_cons.mp hdisjoint
      have hnamed : ∀ e' ∈ entries, e'.2 ≠ [] := fun e' he' =>
        hentries e' (List.mem_cons_of_mem _ he')
      rw [List.foldl_cons]
      by_cases hset : mask &&& e.1 = 0#64
      · rw [maskItem_of_clear hset, ih hrest hnamed hne, present_cons_of_clear hset]
      · have hnext : [] ∉ names ++ [e.2] := by
          simpa [hne] using (hentries e List.mem_cons_self).symm
        rw [maskItem_of_set hne hset, ih hrest hnamed hnext, present_clear hapart,
          present_cons_of_set hset, List.map_cons, List.append_assoc, List.singleton_append]

theorem inotifyMaskToString_eq (mask : BitVec 64) :
    inotifyMaskToString mask = maskTable.text mask :=
  foldl_maskItem maskTable.disjoint maskTable.name_ne_nil List.not_mem_nil mask

example : inotifyMaskToString 0x600#64 = "IN_DELETE,IN_DELETE_SELF".toList := by decide

/-- **What the text of a mask says.** For every mask it lists, between single commas,
the names of the entries whose bit is set, each once and in table order. Reading it
gives the mask up to the bits that are not in the table, and two masks have the same
text exactly if they agree on the bits that are. -/
theorem maskText_faithful (mask : BitVec 64) :
    inotifyMaskToString mask =
        [','].intercalate ((masks.filter fun item => mask &&& item.1 ≠ 0#64).map Prod.snd) ∧
      ((masks.filter fun item => mask &&& item.1 ≠ 0#64).map Prod.snd).Nodup ∧
      Punctuated ',' (inotifyMaskToString mask) ∧
      maskTable.read (inotifyMaskToString mask) = some (mask &&& union masks) ∧
      ∀ mask', inotifyMaskToString mask = inotifyMaskToString mask' ↔
        mask &&& union masks = mask' &&& union masks := by
  refine ⟨inotifyMaskToString_eq mask, maskTable.nodup_names mask, ?_, ?_, fun mask' => ?_⟩
  · rw [inotifyMaskToString_eq]
    exact maskTable.text_punctuated mask
  · rw [inotifyMaskToString_eq]
    exact maskTable.read_text mask
  · rw [inotifyMaskToString_eq, inotifyMaskToString_eq]
    exact maskTable.text_eq_iff mask mask'

end InotifyRealtime
