import InotifyRealtime.Decode
/-!
# InotifyRealtime.DecodeSound

What the decode loop makes of well-formed reads, names included.

The loop copies each name as a C string that starts behind the header and never
looks at `len`. Behind the header of a named record stands its own name field,
which ends in a NUL, so the name is right whatever comes next. Behind the header
of a nameless record stands whatever follows the record: the first byte of the
next one, or a byte the `read` did not write. The name comes out empty exactly
when that byte is inside the array and is a NUL.
-/

namespace InotifyRealtime

open Bytes

/-- One record is received as it was sent unless it is nameless and the byte
behind it is not a NUL. -/
theorem received_eq_event_iff (r : InotifyEvent) (following : List Byte) :
    r.received following = r.event ↔ (r.Nameless → following.head? = some 0#8) := by
  by_cases h : r.Nameless
  · have hname : r.event.name = some [] := by
      simp [InotifyEvent.event, InotifyEvent.name_of_nameless h]
    have hread : (r.received following).name = cString following := by
      simp [InotifyEvent.received, InotifyEvent.nameField_of_nameless h]
    constructor
    · intro heq _
      rw [← cString_eq_nil_iff, ← hread, heq, hname]
    · intro hnul
      have hempty : cString following = some [] := cString_eq_nil_iff.mpr (hnul h)
      simp [InotifyEvent.received, InotifyEvent.event, InotifyEvent.nameField_of_nameless h,
        InotifyEvent.name_of_nameless h, hempty]
  · simp [InotifyEvent.received, InotifyEvent.event, InotifyEvent.cString_nameField h, h]

/-- Every nameless record of `rs` has a NUL behind it, in the bytes that start
with the encoded records. -/
def NulBehindNameless (rs : List InotifyEvent) (bytes : List Byte) : Prop :=
  ∀ before r after, rs = before ++ r :: after → r.Nameless →
    bytes[(encodeAll (before ++ [r])).length]? = some 0#8

@[simp] theorem nulBehindNameless_nil (bytes : List Byte) : NulBehindNameless [] bytes := by
  simp [NulBehindNameless]

/-- The byte right behind a run of records is the first of what follows it. -/
theorem getElem?_behind (rs : List InotifyEvent) (following : List Byte) :
    (encodeAll rs ++ following)[(encodeAll rs).length]? = following.head? := by
  rw [List.getElem?_append_right (Nat.le_refl _), Nat.sub_self, List.head?_eq_getElem?]

theorem nulBehindNameless_cons (r : InotifyEvent) (rs : List InotifyEvent)
    (following : List Byte) :
    NulBehindNameless (r :: rs) (encodeAll (r :: rs) ++ following) ↔
      (r.Nameless → (encodeAll rs ++ following).head? = some 0#8) ∧
        NulBehindNameless rs (encodeAll rs ++ following) := by
  have hhere : (encodeAll (r :: rs) ++ following)[(encodeAll [r]).length]? =
      (encodeAll rs ++ following).head? := by
    have hsplit : encodeAll (r :: rs) ++ following =
        encodeAll [r] ++ (encodeAll rs ++ following) := by simp
    rw [hsplit]
    exact getElem?_behind [r] _
  have hlater : ∀ before r', (encodeAll (r :: rs) ++ following)[
      (encodeAll (r :: before ++ [r'])).length]? =
        (encodeAll rs ++ following)[(encodeAll (before ++ [r'])).length]? := by
    intro before r'
    rw [List.cons_append, encodeAll_cons, encodeAll_cons, List.length_append, List.append_assoc,
      List.getElem?_append_right (by omega), Nat.add_sub_cancel_left]
  constructor
  · intro h
    refine ⟨fun hr => hhere ▸ h [] r rs rfl hr, fun before r' after heq hr' => ?_⟩
    rw [← hlater]
    exact h (r :: before) r' after (by rw [heq, List.cons_append]) hr'
  · rintro ⟨hr, hrest⟩ before r' after heq hr'
    cases before with
    | nil =>
        obtain ⟨rfl, rfl⟩ : r = r' ∧ rs = after := by simpa using heq
        exact hhere ▸ hr hr'
    | cons b before =>
        obtain ⟨rfl, rfl⟩ : r = b ∧ rs = before ++ r' :: after := by simpa using heq
        rw [hlater]
        exact hrest before r' after rfl hr'

/-- Decoding recovers every record exactly when each nameless one has a NUL
behind it, by induction on the records. -/
theorem receivedAll_eq_events_iff (rs : List InotifyEvent) (following : List Byte) :
    receivedAll rs following = rs.map InotifyEvent.event ↔
      NulBehindNameless rs (encodeAll rs ++ following) := by
  induction rs with
  | nil => simp [receivedAll]
  | cons r rs ih =>
      rw [receivedAll, List.map_cons, List.cons.injEq, received_eq_event_iff, ih,
        nulBehindNameless_cons]

theorem decode_events_iff {rs : List InotifyEvent} {buf : ReadBuffer} (h : buf.Holds rs)
    (q : List CustomizedInotifyEvent) :
    decode buf (encodeAll rs).length q = .done (q ++ rs.map InotifyEvent.event) ↔
      NulBehindNameless rs buf.bytes := by
  rw [decode_holds h, DecodeResult.done.injEq, List.append_cancel_left_eq,
    receivedAll_eq_events_iff, ← h.bytes_eq]

/-! ### The names of a read -/

/-- **Decoding undoes the kernel's encoding, names included, exactly when every
nameless record has a NUL behind it.** For whole records that fill the first
`n ≤ 1024` bytes of the array, the loop appends one event for each record, with
the record's fields and its own name, if and only if the byte behind each record
without a name lies inside the array and is zero. -/
theorem decode_recovers_iff (rs : List InotifyEvent) (buf : ReadBuffer) (n : Nat)
    (q : List CustomizedInotifyEvent) (hn : (encodeAll rs).length = n)
    (hbuf : buf.bytes.take n = encodeAll rs) :
    decode buf n q = .done (q ++ rs.map InotifyEvent.event) ↔ NulBehindNameless rs buf.bytes := by
  subst hn
  exact decode_events_iff hbuf q

/-- The record of `opendir` on a watched directory: `IN_OPEN | IN_ISDIR` for the
directory itself, and so without a name. -/
def openRecord : InotifyEvent :=
  ⟨1#32, 0x40000020#32, 0#32, [], 0, by decide, by decide, by decide⟩

/-- The record of `closedir` on it: `IN_CLOSE_NOWRITE | IN_ISDIR`. -/
def closeRecord : InotifyEvent :=
  ⟨1#32, 0x40000010#32, 0#32, [], 0, by decide, by decide, by decide⟩

/-- The record of a file `a` created in it. -/
def createRecord : InotifyEvent :=
  ⟨1#32, 0x100#32, 0#32, [0x61#8], 15, by decide, by decide, by decide⟩

theorem createRecord_fits : (encodeAll [createRecord]).length ≤ readBufferSize := by decide

/-- A read over zeroed memory recovers a named record and a nameless last one. -/
theorem decode_recovers_create_close :
    decode (.zeroed [createRecord, closeRecord] (by decide)) 48 [] =
      .done [createRecord.event, closeRecord.event] := by
  have hnul : NulBehindNameless [createRecord, closeRecord]
      (encodeAll [createRecord, closeRecord] ++ List.replicate 976 0#8) := by
    rw [nulBehindNameless_cons, nulBehindNameless_cons]
    exact ⟨by decide, fun _ => by decide, nulBehindNameless_nil _⟩
  exact (decode_recovers_iff [createRecord, closeRecord] (.zeroed _ (by decide)) 48 []
    (by decide) (by decide +kernel)).mpr hnul

/-- The name the loop gives `opendir` on a directory closed right after is the
low byte of the next record's `wd`. -/
theorem decode_misnames_open_close :
    ¬ ∀ (rs : List InotifyEvent) (buf : ReadBuffer) (n : Nat) (q : List CustomizedInotifyEvent),
      (encodeAll rs).length = n → n ≤ readBufferSize → buf.bytes.take n = encodeAll rs →
        decode buf n q = .done (q ++ rs.map InotifyEvent.event) := by
  intro h
  have hevents := h [openRecord, closeRecord] (.zeroed [openRecord, closeRecord] (by decide)) 32 []
    (by decide) (by decide) (by decide +kernel)
  have hnul := (decode_events_iff (by decide +kernel) []).mp hevents
    [] openRecord [closeRecord] rfl (by decide)
  exact absurd hnul (by decide +kernel)

end InotifyRealtime
