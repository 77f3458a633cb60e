import InotifyRealtime.Event
/-!
# InotifyRealtime.Decode

The **decode loop** of `EpollHandler`: from the bytes one `read` left in the
1024-byte array to the events appended to `inotify_event_buffer`.

The loop keeps two C `int`s, the position of the next record and the bytes still
to decode, and moves both by `stack.len + 16`, which the compiler computes in
`uint32_t`. `DecodeState` has them as integers and `toInt32` puts the wrap-around
where the C code has its conversion back to `int`.

A header is read wherever the position points, so a position outside the array
is an access the language does not define (`DecodeResult.headerOutOfRange`); and
since nothing in the loop itself makes it end, it runs on fuel.
-/

namespace InotifyRealtime

open Bytes

/-- The size of `read_buffer`. -/
def readBufferSize : Nat := 1024

/-- The array a `read` fills. Bytes past the ones read keep whatever was there. -/
structure ReadBuffer where
  bytes : List Byte
  size_eq : bytes.length = readBufferSize
  deriving DecidableEq

/-- The array after a `read` of whole records over zeroed memory. -/
def ReadBuffer.zeroed (rs : List InotifyEvent) (h : (encodeAll rs).length ≤ readBufferSize) :
    ReadBuffer where
  bytes := encodeAll rs ++ List.replicate (readBufferSize - (encodeAll rs).length) 0#8
  size_eq := by
    rw [List.length_append, List.length_replicate]
    omega

/-- Conversion of a value to a 32-bit `int`. -/
def toInt32 (x : Int) : Int := x.bmod (2 ^ 32)

/-- The four header fields at the front of some bytes, and the bytes after them. -/
def readHeader (bytes : List Byte) : Option (Header × List Byte) := do
  let (wd, bytes) ← takeWord bytes
  let (mask, bytes) ← takeWord bytes
  let (cookie, bytes) ← takeWord bytes
  let (len, bytes) ← takeWord bytes
  return (⟨wd.toInt, mask, cookie, len⟩, bytes)

/-- The local variables of the loop, and the deque it appends to. -/
structure DecodeState where
  readSize : Int
  startPos : Int
  inotifyEventBuffer : List CustomizedInotifyEvent
  deriving DecidableEq

/-- The record at position `startPos` of the array, as the body of the loop
copies it to `stack`; `none` when the header does not lie inside the array. The
name is copied as a C string from right behind the header, whatever `len` is. -/
def stackAt (buf : ReadBuffer) (startPos : Int) : Option CustomizedInotifyEvent :=
  if startPos < 0 then none
  else
    (readHeader (buf.bytes.drop startPos.toNat)).map fun (h, behind) =>
      ⟨h.wd, h.mask, h.cookie, h.len, cString behind⟩

/-- What `stack.len + 16` adds up to in `uint32_t`. -/
def advance (len : BitVec 32) : Nat := (len + 16#32).toNat

/-- The body of the loop. -/
def decodeBody (buf : ReadBuffer) (s : DecodeState) : Option DecodeState :=
  (stackAt buf s.startPos).map fun stack =>
    { startPos := toInt32 (s.startPos + advance stack.len)
      readSize := toInt32 (s.readSize - advance stack.len)
      inotifyEventBuffer := s.inotifyEventBuffer ++ [stack] }

/-- How the loop ends. -/
inductive DecodeResult
  | done (inotifyEventBuffer : List CustomizedInotifyEvent)
  | headerOutOfRange
  | outOfFuel
  deriving DecidableEq

/-- `while (read_size >= 16)`, for at most `fuel` tests of its condition. -/
def decodeLoop (buf : ReadBuffer) : Nat → DecodeState → DecodeResult
  | 0, _ => .outOfFuel
  | fuel + 1, s =>
      if s.readSize < headerSize then .done s.inotifyEventBuffer
      else
        match decodeBody buf s with
        | none => .headerOutOfRange
        | some s' => decodeLoop buf fuel s'

/-- The loop after a `read` of `n` bytes, appending to `q`. The fuel is more than
there are positions for a header in the array, so only an endless loop uses it up. -/
def decode (buf : ReadBuffer) (n : Nat) (q : List CustomizedInotifyEvent) : DecodeResult :=
  decodeLoop buf (readBufferSize + 1) ⟨n, 0, q⟩

/-! ### Arithmetic in range -/

theorem toInt32_of_range {x : Int} (h₀ : -(2 ^ 31) ≤ x) (h₁ : x < 2 ^ 31) : toInt32 x = x :=
  Int.bmod_eq_of_le h₀ h₁

theorem advance_of_lt {len : BitVec 32} (h : len.toNat + headerSize < 2 ^ 32) :
    advance len = headerSize + len.toNat := by
  simp only [advance, headerSize] at *
  rw [BitVec.toNat_add, BitVec.toNat_ofNat]
  omega

/-! ### Reading one record -/

theorem readHeader_encode (r : InotifyEvent) (following : List Byte) :
    readHeader (r.encode ++ following) = some (r.header, r.nameField ++ following) := by
  simp [readHeader, InotifyEvent.encode, InotifyEvent.header]

/-- The event the loop makes of a record with the bytes `following` behind it:
the record's fields, and the C string that starts at its name field. -/
def InotifyEvent.received (r : InotifyEvent) (following : List Byte) : CustomizedInotifyEvent :=
  ⟨r.wd.toInt, r.mask, r.cookie, r.len, cString (r.nameField ++ following)⟩

theorem stackAt_encode {buf : ReadBuffer} {before following : List Byte} {r : InotifyEvent}
    (hbuf : buf.bytes = before ++ (r.encode ++ following)) :
    stackAt buf before.length = some (r.received following) := by
  have hpos : ¬ ((before.length : Int) < 0) := by omega
  rw [stackAt, if_neg hpos, Int.toNat_natCast, hbuf, List.drop_left, readHeader_encode]
  rfl

/-- One turn of the loop on a record that fits the bytes still to decode. -/
theorem decodeBody_encode {buf : ReadBuffer} {before following : List Byte} {r : InotifyEvent}
    {left : Nat} {q : List CustomizedInotifyEvent}
    (hbuf : buf.bytes = before ++ (r.encode ++ following))
    (hleft : r.encode.length ≤ left) (hsize : before.length + left ≤ readBufferSize) :
    decodeBody buf ⟨left, before.length, q⟩ =
      some ⟨(left - r.encode.length : Nat), (before ++ r.encode).length,
        q ++ [r.received following]⟩ := by
  have hlen : r.encode.length = headerSize + r.len.toNat := r.encode_length
  have hadv : advance r.len = r.encode.length := by
    rw [hlen]
    apply advance_of_lt
    simp only [readBufferSize, headerSize] at *
    omega
  have hpos : toInt32 ((before.length : Int) + r.encode.length) = (before ++ r.encode).length := by
    simp only [readBufferSize] at hsize
    rw [toInt32_of_range (by omega) (by omega), List.length_append, Int.natCast_add]
  have hrest : toInt32 ((left : Int) - r.encode.length) = (left - r.encode.length : Nat) := by
    simp only [readBufferSize] at hsize
    rw [toInt32_of_range (by omega) (by omega), Int.natCast_sub hleft]
  have hreceived : (r.received following).len = r.len := rfl
  simp only [decodeBody, stackAt_encode hbuf, Option.map_some, hreceived, hadv, hpos, hrest]

/-! ### Decoding whole records -/

/-- The events the loop makes of some records with the bytes `following` behind
the last of them. -/
def receivedAll : List InotifyEvent → List Byte → List CustomizedInotifyEvent
  | [], _ => []
  | r :: rs, following => r.received (encodeAll rs ++ following) :: receivedAll rs following

/-- Names aside, what is received is what was sent. -/
theorem receivedAll_header (rs : List InotifyEvent) (following : List Byte) :
    (receivedAll rs following).map CustomizedInotifyEvent.header = rs.map InotifyEvent.header := by
  induction rs with
  | nil => rfl
  | cons r rs ih => simp [receivedAll, ih, CustomizedInotifyEvent.header, InotifyEvent.received,
      InotifyEvent.header]

theorem receivedAll_length (rs : List InotifyEvent) (following : List Byte) :
    (receivedAll rs following).length = rs.length := by
  have hmap := congrArg List.length (receivedAll_header rs following)
  rwa [List.length_map, List.length_map] at hmap

/-- The loop over a run of whole records, by induction on the records: `before`
collects the bytes already decoded. -/
theorem decodeLoop_encodeAll {buf : ReadBuffer} {rs : List InotifyEvent} {following : List Byte} :
    ∀ {fuel : Nat} {before : List Byte} {q : List CustomizedInotifyEvent},
      buf.bytes = before ++ (encodeAll rs ++ following) → rs.length < fuel →
      decodeLoop buf fuel ⟨(encodeAll rs).length, before.length, q⟩ =
        .done (q ++ receivedAll rs following) := by
  induction rs with
  | nil =>
      intro fuel before q _ hfuel
      obtain ⟨fuel, rfl⟩ : ∃ k, fuel = k + 1 :=
        Nat.exists_eq_succ_of_ne_zero (Nat.ne_zero_of_lt hfuel)
      simp [decodeLoop, headerSize, receivedAll]
  | cons r rs ih =>
      intro fuel before q hbuf hfuel
      obtain ⟨fuel, rfl⟩ : ∃ k, fuel = k + 1 :=
        Nat.exists_eq_succ_of_ne_zero (Nat.ne_zero_of_lt hfuel)
      rw [encodeAll_cons, List.append_assoc] at hbuf
      have hsize : before.length + (encodeAll (r :: rs)).length ≤ readBufferSize := by
        rw [← buf.size_eq, hbuf]
        simp only [encodeAll_cons, List.length_append]
        omega
      have hleft : r.encode.length ≤ (encodeAll (r :: rs)).length := by simp
      have hturn := decodeBody_encode (q := q) hbuf hleft hsize
      have hnot : ¬ (((encodeAll (r :: rs)).length : Int) < headerSize) := by
        simp only [encodeAll_cons, List.length_append, InotifyEvent.encode_length]
        omega
      have hrest : (encodeAll (r :: rs)).length - r.encode.length = (encodeAll rs).length := by
        simp
      rw [decodeLoop, if_neg hnot, hturn, hrest]
      dsimp only
      rw [ih (by rw [hbuf, List.append_assoc]) (by simpa using hfuel)]
      simp [receivedAll]

/-- The array begins with the encoded records `rs`. -/
def ReadBuffer.Holds (buf : ReadBuffer) (rs : List InotifyEvent) : Prop :=
  buf.bytes.take (encodeAll rs).length = encodeAll rs

instance (buf : ReadBuffer) (rs : List InotifyEvent) : Decidable (buf.Holds rs) :=
  inferInstanceAs (Decidable (_ = _))

/-- What the array holds behind the records it begins with. -/
def ReadBuffer.behind (buf : ReadBuffer) (rs : List InotifyEvent) : List Byte :=
  buf.bytes.drop (encodeAll rs).length

theorem ReadBuffer.holds_zeroed (rs : List InotifyEvent)
    (h : (encodeAll rs).length ≤ readBufferSize) : (ReadBuffer.zeroed rs h).Holds rs :=
  List.take_left

theorem ReadBuffer.Holds.bytes_eq {buf : ReadBuffer} {rs : List InotifyEvent} (h : buf.Holds rs) :
    buf.bytes = encodeAll rs ++ buf.behind rs := by
  conv_lhs => rw [← List.take_append_drop (encodeAll rs).length buf.bytes, h]
  rfl

theorem ReadBuffer.Holds.length_le {buf : ReadBuffer} {rs : List InotifyEvent} (h : buf.Holds rs) :
    (encodeAll rs).length ≤ readBufferSize := by
  rw [← buf.size_eq, h.bytes_eq, List.length_append]
  omega

/-- **Decoding a read of whole records** gives one event for each, in order. -/
theorem decode_holds {buf : ReadBuffer} {rs : List InotifyEvent} (h : buf.Holds rs)
    (q : List CustomizedInotifyEvent) :
    decode buf (encodeAll rs).length q = .done (q ++ receivedAll rs (buf.behind rs)) := by
  have hfew : rs.length < readBufferSize + 1 := by
    have hmul := headerSize_mul_length_le rs
    have hfit := h.length_le
    simp only [headerSize] at hmul
    omega
  have hbytes : buf.bytes = [] ++ (encodeAll rs ++ buf.behind rs) := h.bytes_eq
  exact decodeLoop_encodeAll hbytes hfew

end InotifyRealtime
