import InotifyRealtime.Foundation.Bytes
/-!
# InotifyRealtime.Event

The two event types of the program: the record the kernel writes into the read
buffer (`struct inotify_event` followed by its name field) and the copy the
event thread queues (`customized_inotify_event`).

A record is 16 bytes of header and `len` bytes of name field. The name field is
either absent (`len = 0`, an event on the watched directory itself) or a
NUL-free name with at least one NUL of padding after it. `InotifyEvent` carries
these facts as fields, so only well-formed records can be written down.

A `CustomizedInotifyEvent` has `name : Option (List Byte)`. The program copies
the name as a C string out of a 1024-byte array; `none` stands for a copy that
ran past the end of that array, whose result the language leaves undefined.
-/

namespace InotifyRealtime

open Bytes

/-- The size of the fixed part of `struct inotify_event`. -/
def headerSize : Nat := 16

/-- A record as the kernel writes it. `wd` is the bit pattern of an `int`. -/
structure InotifyEvent where
  wd : BitVec 32
  mask : BitVec 32
  cookie : BitVec 32
  /-- The name, without its padding; empty in a record that has none. -/
  name : List Byte
  /-- How many NULs follow the name. -/
  padding : Nat
  name_nulFree : 0#8 ∉ name
  name_terminated : name ≠ [] → 0 < padding
  len_lt : name.length + padding < 2 ^ 32
  deriving DecidableEq

namespace InotifyEvent

/-- The `len` field: the name with its padding. -/
def len (r : InotifyEvent) : BitVec 32 := BitVec.ofNat 32 (r.name.length + r.padding)

/-- The bytes of the name field. -/
def nameField (r : InotifyEvent) : List Byte := r.name ++ List.replicate r.padding 0#8

/-- The bytes of the record. -/
def encode (r : InotifyEvent) : List Byte :=
  wordBytes r.wd ++ (wordBytes r.mask ++ (wordBytes r.cookie ++ (wordBytes r.len ++ r.nameField)))

/-- Does the record come without a name? -/
def Nameless (r : InotifyEvent) : Prop := r.len = 0#32

instance (r : InotifyEvent) : Decidable r.Nameless := inferInstanceAs (Decidable (r.len = 0#32))

theorem len_toNat (r : InotifyEvent) : r.len.toNat = r.name.length + r.padding := by
  rw [len, BitVec.toNat_ofNat, Nat.mod_eq_of_lt r.len_lt]

@[simp] theorem nameField_length (r : InotifyEvent) : r.nameField.length = r.len.toNat := by
  simp [nameField, len_toNat]

@[simp] theorem encode_length (r : InotifyEvent) :
    r.encode.length = headerSize + r.len.toNat := by
  simp [encode, headerSize]
  omega

theorem nameless_iff (r : InotifyEvent) : r.Nameless ↔ r.padding = 0 := by
  have hlen : r.Nameless ↔ r.len.toNat = 0 := by
    rw [Nameless, BitVec.toNat_eq]
    simp
  rw [hlen, len_toNat]
  constructor
  · omega
  · intro hpad
    have hname : r.name = [] := by
      by_contra h
      have := r.name_terminated h
      omega
    simp [hname, hpad]

theorem name_of_nameless {r : InotifyEvent} (h : r.Nameless) : r.name = [] := by
  by_contra hname
  have := r.name_terminated hname
  have := r.nameless_iff.mp h
  omega

/-- Only a nameless record has nothing in its name field. -/
theorem nameField_of_nameless {r : InotifyEvent} (h : r.Nameless) : r.nameField = [] := by
  simp [nameField, name_of_nameless h, r.nameless_iff.mp h]

/-- The name field of a named record reads as its name, whatever follows it. -/
theorem cString_nameField {r : InotifyEvent} (h : ¬ r.Nameless) (following : List Byte) :
    cString (r.nameField ++ following) = some r.name := by
  obtain ⟨k, hk⟩ : ∃ k, r.padding = k + 1 :=
    Nat.exists_eq_succ_of_ne_zero (fun h0 => h (r.nameless_iff.mpr h0))
  rw [nameField, hk, List.replicate_succ, List.append_assoc, List.cons_append]
  exact cString_terminated r.name_nulFree _

end InotifyEvent

/-- The bytes of several records, back to back. -/
def encodeAll (rs : List InotifyEvent) : List Byte := rs.flatMap InotifyEvent.encode

@[simp] theorem encodeAll_nil : encodeAll [] = [] := rfl

@[simp] theorem encodeAll_cons (r : InotifyEvent) (rs : List InotifyEvent) :
    encodeAll (r :: rs) = r.encode ++ encodeAll rs := rfl

/-- Every record takes at least its header. -/
theorem headerSize_mul_length_le (rs : List InotifyEvent) :
    headerSize * rs.length ≤ (encodeAll rs).length := by
  induction rs with
  | nil => simp
  | cons r rs ih =>
      simp only [encodeAll_cons, List.length_append, List.length_cons,
        InotifyEvent.encode_length, Nat.mul_succ]
      omega

/-- The event the program queues for one record (`customized_inotify_event`). -/
structure CustomizedInotifyEvent where
  wd : Int
  mask : BitVec 32
  cookie : BitVec 32
  len : BitVec 32
  /-- The name, or `none` when its copy ran past the read buffer. -/
  name : Option (List Byte)
  deriving DecidableEq

/-- The fields of an event other than its name. -/
structure Header where
  wd : Int
  mask : BitVec 32
  cookie : BitVec 32
  len : BitVec 32
  deriving DecidableEq

def CustomizedInotifyEvent.header (e : CustomizedInotifyEvent) : Header :=
  ⟨e.wd, e.mask, e.cookie, e.len⟩

def InotifyEvent.header (r : InotifyEvent) : Header :=
  ⟨r.wd.toInt, r.mask, r.cookie, r.len⟩

/-- The event that says what the record says: its fields, and its own name. -/
def InotifyEvent.event (r : InotifyEvent) : CustomizedInotifyEvent :=
  ⟨r.wd.toInt, r.mask, r.cookie, r.len, some r.name⟩

end InotifyRealtime
