import Mathlib.Init
/-!
# InotifyRealtime.InotifyMask

`InotifyMaskToString`: the text of an event mask. The loop over the table keeps
the text so far and the bits not yet named, as the source does, although no bit
stands in the table twice.
-/

namespace InotifyRealtime

/-- The `masks` table: the bits the program names, with their names. -/
def masks : List (BitVec 64 × List Char) :=
  [(0x00000001#64, "IN_ACCESS".toList),
   (0x00000002#64, "IN_MODIFY".toList),
   (0x00000004#64, "IN_ATTRIB".toList),
   (0x00000008#64, "IN_CLOSE_WRITE".toList),
   (0x00000010#64, "IN_CLOSE_NOWRITE".toList),
   (0x00000020#64, "IN_OPEN".toList),
   (0x00000040#64, "IN_MOVED_FROM".toList),
   (0x00000080#64, "IN_MOVED_TO".toList),
   (0x00000100#64, "IN_CREATE".toList),
   (0x00000200#64, "IN_DELETE".toList),
   (0x00000400#64, "IN_DELETE_SELF".toList),
   (0x00000800#64, "IN_MOVE_SELF".toList),
   (0x40000000#64, "IN_ISDIR".toList)]

/-- One turn of the loop over the table. -/
def maskItem (s : List Char × BitVec 64) (item : BitVec 64 × List Char) : List Char × BitVec 64 :=
  let (result, mask) := s
  if mask &&& item.1 ≠ 0#64 then
    ((if result ≠ [] then result ++ [','] else result) ++ item.2, mask &&& ~~~item.1)
  else (result, mask)

def inotifyMaskToString (mask : BitVec 64) : List Char := (masks.foldl maskItem ([], mask)).1

end InotifyRealtime
