import Mathlib.Logic.Function.Basic
import InotifyRealtime.Foundation.Bytes
/-!
# InotifyRealtime.InotifyWatchMgr

The process-wide `InotifyWatchMgr`: the inotify descriptor watches are added to,
and the map from watch descriptors to directory paths.

`AddWatch` is two steps for the rest of the process. `inotify_add_watch` makes
the watch live in the kernel and answers its number; `AddList` then stores the
path under it. `addWatch` is both in one, on what the system call answered.

The map is a partial function: `std::map` is used here through `count`,
`operator[]` and assignment only.
-/

namespace InotifyRealtime

open Bytes

/-- A path, as the bytes of a `std::string`. -/
abbrev Path := List Byte

structure InotifyWatchMgr where
  inotifyFd : Int
  fdPathMappingList : Int → Option Path

namespace InotifyWatchMgr

/-- The singleton when the process starts. -/
def new : InotifyWatchMgr := ⟨-1, fun _ => none⟩

/-- Store the descriptor; the answer is `!!inotify_fd_`. -/
def initializeWith (m : InotifyWatchMgr) (inotifyFd : Int) : Bool × InotifyWatchMgr :=
  (inotifyFd ≠ 0, { m with inotifyFd })

def addList (m : InotifyWatchMgr) (watchFd : Int) (targetPath : Path) : InotifyWatchMgr :=
  { m with fdPathMappingList := Function.update m.fdPathMappingList watchFd (some targetPath) }

/-- `AddWatch`, once `inotify_add_watch` has answered `watchFd`. -/
def addWatch (m : InotifyWatchMgr) (watchFd : Int) (targetPath : Path) : Bool × InotifyWatchMgr :=
  if watchFd < 0 then (false, m) else (true, m.addList watchFd targetPath)

/-- The path stored under a watch descriptor, or the empty string. -/
def getPath (m : InotifyWatchMgr) (watchFd : Int) : Path :=
  (m.fdPathMappingList watchFd).getD []

theorem addList_apply (m : InotifyWatchMgr) (w w' : Int) (p : Path) :
    (m.addList w p).fdPathMappingList w' = if w' = w then some p else m.fdPathMappingList w' := by
  simp [addList, Function.update_apply]

@[simp] theorem getPath_addList_self (m : InotifyWatchMgr) (w : Int) (p : Path) :
    (m.addList w p).getPath w = p := by
  simp [getPath, addList_apply]

theorem getPath_addList_of_ne (m : InotifyWatchMgr) {w w' : Int} (h : w' ≠ w) (p : Path) :
    (m.addList w p).getPath w' = m.getPath w' := by
  simp [getPath, addList_apply, h]

end InotifyWatchMgr

end InotifyRealtime
