import InotifyRealtime.DirectoryThread
import InotifyRealtime.EpollHandler
/-!
# InotifyRealtime.Session

One session with all its threads: the directory thread, the event thread, and
whoever executes `RealtimeCore::FinalizeLock`.

They share the flag `stopped_`, the two descriptors and the watch manager, and
take their steps in any order. A test of the flag sees its value, and `GetPath`
sees the map as it is at that moment; everything else the world answers is left
open. A session also remembers the calls of `inotify_add_watch` that succeeded,
with the watch each answered and the path it was given.
-/

namespace InotifyRealtime

/-- Where `FinalizeLock` stands. -/
inductive FinalizePc
  /-- `stopped_ = true`. -/
  | setStopped
  /-- `close(inotify_fd_)`. -/
  | closeInotify
  /-- `close(epoll_fd_)`. -/
  | closeEpoll
  /-- `StopDirectorySearchThread`. -/
  | joinDirectory
  /-- `StopEpollThread`. -/
  | joinEpoll
  | done
  deriving DecidableEq

structure Session where
  stopped : Bool
  inotifyOpen : Bool
  epollOpen : Bool
  finalizer : FinalizePc
  epoll : EpollHandler.Thread
  directory : DirectoryThread.Thread
  mgr : InotifyWatchMgr
  adds : List (Int × Path)

namespace Session

/-- `Initialize` has just started both threads; the watch manager still holds what
earlier sessions stored. -/
def start (mgr : InotifyWatchMgr) (detectList : List Path) (errno : Errno) :
    Session where
  stopped := false
  inotifyOpen := true
  epollOpen := true
  finalizer := .setStopped
  epoll := .start errno
  directory := .start detectList
  mgr := mgr
  adds := []

/-- Whose turn it is, and what the world answers. -/
inductive Action
  | finalizer
  | epoll (a : EpollHandler.Answer)
  | directory (a : DirectoryThread.Answer)
  deriving DecidableEq

/-- The event thread sees the flag and the map as they are. -/
def AllowsEpoll (s : Session) : EpollHandler.Answer → Prop
  | .stopped value => value = s.stopped
  | .parse path _ _ => ∀ event ∈ s.epoll.inotifyEventBuffer.head?, path = s.mgr.getPath event.wd
  | _ => True

instance (s : Session) : (a : EpollHandler.Answer) → Decidable (s.AllowsEpoll a)
  | .stopped value => inferInstanceAs (Decidable (value = s.stopped))
  | .parse path _ _ => inferInstanceAs
      (Decidable (∀ event ∈ s.epoll.inotifyEventBuffer.head?, path = s.mgr.getPath event.wd))
  | .epollCtl _ | .epollWait _ _ | .readError _ | .readBytes _ _ => .isTrue trivial

/-- The directory thread sees the flag as it is. -/
def AllowsDirectory (s : Session) : DirectoryThread.Answer → Prop
  | .stopped value => value = s.stopped
  | _ => True

instance (s : Session) : (a : DirectoryThread.Answer) → Decidable (s.AllowsDirectory a)
  | .stopped value => inferInstanceAs (Decidable (value = s.stopped))
  | .reports _ _ | .ends | .realpath _ | .addWatch _ | .addList => .isTrue trivial

/-- The next step of `FinalizeLock`. A join waits until the worker has returned. -/
def finalize (s : Session) : Option Session :=
  match s.finalizer with
  | .setStopped => some { s with stopped := true, finalizer := .closeInotify }
  | .closeInotify => some { s with inotifyOpen := false, finalizer := .closeEpoll }
  | .closeEpoll => some { s with epollOpen := false, finalizer := .joinDirectory }
  | .joinDirectory =>
      if s.directory.pc = .returned then some { s with finalizer := .joinEpoll } else none
  | .joinEpoll =>
      match s.epoll.pc with
      | .returned _ => some { s with finalizer := .done }
      | _ => none
  | .done => none

/-- The watch manager after a step of the directory thread. -/
def mgrAfter (s : Session) (a : DirectoryThread.Answer) : InotifyWatchMgr :=
  match s.directory.pc, a with
  | .addList watchFd targetPath, .addList => s.mgr.addList watchFd targetPath
  | _, _ => s.mgr

/-- The calls of `inotify_add_watch` after a step of the directory thread. -/
def addsAfter (s : Session) (a : DirectoryThread.Answer) : List (Int × Path) :=
  match s.directory.pc, a with
  | .addWatch targetPath, .addWatch watchFd =>
      if watchFd < 0 then s.adds else s.adds ++ [(watchFd, targetPath)]
  | _, _ => s.adds

def next (s : Session) : Action → Option Session
  | .finalizer => s.finalize
  | .epoll a =>
      if s.AllowsEpoll a then (EpollHandler.step s.epoll a).map fun epoll => { s with epoll }
      else none
  | .directory a =>
      if s.AllowsDirectory a then
        (DirectoryThread.step s.directory a).map fun directory =>
          { s with directory, mgr := s.mgrAfter a, adds := s.addsAfter a }
      else none

/-- The steps of the session. -/
def Step (s : Session) (a : Action) (s' : Session) : Prop := s.next a = some s'

theorem step_of_epoll {s : Session} {a : EpollHandler.Answer} {t : EpollHandler.Thread}
    (hallow : s.AllowsEpoll a) (h : EpollHandler.step s.epoll a = some t) :
    s.Step (.epoll a) { s with epoll := t } := by
  simp only [Step, next, if_pos hallow, h, Option.map_some]

theorem step_of_directory {s : Session} {a : DirectoryThread.Answer} {t : DirectoryThread.Thread}
    (hallow : s.AllowsDirectory a) (h : DirectoryThread.step s.directory a = some t) :
    s.Step (.directory a)
      { s with directory := t, mgr := s.mgrAfter a, adds := s.addsAfter a } := by
  simp only [Step, next, if_pos hallow, h, Option.map_some]

/-! ### What a step can do -/

/-- The steps of `FinalizeLock`. -/
inductive Finalizes : Session → Session → Prop
  | setStopped {s : Session} :
      s.finalizer = .setStopped →
      Finalizes s { s with stopped := true, finalizer := .closeInotify }
  | closeInotify {s : Session} :
      s.finalizer = .closeInotify →
      Finalizes s { s with inotifyOpen := false, finalizer := .closeEpoll }
  | closeEpoll {s : Session} :
      s.finalizer = .closeEpoll →
      Finalizes s { s with epollOpen := false, finalizer := .joinDirectory }
  | joinDirectory {s : Session} :
      s.finalizer = .joinDirectory → s.directory.pc = .returned →
      Finalizes s { s with finalizer := .joinEpoll }
  | joinEpoll {s : Session} {why : EpollHandler.Return} :
      s.finalizer = .joinEpoll → s.epoll.pc = .returned why →
      Finalizes s { s with finalizer := .done }

theorem finalize_cases {s s' : Session} (h : s.finalize = some s') : Finalizes s s' := by
  unfold finalize at h
  cases hpc : s.finalizer with
  | setStopped =>
      rw [hpc] at h
      obtain rfl := Option.some.inj h
      exact .setStopped hpc
  | closeInotify =>
      rw [hpc] at h
      obtain rfl := Option.some.inj h
      exact .closeInotify hpc
  | closeEpoll =>
      rw [hpc] at h
      obtain rfl := Option.some.inj h
      exact .closeEpoll hpc
  | joinDirectory =>
      simp only [hpc, Option.ite_none_right_eq_some] at h
      obtain ⟨hreturned, h⟩ := h
      obtain rfl := Option.some.inj h
      exact .joinDirectory hpc hreturned
  | joinEpoll =>
      simp only [hpc] at h
      split at h
      · next why hreturned =>
          obtain rfl := Option.some.inj h
          exact .joinEpoll hpc hreturned
      · exact absurd h nofun
  | done =>
      rw [hpc] at h
      exact absurd h nofun

/-- What a session can do at once, by whose step it is. -/
inductive Does : Session → Action → Session → Prop
  | finalizer {s s' : Session} : Finalizes s s' → Does s .finalizer s'
  | epoll {s : Session} {a : EpollHandler.Answer} {t : EpollHandler.Thread} :
      s.AllowsEpoll a → EpollHandler.Step s.epoll a t → Does s (.epoll a) { s with epoll := t }
  | directory {s : Session} {a : DirectoryThread.Answer} {t : DirectoryThread.Thread} :
      s.AllowsDirectory a → DirectoryThread.Step s.directory a t →
      Does s (.directory a)
        { s with directory := t, mgr := s.mgrAfter a, adds := s.addsAfter a }

theorem Step.does {s s' : Session} {a : Action} (h : s.Step a s') : Does s a s' := by
  cases a with
  | finalizer => exact .finalizer (finalize_cases h)
  | epoll a =>
      simp only [Step, next, Option.ite_none_right_eq_some] at h
      obtain ⟨hallow, h⟩ := h
      obtain ⟨t, ht, rfl⟩ := Option.map_eq_some_iff.mp h
      exact .epoll hallow (EpollHandler.step_cases ht)
  | directory a =>
      simp only [Step, next, Option.ite_none_right_eq_some] at h
      obtain ⟨hallow, h⟩ := h
      obtain ⟨t, ht, rfl⟩ := Option.map_eq_some_iff.mp h
      exact .directory hallow (DirectoryThread.step_cases ht)

end Session

end InotifyRealtime
