import InotifyRealtime.Foundation.Machine
import InotifyRealtime.Session
import InotifyRealtime.DecodeSound
/-!
# InotifyRealtime.Shutdown

What the workers do with descriptors that `FinalizeLock` has closed.

A worker tests `stopped_` and then makes its system call; the finalizer sets the
flag and then closes. Nothing makes it wait in between. A session is `Safe` when
no worker stands before a system call on a closed descriptor, which is when no
step that is possible uses one (`safe_iff`). A close keeps it safe only when it
comes at the right time, and a directory that `realpath` resolves after the
inotify descriptor was closed makes it unsafe again (`safe_step_iff`).
-/

namespace InotifyRealtime.Session

open Machine

/-- The step is a system call on a descriptor that has been closed. -/
def UsesClosed (s : Session) : Action → Prop
  | .epoll (.epollCtl _) => s.epollOpen = false ∨ s.inotifyOpen = false
  | .epoll (.epollWait _ _) => s.epollOpen = false
  | .epoll (.readError _) => s.inotifyOpen = false
  | .epoll (.readBytes _ _) => s.inotifyOpen = false
  | .directory (.addWatch _) => s.inotifyOpen = false
  | _ => False

/-- Both workers stand before system calls on open descriptors only. -/
structure Safe (s : Session) : Prop where
  epollCtl : s.epoll.pc = .epollCtl → s.epollOpen = true ∧ s.inotifyOpen = true
  epollWait : s.epoll.pc = .epollWait → s.epollOpen = true
  read : s.epoll.pc = .read → s.inotifyOpen = true
  addWatch : ∀ p, s.directory.pc = .addWatch p → s.inotifyOpen = true

theorem Safe.not_usesClosed {s s' : Session} {a : Action} (h : s.Safe) (hstep : s.Step a s') :
    ¬ s.UsesClosed a := by
  intro huses
  cases hstep.does with
  | finalizer => exact huses
  | @epoll a t _ hthread =>
      have hpc := hthread.answersAt
      cases a with
      | epollCtl failed =>
          obtain ⟨hepoll, hinotify⟩ := h.epollCtl hpc
          rcases huses with hclosed | hclosed
          · exact absurd (hepoll.symm.trans hclosed) nofun
          · exact absurd (hinotify.symm.trans hclosed) nofun
      | epollWait rc errno => exact absurd ((h.epollWait hpc).symm.trans huses) nofun
      | readError errno => exact absurd ((h.read hpc).symm.trans huses) nofun
      | readBytes n buf => exact absurd ((h.read hpc).symm.trans huses) nofun
      | stopped value => exact huses
      | parse path result errno => exact huses
  | @directory a t _ hthread =>
      cases hthread with
      | addFailed hpc | added hpc => exact absurd ((h.addWatch _ hpc).symm.trans huses) nofun
      | _ => exact huses

/-- A session is safe exactly when no possible step uses a closed descriptor. -/
theorem safe_iff (s : Session) : s.Safe ↔ ∀ b v, s.Step b v → ¬ s.UsesClosed b := by
  constructor
  · intro h b v hstep
    exact h.not_usesClosed hstep
  · intro h
    refine ⟨fun hpc => ?_, fun hpc => ?_, fun hpc => ?_, fun p hpc => ?_⟩
    · obtain ⟨t, ht⟩ : ∃ t, EpollHandler.step s.epoll (.epollCtl false) = some t := by
        simp [EpollHandler.step, hpc]
      have hopen := h (.epoll (.epollCtl false)) _ (step_of_epoll trivial ht)
      simpa [UsesClosed] using hopen
    · obtain ⟨t, ht⟩ : ∃ t, EpollHandler.step s.epoll (.epollWait 0 .zero) = some t := by
        simp [EpollHandler.step, hpc]
      have hopen := h (.epoll (.epollWait 0 .zero)) _ (step_of_epoll trivial ht)
      simpa [UsesClosed] using hopen
    · obtain ⟨t, ht⟩ : ∃ t, EpollHandler.step s.epoll (.readError .zero) = some t := by
        simp [EpollHandler.step, hpc]
      have hopen := h (.epoll (.readError .zero)) _ (step_of_epoll trivial ht)
      simpa [UsesClosed] using hopen
    · obtain ⟨t, ht⟩ : ∃ t, DirectoryThread.step s.directory (.addWatch 0) = some t := by
        simp [DirectoryThread.step, hpc]
      have hopen := h (.directory (.addWatch 0)) _ (step_of_directory trivial ht)
      simpa [UsesClosed] using hopen

/-- The steps that come at the right time: no close while a worker stands before
a system call on that descriptor, and no directory resolved once the inotify
descriptor is closed. -/
def Timely (s : Session) : Action → Prop
  | .finalizer =>
      (s.finalizer = .closeInotify →
        s.epoll.pc ≠ .epollCtl ∧ s.epoll.pc ≠ .read ∧ ∀ p, s.directory.pc ≠ .addWatch p) ∧
      (s.finalizer = .closeEpoll → s.epoll.pc ≠ .epollCtl ∧ s.epoll.pc ≠ .epollWait)
  | .directory (.realpath (.ok realPath)) =>
      s.inotifyOpen = false → realPathSize < realPath.length + 1
  | _ => True

instance : (pc : DirectoryThread.Pc) → Decidable (∀ p, pc ≠ .addWatch p)
  | .addWatch p => .isFalse fun h => h p rfl
  | .nftw | .ftwCallback _ _ | .realpath _ | .addList _ _ | .returned | .undefined =>
      .isTrue fun _ => DirectoryThread.Pc.noConfusion

instance (s : Session) : (a : Action) → Decidable (s.Timely a)
  | .finalizer => inferInstanceAs (Decidable (_ ∧ _))
  | .directory (.realpath (.ok _)) => inferInstanceAs (Decidable (_ → _))
  | .directory (.realpath (.error _)) | .directory (.reports _ _) | .directory .ends
  | .directory (.stopped _) | .directory (.addWatch _) | .directory .addList | .epoll _ =>
      .isTrue trivial

/-- What every state of a session has: the flag is set before anything is closed. -/
structure InOrder (s : Session) : Prop where
  flag : s.finalizer ≠ .setStopped → s.stopped = true
  unclosed : s.finalizer = .setStopped → s.inotifyOpen = true ∧ s.epollOpen = true

theorem InOrder.step {s s' : Session} {a : Action} (h : s.InOrder) (hstep : s.Step a s') :
    s'.InOrder := by
  cases hstep.does with
  | finalizer hfin =>
      cases hfin with
      | setStopped => exact ⟨fun _ => rfl, nofun⟩
      | closeInotify hpc | closeEpoll hpc | joinDirectory hpc _ | joinEpoll hpc _ =>
          exact ⟨fun _ => h.flag (by simp [hpc]), nofun⟩
  | epoll _ _ => exact ⟨h.flag, h.unclosed⟩
  | directory _ _ => exact ⟨h.flag, h.unclosed⟩

/-- While the flag is clear both descriptors are open. -/
theorem InOrder.open_of_not_stopped {s : Session} (h : s.InOrder) (hstopped : s.stopped = false) :
    s.inotifyOpen = true ∧ s.epollOpen = true := by
  by_cases hpc : s.finalizer = .setStopped
  · exact h.unclosed hpc
  · exact absurd (hstopped.symm.trans (h.flag hpc)) nofun

/-- A step leaves a safe session safe exactly when it comes at the right time. -/
theorem safe_step_iff {s s' : Session} {a : Action} (hord : s.InOrder) (h : s.Safe)
    (hstep : s.Step a s') : s'.Safe ↔ s.Timely a := by
  cases hstep.does with
  | finalizer hfin =>
      cases hfin with
      | setStopped hpc =>
          exact iff_of_true ⟨h.epollCtl, h.epollWait, h.read, h.addWatch⟩ (by simp [Timely, hpc])
      | closeInotify hpc =>
          constructor
          · intro hs'
            refine ⟨fun _ => ⟨fun hctl => ?_, fun hread => ?_, fun p hadd => ?_⟩, ?_⟩
            · exact absurd (hs'.epollCtl hctl).2 nofun
            · exact absurd (hs'.read hread) nofun
            · exact absurd (hs'.addWatch p hadd) nofun
            · simp [hpc]
          · intro htimely
            obtain ⟨hctl, hread, hadd⟩ := htimely.1 hpc
            exact ⟨fun h' => absurd h' hctl, h.epollWait, fun h' => absurd h' hread,
              fun p h' => absurd h' (hadd p)⟩
      | closeEpoll hpc =>
          constructor
          · intro hs'
            refine ⟨by simp [hpc], fun _ => ⟨fun hctl => ?_, fun hwait => ?_⟩⟩
            · exact absurd (hs'.epollCtl hctl).1 nofun
            · exact absurd (hs'.epollWait hwait) nofun
          · intro htimely
            obtain ⟨hctl, hwait⟩ := htimely.2 hpc
            exact ⟨fun h' => absurd h' hctl, fun h' => absurd h' hwait, h.read, h.addWatch⟩
      | joinDirectory hpc | joinEpoll hpc =>
          exact iff_of_true ⟨h.epollCtl, h.epollWait, h.read, h.addWatch⟩ (by simp [Timely, hpc])
  | @epoll a t hallow hthread =>
      -- a worker that has just seen the flag clear finds its descriptors open
      refine iff_of_true ?_ trivial
      cases hthread with
      | enter hpc =>
          have hopen := hord.open_of_not_stopped hallow.symm
          exact ⟨nofun, fun _ => hopen.2, nofun, h.addWatch⟩
      | drainEntered hpc hfew =>
          have hopen := hord.open_of_not_stopped hallow.symm
          exact ⟨nofun, nofun, fun _ => hopen.1, h.addWatch⟩
      | @dispatched path result errno event rest hpc hq =>
          exact ⟨fun hpc => absurd hpc (EpollHandler.afterDispatch_ne nofun nofun),
            fun hpc => absurd hpc (EpollHandler.afterDispatch_ne nofun nofun),
            fun hpc => absurd hpc (EpollHandler.afterDispatch_ne nofun nofun), h.addWatch⟩
      | _ => exact ⟨nofun, nofun, nofun, h.addWatch⟩
  | @directory a t hallow hthread =>
      cases hthread with
      | @resolved fpath realPath hpc hfits =>
          -- the flag was tested before `realpath` and is not tested again
          constructor
          · intro hs' hclosed
            exact absurd ((hs'.addWatch realPath rfl).symm.trans hclosed) nofun
          · intro htimely
            refine ⟨h.epollCtl, h.epollWait, h.read, fun p _ => ?_⟩
            by_contra hclosed
            have hbig := htimely (Bool.eq_false_iff.mpr hclosed)
            omega
      | @overflows fpath result hpc hbig =>
          refine iff_of_true ⟨h.epollCtl, h.epollWait, h.read, nofun⟩ ?_
          cases result with
          | error left => trivial
          | ok realPath => exact fun _ => hbig
      | ended hpc | stopped hpc | addFailed hpc =>
          refine iff_of_true ⟨h.epollCtl, h.epollWait, h.read, fun p hadd => ?_⟩ trivial
          rcases DirectoryThread.atRoots_pc s.directory.roots.tail with hpc' | hpc'
          · exact absurd (hpc'.symm.trans hadd) nofun
          · exact absurd (hpc'.symm.trans hadd) nofun
      | _ => exact iff_of_true ⟨h.epollCtl, h.epollWait, h.read, nofun⟩ trivial

/-- A session nobody has begun to finalize, its workers anywhere. -/
structure Running (s : Session) : Prop where
  finalizer : s.finalizer = .setStopped
  stopped : s.stopped = false
  inotifyOpen : s.inotifyOpen = true
  epollOpen : s.epollOpen = true

/-- **When the workers use no closed descriptor.** From any running session, along
any interleaving of the finalizer and the two workers: no system call on a closed
descriptor is possible in any state passed through if and only if every step came
at the right time. In particular none is executed then. -/
theorem no_use_of_closed_iff (s₀ s : Session) (hist : List (Session × Action))
    (hrunning : s₀.Running) (h : Run Step s₀ hist s) :
    ((∀ t ∈ visited hist s, ∀ b v, t.Step b v → ¬ t.UsesClosed b) ↔ Meets Timely hist) ∧
      (Meets Timely hist → Meets (fun t b => ¬ t.UsesClosed b) hist) := by
  have hord : s₀.InOrder :=
    ⟨fun hpc => absurd hrunning.finalizer hpc, fun _ => ⟨hrunning.inotifyOpen, hrunning.epollOpen⟩⟩
  have hsafe : s₀.Safe :=
    ⟨fun _ => ⟨hrunning.epollOpen, hrunning.inotifyOpen⟩, fun _ => hrunning.epollOpen,
      fun _ => hrunning.inotifyOpen, fun _ _ => hrunning.inotifyOpen⟩
  have hiff : (∀ t ∈ visited hist s, ∀ b v, t.Step b v → ¬ t.UsesClosed b) ↔
      Meets Timely hist := by
    simp only [← safe_iff]
    exact h.forall_visited_iff (I := InOrder) (P := Safe) (C := Timely)
      (fun _ _ _ ht hstep => ht.step hstep)
      (fun _ _ _ ht hst hstep => safe_step_iff ht hst hstep) hord hsafe
  refine ⟨hiff, fun htimely x hx => ?_⟩
  obtain ⟨hvisited, v, hstep⟩ := h.mem_step hx
  exact hiff.mpr htimely x.1 hvisited x.2 v hstep

theorem running_start (mgr : InotifyWatchMgr) (detectList : List Path) (errno : Errno) :
    (start mgr detectList errno).Running :=
  ⟨rfl, rfl, rfl, rfl⟩

/-- The session is finalized while the event thread dispatches what it has read. -/
def finalizedInDispatch : List Action :=
  [.epoll (.epollCtl false), .epoll (.stopped false), .epoll (.epollWait 1 .zero),
   .epoll (.stopped false), .epoll (.readBytes 32 (.zeroed [createRecord] createRecord_fits)),
   .finalizer, .epoll (.stopped true), .finalizer, .finalizer, .epoll (.parse [] false .zero),
   .epoll (.stopped true), .finalizer, .finalizer]

theorem finalizedInDispatch_timely :
    (exec next (start .new [] .zero) finalizedInDispatch).any fun x =>
      decide (Meets Timely x.1 ∧ x.2.finalizer = .done) := by
  decide

/-- Both descriptors are closed at the right time, and no worker can use them. -/
theorem no_use_of_closed_finalizedInDispatch :
    ∃ hist s, exec next (start .new [] .zero) finalizedInDispatch = some (hist, s) ∧
      s.finalizer = .done ∧ (∀ t ∈ visited hist s, ∀ b v, t.Step b v → ¬ t.UsesClosed b) ∧
      Meets (fun t b => ¬ t.UsesClosed b) hist := by
  obtain ⟨⟨hist, s⟩, hexec, hchecked⟩ := (Option.any_eq_true _ _).mp finalizedInDispatch_timely
  obtain ⟨htimely, hdone⟩ := of_decide_eq_true hchecked
  have hiff := no_use_of_closed_iff _ s hist (running_start _ _ _) (run_of_exec hexec)
  exact ⟨hist, s, hexec, hdone, hiff.1.mpr htimely, hiff.2 htimely⟩

/-- The event thread is woken and about to read when the session is finalized. -/
def finalizedBeforeRead : List Action :=
  [.epoll (.epollCtl false), .epoll (.stopped false), .epoll (.epollWait 1 .zero),
   .epoll (.stopped false), .finalizer, .finalizer, .epoll (.readError (.other 9))]

/-- The `read` comes after the `close`. -/
theorem read_after_close :
    ¬ ∀ (s₀ s : Session) (hist : List (Session × Action)), s₀.Running → Run Step s₀ hist s →
      Meets (fun t b => ¬ t.UsesClosed b) hist := by
  intro h
  have hlast : ((exec next (start .new [] .zero) finalizedBeforeRead).bind fun x =>
      x.1.getLast?.map fun y => (y.1.inotifyOpen, y.2)) =
      some (false, .epoll (.readError (.other 9))) := by
    rfl
  obtain ⟨⟨hist, s⟩, hexec, hs⟩ := Option.bind_eq_some_iff.mp hlast
  obtain ⟨⟨t, b⟩, hmem, htb⟩ := Option.map_eq_some_iff.mp hs
  obtain ⟨hclosed, rfl⟩ := Prod.mk.inj htb
  exact h _ s hist (running_start _ _ _) (run_of_exec hexec) (t, _)
    (List.mem_of_getLast? hmem) hclosed

end InotifyRealtime.Session
