import Mathlib.Data.Fintype.Defs
import InotifyRealtime.DecodeSound
import InotifyRealtime.Watchers
/-!
# InotifyRealtime.WatchersApart

What other watchers can do to one that is up.

The flag, the watch manager and the descriptors are the process's, so a watcher's
workers see what any of them did last. `Asserts` says, for each place its caller
can be at, what a watcher relies on there; its own steps keep that. Another
watcher's step keeps it when it spares this one (`SparedBy`): it does not set the
flag, does not register a descriptor or close this one's before this one's walk is
over, and stores no other path under a watch this one has stored. While all steps
are `Apart`, everybody's workers observe what they would observe alone
(`observes_of_apart`).
-/

namespace InotifyRealtime

open Machine

namespace Watcher

variable {ι : Type*}

/-- From the moment the flag is cleared to the next `Finalize`. -/
def Pc.cleared : Pc → Bool
  | .leaveEpoll | .leaveInotify true | .startDirectory | .startEpoll | .up => true
  | _ => false

/-- From the registration with the watch manager to the next `Finalize`. -/
def Pc.registered : Pc → Bool
  | .epollCreate1 | .clearStopped => true
  | pc => pc.cleared

/-- The walk is not over, and may still add watches. -/
def Walking (x : Watcher) : Prop := ∀ t ∈ x.directory, t.pc ≠ .returned

instance (x : Watcher) : Decidable x.Walking :=
  inferInstanceAs (Decidable (∀ t ∈ x.directory, t.pc ≠ .returned))

/-- The inotify descriptor the session adds its watches to. -/
def heldFd (x : Watcher) : Option Int :=
  match x.pc with
  | .register fd => some fd
  | pc => if pc.registered ∧ x.Walking then some x.inotifyEventHandler.inotifyFd else none

/-- What another watcher changes does not concern this one. -/
def SparedBy (x : Watcher) : Change → Prop
  | .setStopped value => value → ¬ x.pc.cleared
  | .registers _ => ¬ (x.pc.registered ∧ x.Walking)
  | .closes fd => x.heldFd ≠ some fd
  | .stores watchFd targetPath =>
      x.pc.cleared → ∀ c ∈ x.stored, c.1 = watchFd → (watchFd, targetPath) ∈ x.stored
  | _ => True

instance (x : Watcher) : (c : Change) → Decidable (x.SparedBy c)
  | .setStopped value => inferInstanceAs (Decidable (value → ¬ x.pc.cleared))
  | .registers _ => inferInstanceAs (Decidable (¬ (x.pc.registered ∧ x.Walking)))
  | .closes fd => inferInstanceAs (Decidable (x.heldFd ≠ some fd))
  | .stores watchFd targetPath => inferInstanceAs (Decidable
      (x.pc.cleared → ∀ c ∈ x.stored, c.1 = watchFd → (watchFd, targetPath) ∈ x.stored))
  | .nothing | .opensInotify _ | .opensEpoll _ | .addsWatch _ _ => .isTrue trivial

/-- The watch the walk has been answered and whose path it has not stored yet. -/
def pending (x : Watcher) : List (Int × Path) := x.directory.elim [] fun t => t.pc.pending

/-- The watches the walk has been answered. -/
def answered (x : Watcher) : List (Int × Path) := x.stored ++ x.pending

/-! ### What a watcher relies on -/

/-- No walk yet. -/
def Fresh (x : Watcher) : Prop := x.directory = none ∧ x.stored = []

/-- The watch manager has this watcher's descriptor, which stands for its instance. -/
structure Registered (s : Commons ι) (x : Watcher) : Prop where
  inotifyFd : s.mgr.inotifyFd = x.inotifyEventHandler.inotifyFd
  file : s.files x.inotifyEventHandler.inotifyFd = some (.inotify x.inst)

/-- Nothing shared is different from what it would be without the others. -/
structure InSession (i : ι) (s : Commons ι) (x : Watcher) : Prop where
  walking : x.Walking → x.Registered s
  stopped : s.stopped = false
  added : ∀ c ∈ x.answered, (⟨x.inst, c.1, c.2, i⟩ : Added ι) ∈ s.adds
  finds : ∀ c ∈ x.stored, (c.1, s.mgr.getPath c.1) ∈ x.stored

/-- What a watcher relies on, by what its caller is about to do. -/
def Asserts (i : ι) (s : Commons ι) (x : Watcher) : Prop :=
  match x.pc with
  | .inotifyInit | .leaveInotify false => x.Fresh
  | .register fd => x.Fresh ∧ s.files fd = some (.inotify x.inst)
  | .epollCreate1 | .clearStopped => x.Fresh ∧ x.Registered s
  | .leaveEpoll | .leaveInotify true | .startDirectory => x.Fresh ∧ x.InSession i s
  | .startEpoll | .up => x.InSession i s
  | _ => True

theorem asserts_of_outside {i : ι} {s : Commons ι} {x : Watcher} (h : x.pc.outside) :
    x.Asserts i s := by
  unfold Asserts
  cases hpc : x.pc <;> first | trivial | (rw [hpc] at h; cases h)

/-! ### Other watchers' steps -/

theorem Pc.registered_of_cleared {pc : Pc} (h : pc.cleared) : pc.registered := by
  unfold Pc.registered
  split
  · rfl
  · rfl
  · exact h

theorem heldFd_of_registered {x : Watcher} (h : x.pc.registered) (hwalking : x.Walking) :
    x.heldFd = some x.inotifyEventHandler.inotifyFd := by
  unfold heldFd
  split
  · next fd hpc =>
      rw [hpc] at h
      cases h
  · rw [if_pos ⟨h, hwalking⟩]

/-- The file behind a descriptor stays while the descriptor is not closed. -/
theorem files_after {i : ι} {s : Commons ι} {c : Change} {fd : Int} {file : File}
    (h : s.files fd = some file) (hlawful : s.Lawful c) (hopen : c ≠ .closes fd) :
    (s.after i c).files fd = some file := by
  have hne (fd' : Int) (hfree : s.files fd' = none) : fd ≠ fd' := by
    intro heq
    rw [heq, hfree] at h
    cases h
  cases c with
  | opensInotify fd' => exact (Function.update_of_ne (hne fd' hlawful) ..).trans h
  | opensEpoll fd' => exact (Function.update_of_ne (hne fd' hlawful) ..).trans h
  | closes fd' =>
      have hfd : fd ≠ fd' := by
        intro heq
        exact hopen (by rw [heq])
      exact (Function.update_of_ne hfd ..).trans h
  | _ => exact h

theorem not_closes_of_spared {x : Watcher} {c : Change} {fd : Int} (h : x.SparedBy c)
    (hheld : x.heldFd = some fd) : c ≠ .closes fd := by
  intro heq
  subst heq
  exact h hheld

/-- The watch manager keeps its descriptor in every step but a registration. -/
theorem inotifyFd_after (i : ι) (s : Commons ι) {c : Change}
    (h : ∀ fd, c ≠ .registers fd) : (s.after i c).mgr.inotifyFd = s.mgr.inotifyFd := by
  cases c with
  | registers fd => exact absurd rfl (h fd)
  | _ => rfl

theorem Registered.other {j : ι} {s : Commons ι} {x : Watcher} {c : Change}
    (h : x.Registered s) (hpc : x.pc.registered) (hwalking : x.Walking) (hlawful : s.Lawful c)
    (hspared : x.SparedBy c) : x.Registered (s.after j c) := by
  have hregisters : ∀ fd, c ≠ .registers fd := by
    intro fd heq
    subst heq
    exact hspared ⟨hpc, hwalking⟩
  have hcloses := not_closes_of_spared hspared (heldFd_of_registered hpc hwalking)
  exact ⟨(inotifyFd_after j s hregisters).trans h.inotifyFd, files_after h.file hlawful hcloses⟩

theorem mem_adds_after {i : ι} {s : Commons ι} {added : Added ι} (c : Change)
    (h : added ∈ s.adds) : added ∈ (s.after i c).adds := by
  cases c with
  | addsWatch watchFd targetPath => exact List.mem_append_left _ h
  | _ => exact h

theorem InSession.other {i j : ι} {s : Commons ι} {x : Watcher} {c : Change}
    (h : x.InSession i s) (hpc : x.pc.cleared) (hlawful : s.Lawful c) (hspared : x.SparedBy c) :
    x.InSession i (s.after j c) := by
  have hregistered := Pc.registered_of_cleared hpc
  refine ⟨fun hwalking => (h.walking hwalking).other hregistered hwalking hlawful hspared, ?_,
    fun call hcall => mem_adds_after c (h.added call hcall), ?_⟩
  · cases c with
    | setStopped value =>
        cases value with
        | true => exact absurd hpc (hspared rfl)
        | false => rfl
    | _ => exact h.stopped
  · intro call hcall
    cases c with
    | stores watchFd targetPath =>
        show (call.1, (s.mgr.addList watchFd targetPath).getPath call.1) ∈ x.stored
        by_cases hwatch : call.1 = watchFd
        · rw [hwatch, InotifyWatchMgr.getPath_addList_self]
          exact hspared hpc call hcall hwatch
        · rw [InotifyWatchMgr.getPath_addList_of_ne s.mgr hwatch]
          exact h.finds call hcall
    | _ => exact h.finds call hcall

theorem Fresh.walking {x : Watcher} (h : x.Fresh) : x.Walking := by
  simp [Walking, h.1]

/-- A step that spares a watcher leaves it what it relies on. -/
theorem Asserts.other {i j : ι} {s : Commons ι} {x : Watcher} {c : Change}
    (h : x.Asserts i s) (hlawful : s.Lawful c) (hspared : x.SparedBy c) :
    x.Asserts i (s.after j c) := by
  obtain ⟨pc, detectList, inotifyEventHandler, directory, epoll, inst, stored⟩ := x
  unfold Asserts at h ⊢
  cases pc with
  | leaveInotify result =>
      cases result with
      | true => exact ⟨h.1, h.2.other rfl hlawful hspared⟩
      | false => exact h
  | inotifyInit => exact h
  | register fd => exact ⟨h.1, files_after h.2 hlawful (not_closes_of_spared hspared rfl)⟩
  | epollCreate1 | clearStopped => exact ⟨h.1, h.2.other rfl h.1.walking hlawful hspared⟩
  | leaveEpoll | startDirectory => exact ⟨h.1, h.2.other rfl hlawful hspared⟩
  | startEpoll | up => exact h.other rfl hlawful hspared
  | _ => trivial

/-! ### Its own steps -/

theorem scopeExit_of_not_stopped {s : Commons ι} (h : s.stopped = false) (fd : Int) :
    scopeExit s fd = .nothing := by
  rw [scopeExit, h]
  rfl

theorem Fresh.answered {x : Watcher} (h : x.Fresh) : x.answered = [] := by
  rw [Watcher.answered, pending, h.1, h.2]
  rfl

/-- The flag has been cleared and there is no walk yet. -/
theorem Registered.inSession (i : ι) {s : Commons ι} {x : Watcher} (h : x.Registered s)
    (hfresh : x.Fresh) (hstopped : s.stopped = false) : x.InSession i s := by
  refine ⟨fun _ => h, hstopped, ?_, ?_⟩
  · simp [hfresh.answered]
  · simp [hfresh.2]

/-- Nothing is said about the event thread, and nothing about the caller. -/
theorem InSession.goes_on {i : ι} {s : Commons ι} {x : Watcher} (h : x.InSession i s) (pc : Pc)
    (epoll : Option EpollHandler.Thread) : InSession i s { x with pc, epoll } :=
  ⟨fun hwalking => ⟨(h.walking hwalking).inotifyFd, (h.walking hwalking).file⟩, h.stopped,
    h.added, h.finds⟩

theorem Calls.asserts {i : ι} {s : Commons ι} {x x' : Watcher} {a : Action} {c : Change}
    (h : Calls s x a c x') (hx : x.Asserts i s) : x'.Asserts i (s.after i c) := by
  unfold Asserts at hx
  cases h with
  | begins hpc => exact ⟨rfl, rfl⟩
  | opened hpc hfree =>
      rw [hpc] at hx
      exact ⟨hx, Function.update_self ..⟩
  | registered hpc =>
      rw [hpc] at hx
      exact ⟨hx.1, rfl, hx.2⟩
  | epollFailed hpc =>
      rw [hpc] at hx
      exact hx.1
  | created hpc hfree =>
      rw [hpc] at hx
      obtain ⟨hfresh, hinotifyFd, hfile⟩ := hx
      exact ⟨hfresh, hinotifyFd, files_after (c := .opensEpoll _) hfile hfree (by simp)⟩
  | cleared hpc =>
      rw [hpc] at hx
      exact ⟨hx.1, Registered.inSession i ⟨hx.2.inotifyFd, hx.2.file⟩ hx.1 rfl⟩
  | leftEpoll hpc =>
      rw [hpc] at hx
      rw [scopeExit_of_not_stopped hx.2.stopped]
      exact ⟨hx.1, hx.2.goes_on _ x.epoll⟩
  | leftInotify hpc =>
      rw [hpc] at hx
      rw [scopeExit_of_not_stopped hx.2.stopped]
      exact ⟨hx.1, hx.2.goes_on _ x.epoll⟩
  | startedDirectory hpc =>
      rw [hpc] at hx
      obtain ⟨hfresh, hx⟩ := hx
      have hregistered := hx.walking hfresh.walking
      refine ⟨fun _ => ⟨hregistered.inotifyFd, hregistered.file⟩, hx.stopped, ?_, hx.finds⟩
      simp [answered, pending, hfresh.2, DirectoryThread.Thread.start]
  | startedEpoll hpc =>
      rw [hpc] at hx
      exact hx.goes_on _ _
  | stays hpc =>
      show x.Asserts i s
      unfold Asserts
      exact hx
  | outside houtside _ => exact asserts_of_outside houtside

theorem Registered.watched {s : Commons ι} {x : Watcher} (h : x.Registered s) :
    s.watched = some x.inst := by
  rw [Commons.watched, h.inotifyFd, h.file]

/-- The walk goes on and nothing has been answered. -/
theorem InSession.walks {i : ι} {s : Commons ι} {x : Watcher} {t : DirectoryThread.Thread}
    (h : x.InSession i s) (hregistered : x.Registered s) (hpending : t.pc.pending = []) :
    InSession i s { x with directory := some t } := by
  refine ⟨fun _ => ⟨hregistered.inotifyFd, hregistered.file⟩, h.stopped,
    fun call hcall => h.added call ?_, h.finds⟩
  have hcall : call ∈ x.stored ++ t.pc.pending := hcall
  rw [hpending, List.append_nil] at hcall
  exact List.mem_append_left _ hcall

/-- A watch is answered: it is on this watcher's instance, and its path is pending. -/
theorem InSession.answers {i : ι} {s : Commons ι} {x : Watcher} {t : DirectoryThread.Thread}
    (h : x.InSession i s) (hregistered : x.Registered s) {watchFd : Int} {targetPath : Path}
    (hpending : t.pc.pending = [(watchFd, targetPath)]) :
    InSession i (s.after i (.addsWatch watchFd targetPath)) { x with directory := some t } := by
  refine ⟨fun _ => ⟨hregistered.inotifyFd, hregistered.file⟩, h.stopped,
    fun call hcall => ?_, h.finds⟩
  show _ ∈ s.adds ++ s.watched.toList.map fun inst => ⟨inst, watchFd, targetPath, i⟩
  have hcall : call ∈ x.stored ++ t.pc.pending := hcall
  rw [hregistered.watched]
  rw [hpending] at hcall
  rcases List.mem_append.mp hcall with hcall | hcall
  · exact List.mem_append_left _ (h.added call (List.mem_append_left _ hcall))
  · obtain rfl := List.mem_singleton.mp hcall
    exact List.mem_append_right _ List.mem_cons_self

/-- The path that was pending is stored. -/
theorem InSession.stores {i : ι} {s : Commons ι} {x : Watcher} {t : DirectoryThread.Thread}
    (h : x.InSession i s) (hregistered : x.Registered s) {watchFd : Int} {targetPath : Path}
    (hanswered : x.answered = x.stored ++ [(watchFd, targetPath)]) (hpending : t.pc.pending = []) :
    InSession i (s.after i (.stores watchFd targetPath))
      { x with directory := some t, stored := x.stored ++ [(watchFd, targetPath)] } := by
  refine ⟨fun _ => ⟨hregistered.inotifyFd, hregistered.file⟩, h.stopped,
    fun call hcall => h.added call ?_, fun call hcall => ?_⟩
  · have hcall : call ∈ (x.stored ++ [(watchFd, targetPath)]) ++ t.pc.pending := hcall
    rwa [hpending, List.append_nil, ← hanswered] at hcall
  · show (call.1, (s.mgr.addList watchFd targetPath).getPath call.1) ∈ _
    by_cases hwatch : call.1 = watchFd
    · rw [hwatch, InotifyWatchMgr.getPath_addList_self]
      exact List.mem_append_right _ List.mem_cons_self
    · rw [InotifyWatchMgr.getPath_addList_of_ne s.mgr hwatch]
      refine List.mem_append_left _ (h.finds call ?_)
      rcases List.mem_append.mp hcall with hcall | hcall
      · exact hcall
      · exact absurd (congrArg Prod.fst (List.mem_singleton.mp hcall)) hwatch

theorem walking_of_step {x : Watcher} {t t' : DirectoryThread.Thread} {a : DirectoryThread.Answer}
    (ht : x.directory = some t) (hstep : DirectoryThread.Step t a t') : x.Walking := by
  intro u hu
  obtain rfl : t = u := Option.some.inj (ht.symm.trans hu)
  exact hstep.not_returned

theorem InSession.directory {i : ι} {s : Commons ι} {x : Watcher} {t t' : DirectoryThread.Thread}
    {a : DirectoryThread.Answer} (h : x.InSession i s) (ht : x.directory = some t)
    (hstep : DirectoryThread.Step t a t') :
    InSession i (s.after i (directoryChange t a))
      { x with directory := some t', stored := x.storedAfter t a } := by
  have hregistered : x.Registered s := h.walking (walking_of_step ht hstep)
  cases hstep with
  | added hpc hpos =>
      simp only [directoryChange, storedAfter, hpc, if_neg (Int.not_lt.mpr hpos)]
      exact h.answers hregistered rfl
  | stored hpc =>
      simp only [directoryChange, storedAfter, hpc]
      refine h.stores hregistered ?_ rfl
      rw [Watcher.answered, pending, ht, Option.elim, hpc]
      rfl
  | addFailed hpc hneg =>
      simp only [directoryChange, storedAfter, hpc, if_pos hneg]
      exact h.walks hregistered (DirectoryThread.pending_nextRoot t)
  | ended hpc | stopped hpc =>
      simp only [directoryChange, storedAfter, hpc]
      exact h.walks hregistered (DirectoryThread.pending_nextRoot t)
  | reported hpc | skipped hpc | directory hpc | unresolved hpc | overflows hpc | resolved hpc =>
      simp only [directoryChange, storedAfter, hpc]
      exact h.walks hregistered rfl

/-- Where a directory thread is, its watcher is on its way out or in session. -/
theorem Asserts.of_directory {i : ι} {s : Commons ι} {x : Watcher} {t : DirectoryThread.Thread}
    (h : x.Asserts i s) (ht : x.directory = some t) :
    x.pc.outside ∨ (x.pc = .startEpoll ∨ x.pc = .up) ∧ x.InSession i s := by
  obtain ⟨pc, detectList, inotifyEventHandler, directory, epoll, inst, stored⟩ := x
  unfold Asserts at h
  cases pc with
  | leaveInotify result =>
      cases result with
      | true => exact absurd (ht.symm.trans h.1.1) (Option.some_ne_none t)
      | false => exact absurd (ht.symm.trans h.1) (Option.some_ne_none t)
  | inotifyInit => exact absurd (ht.symm.trans h.1) (Option.some_ne_none t)
  | register fd => exact absurd (ht.symm.trans h.1.1) (Option.some_ne_none t)
  | epollCreate1 | clearStopped | leaveEpoll | startDirectory =>
      exact absurd (ht.symm.trans h.1.1) (Option.some_ne_none t)
  | startEpoll => exact .inr ⟨.inl rfl, h⟩
  | up => exact .inr ⟨.inr rfl, h⟩
  | _ => exact .inl rfl

theorem InSession.asserts {i : ι} {s : Commons ι} {x : Watcher} (h : x.InSession i s)
    (hpc : x.pc = .startEpoll ∨ x.pc = .up) : x.Asserts i s := by
  unfold Asserts
  rcases hpc with hpc | hpc
  · rwa [hpc]
  · rwa [hpc]

/-- Nothing is said about the event thread. -/
theorem Asserts.epoll {i : ι} {s : Commons ι} {x : Watcher} (h : x.Asserts i s)
    (epoll : Option EpollHandler.Thread) : Asserts i s { x with epoll } := by
  have hregistered (h : x.Registered s) : Registered s { x with epoll } := ⟨h.inotifyFd, h.file⟩
  obtain ⟨pc, detectList, inotifyEventHandler, directory, before, inst, stored⟩ := x
  unfold Asserts at h ⊢
  cases pc with
  | leaveInotify result =>
      cases result with
      | true => exact ⟨h.1, h.2.goes_on _ epoll⟩
      | false => exact h
  | inotifyInit | register fd => exact h
  | epollCreate1 | clearStopped => exact ⟨h.1, hregistered h.2⟩
  | leaveEpoll | startDirectory => exact ⟨h.1, h.2.goes_on _ epoll⟩
  | startEpoll | up => exact h.goes_on _ epoll
  | _ => trivial

/-- A watcher's own steps keep what it relies on. -/
theorem Does.asserts {i : ι} {s : Commons ι} {x x' : Watcher} {a : Action} {c : Change}
    (h : Does s x a c x') (hx : x.Asserts i s) : x'.Asserts i (s.after i c) := by
  cases h with
  | caller hcalls => exact hcalls.asserts hx
  | directory ht _ hstep =>
      rcases hx.of_directory ht with houtside | ⟨hpc, hsession⟩
      · exact asserts_of_outside houtside
      · exact (hsession.directory ht hstep).asserts hpc
  | epoll ht _ _ => exact hx.epoll _

end Watcher

namespace Watchers

variable {ι : Type*}

/-- What a worker of a watcher that is up observes: the flag is not set, a watch is
added to the watcher's own instance, and the path of an event is one its own walk was
answered the event's watch for, on that instance. -/
def Observes (s : Watchers ι) (x : ι × Watcher.Action) : Prop :=
  (s.parts x.1).pc = .up →
  match x.2 with
  | .directory (.stopped value) | .epoll (.stopped value) => value = false
  | .directory (.addWatch watchFd) => 0 ≤ watchFd → s.shared.watched = some (s.parts x.1).inst
  | .epoll (.parse path _ _) => ∀ t ∈ (s.parts x.1).epoll, ∀ event ∈ t.inotifyEventBuffer.head?,
      ⟨(s.parts x.1).inst, event.wd, path, x.1⟩ ∈ s.shared.adds
  | _ => True

/-- At a call of `ParseRawEvent`, the watcher's own walk has stored a path under the
event's watch, or the map holds already what it is about to store there. -/
def StoredInTime (s : Watchers ι) (x : ι × Watcher.Action) : Prop :=
  match x.2 with
  | .epoll (.parse _ _ _) => (s.parts x.1).pc = .up →
      ∀ t ∈ (s.parts x.1).epoll, ∀ event ∈ t.inotifyEventBuffer.head?,
        event.wd ∈ (s.parts x.1).stored.map Prod.fst ∨
          (event.wd, s.shared.mgr.getPath event.wd) ∈ (s.parts x.1).pending
  | _ => True

instance (s : Watchers ι) : (x : ι × Watcher.Action) → Decidable (StoredInTime s x)
  | (i, .epoll (.parse _ _ _)) => inferInstanceAs (Decidable ((s.parts i).pc = .up →
      ∀ t ∈ (s.parts i).epoll, ∀ event ∈ t.inotifyEventBuffer.head?,
        event.wd ∈ (s.parts i).stored.map Prod.fst ∨
          (event.wd, s.shared.mgr.getPath event.wd) ∈ (s.parts i).pending))
  | (_, .epoll (.epollCtl _)) | (_, .epoll (.stopped _)) | (_, .epoll (.epollWait _ _))
  | (_, .epoll (.readError _)) | (_, .epoll (.readBytes _ _)) | (_, .initializeWith _)
  | (_, .finalize) | (_, .inotifyInit _) | (_, .epollCreate1 _) | (_, .startDirectory _)
  | (_, .startEpoll _ _) | (_, .proceed) | (_, .directory _) => .isTrue trivial

/-- A step spares all watchers but the one whose step it is, and that one dispatches
no event before its path is stored. -/
def Apart (s : Watchers ι) (x : ι × Watcher.Action) : Prop :=
  (∀ j, j ≠ x.1 → (s.parts j).SparedBy (changeOf s x)) ∧ StoredInTime s x

instance [Fintype ι] [DecidableEq ι] (s : Watchers ι) (x : ι × Watcher.Action) :
    Decidable (Apart s x) :=
  inferInstanceAs (Decidable (_ ∧ _))

/-- The front of the queue is what a call of `ParseRawEvent` finds the path of. -/
theorem observes_of_inSession {s : Watchers ι} {i : ι} {a : Watcher.Action} {c : Change}
    {x : Watcher} (hstep : Watcher.step s.shared (s.parts i) a = some (c, x))
    (h : (s.parts i).pc = .up → (s.parts i).InSession i s.shared)
    (hstored : StoredInTime s (i, a)) : Observes s (i, a) := by
  intro hpc
  have h := h hpc
  cases a with
  | directory a =>
      obtain ⟨t, t', ht, hallow, hwalk, -⟩ := Watcher.directoryStep_cases hstep
      cases a with
      | stopped value => exact hallow.trans h.stopped
      | addWatch watchFd => exact fun _ => (h.walking (Watcher.walking_of_step ht hwalk)).watched
      | _ => trivial
  | epoll a =>
      obtain ⟨t, t', ht, hallow, -⟩ := Watcher.epollStep_cases hstep
      cases a with
      | stopped value => exact hallow.trans h.stopped
      | parse path result errno =>
          intro u hu event hevent
          obtain rfl : t = u := Option.some.inj (ht.symm.trans hu)
          refine h.added (event.wd, path) ?_
          rw [hallow event hevent]
          rcases hstored hpc t hu event hevent with hstored | hpending
          · obtain ⟨call, hcall, hwatch⟩ := List.mem_map.mp hstored
            have hfound := h.finds call hcall
            rw [hwatch] at hfound
            exact List.mem_append_left _ hfound
          · exact List.mem_append_right _ hpending
      | _ => trivial
  | _ => trivial

/-- **Watchers that keep apart do not notice each other.** For any watchers in one
process, under any interleaving of their calls and their workers, as long as every
step is `Apart` the workers of a watcher that is up see the flag clear, add their
watches to its own instance, and find for each event a path its own walk added. -/
theorem observes_of_apart [DecidableEq ι] (detectLists : ι → List Path)
    (hist : List (Watchers ι × (ι × Watcher.Action))) (s : Watchers ι)
    (h : Run Step (start detectLists) hist s) (hapart : Meets Apart hist) :
    Meets Observes hist := by
  have hstart : (start detectLists).Each Watcher.Asserts := fun _ => trivial
  have own (i : ι) (shared : Commons ι) (part : Watcher) (a : Watcher.Action)
      (shared' : Commons ι) (part' : Watcher) (hpart : part.Asserts i shared)
      (hstep : stepOf i shared part a = some (shared', part')) : part'.Asserts i shared' := by
    obtain ⟨c, hdoes, rfl⟩ := stepOf_cases hstep
    exact (Watcher.step_cases hdoes).asserts hpart
  have other (t : Watchers ι) (i : ι) (a : Watcher.Action) (shared : Commons ι) (part : Watcher)
      (ha : Apart t (i, a)) (hstep : stepOf i t.shared (t.parts i) a = some (shared, part)) (j : ι)
      (hj : j ≠ i) (hpart : (t.parts j).Asserts j t.shared) : (t.parts j).Asserts j shared := by
    obtain ⟨c, hdoes, rfl⟩ := stepOf_cases hstep
    have hspared := ha.1 j hj
    rw [changeOf_eq hdoes] at hspared
    exact hpart.other (Watcher.step_cases hdoes).lawful hspared
  intro x hx
  obtain ⟨t, hstep⟩ := (h.mem_step hx).2
  obtain ⟨shared, part, hstep, -⟩ := Composed.step_cases hstep
  obtain ⟨c, hdoes, -⟩ := stepOf_cases hstep
  have hasserts := (Run.each own other h hstart hapart).2 x hx x.2.1
  refine observes_of_inSession hdoes (fun hpc => ?_) (hapart x hx).2
  unfold Watcher.Asserts at hasserts
  rwa [hpc] at hasserts

/-- Watcher `i` is initialized, and is answered these descriptors. -/
def comesUp (i : Fin 2) (inotifyFd epollFd : Int) : List (Fin 2 × Watcher.Action) :=
  [(i, .initializeWith .succeeds), (i, .inotifyInit inotifyFd), (i, .proceed),
   (i, .epollCreate1 epollFd), (i, .proceed), (i, .proceed), (i, .proceed),
   (i, .startDirectory false), (i, .startEpoll false .zero)]

/-- The path `/w`. -/
def pathW : Path := [0x2f#8, 0x77#8]

/-- The walk of the first watcher is answered watch 1 for `/w`. -/
def walks : List (Fin 2 × Watcher.Action) :=
  [(0, .directory (.reports pathW .ftwD)), (0, .directory (.stopped false)),
   (0, .directory (.realpath (.ok pathW))), (0, .directory (.addWatch 1))]

/-- The walk of the first watcher is over when the second comes up, and the first
dispatches an event after that. -/
def sideBySide : List (Fin 2 × Watcher.Action) :=
  comesUp 0 3 4 ++ walks ++ [(0, .directory .addList), (0, .directory .ends)] ++ comesUp 1 5 6 ++
  [(0, .epoll (.epollCtl false)), (0, .epoll (.stopped false)), (0, .epoll (.epollWait 1 .zero)),
   (0, .epoll (.stopped false)),
   (0, .epoll (.readBytes 16 (.zeroed [openRecord] (by decide)))),
   (0, .epoll (.stopped false)), (0, .epoll (.readError .eagain)),
   (0, .epoll (.parse pathW false .zero))]

theorem sideBySide_apart :
    (exec next (start fun _ => [pathW]) sideBySide).any fun x =>
      x.1.all fun y => decide (Apart y.1 y.2) := by
  decide

theorem observes_sideBySide :
    ∃ hist s, exec next (start fun _ => [pathW]) sideBySide = some (hist, s) ∧
      Meets Observes hist := by
  obtain ⟨⟨hist, s⟩, hexec, hall⟩ := (Option.any_eq_true _ _).mp sideBySide_apart
  have hapart : Meets Apart hist := by
    intro x hx
    exact of_decide_eq_true (List.all_eq_true.mp hall x hx)
  exact ⟨hist, s, hexec, observes_of_apart (fun _ => [pathW]) hist s (run_of_exec hexec) hapart⟩

/-- The first watcher is up. The second gets no descriptor, its `Initialize` fails,
and its core is destroyed. -/
def stoppedByOther : List (Fin 2 × Watcher.Action) :=
  comesUp 0 3 4 ++
  [(1, .initializeWith .succeeds), (1, .inotifyInit (-1)), (1, .proceed),
   (0, .epoll (.epollCtl false)), (0, .epoll (.stopped true))]

theorem stoppedByOther_last :
    ((exec next (start fun _ => [pathW]) stoppedByOther).bind fun x =>
      x.1.getLast?.map fun y => ((y.1.parts 0).pc, y.2)) =
      some (.up, (0, .epoll (.stopped true))) := by
  decide

/-- A watcher that is up sees the flag another one has set. -/
theorem sees_others_stop :
    ¬ ∀ (detectLists : Fin 2 → List Path)
      (hist : List (Watchers (Fin 2) × (Fin 2 × Watcher.Action))) (s : Watchers (Fin 2)),
      Run Step (start detectLists) hist s → Meets Observes hist := by
  intro h
  obtain ⟨⟨hist, s⟩, hexec, hs⟩ := Option.bind_eq_some_iff.mp stoppedByOther_last
  obtain ⟨⟨t, x⟩, hmem, htx⟩ := Option.map_eq_some_iff.mp hs
  obtain ⟨hpc, rfl⟩ := Prod.mk.inj htx
  have hfalse : true = false :=
    h _ hist s (run_of_exec hexec) (t, _) (List.mem_of_getLast? hmem) hpc
  exact Bool.false_ne_true hfalse.symm

end Watchers

end InotifyRealtime
