import InotifyRealtime.Foundation.Machine
import InotifyRealtime.Session
import InotifyRealtime.DecodeSound
/-!
# InotifyRealtime.DispatchPath

Which path the event thread finds for an event.

The directory thread makes a watch live and stores its path afterwards, in two
steps. `Tracks` relates the two: the map holds, over what it held when the session
began, the paths of all calls of `inotify_add_watch` but the one whose path is not
stored yet. From it follows when `GetPath` answers the path that was given
(`finds_path_iff`).
-/

namespace InotifyRealtime.Session

open Bytes Machine

/-- The paths of some calls of `inotify_add_watch`, stored one after the other. -/
def storeAll (m : InotifyWatchMgr) (calls : List (Int × Path)) : InotifyWatchMgr :=
  calls.foldl (fun m call => m.addList call.1 call.2) m

theorem storeAll_snoc (m : InotifyWatchMgr) (calls : List (Int × Path)) (w : Int) (p : Path) :
    storeAll m (calls ++ [(w, p)]) = (storeAll m calls).addList w p := by
  simp [storeAll]

/-- A watch has the path of one of the calls that answered it, or what the map
held before. -/
theorem getPath_storeAll (m : InotifyWatchMgr) (calls : List (Int × Path)) (w : Int) :
    (w, (storeAll m calls).getPath w) ∈ calls ∨
      (∀ p, (w, p) ∉ calls) ∧ (storeAll m calls).getPath w = m.getPath w := by
  induction calls generalizing m with
  | nil => exact .inr ⟨fun p => List.not_mem_nil, rfl⟩
  | cons call calls ih =>
      obtain ⟨w', p'⟩ := call
      show (w, (storeAll (m.addList w' p') calls).getPath w) ∈ _ ∨ _ ∧
        (storeAll (m.addList w' p') calls).getPath w = _
      rcases ih (m.addList w' p') with hmem | ⟨hnone, hpath⟩
      · exact .inl (List.mem_cons_of_mem _ hmem)
      · rw [hpath]
        by_cases hw : w = w'
        · subst hw
          rw [InotifyWatchMgr.getPath_addList_self]
          exact .inl List.mem_cons_self
        · refine .inr ⟨fun p hp => ?_, InotifyWatchMgr.getPath_addList_of_ne m hw p'⟩
          rcases List.mem_cons.mp hp with heq | hp
          · exact hw (Prod.mk.inj heq).1
          · exact hnone p hp

/-- The map holds the paths of all calls but the pending one. -/
def Tracks (m₀ : InotifyWatchMgr) (s : Session) : Prop :=
  ∃ stored, s.adds = stored ++ s.directory.pc.pending ∧ s.mgr = storeAll m₀ stored

theorem tracks_start (m₀ : InotifyWatchMgr) (detectList : List Path) (errno : Errno) :
    (start m₀ detectList errno).Tracks m₀ := by
  refine ⟨[], ?_, rfl⟩
  show [] = [] ++ (DirectoryThread.Thread.atRoots detectList).pc.pending
  rw [DirectoryThread.pending_atRoots, List.append_nil]

/-- The map and the calls after a step of the directory thread. -/
theorem tracks_directory {m₀ : InotifyWatchMgr} {s : Session} {a : DirectoryThread.Answer}
    {t : DirectoryThread.Thread} (h : s.Tracks m₀)
    (hthread : DirectoryThread.Step s.directory a t) :
    Tracks m₀ { s with directory := t, mgr := s.mgrAfter a, adds := s.addsAfter a } := by
  obtain ⟨stored, hadds, hmgr⟩ := h
  cases hthread with
  | @addFailed targetPath watchFd hpc hneg =>
      rw [hpc] at hadds
      refine ⟨stored, ?_, by simp only [mgrAfter, hpc, hmgr]⟩
      rw [DirectoryThread.pending_nextRoot]
      simp only [addsAfter, hpc, if_pos hneg]
      exact hadds
  | @added targetPath watchFd hpc hpos =>
      -- the watch is live from here on, and its path is pending
      rw [hpc] at hadds
      refine ⟨stored, ?_, by simp only [mgrAfter, hpc, hmgr]⟩
      simp only [addsAfter, hpc, if_neg (Int.not_lt.mpr hpos), hadds]
      simp [DirectoryThread.Pc.pending]
  | @stored watchFd targetPath hpc =>
      rw [hpc] at hadds
      refine ⟨stored ++ [(watchFd, targetPath)], ?_, ?_⟩
      · simp only [addsAfter, hpc, hadds]
        simp [DirectoryThread.Pc.pending]
      · simp only [mgrAfter, hpc, hmgr, storeAll_snoc]
  | ended hpc | stopped hpc =>
      rw [hpc] at hadds
      refine ⟨stored, ?_, by simp only [mgrAfter, hpc, hmgr]⟩
      rw [DirectoryThread.pending_nextRoot]
      simp only [addsAfter, hpc]
      exact hadds
  | reported hpc | skipped hpc | directory hpc | unresolved hpc | overflows hpc | resolved hpc =>
      rw [hpc] at hadds
      refine ⟨stored, ?_, by simp only [mgrAfter, hpc, hmgr]⟩
      simp only [addsAfter, hpc]
      exact hadds

theorem Tracks.step {m₀ : InotifyWatchMgr} {s s' : Session} {a : Action} (h : s.Tracks m₀)
    (hstep : s.Step a s') : s'.Tracks m₀ := by
  cases hstep.does with
  | finalizer hfin => cases hfin <;> exact h
  | epoll _ _ => exact h
  | directory _ hthread => exact tracks_directory h hthread

/-- At a call of `ParseRawEvent`, `GetPath` answers the path that was given to any
call of `inotify_add_watch` that answered the event's watch. -/
def FindsPath (s : Session) : Action → Prop
  | .epoll (.parse _ _ _) => ∀ event ∈ s.epoll.inotifyEventBuffer.head?, ∀ p,
      (event.wd, p) ∈ s.adds → s.mgr.getPath event.wd = p
  | _ => True

/-- At a call of `ParseRawEvent`, the calls that answered the event's watch were all
given one path, and if it is still to be stored for the last of them, an earlier
one or an earlier session has stored it already. -/
def StoredInTime (m₀ : InotifyWatchMgr) (s : Session) : Action → Prop
  | .epoll (.parse _ _ _) => ∀ event ∈ s.epoll.inotifyEventBuffer.head?,
      (∀ p p', (event.wd, p) ∈ s.adds → (event.wd, p') ∈ s.adds → p = p') ∧
      ∀ p, s.directory.pc = .addList event.wd p →
        (event.wd, p) ∈ s.adds.dropLast ∨ m₀.getPath event.wd = p
  | _ => True

instance (calls : List (Int × Path)) (w : Int) :
    Decidable (∀ p p', (w, p) ∈ calls → (w, p') ∈ calls → p = p') :=
  decidable_of_iff (∀ x ∈ calls, ∀ y ∈ calls, x.1 = w → y.1 = w → x.2 = y.2)
    ⟨fun h p p' hp hp' => h (w, p) hp (w, p') hp' rfl rfl,
      fun h x hx y hy hxw hyw => h x.2 y.2 (hxw ▸ hx) (hyw ▸ hy)⟩

instance (pc : DirectoryThread.Pc) (w : Int) (Q : Path → Prop) [DecidablePred Q] :
    Decidable (∀ p, pc = .addList w p → Q p) :=
  decidable_of_iff (∀ x ∈ pc.pending, x.1 = w → Q x.2) <| by
    constructor
    · intro h p hpc
      exact h (w, p) (by simp [hpc, DirectoryThread.Pc.pending]) rfl
    · intro h x hx hxw
      cases pc with
      | addList watchFd targetPath =>
          obtain rfl := List.mem_singleton.mp hx
          exact h targetPath (congrArg (DirectoryThread.Pc.addList · targetPath) hxw)
      | _ => exact absurd hx List.not_mem_nil

instance (m₀ : InotifyWatchMgr) (s : Session) : (a : Action) → Decidable (StoredInTime m₀ s a)
  | .epoll (.parse _ _ _) => inferInstanceAs (Decidable (∀ event ∈ _, _ ∧ _))
  | .epoll (.epollCtl _) | .epoll (.stopped _) | .epoll (.epollWait _ _) | .epoll (.readError _)
  | .epoll (.readBytes _ _) | .finalizer | .directory _ => .isTrue trivial

theorem finds_path_iff {m₀ : InotifyWatchMgr} {s : Session} (h : s.Tracks m₀) (w : Int) :
    (∀ p, (w, p) ∈ s.adds → s.mgr.getPath w = p) ↔
      (∀ p p', (w, p) ∈ s.adds → (w, p') ∈ s.adds → p = p') ∧
      ∀ p, s.directory.pc = .addList w p → (w, p) ∈ s.adds.dropLast ∨ m₀.getPath w = p := by
  obtain ⟨stored, hadds, hmgr⟩ := h
  have hlast : ∀ p, s.directory.pc = .addList w p → s.adds = stored ++ [(w, p)] := by
    intro p hpc
    rw [hadds, hpc]
    rfl
  constructor
  · intro hfinds
    refine ⟨fun p p' hp hp' => (hfinds p hp).symm.trans (hfinds p' hp'), fun p hpc => ?_⟩
    have hpath : s.mgr.getPath w = p := hfinds p (by simp [hlast p hpc])
    rw [hlast p hpc, List.dropLast_concat]
    rcases getPath_storeAll m₀ stored w with hstored | ⟨-, hbefore⟩
    · rw [← hmgr, hpath] at hstored
      exact .inl hstored
    · rw [← hmgr, hpath] at hbefore
      exact .inr hbefore.symm
  · intro ⟨hone, hpending⟩ p hp
    rcases getPath_storeAll m₀ stored w with hstored | ⟨hnone, hbefore⟩
    · rw [← hmgr] at hstored
      exact hone _ p (by simp [hadds, hstored]) hp
    · -- no call is stored, so the path is that of the pending one
      rw [← hmgr] at hbefore
      have hpc : s.directory.pc = .addList w p := by
        rw [hadds] at hp
        rcases List.mem_append.mp hp with hp | hp
        · exact absurd hp (hnone p)
        · unfold DirectoryThread.Pc.pending at hp
          split at hp
          · next heq =>
              obtain ⟨rfl, rfl⟩ := Prod.mk.inj (List.mem_singleton.mp hp)
              exact heq
          · exact absurd hp List.not_mem_nil
      have hearlier := hpending p hpc
      rw [hlast p hpc, List.dropLast_concat] at hearlier
      exact hbefore.trans (hearlier.resolve_left (hnone p))

/-- **When every dispatched event has its path.** In a session, under any
interleaving of its threads, every call of `ParseRawEvent` finds the path that was
given to `inotify_add_watch` for the event's watch if and only if at each of them
the path was stored in time. -/
theorem dispatch_finds_path_iff (mgr : InotifyWatchMgr) (detectList : List Path) (errno : Errno)
    (hist : List (Session × Action)) (s : Session)
    (h : Run Step (start mgr detectList errno) hist s) :
    Meets FindsPath hist ↔ Meets (StoredInTime mgr) hist := by
  refine h.meets_congr (I := Tracks mgr) (fun _ _ _ ht hstep => ht.step hstep) ?_
    (tracks_start mgr detectList errno)
  intro t a ht
  cases a with
  | epoll answer =>
      cases answer with
      | parse path result errno =>
          exact forall₂_congr fun event _ => finds_path_iff ht event.wd
      | _ => exact Iff.rfl
  | _ => exact Iff.rfl

/-- The path `/a`. -/
def pathA : Path := [0x2f#8, 0x61#8]

/-- The directory thread is answered watch 1 for `/a`. The event thread reads an event of
that watch, and dispatches it when the path is stored. -/
def dispatchedAfterStored : List Action :=
  [.directory (.reports pathA .ftwD), .directory (.stopped false),
   .directory (.realpath (.ok pathA)), .directory (.addWatch 1),
   .epoll (.epollCtl false), .epoll (.stopped false), .epoll (.epollWait 1 .zero),
   .epoll (.stopped false), .epoll (.readBytes 32 (.zeroed [createRecord] createRecord_fits)),
   .directory .addList, .epoll (.stopped false), .epoll (.readError .eagain),
   .epoll (.parse pathA false .zero)]

theorem dispatchedAfterStored_inTime :
    (exec next (start .new [pathA] .zero) dispatchedAfterStored).any fun x =>
      decide (Meets (StoredInTime .new) x.1 ∧ x.2.adds = [(1, pathA)] ∧
        x.2.epoll.printed = [createRecord.event.report pathA]) := by
  decide

theorem dispatch_finds_path_dispatchedAfterStored :
    ∃ hist s, exec next (start .new [pathA] .zero) dispatchedAfterStored = some (hist, s) ∧
      Meets FindsPath hist ∧ s.adds = [(1, pathA)] ∧
      s.epoll.printed = [createRecord.event.report pathA] := by
  obtain ⟨⟨hist, s⟩, hexec, hchecked⟩ := (Option.any_eq_true _ _).mp dispatchedAfterStored_inTime
  obtain ⟨hstored, hadds, hprinted⟩ := of_decide_eq_true hchecked
  have hiff := dispatch_finds_path_iff .new [pathA] .zero hist s (run_of_exec hexec)
  exact ⟨hist, s, hexec, hiff.mpr hstored, hadds, hprinted⟩

/-- The directory thread is answered watch 1 for `/a`; before it stores the path,
the event thread reads an event of that watch and dispatches it. -/
def dispatchedBeforeStored : List Action :=
  [.directory (.reports pathA .ftwD), .directory (.stopped false),
   .directory (.realpath (.ok pathA)), .directory (.addWatch 1),
   .epoll (.epollCtl false), .epoll (.stopped false), .epoll (.epollWait 1 .zero),
   .epoll (.stopped false), .epoll (.readBytes 32 (.zeroed [createRecord] (by decide))),
   .epoll (.stopped false), .epoll (.readError .eagain), .epoll (.parse [] false .zero)]

theorem dispatchedBeforeStored_last :
    ((exec next (start .new [pathA] .zero) dispatchedBeforeStored).bind fun x =>
      x.1.getLast?.map fun y =>
        (y.1.epoll.inotifyEventBuffer, y.1.adds, y.1.mgr.getPath 1, y.2)) =
      some ([createRecord.event], [(1, pathA)], [], .epoll (.parse [] false .zero)) := by
  decide

/-- The event of a watch whose path is not stored yet has the empty path. -/
theorem dispatched_without_path :
    ¬ ∀ (detectList : List Path) (errno : Errno) (hist : List (Session × Action)) (s : Session),
      Run Step (start .new detectList errno) hist s → Meets FindsPath hist := by
  intro h
  obtain ⟨⟨hist, s⟩, hexec, hs⟩ := Option.bind_eq_some_iff.mp dispatchedBeforeStored_last
  obtain ⟨⟨t, a⟩, hmem, hta⟩ := Option.map_eq_some_iff.mp hs
  simp only [Prod.mk.injEq] at hta
  obtain ⟨hq, hadds, hpath, rfl⟩ := hta
  have hfinds := h _ _ hist s (run_of_exec hexec) (t, _) (List.mem_of_getLast? hmem)
  have hwrong : t.mgr.getPath 1 = pathA :=
    hfinds createRecord.event (by simp [hq]) pathA (by rw [hadds]; exact List.mem_singleton.mpr rfl)
  exact absurd (hpath.symm.trans hwrong) (by decide)

end InotifyRealtime.Session
