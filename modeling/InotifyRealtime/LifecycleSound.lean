import InotifyRealtime.Lifecycle
/-!
# InotifyRealtime.LifecycleSound

A core and its handler, called from a thread that is neither worker.

Three facts say all there is to say: what `Finalize` does to a core
(`RealtimeCore.finalize_outside`), what the destructor does
(`RealtimeCore.destroy_outside`), and what an attempt to initialize a new core
leaves behind however it ends (`RealtimeCore.Attempted`). A caller from outside is
neither worker, so both are joined and none is detached; and a core that has
stored a descriptor closes it twice on its way out.
-/

namespace InotifyRealtime

open Threads

/-! ### What the handler closes -/

namespace InotifyEventHandler

/-- The closing of one descriptor. -/
def closing (fd : Int) : List Effect := if -1 ≠ fd then [.close fd] else []

/-- What `finalize` closes. -/
def closes (h : InotifyEventHandler) : List Effect := closing h.inotifyFd ++ closing h.epollFd

theorem closeFd_eq (p : Process) (fd : Int) :
    closeFd p fd = { p with log := p.log ++ closing fd } := by
  unfold closeFd closing
  by_cases hfd : -1 ≠ fd
  · rw [if_pos hfd, if_pos hfd]
    rfl
  · rw [if_neg hfd, if_neg hfd, List.append_nil]

theorem finalize_eq (p : Process) (h : InotifyEventHandler) :
    h.finalize p = { p with stopped := true, log := p.log ++ h.closes } := by
  simp only [finalize, closeFd_eq, closes, List.append_assoc]

@[simp] theorem closes_new : closes new = [] := rfl

theorem mem_closing {fd : Int} {e : Effect} (he : e ∈ closing fd) : e = .close fd := by
  unfold closing at he
  split at he
  · exact List.mem_singleton.mp he
  · exact absurd he List.not_mem_nil

/-- Only descriptors are closed. -/
theorem mem_closes {h : InotifyEventHandler} {e : Effect} (he : e ∈ h.closes) :
    ∃ n, e = .close n := by
  rcases List.mem_append.mp he with he | he
  · exact ⟨_, mem_closing he⟩
  · exact ⟨_, mem_closing he⟩

/-- A handler that stored an inotify descriptor closes it first. -/
theorem closes_of_pos {h : InotifyEventHandler} (hpos : 0 < h.inotifyFd) :
    h.closes = .close h.inotifyFd :: closing h.epollFd := by
  have hfd : -1 ≠ h.inotifyFd := by omega
  rw [closes, closing, if_pos hfd]
  rfl

end InotifyEventHandler

/-! ### Finalizing and destroying a core -/

/-- Neither the birth nor the death of a core. -/
def Effect.Systemic (e : Effect) : Prop := e ≠ .coreNew ∧ e ≠ .coreDelete

namespace RealtimeCore

/-- The core's handles own this thread. -/
def Owns (c : RealtimeCore) (i : Nat) : Prop :=
  c.directoryTread = some i ∨ c.epollHandlerThread = some i

/-- The threads once both workers have been joined. -/
def joinedThreads (p : Process) (c : RealtimeCore) : List (Thread Worker) :=
  joined (joined p.threads c.directoryTread) c.epollHandlerThread

/-- The caller is neither of the core's workers. -/
def Stranger (c : RealtimeCore) (caller : ThreadId) : Prop := ∀ i, c.Owns i → caller ≠ .thread i

theorem stranger_outside (c : RealtimeCore) : c.Stranger .outside := by
  intro i _ h
  exact absurd h nofun

theorem stopThread_of_ne {caller : ThreadId} {handle : Handle}
    (h : ∀ i, handle = some i → caller ≠ .thread i) (p : Process) :
    stopThread caller false p handle =
      ({ p with threads := joined p.threads handle }, none) := by
  cases handle with
  | none => rfl
  | some i =>
      have hjoin : join caller p.threads i = some (finish p.threads i) := by
        rw [join, if_neg (h i rfl)]
      simp [stopThread, joined, hjoin]

theorem getId_ne {caller : ThreadId} {handle : Handle}
    (h : ∀ i, handle = some i → caller ≠ .thread i) : some caller ≠ handle.getId := by
  intro heq
  cases handle with
  | none => exact absurd heq nofun
  | some i => exact h i rfl (Option.some.inj heq)

/-- A stranger passes for neither worker. -/
theorem Stranger.not_isIn {c : RealtimeCore} {caller : ThreadId} (h : c.Stranger caller) :
    isInEpollThread caller c = false ∧ isInDirectorySearchThread caller c = false :=
  ⟨decide_eq_false (getId_ne fun i hi => h i (.inl hi)),
    decide_eq_false (getId_ne fun i hi => h i (.inr hi))⟩

theorem Stranger.stopDirectorySearchThread {c : RealtimeCore} {caller : ThreadId}
    (h : c.Stranger caller) (p : Process) :
    stopDirectorySearchThread caller false p c =
      ({ p with threads := joined p.threads c.directoryTread },
        { c with directoryTread := none }) := by
  rw [RealtimeCore.stopDirectorySearchThread, h.not_isIn.2, Bool.or_false,
    stopThread_of_ne (fun i hi => h i (.inl hi))]

/-- A stranger's `Finalize` closes, joins both workers and gives up both handles. -/
theorem Stranger.finalize {c : RealtimeCore} {caller : ThreadId} (h : c.Stranger caller)
    (p : Process) :
    c.finalize caller p =
      ({ p with
          stopped := true
          threads := joinedThreads p c
          log := p.log ++ c.inotifyEventHandler.closes },
        { c with directoryTread := none, epollHandlerThread := none }) := by
  have hrest : Stranger { c with directoryTread := none } caller := by
    intro i howns
    rcases howns with hdir | hepoll
    · exact absurd hdir nofun
    · exact h i (.inr hepoll)
  simp only [RealtimeCore.finalize, h.stopDirectorySearchThread, stopEpollThread,
    hrest.not_isIn, Bool.or_false, stopThread_of_ne (fun i hi => h i (.inr hi)),
    InotifyEventHandler.finalize_eq, joinedThreads]

/-- `Finalize` from outside. -/
theorem finalize_outside (p : Process) (c : RealtimeCore) :
    c.finalize .outside p =
      ({ p with
          stopped := true
          threads := joinedThreads p c
          log := p.log ++ c.inotifyEventHandler.closes },
        { c with directoryTread := none, epollHandlerThread := none }) :=
  c.stranger_outside.finalize p

/-- The destructor closes everything a second time. -/
theorem destroy_outside (p : Process) (c : RealtimeCore) :
    c.destroy .outside p = some { p with
      stopped := true
      threads := joinedThreads p c
      log := p.log ++ c.inotifyEventHandler.closes ++ c.inotifyEventHandler.closes ++
        [.coreDelete] } := by
  rw [destroy, finalize_outside]
  simp [InotifyEventHandler.finalize_eq, Handle.joinable, Process.record]

/-- After both workers have been joined, none of the core's threads runs. -/
theorem joinedThreads_runsOnly {p : Process} {c : RealtimeCore} {S : Nat → Prop}
    (h : RunsOnly p.threads (fun i => S i ∨ c.Owns i)) : RunsOnly (joinedThreads p c) S := by
  refine ((h.joined c.directoryTread).joined c.epollHandlerThread).mono fun i hi => ?_
  obtain ⟨⟨hS | hdir | hepoll, hnotDir⟩, hnotEpoll⟩ := hi
  · exact hS
  · exact absurd hdir hnotDir
  · exact absurd hepoll hnotEpoll

/-! ### Initializing a new core -/

/-- What an attempt to initialize a new core leaves behind, however it ends. -/
structure Attempted (o : Outcomes) (p : Process) (e : Ending) (p' : Process)
    (c : RealtimeCore) : Prop where
  /-- The log grows by system calls, closes among them only if a descriptor was
  stored. -/
  log : ∃ added, p'.log = p.log ++ added ∧ (∀ x ∈ added, x.Systemic) ∧
    (¬ 0 < o.inotifyInit → ∀ x ∈ added, ∀ n, x ≠ .close n)
  /-- A descriptor is stored if it is a positive number. -/
  stored : if 0 < o.inotifyInit then c.inotifyEventHandler.inotifyFd = o.inotifyInit
    else c.inotifyEventHandler = .new
  threads : ∀ S, RunsOnly p.threads S → RunsOnly p'.threads (fun i => S i ∨ c.Owns i)
  /-- Success takes a stored descriptor, and leaves two workers and the flag cleared. -/
  ready : e = .returned true → 0 < o.inotifyInit ∧
    p'.stopped = false ∧ c.directoryTread.joinable ∧ c.epollHandlerThread.joinable

end RealtimeCore

/-- What `InotifyEventHandler::Initialize` does to a new handler. -/
structure InotifyEventHandler.Attempted (o : Outcomes) (p : Process) (result : Bool)
    (p' : Process) (h : InotifyEventHandler) : Prop where
  log : ∃ added, p'.log = p.log ++ added ∧ (∀ x ∈ added, x.Systemic) ∧
    (¬ 0 < o.inotifyInit → ∀ x ∈ added, ∀ n, x ≠ .close n)
  stored : if 0 < o.inotifyInit then h.inotifyFd = o.inotifyInit else h = .new
  threads : p'.threads = p.threads
  ready : result = true → 0 < o.inotifyInit ∧ p'.stopped = false

theorem InotifyEventHandler.scopeExit_eq (p : Process) (fd : Int) :
    scopeExit p fd = { p with log := p.log ++ if p.stopped then closing fd else [] } := by
  unfold scopeExit
  by_cases hstopped : p.stopped
  · rw [if_pos hstopped, if_pos hstopped, closeFd_eq]
  · rw [if_neg hstopped, if_neg hstopped, List.append_nil]

/-! The four ways out of the handler's `Initialize`. -/

theorem InotifyEventHandler.initializeWith_of_neg {o : Outcomes} (hinit : o.inotifyInit < 0)
    (p : Process) (h : InotifyEventHandler) :
    h.initializeWith o p = (false, p.record (.inotifyInit o.inotifyInit), h) := by
  rw [initializeWith, if_pos hinit]

/-- The watch manager takes descriptor 0 for no descriptor. -/
theorem InotifyEventHandler.initializeWith_of_zero {o : Outcomes} (hinit : o.inotifyInit = 0)
    (p : Process) (h : InotifyEventHandler) :
    h.initializeWith o p = (false, { p with
      mgr := (p.mgr.initializeWith o.inotifyInit).2
      log := p.log ++ [.inotifyInit o.inotifyInit] }, h) := by
  have hneg : ¬ o.inotifyInit < 0 := by omega
  have hfails : (p.mgr.initializeWith o.inotifyInit).1 = false :=
    decide_eq_false (not_not_intro hinit)
  rw [initializeWith, if_neg hneg]
  simp only [Process.record, hfails, Bool.not_false, if_true]

theorem InotifyEventHandler.initializeWith_of_epoll_neg {o : Outcomes} (hinit : 0 < o.inotifyInit)
    (hepoll : o.epollCreate1 < 0) (p : Process) (h : InotifyEventHandler) :
    h.initializeWith o p = (false, { p with
      mgr := (p.mgr.initializeWith o.inotifyInit).2
      log := p.log ++ ([.inotifyInit o.inotifyInit, .epollCreate1 o.epollCreate1] ++
        if p.stopped then closing o.inotifyInit else []) },
      { h with inotifyFd := o.inotifyInit }) := by
  have hneg : ¬ o.inotifyInit < 0 := by omega
  have hsucceeds : (p.mgr.initializeWith o.inotifyInit).1 = true :=
    decide_eq_true (by omega)
  rw [initializeWith, if_neg hneg]
  simp only [Process.record, hsucceeds, Bool.not_true, Bool.false_eq_true, if_false,
    if_pos hepoll, scopeExit_eq, List.append_assoc, List.cons_append, List.nil_append]

theorem InotifyEventHandler.initializeWith_of_pos {o : Outcomes} (hinit : 0 < o.inotifyInit)
    (hepoll : 0 ≤ o.epollCreate1) (p : Process) (h : InotifyEventHandler) :
    h.initializeWith o p = (true, { p with
      stopped := false
      mgr := (p.mgr.initializeWith o.inotifyInit).2
      log := p.log ++ [.inotifyInit o.inotifyInit, .epollCreate1 o.epollCreate1] },
      ⟨o.inotifyInit, o.epollCreate1⟩) := by
  have hneg : ¬ o.inotifyInit < 0 := by omega
  have hepoll : ¬ o.epollCreate1 < 0 := by omega
  have hsucceeds : (p.mgr.initializeWith o.inotifyInit).1 = true :=
    decide_eq_true (by omega)
  rw [initializeWith, if_neg hneg]
  -- the flag has just been cleared: neither scope exit closes anything
  simp only [Process.record, hsucceeds, Bool.not_true, Bool.false_eq_true, if_false,
    if_neg hepoll, scopeExit_eq, List.append_assoc, List.cons_append, List.nil_append,
    List.append_nil]

/-- What an attempt leaves behind, whichever way out it takes. -/
theorem InotifyEventHandler.initializeWith_new (o : Outcomes) (p : Process) :
    ∃ result p' h, new.initializeWith o p = (result, p', h) ∧ Attempted o p result p' h := by
  rcases lt_trichotomy o.inotifyInit 0 with hinit | hinit | hinit
  · have hpos : ¬ 0 < o.inotifyInit := by omega
    refine ⟨_, _, _, initializeWith_of_neg hinit p new,
      ⟨⟨[.inotifyInit o.inotifyInit], rfl, ?_, ?_⟩, ?_, rfl, nofun⟩⟩
    · simp [Effect.Systemic]
    · simp
    · rw [if_neg hpos]
  · have hpos : ¬ 0 < o.inotifyInit := by omega
    refine ⟨_, _, _, initializeWith_of_zero hinit p new,
      ⟨⟨[.inotifyInit o.inotifyInit], rfl, ?_, ?_⟩, ?_, rfl, nofun⟩⟩
    · simp [Effect.Systemic]
    · simp
    · rw [if_neg hpos]
  · by_cases hepoll : o.epollCreate1 < 0
    · refine ⟨_, _, _, initializeWith_of_epoll_neg hinit hepoll p new,
        ⟨⟨_, rfl, ?_, fun h => absurd hinit h⟩, ?_, rfl, nofun⟩⟩
      · intro x hx
        rcases List.mem_append.mp hx with hx | hx
        · simp only [List.mem_cons, List.not_mem_nil, or_false] at hx
          rcases hx with rfl | rfl
          · exact ⟨nofun, nofun⟩
          · exact ⟨nofun, nofun⟩
        · split at hx
          · rw [mem_closing hx]
            exact ⟨nofun, nofun⟩
          · exact absurd hx List.not_mem_nil
      · rw [if_pos hinit]
    · refine ⟨_, _, _, initializeWith_of_pos hinit (Int.not_lt.mp hepoll) p new,
        ⟨⟨_, rfl, ?_, fun h => absurd hinit h⟩, ?_, rfl, fun _ => ⟨hinit, rfl⟩⟩⟩
      · simp [Effect.Systemic]
      · rw [if_pos hinit]

namespace RealtimeCore

/-- An attempt on a new core always comes back. -/
theorem initializeWith_new (o : Outcomes) (p : Process) :
    ∃ e p' c, new.initializeWith o p = some (e, p', c) ∧ Attempted o p e p' c := by
  obtain ⟨result, p₁, h, heq, hlog, hstored, hthreads, hready⟩ :=
    InotifyEventHandler.initializeWith_new o p
  unfold initializeWith
  rw [show new.inotifyEventHandler = InotifyEventHandler.new from rfl, heq]
  cases result with
  | false =>
      refine ⟨_, _, _, rfl, ⟨hlog, hstored, fun S hS => ?_, nofun⟩⟩
      rw [hthreads]
      exact hS.mono fun i hi => .inl hi
  | true =>
      simp only [startDirectorySearchThread, startThread, new, Handle.joinable, Option.isSome_none,
        Bool.false_eq_true, if_false]
      by_cases hdir : o.directoryThreadThrows
      · rw [if_pos hdir]
        refine ⟨_, _, _, rfl, ⟨hlog, hstored, fun S hS => ?_, nofun⟩⟩
        show RunsOnly p₁.threads _
        rw [hthreads]
        exact hS.mono fun i hi => .inl hi
      rw [if_neg hdir]
      simp only [startEpollThread, startThread, Option.map_some, Option.bind_some, Handle.joinable,
        Option.isSome_none, Bool.false_eq_true, if_false]
      by_cases hepoll : o.epollThreadThrows
      · rw [if_pos hepoll]
        refine ⟨_, _, _, rfl, ⟨hlog, hstored, fun S hS => ?_, nofun⟩⟩
        show RunsOnly (spawn p₁.threads .directory).2 _
        rw [hthreads]
        refine (hS.spawn .directory).mono fun i hi => ?_
        rcases hi with hi | rfl
        · exact .inl hi
        · exact .inr (.inl rfl)
      · rw [if_neg hepoll]
        refine ⟨_, _, _, rfl, ⟨hlog, hstored, fun S hS => ?_, fun _ => ?_⟩⟩
        · show RunsOnly (spawn (spawn p₁.threads .directory).2 .epoll).2 _
          rw [hthreads]
          refine ((hS.spawn .directory).spawn .epoll).mono fun i hi => ?_
          rcases hi with (hi | rfl) | rfl
          · exact .inl hi
          · exact .inr (.inl rfl)
          · exact .inr (.inr rfl)
        · obtain ⟨hpos, hstopped⟩ := hready rfl
          exact ⟨hpos, hstopped, rfl, rfl⟩

end RealtimeCore

end InotifyRealtime
