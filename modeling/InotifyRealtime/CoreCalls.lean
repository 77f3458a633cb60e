import InotifyRealtime.Foundation.Monitor
import InotifyRealtime.Foundation.Progress
import InotifyRealtime.CoreStops
/-!
# InotifyRealtime.CoreCalls

Calls of one `RealtimeCore` from several threads.

`Initialize` and `Finalize` hold `mu_` from their beginning to their end. Here they are
taken apart at the places where another thread can get in between: it calls as well and
waits for the mutex, or a worker ends. A `join` waits until that has happened.

All this comes to the same as whole calls one after the other, as `CoreProgram` makes
them (`calls_serialised`). But a call can fail to come back: `FinalizeLock` joins with the
mutex held, and a worker that has called and waits for the mutex does not end. The mutex
can be unlocked precisely if none of the workers still to be joined waits for it
(`unlocks_iff`).
-/

namespace InotifyRealtime

open Threads Machine

inductive CoreCall
  | initializeWith (o : Outcomes)
  | finalize
  deriving DecidableEq

/-- Where a call stands. -/
inductive CorePc
  /-- `inotify_event_handler_.Initialize()`. -/
  | handlerInitialize (o : Outcomes)
  /-- `StartDirectorySearchThread()`. -/
  | startDirectory (o : Outcomes)
  /-- `StartEpollThread()`. -/
  | startEpoll (o : Outcomes)
  /-- `inotify_event_handler_.Finalize()`. -/
  | handlerFinalize
  /-- `StopDirectorySearchThread()`. -/
  | stopDirectory
  /-- `StopEpollThread()`. -/
  | stopEpoll
  deriving DecidableEq

namespace CoreCalls

open RealtimeCore

/-- The thread a `Stop` function joins, if the `join` does not throw. -/
def joining (caller : ThreadId) (giveUp : Bool) (handle : Handle) : Option Nat :=
  handle.filter fun i => !giveUp && caller ≠ .thread i

/-- It has to wait while that thread runs. -/
def waits (caller : ThreadId) (giveUp : Bool) (ts : List (Thread Worker)) (handle : Handle) :
    Bool :=
  (joining caller giveUp handle).any fun i => ts[i]?.any Thread.running

/-- The process with its core; `none` when `std::terminate` was called. -/
abbrev Shared := Option (Process × RealtimeCore)

/-- The next step of a call. -/
def body (caller : ThreadId) (pc : CorePc) (p : Process) (c : RealtimeCore) :
    Option (Option CorePc × Shared) :=
  match pc with
  | .handlerInitialize o =>
      match c.inotifyEventHandler.initializeWith o p with
      | (false, p, h) => some (none, some (p, { c with inotifyEventHandler := h }))
      | (true, p, h) =>
          some (some (.startDirectory o), some (p, { c with inotifyEventHandler := h }))
  | .startDirectory o =>
      match c.startDirectorySearchThread o p with
      -- `std::terminate` does not come back
      | none => some (some (.startDirectory o), none)
      | some (.returned true, p, c) => some (some (.startEpoll o), some (p, c))
      | some (_, p, c) => some (none, some (p, c))
  | .startEpoll o =>
      match c.startEpollThread o p with
      | none => some (some (.startEpoll o), none)
      | some (_, p, c) => some (none, some (p, c))
  | .handlerFinalize => some (some .stopDirectory, some (c.inotifyEventHandler.finalize p, c))
  | .stopDirectory =>
      if waits caller (c.isInDirectorySearchThread caller) p.threads c.directoryTread then none
      else some (some .stopEpoll, some (c.stopDirectorySearchThread caller false p))
  | .stopEpoll =>
      if waits caller (c.isInEpollThread caller) p.threads c.epollHandlerThread then none
      else some (none, some (c.stopEpollThread caller false p))

/-- A thread of the process ends. -/
def endThread (i : Nat) (p : Process) : Process := { p with threads := finish p.threads i }

/-- A core, its callers and its workers. A thread is in one call at a time; those from
outside are not told apart. A worker ends when it runs and is in no call. -/
def monitor : Monitor Shared ThreadId CoreCall CorePc Nat where
  enter
    | _, .initializeWith o => .handlerInitialize o
    | _, .finalize => .handlerFinalize
  body caller pc s := s.bind fun (p, c) => body caller pc p c
  mayCall s busy t :=
    s.any fun (p, _) => canCall p.threads t && (t = .outside || !busy t)
  other s busy i :=
    s.bind fun (p, c) =>
      if canCall p.threads (.thread i) && !busy (.thread i) then
        some (some (endThread i p, c))
      else none

abbrev State := Monitor.State Shared ThreadId CoreCall CorePc

abbrev Action := Monitor.Action ThreadId CoreCall Nat

def start : State := ⟨some (.start, .new), none, []⟩

/-! ### Whole calls -/

/-- The process after a call of `Initialize` that came back. -/
def ended (x : Option (Ending × Process × RealtimeCore)) : Shared := x.map Prod.snd

/-- `InitializeLock` after `StartDirectorySearchThread`. -/
def afterDirectory (o : Outcomes) (x : Ending × Process × RealtimeCore) :
    Option (Ending × Process × RealtimeCore) :=
  match x.1 with
  | .returned true => x.2.2.startEpollThread o x.2.1
  | e => some (e, x.2)

/-- What is left of a call, done at once. -/
def rest (caller : ThreadId) (pc : CorePc) (p : Process) (c : RealtimeCore) : Shared :=
  match pc with
  | .handlerInitialize o => ended (c.initializeWith o p)
  | .startDirectory o => ended ((c.startDirectorySearchThread o p).bind (afterDirectory o))
  | .startEpoll o => ended (c.startEpollThread o p)
  | .handlerFinalize => some (c.finalize caller p)
  | .stopDirectory =>
      let (p, c) := c.stopDirectorySearchThread caller false p
      some (c.stopEpollThread caller false p)
  | .stopEpoll => some (c.stopEpollThread caller false p)

def toProgram : Shared → CoreProgram
  | some (p, c) => .alive p c
  | none => .terminated

/-- The program, as it will be when the call that holds the mutex is over. -/
def settle (holder : Option (ThreadId × CorePc)) (s : Shared) : CoreProgram :=
  toProgram (holder.elim s fun (caller, pc) => s.bind fun (p, c) => rest caller pc p c)

/-- A call, as `CoreProgram` has it. -/
def callEvent (caller : ThreadId) : CoreCall → CoreEvent
  | .initializeWith o => .initializeWith o
  | .finalize => .finalize caller

/-- That a worker ends is of no account when the process ends with the call. -/
def otherEvent (holder : Option (ThreadId × CorePc)) (s : Shared) (i : Nat) : Option CoreEvent :=
  match settle holder s with
  | .alive _ _ => some (.workerEnds i)
  | _ => none

theorem body_rest {caller : ThreadId} {pc : CorePc} {p : Process} {c : RealtimeCore}
    {pc' : Option CorePc} {s : Shared} (h : body caller pc p c = some (pc', s)) :
    pc'.elim s (fun pc' => s.bind fun (p, c) => rest caller pc' p c) = rest caller pc p c := by
  cases pc with
  | handlerInitialize o =>
      rcases hinit : c.inotifyEventHandler.initializeWith o p with ⟨result, p', h'⟩
      simp only [body, hinit] at h
      simp only [rest, RealtimeCore.initializeWith, hinit]
      cases result with
      | false =>
          obtain ⟨rfl, rfl⟩ := Prod.mk.inj (Option.some.inj h)
          rfl
      | true =>
          obtain ⟨rfl, rfl⟩ := Prod.mk.inj (Option.some.inj h)
          rfl
  | startDirectory o =>
      simp only [body] at h
      simp only [rest]
      split at h
      · next heq =>
          obtain ⟨rfl, rfl⟩ := Prod.mk.inj (Option.some.inj h)
          rw [heq]
          rfl
      · next heq =>
          obtain ⟨rfl, rfl⟩ := Prod.mk.inj (Option.some.inj h)
          rw [heq]
          rfl
      · next e p' c' hne heq =>
          obtain ⟨rfl, rfl⟩ := Prod.mk.inj (Option.some.inj h)
          rw [heq]
          cases e with
          | thrown => rfl
          | returned result =>
              cases result with
              | true => exact absurd rfl hne
              | false => rfl
  | startEpoll o =>
      simp only [body] at h
      simp only [rest]
      split at h
      · next heq =>
          obtain ⟨rfl, rfl⟩ := Prod.mk.inj (Option.some.inj h)
          rw [heq]
          rfl
      · next heq =>
          obtain ⟨rfl, rfl⟩ := Prod.mk.inj (Option.some.inj h)
          rw [heq]
          rfl
  | handlerFinalize =>
      obtain ⟨rfl, rfl⟩ := Prod.mk.inj (Option.some.inj h)
      rfl
  | stopDirectory =>
      simp only [body, Option.ite_none_left_eq_some] at h
      obtain ⟨rfl, rfl⟩ := Prod.mk.inj (Option.some.inj h.2)
      rfl
  | stopEpoll =>
      simp only [body, Option.ite_none_left_eq_some] at h
      obtain ⟨rfl, rfl⟩ := Prod.mk.inj (Option.some.inj h.2)
      rfl

/-! ### What else happens meanwhile -/

/-- The handler has nothing to do with the threads. -/
theorem handlerInitialize_endThread (o : Outcomes) (i : Nat) (p : Process)
    (h : InotifyEventHandler) :
    h.initializeWith o (endThread i p) =
      ((h.initializeWith o p).1, endThread i (h.initializeWith o p).2.1,
        (h.initializeWith o p).2.2) := by
  rcases lt_trichotomy o.inotifyInit 0 with hinit | hinit | hinit
  · rw [InotifyEventHandler.initializeWith_of_neg hinit,
      InotifyEventHandler.initializeWith_of_neg hinit]
    rfl
  · rw [InotifyEventHandler.initializeWith_of_zero hinit,
      InotifyEventHandler.initializeWith_of_zero hinit]
    rfl
  · by_cases hepoll : o.epollCreate1 < 0
    · rw [InotifyEventHandler.initializeWith_of_epoll_neg hinit hepoll,
        InotifyEventHandler.initializeWith_of_epoll_neg hinit hepoll]
      rfl
    · rw [Int.not_lt] at hepoll
      rw [InotifyEventHandler.initializeWith_of_pos hinit hepoll,
        InotifyEventHandler.initializeWith_of_pos hinit hepoll]
      rfl

theorem handlerInitialize_threads (o : Outcomes) (p : Process) (h : InotifyEventHandler) :
    (h.initializeWith o p).2.1.threads = p.threads := by
  obtain ⟨result, p', h', heq, hthreads, -⟩ := h.initializeWith_threads o p
  rw [heq]
  exact hthreads

/-- A thread that is there may as well end after another one is started. -/
theorem startThread_endThread (role : Worker) (throws : Bool) {i : Nat} {p : Process}
    (hi : i < p.threads.length) (handle : Handle) :
    startThread role throws (endThread i p) handle =
      (startThread role throws p handle).map fun (e, p, handle) => (e, endThread i p, handle) := by
  unfold startThread
  by_cases hthrows : throws = true
  · rw [if_pos hthrows, if_pos hthrows]
    rfl
  · rw [if_neg hthrows, if_neg hthrows]
    by_cases hjoinable : handle.joinable = true
    · rw [if_pos hjoinable, if_pos hjoinable]
      rfl
    · rw [if_neg hjoinable, if_neg hjoinable]
      simp only [Option.map_some, endThread, finish_spawn hi role]
      simp [spawn]

/-- And after another one is stopped. -/
theorem stopThread_endThread (caller : ThreadId) (giveUp : Bool) (i : Nat) (p : Process)
    (handle : Handle) :
    stopThread caller giveUp (endThread i p) handle =
      (endThread i (stopThread caller giveUp p handle).1,
        (stopThread caller giveUp p handle).2) := by
  cases handle with
  | none => rfl
  | some j =>
      cases giveUp with
      | true =>
          simp only [stopThread, if_true, endThread, finish_detach]
      | false =>
          by_cases hself : caller = .thread j
          · simp [stopThread, join, hself]
          · simp [stopThread, join, hself, endThread, finish_comm p.threads j i]

theorem startDirectory_endThread (o : Outcomes) {i : Nat} {p : Process} (c : RealtimeCore)
    (hi : i < p.threads.length) :
    c.startDirectorySearchThread o (endThread i p) =
      (c.startDirectorySearchThread o p).map fun (e, p, c) => (e, endThread i p, c) := by
  simp only [startDirectorySearchThread, startThread_endThread _ _ hi, Option.map_map,
    Function.comp_def]

theorem startEpoll_endThread (o : Outcomes) {i : Nat} {p : Process} (c : RealtimeCore)
    (hi : i < p.threads.length) :
    c.startEpollThread o (endThread i p) =
      (c.startEpollThread o p).map fun (e, p, c) => (e, endThread i p, c) := by
  simp only [startEpollThread, startThread_endThread _ _ hi, Option.map_map, Function.comp_def]

theorem stopDirectory_endThread (caller : ThreadId) (i : Nat) (p : Process) (c : RealtimeCore) :
    c.stopDirectorySearchThread caller false (endThread i p) =
      (endThread i (c.stopDirectorySearchThread caller false p).1,
        (c.stopDirectorySearchThread caller false p).2) := by
  simp only [stopDirectorySearchThread, stopThread_endThread]

theorem stopEpoll_endThread (caller : ThreadId) (i : Nat) (p : Process) (c : RealtimeCore) :
    c.stopEpollThread caller false (endThread i p) =
      (endThread i (c.stopEpollThread caller false p).1,
        (c.stopEpollThread caller false p).2) := by
  simp only [stopEpollThread, stopThread_endThread]

/-- Starting a thread adds one, if anything. -/
theorem startThread_threads {role : Worker} {throws : Bool} {p p' : Process}
    {handle handle' : Handle} {e : Ending}
    (h : startThread role throws p handle = some (e, p', handle')) :
    p'.threads = p.threads ∨ p'.threads = (spawn p.threads role).2 := by
  unfold startThread at h
  split at h
  · obtain ⟨-, rfl, -⟩ := by simpa using h
    exact .inl rfl
  · split at h
    · exact absurd h nofun
    · obtain ⟨-, rfl, -⟩ := by simpa using h
      exact .inr rfl

theorem startDirectory_threads {o : Outcomes} {p p' : Process} {c c' : RealtimeCore} {e : Ending}
    (h : c.startDirectorySearchThread o p = some (e, p', c')) :
    p'.threads = p.threads ∨ p'.threads = (spawn p.threads .directory).2 := by
  obtain ⟨⟨e, q, handle⟩, hstart, heq⟩ := Option.map_eq_some_iff.mp h
  obtain ⟨rfl, rfl, rfl⟩ : e = _ ∧ q = p' ∧ _ = c' := by simpa using heq
  exact startThread_threads hstart

theorem startEpoll_threads {o : Outcomes} {p p' : Process} {c c' : RealtimeCore} {e : Ending}
    (h : c.startEpollThread o p = some (e, p', c')) :
    p'.threads = p.threads ∨ p'.threads = (spawn p.threads .epoll).2 := by
  obtain ⟨⟨e, q, handle⟩, hstart, heq⟩ := Option.map_eq_some_iff.mp h
  obtain ⟨rfl, rfl, rfl⟩ : e = _ ∧ q = p' ∧ _ = c' := by simpa using heq
  exact startThread_threads hstart

/-- Both `Start` functions. -/
theorem afterDirectory_endThread (o : Outcomes) {i : Nat} {p : Process} (c : RealtimeCore)
    (hi : i < p.threads.length) :
    (c.startDirectorySearchThread o (endThread i p)).bind (afterDirectory o) =
      ((c.startDirectorySearchThread o p).bind (afterDirectory o)).map
        fun (e, p, c) => (e, endThread i p, c) := by
  rw [startDirectory_endThread o c hi]
  cases hstart : c.startDirectorySearchThread o p with
  | none => rfl
  | some x =>
      obtain ⟨e, p', c'⟩ := x
      have hi' : i < p'.threads.length := by
        rcases startDirectory_threads hstart with hsame | hspawned
        · rwa [hsame]
        · rw [hspawned, spawn, List.length_append]
          exact hi.trans_le (Nat.le_add_right _ _)
      cases e with
      | thrown => rfl
      | returned result =>
          cases result with
          | false => rfl
          | true => exact startEpoll_endThread o c' hi'

theorem ended_map (i : Nat) (x : Option (Ending × Process × RealtimeCore)) :
    ended (x.map fun (e, p, c) => (e, endThread i p, c)) =
      (ended x).map fun (p, c) => (endThread i p, c) := by
  cases x <;> rfl

/-- A thread that is there may as well end after the call. -/
theorem rest_endThread (caller : ThreadId) (pc : CorePc) {i : Nat} {p : Process}
    (c : RealtimeCore) (hi : i < p.threads.length) :
    rest caller pc (endThread i p) c =
      (rest caller pc p c).map fun (p, c) => (endThread i p, c) := by
  cases pc with
  | handlerInitialize o =>
      simp only [rest, ← ended_map]
      refine congrArg ended ?_
      simp only [RealtimeCore.initializeWith, handlerInitialize_endThread]
      have hthreads := handlerInitialize_threads o p c.inotifyEventHandler
      rcases hx : c.inotifyEventHandler.initializeWith o p with ⟨result, p', h⟩
      rw [hx] at hthreads
      cases result with
      | false => rfl
      | true => exact afterDirectory_endThread o _ (hthreads.symm ▸ hi)
  | startDirectory o =>
      simp only [rest, ← ended_map]
      exact congrArg ended (afterDirectory_endThread o c hi)
  | startEpoll o =>
      simp only [rest, ← ended_map]
      exact congrArg ended (startEpoll_endThread o c hi)
  | handlerFinalize =>
      have hfinalize : c.inotifyEventHandler.finalize (endThread i p) =
          endThread i (c.inotifyEventHandler.finalize p) := by
        rw [InotifyEventHandler.finalize_eq, InotifyEventHandler.finalize_eq]
        rfl
      simp only [rest, RealtimeCore.finalize, hfinalize, stopDirectory_endThread,
        stopEpoll_endThread, Option.map_some]
  | stopDirectory =>
      simp only [rest, stopDirectory_endThread, stopEpoll_endThread, Option.map_some]
  | stopEpoll => simp only [rest, stopEpoll_endThread, Option.map_some]

/-! ### The order of the mutex -/

/-- What every state has. Whoever waits for the mutex could have called just now. -/
structure Sound (s : State) : Prop where
  callers : ∀ x ∈ s.waiting, ∀ p c, s.shared = some (p, c) → canCall p.threads x.1 = true
  free : s.holder = none → s.shared.isSome = true

theorem sound_start : Sound start where
  callers _ hx := absurd hx List.not_mem_nil
  free _ := rfl

/-- A thread that can call runs. -/
theorem lt_of_canCall {ts : List (Thread Worker)} {i : Nat}
    (h : canCall ts (.thread i) = true) : i < ts.length := by
  obtain ⟨t, ht, -⟩ := (Option.any_eq_true _ _).mp h
  exact (List.getElem?_eq_some_iff.mp ht).1

theorem canCall_endThread {i : Nat} {p : Process} {t : ThreadId} (hne : t ≠ .thread i)
    (h : canCall p.threads t = true) : canCall (endThread i p).threads t = true := by
  cases t with
  | outside => rfl
  | thread j =>
      have hji : j ≠ i := fun heq => hne (congrArg ThreadId.thread heq)
      simp only [canCall, endThread] at h ⊢
      rwa [getElem?_finish_of_ne hji]

theorem canCall_spawn {ts : List (Thread Worker)} {t : ThreadId} (h : canCall ts t = true)
    (role : Worker) : canCall (spawn ts role).2 t = true := by
  cases t with
  | outside => rfl
  | thread j =>
      have hj := lt_of_canCall h
      simp only [canCall, spawn] at h ⊢
      rwa [List.getElem?_append_left hj]

/-- A thread that runs is not the one a `Stop` function has stopped waiting for. -/
theorem canCall_stopThread {caller t : ThreadId} {giveUp : Bool} {p : Process} {handle : Handle}
    (hwaits : waits caller giveUp p.threads handle = false) (h : canCall p.threads t = true) :
    canCall (stopThread caller giveUp p handle).1.threads t = true := by
  cases handle with
  | none => exact h
  | some i =>
      cases giveUp with
      | true =>
          cases t with
          | outside => rfl
          | thread j =>
              simp only [stopThread, if_true, canCall, detach, List.getElem?_modify] at h ⊢
              obtain ⟨t, ht, hr⟩ := (Option.any_eq_true _ _).mp h
              rw [ht]
              split <;> exact hr
      | false =>
          by_cases hself : caller = .thread i
          · simpa [stopThread, join, hself] using h
          · have hended : p.threads[i]?.any Thread.running = false := by
              simpa [waits, joining, hself] using hwaits
            have hne : t ≠ .thread i := by
              rintro rfl
              exact Bool.false_ne_true (hended.symm.trans h)
            simpa [stopThread, join, hself, endThread] using canCall_endThread hne h

/-- A step of a call leaves alone whoever waits. -/
theorem canCall_body {caller t : ThreadId} {pc : CorePc} {p p' : Process} {c c' : RealtimeCore}
    {pc' : Option CorePc} (hbody : body caller pc p c = some (pc', some (p', c')))
    (h : canCall p.threads t = true) : canCall p'.threads t = true := by
  have hstarted {role : Worker} (hthreads : p'.threads = p.threads ∨
      p'.threads = (spawn p.threads role).2) : canCall p'.threads t = true := by
    rcases hthreads with hsame | hspawned
    · rwa [hsame]
    · rw [hspawned]
      exact canCall_spawn h role
  cases pc with
  | handlerInitialize o =>
      have hthreads := handlerInitialize_threads o p c.inotifyEventHandler
      simp only [body] at hbody
      split at hbody
      · next heq =>
          obtain ⟨-, rfl, -⟩ := by simpa using hbody
          rw [heq] at hthreads
          rwa [hthreads]
      · next heq =>
          obtain ⟨-, rfl, -⟩ := by simpa using hbody
          rw [heq] at hthreads
          rwa [hthreads]
  | startDirectory o =>
      simp only [body] at hbody
      split at hbody
      · exact absurd hbody (by simp)
      · next heq =>
          obtain ⟨-, rfl, -⟩ := by simpa using hbody
          exact hstarted (startDirectory_threads heq)
      · next heq =>
          obtain ⟨-, rfl, -⟩ := by simpa using hbody
          exact hstarted (startDirectory_threads heq)
  | startEpoll o =>
      simp only [body] at hbody
      split at hbody
      · exact absurd hbody (by simp)
      · next heq =>
          obtain ⟨-, rfl, -⟩ := by simpa using hbody
          exact hstarted (startEpoll_threads heq)
  | handlerFinalize =>
      obtain ⟨-, rfl, -⟩ := by simpa [body] using hbody
      rw [InotifyEventHandler.finalize_eq]
      exact h
  | stopDirectory =>
      simp only [body, Option.ite_none_left_eq_some, Bool.not_eq_true] at hbody
      obtain ⟨hwaits, hbody⟩ := hbody
      obtain ⟨-, rfl, -⟩ := by simpa [stopDirectorySearchThread] using hbody
      exact canCall_stopThread hwaits h
  | stopEpoll =>
      simp only [body, Option.ite_none_left_eq_some, Bool.not_eq_true] at hbody
      obtain ⟨hwaits, hbody⟩ := hbody
      obtain ⟨-, rfl, -⟩ := by simpa [stopEpollThread] using hbody
      exact canCall_stopThread hwaits h

/-- A call that is over has left the process there. -/
theorem isSome_of_body {caller : ThreadId} {pc : CorePc} {p : Process} {c : RealtimeCore}
    {s : Shared} (h : body caller pc p c = some (none, s)) : s.isSome = true := by
  cases pc with
  | handlerInitialize o | startDirectory o | startEpoll o =>
      simp only [body] at h
      split at h <;>
        simp only [Option.some.injEq, Prod.mk.injEq, reduceCtorEq, true_and, false_and] at h
      all_goals rw [← h, Option.isSome_some]
  | handlerFinalize => simp [body] at h
  | stopDirectory => simp [body] at h
  | stopEpoll =>
      simp only [body, Option.ite_none_left_eq_some, Option.some.injEq, Prod.mk.injEq,
        true_and] at h
      rw [← h.2]
      rfl

theorem Sound.keep {s s' : State} {a : Action} (h : Sound s) (hstep : monitor.Step s a s') :
    Sound s' := by
  cases hstep.does with
  | @call t k hmay =>
      refine ⟨fun x hx p c hs => ?_, h.free⟩
      rcases List.mem_append.mp hx with hx | hx
      · exact h.callers x hx p c hs
      · obtain rfl := List.mem_singleton.mp hx
        have hshared : s.shared = some (p, c) := hs
        simp only [monitor, hshared, Option.any_some, Bool.and_eq_true] at hmay
        exact hmay.1
  | acquire hfree hwaits =>
      refine ⟨fun x hx => h.callers x (List.mem_of_mem_erase hx), fun hnone => ?_⟩
      exact absurd hnone (Option.some_ne_none _)
  | @advance t pc pc' shared hholder hbody =>
      obtain ⟨⟨p, c⟩, hs, hbody⟩ := Option.bind_eq_some_iff.mp hbody
      refine ⟨fun x hx p' c' hs' => ?_, fun hnone => ?_⟩
      · simp only at hs'
        subst hs'
        exact canCall_body hbody (h.callers x hx p c hs)
      · obtain rfl := Option.map_eq_none_iff.mp hnone
        exact isSome_of_body hbody
  | @other i shared hother =>
      obtain ⟨⟨p, c⟩, hs, hother⟩ := Option.bind_eq_some_iff.mp hother
      obtain ⟨hends, hother⟩ := Option.ite_none_right_eq_some.mp hother
      obtain rfl := Option.some.inj hother
      refine ⟨fun x hx p' c' hs' => ?_, fun _ => rfl⟩
      obtain ⟨rfl, rfl⟩ := Prod.mk.inj (Option.some.inj hs')
      refine canCall_endThread (fun hxi => ?_) (h.callers x hx p c hs)
      -- whoever waits is in a call
      have hbusy : s.busy (.thread i) = true := by
        rw [Monitor.State.busy, Bool.or_eq_true]
        exact .inr (List.any_eq_true.mpr ⟨x, hx, decide_eq_true hxi⟩)
      rw [hbusy] at hends
      simp at hends

/-- At rest, and while a call is on its way, the process sees a worker end. -/
theorem settle_endThread {holder : Option (ThreadId × CorePc)} {i : Nat} {p : Process}
    (c : RealtimeCore) (hi : i < p.threads.length) :
    settle holder (some (endThread i p, c)) =
      match settle holder (some (p, c)) with
      | .alive p c => .alive (endThread i p) c
      | s => s := by
  cases holder with
  | none => rfl
  | some x =>
      simp only [settle, Option.elim_some, Option.bind_some, rest_endThread x.1 x.2 c hi]
      cases rest x.1 x.2 p c <;> rfl

theorem serialises :
    monitor.Serialises Sound CoreProgram.Step settle callEvent otherEvent where
  keep _ _ _ h hstep := h.keep hstep
  calls s t k h hfree hwaits := by
    obtain ⟨⟨p, c⟩, hs⟩ := Option.isSome_iff_exists.mp (h.free hfree)
    have hcan := h.callers _ hwaits p c hs
    rw [hs]
    cases k with
    | initializeWith o =>
        show CoreProgram.next (.alive p c) (.initializeWith o) =
          some (toProgram (ended (c.initializeWith o p)))
        rw [CoreProgram.next]
        cases c.initializeWith o p <;> rfl
    | finalize =>
        show CoreProgram.next (.alive p c) (.finalize t) = some (toProgram (some (c.finalize t p)))
        rw [CoreProgram.next, if_pos hcan]
        rfl
  body t pc s pc' s' hbody := by
    obtain ⟨⟨p, c⟩, rfl, hbody⟩ := Option.bind_eq_some_iff.mp hbody
    have hrest := body_rest hbody
    cases pc' with
    | none => exact congrArg toProgram hrest
    | some pc' => exact congrArg toProgram hrest
  seen s i shared l _ hother hlabel := by
    obtain ⟨⟨p, c⟩, hs, hother⟩ := Option.bind_eq_some_iff.mp hother
    obtain ⟨hends, hother⟩ := Option.ite_none_right_eq_some.mp hother
    obtain rfl := Option.some.inj hother
    have hi := lt_of_canCall (Bool.and_eq_true_iff.mp hends).1
    rw [hs] at hlabel ⊢
    rw [settle_endThread c hi]
    rw [otherEvent] at hlabel
    cases hsettle : settle s.holder (some (p, c)) with
    | alive p' c' =>
        rw [hsettle] at hlabel
        obtain rfl := Option.some.inj hlabel
        rfl
    | destroyed p' => simp [hsettle] at hlabel
    | terminated => simp [hsettle] at hlabel
  hidden s i shared _ hother hlabel := by
    obtain ⟨⟨p, c⟩, hs, hother⟩ := Option.bind_eq_some_iff.mp hother
    obtain ⟨hends, hother⟩ := Option.ite_none_right_eq_some.mp hother
    obtain rfl := Option.some.inj hother
    have hi := lt_of_canCall (Bool.and_eq_true_iff.mp hends).1
    rw [hs] at hlabel ⊢
    rw [settle_endThread c hi]
    rw [otherEvent] at hlabel
    cases hsettle : settle s.holder (some (p, c)) with
    | alive p' c' => simp [hsettle] at hlabel
    | destroyed p' => rfl
    | terminated => rfl

/-- **Calls are serialised by the mutex.** However calls of `Initialize` and `Finalize` from
several threads, and the ends of workers, come in between each other: the core goes
through whole calls, in the order in which they got the mutex, and is between two of them
whenever the mutex is free. -/
theorem calls_serialised (hist : List (State × Action)) (s : State)
    (h : Run monitor.Step start hist s) :
    (∃ hist', Run CoreProgram.Step CoreProgram.start hist' (settle s.holder s.shared) ∧
      hist'.map Prod.snd = hist.filterMap fun x => Monitor.label callEvent otherEvent x.1 x.2) ∧
      (s.holder = none → ∃ p c, s.shared = some (p, c) ∧
        settle s.holder s.shared = .alive p c) := by
  refine ⟨serialises.run h sound_start, fun hfree => ?_⟩
  have hsound := h.invariant (I := Sound) (fun _ _ _ hs hstep => hs.keep hstep) sound_start
  obtain ⟨⟨p, c⟩, hs⟩ := Option.isSome_iff_exists.mp (hsound.free hfree)
  exact ⟨p, c, hs, by rw [hfree, hs]; rfl⟩

/-- The directory worker calls `Finalize` before the epoll worker is there. -/
def workerCalls : List Action :=
  let o : Outcomes := ⟨.succeeds, 3, 4, false, false⟩
  [.call .outside (.initializeWith o), .acquire .outside (.initializeWith o), .advance, .advance,
    .call (.thread 0) .finalize, .advance, .acquire (.thread 0) .finalize, .advance, .other 1,
    .advance, .advance]

theorem calls_serialised_workerCalls :
    ∃ hist s, exec monitor.next start workerCalls = some (hist, s) ∧
      ∃ hist', Run CoreProgram.Step CoreProgram.start hist' (settle s.holder s.shared) ∧
        hist'.map Prod.snd =
          hist.filterMap fun x => Monitor.label callEvent otherEvent x.1 x.2 := by
  have hpossible : (exec monitor.next start workerCalls).isSome = true := by decide
  obtain ⟨⟨hist, s⟩, hexec⟩ := Option.isSome_iff_exists.mp hpossible
  exact ⟨hist, s, hexec, (calls_serialised hist s (run_of_exec hexec)).1⟩

/-! ### Calls that come back -/

/-- The threads that a call has still to join. -/
def joins (caller : ThreadId) (pc : CorePc) (p : Process) (c : RealtimeCore) : List Nat :=
  match pc with
  | .handlerInitialize _ | .startDirectory _ | .startEpoll _ => []
  | .handlerFinalize | .stopDirectory =>
      let c' := (c.stopDirectorySearchThread caller false p).2
      (joining caller (c.isInDirectorySearchThread caller) c.directoryTread).toList ++
        (joining caller (c'.isInEpollThread caller) c'.epollHandlerThread).toList
  | .stopEpoll => (joining caller (c.isInEpollThread caller) c.epollHandlerThread).toList

/-- A handle is free after a stop, or keeps its thread, whatever the threads do. -/
theorem stopThread_handle (caller : ThreadId) (giveUp : Bool) (p p' : Process)
    (handle : Handle) : (stopThread caller giveUp p handle).2 =
      (stopThread caller giveUp p' handle).2 := by
  cases handle with
  | none => rfl
  | some i =>
      cases giveUp with
      | true => rfl
      | false =>
          by_cases hself : caller = .thread i
          · simp [stopThread, join, hself]
          · simp [stopThread, join, hself]

theorem joins_congr (caller : ThreadId) (pc : CorePc) (p p' : Process) (c : RealtimeCore) :
    joins caller pc p c = joins caller pc p' c := by
  have hhandle : (c.stopDirectorySearchThread caller false p).2 =
      (c.stopDirectorySearchThread caller false p').2 := by
    simp only [stopDirectorySearchThread, stopThread_handle caller _ p p']
  simp only [joins, hhandle]

theorem waits_of_joining {caller : ThreadId} {giveUp : Bool} {handle : Handle} {i : Nat}
    {ts : List (Thread Worker)} (h : i ∈ (joining caller giveUp handle).toList)
    (hruns : canCall ts (.thread i) = true) : waits caller giveUp ts handle = true :=
  (Option.any_eq_true _ _).mpr ⟨i, Option.mem_toList.mp h, hruns⟩

/-- The call that holds the mutex is to join a worker that waits for it. -/
def Deadlocked (caller : ThreadId) (i : Nat) (s : State) : Prop :=
  ∃ pc p c, s.holder = some (caller, pc) ∧ s.shared = some (p, c) ∧ i ∈ joins caller pc p c ∧
    ∃ k, (.thread i, k) ∈ s.waiting

/-- That stays so. -/
theorem Deadlocked.keep {caller : ThreadId} {i : Nat} {s s' : State} {a : Action} (hs : Sound s)
    (h : Deadlocked caller i s) (hstep : monitor.Step s a s') : Deadlocked caller i s' := by
  obtain ⟨pc, p, c, hholder, hshared, hjoins, k, hk⟩ := h
  have hruns : canCall p.threads (.thread i) = true := hs.callers _ hk p c hshared
  cases hstep.does with
  | call _ => exact ⟨pc, p, c, hholder, hshared, hjoins, k, List.mem_append_left _ hk⟩
  | acquire hfree _ => exact absurd (hholder.symm.trans hfree) (Option.some_ne_none _)
  | @other j shared hother =>
      rw [hshared] at hother
      obtain ⟨-, hother⟩ := Option.ite_none_right_eq_some.mp hother
      obtain rfl := Option.some.inj hother
      exact ⟨pc, endThread j p, c, hholder, rfl, joins_congr caller pc p _ c ▸ hjoins, k, hk⟩
  | @advance t pc₀ pc' shared hholder' hbody =>
      obtain ⟨rfl, rfl⟩ := Prod.mk.inj (Option.some.inj (hholder'.symm.trans hholder))
      rw [hshared] at hbody
      cases pc₀ with
      | handlerInitialize o | startDirectory o | startEpoll o =>
          exact absurd hjoins List.not_mem_nil
      | handlerFinalize =>
          obtain ⟨rfl, rfl⟩ := Prod.mk.inj (Option.some.inj hbody)
          exact ⟨.stopDirectory, _, c, rfl, rfl, joins_congr t .handlerFinalize p _ c ▸ hjoins,
            k, hk⟩
      | stopDirectory =>
          obtain ⟨hwaits, hbody⟩ := Option.ite_none_left_eq_some.mp hbody
          obtain ⟨rfl, rfl⟩ := Prod.mk.inj (Option.some.inj hbody)
          rcases List.mem_append.mp hjoins with hfirst | hsecond
          · exact absurd (waits_of_joining hfirst hruns) hwaits
          · exact ⟨.stopEpoll, _, _, rfl, rfl, hsecond, k, hk⟩
      | stopEpoll =>
          obtain ⟨hwaits, -⟩ := Option.ite_none_left_eq_some.mp hbody
          exact absurd (waits_of_joining hjoins hruns) hwaits

/-- The call goes on, or a worker ends. -/
def WorkStep (s : State) (a : Action) (s' : State) : Prop :=
  monitor.Step s a s' ∧ (a = .advance ∨ ∃ i, a = .other i)

/-- No worker that is still to be joined waits for the mutex. -/
def Unlocks (s : State) : Prop :=
  ∀ caller pc p c, s.holder = some (caller, pc) → s.shared = some (p, c) →
    ∀ i ∈ joins caller pc p c, ∀ k, (.thread i, k) ∉ s.waiting

/-- The steps a call has still to take. -/
def stepsLeft : Option CorePc → Nat
  | none => 0
  | some (.startEpoll _) | some .stopEpoll => 1
  | some (.startDirectory _) | some .stopDirectory => 2
  | some (.handlerInitialize _) | some .handlerFinalize => 3

/-- What is left to do: a step may start a worker, which has to end. -/
def workLeft (s : State) : Nat :=
  s.shared.elim 0 fun (p, _) => 3 * stepsLeft (s.holder.map Prod.snd) + runningCount p.threads

theorem runningCount_stopThread (caller : ThreadId) (giveUp : Bool) (p : Process)
    (handle : Handle) :
    runningCount (stopThread caller giveUp p handle).1.threads ≤ runningCount p.threads := by
  cases handle with
  | none => exact le_rfl
  | some i =>
      cases giveUp with
      | true => exact (runningCount_detach p.threads i).le
      | false =>
          by_cases hself : caller = .thread i
          · simp [stopThread, join, hself]
          · have hfinish := runningCount_finish p.threads i
            simp only [stopThread, join, hself, if_false, Bool.false_eq_true]
            omega

/-- Each step of a call leaves less to do. -/
theorem body_workLeft {caller : ThreadId} {pc : CorePc} {p p' : Process} {c c' : RealtimeCore}
    {pc' : Option CorePc} (h : body caller pc p c = some (pc', some (p', c'))) :
    3 * stepsLeft pc' + runningCount p'.threads <
      3 * stepsLeft (some pc) + runningCount p.threads := by
  have hstarted {role : Worker} (hthreads : p'.threads = p.threads ∨
      p'.threads = (spawn p.threads role).2) :
      runningCount p'.threads ≤ runningCount p.threads + 1 := by
    rcases hthreads with hsame | hspawned
    · rw [hsame]
      exact Nat.le_succ _
    · rw [hspawned, runningCount_spawn]
  cases pc with
  | handlerInitialize o =>
      have hthreads := handlerInitialize_threads o p c.inotifyEventHandler
      simp only [body] at h
      split at h
      · next heq =>
          obtain ⟨rfl, rfl, -⟩ := by simpa using h
          rw [heq] at hthreads
          have hcount := congrArg runningCount hthreads
          simp only [stepsLeft] at hcount ⊢
          omega
      · next heq =>
          obtain ⟨rfl, rfl, -⟩ := by simpa using h
          rw [heq] at hthreads
          have hcount := congrArg runningCount hthreads
          simp only [stepsLeft] at hcount ⊢
          omega
  | startDirectory o =>
      simp only [body] at h
      split at h
      · exact absurd h (by simp)
      · next heq =>
          obtain ⟨rfl, rfl, -⟩ := by simpa using h
          have hcount := hstarted (startDirectory_threads heq)
          simp only [stepsLeft]
          omega
      · next heq =>
          obtain ⟨rfl, rfl, -⟩ := by simpa using h
          have hcount := hstarted (startDirectory_threads heq)
          simp only [stepsLeft]
          omega
  | startEpoll o =>
      simp only [body] at h
      split at h
      · exact absurd h (by simp)
      · next heq =>
          obtain ⟨rfl, rfl, -⟩ := by simpa using h
          have hcount := hstarted (startEpoll_threads heq)
          simp only [stepsLeft]
          omega
  | handlerFinalize =>
      obtain ⟨rfl, rfl, -⟩ := by simpa [body] using h
      rw [InotifyEventHandler.finalize_eq]
      simp only [stepsLeft]
      omega
  | stopDirectory =>
      obtain ⟨-, h⟩ := Option.ite_none_left_eq_some.mp h
      obtain ⟨rfl, rfl, -⟩ := by simpa [stopDirectorySearchThread] using h
      have hcount := runningCount_stopThread caller (c.isInDirectorySearchThread caller) p
        c.directoryTread
      simp only [stepsLeft]
      omega
  | stopEpoll =>
      obtain ⟨-, h⟩ := Option.ite_none_left_eq_some.mp h
      obtain ⟨rfl, rfl, -⟩ := by simpa [stopEpollThread] using h
      have hcount := runningCount_stopThread caller (c.isInEpollThread caller) p
        c.epollHandlerThread
      simp only [stepsLeft]
      omega

theorem stepsLeft_pos (pc : CorePc) : 0 < stepsLeft (some pc) := by
  cases pc <;> simp [stepsLeft]

theorem WorkStep.less {s s' : State} {a : Action} (h : WorkStep s a s') :
    workLeft s' < workLeft s := by
  obtain ⟨hstep, hwork⟩ := h
  cases hstep.does with
  | call _ => simp at hwork
  | acquire _ _ => simp at hwork
  | @advance t pc pc' shared hholder hbody =>
      obtain ⟨⟨p, c⟩, hs, hbody⟩ := Option.bind_eq_some_iff.mp hbody
      simp only [workLeft, hs, hholder, Option.elim_some, Option.map_some]
      cases shared with
      | none =>
          have hpos := stepsLeft_pos pc
          simp only [Option.elim_none]
          omega
      | some x =>
          have hplace : (pc'.map fun b => (t, b)).map Prod.snd = pc' := by
            cases pc' <;> rfl
          simp only [Option.elim_some, hplace]
          exact body_workLeft hbody
  | @other i shared hother =>
      obtain ⟨⟨p, c⟩, hs, hother⟩ := Option.bind_eq_some_iff.mp hother
      obtain ⟨hends, hother⟩ := Option.ite_none_right_eq_some.mp hother
      obtain rfl := Option.some.inj hother
      have hruns : p.threads[i]?.any Thread.running = true := (Bool.and_eq_true_iff.mp hends).1
      have hfinish := runningCount_finish p.threads i
      rw [if_pos hruns] at hfinish
      simp only [workLeft, hs, Option.elim_some, endThread]
      omega

/-- What is still to be joined gets less. -/
theorem Unlocks.keep {s s' : State} {a : Action} (h : Unlocks s) (hstep : WorkStep s a s') :
    Unlocks s' := by
  obtain ⟨hstep, hwork⟩ := hstep
  cases hstep.does with
  | call _ => simp at hwork
  | acquire _ _ => simp at hwork
  | @other j shared hother =>
      obtain ⟨⟨p, c⟩, hs, hother⟩ := Option.bind_eq_some_iff.mp hother
      obtain ⟨-, hother⟩ := Option.ite_none_right_eq_some.mp hother
      obtain rfl := Option.some.inj hother
      intro caller pc p' c' hholder hs' i hi
      obtain ⟨rfl, rfl⟩ := Prod.mk.inj (Option.some.inj hs')
      rw [joins_congr caller pc (endThread j p) p c] at hi
      exact h caller pc p c hholder hs i hi
  | @advance t pc pc' shared hholder hbody =>
      obtain ⟨⟨p, c⟩, hs, hbody⟩ := Option.bind_eq_some_iff.mp hbody
      intro caller pc₁ p₁ c₁ hholder₁ hs₁ i hi
      obtain ⟨pc₁', rfl, heq⟩ := Option.map_eq_some_iff.mp hholder₁
      obtain ⟨rfl, rfl⟩ := Prod.mk.inj heq
      simp only at hs₁
      subst hs₁
      refine h t pc p c hholder hs i ?_
      cases pc with
      | handlerInitialize o | startDirectory o | startEpoll o =>
          simp only [body] at hbody
          split at hbody <;> simp only [Option.some.injEq, Prod.mk.injEq, reduceCtorEq,
            false_and, and_false] at hbody
          all_goals
            obtain ⟨rfl, -⟩ := hbody
            exact absurd hi List.not_mem_nil
      | handlerFinalize =>
          simp only [body, Option.some.injEq, Prod.mk.injEq] at hbody
          obtain ⟨rfl, -, rfl⟩ := hbody
          exact joins_congr t .stopDirectory p₁ p c ▸ hi
      | stopDirectory =>
          obtain ⟨-, hbody⟩ := Option.ite_none_left_eq_some.mp hbody
          simp only [Option.some.injEq, Prod.mk.injEq] at hbody
          obtain ⟨rfl, hstop⟩ := hbody
          obtain ⟨-, rfl⟩ := Prod.ext_iff.mp hstop
          exact List.mem_append_right _ hi
      | stopEpoll =>
          obtain ⟨-, hbody⟩ := Option.ite_none_left_eq_some.mp hbody
          simp at hbody

/-- A call waits for a worker that runs and is not the caller. -/
theorem joining_of_waits {caller : ThreadId} {giveUp : Bool} {handle : Handle}
    {ts : List (Thread Worker)} (h : waits caller giveUp ts handle = true) :
    ∃ i ∈ (joining caller giveUp handle).toList, canCall ts (.thread i) = true ∧
      caller ≠ .thread i := by
  obtain ⟨i, hi, hruns⟩ := (Option.any_eq_true _ _).mp h
  have hfilter := (Option.filter_eq_some_iff.mp hi).2
  rw [Bool.and_eq_true, decide_eq_true_eq] at hfilter
  exact ⟨i, Option.mem_toList.mpr hi, hruns, hfilter.2⟩

theorem joins_of_body {caller : ThreadId} {pc : CorePc} {p : Process} {c : RealtimeCore}
    (h : body caller pc p c = none) :
    ∃ i ∈ joins caller pc p c, canCall p.threads (.thread i) = true ∧ caller ≠ .thread i := by
  cases pc with
  | handlerInitialize o | startDirectory o | startEpoll o =>
      simp only [body] at h
      split at h <;> exact absurd h (Option.some_ne_none _)
  | handlerFinalize => exact absurd h (Option.some_ne_none _)
  | stopDirectory =>
      simp only [body, ite_eq_left_iff, reduceCtorEq, imp_false, not_not] at h
      obtain ⟨i, hi, hrest⟩ := joining_of_waits h
      exact ⟨i, List.mem_append_left _ hi, hrest⟩
  | stopEpoll =>
      simp only [body, ite_eq_left_iff, reduceCtorEq, imp_false, not_not] at h
      exact joining_of_waits h

/-- Where nothing is left to do, the call is over. -/
theorem over_of_final {s : State} (hfinal : Final WorkStep s) (hunlocks : Unlocks s) :
    s.holder = none ∨ s.shared = none := by
  cases hholder : s.holder with
  | none => exact .inl rfl
  | some x =>
      obtain ⟨caller, pc⟩ := x
      cases hs : s.shared with
      | none => exact .inr rfl
      | some y =>
          obtain ⟨p, c⟩ := y
          cases hbody : body caller pc p c with
          | some z =>
              have hmonitor : monitor.body caller pc s.shared = some (z.1, z.2) := by
                rw [hs]
                exact hbody
              exact absurd ⟨Monitor.step_advance hholder hmonitor, .inl rfl⟩ (hfinal _ _)
          | none =>
              -- it waits for a worker, which can end
              obtain ⟨i, hi, hruns, hother⟩ := joins_of_body hbody
              have hfree : s.busy (.thread i) = false := by
                have hnone := hunlocks caller pc p c hholder hs i hi
                simp only [Monitor.State.busy, hholder, Option.any_some, Bool.or_eq_false_iff,
                  decide_eq_false_iff_not, List.any_eq_false, decide_eq_true_eq]
                exact ⟨hother, fun x hx heq => hnone x.2 (heq ▸ hx)⟩
              have hmonitor : monitor.other s.shared s.busy i = some (some (endThread i p, c)) := by
                rw [hs]
                exact if_pos (by rw [hruns, hfree]; rfl)
              exact absurd ⟨Monitor.step_other hmonitor, .inr ⟨i, rfl⟩⟩ (hfinal _ _)

/-- **When a call can come back.** In any state of any run, the call that holds the mutex
can come to its end, or to that of the process, if and only if none of the workers it
has still to join waits for the mutex itself. -/
theorem unlocks_iff (hist : List (State × Action)) (s : State)
    (h : Run monitor.Step start hist s) (caller : ThreadId) (pc : CorePc) (p : Process)
    (c : RealtimeCore) (hholder : s.holder = some (caller, pc)) (hs : s.shared = some (p, c)) :
    (∃ hist' u, Run monitor.Step s hist' u ∧ (u.holder = none ∨ u.shared = none)) ↔
      ∀ i ∈ joins caller pc p c, ∀ k, (.thread i, k) ∉ s.waiting := by
  have hsound := h.invariant (I := Sound) (fun _ _ _ hs hstep => hs.keep hstep) sound_start
  constructor
  · rintro ⟨hist', u, hrun, hover⟩ i hi k hk
    have hdeadlocked := hrun.invariant (I := fun s => Sound s ∧ Deadlocked caller i s)
      (fun _ _ _ hd hstep => ⟨hd.1.keep hstep, hd.2.keep hd.1 hstep⟩)
      ⟨hsound, pc, p, c, hholder, hs, hi, k, hk⟩
    obtain ⟨pc', p', c', hholder', hs', -⟩ := hdeadlocked.2
    rcases hover with hfree | hgone
    · exact Option.some_ne_none _ (hholder'.symm.trans hfree)
    · exact Option.some_ne_none _ (hs'.symm.trans hgone)
  · intro hnone
    have hunlocks : Unlocks s := by
      intro caller' pc' p' c' hholder' hs'
      obtain ⟨rfl, rfl⟩ := Prod.mk.inj (Option.some.inj (hholder.symm.trans hholder'))
      obtain ⟨rfl, rfl⟩ := Prod.mk.inj (Option.some.inj (hs.symm.trans hs'))
      exact hnone
    have keep : ∀ s (a : Action) s', Unlocks s → WorkStep s a s' → Unlocks s' :=
      fun _ _ _ hu hstep => hu.keep hstep
    have less : ∀ s (a : Action) s', Unlocks s → WorkStep s a s' → workLeft s' < workLeft s :=
      fun _ _ _ _ hstep => hstep.less
    obtain ⟨hist', u, hrun, hfinal⟩ := exists_run_final keep less hunlocks
    have hkept := hrun.invariant keep hunlocks
    exact ⟨hist', u, hrun.mono fun _ _ _ hstep => hstep.1, over_of_final hfinal hkept⟩

/-- The epoll worker calls `Finalize` while a call from outside is about to join it. -/
def bothFinalize : List Action :=
  let o : Outcomes := ⟨.succeeds, 3, 4, false, false⟩
  [.call .outside (.initializeWith o), .acquire .outside (.initializeWith o), .advance, .advance,
    .advance, .call .outside .finalize, .acquire .outside .finalize, .call (.thread 1) .finalize]

theorem unlocks_bothFinalize :
    ∃ hist s, exec monitor.next start bothFinalize = some (hist, s) ∧
      ¬ ∃ hist' u, Run monitor.Step s hist' u ∧ (u.holder = none ∨ u.shared = none) := by
  have hpossible : (exec monitor.next start bothFinalize).map (fun x =>
      match x.2.holder, x.2.shared with
      | some (caller, pc), some (p, c) =>
          decide (1 ∈ joins caller pc p c ∧ (.thread 1, .finalize) ∈ x.2.waiting)
      | _, _ => false) = some true := by
    decide
  obtain ⟨⟨hist, s⟩, hexec, hs⟩ := Option.map_eq_some_iff.mp hpossible
  refine ⟨hist, s, hexec, ?_⟩
  split at hs
  · next caller pc p c hholder hshared =>
      obtain ⟨hjoins, hwaits⟩ := of_decide_eq_true hs
      intro hover
      exact (unlocks_iff hist s (run_of_exec hexec) caller pc p c hholder hshared).mp hover 1
        hjoins .finalize hwaits
  · exact absurd hs Bool.false_ne_true

/-! ### Calls from outside

No worker of this program calls its core. -/

/-- The action is no call, or one from outside. -/
def fromOutside : Action → Bool
  | .call t _ => t = .outside
  | _ => true

/-- All who wait came from outside. -/
def Outsiders (s : State) : Prop := ∀ x ∈ s.waiting, x.1 = .outside

theorem Outsiders.keep {s s' : State} {a : Action} (h : Outsiders s) (hout : fromOutside a = true)
    (hstep : monitor.Step s a s') : Outsiders s' := by
  cases hstep.does with
  | call _ =>
      intro x hx
      rcases List.mem_append.mp hx with hx | hx
      · exact h x hx
      · rw [List.mem_singleton.mp hx]
        exact of_decide_eq_true hout
  | acquire _ _ => exact fun x hx => h x (List.mem_of_mem_erase hx)
  | advance _ _ => exact h
  | other _ => exact h

/-- What is seen of them is a call from outside, or no call. -/
theorem Outsiders.label {s s' : State} {a : Action} {e : CoreEvent} (h : Outsiders s)
    (hstep : monitor.Step s a s') (hlabel : Monitor.label callEvent otherEvent s a = some e) :
    e.fromOutside = true := by
  cases hstep.does with
  | call _ | advance _ _ => exact absurd hlabel.symm (Option.some_ne_none e)
  | @acquire t k _ hwaits =>
      obtain rfl := Option.some.inj hlabel
      cases k with
      | initializeWith o => rfl
      | finalize => exact decide_eq_true (h _ hwaits)
  | @other i shared _ =>
      simp only [Monitor.label, otherEvent] at hlabel
      split at hlabel
      · obtain rfl := Option.some.inj hlabel
        rfl
      · exact absurd hlabel.symm (Option.some_ne_none e)

end CoreCalls

end InotifyRealtime
