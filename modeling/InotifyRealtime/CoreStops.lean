import InotifyRealtime.CoreRuns
/-!
# InotifyRealtime.CoreStops

`RealtimeCore::FinalizeLock`, whoever calls it.

A `Stop` function joins its worker, and gives it up when the worker is the calling
thread: a thread cannot wait for itself. But `IsInEpollThread` compares the caller
with the directory worker, and `IsInDirectorySearchThread` with the epoll worker.
So each worker that calls `Finalize` joins itself, which throws, or gives up the
other one, which goes on running.

`StopsCorrectly` is what one expects of the two stops. It holds for a caller that
is neither worker, unless a worker given up before still runs
(`stopsCorrectly_iff`); in a whole life of a core exactly if all calls come from
outside (`finalize_stops_iff`).
-/

namespace InotifyRealtime

open Threads Machine

/-- What a `Stop` function does with the thread its handle owns. -/
inductive Stop
  | join (i : Nat)
  | detach (i : Nat)
  deriving DecidableEq

namespace RealtimeCore

/-- The thread table and the handle after a stop. A thread that joins itself keeps both. -/
def performStop (caller : ThreadId) (ts : List (Thread Worker)) :
    Stop → List (Thread Worker) × Handle
  | .join i =>
      match join caller ts i with
      | none => (ts, some i)
      | some ts => (ts, none)
  | .detach i => (detach ts i, none)

/-- What a `Stop` function decides to do. -/
def decideStop (giveUp : Bool) (i : Nat) : Stop := if giveUp then .detach i else .join i

theorem stopThread_performs (caller : ThreadId) (giveUp : Bool) (p : Process) (i : Nat) :
    stopThread caller giveUp p (some i) =
      ({ p with threads := (performStop caller p.threads (decideStop giveUp i)).1 },
        (performStop caller p.threads (decideStop giveUp i)).2) := by
  cases giveUp with
  | true => rfl
  | false =>
      simp only [stopThread, decideStop, performStop, Bool.false_eq_true, if_false]
      cases join caller p.threads i with
      | none => rfl
      | some ts => rfl

/-- What `FinalizeLock` does with the two threads, in its order. The second test is made
when the first handle has been stopped. -/
def stops (caller : ThreadId) (p : Process) (c : RealtimeCore) : List Stop :=
  c.directoryTread.toList.map (decideStop (isInDirectorySearchThread caller c)) ++
    c.epollHandlerThread.toList.map
      (decideStop (isInEpollThread caller (stopDirectorySearchThread caller false p c).2))

/-- What is expected of `FinalizeLock`: it never joins the calling thread and gives
up no other, both handles are free afterwards, and no worker but the caller runs. -/
structure StopsCorrectly (c : RealtimeCore) (caller : ThreadId) (p : Process) : Prop where
  joins : ∀ i, .join i ∈ stops caller p c → caller ≠ .thread i
  detaches : ∀ i, .detach i ∈ stops caller p c → caller = .thread i
  not_joinable : (c.finalize caller p).2.directoryTread.joinable = false ∧
    (c.finalize caller p).2.epollHandlerThread.joinable = false
  ended : ∀ (i : Nat) (t : Thread Worker), (c.finalize caller p).1.threads[i]? = some t →
    caller ≠ .thread i → t.running = false

/-! ### One call -/

/-- A stranger joins both workers. -/
theorem Stranger.stops {c : RealtimeCore} {caller : ThreadId} (h : c.Stranger caller)
    (p : Process) :
    stops caller p c =
      c.directoryTread.toList.map .join ++ c.epollHandlerThread.toList.map .join := by
  have hrest : Stranger { c with directoryTread := none } caller := by
    intro i howns
    rcases howns with hdir | hepoll
    · exact absurd hdir nofun
    · exact h i (.inr hepoll)
  rw [RealtimeCore.stops, h.stopDirectorySearchThread, h.not_isIn.2, hrest.not_isIn.1]
  rfl

theorem Stranger.joins {c : RealtimeCore} {caller : ThreadId} (h : c.Stranger caller)
    {p : Process} {x : Stop} (hx : x ∈ RealtimeCore.stops caller p c) :
    ∃ i, x = .join i ∧ c.Owns i := by
  rw [h.stops] at hx
  rcases List.mem_append.mp hx with hx | hx
  · obtain ⟨i, hi, rfl⟩ := List.mem_map.mp hx
    exact ⟨i, rfl, .inl (Option.mem_toList.mp hi)⟩
  · obtain ⟨i, hi, rfl⟩ := List.mem_map.mp hx
    exact ⟨i, rfl, .inr (Option.mem_toList.mp hi)⟩

/-- A worker that calls `Finalize` joins itself or gives up the other. -/
theorem not_stopsCorrectly_of_owns {c : RealtimeCore} {p : Process}
    (haccounted : Accounted p.threads c.handles) {i : Nat} (howns : c.Owns i) :
    ¬ c.StopsCorrectly (.thread i) p := by
  intro h
  -- one thread is not both workers
  have hother (j : Nat) : c.directoryTread = some j → c.epollHandlerThread ≠ some j := by
    intro hdir hepoll
    have hrole : Worker.directory = Worker.epoll := haccounted.role_unique hdir hepoll
    exact Worker.noConfusion hrole
  rcases howns with hdir | hepoll
  · have htest : isInDirectorySearchThread (.thread i) c = false := by
      refine decide_eq_false (getId_ne fun j hj heq => hother i hdir ?_)
      rw [hj, ThreadId.thread.inj heq]
    refine h.joins i ?_ rfl
    simp [stops, hdir, htest, decideStop]
  · cases hdir : c.directoryTread with
    | none =>
        have htest : isInEpollThread (.thread i)
            (stopDirectorySearchThread (.thread i) false p c).2 = false := by
          simp [stopDirectorySearchThread, hdir, stopThread, isInEpollThread, Handle.getId]
        refine h.joins i ?_ rfl
        simp [stops, hdir, hepoll, htest, decideStop]
    | some d =>
        have htest : isInDirectorySearchThread (.thread i) c = true := by
          simp [isInDirectorySearchThread, hepoll, Handle.getId]
        have hself := h.detaches d (by simp [stops, hdir, htest, decideStop])
        rw [ThreadId.thread.inj hself] at hepoll
        exact absurd hepoll (hother d hdir)

/-- **One `Finalize`.** The stops go right exactly if the caller is neither worker and
no other thread runs that was given up before. -/
theorem stopsCorrectly_iff {c : RealtimeCore} {p : Process}
    (h : Accounted p.threads c.handles) (caller : ThreadId) :
    c.StopsCorrectly caller p ↔ c.Stranger caller ∧
      ∀ (i : Nat) (t : Thread Worker), p.threads[i]? = some t → t.detached = true →
        t.running = true → caller = .thread i := by
  constructor
  · intro hcorrect
    have hstranger : c.Stranger caller := by
      intro i howns heq
      subst heq
      exact not_stopsCorrectly_of_owns h howns hcorrect
    refine ⟨hstranger, fun i t ht hdetached hr => ?_⟩
    by_contra hne
    -- nobody joins a thread that no handle owns
    have hfree : ∀ r, c.handles r ≠ some i := by
      intro r hi
      obtain ⟨t', ht', -, hattached⟩ := h.owned r i hi
      obtain rfl : t = t' := Option.some.inj (ht.symm.trans ht')
      exact absurd (hdetached.symm.trans hattached) Bool.true_eq_false.mp
    have hdir : c.directoryTread ≠ some i := hfree .directory
    have hepoll : c.epollHandlerThread ≠ some i := hfree .epoll
    have hstill : (c.finalize caller p).1.threads[i]? = some t := by
      rw [hstranger.finalize]
      show (joinedThreads p c)[i]? = some t
      rw [joinedThreads, getElem?_joined_of_ne hepoll, getElem?_joined_of_ne hdir, ht]
    exact absurd (hr.symm.trans (hcorrect.ended i t hstill hne)) Bool.true_eq_false.mp
  · intro hand
    obtain ⟨hstranger, hgivenUp⟩ := hand
    have hfinalize := hstranger.finalize p
    refine ⟨fun i hi => ?_, fun i hi => ?_, ?_, fun i t ht hne => ?_⟩
    · obtain ⟨j, heq, howns⟩ := hstranger.joins hi
      rw [Stop.join.inj heq]
      exact hstranger j howns
    · obtain ⟨j, heq, -⟩ := hstranger.joins hi
      exact absurd heq Stop.noConfusion
    · rw [hfinalize]
      exact ⟨rfl, rfl⟩
    · rw [hfinalize] at ht
      obtain ⟨t₁, ht₁, -, -, hrunning₁⟩ := mem_joined ht
      obtain ⟨t₀, ht₀, -, -, hrunning₀⟩ := mem_joined ht₁
      refine Bool.eq_false_iff.mpr fun hr => ?_
      obtain ⟨hr₁, hepoll⟩ := hrunning₁ hr
      obtain ⟨hr₀, hdir⟩ := hrunning₀ hr₁
      rcases h.running i t₀ ht₀ hr₀ with howned | hdetached
      · cases hrole : t₀.role with
        | directory =>
            rw [hrole] at howned
            exact hdir howned
        | epoll =>
            rw [hrole] at howned
            exact hepoll howned
      · exact hne (hgivenUp i t₀ ht₀ hdetached hr₀)

/-! ### A whole life -/

theorem accounted_stopThread {r : Worker} {p : Process} {own : Worker → Handle}
    (h : Accounted p.threads own) (caller : ThreadId) (giveUp : Bool) :
    Accounted (stopThread caller giveUp p (own r)).1.threads
      (Function.update own r (stopThread caller giveUp p (own r)).2) := by
  cases hown : own r with
  | none =>
      show Accounted p.threads (Function.update own r none)
      rw [← hown, Function.update_eq_self]
      exact h
  | some i =>
      rw [stopThread_performs]
      cases giveUp with
      | true => exact h.detached hown
      | false =>
          by_cases hself : caller = .thread i
          · -- the join throws, and nothing has changed
            have hstop : performStop caller p.threads (decideStop false i) =
                (p.threads, some i) := by
              simp [performStop, decideStop, join, hself]
            rw [hstop, ← hown, Function.update_eq_self]
            exact h
          · have hstop : performStop caller p.threads (decideStop false i) =
                (finish p.threads i, none) := by
              simp [performStop, decideStop, join, hself]
            rw [hstop]
            exact h.joined hown

/-- Whoever calls `Finalize`, each handle keeps what it owns, and owns what it should. -/
theorem accounted_finalize {p : Process} {c : RealtimeCore} (h : Accounted p.threads c.handles)
    (caller : ThreadId) :
    Accounted (c.finalize caller p).1.threads (c.finalize caller p).2.handles := by
  have hdir := accounted_stopThread (r := .directory) (p := c.inotifyEventHandler.finalize p)
    (by rw [InotifyEventHandler.finalize_eq]; exact h) caller
    (isInDirectorySearchThread caller c || false)
  rw [← handles_directory] at hdir
  have hepoll := accounted_stopThread (r := .epoll) hdir caller
    (isInEpollThread caller (stopDirectorySearchThread caller false
      (c.inotifyEventHandler.finalize p) c).2 || false)
  rw [← handles_epoll] at hepoll
  exact hepoll

end RealtimeCore

namespace CoreProgram

/-- What any sequence of calls keeps. -/
def KeepsAccount : CoreProgram → Prop
  | .alive p c => Accounted p.threads c.handles
  | _ => True

theorem KeepsAccount.step {s s' : CoreProgram} {e : CoreEvent} (h : KeepsAccount s)
    (hstep : Step s e s') : KeepsAccount s' := by
  cases hstep.does with
  | initialized hinit => exact hinit.accounted h
  | terminates _ => trivial
  | finalized _ => exact RealtimeCore.accounted_finalize h _
  | workerEnds i => exact h.finish i
  | destroyed _ => trivial

/-- If this event is a call of `Finalize`, its stops go right. -/
def StopsRight : CoreProgram → CoreEvent → Prop
  | .alive p c, .finalize caller => c.StopsCorrectly caller p
  | _, _ => True

/-- As long as all calls came from outside, the stops go right if this one does too. -/
theorem stopsRight_iff {s s' : CoreProgram} {e : CoreEvent} (h : Sound s) (hstep : Step s e s') :
    s.StopsRight e ↔ e.fromOutside = true := by
  cases hstep.does with
  | initialized _ => exact iff_of_true trivial rfl
  | terminates _ => exact iff_of_true trivial rfl
  | workerEnds i => exact iff_of_true trivial rfl
  | destroyed _ => exact iff_of_true trivial rfl
  | @finalized p c caller hcan =>
      obtain ⟨haccounted, hattached⟩ := h.1
      refine (RealtimeCore.stopsCorrectly_iff haccounted caller).trans
        ⟨fun hright => ?_, fun hout => ?_⟩
      · cases caller with
        | outside => rfl
        | thread i =>
            -- a thread that calls runs, and nothing runs but the two workers
            obtain ⟨t, ht, hr⟩ := (Option.any_eq_true _ _).mp hcan
            have howned := haccounted.owns_running hattached ht hr
            exact absurd rfl (hright.1 i ((c.owns_iff i).mpr ⟨t.role, howned⟩))
      · obtain rfl : caller = .outside := of_decide_eq_true hout
        refine ⟨c.stranger_outside, fun i t ht hdetached _ => ?_⟩
        rw [hattached t (List.mem_of_getElem? ht)] at hdetached
        exact absurd hdetached Bool.false_ne_true

/-- **When the stops go right.** In any state of a core a call of `Finalize`, by whatever
thread, stops the workers correctly if and only if the caller is neither of the
workers it owns and no other thread runs that was given up before. In a sequence of
calls from the start all of them do exactly if all come from outside. -/
theorem finalize_stops_iff (hist : List (CoreProgram × CoreEvent)) (s : CoreProgram)
    (h : Run Step start hist s) :
    (∀ p c caller, s = .alive p c → (c.StopsCorrectly caller p ↔ c.Stranger caller ∧
      ∀ (i : Nat) (t : Thread Worker), p.threads[i]? = some t → t.detached = true →
        t.running = true → caller = .thread i)) ∧
    (Meets StopsRight hist ↔ Meets (fun _ e => e.fromOutside = true) hist) := by
  have haccount : KeepsAccount s := h.invariant (fun _ _ _ hs hstep => hs.step hstep)
    (show KeepsAccount start from RealtimeCore.kept_new.accounted)
  refine ⟨fun p c caller hs => ?_, ?_⟩
  · subst hs
    exact RealtimeCore.stopsCorrectly_iff haccount caller
  · refine h.meets_iff (I := Sound) (fun s e t hs hout hstep => ?_)
      (fun s e t hs hstep => stopsRight_iff hs hstep) sound_start
    have houtside : OutsideStep s e t := by
      rw [OutsideStep, nextOutside, if_pos hout]
      exact hstep
    exact (hs.step houtside).1

theorem finalize_stops_twoSessions :
    ∃ hist s, exec next start twoSessions = some (hist, s) ∧
      Meets (fun _ e => e.fromOutside = true) hist ∧ Meets StopsRight hist := by
  have hpossible : (exec next start twoSessions).isSome = true := by decide
  have hout : ∀ e ∈ twoSessions, e.fromOutside = true := by decide
  obtain ⟨⟨hist, s⟩, hexec⟩ := Option.isSome_iff_exists.mp hpossible
  have hmeets := meets_of_actions (C := fun (_ : CoreProgram) e => CoreEvent.fromOutside e = true)
    (actions_of_exec hexec) fun e he _ => hout e he
  exact ⟨hist, s, hexec, hmeets,
    (finalize_stops_iff hist s (run_of_exec hexec)).2.mpr hmeets⟩

/-- The epoll worker calls `Finalize`: it gives up the directory worker, which goes on
running, and keeps its own handle. -/
theorem epoll_worker_stops_wrong :
    ¬ ∀ (hist : List (CoreProgram × CoreEvent)) (s : CoreProgram), Run Step start hist s →
      ∀ p c caller, s = .alive p c → canCall p.threads caller = true →
        c.StopsCorrectly caller p := by
  intro h
  have hpossible : (exec next start [.initializeWith ⟨.succeeds, 3, 4, false, false⟩]).map
      (fun x => match x.2 with
        | .alive p c => canCall p.threads (.thread 1) && c.epollHandlerThread == some 1
        | _ => false) = some true := by
    decide
  obtain ⟨⟨hist, s⟩, hexec, hs⟩ := Option.map_eq_some_iff.mp hpossible
  have hrun := run_of_exec hexec
  have haccount : KeepsAccount s :=
    hrun.invariant (fun _ _ _ hs hstep => KeepsAccount.step hs hstep)
      (show KeepsAccount start from RealtimeCore.kept_new.accounted)
  cases s with
  | alive p c =>
      obtain ⟨hcan, hepoll⟩ := Bool.and_eq_true_iff.mp hs
      exact RealtimeCore.not_stopsCorrectly_of_owns haccount (.inr (eq_of_beq hepoll))
        (h hist _ hrun p c (.thread 1) rfl hcan)
  | destroyed p => exact absurd hs Bool.false_ne_true
  | terminated => exact absurd hs Bool.false_ne_true

end CoreProgram

end InotifyRealtime
