import InotifyRealtime.Foundation.Machine
import InotifyRealtime.Foundation.Resource
import InotifyRealtime.LifecycleSound
/-!
# InotifyRealtime.LifecycleRuns

A `RealtimeInterface` over all sequences of calls from one outside thread.

A `Program` is the interface and its process between two calls. Two calls are
possible, and workers may end on their own. `Program.Settled` is what every
sequence of calls keeps: without a core no thread is left, with one both workers
are owned and the flag is cleared (`sessions_settle`).

Descriptors fare worse. `Doomed` programs have closed one twice already, or own a
core that will. The first descriptor stored dooms the program for good
(`closed_once_iff`).
-/

namespace InotifyRealtime

open Threads Resource Machine

/-! ### Calls of the interface from outside -/

namespace Effect

def isNew (e : Effect) : Bool := e = .coreNew

def isDelete (e : Effect) : Bool := e = .coreDelete

/-- `fd` is what a system call answered. -/
def Obtains (fd : Int) (e : Effect) : Prop := e = .inotifyInit fd ∨ e = .epollCreate1 fd

def Closes (fd : Int) (e : Effect) : Prop := e = .close fd

end Effect

/-- Between two closes of a descriptor it was obtained anew. -/
def ClosedOnce (log : List Effect) : Prop := ReleasedOnce Effect.Obtains Effect.Closes log

/-- At no time two cores exist. -/
def AtMostOneCore (log : List Effect) : Prop := AtMostOneLive Effect.isNew Effect.isDelete log

theorem countP_of_systemic {log : List Effect} (h : ∀ e ∈ log, e.Systemic) :
    log.countP Effect.isNew = 0 ∧ log.countP Effect.isDelete = 0 := by
  constructor
  · rw [List.countP_eq_zero]
    intro e he
    simpa [Effect.isNew] using (h e he).1
  · rw [List.countP_eq_zero]
    intro e he
    simpa [Effect.isDelete] using (h e he).2

theorem InotifyEventHandler.closes_systemic (h : InotifyEventHandler) :
    ∀ e ∈ h.closes, e.Systemic := by
  intro e he
  obtain ⟨n, rfl⟩ := mem_closes he
  exact ⟨nofun, nofun⟩

/-- A handler with a stored inotify descriptor that closes everything twice. -/
theorem not_closedOnce_of_closes {h : InotifyEventHandler} (hpos : 0 < h.inotifyFd)
    (before after : List Effect) :
    ¬ ClosedOnce (before ++ h.closes ++ h.closes ++ after) := by
  intro hclosed
  obtain ⟨e, he, hobtains⟩ := hclosed h.inotifyFd before (InotifyEventHandler.closing h.epollFd)
    (InotifyEventHandler.closing h.epollFd ++ after) (.close h.inotifyFd) (.close h.inotifyFd)
    (by simp [InotifyEventHandler.closes_of_pos hpos]) rfl rfl
  rw [InotifyEventHandler.mem_closing he] at hobtains
  rcases hobtains with heq | heq <;> exact absurd heq nofun

/-- This `Initialize`, on a free interface, stores a descriptor. -/
def Outcomes.Stores (o : Outcomes) : Prop := o.allocation = .succeeds ∧ 0 < o.inotifyInit

namespace RealtimeInterface

/-- `Finalize` from outside closes three times over what the core stored. -/
theorem finalize_outside (p : Process) (c : RealtimeCore) :
    finalize .outside p ⟨some c⟩ = some ({ p with
      stopped := true
      threads := c.joinedThreads p
      log := p.log ++ c.inotifyEventHandler.closes ++ c.inotifyEventHandler.closes ++
        c.inotifyEventHandler.closes ++ [.coreDelete] }, ⟨none⟩) := by
  simp only [finalize, RealtimeCore.finalize_outside, reset, RealtimeCore.destroy_outside]
  rfl

/-- What `Initialize` does to an interface without a core. -/
structure Attempted (o : Outcomes) (p : Process) (result : Bool) (p' : Process)
    (i : RealtimeInterface) : Prop where
  core_iff : i.core.isSome ↔ result = true
  log : ∃ added, p'.log = p.log ++ added ∧ added.countP Effect.isNew ≤ 1 ∧
    added.countP Effect.isNew = added.countP Effect.isDelete + (if result then 1 else 0) ∧
    (¬ o.Stores → ∀ x ∈ added, ∀ n, x ≠ .close n)
  threads : ∀ S, RunsOnly p.threads S →
    RunsOnly p'.threads (fun j => S j ∨ ∃ c, i.core = some c ∧ c.Owns j)
  ready : ∀ c, i.core = some c →
    p'.stopped = false ∧ c.directoryTread.joinable ∧ c.epollHandlerThread.joinable
  /-- Stored descriptors stay with the core, or have been closed twice. -/
  stores : o.Stores → ¬ ClosedOnce p'.log ∨
    ∃ c, i.core = some c ∧ 0 < c.inotifyEventHandler.inotifyFd
  not_stores : ¬ o.Stores → i.core = none

/-- An attempt of which nothing is left: no core exists and no thread runs that
did not run before. -/
theorem attempted_in_vain {o : Outcomes} {p p' : Process} (added : List Effect)
    (hlog : p'.log = p.log ++ added) (hone : added.countP Effect.isNew ≤ 1)
    (hgone : added.countP Effect.isNew = added.countP Effect.isDelete)
    (hthreads : ∀ S, RunsOnly p.threads S → RunsOnly p'.threads S)
    (hclosed : o.Stores → ¬ ClosedOnce p'.log)
    (hnone : ¬ o.Stores → ∀ x ∈ added, ∀ n, x ≠ .close n) :
    Attempted o p false p' ⟨none⟩ where
  core_iff := by simp
  log := ⟨added, hlog, hone, by simpa using hgone, hnone⟩
  threads S hS := (hthreads S hS).mono fun i hi => .inl hi
  ready c hc := absurd hc nofun
  stores h := .inl (hclosed h)
  not_stores _ := rfl

/-- A core that is destroyed right after an attempt. -/
theorem attempted_of_destroy {o : Outcomes} {p p₁ : Process} {e : Ending} {c : RealtimeCore}
    (halloc : o.allocation = .succeeds) (h : c.Attempted o (p.record .coreNew) e p₁) :
    Attempted o p false { p₁ with
      stopped := true
      threads := c.joinedThreads p₁
      log := p₁.log ++ c.inotifyEventHandler.closes ++ c.inotifyEventHandler.closes ++
        [.coreDelete] } ⟨none⟩ := by
  obtain ⟨added, hlog, hsystemic, hnoClose⟩ := h.log
  have hcounts := countP_of_systemic hsystemic
  have hcloses := countP_of_systemic c.inotifyEventHandler.closes_systemic
  have hstored := h.stored
  refine attempted_in_vain (.coreNew :: (added ++ c.inotifyEventHandler.closes ++
    c.inotifyEventHandler.closes ++ [.coreDelete])) ?_ ?_ ?_ ?_ ?_ ?_
  · simp [hlog, Process.record]
  · simp [List.countP_append, hcounts, hcloses, Effect.isNew]
  · simp [List.countP_append, hcounts, hcloses, Effect.isNew, Effect.isDelete]
  · intro S hS
    exact RealtimeCore.joinedThreads_runsOnly (h.threads S hS)
  · intro hstores
    rw [if_pos hstores.2] at hstored
    exact not_closedOnce_of_closes (hstored ▸ hstores.2) p₁.log [.coreDelete]
  · intro hstores
    have hpos : ¬ 0 < o.inotifyInit := fun hpos => hstores ⟨halloc, hpos⟩
    rw [if_neg hpos] at hstored
    intro x hx n
    simp only [hstored, InotifyEventHandler.closes_new, List.append_nil, List.mem_cons,
      List.mem_append, List.not_mem_nil, or_false] at hx
    rcases hx with rfl | hx | rfl
    · exact Effect.noConfusion
    · exact hnoClose hpos x hx n
    · exact Effect.noConfusion

/-- From outside, an attempt on an interface without a core always comes back. -/
theorem initializeWith_outside (o : Outcomes) (p : Process) :
    ∃ result p' i, initializeWith .outside o p ⟨none⟩ = some (result, p', i) ∧
      Attempted o p result p' i := by
  cases halloc : o.allocation with
  | throws =>
      refine ⟨false, p, ⟨none⟩, by simp [initializeWith, allocate, halloc, reset], ?_⟩
      have hstores : ¬ o.Stores := by simp [Outcomes.Stores, halloc]
      exact attempted_in_vain [] (by simp) (by simp) (by simp) (fun S hS => hS)
        (fun h => absurd h hstores) (by simp)
  | controlBlockThrows =>
      have hstores : ¬ o.Stores := by simp [Outcomes.Stores, halloc]
      refine ⟨false, { p with stopped := true, log := p.log ++ [.coreNew, .coreDelete] }, ⟨none⟩,
        ?_, attempted_in_vain [.coreNew, .coreDelete] rfl (by decide) (by decide)
          (fun S hS => hS) (fun h => absurd h hstores) (by simp)⟩
      simp [initializeWith, allocate, halloc, RealtimeCore.destroy_outside, reset,
        RealtimeCore.joinedThreads, RealtimeCore.new, joined, Process.record]
  | succeeds =>
      -- the core's own attempt decides: it is kept, or thrown away at once
      obtain ⟨e, p₁, c, hcore, hattempted⟩ := RealtimeCore.initializeWith_new o (p.record .coreNew)
      by_cases he : e = .returned true
      · subst he
        obtain ⟨hpos, hready⟩ := hattempted.ready rfl
        have hstored := hattempted.stored
        rw [if_pos hpos] at hstored
        obtain ⟨added, hlog, hsystemic, -⟩ := hattempted.log
        have hcounts := countP_of_systemic hsystemic
        refine ⟨true, p₁, ⟨some c⟩, ?_, ?_⟩
        · simp only [initializeWith, allocate, halloc, Option.bind_some, hcore]
        · exact
            { core_iff := by simp
              log := ⟨.coreNew :: added, by simp [hlog, Process.record],
                by simp [hcounts, Effect.isNew], by simp [hcounts, Effect.isNew, Effect.isDelete],
                fun h => absurd ⟨halloc, hpos⟩ h⟩
              threads := fun S hS => (hattempted.threads S hS).mono fun j hj =>
                hj.imp_right fun howns => ⟨c, rfl, howns⟩
              ready := fun c' hc' => Option.some.inj hc' ▸ hready
              stores := fun _ => .inr ⟨c, rfl, hstored ▸ hpos⟩
              not_stores := fun h => absurd ⟨halloc, hpos⟩ h }
      · refine ⟨false, _, ⟨none⟩, ?_, attempted_of_destroy halloc hattempted⟩
        simp only [initializeWith, allocate, halloc, Option.bind_some, hcore]
        cases e with
        | thrown => simp only [reset, RealtimeCore.destroy_outside, Option.map_some]
        | returned result =>
            cases result with
            | false => simp only [reset, RealtimeCore.destroy_outside, Option.map_some]
            | true => exact absurd rfl he

end RealtimeInterface

/-! ### Programs between calls -/

/-- The process and its one interface. -/
structure Program where
  process : Process
  interface : RealtimeInterface

/-- What may happen next: a call, or a worker that returns. -/
inductive Event
  | initializeWith (o : Outcomes)
  | finalize
  | workerEnds (i : Nat)
  deriving DecidableEq

/-- The call stores a descriptor, if it finds no core. -/
def Event.Stores : Event → Prop
  | .initializeWith o => o.Stores
  | _ => False

namespace Program

def start : Program := ⟨.start, .new⟩

/-- One call from outside, or one worker's end. -/
def next (s : Program) : Event → Option Program
  | .initializeWith o =>
      (s.interface.initializeWith .outside o s.process).map fun (_, p, i) => ⟨p, i⟩
  | .finalize => (s.interface.finalize .outside s.process).map fun (p, i) => ⟨p, i⟩
  | .workerEnds i =>
      some { s with process := { s.process with threads := finish s.process.threads i } }

def Step (s : Program) (e : Event) (s' : Program) : Prop := s.next e = some s'

/-- A program between two calls. -/
structure Settled (s : Program) : Prop where
  cores : AtMostOneCore s.process.log
  /-- Of the cores born exactly the interface's own lives. -/
  balance : s.process.log.countP Effect.isNew =
    s.process.log.countP Effect.isDelete + (if s.interface.core.isSome then 1 else 0)
  threads : RunsOnly s.process.threads fun j => ∃ c, s.interface.core = some c ∧ c.Owns j
  ready : ∀ c, s.interface.core = some c →
    s.process.stopped = false ∧ c.directoryTread.joinable ∧ c.epollHandlerThread.joinable

theorem settled_start : Settled start where
  cores := atMostOneLive_of_countP_le (by decide)
  balance := by decide
  threads := runsOnly_nil _
  ready c hc := absurd hc nofun

/-- What an event does. -/
inductive Does : Program → Event → Program → Prop
  | already {p : Process} {c : RealtimeCore} {o : Outcomes} :
      Does ⟨p, ⟨some c⟩⟩ (.initializeWith o) ⟨p, ⟨some c⟩⟩
  | attempted {p p' : Process} {i : RealtimeInterface} {o : Outcomes} {result : Bool} :
      RealtimeInterface.Attempted o p result p' i →
      Does ⟨p, ⟨none⟩⟩ (.initializeWith o) ⟨p', i⟩
  | nothingToFinalize {p : Process} : Does ⟨p, ⟨none⟩⟩ .finalize ⟨p, ⟨none⟩⟩
  | finalized {p : Process} {c : RealtimeCore} :
      Does ⟨p, ⟨some c⟩⟩ .finalize
        ⟨{ p with
            stopped := true
            threads := c.joinedThreads p
            log := p.log ++ c.inotifyEventHandler.closes ++ c.inotifyEventHandler.closes ++
              c.inotifyEventHandler.closes ++ [.coreDelete] }, ⟨none⟩⟩
  | workerEnded {p : Process} {i : RealtimeInterface} {j : Nat} :
      Does ⟨p, i⟩ (.workerEnds j) ⟨{ p with threads := finish p.threads j }, i⟩

/-- Every event is possible in every program, and does what `Does` says. -/
theorem next_does (s : Program) (e : Event) : ∃ s', s.next e = some s' ∧ Does s e s' := by
  obtain ⟨p, ⟨core⟩⟩ := s
  cases e with
  | initializeWith o =>
      cases core with
      | some c => exact ⟨_, rfl, .already⟩
      | none =>
          obtain ⟨result, p', i, heq, hattempted⟩ := RealtimeInterface.initializeWith_outside o p
          refine ⟨⟨p', i⟩, ?_, .attempted hattempted⟩
          simp only [next, heq, Option.map_some]
  | finalize =>
      cases core with
      | none => exact ⟨_, rfl, .nothingToFinalize⟩
      | some c =>
          refine ⟨_, ?_, .finalized⟩
          simp only [next, RealtimeInterface.finalize_outside, Option.map_some]
  | workerEnds j => exact ⟨_, rfl, .workerEnded⟩

theorem Step.does {s s' : Program} {e : Event} (h : Step s e s') : Does s e s' := by
  obtain ⟨t, ht, hdoes⟩ := next_does s e
  obtain rfl : t = s' := Option.some.inj (ht.symm.trans h)
  exact hdoes

/-- Every event leads from a settled program to a settled one. -/
theorem Settled.step {s s' : Program} {e : Event} (h : Settled s) (hstep : Step s e s') :
    Settled s' := by
  obtain ⟨hcores, hbalance, hthreads, hready⟩ := h
  cases hstep.does with
  | already => exact ⟨hcores, hbalance, hthreads, hready⟩
  | nothingToFinalize => exact ⟨hcores, hbalance, hthreads, hready⟩
  | @attempted p p' i o result h =>
      obtain ⟨added, hlog, hone, hcount, -⟩ := h.log
      have hbefore : p.log.countP Effect.isNew = p.log.countP Effect.isDelete := by
        simpa using hbalance
      have hresult : (if i.core.isSome then 1 else 0) = if result then 1 else 0 := by
        simp only [h.core_iff]
      refine ⟨?_, ?_, ?_, h.ready⟩
      · show AtMostOneCore p'.log
        rw [hlog]
        exact hcores.append_of_balanced hbefore (atMostOneLive_of_countP_le hone)
      · show p'.log.countP Effect.isNew = p'.log.countP Effect.isDelete + _
        rw [hlog, List.countP_append, List.countP_append, hresult]
        omega
      · refine (h.threads (fun _ => False) (hthreads.mono ?_)).mono fun j hj => ?_
        · rintro j ⟨c, hc, -⟩
          exact absurd hc nofun
        · exact hj.elim False.elim id
  | @finalized p c =>
      have hcloses := countP_of_systemic c.inotifyEventHandler.closes_systemic
      refine ⟨?_, ?_, ?_, nofun⟩
      · simp only [List.append_assoc]
        refine hcores.append_of_no_birth ?_
        simp [List.countP_append, hcloses, Effect.isNew]
      · simp only [List.countP_append, hcloses]
        simpa [Effect.isNew, Effect.isDelete] using hbalance
      · refine RealtimeCore.joinedThreads_runsOnly (hthreads.mono fun j hj => ?_)
        obtain ⟨c', hc', howns⟩ := hj
        exact .inr (Option.some.inj hc' ▸ howns)
  | workerEnded => exact ⟨hcores, hbalance, (hthreads.finish _).mono fun j hj => hj.1, hready⟩

theorem Settled.reaches {s s' : Program} (h : Settled s) (hreaches : Reaches Step s s') :
    Settled s' :=
  hreaches.invariant (fun _ _ _ hs hstep => hs.step hstep) h

/-- **The sessions of a monitor.** Driven from one outside thread, a program always
comes back from `Initialize` and `Finalize`. `Initialize` leaves a core exactly
when it returns true, and `Finalize` leaves none. There was never more than one
core at a time. Between calls, without a core no thread runs and none was
detached; with a core both workers are owned and `stopped_` is false. -/
theorem sessions_settle (s : Program) (h : Reaches Step start s) :
    (∀ o, ∃ result p i, s.interface.initializeWith .outside o s.process = some (result, p, i) ∧
      (i.core.isSome ↔ result = true)) ∧
    (∃ p i, s.interface.finalize .outside s.process = some (p, i) ∧ i.core = none) ∧
    AtMostOneCore s.process.log ∧
    (s.interface.core = none →
      ∀ t ∈ s.process.threads, t.running = false ∧ t.detached = false) ∧
    (∀ c, s.interface.core = some c →
      c.directoryTread.joinable ∧ c.epollHandlerThread.joinable ∧ s.process.stopped = false) := by
  have hsettled := settled_start.reaches h
  obtain ⟨p, ⟨core⟩⟩ := s
  refine ⟨fun o => ?_, ?_, hsettled.cores, fun hnone t ht => ?_, fun c hc => ?_⟩
  · cases core with
    | some c => exact ⟨true, p, ⟨some c⟩, rfl, by simp⟩
    | none =>
        obtain ⟨result, p', i, heq, hattempted⟩ := RealtimeInterface.initializeWith_outside o p
        exact ⟨result, p', i, heq, hattempted.core_iff⟩
  · cases core with
    | none => exact ⟨p, ⟨none⟩, rfl, rfl⟩
    | some c => exact ⟨_, _, RealtimeInterface.finalize_outside p c, rfl⟩
  · obtain ⟨j, hj⟩ := List.getElem?_of_mem ht
    obtain ⟨hdetached, hrunning⟩ := hsettled.threads j t hj
    refine ⟨Bool.eq_false_iff.mpr fun hr => ?_, hdetached⟩
    obtain ⟨c, hc, -⟩ := hrunning hr
    exact absurd (hc.symm.trans hnone) nofun
  · obtain ⟨hstopped, hdir, hepoll⟩ := hsettled.ready c hc
    exact ⟨hdir, hepoll, hstopped⟩

/-- All system calls succeed: descriptors 3 and 4. -/
def allSucceed : Outcomes := ⟨.succeeds, 3, 4, false, false⟩

/-- A session, one that fails at the second thread, and a third one. -/
def threeSessions : List Event :=
  [.initializeWith allSucceed, .finalize,
   .initializeWith { allSucceed with epollThreadThrows := true }, .workerEnds 0,
   .initializeWith allSucceed]

theorem sessions_settle_threeSessions :
    ∃ hist s, exec next start threeSessions = some (hist, s) ∧ s.interface.core.isSome ∧
      AtMostOneCore s.process.log := by
  have hpossible : (exec next start threeSessions).map (fun x => x.2.interface.core.isSome) =
      some true := by
    decide
  obtain ⟨⟨hist, s⟩, hexec, hs⟩ := Option.map_eq_some_iff.mp hpossible
  exact ⟨hist, s, hexec, hs, (sessions_settle s ⟨hist, run_of_exec hexec⟩).2.2.1⟩

/-! ### Descriptors closed twice -/

/-- Nothing was closed, and nothing is there to close. -/
def Quiet (s : Program) : Prop :=
  s.interface.core = none ∧ ∀ e ∈ s.process.log, ∀ n, e ≠ .close n

/-- A descriptor was closed twice, or a core owns one that will be. -/
def Doomed (s : Program) : Prop :=
  ¬ ClosedOnce s.process.log ∨
    ∃ c, s.interface.core = some c ∧ 0 < c.inotifyEventHandler.inotifyFd

theorem Quiet.step {s s' : Program} {e : Event} (h : Quiet s) (hstores : ¬ e.Stores)
    (hstep : Step s e s') : Quiet s' := by
  obtain ⟨hnone, hlog⟩ := h
  cases hstep.does with
  | already => exact absurd hnone nofun
  | nothingToFinalize => exact ⟨hnone, hlog⟩
  | @attempted p p' i o result h =>
      obtain ⟨added, hadded, -, -, hnoClose⟩ := h.log
      refine ⟨h.not_stores hstores, fun e he => ?_⟩
      rw [show (⟨p', i⟩ : Program).process.log = p.log ++ added from hadded] at he
      rcases List.mem_append.mp he with he | he
      · exact hlog e he
      · exact hnoClose hstores e he
  | finalized => exact absurd hnone nofun
  | workerEnded => exact ⟨hnone, hlog⟩

/-- The first descriptor stored dooms the program. -/
theorem Quiet.doomed {s s' : Program} {e : Event} (h : Quiet s) (hstores : e.Stores)
    (hstep : Step s e s') : Doomed s' := by
  cases hstep.does with
  | already => exact absurd h.1 nofun
  | attempted hattempted => exact hattempted.stores hstores
  | nothingToFinalize | finalized | workerEnded => exact hstores.elim

/-- Nothing that happens later undoes it. -/
theorem Doomed.step {s s' : Program} {e : Event} (h : Doomed s) (hstep : Step s e s') :
    Doomed s' := by
  cases hstep.does with
  | already | nothingToFinalize | workerEnded => exact h
  | @attempted p p' i o result hattempted =>
      obtain ⟨added, hadded, -⟩ := hattempted.log
      rcases h with hclosed | ⟨c, hc, -⟩
      · left
        show ¬ ClosedOnce p'.log
        rw [hadded]
        exact fun hlater => hclosed hlater.of_append
      · exact absurd hc nofun
  | @finalized p c =>
      -- an earlier second close stays in the log, and a core adds its own now
      left
      simp only [List.append_assoc _ _ [Effect.coreDelete]]
      rcases h with hclosed | ⟨c', hc', hpos⟩
      · intro hlater
        simp only [List.append_assoc] at hlater
        exact hclosed hlater.of_append
      · obtain rfl := Option.some.inj hc'
        exact not_closedOnce_of_closes hpos _ _

/-- Destroying the interface finalizes it. -/
theorem destroy_eq (s : Program) :
    ∃ s', Step s .finalize s' ∧ s'.interface.core = none ∧
      s.interface.destroy .outside s.process = some s'.process := by
  obtain ⟨s', hnext, hdoes⟩ := next_does s .finalize
  cases hdoes with
  | nothingToFinalize => exact ⟨_, hnext, rfl, rfl⟩
  | finalized =>
      refine ⟨_, hnext, rfl, ?_⟩
      simp only [RealtimeInterface.destroy, RealtimeInterface.finalize_outside, Option.bind_some,
        RealtimeInterface.reset, Option.map_some]

/-- **When descriptors are closed once.** In a sequence of calls, ended by the
destruction of the interface, every descriptor obtained is closed at most once if
and only if no call ever stores one: each allocation fails, or each `inotify_init`
answers a number that is not positive. -/
theorem closed_once_iff (hist : List (Program × Event)) (s : Program)
    (h : Run Step start hist s) :
    ∃ p, s.interface.destroy .outside s.process = some p ∧
      (ClosedOnce p.log ↔ Meets (fun _ e => ¬ e.Stores) hist) := by
  obtain ⟨s', hstep, hnone, hdestroy⟩ := destroy_eq s
  refine ⟨s'.process, hdestroy, ?_⟩
  have hquiet : Quiet start := ⟨rfl, fun e he => absurd he List.not_mem_nil⟩
  rcases h.meets_or_breaks (P := Quiet) (Q := Doomed) (C := fun _ e => ¬ e.Stores)
    (fun _ _ _ hs hC hstep => hs.step hC hstep)
    (fun _ _ _ hs hC hstep => hs.doomed (not_not.mp hC) hstep)
    (fun _ _ _ hs hstep => hs.step hstep) hquiet with ⟨hmeets, hs⟩ | ⟨hbroken, hs⟩
  · have hs' : Quiet s' := hs.step id hstep
    refine iff_of_true (releasedOnce_of_no_release fun e he n => ?_) hmeets
    exact hs'.2 e he n
  · have hs' : Doomed s' := hs.step hstep
    refine iff_of_false (hs'.resolve_right fun ⟨c, hc, _⟩ => ?_) hbroken
    exact absurd (hnone.symm.trans hc) nofun

/-- No descriptor is left, no memory, and then `inotify_init` answers 0. -/
def threeFailures : List Event :=
  [.initializeWith { allSucceed with inotifyInit := -1 }, .finalize,
   .initializeWith { allSucceed with allocation := .controlBlockThrows },
   .initializeWith { allSucceed with inotifyInit := 0 }]

theorem closed_once_threeFailures :
    ∃ hist s p, exec next start threeFailures = some (hist, s) ∧
      s.interface.destroy .outside s.process = some p ∧
      Meets (fun _ e => ¬ e.Stores) hist ∧ ClosedOnce p.log := by
  have hpossible : (exec next start threeFailures).isSome = true := by decide
  have hstores : ∀ e ∈ threeFailures, ¬ e.Stores := by
    simp [threeFailures, allSucceed, Event.Stores, Outcomes.Stores]
  obtain ⟨⟨hist, s⟩, hexec⟩ := Option.isSome_iff_exists.mp hpossible
  have hmeets := meets_of_actions (C := fun (_ : Program) e => ¬ Event.Stores e)
    (actions_of_exec hexec) fun e he _ => hstores e he
  obtain ⟨p, hdestroy, hiff⟩ := closed_once_iff hist s (run_of_exec hexec)
  exact ⟨hist, s, p, hexec, hdestroy, hmeets, hiff.mpr hmeets⟩

/-- One session: descriptor 3 is closed three times. -/
theorem session_closes_thrice :
    ¬ ∀ (hist : List (Program × Event)) (s : Program) (p : Process), Run Step start hist s →
      s.interface.destroy .outside s.process = some p → ClosedOnce p.log := by
  intro h
  have hpossible : ((exec next start [.initializeWith allSucceed]).bind fun x =>
      (x.2.interface.destroy .outside x.2.process).map Process.log) =
      some [.coreNew, .inotifyInit 3, .epollCreate1 4, .close 3, .close 4, .close 3, .close 4,
        .close 3, .close 4, .coreDelete] := by
    decide
  obtain ⟨⟨hist, s⟩, hexec, hs⟩ := Option.bind_eq_some_iff.mp hpossible
  obtain ⟨p, hdestroy, hlog⟩ := Option.map_eq_some_iff.mp hs
  have hclosed := h hist s p (run_of_exec hexec) hdestroy
  rw [hlog] at hclosed
  obtain ⟨e, he, hobtains⟩ := hclosed 3 [.coreNew, .inotifyInit 3, .epollCreate1 4] [.close 4]
    [.close 4, .close 3, .close 4, .coreDelete] (.close 3) (.close 3) rfl rfl rfl
  rw [List.mem_singleton.mp he] at hobtains
  rcases hobtains with heq | heq <;> exact absurd heq nofun

end Program

end InotifyRealtime
