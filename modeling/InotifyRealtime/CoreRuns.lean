import InotifyRealtime.Foundation.Machine
import InotifyRealtime.LifecycleSound
/-!
# InotifyRealtime.CoreRuns

One `RealtimeCore` on its own, over all sequences of calls.

`RealtimeInterface` calls a core in one order only. The methods of `RealtimeCore`
are public, and a `CoreProgram` calls them in any: `Initialize` twice, `Finalize`
from outside or from one of the workers, the destructor at the end.
`Initialized` says what one `Initialize` does to the two workers.

A `Start` function that finds its handle joinable says so and goes on: the
assignment that follows calls `std::terminate`. Calls from outside never harm a
worker precisely if no `Initialize` gets that far (`workers_unharmed_iff`).
-/

namespace InotifyRealtime

open Threads Machine

namespace RealtimeCore

/-- The handle of each worker. -/
def handles (c : RealtimeCore) : Worker → Handle
  | .directory => c.directoryTread
  | .epoll => c.epollHandlerThread

theorem handles_directory (c : RealtimeCore) (h : Handle) :
    handles { c with directoryTread := h } = Function.update c.handles .directory h := by
  funext r
  cases r with
  | directory => rw [Function.update_self, handles]
  | epoll => rw [Function.update_of_ne Worker.noConfusion, handles, handles]

theorem handles_epoll (c : RealtimeCore) (h : Handle) :
    handles { c with epollHandlerThread := h } = Function.update c.handles .epoll h := by
  funext r
  cases r with
  | directory => rw [Function.update_of_ne Worker.noConfusion, handles, handles]
  | epoll => rw [Function.update_self, handles]

theorem owns_iff (c : RealtimeCore) (i : Nat) : c.Owns i ↔ ∃ r, c.handles r = some i := by
  constructor
  · intro howns
    rcases howns with hdir | hepoll
    · exact ⟨.directory, hdir⟩
    · exact ⟨.epoll, hepoll⟩
  · intro hsome
    obtain ⟨r, hr⟩ := hsome
    cases r with
    | directory => exact .inl hr
    | epoll => exact .inr hr

/-- Whatever runs is owned, each worker by its handle. -/
structure Kept (c : RealtimeCore) (p : Process) : Prop where
  accounted : Accounted p.threads c.handles
  attached : Attached p.threads

theorem kept_new : new.Kept .start where
  accounted := .nil _ fun r => by
    cases r with
    | directory => rfl
    | epoll => rfl
  attached t ht := absurd ht List.not_mem_nil

end RealtimeCore

/-! ### What `Initialize` does to the workers -/

/-- The system calls of the handler's `Initialize` give it what it needs. -/
def Outcomes.HandlerReady (o : Outcomes) : Prop := 0 < o.inotifyInit ∧ 0 ≤ o.epollCreate1

/-- The handler leaves the threads alone. -/
theorem InotifyEventHandler.initializeWith_threads (o : Outcomes) (p : Process)
    (h : InotifyEventHandler) :
    ∃ result p' h', h.initializeWith o p = (result, p', h') ∧ p'.threads = p.threads ∧
      (result = true ↔ o.HandlerReady) := by
  rcases lt_trichotomy o.inotifyInit 0 with hinit | hinit | hinit
  · refine ⟨_, _, _, initializeWith_of_neg hinit p h, rfl, ?_⟩
    exact iff_of_false Bool.false_ne_true fun hready => by have := hready.1; omega
  · refine ⟨_, _, _, initializeWith_of_zero hinit p h, rfl, ?_⟩
    exact iff_of_false Bool.false_ne_true fun hready => by have := hready.1; omega
  · by_cases hepoll : o.epollCreate1 < 0
    · refine ⟨_, _, _, initializeWith_of_epoll_neg hinit hepoll p h, rfl, ?_⟩
      exact iff_of_false Bool.false_ne_true fun hready => by have := hready.2; omega
    · rw [Int.not_lt] at hepoll
      exact ⟨_, _, _, initializeWith_of_pos hinit hepoll p h, rfl, iff_of_true rfl ⟨hinit, hepoll⟩⟩

namespace RealtimeCore

/-- This `Initialize` comes to assign a new thread to a directory handle that owns
one. -/
def Overwrites (o : Outcomes) (c : RealtimeCore) : Prop :=
  o.HandlerReady ∧ o.directoryThreadThrows = false ∧ c.directoryTread.joinable = true

/-- What `Initialize` does to the workers, by how many it starts. -/
inductive Initialized (o : Outcomes) (p : Process) (c : RealtimeCore) :
    Option (Ending × Process × RealtimeCore) → Prop
  | started_none {e : Ending} {p' : Process} {c' : RealtimeCore} :
      ¬ c.Overwrites o → p'.threads = p.threads → c'.handles = c.handles →
      Initialized o p c (some (e, p', c'))
  | started_directory {e : Ending} {p' : Process} {c' : RealtimeCore} :
      c.directoryTread = none → p'.threads = (spawn p.threads .directory).2 →
      c'.handles = Function.update c.handles .directory (some p.threads.length) →
      Initialized o p c (some (e, p', c'))
  | started_both {e : Ending} {p' : Process} {c' : RealtimeCore} :
      c.directoryTread = none → c.epollHandlerThread = none →
      p'.threads = (spawn (spawn p.threads .directory).2 .epoll).2 →
      c'.handles = Function.update (Function.update c.handles .directory (some p.threads.length))
        .epoll (some (p.threads.length + 1)) →
      Initialized o p c (some (e, p', c'))
  | overwritten_directory : c.Overwrites o → Initialized o p c none
  | overwritten_epoll :
      c.directoryTread = none → c.epollHandlerThread.joinable = true → Initialized o p c none

theorem not_overwrites_of_none {o : Outcomes} {c : RealtimeCore} (h : c.directoryTread = none) :
    ¬ c.Overwrites o := by
  intro hoverwrites
  rw [Overwrites, h] at hoverwrites
  exact absurd hoverwrites.2.2 Bool.false_ne_true

theorem handle_eq_none {h : Handle} (hnot : ¬ h.joinable = true) : h = none := by
  cases h with
  | none => rfl
  | some i => exact absurd rfl hnot

/-- `Initialize`, by its ways through the two `Start` functions. -/
theorem initialized (o : Outcomes) (p : Process) (c : RealtimeCore) :
    Initialized o p c (c.initializeWith o p) := by
  obtain ⟨result, p₁, h, heq, hthreads, hready⟩ :=
    c.inotifyEventHandler.initializeWith_threads o p
  rw [initializeWith, heq]
  cases result with
  | false => exact .started_none (fun hov => Bool.false_ne_true (hready.mpr hov.1)) hthreads rfl
  | true =>
      simp only [startDirectorySearchThread, startThread]
      by_cases hthrows : o.directoryThreadThrows
      · rw [if_pos hthrows]
        refine .started_none (fun hov => ?_) hthreads rfl
        exact absurd (hthrows.symm.trans hov.2.1) Bool.true_eq_false.mp
      rw [if_neg hthrows]
      by_cases hdir : c.directoryTread.joinable = true
      · rw [if_pos hdir]
        exact .overwritten_directory ⟨hready.mp rfl, Bool.eq_false_iff.mpr hthrows, hdir⟩
      rw [if_neg hdir]
      have hnone : c.directoryTread = none := handle_eq_none hdir
      simp only [Option.map_some, Option.bind_some, startEpollThread, startThread]
      by_cases hthrows' : o.epollThreadThrows
      · rw [if_pos hthrows']
        refine .started_directory hnone ?_ ?_
        · simp only [hthreads]
        · simp only [hthreads, spawn]
          exact handles_directory _ _
      rw [if_neg hthrows']
      by_cases hepoll : c.epollHandlerThread.joinable = true
      · rw [if_pos hepoll]
        exact .overwritten_epoll hnone hepoll
      · rw [if_neg hepoll]
        refine .started_both hnone (handle_eq_none hepoll) ?_ ?_
        · simp only [hthreads]
        · simp only [hthreads, spawn, List.length_append, List.length_singleton]
          exact (handles_epoll _ _).trans (congrArg (Function.update · _ _) (handles_directory _ _))

theorem Initialized.accounted {o : Outcomes} {p p' : Process} {c c' : RealtimeCore} {e : Ending}
    (h : Accounted p.threads c.handles) (hinit : Initialized o p c (some (e, p', c'))) :
    Accounted p'.threads c'.handles := by
  cases hinit with
  | started_none _ hthreads hhandles =>
      rw [hthreads, hhandles]
      exact h
  | started_directory hdir hthreads hhandles =>
      rw [hthreads, hhandles]
      exact h.spawn .directory hdir
  | started_both hdir hepoll hthreads hhandles =>
      rw [hthreads, hhandles]
      have hnone : Function.update c.handles .directory (some p.threads.length) .epoll = none := by
        rw [Function.update_of_ne Worker.noConfusion]
        exact hepoll
      have hboth := (h.spawn .directory hdir).spawn .epoll hnone
      have hlength : (spawn p.threads .directory).2.length = p.threads.length + 1 := by
        rw [spawn, List.length_append, List.length_singleton]
      rwa [hlength] at hboth

theorem Initialized.attached {o : Outcomes} {p p' : Process} {c c' : RealtimeCore} {e : Ending}
    (h : Attached p.threads) (hinit : Initialized o p c (some (e, p', c'))) :
    Attached p'.threads := by
  cases hinit with
  | started_none _ hthreads => exact hthreads ▸ h
  | started_directory _ hthreads => exact hthreads ▸ h.spawn .directory
  | started_both _ _ hthreads => exact hthreads ▸ (h.spawn .directory).spawn .epoll

/-- The epoll worker is started second. -/
theorem Initialized.second {o : Outcomes} {p p' : Process} {c c' : RealtimeCore} {e : Ending}
    (h : c.directoryTread = none → c.epollHandlerThread = none)
    (hinit : Initialized o p c (some (e, p', c'))) (hdir : c'.directoryTread = none) :
    c'.epollHandlerThread = none := by
  have hdir : c'.handles .directory = none := hdir
  cases hinit with
  | started_none _ _ hhandles =>
      rw [hhandles] at hdir
      exact (congrFun hhandles .epoll).trans (h hdir)
  | started_directory _ _ hhandles =>
      rw [hhandles, Function.update_self] at hdir
      exact absurd hdir nofun
  | started_both _ _ _ hhandles =>
      rw [hhandles, Function.update_of_ne Worker.noConfusion, Function.update_self] at hdir
      exact absurd hdir nofun

theorem Initialized.not_overwrites {o : Outcomes} {p : Process} {c : RealtimeCore}
    {x : Ending × Process × RealtimeCore} (hinit : Initialized o p c (some x)) :
    ¬ c.Overwrites o := by
  cases hinit with
  | started_none hnot => exact hnot
  | started_directory hdir => exact not_overwrites_of_none hdir
  | started_both hdir => exact not_overwrites_of_none hdir

theorem handles_none {c : RealtimeCore} (hdir : c.directoryTread = none)
    (hepoll : c.epollHandlerThread = none) : c.handles = fun _ => none := by
  funext r
  cases r with
  | directory => exact hdir
  | epoll => exact hepoll

/-- `Finalize` from outside leaves nothing that runs. -/
theorem Kept.joined {p : Process} {c : RealtimeCore} (h : c.Kept p) :
    Accounted (joinedThreads p c) (fun _ => none) ∧ Attached (joinedThreads p c) := by
  refine ⟨?_, (h.attached.joined _).joined _⟩
  have hjoined := (h.accounted.joined_handle .directory).joined_handle .epoll
  rw [Function.update_of_ne Worker.noConfusion] at hjoined
  refine (congrArg (Accounted (joinedThreads p c)) ?_).mp hjoined
  funext r
  cases r with
  | directory => rw [Function.update_of_ne Worker.noConfusion, Function.update_self]
  | epoll => rw [Function.update_self]

end RealtimeCore

/-! ### A core over its life -/

/-- The process with its core. -/
inductive CoreProgram
  | alive (p : Process) (c : RealtimeCore)
  | destroyed (p : Process)
  /-- `std::terminate` was called. -/
  | terminated

/-- What may happen next. The destructor is called from outside. -/
inductive CoreEvent
  | initializeWith (o : Outcomes)
  | finalize (caller : ThreadId)
  | workerEnds (i : Nat)
  | destroy
  deriving DecidableEq

def CoreEvent.fromOutside : CoreEvent → Bool
  | .finalize caller => caller = .outside
  | _ => true

/-- The caller of a method: a thread from outside, or one that runs. -/
def canCall (ts : List (Thread Worker)) : ThreadId → Bool
  | .outside => true
  | .thread i => ts[i]?.any Thread.running

namespace CoreProgram

def start : CoreProgram := .alive .start .new

def next : CoreProgram → CoreEvent → Option CoreProgram
  | .alive p c, .initializeWith o =>
      match c.initializeWith o p with
      | none => some .terminated
      | some (_, p, c) => some (.alive p c)
  | .alive p c, .finalize caller =>
      if canCall p.threads caller then
        some (.alive (c.finalize caller p).1 (c.finalize caller p).2)
      else none
  | .alive p c, .workerEnds i => some (.alive { p with threads := finish p.threads i } c)
  | .alive p c, .destroy =>
      match c.destroy .outside p with
      | none => some .terminated
      | some p => some (.destroyed p)
  | .destroyed _, _ => none
  | .terminated, _ => none

def Step (s : CoreProgram) (e : CoreEvent) (s' : CoreProgram) : Prop := s.next e = some s'

/-- The core when only threads from outside call its methods. -/
def nextOutside (s : CoreProgram) (e : CoreEvent) : Option CoreProgram :=
  if e.fromOutside then s.next e else none

def OutsideStep (s : CoreProgram) (e : CoreEvent) (s' : CoreProgram) : Prop :=
  s.nextOutside e = some s'

/-- What the process can do with its core at once. -/
inductive Does : CoreProgram → CoreEvent → CoreProgram → Prop
  | initialized {p p' : Process} {c c' : RealtimeCore} {o : Outcomes} {ending : Ending} :
      RealtimeCore.Initialized o p c (some (ending, p', c')) →
      Does (.alive p c) (.initializeWith o) (.alive p' c')
  | terminates {p : Process} {c : RealtimeCore} {o : Outcomes} :
      RealtimeCore.Initialized o p c none → Does (.alive p c) (.initializeWith o) .terminated
  | finalized {p : Process} {c : RealtimeCore} {caller : ThreadId} :
      canCall p.threads caller = true →
      Does (.alive p c) (.finalize caller)
        (.alive (c.finalize caller p).1 (c.finalize caller p).2)
  | workerEnds {p : Process} {c : RealtimeCore} (i : Nat) :
      Does (.alive p c) (.workerEnds i) (.alive { p with threads := finish p.threads i } c)
  | destroyed {p p' : Process} {c : RealtimeCore} :
      p'.threads = RealtimeCore.joinedThreads p c → Does (.alive p c) .destroy (.destroyed p')

theorem Step.does {s s' : CoreProgram} {e : CoreEvent} (h : Step s e s') : Does s e s' := by
  cases s with
  | destroyed p => simp [Step, next] at h
  | terminated => simp [Step, next] at h
  | alive p c =>
      cases e with
      | initializeWith o =>
          have hinit := c.initialized o p
          rw [Step, next] at h
          cases hresult : c.initializeWith o p with
          | none =>
              rw [hresult] at h hinit
              obtain rfl := Option.some.inj h
              exact .terminates hinit
          | some x =>
              rw [hresult] at h hinit
              obtain rfl := Option.some.inj h
              exact .initialized hinit
      | finalize caller =>
          rw [Step, next, Option.ite_none_right_eq_some] at h
          obtain ⟨hcan, h⟩ := h
          obtain rfl := Option.some.inj h
          exact .finalized hcan
      | workerEnds i =>
          obtain rfl := Option.some.inj h
          exact .workerEnds i
      | destroy =>
          rw [Step, next, c.destroy_outside p] at h
          obtain rfl := Option.some.inj h
          exact .destroyed rfl

theorem OutsideStep.step {s s' : CoreProgram} {e : CoreEvent} (h : OutsideStep s e s') :
    e.fromOutside = true ∧ Step s e s' :=
  Option.ite_none_right_eq_some.mp h

/-- No two workers of one kind run. -/
def OneOfEach (ts : List (Thread Worker)) : Prop :=
  ∀ (i j : Nat) (t t' : Thread Worker), ts[i]? = some t → ts[j]? = some t' →
    t.running = true → t'.running = true → t.role = t'.role → i = j

theorem oneOfEach {ts : List (Thread Worker)} {own : Worker → Handle} (h : Accounted ts own)
    (hattached : Attached ts) : OneOfEach ts := by
  intro i j t t' ht ht' hr hr' hrole
  have hi : own t.role = some i := h.owns_running hattached ht hr
  have hj : own t'.role = some j := h.owns_running hattached ht' hr'
  rw [hrole, hj, Option.some.injEq] at hi
  exact hi.symm

def isTerminated : CoreProgram → Bool
  | .terminated => true
  | _ => false

/-- `std::terminate` was not called, and no two workers of one kind run. -/
def Unharmed : CoreProgram → Prop
  | .alive p _ => OneOfEach p.threads
  | .destroyed p => OneOfEach p.threads
  | .terminated => False

/-- What calls from outside keep. The epoll worker is started second. -/
def Sound : CoreProgram → Prop
  | .alive p c => c.Kept p ∧ (c.directoryTread = none → c.epollHandlerThread = none)
  | .destroyed p => Accounted p.threads (fun _ => none) ∧ Attached p.threads
  | .terminated => True

theorem sound_start : Sound start := ⟨RealtimeCore.kept_new, fun _ => rfl⟩

/-- The event is an `Initialize` that overwrites a directory handle. -/
def Overwrites : CoreProgram → CoreEvent → Prop
  | .alive _ c, .initializeWith o => c.Overwrites o
  | _, _ => False

instance : (s : CoreProgram) → (e : CoreEvent) → Decidable (s.Overwrites e)
  | .alive _ _, .initializeWith _ => inferInstanceAs (Decidable ((_ ∧ _) ∧ _ ∧ _))
  | .alive _ _, .finalize _ | .alive _ _, .workerEnds _ | .alive _ _, .destroy
  | .destroyed _, _ | .terminated, _ => .isFalse id

/-- What a step from outside does to a sound program. -/
theorem Sound.step {s s' : CoreProgram} {e : CoreEvent} (h : Sound s) (hstep : OutsideStep s e s') :
    Sound s' ∧ (s' = .terminated ↔ s.Overwrites e) := by
  obtain ⟨hout, hstep⟩ := hstep.step
  cases hstep.does with
  | initialized hinit =>
      exact ⟨⟨⟨hinit.accounted h.1.accounted, hinit.attached h.1.attached⟩, hinit.second h.2⟩,
        iff_of_false CoreProgram.noConfusion hinit.not_overwrites⟩
  | terminates hinit =>
      refine ⟨trivial, iff_of_true rfl ?_⟩
      cases hinit with
      | overwritten_directory hoverwrites => exact hoverwrites
      | overwritten_epoll hdir hepoll =>
          rw [h.2 hdir] at hepoll
          exact absurd hepoll Bool.false_ne_true
  | @finalized p c caller _ =>
      obtain rfl : caller = .outside := of_decide_eq_true hout
      rw [c.finalize_outside p]
      refine ⟨⟨⟨?_, h.1.joined.2⟩, fun _ => rfl⟩, iff_of_false CoreProgram.noConfusion id⟩
      rw [RealtimeCore.handles_none rfl rfl]
      exact h.1.joined.1
  | workerEnds i =>
      exact ⟨⟨⟨h.1.accounted.finish i, h.1.attached.finish i⟩, h.2⟩,
        iff_of_false CoreProgram.noConfusion id⟩
  | destroyed hthreads =>
      refine ⟨?_, iff_of_false CoreProgram.noConfusion id⟩
      rw [Sound, hthreads]
      exact h.1.joined

/-- **When workers come to no harm.** In a sequence of calls from outside
`std::terminate` is never called, and there is never more than one directory and one epoll
worker running, if and only if no `Initialize` finds a directory worker, gets both
descriptors and another directory worker. -/
theorem workers_unharmed_iff (hist : List (CoreProgram × CoreEvent)) (s : CoreProgram)
    (h : Run OutsideStep start hist s) :
    (∀ t ∈ visited hist s, t.Unharmed) ↔ Meets (fun t e => ¬ t.Overwrites e) hist := by
  refine h.forall_visited_iff (I := Sound) (fun s e t hs hstep => (hs.step hstep).1)
    (fun s e t hs _ hstep => ?_) sound_start ?_
  · obtain ⟨ht, hterminated⟩ := hs.step hstep
    rw [← hterminated]
    cases t with
    | alive p c =>
        exact iff_of_true (oneOfEach ht.1.accounted ht.1.attached) CoreProgram.noConfusion
    | destroyed p => exact iff_of_true (oneOfEach ht.1 ht.2) CoreProgram.noConfusion
    | terminated => exact iff_of_false id (fun hne => hne rfl)
  · exact oneOfEach sound_start.1.accounted sound_start.1.attached

/-- A session, a second one that fails at the second thread, and the end. -/
def twoSessions : List CoreEvent :=
  [.initializeWith ⟨.succeeds, 3, 4, false, false⟩, .finalize .outside,
   .initializeWith ⟨.succeeds, 3, 4, false, true⟩, .destroy]

theorem workers_unharmed_twoSessions :
    ∃ hist s, exec nextOutside start twoSessions = some (hist, s) ∧
      Meets (fun t e => ¬ t.Overwrites e) hist ∧ ∀ t ∈ visited hist s, t.Unharmed := by
  have hchecked : (exec nextOutside start twoSessions).any fun x =>
      decide (Meets (fun t e => ¬ CoreProgram.Overwrites t e) x.1) := by
    decide
  obtain ⟨⟨hist, s⟩, hexec, hmeets⟩ := (Option.any_eq_true _ _).mp hchecked
  have hmeets := of_decide_eq_true hmeets
  exact ⟨hist, s, hexec, hmeets, (workers_unharmed_iff hist s (run_of_exec hexec)).mpr hmeets⟩

/-- A second `Initialize` ends the process. -/
theorem second_initialize_terminates :
    ¬ ∀ (hist : List (CoreProgram × CoreEvent)) (s : CoreProgram), Run OutsideStep start hist s →
      ∀ t ∈ visited hist s, t.Unharmed := by
  intro h
  have hpossible : (exec nextOutside start
      [.initializeWith ⟨.succeeds, 3, 4, false, false⟩,
        .initializeWith ⟨.succeeds, 5, 6, false, false⟩]).map (fun x => x.2.isTerminated) =
      some true := by
    decide
  obtain ⟨⟨hist, s⟩, hexec, hs⟩ := Option.map_eq_some_iff.mp hpossible
  have hunharmed := h hist s (run_of_exec hexec) s (mem_visited_last hist s)
  cases s with
  | alive p c => exact absurd hs Bool.false_ne_true
  | destroyed p => exact absurd hs Bool.false_ne_true
  | terminated => exact hunharmed

end CoreProgram

end InotifyRealtime
