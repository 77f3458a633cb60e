import InotifyRealtime.Foundation.Components
import InotifyRealtime.DirectoryThread
import InotifyRealtime.EpollHandler
import InotifyRealtime.LifecycleSound
/-!
# InotifyRealtime.Watchers

Any number of watchers in one process, each with its own caller and its own two
workers, taking their steps in any order.

`Lifecycle` runs a call of `Initialize` or `Finalize` in one piece. Here another
watcher can get in between: `Pc` names the places of such a call where it reads or
writes something that belongs to the process. That is the flag `stopped_`, the
watch manager and the table of open descriptors, the `Commons`. Each step does one
thing to them at most, its `Change`; the rest of a step is the watcher's own.

`inotify_init` makes a new inotify instance, and the descriptor stands for it until
it is closed. `inotify_add_watch` adds to the instance its descriptor stands for
when it is called. What was added to which instance, and by whom, is remembered.
-/

namespace InotifyRealtime

open Machine

/-- What an open descriptor stands for. -/
inductive File
  | inotify (inst : Nat)
  | epoll
  deriving DecidableEq

/-- A watch on an instance, with the path it was added for and the watcher whose
walk added it. -/
structure Added (ι : Type*) where
  inst : Nat
  watchFd : Int
  targetPath : Path
  watcher : ι

/-- What the watchers of a process share. -/
structure Commons (ι : Type*) where
  stopped : Bool
  mgr : InotifyWatchMgr
  files : Int → Option File
  instances : Nat
  adds : List (Added ι)

/-- What one step does to it. -/
inductive Change
  | nothing
  | setStopped (value : Bool)
  | registers (inotifyFd : Int)
  | opensInotify (fd : Int)
  | opensEpoll (fd : Int)
  | closes (fd : Int)
  | addsWatch (watchFd : Int) (targetPath : Path)
  | stores (watchFd : Int) (targetPath : Path)
  deriving DecidableEq

/-- `close`, when the descriptor is one. -/
def Change.closeFd (fd : Int) : Change := if -1 ≠ fd then .closes fd else .nothing

namespace Commons

variable {ι : Type*}

/-- The instance `inotify_add_watch` adds to when the watch manager calls it. -/
def watched (s : Commons ι) : Option Nat :=
  match s.files s.mgr.inotifyFd with
  | some (.inotify inst) => some inst
  | _ => none

/-- After a change that is the doing of watcher `i`. -/
def after (s : Commons ι) (i : ι) : Change → Commons ι
  | .nothing => s
  | .setStopped value => { s with stopped := value }
  | .registers fd => { s with mgr := (s.mgr.initializeWith fd).2 }
  | .opensInotify fd =>
      { s with
        files := Function.update s.files fd (some (.inotify s.instances))
        instances := s.instances + 1 }
  | .opensEpoll fd => { s with files := Function.update s.files fd (some .epoll) }
  | .closes fd => { s with files := Function.update s.files fd none }
  | .addsWatch watchFd targetPath =>
      { s with adds := s.adds ++ s.watched.toList.map (⟨·, watchFd, targetPath, i⟩) }
  | .stores watchFd targetPath => { s with mgr := s.mgr.addList watchFd targetPath }

/-- The descriptors a change opens are free before it. -/
def Lawful (s : Commons ι) : Change → Prop
  | .opensInotify fd | .opensEpoll fd => s.files fd = none
  | _ => True

/-- A directory thread sees the flag as it is, and is answered a watch only where
there is an instance to add it to. -/
def AllowsDirectory (s : Commons ι) : DirectoryThread.Answer → Prop
  | .stopped value => value = s.stopped
  | .addWatch watchFd => 0 ≤ watchFd → s.watched.isSome
  | _ => True

instance (s : Commons ι) : (a : DirectoryThread.Answer) → Decidable (s.AllowsDirectory a)
  | .stopped value => inferInstanceAs (Decidable (value = s.stopped))
  | .addWatch watchFd => inferInstanceAs (Decidable (0 ≤ watchFd → s.watched.isSome))
  | .reports _ _ | .ends | .realpath _ | .addList => .isTrue trivial

/-- An event thread sees the flag and the map as they are. -/
def AllowsEpoll (s : Commons ι) (t : EpollHandler.Thread) : EpollHandler.Answer → Prop
  | .stopped value => value = s.stopped
  | .parse path _ _ => ∀ event ∈ t.inotifyEventBuffer.head?, path = s.mgr.getPath event.wd
  | _ => True

instance (s : Commons ι) (t : EpollHandler.Thread) :
    (a : EpollHandler.Answer) → Decidable (s.AllowsEpoll t a)
  | .stopped value => inferInstanceAs (Decidable (value = s.stopped))
  | .parse path _ _ => inferInstanceAs
      (Decidable (∀ event ∈ t.inotifyEventBuffer.head?, path = s.mgr.getPath event.wd))
  | .epollCtl _ | .epollWait _ _ | .readError _ | .readBytes _ _ => .isTrue trivial

end Commons

namespace Watcher

/-- Whose `Finalize` it is. That of the interface calls that of the core, the core's
destructor calls it again, and after it comes the destructor of the handler. -/
inductive Round
  | interface
  | core
  | handler
  deriving DecidableEq

/-- What the caller of a watcher is about to do. -/
inductive Pc
  /-- Outside all calls, and there is no core. -/
  | idle
  /-- `inotify_init()`. -/
  | inotifyInit
  /-- `InotifyWatchMgr::GetInstance().Initialize(inotify_fd)`. -/
  | register (inotifyFd : Int)
  /-- `epoll_create1(0)`. -/
  | epollCreate1
  /-- `stopped_ = false`. -/
  | clearStopped
  /-- The scope exit of the epoll descriptor. -/
  | leaveEpoll
  /-- The scope exit of the inotify descriptor, on the way to return `result`. -/
  | leaveInotify (result : Bool)
  /-- `StartDirectorySearchThread`. -/
  | startDirectory
  /-- `StartEpollThread`. -/
  | startEpoll
  /-- Outside all calls, and `Initialize` has succeeded. -/
  | up
  /-- `stopped_ = true`. -/
  | setStopped (round : Round)
  /-- `close(inotify_fd_)`. -/
  | closeInotify (round : Round)
  /-- `close(epoll_fd_)`. -/
  | closeEpoll (round : Round)
  /-- `StopDirectorySearchThread`. -/
  | joinDirectory (round : Round)
  /-- `StopEpollThread`. -/
  | joinEpoll (round : Round)
  deriving DecidableEq

/-- The round after a core's `Finalize`. -/
def Round.next : Round → Round
  | .interface => .core
  | .core | .handler => .handler

end Watcher

/-- A `RealtimeInterface` with all it owns. The last two fields are history: the
instance its `inotify_init` made, and the paths its walk stored in this session. -/
structure Watcher where
  pc : Watcher.Pc
  detectList : List Path
  inotifyEventHandler : InotifyEventHandler
  directory : Option DirectoryThread.Thread
  epoll : Option EpollHandler.Thread
  inst : Nat
  stored : List (Int × Path)

namespace Watcher

/-- A watcher on which `Initialize` has not been called. -/
def new (detectList : List Path) : Watcher := ⟨.idle, detectList, .new, none, none, 0, []⟩

/-- The calls, what the world answers inside them, and the turns of the workers. -/
inductive Action
  | initializeWith (allocation : Allocation)
  | finalize
  | inotifyInit (rc : Int)
  | epollCreate1 (rc : Int)
  | startDirectory (throws : Bool)
  | startEpoll (throws : Bool) (errno : Errno)
  /-- The caller goes on where there is nothing to answer. -/
  | proceed
  | directory (a : DirectoryThread.Answer)
  | epoll (a : EpollHandler.Answer)
  deriving DecidableEq

variable {ι : Type*}

/-- A scope exit of `Initialize`: close when `stopped_` is set. -/
def scopeExit (s : Commons ι) (fd : Int) : Change :=
  if s.stopped then .closeFd fd else .nothing

def afterInotifyInit (s : Commons ι) (x : Watcher) (rc : Int) : Option (Change × Watcher) :=
  if rc < 0 then some (.nothing, { x with pc := .setStopped .core })
  else if s.files rc = none then
    some (.opensInotify rc, { x with pc := .register rc, inst := s.instances })
  else none

/-- The watch manager has taken the descriptor and says whether it is one. -/
def afterRegister (s : Commons ι) (x : Watcher) (fd : Int) : Watcher :=
  if (s.mgr.initializeWith fd).1 then
    { x with
      pc := .epollCreate1
      inotifyEventHandler := { x.inotifyEventHandler with inotifyFd := fd } }
  else { x with pc := .setStopped .core }

def afterEpollCreate1 (s : Commons ι) (x : Watcher) (rc : Int) : Option (Change × Watcher) :=
  if rc < 0 then some (.nothing, { x with pc := .leaveInotify false })
  else if s.files rc = none then
    some (.opensEpoll rc, { x with
      pc := .clearStopped
      inotifyEventHandler := { x.inotifyEventHandler with epollFd := rc } })
  else none

/-- The caller takes a step. A failed `Initialize` resets the core, whose destructor
finalizes it. -/
def callerStep (s : Commons ι) (x : Watcher) (a : Action) : Option (Change × Watcher) :=
  match x.pc, a with
  -- a new core, with new thread handles and a new handler
  | .idle, .initializeWith .succeeds =>
      some (.nothing, { Watcher.new x.detectList with pc := .inotifyInit })
  | .idle, .initializeWith .throws => some (.nothing, x)
  | .idle, .initializeWith .controlBlockThrows =>
      some (.nothing, { Watcher.new x.detectList with pc := .setStopped .core })
  | .idle, .finalize => some (.nothing, x)
  | .up, .initializeWith _ => some (.nothing, x)
  | .up, .finalize => some (.nothing, { x with pc := .setStopped .interface })
  | .inotifyInit, .inotifyInit rc => afterInotifyInit s x rc
  | .register fd, .proceed => some (.registers fd, afterRegister s x fd)
  | .epollCreate1, .epollCreate1 rc => afterEpollCreate1 s x rc
  | .clearStopped, .proceed => some (.setStopped false, { x with pc := .leaveEpoll })
  | .leaveEpoll, .proceed =>
      some (scopeExit s x.inotifyEventHandler.epollFd, { x with pc := .leaveInotify true })
  | .leaveInotify result, .proceed =>
      some (scopeExit s x.inotifyEventHandler.inotifyFd,
        { x with pc := if result then .startDirectory else .setStopped .core })
  | .startDirectory, .startDirectory throws =>
      some (.nothing, if throws then { x with pc := .setStopped .core }
        else { x with pc := .startEpoll, directory := some (.start x.detectList) })
  | .startEpoll, .startEpoll throws errno =>
      some (.nothing, if throws then { x with pc := .setStopped .core }
        else { x with pc := .up, epoll := some (.start errno) })
  | .setStopped round, .proceed => some (.setStopped true, { x with pc := .closeInotify round })
  | .closeInotify round, .proceed =>
      some (.closeFd x.inotifyEventHandler.inotifyFd, { x with pc := .closeEpoll round })
  | .closeEpoll round, .proceed =>
      some (.closeFd x.inotifyEventHandler.epollFd,
        { x with pc := if round = .handler then .idle else .joinDirectory round })
  | .joinDirectory round, .proceed =>
      if x.directory.all fun t => t.pc = .returned then
        some (.nothing, { x with pc := .joinEpoll round, directory := none })
      else none
  | .joinEpoll round, .proceed =>
      if x.epoll.all fun t => t.pc matches .returned _ then
        some (.nothing, { x with pc := .setStopped round.next, epoll := none })
      else none
  | _, _ => none

/-- What a step of the directory thread does to what is shared. -/
def directoryChange (t : DirectoryThread.Thread) (a : DirectoryThread.Answer) : Change :=
  match t.pc, a with
  | .addWatch targetPath, .addWatch watchFd =>
      if watchFd < 0 then .nothing else .addsWatch watchFd targetPath
  | .addList watchFd targetPath, .addList => .stores watchFd targetPath
  | _, _ => .nothing

/-- The paths the walk has stored after a step of the directory thread. -/
def storedAfter (x : Watcher) (t : DirectoryThread.Thread) (a : DirectoryThread.Answer) :
    List (Int × Path) :=
  match t.pc, a with
  | .addList watchFd targetPath, .addList => x.stored ++ [(watchFd, targetPath)]
  | _, _ => x.stored

def directoryStep (s : Commons ι) (x : Watcher) (a : DirectoryThread.Answer) :
    Option (Change × Watcher) :=
  x.directory.bind fun t =>
    if s.AllowsDirectory a then
      (DirectoryThread.step t a).map fun t' =>
        (directoryChange t a, { x with directory := some t', stored := x.storedAfter t a })
    else none

def epollStep (s : Commons ι) (x : Watcher) (a : EpollHandler.Answer) :
    Option (Change × Watcher) :=
  x.epoll.bind fun t =>
    if s.AllowsEpoll t a then
      (EpollHandler.step t a).map fun t' => (.nothing, { x with epoll := some t' })
    else none

/-- One step of a watcher: what it changes, and the watcher after it. -/
def step (s : Commons ι) (x : Watcher) : Action → Option (Change × Watcher)
  | .directory a => directoryStep s x a
  | .epoll a => epollStep s x a
  | a => callerStep s x a

/-! ### What a step can do -/

/-- Outside all calls without a core, or in a `Finalize`. -/
def Pc.outside : Pc → Bool
  | .idle | .setStopped _ | .closeInotify _ | .closeEpoll _ | .joinDirectory _
  | .joinEpoll _ => true
  | _ => false

/-- The steps of a caller: those of a session on its way up, one constructor each,
and those that lead out of it or stay outside. -/
inductive Calls (s : Commons ι) (x : Watcher) : Action → Change → Watcher → Prop
  | begins :
      x.pc = .idle →
      Calls s x (.initializeWith .succeeds) .nothing
        { Watcher.new x.detectList with pc := .inotifyInit }
  | opened {fd : Int} :
      x.pc = .inotifyInit → s.files fd = none →
      Calls s x (.inotifyInit fd) (.opensInotify fd)
        { x with pc := .register fd, inst := s.instances }
  | registered {fd : Int} :
      x.pc = .register fd →
      Calls s x .proceed (.registers fd)
        { x with
          pc := .epollCreate1
          inotifyEventHandler := { x.inotifyEventHandler with inotifyFd := fd } }
  | epollFailed {rc : Int} :
      x.pc = .epollCreate1 →
      Calls s x (.epollCreate1 rc) .nothing { x with pc := .leaveInotify false }
  | created {fd : Int} :
      x.pc = .epollCreate1 → s.files fd = none →
      Calls s x (.epollCreate1 fd) (.opensEpoll fd)
        { x with
          pc := .clearStopped
          inotifyEventHandler := { x.inotifyEventHandler with epollFd := fd } }
  | cleared :
      x.pc = .clearStopped → Calls s x .proceed (.setStopped false) { x with pc := .leaveEpoll }
  | leftEpoll :
      x.pc = .leaveEpoll →
      Calls s x .proceed (scopeExit s x.inotifyEventHandler.epollFd)
        { x with pc := .leaveInotify true }
  | leftInotify :
      x.pc = .leaveInotify true →
      Calls s x .proceed (scopeExit s x.inotifyEventHandler.inotifyFd)
        { x with pc := .startDirectory }
  | startedDirectory :
      x.pc = .startDirectory →
      Calls s x (.startDirectory false) .nothing
        { x with pc := .startEpoll, directory := some (.start x.detectList) }
  | startedEpoll {errno : Errno} :
      x.pc = .startEpoll →
      Calls s x (.startEpoll false errno) .nothing
        { x with pc := .up, epoll := some (.start errno) }
  | stays {allocation : Allocation} :
      x.pc = .up → Calls s x (.initializeWith allocation) .nothing x
  | outside {a : Action} {change : Change} {x' : Watcher} :
      x'.pc.outside → s.Lawful change → Calls s x a change x'

theorem lawful_closeFd (s : Commons ι) (fd : Int) : s.Lawful (.closeFd fd) := by
  unfold Change.closeFd
  split <;> trivial

theorem lawful_scopeExit (s : Commons ι) (fd : Int) : s.Lawful (scopeExit s fd) := by
  unfold scopeExit
  split
  · exact lawful_closeFd s fd
  · trivial

theorem afterInotifyInit_cases {s : Commons ι} {x x' : Watcher} {rc : Int} {change : Change}
    (hpc : x.pc = .inotifyInit) (h : afterInotifyInit s x rc = some (change, x')) :
    Calls s x (.inotifyInit rc) change x' := by
  unfold afterInotifyInit at h
  by_cases hneg : rc < 0
  · rw [if_pos hneg] at h
    obtain ⟨rfl, rfl⟩ := Prod.mk.inj (Option.some.inj h)
    exact .outside rfl trivial
  · rw [if_neg hneg, Option.ite_none_right_eq_some] at h
    obtain ⟨hfree, h⟩ := h
    obtain ⟨rfl, rfl⟩ := Prod.mk.inj (Option.some.inj h)
    exact .opened hpc hfree

theorem afterRegister_calls (s : Commons ι) {x : Watcher} {fd : Int} (hpc : x.pc = .register fd) :
    Calls s x .proceed (.registers fd) (afterRegister s x fd) := by
  unfold afterRegister
  split
  · exact .registered hpc
  · exact .outside rfl trivial

theorem afterEpollCreate1_cases {s : Commons ι} {x x' : Watcher} {rc : Int} {change : Change}
    (hpc : x.pc = .epollCreate1) (h : afterEpollCreate1 s x rc = some (change, x')) :
    Calls s x (.epollCreate1 rc) change x' := by
  unfold afterEpollCreate1 at h
  by_cases hneg : rc < 0
  · rw [if_pos hneg] at h
    obtain ⟨rfl, rfl⟩ := Prod.mk.inj (Option.some.inj h)
    exact .epollFailed hpc
  · rw [if_neg hneg, Option.ite_none_right_eq_some] at h
    obtain ⟨hfree, h⟩ := h
    obtain ⟨rfl, rfl⟩ := Prod.mk.inj (Option.some.inj h)
    exact .created hpc hfree

theorem callerStep_cases {s : Commons ι} {x x' : Watcher} {a : Action} {change : Change}
    (h : callerStep s x a = some (change, x')) : Calls s x a change x' := by
  unfold callerStep at h
  split at h
  case h_7 hpc => exact afterInotifyInit_cases hpc h
  case h_9 hpc => exact afterEpollCreate1_cases hpc h
  case h_18 round hpc =>
    obtain ⟨-, h⟩ := Option.ite_none_right_eq_some.mp h
    obtain ⟨rfl, rfl⟩ := Prod.mk.inj (Option.some.inj h)
    exact .outside rfl trivial
  case h_19 round hpc =>
    obtain ⟨-, h⟩ := Option.ite_none_right_eq_some.mp h
    obtain ⟨rfl, rfl⟩ := Prod.mk.inj (Option.some.inj h)
    exact .outside rfl trivial
  case h_20 => exact absurd h.symm (Option.some_ne_none _)
  all_goals obtain ⟨rfl, rfl⟩ := Prod.mk.inj (Option.some.inj h)
  case h_1 hpc => exact .begins hpc
  case h_2 hpc => exact .outside (by rw [hpc]; rfl) trivial
  case h_3 => exact .outside rfl trivial
  case h_4 hpc => exact .outside (by rw [hpc]; rfl) trivial
  case h_5 hpc => exact .stays hpc
  case h_6 => exact .outside rfl trivial
  case h_8 hpc => exact afterRegister_calls s hpc
  case h_10 hpc => exact .cleared hpc
  case h_11 hpc => exact .leftEpoll hpc
  case h_12 result hpc =>
    cases result with
    | true => exact .leftInotify hpc
    | false => exact .outside rfl (lawful_scopeExit s _)
  case h_13 throws hpc =>
    cases throws with
    | true => exact .outside rfl trivial
    | false => exact .startedDirectory hpc
  case h_14 throws errno hpc =>
    cases throws with
    | true => exact .outside rfl trivial
    | false => exact .startedEpoll hpc
  case h_15 => exact .outside rfl trivial
  case h_16 => exact .outside rfl (lawful_closeFd s _)
  case h_17 round _ =>
    refine .outside ?_ (lawful_closeFd s _)
    cases round <;> rfl

/-- The steps of a watcher, by whose turn it is. -/
inductive Does (s : Commons ι) (x : Watcher) : Action → Change → Watcher → Prop
  | caller {a : Action} {change : Change} {x' : Watcher} :
      Calls s x a change x' → Does s x a change x'
  | directory {t t' : DirectoryThread.Thread} {a : DirectoryThread.Answer} :
      x.directory = some t → s.AllowsDirectory a → DirectoryThread.Step t a t' →
      Does s x (.directory a) (directoryChange t a)
        { x with directory := some t', stored := x.storedAfter t a }
  | epoll {t t' : EpollHandler.Thread} {a : EpollHandler.Answer} :
      x.epoll = some t → s.AllowsEpoll t a → EpollHandler.Step t a t' →
      Does s x (.epoll a) .nothing { x with epoll := some t' }

theorem lawful_directoryChange (s : Commons ι) (t : DirectoryThread.Thread)
    (a : DirectoryThread.Answer) : s.Lawful (directoryChange t a) := by
  unfold directoryChange
  split
  · split
    · trivial
    · trivial
  · trivial
  · trivial

theorem Calls.lawful {s : Commons ι} {x x' : Watcher} {a : Action} {change : Change}
    (h : Calls s x a change x') : s.Lawful change := by
  cases h with
  | opened _ hfree => exact hfree
  | created _ hfree => exact hfree
  | leftEpoll _ => exact lawful_scopeExit s _
  | leftInotify _ => exact lawful_scopeExit s _
  | outside _ hlawful => exact hlawful
  | _ => trivial

theorem Does.lawful {s : Commons ι} {x x' : Watcher} {a : Action} {change : Change}
    (h : Does s x a change x') : s.Lawful change := by
  cases h with
  | caller hcalls => exact hcalls.lawful
  | directory _ _ _ => exact lawful_directoryChange s _ _
  | epoll _ _ _ => trivial

theorem directoryStep_cases {s : Commons ι} {x x' : Watcher} {a : DirectoryThread.Answer}
    {change : Change} (h : directoryStep s x a = some (change, x')) :
    ∃ t t', x.directory = some t ∧ s.AllowsDirectory a ∧ DirectoryThread.Step t a t' ∧
      change = directoryChange t a ∧
      x' = { x with directory := some t', stored := x.storedAfter t a } := by
  obtain ⟨t, ht, h⟩ := Option.bind_eq_some_iff.mp h
  obtain ⟨hallow, h⟩ := Option.ite_none_right_eq_some.mp h
  obtain ⟨t', ht', h⟩ := Option.map_eq_some_iff.mp h
  obtain ⟨rfl, rfl⟩ := Prod.mk.inj h
  exact ⟨t, t', ht, hallow, DirectoryThread.step_cases ht', rfl, rfl⟩

theorem epollStep_cases {s : Commons ι} {x x' : Watcher} {a : EpollHandler.Answer}
    {change : Change} (h : epollStep s x a = some (change, x')) :
    ∃ t t', x.epoll = some t ∧ s.AllowsEpoll t a ∧ EpollHandler.Step t a t' ∧
      change = .nothing ∧ x' = { x with epoll := some t' } := by
  obtain ⟨t, ht, h⟩ := Option.bind_eq_some_iff.mp h
  obtain ⟨hallow, h⟩ := Option.ite_none_right_eq_some.mp h
  obtain ⟨t', ht', h⟩ := Option.map_eq_some_iff.mp h
  obtain ⟨rfl, rfl⟩ := Prod.mk.inj h
  exact ⟨t, t', ht, hallow, EpollHandler.step_cases ht', rfl, rfl⟩

theorem step_cases {s : Commons ι} {x x' : Watcher} {a : Action} {change : Change}
    (h : step s x a = some (change, x')) : Does s x a change x' := by
  unfold step at h
  split at h
  · obtain ⟨t, t', ht, hallow, hstep, rfl, rfl⟩ := directoryStep_cases h
    exact .directory ht hallow hstep
  · obtain ⟨t, t', ht, hallow, hstep, rfl, rfl⟩ := epollStep_cases h
    exact .epoll ht hallow hstep
  · exact .caller (callerStep_cases h)

end Watcher

/-- The watchers of a process. -/
abbrev Watchers (ι : Type*) := Composed ι (Commons ι) Watcher

namespace Watchers

variable {ι : Type*}

/-- The process before any of the watchers is initialized. -/
def start (detectLists : ι → List Path) : Watchers ι :=
  ⟨⟨false, .new, fun _ => none, 0, []⟩, fun i => .new (detectLists i)⟩

/-- A step of watcher `i`. -/
def stepOf (i : ι) (s : Commons ι) (x : Watcher) (a : Watcher.Action) :
    Option (Commons ι × Watcher) :=
  (Watcher.step s x a).map fun (change, x) => (s.after i change, x)

theorem stepOf_cases {i : ι} {s s' : Commons ι} {x x' : Watcher} {a : Watcher.Action}
    (h : stepOf i s x a = some (s', x')) :
    ∃ c, Watcher.step s x a = some (c, x') ∧ s' = s.after i c := by
  obtain ⟨⟨c, y⟩, hstep, heq⟩ := Option.map_eq_some_iff.mp h
  obtain ⟨hs, rfl⟩ := Prod.mk.inj heq
  exact ⟨c, hstep, hs.symm⟩

/-- What a step changes. -/
def changeOf (s : Watchers ι) (x : ι × Watcher.Action) : Change :=
  ((Watcher.step s.shared (s.parts x.1) x.2).map Prod.fst).getD .nothing

theorem changeOf_eq {s : Watchers ι} {i : ι} {a : Watcher.Action} {c : Change} {x : Watcher}
    (h : Watcher.step s.shared (s.parts i) a = some (c, x)) : changeOf s (i, a) = c := by
  rw [changeOf, h]
  rfl

section

variable [DecidableEq ι]

def next : Watchers ι → ι × Watcher.Action → Option (Watchers ι) := Composed.next stepOf

def Step : Watchers ι → ι × Watcher.Action → Watchers ι → Prop := Composed.Step stepOf

end

/-! ### A call no other watcher gets into -/

/-- The steps of watcher `i` while nobody else takes any. -/
def Alone (i : ι) (s : Commons ι × Watcher) (a : Watcher.Action) (s' : Commons ι × Watcher) :
    Prop :=
  stepOf i s.1 s.2 a = some s'

/-- The process and the watcher are as the handler's `Initialize` leaves them. -/
def AgreesWith (r : Bool × Process × InotifyEventHandler) (s : Commons ι × Watcher) : Prop :=
  s.1.stopped = r.2.1.stopped ∧ s.1.mgr = r.2.1.mgr ∧ s.2.inotifyEventHandler = r.2.2 ∧
    s.2.pc = if r.1 then .startDirectory else .setStopped .core

theorem alone_of_callerStep (i : ι) {s : Commons ι} {x x' : Watcher} {a : Watcher.Action}
    {c : Change} (hstep : Watcher.step s x a = Watcher.callerStep s x a)
    (h : Watcher.callerStep s x a = some (c, x')) :
    Alone i (s, x) a (s.after i c, x') := by
  rw [Alone, stepOf, hstep, h]
  rfl

theorem afterInotifyInit_of_free {s : Commons ι} (x : Watcher) {fd : Int} (hfd : 0 ≤ fd)
    (hfree : s.files fd = none) :
    Watcher.afterInotifyInit s x fd =
      some (.opensInotify fd, { x with pc := .register fd, inst := s.instances }) := by
  rw [Watcher.afterInotifyInit, if_neg (Int.not_lt.mpr hfd), if_pos hfree]

theorem afterEpollCreate1_of_free {s : Commons ι} (x : Watcher) {fd : Int} (hfd : 0 ≤ fd)
    (hfree : s.files fd = none) :
    Watcher.afterEpollCreate1 s x fd = some (.opensEpoll fd, { x with
      pc := .clearStopped
      inotifyEventHandler := { x.inotifyEventHandler with epollFd := fd } }) := by
  rw [Watcher.afterEpollCreate1, if_neg (Int.not_lt.mpr hfd), if_pos hfree]

theorem afterRegister_of_pos (s : Commons ι) (x : Watcher) {fd : Int} (hfd : 0 < fd) :
    Watcher.afterRegister s x fd = { x with
      pc := .epollCreate1
      inotifyEventHandler := { x.inotifyEventHandler with inotifyFd := fd } } := by
  have hsucceeds : (s.mgr.initializeWith fd).1 = true := decide_eq_true (by omega)
  rw [Watcher.afterRegister, if_pos hsucceeds]

/-- A scope exit does not touch what the threads look at. -/
theorem after_scopeExit (i : ι) (s : Commons ι) (fd : Int) :
    (s.after i (Watcher.scopeExit s fd)).stopped = s.stopped ∧
      (s.after i (Watcher.scopeExit s fd)).mgr = s.mgr := by
  unfold Watcher.scopeExit Change.closeFd
  by_cases hstopped : s.stopped
  · rw [if_pos hstopped]
    split
    · exact ⟨rfl, rfl⟩
    · exact ⟨rfl, rfl⟩
  · rw [if_neg hstopped]
    exact ⟨rfl, rfl⟩

/-- From `inotify_init` to `epoll_create1`. -/
theorem reaches_epollCreate1 (i : ι) {s : Commons ι} {x : Watcher} {fd : Int}
    (hpc : x.pc = .inotifyInit) (hfd : 0 < fd) (hfree : s.files fd = none)
    {t : Commons ι × Watcher}
    (h : Reaches (Alone i)
      ((s.after i (.opensInotify fd)).after i (.registers fd), { x with
        pc := .epollCreate1
        inst := s.instances
        inotifyEventHandler := { x.inotifyEventHandler with inotifyFd := fd } }) t) :
    Reaches (Alone i) (s, x) t := by
  obtain ⟨hist, h⟩ := h
  have hopens : Alone i (s, x) (.inotifyInit fd)
      (s.after i (.opensInotify fd), { x with pc := .register fd, inst := s.instances }) := by
    refine alone_of_callerStep i rfl ?_
    simp only [Watcher.callerStep, hpc]
    exact afterInotifyInit_of_free x hfd.le hfree
  have hregisters := alone_of_callerStep (a := .proceed) i rfl
    (s := s.after i (.opensInotify fd)) (x := { x with pc := .register fd, inst := s.instances })
    rfl
  rw [afterRegister_of_pos _ _ hfd] at hregisters
  exact ⟨_, .cons hopens (.cons hregisters h)⟩

/-- From `epoll_create1` on, when it fails: the scope exit of the inotify descriptor. -/
theorem reaches_of_epoll_neg (i : ι) (s : Commons ι) {x : Watcher} {rc : Int}
    (hpc : x.pc = .epollCreate1) (hrc : rc < 0) :
    Reaches (Alone i) (s, x)
      (s.after i (Watcher.scopeExit s x.inotifyEventHandler.inotifyFd),
        { x with pc := .setStopped .core }) := by
  have hfails : Alone i (s, x) (.epollCreate1 rc) (s, { x with pc := .leaveInotify false }) := by
    refine alone_of_callerStep i (c := .nothing) rfl ?_
    simp only [Watcher.callerStep, hpc, Watcher.afterEpollCreate1, if_pos hrc]
  have hleaves := alone_of_callerStep (a := .proceed) i rfl (s := s)
    (x := { x with pc := .leaveInotify false }) rfl
  exact ⟨_, .cons hfails (.cons hleaves (.nil _))⟩

/-- The flag has just been cleared, so neither scope exit closes. -/
theorem reaches_startDirectory (i : ι) {s : Commons ι} {x : Watcher} (hpc : x.pc = .leaveEpoll)
    (hstopped : s.stopped = false) :
    Reaches (Alone i) (s, x) (s, { x with pc := .startDirectory }) := by
  have hscope (fd : Int) : Watcher.scopeExit s fd = .nothing := by
    rw [Watcher.scopeExit, hstopped]
    rfl
  have hepoll : Alone i (s, x) .proceed (s, { x with pc := .leaveInotify true }) := by
    refine alone_of_callerStep i (c := .nothing) rfl ?_
    simp only [Watcher.callerStep, hpc, hscope]
  have hinotify : Alone i (s, { x with pc := .leaveInotify true }) .proceed
      (s, { x with pc := .startDirectory }) := by
    refine alone_of_callerStep i (c := .nothing) rfl ?_
    simp only [Watcher.callerStep, hscope, if_true]
  exact ⟨_, .cons hepoll (.cons hinotify (.nil _))⟩

/-- From `epoll_create1` on, when it succeeds. -/
theorem reaches_of_epoll_pos (i : ι) {s : Commons ι} {x : Watcher} {fd : Int}
    (hpc : x.pc = .epollCreate1) (hfd : 0 ≤ fd) (hfree : s.files fd = none) :
    Reaches (Alone i) (s, x)
      ((s.after i (.opensEpoll fd)).after i (.setStopped false), { x with
        pc := .startDirectory
        inotifyEventHandler := { x.inotifyEventHandler with epollFd := fd } }) := by
  have hopens : Alone i (s, x) (.epollCreate1 fd) (s.after i (.opensEpoll fd), { x with
      pc := .clearStopped
      inotifyEventHandler := { x.inotifyEventHandler with epollFd := fd } }) := by
    refine alone_of_callerStep i rfl ?_
    simp only [Watcher.callerStep, hpc]
    exact afterEpollCreate1_of_free x hfd hfree
  have hclears := alone_of_callerStep (a := .proceed) i rfl (s := s.after i (.opensEpoll fd))
    (x := { x with
      pc := .clearStopped
      inotifyEventHandler := { x.inotifyEventHandler with epollFd := fd } }) rfl
  obtain ⟨hist, hleaves⟩ := reaches_startDirectory i (x := { x with
      pc := .leaveEpoll
      inotifyEventHandler := { x.inotifyEventHandler with epollFd := fd } }) rfl
    (s := (s.after i (.opensEpoll fd)).after i (.setStopped false)) rfl
  exact ⟨_, .cons hopens (.cons hclears hleaves)⟩

/-- **The steps are those of the method.** When nobody gets in between and the kernel
answers free descriptors, a caller that enters `InotifyEventHandler::Initialize`
leaves the flag, the watch manager and the handler as the method does. -/
theorem initialize_alone (i : ι) (o : Outcomes) (p : Process) (s : Commons ι) (x : Watcher)
    (hpc : x.pc = .inotifyInit) (hstopped : s.stopped = p.stopped) (hmgr : s.mgr = p.mgr)
    (hinotify : s.files o.inotifyInit = none) (hepoll : s.files o.epollCreate1 = none)
    (hne : o.epollCreate1 ≠ o.inotifyInit) :
    ∃ t, Reaches (Alone i) (s, x) t ∧ AgreesWith (x.inotifyEventHandler.initializeWith o p) t := by
  rcases lt_trichotomy o.inotifyInit 0 with hneg | hzero | hpos
  · rw [InotifyEventHandler.initializeWith_of_neg hneg]
    have hfails : Alone i (s, x) (.inotifyInit o.inotifyInit)
        (s, { x with pc := .setStopped .core }) := by
      refine alone_of_callerStep i (c := .nothing) rfl ?_
      simp only [Watcher.callerStep, hpc, Watcher.afterInotifyInit, if_pos hneg]
    exact ⟨_, ⟨_, .cons hfails (.nil _)⟩, hstopped, hmgr, rfl, rfl⟩
  · rw [InotifyEventHandler.initializeWith_of_zero hzero]
    rw [hzero] at hinotify
    have hopens : Alone i (s, x) (.inotifyInit 0)
        (s.after i (.opensInotify 0), { x with pc := .register 0, inst := s.instances }) := by
      refine alone_of_callerStep i rfl ?_
      simp only [Watcher.callerStep, hpc]
      exact afterInotifyInit_of_free x le_rfl hinotify
    have hregisters := alone_of_callerStep (a := .proceed) i rfl
      (s := s.after i (.opensInotify 0)) (x := { x with pc := .register 0, inst := s.instances })
      rfl
    refine ⟨_, ⟨_, .cons hopens (.cons hregisters (.nil _))⟩, hstopped, ?_, rfl, rfl⟩
    show (s.mgr.initializeWith 0).2 = (p.mgr.initializeWith o.inotifyInit).2
    rw [hmgr, hzero]
  · have hfree : ((s.after i (.opensInotify o.inotifyInit)).after i
        (.registers o.inotifyInit)).files o.epollCreate1 = none := by
      show Function.update s.files o.inotifyInit _ o.epollCreate1 = none
      rw [Function.update_of_ne hne, hepoll]
    rcases lt_or_ge o.epollCreate1 0 with hfails | hcreated
    · rw [InotifyEventHandler.initializeWith_of_epoll_neg hpos hfails]
      refine ⟨_, reaches_epollCreate1 i hpc hpos hinotify (reaches_of_epoll_neg i _ rfl hfails), ?_⟩
      obtain ⟨hflag, hkept⟩ := after_scopeExit i ((s.after i (.opensInotify o.inotifyInit)).after i
        (.registers o.inotifyInit)) o.inotifyInit
      refine ⟨hflag.trans hstopped, hkept.trans ?_, rfl, rfl⟩
      show (s.mgr.initializeWith o.inotifyInit).2 = (p.mgr.initializeWith o.inotifyInit).2
      rw [hmgr]
    · rw [InotifyEventHandler.initializeWith_of_pos hpos hcreated]
      refine ⟨_, reaches_epollCreate1 i hpc hpos hinotify
        (reaches_of_epoll_pos i rfl hcreated hfree), rfl, ?_, rfl, rfl⟩
      show (s.mgr.initializeWith o.inotifyInit).2 = (p.mgr.initializeWith o.inotifyInit).2
      rw [hmgr]

end Watchers

end InotifyRealtime
