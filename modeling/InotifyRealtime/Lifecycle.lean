import InotifyRealtime.Foundation.Threads
import InotifyRealtime.InotifyWatchMgr
/-!
# InotifyRealtime.Lifecycle

How a monitor comes and goes: `RealtimeInterface` owns a `RealtimeCore`, which
owns two thread handles and an `InotifyEventHandler`, which owns two descriptors.
Each of the three finalizes the next one, both when it is told to and in its
destructor.

Everything these objects share is the `Process`: the static flag `stopped_`, the
watch manager, the threads, and the log of what was opened, closed, created and
deleted so far. A method takes the process and its object and returns both. What
the operating system answers inside a call is the call's `Outcomes`.

A call may end by an exception (`Ending.thrown`). It may also not come back at
all: `none` is `std::terminate`, which a thread handle calls when it is assigned
to or destroyed while it owns a thread.

Calls of one object do not overlap here, so that the mutex of `RealtimeCore` is left out;
`CoreCalls` has it. The two descriptor flags `FileDescriptorTool` sets are left out as
well, since nobody reads the results; the module `FileDescriptorTool` has them.
-/

namespace InotifyRealtime

open Threads

/-- The workers of a core. -/
inductive Worker
  | directory
  | epoll
  deriving DecidableEq

/-- What the process does that the world can see. -/
inductive Effect
  | inotifyInit (rc : Int)
  | epollCreate1 (rc : Int)
  | close (fd : Int)
  | coreNew
  | coreDelete
  deriving DecidableEq

/-- What the objects of the process share. -/
structure Process where
  stopped : Bool
  mgr : InotifyWatchMgr
  threads : List (Thread Worker)
  log : List Effect

namespace Process

/-- The process before `main`. -/
def start : Process := ⟨false, .new, [], []⟩

def record (p : Process) (e : Effect) : Process := { p with log := p.log ++ [e] }

end Process

/-- How `new RealtimeCore` inside `shared_ptr::reset` goes. When only the control
block cannot be allocated, the core exists already and is deleted again. -/
inductive Allocation
  | succeeds
  | throws
  | controlBlockThrows
  deriving DecidableEq

/-- What happens inside one call of `RealtimeInterface::Initialize`. -/
structure Outcomes where
  allocation : Allocation
  inotifyInit : Int
  epollCreate1 : Int
  directoryThreadThrows : Bool
  epollThreadThrows : Bool
  deriving DecidableEq

/-- How a call ended that came back. -/
inductive Ending
  | returned (result : Bool)
  | thrown
  deriving DecidableEq

/-! ### `InotifyEventHandler` -/

structure InotifyEventHandler where
  inotifyFd : Int
  epollFd : Int
  deriving DecidableEq

namespace InotifyEventHandler

def new : InotifyEventHandler := ⟨-1, -1⟩

/-- `close`, when the descriptor is one. -/
def closeFd (p : Process) (fd : Int) : Process := if -1 ≠ fd then p.record (.close fd) else p

/-- The descriptors are closed and kept. The destructor does the same. -/
def finalize (p : Process) (h : InotifyEventHandler) : Process :=
  closeFd (closeFd { p with stopped := true } h.inotifyFd) h.epollFd

/-- A scope exit of `Initialize`: close when `stopped_` is set. -/
def scopeExit (p : Process) (fd : Int) : Process := if p.stopped then closeFd p fd else p

/-- `InotifyEventHandler::Initialize`. The scope exits run in reverse order, and
those of the descriptors stored so far only. -/
def initializeWith (o : Outcomes) (p : Process) (h : InotifyEventHandler) :
    Bool × Process × InotifyEventHandler :=
  let p := p.record (.inotifyInit o.inotifyInit)
  if o.inotifyInit < 0 then (false, p, h)
  else
    let (result, mgr) := p.mgr.initializeWith o.inotifyInit
    let p := { p with mgr }
    -- descriptor 0: it stays open and nobody remembers it
    if !result then (false, p, h)
    else
      let h := { h with inotifyFd := o.inotifyInit }
      let p := p.record (.epollCreate1 o.epollCreate1)
      if o.epollCreate1 < 0 then (false, scopeExit p h.inotifyFd, h)
      else
        let h := { h with epollFd := o.epollCreate1 }
        let p := { p with stopped := false }
        -- the flag has just been cleared, so neither scope exit closes
        (true, scopeExit (scopeExit p h.epollFd) h.inotifyFd, h)

end InotifyEventHandler

/-! ### `RealtimeCore` -/

structure RealtimeCore where
  directoryTread : Handle
  epollHandlerThread : Handle
  inotifyEventHandler : InotifyEventHandler
  deriving DecidableEq

namespace RealtimeCore

def new : RealtimeCore := ⟨none, none, .new⟩

/-- Construct a thread and assign it to a handle. The test whether the handle is
joinable only prints. -/
def startThread (role : Worker) (throws : Bool) (p : Process) (handle : Handle) :
    Option (Ending × Process × Handle) :=
  if throws then some (.thrown, p, handle)
  else if handle.joinable then none
  else some (.returned true, { p with threads := (spawn p.threads role).2 },
    (spawn p.threads role).1)

def startDirectorySearchThread (o : Outcomes) (p : Process) (c : RealtimeCore) :
    Option (Ending × Process × RealtimeCore) :=
  (startThread .directory o.directoryThreadThrows p c.directoryTread).map
    fun (e, p, handle) => (e, p, { c with directoryTread := handle })

def startEpollThread (o : Outcomes) (p : Process) (c : RealtimeCore) :
    Option (Ending × Process × RealtimeCore) :=
  (startThread .epoll o.epollThreadThrows p c.epollHandlerThread).map
    fun (e, p, handle) => (e, p, { c with epollHandlerThread := handle })

/-- The caller is compared with the directory worker. -/
def isInEpollThread (caller : ThreadId) (c : RealtimeCore) : Bool :=
  some caller = c.directoryTread.getId

/-- The caller is compared with the epoll worker. -/
def isInDirectorySearchThread (caller : ThreadId) (c : RealtimeCore) : Bool :=
  some caller = c.epollHandlerThread.getId

/-- Detach or join what a handle owns. What `join` throws is caught, and the
handle keeps the thread. -/
def stopThread (caller : ThreadId) (giveUp : Bool) (p : Process) (handle : Handle) :
    Process × Handle :=
  match handle with
  | none => (p, none)
  | some i =>
      if giveUp then ({ p with threads := detach p.threads i }, none)
      else
        match join caller p.threads i with
        -- the caller is the worker itself, and not the one the test above compared
        | none => (p, some i)
        | some threads => ({ p with threads }, none)

def stopDirectorySearchThread (caller : ThreadId) (forceDetach : Bool) (p : Process)
    (c : RealtimeCore) : Process × RealtimeCore :=
  let (p, handle) :=
    stopThread caller (isInDirectorySearchThread caller c || forceDetach) p c.directoryTread
  (p, { c with directoryTread := handle })

def stopEpollThread (caller : ThreadId) (forceDetach : Bool) (p : Process) (c : RealtimeCore) :
    Process × RealtimeCore :=
  let (p, handle) :=
    stopThread caller (isInEpollThread caller c || forceDetach) p c.epollHandlerThread
  (p, { c with epollHandlerThread := handle })

/-- `RealtimeCore::Initialize`. -/
def initializeWith (o : Outcomes) (p : Process) (c : RealtimeCore) :
    Option (Ending × Process × RealtimeCore) :=
  match c.inotifyEventHandler.initializeWith o p with
  | (false, p, h) => some (.returned false, p, { c with inotifyEventHandler := h })
  | (true, p, h) =>
      (startDirectorySearchThread o p { c with inotifyEventHandler := h }).bind fun (e, p, c) =>
        match e with
        | .returned true => startEpollThread o p c
        | e => some (e, p, c)

/-- `RealtimeCore::Finalize`. -/
def finalize (caller : ThreadId) (p : Process) (c : RealtimeCore) : Process × RealtimeCore :=
  let p := c.inotifyEventHandler.finalize p
  let (p, c) := stopDirectorySearchThread caller false p c
  stopEpollThread caller false p c

/-- The destructor: `Finalize`, and then the destructors of the members, last one
first. -/
def destroy (caller : ThreadId) (p : Process) (c : RealtimeCore) : Option Process :=
  let (p, c) := c.finalize caller p
  -- the handler's destructor finalizes it again, before the handles' destructors
  let p := c.inotifyEventHandler.finalize p
  if c.epollHandlerThread.joinable then none
  else if c.directoryTread.joinable then none
  else some (p.record .coreDelete)

end RealtimeCore

/-! ### `RealtimeInterface` -/

structure RealtimeInterface where
  core : Option RealtimeCore
  deriving DecidableEq

namespace RealtimeInterface

def new : RealtimeInterface := ⟨none⟩

/-- `core_.reset()`. -/
def reset (caller : ThreadId) (p : Process) (i : RealtimeInterface) :
    Option (Process × RealtimeInterface) :=
  match i.core with
  | none => some (p, i)
  | some c => (c.destroy caller p).map fun p => (p, ⟨none⟩)

/-- `core_.reset(new RealtimeCore(config_))`: the core that is there now, unless
it throws. -/
def allocate (caller : ThreadId) (o : Outcomes) (p : Process) :
    Option (Process × Option RealtimeCore) :=
  match o.allocation with
  | .succeeds => some (p.record .coreNew, some .new)
  | .throws => some (p, none)
  | .controlBlockThrows =>
      (RealtimeCore.new.destroy caller (p.record .coreNew)).map fun p => (p, none)

/-- `RealtimeInterface::Initialize`. Both catch clauses and the scope exit reset
`core_`. -/
def initializeWith (caller : ThreadId) (o : Outcomes) (p : Process) (i : RealtimeInterface) :
    Option (Bool × Process × RealtimeInterface) :=
  match i.core with
  | some _ => some (true, p, i)
  | none =>
      -- `LoadConfig` comes before all this and does nothing yet
      (allocate caller o p).bind fun (p, core) =>
        match core with
        | none => (reset caller p i).map fun (p, i) => (false, p, i)
        | some c =>
            (c.initializeWith o p).bind fun (e, p, c) =>
              match e with
              | .returned true => some (true, p, ⟨some c⟩)
              | _ => (reset caller p ⟨some c⟩).map fun (p, i) => (false, p, i)

/-- `RealtimeInterface::Finalize`. -/
def finalize (caller : ThreadId) (p : Process) (i : RealtimeInterface) :
    Option (Process × RealtimeInterface) :=
  match i.core with
  | none => some (p, i)
  | some c =>
      let (p, c) := c.finalize caller p
      reset caller p ⟨some c⟩

/-- The destructor: `Finalize`, and then that of `core_`. -/
def destroy (caller : ThreadId) (p : Process) (i : RealtimeInterface) : Option Process :=
  (i.finalize caller p).bind fun (p, i) => (reset caller p i).map Prod.fst

end RealtimeInterface

end InotifyRealtime
