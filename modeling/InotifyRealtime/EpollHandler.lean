import InotifyRealtime.Decode
import InotifyRealtime.InotifyMask
import InotifyRealtime.InotifyWatchMgr
/-!
# InotifyRealtime.EpollHandler

The **event thread**: `InotifyEventHandler::EpollHandler` and the
`ParseRawEvent` it dispatches to.

The four nested loops are a machine. `Pc` names the places where the thread does
something the rest of the world can see or decide: a test of `stopped_`, a system
call, a call of `ParseRawEvent`. An `Answer` is what the world says there, and
`step` runs the thread from one such place to the next. A successful `read` and
the decoding of its bytes are one step.

`ParseRawEvent` is declared `bool` and returns nothing, so what a call yields is
an answer too. It takes `list.front()` before anything else; on an empty deque
that is undefined, and so is everything after it (`Pc.undefined`).
-/

namespace InotifyRealtime

open Bytes

/-- The values of `errno` the program tells apart. On this platform
`EWOULDBLOCK` is `EAGAIN`. -/
inductive Errno
  | zero
  | eintr
  | eagain
  | einval
  | enfile
  | etxtbsy
  | other (code : Nat)
  deriving DecidableEq

/-- What `ParseRawEvent` prints for an event. -/
structure Report where
  eventMask : List Char
  eventFrom : Int
  eventCokie : Int
  fileSize : Int
  fileName : Option (List Byte)
  fullPath : Option Path
  deriving DecidableEq

/-- The text for one event, given the path `GetPath` answers for its `wd`. -/
def CustomizedInotifyEvent.report (e : CustomizedInotifyEvent) (path : Path) : Report where
  eventMask := inotifyMaskToString (e.mask.setWidth 64)
  eventFrom := e.wd
  eventCokie := e.cookie.toInt
  fileSize := e.len.toInt
  fileName := e.name
  fullPath := e.name.map fun name => path ++ 0x2f#8 :: name

/-- `ParseRawEvent`: report the front of the deque and pop it; `none` when there
is no front. -/
def parseRawEvent (getPath : Int → Path) (list : List CustomizedInotifyEvent) :
    Option (Report × List CustomizedInotifyEvent) :=
  match list with
  | [] => none
  | event :: rest => some (event.report (getPath event.wd), rest)

namespace EpollHandler

/-- `kMAX_INOTIFY_EVENT_SIZE`. -/
def maxInotifyEventSize : Nat := 10

/-- Why `EpollHandler` returned. -/
inductive Return
  | epollAddFailed
  | errorCount
  | stopped
  deriving DecidableEq

/-- Where behaviour stops being defined. -/
inductive Undefined
  | frontOfEmpty
  | headerOutOfRange
  deriving DecidableEq

/-- What the thread is about to do. -/
inductive Pc
  /-- `epoll_ctl(epoll_fd_, EPOLL_CTL_ADD, inotify_fd_, ..)`. -/
  | epollCtl
  /-- The test of the outer `while (!stopped_)`. -/
  | outerHead
  /-- `epoll_wait(epoll_fd_, ..)`. -/
  | epollWait
  /-- The test of the inner `while (!stopped_)`, and the queue cap behind it. -/
  | drainHead
  /-- `read(inotify_fd_, ..)`. -/
  | read
  /-- The call of `ParseRawEvent`. -/
  | dispatch
  | returned (why : Return)
  | undefined (why : Undefined)
  /-- A decode loop that does not end. -/
  | spinning
  deriving DecidableEq

/-- The local state of the thread. The last two fields are history: the events
`ParseRawEvent` was called on and what it printed, oldest first. -/
structure Thread where
  pc : Pc
  errorCount : Nat
  errno : Errno
  inotifyEventBuffer : List CustomizedInotifyEvent
  dispatched : List CustomizedInotifyEvent
  printed : List Report
  deriving DecidableEq

/-- A thread that enters `EpollHandler`, with whatever `errno` it has. -/
def Thread.start (errno : Errno) : Thread := ⟨.epollCtl, 0, errno, [], [], []⟩

/-- What the world answers at the thread's next place. -/
inductive Answer
  | epollCtl (failed : Bool)
  | stopped (value : Bool)
  | epollWait (rc : Int) (errno : Errno)
  /-- `read` returned -1 with this `errno`. -/
  | readError (errno : Errno)
  /-- `read` returned `n ≥ 0` and left the array like this; `errno` is untouched. -/
  | readBytes (n : Nat) (buf : ReadBuffer)
  /-- `GetPath` answered `path`, the call yielded `result`, and its output left
  `errno`. -/
  | parse (path : Path) (result : Bool) (errno : Errno)
  deriving DecidableEq

/-- The branches after `epoll_wait`. -/
def afterEpollWait (t : Thread) (rc : Int) (errno : Errno) : Thread :=
  if rc < 0 then
    if errno = .eintr then { t with errno, pc := .outerHead }
    else if t.errorCount + 1 < 3 then
      { t with errno, errorCount := t.errorCount + 1, pc := .outerHead }
    else { t with errno, errorCount := t.errorCount + 1, pc := .returned .errorCount }
  else if rc = 0 then { t with pc := .outerHead }
  else { t with pc := .drainHead }

/-- The errors after which `read` is tried again with `errno` cleared. -/
def Errno.Retried (e : Errno) : Prop := e = .eintr ∨ e = .etxtbsy

/-- The errors that end the drain loop. -/
def Errno.EndsDrain (e : Errno) : Prop := e = .eagain ∨ e = .einval

instance (e : Errno) : Decidable (Errno.Retried e) := inferInstanceAs (Decidable (_ ∨ _))

instance (e : Errno) : Decidable (Errno.EndsDrain e) := inferInstanceAs (Decidable (_ ∨ _))

/-- The branch `currentReadSize <= 0`. `ENFILE` only yields the processor before
the `continue` that all other errors fall to as well. -/
def afterNoData (t : Thread) : Thread :=
  if Errno.Retried t.errno then { t with errno := .zero, pc := .drainHead }
  else if Errno.EndsDrain t.errno then { t with pc := .dispatch }
  else { t with pc := .drainHead }

/-- The branches after a `read` that returned `n ≥ 0`. -/
def afterRead (t : Thread) (n : Nat) (buf : ReadBuffer) : Thread :=
  if n = 0 then afterNoData t
  else if readBufferSize < n then { t with pc := .drainHead }
  else
    match decode buf n t.inotifyEventBuffer with
    | .done q => { t with errorCount := 0, inotifyEventBuffer := q, pc := .drainHead }
    | .headerOutOfRange => { t with errorCount := 0, pc := .undefined .headerOutOfRange }
    | .outOfFuel => { t with errorCount := 0, pc := .spinning }

/-- The call of `ParseRawEvent` and the tests of the loop around it: only when
the call yields `false` does the loop look whether the deque is empty. -/
def dispatchOne (t : Thread) (path : Path) (result : Bool) (errno : Errno) : Thread :=
  match parseRawEvent (fun _ => path) t.inotifyEventBuffer with
  | none => { t with pc := .undefined .frontOfEmpty }
  | some (report, rest) =>
      { t with
        errno
        inotifyEventBuffer := rest
        dispatched := t.dispatched ++ t.inotifyEventBuffer.take 1
        printed := t.printed ++ [report]
        pc := if result ∨ rest ≠ [] then .dispatch else .outerHead }

/-- One step of the thread; `none` when the answer is to another question. -/
def step (t : Thread) (a : Answer) : Option Thread :=
  match t.pc, a with
  | .epollCtl, .epollCtl failed =>
      some { t with pc := if failed then .returned .epollAddFailed else .outerHead }
  | .outerHead, .stopped value =>
      some { t with pc := if value then .returned .stopped else .epollWait }
  | .epollWait, .epollWait rc errno => some (afterEpollWait t rc errno)
  | .drainHead, .stopped value =>
      some { t with pc :=
        if value ∨ maxInotifyEventSize ≤ t.inotifyEventBuffer.length then .dispatch else .read }
  | .read, .readError errno => some (afterNoData { t with errno })
  -- a read of zero bytes is judged by whatever `errno` held before it
  | .read, .readBytes n buf => some (afterRead t n buf)
  | .dispatch, .parse path result errno => some (dispatchOne t path result errno)
  | _, _ => none

/-! ### What a step can do -/

/-- A `read` without data, and the thread as the test of `errno` finds it. -/
inductive NoData : Thread → Answer → Thread → Prop
  | error {t : Thread} (errno : Errno) : NoData t (.readError errno) { t with errno }
  | empty {t : Thread} (buf : ReadBuffer) : NoData t (.readBytes 0 buf) t

/-- The branches of the source, one constructor each. -/
inductive Step : Thread → Answer → Thread → Prop
  | epollAddFailed {t : Thread} :
      t.pc = .epollCtl → Step t (.epollCtl true) { t with pc := .returned .epollAddFailed }
  | epollAdded {t : Thread} :
      t.pc = .epollCtl → Step t (.epollCtl false) { t with pc := .outerHead }
  | leave {t : Thread} :
      t.pc = .outerHead → Step t (.stopped true) { t with pc := .returned .stopped }
  | enter {t : Thread} :
      t.pc = .outerHead → Step t (.stopped false) { t with pc := .epollWait }
  | waitInterrupted {t : Thread} {rc : Int} :
      t.pc = .epollWait → rc < 0 →
      Step t (.epollWait rc .eintr) { t with errno := .eintr, pc := .outerHead }
  | waitFailed {t : Thread} {rc : Int} {errno : Errno} :
      t.pc = .epollWait → rc < 0 → errno ≠ .eintr → t.errorCount + 1 < 3 →
      Step t (.epollWait rc errno)
        { t with errno, errorCount := t.errorCount + 1, pc := .outerHead }
  | waitGivenUp {t : Thread} {rc : Int} {errno : Errno} :
      t.pc = .epollWait → rc < 0 → errno ≠ .eintr → 3 ≤ t.errorCount + 1 →
      Step t (.epollWait rc errno)
        { t with errno, errorCount := t.errorCount + 1, pc := .returned .errorCount }
  | waitTimeout {t : Thread} {errno : Errno} :
      t.pc = .epollWait → Step t (.epollWait 0 errno) { t with pc := .outerHead }
  | woken {t : Thread} {rc : Int} {errno : Errno} :
      t.pc = .epollWait → 0 < rc → Step t (.epollWait rc errno) { t with pc := .drainHead }
  | drainLeft {t : Thread} {value : Bool} :
      t.pc = .drainHead → value ∨ maxInotifyEventSize ≤ t.inotifyEventBuffer.length →
      Step t (.stopped value) { t with pc := .dispatch }
  | drainEntered {t : Thread} :
      t.pc = .drainHead → t.inotifyEventBuffer.length < maxInotifyEventSize →
      Step t (.stopped false) { t with pc := .read }
  | readRetried {t u : Thread} {a : Answer} :
      t.pc = .read → NoData t a u → Errno.Retried u.errno →
      Step t a { u with errno := .zero, pc := .drainHead }
  | readEndsDrain {t u : Thread} {a : Answer} :
      t.pc = .read → NoData t a u → ¬ Errno.Retried u.errno → Errno.EndsDrain u.errno →
      Step t a { u with pc := .dispatch }
  | readIgnored {t u : Thread} {a : Answer} :
      t.pc = .read → NoData t a u → ¬ Errno.Retried u.errno → ¬ Errno.EndsDrain u.errno →
      Step t a { u with pc := .drainHead }
  | readOversized {t : Thread} {n : Nat} {buf : ReadBuffer} :
      t.pc = .read → readBufferSize < n → Step t (.readBytes n buf) { t with pc := .drainHead }
  | decoded {t : Thread} {n : Nat} {buf : ReadBuffer} {q : List CustomizedInotifyEvent} :
      t.pc = .read → 0 < n → n ≤ readBufferSize → decode buf n t.inotifyEventBuffer = .done q →
      Step t (.readBytes n buf)
        { t with errorCount := 0, inotifyEventBuffer := q, pc := .drainHead }
  | decodeFaults {t : Thread} {n : Nat} {buf : ReadBuffer} :
      t.pc = .read → 0 < n → n ≤ readBufferSize →
      decode buf n t.inotifyEventBuffer = .headerOutOfRange →
      Step t (.readBytes n buf) { t with errorCount := 0, pc := .undefined .headerOutOfRange }
  | decodeSpins {t : Thread} {n : Nat} {buf : ReadBuffer} :
      t.pc = .read → 0 < n → n ≤ readBufferSize →
      decode buf n t.inotifyEventBuffer = .outOfFuel →
      Step t (.readBytes n buf) { t with errorCount := 0, pc := .spinning }
  | dispatched {t : Thread} {path : Path} {result : Bool} {errno : Errno}
      {event : CustomizedInotifyEvent} {rest : List CustomizedInotifyEvent} :
      t.pc = .dispatch → t.inotifyEventBuffer = event :: rest →
      Step t (.parse path result errno)
        { t with
          errno
          inotifyEventBuffer := rest
          dispatched := t.dispatched ++ [event]
          printed := t.printed ++ [event.report path]
          pc := if result ∨ rest ≠ [] then .dispatch else .outerHead }
  | frontOfEmpty {t : Thread} {path : Path} {result : Bool} {errno : Errno} :
      t.pc = .dispatch → t.inotifyEventBuffer = [] →
      Step t (.parse path result errno) { t with pc := .undefined .frontOfEmpty }

/-- After a call of `ParseRawEvent` the thread is in one of two places. -/
theorem afterDispatch_ne {c : Prop} [Decidable c] {pc : Pc} (hdispatch : Pc.dispatch ≠ pc)
    (houter : Pc.outerHead ≠ pc) : (if c then Pc.dispatch else .outerHead) ≠ pc := by
  by_cases hc : c
  · rw [if_pos hc]
    exact hdispatch
  · rw [if_neg hc]
    exact houter

theorem afterEpollWait_step {t : Thread} (hpc : t.pc = .epollWait) (rc : Int) (errno : Errno) :
    Step t (.epollWait rc errno) (afterEpollWait t rc errno) := by
  unfold afterEpollWait
  by_cases hneg : rc < 0
  · rw [if_pos hneg]
    by_cases hintr : errno = .eintr
    · subst hintr
      exact .waitInterrupted hpc hneg
    · rw [if_neg hintr]
      by_cases hcount : t.errorCount + 1 < 3
      · rw [if_pos hcount]
        exact .waitFailed hpc hneg hintr hcount
      · rw [if_neg hcount]
        exact .waitGivenUp hpc hneg hintr (by omega)
  · rw [if_neg hneg]
    by_cases hzero : rc = 0
    · subst hzero
      exact .waitTimeout hpc
    · rw [if_neg hzero]
      exact .woken hpc (by omega)

theorem afterNoData_step {t u : Thread} {a : Answer} (hpc : t.pc = .read) (h : NoData t a u) :
    Step t a (afterNoData u) := by
  unfold afterNoData
  by_cases hretry : Errno.Retried u.errno
  · rw [if_pos hretry]
    exact .readRetried hpc h hretry
  · rw [if_neg hretry]
    by_cases hends : Errno.EndsDrain u.errno
    · rw [if_pos hends]
      exact .readEndsDrain hpc h hretry hends
    · rw [if_neg hends]
      exact .readIgnored hpc h hretry hends

theorem afterRead_step {t : Thread} (hpc : t.pc = .read) (n : Nat) (buf : ReadBuffer) :
    Step t (.readBytes n buf) (afterRead t n buf) := by
  unfold afterRead
  by_cases hzero : n = 0
  · subst hzero
    exact afterNoData_step hpc (.empty buf)
  · rw [if_neg hzero]
    by_cases hbig : readBufferSize < n
    · rw [if_pos hbig]
      exact .readOversized hpc hbig
    · rw [if_neg hbig]
      cases hdec : decode buf n t.inotifyEventBuffer with
      | done q => exact .decoded hpc (by omega) (by omega) hdec
      | headerOutOfRange => exact .decodeFaults hpc (by omega) (by omega) hdec
      | outOfFuel => exact .decodeSpins hpc (by omega) (by omega) hdec

theorem dispatchOne_step {t : Thread} (hpc : t.pc = .dispatch) (path : Path) (result : Bool)
    (errno : Errno) : Step t (.parse path result errno) (dispatchOne t path result errno) := by
  by_cases hq : t.inotifyEventBuffer = []
  · have hparse : parseRawEvent (fun _ => path) t.inotifyEventBuffer = none := by
      rw [hq, parseRawEvent]
    rw [dispatchOne, hparse]
    exact .frontOfEmpty hpc hq
  · obtain ⟨event, rest, hq⟩ := List.exists_cons_of_ne_nil hq
    have hparse : parseRawEvent (fun _ => path) t.inotifyEventBuffer =
        some (event.report path, rest) := by
      rw [hq, parseRawEvent]
    have hfront : t.inotifyEventBuffer.take 1 = [event] := by
      rw [hq, List.take_succ_cons, List.take_zero]
    rw [dispatchOne, hparse, hfront]
    exact .dispatched hpc hq

/-- Every step the machine takes is one of the source's branches. -/
theorem step_cases {t t' : Thread} {a : Answer} (h : step t a = some t') : Step t a t' := by
  unfold step at h
  split at h <;> simp only [Option.some.injEq, reduceCtorEq] at h <;> subst h
  case h_1 failed hpc =>
    cases failed with
    | true => exact .epollAddFailed hpc
    | false => exact .epollAdded hpc
  case h_2 value hpc =>
    cases value with
    | true => exact .leave hpc
    | false => exact .enter hpc
  case h_3 rc errno hpc => exact afterEpollWait_step hpc rc errno
  case h_4 value hpc =>
    by_cases hleave : value ∨ maxInotifyEventSize ≤ t.inotifyEventBuffer.length
    · rw [if_pos hleave]
      exact .drainLeft hpc hleave
    · rw [if_neg hleave]
      obtain ⟨hvalue, hfew⟩ := not_or.mp hleave
      obtain rfl : value = false := by simpa using hvalue
      exact .drainEntered hpc (by omega)
  case h_5 errno hpc => exact afterNoData_step hpc (.error errno)
  case h_6 n buf hpc => exact afterRead_step hpc n buf
  case h_7 path result errno hpc => exact dispatchOne_step hpc path result errno

/-- The place at which the thread asks what an answer answers. -/
def Answer.AnswersAt : Answer → Pc → Prop
  | .epollCtl _, pc => pc = .epollCtl
  | .stopped _, pc => pc = .outerHead ∨ pc = .drainHead
  | .epollWait _ _, pc => pc = .epollWait
  | .readError _, pc => pc = .read
  | .readBytes _ _, pc => pc = .read
  | .parse _ _ _, pc => pc = .dispatch

theorem Step.answersAt {t t' : Thread} {a : Answer} (h : Step t a t') : a.AnswersAt t.pc := by
  cases h with
  | epollAddFailed hpc | epollAdded hpc | waitInterrupted hpc | waitFailed hpc | waitGivenUp hpc
  | waitTimeout hpc | woken hpc | readOversized hpc | decoded hpc | decodeFaults hpc
  | decodeSpins hpc | dispatched hpc | frontOfEmpty hpc => exact hpc
  | leave hpc | enter hpc => exact .inl hpc
  | drainLeft hpc | drainEntered hpc => exact .inr hpc
  | readRetried hpc hnd | readEndsDrain hpc hnd | readIgnored hpc hnd => cases hnd <;> exact hpc

/-- Whatever is answered at its place, the thread goes on from there. -/
theorem Answer.AnswersAt.step {t : Thread} {a : Answer} (h : a.AnswersAt t.pc) :
    ∃ t', EpollHandler.step t a = some t' := by
  refine Option.isSome_iff_exists.mp ?_
  cases a with
  | stopped value =>
      rcases h with hpc | hpc
      · simp only [EpollHandler.step, hpc, Option.isSome_some]
      · simp only [EpollHandler.step, hpc, Option.isSome_some]
  | epollCtl _ | epollWait _ _ | readError _ | readBytes _ _ | parse _ _ _ =>
      have hpc : t.pc = _ := h
      simp only [EpollHandler.step, hpc, Option.isSome_some]

end EpollHandler

end InotifyRealtime
