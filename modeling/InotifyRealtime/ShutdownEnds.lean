import InotifyRealtime.Foundation.Progress
import InotifyRealtime.FileDescriptorTool
import InotifyRealtime.QueueBound
import InotifyRealtime.StoppedWalk
/-!
# InotifyRealtime.ShutdownEnds

Whether `FinalizeLock` comes back.

It joins both workers, so it comes back when they do. From the moment the flag is set
each of their steps brings them closer to their end, whatever they are answered
(`stop_bounds_steps`); what can keep them is a call that is not answered at all.
`realpath`, `nftw`, `epoll_ctl` and `inotify_add_watch` return, `epoll_wait` returns after
10 ms at the latest. A `read` of an empty queue returns if the descriptor does not block.
Otherwise it goes on, and closing the descriptor does not end it.

`InotifyEventHandler::Initialize` asks for a descriptor that does not block and ignores
the answer. `FinalizeLock` always comes back after it precisely if that call succeeded
(`finalize_returns_iff`).
-/

namespace InotifyRealtime

open Machine

/-- Each turn of the loop appends one event. -/
theorem decodeLoop_length_le {buf : ReadBuffer} {q : List CustomizedInotifyEvent} (fuel : Nat) :
    ∀ s : DecodeState, decodeLoop buf fuel s = .done q →
      q.length ≤ s.inotifyEventBuffer.length + fuel := by
  induction fuel with
  | zero => exact fun s h => DecodeResult.noConfusion h
  | succ fuel ih =>
      intro s h
      rw [decodeLoop] at h
      by_cases hread : s.readSize < headerSize
      · rw [if_pos hread] at h
        obtain rfl := DecodeResult.done.inj h
        exact Nat.le_add_right _ _
      · rw [if_neg hread] at h
        cases hbody : decodeBody buf s with
        | none =>
            rw [hbody] at h
            exact DecodeResult.noConfusion h
        | some s' =>
            rw [hbody] at h
            obtain ⟨stack, -, rfl⟩ := Option.map_eq_some_iff.mp hbody
            have hrest := ih _ h
            rw [List.length_append, List.length_singleton] at hrest
            omega

namespace EpollHandler

/-- A test of the flag sees it set. -/
def Answer.SeesStop : Answer → Prop
  | .stopped value => value = true
  | _ => True

/-- The steps a thread has still to take at most when it sees the flag set. A `read` may
bring a record for each position of the array. -/
def Thread.stepsLeft (t : Thread) : Nat :=
  match t.pc with
  | .epollCtl => 2
  | .outerHead => 1
  | .epollWait => t.inotifyEventBuffer.length + 4
  | .drainHead => t.inotifyEventBuffer.length + 3
  | .read => t.inotifyEventBuffer.length + readBufferSize + 6
  | .dispatch => t.inotifyEventBuffer.length + 2
  | .returned _ | .undefined _ | .spinning => 0

theorem stepsLeft_le (t : Thread) :
    t.stepsLeft ≤ t.inotifyEventBuffer.length + readBufferSize + 6 := by
  unfold Thread.stepsLeft
  cases t.pc <;> simp only <;> omega

/-- After a call of `ParseRawEvent` there is less to do. -/
theorem stepsLeft_dispatched {t t' : Thread} {c : Prop} [Decidable c] (hpc : t.pc = .dispatch)
    (hpc' : t'.pc = if c then .dispatch else .outerHead)
    (hlen : t'.inotifyEventBuffer.length < t.inotifyEventBuffer.length) :
    t'.stepsLeft < t.stepsLeft := by
  by_cases hc : c
  · rw [if_pos hc] at hpc'
    simp only [Thread.stepsLeft, hpc, hpc']
    omega
  · rw [if_neg hc] at hpc'
    simp only [Thread.stepsLeft, hpc, hpc']
    omega

/-- Each step is one less to take, and the answer to a `read` two. -/
theorem Step.stepsLeft_lt {t t' : Thread} {a : Answer} (hstep : Step t a t')
    (hstop : a.SeesStop) :
    t'.stepsLeft + (if t.pc = .read then 1 else 0) < t.stepsLeft := by
  cases hstep with
  | enter _ | drainEntered _ _ => exact absurd hstop Bool.false_ne_true
  | epollAddFailed hpc | epollAdded hpc | leave hpc | waitInterrupted hpc | waitFailed hpc
  | waitGivenUp hpc | waitTimeout hpc | woken hpc | drainLeft hpc | readOversized hpc
  | decodeFaults hpc | decodeSpins hpc | frontOfEmpty hpc =>
      simp only [Thread.stepsLeft, hpc, if_true, reduceCtorEq, if_false]
      omega
  | readRetried hpc hnd | readEndsDrain hpc hnd | readIgnored hpc hnd =>
      have hsame := hnd.keeps.1
      simp only [Thread.stepsLeft, hpc, if_true, hsame]
      omega
  | @decoded n buf q hpc _ _ hdec =>
      have hlen := decodeLoop_length_le _ _ hdec
      simp only [Thread.stepsLeft, hpc, if_true]
      simp only at hlen
      omega
  | @dispatched path result errno event rest hpc hq =>
      have hread : t.pc ≠ .read := fun hread => Pc.noConfusion (hpc.symm.trans hread)
      rw [if_neg hread, Nat.add_zero]
      exact stepsLeft_dispatched hpc rfl (by simp [hq])

end EpollHandler

/-- The steps of `FinalizeLock` that are left. -/
def FinalizePc.stepsLeft : FinalizePc → Nat
  | .setStopped => 5
  | .closeInotify => 4
  | .closeEpoll => 3
  | .joinDirectory => 2
  | .joinEpoll => 1
  | .done => 0

namespace Session

theorem Finalizes.stepsLeft_lt {s s' : Session} (h : Finalizes s s') :
    s'.finalizer.stepsLeft < s.finalizer.stepsLeft ∧ s'.epoll = s.epoll ∧
      s'.directory = s.directory ∧ (s.stopped = true → s'.stopped = true) := by
  cases h with
  | setStopped hpc | closeInotify hpc | closeEpoll hpc | joinDirectory hpc _ | joinEpoll hpc _ =>
      simp [FinalizePc.stepsLeft, hpc]

/-- The event thread sees the flag as it is. -/
theorem AllowsEpoll.seesStop {s : Session} {a : EpollHandler.Answer} (hallow : s.AllowsEpoll a)
    (hs : s.stopped = true) : a.SeesStop := by
  cases a with
  | stopped value => exact hallow.trans hs
  | epollCtl _ | epollWait _ _ | readError _ | readBytes _ _ | parse _ _ _ => trivial

/-- `FinalizeLock` and both workers are through. -/
def Ended (s : Session) : Prop :=
  s.finalizer = .done ∧ s.directory.pc = .returned ∧ ∃ why, s.epoll.pc = .returned why

/-- A worker has done what is not defined, or decodes for ever. -/
def Broken (s : Session) : Prop :=
  s.directory.pc = .undefined ∨ s.epoll.pc = .spinning ∨ ∃ why, s.epoll.pc = .undefined why

end Session

/-! ### Sessions in front of a kernel that blocks -/

/-- What `errno` is after a call on a closed descriptor. -/
def Errno.ebadf : Errno := .other 9

/-- A session, and whether the event thread is inside a `read` that it entered while the
descriptor was open. -/
structure ReadingSession where
  session : Session
  inRead : Bool

namespace ReadingSession

def start (mgr : InotifyWatchMgr) (detectList : List Path) (errno : Errno) : ReadingSession :=
  ⟨.start mgr detectList errno, false⟩

inductive Action
  | enterRead
  | act (a : Session.Action)
  deriving DecidableEq

/-- When a `read` is answered, by whether the descriptor blocks. One that was not entered
finds the descriptor closed. -/
def Allows (nonBlock : Bool) (w : ReadingSession) : Session.Action → Prop
  | .epoll (.readError errno) =>
      if w.inRead then errno ≠ .ebadf ∧ (errno = .eagain → nonBlock = true)
      else w.session.inotifyOpen = false ∧ errno = .ebadf
  | .epoll (.readBytes _ _) => w.inRead = true
  | _ => True

instance (nonBlock : Bool) (w : ReadingSession) :
    (a : Session.Action) → Decidable (w.Allows nonBlock a)
  | .epoll (.readError errno) => inferInstanceAs (Decidable (if w.inRead = true
      then errno ≠ .ebadf ∧ (errno = .eagain → nonBlock = true)
      else w.session.inotifyOpen = false ∧ errno = .ebadf))
  | .epoll (.readBytes _ _) => inferInstanceAs (Decidable (w.inRead = true))
  | .finalizer | .directory _ | .epoll (.epollCtl _) | .epoll (.stopped _)
  | .epoll (.epollWait _ _) | .epoll (.parse _ _ _) => .isTrue trivial

/-- A step of the event thread is the end of the `read` it was in. -/
def inReadAfter (w : ReadingSession) : Session.Action → Bool
  | .epoll _ => false
  | .finalizer | .directory _ => w.inRead

def next (nonBlock : Bool) (w : ReadingSession) : Action → Option ReadingSession
  | .enterRead =>
      if w.session.epoll.pc = .read ∧ w.session.inotifyOpen = true ∧ w.inRead = false then
        some { w with inRead := true }
      else none
  | .act a =>
      if w.Allows nonBlock a then
        (w.session.next a).map fun session => ⟨session, w.inReadAfter a⟩
      else none

def Step (nonBlock : Bool) (w : ReadingSession) (a : Action) (w' : ReadingSession) : Prop :=
  w.next nonBlock a = some w'

/-- Nothing happens in the watched directories, and no signal arrives: a `read` that was
entered brings no events and is not interrupted. -/
def Quiet (w : ReadingSession) : Action → Prop
  | .act (.epoll (.readBytes _ _)) => False
  | .act (.epoll (.readError errno)) => w.inRead = true → errno = .eagain
  | .act (.epoll (.epollWait rc _)) => rc ≤ 0
  | _ => True

/-- The steps of a quiet session. -/
def QuietStep (nonBlock : Bool) (w : ReadingSession) (a : Action) (w' : ReadingSession) : Prop :=
  w.Step nonBlock a w' ∧ w.Quiet a

/-- What a step can do. -/
inductive Does (nonBlock : Bool) : ReadingSession → Action → ReadingSession → Prop
  | enterRead {w : ReadingSession} :
      w.session.epoll.pc = .read → w.session.inotifyOpen = true → w.inRead = false →
      Does nonBlock w .enterRead { w with inRead := true }
  | act {w : ReadingSession} {a : Session.Action} {session : Session} :
      w.Allows nonBlock a → w.session.Step a session →
      Does nonBlock w (.act a) ⟨session, w.inReadAfter a⟩

theorem Step.does {nonBlock : Bool} {w w' : ReadingSession} {a : Action}
    (h : w.Step nonBlock a w') : Does nonBlock w a w' := by
  cases a with
  | enterRead =>
      simp only [Step, next, Option.ite_none_right_eq_some] at h
      obtain ⟨⟨hpc, hopen, hout⟩, h⟩ := h
      obtain rfl := Option.some.inj h
      exact .enterRead hpc hopen hout
  | act a =>
      simp only [Step, next, Option.ite_none_right_eq_some] at h
      obtain ⟨hallow, h⟩ := h
      obtain ⟨session, hstep, rfl⟩ := Option.map_eq_some_iff.mp h
      exact .act hallow hstep

/-- Once set the flag stays set. -/
theorem Step.stopped {nonBlock : Bool} {w w' : ReadingSession} {a : Action}
    (hs : w.session.stopped = true) (h : w.Step nonBlock a w') : w'.session.stopped = true := by
  cases h.does with
  | enterRead _ _ _ => exact hs
  | act _ hstep =>
      cases hstep.does with
      | finalizer hfinalize => exact hfinalize.stepsLeft_lt.2.2.2 hs
      | epoll _ _ | directory _ _ => exact hs

/-- The step into a `read` the thread has still to take at most. -/
def entryLeft (w : ReadingSession) : Nat :=
  if w.inRead = true ∧ w.session.epoll.pc = .read then 0 else 1

/-- The steps left to the session, of all three threads. -/
def stepsLeft (w : ReadingSession) : Nat :=
  w.session.finalizer.stepsLeft + w.session.directory.stepsLeft + w.session.epoll.stepsLeft +
    w.entryLeft

theorem Step.stepsLeft_lt {nonBlock : Bool} {w w' : ReadingSession} {a : Action}
    (hs : w.session.stopped = true) (h : w.Step nonBlock a w') : w'.stepsLeft < w.stepsLeft := by
  cases h.does with
  | enterRead hpc _ hout =>
      simp [stepsLeft, entryLeft, hpc, hout]
  | @act a session hallow hstep =>
      cases hstep.does with
      | finalizer hfinalize =>
          obtain ⟨hless, hepoll, hdirectory, -⟩ := hfinalize.stepsLeft_lt
          simp only [stepsLeft, entryLeft, inReadAfter, hepoll, hdirectory]
          omega
      | directory hsees hthread =>
          have hless := hthread.stepsLeft_lt (hsees.seesStop hs)
          exact Nat.add_lt_add_right (Nat.add_lt_add_right (Nat.add_lt_add_left hless _) _) _
      | epoll hsees hthread =>
          have hless := hthread.stepsLeft_lt (hsees.seesStop hs)
          simp only [stepsLeft, entryLeft, inReadAfter, Bool.false_eq_true, false_and, if_false]
          -- whoever leaves a `read` may enter one again
          by_cases hread : w.session.epoll.pc = .read
          · rw [if_pos hread] at hless
            split <;> omega
          · rw [if_neg fun hin => hread hin.2]
            omega

/-! ### Who can go on -/

/-- A step of the session is a quiet step, if the kernel answers so. -/
theorem not_final_of_step {nonBlock : Bool} {w : ReadingSession} {a : Session.Action}
    {session : Session} (hallow : w.Allows nonBlock a) (hquiet : w.Quiet (.act a))
    (hstep : w.session.Step a session) : ¬ Final (QuietStep nonBlock) w := by
  refine not_final_iff.mpr ⟨.act a, ⟨session, w.inReadAfter a⟩, ?_, hquiet⟩
  rw [Step, next, if_pos hallow, hstep, Option.map_some]

theorem not_final_of_epoll {nonBlock : Bool} {w : ReadingSession} {a : EpollHandler.Answer}
    (hallow : w.Allows nonBlock (.epoll a)) (hquiet : w.Quiet (.act (.epoll a)))
    (hsees : w.session.AllowsEpoll a) (hat : a.AnswersAt w.session.epoll.pc) :
    ¬ Final (QuietStep nonBlock) w := by
  obtain ⟨t, ht⟩ := hat.step
  exact not_final_of_step hallow hquiet (Session.step_of_epoll hsees ht)

/-- The event thread comes to its end, or waits in a `read` that blocks. -/
theorem epoll_of_final {nonBlock : Bool} {w : ReadingSession}
    (hfinal : Final (QuietStep nonBlock) w) :
    (∃ why, w.session.epoll.pc = .returned why) ∨ w.session.Broken ∨
      (nonBlock = false ∧ w.inRead = true ∧ w.session.epoll.pc = .read) := by
  cases hpc : w.session.epoll.pc with
  | returned why => exact .inl ⟨why, rfl⟩
  | undefined why => exact .inr (.inl (.inr (.inr ⟨why, hpc⟩)))
  | spinning => exact .inr (.inl (.inr (.inl hpc)))
  | epollCtl =>
      refine absurd hfinal (not_final_of_epoll (a := .epollCtl false) trivial trivial trivial ?_)
      exact hpc
  | outerHead =>
      refine absurd hfinal (not_final_of_epoll (a := .stopped w.session.stopped) trivial trivial
        rfl ?_)
      exact .inl hpc
  | drainHead =>
      refine absurd hfinal (not_final_of_epoll (a := .stopped w.session.stopped) trivial trivial
        rfl ?_)
      exact .inr hpc
  | epollWait =>
      refine absurd hfinal (not_final_of_epoll (a := .epollWait 0 .zero) trivial
        (Int.le_refl 0) trivial ?_)
      exact hpc
  | dispatch =>
      obtain ⟨path, hpath⟩ : ∃ path, w.session.AllowsEpoll (.parse path true .zero) := by
        cases hfront : w.session.epoll.inotifyEventBuffer.head? with
        | none => exact ⟨[], by simp [Session.AllowsEpoll, hfront]⟩
        | some event =>
            exact ⟨w.session.mgr.getPath event.wd, by simp [Session.AllowsEpoll, hfront]⟩
      refine absurd hfinal (not_final_of_epoll (a := .parse path true .zero) trivial trivial
        hpath ?_)
      exact hpc
  | read =>
      refine .inr (.inr ?_)
      cases hin : w.inRead with
      | false =>
          cases hopen : w.session.inotifyOpen with
          | true =>
              refine absurd hfinal (not_final_iff.mpr ⟨.enterRead, { w with inRead := true }, ?_⟩)
              exact ⟨if_pos ⟨hpc, hopen, hin⟩, trivial⟩
          | false =>
              refine absurd hfinal (not_final_of_epoll (a := .readError .ebadf) ?_ ?_ trivial hpc)
              · simp [Allows, hin, hopen]
              · simp [Quiet, hin]
      | true =>
          cases nonBlock with
          | false => exact ⟨rfl, rfl, rfl⟩
          | true =>
              refine absurd hfinal (not_final_of_epoll (a := .readError .eagain) ?_ ?_ trivial hpc)
              · simp [Allows, hin, Errno.ebadf]
              · exact fun _ => rfl

/-- The directory thread comes to its end. -/
theorem directory_of_final {nonBlock : Bool} {w : ReadingSession}
    (hfinal : Final (QuietStep nonBlock) w) :
    w.session.directory.pc = .returned ∨ w.session.Broken := by
  have hends {a : DirectoryThread.Answer} (hsees : w.session.AllowsDirectory a) :
      DirectoryThread.step w.session.directory a = none := by
    refine Option.eq_none_iff_forall_ne_some.mpr fun t ht => ?_
    exact not_final_of_step (a := .directory a) trivial trivial
      (Session.step_of_directory hsees ht) hfinal
  cases hpc : w.session.directory.pc with
  | returned => exact .inl rfl
  | undefined => exact .inr (.inl hpc)
  | nftw => simpa [DirectoryThread.step, hpc] using hends (a := .ends) trivial
  | ftwCallback fpath typeflag =>
      have hnone := hends (a := .stopped w.session.stopped) rfl
      cases hs : w.session.stopped <;> simp [DirectoryThread.step, hpc, hs] at hnone
  | realpath fpath =>
      simpa [DirectoryThread.step, hpc] using hends (a := .realpath (.error [])) trivial
  | addWatch path => simpa [DirectoryThread.step, hpc] using hends (a := .addWatch 0) trivial
  | addList watchFd path => simpa [DirectoryThread.step, hpc] using hends (a := .addList) trivial

/-- **Where a quiet session comes to rest**: it is over, or a worker is broken, or the
event thread waits in a `read` that blocks. -/
theorem final_cases {nonBlock : Bool} {w : ReadingSession}
    (hfinal : Final (QuietStep nonBlock) w) :
    w.session.Ended ∨ w.session.Broken ∨
      (nonBlock = false ∧ w.inRead = true ∧ w.session.epoll.pc = .read) := by
  have hfinalize : w.session.finalize = none := by
    refine Option.eq_none_iff_forall_ne_some.mpr fun s' hs' => ?_
    exact not_final_of_step (a := .finalizer) trivial trivial hs' hfinal
  rcases directory_of_final hfinal with hdirectory | hbroken
  · rcases epoll_of_final hfinal with ⟨why, hepoll⟩ | hrest
    · refine .inl ⟨?_, hdirectory, why, hepoll⟩
      cases hpc : w.session.finalizer <;>
        simp [Session.finalize, hpc, hdirectory, hepoll] at hfinalize
      rfl
    · exact .inr hrest
  · exact .inr (.inl hbroken)

/-! ### A `read` that blocks -/

/-- When everyone else is through, a `read` that blocks is where the session stays. -/
theorem final_of_blocked {w : ReadingSession} (hin : w.inRead = true)
    (hepoll : w.session.epoll.pc = .read) (hdirectory : w.session.directory.pc = .returned)
    (hfinalizer : w.session.finalizer = .joinEpoll) : Final (QuietStep false) w := by
  intro a w' h
  obtain ⟨hstep, hquiet⟩ := h
  cases hstep.does with
  | enterRead _ _ hout => exact Bool.noConfusion (hin.symm.trans hout)
  | act hallow hsession =>
      cases hsession.does with
      | directory _ hthread => exact hthread.not_returned hdirectory
      | finalizer hfinalize =>
          cases hfinalize with
          | setStopped hpc | closeInotify hpc | closeEpoll hpc | joinDirectory hpc _ =>
              exact FinalizePc.noConfusion (hfinalizer.symm.trans hpc)
          | joinEpoll _ hreturned =>
              exact EpollHandler.Pc.noConfusion (hepoll.symm.trans hreturned)
      | @epoll a t _ hthread =>
          have hat := hthread.answersAt
          rw [hepoll] at hat
          cases a with
          | readError errno =>
              rw [Allows, if_pos hin] at hallow
              exact Bool.false_ne_true (hallow.2 (hquiet hin))
          | readBytes n buf => exact hquiet
          | epollCtl _ | epollWait _ _ | parse _ _ _ => exact EpollHandler.Pc.noConfusion hat
          | stopped value =>
              rcases hat with hat | hat
              · exact EpollHandler.Pc.noConfusion hat
              · exact EpollHandler.Pc.noConfusion hat

/-- Each `nftw` ends at once. -/
theorem run_ends (nonBlock : Bool) (roots : List Path) :
    ∀ w : ReadingSession, w.session.directory = .atRoots roots →
      ∃ hist, Run (Step nonBlock) w hist
        { w with session := { w.session with directory := .atRoots [] } } := by
  induction roots with
  | nil =>
      intro w hw
      rw [← hw]
      exact ⟨[], .nil w⟩
  | cons root roots ih =>
      intro w hw
      obtain ⟨hist, hrun⟩ :=
        ih { w with session := { w.session with directory := .atRoots roots } } rfl
      refine ⟨(w, .act (.directory .ends)) :: hist, .cons ?_ hrun⟩
      have hstep : DirectoryThread.step w.session.directory .ends = some (.atRoots roots) := by
        rw [hw]
        rfl
      have hsession := Session.step_of_directory (a := .ends) trivial hstep
      have hpc : w.session.directory.pc = .nftw := by
        rw [hw]
        rfl
      simp only [Session.mgrAfter, Session.addsAfter, hpc] at hsession
      have hallow : w.Allows nonBlock (.directory .ends) := trivial
      rw [Step, next, if_pos hallow, hsession]
      rfl

/-- The event thread is woken and enters a `read`; then the session is finalized. -/
def finalizedInRead : List Action :=
  [.act (.epoll (.epollCtl false)), .act (.epoll (.stopped false)),
   .act (.epoll (.epollWait 1 .zero)), .act (.epoll (.stopped false)), .enterRead,
   .act .finalizer, .act .finalizer, .act .finalizer, .act .finalizer]

/-- It can come to that in any session, whatever its roots. -/
theorem exists_run_blocked (mgr : InotifyWatchMgr) (detectList : List Path) (errno : Errno) :
    ∃ hist w, Run (Step false) (start mgr detectList errno) hist w ∧ w.session.stopped = true ∧
      w.inRead = true ∧ w.session.epoll.pc = .read ∧ w.session.directory.pc = .returned ∧
      w.session.finalizer = .joinEpoll := by
  obtain ⟨walk, hwalk⟩ := run_ends false detectList (start mgr detectList errno) rfl
  have hlast : (exec (next false)
      { start mgr detectList errno with
        session := { (start mgr detectList errno).session with directory := .atRoots [] } }
      finalizedInRead).map (fun x => (x.2.session.stopped, x.2.inRead, x.2.session.epoll.pc,
        x.2.session.directory.pc, x.2.session.finalizer)) =
      some (true, true, .read, .returned, .joinEpoll) := by
    rfl
  obtain ⟨⟨hist, w⟩, hexec, hw⟩ := Option.map_eq_some_iff.mp hlast
  simp only [Prod.mk.injEq] at hw
  exact ⟨walk ++ hist, w, hwalk.append (run_of_exec hexec), hw⟩

/-! ### The end -/

/-- Whether the descriptor that is read does not block, after `Initialize`. -/
def nonBlockAfter (o : Outcomes) (f : FlagOutcomes) (stopped : Bool) (t : FlagTable) : Bool :=
  decide ((InotifyEventHandler.initializeFlags o f stopped t).NonBlocking o.inotifyInit)

/-- Whoever goes on quietly until nothing is left to do finds the session over. -/
def Returns (nonBlock : Bool) (w : ReadingSession) : Prop :=
  ∀ hist w', Run (QuietStep nonBlock) w hist w' → Final (QuietStep nonBlock) w' →
    w'.session.Ended ∨ w'.session.Broken

/-- **Stopping bounds the work that is left**: once the flag is set all three threads
together take no more steps than this, whatever they are answered, and a quiet session
comes to rest. -/
theorem stop_bounds_steps (nonBlock : Bool) {w : ReadingSession}
    (hs : w.session.stopped = true) :
    (∀ hist w', Run (Step nonBlock) w hist w' → hist.length ≤
      2 * w.session.directory.roots.length + w.session.epoll.inotifyEventBuffer.length +
        readBufferSize + 17) ∧
      ∃ hist w', Run (QuietStep nonBlock) w hist w' ∧ Final (QuietStep nonBlock) w' := by
  constructor
  · intro hist w' hrun
    have hlength := hrun.length_le (I := fun w => w.session.stopped = true) (μ := stepsLeft)
      (fun _ _ _ hs hstep => hstep.stopped hs) (fun _ _ _ hs hstep => hstep.stepsLeft_lt hs) hs
    have hdirectory := DirectoryThread.stepsLeft_le w.session.directory
    have hepoll := EpollHandler.stepsLeft_le w.session.epoll
    have hfinalizer : w.session.finalizer.stepsLeft ≤ 5 := by
      cases w.session.finalizer <;> decide
    have hentry : w.entryLeft ≤ 1 := by
      unfold entryLeft
      split <;> omega
    simp only [stepsLeft] at hlength
    omega
  · exact exists_run_final (I := fun w => w.session.stopped = true) (μ := stepsLeft)
      (fun _ _ _ hs hstep => hstep.1.stopped hs) (fun _ _ _ hs hstep => hstep.1.stepsLeft_lt hs) hs

theorem stop_bounds_steps_oneRoot :
    ∃ hist w, Run (Step true) (start .new [Session.pathE] .zero) hist w ∧
      w.session.stopped = true ∧
      ∀ hist' w', Run (Step true) w hist' w' → hist'.length ≤ 1043 := by
  have hlast : (exec (next true) (start .new [Session.pathE] .zero) [.act .finalizer]).map
      (fun x => (x.2.session.stopped, x.2.session.directory.roots,
        x.2.session.epoll.inotifyEventBuffer)) = some (true, [Session.pathE], []) := by
    rfl
  obtain ⟨⟨hist, w⟩, hexec, hw⟩ := Option.map_eq_some_iff.mp hlast
  simp only [Prod.mk.injEq] at hw
  obtain ⟨hs, hroots, hbuffer⟩ := hw
  refine ⟨hist, w, run_of_exec hexec, hs, fun hist' w' hrun => ?_⟩
  have hbound := (stop_bounds_steps true hs).1 hist' w' hrun
  simp only [hroots, hbuffer, List.length_singleton, List.length_nil, readBufferSize] at hbound
  omega

/-- **When `FinalizeLock` comes back.** However a session ran until the flag was set: if
`SetNonBlock` succeeded on the inotify descriptor, it ends, or a worker has broken; if it
did not, `FinalizeLock` can wait for ever. `Initialize` returned true in both cases. -/
theorem finalize_returns_iff (o : Outcomes) (hready : o.HandlerReady)
    (hapart : o.inotifyInit ≠ o.epollCreate1) (f : FlagOutcomes) (stopped : Bool) (t : FlagTable)
    (mgr : InotifyWatchMgr) (detectList : List Path) (errno : Errno) :
    (∀ hist w, Run (Step (nonBlockAfter o f stopped t)) (start mgr detectList errno) hist w →
      w.session.stopped = true → Returns (nonBlockAfter o f stopped t) w) ↔
      f.inotifyNonBlock.Succeed := by
  have hflag : nonBlockAfter o f stopped t = true ↔ f.inotifyNonBlock.Succeed := by
    rw [nonBlockAfter, decide_eq_true_iff]
    exact InotifyEventHandler.initializeFlags_nonBlock_iff hready hapart f stopped t
  rw [← hflag]
  constructor
  · intro hreturns
    by_contra hblocks
    rw [Bool.not_eq_true] at hblocks
    rw [hblocks] at hreturns
    obtain ⟨hist, w, hrun, hs, hin, hepoll, hdirectory, hfinalizer⟩ :=
      exists_run_blocked mgr detectList errno
    have hend := hreturns hist w hrun hs [] w (.nil w)
      (final_of_blocked hin hepoll hdirectory hfinalizer)
    simp [Session.Ended, Session.Broken, hepoll, hdirectory, hfinalizer] at hend
  · intro hnonBlock hist w _ _ hist' w' _ hfinal
    rcases final_cases hfinal with hended | hbroken | ⟨hblocks, -, -⟩
    · exact .inl hended
    · exact .inr hbroken
    · exact absurd (hnonBlock.symm.trans hblocks) (Ne.symm Bool.false_ne_true)

/-- Both descriptors are opened. -/
def opensBoth : Outcomes := ⟨.succeeds, 3, 4, false, false⟩

/-- The write of the status flags fails on the inotify descriptor. -/
def setNonBlockFails : FlagOutcomes :=
  ⟨⟨false, false⟩, ⟨false, true⟩, ⟨false, false⟩, ⟨false, false⟩⟩

theorem finalize_returns_setNonBlockFails :
    ¬ ∀ hist w,
      Run (Step (nonBlockAfter opensBoth setNonBlockFails false fun _ => none))
        (start .new [Session.pathE] .zero) hist w → w.session.stopped = true →
        Returns (nonBlockAfter opensBoth setNonBlockFails false fun _ => none) w := by
  have hready : opensBoth.HandlerReady := ⟨by decide, by decide⟩
  rw [finalize_returns_iff opensBoth hready (by decide) setNonBlockFails false
    (fun _ => none) .new [Session.pathE] .zero]
  decide

end ReadingSession

end InotifyRealtime
