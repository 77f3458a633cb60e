import InotifyRealtime.Foundation.Channel
import InotifyRealtime.Foundation.Machine
import InotifyRealtime.EpollHandler
import InotifyRealtime.DecodeSound
/-!
# InotifyRealtime.EventStream

The event thread in front of a kernel that hands out a stream of records.

`Sys` puts the thread together with the stop flag and the records not yet read.
Every `read` that returns data returns the next few whole records, over whatever
the array held before. Nothing else about the kernel, the other threads or the
schedule is fixed: `epoll_wait` and `read` may fail in any way at any time, the
flag may be set at any moment, and each call of `ParseRawEvent` may yield either
value.

Two facts about every run:

* the thread refines an ordered channel (`Sys.next_move`), so no event is lost,
  duplicated or reordered (`events_conserved`);
* the loop that dispatches calls `ParseRawEvent` first and looks at the deque
  afterwards. It finds the deque empty exactly when a drain phase ended without
  an event or a call on the last event yielded `true` (`parse_finds_event_iff`).
-/

namespace InotifyRealtime.EpollHandler

open Bytes Machine

structure Sys where
  thread : Thread
  stopped : Bool
  unread : List InotifyEvent

/-- The thread enters `EpollHandler` before a stream. -/
def Sys.start (stream : List InotifyEvent) (stopped : Bool) (errno : Errno) : Sys :=
  ⟨.start errno, stopped, stream⟩

inductive Action
  /-- Another thread sets `stopped_`. -/
  | setStopped
  /-- The thread goes on, with anything but data from `read`. -/
  | answer (a : Answer)
  /-- `read` returns the next `count` records and leaves the array like this. -/
  | readRecords (count : Nat) (buf : ReadBuffer)

/-- Tests of the flag see its value, and data is left to `readRecords`. -/
def Sys.Allows (s : Sys) : Answer → Prop
  | .stopped value => value = s.stopped
  | .readBytes n _ => n = 0
  | _ => True

instance (s : Sys) : (a : Answer) → Decidable (s.Allows a)
  | .stopped value => inferInstanceAs (Decidable (value = s.stopped))
  | .readBytes n _ => inferInstanceAs (Decidable (n = 0))
  | .epollCtl _ | .epollWait _ _ | .readError _ | .parse _ _ _ => .isTrue trivial

/-- The next `count` records are some, fit the array and fill its front. -/
def Sys.Hands (s : Sys) (count : Nat) (buf : ReadBuffer) : Prop :=
  s.unread.take count ≠ [] ∧ buf.Holds (s.unread.take count)

instance (s : Sys) (count : Nat) (buf : ReadBuffer) : Decidable (s.Hands count buf) :=
  inferInstanceAs (Decidable (_ ∧ _))

def Sys.next (s : Sys) : Action → Option Sys
  | .setStopped => some { s with stopped := true }
  | .answer a =>
      if s.Allows a then (step s.thread a).map fun thread => { s with thread } else none
  | .readRecords count buf =>
      if s.Hands count buf then
        (step s.thread (.readBytes (encodeAll (s.unread.take count)).length buf)).map
          fun thread => { s with thread, unread := s.unread.drop count }
      else none

/-- The steps of the system. -/
def Sys.Step (s : Sys) (a : Action) (s' : Sys) : Prop := s.next a = some s'

/-! ### Reading whole records -/

theorem encodeAll_length_pos {rs : List InotifyEvent} (h : rs ≠ []) :
    0 < (encodeAll rs).length := by
  have hmul := headerSize_mul_length_le rs
  have hlen : 0 < rs.length := List.length_pos_iff.mpr h
  simp only [headerSize] at hmul
  omega

/-- A read of whole records appends one event for each and goes back to the head
of the drain loop. -/
theorem step_readRecords {t t' : Thread} {rs : List InotifyEvent} {buf : ReadBuffer}
    (hrs : rs ≠ []) (hbuf : buf.Holds rs)
    (h : step t (.readBytes (encodeAll rs).length buf) = some t') :
    t.pc = .read ∧ t' = { t with
      errorCount := 0
      inotifyEventBuffer := t.inotifyEventBuffer ++ receivedAll rs (buf.behind rs)
      pc := .drainHead } := by
  have hdec := decode_holds hbuf t.inotifyEventBuffer
  have hpos := encodeAll_length_pos hrs
  have hfit := hbuf.length_le
  generalize (encodeAll rs).length = n at *
  cases step_cases h with
  | readRetried _ hnd | readEndsDrain _ hnd | readIgnored _ hnd =>
      cases hnd
      exact absurd hpos (Nat.lt_irrefl 0)
  | readOversized _ hbig => omega
  | decoded hpc _ _ hdone =>
      rw [hdec, DecodeResult.done.injEq] at hdone
      subst hdone
      exact ⟨hpc, rfl⟩
  | decodeFaults _ _ _ hfault => simp [hdec] at hfault
  | decodeSpins _ _ _ hspin => simp [hdec] at hspin

/-- What the system can do at once: the flag is set, the thread takes one of its
branches, or it receives whole records. -/
theorem Sys.step_cases {s s' : Sys} {a : Action} (h : s.Step a s') :
    (a = .setStopped ∧ s' = { s with stopped := true }) ∨
    (∃ b t, a = .answer b ∧ s.Allows b ∧ EpollHandler.Step s.thread b t ∧
      s' = { s with thread := t }) ∨
    (∃ count buf, a = .readRecords count buf ∧ s.Hands count buf ∧ s.thread.pc = .read ∧
      s' = { s with
        thread := { s.thread with
          errorCount := 0
          inotifyEventBuffer := s.thread.inotifyEventBuffer ++
            receivedAll (s.unread.take count) (buf.behind (s.unread.take count))
          pc := .drainHead }
        unread := s.unread.drop count }) := by
  cases a with
  | setStopped =>
      obtain rfl := Option.some.inj h
      exact .inl ⟨rfl, rfl⟩
  | answer b =>
      simp only [Sys.Step, Sys.next] at h
      by_cases hallow : s.Allows b
      · rw [if_pos hallow] at h
        obtain ⟨t, ht, rfl⟩ := Option.map_eq_some_iff.mp h
        exact .inr (.inl ⟨b, t, rfl, hallow, EpollHandler.step_cases ht, rfl⟩)
      · rw [if_neg hallow] at h
        exact absurd h (by simp)
  | readRecords count buf =>
      simp only [Sys.Step, Sys.next] at h
      by_cases hhands : s.Hands count buf
      · rw [if_pos hhands] at h
        obtain ⟨t, ht, rfl⟩ := Option.map_eq_some_iff.mp h
        obtain ⟨hpc, rfl⟩ := step_readRecords hhands.1 hhands.2 ht
        exact .inr (.inr ⟨count, buf, rfl, hhands, hpc, rfl⟩)
      · rw [if_neg hhands] at h
        exact absurd h (by simp)

/-! ### Conservation -/

/-- The system as an ordered channel of events, names aside. -/
def Sys.channel (s : Sys) : Channel Header where
  unread := s.unread.map InotifyEvent.header
  queued := s.thread.inotifyEventBuffer.map CustomizedInotifyEvent.header
  delivered := s.thread.dispatched.map CustomizedInotifyEvent.header

/-- The thread's queue and history under an answer that hands it no data: kept,
or one event moved from the front of the queue to the history. -/
theorem Step.moves {t t' : Thread} {a : Answer} (h : Step t a t')
    (hdata : ∀ n buf, a = .readBytes n buf → n = 0) :
    (t'.inotifyEventBuffer = t.inotifyEventBuffer ∧ t'.dispatched = t.dispatched) ∨
    ∃ event, t.inotifyEventBuffer = event :: t'.inotifyEventBuffer ∧
      t'.dispatched = t.dispatched ++ [event] := by
  cases h with
  | readRetried _ hnd | readEndsDrain _ hnd | readIgnored _ hnd =>
      cases hnd <;> exact .inl ⟨rfl, rfl⟩
  | decoded _ hpos _ _ =>
      obtain rfl := hdata _ _ rfl
      exact absurd hpos (Nat.lt_irrefl 0)
  | dispatched _ hq => exact .inr ⟨_, hq, rfl⟩
  | _ => exact .inl ⟨rfl, rfl⟩

theorem Sys.Allows.no_data {s : Sys} {a : Answer} (h : s.Allows a) :
    ∀ n buf, a = .readBytes n buf → n = 0 := by
  rintro n buf rfl
  exact h

/-- **Refinement.** Every step of the system is a move of its channel. -/
theorem Sys.next_move {s s' : Sys} {a : Action} (h : s.Step a s') :
    s.channel.Move s'.channel := by
  rcases Sys.step_cases h with ⟨-, rfl⟩ | ⟨b, t, -, hallow, hstep, rfl⟩ | ⟨count, buf, -, -, -, rfl⟩
  · exact .idle _
  · rcases hstep.moves hallow.no_data with ⟨hq, hd⟩ | ⟨event, hq, hd⟩
    · have hsame : Sys.channel { s with thread := t } = s.channel := by
        simp only [Sys.channel, hq, hd]
      rw [hsame]
      exact .idle _
    · have hpop : Sys.channel { s with thread := t } = { s.channel with
          queued := t.inotifyEventBuffer.map CustomizedInotifyEvent.header
          delivered := s.channel.delivered ++ [event.header] } := by
        simp [Sys.channel, hd]
      rw [hpop]
      exact .deliver (by simp [Sys.channel, hq])
  · have hunread : s.channel.unread =
        (s.unread.take count).map InotifyEvent.header ++
          (s.unread.drop count).map InotifyEvent.header := by
      rw [← List.map_append, List.take_append_drop]
      rfl
    have hqueued : (receivedAll (s.unread.take count) (buf.behind (s.unread.take count))).map
        CustomizedInotifyEvent.header = (s.unread.take count).map InotifyEvent.header :=
      receivedAll_header _ _
    have htake := Channel.Move.take hunread
    simpa only [Sys.channel, List.map_append, hqueued] using htake

/-- The places where the thread holds no events: outside a wake-up. -/
def Pc.Idle : Pc → Prop
  | .epollCtl | .outerHead | .epollWait | .returned _ => True
  | _ => False

/-- The queue is empty outside a wake-up. -/
def Thread.Quiet (t : Thread) : Prop := t.pc.Idle → t.inotifyEventBuffer = []

theorem Step.quiet {t t' : Thread} {a : Answer} (h : Step t a t') (ht : t.Quiet) : t'.Quiet := by
  intro hidle
  cases h with
  | epollAddFailed hpc | epollAdded hpc | leave hpc | enter hpc | waitInterrupted hpc
  | waitFailed hpc | waitGivenUp hpc | waitTimeout hpc =>
      exact ht (by rw [hpc]; trivial)
  | @dispatched path result errno event rest hpc hq =>
      -- the loop goes back to the outer head only when it saw the deque empty
      by_cases hmore : result ∨ rest ≠ []
      · simp only [if_pos hmore] at hidle
        exact hidle.elim
      · simpa using (not_or.mp hmore).2
  | _ => exact hidle.elim

theorem Sys.step_quiet {s s' : Sys} {a : Action} (h : s.Step a s') (hs : s.thread.Quiet) :
    s'.thread.Quiet := by
  rcases Sys.step_cases h with ⟨-, rfl⟩ | ⟨b, t, -, -, hstep, rfl⟩ | ⟨count, buf, -, -, -, rfl⟩
  · exact hs
  · exact hstep.quiet hs
  · exact fun hidle => hidle.elim

/-- What every reachable state has: all of the stream, in order, and no events
held outside a wake-up. -/
structure Sys.Conserves (stream : List InotifyEvent) (s : Sys) : Prop where
  content_eq : s.channel.content = stream.map InotifyEvent.header
  quiet : s.thread.Quiet

theorem Sys.conserves_step {stream : List InotifyEvent} {s s' : Sys} {a : Action}
    (hs : s.Conserves stream) (h : s.Step a s') : s'.Conserves stream :=
  ⟨(Sys.next_move h).content_eq.trans hs.content_eq, Sys.step_quiet h hs.quiet⟩

theorem Sys.start_conserves (stream : List InotifyEvent) (stopped : Bool) (errno : Errno) :
    (Sys.start stream stopped errno).Conserves stream :=
  ⟨rfl, fun _ => rfl⟩

/-- **Event conservation.** Whatever the kernel, the other threads and the calls
of `ParseRawEvent` do, in every state of a run that has not called it on an empty
deque (and in the states after one, where the model stops) the events dispatched,
the events queued and the records not yet read are together the stream, in order;
and the deque is empty whenever control is at the head of the outer loop. -/
theorem events_conserved (stream : List InotifyEvent) (stopped : Bool) (errno : Errno) (s : Sys)
    (h : Reaches Sys.Step (Sys.start stream stopped errno) s) :
    s.thread.dispatched.map CustomizedInotifyEvent.header ++
        s.thread.inotifyEventBuffer.map CustomizedInotifyEvent.header ++
        s.unread.map InotifyEvent.header = stream.map InotifyEvent.header ∧
      (s.thread.pc = .outerHead → s.thread.inotifyEventBuffer = []) := by
  have hs := h.invariant (fun _ _ _ hI hstep => Sys.conserves_step hI hstep)
    (Sys.start_conserves stream stopped errno)
  exact ⟨hs.content_eq, fun hpc => hs.quiet (by rw [hpc]; trivial)⟩

/-- A wake-up with two records, taken in one `read`; the flag is set before the
first of them is dispatched. -/
def wakeUp : List Action :=
  [.answer (.epollCtl false), .answer (.stopped false), .answer (.epollWait 1 .zero),
   .answer (.stopped false), .readRecords 2 (.zeroed [createRecord, closeRecord] (by decide)),
   .setStopped, .answer (.stopped true), .answer (.parse [] false .zero)]

theorem wakeUp_last :
    (exec Sys.next (Sys.start [createRecord, closeRecord] false .zero) wakeUp).any fun x =>
      decide (x.2.unread = [] ∧ x.2.thread.dispatched = [createRecord.event]) := by
  decide +kernel

/-- Both records have been read, and one is dispatched; so the other is queued. -/
theorem events_conserved_wakeUp :
    ∃ s hist, exec Sys.next (Sys.start [createRecord, closeRecord] false .zero) wakeUp =
        some (hist, s) ∧
      s.unread = [] ∧ s.thread.dispatched = [createRecord.event] ∧
      s.thread.dispatched.map CustomizedInotifyEvent.header ++
          s.thread.inotifyEventBuffer.map CustomizedInotifyEvent.header ++
          s.unread.map InotifyEvent.header = [createRecord.header, closeRecord.header] := by
  obtain ⟨⟨hist, s⟩, hexec, hchecked⟩ := (Option.any_eq_true _ _).mp wakeUp_last
  obtain ⟨hread, hdispatched⟩ := of_decide_eq_true hchecked
  exact ⟨s, hist, hexec, hread, hdispatched,
    (events_conserved _ false .zero s ⟨hist, run_of_exec hexec⟩).1⟩

/-! ### The call of `ParseRawEvent` -/

/-- Whenever control stands at the call of `ParseRawEvent`, the deque has a front. -/
def Sys.FindsEvent (s : Sys) : Prop :=
  s.thread.pc = .dispatch → s.thread.inotifyEventBuffer ≠ []

/-- The steps that leave the dispatch loop an event to find. A drain phase must
not end with an empty deque: not on the stop flag, and not on a `read` without
data whose `errno` ends it. And a call of `ParseRawEvent` on the last event must
not yield `true`, which is what the loop takes for a reason not to look. -/
def KeepsQueue (s : Sys) : Action → Prop
  | .answer (.stopped value) =>
      s.thread.pc = .drainHead → value = true → s.thread.inotifyEventBuffer ≠ []
  | .answer (.readError errno) => Errno.EndsDrain errno → s.thread.inotifyEventBuffer ≠ []
  | .answer (.readBytes _ _) =>
      Errno.EndsDrain s.thread.errno → s.thread.inotifyEventBuffer ≠ []
  | .answer (.parse _ result _) => result = true → s.thread.inotifyEventBuffer.length ≠ 1
  | _ => True

instance (s : Sys) : (a : Action) → Decidable (KeepsQueue s a)
  | .answer (.stopped _) => inferInstanceAs (Decidable (_ → _ → _))
  | .answer (.readError _) | .answer (.readBytes _ _) | .answer (.parse _ _ _) =>
      inferInstanceAs (Decidable (_ → _))
  | .answer (.epollCtl _) | .answer (.epollWait _ _) | .readRecords _ _ | .setStopped =>
      .isTrue trivial

theorem Errno.not_endsDrain {e : Errno} (h : Errno.Retried e) : ¬ Errno.EndsDrain e := by
  rcases h with rfl | rfl <;> simp [Errno.EndsDrain]

/-- A `read` without data keeps the queue, and the error that decides is its own
or the one `errno` already held. -/
theorem keepsQueue_noData {s : Sys} {a : Answer} {u : Thread} (h : NoData s.thread a u) :
    u.inotifyEventBuffer = s.thread.inotifyEventBuffer ∧
      (KeepsQueue s (.answer a) ↔
        (Errno.EndsDrain u.errno → s.thread.inotifyEventBuffer ≠ [])) := by
  cases h <;> exact ⟨rfl, Iff.rfl⟩

/-- One step of the thread leaves an event to find exactly when it keeps the queue. -/
theorem Step.findsEvent_iff {s : Sys} {a : Answer} {t : Thread} (hs : s.FindsEvent)
    (h : Step s.thread a t) (hdata : ∀ n buf, a = .readBytes n buf → n = 0) :
    Sys.FindsEvent { s with thread := t } ↔ KeepsQueue s (.answer a) := by
  cases h with
  | epollAddFailed | epollAdded | waitInterrupted | waitFailed | waitGivenUp | waitTimeout
  | woken => simp [Sys.FindsEvent, KeepsQueue]
  | leave hpc | enter hpc => simp [Sys.FindsEvent, KeepsQueue, hpc]
  | @drainLeft value hpc hleave =>
      -- left on the cap, the deque is full; left on the flag, it is what it is
      have hfull : value = false → s.thread.inotifyEventBuffer ≠ [] := by
        rintro rfl hempty
        simp [hempty, maxInotifyEventSize] at hleave
      cases value with
      | true => simp [Sys.FindsEvent, KeepsQueue, hpc]
      | false => simpa [Sys.FindsEvent, KeepsQueue] using hfull
  | drainEntered hpc hfew => simp [Sys.FindsEvent, KeepsQueue]
  | readRetried hpc hnd hretry =>
      obtain ⟨-, hkeeps⟩ := keepsQueue_noData hnd
      rw [hkeeps]
      simp [Sys.FindsEvent, Errno.not_endsDrain hretry]
  | readEndsDrain hpc hnd hretry hends =>
      obtain ⟨hq, hkeeps⟩ := keepsQueue_noData hnd
      rw [hkeeps]
      simp [Sys.FindsEvent, hends, hq]
  | readIgnored hpc hnd hretry hends =>
      obtain ⟨-, hkeeps⟩ := keepsQueue_noData hnd
      rw [hkeeps]
      simp [Sys.FindsEvent, hends]
  | readOversized _ hbig =>
      obtain rfl := hdata _ _ rfl
      exact absurd hbig (Nat.not_lt_zero _)
  | decoded _ hpos | decodeFaults _ hpos | decodeSpins _ hpos =>
      obtain rfl := hdata _ _ rfl
      exact absurd hpos (Nat.lt_irrefl 0)
  | @dispatched path result errno event rest hpc hq =>
      cases result <;> cases rest <;> simp [Sys.FindsEvent, KeepsQueue, hq]
  | frontOfEmpty hpc hq => exact absurd hq (hs hpc)

theorem Sys.findsEvent_iff {s s' : Sys} {a : Action} (hs : s.FindsEvent) (h : s.Step a s') :
    s'.FindsEvent ↔ KeepsQueue s a := by
  rcases Sys.step_cases h with ⟨rfl, rfl⟩ | ⟨b, t, rfl, hallow, hstep, rfl⟩ |
    ⟨count, buf, rfl, -, -, rfl⟩
  · exact iff_of_true hs trivial
  · exact hstep.findsEvent_iff hs hallow.no_data
  · exact iff_of_true (by simp [Sys.FindsEvent]) trivial

/-- **When `ParseRawEvent` finds an event.** Along a run of `EpollHandler`, every
call of `ParseRawEvent` finds at least one event in the deque if and only if
every step of the run keeps the queue: no drain phase ends with an empty deque,
and no call on the last event yields `true`. -/
theorem parse_finds_event_iff (stream : List InotifyEvent) (stopped : Bool) (errno : Errno)
    (hist : List (Sys × Action)) (s : Sys)
    (h : Run Sys.Step (Sys.start stream stopped errno) hist s) :
    (∀ t ∈ visited hist s, t.FindsEvent) ↔ Meets KeepsQueue hist :=
  h.forall_visited_iff (I := fun _ => True) (fun _ _ _ _ _ => trivial)
    (fun _ _ _ _ hP hstep => Sys.findsEvent_iff hP hstep) trivial
    (by simp [Sys.FindsEvent, Sys.start, Thread.start])

theorem wakeUp_keepsQueue :
    (exec Sys.next (Sys.start [createRecord, closeRecord] false .zero) wakeUp).any fun x =>
      decide (Meets KeepsQueue x.1 ∧ x.2.thread.dispatched = [createRecord.event]) := by
  decide +kernel

theorem parse_finds_event_wakeUp :
    ∃ hist s, exec Sys.next (Sys.start [createRecord, closeRecord] false .zero) wakeUp =
        some (hist, s) ∧
      Meets KeepsQueue hist ∧ s.thread.dispatched = [createRecord.event] ∧
      ∀ t ∈ visited hist s, t.FindsEvent := by
  obtain ⟨⟨hist, s⟩, hexec, hchecked⟩ := (Option.any_eq_true _ _).mp wakeUp_keepsQueue
  obtain ⟨hkeeps, hdispatched⟩ := of_decide_eq_true hchecked
  exact ⟨hist, s, hexec, hkeeps, hdispatched,
    (parse_finds_event_iff _ false .zero hist s (run_of_exec hexec)).mpr hkeeps⟩

/-- The flag set between `epoll_wait` and the head of the drain loop: the call of
`ParseRawEvent` that follows takes the front of an empty deque. -/
def stopAtWakeUp : List Action :=
  [.answer (.epollCtl false), .answer (.stopped false), .answer (.epollWait 1 .zero),
   .setStopped, .answer (.stopped true)]

theorem parse_on_empty_deque :
    ¬ ∀ (stream : List InotifyEvent) (stopped : Bool) (errno : Errno)
      (hist : List (Sys × Action)) (s : Sys),
      Run Sys.Step (Sys.start stream stopped errno) hist s →
        ∀ t ∈ visited hist s, t.FindsEvent := by
  intro h
  have hpossible : (exec Sys.next (Sys.start [createRecord] false .zero) stopAtWakeUp).map
      (fun x => (x.2.thread.pc, x.2.thread.inotifyEventBuffer)) = some (.dispatch, []) := by
    decide
  obtain ⟨⟨hist, s⟩, hexec, hs⟩ := Option.map_eq_some_iff.mp hpossible
  obtain ⟨hpc, hq⟩ := Prod.mk.inj hs
  exact h _ _ _ hist s (run_of_exec hexec) s (mem_visited_last hist s) hpc hq

end InotifyRealtime.EpollHandler
