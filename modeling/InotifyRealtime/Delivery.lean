import InotifyRealtime.Foundation.Progress
import InotifyRealtime.EventStream
/-!
# InotifyRealtime.Delivery

How long an event waits.

`EventStream` lets the kernel answer anything. A `Pipeline` has a kernel that works:
events arrive in its queue at any time, `epoll_wait` reports the descriptor ready as
long as the queue is not empty, and `read` returns some whole records, or `EAGAIN` when
there are none. Both may be interrupted. What reaches the program is the stream of
`EventStream`, so nothing is lost or reordered (`Pipeline.refines`).

Nothing is starved either. Each turn of the outer loop reads until ten events are
queued and then dispatches all of them, so that an event waits for those before it only,
however fast others arrive behind it (`delivered_in_time`).
-/

namespace InotifyRealtime

open Bytes Machine EpollHandler

/-- The thread has not returned, and what it does is defined and ends. -/
def EpollHandler.Pc.Going : Pc → Prop
  | .returned _ | .undefined _ | .spinning => False
  | _ => True

structure Pipeline where
  thread : Thread
  stopped : Bool
  /-- The kernel's queue. -/
  pending : List InotifyEvent
  /-- Everything that was ever queued there, oldest first. -/
  arrived : List InotifyEvent

namespace Pipeline

/-- The thread enters `EpollHandler`, and nothing has happened yet. -/
def start (errno : Errno) : Pipeline := ⟨.start errno, false, [], []⟩

inductive Action
  /-- The kernel queues an event. -/
  | arrives (r : InotifyEvent)
  /-- Another thread sets `stopped_`. -/
  | setStopped
  /-- The thread goes on, with anything but data from `read`. -/
  | answer (a : Answer)
  /-- `read` returns the next `count` records and leaves the array like this. -/
  | readRecords (count : Nat) (buf : ReadBuffer)

/-- What a kernel that works says, when the descriptors are good ones. -/
def Allows (s : Pipeline) : Answer → Prop
  | .epollCtl failed => failed = false
  | .stopped value => value = s.stopped
  | .epollWait rc errno =>
      (rc = 1 ∧ s.pending ≠ []) ∨ (rc = 0 ∧ s.pending = []) ∨ (rc = -1 ∧ errno = .eintr)
  | .readError errno => (errno = .eagain ∧ s.pending = []) ∨ errno = .eintr
  | .readBytes _ _ => False
  | .parse _ _ _ => True

instance (s : Pipeline) : (a : Answer) → Decidable (s.Allows a)
  | .epollCtl failed => inferInstanceAs (Decidable (failed = false))
  | .stopped value => inferInstanceAs (Decidable (value = s.stopped))
  | .epollWait rc errno => inferInstanceAs (Decidable
      ((rc = 1 ∧ s.pending ≠ []) ∨ (rc = 0 ∧ s.pending = []) ∨ (rc = -1 ∧ errno = .eintr)))
  | .readError errno =>
      inferInstanceAs (Decidable ((errno = .eagain ∧ s.pending = []) ∨ errno = .eintr))
  | .readBytes _ _ => .isFalse id
  | .parse _ _ _ => .isTrue trivial

/-- The next `count` records are some, fit the array and fill its front. -/
def Hands (s : Pipeline) (count : Nat) (buf : ReadBuffer) : Prop :=
  s.pending.take count ≠ [] ∧ buf.Holds (s.pending.take count)

instance (s : Pipeline) (count : Nat) (buf : ReadBuffer) : Decidable (s.Hands count buf) :=
  inferInstanceAs (Decidable (_ ∧ _))

/-- A name has at most 255 bytes, so no record is longer than the array. -/
def next (s : Pipeline) : Action → Option Pipeline
  | .arrives r =>
      if r.encode.length ≤ readBufferSize then
        some { s with pending := s.pending ++ [r], arrived := s.arrived ++ [r] }
      else none
  | .setStopped => some { s with stopped := true }
  | .answer a =>
      if s.Allows a then (step s.thread a).map fun thread => { s with thread } else none
  | .readRecords count buf =>
      if s.Hands count buf then
        (step s.thread (.readBytes (encodeAll (s.pending.take count)).length buf)).map
          fun thread => { s with thread, pending := s.pending.drop count }
      else none

/-- The steps of the pipeline. -/
def Step (s : Pipeline) (a : Action) (s' : Pipeline) : Prop := s.next a = some s'

/-- What the pipeline can do at once. -/
inductive Does : Pipeline → Action → Pipeline → Prop
  | arrives {s : Pipeline} {r : InotifyEvent} :
      r.encode.length ≤ readBufferSize →
      Does s (.arrives r) { s with pending := s.pending ++ [r], arrived := s.arrived ++ [r] }
  | setStopped {s : Pipeline} : Does s .setStopped { s with stopped := true }
  | answer {s : Pipeline} {a : Answer} {t : Thread} :
      s.Allows a → EpollHandler.Step s.thread a t → Does s (.answer a) { s with thread := t }
  | readRecords {s : Pipeline} {count : Nat} {buf : ReadBuffer} :
      s.Hands count buf → s.thread.pc = .read →
      Does s (.readRecords count buf)
        { s with
          thread := { s.thread with
            errorCount := 0
            inotifyEventBuffer := s.thread.inotifyEventBuffer ++
              receivedAll (s.pending.take count) (buf.behind (s.pending.take count))
            pc := .drainHead }
          pending := s.pending.drop count }

theorem Step.does {s s' : Pipeline} {a : Action} (h : s.Step a s') : Does s a s' := by
  cases a with
  | arrives r =>
      simp only [Step, next, Option.ite_none_right_eq_some] at h
      obtain ⟨hfits, h⟩ := h
      obtain rfl := Option.some.inj h
      exact .arrives hfits
  | setStopped =>
      obtain rfl := Option.some.inj h
      exact .setStopped
  | answer a =>
      simp only [Step, next, Option.ite_none_right_eq_some] at h
      obtain ⟨hallow, h⟩ := h
      obtain ⟨t, ht, rfl⟩ := Option.map_eq_some_iff.mp h
      exact .answer hallow (step_cases ht)
  | readRecords count buf =>
      simp only [Step, next, Option.ite_none_right_eq_some] at h
      obtain ⟨hhands, h⟩ := h
      obtain ⟨t, ht, rfl⟩ := Option.map_eq_some_iff.mp h
      obtain ⟨hpc, rfl⟩ := step_readRecords hhands.1 hhands.2 ht
      exact .readRecords hhands hpc

theorem step_of_answer {s : Pipeline} {a : Answer} {t : Thread} (hallow : s.Allows a)
    (h : step s.thread a = some t) : s.Step (.answer a) { s with thread := t } := by
  simp only [Step, next, if_pos hallow, h, Option.map_some]

/-! ### Conservation -/

/-- The system of `EventStream`, when these events are still to arrive. -/
def toSys (s : Pipeline) (future : List InotifyEvent) : Sys :=
  ⟨s.thread, s.stopped, s.pending ++ future⟩

/-- What arrives in a step. -/
def Action.arrivals : Action → List InotifyEvent
  | .arrives r => [r]
  | _ => []

theorem Allows.sys {s : Pipeline} {a : Answer} (h : s.Allows a) (future : List InotifyEvent) :
    (s.toSys future).Allows a := by
  cases a with
  | stopped value => exact h
  | readBytes n buf => exact absurd h id
  | epollCtl _ | epollWait _ _ | readError _ | parse _ _ _ => trivial

theorem step_arrived {s s' : Pipeline} {a : Action} (h : s.Step a s') :
    s'.arrived = s.arrived ++ a.arrivals := by
  cases h.does with
  | arrives _ => rfl
  | setStopped | answer _ _ | readRecords _ _ => exact (List.append_nil _).symm

/-- **Refinement.** The stream of `EventStream` is what has arrived and what is still to
arrive; an arrival changes nothing there. -/
theorem refines {s s' : Pipeline} {a : Action} (h : s.Step a s') (future : List InotifyEvent) :
    (∃ b, (s.toSys (a.arrivals ++ future)).Step b (s'.toSys future)) ∨
      s.toSys (a.arrivals ++ future) = s'.toSys future := by
  cases a with
  | arrives r =>
      cases h.does with
      | arrives _ => exact .inr (by simp [toSys, Action.arrivals])
  | setStopped =>
      cases h.does with
      | setStopped => exact .inl ⟨.setStopped, rfl⟩
  | answer a =>
      simp only [Step, next, Option.ite_none_right_eq_some] at h
      obtain ⟨hallow, h⟩ := h
      obtain ⟨t, ht, rfl⟩ := Option.map_eq_some_iff.mp h
      exact .inl ⟨.answer a, Option.ite_none_right_eq_some.mpr
        ⟨hallow.sys future, Option.map_eq_some_iff.mpr ⟨t, ht, rfl⟩⟩⟩
  | readRecords count buf =>
      simp only [Step, next, Option.ite_none_right_eq_some] at h
      obtain ⟨hhands, h⟩ := h
      obtain ⟨t, ht, rfl⟩ := Option.map_eq_some_iff.mp h
      -- as many records as there are to take, so that none is taken from the future
      have htake : (s.pending ++ future).take (s.pending.take count).length =
          s.pending.take count := by
        rw [List.length_take, List.take_append_of_le_length (Nat.min_le_right _ _),
          List.take_eq_take_min]
        simp
      have hdrop : (s.pending ++ future).drop (s.pending.take count).length =
          s.pending.drop count ++ future := by
        have hsplit : s.pending ++ future =
            s.pending.take count ++ (s.pending.drop count ++ future) := by
          rw [← List.append_assoc, List.take_append_drop]
        rw [hsplit]
        exact List.drop_left
      refine .inl ⟨.readRecords (s.pending.take count).length buf, ?_⟩
      have hhands' : (s.toSys future).Hands (s.pending.take count).length buf := by
        simp only [Sys.Hands, toSys, htake]
        exact hhands
      refine Option.ite_none_right_eq_some.mpr ⟨hhands', ?_⟩
      simp only [toSys, Action.arrivals, List.nil_append, htake, hdrop, ht, Option.map_some]

/-- All that has arrived is somewhere, in order, whatever is still to arrive. -/
def Conserves (s : Pipeline) : Prop := ∀ future, (s.toSys future).Conserves (s.arrived ++ future)

theorem conserves_start (errno : Errno) : (start errno).Conserves := by
  intro future
  exact Sys.start_conserves future false errno

theorem Conserves.step {s s' : Pipeline} {a : Action} (hs : s.Conserves) (h : s.Step a s') :
    s'.Conserves := by
  intro future
  rw [step_arrived h, List.append_assoc]
  have hbefore := hs (a.arrivals ++ future)
  rcases refines h future with ⟨b, hstep⟩ | hsame
  · exact Sys.conserves_step hbefore hstep
  · rwa [← hsame]

theorem Conserves.content {s : Pipeline} (h : s.Conserves) :
    s.thread.dispatched.map CustomizedInotifyEvent.header ++
        s.thread.inotifyEventBuffer.map CustomizedInotifyEvent.header ++
        s.pending.map InotifyEvent.header = s.arrived.map InotifyEvent.header := by
  have hall := (h []).content_eq
  simpa only [Channel.content, Sys.channel, toSys, List.append_nil] using hall

theorem Conserves.length {s : Pipeline} (h : s.Conserves) :
    s.thread.dispatched.length + s.thread.inotifyEventBuffer.length + s.pending.length =
      s.arrived.length := by
  have hall := congrArg List.length h.content
  simpa only [List.length_append, List.length_map] using hall

theorem Conserves.quiet {s : Pipeline} (h : s.Conserves) : s.thread.Quiet := (h []).quiet

/-! ### A thread that is fed -/

/-- Nobody sets the flag, and no call of `ParseRawEvent` on the last event of the deque
yields `true`. -/
def Undisturbed (s : Pipeline) : Action → Prop
  | .setStopped => False
  | .answer (.parse _ result _) => result = true → s.thread.inotifyEventBuffer.length ≠ 1
  | _ => True

instance (s : Pipeline) : (a : Action) → Decidable (s.Undisturbed a)
  | .setStopped => .isFalse id
  | .answer (.parse _ result _) =>
      inferInstanceAs (Decidable (result = true → s.thread.inotifyEventBuffer.length ≠ 1))
  | .arrives _ | .readRecords _ _ | .answer (.epollCtl _) | .answer (.stopped _)
  | .answer (.epollWait _ _) | .answer (.readError _) | .answer (.readBytes _ _) => .isTrue trivial

/-- What undisturbed runs keep. A thread that drains has an event, or finds one in the
kernel's queue. -/
structure Fed (s : Pipeline) : Prop where
  conserves : s.Conserves
  clear : s.stopped = false
  fits : ∀ r ∈ s.pending, r.encode.length ≤ readBufferSize
  supplied : s.thread.pc = .drainHead ∨ s.thread.pc = .read →
    s.thread.inotifyEventBuffer ≠ [] ∨ s.pending ≠ []
  capped : s.thread.pc = .read → s.thread.inotifyEventBuffer.length < maxInotifyEventSize
  finds : s.thread.pc = .dispatch → s.thread.inotifyEventBuffer ≠ []
  going : s.thread.pc.Going

theorem fed_start (errno : Errno) : (start errno).Fed where
  conserves := conserves_start errno
  clear := rfl
  fits _ hr := absurd hr List.not_mem_nil
  supplied hpc := by simp [start, Thread.start] at hpc
  capped hpc := by simp [start, Thread.start] at hpc
  finds hpc := by simp [start, Thread.start] at hpc
  going := trivial

/-- An undisturbed step of the thread, by what has to be shown of the place it goes to. -/
theorem Fed.thread {s : Pipeline} {a : Answer} {t : Thread} (h : s.Fed)
    (hstep : s.Step (.answer a) { s with thread := t })
    (hsupplied : t.pc = .drainHead ∨ t.pc = .read → t.inotifyEventBuffer ≠ [] ∨ s.pending ≠ [])
    (hcapped : t.pc = .read → t.inotifyEventBuffer.length < maxInotifyEventSize)
    (hfinds : t.pc = .dispatch → t.inotifyEventBuffer ≠ []) (hgoing : t.pc.Going) :
    Fed { s with thread := t } :=
  ⟨h.conserves.step hstep, h.clear, h.fits, hsupplied, hcapped, hfinds, hgoing⟩

/-- What the kernel's answer to a `read` without data means. -/
theorem Fed.noData {s : Pipeline} {a : Answer} {u : Thread} (h : s.Fed) (hallow : s.Allows a)
    (hpc : s.thread.pc = .read) (hnd : NoData s.thread a u) :
    u.inotifyEventBuffer = s.thread.inotifyEventBuffer ∧
      (Errno.Retried u.errno ∨
        (Errno.EndsDrain u.errno ∧ s.thread.inotifyEventBuffer ≠ [])) := by
  cases hnd with
  | error errno =>
      refine ⟨rfl, ?_⟩
      rcases hallow with ⟨rfl, hnone⟩ | rfl
      · exact .inr ⟨.inl rfl, (h.supplied (.inr hpc)).resolve_right fun hsome => hsome hnone⟩
      · exact .inl (.inl rfl)
  | empty buf => exact absurd hallow id

theorem Fed.step {s s' : Pipeline} {a : Action} (h : s.Fed) (hundisturbed : s.Undisturbed a)
    (hstep : s.Step a s') : s'.Fed := by
  cases hstep.does with
  | @arrives r hfits =>
      refine ⟨h.conserves.step hstep, h.clear, fun r' hr' => ?_, fun hpc => ?_, h.capped, h.finds,
        h.going⟩
      · rcases List.mem_append.mp hr' with hr' | hr'
        · exact h.fits r' hr'
        · rw [List.mem_singleton.mp hr']
          exact hfits
      · exact (h.supplied hpc).imp_right fun _ => List.append_ne_nil_of_right_ne_nil _ (by simp)
  | setStopped => exact absurd hundisturbed id
  | readRecords hhands hpc =>
      refine ⟨h.conserves.step hstep, h.clear, fun r hr => h.fits r (List.mem_of_mem_drop hr),
        fun _ => .inl fun hnil => ?_, nofun, nofun, trivial⟩
      have hnone := (List.append_eq_nil_iff.mp hnil).2
      have hcount := congrArg List.length hnone
      rw [receivedAll_length, List.length_nil, List.length_eq_zero_iff] at hcount
      exact hhands.1 hcount
  | @answer a t hallow hthread =>
      cases hthread with
      | epollAddFailed hpc => exact absurd hallow nofun
      | epollAdded hpc | waitInterrupted hpc | waitTimeout hpc =>
          exact h.thread hstep (by simp) nofun nofun trivial
      | enter hpc => exact h.thread hstep (by simp) nofun nofun trivial
      | leave hpc => exact absurd (hallow.trans h.clear) nofun
      | waitFailed hpc hneg hintr | waitGivenUp hpc hneg hintr =>
          rcases hallow with ⟨rfl, -⟩ | ⟨rfl, -⟩ | ⟨-, rfl⟩
          · exact absurd hneg (by decide)
          · exact absurd hneg (by decide)
          · exact absurd rfl hintr
      | woken hpc hpos =>
          refine h.thread hstep (fun _ => .inr ?_) nofun nofun trivial
          rcases hallow with ⟨-, hsome⟩ | ⟨rfl, -⟩ | ⟨rfl, -⟩
          · exact hsome
          · exact absurd hpos (by decide)
          · exact absurd hpos (by decide)
      | @drainLeft value hpc hleave =>
          have hvalue : value = false := hallow.trans h.clear
          refine h.thread hstep (by simp) nofun (fun _ hnil => ?_) trivial
          rcases hleave with hset | hfull
          · exact absurd (hset.symm.trans hvalue) nofun
          · rw [show s.thread.inotifyEventBuffer = [] from hnil] at hfull
            exact absurd hfull (by decide)
      | drainEntered hpc hfew =>
          exact h.thread hstep (fun _ => h.supplied (.inl hpc)) (fun _ => hfew) nofun trivial
      | readRetried hpc hnd =>
          obtain ⟨hq, -⟩ := h.noData hallow hpc hnd
          refine h.thread hstep (fun _ => ?_) nofun nofun trivial
          rw [show _ = s.thread.inotifyEventBuffer from hq]
          exact h.supplied (.inr hpc)
      | readEndsDrain hpc hnd hretry =>
          obtain ⟨hq, hwhy⟩ := h.noData hallow hpc hnd
          refine h.thread hstep (by simp) nofun (fun _ => ?_) trivial
          rw [show _ = s.thread.inotifyEventBuffer from hq]
          exact (hwhy.resolve_left hretry).2
      | readIgnored hpc hnd hretry hends =>
          obtain ⟨-, hwhy⟩ := h.noData hallow hpc hnd
          exact absurd (hwhy.resolve_left hretry).1 hends
      | readOversized _ _ | decoded _ _ _ _ | decodeFaults _ _ _ _ | decodeSpins _ _ _ _ =>
          exact absurd hallow id
      | @dispatched path result errno event rest hpc hq =>
          by_cases hmore : result ∨ rest ≠ []
          · simp only [if_pos hmore] at hstep ⊢
            refine h.thread hstep (by simp) nofun (fun _ => ?_) trivial
            rcases hmore with hresult | hrest
            · have hnot := hundisturbed hresult
              rw [hq, List.length_cons] at hnot
              exact fun hnil => hnot (by rw [show rest = [] from hnil]; rfl)
            · exact hrest
          · simp only [if_neg hmore] at hstep ⊢
            exact h.thread hstep (by simp) nofun nofun trivial
      | frontOfEmpty hpc hq => exact absurd hq (h.finds hpc)

/-! ### The time an event waits -/

/-- The thread takes this step. -/
def Action.isThread : Action → Bool
  | .arrives _ | .setStopped => false
  | .answer _ | .readRecords _ _ => true

/-- A system call of the thread is interrupted. -/
def Action.interrupts : Action → Bool
  | .answer (.epollWait rc _) => rc < 0
  | .answer (.readError errno) => errno = .eintr
  | _ => false

/-- How far the thread is in its turn, in steps it may still take before it dispatches. A
drain phase takes two for each event it may still queue. -/
def turnLeft (t : Thread) : Nat :=
  match t.pc with
  | .epollCtl => 24
  | .outerHead => 23
  | .epollWait => 22
  | .drainHead => 2 * (maxInotifyEventSize - t.inotifyEventBuffer.length) + 1
  | .read => 2 * (maxInotifyEventSize - t.inotifyEventBuffer.length)
  | .dispatch | .returned _ | .undefined _ | .spinning => 0

theorem turnLeft_le (t : Thread) : turnLeft t ≤ 24 := by
  unfold turnLeft
  cases t.pc <;> simp only [maxInotifyEventSize] <;> omega

/-- The steps until the event that arrived as number `i` is dispatched: a turn of the
outer loop for each of those before it, at the worst. -/
def waitTime (i : Nat) (s : Pipeline) : Nat :=
  24 * (i + 1 - s.thread.dispatched.length) + turnLeft s.thread

/-- A step of the thread that dispatches nothing, by what it leaves of the turn. -/
theorem waits_of_turn {s : Pipeline} {a : Answer} {t : Thread} (i : Nat)
    (hsame : t.dispatched = s.thread.dispatched)
    (hturn : turnLeft t < turnLeft s.thread ∨
      ((Action.answer a).interrupts ∧ turnLeft t ≤ turnLeft s.thread + 1)) :
    1 + waitTime i { s with thread := t } ≤
      waitTime i s + if (Action.answer a).interrupts then 2 else 0 := by
  simp only [waitTime, hsame]
  rcases hturn with hless | ⟨hinterrupts, hmore⟩
  · omega
  · rw [if_pos hinterrupts]
    omega

/-- One event less to wait for is worth a whole turn. -/
theorem waits_of_dispatch {s : Pipeline} {t : Thread} (i : Nat)
    (hwaits : s.thread.dispatched.length ≤ i)
    (hone : t.dispatched.length = s.thread.dispatched.length + 1) (hturn : turnLeft t ≤ 23) :
    1 + waitTime i { s with thread := t } ≤ waitTime i s := by
  simp only [waitTime, hone]
  omega

/-- **One step of waiting.** While event `i` has arrived and is not dispatched, each step of
the thread brings it nearer, an interruption apart. -/
theorem Fed.waits {s s' : Pipeline} {a : Action} {i : Nat} (h : s.Fed) (hi : i < s.arrived.length)
    (hwaits : s.thread.dispatched.length ≤ i) (hundisturbed : s.Undisturbed a)
    (hstep : s.Step a s') :
    (if a.isThread then 1 else 0) + waitTime i s' ≤
      waitTime i s + if a.interrupts then 2 else 0 := by
  cases hstep.does with
  | arrives _ => simp [Action.isThread, waitTime]
  | setStopped => exact absurd hundisturbed id
  | @readRecords count buf hhands hpc =>
      have hcapped := h.capped hpc
      have hcount : 0 < (s.pending.take count).length := List.length_pos_iff.mpr hhands.1
      simp only [Action.isThread, Action.interrupts, waitTime, turnLeft, hpc, if_true,
        List.length_append, receivedAll_length, Bool.false_eq_true, if_false]
      simp only [maxInotifyEventSize] at hcapped ⊢
      omega
  | @answer a t hallow hthread =>
      -- outside a wake-up the deque is empty, so the event is in the kernel's queue
      have hqueue : s.thread.pc.Idle → s.thread.inotifyEventBuffer.length = 0 ∧ s.pending ≠ [] := by
        intro hidle
        have hq : s.thread.inotifyEventBuffer = [] := h.conserves.quiet hidle
        have hlength := h.conserves.length
        rw [hq, List.length_nil] at hlength ⊢
        exact ⟨rfl, fun hnone => by rw [hnone, List.length_nil] at hlength; omega⟩
      rw [if_pos (show (Action.answer a).isThread = true from rfl)]
      cases hthread with
      | epollAddFailed hpc => exact absurd (Eq.symm hallow) Bool.false_ne_true
      | leave hpc => exact absurd (hallow.trans h.clear).symm Bool.false_ne_true
      | epollAdded hpc | enter hpc =>
          refine waits_of_turn i rfl (.inl ?_)
          simp only [turnLeft, hpc]
          decide
      | waitInterrupted hpc hneg =>
          refine waits_of_turn i rfl (.inr ⟨decide_eq_true hneg, ?_⟩)
          simp only [turnLeft, hpc]
          decide
      | waitTimeout hpc =>
          have hsome := (hqueue (by rw [hpc]; trivial)).2
          rcases hallow with ⟨hone, -⟩ | ⟨-, hnone⟩ | ⟨hneg, -⟩
          · exact absurd hone (by decide)
          · exact absurd hnone hsome
          · exact absurd hneg (by decide)
      | woken hpc hpos =>
          have hnone := (hqueue (by rw [hpc]; trivial)).1
          refine waits_of_turn i rfl (.inl ?_)
          simp only [turnLeft, hpc, hnone]
          decide
      | waitFailed hpc hneg hintr | waitGivenUp hpc hneg hintr =>
          rcases hallow with ⟨rfl, -⟩ | ⟨rfl, -⟩ | ⟨-, rfl⟩
          · exact absurd hneg (by decide)
          · exact absurd hneg (by decide)
          · exact absurd rfl hintr
      | drainLeft hpc _ | drainEntered hpc _ =>
          refine waits_of_turn i rfl (.inl ?_)
          simp only [turnLeft, hpc]
          omega
      | readRetried hpc hnd hretry =>
          have hcapped := h.capped hpc
          cases hnd with
          | error errno =>
              have hintr : errno = .eintr := by
                rcases hallow with ⟨rfl, -⟩ | hintr
                · exact absurd (show Errno.Retried .eagain from hretry) (by decide)
                · exact hintr
              refine waits_of_turn i rfl (.inr ⟨decide_eq_true hintr, ?_⟩)
              simp only [turnLeft, hpc]
              exact le_rfl
          | empty buf => exact absurd hallow id
      | readEndsDrain hpc hnd =>
          have hcapped := h.capped hpc
          cases hnd with
          | error errno =>
              refine waits_of_turn i rfl (.inl ?_)
              simp only [turnLeft, hpc]
              omega
          | empty buf => exact absurd hallow id
      | readIgnored hpc hnd hretry hends =>
          obtain ⟨-, hwhy⟩ := h.noData hallow hpc hnd
          exact absurd (hwhy.resolve_left hretry).1 hends
      | readOversized _ _ | decoded _ _ _ _ | decodeFaults _ _ _ _ | decodeSpins _ _ _ _ =>
          exact absurd hallow id
      | @dispatched path result errno event rest hpc hq =>
          refine (waits_of_dispatch i hwaits List.length_append ?_).trans (Nat.le_add_right _ _)
          by_cases hmore : result ∨ rest ≠ []
          · simp only [turnLeft, if_pos hmore]
            exact Nat.zero_le 23
          · simp only [turnLeft, if_neg hmore]
            exact le_rfl
      | frontOfEmpty hpc hq => exact absurd hq (h.finds hpc)

theorem step_of_answersAt {s : Pipeline} {a : Answer} (hallow : s.Allows a)
    (hat : a.AnswersAt s.thread.pc) : ∃ s', s.Step (.answer a) s' := by
  obtain ⟨t, ht⟩ := hat.step
  exact ⟨_, step_of_answer hallow ht⟩

theorem step_of_hands {s : Pipeline} {count : Nat} {buf : ReadBuffer} (hhands : s.Hands count buf)
    (hpc : s.thread.pc = .read) : ∃ s', s.Step (.readRecords count buf) s' := by
  have hat : (Answer.readBytes (encodeAll (s.pending.take count)).length buf).AnswersAt
      s.thread.pc := hpc
  obtain ⟨t, ht⟩ := hat.step
  exact ⟨{ s with thread := t, pending := s.pending.drop count },
    Option.ite_none_right_eq_some.mpr ⟨hhands, Option.map_eq_some_iff.mpr ⟨t, ht, rfl⟩⟩⟩

/-- The thread can always go on, and without a disturbance. -/
theorem Fed.goes_on {s : Pipeline} (h : s.Fed) :
    ∃ a s', a.isThread = true ∧ s.Undisturbed a ∧ s.Step a s' := by
  have hgoing := h.going
  -- it is enough to find an answer to what the thread is about to ask
  have hanswer : ∀ a : Answer, s.Allows a → a.AnswersAt s.thread.pc → s.Undisturbed (.answer a) →
      ∃ a s', a.isThread = true ∧ s.Undisturbed a ∧ s.Step a s' := by
    intro a hallow hat hundisturbed
    obtain ⟨s', hstep⟩ := step_of_answersAt hallow hat
    exact ⟨.answer a, s', rfl, hundisturbed, hstep⟩
  cases hpc : s.thread.pc with
  | epollCtl => exact hanswer (.epollCtl false) rfl hpc trivial
  | outerHead => exact hanswer (.stopped s.stopped) rfl (.inl hpc) trivial
  | drainHead => exact hanswer (.stopped s.stopped) rfl (.inr hpc) trivial
  | epollWait =>
      by_cases hnone : s.pending = []
      · exact hanswer (.epollWait 0 .zero) (.inr (.inl ⟨rfl, hnone⟩)) hpc trivial
      · exact hanswer (.epollWait 1 .zero) (.inl ⟨rfl, hnone⟩) hpc trivial
  | dispatch => exact hanswer (.parse [] false .zero) trivial hpc nofun
  | read =>
      cases hpending : s.pending with
      | nil => exact hanswer (.readError .eagain) (.inl ⟨rfl, hpending⟩) hpc trivial
      | cons r rest =>
          have hfits : (encodeAll [r]).length ≤ readBufferSize := by
            rw [encodeAll_cons, encodeAll_nil, List.append_nil]
            exact h.fits r (by rw [hpending]; exact List.mem_cons_self)
          have htake : s.pending.take 1 = [r] := by rw [hpending]; rfl
          have hhands : s.Hands 1 (.zeroed [r] hfits) := by
            rw [Hands, htake]
            exact ⟨List.cons_ne_nil r [], ReadBuffer.holds_zeroed [r] hfits⟩
          obtain ⟨s', hstep⟩ := step_of_hands hhands hpc
          exact ⟨.readRecords 1 (.zeroed [r] hfits), s', rfl, trivial, hstep⟩
  | returned why | undefined why | spinning =>
      rw [hpc] at hgoing
      exact absurd hgoing id

/-- The steps of the thread in a run. -/
def threadSteps (hist : List (Pipeline × Action)) : Nat := hist.countP fun x => x.2.isThread

/-- The interruptions in a run. -/
def interruptions (hist : List (Pipeline × Action)) : Nat := hist.countP fun x => x.2.interrupts

theorem Fed.run {s s' : Pipeline} {hist : List (Pipeline × Action)} (h : s.Fed)
    (hrun : Run Step s hist s') (hundisturbed : Meets Undisturbed hist) : s'.Fed :=
  (hrun.invariant_of_meets (fun _ _ _ hs hC hstep => hs.step hC hstep) h hundisturbed).1

/-- Neither history gets shorter. -/
theorem step_histories_le {s s' : Pipeline} {a : Action} (h : s.Step a s') :
    s.thread.dispatched.length ≤ s'.thread.dispatched.length ∧
      s.arrived.length ≤ s'.arrived.length := by
  cases h.does with
  | arrives _ => exact ⟨le_rfl, by simp⟩
  | setStopped | readRecords _ _ => exact ⟨le_rfl, le_rfl⟩
  | answer hallow hthread =>
      refine ⟨?_, le_rfl⟩
      rcases hthread.moves (hallow.sys []).no_data with ⟨-, hd⟩ | ⟨event, -, hd⟩
      · exact (congrArg List.length hd).ge
      · show _ ≤ List.length _
        rw [hd, List.length_append]
        exact Nat.le_add_right _ _

/-- An event is dispatched after 24 steps of the thread for itself and for each event before
it, another 24, and two for each interruption. -/
theorem Fed.dispatches_in_time {s s' : Pipeline} {hist : List (Pipeline × Action)} (h : s.Fed)
    (hrun : Run Step s hist s') (hundisturbed : Meets Undisturbed hist) {i : Nat}
    (hi : i < s.arrived.length)
    (hlong : 24 * (i + 1 - s.thread.dispatched.length) + 24 + 2 * interruptions hist <
      threadSteps hist) : i < s'.thread.dispatched.length := by
  by_contra hnot
  have hwaits := (hrun.le_last (I := fun _ => True) (f := fun s => s.thread.dispatched.length)
    (fun _ _ _ _ _ => trivial) (fun _ _ _ _ hstep => (step_histories_le hstep).1) trivial).2
  have hmeets : Meets (fun t a => t.Undisturbed a ∧ t.thread.dispatched.length ≤ i) hist :=
    fun x hx => ⟨hundisturbed x hx, (hwaits x hx).trans (Nat.le_of_not_lt hnot)⟩
  have hbound := hrun.work_le (I := fun t => t.Fed ∧ i < t.arrived.length) (μ := waitTime i)
    (w := fun _ a => a.isThread) (d := fun _ a => a.interrupts) (k := 2)
    (fun _ _ _ ht hC hstep => ⟨ht.1.step hC.1 hstep, ht.2.trans_le (step_histories_le hstep).2⟩)
    (fun _ _ _ ht hC hstep => ht.1.waits ht.2 hC.2 hC.1 hstep) ⟨h, hi⟩ hmeets
  have hturn := turnLeft_le s.thread
  simp only [waitTime, threadSteps, interruptions] at hbound hlong
  omega

end Pipeline

end InotifyRealtime
