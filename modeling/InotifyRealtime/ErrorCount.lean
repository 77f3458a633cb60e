import InotifyRealtime.EventStream
/-!
# InotifyRealtime.ErrorCount

When the event thread gives up.

`errorCount` goes up in one branch of the outer loop and back to zero two loops
further in. What it counts is a fact about the whole run: the failures of
`epoll_wait` since the last `read` that returned data (`Counted`). The third of
them makes `EpollHandler` return, and nothing else does so with an error
(`gives_up_iff`).

Here the world may answer anything, also bytes that are no records and a flag that
is cleared again.
-/

namespace InotifyRealtime.EpollHandler

open Machine

/-- `epoll_wait` failed with an `errno` other than `EINTR`. -/
def Answer.WaitFailed : Answer → Prop
  | .epollWait rc errno => rc < 0 ∧ errno ≠ .eintr
  | _ => False

/-- `read` returned data. -/
def Answer.ReadSucceeded : Answer → Prop
  | .readBytes n _ => 0 < n ∧ n ≤ readBufferSize
  | _ => False

instance : DecidablePred Answer.WaitFailed
  | .epollWait rc errno => inferInstanceAs (Decidable (rc < 0 ∧ errno ≠ .eintr))
  | .epollCtl _ | .stopped _ | .readError _ | .readBytes _ _ | .parse _ _ _ => .isFalse id

instance : DecidablePred Answer.ReadSucceeded
  | .readBytes n _ => inferInstanceAs (Decidable (0 < n ∧ n ≤ readBufferSize))
  | .epollCtl _ | .stopped _ | .epollWait _ _ | .readError _ | .parse _ _ _ => .isFalse id

/-- The failures of `epoll_wait` since the last `read` that returned data. -/
def waitFailures (answers : List Answer) : Nat :=
  (answers.reverse.takeWhile fun a => ¬ a.ReadSucceeded).countP fun a => a.WaitFailed

theorem waitFailures_read (answers : List Answer) {a : Answer} (h : a.ReadSucceeded) :
    waitFailures (answers ++ [a]) = 0 :=
  countSince_of_ends answers h

theorem waitFailures_failed (answers : List Answer) {a : Answer} (h : a.WaitFailed) :
    waitFailures (answers ++ [a]) = waitFailures answers + 1 := by
  have hread : ¬ a.ReadSucceeded := by
    cases a <;> simp_all [Answer.WaitFailed, Answer.ReadSucceeded]
  exact countSince_of_counts answers hread h

theorem waitFailures_other (answers : List Answer) {a : Answer} (hread : ¬ a.ReadSucceeded)
    (hwait : ¬ a.WaitFailed) : waitFailures (answers ++ [a]) = waitFailures answers :=
  countSince_of_neither answers hread hwait

/-- What `errorCount` says in every state of a run: it counts, and it is at most 2
unless the thread has given up. -/
structure Counted (past : List (Thread × Answer)) (t : Thread) : Prop where
  count_eq : t.errorCount = waitFailures (past.map Prod.snd)
  given_up : t.pc = .returned .errorCount → t.errorCount = 3
  limit : t.pc ≠ .returned .errorCount → t.errorCount ≤ 2

/-- A step that keeps the count and does not give up. -/
theorem Counted.keep {past : List (Thread × Answer)} {t t' : Thread} {a : Answer}
    (h : Counted past t) (hpc : t.pc ≠ .returned .errorCount)
    (hpc' : t'.pc ≠ .returned .errorCount) (hcount : t'.errorCount = t.errorCount)
    (hread : ¬ a.ReadSucceeded) (hwait : ¬ a.WaitFailed) : Counted (past ++ [(t, a)]) t' where
  count_eq := by
    rw [actions_snoc, waitFailures_other _ hread hwait, hcount, h.count_eq]
  given_up hup := absurd hup hpc'
  limit _ := hcount ▸ h.limit hpc

/-- A `read` that returned data starts the count again. -/
theorem Counted.reset {past : List (Thread × Answer)} {t t' : Thread} {a : Answer}
    (hpc' : t'.pc ≠ .returned .errorCount) (hcount : t'.errorCount = 0)
    (hread : a.ReadSucceeded) : Counted (past ++ [(t, a)]) t' where
  count_eq := by
    rw [actions_snoc, waitFailures_read _ hread, hcount]
  given_up hup := absurd hup hpc'
  limit _ := by omega

theorem NoData.not_counted {t u : Thread} {a : Answer} (h : NoData t a u) :
    u.errorCount = t.errorCount ∧ ¬ a.ReadSucceeded ∧ ¬ a.WaitFailed := by
  cases h with
  | error errno => exact ⟨rfl, id, id⟩
  | empty buf => exact ⟨rfl, fun h => absurd h.1 (Nat.lt_irrefl 0), id⟩

theorem Counted.step {past : List (Thread × Answer)} {t t' : Thread} {a : Answer}
    (h : Counted past t) (hstep : Step t a t') : Counted (past ++ [(t, a)]) t' := by
  have hgoing : t.pc ≠ .returned .errorCount := by
    intro hpc
    have hat := hstep.answersAt
    rw [hpc] at hat
    cases a <;> simp [Answer.AnswersAt] at hat
  cases hstep with
  | epollAddFailed | epollAdded | leave | enter | drainLeft | drainEntered =>
      exact h.keep hgoing nofun rfl id id
  | waitInterrupted => exact h.keep hgoing nofun rfl id fun hfailed => hfailed.2 rfl
  | waitTimeout => exact h.keep hgoing nofun rfl id fun hfailed => absurd hfailed.1 (by omega)
  | woken _ hpos => exact h.keep hgoing nofun rfl id fun hfailed => absurd hfailed.1 (by omega)
  | @waitFailed rc errno _ hneg hintr hfew =>
      refine ⟨?_, nofun, fun _ => ?_⟩
      · have hfailed : (Answer.epollWait rc errno).WaitFailed := ⟨hneg, hintr⟩
        rw [actions_snoc, waitFailures_failed _ hfailed, ← h.count_eq]
      · show t.errorCount + 1 ≤ 2
        omega
  | @waitGivenUp rc errno _ hneg hintr hthird =>
      refine ⟨?_, fun _ => ?_, fun hpc => absurd rfl hpc⟩
      · have hfailed : (Answer.epollWait rc errno).WaitFailed := ⟨hneg, hintr⟩
        rw [actions_snoc, waitFailures_failed _ hfailed, ← h.count_eq]
      · show t.errorCount + 1 = 3
        have := h.limit hgoing
        omega
  | readRetried _ hnd | readEndsDrain _ hnd | readIgnored _ hnd =>
      obtain ⟨hcount, hread, hwait⟩ := hnd.not_counted
      exact h.keep hgoing nofun hcount hread hwait
  | readOversized _ hbig =>
      exact h.keep hgoing nofun rfl (fun hread => absurd hread.2 (by omega)) id
  | decoded _ hpos hfits | decodeFaults _ hpos hfits | decodeSpins _ hpos hfits =>
      exact .reset nofun rfl ⟨hpos, hfits⟩
  | dispatched _ _ => exact h.keep hgoing (afterDispatch_ne nofun nofun) rfl id id
  | frontOfEmpty => exact h.keep hgoing nofun rfl id id

/-- **When the event thread gives up.** Whatever the world answers, in every state
of a run: at the head of the outer loop `errorCount` is the number of failures of
`epoll_wait` since the last `read` that returned data, and at most 2; the thread has
left through its error return if and only if that number has come to 3; and then no
event is left in the deque. -/
theorem gives_up_iff (errno : Errno) (hist : List (Thread × Answer)) (t : Thread)
    (h : Run (fun t a t' => step t a = some t') (.start errno) hist t) :
    (t.pc = .outerHead → t.errorCount = waitFailures (hist.map Prod.snd) ∧ t.errorCount ≤ 2) ∧
      (t.pc = .returned .errorCount ↔ waitFailures (hist.map Prod.snd) = 3) ∧
      (t.pc = .returned .errorCount → t.inotifyEventBuffer = []) := by
  have hcounted : Counted hist t :=
    h.invariant_hist (fun _ _ _ _ ht hstep => ht.step (step_cases hstep))
      ⟨rfl, nofun, fun _ => Nat.zero_le 2⟩
  have hquiet : t.Quiet :=
    h.invariant (I := Thread.Quiet) (fun _ _ _ ht hstep => (step_cases hstep).quiet ht)
      (fun _ => rfl)
  refine ⟨fun hpc => ⟨hcounted.count_eq, hcounted.limit (by rw [hpc]; exact nofun)⟩, ?_,
    fun hpc => hquiet (by rw [hpc]; trivial)⟩
  rw [← hcounted.count_eq]
  constructor
  · exact hcounted.given_up
  · intro hthree
    by_contra hpc
    have := hcounted.limit hpc
    omega

/-- Three failures, with a time-out and an interruption between them. -/
def failingWaits : List Answer :=
  [.epollCtl false, .stopped false, .epollWait (-1) (.other 9), .stopped false,
   .epollWait 0 .zero, .stopped false, .epollWait (-1) .eintr, .stopped false,
   .epollWait (-1) .einval, .stopped false, .epollWait (-1) (.other 9)]

theorem gives_up_failingWaits :
    ∃ hist t, exec step (.start .zero) failingWaits = some (hist, t) ∧
      t.pc = .returned .errorCount ∧ t.inotifyEventBuffer = [] := by
  have hpossible : (exec step (.start .zero) failingWaits).map
      (fun x => (waitFailures (x.1.map Prod.snd), x.2.pc)) = some (3, .returned .errorCount) := by
    decide
  obtain ⟨⟨hist, t⟩, hexec, hresult⟩ := Option.map_eq_some_iff.mp hpossible
  obtain ⟨hthree, -⟩ := Prod.mk.inj hresult
  obtain ⟨-, hiff, hempty⟩ := gives_up_iff .zero hist t (run_of_exec hexec)
  exact ⟨hist, t, hexec, hiff.mpr hthree, hempty (hiff.mpr hthree)⟩

end InotifyRealtime.EpollHandler
