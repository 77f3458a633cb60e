import InotifyRealtime.Foundation.Machine
import InotifyRealtime.EpollHandler
/-!
# InotifyRealtime.FailingReads

The drain loop when `read` keeps failing.

A `read` without data is judged by `errno`. `EAGAIN` and `EINVAL` end the drain
phase, `EINTR` and `ETXTBSY` are tried again with `errno` cleared, and with any other
value the loop goes on as if nothing had happened. So nothing bounds how often it
reads in vain (`failing_read_traps`), unless no such value can be found
(`failing_reads_bounded_iff`).

A `read` that returns 0 bytes leaves `errno` as it was, so it may be judged by a value
that an earlier call has left.
-/

namespace InotifyRealtime.EpollHandler

open Machine

/-- A `read` without data, and not because of `EINTR` or `ETXTBSY`. -/
def Answer.Fruitless : Answer → Prop
  | .readError errno => ¬ Errno.Retried errno
  | .readBytes n _ => n = 0
  | _ => False

/-- A test of the flag. -/
def Answer.TestsFlag : Answer → Prop
  | .stopped _ => True
  | _ => False

instance : DecidablePred Answer.Fruitless
  | .readError errno => inferInstanceAs (Decidable (¬ Errno.Retried errno))
  | .readBytes n _ => inferInstanceAs (Decidable (n = 0))
  | .epollCtl _ | .stopped _ | .epollWait _ _ | .parse _ _ _ => .isFalse id

instance : DecidablePred Answer.TestsFlag
  | .stopped _ => .isTrue trivial
  | .epollCtl _ | .epollWait _ _ | .readError _ | .readBytes _ _ | .parse _ _ _ => .isFalse id

/-- The fruitless `read`s at the end, one after another: between them the loop only
tests the flag. -/
def fruitlessReads (answers : List Answer) : Nat :=
  countSince (fun a => ¬ a.Fruitless ∧ ¬ a.TestsFlag) Answer.Fruitless answers

theorem fruitlessReads_read (past : List Answer) {a : Answer} (h : a.Fruitless) :
    fruitlessReads (past ++ [a]) = fruitlessReads past + 1 :=
  countSince_of_counts past (fun hends => hends.1 h) h

theorem fruitlessReads_test (past : List Answer) (value : Bool) :
    fruitlessReads (past ++ [.stopped value]) = fruitlessReads past :=
  countSince_of_neither past (fun hends => hends.2 trivial) id

theorem fruitlessReads_other (past : List Answer) {a : Answer} (hread : ¬ a.Fruitless)
    (htest : ¬ a.TestsFlag) : fruitlessReads (past ++ [a]) = 0 :=
  countSince_of_ends past ⟨hread, htest⟩

/-- The flag stays clear. -/
def Answer.StaysClear : Answer → Prop
  | .stopped value => value = false
  | _ => True

/-- If the `read` is fruitless, `errno` is one of these when it is judged. -/
def JudgedBy (errnos : Set Errno) (t : Thread) : Answer → Prop
  | .readError errno => ¬ Errno.Retried errno → errno ∈ errnos
  | .readBytes n _ => n = 0 → t.errno ∈ errnos
  | _ => True

theorem JudgedBy.mono {errnos errnos' : Set Errno} {t : Thread} {a : Answer}
    (h : JudgedBy errnos t a) (hsub : errnos ⊆ errnos') : JudgedBy errnos' t a := by
  cases a with
  | readError errno => exact fun hretry => hsub (h hretry)
  | readBytes n buf => exact fun hzero => hsub (h hzero)
  | _ => trivial

/-- The values of `errno` the loop does anything about. -/
def Errno.Handled (e : Errno) : Prop := Errno.Retried e ∨ Errno.EndsDrain e

instance (e : Errno) : Decidable (Errno.Handled e) := inferInstanceAs (Decidable (_ ∨ _))

/-- The loop never reads in vain more than `bound` times in a row, when fruitless
`read`s are judged by these values only. -/
def BoundsFruitless (errnos : Set Errno) (bound : Nat) : Prop :=
  ∀ (errno : Errno) (hist : List (Thread × Answer)) (t : Thread),
    Run (fun t a t' => step t a = some t') (.start errno) hist t →
    Meets (fun _ a => a.StaysClear) hist → Meets (JudgedBy errnos) hist →
    fruitlessReads (hist.map Prod.snd) ≤ bound

/-! ### When all values are handled -/

/-- A fruitless `read` in the loop is the first in a row, or `errno` has just been
cleared. -/
structure Brief (past : List (Thread × Answer)) (t : Thread) : Prop where
  draining : t.pc = .drainHead ∨ t.pc = .read → fruitlessReads (past.map Prod.snd) = 0 ∨
    (fruitlessReads (past.map Prod.snd) = 1 ∧ t.errno = .zero)
  few : fruitlessReads (past.map Prod.snd) ≤ 2

theorem Brief.restart {past : List (Thread × Answer)} {t t' : Thread} {a : Answer}
    (hread : ¬ a.Fruitless) (htest : ¬ a.TestsFlag) : Brief (past ++ [(t, a)]) t' := by
  have hzero : fruitlessReads ((past ++ [(t, a)]).map Prod.snd) = 0 := by
    rw [actions_snoc, fruitlessReads_other _ hread htest]
  refine ⟨fun _ => .inl hzero, ?_⟩
  rw [hzero]
  exact Nat.zero_le 2

/-- A test of the flag does not count. -/
theorem Brief.tested {past : List (Thread × Answer)} {t t' : Thread} {value : Bool}
    (h : Brief past t) (hpc : t'.pc = .drainHead ∨ t'.pc = .read → t.pc = .drainHead)
    (herrno : t'.errno = t.errno) : Brief (past ++ [(t, .stopped value)]) t' := by
  have hsame : fruitlessReads ((past ++ [(t, Answer.stopped value)]).map Prod.snd) =
      fruitlessReads (past.map Prod.snd) := by
    rw [actions_snoc, fruitlessReads_test]
  refine ⟨fun hdrains => ?_, ?_⟩
  · rw [hsame, herrno]
    exact h.draining (.inl (hpc hdrains))
  · rw [hsame]
    exact h.few

/-- One more fruitless `read`: it cleared `errno`, or the loop is left. -/
theorem Brief.counted {past : List (Thread × Answer)} {t t' : Thread} {a : Answer}
    (hread : a.Fruitless) (hfew : fruitlessReads (past.map Prod.snd) ≤ 1)
    (hdrain : t'.pc = .drainHead ∨ t'.pc = .read →
      fruitlessReads (past.map Prod.snd) = 0 ∧ t'.errno = .zero) :
    Brief (past ++ [(t, a)]) t' := by
  have hnext : fruitlessReads ((past ++ [(t, a)]).map Prod.snd) =
      fruitlessReads (past.map Prod.snd) + 1 := by
    rw [actions_snoc, fruitlessReads_read _ hread]
  refine ⟨fun hdrains => .inr ?_, ?_⟩
  · obtain ⟨hnone, hzero⟩ := hdrain hdrains
    exact ⟨by rw [hnext, hnone], hzero⟩
  · rw [hnext]
    omega

/-- Unless it is tried again, a `read` without data is fruitless. -/
theorem NoData.fruitless {t u : Thread} {a : Answer} (h : NoData t a u)
    (hretry : ¬ Errno.Retried u.errno) :
    a.Fruitless ∧ ∀ errnos, JudgedBy errnos t a → u.errno ∈ errnos := by
  cases h with
  | error errno => exact ⟨hretry, fun errnos hjudged => hjudged hretry⟩
  | empty buf => exact ⟨rfl, fun errnos hjudged => hjudged rfl⟩

theorem Brief.step {errnos : Set Errno} (hhandled : ∀ e ∈ errnos, Errno.Handled e)
    {past : List (Thread × Answer)} {t t' : Thread} {a : Answer} (h : Brief past t)
    (hjudged : JudgedBy errnos t a) (hstep : Step t a t') : Brief (past ++ [(t, a)]) t' := by
  cases hstep with
  | epollAddFailed | epollAdded | waitInterrupted | waitFailed | waitGivenUp | waitTimeout
  | woken | dispatched | frontOfEmpty => exact .restart id id
  | leave hpc | enter hpc => exact h.tested (by simp) rfl
  | drainLeft hpc => exact h.tested (by simp) rfl
  | drainEntered hpc => exact h.tested (fun _ => hpc) rfl
  | readRetried hpc hnd hretry =>
      cases hnd with
      | error errno => exact .restart (not_not_intro hretry) id
      | empty buf =>
          -- an `errno` that was cleared before would not be tried again
          have hfirst : fruitlessReads (past.map Prod.snd) = 0 := by
            rcases h.draining (.inr hpc) with hnone | ⟨-, hzero⟩
            · exact hnone
            · rw [hzero] at hretry
              exact absurd hretry (by decide)
          exact .counted rfl (by omega) fun _ => ⟨hfirst, rfl⟩
  | readEndsDrain hpc hnd hretry hends =>
      refine .counted (hnd.fruitless hretry).1 ?_ (by simp)
      rcases h.draining (.inr hpc) with hnone | ⟨hone, -⟩
      · omega
      · omega
  | readIgnored hpc hnd hretry hends =>
      rcases hhandled _ ((hnd.fruitless hretry).2 errnos hjudged) with hhandled | hhandled
      · exact absurd hhandled hretry
      · exact absurd hhandled hends
  | readOversized _ hbig => exact .restart (fun hzero => absurd hbig (by rw [hzero]; simp)) id
  | decoded _ hpos | decodeFaults _ hpos | decodeSpins _ hpos =>
      exact .restart (Nat.ne_of_gt hpos) id

theorem boundsFruitless_of_handled {errnos : Set Errno}
    (hhandled : ∀ e ∈ errnos, Errno.Handled e) : BoundsFruitless errnos 2 := by
  intro errno hist t h _ hjudged
  have hbrief : Brief hist t :=
    h.invariant_hist_of_meets
      (fun _ _ _ _ ht hC hstep => ht.step hhandled hC (step_cases hstep)) hjudged
      ⟨fun _ => .inl rfl, Nat.zero_le 2⟩
  exact hbrief.few

/-! ### A value that is not handled -/

/-- The loop reads `count` times and each `read` fails with this error. -/
def failures (e : Errno) (count : Nat) : List Answer :=
  (List.replicate count [Answer.stopped false, Answer.readError e]).flatten

theorem mem_failures {e : Errno} {count : Nat} {a : Answer} (h : a ∈ failures e count) :
    a = .stopped false ∨ a = .readError e := by
  obtain ⟨pair, hpair, ha⟩ := List.mem_flatten.mp h
  rw [List.eq_of_mem_replicate hpair] at ha
  simpa using ha

theorem fruitlessReads_failures {e : Errno} (hretry : ¬ Errno.Retried e) (past : List Answer)
    (count : Nat) :
    fruitlessReads (past ++ failures e count) = fruitlessReads past + count := by
  induction count with
  | zero => simp [failures]
  | succ count ih =>
      have hsnoc : past ++ failures e (count + 1) =
          past ++ failures e count ++ [.stopped false] ++ [.readError e] := by
        simp [failures, List.replicate_succ']
      have hread : (Answer.readError e).Fruitless := hretry
      rw [hsnoc, fruitlessReads_read _ hread, fruitlessReads_test, ih]
      rfl

/-- After a failure that is not handled the loop is where it was. -/
theorem run_failures {t : Thread} (hpc : t.pc = .drainHead)
    (hfew : t.inotifyEventBuffer.length < maxInotifyEventSize)
    (hhandled : ¬ Errno.Handled t.errno) (count : Nat) :
    ∃ hist, Run (fun t a t' => step t a = some t') t hist t ∧
      hist.map Prod.snd = failures t.errno count := by
  obtain ⟨hretry, hends⟩ := not_or.mp hhandled
  have htest : step t (.stopped false) = some { t with pc := .read } := by
    have hgoes : ¬ (false = true ∨ maxInotifyEventSize ≤ t.inotifyEventBuffer.length) :=
      not_or.mpr ⟨Bool.false_ne_true, Nat.not_le.mpr hfew⟩
    simp only [step, hpc, if_neg hgoes]
  have hread : step { t with pc := .read } (.readError t.errno) = some t := by
    simp only [step, afterNoData, if_neg hretry, if_neg hends, ← hpc]
  induction count with
  | zero => exact ⟨[], .nil t, rfl⟩
  | succ count ih =>
      obtain ⟨hist, hrun, hactions⟩ := ih
      refine ⟨_, .cons htest (.cons hread hrun), ?_⟩
      rw [List.map_cons, List.map_cons, hactions]
      rfl

/-- The thread is woken for the first time. -/
def wakes : List Answer := [.epollCtl false, .stopped false, .epollWait 1 .zero]

theorem wakes_failures_meet {e : Errno} {count : Nat} {a : Answer}
    (h : a ∈ wakes ++ failures e count) : a.StaysClear ∧ ∀ t, JudgedBy {e} t a := by
  rcases List.mem_append.mp h with h | h
  · simp only [wakes, List.mem_cons, List.not_mem_nil, or_false] at h
    rcases h with rfl | rfl | rfl
    · exact ⟨trivial, fun _ => trivial⟩
    · exact ⟨rfl, fun _ => trivial⟩
    · exact ⟨trivial, fun _ => trivial⟩
  · rcases mem_failures h with rfl | rfl
    · exact ⟨rfl, fun _ => trivial⟩
    · exact ⟨trivial, fun _ _ => rfl⟩

/-- Any number of fruitless `read`s, when one value is not handled. -/
theorem exists_trapped {e : Errno} (hhandled : ¬ Errno.Handled e) (count : Nat) :
    ∃ hist t, Run (fun t a t' => step t a = some t') (.start e) hist t ∧
      Meets (fun _ a => a.StaysClear) hist ∧ Meets (JudgedBy {e}) hist ∧
      fruitlessReads (hist.map Prod.snd) = count := by
  obtain ⟨hist, t, hrun, hactions⟩ : ∃ hist t,
      Run (fun t a t' => step t a = some t') (.start e) hist t ∧
        hist.map Prod.snd = wakes ++ failures e count := by
    have hwoken : { Thread.start e with pc := .drainHead }.inotifyEventBuffer.length <
        maxInotifyEventSize := Nat.zero_lt_succ 9
    obtain ⟨hist, hrun, hactions⟩ := run_failures rfl hwoken hhandled count
    refine ⟨_, _, .cons (a := .epollCtl false) rfl (.cons (a := .stopped false) rfl
      (.cons (a := .epollWait 1 .zero) rfl hrun)), ?_⟩
    rw [List.map_cons, List.map_cons, List.map_cons, hactions]
    rfl
  refine ⟨hist, t, hrun, ?_, ?_, ?_⟩
  · exact meets_of_actions hactions fun a ha _ => (wakes_failures_meet ha).1
  · exact meets_of_actions hactions fun a ha t => (wakes_failures_meet ha).2 t
  · have hnone : fruitlessReads wakes = 0 := by decide
    have hretry : ¬ Errno.Retried e := fun h => hhandled (.inl h)
    rw [hactions, fruitlessReads_failures hretry, hnone, Nat.zero_add]

/-- **When failing reads are bounded.** Let `errno` have only certain values where a
`read` without data is judged, apart from reads that fail with `EINTR` or `ETXTBSY`.
Then, in all runs in which the flag stays clear, the drain loop makes a bounded number
of such reads in a row if and only if these values are all handled; and then it makes
two at most. -/
theorem failing_reads_bounded_iff (errnos : Set Errno) :
    ((∃ bound, BoundsFruitless errnos bound) ↔ ∀ e ∈ errnos, Errno.Handled e) ∧
      ((∀ e ∈ errnos, Errno.Handled e) → BoundsFruitless errnos 2) := by
  refine ⟨⟨fun hbound e he => ?_, fun hhandled => ?_⟩, boundsFruitless_of_handled⟩
  · obtain ⟨bound, hbound⟩ := hbound
    by_contra hnot
    obtain ⟨hist, t, hrun, hclear, hjudged, hcount⟩ := exists_trapped hnot (bound + 1)
    have hmore : Meets (JudgedBy errnos) hist := fun x hx =>
      (hjudged x hx).mono (Set.singleton_subset_iff.mpr he)
    have hle := hbound e hist t hrun hclear hmore
    omega
  · exact ⟨2, boundsFruitless_of_handled hhandled⟩

/-- A `read` that keeps failing with `EBADF` is repeated for ever. -/
theorem failing_read_traps :
    ¬ ∃ bound, ∀ (errno : Errno) (hist : List (Thread × Answer)) (t : Thread),
      Run (fun t a t' => step t a = some t') (.start errno) hist t →
      Meets (fun _ a => a.StaysClear) hist → fruitlessReads (hist.map Prod.snd) ≤ bound := by
  intro h
  obtain ⟨bound, hbound⟩ := h
  obtain ⟨hist, t, hrun, hclear, -, hcount⟩ :=
    exists_trapped (e := .other 9) (by decide) (bound + 1)
  have hle := hbound (.other 9) hist t hrun hclear
  omega

end InotifyRealtime.EpollHandler
