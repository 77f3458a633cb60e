import InotifyRealtime.EpollHandler
import InotifyRealtime.LifecycleRuns
/-!
# InotifyRealtime.WaitSignalKill

`main` and the wait that is to end it.

`WaitSignalKill` calls `sigtimedwait` for SIGINT, SIGTERM and SIGQUIT until it
returns, and `main` then destroys its `RealtimeInterface`. The only way out of the
loop stands behind the test for a failed call, so an error ends it and an accepted
signal does not. `Behaves` is what one expects of the wait; it holds of the calls up
to the first error, and fails as soon as a signal comes before that
(`wait_behaves_iff`).
-/

namespace InotifyRealtime

/-- The signals of `sigMaskWait`. -/
inductive Signal
  | sigint
  | sigquit
  | sigterm
  deriving DecidableEq

def Signal.number : Signal → Int
  | .sigint => 2
  | .sigquit => 3
  | .sigterm => 15

namespace WaitSignalKill

/-- What one call of `sigtimedwait` does. -/
inductive Outcome
  | accepted (signal : Signal)
  | failed (errno : Errno)
  deriving DecidableEq

/-- What the call returns: the signal's number, or -1. -/
def Outcome.rc : Outcome → Int
  | .accepted signal => signal.number
  | .failed _ => -1

/-- The `errno` the call leaves; one that succeeds leaves it as it was. -/
def Outcome.errno (before : Errno) : Outcome → Errno
  | .accepted _ => before
  | .failed errno => errno

/-- A turn of the loop: the value returned, or `errno` for the next turn. The -1
returned is converted to `bool`. -/
def turn (errno : Errno) (o : Outcome) : Errno ⊕ Bool :=
  if o.rc < 0 then
    if o.errno errno ≠ .eintr ∧ o.errno errno ≠ .eagain then .inr true else .inl .zero
  else .inl (o.errno errno)

/-- How the function stands once the calls it has made had these outcomes. -/
inductive Wait
  | waiting
  /-- It returned, before the calls that would have had the outcomes `unused`. -/
  | returned (result : Bool) (unused : List Outcome)
  deriving DecidableEq

/-- `WaitSignalKill`. -/
def waitSignalKill (errno : Errno) : List Outcome → Wait
  | [] => .waiting
  | o :: os =>
      match turn errno o with
      | .inr result => .returned result os
      | .inl errno => waitSignalKill errno os

/-- The wait itself has failed. -/
def Outcome.Fatal : Outcome → Prop
  | .accepted _ => False
  | .failed errno => errno ≠ .eintr ∧ errno ≠ .eagain

/-- A reason to end the wait: a termination signal, or its failure. -/
def Outcome.Ends : Outcome → Prop
  | .accepted _ => True
  | .failed errno => errno ≠ .eintr ∧ errno ≠ .eagain

theorem Outcome.Fatal.ends {o : Outcome} (h : o.Fatal) : o.Ends := by
  cases o with
  | accepted signal => trivial
  | failed errno => exact h

theorem turn_fatal {o : Outcome} (h : o.Fatal) (errno : Errno) : turn errno o = .inr true := by
  cases o with
  | accepted signal => exact h.elim
  | failed e =>
      have hneg : (Outcome.failed e).rc < 0 := by simp [Outcome.rc]
      have herrno : e ≠ .eintr ∧ e ≠ .eagain := h
      rw [turn, if_pos hneg, Outcome.errno, if_pos herrno]

theorem turn_not_fatal {o : Outcome} (h : ¬ o.Fatal) (errno : Errno) :
    ∃ errno', turn errno o = .inl errno' := by
  cases o with
  | accepted signal =>
      have hpos : ¬ (Outcome.accepted signal).rc < 0 := by
        cases signal <;> decide
      exact ⟨errno, by rw [turn, if_neg hpos, Outcome.errno]⟩
  | failed e =>
      have hneg : (Outcome.failed e).rc < 0 := by simp [Outcome.rc]
      have herrno : ¬ (e ≠ .eintr ∧ e ≠ .eagain) := h
      exact ⟨.zero, by rw [turn, if_pos hneg, Outcome.errno, if_neg herrno]⟩

/-- The loop goes on through outcomes that are not fatal. -/
theorem waitSignalKill_append {before : List Outcome} (h : ∀ b ∈ before, ¬ b.Fatal) :
    ∀ (errno : Errno) (os : List Outcome), ∃ errno',
      waitSignalKill errno (before ++ os) = waitSignalKill errno' os := by
  induction before with
  | nil => exact fun errno os => ⟨errno, rfl⟩
  | cons b before ih =>
      intro errno os
      obtain ⟨errno₁, hturn⟩ := turn_not_fatal (h b List.mem_cons_self) errno
      obtain ⟨errno', hrest⟩ := ih (fun b' hb' => h b' (List.mem_cons_of_mem _ hb')) errno₁ os
      exact ⟨errno', by rw [List.cons_append, waitSignalKill, hturn, ← hrest]⟩

theorem waitSignalKill_fatal {before rest : List Outcome} {o : Outcome}
    (h : ∀ b ∈ before, ¬ b.Fatal) (ho : o.Fatal) (errno : Errno) :
    waitSignalKill errno (before ++ o :: rest) = .returned true rest := by
  obtain ⟨errno', heq⟩ := waitSignalKill_append h errno (o :: rest)
  rw [heq, waitSignalKill, turn_fatal ho]

/-- Without a fatal outcome the loop goes on. -/
theorem waitSignalKill_waiting {os : List Outcome} (h : ∀ o ∈ os, ¬ o.Fatal) (errno : Errno) :
    waitSignalKill errno os = .waiting := by
  obtain ⟨errno', heq⟩ := waitSignalKill_append h errno []
  rw [List.append_nil] at heq
  rw [heq, waitSignalKill]

/-- A return leaves out at least the call that made it. -/
theorem waitSignalKill_unused {result : Bool} {unused : List Outcome} :
    ∀ {errno : Errno} {os : List Outcome}, waitSignalKill errno os = .returned result unused →
      unused.length < os.length
  | errno, [], h => absurd h nofun
  | errno, o :: os, h => by
      rw [waitSignalKill] at h
      cases hturn : turn errno o with
      | inr result' =>
          rw [hturn, Wait.returned.injEq] at h
          rw [← h.2]
          exact Nat.lt_succ_self _
      | inl errno' =>
          rw [hturn] at h
          exact Nat.lt_succ_of_lt (waitSignalKill_unused h)

/-- The first outcome that is a reason to end. -/
theorem exists_first_ends {os : List Outcome} (h : ∃ o ∈ os, o.Ends) :
    ∃ before o rest, os = before ++ o :: rest ∧ (∀ b ∈ before, ¬ b.Ends) ∧ o.Ends := by
  induction os with
  | nil => simp at h
  | cons o os ih =>
      by_cases ho : o.Ends
      · exact ⟨[], o, os, rfl, by simp, ho⟩
      · have hlater : ∃ x ∈ os, x.Ends := by
          obtain ⟨x, hx, hends⟩ := h
          rcases List.mem_cons.mp hx with rfl | hx
          · exact absurd hends ho
          · exact ⟨x, hx, hends⟩
        obtain ⟨before, x, rest, rfl, hbefore, hx⟩ := ih hlater
        refine ⟨o :: before, x, rest, rfl, fun b hb => ?_, hx⟩
        rcases List.mem_cons.mp hb with rfl | hb
        · exact ho
        · exact hbefore b hb

end WaitSignalKill

/-! ### `main` -/

/-- How far `main` has come. -/
inductive Main
  /-- In `WaitSignalKill`, with its interface. -/
  | waiting (p : Process) (realtimeInterface : RealtimeInterface)
  /-- Its interface has been destroyed. -/
  | ended (p : Process)

open WaitSignalKill in
/-- `main`, once `sigtimedwait` has had these outcomes. What `Initialize` answers
nobody reads. -/
def main (o : Outcomes) (errno : Errno) (os : List Outcome) : Option Main :=
  (RealtimeInterface.new.initializeWith .outside o .start).bind fun (_, p, i) =>
    match waitSignalKill errno os with
    | .waiting => some (.waiting p i)
    | .returned _ _ => (i.destroy .outside p).map .ended

namespace WaitSignalKill

/-- `main` gets as far as the wait gets. -/
theorem main_eq (o : Outcomes) (errno : Errno) (os : List Outcome) :
    ∃ p i p', main o errno os = some
      (match waitSignalKill errno os with
      | .waiting => .waiting p i
      | .returned _ _ => .ended p') := by
  obtain ⟨result, p, i, hinit, -⟩ := RealtimeInterface.initializeWith_outside o .start
  obtain ⟨s', -, -, hdestroy⟩ := Program.destroy_eq ⟨p, i⟩
  refine ⟨p, i, s'.process, ?_⟩
  rw [main, show RealtimeInterface.new = ⟨none⟩ from rfl, hinit, Option.bind_some]
  cases waitSignalKill errno os with
  | waiting => rfl
  | returned result unused => simp only [hdestroy, Option.map_some]

/-- What is expected of the wait: it makes no further call after the first outcome
that is a reason to end, goes on after every other, and `main` destroys its
interface exactly when there has been such an outcome. -/
structure Behaves (errno : Errno) (os : List Outcome) : Prop where
  ends : ∀ before o rest, os = before ++ o :: rest → (∀ b ∈ before, ¬ b.Ends) → o.Ends →
    ∃ result, waitSignalKill errno os = .returned result rest
  goes_on : (∀ o ∈ os, ¬ o.Ends) → waitSignalKill errno os = .waiting
  destroys : ∀ o, (∃ p, main o errno os = some (.ended p)) ↔ ∃ x ∈ os, x.Ends

/-- An accepted signal does not end the wait. -/
theorem not_behaves_of_signal {errno : Errno} (before : List Outcome) (signal : Signal)
    (rest : List Outcome) (h : ∀ b ∈ before, ¬ b.Fatal) :
    ¬ Behaves errno (before ++ .accepted signal :: rest) := by
  intro hbehaves
  -- the first reason to end is a signal too: this one, or one before it
  have hsome : ∃ o ∈ before ++ [Outcome.accepted signal], o.Ends :=
    ⟨.accepted signal, by simp, trivial⟩
  obtain ⟨before', o, rest', heq, hbefore', ho⟩ := exists_first_ends hsome
  have hnotFatal : ¬ o.Fatal := by
    have hmem : o ∈ before ++ [.accepted signal] := by
      rw [heq]
      simp
    rcases List.mem_append.mp hmem with hmem | hmem
    · exact h o hmem
    · rw [List.mem_singleton.mp hmem]
      exact id
  have hwhole : before ++ .accepted signal :: rest = before' ++ o :: (rest' ++ rest) := by
    rw [List.append_cons, heq, List.append_assoc, List.cons_append]
  obtain ⟨result, hreturned⟩ := hbehaves.ends before' o (rest' ++ rest) hwhole hbefore' ho
  have hnone : ∀ b ∈ before' ++ [o], ¬ b.Fatal := by
    intro b hb
    rcases List.mem_append.mp hb with hb | hb
    · exact fun hfatal => hbefore' b hb hfatal.ends
    · rw [List.mem_singleton.mp hb]
      exact hnotFatal
  obtain ⟨errno₁, hskip⟩ := waitSignalKill_append hnone errno (rest' ++ rest)
  rw [hwhole, List.append_cons, hskip] at hreturned
  exact absurd (waitSignalKill_unused hreturned) (Nat.lt_irrefl _)

/-- **When the wait ends as it should.** For every sequence of outcomes of
`sigtimedwait`, the wait and `main` behave as expected if and only if no signal is
accepted before the wait has failed. -/
theorem wait_behaves_iff (errno : Errno) (os : List Outcome) :
    Behaves errno os ↔
      ∀ before signal rest, os = before ++ .accepted signal :: rest → ∃ b ∈ before, b.Fatal := by
  constructor
  · intro h before signal rest heq
    by_contra hnone
    subst heq
    exact not_behaves_of_signal before signal rest (fun b hb hfatal => hnone ⟨b, hb, hfatal⟩) h
  · intro h
    have hends : ∀ before o rest, os = before ++ o :: rest → (∀ b ∈ before, ¬ b.Ends) →
        o.Ends → waitSignalKill errno os = .returned true rest := by
      intro before o rest heq hbefore ho
      have hfatal : o.Fatal := by
        cases o with
        | accepted signal =>
            obtain ⟨b, hb, hfatal⟩ := h before signal rest heq
            exact absurd hfatal.ends (hbefore b hb)
        | failed e => exact ho
      rw [heq]
      exact waitSignalKill_fatal (fun b hb hf => hbefore b hb hf.ends) hfatal errno
    have hgoes : (∀ o ∈ os, ¬ o.Ends) → waitSignalKill errno os = .waiting := fun hnone =>
      waitSignalKill_waiting (fun o ho hfatal => hnone o ho hfatal.ends) errno
    refine ⟨fun before o rest heq hbefore ho => ⟨true, hends before o rest heq hbefore ho⟩, hgoes,
      fun o => ?_⟩
    obtain ⟨p, i, p', hmain⟩ := main_eq o errno os
    rw [hmain]
    constructor
    · intro ⟨p'', hended⟩
      by_contra hnone
      rw [hgoes fun x hx hx' => hnone ⟨x, hx, hx'⟩, Option.some.injEq] at hended
      exact absurd hended nofun
    · intro hsome
      obtain ⟨before, x, rest, heq, hbefore, hx⟩ := exists_first_ends hsome
      rw [hends before x rest heq hbefore hx]
      exact ⟨p', rfl⟩

/-- SIGINT is accepted, and the wait goes on. -/
theorem signal_does_not_end :
    waitSignalKill .zero [.accepted .sigint] = .waiting ∧
      ¬ ∀ (errno : Errno) (os : List Outcome), Behaves errno os :=
  ⟨rfl, fun h => not_behaves_of_signal [] .sigint []
    (fun _ hb => absurd hb List.not_mem_nil) (h .zero [.accepted .sigint])⟩

end WaitSignalKill

end InotifyRealtime
