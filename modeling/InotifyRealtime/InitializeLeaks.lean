import InotifyRealtime.LifecycleRuns
/-!
# InotifyRealtime.InitializeLeaks

What a failed `Initialize` leaves open.

`InotifyEventHandler::Initialize` has three ways to fail. After a failed
`inotify_init` there is nothing to close. After a failed `epoll_create1` the
inotify descriptor is a member already, and the core's destructor closes it. In
between, the watch manager answers whether the descriptor it was given is not 0:
descriptor 0 is refused, and it is in no member yet.

`AllOrNothing` is what one expects of an attempt. It holds of exactly the attempts
in which `inotify_init` does not answer 0 (`allOrNothing_iff`), so of a whole
sequence of calls exactly if it never does (`all_or_nothing_iff`).
-/

namespace InotifyRealtime

open Resource Machine

/-- A system call that succeeded, with the descriptor it answered. -/
def Effect.Opens (fd : Int) (e : Effect) : Prop := 0 ≤ fd ∧ e.Obtains fd

namespace Effect

@[simp] theorem opens_inotifyInit {fd n : Int} :
    (Effect.inotifyInit n).Opens fd ↔ 0 ≤ fd ∧ n = fd := by
  simp [Opens, Obtains]

@[simp] theorem opens_epollCreate1 {fd n : Int} :
    (Effect.epollCreate1 n).Opens fd ↔ 0 ≤ fd ∧ n = fd := by
  simp [Opens, Obtains]

@[simp] theorem not_opens_close {fd n : Int} : ¬ (Effect.close n).Opens fd := by
  simp [Opens, Obtains]

@[simp] theorem not_opens_coreNew {fd : Int} : ¬ Effect.coreNew.Opens fd := by
  simp [Opens, Obtains]

@[simp] theorem not_opens_coreDelete {fd : Int} : ¬ Effect.coreDelete.Opens fd := by
  simp [Opens, Obtains]

end Effect

/-- Whatever was opened has been closed later. -/
def NothingOpen (log : List Effect) : Prop := AllReleased Effect.Opens Effect.Closes log

theorem InotifyEventHandler.close_mem_closes {fd : Int} {h : InotifyEventHandler}
    (hfd : fd = h.inotifyFd ∨ fd = h.epollFd) (hpos : 0 ≤ fd) : Effect.close fd ∈ h.closes := by
  have hreal : -1 ≠ fd := by omega
  rw [InotifyEventHandler.closes, List.mem_append]
  rcases hfd with rfl | rfl
  · left
    rw [InotifyEventHandler.closing, if_pos hreal]
    exact List.mem_singleton_self _
  · right
    rw [InotifyEventHandler.closing, if_pos hreal]
    exact List.mem_singleton_self _

namespace RealtimeCore

/-- When its handler fails, so does the core, and nothing else has happened. -/
theorem initializeWith_of_handler_failed {o : Outcomes} {p p' : Process} {c : RealtimeCore}
    {h : InotifyEventHandler}
    (hfails : c.inotifyEventHandler.initializeWith o p = (false, p', h)) :
    c.initializeWith o p =
      some (.returned false, p', { c with inotifyEventHandler := h }) := by
  rw [initializeWith, hfails]

end RealtimeCore

namespace RealtimeInterface

/-- A core whose handler fails is destroyed, and its handler closes what it has
stored, twice. -/
theorem initializeWith_of_handler_failed {o : Outcomes} {p p' : Process} {h : InotifyEventHandler}
    (halloc : o.allocation = .succeeds)
    (hfails : InotifyEventHandler.new.initializeWith o (p.record .coreNew) = (false, p', h)) :
    ∃ p'', initializeWith .outside o p ⟨none⟩ = some (false, p'', ⟨none⟩) ∧
      p''.log = p'.log ++ (h.closes ++ h.closes ++ [.coreDelete]) := by
  have hcore := RealtimeCore.initializeWith_of_handler_failed (c := .new) hfails
  simp only [initializeWith, allocate, halloc, Option.bind_some, hcore, reset,
    RealtimeCore.destroy_outside, Option.map_some]
  exact ⟨_, rfl, by simp only [List.append_assoc]⟩

end RealtimeInterface

/-! ### One attempt -/

/-- What is expected of an attempt of a process to initialize a new core: the handler
succeeds when both system calls do, and when it fails nothing it opened is left
open once the core is gone. -/
structure AllOrNothing (o : Outcomes) (p : Process) : Prop where
  all : 0 ≤ o.inotifyInit → 0 ≤ o.epollCreate1 →
    (InotifyEventHandler.new.initializeWith o (p.record .coreNew)).1 = true
  nothing : (InotifyEventHandler.new.initializeWith o (p.record .coreNew)).1 = false →
    ∃ p' added, RealtimeInterface.initializeWith .outside o p ⟨none⟩ = some (false, p', ⟨none⟩) ∧
      p'.log = p.log ++ added ∧ NothingOpen added

/-- Descriptor 0 is not closed. -/
theorem not_allOrNothing_of_zero {o : Outcomes} {p : Process} (halloc : o.allocation = .succeeds)
    (hzero : o.inotifyInit = 0) : ¬ AllOrNothing o p := by
  intro h
  have hfails := InotifyEventHandler.initializeWith_of_zero hzero (p.record .coreNew) .new
  obtain ⟨p', added, hinit, hadded, hopen⟩ := h.nothing (by rw [hfails])
  obtain ⟨p'', hinit', hlog⟩ :=
    RealtimeInterface.initializeWith_of_handler_failed halloc hfails
  obtain rfl : p'' = p' := by
    rw [hinit', Option.some.injEq, Prod.mk.injEq, Prod.mk.injEq] at hinit
    exact hinit.2.1
  -- the attempt, from the birth of the core to its end
  have hattempt : added = [.coreNew] ++ .inotifyInit 0 :: [.coreDelete] := by
    rw [hadded] at hlog
    simpa [Process.record, hzero] using hlog
  obtain ⟨e, he, hcloses⟩ := hopen 0 _ _ _ hattempt ⟨le_rfl, .inl rfl⟩
  rw [List.mem_singleton] at he
  rw [he] at hcloses
  exact absurd hcloses Effect.noConfusion

/-- What the handler opened in a failed attempt is in its members. -/
theorem nothingOpen_of_stored {h : InotifyEventHandler} {opened : List Effect}
    (hopened : ∀ e ∈ opened, ∀ fd, e.Opens fd → fd = h.inotifyFd ∨ fd = h.epollFd) :
    NothingOpen (opened ++ (h.closes ++ h.closes ++ [.coreDelete])) := by
  refine AllReleased.append (allReleased_of_no_acquire fun e he fd hopens => ?_)
    fun e he fd hopens => ⟨.close fd, ?_, rfl⟩
  · have hcases : (∃ n, e = .close n) ∨ e = .coreDelete := by
      simp only [List.mem_append, List.mem_singleton] at he
      rcases he with (he | he) | he
      · exact .inl (InotifyEventHandler.mem_closes he)
      · exact .inl (InotifyEventHandler.mem_closes he)
      · exact .inr he
    rcases hcases with ⟨n, rfl⟩ | rfl
    · exact Effect.not_opens_close hopens
    · exact Effect.not_opens_coreDelete hopens
  · have hclose := InotifyEventHandler.close_mem_closes (hopened e he fd hopens) hopens.1
    exact List.mem_append_left _ (List.mem_append_left _ hclose)

/-- Unless the inotify descriptor is 0, what the handler opens it stores. -/
theorem InotifyEventHandler.stores_opened {o : Outcomes} (hzero : o.inotifyInit ≠ 0)
    {p p' : Process} {result : Bool} {h : InotifyEventHandler}
    (heq : InotifyEventHandler.new.initializeWith o p = (result, p', h)) :
    ∃ opened, p'.log = p.log ++ opened ∧
      ∀ e ∈ opened, ∀ fd, e.Opens fd → fd = h.inotifyFd ∨ fd = h.epollFd := by
  rcases Int.lt_or_gt_of_ne hzero with hinit | hinit
  · -- nothing was opened
    rw [initializeWith_of_neg hinit] at heq
    obtain ⟨-, rfl, rfl⟩ := heq
    refine ⟨[.inotifyInit o.inotifyInit], rfl, fun e he fd hopens => ?_⟩
    rw [List.mem_singleton.mp he, Effect.opens_inotifyInit] at hopens
    omega
  by_cases hepoll : o.epollCreate1 < 0
  · rw [initializeWith_of_epoll_neg hinit hepoll] at heq
    obtain ⟨-, rfl, rfl⟩ := heq
    refine ⟨_, rfl, fun e he fd hopens => ?_⟩
    rcases List.mem_append.mp he with he | he
    · simp only [List.mem_cons, List.not_mem_nil, or_false] at he
      rcases he with rfl | rfl
      · exact .inl (Effect.opens_inotifyInit.mp hopens).2.symm
      · have hfd := Effect.opens_epollCreate1.mp hopens
        omega
    · -- the scope exit opens nothing
      split at he
      · rw [mem_closing he] at hopens
        exact absurd hopens Effect.not_opens_close
      · exact absurd he List.not_mem_nil
  · rw [initializeWith_of_pos hinit (Int.not_lt.mp hepoll)] at heq
    obtain ⟨-, rfl, rfl⟩ := heq
    refine ⟨_, rfl, fun e he fd hopens => ?_⟩
    simp only [List.mem_cons, List.not_mem_nil, or_false] at he
    rcases he with rfl | rfl
    · exact .inl (Effect.opens_inotifyInit.mp hopens).2.symm
    · exact .inr (Effect.opens_epollCreate1.mp hopens).2.symm

/-- **One attempt.** It is all or nothing exactly if `inotify_init` does not answer
descriptor 0, in whatever process and whatever `epoll_create1` answers. -/
theorem allOrNothing_iff {o : Outcomes} (halloc : o.allocation = .succeeds) (p : Process) :
    AllOrNothing o p ↔ o.inotifyInit ≠ 0 := by
  constructor
  · intro h hzero
    exact not_allOrNothing_of_zero halloc hzero h
  · intro hzero
    refine ⟨fun hinit hepoll => ?_, fun hfails => ?_⟩
    · rw [InotifyEventHandler.initializeWith_of_pos (by omega) hepoll]
    · obtain ⟨result, p₁, h, heq, -⟩ := InotifyEventHandler.initializeWith_new o (p.record .coreNew)
      obtain rfl : result = false := by rwa [heq] at hfails
      obtain ⟨opened, hopened, hstored⟩ := InotifyEventHandler.stores_opened hzero heq
      obtain ⟨p', hresult, hlog⟩ := RealtimeInterface.initializeWith_of_handler_failed halloc heq
      refine ⟨p', .coreNew :: opened ++ (h.closes ++ h.closes ++ [.coreDelete]), hresult, ?_,
        nothingOpen_of_stored fun e he fd hopens => ?_⟩
      · rw [hlog, hopened]
        simp [Process.record]
      · rcases List.mem_cons.mp he with rfl | he
        · exact absurd hopens Effect.not_opens_coreNew
        · exact hstored e he fd hopens

/-! ### Sequences of calls -/

namespace Program

/-- This event is a call that gets as far as `inotify_init`, with these outcomes. -/
def Attempts (s : Program) (e : Event) (o : Outcomes) : Prop :=
  e = .initializeWith o ∧ s.interface.core = none ∧ o.allocation = .succeeds

/-- **When initialization is all or nothing.** In a sequence of calls every attempt
to initialize a new core is all or nothing if and only if `inotify_init` answers
descriptor 0 in none of them. -/
theorem all_or_nothing_iff (hist : List (Program × Event)) (s : Program)
    (h : Run Step start hist s) :
    Meets (fun t e => ∀ o, t.Attempts e o → AllOrNothing o t.process) hist ↔
      Meets (fun t e => ∀ o, t.Attempts e o → o.inotifyInit ≠ 0) hist := by
  refine h.meets_congr (I := fun _ => True) (fun _ _ _ _ _ => trivial) (fun t e _ => ?_) trivial
  constructor
  · intro hall o ho
    exact (allOrNothing_iff ho.2.2 t.process).mp (hall o ho)
  · intro hall o ho
    exact (allOrNothing_iff ho.2.2 t.process).mpr (hall o ho)

/-- A session, and an attempt in which `epoll_create1` fails. -/
def sessionThenFailure : List Event :=
  [.initializeWith allSucceed, .finalize, .initializeWith { allSucceed with epollCreate1 := -1 }]

theorem all_or_nothing_sessionThenFailure :
    ∃ hist s, exec next start sessionThenFailure = some (hist, s) ∧
      Meets (fun t e => ∀ o, t.Attempts e o → o.inotifyInit ≠ 0) hist ∧
      Meets (fun t e => ∀ o, t.Attempts e o → AllOrNothing o t.process) hist := by
  have hpossible : (exec next start sessionThenFailure).isSome = true := by decide
  have hpositive : ∀ e ∈ sessionThenFailure, ∀ o, e = .initializeWith o → o.inotifyInit ≠ 0 := by
    simp [sessionThenFailure, allSucceed]
  obtain ⟨⟨hist, s⟩, hexec⟩ := Option.isSome_iff_exists.mp hpossible
  have hmeets := meets_of_actions
    (C := fun (t : Program) e => ∀ o, t.Attempts e o → o.inotifyInit ≠ 0)
    (actions_of_exec hexec) fun e he _ o ho => hpositive e he o ho.1
  exact ⟨hist, s, hexec, hmeets, (all_or_nothing_iff hist s (run_of_exec hexec)).mpr hmeets⟩

/-- The first call is answered descriptor 0, fails, and leaves it open. -/
theorem zero_stays_open :
    ¬ ∀ (hist : List (Program × Event)) (s : Program), Run Step start hist s →
      Meets (fun t e => ∀ o, t.Attempts e o → AllOrNothing o t.process) hist := by
  intro h
  obtain ⟨s, hs, -⟩ := next_does start (.initializeWith { allSucceed with inotifyInit := 0 })
  have hall := h _ s (.cons hs (.nil s)) _ List.mem_cons_self _ ⟨rfl, rfl, rfl⟩
  exact not_allOrNothing_of_zero rfl rfl hall

end Program

end InotifyRealtime
