import Mathlib.Logic.Function.Basic
/-!
# Foundation.Threads

A table of threads and the handles that own them, after `std::thread`.

A thread enters the table when it is spawned and stays there; it is running until
it ends. A handle is joinable while it owns a thread. `join` waits until that
thread has ended, unless the thread is the caller itself: that throws and leaves
the handle as it is. `detach` gives the thread up, running or not.

`RunsOnly` is the view from outside: which threads may still be running. `Accounted`
is the view of an owner with one handle for each role: whatever runs is owned by the
handle of its role, or was detached.
-/

namespace Threads

/-- A thread of the process. -/
structure Thread (ρ : Type) where
  role : ρ
  running : Bool
  detached : Bool
  deriving DecidableEq

/-- Who executes a call: a thread of the table, or one from outside it. -/
inductive ThreadId
  | outside
  | thread (index : Nat)
  deriving DecidableEq

/-- A handle, with the thread it owns. -/
abbrev Handle := Option Nat

/-- The handle owns a thread. -/
def Handle.joinable (h : Handle) : Bool := h.isSome

/-- The id of the thread a handle owns; of a handle that owns none, no thread's id. -/
def Handle.getId (h : Handle) : Option ThreadId := h.map .thread

variable {ρ : Type}

/-- A new thread, and the handle that owns it. -/
def spawn (ts : List (Thread ρ)) (role : ρ) : Handle × List (Thread ρ) :=
  (some ts.length, ts ++ [⟨role, true, false⟩])

/-- The thread ends. -/
def finish (ts : List (Thread ρ)) (i : Nat) : List (Thread ρ) :=
  ts.modify i fun t => { t with running := false }

/-- Nobody owns the thread any more. -/
def detach (ts : List (Thread ρ)) (i : Nat) : List (Thread ρ) :=
  ts.modify i fun t => { t with detached := true }

/-- `join` on a handle that owns thread `i`; `none` when it throws. -/
def join (caller : ThreadId) (ts : List (Thread ρ)) (i : Nat) : Option (List (Thread ρ)) :=
  if caller = .thread i then none else some (finish ts i)

@[simp] theorem join_outside (ts : List (Thread ρ)) (i : Nat) :
    join .outside ts i = some (finish ts i) := by
  simp [join]

/-- No thread has been detached, and only threads in `S` may still be running. -/
def RunsOnly (ts : List (Thread ρ)) (S : Nat → Prop) : Prop :=
  ∀ i t, ts[i]? = some t → t.detached = false ∧ (t.running = true → S i)

theorem runsOnly_nil (S : Nat → Prop) : RunsOnly ([] : List (Thread ρ)) S := by
  intro i t h
  simp at h

theorem RunsOnly.mono {ts : List (Thread ρ)} {S S' : Nat → Prop} (h : RunsOnly ts S)
    (hS : ∀ i, S i → S' i) : RunsOnly ts S' := by
  intro i t ht
  obtain ⟨hdetached, hrunning⟩ := h i t ht
  exact ⟨hdetached, fun hr => hS i (hrunning hr)⟩

/-- After a spawn the new thread may be running too. -/
theorem RunsOnly.spawn {ts : List (Thread ρ)} {S : Nat → Prop} (h : RunsOnly ts S) (role : ρ) :
    RunsOnly (spawn ts role).2 (fun i => S i ∨ i = ts.length) := by
  intro i t ht
  rw [Threads.spawn, List.getElem?_append] at ht
  by_cases hi : i < ts.length
  · rw [if_pos hi] at ht
    obtain ⟨hdetached, hrunning⟩ := h i t ht
    exact ⟨hdetached, fun hr => .inl (hrunning hr)⟩
  · rw [if_neg hi, List.getElem?_singleton] at ht
    by_cases hlast : i - ts.length = 0
    · rw [if_pos hlast, Option.some.injEq] at ht
      subst ht
      exact ⟨rfl, fun _ => .inr (by omega)⟩
    · rw [if_neg hlast] at ht
      exact absurd ht nofun

/-- After a thread has ended it is not running. -/
theorem RunsOnly.finish {ts : List (Thread ρ)} {S : Nat → Prop} (h : RunsOnly ts S) (j : Nat) :
    RunsOnly (finish ts j) (fun i => S i ∧ i ≠ j) := by
  intro i t ht
  rw [Threads.finish, List.getElem?_modify] at ht
  obtain ⟨t₀, ht₀, heq⟩ := Option.map_eq_some_iff.mp ht
  obtain ⟨hdetached, hrunning⟩ := h i t₀ ht₀
  by_cases hij : j = i
  · rw [if_pos hij] at heq
    subst heq
    exact ⟨hdetached, fun hr => absurd hr (by simp)⟩
  · rw [if_neg hij] at heq
    subst heq
    exact ⟨hdetached, fun hr => ⟨hrunning hr, fun heq => hij heq.symm⟩⟩

/-- The table once the thread a handle owns, if any, has been joined. -/
def joined (ts : List (Thread ρ)) : Handle → List (Thread ρ)
  | none => ts
  | some i => finish ts i

theorem RunsOnly.joined {ts : List (Thread ρ)} {S : Nat → Prop} (h : RunsOnly ts S)
    (handle : Handle) : RunsOnly (joined ts handle) (fun i => S i ∧ handle ≠ some i) := by
  cases handle with
  | none => exact h.mono fun i hi => ⟨hi, nofun⟩
  | some j => exact (h.finish j).mono fun i hi => ⟨hi.1, fun heq => hi.2 (Option.some.inj heq).symm⟩

/-! ### One handle for each role -/

theorem getElem?_finish_of_ne {ts : List (Thread ρ)} {i j : Nat} (h : j ≠ i) :
    (finish ts i)[j]? = ts[j]? := by
  rw [finish, List.getElem?_modify_ne _ ts h.symm]

theorem getElem?_detach_of_ne {ts : List (Thread ρ)} {i j : Nat} (h : j ≠ i) :
    (detach ts i)[j]? = ts[j]? := by
  rw [detach, List.getElem?_modify_ne _ ts h.symm]

@[simp] theorem length_finish (ts : List (Thread ρ)) (i : Nat) :
    (finish ts i).length = ts.length := by
  rw [finish, List.length_modify]

/-- Threads end in any order. -/
theorem finish_comm (ts : List (Thread ρ)) (i j : Nat) :
    finish (finish ts i) j = finish (finish ts j) i := by
  by_cases hij : i = j
  · rw [hij]
  · exact List.modify_modify_ne _ _ ts hij

/-- It does not matter whether a thread ends before or after one is given up. -/
theorem finish_detach (ts : List (Thread ρ)) (i j : Nat) :
    finish (detach ts j) i = detach (finish ts i) j := by
  by_cases hij : j = i
  · subst hij
    rw [finish, detach, detach, finish, List.modify_modify_eq, List.modify_modify_eq]
    rfl
  · exact List.modify_modify_ne _ _ ts hij

/-- A thread that is there ends before or after another one is spawned. -/
theorem finish_spawn {ts : List (Thread ρ)} {i : Nat} (h : i < ts.length) (role : ρ) :
    finish (spawn ts role).2 i = (spawn (finish ts i) role).2 := by
  refine List.ext_getElem? fun j => ?_
  simp only [finish, spawn, List.getElem?_modify, List.getElem?_append, List.length_modify]
  by_cases hj : j < ts.length
  · simp [hj]
  · have hij : ¬ i = j := by omega
    simp [hj, hij]

/-- How many threads run. -/
def runningCount (ts : List (Thread ρ)) : Nat := ts.countP Thread.running

theorem runningCount_spawn (ts : List (Thread ρ)) (role : ρ) :
    runningCount (spawn ts role).2 = runningCount ts + 1 := by
  simp [runningCount, spawn]

theorem runningCount_detach (ts : List (Thread ρ)) (i : Nat) :
    runningCount (detach ts i) = runningCount ts := by
  induction ts generalizing i with
  | nil => rw [detach, List.modify_nil]
  | cons t ts ih =>
      cases i with
      | zero => simp [runningCount, detach, List.countP_cons]
      | succ i =>
          have hrest := ih i
          simp only [runningCount, detach] at hrest
          simp [runningCount, detach, List.countP_cons, hrest]

/-- One that runs and ends is one less. -/
theorem runningCount_finish (ts : List (Thread ρ)) (i : Nat) :
    runningCount (finish ts i) + (if ts[i]?.any Thread.running then 1 else 0) =
      runningCount ts := by
  induction ts generalizing i with
  | nil => simp [finish]
  | cons t ts ih =>
      cases i with
      | zero => simp [runningCount, finish, List.countP_cons]
      | succ i =>
          have hrest := ih i
          simp only [runningCount, finish] at hrest
          simp only [runningCount, finish, List.modify_succ_cons, List.countP_cons,
            List.getElem?_cons_succ]
          omega

/-- A thread after another one, or itself, has ended. -/
theorem mem_finish {ts : List (Thread ρ)} {i j : Nat} {t : Thread ρ}
    (h : (finish ts i)[j]? = some t) :
    ∃ t₀, ts[j]? = some t₀ ∧ t.role = t₀.role ∧ t.detached = t₀.detached ∧
      (t.running = true → t₀.running = true ∧ j ≠ i) := by
  by_cases hij : j = i
  · subst hij
    rw [finish, List.getElem?_modify_eq] at h
    obtain ⟨t₀, ht₀, rfl⟩ := Option.map_eq_some_iff.mp h
    exact ⟨t₀, ht₀, rfl, rfl, fun hr => absurd hr Bool.false_ne_true⟩
  · rw [getElem?_finish_of_ne hij] at h
    exact ⟨t, h, rfl, rfl, fun hr => ⟨hr, hij⟩⟩

theorem mem_joined {ts : List (Thread ρ)} {handle : Handle} {j : Nat} {t : Thread ρ}
    (h : (joined ts handle)[j]? = some t) :
    ∃ t₀, ts[j]? = some t₀ ∧ t.role = t₀.role ∧ t.detached = t₀.detached ∧
      (t.running = true → t₀.running = true ∧ handle ≠ some j) := by
  cases handle with
  | none => exact ⟨t, h, rfl, rfl, fun hr => ⟨hr, nofun⟩⟩
  | some i =>
      obtain ⟨t₀, ht₀, hrole, hdetached, hrunning⟩ := mem_finish h
      refine ⟨t₀, ht₀, hrole, hdetached, fun hr => ⟨(hrunning hr).1, fun heq => ?_⟩⟩
      exact (hrunning hr).2 (Option.some.inj heq).symm

theorem getElem?_joined_of_ne {ts : List (Thread ρ)} {handle : Handle} {j : Nat}
    (h : handle ≠ some j) : (joined ts handle)[j]? = ts[j]? := by
  cases handle with
  | none => rfl
  | some i => exact getElem?_finish_of_ne fun heq => h (congrArg some heq.symm)

/-- No thread has been detached. -/
def Attached (ts : List (Thread ρ)) : Prop := ∀ t ∈ ts, t.detached = false

theorem Attached.spawn {ts : List (Thread ρ)} (h : Attached ts) (role : ρ) :
    Attached (spawn ts role).2 := by
  intro t ht
  rcases List.mem_append.mp ht with ht | ht
  · exact h t ht
  · rw [List.mem_singleton.mp ht]

theorem Attached.finish {ts : List (Thread ρ)} (h : Attached ts) (i : Nat) :
    Attached (finish ts i) := by
  intro t ht
  obtain ⟨j, hj⟩ := List.getElem?_of_mem ht
  obtain ⟨t₀, ht₀, -, hdetached, -⟩ := mem_finish hj
  rw [hdetached]
  exact h t₀ (List.mem_of_getElem? ht₀)

theorem Attached.joined {ts : List (Thread ρ)} (h : Attached ts) (handle : Handle) :
    Attached (joined ts handle) := by
  cases handle with
  | none => exact h
  | some i => exact h.finish i

/-- Each role has at most one handle, which owns a thread of that role; every
running thread is owned or has been detached. -/
structure Accounted (ts : List (Thread ρ)) (own : ρ → Handle) : Prop where
  owned : ∀ r i, own r = some i → ∃ t, ts[i]? = some t ∧ t.role = r ∧ t.detached = false
  running : ∀ i t, ts[i]? = some t → t.running = true → own t.role = some i ∨ t.detached = true

namespace Accounted

theorem nil (own : ρ → Handle) (h : ∀ r, own r = none) :
    Accounted ([] : List (Thread ρ)) own where
  owned r i hi := absurd ((h r).symm.trans hi) nofun
  running i t ht := by simp at ht

variable {ts : List (Thread ρ)} {own : ρ → Handle}

/-- A thread has one owner. -/
theorem role_unique (h : Accounted ts own) {r r' : ρ} {i : Nat} (hr : own r = some i)
    (hr' : own r' = some i) : r = r' := by
  obtain ⟨t, ht, hrole, -⟩ := h.owned r i hr
  obtain ⟨t', ht', hrole', -⟩ := h.owned r' i hr'
  obtain rfl : t = t' := Option.some.inj (ht.symm.trans ht')
  exact hrole.symm.trans hrole'

/-- Where nothing was detached, whatever runs is owned. -/
theorem owns_running (h : Accounted ts own) (hattached : Attached ts) {i : Nat} {t : Thread ρ}
    (ht : ts[i]? = some t) (hr : t.running = true) : own t.role = some i := by
  rcases h.running i t ht hr with howned | hdetached
  · exact howned
  · rw [hattached t (List.mem_of_getElem? ht)] at hdetached
    exact absurd hdetached Bool.false_ne_true

/-- A thread ends. -/
theorem finish (h : Accounted ts own) (i : Nat) : Accounted (finish ts i) own where
  owned r j hj := by
    obtain ⟨t, ht, hrole, hdetached⟩ := h.owned r j hj
    by_cases hij : j = i
    · subst hij
      refine ⟨{ t with running := false }, ?_, hrole, hdetached⟩
      rw [Threads.finish, List.getElem?_modify_eq, ht]
      rfl
    · exact ⟨t, by rw [getElem?_finish_of_ne hij, ht], hrole, hdetached⟩
  running j t ht hr := by
    obtain ⟨t₀, ht₀, hrole, hdetached, hrunning⟩ := mem_finish ht
    rw [hrole, hdetached]
    exact h.running j t₀ ht₀ (hrunning hr).1

variable [DecidableEq ρ]

/-- A handle without a thread gets a new one. -/
theorem spawn (h : Accounted ts own) (r : ρ) (hr : own r = none) :
    Accounted (spawn ts r).2 (Function.update own r (some ts.length)) where
  owned r' i hi := by
    rw [Threads.spawn]
    by_cases hrole : r' = r
    · subst hrole
      rw [Function.update_self, Option.some.injEq] at hi
      exact ⟨⟨r', true, false⟩, by simp [← hi], rfl, rfl⟩
    · rw [Function.update_of_ne hrole] at hi
      obtain ⟨t, ht, hrest⟩ := h.owned r' i hi
      exact ⟨t, by rw [List.getElem?_append_left (List.getElem?_eq_some_iff.mp ht).1, ht], hrest⟩
  running i t ht hrun := by
    rw [Threads.spawn, List.getElem?_append] at ht
    by_cases hi : i < ts.length
    · rw [if_pos hi] at ht
      rcases h.running i t ht hrun with howned | hdetached
      · have hrole : t.role ≠ r := by
          intro hrole
          rw [hrole, hr] at howned
          exact absurd howned nofun
        exact .inl (by rw [Function.update_of_ne hrole, howned])
      · exact .inr hdetached
    · rw [if_neg hi, List.getElem?_singleton] at ht
      by_cases hlast : i - ts.length = 0
      · rw [if_pos hlast, Option.some.injEq] at ht
        subst ht
        have hlength : i = ts.length := by omega
        exact .inl (by rw [Function.update_self, hlength])
      · rw [if_neg hlast] at ht
        exact absurd ht nofun

/-- A thread is joined, and its handle given up. -/
theorem joined (h : Accounted ts own) {r : ρ} {i : Nat} (hr : own r = some i) :
    Accounted (Threads.finish ts i) (Function.update own r none) where
  owned r' j hj := by
    by_cases hrole : r' = r
    · rw [hrole, Function.update_self] at hj
      exact absurd hj nofun
    · rw [Function.update_of_ne hrole] at hj
      exact (h.finish i).owned r' j hj
  running j t ht hrun := by
    obtain ⟨t₀, ht₀, hrole, hdetached, hrunning⟩ := mem_finish ht
    obtain ⟨hrun₀, hji⟩ := hrunning hrun
    rw [hrole, hdetached]
    rcases h.running j t₀ ht₀ hrun₀ with howned | hdetached₀
    · have hother : t₀.role ≠ r := by
        intro heq
        rw [heq, hr, Option.some.injEq] at howned
        exact hji howned.symm
      exact .inl (by rw [Function.update_of_ne hother, howned])
    · exact .inr hdetached₀

/-- What the handle of a role owns, if anything, is joined. -/
theorem joined_handle (h : Accounted ts own) (r : ρ) :
    Accounted (Threads.joined ts (own r)) (Function.update own r none) := by
  cases hr : own r with
  | none =>
      rw [Threads.joined, ← hr, Function.update_eq_self]
      exact h
  | some i => exact h.joined hr

/-- A thread is detached. -/
theorem detached (h : Accounted ts own) {r : ρ} {i : Nat} (hr : own r = some i) :
    Accounted (detach ts i) (Function.update own r none) where
  owned r' j hj := by
    by_cases hrole : r' = r
    · rw [hrole, Function.update_self] at hj
      exact absurd hj nofun
    · rw [Function.update_of_ne hrole] at hj
      have hji : j ≠ i := by
        rintro rfl
        exact hrole (h.role_unique hj hr)
      rw [getElem?_detach_of_ne hji]
      exact h.owned r' j hj
  running j t ht hrun := by
    by_cases hji : j = i
    · subst hji
      rw [detach, List.getElem?_modify_eq] at ht
      obtain ⟨t₀, -, rfl⟩ := Option.map_eq_some_iff.mp ht
      exact .inr rfl
    · rw [getElem?_detach_of_ne hji] at ht
      rcases h.running j t ht hrun with howned | hdetached
      · have hother : t.role ≠ r := by
          intro heq
          rw [heq, hr, Option.some.injEq] at howned
          exact hji howned.symm
        exact .inl (by rw [Function.update_of_ne hother, howned])
      · exact .inr hdetached

end Accounted

end Threads
