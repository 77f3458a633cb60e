import InotifyRealtime.Foundation.Machine
import InotifyRealtime.Session
/-!
# InotifyRealtime.StoppedWalk

What is left of a walk once `stopped_` is set.

The flag is tested at the head of `FtwCallback` and nowhere else. So a walk that has
passed the test goes on to its `inotify_add_watch`, and that is the last one. Every
callback after that sees the flag, returns -1 and ends its `nftw`; the loop over the
roots goes on, and `nftw` may call back once for each root it has still to walk.

The first part looks at a directory thread that sees the flag set, from wherever it
stands (`Winding`). The second finds this thread in a session, from the step of the
finalizer that sets the flag (`run_walkAfterStop`).
-/

namespace InotifyRealtime

open Machine

namespace DirectoryThread

/-- Tests of the flag find it set. -/
def Answer.SeesStop : Answer → Prop
  | .stopped value => value = true
  | _ => True

/-- A call of `inotify_add_watch`. -/
def Answer.isAddWatch : Answer → Bool
  | .addWatch _ => true
  | _ => false

/-- A callback begins. -/
def Answer.isReport : Answer → Bool
  | .reports _ _ => true
  | _ => false

def addCalls (past : List (Thread × Answer)) : Nat := past.countP fun x => x.2.isAddWatch

/-- The callbacks of the `nftw` on one root, the one with which `left` roots are left. -/
def callbacks (left : Nat) (past : List (Thread × Answer)) : Nat :=
  past.countP fun x => x.2.isReport && x.1.roots.length == left

theorem addCalls_snoc (past : List (Thread × Answer)) (t : Thread) (a : Answer) :
    addCalls (past ++ [(t, a)]) = addCalls past + if a.isAddWatch then 1 else 0 := by
  simp [addCalls, List.countP_append, List.countP_singleton]

theorem callbacks_snoc (left : Nat) (past : List (Thread × Answer)) (t : Thread) (a : Answer) :
    callbacks left (past ++ [(t, a)]) =
      callbacks left past + if a.isReport && t.roots.length == left then 1 else 0 := by
  simp [callbacks, List.countP_append, List.countP_singleton]

/-- Past the test of the flag and not yet past `inotify_add_watch`. -/
def Pc.beforeAdd : Pc → Bool
  | .realpath _ | .addWatch _ => true
  | _ => false

/-- Past the test of the flag. -/
def Pc.inside : Pc → Bool
  | .addList _ _ => true
  | pc => pc.beforeAdd

/-- What has happened since the flag was set. A callback past the test has begun
before that, so nothing has been added and no other callback has begun. -/
structure Winding (past : List (Thread × Answer)) (t : Thread) : Prop where
  adds : addCalls past ≤ 1
  begun : ∀ left, callbacks left past ≤ 1
  ahead : ∀ left < t.roots.length, callbacks left past = 0
  between : t.pc = .nftw → callbacks t.roots.length past = 0
  inside : t.pc.inside → ∀ left, callbacks left past = 0
  beforeAdd : t.pc.beforeAdd → addCalls past = 0

theorem winding_nil (t : Thread) : Winding [] t :=
  ⟨Nat.zero_le 1, fun _ => Nat.zero_le 1, fun _ _ => rfl, fun _ => rfl, fun _ _ => rfl,
    fun _ => rfl⟩

/-- After a root: the thread returns, or there is one root less to walk. -/
theorem nextRoot_cases (t : Thread) :
    t.nextRoot = ⟨.returned, []⟩ ∨
      (t.nextRoot.pc = .nftw ∧ t.nextRoot.roots.length < t.roots.length) := by
  unfold Thread.nextRoot Thread.atRoots
  by_cases hroots : t.roots.tail = []
  · rw [hroots, if_pos rfl]
    exact .inl rfl
  · rw [if_neg hroots]
    refine .inr ⟨rfl, ?_⟩
    have hlength : 0 < t.roots.tail.length := List.length_pos_iff.mpr hroots
    show t.roots.tail.length < t.roots.length
    rw [List.length_tail] at hlength ⊢
    omega

theorem Winding.nextRoot {past : List (Thread × Answer)} {t : Thread} (hadds : addCalls past ≤ 1)
    (hbegun : ∀ left, callbacks left past ≤ 1)
    (hahead : ∀ left < t.roots.length, callbacks left past = 0) : Winding past t.nextRoot := by
  rcases nextRoot_cases t with hreturned | ⟨hpc, hless⟩
  · rw [hreturned]
    exact ⟨hadds, hbegun, fun _ hleft => absurd hleft (Nat.not_lt_zero _), Pc.noConfusion,
      fun h => absurd h Bool.false_ne_true, fun h => absurd h Bool.false_ne_true⟩
  · refine ⟨hadds, hbegun, fun left hleft => hahead left (hleft.trans hless),
      fun _ => hahead _ hless, fun h => ?_, fun h => ?_⟩
    · rw [hpc] at h
      exact absurd h Bool.false_ne_true
    · rw [hpc] at h
      exact absurd h Bool.false_ne_true

/-- A step that is not counted. -/
theorem Winding.other {past : List (Thread × Answer)} {t t' : Thread} {a : Answer}
    (h : Winding past t') (hadd : a.isAddWatch = false) (hreport : a.isReport = false) :
    Winding (past ++ [(t, a)]) t' := by
  have hadds : addCalls (past ++ [(t, a)]) = addCalls past := by
    simp [addCalls_snoc, hadd]
  have hcalls (left : Nat) : callbacks left (past ++ [(t, a)]) = callbacks left past := by
    simp [callbacks_snoc, hreport]
  refine ⟨?_, fun left => ?_, fun left hleft => ?_, fun hpc => ?_, fun hpc left => ?_,
    fun hpc => ?_⟩
  · rw [hadds]
    exact h.adds
  · rw [hcalls]
    exact h.begun left
  · rw [hcalls]
    exact h.ahead left hleft
  · rw [hcalls]
    exact h.between hpc
  · rw [hcalls]
    exact h.inside hpc left
  · rw [hadds]
    exact h.beforeAdd hpc

/-- Back to `nftw` from a callback that has passed the test. -/
theorem Winding.goesOn {past : List (Thread × Answer)} {t : Thread} (h : Winding past t)
    (hinside : t.pc.inside) : Winding past { t with pc := .nftw } :=
  ⟨h.adds, h.begun, h.ahead, fun _ => h.inside hinside _, fun hin => absurd hin Bool.false_ne_true,
    fun hin => absurd hin Bool.false_ne_true⟩

/-- The callback has passed the test, so its call is the first and no other callback
has begun. -/
theorem Winding.adding {past : List (Thread × Answer)} {t : Thread} {targetPath : Path}
    (h : Winding past t) (hpc : t.pc = .addWatch targetPath) (watchFd : Int) :
    addCalls (past ++ [(t, .addWatch watchFd)]) = 1 ∧
      ∀ left, callbacks left (past ++ [(t, .addWatch watchFd)]) = 0 := by
  refine ⟨?_, fun left => ?_⟩
  · have hnone : addCalls past = 0 := h.beforeAdd (by rw [hpc]; rfl)
    simp [addCalls_snoc, hnone, Answer.isAddWatch]
  · have hnone : callbacks left past = 0 := h.inside (by rw [hpc]; rfl) left
    simp [callbacks_snoc, hnone, Answer.isReport]

theorem Winding.step {past : List (Thread × Answer)} {t t' : Thread} {a : Answer}
    (h : Winding past t) (hstop : a.SeesStop) (hstep : Step t a t') :
    Winding (past ++ [(t, a)]) t' := by
  cases hstep with
  | @reported fpath typeflag hpc =>
      have hcalls (left : Nat) : callbacks left (past ++ [(t, .reports fpath typeflag)]) =
          callbacks left past + if t.roots.length = left then 1 else 0 := by
        simp [callbacks_snoc, Answer.isReport]
      have hadds : addCalls (past ++ [(t, .reports fpath typeflag)]) = addCalls past := by
        simp [addCalls_snoc, Answer.isAddWatch]
      refine ⟨hadds ▸ h.adds, fun left => ?_, fun left hleft => ?_, Pc.noConfusion,
        fun hin => absurd hin Bool.false_ne_true, fun hin => absurd hin Bool.false_ne_true⟩
      · rw [hcalls]
        by_cases hhere : t.roots.length = left
        · rw [if_pos hhere, ← hhere, h.between hpc]
        · rw [if_neg hhere]
          exact h.begun left
      · rw [hcalls, if_neg (Nat.ne_of_gt hleft), h.ahead left hleft]
  | ended hpc => exact (Winding.nextRoot h.adds h.begun h.ahead).other rfl rfl
  | stopped hpc => exact (Winding.nextRoot h.adds h.begun h.ahead).other rfl rfl
  | skipped _ _ | directory _ => exact absurd hstop Bool.false_ne_true
  | unresolved hpc _ => exact (h.goesOn (by rw [hpc]; rfl)).other rfl rfl
  | stored hpc => exact (h.goesOn (by rw [hpc]; rfl)).other rfl rfl
  | overflows hpc _ =>
      refine Winding.other ⟨h.adds, h.begun, h.ahead, Pc.noConfusion, fun hin => ?_, fun hin => ?_⟩
        rfl rfl
      · exact absurd hin Bool.false_ne_true
      · exact absurd hin Bool.false_ne_true
  | resolved hpc _ =>
      refine Winding.other ⟨h.adds, h.begun, h.ahead, Pc.noConfusion, fun _ => ?_, fun _ => ?_⟩
        rfl rfl
      · exact h.inside (by rw [hpc]; rfl)
      · exact h.beforeAdd (by rw [hpc]; rfl)
  | @addFailed targetPath watchFd hpc _ =>
      obtain ⟨hadds, hcalls⟩ := h.adding hpc watchFd
      exact .nextRoot hadds.le (fun left => by rw [hcalls]; exact Nat.zero_le 1)
        fun left _ => hcalls left
  | @added targetPath watchFd hpc _ =>
      obtain ⟨hadds, hcalls⟩ := h.adding hpc watchFd
      exact ⟨hadds.le, fun left => by rw [hcalls]; exact Nat.zero_le 1, fun left _ => hcalls left,
        Pc.noConfusion, fun _ => hcalls, fun hin => absurd hin Bool.false_ne_true⟩

/-- A callback that sees the flag set ends its `nftw`. -/
theorem Step.ends_nftw {t t' : Thread} {a : Answer} {fpath : Path} {typeflag : Typeflag}
    (hstep : Step t a t') (hstop : a.SeesStop) (hpc : t.pc = .ftwCallback fpath typeflag) :
    t' = t.nextRoot := by
  cases hstep with
  | stopped _ => rfl
  | skipped _ _ | directory _ => exact absurd hstop Bool.false_ne_true
  | reported hpc' | ended hpc' | unresolved hpc' | overflows hpc' | resolved hpc'
  | addFailed hpc' | added hpc' | stored hpc' => exact Pc.noConfusion (hpc'.symm.trans hpc)

/-- Roots are left behind one by one. -/
theorem Step.roots_le {t t' : Thread} {a : Answer} (hstep : Step t a t') :
    t'.roots.length ≤ t.roots.length := by
  cases hstep with
  | ended _ | stopped _ | addFailed _ _ =>
      show t.roots.tail.length ≤ t.roots.length
      rw [List.length_tail]
      exact Nat.sub_le _ _
  | reported _ | skipped _ _ | directory _ | overflows _ _ | unresolved _ _ | resolved _ _
  | added _ _ | stored _ => exact le_rfl

/-- The steps a thread has still to take at most when it sees the flag set. -/
def Thread.stepsLeft (t : Thread) : Nat :=
  match t.pc with
  | .nftw => 2 * t.roots.length + 2
  | .ftwCallback _ _ => 2 * t.roots.length + 1
  | .realpath _ => 2 * t.roots.length + 5
  | .addWatch _ => 2 * t.roots.length + 4
  | .addList _ _ => 2 * t.roots.length + 3
  | .returned | .undefined => 0

theorem stepsLeft_le (t : Thread) : t.stepsLeft ≤ 2 * t.roots.length + 5 := by
  unfold Thread.stepsLeft
  cases t.pc <;> simp only <;> omega

theorem nextRoot_stepsLeft (t : Thread) : t.nextRoot.stepsLeft ≤ 2 * t.roots.length := by
  rcases nextRoot_cases t with hreturned | ⟨hpc, hless⟩
  · rw [hreturned]
    exact Nat.zero_le _
  · simp only [Thread.stepsLeft, hpc]
    omega

theorem Step.stepsLeft_lt {t t' : Thread} {a : Answer} (hstep : Step t a t')
    (hstop : a.SeesStop) : t'.stepsLeft < t.stepsLeft := by
  have hnext := nextRoot_stepsLeft t
  cases hstep with
  | skipped _ _ | directory _ => exact absurd hstop Bool.false_ne_true
  | ended hpc | stopped hpc | addFailed hpc =>
      have hleft : 2 * t.roots.length < t.stepsLeft := by
        simp only [Thread.stepsLeft, hpc]
        omega
      exact hnext.trans_lt hleft
  | overflows hpc =>
      simp only [Thread.stepsLeft, hpc]
      omega
  | reported hpc | unresolved hpc | resolved hpc | added hpc | stored hpc =>
      simp only [Thread.stepsLeft, hpc]
      omega

/-- **A walk that sees the flag set**, from wherever it stands: it counts as `Winding`
says, and each step brings it closer to its end. -/
theorem winding_of_run {t₀ t : Thread} {past : List (Thread × Answer)}
    (h : Run Step t₀ past t) (hstop : Meets (fun _ a => a.SeesStop) past) :
    Winding past t ∧ past.length + t.stepsLeft ≤ t₀.stepsLeft := by
  refine h.invariant_hist_of_meets
    (I := fun past t => Winding past t ∧ past.length + t.stepsLeft ≤ t₀.stepsLeft)
    (fun past t a t' ht hsees hstep => ?_) hstop ⟨winding_nil t₀, Nat.le_of_eq (Nat.zero_add _)⟩
  have hless := hstep.stepsLeft_lt hsees
  refine ⟨ht.1.step hsees hstep, ?_⟩
  rw [List.length_append, List.length_singleton]
  omega

end DirectoryThread

namespace Session

/-- What the directory thread does in a step, when the flag is set. -/
def stoppedStep (x : Session × Action) : Option (DirectoryThread.Thread × DirectoryThread.Answer) :=
  match x.2 with
  | .directory a => if x.1.stopped then some (x.1.directory, a) else none
  | _ => none

/-- The steps of the directory thread since the flag was set. -/
def walkAfterStop (hist : List (Session × Action)) :
    List (DirectoryThread.Thread × DirectoryThread.Answer) :=
  hist.filterMap stoppedStep

theorem walkAfterStop_snoc (hist : List (Session × Action)) (s : Session) (a : Action) :
    walkAfterStop (hist ++ [(s, a)]) = walkAfterStop hist ++ (stoppedStep (s, a)).toList := by
  cases h : stoppedStep (s, a) <;> simp [walkAfterStop, h]

/-- The directory thread sees the flag as it is. -/
theorem AllowsDirectory.seesStop {s : Session} {a : DirectoryThread.Answer}
    (hallow : s.AllowsDirectory a) (hs : s.stopped = true) : a.SeesStop := by
  cases a with
  | stopped value => exact hallow.trans hs
  | reports _ _ | ends | realpath _ | addWatch _ | addList => trivial

/-- While the flag is clear there are none, and then they are a run of the thread that
sees the flag set. -/
structure Follows (count : Nat) (past : List (Session × Action)) (s : Session) : Prop where
  roots : s.directory.roots.length ≤ count
  walking : s.stopped = false → walkAfterStop past = []
  winding : s.stopped = true → ∃ t : DirectoryThread.Thread, t.roots.length ≤ count ∧
    Run DirectoryThread.Step t (walkAfterStop past) s.directory ∧
    Meets (fun _ a => a.SeesStop) (walkAfterStop past)

/-- A step of another thread that leaves the flag. -/
theorem Follows.other {count : Nat} {past : List (Session × Action)} {s s' : Session} {a : Action}
    (h : Follows count past s) (hnone : stoppedStep (s, a) = none)
    (hstopped : s'.stopped = s.stopped) (hdirectory : s'.directory = s.directory) :
    Follows count (past ++ [(s, a)]) s' := by
  have hsame : walkAfterStop (past ++ [(s, a)]) = walkAfterStop past := by
    rw [walkAfterStop_snoc, hnone, Option.toList_none, List.append_nil]
  refine ⟨?_, fun hs => ?_, fun hs => ?_⟩
  · rw [hdirectory]
    exact h.roots
  · rw [hsame]
    exact h.walking (hstopped ▸ hs)
  · rw [hsame, hdirectory]
    exact h.winding (hstopped ▸ hs)

theorem Follows.step {count : Nat} {past : List (Session × Action)} {s s' : Session} {a : Action}
    (h : Follows count past s) (hstep : s.Step a s') : Follows count (past ++ [(s, a)]) s' := by
  cases hstep.does with
  | finalizer hfinalize =>
      cases hfinalize with
      | setStopped _ =>
          cases hs : s.stopped with
          | true => exact h.other rfl hs.symm rfl
          | false =>
              -- the run begins here, with the thread wherever it stands
              have hnone : walkAfterStop (past ++ [(s, .finalizer)]) = [] := by
                rw [walkAfterStop_snoc, h.walking hs]
                rfl
              refine ⟨h.roots, Bool.noConfusion, fun _ => ⟨s.directory, h.roots, ?_⟩⟩
              rw [hnone]
              exact ⟨.nil _, meets_nil _⟩
      | closeInotify _ | closeEpoll _ | joinDirectory _ _ | joinEpoll _ _ =>
          exact h.other rfl rfl rfl
  | epoll _ _ => exact h.other rfl rfl rfl
  | @directory a t hallow hthread =>
      have hroots : t.roots.length ≤ count := hthread.roots_le.trans h.roots
      cases hs : s.stopped with
      | false =>
          have hnone : walkAfterStop (past ++ [(s, .directory a)]) = [] := by
            rw [walkAfterStop_snoc, h.walking hs]
            simp [stoppedStep, hs]
          exact ⟨hroots, fun _ => hnone, fun hs' => absurd hs' Bool.false_ne_true⟩
      | true =>
          obtain ⟨t₀, hfewer, hrun, hsees⟩ := h.winding hs
          have hone : walkAfterStop (past ++ [(s, .directory a)]) =
              walkAfterStop past ++ [(s.directory, a)] := by
            rw [walkAfterStop_snoc]
            simp [stoppedStep, hs]
          refine ⟨hroots, fun hs' => absurd hs'.symm Bool.false_ne_true, fun _ => ?_⟩
          rw [hone]
          refine ⟨t₀, hfewer, hrun.snoc hthread, meets_append.mpr ⟨hsees, ?_⟩⟩
          exact meets_cons.mpr ⟨hallow.seesStop hs, meets_nil _⟩

/-- The steps of the directory thread since the flag was set, in any run of a session. -/
theorem run_walkAfterStop {mgr : InotifyWatchMgr} {detectList : List Path} {errno : Errno}
    {hist : List (Session × Action)} {s : Session}
    (h : Run Step (start mgr detectList errno) hist s) : Follows detectList.length hist s :=
  h.invariant_hist (fun _ _ _ _ hs hstep => hs.step hstep)
    ⟨le_rfl, fun _ => rfl, fun hs => absurd hs Bool.false_ne_true⟩

/-- What the directory thread can do once the flag is set is bounded by the number of
roots, whatever the trees below them hold. -/
theorem walkAfterStop_length_le {mgr : InotifyWatchMgr} {detectList : List Path} {errno : Errno}
    {hist : List (Session × Action)} {s : Session}
    (h : Run Step (start mgr detectList errno) hist s) :
    (walkAfterStop hist).length ≤ 2 * detectList.length + 5 := by
  have hfollows := run_walkAfterStop h
  cases hs : s.stopped with
  | false =>
      rw [hfollows.walking hs]
      exact Nat.zero_le _
  | true =>
      obtain ⟨t, hroots, hrun, hsees⟩ := hfollows.winding hs
      have hsteps := (DirectoryThread.winding_of_run hrun hsees).2
      have hbound := DirectoryThread.stepsLeft_le t
      omega

/-- **Stopping cuts the walk short**, wherever the flag is set in a run of a session:
from then on the directory thread calls `inotify_add_watch` at most once, each `nftw`,
the one in progress as well as those on later roots, calls back at most once, and
that callback ends it. -/
theorem stop_cuts_walk (mgr : InotifyWatchMgr) (detectList : List Path) (errno : Errno)
    (hist : List (Session × Action)) (s : Session)
    (h : Run Step (start mgr detectList errno) hist s) :
    DirectoryThread.addCalls (walkAfterStop hist) ≤ 1 ∧
      (∀ left, DirectoryThread.callbacks left (walkAfterStop hist) ≤ 1) ∧
      (s.stopped = true → ∀ fpath typeflag, s.directory.pc = .ftwCallback fpath typeflag →
        ∀ a s', s.Step (.directory a) s' → s'.directory = s.directory.nextRoot) := by
  have hfollows := run_walkAfterStop h
  have hwinding : DirectoryThread.addCalls (walkAfterStop hist) ≤ 1 ∧
      ∀ left, DirectoryThread.callbacks left (walkAfterStop hist) ≤ 1 := by
    cases hs : s.stopped with
    | false =>
        rw [hfollows.walking hs]
        exact ⟨Nat.zero_le _, fun _ => Nat.zero_le _⟩
    | true =>
        obtain ⟨t, -, hrun, hsees⟩ := hfollows.winding hs
        have hthread := (DirectoryThread.winding_of_run hrun hsees).1
        exact ⟨hthread.adds, hthread.begun⟩
  refine ⟨hwinding.1, hwinding.2, fun hs fpath typeflag hpc a s' hstep => ?_⟩
  cases hstep.does with
  | directory hallow hthread => exact hthread.ends_nftw (hallow.seesStop hs) hpc

/-- Two roots, `/e` and `/u`. -/
def pathE : Path := [0x2f#8, 0x65#8]
def pathU : Path := [0x2f#8, 0x75#8]

/-- The flag is set between the first callback's test of it and its call of
`inotify_add_watch`. Then both `nftw` call back once more. -/
def stoppedInCallback : List Action :=
  [.directory (.reports pathE .ftwD), .directory (.stopped false), .finalizer,
   .directory (.realpath (.ok pathE)), .directory (.addWatch 1), .directory .addList,
   .directory (.reports pathE .ftwD), .directory (.stopped true),
   .directory (.reports pathU .ftwD)]

theorem stoppedInCallback_last :
    (exec next (start .new [pathE, pathU] .zero) stoppedInCallback).map (fun x =>
      (DirectoryThread.addCalls (walkAfterStop x.1),
        DirectoryThread.callbacks 2 (walkAfterStop x.1),
        DirectoryThread.callbacks 1 (walkAfterStop x.1), x.2.stopped, x.2.directory.pc)) =
      some (1, 1, 1, true, .ftwCallback pathU .ftwD) := by
  decide

theorem stop_cuts_walk_stoppedInCallback :
    ∃ hist s, exec next (start .new [pathE, pathU] .zero) stoppedInCallback = some (hist, s) ∧
      DirectoryThread.addCalls (walkAfterStop hist) ≤ 1 ∧
      (∀ left, DirectoryThread.callbacks left (walkAfterStop hist) ≤ 1) ∧
      ∀ a s', s.Step (.directory a) s' → s'.directory = s.directory.nextRoot := by
  obtain ⟨⟨hist, s⟩, hexec, hlast⟩ := Option.map_eq_some_iff.mp stoppedInCallback_last
  simp only [Prod.mk.injEq] at hlast
  obtain ⟨-, -, -, hs, hpc⟩ := hlast
  have hcut := stop_cuts_walk .new [pathE, pathU] .zero hist s (run_of_exec hexec)
  exact ⟨hist, s, hexec, hcut.1, hcut.2.1, hcut.2.2 hs pathU .ftwD hpc⟩

end Session

end InotifyRealtime
