import InotifyRealtime.DirectoryTree
/-!
# InotifyRealtime.DirectoryThread

The **directory thread** step by step.

`directoryTree` runs the walk in one piece. Here the same code is a machine, in
the manner of `EpollHandler`: it stops wherever another thread can get in between,
at the test of `stopped_`, before `realpath`, before `inotify_add_watch`, and
before `AddList` stores what `inotify_add_watch` answered.

`nftw` belongs to the world. It reports an entry, which calls `FtwCallback`, or it
ends; when the callback returns non-zero it ends at once.
-/

namespace InotifyRealtime

namespace DirectoryThread

/-- What the thread is about to do. -/
inductive Pc
  /-- `nftw` on the first of the remaining roots, up to its next callback. -/
  | nftw
  /-- The test of `stopped_` in `FtwCallback`. -/
  | ftwCallback (fpath : Path) (typeflag : Typeflag)
  /-- `realpath(fpath, real_path)`. -/
  | realpath (fpath : Path)
  /-- `inotify_add_watch(inotify_fd_, target_path, ..)`. -/
  | addWatch (targetPath : Path)
  /-- `AddList(watch_fd, target_path)`. -/
  | addList (watchFd : Int) (targetPath : Path)
  | returned
  /-- `realpath` wrote past `real_path`. -/
  | undefined
  deriving DecidableEq

/-- The local state of the thread: the roots not yet walked, the current one first. -/
structure Thread where
  pc : Pc
  roots : List Path
  deriving DecidableEq

/-- The head of the loop over the detect list. -/
def Thread.atRoots (roots : List Path) : Thread := ⟨if roots = [] then .returned else .nftw, roots⟩

/-- A thread that enters `DirectoryTree`. -/
def Thread.start (detectList : List Path) : Thread := .atRoots detectList

/-- The current `nftw` is over, in whatever way. -/
def Thread.nextRoot (t : Thread) : Thread := .atRoots t.roots.tail

/-- The watch the thread has been answered and has not stored yet. -/
def Pc.pending : Pc → List (Int × Path)
  | .addList watchFd targetPath => [(watchFd, targetPath)]
  | _ => []

theorem atRoots_pc (roots : List Path) :
    (Thread.atRoots roots).pc = .returned ∨ (Thread.atRoots roots).pc = .nftw := by
  unfold Thread.atRoots
  by_cases hroots : roots = []
  · rw [if_pos hroots]
    exact .inl rfl
  · rw [if_neg hroots]
    exact .inr rfl

@[simp] theorem pending_atRoots (roots : List Path) : (Thread.atRoots roots).pc.pending = [] := by
  rcases atRoots_pc roots with hpc | hpc
  · rw [hpc]
    rfl
  · rw [hpc]
    rfl

@[simp] theorem pending_nextRoot (t : Thread) : t.nextRoot.pc.pending = [] :=
  pending_atRoots t.roots.tail

/-- What the world answers at the thread's next place. -/
inductive Answer
  | reports (fpath : Path) (typeflag : Typeflag)
  | ends
  | stopped (value : Bool)
  | realpath (result : Except Path Path)
  | addWatch (watchFd : Int)
  | addList
  deriving DecidableEq

/-- The callback once `realpath` has returned. -/
def afterRealpath (t : Thread) (result : Except Path Path) : Thread :=
  if realPathSize < (written result).length + 1 then { t with pc := .undefined }
  else
    match result with
    | .error _ => { t with pc := .nftw }
    | .ok realPath => { t with pc := .addWatch realPath }

/-- One step of the thread; `none` when the answer is to another question. -/
def step (t : Thread) (a : Answer) : Option Thread :=
  match t.pc, a with
  | .nftw, .reports fpath typeflag => some { t with pc := .ftwCallback fpath typeflag }
  | .nftw, .ends => some t.nextRoot
  -- the callback returns -1, and that ends this `nftw` but not the loop over the roots
  | .ftwCallback _ _, .stopped true => some t.nextRoot
  | .ftwCallback fpath typeflag, .stopped false =>
      some { t with pc := if typeflag = .ftwD then .realpath fpath else .nftw }
  | .realpath _, .realpath result => some (afterRealpath t result)
  | .addWatch targetPath, .addWatch watchFd =>
      some (if watchFd < 0 then t.nextRoot else { t with pc := .addList watchFd targetPath })
  | .addList _ _, .addList => some { t with pc := .nftw }
  | _, _ => none

/-! ### What a step can do -/

/-- The branches of the source, one constructor each. -/
inductive Step : Thread → Answer → Thread → Prop
  | reported {t : Thread} {fpath : Path} {typeflag : Typeflag} :
      t.pc = .nftw → Step t (.reports fpath typeflag) { t with pc := .ftwCallback fpath typeflag }
  | ended {t : Thread} : t.pc = .nftw → Step t .ends t.nextRoot
  | stopped {t : Thread} {fpath : Path} {typeflag : Typeflag} :
      t.pc = .ftwCallback fpath typeflag → Step t (.stopped true) t.nextRoot
  | skipped {t : Thread} {fpath : Path} {typeflag : Typeflag} :
      t.pc = .ftwCallback fpath typeflag → typeflag ≠ .ftwD →
      Step t (.stopped false) { t with pc := .nftw }
  | directory {t : Thread} {fpath : Path} :
      t.pc = .ftwCallback fpath .ftwD →
      Step t (.stopped false) { t with pc := .realpath fpath }
  | overflows {t : Thread} {fpath : Path} {result : Except Path Path} :
      t.pc = .realpath fpath → realPathSize < (written result).length + 1 →
      Step t (.realpath result) { t with pc := .undefined }
  | unresolved {t : Thread} {fpath left : Path} :
      t.pc = .realpath fpath → left.length + 1 ≤ realPathSize →
      Step t (.realpath (.error left)) { t with pc := .nftw }
  | resolved {t : Thread} {fpath realPath : Path} :
      t.pc = .realpath fpath → realPath.length + 1 ≤ realPathSize →
      Step t (.realpath (.ok realPath)) { t with pc := .addWatch realPath }
  | addFailed {t : Thread} {targetPath : Path} {watchFd : Int} :
      t.pc = .addWatch targetPath → watchFd < 0 → Step t (.addWatch watchFd) t.nextRoot
  | added {t : Thread} {targetPath : Path} {watchFd : Int} :
      t.pc = .addWatch targetPath → 0 ≤ watchFd →
      Step t (.addWatch watchFd) { t with pc := .addList watchFd targetPath }
  | stored {t : Thread} {watchFd : Int} {targetPath : Path} :
      t.pc = .addList watchFd targetPath → Step t .addList { t with pc := .nftw }

/-- Every step the machine takes is one of the source's branches. -/
theorem step_cases {t t' : Thread} {a : Answer} (h : step t a = some t') : Step t a t' := by
  unfold step at h
  split at h <;> simp only [Option.some.injEq, reduceCtorEq] at h <;> subst h
  case h_1 hpc => exact .reported hpc
  case h_2 hpc => exact .ended hpc
  case h_3 hpc => exact .stopped hpc
  case h_4 fpath typeflag hpc =>
    by_cases hdir : typeflag = .ftwD
    · rw [if_pos hdir]
      subst hdir
      exact .directory hpc
    · rw [if_neg hdir]
      exact .skipped hpc hdir
  case h_5 result hpc =>
    unfold afterRealpath
    by_cases hbig : realPathSize < (written result).length + 1
    · rw [if_pos hbig]
      exact .overflows hpc hbig
    · rw [if_neg hbig]
      cases result with
      | error left => exact .unresolved hpc (Nat.le_of_not_lt hbig)
      | ok realPath => exact .resolved hpc (Nat.le_of_not_lt hbig)
  case h_6 watchFd hpc =>
    by_cases hneg : watchFd < 0
    · rw [if_pos hneg]
      exact .addFailed hpc hneg
    · rw [if_neg hneg]
      exact .added hpc (Int.not_lt.mp hneg)
  case h_7 hpc => exact .stored hpc

/-- A thread that has returned takes no step. -/
theorem Step.not_returned {t t' : Thread} {a : Answer} (h : Step t a t') : t.pc ≠ .returned := by
  intro hreturned
  cases h with
  | reported hpc | ended hpc | stopped hpc | skipped hpc | directory hpc | overflows hpc
  | unresolved hpc | resolved hpc | addFailed hpc | added hpc | stored hpc =>
      exact Pc.noConfusion (hpc.symm.trans hreturned)

end DirectoryThread

end InotifyRealtime
