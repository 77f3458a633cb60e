import Mathlib.Logic.Relation
import InotifyRealtime.DirectoryThread
/-!
# InotifyRealtime.DirectoryThreadSound

The walk in one piece and the walk step by step are one walk.

`Alone` is the directory thread with an operating system that answers as `Os`
says, and with nobody else around: the flag keeps its value, and nothing but the
thread touches the watches. From the head of the loop over the roots it runs to
where `directoryTree` ends, with the watches `directoryTree` leaves; where that
has no outcome, the thread comes to an overflowing `realpath`
(`directoryTree_run`).
-/

namespace InotifyRealtime.DirectoryThread

open Relation

variable {Obj : Type} [DecidableEq Obj]

/-- The thread, what `nftw` has still to report of the current root, and the watches. -/
structure Alone (Obj : Type) where
  thread : Thread
  entries : List (Path × Typeflag)
  watches : Watches Obj

/-- The thread with the current root's `nftw` before its first callback. A root on
which `nftw` fails has nothing to report. -/
def Alone.enter (os : Os Obj) (st : Watches Obj) (thread : Thread) : Alone Obj :=
  ⟨thread, (thread.roots.head?.bind os.entries).getD [], st⟩

/-- The next step, with the answer the operating system gives. -/
def Alone.next (os : Os Obj) (stopped : Bool) (s : Alone Obj) : Option (Alone Obj) :=
  match s.thread.pc with
  | .nftw =>
      match s.entries with
      | [] => (step s.thread .ends).map (enter os s.watches)
      | (fpath, typeflag) :: entries =>
          (step s.thread (.reports fpath typeflag)).map fun t => ⟨t, entries, s.watches⟩
  | .ftwCallback _ _ =>
      (step s.thread (.stopped stopped)).map fun t =>
        if stopped then enter os s.watches t else ⟨t, s.entries, s.watches⟩
  | .realpath fpath =>
      (step s.thread (.realpath (os.realpath fpath))).map fun t => ⟨t, s.entries, s.watches⟩
  | .addWatch targetPath =>
      let (watchFd, inst) := inotifyAddWatch os s.watches.inst targetPath
      (step s.thread (.addWatch watchFd)).map fun t =>
        if watchFd < 0 then enter os ⟨s.watches.mgr, inst⟩ t
        else ⟨t, s.entries, ⟨s.watches.mgr, inst⟩⟩
  | .addList watchFd targetPath =>
      (step s.thread .addList).map fun t =>
        ⟨t, s.entries, ⟨s.watches.mgr.addList watchFd targetPath, s.watches.inst⟩⟩
  | .returned => none
  | .undefined => none

/-- Some number of steps on its own. -/
def Alone.Runs (os : Os Obj) (stopped : Bool) : Alone Obj → Alone Obj → Prop :=
  ReflTransGen fun s t => s.next os stopped = some t

/-- The thread between two callbacks of the current `nftw`. -/
def Alone.between (roots : List Path) (entries : List (Path × Typeflag)) (st : Watches Obj) :
    Alone Obj :=
  ⟨⟨.nftw, roots⟩, entries, st⟩

/-- The thread comes to `r`; to an overflowing `realpath` where there is none. -/
def Alone.Leads (os : Os Obj) (stopped : Bool) (s : Alone Obj) : Option (Alone Obj) → Prop
  | none => ∃ t, s.Runs os stopped t ∧ t.thread.pc = .undefined
  | some t => s.Runs os stopped t

theorem Alone.Runs.leads {os : Os Obj} {stopped : Bool} {s t : Alone Obj}
    {r : Option (Alone Obj)} (h : s.Runs os stopped t) (ht : t.Leads os stopped r) :
    s.Leads os stopped r := by
  cases r with
  | none =>
      obtain ⟨u, hruns, hpc⟩ := ht
      exact ⟨u, h.trans hruns, hpc⟩
  | some u => exact h.trans ht

/-- The two steps of an `AddWatch` are the call in one piece, unless it fails and
there is nothing to store. -/
theorem Alone.addWatch_run (os : Os Obj) (stopped : Bool) (roots : List Path) (targetPath : Path)
    (entries : List (Path × Typeflag)) (st : Watches Obj) :
    Runs os stopped ⟨⟨.addWatch targetPath, roots⟩, entries, st⟩
      (if (InotifyRealtime.addWatch os st targetPath).1 then
        between roots entries (InotifyRealtime.addWatch os st targetPath).2
      else enter os (InotifyRealtime.addWatch os st targetPath).2 (.atRoots roots.tail)) := by
  by_cases hneg : (inotifyAddWatch os st.inst targetPath).1 < 0
  · have hcall : InotifyRealtime.addWatch os st targetPath =
        (false, ⟨st.mgr, (inotifyAddWatch os st.inst targetPath).2⟩) := by
      simp only [InotifyRealtime.addWatch, InotifyWatchMgr.addWatch, if_pos hneg]
    rw [hcall, if_neg Bool.false_ne_true]
    refine .head ?_ .refl
    simp only [next, step, Option.map_some, if_pos hneg]
    rfl
  · have hcall : InotifyRealtime.addWatch os st targetPath =
        (true, ⟨st.mgr.addList (inotifyAddWatch os st.inst targetPath).1 targetPath,
          (inotifyAddWatch os st.inst targetPath).2⟩) := by
      simp only [InotifyRealtime.addWatch, InotifyWatchMgr.addWatch, if_neg hneg]
    rw [hcall, if_pos rfl]
    refine .head (b := ⟨⟨.addList (inotifyAddWatch os st.inst targetPath).1 targetPath, roots⟩,
      entries, ⟨st.mgr, (inotifyAddWatch os st.inst targetPath).2⟩⟩) ?_ (.head rfl .refl)
    simp only [next, step, Option.map_some, if_neg hneg]

/-- One callback, by the ways through `FtwCallback`: on to the next entry, out of
this `nftw`, or nowhere. -/
theorem Alone.callback_run (os : Os Obj) (stopped : Bool) (roots : List Path) (fpath : Path)
    (typeflag : Typeflag) (entries : List (Path × Typeflag)) (st : Watches Obj) :
    (between roots ((fpath, typeflag) :: entries) st).Leads os stopped
      ((ftwCallback os stopped st fpath typeflag).map fun (rc, st') =>
        if rc ≠ 0 then enter os st' (.atRoots roots.tail) else between roots entries st') := by
  unfold ftwCallback
  cases stopped with
  | true => exact .head rfl (.head rfl .refl)
  | false =>
      by_cases hdir : typeflag = .ftwD
      · subst hdir
        have htested : (between roots ((fpath, .ftwD) :: entries) st).Runs os false
            ⟨⟨.realpath fpath, roots⟩, entries, st⟩ := .head rfl (.head rfl .refl)
        simp only [Bool.false_eq_true, if_false, ne_eq, not_true_eq_false]
        have hreturned : (Alone.mk ⟨.realpath fpath, roots⟩ entries st).next os false =
            some ⟨afterRealpath ⟨.realpath fpath, roots⟩ (os.realpath fpath), entries, st⟩ := rfl
        unfold afterRealpath at hreturned
        cases hreal : os.realpath fpath with
        | error left =>
            rw [hreal, written] at hreturned
            by_cases hbig : realPathSize < left.length + 1
            · simp only [if_pos hbig] at hreturned ⊢
              exact ⟨_, htested.trans (.head hreturned .refl), rfl⟩
            · simp only [if_neg hbig] at hreturned ⊢
              exact htested.trans (.head hreturned .refl)
        | ok realPath =>
            rw [hreal, written] at hreturned
            by_cases hbig : realPathSize < realPath.length + 1
            · simp only [if_pos hbig] at hreturned ⊢
              exact ⟨_, htested.trans (.head hreturned .refl), rfl⟩
            · simp only [if_neg hbig] at hreturned ⊢
              have hadded := (htested.trans (.head hreturned .refl)).trans
                (addWatch_run os false roots realPath entries st)
              cases hresult : (InotifyRealtime.addWatch os st realPath).1 with
              | true =>
                  rw [hresult, if_pos rfl] at hadded
                  exact hadded
              | false =>
                  rw [hresult, if_neg Bool.false_ne_true] at hadded
                  exact hadded
      · simp only [Bool.false_eq_true, if_false, ne_eq, hdir, not_false_eq_true, if_true]
        refine .head rfl (.head ?_ .refl)
        simp only [next, step, if_neg hdir]
        rfl

/-- One `nftw`, by induction on the entries it reports. -/
theorem Alone.nftw_run (os : Os Obj) (stopped : Bool) (roots : List Path) :
    ∀ (entries : List (Path × Typeflag)) (st : Watches Obj),
      (between roots entries st).Leads os stopped
        ((nftw (ftwCallback os stopped) entries st).map fun (_, st') =>
          enter os st' (.atRoots roots.tail))
  | [], st => .head rfl .refl
  | (fpath, typeflag) :: entries, st => by
      have hcall := callback_run os stopped roots fpath typeflag entries st
      rw [nftw]
      cases hresult : ftwCallback os stopped st fpath typeflag with
      | none =>
          rw [hresult] at hcall
          exact hcall
      | some x =>
          obtain ⟨rc, st₁⟩ := x
          rw [hresult] at hcall
          by_cases hrc : rc ≠ 0
          · simp only [Option.map_some, if_pos hrc] at hcall ⊢
            exact hcall
          · simp only [Option.map_some, if_neg hrc] at hcall ⊢
            exact Runs.leads hcall (nftw_run os stopped roots entries st₁)

/-- **One walk.** On its own, the thread runs from the head of the loop over the
roots to where `directoryTree` ends, by induction on the roots. -/
theorem directoryTree_run (os : Os Obj) (stopped : Bool) :
    ∀ (roots : List Path) (st : Watches Obj),
      (Alone.enter os st (.start roots)).Leads os stopped
        ((directoryTree os stopped roots st).map fun st' => ⟨⟨.returned, []⟩, [], st'⟩)
  | [], st => .refl
  | root :: roots, st => by
      have hnftw := Alone.nftw_run os stopped (root :: roots) ((os.entries root).getD []) st
      rw [directoryTree]
      show (Alone.between (root :: roots) ((os.entries root).getD []) st).Leads os stopped _
      cases hentries : os.entries root with
      | none =>
          -- an `nftw` that fails reports nothing, and the next root is walked
          rw [hentries] at hnftw
          exact Alone.Runs.leads hnftw (directoryTree_run os stopped roots st)
      | some entries =>
          rw [hentries] at hnftw
          dsimp only [Option.getD_some] at hnftw ⊢
          cases hresult : nftw (ftwCallback os stopped) entries st with
          | none =>
              rw [hresult] at hnftw
              exact hnftw
          | some x =>
              rw [hresult] at hnftw
              exact Alone.Runs.leads hnftw (directoryTree_run os stopped roots x.2)

end InotifyRealtime.DirectoryThread
