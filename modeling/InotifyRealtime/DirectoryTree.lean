import InotifyRealtime.Inotify
import InotifyRealtime.InotifyWatchMgr
/-!
# InotifyRealtime.DirectoryTree

The **directory walk**: `InotifyEventHandler::DirectoryTree` and the
`FtwCallback` it hands to `nftw`.

The walk asks the operating system three things: which entries `nftw` reports
under a root, what `realpath` makes of one of them, and which directory a path
names when `inotify_add_watch` looks it up. `Os` answers them; the state the walk
changes, the watch manager's map and the inotify instance, is `Watches`.

`FtwCallback` hands `realpath` an array of 1024 bytes, and `realpath` does not
know that. It writes there when it resolves a path, and also when it fails with
ENOENT or EACCES: then the prefix of the path that it could not resolve. What is
longer is written past the end; the walk has no defined outcome then (`none`).
-/

namespace InotifyRealtime

open Bytes

/-- How `nftw` classifies an entry. Under `FTW_PHYS` a symbolic link is reported
as one, never followed. -/
inductive Typeflag
  | ftwD
  | ftwF
  | ftwSL
  | ftwDNR
  | ftwNS
  deriving DecidableEq

/-- The size of `real_path`. -/
def realPathSize : Nat := 1024

/-- The operating system during a walk. -/
structure Os (Obj : Type) where
  /-- What `nftw` reports under a root, in order; `none` when it fails on the
  root itself. -/
  entries : Path → Option (List (Path × Typeflag))
  /-- `.ok p` when it resolves the path to `p`, and `.error p` when it fails and has
  written `p`; `.error []` also when it has written nothing. -/
  realpath : Path → Except Path Path
  /-- The directory a path names to `inotify_add_watch`. -/
  lookup : Path → Option Obj

/-- What `realpath` has written into `real_path`, whatever it returns. -/
def written : Except Path Path → Path
  | .ok realPath => realPath
  | .error left => left

/-- The state a walk changes. -/
structure Watches (Obj : Type) where
  mgr : InotifyWatchMgr
  inst : Inotify Obj

variable {Obj : Type} [DecidableEq Obj]

/-- `inotify_add_watch` on a path: -1 when there is no such directory. -/
def inotifyAddWatch (os : Os Obj) (inst : Inotify Obj) (path : Path) : Int × Inotify Obj :=
  match os.lookup path with
  | none => (-1, inst)
  | some o => inst.add o

/-- `InotifyWatchMgr::AddWatch`. -/
def addWatch (os : Os Obj) (st : Watches Obj) (targetPath : Path) : Bool × Watches Obj :=
  let (watchFd, inst) := inotifyAddWatch os st.inst targetPath
  let (result, mgr) := st.mgr.addWatch watchFd targetPath
  (result, ⟨mgr, inst⟩)

/-- The map sends exactly the watches of the objects in `D` to their paths, and each
of these objects has a watch. -/
structure Records (D : Obj → Path → Prop) (st : Watches Obj) : Prop where
  map_iff : ∀ w p, st.mgr.fdPathMappingList w = some p ↔ ∃ o, D o p ∧ st.inst.wdOf o = some w
  watched : ∀ o p, D o p → ∃ w, st.inst.wdOf o = some w

omit [DecidableEq Obj] in
theorem Records.congr {D D' : Obj → Path → Prop} {st : Watches Obj} (h : Records D st)
    (heq : ∀ o p, D o p ↔ D' o p) : Records D' st := by
  obtain rfl : D = D' := by
    funext o p
    exact propext (heq o p)
  exact h

theorem addWatch_of_lookup {os : Os Obj} {st : Watches Obj} {o : Obj} {path : Path}
    (ho : os.lookup path = some o) :
    addWatch os st path =
      (true, ⟨st.mgr.addList (st.inst.add o).1 path, (st.inst.add o).2⟩) := by
  have hpos : ¬ (st.inst.add o).1 < 0 := by
    have := st.inst.add_pos o
    omega
  simp only [addWatch, inotifyAddWatch, ho, InotifyWatchMgr.addWatch, if_neg hpos]

/-- One `AddWatch` that finds an object gives it the path it was found under, and
nothing else changes. -/
theorem addWatch_records {os : Os Obj} {D : Obj → Path → Prop} {st : Watches Obj}
    (h : Records D st) {o : Obj} {path : Path} (ho : os.lookup path = some o) :
    (addWatch os st path).1 = true ∧ (addWatch os st path).2.inst = (st.inst.add o).2 ∧
      Records (fun o' p => if o' = o then p = path else D o' p) (addWatch os st path).2 := by
  rw [addWatch_of_lookup ho]
  refine ⟨rfl, rfl, fun w p => ?_, fun o' p hp => ?_⟩
  · rw [InotifyWatchMgr.addList_apply]
    constructor
    · intro hw
      by_cases hself : w = (st.inst.add o).1
      · rw [if_pos hself, Option.some.injEq] at hw
        refine ⟨o, ?_, by rw [hself]; exact st.inst.add_wdOf_self o⟩
        rw [if_pos rfl]
        exact hw.symm
      · rw [if_neg hself] at hw
        obtain ⟨o', hD, ho'⟩ := (h.map_iff w p).mp hw
        have hoo : o' ≠ o := by
          intro hoo
          subst hoo
          have hsame := st.inst.add_wdOf_of_watched o' ho'
          rw [st.inst.add_wdOf_self, Option.some.injEq] at hsame
          exact hself hsame.symm
        refine ⟨o', ?_, st.inst.add_wdOf_of_watched o ho'⟩
        rw [if_neg hoo]
        exact hD
    · intro ⟨o', hD, hw⟩
      by_cases hoo : o' = o
      · subst hoo
        rw [if_pos rfl] at hD
        rw [st.inst.add_wdOf_self, Option.some.injEq] at hw
        rw [if_pos hw.symm, hD]
      · rw [if_neg hoo] at hD
        have hother : w ≠ (st.inst.add o).1 := by
          intro hself
          subst hself
          exact hoo ((st.inst.add o).2.wdOf_injective _ _ _ hw (st.inst.add_wdOf_self o))
        rw [st.inst.add_wdOf, if_neg hoo] at hw
        rw [if_neg hother]
        exact (h.map_iff w p).mpr ⟨o', hD, hw⟩
  · by_cases hoo : o' = o
    · subst hoo
      exact ⟨_, st.inst.add_wdOf_self o'⟩
    · rw [if_neg hoo] at hp
      obtain ⟨w, hw⟩ := h.watched o' p hp
      exact ⟨w, st.inst.add_wdOf_of_watched o hw⟩

/-- `FtwCallback`: the value it returns and what it did to the watches; `none`
when `realpath` wrote past `real_path`. -/
def ftwCallback (os : Os Obj) (stopped : Bool) (st : Watches Obj) (fpath : Path)
    (typeflag : Typeflag) : Option (Int × Watches Obj) :=
  if stopped then some (-1, st)
  else if typeflag ≠ .ftwD then some (0, st)
  else
    match os.realpath fpath with
    | .error left => if realPathSize < left.length + 1 then none else some (0, st)
    | .ok realPath =>
        if realPathSize < realPath.length + 1 then none
        else
          let (result, st) := addWatch os st realPath
          some (if result then 0 else -1, st)

/-- `nftw` over the entries it reports: it calls back for each until a call
returns non-zero, and returns that value. -/
def nftw (callback : Watches Obj → Path → Typeflag → Option (Int × Watches Obj)) :
    List (Path × Typeflag) → Watches Obj → Option (Int × Watches Obj)
  | [], st => some (0, st)
  | (fpath, typeflag) :: rest, st =>
      match callback st fpath typeflag with
      | none => none
      | some (rc, st) => if rc ≠ 0 then some (rc, st) else nftw callback rest st

/-- `DirectoryTree` over the detect list: one `nftw` a root, whatever it returns. -/
def directoryTree (os : Os Obj) (stopped : Bool) : List Path → Watches Obj → Option (Watches Obj)
  | [], st => some st
  | root :: roots, st =>
      match os.entries root with
      | none => directoryTree os stopped roots st
      | some entries =>
          match nftw (ftwCallback os stopped) entries st with
          | none => none
          | some (_, st) => directoryTree os stopped roots st

end InotifyRealtime
