import InotifyRealtime.Foundation.Hierarchy
import InotifyRealtime.Foundation.Machine
import InotifyRealtime.DirectoryTree
import InotifyRealtime.EpollHandler
/-!
# InotifyRealtime.Moves

Watched directories that move while they are watched.

A `Monitor` is the watch manager over an inotify instance and a hierarchy of
directories. Directories are added under the path they have at that moment, they
are renamed inside the watched trees, and the events of all this are dispatched
in order. A rename queues what the kernel reports for it: a cookie-paired
`IN_MOVED_FROM` and `IN_MOVED_TO` for the two parents, and an `IN_MOVE_SELF`.

`ParseRawEvent` reads the map and never writes it, for these events as for any
others. So a path is as old as the last `AddWatch` of its directory, which
`Monitor.added` remembers (`Monitor.Recorded`).
-/

namespace InotifyRealtime

open Bytes Location Machine

/-- The masks of the three move events, and the mark of a directory. -/
def inMovedFrom : BitVec 32 := 0x40#32

def inMovedTo : BitVec 32 := 0x80#32

def inMoveSelf : BitVec 32 := 0x800#32

def inIsDir : BitVec 32 := 0x40000000#32

/-- The event tells of a move. -/
def CustomizedInotifyEvent.IsMove (e : CustomizedInotifyEvent) : Prop :=
  e.mask &&& (inMovedFrom ||| inMovedTo ||| inMoveSelf) ≠ 0

instance (e : CustomizedInotifyEvent) : Decidable e.IsMove := inferInstanceAs (Decidable (_ ≠ _))

/-- A name with its NUL, in whole multiples of 16 bytes. -/
def nameLen (n : Name) : BitVec 32 := BitVec.ofNat 32 ((n.bytes.length + 16) / 16 * 16)

structure Monitor (Obj : Type) where
  dirs : Hierarchy Obj
  watches : Watches Obj
  /-- The events not yet dispatched, read or not. -/
  queue : List CustomizedInotifyEvent
  /-- Where each directory was when it was last added. -/
  added : Obj → Option (List Name)

namespace Monitor

variable {Obj : Type} [DecidableEq Obj]

/-- A fresh instance and an empty map over some directories. -/
def start (dirs : Hierarchy Obj) : Monitor Obj where
  dirs := dirs
  watches := ⟨.new, .fresh⟩
  queue := []
  added := fun _ => none

/-- The watch of the directory at a location. -/
def watchAt (s : Monitor Obj) (l : List Name) : Option Int :=
  (s.dirs.dirAt l).bind s.watches.inst.wdOf

/-- What the kernel queues when `m` in the directory at `b` becomes the new name of
`n` in the directory at `a`. -/
def moveEvents (s : Monitor Obj) (a : List Name) (n : Name) (b : List Name) (m : Name)
    (cookie : BitVec 32) : List CustomizedInotifyEvent :=
  (s.watchAt a).toList.map (⟨·, inMovedFrom ||| inIsDir, cookie, nameLen n, some n.bytes⟩) ++
  (s.watchAt b).toList.map (⟨·, inMovedTo ||| inIsDir, cookie, nameLen m, some m.bytes⟩) ++
  (s.watchAt (a ++ [n])).toList.map (⟨·, inMoveSelf, 0, 0, some []⟩)

inductive Action
  | addWatch (l : List Name)
  | rename (a : List Name) (n : Name) (b : List Name) (m : Name) (cookie : BitVec 32)
  /-- Any other event of a watched directory. -/
  | activity (event : CustomizedInotifyEvent)
  | dispatch

inductive Step : Monitor Obj → Action → Monitor Obj → Prop
  /-- `AddWatch` on the path of an existing directory. -/
  | addWatch {s : Monitor Obj} {os : Os Obj} {l : List Name} {o : Obj} :
      (∀ l, os.lookup (canonical l) = s.dirs.dirAt l) → s.dirs.dirAt l = some o →
      Step s (.addWatch l)
        { s with
          watches := (InotifyRealtime.addWatch os s.watches (canonical l)).2
          added := Function.update s.added o (some l) }
  /-- A rename of a watched directory inside the watched trees. The program is not
  asked; it sees the events later. -/
  | rename {s : Monitor Obj} {a b : List Name} {n m : Name} {cookie : BitVec 32}
      (possible : s.dirs.Renames (a ++ [n]) (b ++ [m])) :
      s.watchAt a ≠ none → s.watchAt b ≠ none → s.watchAt (a ++ [n]) ≠ none →
      Step s (.rename a n b m cookie)
        { s with
          dirs := s.dirs.rename (a ++ [n]) (b ++ [m]) possible
          queue := s.queue ++ s.moveEvents a n b m cookie }
  | activity {s : Monitor Obj} {event : CustomizedInotifyEvent} :
      s.watches.inst.Live event.wd → ¬ event.IsMove →
      Step s (.activity event) { s with queue := s.queue ++ [event] }
  /-- `ParseRawEvent` on the next event. -/
  | dispatch {s : Monitor Obj} {report : Report} {rest : List CustomizedInotifyEvent} :
      parseRawEvent s.watches.mgr.getPath s.queue = some (report, rest) →
      Step s .dispatch { s with queue := rest }

/-- The directory of this location at its last `AddWatch`, under that path. -/
def AddedUnder (s : Monitor Obj) (o : Obj) (p : Path) : Prop :=
  ∃ l, s.added o = some l ∧ p = canonical l

/-- The map holds the paths directories had when they were last added. -/
structure Recorded (s : Monitor Obj) : Prop where
  records : Records s.AddedUnder s.watches
  added : ∀ o w, s.watches.inst.wdOf o = some w → ∃ l, s.added o = some l
  placed : ∀ o l, s.added o = some l → ∃ l', s.dirs.locationOf o = some l'

omit [DecidableEq Obj] in
theorem recorded_start (dirs : Hierarchy Obj) : (start dirs).Recorded where
  records := ⟨fun w p => by simp [start, InotifyWatchMgr.new], fun o p ⟨l, h, _⟩ => absurd h nofun⟩
  added o w h := absurd h nofun
  placed o l h := absurd h nofun

theorem Recorded.step {s s' : Monitor Obj} {a : Action} (h : s.Recorded) (hstep : Step s a s') :
    s'.Recorded := by
  cases hstep with
  | @addWatch os l o hos ho =>
      obtain ⟨-, hinst, hrecords⟩ := addWatch_records h.records ((hos l).trans ho)
      refine ⟨hrecords.congr fun o' p => ?_, fun o' w hw => ?_, fun o' l' hl' => ?_⟩
      · by_cases hoo : o' = o
        · subst hoo
          simp [AddedUnder]
        · simp [AddedUnder, hoo]
      · by_cases hoo : o' = o
        · exact ⟨l, by simp [hoo]⟩
        · rw [hinst, Inotify.add_wdOf, if_neg hoo] at hw
          obtain ⟨l', hl'⟩ := h.added o' w hw
          exact ⟨l', by simp [hoo, hl']⟩
      · by_cases hoo : o' = o
        · subst hoo
          exact ⟨l, (s.dirs.agree o' l).mpr ho⟩
        · have hbefore : s.added o' = some l' := by simpa [hoo] using hl'
          exact h.placed o' l' hbefore
  | rename possible _ _ _ =>
      -- directories move, but neither the map nor the watches do
      refine ⟨h.records, h.added, fun o l hl => ?_⟩
      obtain ⟨l', hl'⟩ := h.placed o l hl
      exact ⟨_, by rw [Hierarchy.rename_locationOf, hl', Option.map_some]⟩
  | activity _ _ => exact ⟨h.records, h.added, h.placed⟩
  | dispatch _ => exact ⟨h.records, h.added, h.placed⟩

/-- Every path in the map is that of the directory its watch belongs to. -/
def PathsCurrent (s : Monitor Obj) : Prop :=
  ∀ w, s.watches.mgr.fdPathMappingList w ≠ none → ∃ o l, s.watches.inst.wdOf o = some w ∧
    s.dirs.locationOf o = some l ∧ s.watches.mgr.getPath w = canonical l

/-- Every watched directory is where it was when it was last added. -/
def Unmoved (s : Monitor Obj) : Prop :=
  ∀ o w, s.watches.inst.wdOf o = some w → s.added o = s.dirs.locationOf o

omit [DecidableEq Obj] in
theorem Recorded.pathsCurrent_iff {s : Monitor Obj} (h : s.Recorded) :
    s.PathsCurrent ↔ s.Unmoved := by
  constructor
  · intro hcurrent o w hw
    obtain ⟨l, hl⟩ := h.added o w hw
    have hmap : s.watches.mgr.fdPathMappingList w = some (canonical l) :=
      (h.records.map_iff w _).mpr ⟨o, ⟨l, hl, rfl⟩, hw⟩
    obtain ⟨o', l', hw', hl', hpath⟩ := hcurrent w (by rw [hmap]; exact nofun)
    obtain rfl : o' = o := s.watches.inst.wdOf_injective _ _ _ hw' hw
    rw [InotifyWatchMgr.getPath, hmap, Option.getD_some] at hpath
    rw [hl, hl', canonical_injective hpath]
  · intro hunmoved w hw
    obtain ⟨p, hp⟩ := Option.ne_none_iff_exists'.mp hw
    obtain ⟨o, ⟨l, hl, rfl⟩, ho⟩ := (h.records.map_iff w p).mp hp
    refine ⟨o, l, ho, (hunmoved o w ho).symm.trans hl, ?_⟩
    rw [InotifyWatchMgr.getPath, hp, Option.getD_some]

theorem recorded_of_reaches {dirs : Hierarchy Obj} {s : Monitor Obj}
    (h : Reaches Step (start dirs) s) : s.Recorded :=
  h.invariant (fun _ _ _ hs hstep => hs.step hstep) (recorded_start dirs)

/-- **When paths follow moves.** After any history, and so also once all move events
have been dispatched, every path in the map is the current one if and only if
every watched directory is where it was when it was last added. The full path of
an event is the real one then. -/
theorem paths_current_iff (dirs : Hierarchy Obj) (s : Monitor Obj)
    (h : Reaches Step (start dirs) s) :
    (s.PathsCurrent ↔ s.Unmoved) ∧
      (s.Unmoved → ∀ event rest, s.queue = event :: rest →
        s.watches.mgr.fdPathMappingList event.wd ≠ none →
        ∃ o l report, s.watches.inst.wdOf o = some event.wd ∧ s.dirs.locationOf o = some l ∧
          parseRawEvent s.watches.mgr.getPath s.queue = some (report, rest) ∧
          report.fullPath = event.name.map fun name => canonical l ++ slash :: name) := by
  have hiff := (recorded_of_reaches h).pathsCurrent_iff
  refine ⟨hiff, fun hunmoved event rest hqueue hmap => ?_⟩
  obtain ⟨o, l, ho, hl, hpath⟩ := hiff.mpr hunmoved event.wd hmap
  refine ⟨o, l, event.report (s.watches.mgr.getPath event.wd), ho, hl, ?_, ?_⟩
  · rw [hqueue, parseRawEvent]
  · rw [hpath]
    rfl

/-! ### A directory that is renamed -/

def oldName : Name := ⟨[0x6f#8], by decide, by decide, by decide⟩

def newName : Name := ⟨[0x6e#8], by decide, by decide, by decide⟩

/-- The root directory 0, and 1 in it. -/
def twoDirs : Hierarchy Nat where
  dirAt l := if l = [] then some 0 else if l = [oldName] then some 1 else none
  locationOf o := if o = 0 then some [] else if o = 1 then some [oldName] else none
  agree := by
    intro o l
    by_cases h0 : o = 0
    · subst h0
      by_cases hl : l = [] <;> simp [hl, eq_comm]
    · by_cases h1 : o = 1
      · subst h1
        by_cases hl : l = []
        · simp [hl]
        · by_cases hl' : l = [oldName] <;> simp [hl, hl', eq_comm]
      · by_cases hl : l = []
        · simp [hl, h0, Ne.symm h0]
        · by_cases hl' : l = [oldName] <;> simp [hl, hl', h0, h1, Ne.symm h1]

def twoDirsOs : Os Nat where
  entries _ := none
  realpath _ := .error []
  lookup p := if p = canonical [] then some 0 else if p = canonical [oldName] then some 1 else none

theorem twoDirsOs_lookup (l : List Name) : twoDirsOs.lookup (canonical l) = twoDirs.dirAt l := by
  have hiff : ∀ l', canonical l = canonical l' ↔ l = l' := fun l' =>
    ⟨canonical_injective, fun h => h ▸ rfl⟩
  simp only [twoDirsOs, twoDirs, hiff]

theorem oldName_renames : twoDirs.Renames ([] ++ [oldName]) ([] ++ [newName]) where
  source := by decide
  not_below := by decide
  free := by
    intro l hl
    obtain ⟨r, rfl⟩ := hl
    have hne : newName ≠ oldName := by decide
    simp [twoDirs, hne]

/-- What paths name after the rename. -/
def renamedOs : Os Nat :=
  { twoDirsOs with
    lookup := fun p =>
      if p = canonical [] then some 0 else if p = canonical [newName] then some 1 else none }

theorem renamedOs_lookup (l : List Name) :
    renamedOs.lookup (canonical l) =
      (twoDirs.rename ([] ++ [oldName]) ([] ++ [newName]) oldName_renames).dirAt l := by
  have hiff : ∀ l', canonical l = canonical l' ↔ l = l' := fun l' =>
    ⟨canonical_injective, fun h => h ▸ rfl⟩
  simp only [renamedOs, hiff, Hierarchy.rename, twoDirs, List.nil_append]
  by_cases hnew : [newName] <+: l
  · obtain ⟨r, rfl⟩ := hnew
    simp
  · have hl : l ≠ [newName] := fun heq => hnew (heq ▸ List.prefix_rfl)
    have hne : oldName ≠ newName := by decide
    by_cases hold : [oldName] <+: l
    · obtain ⟨r, rfl⟩ := hold
      simp [hne, hne.symm]
    · have hl' : l ≠ [oldName] := fun heq => hold (heq ▸ List.prefix_rfl)
      simp [hnew, hold, hl, hl']

/-- A file `o` is created in the inner directory. -/
def createdInRenamed : CustomizedInotifyEvent := ⟨2, 0x100, 0, 16, some oldName.bytes⟩

/-- The inner directory is renamed and added again, the three events of the rename are
dispatched, and the file is created. -/
theorem addedAgain_reached : ∃ s : Monitor Nat, Reaches Step (start twoDirs) s ∧
    s.queue = [createdInRenamed] ∧ s.Unmoved ∧
    s.watches.mgr.fdPathMappingList 2 = some (canonical [newName]) := by
  refine ⟨_, ⟨_, .cons (a := .addWatch []) (.addWatch twoDirsOs_lookup rfl)
    (.cons (a := .addWatch [oldName]) (.addWatch twoDirsOs_lookup rfl)
    (.cons (a := .rename [] oldName [] newName 7#32)
      (.rename oldName_renames (by decide) (by decide) (by decide))
    (.cons (a := .addWatch [newName]) (.addWatch renamedOs_lookup rfl)
    (.cons (.dispatch rfl) (.cons (.dispatch rfl) (.cons (.dispatch rfl)
    (.cons (a := .activity createdInRenamed) (.activity ⟨1, rfl⟩ (by decide)) (.nil _))))))))⟩,
    rfl, fun o w hw => ?_, rfl⟩
  replace hw : (((Inotify.fresh.add 0).2.add 1).2.add 1).2.wdOf o = some w := hw
  by_cases h0 : o = 0
  · subst h0
    rfl
  · by_cases h1 : o = 1
    · subst h1
      rfl
    · rw [Inotify.add_wdOf, if_neg h1, Inotify.add_wdOf, if_neg h1, Inotify.add_wdOf,
        if_neg h0] at hw
      exact absurd hw nofun

theorem paths_current_addedAgain : ∃ s : Monitor Nat, Reaches Step (start twoDirs) s ∧
    s.Unmoved ∧ s.PathsCurrent ∧ ∃ report,
      parseRawEvent s.watches.mgr.getPath s.queue = some (report, []) ∧
      report.fullPath = some (canonical [newName] ++ slash :: oldName.bytes) := by
  obtain ⟨s, hreaches, hqueue, hunmoved, hmap⟩ := addedAgain_reached
  obtain ⟨hiff, hreports⟩ := paths_current_iff twoDirs s hreaches
  obtain ⟨-, -, report, -, -, hparse, -⟩ :=
    hreports hunmoved createdInRenamed [] hqueue (by simp [createdInRenamed, hmap])
  have hpath : report.fullPath = some (s.watches.mgr.getPath 2 ++ slash :: oldName.bytes) := by
    rw [hqueue, parseRawEvent, Option.some.injEq] at hparse
    rw [← (Prod.mk.inj hparse).1]
    rfl
  rw [InotifyWatchMgr.getPath, hmap, Option.getD_some] at hpath
  exact ⟨s, hreaches, hunmoved, hiff.mpr hunmoved, report, hparse, hpath⟩

/-- Both directories are added, the inner one is renamed, and the three events of
that are dispatched. -/
theorem renamed_reached : ∃ s : Monitor Nat, Reaches Step (start twoDirs) s ∧ s.queue = [] ∧
    s.watches.inst.wdOf 1 = some 2 ∧ s.added 1 = some [oldName] ∧
    s.dirs.locationOf 1 = some [newName] := by
  refine ⟨_, ⟨_, .cons (a := .addWatch []) (.addWatch twoDirsOs_lookup rfl)
    (.cons (a := .addWatch [oldName]) (.addWatch twoDirsOs_lookup rfl)
    (.cons (a := .rename [] oldName [] newName 7#32)
      (.rename oldName_renames (by decide) (by decide) (by decide))
    (.cons (.dispatch rfl) (.cons (.dispatch rfl) (.cons (.dispatch rfl) (.nil _))))))⟩,
    rfl, rfl, rfl, rfl⟩

/-- The map keeps the path from before the rename. -/
theorem renamed_path_stale :
    ¬ ∀ (dirs : Hierarchy Nat) (s : Monitor Nat), Reaches Step (start dirs) s →
      (∀ event ∈ s.queue, ¬ event.IsMove) → s.PathsCurrent := by
  intro h
  obtain ⟨s, hreaches, hqueue, hwatch, hadded, hlocation⟩ := renamed_reached
  have hcurrent : s.PathsCurrent := h twoDirs s hreaches (by simp [hqueue])
  have hsame := (recorded_of_reaches hreaches).pathsCurrent_iff.mp hcurrent 1 2 hwatch
  rw [hadded, hlocation] at hsame
  exact absurd hsame (by decide)

end Monitor

end InotifyRealtime
