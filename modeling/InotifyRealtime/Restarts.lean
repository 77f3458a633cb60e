import InotifyRealtime.Foundation.Machine
import InotifyRealtime.DirectoryTree
import InotifyRealtime.EpollHandler
/-!
# InotifyRealtime.Restarts

The watch manager's map over many sessions.

The manager is one for the process; an inotify instance lives for a session. A
`Registry` is the manager with the instance of the moment. Watches are added in
two steps, the kernel drops one when its directory goes away and says so by an
`IN_IGNORED`, and with the instance all of them are gone.

Nothing ever leaves the map: `RemoveList` has no caller, `ParseRawEvent` treats
`IN_IGNORED` as any other event, and neither `Initialize` nor `Finalize` touches
the map. So its keys are all watches ever stored (`Registry.Accumulates`).
-/

namespace InotifyRealtime

open Machine

/-- The mask of the event that ends a watch. -/
def inIgnored : BitVec 32 := 0x8000#32

structure Registry (Obj : Type) where
  mgr : InotifyWatchMgr
  /-- The instance of the current session. -/
  inst : Option (Inotify Obj)
  /-- Its events not yet dispatched. -/
  queue : List CustomizedInotifyEvent
  /-- The `AddWatch` in progress: the watch answered, the path to store. -/
  adding : Option (Int × Path)
  /-- The watches the current session was answered. -/
  session : List Int
  /-- The watches paths were ever stored for. -/
  stored : List Int

namespace Registry

variable {Obj : Type} [DecidableEq Obj]

/-- The process before its first session. -/
def start : Registry Obj := ⟨.new, none, [], none, [], []⟩

/-- The watch exists in the current session's instance. -/
def Live (s : Registry Obj) (w : Int) : Prop := ∃ i, s.inst = some i ∧ i.Live w

omit [DecidableEq Obj] in
theorem live_iff {s : Registry Obj} {i : Inotify Obj} (hi : s.inst = some i) (w : Int) :
    s.Live w ↔ i.Live w := by
  simp [Live, hi]

omit [DecidableEq Obj] in
/-- Between two sessions no watch is live. -/
theorem not_live_of_none {s : Registry Obj} (hi : s.inst = none) (w : Int) : ¬ s.Live w := by
  simp [Live, hi]

inductive Action (Obj : Type)
  /-- `InotifyWatchMgr::Initialize` with a fresh descriptor. -/
  | initializeWith (inotifyFd : Int)
  /-- `inotify_add_watch`, the first step of `AddWatch`. -/
  | inotifyAddWatch (o : Obj) (targetPath : Path)
  /-- An `AddWatch` whose `inotify_add_watch` fails. -/
  | addWatchFails (rc : Int) (targetPath : Path)
  /-- `AddList`, the second. -/
  | addList
  /-- The kernel drops a watch. -/
  | ignored (o : Obj)
  /-- Any other event of a watch. -/
  | activity (event : CustomizedInotifyEvent)
  | dispatch
  /-- The session ends, its workers have returned. -/
  | finalize

inductive Step : Registry Obj → Action Obj → Registry Obj → Prop
  | initializeWith {s : Registry Obj} {inotifyFd : Int} :
      s.inst = none → (s.mgr.initializeWith inotifyFd).1 = true →
      Step s (.initializeWith inotifyFd)
        { s with
          mgr := (s.mgr.initializeWith inotifyFd).2
          inst := some .fresh
          queue := []
          session := [] }
  | inotifyAddWatch {s : Registry Obj} {i : Inotify Obj} {o : Obj} {targetPath : Path} :
      s.inst = some i → s.adding = none →
      Step s (.inotifyAddWatch o targetPath)
        { s with
          inst := some (i.add o).2
          adding := some ((i.add o).1, targetPath)
          session := s.session ++ [(i.add o).1] }
  | addWatchFails {s : Registry Obj} {rc : Int} {targetPath : Path} :
      rc < 0 → s.adding = none →
      Step s (.addWatchFails rc targetPath) { s with mgr := (s.mgr.addWatch rc targetPath).2 }
  | addList {s : Registry Obj} {watchFd : Int} {targetPath : Path} :
      s.adding = some (watchFd, targetPath) →
      Step s .addList
        { s with
          mgr := s.mgr.addList watchFd targetPath
          adding := none
          stored := s.stored ++ [watchFd] }
  | ignored {s : Registry Obj} {i : Inotify Obj} {o : Obj} {w : Int} :
      s.inst = some i → i.wdOf o = some w →
      Step s (.ignored o)
        { s with
          inst := some (i.drop o)
          queue := s.queue ++ [⟨w, inIgnored, 0, 0, some []⟩] }
  | activity {s : Registry Obj} {event : CustomizedInotifyEvent} :
      s.Live event.wd → event.mask &&& inIgnored = 0 →
      Step s (.activity event) { s with queue := s.queue ++ [event] }
  | dispatch {s : Registry Obj} {report : Report} {rest : List CustomizedInotifyEvent} :
      parseRawEvent s.mgr.getPath s.queue = some (report, rest) →
      Step s .dispatch { s with queue := rest }
  | finalize {s : Registry Obj} :
      s.inst ≠ none → s.adding = none →
      Step s .finalize { s with inst := none, queue := [] }

/-- The two steps of an `AddWatch` that succeeds do what the call in one piece does. -/
theorem addWatch_steps {s : Registry Obj} {i : Inotify Obj} {os : Os Obj} {o : Obj}
    {targetPath : Path} (hi : s.inst = some i) (hadding : s.adding = none)
    (ho : os.lookup targetPath = some o) :
    ∃ s₁ s₂, Step s (.inotifyAddWatch o targetPath) s₁ ∧ Step s₁ .addList s₂ ∧
      s₂.mgr = (addWatch os ⟨s.mgr, i⟩ targetPath).2.mgr ∧
      s₂.inst = some (addWatch os ⟨s.mgr, i⟩ targetPath).2.inst := by
  refine ⟨_, _, .inotifyAddWatch hi hadding, .addList rfl, ?_, ?_⟩
  · rw [addWatch_of_lookup ho]
  · rw [addWatch_of_lookup ho]

/-- The keys of the map are all watches ever stored, those now live among them. -/
structure Accumulates (s : Registry Obj) : Prop where
  keys : ∀ w, s.mgr.fdPathMappingList w ≠ none ↔ w ∈ s.stored
  live_stored : ∀ w, s.Live w → w ∈ s.stored ∨ ∃ p, s.adding = some (w, p)
  live_session : ∀ w, s.Live w → w ∈ s.session

omit [DecidableEq Obj] in
theorem Accumulates.of_not_live {s : Registry Obj} (hdead : ∀ w, ¬ s.Live w)
    (hkeys : ∀ w, s.mgr.fdPathMappingList w ≠ none ↔ w ∈ s.stored) : s.Accumulates where
  keys := hkeys
  live_stored w hw := absurd hw (hdead w)
  live_session w hw := absurd hw (hdead w)

omit [DecidableEq Obj] in
theorem accumulates_start : (start : Registry Obj).Accumulates :=
  .of_not_live (not_live_of_none rfl) fun w => by simp [start, InotifyWatchMgr.new]

theorem Accumulates.step {s s' : Registry Obj} {a : Action Obj} (h : s.Accumulates)
    (hstep : Step s a s') : s'.Accumulates := by
  cases hstep with
  | initializeWith _ _ =>
      exact .of_not_live (fun w hw => Inotify.not_live_fresh w ((live_iff rfl w).mp hw)) h.keys
  | @inotifyAddWatch i o targetPath hi hadding =>
      refine ⟨h.keys, fun w hw => ?_, fun w hw => ?_⟩
      · rcases Inotify.live_add ((live_iff rfl w).mp hw) with rfl | hbefore
        · exact .inr ⟨targetPath, rfl⟩
        · rcases h.live_stored w ((live_iff hi w).mpr hbefore) with hmem | ⟨p, hp⟩
          · exact .inl hmem
          · cases hadding.symm.trans hp
      · rcases Inotify.live_add ((live_iff rfl w).mp hw) with rfl | hbefore
        · exact List.mem_append_right _ (List.mem_singleton.mpr rfl)
        · exact List.mem_append_left _ (h.live_session w ((live_iff hi w).mpr hbefore))
  | @addWatchFails rc targetPath hneg _ =>
      have hsame : (s.mgr.addWatch rc targetPath).2 = s.mgr := by
        rw [InotifyWatchMgr.addWatch, if_pos hneg]
      rw [hsame]
      exact ⟨h.keys, h.live_stored, h.live_session⟩
  | @addList watchFd targetPath hadding =>
      refine ⟨fun w => ?_, fun w hw => .inl ?_, h.live_session⟩
      · rw [InotifyWatchMgr.addList_apply, List.mem_append, List.mem_singleton]
        by_cases hw : w = watchFd
        · simp [hw]
        · rw [if_neg hw, h.keys]
          exact ⟨.inl, fun hmem => hmem.resolve_right hw⟩
      · rcases h.live_stored w hw with hmem | ⟨p, hp⟩
        · exact List.mem_append_left _ hmem
        · obtain ⟨rfl, -⟩ := Prod.mk.inj (Option.some.inj (hadding.symm.trans hp))
          exact List.mem_append_right _ (List.mem_singleton.mpr rfl)
  | @ignored i o w₀ hi hwatch =>
      -- the watch is gone, its key stays
      refine ⟨h.keys, fun w hw => ?_, fun w hw => ?_⟩
      · have hbefore := Inotify.live_drop ((live_iff rfl w).mp hw)
        exact h.live_stored w ((live_iff hi w).mpr hbefore)
      · have hbefore := Inotify.live_drop ((live_iff rfl w).mp hw)
        exact h.live_session w ((live_iff hi w).mpr hbefore)
  | activity _ _ => exact ⟨h.keys, h.live_stored, h.live_session⟩
  | dispatch _ => exact ⟨h.keys, h.live_stored, h.live_session⟩
  | finalize _ _ =>
      exact .of_not_live (not_live_of_none rfl) h.keys

theorem accumulates_of_reaches {s : Registry Obj} (h : Reaches Step start s) : s.Accumulates :=
  h.invariant (fun _ _ _ hs hstep => hs.step hstep) accumulates_start

/-- The keys of the map are the live watches, and a watch the current session has
not added has no path. -/
def Exact (s : Registry Obj) : Prop :=
  (∀ w, s.mgr.fdPathMappingList w ≠ none ↔ s.Live w) ∧
    ∀ w, w ∉ s.session → s.mgr.getPath w = []

/-- **When the map holds exactly the live watches.** Over any history of sessions,
in every state without an `AddWatch` in progress (whether or not an `IN_IGNORED`
is waiting), the map is exact if and only if every watch a path was ever stored
for, in whatever session, is live in the current one. -/
theorem exact_iff (s : Registry Obj) (h : Reaches Step start s) (hadding : s.adding = none) :
    s.Exact ↔ ∀ w ∈ s.stored, s.Live w := by
  obtain ⟨hkeys, hstored, hsession⟩ := accumulates_of_reaches h
  constructor
  · intro hexact w hw
    exact (hexact.1 w).mp ((hkeys w).mpr hw)
  · intro hlive
    refine ⟨fun w => ⟨fun hw => hlive w ((hkeys w).mp hw), fun hw => (hkeys w).mpr ?_⟩,
      fun w hw => ?_⟩
    · refine (hstored w hw).resolve_right fun ⟨p, hp⟩ => ?_
      exact absurd (hadding.symm.trans hp) nofun
    · have hnone : s.mgr.fdPathMappingList w = none := by
        by_contra hkey
        exact hw (hsession w (hlive w ((hkeys w).mp hkey)))
      rw [InotifyWatchMgr.getPath, hnone, Option.getD_none]

/-- Two sessions watch the same directory, and the second is still on. -/
theorem restarted_reached : ∃ s : Registry Nat, Reaches Step start s ∧ s.adding = none ∧
    s.stored = [1, 1] ∧ s.mgr.getPath 1 = [0x2f#8] ∧ s.Live 1 := by
  refine ⟨_, ⟨_, .cons (a := .initializeWith 3) (.initializeWith rfl rfl)
    (.cons (a := .inotifyAddWatch 0 [0x2f#8]) (.inotifyAddWatch rfl rfl)
    (.cons (.addList rfl)
    (.cons (.finalize nofun rfl)
    (.cons (a := .initializeWith 3) (.initializeWith rfl rfl)
    (.cons (a := .inotifyAddWatch 0 [0x2f#8]) (.inotifyAddWatch rfl rfl)
    (.cons (.addList rfl) (.nil _)))))))⟩, rfl, rfl, rfl, ?_⟩
  exact ⟨_, rfl, 0, rfl⟩

theorem exact_restarted : ∃ s : Registry Nat, Reaches Step start s ∧ s.adding = none ∧
    s.stored = [1, 1] ∧ s.mgr.getPath 1 = [0x2f#8] ∧ s.Exact := by
  obtain ⟨s, hreaches, hadding, hstored, hpath, hlive⟩ := restarted_reached
  refine ⟨s, hreaches, hadding, hstored, hpath, (exact_iff s hreaches hadding).mpr fun w hw => ?_⟩
  obtain rfl : w = 1 := by simpa [hstored] using hw
  exact hlive

/-- A directory is added and deleted, and its `IN_IGNORED` is dispatched. -/
theorem deleted_reached : ∃ s : Registry Nat, Reaches Step start s ∧ s.adding = none ∧
    s.queue = [] ∧ s.mgr.fdPathMappingList 1 = some [0x2f#8] ∧ ¬ s.Live 1 := by
  refine ⟨_, ⟨_, .cons (a := .initializeWith 3) (.initializeWith rfl rfl)
    (.cons (a := .inotifyAddWatch 0 [0x2f#8]) (.inotifyAddWatch rfl rfl)
    (.cons (.addList rfl)
    (.cons (a := .ignored 0) (.ignored rfl rfl)
    (.cons (.dispatch rfl) (.nil _)))))⟩, rfl, rfl, rfl, ?_⟩
  intro ⟨i, hi, o, ho⟩
  obtain rfl := Option.some.inj hi
  rw [Inotify.drop_wdOf, Inotify.add_wdOf, Inotify.fresh_wdOf] at ho
  by_cases hoo : o = 0
  · rw [if_pos hoo] at ho
    exact absurd ho nofun
  · rw [if_neg hoo, if_neg hoo] at ho
    exact absurd ho nofun

/-- The map keeps the deleted directory's path. -/
theorem deleted_path_kept :
    ¬ ∀ s : Registry Nat, Reaches Step start s → s.adding = none →
      (∀ event ∈ s.queue, event.mask &&& inIgnored = 0) → s.Exact := by
  intro h
  obtain ⟨s, hreaches, hadding, hqueue, hkey, hdead⟩ := deleted_reached
  have hexact := h s hreaches hadding (by simp [hqueue])
  exact hdead ((hexact.1 1).mp (by rw [hkey]; exact nofun))

end Registry

end InotifyRealtime
