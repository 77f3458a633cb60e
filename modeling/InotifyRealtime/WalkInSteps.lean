import InotifyRealtime.Foundation.Progress
import InotifyRealtime.DirectoryThreadSound
import InotifyRealtime.DirectoryTreeSound
/-!
# InotifyRealtime.WalkInSteps

What the directory thread leaves behind at every place.

`DirectoryTreeSound` says what a whole walk over a file tree does, from an empty map. Here
the walk may be anywhere, the flag may be set at any moment, and the map may still hold
what earlier sessions stored: whatever is watched is a directory under a root, and its
path in the map is the canonical one as soon as `AddList` has been there
(`Alone.Within`). The thread has no choice in what it does, so that an undisturbed walk
is over after a certain number of steps, whatever else goes on (`walk_ends`).
-/

namespace InotifyRealtime.DirectoryThread

open Relation Machine FileTree Location

variable {Obj : Type} {os : Os Obj} {pathname : Path → List Name → Path} {t : FileTree Obj Leaf}
  {roots : List (Path × List Name)}

/-- `realpath` gives the entry the path of a directory under a root. -/
def Resolves (os : Os Obj) (t : FileTree Obj Leaf) (roots : List (Path × List Name))
    (fpath : Path) : Prop :=
  ∃ o p, UnderPath (UnderRoot t roots) o p ∧ os.realpath fpath = .ok p

/-- The place has to do with a directory under a root. -/
def Pc.Within (os : Os Obj) (t : FileTree Obj Leaf) (roots : List (Path × List Name))
    (inst : Inotify Obj) : Pc → Prop
  | .nftw | .returned => True
  | .ftwCallback fpath typeflag => typeflag = .ftwD → Resolves os t roots fpath
  | .realpath fpath => Resolves os t roots fpath
  | .addWatch targetPath => ∃ o, UnderPath (UnderRoot t roots) o targetPath
  | .addList watchFd targetPath =>
      ∃ o, UnderPath (UnderRoot t roots) o targetPath ∧ inst.wdOf o = some watchFd
  | .undefined => False

/-- The watches are of directories under the roots. The path of each is the canonical one,
or still what the map `m` had at the start. -/
structure Watches.Within (t : FileTree Obj Leaf) (roots : List (Path × List Name))
    (m : InotifyWatchMgr) (st : Watches Obj) : Prop where
  watched : ∀ o w, st.inst.wdOf o = some w → ∃ p, UnderPath (UnderRoot t roots) o p
  paths : ∀ w, (∃ o, UnderPath (UnderRoot t roots) o (st.mgr.getPath w) ∧
    st.inst.wdOf o = some w) ∨ st.mgr.getPath w = m.getPath w

/-- Its path is the canonical one. -/
def Listed (t : FileTree Obj Leaf) (roots : List (Path × List Name)) (st : Watches Obj) (o : Obj)
    (w : Int) : Prop :=
  UnderPath (UnderRoot t roots) o (st.mgr.getPath w)

/-- What the walk keeps from its start. -/
structure Alone.Within (os : Os Obj) (t : FileTree Obj Leaf) (roots : List (Path × List Name))
    (m : InotifyWatchMgr) (s : Alone Obj) : Prop where
  detectList : ∀ root ∈ s.thread.roots, root ∈ roots.map Prod.fst
  entries : ∀ fpath, (fpath, .ftwD) ∈ s.entries → Resolves os t roots fpath
  place : s.thread.pc.Within os t roots s.watches.inst
  watches : Watches.Within t roots m s.watches
  /-- Only the path of the last watch may be pending. -/
  listed : ∀ o w, s.watches.inst.wdOf o = some w →
    Listed t roots s.watches o w ∨ ∃ p, s.thread.pc = .addList w p

/-- With no path pending, all are listed. -/
theorem Alone.Within.all_listed {m : InotifyWatchMgr} {s : Alone Obj} (h : s.Within os t roots m)
    (hpending : s.thread.pc.pending = []) :
    ∀ o w, s.watches.inst.wdOf o = some w → Listed t roots s.watches o w := by
  intro o w hw
  rcases h.listed o w hw with hlisted | ⟨p, hpc⟩
  · exact hlisted
  · rw [hpc] at hpending
    exact absurd hpending (List.cons_ne_nil _ _)

/-- What `nftw` reports as a directory under a root is one. -/
theorem resolves_of_entries (hs : Serves os pathname t roots) {root : Path}
    (hroot : root ∈ roots.map Prod.fst) {entries : List (Path × Typeflag)}
    (hentries : os.entries root = some entries) {fpath : Path} (hf : (fpath, .ftwD) ∈ entries) :
    Resolves os t roots fpath := by
  obtain ⟨r, hr, rfl⟩ := List.mem_map.mp hroot
  obtain ⟨o, e, hx⟩ := hs.root_dir r hr
  obtain rfl := Option.some.inj ((hs.entries r hr _ hx).symm.trans hentries)
  obtain ⟨⟨l, x⟩, hv, heq⟩ := List.mem_map.mp hf
  obtain ⟨rfl, hflag⟩ := Prod.mk.inj heq
  cases x with
  | leaf kind => cases kind <;> exact absurd hflag Typeflag.noConfusion
  | dir o' e' =>
      have hdir : t.DirAt (r.2 ++ l) o' := ⟨e', hx.trans (mem_preorder_iff.mp hv)⟩
      exact ⟨o', _, ⟨r.2 ++ l, ⟨hdir, r, hr, List.prefix_append _ _⟩, rfl⟩,
        hs.realpath r hr l o' hdir⟩

/-- The head of the loop over the roots. -/
theorem within_enter (hs : Serves os pathname t roots) {m : InotifyWatchMgr} {st : Watches Obj}
    (hst : Watches.Within t roots m st)
    (hlisted : ∀ o w, st.inst.wdOf o = some w → Listed t roots st o w) {rest : List Path}
    (hrest : ∀ root ∈ rest, root ∈ roots.map Prod.fst) :
    (Alone.enter os st (.atRoots rest)).Within os t roots m where
  detectList := hrest
  entries fpath hf := by
    cases rest with
    | nil => exact absurd hf List.not_mem_nil
    | cons root rest =>
        simp only [Alone.enter, Thread.atRoots, List.head?_cons, Option.bind_some] at hf
        cases hentries : os.entries root with
        | none =>
            rw [hentries] at hf
            exact absurd hf List.not_mem_nil
        | some entries =>
            rw [hentries] at hf
            exact resolves_of_entries hs (hrest root List.mem_cons_self) hentries hf
  place := by
    show (Thread.atRoots rest).pc.Within os t roots st.inst
    rcases atRoots_pc rest with hpc | hpc
    · rw [hpc]
      trivial
    · rw [hpc]
      trivial
  watches := hst
  listed o w hw := .inl (hlisted o w hw)

variable [DecidableEq Obj]

/-- A watch the thread is answered belongs to the directory it asked for. -/
theorem inotifyAddWatch_of_underPath (hs : Serves os pathname t roots) (inst : Inotify Obj)
    {o : Obj} {p : Path} (h : UnderPath (UnderRoot t roots) o p) :
    inotifyAddWatch os inst p = inst.add o := by
  obtain ⟨l, hunder, rfl⟩ := h
  simp only [inotifyAddWatch, hs.lookup l o hunder.1]

/-- A step keeps all this, and every watch. -/
theorem Alone.Within.next (hs : Serves os pathname t roots) {m : InotifyWatchMgr} {stopped : Bool}
    {s s' : Alone Obj} (h : s.Within os t roots m) (hnext : s.next os stopped = some s') :
    s'.Within os t roots m ∧
      ∀ o w, s.watches.inst.wdOf o = some w → s'.watches.inst.wdOf o = some w := by
  obtain ⟨⟨pc, rest⟩, entries, st⟩ := s
  have hplace := h.place
  have hlisted := h.all_listed
  have htail : ∀ root ∈ rest.tail, root ∈ roots.map Prod.fst :=
    fun root hr => h.detectList root (List.mem_of_mem_tail hr)
  cases pc with
  | returned => exact absurd hnext nofun
  | undefined => exact absurd hplace id
  | nftw =>
      cases entries with
      | nil =>
          obtain rfl := Option.some.inj hnext
          exact ⟨within_enter hs h.watches (hlisted rfl) htail, fun _ _ hw => hw⟩
      | cons entry entries =>
          obtain ⟨fpath, typeflag⟩ := entry
          obtain rfl := Option.some.inj hnext
          have hrest := fun f hf => h.entries f (List.mem_cons_of_mem _ hf)
          refine ⟨⟨h.detectList, hrest, ?_, h.watches, fun o w hw => .inl (hlisted rfl o w hw)⟩,
            fun _ _ hw => hw⟩
          rintro rfl
          exact h.entries fpath List.mem_cons_self
  | ftwCallback fpath typeflag =>
      cases stopped with
      | true =>
          obtain rfl := Option.some.inj hnext
          exact ⟨within_enter hs h.watches (hlisted rfl) htail, fun _ _ hw => hw⟩
      | false =>
          obtain rfl := Option.some.inj hnext
          refine ⟨⟨h.detectList, h.entries, ?_, h.watches, fun o w hw => .inl (hlisted rfl o w hw)⟩,
            fun _ _ hw => hw⟩
          show Pc.Within os t roots st.inst (if typeflag = .ftwD then .realpath fpath else .nftw)
          by_cases hdir : typeflag = .ftwD
          · rw [if_pos hdir]
            exact hplace hdir
          · rw [if_neg hdir]
            trivial
  | realpath fpath =>
      obtain ⟨o, p, hunder, hreal⟩ := hplace
      have hfits : ¬ realPathSize < p.length + 1 := by
        obtain ⟨l, hl, rfl⟩ := hunder
        have := hs.short l o hl.1
        simp only [realPathSize]
        omega
      simp only [Alone.next, hreal, step, afterRealpath, written, if_neg hfits,
        Option.map_some] at hnext
      obtain rfl := Option.some.inj hnext
      exact ⟨⟨h.detectList, h.entries, ⟨o, hunder⟩, h.watches,
        fun o w hw => .inl (hlisted rfl o w hw)⟩, fun _ _ hw => hw⟩
  | addWatch p =>
      obtain ⟨o, hunder⟩ := hplace
      have hpos : ¬ (st.inst.add o).1 < 0 := by
        have := st.inst.add_pos o
        omega
      simp only [Alone.next, inotifyAddWatch_of_underPath hs st.inst hunder, step, if_neg hpos,
        Option.map_some] at hnext
      obtain rfl := Option.some.inj hnext
      have hkeeps : ∀ o' w, st.inst.wdOf o' = some w → (st.inst.add o).2.wdOf o' = some w :=
        fun _ _ hw => st.inst.add_wdOf_of_watched o hw
      refine ⟨⟨h.detectList, h.entries, ⟨o, hunder, st.inst.add_wdOf_self o⟩, ⟨?_, ?_⟩, ?_⟩, hkeeps⟩
      · intro o' w hw
        by_cases ho : o' = o
        · exact ⟨p, ho ▸ hunder⟩
        · rw [st.inst.add_wdOf, if_neg ho] at hw
          exact h.watches.watched o' w hw
      · intro w
        rcases h.watches.paths w with ⟨o', hunder', hw⟩ | hbefore
        · exact .inl ⟨o', hunder', hkeeps o' w hw⟩
        · exact .inr hbefore
      · intro o' w hw
        rw [st.inst.add_wdOf] at hw
        by_cases ho : o' = o
        · -- its path is stored by the next step
          rw [if_pos ho, Option.some.injEq] at hw
          exact .inr ⟨p, congrArg (Pc.addList · p) hw⟩
        · rw [if_neg ho] at hw
          exact .inl (hlisted rfl o' w hw)
  | addList w p =>
      obtain ⟨o, hunder, hw⟩ := hplace
      obtain rfl := Option.some.inj hnext
      have hself : (st.mgr.addList w p).getPath w = p := InotifyWatchMgr.getPath_addList_self _ w p
      have hother {w' : Int} (hne : w' ≠ w) :
          (st.mgr.addList w p).getPath w' = st.mgr.getPath w' :=
        InotifyWatchMgr.getPath_addList_of_ne _ hne p
      refine ⟨⟨h.detectList, h.entries, trivial, ⟨h.watches.watched, fun w' => ?_⟩,
        fun o' w' hw' => .inl ?_⟩, fun _ _ hw => hw⟩
      · by_cases hne : w' = w
        · subst hne
          exact .inl ⟨o, hself.symm ▸ hunder, hw⟩
        · rw [hother hne]
          exact h.watches.paths w'
      · show UnderPath (UnderRoot t roots) o' ((st.mgr.addList w p).getPath w')
        by_cases hne : w' = w
        · subst hne
          obtain rfl := st.inst.wdOf_injective o' o w' hw' hw
          rw [hself]
          exact hunder
        · rw [hother hne]
          rcases h.listed o' w' hw' with hlisted' | ⟨p', hpc⟩
          · exact hlisted'
          · exact absurd (Pc.addList.inj hpc).1.symm hne

/-! ### The end of the walk -/

/-- `AddWatch` answers and watches the same whatever the map holds. -/
theorem addWatch_congr (os : Os Obj) {st st' : Watches Obj} (h : st.inst = st'.inst) (p : Path) :
    (addWatch os st p).1 = (addWatch os st' p).1 ∧
      (addWatch os st p).2.inst = (addWatch os st' p).2.inst := by
  simp only [addWatch, InotifyWatchMgr.addWatch, h]
  by_cases hneg : (inotifyAddWatch os st'.inst p).1 < 0
  · simp only [if_pos hneg, and_self]
  · simp only [if_neg hneg, and_self]

/-- What a callback, and then a walk, answers and watches. -/
def seenOf (x : Int × Watches Obj) : Int × Inotify Obj := (x.1, x.2.inst)

theorem ftwCallback_congr (os : Os Obj) (stopped : Bool) {st st' : Watches Obj}
    (h : st.inst = st'.inst) (fpath : Path) (typeflag : Typeflag) :
    (ftwCallback os stopped st fpath typeflag).map seenOf =
      (ftwCallback os stopped st' fpath typeflag).map seenOf := by
  unfold ftwCallback
  cases stopped with
  | true => simp [seenOf, h]
  | false =>
      by_cases hdir : typeflag = .ftwD
      · simp only [Bool.false_eq_true, if_false, hdir, ne_eq, not_true_eq_false]
        cases os.realpath fpath with
        | error left =>
            by_cases hbig : realPathSize < left.length + 1
            · simp only [if_pos hbig]
            · simp only [if_neg hbig, Option.map_some, seenOf, h]
        | ok p =>
            by_cases hbig : realPathSize < p.length + 1
            · simp only [if_pos hbig]
            · obtain ⟨hresult, hinst⟩ := addWatch_congr os h p
              simp only [if_neg hbig, Option.map_some, seenOf, hresult, hinst]
      · simp [hdir, seenOf, h]

theorem nftw_congr (os : Os Obj) (stopped : Bool) (entries : List (Path × Typeflag)) :
    ∀ {st st' : Watches Obj}, st.inst = st'.inst →
      (nftw (ftwCallback os stopped) entries st).map seenOf =
        (nftw (ftwCallback os stopped) entries st').map seenOf := by
  induction entries with
  | nil => exact fun h => by simp [nftw, seenOf, h]
  | cons entry entries ih =>
      intro st st' h
      obtain ⟨fpath, typeflag⟩ := entry
      have hcall := ftwCallback_congr os stopped h fpath typeflag
      simp only [nftw]
      cases hx : ftwCallback os stopped st fpath typeflag with
      | none =>
          rw [hx] at hcall
          rw [Option.map_eq_none_iff.mp hcall.symm]
      | some x =>
          rw [hx] at hcall
          obtain ⟨x', hx', heq⟩ := Option.map_eq_some_iff.mp hcall.symm
          obtain ⟨hrc, hinst⟩ := Prod.mk.inj heq
          simp only [hx', hrc]
          by_cases hzero : x.1 ≠ 0
          · simp only [if_pos hzero, Option.map_some, seenOf, hinst]
          · simp only [if_neg hzero]
            exact ih hinst.symm

/-- So does the walk. -/
theorem directoryTree_congr (os : Os Obj) (stopped : Bool) (roots : List Path) :
    ∀ {st st' : Watches Obj}, st.inst = st'.inst →
      (directoryTree os stopped roots st).map Watches.inst =
        (directoryTree os stopped roots st').map Watches.inst := by
  induction roots with
  | nil => exact fun h => congrArg some h
  | cons root roots ih =>
      intro st st' h
      simp only [directoryTree]
      cases os.entries root with
      | none => exact ih h
      | some entries =>
          have hwalk := nftw_congr os stopped entries h
          simp only
          cases hx : nftw (ftwCallback os stopped) entries st with
          | none =>
              rw [hx] at hwalk
              rw [Option.map_eq_none_iff.mp hwalk.symm]
          | some x =>
              rw [hx] at hwalk
              obtain ⟨x', hx', heq⟩ := Option.map_eq_some_iff.mp hwalk.symm
              rw [hx']
              exact ih (Prod.mk.inj heq).2.symm

/-- A thread that has no choice comes to the end of its run after so many steps, and not
before. -/
theorem Alone.Runs.count {stopped : Bool} {a b : Alone Obj} (h : a.Runs os stopped b)
    (hb : b.next os stopped = none) :
    ∃ n, ∀ (hist : List (Alone Obj × Unit)) (c : Alone Obj),
      Run (fun s _ s' => s.next os stopped = some s') a hist c →
        hist.length ≤ n ∧ (hist.length < n → ∃ d, c.next os stopped = some d) ∧
          (hist.length = n → c = b) := by
  induction h using ReflTransGen.head_induction_on with
  | refl =>
      refine ⟨0, fun hist c hrun => ?_⟩
      cases hrun with
      | nil => exact ⟨le_rfl, fun hlt => absurd hlt (Nat.lt_irrefl 0), fun _ => rfl⟩
      | cons hstep _ => exact absurd (hstep.symm.trans hb) (Option.some_ne_none _)
  | @head a a' hfirst _ ih =>
      obtain ⟨n, hn⟩ := ih
      refine ⟨n + 1, fun hist c hrun => ?_⟩
      cases hrun with
      | nil => exact ⟨Nat.zero_le _, fun _ => ⟨a', hfirst⟩, fun heq => absurd heq (by simp)⟩
      | cons hstep hrest =>
          obtain rfl := Option.some.inj (hstep.symm.trans hfirst)
          obtain ⟨hle, hgoes, hend⟩ := hn _ c hrest
          simp only [List.length_cons, Nat.add_le_add_iff_right, Nat.add_lt_add_iff_right,
            Nat.add_right_cancel_iff]
          exact ⟨hle, hgoes, hend⟩

/-- **The walk comes to its end.** As long as the flag is not set, the thread takes a
certain number of steps, whatever the schedule, and then every directory under a root is
watched. -/
theorem walk_ends (hs : Serves os pathname t roots) (st : Watches Obj) :
    ∃ n, ∀ (hist : List (Alone Obj × Unit)) (c : Alone Obj),
      Run (fun s _ s' => s.next os false = some s')
          (.enter os st (.start (roots.map Prod.fst))) hist c →
        hist.length ≤ n ∧ (hist.length < n → ∃ d, c.next os false = some d) ∧
          (hist.length = n → c.thread.pc = .returned ∧
            ∀ o l, UnderRoot t roots o l → ∃ w, c.watches.inst.wdOf o = some w) := by
  -- the walk from an empty map ends, and so does this one
  have hempty : ∀ w, (Watches.mk .new st.inst).mgr.fdPathMappingList w = none := fun _ => rfl
  obtain ⟨st₁, hst₁, hc⟩ := walk_covers_underRoot hs hempty
  have hsame := directoryTree_congr os false (roots.map Prod.fst)
    (show (Watches.mk .new st.inst).inst = st.inst from rfl)
  rw [hst₁] at hsame
  obtain ⟨st', hst', hinst⟩ := Option.map_eq_some_iff.mp hsame.symm
  have hruns := directoryTree_run os false (roots.map Prod.fst) st
  rw [hst'] at hruns
  obtain ⟨n, hn⟩ := Alone.Runs.count hruns rfl
  refine ⟨n, fun hist c hrun => ?_⟩
  obtain ⟨hle, hgoes, hend⟩ := hn hist c hrun
  refine ⟨hle, hgoes, fun hlen => ?_⟩
  obtain rfl := hend hlen
  refine ⟨rfl, fun o l hunder => ?_⟩
  rw [hinst]
  exact hc.watched o l hunder

end InotifyRealtime.DirectoryThread
