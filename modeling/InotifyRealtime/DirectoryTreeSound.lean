import InotifyRealtime.DirectoryTree
import InotifyRealtime.Foundation.FileTree
/-!
# InotifyRealtime.DirectoryTreeSound

The walk over a file tree that does not change.

`Serves` says that the operating system answers as such a tree makes it: `nftw`
reports a root's subtree in pre-order, `realpath` gives the canonical path of
each directory, `inotify_add_watch` finds it again under that path. `Covers` is
the invariant of the walk: the map sends exactly the watches of the directories
visited so far to their canonical paths. One visit extends it by one directory
(`addWatch_covers`), one `nftw` by the directories under a root (`nftw_covers`),
and the walk by those under any root (`directoryTree_covers`).
-/

namespace InotifyRealtime

open Bytes Location FileTree

variable {Obj : Type}

/-- What a file tree has besides directories. -/
inductive Leaf
  | file
  | symlink
  deriving DecidableEq

/-- How `nftw` reports a subtree's top. -/
def typeflagOf : FileTree Obj Leaf → Typeflag
  | .dir _ _ => .ftwD
  | .leaf .file => .ftwF
  | .leaf .symlink => .ftwSL

/-- What `nftw` reports for visited entries, under the path names it gives them. -/
def reported (pathname : List Name → Path) (visits : List (List Name × FileTree Obj Leaf)) :
    List (Path × Typeflag) :=
  visits.map fun v => (pathname v.1, typeflagOf v.2)

/-- The operating system shows the tree `t`, in which each detect root, a path
name with the location it stands for, names a directory. `pathname root r` is the
name `nftw` gives to what lies at `r` below a root. -/
structure Serves (os : Os Obj) (pathname : Path → List Name → Path) (t : FileTree Obj Leaf)
    (roots : List (Path × List Name)) : Prop where
  /-- A location holds one subtree. -/
  one_subtree : ∀ l x y, Located t l x → Located t l y → x = y
  /-- A directory has one location, and so one canonical path. -/
  one_location : ∀ l l' o, t.DirAt l o → t.DirAt l' o → l = l'
  /-- Canonical paths are shorter than 1024 bytes. -/
  short : ∀ l o, t.DirAt l o → (canonical l).length < 1024
  /-- `inotify_add_watch` finds a directory under its canonical path. -/
  lookup : ∀ l o, t.DirAt l o → os.lookup (canonical l) = some o
  root_dir : ∀ r ∈ roots, ∃ o, t.DirAt r.2 o
  /-- `nftw` reports a root's subtree in pre-order. -/
  entries : ∀ r ∈ roots, ∀ x, Located t r.2 x →
    os.entries r.1 = some (reported (pathname r.1) (preorder [] x))
  /-- `realpath` gives the canonical path of each directory under a root. -/
  realpath : ∀ r ∈ roots, ∀ l o, t.DirAt (r.2 ++ l) o →
    os.realpath (pathname r.1 l) = .ok (canonical (r.2 ++ l))

variable {os : Os Obj} {pathname : Path → List Name → Path} {t : FileTree Obj Leaf}
  {roots : List (Path × List Name)}

theorem Serves.one_dir (h : Serves os pathname t roots) {l : List Name} {o o' : Obj}
    (ho : t.DirAt l o) (ho' : t.DirAt l o') : o = o' := by
  obtain ⟨e, he⟩ := ho
  obtain ⟨e', he'⟩ := ho'
  exact (FileTree.dir.inj (h.one_subtree _ _ _ he he')).1

theorem Serves.tail {r : Path × List Name} (h : Serves os pathname t (r :: roots)) :
    Serves os pathname t roots where
  one_subtree := h.one_subtree
  one_location := h.one_location
  short := h.short
  lookup := h.lookup
  root_dir r' hr' := h.root_dir r' (List.mem_cons_of_mem _ hr')
  entries r' hr' := h.entries r' (List.mem_cons_of_mem _ hr')
  realpath r' hr' := h.realpath r' (List.mem_cons_of_mem _ hr')

/-! ### The invariant of the walk -/

/-- A directory in `D` under its canonical path. -/
def UnderPath (D : Obj → List Name → Prop) (o : Obj) (p : Path) : Prop :=
  ∃ l, D o l ∧ p = canonical l

/-- The map sends exactly the watches of the directories in `D` to their
canonical paths, and each of them has one. -/
structure Covers (t : FileTree Obj Leaf) (D : Obj → List Name → Prop) (st : Watches Obj) :
    Prop where
  dirAt : ∀ o l, D o l → t.DirAt l o
  records : Records (UnderPath D) st

theorem Covers.congr {D D' : Obj → List Name → Prop} {st : Watches Obj}
    (h : Covers t D st) (heq : ∀ o l, D o l ↔ D' o l) : Covers t D' st := by
  obtain rfl : D = D' := by
    funext o l
    exact propext (heq o l)
  exact h

theorem Covers.map_iff {D : Obj → List Name → Prop} {st : Watches Obj} (h : Covers t D st)
    (w : Int) (p : Path) : st.mgr.fdPathMappingList w = some p ↔
      ∃ o l, D o l ∧ st.inst.wdOf o = some w ∧ p = canonical l := by
  rw [h.records.map_iff]
  constructor
  · intro ⟨o, ⟨l, hD, hp⟩, hw⟩
    exact ⟨o, l, hD, hw, hp⟩
  · intro ⟨o, l, hD, hw, hp⟩
    exact ⟨o, ⟨l, hD, hp⟩, hw⟩

theorem Covers.watched {D : Obj → List Name → Prop} {st : Watches Obj} (h : Covers t D st)
    (o : Obj) (l : List Name) (hD : D o l) : ∃ w, st.inst.wdOf o = some w :=
  h.records.watched o (canonical l) ⟨l, hD, rfl⟩

/-- A covering map is one-to-one. -/
theorem Covers.injective {D : Obj → List Name → Prop} {st : Watches Obj}
    (hs : Serves os pathname t roots) (h : Covers t D st) {w w' : Int} {p : Path}
    (hw : st.mgr.fdPathMappingList w = some p) (hw' : st.mgr.fdPathMappingList w' = some p) :
    w = w' := by
  obtain ⟨o, l, hD, ho, hp⟩ := (h.map_iff w p).mp hw
  obtain ⟨o', l', hD', ho', hp'⟩ := (h.map_iff w' p).mp hw'
  obtain rfl : l = l' := canonical_injective (hp.symm.trans hp')
  obtain rfl : o = o' := hs.one_dir (h.dirAt o l hD) (h.dirAt o' l hD')
  exact Option.some.inj (ho.symm.trans ho')

variable [DecidableEq Obj]

/-- Adding a directory under its canonical path extends what is covered by it. -/
theorem addWatch_covers {D : Obj → List Name → Prop} {st : Watches Obj}
    (hs : Serves os pathname t roots) (h : Covers t D st) {o : Obj} {l : List Name}
    (ho : t.DirAt l o) :
    ∃ st', addWatch os st (canonical l) = (true, st') ∧
      Covers t (fun o' l' => D o' l' ∨ o' = o ∧ l' = l) st' := by
  obtain ⟨hresult, -, hrecords⟩ := addWatch_records h.records (hs.lookup l o ho)
  refine ⟨(addWatch os st (canonical l)).2, Prod.ext hresult rfl, ?_,
    hrecords.congr fun o' p => ?_⟩
  · intro o' l' hD
    rcases hD with hD | ⟨rfl, rfl⟩
    · exact h.dirAt o' l' hD
    · exact ho
  · by_cases hoo : o' = o
    · -- what `D` says about this object is its one location as well
      subst hoo
      rw [if_pos rfl]
      constructor
      · intro hp
        exact ⟨l, .inr ⟨rfl, rfl⟩, hp⟩
      · intro ⟨l', hD, hp⟩
        rcases hD with hD | ⟨-, rfl⟩
        · rw [hp, hs.one_location _ _ _ (h.dirAt _ _ hD) ho]
        · exact hp
    · rw [if_neg hoo]
      constructor
      · intro ⟨l', hD, hp⟩
        exact ⟨l', .inl hD, hp⟩
      · intro ⟨l', hD, hp⟩
        exact ⟨l', hD.resolve_right fun heq => hoo heq.1, hp⟩

/-- The directories among some visited entries, at their locations below `base`. -/
def DirsAmong (base : List Name) (visits : List (List Name × FileTree Obj Leaf)) (o : Obj)
    (l : List Name) : Prop :=
  ∃ r entries, (r, FileTree.dir o entries) ∈ visits ∧ l = base ++ r

/-- `nftw` goes through all entries of a root's subtree and covers the
directories among them, by induction on the entries still to report. -/
theorem nftw_covers (hs : Serves os pathname t roots) {root : Path × List Name}
    (hroot : root ∈ roots) {x : FileTree Obj Leaf} (hx : Located t root.2 x) :
    ∀ {visits : List (List Name × FileTree Obj Leaf)} {D : Obj → List Name → Prop}
      {st : Watches Obj}, (∀ v ∈ visits, Located x v.1 v.2) → Covers t D st →
      ∃ st', nftw (ftwCallback os false) (reported (pathname root.1) visits) st =
          some (0, st') ∧
        Covers t (fun o l => D o l ∨ DirsAmong root.2 visits o l) st'
  | [], D, st, _, h => ⟨st, rfl, h.congr (by simp [DirsAmong])⟩
  | (r, .leaf k) :: visits, D, st, hvisits, h => by
      have hcall : ftwCallback os false st (pathname root.1 r)
          (typeflagOf (.leaf k : FileTree Obj Leaf)) = some (0, st) := by
        cases k <;> simp [ftwCallback, typeflagOf]
      obtain ⟨st', hst', hc⟩ := nftw_covers hs hroot hx
        (fun v hv => hvisits v (List.mem_cons_of_mem _ hv)) h
      refine ⟨st', ?_, hc.congr fun o l => ?_⟩
      · simp only [reported, List.map_cons, nftw, hcall]
        simpa [reported] using hst'
      · simp [DirsAmong]
  | (r, .dir o entries) :: visits, D, st, hvisits, h => by
      have hdir : t.DirAt (root.2 ++ r) o :=
        ⟨entries, hx.trans (hvisits _ List.mem_cons_self)⟩
      obtain ⟨st₁, hadd, hc₁⟩ := addWatch_covers hs h hdir
      have hfits : ¬ realPathSize < (canonical (root.2 ++ r)).length + 1 := by
        have := hs.short _ _ hdir
        simp only [realPathSize]
        omega
      have hcall : ftwCallback os false st (pathname root.1 r) (typeflagOf (.dir o entries)) =
          some (0, st₁) := by
        simp [ftwCallback, typeflagOf, hs.realpath root hroot r o hdir, hfits, hadd]
      obtain ⟨st', hst', hc⟩ := nftw_covers hs hroot hx
        (fun v hv => hvisits v (List.mem_cons_of_mem _ hv)) hc₁
      refine ⟨st', ?_, hc.congr fun o' l => ?_⟩
      · simp only [reported, List.map_cons, nftw, hcall]
        simpa [reported] using hst'
      · constructor
        · intro hor
          rcases hor with (hD | ⟨rfl, rfl⟩) | ⟨r', e, hmem, rfl⟩
          · exact .inl hD
          · exact .inr ⟨r, entries, List.mem_cons_self, rfl⟩
          · exact .inr ⟨r', e, List.mem_cons_of_mem _ hmem, rfl⟩
        · intro hor
          rcases hor with hD | ⟨r', e, hmem, rfl⟩
          · exact .inl (.inl hD)
          · rcases List.mem_cons.mp hmem with heq | hmem
            · obtain ⟨rfl, htree⟩ := Prod.mk.inj heq
              obtain ⟨rfl, -⟩ := FileTree.dir.inj htree
              exact .inl (.inr ⟨rfl, rfl⟩)
            · exact .inr ⟨r', e, hmem, rfl⟩

/-- The directory `o` at `l` lies under one of the roots (or is one). -/
def UnderRoot (t : FileTree Obj Leaf) (roots : List (Path × List Name)) (o : Obj)
    (l : List Name) : Prop :=
  t.DirAt l o ∧ ∃ r ∈ roots, r.2 <+: l

omit [DecidableEq Obj] in
/-- The directories a root's pre-order lists are those under it. -/
theorem dirsAmong_preorder_iff (hs : Serves os pathname t roots) {base : List Name}
    {x : FileTree Obj Leaf} (hx : Located t base x) (o : Obj) (l : List Name) :
    DirsAmong base (preorder [] x) o l ↔ t.DirAt l o ∧ base <+: l := by
  constructor
  · intro hsome
    obtain ⟨r, e, hmem, rfl⟩ := hsome
    exact ⟨⟨e, hx.trans (mem_preorder_iff.mp hmem)⟩, List.prefix_append _ _⟩
  · intro hsome
    obtain ⟨⟨e, hloc⟩, r, rfl⟩ := hsome
    obtain ⟨y, hy, hdir⟩ := hloc.split
    obtain rfl := hs.one_subtree _ _ _ hx hy
    exact ⟨r, e, mem_preorder_iff.mpr hdir, rfl⟩

/-- The walk ends and covers the directories under its roots, by induction on the
roots still to walk. -/
theorem walk_covers :
    ∀ {roots : List (Path × List Name)} {D : Obj → List Name → Prop} {st : Watches Obj},
      Serves os pathname t roots → Covers t D st →
      ∃ st', directoryTree os false (roots.map Prod.fst) st = some st' ∧
        Covers t (fun o l => D o l ∨ UnderRoot t roots o l) st'
  | [], D, st, _, h => ⟨st, rfl, h.congr (by simp [UnderRoot])⟩
  | root :: roots, D, st, hs, h => by
      obtain ⟨o, e, hx⟩ := hs.root_dir root List.mem_cons_self
      obtain ⟨st₁, hst₁, hc₁⟩ := nftw_covers hs List.mem_cons_self hx
        (fun v hv => mem_preorder_iff.mp hv) h
      obtain ⟨st', hst', hc⟩ := walk_covers hs.tail hc₁
      refine ⟨st', ?_, hc.congr fun o' l => ?_⟩
      · simp only [List.map_cons, directoryTree, hs.entries root List.mem_cons_self _ hx, hst₁]
        exact hst'
      · rw [dirsAmong_preorder_iff hs hx, or_assoc]
        simp only [UnderRoot, List.mem_cons, exists_eq_or_imp, and_or_left]

omit [DecidableEq Obj] in
/-- Which directories lie under the roots depends only on where the roots are. -/
theorem underRoot_congr {roots roots' : List (Path × List Name)}
    (h : ∀ l, l ∈ roots.map Prod.snd ↔ l ∈ roots'.map Prod.snd) (o : Obj) (l : List Name) :
    UnderRoot t roots o l ↔ UnderRoot t roots' o l := by
  have hlocations : ∀ rs : List (Path × List Name),
      (∃ r ∈ rs, r.2 <+: l) ↔ ∃ b ∈ rs.map Prod.snd, b <+: l := by
    intro rs
    constructor
    · intro hsome
      obtain ⟨r, hr, hprefix⟩ := hsome
      exact ⟨r.2, List.mem_map_of_mem hr, hprefix⟩
    · intro hsome
      obtain ⟨b, hb, hprefix⟩ := hsome
      obtain ⟨r, hr, rfl⟩ := List.mem_map.mp hb
      exact ⟨r, hr, hprefix⟩
  rw [UnderRoot, UnderRoot, hlocations, hlocations]
  simp only [h]

omit [DecidableEq Obj] in
/-- The paths in the map are the canonical paths of the directories covered. -/
theorem Covers.watched_paths {D : Obj → List Name → Prop} {st : Watches Obj}
    (h : Covers t D st) (p : Path) :
    (∃ w, st.mgr.fdPathMappingList w = some p) ↔ ∃ o l, D o l ∧ p = canonical l := by
  constructor
  · intro hsome
    obtain ⟨w, hw⟩ := hsome
    obtain ⟨o, l, hD, -, hp⟩ := (h.map_iff w p).mp hw
    exact ⟨o, l, hD, hp⟩
  · intro hsome
    obtain ⟨o, l, hD, hp⟩ := hsome
    obtain ⟨w, hw⟩ := h.watched o l hD
    exact ⟨w, (h.map_iff w p).mpr ⟨o, l, hD, hw, hp⟩⟩

/-- The walk from an empty map covers exactly the directories under its roots. -/
theorem walk_covers_underRoot (hs : Serves os pathname t roots) {st : Watches Obj}
    (hempty : ∀ w, st.mgr.fdPathMappingList w = none) :
    ∃ st', directoryTree os false (roots.map Prod.fst) st = some st' ∧
      Covers t (UnderRoot t roots) st' := by
  have hnothing : Covers t (fun _ _ => False) st :=
    { dirAt := fun _ _ h => h.elim
      records := ⟨fun w p => by simp [hempty, UnderPath], fun _ _ ⟨_, h, _⟩ => h.elim⟩ }
  obtain ⟨st', hst', hc⟩ := walk_covers hs hnothing
  exact ⟨st', hst', hc.congr fun o l => by simp⟩

/-- **The initial walk covers exactly the configured trees.** From an empty map
the walk ends, and the map then sends the watch of each directory under some
root, and nothing else, to its canonical path. Each of them has a watch, no two
watches share a path, and which paths are watched does not depend on the order or
the repetition of the roots. -/
theorem directoryTree_covers (hs : Serves os pathname t roots) (st : Watches Obj)
    (hempty : ∀ w, st.mgr.fdPathMappingList w = none) :
    ∃ st', directoryTree os false (roots.map Prod.fst) st = some st' ∧
      (∀ w p, st'.mgr.fdPathMappingList w = some p ↔
        ∃ o l, UnderRoot t roots o l ∧ st'.inst.wdOf o = some w ∧ p = canonical l) ∧
      (∀ o l, UnderRoot t roots o l → ∃ w, st'.inst.wdOf o = some w) ∧
      (∀ w w' p, st'.mgr.fdPathMappingList w = some p → st'.mgr.fdPathMappingList w' = some p →
        w = w') ∧
      ∀ roots' : List (Path × List Name), Serves os pathname t roots' →
        (∀ l, l ∈ roots.map Prod.snd ↔ l ∈ roots'.map Prod.snd) →
        ∀ st₀ : Watches Obj, (∀ w, st₀.mgr.fdPathMappingList w = none) →
        ∃ st'', directoryTree os false (roots'.map Prod.fst) st₀ = some st'' ∧
          ∀ p, (∃ w, st'.mgr.fdPathMappingList w = some p) ↔
            ∃ w, st''.mgr.fdPathMappingList w = some p := by
  obtain ⟨st', hst', hc⟩ := walk_covers_underRoot hs hempty
  refine ⟨st', hst', hc.map_iff, hc.watched, fun w w' p => hc.injective hs, ?_⟩
  intro roots' hs' hsame st₀ hempty'
  obtain ⟨st'', hst'', hc'⟩ := walk_covers_underRoot hs' hempty'
  refine ⟨st'', hst'', fun p => ?_⟩
  rw [hc.watched_paths, hc'.watched_paths]
  simp only [underRoot_congr hsame]

/-- A directory `d` and a file `f` in the root directory. -/
def nameD : Name := ⟨[0x64#8], by decide, by decide, by decide⟩

def nameF : Name := ⟨[0x66#8], by decide, by decide, by decide⟩

def smallTree : FileTree Nat Leaf := .dir 0 [(nameD, .dir 1 []), (nameF, .leaf .file)]

/-- The paths `nftw` spells: the root's, and the names below it. -/
def smallPathname (root : Path) (l : List Name) : Path :=
  if root = [slash] then canonical l else root ++ spelled l

def smallOs : Os Nat where
  entries p :=
    if p = [slash] then some (reported (smallPathname p) (preorder [] smallTree))
    else if p = canonical [nameD] then
      some (reported (smallPathname p) (preorder [] (.dir 1 [] : FileTree Nat Leaf)))
    else none
  realpath p := if p = [slash] ∨ p = canonical [nameD] then .ok p else .error []
  lookup p := if p = [slash] then some 0 else if p = canonical [nameD] then some 1 else none

/-- The root directory, and `d` twice more. -/
def nestedRoots : List (Path × List Name) :=
  [(canonical [nameD], [nameD]), ([slash], []), (canonical [nameD], [nameD])]

theorem nameD_ne_nameF : nameD ≠ nameF := by decide

theorem located_smallTree {l : List Name} {x : FileTree Nat Leaf} :
    Located smallTree l x ↔ (l = [] ∧ x = smallTree) ∨ (l = [nameD] ∧ x = .dir 1 []) ∨
      (l = [nameF] ∧ x = .leaf .file) := by
  rw [← mem_preorder_iff]
  simp [smallTree, preorder, preorderEntries]

theorem dirAt_smallTree {l : List Name} {o : Nat} :
    smallTree.DirAt l o ↔ (l = [] ∧ o = 0) ∨ (l = [nameD] ∧ o = 1) := by
  unfold DirAt
  simp only [located_smallTree]
  simp [smallTree, exists_or]

theorem mem_nestedRoots {r : Path × List Name} (h : r ∈ nestedRoots) :
    r = ([slash], []) ∨ r = (canonical [nameD], [nameD]) := by
  simpa [nestedRoots, or_comm] using h

theorem serves_nestedRoots : Serves smallOs smallPathname smallTree nestedRoots where
  one_subtree l x y hx hy := by
    rw [located_smallTree] at hx hy
    rcases hx with ⟨rfl, rfl⟩ | ⟨rfl, rfl⟩ | ⟨rfl, rfl⟩ <;>
      simpa [eq_comm, nameD_ne_nameF, nameD_ne_nameF.symm] using hy
  one_location l l' o h h' := by
    rw [dirAt_smallTree] at h h'
    rcases h with ⟨rfl, rfl⟩ | ⟨rfl, rfl⟩ <;> simpa [eq_comm] using h'
  short l o h := by
    rcases dirAt_smallTree.mp h with ⟨rfl, rfl⟩ | ⟨rfl, rfl⟩ <;> decide
  lookup l o h := by
    rcases dirAt_smallTree.mp h with ⟨rfl, rfl⟩ | ⟨rfl, rfl⟩ <;> rfl
  root_dir r hr := by
    rcases mem_nestedRoots hr with rfl | rfl
    · exact ⟨0, dirAt_smallTree.mpr (.inl ⟨rfl, rfl⟩)⟩
    · exact ⟨1, dirAt_smallTree.mpr (.inr ⟨rfl, rfl⟩)⟩
  entries r hr x hx := by
    rw [located_smallTree] at hx
    rcases mem_nestedRoots hr with rfl | rfl
    · obtain rfl : x = smallTree := by simpa using hx
      rfl
    · obtain rfl : x = .dir 1 [] := by simpa [nameD_ne_nameF] using hx
      rfl
  realpath r hr l o h := by
    rw [dirAt_smallTree] at h
    rcases mem_nestedRoots hr with rfl | rfl
    · obtain ⟨rfl, -⟩ | ⟨rfl, -⟩ : l = [] ∧ o = 0 ∨ l = [nameD] ∧ o = 1 := by simpa using h
      · rfl
      · rfl
    · obtain rfl : l = [] := by
        cases l with
        | nil => rfl
        | cons n l => simp at h
      rfl

theorem directoryTree_covers_nestedRoots :
    ∃ st', directoryTree smallOs false (nestedRoots.map Prod.fst) ⟨.new, .fresh⟩ = some st' ∧
      ∀ w p, st'.mgr.fdPathMappingList w = some p ↔
        ∃ o l, UnderRoot smallTree nestedRoots o l ∧ st'.inst.wdOf o = some w ∧
          p = canonical l := by
  obtain ⟨st', hst', hmap, -⟩ :=
    directoryTree_covers serves_nestedRoots ⟨.new, .fresh⟩ (fun _ => rfl)
  exact ⟨st', hst', hmap⟩

end InotifyRealtime
