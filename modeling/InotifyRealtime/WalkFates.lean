import InotifyRealtime.DirectoryTreeSound
/-!
# InotifyRealtime.WalkFates

How far a walk gets, whatever the operating system answers.

`FtwCallback` has four ways out for an entry, its `fate`: it is skipped, `realpath`
overruns its array, `inotify_add_watch` refuses the path, or a watch is added. An
entry that is refused ends the current `nftw`, so what comes behind it is not
`reached`. `directoryTreeDuring_eq` says what a walk does in these terms: nothing
defined if an entry reached overruns, and otherwise one `record` for each
watch added.

The file system may change while a walk runs. As each `nftw` asks about an entry
once, `directoryTreeDuring` gives every root an operating system of its own.
`RootWalk.Sees` says what such a walk has to do with a file tree: whatever it is
told about a directory is right, but it need not be told.
-/

namespace InotifyRealtime

open Bytes Location FileTree

variable {Obj : Type}

/-- What comes of a call of `FtwCallback` while `stopped_` is false. -/
inductive Fate (Obj : Type)
  /-- No directory, or one that `realpath` does not resolve. -/
  | skipped
  /-- `realpath` writes past `real_path`, whether it resolves the entry or not. -/
  | overflows
  /-- `inotify_add_watch` fails. -/
  | refused
  | watched (path : Path) (o : Obj)

def fate (os : Os Obj) (e : Path × Typeflag) : Fate Obj :=
  if e.2 ≠ .ftwD then .skipped
  else
    match os.realpath e.1 with
    | .error left => if realPathSize < left.length + 1 then .overflows else .skipped
    | .ok realPath =>
        if realPathSize < realPath.length + 1 then .overflows
        else
          match os.lookup realPath with
          | none => .refused
          | some o => .watched realPath o

/-- This `nftw` ends with the entry. -/
def refuses (os : Os Obj) (e : Path × Typeflag) : Bool :=
  match fate os e with
  | .refused => true
  | _ => false

def overruns (os : Os Obj) (e : Path × Typeflag) : Bool :=
  match fate os e with
  | .overflows => true
  | _ => false

/-- The watch added for an entry: its path and its directory. -/
def addition (os : Os Obj) (e : Path × Typeflag) : Option (Path × Obj) :=
  match fate os e with
  | .watched path o => some (path, o)
  | _ => none

theorem overruns_iff {os : Os Obj} {e : Path × Typeflag} :
    overruns os e = true ↔ fate os e = .overflows := by
  rw [overruns]
  cases fate os e <;> simp

theorem addition_eq_some_iff {os : Os Obj} {e : Path × Typeflag} {p : Path} {o : Obj} :
    addition os e = some (p, o) ↔ fate os e = .watched p o := by
  rw [addition]
  cases fate os e <;> simp

/-- What the operating system answered about an entry that is watched. -/
theorem fate_eq_watched {os : Os Obj} {e : Path × Typeflag} {p : Path} {o : Obj}
    (h : fate os e = .watched p o) :
    os.realpath e.1 = .ok p ∧ p.length + 1 ≤ realPathSize ∧ os.lookup p = some o := by
  unfold fate at h
  split at h
  · cases h
  split at h
  · split at h
    · cases h
    · cases h
  next realPath hreal =>
    split at h
    · cases h
    next hfits =>
      split at h
      · cases h
      next o' hlookup =>
        obtain ⟨rfl, rfl⟩ := Fate.watched.inj h
        exact ⟨hreal, Nat.le_of_not_lt hfits, hlookup⟩

theorem fate_eq_overflows {os : Os Obj} {e : Path × Typeflag} (h : fate os e = .overflows) :
    realPathSize < (written (os.realpath e.1)).length + 1 := by
  unfold fate at h
  split at h
  · cases h
  split at h
  next left hreal =>
    split at h
    next hbig => rwa [hreal]
    next => cases h
  next realPath hreal =>
    split at h
    next hbig => rwa [hreal]
    next =>
      split at h
      · cases h
      · cases h

/-- Where every path is found nothing is refused. -/
theorem not_refuses_of_lookup {os : Os Obj} (h : ∀ p, ∃ o, os.lookup p = some o)
    (e : Path × Typeflag) : refuses os e = false := by
  rw [refuses]
  split
  · next hfate =>
      unfold fate at hfate
      split at hfate
      · cases hfate
      split at hfate
      · split at hfate
        · cases hfate
        · cases hfate
      split at hfate
      · cases hfate
      next realPath _ _ =>
        obtain ⟨o, ho⟩ := h realPath
        rw [ho] at hfate
        cases hfate
  · rfl

/-- The entries before the first one refused. -/
def reached (os : Os Obj) (entries : List (Path × Typeflag)) : List (Path × Typeflag) :=
  entries.takeWhile fun e => !refuses os e

theorem reached_cons {os : Os Obj} {e : Path × Typeflag} (h : refuses os e = false)
    (entries : List (Path × Typeflag)) : reached os (e :: entries) = e :: reached os entries := by
  rw [reached, List.takeWhile_cons, h]
  rfl

theorem reached_cons_of_refuses {os : Os Obj} {e : Path × Typeflag} (h : refuses os e = true)
    (entries : List (Path × Typeflag)) : reached os (e :: entries) = [] := by
  rw [reached, List.takeWhile_cons, h]
  rfl

/-- Something is reached exactly if nothing up to it is refused. -/
theorem mem_reached_map_iff {α : Type} {os : Os Obj} {f : α → Path × Typeflag} {xs : List α}
    {e : Path × Typeflag} :
    e ∈ reached os (xs.map f) ↔ ∃ x before after, xs = before ++ x :: after ∧
      (∀ b ∈ before, refuses os (f b) = false) ∧ f x = e ∧ refuses os e = false := by
  induction xs with
  | nil => simp [reached]
  | cons y xs ih =>
      rw [List.map_cons]
      cases hy : refuses os (f y) with
      | true =>
          rw [reached_cons_of_refuses hy]
          refine iff_of_false List.not_mem_nil ?_
          intro hsome
          obtain ⟨x, before, after, heq, hbefore, rfl, hx⟩ := hsome
          cases before with
          | nil =>
              obtain ⟨rfl, -⟩ := List.cons.inj heq
              exact Bool.false_ne_true (hx.symm.trans hy)
          | cons b before =>
              obtain ⟨rfl, -⟩ := List.cons.inj heq
              exact Bool.false_ne_true ((hbefore y List.mem_cons_self).symm.trans hy)
      | false =>
          rw [reached_cons hy, List.mem_cons, ih]
          constructor
          · intro hor
            rcases hor with rfl | ⟨x, before, after, rfl, hbefore, hx⟩
            · exact ⟨y, [], xs, rfl, by simp, rfl, hy⟩
            · refine ⟨x, y :: before, after, rfl, fun b hb => ?_, hx⟩
              rcases List.mem_cons.mp hb with rfl | hb
              · exact hy
              · exact hbefore b hb
          · intro hsome
            obtain ⟨x, before, after, heq, hbefore, hx⟩ := hsome
            cases before with
            | nil =>
                obtain ⟨rfl, -⟩ := List.cons.inj heq
                exact .inl hx.1.symm
            | cons b before =>
                obtain ⟨rfl, hrest⟩ := List.cons.inj heq
                exact .inr ⟨x, before, after, hrest,
                  fun c hc => hbefore c (List.mem_cons_of_mem _ hc), hx⟩

variable [DecidableEq Obj]

/-- The watches once a directory has been added under a path. -/
def record (st : Watches Obj) (x : Path × Obj) : Watches Obj :=
  ⟨st.mgr.addList (st.inst.add x.2).1 x.1, (st.inst.add x.2).2⟩

theorem addWatch_refused {os : Os Obj} {path : Path} (h : os.lookup path = none)
    (st : Watches Obj) : addWatch os st path = (false, st) := by
  simp [addWatch, inotifyAddWatch, h, InotifyWatchMgr.addWatch]

/-- `FtwCallback` by the fate of its entry. -/
theorem ftwCallback_eq (os : Os Obj) (st : Watches Obj) (e : Path × Typeflag) :
    ftwCallback os false st e.1 e.2 =
      match fate os e with
      | .skipped => some (0, st)
      | .overflows => none
      | .refused => some (-1, st)
      | .watched path o => some (0, record st (path, o)) := by
  rw [ftwCallback, if_neg Bool.false_ne_true, fate]
  by_cases hdir : e.2 ≠ .ftwD
  · rw [if_pos hdir, if_pos hdir]
  rw [if_neg hdir, if_neg hdir]
  cases hreal : os.realpath e.1 with
  | error left =>
      dsimp only
      by_cases hbig : realPathSize < left.length + 1
      · rw [if_pos hbig, if_pos hbig]
      · rw [if_neg hbig, if_neg hbig]
  | ok realPath =>
      dsimp only
      by_cases hbig : realPathSize < realPath.length + 1
      · rw [if_pos hbig, if_pos hbig]
      rw [if_neg hbig, if_neg hbig]
      cases hlookup : os.lookup realPath with
      | none => simp [addWatch_refused hlookup]
      | some o => simp [addWatch_of_lookup hlookup, record]

/-- One `nftw`, by induction on the entries it reports. -/
theorem nftw_eq (os : Os Obj) (entries : List (Path × Typeflag)) (st : Watches Obj) :
    (nftw (ftwCallback os false) entries st).map Prod.snd =
      if (reached os entries).any (overruns os) then none
      else some (((reached os entries).filterMap (addition os)).foldl record st) := by
  induction entries generalizing st with
  | nil => rfl
  | cons e entries ih =>
      obtain ⟨fpath, typeflag⟩ := e
      have hcall := ftwCallback_eq os st (fpath, typeflag)
      rw [nftw]
      cases hfate : fate os (fpath, typeflag) with
      | skipped =>
          have hrefuses : refuses os (fpath, typeflag) = false := by rw [refuses, hfate]
          have hoverruns : overruns os (fpath, typeflag) = false := by rw [overruns, hfate]
          have hadds : addition os (fpath, typeflag) = none := by rw [addition, hfate]
          simp only [hfate] at hcall
          rw [hcall, reached_cons hrefuses, List.any_cons, hoverruns, Bool.false_or,
            List.filterMap_cons_none hadds]
          exact ih st
      | overflows =>
          have hrefuses : refuses os (fpath, typeflag) = false := by rw [refuses, hfate]
          have hoverruns : overruns os (fpath, typeflag) = true := by rw [overruns, hfate]
          simp only [hfate] at hcall
          rw [hcall, reached_cons hrefuses, List.any_cons, hoverruns, Bool.true_or, if_pos rfl]
          rfl
      | refused =>
          have hrefuses : refuses os (fpath, typeflag) = true := by rw [refuses, hfate]
          simp only [hfate] at hcall
          rw [hcall, reached_cons_of_refuses hrefuses]
          rfl
      | watched path o =>
          have hrefuses : refuses os (fpath, typeflag) = false := by rw [refuses, hfate]
          have hoverruns : overruns os (fpath, typeflag) = false := by rw [overruns, hfate]
          have hadds : addition os (fpath, typeflag) = some (path, o) := by rw [addition, hfate]
          simp only [hfate] at hcall
          rw [hcall, reached_cons hrefuses, List.any_cons, hoverruns, Bool.false_or,
            List.filterMap_cons_some hadds, List.foldl_cons]
          exact ih (record st (path, o))

/-! ### A walk while the file system changes -/

/-- `DirectoryTree` with the operating system as it is during each `nftw`. -/
def directoryTreeDuring (stopped : Bool) :
    List (Os Obj × Path) → Watches Obj → Option (Watches Obj)
  | [], st => some st
  | (os, root) :: roots, st =>
      match os.entries root with
      | none => directoryTreeDuring stopped roots st
      | some entries =>
          match nftw (ftwCallback os stopped) entries st with
          | none => none
          | some (_, st) => directoryTreeDuring stopped roots st

/-- In a file system that does not change it is `directoryTree`. -/
theorem directoryTreeDuring_static (os : Os Obj) (stopped : Bool) (roots : List Path)
    (st : Watches Obj) :
    directoryTreeDuring stopped (roots.map fun root => (os, root)) st =
      directoryTree os stopped roots st := by
  induction roots generalizing st with
  | nil => rfl
  | cons root roots ih =>
      rw [List.map_cons, directoryTreeDuring, directoryTree]
      cases os.entries root with
      | none => exact ih st
      | some entries =>
          dsimp only
          cases nftw (ftwCallback os stopped) entries st with
          | none => rfl
          | some x => exact ih x.2

omit [DecidableEq Obj] in
/-- The entries a root's `nftw` reports; none when it fails. -/
def entriesOf (call : Os Obj × Path) : List (Path × Typeflag) :=
  (call.1.entries call.2).getD []

omit [DecidableEq Obj] in
/-- The watches a root's `nftw` adds. -/
def additions (call : Os Obj × Path) : List (Path × Obj) :=
  (reached call.1 (entriesOf call)).filterMap (addition call.1)

/-- The walk, by induction on its roots. -/
theorem directoryTreeDuring_eq (calls : List (Os Obj × Path)) (st : Watches Obj) :
    directoryTreeDuring false calls st =
      if calls.any (fun c => (reached c.1 (entriesOf c)).any (overruns c.1)) then none
      else some ((calls.flatMap additions).foldl record st) := by
  induction calls generalizing st with
  | nil => rfl
  | cons call calls ih =>
      obtain ⟨os, root⟩ := call
      have hnftw := nftw_eq os (entriesOf (os, root)) st
      rw [directoryTreeDuring, List.any_cons, List.flatMap_cons, List.foldl_append]
      cases hentries : os.entries root with
      | none =>
          have hnone : entriesOf (os, root) = [] := by rw [entriesOf, hentries, Option.getD_none]
          rw [additions, hnone]
          exact ih st
      | some entries =>
          have hsome : entriesOf (os, root) = entries := by
            rw [entriesOf, hentries, Option.getD_some]
          rw [hsome] at hnftw
          dsimp only
          cases hresult : nftw (ftwCallback os false) entries st with
          | none =>
              rw [hresult, Option.map_none] at hnftw
              split at hnftw
              · next hover => simp [hsome, hover]
              · exact absurd hnftw nofun
          | some x =>
              rw [hresult, Option.map_some] at hnftw
              split at hnftw
              · exact absurd hnftw nofun
              · next hover =>
                  rw [Option.some.injEq] at hnftw
                  dsimp only
                  rw [ih, hsome, Bool.eq_false_iff.mpr hover, Bool.false_or, hnftw, additions,
                    hsome]

/-! ### What has been recorded -/

/-- What a list of additions to the watches `st₀` leaves: each directory's watch has
its path, and the map holds nothing else that is new. -/
structure Recorded (st₀ : Watches Obj) (adds : List (Path × Obj)) (st : Watches Obj) : Prop where
  stored : ∀ p o, (p, o) ∈ adds →
    ∃ w, st.inst.wdOf o = some w ∧ st.mgr.fdPathMappingList w = some p
  nothing_else : ∀ w p, st.mgr.fdPathMappingList w = some p →
    st₀.mgr.fdPathMappingList w = some p ∨ ∃ o, (p, o) ∈ adds ∧ st.inst.wdOf o = some w

/-- As long as no directory is added under two paths, all additions are recorded, by
induction on the last one. -/
theorem recorded_foldl (st : Watches Obj) {adds : List (Path × Obj)}
    (hone : ∀ p p' o, (p, o) ∈ adds → (p', o) ∈ adds → p = p') :
    Recorded st adds (adds.foldl record st) := by
  induction adds using List.reverseRecOn with
  | nil => exact ⟨fun p o h => absurd h List.not_mem_nil, fun w p h => .inl h⟩
  | append_singleton adds x ih =>
      obtain ⟨path, o⟩ := x
      have hbefore := ih fun p p' o' h h' =>
        hone p p' o' (List.mem_append_left _ h) (List.mem_append_left _ h')
      rw [List.foldl_append, List.foldl_cons, List.foldl_nil]
      generalize adds.foldl record st = st₁ at hbefore
      have hself : (record st₁ (path, o)).inst.wdOf o = some (st₁.inst.add o).1 :=
        st₁.inst.add_wdOf_self o
      refine ⟨fun p o' hmem => ?_, fun w p hw => ?_⟩
      · by_cases hoo : o' = o
        · subst hoo
          refine ⟨(st₁.inst.add o').1, hself, ?_⟩
          rw [hone p path o' hmem (by simp)]
          show (st₁.mgr.addList _ path).fdPathMappingList _ = some path
          rw [InotifyWatchMgr.addList_apply, if_pos rfl]
        · have hold : (p, o') ∈ adds := by simpa [hoo] using hmem
          obtain ⟨w, hwd, hmap⟩ := hbefore.stored p o' hold
          have hkept : (record st₁ (path, o)).inst.wdOf o' = some w :=
            st₁.inst.add_wdOf_of_watched o hwd
          have hne : w ≠ (st₁.inst.add o).1 := by
            intro heq
            subst heq
            exact hoo ((record st₁ (path, o)).inst.wdOf_injective _ _ _ hkept hself)
          refine ⟨w, hkept, ?_⟩
          show (st₁.mgr.addList _ path).fdPathMappingList w = some p
          rw [InotifyWatchMgr.addList_apply, if_neg hne, hmap]
      · replace hw : (st₁.mgr.addList (st₁.inst.add o).1 path).fdPathMappingList w = some p := hw
        rw [InotifyWatchMgr.addList_apply] at hw
        by_cases hnew : w = (st₁.inst.add o).1
        · rw [if_pos hnew, Option.some.injEq] at hw
          subst hw hnew
          exact .inr ⟨o, by simp, hself⟩
        · rw [if_neg hnew] at hw
          rcases hbefore.nothing_else w p hw with hold | ⟨o', hmem, hwd⟩
          · exact .inl hold
          · exact .inr ⟨o', List.mem_append_left _ hmem, st₁.inst.add_wdOf_of_watched o hwd⟩

/-! ### The tree that is walked -/

/-- The walk of one root: the operating system while its `nftw` runs, the root's path
name and its location, the names `nftw` gives to what lies below, and what it visits. -/
structure RootWalk (Obj : Type) where
  os : Os Obj
  root : Path
  base : List Name
  pathname : List Name → Path
  visits : List (List Name × FileTree Obj Leaf)

namespace RootWalk

omit [DecidableEq Obj]

def call (w : RootWalk Obj) : Os Obj × Path := (w.os, w.root)

/-- How a visit is reported. -/
def entry (w : RootWalk Obj) (v : List Name × FileTree Obj Leaf) : Path × Typeflag :=
  (w.pathname v.1, typeflagOf v.2)

/-- What `nftw` reports is there; the path `realpath` gives a directory is its
canonical path, and `inotify_add_watch` finds no other directory under it. Either may
fail, and nothing is said of what `realpath` writes then. -/
structure Sees (w : RootWalk Obj) (t : FileTree Obj Leaf) : Prop where
  entries : w.os.entries w.root = some (reported w.pathname w.visits)
  located : ∀ v ∈ w.visits, Located t (w.base ++ v.1) v.2
  realpath : ∀ r o e p, (r, FileTree.dir o e) ∈ w.visits →
    w.os.realpath (w.pathname r) = .ok p → p = canonical (w.base ++ r)
  lookup : ∀ r o e o', (r, FileTree.dir o e) ∈ w.visits →
    w.os.lookup (canonical (w.base ++ r)) = some o' → o' = o

/-- `nftw` calls back for this visit: nothing before it was refused. -/
def ComesTo (w : RootWalk Obj) (v : List Name × FileTree Obj Leaf) : Prop :=
  ∃ before after, w.visits = before ++ v :: after ∧
    ∀ b ∈ before, refuses w.os (w.entry b) = false

variable {w : RootWalk Obj} {t : FileTree Obj Leaf}

theorem ComesTo.mem {v : List Name × FileTree Obj Leaf} (h : w.ComesTo v) : v ∈ w.visits := by
  obtain ⟨before, after, heq, -⟩ := h
  rw [heq]
  exact List.mem_append_right _ List.mem_cons_self

/-- Where nothing is refused the walk comes to everything it visits. -/
theorem comesTo_of_mem (h : ∀ b ∈ w.visits, refuses w.os (w.entry b) = false)
    {v : List Name × FileTree Obj Leaf} (hv : v ∈ w.visits) : w.ComesTo v := by
  obtain ⟨before, after, heq⟩ := List.append_of_mem hv
  refine ⟨before, after, heq, fun b hb => h b ?_⟩
  rw [heq]
  exact List.mem_append_left _ hb

theorem Sees.entriesOf (h : w.Sees t) : entriesOf w.call = w.visits.map w.entry := by
  show (w.os.entries w.root).getD [] = _
  rw [h.entries, Option.getD_some]
  rfl

/-- The entries reached are the visits the walk comes to and that are not refused. -/
theorem Sees.mem_reached_iff (h : w.Sees t) (e : Path × Typeflag) :
    e ∈ reached w.os (InotifyRealtime.entriesOf w.call) ↔
      ∃ v, w.ComesTo v ∧ w.entry v = e ∧ refuses w.os e = false := by
  rw [h.entriesOf, mem_reached_map_iff]
  constructor
  · intro hsome
    obtain ⟨v, before, after, heq, hbefore, hv⟩ := hsome
    exact ⟨v, ⟨before, after, heq, hbefore⟩, hv⟩
  · intro hsome
    obtain ⟨v, ⟨before, after, heq, hbefore⟩, hv⟩ := hsome
    exact ⟨v, before, after, heq, hbefore, hv⟩

/-- A leaf is skipped. -/
theorem fate_leaf (w : RootWalk Obj) (r : List Name) (k : Leaf) :
    fate w.os (w.entry (r, .leaf k)) = .skipped := by
  have hleaf : typeflagOf (.leaf k : FileTree Obj Leaf) ≠ .ftwD := by
    cases k with
    | file => exact Typeflag.noConfusion
    | symlink => exact Typeflag.noConfusion
  rw [fate, entry, if_pos hleaf]

/-- The fate of a directory, by what the operating system answers. -/
theorem fate_dir (w : RootWalk Obj) (r : List Name) (o : Obj)
    (es : List (Name × FileTree Obj Leaf)) :
    fate w.os (w.entry (r, .dir o es)) =
      match w.os.realpath (w.pathname r) with
      | .error left => if realPathSize < left.length + 1 then .overflows else .skipped
      | .ok p =>
          if realPathSize < p.length + 1 then .overflows
          else
            match w.os.lookup p with
            | none => .refused
            | some o' => .watched p o' := by
  have hdir : ¬ typeflagOf (.dir o es : FileTree Obj Leaf) ≠ .ftwD := not_not_intro rfl
  exact if_neg hdir

/-- A directory overruns `real_path` by what `realpath` writes about it. -/
theorem fate_dir_overflows_iff (w : RootWalk Obj) (r : List Name) (o : Obj)
    (es : List (Name × FileTree Obj Leaf)) :
    fate w.os (w.entry (r, .dir o es)) = .overflows ↔
      realPathSize < (written (w.os.realpath (w.pathname r))).length + 1 := by
  refine ⟨fate_eq_overflows, fun hbig => ?_⟩
  rw [fate_dir]
  cases hreal : w.os.realpath (w.pathname r) with
  | error left =>
      rw [hreal] at hbig
      exact if_pos hbig
  | ok p =>
      rw [hreal] at hbig
      exact if_pos hbig

/-- An addition is a directory the walk comes to, under its canonical path. -/
theorem Sees.mem_additions_iff (h : w.Sees t) (p : Path) (o : Obj) :
    (p, o) ∈ additions w.call ↔ ∃ r es, w.ComesTo (r, .dir o es) ∧ p = canonical (w.base ++ r) ∧
      fate w.os (w.entry (r, .dir o es)) = .watched p o := by
  rw [additions, List.mem_filterMap]
  constructor
  · intro hsome
    obtain ⟨e, he, hadd⟩ := hsome
    obtain ⟨⟨r, x⟩, hcomes, rfl, -⟩ := (h.mem_reached_iff e).mp he
    have hwatched : fate w.os (w.entry (r, x)) = .watched p o := addition_eq_some_iff.mp hadd
    cases x with
    | leaf k =>
        rw [fate_leaf] at hwatched
        cases hwatched
    | dir o' es =>
        obtain ⟨hreal, -, hlookup⟩ := fate_eq_watched hwatched
        have hp := h.realpath r o' es p hcomes.mem hreal
        rw [hp] at hlookup
        obtain rfl := h.lookup r o' es o hcomes.mem hlookup
        exact ⟨r, es, hcomes, hp, hwatched⟩
  · intro hsome
    obtain ⟨r, es, hcomes, -, hwatched⟩ := hsome
    refine ⟨w.entry (r, .dir o es), (h.mem_reached_iff _).mpr ⟨_, hcomes, rfl, ?_⟩,
      addition_eq_some_iff.mpr hwatched⟩
    rw [refuses, hwatched]

/-- Some visit of the walk overruns `real_path`. -/
theorem Sees.any_overruns_iff (h : w.Sees t) :
    (reached w.os (InotifyRealtime.entriesOf w.call)).any (overruns w.os) = true ↔
      ∃ r o es, w.ComesTo (r, .dir o es) ∧
        realPathSize < (written (w.os.realpath (w.pathname r))).length + 1 := by
  rw [List.any_eq_true]
  constructor
  · intro hsome
    obtain ⟨e, he, hover⟩ := hsome
    obtain ⟨⟨r, x⟩, hcomes, rfl, -⟩ := (h.mem_reached_iff e).mp he
    have hfate := overruns_iff.mp hover
    cases x with
    | leaf k =>
        rw [fate_leaf] at hfate
        cases hfate
    | dir o es => exact ⟨r, o, es, hcomes, (fate_dir_overflows_iff w r o es).mp hfate⟩
  · intro hsome
    obtain ⟨r, o, es, hcomes, hbig⟩ := hsome
    have hfate := (fate_dir_overflows_iff w r o es).mpr hbig
    refine ⟨w.entry (r, .dir o es), (h.mem_reached_iff _).mpr ⟨_, hcomes, rfl, ?_⟩,
      overruns_iff.mpr hfate⟩
    rw [refuses, hfate]

/-- What `realpath` writes about the directories the walk comes to fits in
`real_path`, whether it resolves them or not. -/
def Fits (w : RootWalk Obj) : Prop :=
  ∀ r o es, w.ComesTo (r, .dir o es) →
    (written (w.os.realpath (w.pathname r))).length + 1 ≤ realPathSize

theorem Sees.fits_iff (h : w.Sees t) :
    w.Fits ↔ (reached w.os (InotifyRealtime.entriesOf w.call)).any (overruns w.os) = false := by
  rw [← Bool.not_eq_true, h.any_overruns_iff]
  constructor
  · intro hfits hsome
    obtain ⟨r, o, es, hcomes, hbig⟩ := hsome
    exact absurd (hfits r o es hcomes) (Nat.not_le.mpr hbig)
  · intro hnone r o es hcomes
    by_contra hbig
    exact hnone ⟨r, o, es, hcomes, Nat.lt_of_not_le hbig⟩

/-- What some walks add. -/
def allAdditions (walks : List (RootWalk Obj)) : List (Path × Obj) :=
  (walks.map call).flatMap additions

theorem mem_allAdditions_iff {walks : List (RootWalk Obj)} (h : ∀ w ∈ walks, w.Sees t) (p : Path)
    (o : Obj) :
    (p, o) ∈ allAdditions walks ↔ ∃ w ∈ walks, ∃ r es, w.ComesTo (r, .dir o es) ∧
      p = canonical (w.base ++ r) ∧ fate w.os (w.entry (r, .dir o es)) = .watched p o := by
  simp only [allAdditions, List.mem_flatMap, List.mem_map]
  constructor
  · intro hsome
    obtain ⟨c, ⟨w, hw, rfl⟩, hmem⟩ := hsome
    exact ⟨w, hw, ((h w hw).mem_additions_iff p o).mp hmem⟩
  · intro hsome
    obtain ⟨w, hw, hmem⟩ := hsome
    exact ⟨w.call, ⟨w, hw, rfl⟩, ((h w hw).mem_additions_iff p o).mpr hmem⟩

variable [DecidableEq Obj]

/-- Walks have an outcome exactly if nothing `realpath` writes overruns `real_path`, and
then it is what they add. -/
theorem directoryTreeDuring_iff {walks : List (RootWalk Obj)} (h : ∀ w ∈ walks, w.Sees t)
    (st st' : Watches Obj) :
    directoryTreeDuring false (walks.map call) st = some st' ↔
      (∀ w ∈ walks, w.Fits) ∧ st' = (allAdditions walks).foldl record st := by
  have hfits : (∀ w ∈ walks, w.Fits) ↔ ¬ ((walks.map call).any fun c =>
      (reached c.1 (InotifyRealtime.entriesOf c)).any (overruns c.1)) = true := by
    rw [List.any_map, List.any_eq_true]
    constructor
    · intro hall hsome
      obtain ⟨w, hw, hover⟩ := hsome
      exact Bool.false_ne_true (((h w hw).fits_iff.mp (hall w hw)).symm.trans hover)
    · intro hnone w hw
      refine (h w hw).fits_iff.mpr (Bool.eq_false_iff.mpr fun hover => ?_)
      exact hnone ⟨w, hw, hover⟩
  rw [directoryTreeDuring_eq, hfits]
  by_cases hover : ((walks.map call).any fun c =>
      (reached c.1 (InotifyRealtime.entriesOf c)).any (overruns c.1)) = true
  · rw [if_pos hover]
    exact iff_of_false nofun fun hand => hand.1 hover
  · rw [if_neg hover, Option.some.injEq]
    exact ⟨fun heq => ⟨hover, heq.symm⟩, fun hand => hand.2.symm⟩

/-- What the walks add is recorded, as a directory has one canonical path. -/
theorem recorded_allAdditions {walks : List (RootWalk Obj)}
    (hone : ∀ l l' o, t.DirAt l o → t.DirAt l' o → l = l') (h : ∀ w ∈ walks, w.Sees t)
    (st : Watches Obj) :
    Recorded st (allAdditions walks) ((allAdditions walks).foldl record st) := by
  refine recorded_foldl st fun p p' o hp hp' => ?_
  obtain ⟨w, hw, r, es, hcomes, rfl, -⟩ := (mem_allAdditions_iff h p o).mp hp
  obtain ⟨w', hw', r', es', hcomes', rfl, -⟩ := (mem_allAdditions_iff h p' o).mp hp'
  have hdir : t.DirAt (w.base ++ r) o := ⟨es, (h w hw).located _ hcomes.mem⟩
  have hdir' : t.DirAt (w'.base ++ r') o := ⟨es', (h w' hw').located _ hcomes'.mem⟩
  rw [hone _ _ o hdir hdir']

omit [DecidableEq Obj] in
/-- What fits and is resolved and found is watched. -/
theorem Fits.fate_eq_watched (h : w.Fits) {r : List Name} {o o' : Obj}
    {es : List (Name × FileTree Obj Leaf)} {p : Path} (hcomes : w.ComesTo (r, .dir o es))
    (hreal : w.os.realpath (w.pathname r) = .ok p) (hlookup : w.os.lookup p = some o') :
    fate w.os (w.entry (r, .dir o es)) = .watched p o' := by
  have hfit : ¬ realPathSize < p.length + 1 := by
    have hwritten := h r o es hcomes
    rw [hreal] at hwritten
    exact Nat.not_lt.mpr hwritten
  simp only [fate_dir, hreal, if_neg hfit, hlookup]

/-- Walks in which everything fits store each directory they come to that is resolved and
found, under its canonical path. -/
theorem stored_of_fits {walks : List (RootWalk Obj)}
    (hone : ∀ l l' o, t.DirAt l o → t.DirAt l' o → l = l') (h : ∀ w ∈ walks, w.Sees t)
    (hfits : ∀ w ∈ walks, w.Fits) (st : Watches Obj) (hw : w ∈ walks) {r : List Name} {o : Obj}
    {es : List (Name × FileTree Obj Leaf)} {p : Path} (hcomes : w.ComesTo (r, .dir o es))
    (hreal : w.os.realpath (w.pathname r) = .ok p) (hlookup : w.os.lookup p = some o) :
    ∃ wd, ((allAdditions walks).foldl record st).inst.wdOf o = some wd ∧
      ((allAdditions walks).foldl record st).mgr.fdPathMappingList wd =
        some (canonical (w.base ++ r)) := by
  have hfate := (hfits w hw).fate_eq_watched hcomes hreal hlookup
  have hp := (h w hw).realpath r o es p hcomes.mem hreal
  rw [← hp]
  exact (recorded_allAdditions hone h st).stored p o
    ((mem_allAdditions_iff h p o).mpr ⟨w, hw, r, es, hcomes, hp, hfate⟩)

end RootWalk

end InotifyRealtime
