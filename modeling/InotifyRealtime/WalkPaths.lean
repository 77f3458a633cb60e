import InotifyRealtime.WalkFates
/-!
# InotifyRealtime.WalkPaths

Canonical paths on their way through `FtwCallback`.

`realpath` writes the path and a NUL into `real_path`, and `target_path` is the C
string read back from there. `targetPath` does that with the bytes of the array, and
`ftwCallback` is the callback with it (`ftwCallback_targetPath`).

`real_path` has 1024 bytes, and a path may have 4095. How long a path gets is decided
by how deep the tree is and how long its names are: `paths_fit_iff` says that every
path survives exactly if the walk comes to no directory with a longer one, and that
the walk as a whole is defined exactly if the paths `realpath` leaves there when it
fails fit as well.
-/

namespace InotifyRealtime

open Bytes Location FileTree

variable {Obj : Type}

/-- The array `real_path` once `realpath` has succeeded; `none` when the path and its
NUL are written past its end. -/
def realPathArray (realPath : Path) : Option (List Byte) :=
  if realPathSize < realPath.length + 1 then none
  else some (realPath ++ List.replicate (realPathSize - realPath.length) 0#8)

/-- `std::string target_path(real_path)`. -/
def targetPath (realPath : Path) : Option Path := (realPathArray realPath).bind cString

theorem realPathArray_length {realPath : Path} {bs : List Byte}
    (h : realPathArray realPath = some bs) : bs.length = realPathSize := by
  unfold realPathArray at h
  split at h
  · exact absurd h nofun
  · rw [Option.some.injEq] at h
    rw [← h, List.length_append, List.length_replicate]
    omega

/-- A path that fits is read back whole. -/
theorem targetPath_of_fits {realPath : Path} (hnul : 0#8 ∉ realPath)
    (h : realPath.length + 1 ≤ realPathSize) : targetPath realPath = some realPath := by
  have hrest : List.replicate (realPathSize - realPath.length) 0#8 =
      0#8 :: List.replicate (realPathSize - realPath.length - 1) 0#8 := by
    rw [← List.replicate_succ]
    congr 1
    omega
  rw [targetPath, realPathArray, if_neg (Nat.not_lt.mpr h), Option.bind_some, hrest,
    cString_terminated hnul]

theorem targetPath_of_not_fits {realPath : Path} (h : realPathSize < realPath.length + 1) :
    targetPath realPath = none := by
  rw [targetPath, realPathArray, if_pos h, Option.bind_none]

/-- `ftwCallback` passes on what `target_path` reads back. -/
theorem ftwCallback_targetPath [DecidableEq Obj] {os : Os Obj} {fpath realPath : Path}
    (hreal : os.realpath fpath = .ok realPath) (hnul : 0#8 ∉ realPath) (st : Watches Obj) :
    ftwCallback os false st fpath .ftwD = (targetPath realPath).map fun target =>
      (if (addWatch os st target).1 then 0 else -1, (addWatch os st target).2) := by
  simp only [ftwCallback, Bool.false_eq_true, if_false, ne_eq, not_true_eq_false, hreal]
  by_cases hbig : realPathSize < realPath.length + 1
  · rw [if_pos hbig, targetPath_of_not_fits hbig, Option.map_none]
  · rw [if_neg hbig, targetPath_of_fits hnul (Nat.le_of_not_lt hbig), Option.map_some]

theorem nul_not_mem_spelled (l : List Name) : 0#8 ∉ spelled l := by
  induction l with
  | nil => exact List.not_mem_nil
  | cons n l ih =>
      rw [spelled, List.mem_cons, List.mem_append]
      intro h
      rcases h with h | h | h
      · exact absurd h (by decide)
      · exact n.no_nul h
      · exact ih h

theorem nul_not_mem_canonical (l : List Name) : 0#8 ∉ canonical l := by
  unfold canonical
  by_cases hl : l = []
  · rw [if_pos hl]
    decide
  · rw [if_neg hl]
    exact nul_not_mem_spelled l

/-! ### Every path, whole -/

variable {t : FileTree Obj Leaf}

variable [DecidableEq Obj]

/-- Each directory the walks come to and `realpath` resolves has its whole canonical
path handed to `AddWatch`, and in what comes of the walks it is stored under the
directory's watch, if it is given one. -/
structure PathsWhole (walks : List (RootWalk Obj)) (st : Watches Obj) : Prop where
  passed : ∀ w ∈ walks, ∀ r o es p, w.ComesTo (r, .dir o es) →
    w.os.realpath (w.pathname r) = .ok p → targetPath p = some (canonical (w.base ++ r))
  stored : ∀ st', directoryTreeDuring false (walks.map RootWalk.call) st = some st' →
    ∀ w ∈ walks, ∀ r o es p, w.ComesTo (r, .dir o es) →
      w.os.realpath (w.pathname r) = .ok p → w.os.lookup p = some o →
      ∃ wd, st'.inst.wdOf o = some wd ∧
        st'.mgr.fdPathMappingList wd = some (canonical (w.base ++ r))

/-- A path that is handed on fits. -/
theorem PathsWhole.fits {walks : List (RootWalk Obj)} {st : Watches Obj}
    (h : PathsWhole walks st) {w : RootWalk Obj} (hw : w ∈ walks) {r : List Name} {o : Obj}
    {es : List (Name × FileTree Obj Leaf)} {p : Path} (hcomes : w.ComesTo (r, .dir o es))
    (hreal : w.os.realpath (w.pathname r) = .ok p) : p.length + 1 ≤ realPathSize := by
  by_contra hbig
  have hpassed := h.passed w hw r o es p hcomes hreal
  rw [targetPath_of_not_fits (Nat.lt_of_not_le hbig)] at hpassed
  exact absurd hpassed nofun

/-- **When canonical paths fit their buffer.** A walk of any roots in any tree hands on
and stores every canonical path whole if and only if each path `realpath` gives for a
directory the walk comes to is shorter than 1024 bytes. It has a defined outcome if and
only if that is so of each path `realpath` writes, those it does not resolve
included. -/
theorem paths_fit_iff {walks : List (RootWalk Obj)}
    (hone : ∀ l l' o, t.DirAt l o → t.DirAt l' o → l = l') (hsees : ∀ w ∈ walks, w.Sees t)
    (st : Watches Obj) :
    (PathsWhole walks st ↔
      ∀ w ∈ walks, ∀ r o es p, w.ComesTo (r, .dir o es) →
        w.os.realpath (w.pathname r) = .ok p → p.length < 1024) ∧
    ((∃ st', directoryTreeDuring false (walks.map RootWalk.call) st = some st') ↔
      ∀ w ∈ walks, ∀ r o es, w.ComesTo (r, .dir o es) →
        (written (w.os.realpath (w.pathname r))).length < 1024) := by
  refine ⟨⟨?_, ?_⟩, ?_, ?_⟩
  · intro h w hw r o es p hcomes hreal
    exact h.fits hw hcomes hreal
  · intro hshort
    refine ⟨fun w hw r o es p hcomes hreal => ?_, fun st' hwalk w hw r o es p => ?_⟩
    · have hp := (hsees w hw).realpath r o es p hcomes.mem hreal
      rw [targetPath_of_fits (hp ▸ nul_not_mem_canonical _) (hshort w hw r o es p hcomes hreal),
        hp]
    · obtain ⟨hfits, rfl⟩ := (RootWalk.directoryTreeDuring_iff hsees st st').mp hwalk
      exact RootWalk.stored_of_fits hone hsees hfits st hw
  · intro h
    obtain ⟨st', hwalk⟩ := h
    exact ((RootWalk.directoryTreeDuring_iff hsees st st').mp hwalk).1
  · intro hshort
    exact ⟨_, (RootWalk.directoryTreeDuring_iff hsees st _).mpr ⟨hshort, rfl⟩⟩

/-! ### Four long names deep -/

theorem spelled_length (l : List Name) :
    (spelled l).length = (l.map fun n => n.bytes.length + 1).sum := by
  induction l with
  | nil => rfl
  | cons n l ih =>
      rw [spelled, List.length_cons, List.length_append, ih, List.map_cons, List.sum_cons]
      omega

/-- A name of 255 bytes, the longest a file system admits. -/
def longName : Name where
  bytes := List.replicate 255 0x6c#8
  ne_nil h := by
    have hlength := congrArg List.length h
    rw [List.length_replicate] at hlength
    exact absurd hlength (by decide)
  no_slash h := absurd (List.eq_of_mem_replicate h) (by decide)
  no_nul h := absurd (List.eq_of_mem_replicate h) (by decide)

/-- Directories of that name inside one another; the identity counts those below. -/
def chain : Nat → FileTree Nat Leaf
  | 0 => .dir 0 []
  | depth + 1 => .dir (depth + 1) [(longName, chain depth)]

theorem canonical_chain_length (depth : Nat) :
    (canonical (List.replicate (depth + 1) longName)).length = 256 * (depth + 1) := by
  have hne : List.replicate (depth + 1) longName ≠ [] := by simp
  have hname : longName.bytes.length = 255 := List.length_replicate
  rw [canonical, if_neg hne, spelled_length, List.map_replicate, List.sum_replicate, hname,
    smul_eq_mul, Nat.mul_comm]

theorem located_chain {depth o : Nat} {l : List Name} {es : List (Name × FileTree Nat Leaf)}
    (h : Located (chain depth) l (.dir o es)) :
    l = List.replicate (depth - o) longName ∧ o ≤ depth := by
  induction depth generalizing l with
  | zero =>
      cases h with
      | here => exact ⟨rfl, Nat.le_refl 0⟩
      | entry hmem => exact absurd hmem List.not_mem_nil
  | succ depth ih =>
      cases h with
      | here => exact ⟨by rw [Nat.sub_self]; rfl, Nat.le_refl _⟩
      | entry hmem hrest =>
          obtain ⟨rfl, rfl⟩ := Prod.mk.inj (List.mem_singleton.mp hmem)
          obtain ⟨hl, ho⟩ := ih hrest
          refine ⟨?_, Nat.le_succ_of_le ho⟩
          rw [hl, Nat.succ_sub ho, List.replicate_succ]

theorem located_chain_end (depth : Nat) :
    Located (chain depth) (List.replicate depth longName) (.dir 0 []) := by
  induction depth with
  | zero => exact .here _
  | succ depth ih =>
      rw [List.replicate_succ, chain]
      exact .entry List.mem_cons_self ih

/-- The walk of a chain from the root directory. Nothing fails but a `realpath` with a
result of more than 4095 bytes. -/
def chainWalk (depth : Nat) : RootWalk Nat where
  os :=
    { entries := fun p =>
        if p = [slash] then some (reported canonical (preorder [] (chain depth))) else none
      realpath := fun p => if p.length < 4096 then .ok p else .error []
      lookup := fun p => some (depth - p.length / 256) }
  root := [slash]
  base := []
  pathname := canonical
  visits := preorder [] (chain depth)

theorem realpath_chainWalk (depth : Nat) {p : Path} (h : p.length < 4096) :
    (chainWalk depth).os.realpath p = .ok p := if_pos h

theorem sees_chainWalk (depth : Nat) : (chainWalk depth).Sees (chain depth) where
  entries := by simp [chainWalk]
  located v hv := mem_preorder_iff.mp hv
  realpath r o es p _ hp := by
    simp only [chainWalk] at hp
    split at hp
    · exact (Except.ok.inj hp).symm
    · exact absurd hp nofun
  lookup r o es o' hmem ho' := by
    obtain ⟨hl, ho⟩ := located_chain (mem_preorder_iff.mp hmem)
    rw [← Option.some.inj ho']
    show depth - (canonical ([] ++ r)).length / 256 = o
    rw [List.nil_append, hl]
    cases hd : depth - o with
    | zero =>
        show depth - 0 = o
        omega
    | succ d =>
        rw [canonical_chain_length, Nat.mul_div_cancel_left _ (by decide)]
        omega

theorem comesTo_chainWalk {depth : Nat} {v : List Name × FileTree Nat Leaf}
    (hv : v ∈ preorder [] (chain depth)) : (chainWalk depth).ComesTo v :=
  RootWalk.comesTo_of_mem (fun _ _ => not_refuses_of_lookup (fun _ => ⟨_, rfl⟩) _) hv

theorem one_location_chain {depth o : Nat} {l l' : List Name} (h : (chain depth).DirAt l o)
    (h' : (chain depth).DirAt l' o) : l = l' := by
  obtain ⟨es, hes⟩ := h
  obtain ⟨es', hes'⟩ := h'
  rw [(located_chain hes).1, (located_chain hes').1]

/-- One directory of a long name in the root directory: its path has 256 bytes. -/
theorem paths_fit_chain :
    PathsWhole [chainWalk 1] ⟨.new, .fresh⟩ ∧
      ∃ st', directoryTreeDuring false [(chainWalk 1).call] ⟨.new, .fresh⟩ = some st' := by
  have hsees : ∀ w ∈ [chainWalk 1], w.Sees (chain 1) := by
    intro w hw
    rw [List.mem_singleton.mp hw]
    exact sees_chainWalk 1
  have hwritten : ∀ w ∈ [chainWalk 1], ∀ r o es, w.ComesTo (r, .dir o es) →
      (written (w.os.realpath (w.pathname r))).length < 1024 := by
    intro w hw r o es hcomes
    obtain rfl := List.mem_singleton.mp hw
    obtain ⟨hl, -⟩ := located_chain (mem_preorder_iff.mp hcomes.mem)
    have hdepth : 1 - o = 0 ∨ 1 - o = 0 + 1 := by omega
    have hshort : (canonical r).length < 1024 := by
      rw [hl]
      rcases hdepth with hd | hd
      · rw [hd]
        decide
      · rw [hd, canonical_chain_length]
        decide
    show (written ((chainWalk 1).os.realpath (canonical r))).length < 1024
    rw [realpath_chainWalk 1 (Nat.lt_trans hshort (by decide))]
    exact hshort
  have hiff := paths_fit_iff (fun l l' o => one_location_chain) hsees ⟨.new, .fresh⟩
  refine ⟨hiff.1.mpr fun w hw r o es p hcomes hreal => ?_, hiff.2.mpr hwritten⟩
  have hshort := hwritten w hw r o es hcomes
  rwa [hreal] at hshort

/-- Four directories of long names inside one another: the last path has 1024 bytes. -/
theorem long_path_overruns :
    ¬ ∀ (t : FileTree Nat Leaf) (walks : List (RootWalk Nat)) (st : Watches Nat),
      (∀ l l' o, t.DirAt l o → t.DirAt l' o → l = l') → (∀ w ∈ walks, w.Sees t) →
      (∀ w ∈ walks, ∀ fpath, (written (w.os.realpath fpath)).length ≤ 4095) →
      PathsWhole walks st := by
  intro h
  have hsees : ∀ w ∈ [chainWalk 4], w.Sees (chain 4) := by
    intro w hw
    rw [List.mem_singleton.mp hw]
    exact sees_chainWalk 4
  have hbounded : ∀ w ∈ [chainWalk 4], ∀ fpath,
      (written (w.os.realpath fpath)).length ≤ 4095 := by
    intro w hw fpath
    rw [List.mem_singleton.mp hw]
    show (written (if fpath.length < 4096 then .ok fpath else .error [])).length ≤ 4095
    split
    next hlong => exact Nat.le_of_lt_succ hlong
    next => exact Nat.zero_le _
  have hwhole :=
    h (chain 4) [chainWalk 4] ⟨.new, .fresh⟩ (fun l l' o => one_location_chain) hsees hbounded
  have hlength : (canonical (List.replicate 4 longName)).length = 1024 := canonical_chain_length 3
  have hreal : (chainWalk 4).os.realpath (canonical (List.replicate 4 longName)) =
      .ok (canonical (List.replicate 4 longName)) :=
    realpath_chainWalk 4 (by omega)
  have hfits := hwhole.fits List.mem_cons_self
    (comesTo_chainWalk (mem_preorder_iff.mpr (located_chain_end 4))) hreal
  rw [hlength] at hfits
  exact absurd hfits (by decide)

end InotifyRealtime
