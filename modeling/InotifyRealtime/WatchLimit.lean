import InotifyRealtime.Foundation.Firsts
import InotifyRealtime.Vanishing
/-!
# InotifyRealtime.WatchLimit

The walk where the **number of watches is limited**.

A user may have so many inotify watches. When there is no room `inotify_add_watch`
answers -1 for a directory that is not watched yet; for one that is watched it answers
the number it has, as ever. `FtwCallback` then prints "out of buffer size" and returns
-1, which ends the `nftw` of this root. `DirectoryTree` goes on with the next root, and
its first new directory ends that `nftw` too.

So what is refused depends on the watches there are, which `Os.upTo` adds to what an
operating system answers. `Holds` says which directories an instance watches, in the
order of their numbers. The walk with the limit then holds the front of what the walk
without it holds (`walk_up_to_limit`).
-/

namespace InotifyRealtime

open Bytes Location FileTree Firsts

variable {Obj : Type}

/-- There is room for the directory among `limit` watches: it has one, or one is left. An
instance that lost no watch has as many as there are numbers below `next`. -/
def Inotify.hasRoom (inst : Inotify Obj) (limit : Nat) (o : Obj) : Bool :=
  (inst.wdOf o).isSome || inst.next ≤ limit

/-- The operating system when the instance may have `limit` watches. -/
def Os.upTo (os : Os Obj) (limit : Nat) (inst : Inotify Obj) : Os Obj :=
  { os with lookup := fun path => (os.lookup path).filter (inst.hasRoom limit) }

/-- The fate of an entry: one that would be watched is refused where there is no room. -/
theorem fate_upTo (os : Os Obj) (limit : Nat) (inst : Inotify Obj) (e : Path × Typeflag) :
    fate (os.upTo limit inst) e =
      match fate os e with
      | .skipped => .skipped
      | .overflows => .overflows
      | .refused => .refused
      | .watched path o => if inst.hasRoom limit o then .watched path o else .refused := by
  unfold fate
  by_cases hdir : e.2 ≠ .ftwD
  · rw [if_pos hdir, if_pos hdir]
  rw [if_neg hdir, if_neg hdir]
  simp only [Os.upTo]
  cases os.realpath e.1 with
  | error left =>
      dsimp only
      by_cases hbig : realPathSize < left.length + 1
      · rw [if_pos hbig]
      · rw [if_neg hbig]
  | ok realPath =>
      dsimp only
      by_cases hbig : realPathSize < realPath.length + 1
      · rw [if_pos hbig, if_pos hbig]
      rw [if_neg hbig, if_neg hbig]
      cases os.lookup realPath with
      | none => rfl
      | some o =>
          cases hroom : inst.hasRoom limit o with
          | true => simp [Option.filter_some, hroom]
          | false => simp [Option.filter_some, hroom]

/-! ### Which directories are watched -/

/-- The watches are those of the listed directories, numbered from 1 in this order, and
have their paths. Under any other number the map has what `m` has. -/
structure Holds (m : InotifyWatchMgr) (held : List (Path × Obj)) (st : Watches Obj) : Prop where
  next : st.inst.next = held.length + 1
  wdOf_iff : ∀ o w, st.inst.wdOf o = some w ↔
    ∃ (i : Nat) (p : Path), held[i]? = some (p, o) ∧ w = i + 1
  mapped : ∀ (i : Nat) p o, held[i]? = some (p, o) →
    st.mgr.fdPathMappingList (i + 1) = some p
  others : ∀ w : Int, (w < 1 ∨ held.length < w) →
    st.mgr.fdPathMappingList w = m.fdPathMappingList w

theorem holds_fresh (m : InotifyWatchMgr) : Holds m [] (⟨m, .fresh⟩ : Watches Obj) where
  next := rfl
  wdOf_iff o w := by simp
  mapped i p o h := by simp at h
  others _ _ := rfl

variable {m : InotifyWatchMgr} {held : List (Path × Obj)} {st : Watches Obj}

/-- The directories listed are those that have a watch. -/
theorem Holds.mem_iff (h : Holds m held st) (o : Obj) :
    (∃ w, st.inst.wdOf o = some w) ↔ ∃ p, (p, o) ∈ held := by
  constructor
  · intro hsome
    obtain ⟨w, hw⟩ := hsome
    obtain ⟨i, p, hi, -⟩ := (h.wdOf_iff o w).mp hw
    exact ⟨p, List.mem_of_getElem? hi⟩
  · intro hsome
    obtain ⟨p, hp⟩ := hsome
    obtain ⟨i, hi⟩ := List.mem_iff_getElem?.mp hp
    exact ⟨_, (h.wdOf_iff o _).mpr ⟨i, p, hi, rfl⟩⟩

/-- No directory is listed under two paths. -/
def OnePath (xs : List (Path × Obj)) : Prop :=
  ∀ p p' o, (p, o) ∈ xs → (p', o) ∈ xs → p = p'

variable [DecidableEq Obj]

/-- Recording a directory that is listed changes nothing. -/
theorem record_of_mem (h : Holds m held st) {x : Path × Obj} (hx : x ∈ held) :
    Holds m held (record st x) := by
  obtain ⟨p, o⟩ := x
  obtain ⟨i, hi⟩ := List.mem_iff_getElem?.mp hx
  have hwd : st.inst.wdOf o = some ((i : Int) + 1) := (h.wdOf_iff o _).mpr ⟨i, p, hi, rfl⟩
  have hadd : st.inst.add o = ((i : Int) + 1, st.inst) := by rw [Inotify.add, hwd]
  have hrecord : record st (p, o) = ⟨st.mgr.addList ((i : Int) + 1) p, st.inst⟩ := by
    rw [record, hadd]
  have hi' : i < held.length := (List.getElem?_eq_some_iff.mp hi).1
  rw [hrecord]
  refine ⟨h.next, h.wdOf_iff, fun j p' o' hj => ?_, fun w hw => ?_⟩
  · show (st.mgr.addList _ p).fdPathMappingList _ = some p'
    rw [InotifyWatchMgr.addList_apply]
    by_cases hij : ((j : Int) + 1) = (i : Int) + 1
    · obtain rfl : j = i := by omega
      rw [if_pos rfl]
      exact congrArg (fun y => some y.1) (Option.some.inj (hi.symm.trans hj))
    · rw [if_neg hij]
      exact h.mapped j p' o' hj
  · show (st.mgr.addList _ p).fdPathMappingList _ = _
    rw [InotifyWatchMgr.addList_apply, if_neg (by omega)]
    exact h.others w hw

/-- Recording a directory that has no watch lists it last. -/
theorem record_of_unwatched (h : Holds m held st) {x : Path × Obj}
    (hx : st.inst.wdOf x.2 = none) : Holds m (held ++ [x]) (record st x) := by
  obtain ⟨p, o⟩ := x
  dsimp only at hx
  have hadd : st.inst.add o = (st.inst.next, st.inst.assign o) := by rw [Inotify.add, hx]
  have hrecord : record st (p, o) =
      ⟨st.mgr.addList ((held.length : Int) + 1) p, st.inst.assign o⟩ := by
    rw [record, hadd, h.next]
  rw [hrecord]
  refine ⟨?_, fun o' w => ?_, fun i p' o' hi => ?_, fun w hw => ?_⟩
  · show st.inst.next + 1 = _
    rw [h.next, List.length_append, List.length_singleton]
    omega
  · show Function.update st.inst.wdOf o (some st.inst.next) o' = some w ↔ _
    simp only [getElem?_append_singleton_iff]
    by_cases hoo : o' = o
    · subst hoo
      rw [Function.update_self, h.next, Option.some.injEq]
      constructor
      · intro hw
        exact ⟨held.length, p, .inr ⟨rfl, rfl⟩, hw.symm⟩
      · intro hsome
        obtain ⟨i, p', hi | ⟨rfl, -⟩, rfl⟩ := hsome
        · rw [(h.wdOf_iff o' _).mpr ⟨i, p', hi, rfl⟩] at hx
          cases hx
        · rfl
    · rw [Function.update_of_ne hoo, h.wdOf_iff]
      constructor
      · intro hsome
        obtain ⟨i, p', hi, hw⟩ := hsome
        exact ⟨i, p', .inl hi, hw⟩
      · intro hsome
        obtain ⟨i, p', hi | ⟨-, heq⟩, hw⟩ := hsome
        · exact ⟨i, p', hi, hw⟩
        · exact absurd (Prod.mk.inj heq).2 hoo
  · show (st.mgr.addList _ p).fdPathMappingList _ = some p'
    rw [InotifyWatchMgr.addList_apply]
    rcases getElem?_append_singleton_iff.mp hi with hi | ⟨rfl, heq⟩
    · have hlt := (List.getElem?_eq_some_iff.mp hi).1
      rw [if_neg (by omega)]
      exact h.mapped i p' o' hi
    · rw [if_pos rfl, (Prod.mk.inj heq).1]
  · rw [List.length_append, List.length_singleton] at hw
    show (st.mgr.addList _ p).fdPathMappingList _ = _
    rw [InotifyWatchMgr.addList_apply, if_neg (by omega)]
    exact h.others w (by omega)

/-- Recording a directory puts it on the list, if it has no second path there. -/
theorem record_holds (h : Holds m held st) {x : Path × Obj}
    (hone : ∀ p, (p, x.2) ∈ held → p = x.1) : Holds m (enlist held x) (record st x) := by
  by_cases hx : x ∈ held
  · rw [enlist_of_mem hx]
    exact record_of_mem h hx
  · rw [enlist_of_not_mem hx]
    refine record_of_unwatched h (Option.eq_none_iff_forall_ne_some.mpr fun w hw => hx ?_)
    obtain ⟨p, hp⟩ := (h.mem_iff x.2).mp ⟨w, hw⟩
    have hpath := hone p hp
    rw [hpath] at hp
    exact hp

/-- The walk without a limit lists what it adds. -/
theorem foldl_record_holds {all : List (Path × Obj)} (hone : OnePath all)
    (adds : List (Path × Obj)) (hadds : adds ⊆ all) (hheld : held ⊆ all) (h : Holds m held st) :
    Holds m (adds.foldl enlist held) (adds.foldl record st) := by
  induction adds generalizing held st with
  | nil => exact h
  | cons x adds ih =>
      have hx : x ∈ all := hadds List.mem_cons_self
      have hnext : Holds m (enlist held x) (record st x) :=
        record_holds h fun p hp => hone p x.1 x.2 (hheld hp) hx
      refine ih (fun y hy => hadds (List.mem_cons_of_mem _ hy)) (fun y hy => ?_) hnext
      rcases mem_enlist.mp hy with hy | rfl
      · exact hheld hy
      · exact hx

/-! ### The walk with the limit -/

section Limited

variable {limit : Nat} {seen all : List (Path × Obj)}

omit [DecidableEq Obj] in
/-- Where there is no room the first `limit` places are taken. -/
theorem full_of_no_room (h : Holds m (seen.take limit) st) {o : Obj}
    (hroom : st.inst.hasRoom limit o = false) : limit ≤ seen.length := by
  have hnext := h.next
  rw [List.length_take] at hnext
  simp only [Inotify.hasRoom, Bool.or_eq_false_iff, decide_eq_false_iff_not] at hroom
  omega

/-- Where there is room, recording a directory puts it on the list, and the first
`limit` places are still those watched. -/
theorem record_holds_take (h : Holds m (seen.take limit) st) {x : Path × Obj}
    (hone : ∀ p, (p, x.2) ∈ seen → p = x.1) (hroom : st.inst.hasRoom limit x.2 = true) :
    Holds m ((enlist seen x).take limit) (record st x) := by
  have hnext := h.next
  rw [List.length_take] at hnext
  rw [Inotify.hasRoom, Bool.or_eq_true, Option.isSome_iff_exists, decide_eq_true_iff] at hroom
  rcases hroom with hwatched | hleft
  · -- the directory is watched: it is among the first ones
    obtain ⟨p, hp⟩ := (h.mem_iff x.2).mp hwatched
    have hpath := hone p (List.mem_of_mem_take hp)
    rw [hpath] at hp
    rw [enlist_of_mem (List.mem_of_mem_take hp)]
    exact record_of_mem h hp
  · have hfew : seen.length < limit := by omega
    rw [List.take_of_length_le hfew.le] at h
    have hnow := record_holds h hone
    have hlength : (enlist seen x).length ≤ limit := by
      by_cases hx : x ∈ seen
      · rw [enlist_of_mem hx]
        exact hfew.le
      · rw [enlist_of_not_mem hx, List.length_append, List.length_singleton]
        exact hfew
    rwa [List.take_of_length_le hlength]

/-- `FtwCallback` when the instance may have `limit` watches. -/
def ftwCallbackUpTo (os : Os Obj) (limit : Nat) (stopped : Bool) (st : Watches Obj)
    (fpath : Path) (typeflag : Typeflag) : Option (Int × Watches Obj) :=
  ftwCallback (os.upTo limit st.inst) stopped st fpath typeflag

/-- One `nftw` with the limit watches the front of what it would add without, by
induction on the entries. -/
theorem nftw_upTo (os : Os Obj) (hone : OnePath all) (entries : List (Path × Typeflag))
    (hover : ∀ e ∈ reached os entries, overruns os e = false)
    (hadds : (reached os entries).filterMap (addition os) ⊆ all) (hseen : seen ⊆ all)
    (h : Holds m (seen.take limit) st) :
    ∃ rc st', nftw (ftwCallbackUpTo os limit false) entries st = some (rc, st') ∧
      Holds m ((((reached os entries).filterMap (addition os)).foldl enlist seen).take limit)
        st' := by
  induction entries generalizing seen st with
  | nil => exact ⟨0, st, rfl, h⟩
  | cons e entries ih =>
      obtain ⟨fpath, typeflag⟩ := e
      have hcall : ftwCallbackUpTo os limit false st fpath typeflag = _ :=
        ftwCallback_eq (os.upTo limit st.inst) st (fpath, typeflag)
      rw [fate_upTo] at hcall
      rw [nftw]
      cases hfate : fate os (fpath, typeflag) with
      | skipped =>
          have hrefuses : refuses os (fpath, typeflag) = false := by rw [refuses, hfate]
          have hadds' : addition os (fpath, typeflag) = none := by rw [addition, hfate]
          rw [reached_cons hrefuses] at hover hadds ⊢
          rw [List.filterMap_cons_none hadds'] at hadds ⊢
          simp only [hfate] at hcall
          rw [hcall]
          exact ih (fun e he => hover e (List.mem_cons_of_mem _ he)) hadds hseen h
      | overflows =>
          have hrefuses : refuses os (fpath, typeflag) = false := by rw [refuses, hfate]
          have hoverruns : overruns os (fpath, typeflag) = true := by rw [overruns, hfate]
          rw [reached_cons hrefuses] at hover
          rw [hover _ List.mem_cons_self] at hoverruns
          cases hoverruns
      | refused =>
          have hrefuses : refuses os (fpath, typeflag) = true := by rw [refuses, hfate]
          rw [reached_cons_of_refuses hrefuses]
          simp only [hfate] at hcall
          rw [hcall]
          exact ⟨-1, st, rfl, h⟩
      | watched path o =>
          have hrefuses : refuses os (fpath, typeflag) = false := by rw [refuses, hfate]
          have hadds' : addition os (fpath, typeflag) = some (path, o) := by rw [addition, hfate]
          rw [reached_cons hrefuses] at hover hadds ⊢
          rw [List.filterMap_cons_some hadds'] at hadds ⊢
          have hx : (path, o) ∈ all := hadds List.mem_cons_self
          simp only [hfate] at hcall
          cases hroom : st.inst.hasRoom limit o with
          | true =>
              rw [hroom] at hcall
              rw [hcall]
              have hnow : Holds m ((enlist seen (path, o)).take limit) (record st (path, o)) :=
                record_holds_take h (fun p hp => hone p path o (hseen hp) hx) hroom
              refine ih (fun e he => hover e (List.mem_cons_of_mem _ he))
                (fun y hy => hadds (List.mem_cons_of_mem _ hy)) (fun y hy => ?_) hnow
              rcases mem_enlist.mp hy with hy | rfl
              · exact hseen hy
              · exact hx
          | false =>
              -- this `nftw` ends here, and nothing that comes later would be watched
              rw [hroom] at hcall
              rw [hcall]
              refine ⟨-1, st, rfl, ?_⟩
              rw [take_foldl_enlist (full_of_no_room h hroom)]
              exact h

/-- `DirectoryTree` when the instance may have `limit` watches, with the operating
system as it is during each `nftw`. -/
def directoryTreeUpTo (limit : Nat) (stopped : Bool) :
    List (Os Obj × Path) → Watches Obj → Option (Watches Obj)
  | [], st => some st
  | (os, root) :: roots, st =>
      match os.entries root with
      | none => directoryTreeUpTo limit stopped roots st
      | some entries =>
          match nftw (ftwCallbackUpTo os limit stopped) entries st with
          | none => none
          | some (_, st) => directoryTreeUpTo limit stopped roots st

/-- The walk with the limit, by induction on its roots. -/
theorem directoryTreeUpTo_holds (hone : OnePath all) (calls : List (Os Obj × Path))
    (hover : ∀ c ∈ calls, ∀ e ∈ reached c.1 (entriesOf c), overruns c.1 e = false)
    (hadds : calls.flatMap additions ⊆ all) (hseen : seen ⊆ all)
    (h : Holds m (seen.take limit) st) :
    ∃ st', directoryTreeUpTo limit false calls st = some st' ∧
      Holds m (((calls.flatMap additions).foldl enlist seen).take limit) st' := by
  induction calls generalizing seen st with
  | nil => exact ⟨st, rfl, h⟩
  | cons call calls ih =>
      obtain ⟨os, root⟩ := call
      rw [List.flatMap_cons] at hadds ⊢
      rw [List.foldl_append]
      have hfirst : additions (os, root) ⊆ all := fun y hy => hadds (List.mem_append_left _ hy)
      have hrest : calls.flatMap additions ⊆ all := fun y hy => hadds (List.mem_append_right _ hy)
      have hseen' : (additions (os, root)).foldl enlist seen ⊆ all := by
        intro y hy
        rcases mem_foldl_enlist.mp hy with hy | hy
        · exact hseen hy
        · exact hfirst hy
      obtain ⟨rc, st₁, hnftw, h₁⟩ := nftw_upTo os hone (entriesOf (os, root))
        (hover _ List.mem_cons_self) hfirst hseen h
      obtain ⟨st', hst', h'⟩ :=
        ih (fun c hc => hover c (List.mem_cons_of_mem _ hc)) hrest hseen' h₁
      refine ⟨st', ?_, h'⟩
      rw [directoryTreeUpTo]
      cases hentries : os.entries root with
      | none =>
          have hnone : entriesOf (os, root) = [] := by rw [entriesOf, hentries, Option.getD_none]
          rw [hnone, nftw, Option.some.injEq] at hnftw
          rw [← (Prod.mk.inj hnftw).2] at hst'
          exact hst'
      | some entries =>
          have hsome : entriesOf (os, root) = entries := by
            rw [entriesOf, hentries, Option.getD_some]
          rw [hsome] at hnftw
          simp only [hnftw]
          exact hst'

end Limited

/-! ### The tree that is walked -/

section Tree

variable {t : FileTree Obj Leaf} {walks : List (RootWalk Obj)}

omit [DecidableEq Obj] in
/-- As a directory has one location, the walks add it under one path. -/
theorem onePath_allAdditions (hone : ∀ l l' o, t.DirAt l o → t.DirAt l' o → l = l')
    (h : ∀ w ∈ walks, w.Sees t) : OnePath (RootWalk.allAdditions walks) := by
  intro p p' o hp hp'
  obtain ⟨w, hw, r, es, hcomes, rfl, -⟩ := (RootWalk.mem_allAdditions_iff h p o).mp hp
  obtain ⟨w', hw', r', es', hcomes', rfl, -⟩ := (RootWalk.mem_allAdditions_iff h p' o).mp hp'
  have hdir : t.DirAt (w.base ++ r) o := ⟨es, (h w hw).located _ hcomes.mem⟩
  have hdir' : t.DirAt (w'.base ++ r') o := ⟨es', (h w' hw').located _ hcomes'.mem⟩
  rw [hone _ _ o hdir hdir']

omit [DecidableEq Obj] in
/-- Paths that fit `real_path` do not overrun it. -/
theorem overruns_of_fits (h : ∀ w ∈ walks, w.Sees t) (hfits : ∀ w ∈ walks, w.Fits)
    {c : Os Obj × Path} (hc : c ∈ walks.map RootWalk.call) :
    ∀ e ∈ reached c.1 (entriesOf c), overruns c.1 e = false := by
  obtain ⟨w, hw, rfl⟩ := List.mem_map.mp hc
  have hnone := (h w hw).fits_iff.mp (hfits w hw)
  intro e he
  exact Bool.eq_false_iff.mpr (List.any_eq_false.mp hnone e he)

/-- The walk without a limit watches the directories it adds, in the order in which it
first comes to them. -/
theorem directoryTreeDuring_holds (hone : ∀ l l' o, t.DirAt l o → t.DirAt l' o → l = l')
    (h : ∀ w ∈ walks, w.Sees t) (hfits : ∀ w ∈ walks, w.Fits) (m : InotifyWatchMgr) :
    ∃ st', directoryTreeDuring false (walks.map RootWalk.call) ⟨m, .fresh⟩ = some st' ∧
      Holds m (RootWalk.allAdditions walks).eraseDups st' := by
  refine ⟨_, (RootWalk.directoryTreeDuring_iff h _ _).mpr ⟨hfits, rfl⟩, ?_⟩
  rw [← foldl_enlist_nil]
  exact foldl_record_holds (onePath_allAdditions hone h) _ (List.Subset.refl _)
    (List.nil_subset _) (holds_fresh m)

/-- The front of a list of directories leaves none of them out exactly if it is the
whole list. -/
theorem front_whole_iff {limit : Nat} {adds : List (Path × Obj)} {unlimited limited : Watches Obj}
    (hheld : Holds m adds.eraseDups unlimited)
    (hfront : Holds m (adds.eraseDups.take limit) limited) :
    (∀ p o, (p, o) ∈ adds → ∃ w, limited.inst.wdOf o = some w) ↔
      adds.eraseDups.length ≤ limit := by
  constructor
  · intro hall
    by_contra hmore
    rw [Nat.not_le] at hmore
    obtain ⟨⟨p, o⟩, hlimit⟩ : ∃ x, adds.eraseDups[limit]? = some x :=
      ⟨_, List.getElem?_eq_getElem hmore⟩
    have hmem : (p, o) ∈ adds := List.mem_eraseDups.mp (List.mem_of_getElem? hlimit)
    -- it would have a smaller number as well
    obtain ⟨w, hw⟩ := hall p o hmem
    obtain ⟨i, p', hi, -⟩ := (hfront.wdOf_iff o w).mp hw
    have hplace := (List.getElem?_eq_some_iff.mp hi).1
    rw [List.length_take] at hplace
    have hi' : adds.eraseDups[i]? = some (p', o) := by
      rw [← hi, List.getElem?_take_of_lt (by omega)]
    have hfirst := (hheld.wdOf_iff o _).mpr ⟨i, p', hi', rfl⟩
    have hsecond := (hheld.wdOf_iff o _).mpr ⟨limit, p, hlimit, rfl⟩
    rw [hfirst, Option.some.injEq] at hsecond
    omega
  · intro hfew p o hmem
    rw [List.take_of_length_le hfew] at hfront
    exact (hfront.mem_iff o).mpr ⟨p, List.mem_eraseDups.mpr hmem⟩

/-- **At the watch limit the front of the walk is watched, and only that.** The walk
on a new instance is given a tree and may be refused some of it; its paths fit
`real_path`. Without a limit it watches the directories it adds, numbered from 1 in the
order in which it first comes to them. With a limit it still goes to its end, and
watches the first `limit` of them, under the same numbers and paths; the map has
nothing for the others. All are watched exactly if there are no more than `limit`. -/
theorem walk_up_to_limit (hone : ∀ l l' o, t.DirAt l o → t.DirAt l' o → l = l')
    (h : ∀ w ∈ walks, w.Sees t) (hfits : ∀ w ∈ walks, w.Fits) (m : InotifyWatchMgr)
    (limit : Nat) :
    ∃ unlimited limited : Watches Obj,
      directoryTreeDuring false (walks.map RootWalk.call) ⟨m, .fresh⟩ = some unlimited ∧
      directoryTreeUpTo limit false (walks.map RootWalk.call) ⟨m, .fresh⟩ = some limited ∧
      Holds m (RootWalk.allAdditions walks).eraseDups unlimited ∧
      Holds m ((RootWalk.allAdditions walks).eraseDups.take limit) limited ∧
      ((∀ p o, (p, o) ∈ RootWalk.allAdditions walks → ∃ w, limited.inst.wdOf o = some w) ↔
        (RootWalk.allAdditions walks).eraseDups.length ≤ limit) := by
  have honePath := onePath_allAdditions hone h
  obtain ⟨unlimited, hunlimited, hheld⟩ := directoryTreeDuring_holds hone h hfits m
  have hstart : Holds m (([] : List (Path × Obj)).take limit) ⟨m, .fresh⟩ := by
    rw [List.take_nil]
    exact holds_fresh m
  obtain ⟨limited, hlimited, hfront⟩ :=
    directoryTreeUpTo_holds honePath (walks.map RootWalk.call)
      (fun c hc => overruns_of_fits h hfits hc) (List.Subset.refl _) (List.nil_subset _) hstart
  rw [foldl_enlist_nil] at hfront
  exact ⟨unlimited, limited, hunlimited, hlimited, hheld, hfront,
    front_whole_iff hheld hfront⟩

end Tree

theorem fits_vanishingWalk : (vanishingWalk true).Fits := by
  intro r o es hcomes
  have hdir : twoDirs.DirAt r o := ⟨es, mem_preorder_iff.mp hcomes.mem⟩
  rcases dirAt_twoDirs.mp hdir with ⟨rfl, -⟩ | ⟨rfl, -⟩ | ⟨rfl, -⟩ <;> decide

/-- The root directory and `s` are walked twice. With room for one watch `s` is refused
both times. -/
theorem walk_up_to_limit_twoDirs :
    ∃ unlimited limited : Watches Nat,
      directoryTreeDuring false
        ([vanishingWalk true, vanishingWalk true].map RootWalk.call) ⟨.new, .fresh⟩ =
          some unlimited ∧
      directoryTreeUpTo 1 false
        ([vanishingWalk true, vanishingWalk true].map RootWalk.call) ⟨.new, .fresh⟩ =
          some limited ∧
      Holds .new [([slash], 0), (canonical [nameS], 2)] unlimited ∧
      Holds .new [([slash], 0)] limited := by
  have hsees : ∀ w ∈ [vanishingWalk true, vanishingWalk true], w.Sees twoDirs := by
    intro w hw
    obtain rfl : w = vanishingWalk true := by simpa using hw
    exact sees_vanishingWalk true
  have hfits : ∀ w ∈ [vanishingWalk true, vanishingWalk true], w.Fits := by
    intro w hw
    obtain rfl : w = vanishingWalk true := by simpa using hw
    exact fits_vanishingWalk
  have hadds : (RootWalk.allAdditions [vanishingWalk true, vanishingWalk true]).eraseDups =
      [([slash], 0), (canonical [nameS], 2)] := by decide
  obtain ⟨unlimited, limited, hunlimited, hlimited, hheld, hfront, -⟩ :=
    walk_up_to_limit (vanishing_twoDirs true).one_location hsees hfits .new 1
  rw [hadds] at hheld hfront
  exact ⟨unlimited, limited, hunlimited, hlimited, hheld, hfront⟩

end InotifyRealtime
