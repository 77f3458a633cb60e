import InotifyRealtime.WalkFates
/-!
# InotifyRealtime.Vanishing

Directories that vanish during the walk.

A directory that is deleted after `nftw` has reported it makes `realpath` fail, or, a
moment later, `inotify_add_watch`. The callback returns 0 in the first case and the
walk goes on, if the path that `realpath` leaves in its array all the same fits there.
In the second it returns -1, as it does when there is no room for another watch, and
that is the end of this `nftw`.

`Vanishing` is a walk while some directories go. The others are all watched exactly if
each of them is reported, under some root, before the first one that
`inotify_add_watch` refuses (`vanishing_iff`).
-/

namespace InotifyRealtime

open Bytes Location FileTree

variable {Obj : Type} {t : FileTree Obj Leaf} {Gone : List Name → Prop}
  {walks : List (RootWalk Obj)}

/-- The walks go through the tree `t` while the directories at `Gone` may vanish. All
others are reported, resolved and found under every root. -/
structure Vanishing (t : FileTree Obj Leaf) (Gone : List Name → Prop)
    (walks : List (RootWalk Obj)) : Prop where
  one_location : ∀ l l' o, t.DirAt l o → t.DirAt l' o → l = l'
  sees : ∀ w ∈ walks, w.Sees t
  reported : ∀ w ∈ walks, ∀ r o, t.DirAt (w.base ++ r) o → ¬ Gone (w.base ++ r) →
    ∃ es, (r, FileTree.dir o es) ∈ w.visits
  resolved : ∀ w ∈ walks, ∀ r o, t.DirAt (w.base ++ r) o → ¬ Gone (w.base ++ r) →
    w.os.realpath (w.pathname r) = .ok (canonical (w.base ++ r))
  found : ∀ w ∈ walks, ∀ r o, t.DirAt (w.base ++ r) o → ¬ Gone (w.base ++ r) →
    w.os.lookup (canonical (w.base ++ r)) = some o

/-- The directory `o` at `l` lies under a root and stays. -/
def Survives (t : FileTree Obj Leaf) (Gone : List Name → Prop) (walks : List (RootWalk Obj))
    (o : Obj) (l : List Name) : Prop :=
  t.DirAt l o ∧ ¬ Gone l ∧ ∃ w ∈ walks, w.base <+: l

/-- The directory has a watch, and its path is stored under it. -/
def Watches.Has (st : Watches Obj) (o : Obj) (l : List Name) : Prop :=
  ∃ wd, st.inst.wdOf o = some wd ∧ st.mgr.fdPathMappingList wd = some (canonical l)

/-- Some walk comes to the directory. -/
def IsReached (walks : List (RootWalk Obj)) (o : Obj) (l : List Name) : Prop :=
  ∃ w ∈ walks, ∃ r es, w.ComesTo (r, FileTree.dir o es) ∧ l = w.base ++ r

variable [DecidableEq Obj]

/-- Only what some walk came to has a watch. -/
theorem isReached_of_has (h : Vanishing t Gone walks) {st st' : Watches Obj}
    (hempty : ∀ wd, st.mgr.fdPathMappingList wd = none)
    (hwalk : directoryTreeDuring false (walks.map RootWalk.call) st = some st') {o : Obj}
    {l : List Name} (hhas : st'.Has o l) : IsReached walks o l := by
  obtain ⟨-, rfl⟩ := (RootWalk.directoryTreeDuring_iff h.sees st st').mp hwalk
  have hrecorded := RootWalk.recorded_allAdditions h.one_location h.sees st
  obtain ⟨wd, hwd, hmap⟩ := hhas
  rcases hrecorded.nothing_else wd _ hmap with hold | ⟨o', hmem, hwd'⟩
  · exact absurd ((hempty wd).symm.trans hold) nofun
  · obtain rfl : o' = o := Inotify.wdOf_injective _ o' o wd hwd' hwd
    obtain ⟨w, hw, r, es, hcomes, hl, -⟩ := (RootWalk.mem_allAdditions_iff h.sees _ o').mp hmem
    exact ⟨w, hw, r, es, hcomes, canonical_injective hl⟩

/-- What stays and is reached gets its watch. -/
theorem has_of_isReached (h : Vanishing t Gone walks) (hfits : ∀ w ∈ walks, w.Fits)
    (st : Watches Obj) {o : Obj} {l : List Name} (hstays : Survives t Gone walks o l)
    (hreached : IsReached walks o l) :
    Watches.Has ((RootWalk.allAdditions walks).foldl record st) o l := by
  obtain ⟨w, hw, r, es, hcomes, rfl⟩ := hreached
  have hreal := h.resolved w hw r o hstays.1 hstays.2.1
  have hlookup := h.found w hw r o hstays.1 hstays.2.1
  exact RootWalk.stored_of_fits h.one_location h.sees hfits st hw hcomes hreal hlookup

/-- **What a vanishing directory costs.** A walk from an empty map gives every directory
under its roots that stays a watch if and only if nothing `realpath` writes about a
directory it comes to, resolved or not, overruns `real_path`, and it comes to each of
those that stay, under some root, before a path is refused there. -/
theorem vanishing_iff (h : Vanishing t Gone walks) (st : Watches Obj)
    (hempty : ∀ wd, st.mgr.fdPathMappingList wd = none) :
    (∃ st', directoryTreeDuring false (walks.map RootWalk.call) st = some st' ∧
      ∀ o l, Survives t Gone walks o l → st'.Has o l) ↔
    (∀ w ∈ walks, w.Fits) ∧ ∀ o l, Survives t Gone walks o l → IsReached walks o l := by
  constructor
  · intro hall
    obtain ⟨st', hwalk, hwatched⟩ := hall
    refine ⟨((RootWalk.directoryTreeDuring_iff h.sees st st').mp hwalk).1, fun o l hstays => ?_⟩
    exact isReached_of_has h hempty hwalk (hwatched o l hstays)
  · intro hall
    obtain ⟨hfits, hreached⟩ := hall
    refine ⟨_, (RootWalk.directoryTreeDuring_iff h.sees st _).mpr ⟨hfits, rfl⟩, ?_⟩
    intro o l hstays
    exact has_of_isReached h hfits st hstays (hreached o l hstays)

/-! ### One directory goes -/

/-- A directory `v` that vanishes, and a directory `s` behind it that stays. -/
def nameV : Name := ⟨[0x76#8], by decide, by decide, by decide⟩

def nameS : Name := ⟨[0x73#8], by decide, by decide, by decide⟩

def twoDirs : FileTree Nat Leaf := .dir 0 [(nameV, .dir 1 []), (nameS, .dir 2 [])]

/-- The walk from the root directory while `v` vanishes: before `realpath` is asked
about it, or after that. -/
def vanishingWalk (early : Bool) : RootWalk Nat where
  os :=
    { entries := fun p =>
        if p = [slash] then some (reported canonical (preorder [] twoDirs)) else none
      realpath := fun p => if p = canonical [nameV] ∧ early = true then .error p else .ok p
      lookup := fun p =>
        if p = [slash] then some 0 else if p = canonical [nameS] then some 2 else none }
  root := [slash]
  base := []
  pathname := canonical
  visits := preorder [] twoDirs

theorem nameV_ne_nameS : nameV ≠ nameS := by decide

theorem visits_twoDirs : preorder [] twoDirs =
    [([], twoDirs), ([nameV], .dir 1 []), ([nameS], .dir 2 [])] := rfl

theorem dirAt_twoDirs {l : List Name} {o : Nat} :
    twoDirs.DirAt l o ↔ (l = [] ∧ o = 0) ∨ (l = [nameV] ∧ o = 1) ∨ (l = [nameS] ∧ o = 2) := by
  unfold DirAt
  simp only [← mem_preorder_iff, visits_twoDirs]
  simp [twoDirs, exists_or]

theorem lookup_vanishingWalk (early : Bool) {l : List Name} {o : Nat} (h : twoDirs.DirAt l o) :
    (vanishingWalk early).os.lookup (canonical l) = if l = [nameV] then none else some o := by
  rcases dirAt_twoDirs.mp h with ⟨rfl, rfl⟩ | ⟨rfl, rfl⟩ | ⟨rfl, rfl⟩
  · rfl
  · rfl
  · rfl

theorem sees_vanishingWalk (early : Bool) : (vanishingWalk early).Sees twoDirs where
  entries := rfl
  located v hv := mem_preorder_iff.mp hv
  realpath r o es p _ hp := by
    replace hp : (if canonical r = canonical [nameV] ∧ early = true then .error (canonical r)
      else .ok (canonical r)) = Except.ok p := hp
    split at hp
    · exact absurd hp nofun
    · exact (Except.ok.inj hp).symm
  lookup r o es o' hmem ho' := by
    have hlookup := lookup_vanishingWalk early ⟨es, mem_preorder_iff.mp hmem⟩
    replace ho' := hlookup.symm.trans ho'
    split at ho'
    · exact absurd ho' nofun
    · exact (Option.some.inj ho').symm

theorem vanishing_twoDirs (early : Bool) :
    Vanishing twoDirs (· = [nameV]) [vanishingWalk early] where
  one_location l l' o h h' := by
    rcases dirAt_twoDirs.mp h with ⟨rfl, rfl⟩ | ⟨rfl, rfl⟩ | ⟨rfl, rfl⟩ <;>
      simpa [eq_comm] using dirAt_twoDirs.mp h'
  sees w hw := by
    obtain rfl := List.mem_singleton.mp hw
    exact sees_vanishingWalk early
  reported w hw r o hdir _ := by
    obtain rfl := List.mem_singleton.mp hw
    obtain ⟨es, hes⟩ := hdir
    exact ⟨es, mem_preorder_iff.mpr hes⟩
  resolved w hw r o _ hstays := by
    obtain rfl := List.mem_singleton.mp hw
    exact if_neg fun hgone => hstays (canonical_injective hgone.1)
  found w hw r o hdir hstays := by
    obtain rfl := List.mem_singleton.mp hw
    exact (lookup_vanishingWalk _ hdir).trans (if_neg hstays)

/-- When it was `realpath` that failed for `v`, both other directories have watches. -/
theorem vanishing_early :
    ∃ st', directoryTreeDuring false [(vanishingWalk true).call] ⟨.new, .fresh⟩ = some st' ∧
      ∀ o l, Survives twoDirs (· = [nameV]) [vanishingWalk true] o l → st'.Has o l := by
  have hgoesOn : ∀ b ∈ (vanishingWalk true).visits,
      refuses (vanishingWalk true).os ((vanishingWalk true).entry b) = false := by
    decide
  refine (vanishing_iff (vanishing_twoDirs true) ⟨.new, .fresh⟩ fun _ => rfl).mpr ⟨?_, ?_⟩
  · intro w hw r o es hcomes
    obtain rfl := List.mem_singleton.mp hw
    have hdir : twoDirs.DirAt r o := ⟨es, mem_preorder_iff.mp hcomes.mem⟩
    rcases dirAt_twoDirs.mp hdir with ⟨rfl, -⟩ | ⟨rfl, -⟩ | ⟨rfl, -⟩ <;> decide
  · intro o l hstays
    obtain ⟨es, hes⟩ := hstays.1
    exact ⟨_, List.mem_cons_self, l, es,
      RootWalk.comesTo_of_mem hgoesOn (mem_preorder_iff.mpr hes), rfl⟩

/-- A walk that is refused `v` does not come to `s`. -/
theorem not_comesTo_nameS (es : List (Name × FileTree Nat Leaf)) :
    ¬ (vanishingWalk false).ComesTo ([nameS], .dir 2 es) := by
  intro h
  obtain ⟨before, after, heq, hbefore⟩ := h
  replace heq := visits_twoDirs.symm.trans heq
  cases before with
  | nil =>
      have hhere := congrArg Prod.fst (List.cons.inj heq).1
      exact absurd hhere (List.cons_ne_nil _ _).symm
  | cons a before =>
      replace heq := (List.cons.inj heq).2
      cases before with
      | nil =>
          have hhere := congrArg Prod.fst (List.cons.inj heq).1
          exact nameV_ne_nameS (List.cons.inj hhere).1
      | cons b before =>
          have hv : ([nameV], FileTree.dir 1 []) = b := (List.cons.inj heq).1
          have hrefused :
              refuses (vanishingWalk false).os ((vanishingWalk false).entry b) = true := by
            rw [← hv]
            rfl
          rw [hbefore b (by simp)] at hrefused
          exact Bool.false_ne_true hrefused

/-- When it was `inotify_add_watch`, `s` is lost with `v`. -/
theorem vanishing_costs_more :
    ¬ ∀ (t : FileTree Nat Leaf) (Gone : List Name → Prop) (walks : List (RootWalk Nat))
      (st : Watches Nat), Vanishing t Gone walks → (∀ wd, st.mgr.fdPathMappingList wd = none) →
      ∃ st', directoryTreeDuring false (walks.map RootWalk.call) st = some st' ∧
        ∀ o l, Survives t Gone walks o l → st'.Has o l := by
  intro h
  have hvanishing := vanishing_twoDirs false
  obtain ⟨st', hwalk, hall⟩ := h twoDirs _ _ ⟨.new, .fresh⟩ hvanishing fun _ => rfl
  have hstays : Survives twoDirs (· = [nameV]) [vanishingWalk false] 2 [nameS] :=
    ⟨dirAt_twoDirs.mpr (.inr (.inr ⟨rfl, rfl⟩)),
      fun heq => nameV_ne_nameS (List.cons.inj heq).1.symm,
      vanishingWalk false, List.mem_cons_self, List.nil_prefix⟩
  obtain ⟨w, hw, r, es, hcomes, hl⟩ :=
    isReached_of_has hvanishing (fun _ => rfl) hwalk (hall 2 [nameS] hstays)
  obtain rfl := List.mem_singleton.mp hw
  obtain rfl : [nameS] = r := hl
  exact not_comesTo_nameS es hcomes

end InotifyRealtime
