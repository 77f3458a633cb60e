import InotifyRealtime.Foundation.Location
/-!
# Foundation.FileTree

File hierarchies as finite trees, and their pre-order walk.

A directory has an identity (what stays the same when it is moved) and a list of
named entries; everything else is a leaf of some kind. `Located t l x` says that
the subtree `x` hangs at location `l` of `t`. A pre-order walk lists every
subtree with its location, a directory before its entries, and lists nothing else
(`mem_preorder_iff`).
-/

open Location (Name)

/-- A file hierarchy with directories of identity `ι` and leaves of kind `κ`. -/
inductive FileTree (ι κ : Type) : Type
  | dir (id : ι) (entries : List (Name × FileTree ι κ))
  | leaf (kind : κ)

namespace FileTree

variable {ι κ : Type}

/-- The subtree `x` hangs at location `l` of a tree. -/
inductive Located : FileTree ι κ → List Name → FileTree ι κ → Prop
  | here (t : FileTree ι κ) : Located t [] t
  | entry {id : ι} {entries : List (Name × FileTree ι κ)} {n : Name} {c x : FileTree ι κ}
      {l : List Name} :
      (n, c) ∈ entries → Located c l x → Located (.dir id entries) (n :: l) x

theorem Located.trans {t x y : FileTree ι κ} {l l' : List Name} (h : Located t l x)
    (h' : Located x l' y) : Located t (l ++ l') y := by
  induction h with
  | here => exact h'
  | entry hmem _ ih => exact .entry hmem (ih h')

/-- What hangs below a place hangs below a subtree that hangs there. -/
theorem Located.split {t x : FileTree ι κ} {l' : List Name} :
    ∀ {l : List Name}, Located t (l ++ l') x → ∃ y, Located t l y ∧ Located y l' x
  | [], h => ⟨t, .here t, h⟩
  | _ :: _, .entry hmem h => by
      obtain ⟨y, hy, hx⟩ := h.split
      exact ⟨y, .entry hmem hy, hx⟩

/-- There is a directory of this identity at this location. -/
def DirAt (t : FileTree ι κ) (l : List Name) (id : ι) : Prop :=
  ∃ entries, Located t l (.dir id entries)

mutual
/-- Every subtree with its location below `l`, a directory before its entries. -/
def preorder (l : List Name) : FileTree ι κ → List (List Name × FileTree ι κ)
  | .dir id entries => (l, .dir id entries) :: preorderEntries l entries
  | .leaf kind => [(l, .leaf kind)]
/-- The walk through the entries of a directory at `l`, in their order. -/
def preorderEntries (l : List Name) :
    List (Name × FileTree ι κ) → List (List Name × FileTree ι κ)
  | [] => []
  | (n, c) :: entries => preorder (l ++ [n]) c ++ preorderEntries l entries
end

mutual
/-- A walk lists only what is there. -/
theorem located_of_mem_preorder {l l' : List Name} {x : FileTree ι κ} :
    ∀ {t : FileTree ι κ}, (l', x) ∈ preorder l t → ∃ r, l' = l ++ r ∧ Located t r x
  | .dir id entries, h => by
      rw [preorder, List.mem_cons] at h
      rcases h with h | h
      · obtain ⟨rfl, rfl⟩ := Prod.mk.inj h
        exact ⟨[], by simp, .here _⟩
      · obtain ⟨n, c, r, hmem, rfl, hr⟩ := located_of_mem_preorderEntries h
        exact ⟨n :: r, by simp, .entry hmem hr⟩
  | .leaf kind, h => by
      rw [preorder, List.mem_singleton] at h
      obtain ⟨rfl, rfl⟩ := Prod.mk.inj h
      exact ⟨[], by simp, .here _⟩
theorem located_of_mem_preorderEntries {l l' : List Name} {x : FileTree ι κ} :
    ∀ {entries : List (Name × FileTree ι κ)}, (l', x) ∈ preorderEntries l entries →
      ∃ n c r, (n, c) ∈ entries ∧ l' = l ++ n :: r ∧ Located c r x
  | [], h => by simp [preorderEntries] at h
  | (n, c) :: entries, h => by
      rw [preorderEntries, List.mem_append] at h
      rcases h with h | h
      · obtain ⟨r, rfl, hr⟩ := located_of_mem_preorder h
        exact ⟨n, c, r, List.mem_cons_self, by simp, hr⟩
      · obtain ⟨m, d, r, hmem, rfl, hr⟩ := located_of_mem_preorderEntries h
        exact ⟨m, d, r, List.mem_cons_of_mem _ hmem, rfl, hr⟩
end

theorem preorder_subset_preorderEntries {l : List Name} {n : Name} {c : FileTree ι κ}
    {entries : List (Name × FileTree ι κ)} (h : (n, c) ∈ entries) :
    preorder (l ++ [n]) c ⊆ preorderEntries l entries := by
  induction entries with
  | nil => simp at h
  | cons e entries ih =>
      obtain ⟨m, d⟩ := e
      rw [preorderEntries]
      rcases List.mem_cons.mp h with heq | hmem
      · obtain ⟨rfl, rfl⟩ := Prod.mk.inj heq
        exact List.subset_append_left _ _
      · exact fun x hx => List.mem_append_right _ (ih hmem hx)

/-- A walk lists everything that is there. -/
theorem mem_preorder_of_located {t x : FileTree ι κ} {r : List Name} (h : Located t r x) :
    ∀ l, (l ++ r, x) ∈ preorder l t := by
  induction h with
  | here t =>
      intro l
      cases t with
      | dir id entries => simp [preorder]
      | leaf kind => simp [preorder]
  | @entry id entries n c x r hmem _ ih =>
      intro l
      rw [preorder]
      refine List.mem_cons_of_mem _ (preorder_subset_preorderEntries hmem ?_)
      simpa using ih (l ++ [n])

/-- A pre-order walk lists exactly the subtrees, each at its location. -/
theorem mem_preorder_iff {t x : FileTree ι κ} {r : List Name} :
    (r, x) ∈ preorder [] t ↔ Located t r x := by
  constructor
  · intro h
    obtain ⟨r', rfl, hr'⟩ := located_of_mem_preorder h
    exact hr'
  · intro h
    exact mem_preorder_of_located h []

end FileTree
