import Mathlib.Logic.Function.Basic
import InotifyRealtime.CoreRuns
/-!
# InotifyRealtime.FileDescriptorTool

The two flags a handler asks for on its descriptors.

`SetCloseOnExec` and `SetNonBlock` read a word of flags, change one bit of it and write
it back, and answer what `fcntl` answered. Nobody looks at the answer:
`InotifyEventHandler::Initialize` returns true with a descriptor that blocks, if one of
the two calls failed (`initializeFlags_nonBlock_iff`). Other bits and other descriptors
are left as they are (`changeFlag_apply`).
-/

namespace InotifyRealtime

/-- The two words of flags of a descriptor. -/
inductive FlagWord
  /-- `F_GETFD` and `F_SETFD`. -/
  | descriptor
  /-- `F_GETFL` and `F_SETFL`. -/
  | status
  deriving DecidableEq

/-- A word of flags is an `int` and not negative. -/
abbrev Flags := BitVec 31

/-- The flags of the descriptors that are open. -/
abbrev FlagTable := Int → Option (FlagWord → Flags)

def fdCloexec : Flags := 0x1#31

def oNonblock : Flags := 0x800#31

/-- The bits that `F_SETFD` and `F_SETFL` take from their argument: `FD_CLOEXEC`, and
`O_APPEND`, `O_NONBLOCK`, `O_ASYNC`, `O_DIRECT`, `O_NOATIME`. The others stay. -/
def FlagWord.settable : FlagWord → Flags
  | .descriptor => fdCloexec
  | .status => 0x46c00#31

namespace FlagTable

/-- A descriptor is opened, with this status. -/
def openFd (t : FlagTable) (fd : Int) (status : Flags) : FlagTable :=
  Function.update t fd (some fun
    | .descriptor => 0#31
    | .status => status)

def closeFd (t : FlagTable) (fd : Int) : FlagTable := Function.update t fd none

/-- `fcntl` with `F_GETFD` or `F_GETFL`; `none` is a negative value. -/
def fcntlGet (t : FlagTable) (word : FlagWord) (fails : Bool) (fd : Int) : Option Flags :=
  if fails then none else (t fd).map fun flags => flags word

/-- `fcntl` with `F_SETFD` or `F_SETFL`. -/
def fcntlSet (t : FlagTable) (word : FlagWord) (fails : Bool) (fd : Int) (val : Flags) :
    Int × FlagTable :=
  if fails then (-1, t)
  else
    match t fd with
    | none => (-1, t)
    | some flags =>
        let stored := (flags word &&& ~~~word.settable) ||| (val &&& word.settable)
        (0, Function.update t fd (some (Function.update flags word stored)))

end FlagTable

namespace FileDescriptorTool

/-- How the two `fcntl` calls of a function go, when the descriptor is open. -/
structure Outcomes where
  getFails : Bool
  setFails : Bool
  deriving DecidableEq

def Outcomes.Succeed (o : Outcomes) : Prop := o.getFails = false ∧ o.setFails = false

instance (o : Outcomes) : Decidable o.Succeed := inferInstanceAs (Decidable (_ ∧ _))

/-- The word with a bit set or cleared. -/
def withBit (val bit : Flags) (on : Bool) : Flags := if on then val ||| bit else val &&& ~~~bit

/-- Read a word, change a bit of it, write it back. -/
def changeFlag (word : FlagWord) (bit : Flags) (o : Outcomes) (t : FlagTable) (fd : Int)
    (on : Bool) : Int × FlagTable :=
  match t.fcntlGet word o.getFails fd with
  | none => (-1, t)
  | some val => t.fcntlSet word o.setFails fd (withBit val bit on)

def setCloseOnExec (o : Outcomes) (t : FlagTable) (fd : Int) (closeOnExec : Bool) :
    Int × FlagTable :=
  changeFlag .descriptor fdCloexec o t fd closeOnExec

def setNonBlock (o : Outcomes) (t : FlagTable) (fd : Int) (nonBlock : Bool) : Int × FlagTable :=
  changeFlag .status oNonblock o t fd nonBlock

/-- What is written back is what was read but for the bit, which can be written. -/
theorem stored_eq {word : FlagWord} {bit : Flags} (hbit : bit &&& word.settable = bit)
    (val : Flags) (on : Bool) :
    (val &&& ~~~word.settable) ||| (withBit val bit on &&& word.settable) = withBit val bit on := by
  ext i hi
  have hcovers : (bit &&& word.settable)[i] = bit[i] := by rw [hbit]
  rw [BitVec.getElem_and] at hcovers
  cases on with
  | true =>
      simp only [withBit, if_true, BitVec.getElem_or, BitVec.getElem_and, BitVec.getElem_not]
      cases hval : val[i] <;> cases hset : word.settable[i] <;> simp_all
  | false =>
      simp only [withBit, Bool.false_eq_true, if_false, BitVec.getElem_or, BitVec.getElem_and,
        BitVec.getElem_not]
      cases hval : val[i] <;> cases hset : word.settable[i] <;> simp_all

/-- **What changing a flag does**, to any word of any descriptor: the bit of the one word
of the one descriptor, if both calls succeed and it is open. -/
theorem changeFlag_apply {word : FlagWord} {bit : Flags} (hbit : bit &&& word.settable = bit)
    (o : Outcomes) (t : FlagTable) (fd : Int) (on : Bool) (fd' : Int) :
    (changeFlag word bit o t fd on).2 fd' =
      if o.Succeed ∧ fd' = fd then
        (t fd').map fun flags => Function.update flags word (withBit (flags word) bit on)
      else t fd' := by
  unfold changeFlag FlagTable.fcntlGet FlagTable.fcntlSet
  cases hget : o.getFails with
  | true => simp [Outcomes.Succeed, hget]
  | false =>
      cases hflags : t fd with
      | none =>
          by_cases hfd : fd' = fd
          · simp [hfd, hflags]
          · simp [hfd]
      | some flags =>
          cases hset : o.setFails with
          | true => simp [Outcomes.Succeed, hset]
          | false =>
              simp only [Bool.false_eq_true, if_false, Option.map_some, stored_eq hbit]
              by_cases hfd : fd' = fd
              · subst hfd
                rw [Function.update_self, if_pos ⟨⟨hget, hset⟩, rfl⟩, hflags, Option.map_some]
              · rw [Function.update_of_ne hfd, if_neg fun h => hfd h.2]

end FileDescriptorTool

namespace FlagTable

/-- The flag is set on a descriptor that is open. -/
def Has (t : FlagTable) (fd : Int) (word : FlagWord) (bit : Flags) : Prop :=
  ∃ flags, t fd = some flags ∧ flags word &&& bit = bit

instance (t : FlagTable) (fd : Int) (word : FlagWord) (bit : Flags) :
    Decidable (t.Has fd word bit) :=
  inferInstanceAs (Decidable (∃ flags, flags ∈ t fd ∧ flags word &&& bit = bit))

def NonBlocking (t : FlagTable) (fd : Int) : Prop := t.Has fd .status oNonblock

instance (t : FlagTable) (fd : Int) : Decidable (t.NonBlocking fd) :=
  inferInstanceAs (Decidable (t.Has fd .status oNonblock))

end FlagTable

/-- How the four flag calls of `InotifyEventHandler::Initialize` go. -/
structure FlagOutcomes where
  inotifyCloseOnExec : FileDescriptorTool.Outcomes
  inotifyNonBlock : FileDescriptorTool.Outcomes
  epollCloseOnExec : FileDescriptorTool.Outcomes
  epollNonBlock : FileDescriptorTool.Outcomes
  deriving DecidableEq

namespace InotifyEventHandler

open FileDescriptorTool

/-- What `InotifyEventHandler::Initialize` does to the flags, on its way through the
function (`initializeWith`). An inotify instance is opened read-only, an epoll instance
for reading and writing. -/
def initializeFlags (o : InotifyRealtime.Outcomes) (f : FlagOutcomes) (stopped : Bool)
    (t : FlagTable) : FlagTable :=
  if o.inotifyInit < 0 then t
  else
    let t := t.openFd o.inotifyInit 0x0#31
    if o.inotifyInit = 0 then t
    else
      let t := (setCloseOnExec f.inotifyCloseOnExec t o.inotifyInit true).2
      let t := (setNonBlock f.inotifyNonBlock t o.inotifyInit true).2
      -- the scope exit for the descriptor closes it when the flag is set
      if o.epollCreate1 < 0 then if stopped then t.closeFd o.inotifyInit else t
      else
        let t := t.openFd o.epollCreate1 0x2#31
        let t := (setCloseOnExec f.epollCloseOnExec t o.epollCreate1 true).2
        (setNonBlock f.epollNonBlock t o.epollCreate1 true).2

/-- The flags of a new descriptor after its two calls. -/
def newFlags (cloexec nonBlock : FileDescriptorTool.Outcomes) (status : Flags) : FlagWord → Flags
  | .descriptor => if cloexec.Succeed then fdCloexec else 0x0#31
  | .status => if nonBlock.Succeed then status ||| oNonblock else status

/-- A descriptor is opened and gets its two flags. -/
theorem opened_apply (cloexec nonBlock : FileDescriptorTool.Outcomes) (t : FlagTable)
    (fd fd' : Int) (status : Flags) :
    (setNonBlock nonBlock (setCloseOnExec cloexec (t.openFd fd status) fd true).2 fd true).2 fd' =
      if fd' = fd then some (newFlags cloexec nonBlock status) else t fd' := by
  rw [setNonBlock, changeFlag_apply (by decide), setCloseOnExec, changeFlag_apply (by decide),
    FlagTable.openFd]
  by_cases hfd : fd' = fd
  · subst hfd
    rw [Function.update_self, if_pos rfl]
    by_cases hcloexec : cloexec.Succeed <;> by_cases hnonBlock : nonBlock.Succeed
    all_goals
      simp only [hcloexec, hnonBlock, true_and, false_and, if_true, if_false, Option.map_some,
        Option.some.injEq]
      funext word
      cases word <;> simp [newFlags, withBit, hcloexec, hnonBlock]
  · simp only [hfd, and_false, if_false, Function.update_of_ne, ne_eq, not_false_eq_true]

/-- **What `Initialize` leaves of the flags** when it returns true: two new descriptors, each
with the flags whose calls succeeded, and all others as they were. -/
theorem initializeFlags_apply {o : InotifyRealtime.Outcomes} (hready : o.HandlerReady)
    (hapart : o.inotifyInit ≠ o.epollCreate1) (f : FlagOutcomes) (stopped : Bool) (t : FlagTable)
    (fd : Int) :
    initializeFlags o f stopped t fd =
      if fd = o.inotifyInit then some (newFlags f.inotifyCloseOnExec f.inotifyNonBlock 0x0#31)
      else if fd = o.epollCreate1 then some (newFlags f.epollCloseOnExec f.epollNonBlock 0x2#31)
      else t fd := by
  have hneg : ¬ o.inotifyInit < 0 := by have := hready.1; omega
  have hzero : ¬ o.inotifyInit = 0 := by have := hready.1; omega
  have hepoll : ¬ o.epollCreate1 < 0 := by have := hready.2; omega
  simp only [initializeFlags, if_neg hneg, if_neg hzero, if_neg hepoll]
  rw [opened_apply, opened_apply]
  by_cases hfd : fd = o.epollCreate1
  · subst hfd
    rw [if_pos rfl, if_neg hapart.symm, if_pos rfl]
  · rw [if_neg hfd, if_neg hfd]

/-- The descriptor that is read does not block if both calls for it succeeded, and only
then; `Initialize` returns true either way. -/
theorem initializeFlags_nonBlock_iff {o : InotifyRealtime.Outcomes} (hready : o.HandlerReady)
    (hapart : o.inotifyInit ≠ o.epollCreate1) (f : FlagOutcomes) (stopped : Bool) (t : FlagTable) :
    (initializeFlags o f stopped t).NonBlocking o.inotifyInit ↔ f.inotifyNonBlock.Succeed := by
  rw [FlagTable.NonBlocking, FlagTable.Has, initializeFlags_apply hready hapart, if_pos rfl]
  by_cases hnonBlock : f.inotifyNonBlock.Succeed
  · exact iff_of_true ⟨_, rfl, by simp [newFlags, hnonBlock]⟩ hnonBlock
  · refine iff_of_false (fun h => ?_) hnonBlock
    obtain ⟨flags, hflags, hbit⟩ := h
    obtain rfl := Option.some.inj hflags
    rw [newFlags, if_neg hnonBlock] at hbit
    exact absurd hbit (by decide)

end InotifyEventHandler

end InotifyRealtime
