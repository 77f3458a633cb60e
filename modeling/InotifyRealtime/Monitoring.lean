import InotifyRealtime.Delivery
import InotifyRealtime.WalkInSteps
/-!
# InotifyRealtime.Monitoring

What the program is for.

A session as a whole, in front of a file tree: the directory thread walks the tree and adds
watches, things happen in its directories and are queued by the kernel for those that are
watched, and the event thread reads, decodes and reports them. All of it takes place at
the same time. The tree is one that `Serves` describes, in which every directory gets its
watch, and the queue has room for everything; `WatchLimit` and `Overflow` are about the
limits of both.

Each part has been looked at on its own: the walk (`WalkInSteps`), the way of an event
through queue and deque (`Delivery`), the map between watches and paths. Together they
give what a user is told. Until the walk is over a report may lack its path, or have one
that an earlier session left behind, but nothing else is ever wrong (`reports_true`); from
then on whatever happens in a directory under a root is reported with its path, in order
and in time (`monitored`).
-/

namespace InotifyRealtime

open Bytes Machine FileTree Location DirectoryThread EpollHandler

/-- What the event thread makes of a record: its fields, and its name if it has one. -/
structure InotifyEvent.Receives (r : InotifyEvent) (e : CustomizedInotifyEvent) : Prop where
  header : e.header = r.header
  named : ¬ r.Nameless → e = r.event

theorem receivedAll_receives (rs : List InotifyEvent) (following : List Byte) :
    List.Forall₂ InotifyEvent.Receives rs (receivedAll rs following) := by
  induction rs with
  | nil => exact .nil
  | cons r rs ih =>
      refine .cons ⟨rfl, fun hnamed => ?_⟩ ih
      exact (received_eq_event_iff r _).mpr fun hnameless => absurd hnameless hnamed

/-- An element has its partner at the same place. -/
theorem exists_of_forall₂ {α β : Type*} {R : α → β → Prop} {as : List α} {bs : List β}
    (h : List.Forall₂ R as bs) {i : Nat} {b : β} (hb : bs[i]? = some b) :
    ∃ a, as[i]? = some a ∧ R a b := by
  induction h generalizing i with
  | nil => simp at hb
  | cons hab _ ih =>
      cases i with
      | zero =>
          obtain rfl := Option.some.inj hb
          exact ⟨_, rfl, hab⟩
      | succ i => exact ih hb

namespace Pipeline

/-- What has been read was received, in order. -/
def Received (s : Pipeline) : Prop :=
  ∃ taken, s.arrived = taken ++ s.pending ∧
    List.Forall₂ InotifyEvent.Receives taken (s.thread.dispatched ++ s.thread.inotifyEventBuffer)

theorem received_start (errno : Errno) : (start errno).Received := ⟨[], rfl, .nil⟩

theorem Received.step {s s' : Pipeline} {a : Action} (h : s.Received) (hstep : s.Step a s') :
    s'.Received := by
  obtain ⟨taken, harrived, hreceived⟩ := h
  cases hstep.does with
  | arrives _ => exact ⟨taken, by rw [harrived, List.append_assoc], hreceived⟩
  | setStopped => exact ⟨taken, harrived, hreceived⟩
  | @readRecords count buf _ _ =>
      refine ⟨taken ++ s.pending.take count, ?_, ?_⟩
      · rw [List.append_assoc, List.take_append_drop, harrived]
      · rw [← List.append_assoc]
        exact List.rel_append hreceived (receivedAll_receives _ _)
  | answer hallow hthread =>
      refine ⟨taken, harrived, ?_⟩
      rcases hthread.moves (hallow.sys []).no_data with ⟨hq, hd⟩ | ⟨event, hq, hd⟩
      · rw [hq, hd]
        exact hreceived
      · rw [hq] at hreceived
        rw [hd, List.append_assoc]
        exact hreceived

/-- The record of an event that was read. -/
theorem Received.record {s : Pipeline} (h : s.Received) {i : Nat} {e : CustomizedInotifyEvent}
    (he : (s.thread.dispatched ++ s.thread.inotifyEventBuffer)[i]? = some e) :
    ∃ r, s.arrived[i]? = some r ∧ r.Receives e := by
  obtain ⟨taken, harrived, hreceived⟩ := h
  obtain ⟨r, hr, hre⟩ := exists_of_forall₂ hreceived he
  refine ⟨r, ?_, hre⟩
  rw [harrived, List.getElem?_append_left (List.getElem?_eq_some_iff.mp hr).1, hr]

end Pipeline

namespace EpollHandler

/-- A step prints nothing, or the report of the front of the deque. -/
theorem Step.prints {t t' : Thread} {a : Answer} (h : Step t a t') :
    (t'.dispatched = t.dispatched ∧ t'.printed = t.printed) ∨
      ∃ path result errno event, a = .parse path result errno ∧
        t.inotifyEventBuffer.head? = some event ∧ t'.dispatched = t.dispatched ++ [event] ∧
        t'.printed = t.printed ++ [event.report path] := by
  cases h with
  | @dispatched path result errno event rest hpc hq =>
      exact .inr ⟨path, result, errno, event, rfl, by rw [hq, List.head?_cons], rfl, rfl⟩
  | readRetried _ hnd | readEndsDrain _ hnd | readIgnored _ hnd =>
      cases hnd <;> exact .inl ⟨rfl, rfl⟩
  | _ => exact .inl ⟨rfl, rfl⟩

/-- From the event number `n` on, each has been reported with a path that is right. -/
structure Reports (n : Nat) (right : Int → Path → Prop) (t : Thread) : Prop where
  since : n ≤ t.dispatched.length
  all : t.printed.length = t.dispatched.length
  right : List.Forall₂ (fun e report => ∃ path, right e.wd path ∧ report = e.report path)
    (t.dispatched.drop n) (t.printed.drop n)

theorem Reports.imp {n : Nat} {right right' : Int → Path → Prop} {t : Thread}
    (h : Reports n right t) (hmono : ∀ w p, right w p → right' w p) : Reports n right' t where
  since := h.since
  all := h.all
  right := h.right.imp fun e _ ⟨path, hright, heq⟩ => ⟨path, hmono e.wd path hright, heq⟩

/-- The reports before stay, and the next one is right. -/
theorem Reports.step {n : Nat} {right : Int → Path → Prop} {t t' : Thread} {a : Answer}
    (h : Reports n right t) (hstep : Step t a t')
    (hparse : ∀ path result errno, a = .parse path result errno →
      ∀ event ∈ t.inotifyEventBuffer.head?, right event.wd path) : Reports n right t' := by
  rcases hstep.prints with ⟨hd, hp⟩ | ⟨path, result, errno, event, ha, hhead, hd, hp⟩
  · exact ⟨hd ▸ h.since, hd ▸ hp ▸ h.all, hd ▸ hp ▸ h.right⟩
  · refine ⟨?_, ?_, ?_⟩
    · rw [hd, List.length_append]
      exact h.since.trans (Nat.le_add_right _ _)
    · rw [hd, hp, List.length_append, List.length_append, h.all]
      rfl
    · rw [hd, hp, List.drop_append_of_le_length h.since,
        List.drop_append_of_le_length (h.all ▸ h.since)]
      exact List.rel_append h.right
        (.cons ⟨path, hparse path result errno ha event hhead, rfl⟩ .nil)

theorem Reports.of_printed {n : Nat} {right : Int → Path → Prop} {t : Thread}
    (h : Reports n right t) {i : Nat} (hi : n ≤ i) {report : Report}
    (hreport : t.printed[i]? = some report) :
    ∃ e path, t.dispatched[i]? = some e ∧ right e.wd path ∧ report = e.report path := by
  have hdrop : (t.printed.drop n)[i - n]? = some report := by
    rw [List.getElem?_drop, Nat.add_sub_cancel' hi, hreport]
  obtain ⟨e, he, path, hright, heq⟩ := exists_of_forall₂ h.right hdrop
  rw [List.getElem?_drop, Nat.add_sub_cancel' hi] at he
  exact ⟨e, path, he, hright, heq⟩

end EpollHandler

/-- In the pipeline only the event thread's own steps print. -/
theorem Pipeline.step_reports {n : Nat} {right : Int → Path → Prop} {s s' : Pipeline}
    {a : Pipeline.Action} (hstep : s.Step a s') (h : Reports n right s.thread)
    (hparse : ∀ path result errno, a = .answer (.parse path result errno) →
      ∀ event ∈ s.thread.inotifyEventBuffer.head?, right event.wd path) :
    Reports n right s'.thread := by
  cases hstep.does with
  | arrives _ | setStopped => exact h
  | readRecords _ _ => exact ⟨h.since, h.all, h.right⟩
  | answer _ hthread =>
      exact h.step hthread fun path result errno ha => hparse path result errno (congrArg _ ha)

structure Monitoring (Obj : Type) where
  directory : Alone Obj
  pipeline : Pipeline
  /-- What the kernel has queued and where it happened, oldest first. -/
  happened : List (Obj × InotifyEvent)

namespace Monitoring

variable {Obj : Type}

/-- Both threads have been started. -/
def start (os : Os Obj) (mgr : InotifyWatchMgr) (detectList : List Path) (errno : Errno) :
    Monitoring Obj where
  directory := .enter os ⟨mgr, .fresh⟩ (.start detectList)
  pipeline := .start errno
  happened := []

inductive Action (Obj : Type)
  /-- Something happens in a directory that is watched, and the kernel queues a record. -/
  | happens (o : Obj) (r : InotifyEvent)
  /-- The directory thread goes on. -/
  | directory
  /-- The event thread does, or the flag is set. -/
  | events (a : Pipeline.Action)

/-- `GetPath` sees the map as it is. -/
def Allows (s : Monitoring Obj) : Pipeline.Action → Prop
  | .arrives _ => False
  | .answer (.parse path _ _) => ∀ event ∈ s.pipeline.thread.inotifyEventBuffer.head?,
      path = s.directory.watches.mgr.getPath event.wd
  | _ => True

instance (s : Monitoring Obj) : (a : Pipeline.Action) → Decidable (s.Allows a)
  | .arrives _ => .isFalse id
  | .answer (.parse path _ _) => inferInstanceAs (Decidable
      (∀ event ∈ s.pipeline.thread.inotifyEventBuffer.head?,
        path = s.directory.watches.mgr.getPath event.wd))
  | .setStopped | .readRecords _ _ | .answer (.epollCtl _) | .answer (.stopped _)
  | .answer (.epollWait _ _) | .answer (.readError _) | .answer (.readBytes _ _) => .isTrue trivial

variable [DecidableEq Obj]

def next (os : Os Obj) (s : Monitoring Obj) : Action Obj → Option (Monitoring Obj)
  | .happens o r =>
      if s.directory.watches.inst.wdOf o = some r.wd.toInt then
        (s.pipeline.next (.arrives r)).map fun pipeline =>
          { s with pipeline, happened := s.happened ++ [(o, r)] }
      else none
  | .directory =>
      (s.directory.next os s.pipeline.stopped).map fun directory => { s with directory }
  | .events a =>
      if s.Allows a then (s.pipeline.next a).map fun pipeline => { s with pipeline } else none

def Step (os : Os Obj) (s : Monitoring Obj) (a : Action Obj) (s' : Monitoring Obj) : Prop :=
  s.next os a = some s'

/-- What can happen at once. -/
inductive Does (os : Os Obj) : Monitoring Obj → Action Obj → Monitoring Obj → Prop
  | happens {s : Monitoring Obj} {o : Obj} {r : InotifyEvent} {pipeline : Pipeline} :
      s.directory.watches.inst.wdOf o = some r.wd.toInt → s.pipeline.Step (.arrives r) pipeline →
      Does os s (.happens o r) { s with pipeline, happened := s.happened ++ [(o, r)] }
  | directory {s : Monitoring Obj} {directory : Alone Obj} :
      s.directory.next os s.pipeline.stopped = some directory →
      Does os s .directory { s with directory }
  | events {s : Monitoring Obj} {a : Pipeline.Action} {pipeline : Pipeline} :
      s.Allows a → s.pipeline.Step a pipeline → Does os s (.events a) { s with pipeline }

theorem Step.does {os : Os Obj} {s s' : Monitoring Obj} {a : Action Obj} (h : s.Step os a s') :
    Does os s a s' := by
  cases a with
  | happens o r =>
      obtain ⟨hwatched, h⟩ := Option.ite_none_right_eq_some.mp h
      obtain ⟨pipeline, hstep, rfl⟩ := Option.map_eq_some_iff.mp h
      exact .happens hwatched hstep
  | directory =>
      obtain ⟨directory, hstep, rfl⟩ := Option.map_eq_some_iff.mp h
      exact .directory hstep
  | events a =>
      obtain ⟨hallow, h⟩ := Option.ite_none_right_eq_some.mp h
      obtain ⟨pipeline, hstep, rfl⟩ := Option.map_eq_some_iff.mp h
      exact .events hallow hstep

/-! ### What every run keeps -/

variable {os : Os Obj} {pathname : Path → List Name → Path} {t : FileTree Obj Leaf}
  {roots : List (Path × List Name)}

/-- The path is the canonical one of the directory with this watch. -/
def Knows (t : FileTree Obj Leaf) (roots : List (Path × List Name)) (s : Monitoring Obj) (w : Int)
    (p : Path) : Prop :=
  ∃ o, UnderPath (UnderRoot t roots) o p ∧ s.directory.watches.inst.wdOf o = some w

/-- Besides, the map may hold what it held at the start. -/
structure Sound (os : Os Obj) (t : FileTree Obj Leaf) (roots : List (Path × List Name))
    (m : InotifyWatchMgr) (s : Monitoring Obj) : Prop where
  walk : s.directory.Within os t roots m
  received : s.pipeline.Received
  queued : s.happened.map Prod.snd = s.pipeline.arrived
  places : ∀ x ∈ s.happened, s.directory.watches.inst.wdOf x.1 = some x.2.wd.toInt
  reports : Reports 0 (fun w p => s.Knows t roots w p ∨ p = m.getPath w) s.pipeline.thread

omit [DecidableEq Obj] in
theorem sound_start (hs : Serves os pathname t roots) (m : InotifyWatchMgr) (errno : Errno) :
    (start os m (roots.map Prod.fst) errno).Sound os t roots m where
  walk := by
    have hnone {o : Obj} {w : Int} (h : (Inotify.fresh : Inotify Obj).wdOf o = some w) : False :=
      Option.some_ne_none w h.symm
    have hst : Watches.Within t roots m ⟨m, .fresh⟩ :=
      ⟨fun _ _ h => (hnone h).elim, fun _ => .inr rfl⟩
    exact within_enter hs hst (fun _ _ h => (hnone h).elim) fun _ hr => hr
  received := Pipeline.received_start errno
  queued := rfl
  places _ hx := absurd hx List.not_mem_nil
  reports := ⟨Nat.zero_le _, rfl, .nil⟩

omit [DecidableEq Obj] in
/-- A step of the event thread, by what it leads to in the parts that matter. -/
theorem reports_events {n : Nat} {right : Int → Path → Prop} {s : Monitoring Obj}
    {a : Pipeline.Action} {pipeline : Pipeline} (hallow : s.Allows a)
    (hstep : s.pipeline.Step a pipeline) (h : Reports n right s.pipeline.thread)
    (hright : ∀ event ∈ s.pipeline.thread.inotifyEventBuffer.head?,
      right event.wd (s.directory.watches.mgr.getPath event.wd)) :
    pipeline.arrived = s.pipeline.arrived ∧ Reports n right pipeline.thread := by
  refine ⟨?_, Pipeline.step_reports hstep h fun path result errno ha event hevent => ?_⟩
  · cases hstep.does with
    | arrives _ => exact absurd hallow id
    | setStopped | readRecords _ _ | answer _ _ => rfl
  · subst ha
    rw [hallow event hevent]
    exact hright event hevent

theorem Sound.step (hs : Serves os pathname t roots) {m : InotifyWatchMgr} {s s' : Monitoring Obj}
    {a : Action Obj} (h : s.Sound os t roots m) (hstep : s.Step os a s') :
    s'.Sound os t roots m := by
  cases hstep.does with
  | @happens o r pipeline hwatched harrives =>
      refine ⟨h.walk, h.received.step harrives, ?_, fun x hx => ?_, ?_⟩
      · rw [List.map_append, h.queued, Pipeline.step_arrived harrives]
        rfl
      · rcases List.mem_append.mp hx with hx | hx
        · exact h.places x hx
        · rw [List.mem_singleton.mp hx]
          exact hwatched
      · cases harrives.does with
        | arrives _ => exact h.reports
  | directory hnext =>
      obtain ⟨hwalk, hkeeps⟩ := h.walk.next hs hnext
      refine ⟨hwalk, h.received, h.queued, fun x hx => hkeeps _ _ (h.places x hx), ?_⟩
      refine h.reports.imp fun w p hp => hp.imp_left fun hknows => ?_
      obtain ⟨o, hunder, hw⟩ := hknows
      exact ⟨o, hunder, hkeeps o w hw⟩
  | events hallow hevents =>
      obtain ⟨harrived, hreports⟩ := reports_events hallow hevents h.reports
        fun event _ => h.walk.watches.paths event.wd
      exact ⟨h.walk, h.received.step hevents, h.queued.trans harrived.symm, h.places, hreports⟩

omit [DecidableEq Obj] in
/-- Where an event that was read happened. -/
theorem Sound.place {m : InotifyWatchMgr} {s : Monitoring Obj} (h : s.Sound os t roots m) {i : Nat}
    {e : CustomizedInotifyEvent} (he : (s.pipeline.thread.dispatched ++
      s.pipeline.thread.inotifyEventBuffer)[i]? = some e) :
    ∃ o r, s.happened[i]? = some (o, r) ∧ r.Receives e ∧
      s.directory.watches.inst.wdOf o = some e.wd := by
  obtain ⟨r, hr, hreceives⟩ := h.received.record he
  rw [← h.queued, List.getElem?_map] at hr
  obtain ⟨⟨o, r'⟩, hx, heq⟩ := Option.map_eq_some_iff.mp hr
  obtain rfl : r' = r := heq
  refine ⟨o, r', hx, hreceives, ?_⟩
  have hwd : e.wd = r'.wd.toInt := congrArg Header.wd hreceives.header
  rw [hwd]
  exact h.places _ (List.mem_of_getElem? hx)

omit [DecidableEq Obj] in
/-- A report and what it is of. -/
theorem Sound.report {m : InotifyWatchMgr} {n : Nat} {right : Int → Path → Prop}
    {s : Monitoring Obj} (h : s.Sound os t roots m) (hr : Reports n right s.pipeline.thread)
    {i : Nat} (hi : n ≤ i) {report : Report}
    (hreport : s.pipeline.thread.printed[i]? = some report) :
    ∃ o r e path, s.happened[i]? = some (o, r) ∧ r.Receives e ∧
      s.directory.watches.inst.wdOf o = some e.wd ∧ right e.wd path ∧
      report = e.report path := by
  obtain ⟨e, path, he, hright, heq⟩ := hr.of_printed hi hreport
  have hlt := (List.getElem?_eq_some_iff.mp he).1
  obtain ⟨o, r, hx, hreceives, hwd⟩ := h.place ((List.getElem?_append_left hlt).trans he)
  exact ⟨o, r, e, path, hx, hreceives, hwd, hright, heq⟩

/-- **What a report says.** In any run of a session on a file tree, whatever the threads, the
flag and the calls of `ParseRawEvent` do (one on an empty deque is the last thing the event
thread does here), the reports are those of the first events that the kernel queued, one
for each and in their order, with their fields and names. Each happened in a directory under
a root, and has its canonical path, or the one an earlier session stored for the number of
its watch (none, in the first session). -/
theorem reports_true (hs : Serves os pathname t roots) (mgr : InotifyWatchMgr) (errno : Errno)
    (hist : List (Monitoring Obj × Action Obj)) (s : Monitoring Obj)
    (h : Run (Step os) (start os mgr (roots.map Prod.fst) errno) hist s) (i : Nat)
    (report : Report) (hreport : s.pipeline.thread.printed[i]? = some report) :
    ∃ o r l e path, s.happened[i]? = some (o, r) ∧ UnderRoot t roots o l ∧ r.Receives e ∧
      report = e.report path ∧ (path = canonical l ∨ path = mgr.getPath e.wd) := by
  have hsound := h.invariant (fun _ _ _ hk hstep => Sound.step hs hk hstep)
    (sound_start hs mgr errno)
  obtain ⟨o, r, e, path, hx, hreceives, hwd, hright, heq⟩ :=
    hsound.report hsound.reports (Nat.zero_le i) hreport
  rcases hright with ⟨o', ⟨l, hunder, hpath⟩, hw⟩ | hbefore
  · obtain rfl := s.directory.watches.inst.wdOf_injective o o' e.wd hwd hw
    exact ⟨o, r, l, e, path, hx, hunder, hreceives, heq, .inl hpath⟩
  · obtain ⟨_, l, hunder, -⟩ := hsound.walk.watches.watched o e.wd hwd
    exact ⟨o, r, l, e, path, hx, hunder, hreceives, heq, .inr hbefore⟩

/-- The directory thread walks `/d`, `/` and `/d` again. -/
def wholeWalk : List (Action Nat) := List.replicate 25 .directory

/-- A file is created in `/d`, and the event thread reads and reports it. -/
def createdInD : List (Action Nat) :=
  [.happens 1 createRecord, .events (.answer (.epollCtl false)), .events (.answer (.stopped false)),
   .events (.answer (.epollWait 1 .zero)), .events (.answer (.stopped false)),
   .events (.readRecords 1 (.zeroed [createRecord] createRecord_fits)),
   .events (.answer (.stopped false)), .events (.answer (.readError .eagain)),
   .events (.answer (.parse (canonical [nameD]) false .zero))]

theorem createdInD_printed :
    (exec (next smallOs) (start smallOs .new (nestedRoots.map Prod.fst) .zero)
      (wholeWalk ++ createdInD)).map (fun x => x.2.pipeline.thread.printed) =
        some [createRecord.event.report (canonical [nameD])] := by
  decide +kernel

theorem reports_true_createdInD :
    ∃ hist s, exec (next smallOs) (start smallOs .new (nestedRoots.map Prod.fst) .zero)
        (wholeWalk ++ createdInD) = some (hist, s) ∧
      ∃ o r l e path, s.happened[0]? = some (o, r) ∧ UnderRoot smallTree nestedRoots o l ∧
        r.Receives e ∧ createRecord.event.report (canonical [nameD]) = e.report path ∧
        (path = canonical l ∨ path = InotifyWatchMgr.new.getPath e.wd) := by
  obtain ⟨⟨hist, s⟩, hexec, hprinted⟩ := Option.map_eq_some_iff.mp createdInD_printed
  refine ⟨hist, s, hexec, reports_true serves_nestedRoots .new .zero hist s (run_of_exec hexec) 0
    _ ?_⟩
  rw [show s.pipeline.thread.printed = _ from hprinted]
  rfl

/-! ### What is seen when the walk is over -/

/-- What the event thread and the kernel's queue have to do with an action. -/
def Action.seen : Action Obj → Option Pipeline.Action
  | .happens _ r => some (.arrives r)
  | .directory => none
  | .events a => some a

/-- What the directory thread has. It takes its one next step. -/
def Action.walks : Action Obj → Option Unit
  | .directory => some ()
  | .happens _ _ | .events _ => none

/-- A run as the event thread and the kernel's queue see it. -/
def events (hist : List (Monitoring Obj × Action Obj)) : List (Pipeline × Pipeline.Action) :=
  hist.filterMap fun x => x.2.seen.map fun a => (x.1.pipeline, a)

/-- The steps of the directory thread in a run. -/
def walk (hist : List (Monitoring Obj × Action Obj)) : List (Alone Obj × Unit) :=
  hist.filterMap fun x => x.2.walks.map fun u => (x.1.directory, u)

/-- Nobody sets the flag, and no call of `ParseRawEvent` on the last event of the deque
yields `true`. -/
def Undisturbed (s : Monitoring Obj) (a : Action Obj) : Prop :=
  ∀ b ∈ a.seen, s.pipeline.Undisturbed b

instance (s : Monitoring Obj) (a : Action Obj) : Decidable (Undisturbed s a) :=
  inferInstanceAs (Decidable (∀ b ∈ a.seen, s.pipeline.Undisturbed b))

/-- The report number `i` is there, and says what happened and where. -/
def Reported (t : FileTree Obj Leaf) (roots : List (Path × List Name)) (s : Monitoring Obj)
    (i : Nat) (x : Obj × InotifyEvent) : Prop :=
  ∃ l e, UnderRoot t roots x.1 l ∧ x.2.Receives e ∧
    s.pipeline.thread.printed[i]? = some (e.report (canonical l))

theorem step_seen {s s' : Monitoring Obj} {a : Action Obj} (h : s.Step os a s') :
    (∀ b, a.seen = some b → s.pipeline.Step b s'.pipeline) ∧
      (a.seen = none → s'.pipeline = s.pipeline) := by
  cases h.does with
  | happens _ harrives => exact ⟨fun b hb => Option.some.inj hb ▸ harrives, nofun⟩
  | directory _ => exact ⟨nofun, fun _ => rfl⟩
  | events _ hevents => exact ⟨fun b hb => Option.some.inj hb ▸ hevents, nofun⟩

theorem run_events {s s' : Monitoring Obj} {hist : List (Monitoring Obj × Action Obj)}
    (h : Run (Step os) s hist s') : Run Pipeline.Step s.pipeline (events hist) s'.pipeline :=
  h.maps (I := fun _ => True) (f := Monitoring.pipeline) (l := fun _ (a : Action Obj) => a.seen)
    (fun _ _ _ _ _ => trivial) (fun _ _ _ b _ hstep hb => (step_seen hstep).1 b hb)
    (fun _ _ _ _ hstep hnone => (step_seen hstep).2 hnone) trivial

omit [DecidableEq Obj] in
theorem undisturbed_events {hist : List (Monitoring Obj × Action Obj)}
    (h : Meets Undisturbed hist) : Meets Pipeline.Undisturbed (events hist) :=
  h.maps (f := Monitoring.pipeline) (l := fun _ (a : Action Obj) => a.seen)
    fun _ _ b hundisturbed hb => hundisturbed b hb

theorem fed_step {s s' : Monitoring Obj} {a : Action Obj} (h : s.pipeline.Fed)
    (hundisturbed : Undisturbed s a) (hstep : s.Step os a s') : s'.pipeline.Fed := by
  cases hseen : a.seen with
  | none => exact (step_seen hstep).2 hseen ▸ h
  | some b => exact h.step (hundisturbed b hseen) ((step_seen hstep).1 b hseen)

theorem step_walks {s s' : Monitoring Obj} {a : Action Obj} (h : s.Step os a s') :
    (a.walks.isSome = true → s.directory.next os s.pipeline.stopped = some s'.directory) ∧
      (a.walks = none → s'.directory = s.directory) := by
  cases h.does with
  | happens _ _ | events _ _ => exact ⟨fun hsome => absurd hsome Bool.false_ne_true, fun _ => rfl⟩
  | directory hnext => exact ⟨fun _ => hnext, nofun⟩

/-- Undisturbed, the directory thread does what it does alone. -/
theorem run_walk {s s' : Monitoring Obj} {hist : List (Monitoring Obj × Action Obj)}
    (h : Run (Step os) s hist s') (hundisturbed : Meets Undisturbed hist) (hfed : s.pipeline.Fed) :
    Run (fun d _ d' => d.next os false = some d') s.directory (walk hist) s'.directory := by
  refine (h.meeting hundisturbed).maps (I := fun s => s.pipeline.Fed) (f := Monitoring.directory)
    (l := fun _ (a : Action Obj) => a.walks)
    (fun _ _ _ hf hstep => fed_step hf hstep.2 hstep.1)
    (fun s a s' _ hf hstep hwalks => ?_) (fun s a s' _ hstep hnone => ?_) hfed
  · rw [← hf.clear]
    exact (step_walks hstep.1).1 (by rw [hwalks, Option.isSome_some])
  · exact (step_walks hstep.1).2 hnone

/-- A directory thread that has returned stays where it is. -/
theorem Step.returned {s s' : Monitoring Obj} {a : Action Obj} (h : s.Step os a s')
    (hreturned : s.directory.thread.pc = .returned) : s'.directory = s.directory := by
  cases h.does with
  | happens _ _ | events _ _ => rfl
  | directory hnext => simp [Alone.next, hreturned] at hnext

omit [DecidableEq Obj] in
/-- The event at the front of the deque has the path of its directory. -/
theorem Sound.front {m : InotifyWatchMgr} {s : Monitoring Obj} (h : s.Sound os t roots m)
    (hreturned : s.directory.thread.pc = .returned) {event : CustomizedInotifyEvent}
    (hevent : event ∈ s.pipeline.thread.inotifyEventBuffer.head?) :
    s.Knows t roots event.wd (s.directory.watches.mgr.getPath event.wd) := by
  have hindex : (s.pipeline.thread.dispatched ++ s.pipeline.thread.inotifyEventBuffer)[
      s.pipeline.thread.dispatched.length]? = some event := by
    rw [List.getElem?_append_right le_rfl, Nat.sub_self, ← List.head?_eq_getElem?]
    exact hevent
  obtain ⟨o, r, -, -, hwd⟩ := h.place hindex
  exact ⟨o, h.walk.all_listed (by rw [hreturned]; rfl) o event.wd hwd, hwd⟩

/-- What is kept from when the walk is over. -/
structure Covering (os : Os Obj) (t : FileTree Obj Leaf) (roots : List (Path × List Name))
    (m : InotifyWatchMgr) (n : Nat) (s : Monitoring Obj) : Prop where
  sound : s.Sound os t roots m
  returned : s.directory.thread.pc = .returned
  reports : Reports n (s.Knows t roots) s.pipeline.thread

theorem Covering.step (hs : Serves os pathname t roots) {m : InotifyWatchMgr} {n : Nat}
    {s s' : Monitoring Obj} {a : Action Obj} (h : s.Covering os t roots m n)
    (hstep : s.Step os a s') : s'.Covering os t roots m n := by
  have hsame := hstep.returned h.returned
  refine ⟨h.sound.step hs hstep, hsame ▸ h.returned, ?_⟩
  have hknows : s'.Knows t roots = s.Knows t roots := by
    funext w p
    simp only [Knows, hsame]
  rw [hknows]
  cases hstep.does with
  | happens _ harrives =>
      cases harrives.does with
      | arrives _ => exact h.reports
  | directory _ => exact h.reports
  | events hallow hevents =>
      exact (reports_events hallow hevents h.reports fun event hevent =>
        h.sound.front h.returned hevent).2

omit [DecidableEq Obj] in
/-- What was dispatched since is reported. -/
theorem Covering.reported {m : InotifyWatchMgr} {n : Nat} {s : Monitoring Obj}
    (h : s.Covering os t roots m n) {i : Nat} (hn : n ≤ i) {x : Obj × InotifyEvent}
    (hx : s.happened[i]? = some x) (hi : i < s.pipeline.thread.dispatched.length) :
    s.Reported t roots i x := by
  have hprinted : i < s.pipeline.thread.printed.length := h.reports.all ▸ hi
  obtain ⟨o, r, e, path, hx', hreceives, hwd, ⟨o', ⟨l, hunder, hpath⟩, hw⟩, heq⟩ :=
    h.sound.report h.reports hn (List.getElem?_eq_getElem hprinted)
  obtain rfl := Option.some.inj (hx.symm.trans hx')
  obtain rfl := s.directory.watches.inst.wdOf_injective o o' e.wd hwd hw
  refine ⟨l, e, hunder, hreceives, ?_⟩
  rw [List.getElem?_eq_getElem hprinted, heq, hpath]

/-- The event thread can always go on, with the path that `GetPath` answers. -/
theorem goes_on {s : Monitoring Obj} (h : s.pipeline.Fed) :
    ∃ a s', a.isThread = true ∧ Undisturbed s (.events a) ∧ s.Step os (.events a) s' := by
  have hevents {a : Pipeline.Action} {p : Pipeline} (hallow : s.Allows a)
      (hstep : s.pipeline.Step a p) : s.Step os (.events a) { s with pipeline := p } :=
    Option.ite_none_right_eq_some.mpr ⟨hallow, Option.map_eq_some_iff.mpr ⟨p, hstep, rfl⟩⟩
  obtain ⟨a, p, hthread, hundisturbed, hstep⟩ := h.goes_on
  by_cases hallow : s.Allows a
  · exact ⟨a, _, hthread, fun _ hb => Option.some.inj hb ▸ hundisturbed, hevents hallow hstep⟩
  · cases a with
    | arrives r => exact absurd hthread Bool.false_ne_true
    | setStopped | readRecords _ _ => exact absurd trivial hallow
    | answer a =>
        cases a with
        | epollCtl _ | stopped _ | epollWait _ _ | readError _ | readBytes _ _ =>
            exact absurd trivial hallow
        | parse path result errno =>
            have hpc : s.pipeline.thread.pc = .dispatch := by
              cases hstep.does with
              | answer _ hparse => exact hparse.answersAt
            let front := s.pipeline.thread.inotifyEventBuffer.head?.map CustomizedInotifyEvent.wd
            have hnext : s.pipeline.Allows
                (.parse (s.directory.watches.mgr.getPath (front.getD 0)) false .zero) := trivial
            obtain ⟨p', hstep'⟩ := Pipeline.step_of_answersAt hnext hpc
            refine ⟨_, _, rfl, fun b hb => ?_, hevents ?_ hstep'⟩
            · obtain rfl := Option.some.inj hb
              exact fun hresult => absurd hresult Bool.false_ne_true
            · intro event hevent
              simp only [front, Option.mem_def.mp hevent, Option.map_some, Option.getD_some]

/-- **What happens is reported.** As long as a session on a file tree is not disturbed, both
threads can go on, the directory thread for a certain number of steps, after which the
walk is over. From then on, whatever earlier sessions left in the map, every directory
under a root is watched, and whatever is queued then or happens later in one of them is
reported in its turn, with its canonical path: as soon as it is dispatched, which takes
the event thread 24 steps for it and for each event before it, another 24, and two for
each interruption. -/
theorem monitored (hs : Serves os pathname t roots) (mgr : InotifyWatchMgr) (errno : Errno) :
    ∃ n, ∀ (past : List (Monitoring Obj × Action Obj)) (s : Monitoring Obj),
      Run (Step os) (start os mgr (roots.map Prod.fst) errno) past s → Meets Undisturbed past →
      (∃ a s', a.isThread = true ∧ Undisturbed s (.events a) ∧ s.Step os (.events a) s') ∧
      (walk past).length ≤ n ∧ ((walk past).length < n → ∃ s', s.Step os .directory s') ∧
      ((walk past).length = n →
        (∀ o l, UnderRoot t roots o l → ∃ w, s.directory.watches.inst.wdOf o = some w) ∧
        ∀ (hist : List (Monitoring Obj × Action Obj)) (s' : Monitoring Obj),
          Run (Step os) s hist s' → Meets Undisturbed hist →
          ∀ i x, s.pipeline.thread.dispatched.length ≤ i → s'.happened[i]? = some x →
            (i < s'.pipeline.thread.dispatched.length → s'.Reported t roots i x) ∧
            (i < s.happened.length →
              24 * (i + 1 - s.pipeline.thread.dispatched.length) + 24 +
                2 * Pipeline.interruptions (events hist) < Pipeline.threadSteps (events hist) →
              s'.Reported t roots i x)) := by
  obtain ⟨n, hn⟩ := walk_ends hs ⟨mgr, .fresh⟩
  refine ⟨n, fun past s hpast hundisturbed => ?_⟩
  have hfed₀ : (start os mgr (roots.map Prod.fst) errno).pipeline.Fed := Pipeline.fed_start errno
  have hfed : s.pipeline.Fed := hfed₀.run (run_events hpast) (undisturbed_events hundisturbed)
  have hsound := hpast.invariant (fun _ _ _ hk hstep => Sound.step hs hk hstep)
    (sound_start hs mgr errno)
  obtain ⟨hle, hgoes, hend⟩ := hn _ _ (run_walk hpast hundisturbed hfed₀)
  refine ⟨goes_on hfed, hle, fun hlt => ?_, fun hover => ?_⟩
  · obtain ⟨d, hd⟩ := hgoes hlt
    refine ⟨{ s with directory := d }, ?_⟩
    simp only [Step, next, hfed.clear, hd, Option.map_some]
  · obtain ⟨hreturned, hwatched⟩ := hend hover
    refine ⟨hwatched, fun hist s' hhist hundisturbed' i x hi hx => ?_⟩
    have hcovering : s.Covering os t roots mgr s.pipeline.thread.dispatched.length := by
      refine ⟨hsound, hreturned, le_rfl, hsound.reports.all, ?_⟩
      rw [List.drop_length, ← hsound.reports.all, List.drop_length]
      exact .nil
    have hcovering' := hhist.invariant (fun _ _ _ hk hstep => Covering.step hs hk hstep) hcovering
    have hreported := hcovering'.reported hi hx
    refine ⟨hreported, fun hqueued hlong => hreported ?_⟩
    refine hfed.dispatches_in_time (run_events hhist) (undisturbed_events hundisturbed') ?_ hlong
    rwa [← hsound.queued, List.length_map]

theorem createdInD_possible :
    ((exec (next smallOs) (start smallOs .new (nestedRoots.map Prod.fst) .zero) wholeWalk).bind
      fun x => (exec (next smallOs) x.2 createdInD).map fun y =>
        (((x.1 ++ y.1).all fun z => decide (Undisturbed z.1 z.2)) &&
            decide (x.2.directory.thread.pc = .returned),
          x.2.pipeline.thread.dispatched.length, y.2.pipeline.thread.dispatched.length,
          y.2.happened)) = some (true, 0, 1, [(1, createRecord)]) := by
  decide +kernel

theorem monitored_createdInD :
    ∃ past s hist s',
      exec (next smallOs) (start smallOs .new (nestedRoots.map Prod.fst) .zero) wholeWalk =
        some (past, s) ∧
      exec (next smallOs) s createdInD = some (hist, s') ∧
      s'.Reported smallTree nestedRoots 0 (1, createRecord) := by
  obtain ⟨⟨past, s⟩, hpast, hthen⟩ := Option.bind_eq_some_iff.mp createdInD_possible
  obtain ⟨⟨hist, s'⟩, hhist, hresult⟩ := Option.map_eq_some_iff.mp hthen
  simp only [Prod.mk.injEq, Bool.and_eq_true, decide_eq_true_eq] at hresult
  obtain ⟨⟨hall, hreturned⟩, hnone, hone, hhappened⟩ := hresult
  obtain ⟨hfirst, hlater⟩ := meets_append.mp (show Meets Undisturbed (past ++ hist) from
    fun x hx => of_decide_eq_true (List.all_eq_true.mp hall x hx))
  obtain ⟨n, hn⟩ := monitored serves_nestedRoots .new .zero
  obtain ⟨-, hle, hgoes, hover⟩ := hn past s (run_of_exec hpast) hfirst
  -- the thread has returned, so that it can get no further
  have hlen : (walk past).length = n := by
    refine Nat.le_antisymm hle (Nat.le_of_not_lt fun hlt => ?_)
    obtain ⟨u, hu⟩ := hgoes hlt
    simp [Step, next, Alone.next, hreturned] at hu
  exact ⟨past, s, hist, s', hpast, hhist, ((hover hlen).2 hist s' (run_of_exec hhist) hlater 0 _
    (hnone ▸ Nat.le_refl 0) (by rw [hhappened]; rfl)).1 (by rw [hone]; exact Nat.one_pos)⟩

end Monitoring

end InotifyRealtime
