import InotifyRealtime.Monitoring
/-!
# InotifyRealtime.Overflow

More events than the kernel holds.

An inotify instance queues a limited number of records. An event that finds the queue
full is lost, and a record with `IN_Q_OVERFLOW` and the watch descriptor -1 is queued in
its place, unless one is there already. An event that equals the last record in the
queue, cookie and name included, is not queued a second time.

The program does not know of either. To `EpollHandler` an overflow is a record like any
other, `InotifyMaskToString` has no name for its mask, and `ParseRawEvent` prints an event
from -1 with an empty mask. So a loss can be seen in the output, and only a loss looks like
that. And as there is a bound on the kernel's queue now, besides that on the deque, the
output is never far behind, whatever happens (`reported_or_announced`).
-/

namespace InotifyRealtime

open Bytes Machine EpollHandler

def inQOverflow : BitVec 32 := 0x4000#32

/-- The record that stands for what was lost. It has no name, as that of an `opendir`. -/
def overflowRecord : InotifyEvent where
  wd := 0xffffffff#32
  mask := inQOverflow
  cookie := 0#32
  name := []
  padding := 0
  name_nulFree := openRecord.name_nulFree
  name_terminated := openRecord.name_terminated
  len_lt := openRecord.len_lt

/-- What the kernel puts into a queue of at most `limit` records when an event happens. -/
def queuedFor (limit : Nat) (pending : List InotifyEvent) (r : InotifyEvent) :
    Option InotifyEvent :=
  if pending.length < limit then
    if pending.getLast? = some r then none else some r
  else if overflowRecord ∈ pending then none
  else some overflowRecord

/-- What `ParseRawEvent` prints for an overflow, whatever it finds behind the record. -/
theorem report_overflowRecord {e : CustomizedInotifyEvent} (h : overflowRecord.Receives e)
    (path : Path) : (e.report path).eventFrom = -1 ∧ (e.report path).eventMask = [] := by
  have hwd : e.wd = -1 := congrArg Header.wd h.header
  have hmask : e.mask = inQOverflow := congrArg Header.mask h.header
  refine ⟨hwd, ?_⟩
  show inotifyMaskToString (e.mask.setWidth 64) = []
  rw [hmask]
  decide

namespace Pipeline

/-- The most events the deque can hold, one `read` after it held nine. -/
def dequeSize : Nat := maxInotifyEventSize - 1 + readBufferSize / headerSize

theorem Hands.length_le {s : Pipeline} {count : Nat} {buf : ReadBuffer} (h : s.Hands count buf) :
    (s.pending.take count).length ≤ readBufferSize / headerSize := by
  have hheaders := headerSize_mul_length_le (s.pending.take count)
  have hfits := h.2.length_le
  rw [Nat.le_div_iff_mul_le (by decide), Nat.mul_comm]
  omega

/-- The kernel's queue gets shorter by what is read. -/
theorem step_pending {s s' : Pipeline} {a : Action} (h : s.Step a s') (hnone : a.arrivals = []) :
    s'.pending = s.pending ∨ s'.pending.length < s.pending.length := by
  cases h.does with
  | arrives _ => exact absurd hnone (List.cons_ne_nil _ _)
  | setStopped | answer _ _ => exact .inl rfl
  | @readRecords count buf hhands _ =>
      have hsome := List.length_pos_iff.mpr hhands.1
      rw [List.length_take] at hsome
      refine .inr ?_
      show (s.pending.drop count).length < _
      rw [List.length_drop]
      omega

theorem Fed.step_deque {s s' : Pipeline} {a : Action} (h : s.Fed) (hstep : s.Step a s')
    (hdeque : s.thread.inotifyEventBuffer.length ≤ dequeSize) :
    s'.thread.inotifyEventBuffer.length ≤ dequeSize := by
  cases hstep.does with
  | arrives _ | setStopped => exact hdeque
  | readRecords hhands hpc =>
      have hcapped := h.capped hpc
      have hmany := hhands.length_le
      show List.length (_ ++ _) ≤ _
      rw [List.length_append, receivedAll_length]
      simp only [dequeSize]
      omega
  | answer hallow hthread =>
      rcases hthread.moves (hallow.sys []).no_data with ⟨hq, -⟩ | ⟨event, hq, -⟩
      · exact (congrArg List.length hq).le.trans hdeque
      · rw [hq, List.length_cons] at hdeque
        exact (Nat.le_succ _).trans hdeque

/-- A record in the kernel's queue has its place behind what is dispatched. -/
theorem Received.place {s : Pipeline} (h : s.Received) {r : InotifyEvent} (hr : r ∈ s.pending) :
    ∃ i, s.thread.dispatched.length ≤ i ∧ s.arrived[i]? = some r := by
  obtain ⟨taken, harrived, hreceived⟩ := h
  obtain ⟨i, hi⟩ := List.mem_iff_getElem?.mp hr
  have hlength := hreceived.length_eq
  rw [List.length_append] at hlength
  refine ⟨taken.length + i, by omega, ?_⟩
  rw [harrived, List.getElem?_append_right (Nat.le_add_right _ _), Nat.add_sub_cancel_left, hi]

/-- What has arrived and is not dispatched is in the deque or in the kernel's queue. -/
theorem Conserves.behind {s : Pipeline} (h : s.Conserves) :
    s.arrived.length - s.thread.dispatched.length =
      s.thread.inotifyEventBuffer.length + s.pending.length := by
  have hlength := h.length
  omega

end Pipeline

namespace Overflow

inductive Action
  /-- Something happens in a directory that is watched. -/
  | happens (r : InotifyEvent)
  /-- The event thread goes on, or the flag is set. -/
  | goesOn (a : Pipeline.Action)

/-- Watches are numbered from 1, and names have at most 255 bytes. -/
def Allows : Action → Prop
  | .happens r => 0 < r.wd.toInt ∧ r.encode.length ≤ readBufferSize
  | .goesOn a => a.arrivals = []

instance : DecidablePred Allows
  | .happens r => inferInstanceAs (Decidable (0 < r.wd.toInt ∧ r.encode.length ≤ readBufferSize))
  | .goesOn a => inferInstanceAs (Decidable (a.arrivals = []))

/-- What the pipeline has to do with an action. -/
def seen (limit : Nat) (s : Pipeline) : Action → Option Pipeline.Action
  | .happens r => (queuedFor limit s.pending r).map .arrives
  | .goesOn a => some a

/-- The pipeline behind a queue of at most `limit` records. -/
def next (limit : Nat) (s : Pipeline) (a : Action) : Option Pipeline :=
  if Allows a then
    match seen limit s a with
    | none => some s
    | some b => s.next b
  else none

def Step (limit : Nat) (s : Pipeline) (a : Action) (s' : Pipeline) : Prop :=
  next limit s a = some s'

/-- What can happen at once. -/
inductive Does (limit : Nat) : Pipeline → Action → Pipeline → Prop
  | queued {s s' : Pipeline} {r : InotifyEvent} :
      0 < r.wd.toInt → s.pending.length < limit → s.Step (.arrives r) s' →
      Does limit s (.happens r) s'
  | coalesced {s : Pipeline} {r : InotifyEvent} : r ∈ s.pending → Does limit s (.happens r) s
  | overflows {s s' : Pipeline} {r : InotifyEvent} :
      limit ≤ s.pending.length → overflowRecord ∉ s.pending →
      s.Step (.arrives overflowRecord) s' → Does limit s (.happens r) s'
  | dropped {s : Pipeline} {r : InotifyEvent} :
      limit ≤ s.pending.length → overflowRecord ∈ s.pending → Does limit s (.happens r) s
  | goesOn {s s' : Pipeline} {a : Pipeline.Action} :
      a.arrivals = [] → s.Step a s' → Does limit s (.goesOn a) s'

theorem Step.does {limit : Nat} {s s' : Pipeline} {a : Action} (h : Step limit s a s') :
    Does limit s a s' := by
  obtain ⟨hallow, h⟩ := Option.ite_none_right_eq_some.mp h
  cases a with
  | goesOn a => exact .goesOn hallow h
  | happens r =>
      simp only [seen, queuedFor] at h
      by_cases hroom : s.pending.length < limit
      · rw [if_pos hroom] at h
        by_cases hlast : s.pending.getLast? = some r
        · simp only [if_pos hlast, Option.map_none, Option.some.injEq] at h
          subst h
          exact .coalesced (List.mem_of_getLast? hlast)
        · simp only [if_neg hlast, Option.map_some] at h
          exact .queued hallow.1 hroom h
      · rw [if_neg hroom] at h
        by_cases hthere : overflowRecord ∈ s.pending
        · simp only [if_pos hthere, Option.map_none, Option.some.injEq] at h
          subst h
          exact .dropped (Nat.le_of_not_lt hroom) hthere
        · simp only [if_neg hthere, Option.map_some] at h
          exact .overflows (Nat.le_of_not_lt hroom) hthere h

/-! ### What every run keeps -/

/-- An event finds the queue full. -/
def Loses (limit : Nat) (s : Pipeline) (a : Action) : Prop :=
  (∃ r, a = .happens r) ∧ limit ≤ s.pending.length

/-- Nobody sets the flag, and no call of `ParseRawEvent` on the last event of the deque
yields `true`. -/
def Undisturbed (limit : Nat) (s : Pipeline) (a : Action) : Prop :=
  ∀ b ∈ seen limit s a, s.Undisturbed b

instance (limit : Nat) (s : Pipeline) (a : Action) : Decidable (Undisturbed limit s a) :=
  inferInstanceAs (Decidable (∀ b ∈ seen limit s a, s.Undisturbed b))

theorem undisturbed_happens (limit : Nat) (s : Pipeline) (r : InotifyEvent) :
    Undisturbed limit s (.happens r) := by
  intro b hb
  obtain ⟨x, -, rfl⟩ := Option.map_eq_some_iff.mp hb
  trivial

/-- The record is that of a watch, or of an overflow, and then something was lost. -/
def Explained (limit : Nat) (past : List (Pipeline × Action)) (r : InotifyEvent) : Prop :=
  0 < r.wd.toInt ∨ r = overflowRecord ∧ ∃ x ∈ past, Loses limit x.1 x.2

theorem Explained.snoc {limit : Nat} {past : List (Pipeline × Action)} {r : InotifyEvent}
    (h : Explained limit past r) (x : Pipeline × Action) : Explained limit (past ++ [x]) r := by
  refine h.imp_right fun hloss => ⟨hloss.1, ?_⟩
  obtain ⟨y, hy, hloses⟩ := hloss.2
  exact ⟨y, List.mem_append_left _ hy, hloses⟩

/-- What the event thread is given is explained, and both queues are bounded. -/
structure Bounded (limit : Nat) (past : List (Pipeline × Action)) (s : Pipeline) : Prop where
  fed : s.Fed
  received : s.Received
  reports : Reports 0 (fun _ _ => True) s.thread
  pending : s.pending.length ≤ limit ∨
    s.pending.length = limit + 1 ∧ overflowRecord ∈ s.pending
  deque : s.thread.inotifyEventBuffer.length ≤ Pipeline.dequeSize
  explained : ∀ r ∈ s.arrived, Explained limit past r

theorem bounded_start (limit : Nat) (errno : Errno) : Bounded limit [] (.start errno) where
  fed := Pipeline.fed_start errno
  received := Pipeline.received_start errno
  reports := ⟨Nat.zero_le _, rfl, .nil⟩
  pending := .inl (Nat.zero_le _)
  deque := Nat.zero_le _
  explained _ hr := absurd hr List.not_mem_nil

theorem step_seen {limit : Nat} {s s' : Pipeline} {a : Action} (h : Step limit s a s') :
    (∀ b, seen limit s a = some b → s.Step b s') ∧ (seen limit s a = none → s' = s) := by
  obtain ⟨-, h⟩ := Option.ite_none_right_eq_some.mp h
  refine ⟨fun b hb => ?_, fun hnone => ?_⟩
  · rw [hb] at h
    exact h
  · rw [hnone] at h
    exact (Option.some.inj h).symm

/-- What a step of the pipeline keeps, whatever arrives. -/
theorem Bounded.pipeline {limit : Nat} {past : List (Pipeline × Action)} {s s' : Pipeline}
    {a : Action} {b : Pipeline.Action} (h : Bounded limit past s)
    (hundisturbed : s.Undisturbed b) (hstep : s.Step b s')
    (hpending : s'.pending.length ≤ limit ∨
      s'.pending.length = limit + 1 ∧ overflowRecord ∈ s'.pending)
    (hexplained : ∀ r ∈ b.arrivals, Explained limit (past ++ [(s, a)]) r) :
    Bounded limit (past ++ [(s, a)]) s' where
  fed := h.fed.step hundisturbed hstep
  received := h.received.step hstep
  reports := Pipeline.step_reports hstep h.reports fun _ _ _ _ _ _ => trivial
  pending := hpending
  deque := h.fed.step_deque hstep h.deque
  explained := by
    intro r hr
    rw [Pipeline.step_arrived hstep] at hr
    rcases List.mem_append.mp hr with hr | hr
    · exact (h.explained r hr).snoc (s, a)
    · exact hexplained r hr

/-- A step that the pipeline does not see. -/
theorem Bounded.stays {limit : Nat} {past : List (Pipeline × Action)} {s : Pipeline}
    (h : Bounded limit past s) (a : Action) : Bounded limit (past ++ [(s, a)]) s where
  fed := h.fed
  received := h.received
  reports := h.reports
  pending := h.pending
  deque := h.deque
  explained r hr := (h.explained r hr).snoc (s, a)

theorem pending_of_arrives {s s' : Pipeline} {r : InotifyEvent} (h : s.Step (.arrives r) s') :
    s'.pending = s.pending ++ [r] := by
  cases h.does with
  | arrives _ => rfl

theorem Bounded.step {limit : Nat} {past : List (Pipeline × Action)} {s s' : Pipeline} {a : Action}
    (h : Bounded limit past s) (hundisturbed : Undisturbed limit s a) (hstep : Step limit s a s') :
    Bounded limit (past ++ [(s, a)]) s' := by
  cases hstep.does with
  | coalesced _ | dropped _ _ => exact h.stays _
  | @queued _ r hwd hroom harrives =>
      have hpending := pending_of_arrives harrives
      refine h.pipeline (b := .arrives r) trivial harrives (.inl ?_) fun r' hr' => .inl ?_
      · rw [hpending, List.length_append, List.length_singleton]
        exact hroom
      · rw [List.mem_singleton.mp hr']
        exact hwd
  | @overflows _ r hfull hnone harrives =>
      have hpending := pending_of_arrives harrives
      have hbefore := h.pending.resolve_right fun hand => hnone hand.2
      refine h.pipeline (b := .arrives overflowRecord) trivial harrives (.inr ⟨?_, ?_⟩)
        fun r' hr' => .inr ⟨List.mem_singleton.mp hr', (s, .happens r),
          List.mem_append_right _ List.mem_cons_self, ⟨r, rfl⟩, hfull⟩
      · rw [hpending, List.length_append, List.length_singleton]
        omega
      · rw [hpending]
        exact List.mem_append_right _ List.mem_cons_self
  | @goesOn _ a hnone hgoes =>
      refine h.pipeline (hundisturbed a rfl) hgoes ?_ fun r hr => ?_
      · rcases Pipeline.step_pending hgoes hnone with hsame | hless
        · rw [hsame]
          exact h.pending
        · refine .inl ?_
          rcases h.pending with hfew | ⟨hmany, -⟩
          · omega
          · omega
      · rw [hnone] at hr
        exact absurd hr List.not_mem_nil

theorem Bounded.run {limit : Nat} {past hist : List (Pipeline × Action)} {s s' : Pipeline}
    (h : Bounded limit past s) (hrun : Run (Step limit) s hist s')
    (hundisturbed : Meets (Undisturbed limit) hist) : Bounded limit (past ++ hist) s' :=
  hrun.invariant_past_of_meets (fun _ _ _ _ hb hC hstep => hb.step hC hstep) hundisturbed h

/-! ### What is printed -/

/-- A run as the event thread and the kernel's queue see it. -/
def events (limit : Nat) (hist : List (Pipeline × Action)) : List (Pipeline × Pipeline.Action) :=
  hist.filterMap fun x => (seen limit x.1 x.2).map fun b => (x.1, b)

theorem run_events {limit : Nat} {s s' : Pipeline} {hist : List (Pipeline × Action)}
    (h : Run (Step limit) s hist s') : Run Pipeline.Step s (events limit hist) s' :=
  h.maps (I := fun _ => True) (f := id) (l := seen limit) (fun _ _ _ _ _ => trivial)
    (fun _ _ _ b _ hstep hb => (step_seen hstep).1 b hb)
    (fun _ _ _ _ hstep hnone => (step_seen hstep).2 hnone) trivial

theorem undisturbed_events {limit : Nat} {hist : List (Pipeline × Action)}
    (h : Meets (Undisturbed limit) hist) : Meets Pipeline.Undisturbed (events limit hist) :=
  h.maps (f := id) (l := seen limit) fun _ _ b hundisturbed hb => hundisturbed b hb

/-- What has arrived stays. -/
theorem run_arrived {limit : Nat} {s s' : Pipeline} {hist : List (Pipeline × Action)}
    (h : Run (Step limit) s hist s') : s.arrived <+: s'.arrived := by
  refine h.invariant (I := fun t => s.arrived <+: t.arrived) (fun t a t' ht hstep => ?_)
    (List.prefix_refl _)
  cases hseen : seen limit t a with
  | none => exact (step_seen hstep).2 hseen ▸ ht
  | some b =>
      rw [Pipeline.step_arrived ((step_seen hstep).1 b hseen)]
      exact ht.trans (List.prefix_append _ _)

/-- An event that happens has a place among the records queued, which is its own or that
of an overflow. -/
theorem Bounded.place {limit : Nat} {past : List (Pipeline × Action)} {s s₁ : Pipeline}
    {r : InotifyEvent} (h : Bounded limit past s) (hstep : Step limit s (.happens r) s₁) :
    ∃ i x, s.thread.dispatched.length ≤ i ∧ s₁.arrived[i]? = some x ∧
      (x = r ∨ x = overflowRecord ∧ limit ≤ s.pending.length) := by
  have hlength := h.fed.conserves.length
  have hnew : ∀ {x : InotifyEvent}, s.Step (.arrives x) s₁ →
      s.thread.dispatched.length ≤ s.arrived.length ∧
        s₁.arrived[s.arrived.length]? = some x := by
    intro x harrives
    rw [Pipeline.step_arrived harrives]
    exact ⟨by omega, List.getElem?_concat_length⟩
  cases hstep.does with
  | queued _ _ harrives =>
      obtain ⟨hle, hget⟩ := hnew harrives
      exact ⟨_, r, hle, hget, .inl rfl⟩
  | overflows hfull _ harrives =>
      obtain ⟨hle, hget⟩ := hnew harrives
      exact ⟨_, overflowRecord, hle, hget, .inr ⟨rfl, hfull⟩⟩
  | coalesced hthere =>
      obtain ⟨i, hle, hget⟩ := h.received.place hthere
      exact ⟨i, r, hle, hget, .inl rfl⟩
  | dropped hfull hthere =>
      obtain ⟨i, hle, hget⟩ := h.received.place hthere
      exact ⟨i, overflowRecord, hle, hget, .inr ⟨rfl, hfull⟩⟩

/-- The report of what was dispatched at a place. -/
theorem Bounded.printed {limit : Nat} {past : List (Pipeline × Action)} {s : Pipeline}
    (h : Bounded limit past s) {i : Nat} {x : InotifyEvent} (hx : s.arrived[i]? = some x)
    (hi : i < s.thread.dispatched.length) :
    ∃ e path, x.Receives e ∧ s.thread.printed[i]? = some (e.report path) := by
  have hprinted : i < s.thread.printed.length := h.reports.all ▸ hi
  obtain ⟨e, path, he, -, heq⟩ :=
    h.reports.of_printed (Nat.zero_le i) (List.getElem?_eq_getElem hprinted)
  obtain ⟨r, hr, hreceives⟩ := h.received.record ((List.getElem?_append_left hi).trans he)
  obtain rfl := Option.some.inj (hx.symm.trans hr)
  exact ⟨e, path, hreceives, by rw [List.getElem?_eq_getElem hprinted, heq]⟩

/-- A report from -1 is that of an overflow, and so of a loss. -/
theorem Bounded.lost {limit : Nat} {past : List (Pipeline × Action)} {s : Pipeline}
    (h : Bounded limit past s) {report : Report} (hreport : report ∈ s.thread.printed)
    (hfrom : report.eventFrom = -1) : ∃ x ∈ past, Loses limit x.1 x.2 := by
  obtain ⟨i, hi⟩ := List.mem_iff_getElem?.mp hreport
  obtain ⟨e, path, he, -, rfl⟩ := h.reports.of_printed (Nat.zero_le i) hi
  have hlt := (List.getElem?_eq_some_iff.mp he).1
  obtain ⟨r, hr, hreceives⟩ := h.received.record ((List.getElem?_append_left hlt).trans he)
  have hwd : r.wd.toInt = -1 := (congrArg Header.wd hreceives.header).symm.trans hfrom
  rcases h.explained r (List.mem_of_getElem? hr) with hpos | ⟨-, hloss⟩
  · omega
  · exact hloss

theorem Bounded.goes_on {limit : Nat} {past : List (Pipeline × Action)} {s : Pipeline}
    (h : Bounded limit past s) :
    ∃ a t, a.isThread = true ∧ Undisturbed limit s (.goesOn a) ∧ Step limit s (.goesOn a) t := by
  obtain ⟨a, t, hthread, hundisturbed, hstep⟩ := h.fed.goes_on
  have hnone : a.arrivals = [] := by
    cases a with
    | arrives r => exact absurd hthread Bool.false_ne_true
    | setStopped | answer _ | readRecords _ _ => rfl
  refine ⟨a, t, hthread, fun b hb => Option.some.inj hb ▸ hundisturbed, ?_⟩
  exact Option.ite_none_right_eq_some.mpr ⟨hnone, hstep⟩

/-- **Nothing is lost in silence.** In a run that is not disturbed, behind a queue of at
most `limit` records, wherever it stands, the event thread can go on, and a report from -1
has only been printed if an event has found the queue full. Whatever happens then, it or
its loss is reported: at most `24 * (limit + 75)` steps of the thread later, and two for
each interruption, a report has been added that is its own, or, if it found the queue full,
one from -1 with an empty mask. -/
theorem reported_or_announced (limit : Nat) (errno : Errno) (past : List (Pipeline × Action))
    (s : Pipeline) (hpast : Run (Step limit) (.start errno) past s)
    (hundisturbed : Meets (Undisturbed limit) past) :
    (∃ a t, a.isThread = true ∧ Undisturbed limit s (.goesOn a) ∧ Step limit s (.goesOn a) t) ∧
      (∀ report ∈ s.thread.printed, report.eventFrom = -1 → ∃ x ∈ past, Loses limit x.1 x.2) ∧
      ∀ (r : InotifyEvent) (s₁ : Pipeline) (hist : List (Pipeline × Action)) (s' : Pipeline),
        Step limit s (.happens r) s₁ → Run (Step limit) s₁ hist s' →
        Meets (Undisturbed limit) hist →
        24 * (limit + 75) + 2 * Pipeline.interruptions (events limit hist) <
          Pipeline.threadSteps (events limit hist) →
        ∃ i report, s.thread.printed.length ≤ i ∧ s'.thread.printed[i]? = some report ∧
          ((∃ e path, r.Receives e ∧ report = e.report path) ∨
            (limit ≤ s.pending.length ∧ report.eventFrom = -1 ∧ report.eventMask = [])) := by
  have hs : Bounded limit past s := (bounded_start limit errno).run hpast hundisturbed
  refine ⟨hs.goes_on, fun report hreport hfrom => hs.lost hreport hfrom, ?_⟩
  intro r s₁ hist s' hhappens hhist hundisturbed' hlong
  obtain ⟨i, x, hi, hx, hwhich⟩ := hs.place hhappens
  have hs₁ := hs.step (undisturbed_happens limit s r) hhappens
  have hs' := hs₁.run hhist hundisturbed'
  -- both queues are bounded, and with them the time to the place
  have hplace := (List.getElem?_eq_some_iff.mp hx).1
  have hbehind := hs₁.fed.conserves.behind
  have hdeque := hs₁.deque
  have hpending : s₁.pending.length ≤ limit + 1 := by
    rcases hs₁.pending with hfew | ⟨hmany, -⟩
    · omega
    · exact hmany.le
  have hdispatched : i < s'.thread.dispatched.length := by
    refine hs₁.fed.dispatches_in_time (run_events hhist) (undisturbed_events hundisturbed')
      hplace ?_
    simp only [Pipeline.dequeSize, maxInotifyEventSize, readBufferSize, headerSize] at hdeque
    omega
  have hx' : s'.arrived[i]? = some x := by
    obtain ⟨rest, hrest⟩ := run_arrived hhist
    rw [← hrest, List.getElem?_append_left hplace, hx]
  obtain ⟨e, path, hreceives, hprinted⟩ := hs'.printed hx' hdispatched
  refine ⟨i, e.report path, hs.reports.all ▸ hi, hprinted, ?_⟩
  rcases hwhich with rfl | ⟨rfl, hfull⟩
  · exact .inl ⟨e, path, hreceives, rfl⟩
  · exact .inr ⟨hfull, report_overflowRecord hreceives path⟩

/-- A record fills the queue for one. -/
def filled : List Action := [.goesOn (.answer (.epollCtl false)), .happens createRecord]

theorem overflow_fits : (encodeAll [createRecord, overflowRecord]).length ≤ readBufferSize := by
  decide

/-- The record and the overflow behind it are read and dispatched, and nothing happens for
a while. -/
def idleAfterLoss : List Action :=
  [.goesOn (.answer (.stopped false)), .goesOn (.answer (.epollWait 1 .zero)),
   .goesOn (.answer (.stopped false)),
   .goesOn (.readRecords 2 (.zeroed [createRecord, overflowRecord] overflow_fits)),
   .goesOn (.answer (.stopped false)), .goesOn (.answer (.readError .eagain)),
   .goesOn (.answer (.parse [] false .zero)), .goesOn (.answer (.parse [] false .zero))] ++
    (List.replicate 910 [.goesOn (.answer (.stopped false)),
      .goesOn (.answer (.epollWait 0 .zero))]).flatten

/-- What happens in between is lost. -/
theorem idleAfterLoss_possible :
    ((exec (next 1) (.start .zero) filled).bind fun x =>
      (next 1 x.2 (.happens closeRecord)).bind fun s₁ =>
        (exec (next 1) s₁ idleAfterLoss).map fun y =>
          ((x.1 ++ y.1).all fun z => decide (Undisturbed 1 z.1 z.2),
            decide (24 * (1 + 75) + 2 * Pipeline.interruptions (events 1 y.1) <
              Pipeline.threadSteps (events 1 y.1)))) = some (true, true) := by
  decide +kernel

theorem reported_or_announced_idleAfterLoss :
    ∃ past s s₁ hist s', exec (next 1) (.start .zero) filled = some (past, s) ∧
      next 1 s (.happens closeRecord) = some s₁ ∧
      exec (next 1) s₁ idleAfterLoss = some (hist, s') ∧
      ∃ i report, s.thread.printed.length ≤ i ∧ s'.thread.printed[i]? = some report ∧
        ((∃ e path, closeRecord.Receives e ∧ report = e.report path) ∨
          (1 ≤ s.pending.length ∧ report.eventFrom = -1 ∧ report.eventMask = [])) := by
  obtain ⟨⟨past, s⟩, hpast, hthen⟩ := Option.bind_eq_some_iff.mp idleAfterLoss_possible
  obtain ⟨s₁, hhappens, hthen⟩ := Option.bind_eq_some_iff.mp hthen
  obtain ⟨⟨hist, s'⟩, hhist, hresult⟩ := Option.map_eq_some_iff.mp hthen
  obtain ⟨hall, hlong⟩ := Prod.mk.inj hresult
  obtain ⟨hfirst, hlater⟩ := meets_append.mp (show Meets (Undisturbed 1) (past ++ hist) from
    fun x hx => of_decide_eq_true (List.all_eq_true.mp hall x hx))
  obtain ⟨-, -, hreported⟩ := reported_or_announced 1 .zero past s (run_of_exec hpast) hfirst
  exact ⟨past, s, s₁, hist, s', hpast, hhappens, hhist,
    hreported closeRecord s₁ hist s' hhappens (run_of_exec hhist) hlater (of_decide_eq_true hlong)⟩

end Overflow

end InotifyRealtime
