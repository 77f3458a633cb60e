import InotifyRealtime.ErrorCount
/-!
# InotifyRealtime.QueueBound

How far the deque of the event thread grows.

The drain loop tests the cap of 10 before a `read`, and one `read` brings up to
1024 / 16 records. So the deque may come to hold 9 + 64 events and no more. It is
empty when a drain phase begins, and each `read` that returns data adds to it, so the
tenth at the latest ends the phase, however fast events arrive.

As in `ErrorCount` the world may answer anything, except that the bytes a `read`
returns are whole records.
-/

namespace InotifyRealtime.EpollHandler

open Bytes Machine

/-- If `read` returned data, it returned whole records. -/
def Answer.WholeRecords : Answer → Prop
  | .readBytes n buf =>
      0 < n → ∃ rs : List InotifyEvent, n = (encodeAll rs).length ∧ buf.Holds rs
  | _ => True

/-- A call of `ParseRawEvent`. -/
def Answer.Parses : Answer → Prop
  | .parse _ _ _ => True
  | _ => False

instance : DecidablePred Answer.Parses
  | .parse _ _ _ => .isTrue trivial
  | .epollCtl _ | .stopped _ | .epollWait _ _ | .readError _ | .readBytes _ _ => .isFalse id

/-- The `read`s that returned data since the last call of `ParseRawEvent`. -/
def readsSinceDispatch (answers : List Answer) : Nat :=
  countSince Answer.Parses Answer.ReadSucceeded answers

/-- A `read` of whole records queues at least one event, and at most as many as there
are headers in the array. -/
theorem decode_wholeRecords {n : Nat} {buf : ReadBuffer}
    (h : (Answer.readBytes n buf).WholeRecords) (hpos : 0 < n) (q : List CustomizedInotifyEvent) :
    ∃ events, decode buf n q = .done (q ++ events) ∧ 0 < events.length ∧
      events.length ≤ readBufferSize / headerSize := by
  obtain ⟨rs, rfl, hbuf⟩ := h hpos
  have hlength : (receivedAll rs (buf.behind rs)).length = rs.length := by
    have hmap := congrArg List.length (receivedAll_header rs (buf.behind rs))
    rwa [List.length_map, List.length_map] at hmap
  refine ⟨receivedAll rs (buf.behind rs), decode_holds hbuf q, ?_, ?_⟩
  · rw [hlength]
    exact List.length_pos_iff.mpr fun hnil => by simp [hnil] at hpos
  · have hheaders := headerSize_mul_length_le rs
    have hfit := hbuf.length_le
    rw [hlength, Nat.le_div_iff_mul_le (by decide), Nat.mul_comm]
    omega

/-- What every state of a run has. While the thread drains, each `read` counted has
left an event in the deque. -/
structure Paced (past : List (Thread × Answer)) (t : Thread) : Prop where
  quiet : t.Quiet
  idle : t.pc.Idle → readsSinceDispatch (past.map Prod.snd) = 0
  progress : t.pc = .drainHead ∨ t.pc = .read →
    readsSinceDispatch (past.map Prod.snd) ≤ t.inotifyEventBuffer.length
  capped : t.pc = .read → t.inotifyEventBuffer.length < maxInotifyEventSize
  reads : readsSinceDispatch (past.map Prod.snd) ≤ maxInotifyEventSize
  size : t.inotifyEventBuffer.length ≤ maxInotifyEventSize - 1 + readBufferSize / headerSize

/-- A step that neither takes data nor dispatches leaves the deque and the count. -/
theorem Paced.keep {past : List (Thread × Answer)} {t t' : Thread} {a : Answer} (h : Paced past t)
    (hquiet : t'.Quiet) (hparse : ¬ a.Parses) (hread : ¬ a.ReadSucceeded)
    (hq : t'.inotifyEventBuffer = t.inotifyEventBuffer) (hidle : t'.pc.Idle → t.pc.Idle)
    (hdrain : t'.pc = .drainHead ∨ t'.pc = .read → t.pc.Idle ∨ t.pc = .drainHead ∨ t.pc = .read)
    (hcap : t'.pc = .read → t.inotifyEventBuffer.length < maxInotifyEventSize) :
    Paced (past ++ [(t, a)]) t' := by
  have hsame : readsSinceDispatch ((past ++ [(t, a)]).map Prod.snd) =
      readsSinceDispatch (past.map Prod.snd) := by
    rw [actions_snoc]
    exact countSince_of_neither _ hparse hread
  refine ⟨hquiet, fun hpc => ?_, fun hpc => ?_, fun hpc => ?_, ?_, ?_⟩
  · rw [hsame]
    exact h.idle (hidle hpc)
  · rw [hsame, hq]
    rcases hdrain hpc with hbefore | hbefore
    · rw [h.idle hbefore]
      exact Nat.zero_le _
    · exact h.progress hbefore
  · rw [hq]
    exact hcap hpc
  · rw [hsame]
    exact h.reads
  · rw [hq]
    exact h.size

/-- A call of `ParseRawEvent` starts the count again. -/
theorem Paced.parsed {past : List (Thread × Answer)} {t t' : Thread} {a : Answer}
    (h : Paced past t) (hquiet : t'.Quiet) (hparse : a.Parses)
    (hq : t'.inotifyEventBuffer.length ≤ t.inotifyEventBuffer.length) (hpc : t'.pc ≠ .read) :
    Paced (past ++ [(t, a)]) t' := by
  have hzero : readsSinceDispatch ((past ++ [(t, a)]).map Prod.snd) = 0 := by
    rw [actions_snoc]
    exact countSince_of_ends _ hparse
  refine ⟨hquiet, fun _ => hzero, fun _ => ?_, fun hread => absurd hread hpc, ?_, ?_⟩
  · rw [hzero]
    exact Nat.zero_le _
  · rw [hzero]
    exact Nat.zero_le _
  · exact hq.trans h.size

theorem NoData.keeps {t u : Thread} {a : Answer} (h : NoData t a u) :
    u.inotifyEventBuffer = t.inotifyEventBuffer ∧ ¬ a.Parses := by
  cases h <;> exact ⟨rfl, id⟩

theorem Paced.step {past : List (Thread × Answer)} {t t' : Thread} {a : Answer} (h : Paced past t)
    (hwhole : a.WholeRecords) (hstep : Step t a t') : Paced (past ++ [(t, a)]) t' := by
  have hquiet : t'.Quiet := hstep.quiet h.quiet
  cases hstep with
  | epollAddFailed hpc | epollAdded hpc | leave hpc | enter hpc | waitInterrupted hpc
  | waitFailed hpc | waitGivenUp hpc | waitTimeout hpc =>
      exact h.keep hquiet id id rfl (fun _ => by rw [hpc]; trivial) (by simp) nofun
  | woken hpc _ =>
      exact h.keep hquiet id id rfl False.elim (fun _ => .inl (by rw [hpc]; trivial)) nofun
  | drainLeft hpc _ => exact h.keep hquiet id id rfl False.elim (by simp) nofun
  | drainEntered hpc hfew =>
      exact h.keep hquiet id id rfl False.elim (fun _ => .inr (.inl hpc)) fun _ => hfew
  | readRetried hpc hnd | readIgnored hpc hnd =>
      obtain ⟨-, hread, -⟩ := hnd.not_counted
      obtain ⟨hq, hparse⟩ := hnd.keeps
      exact h.keep hquiet hparse hread hq False.elim (fun _ => .inr (.inr hpc)) nofun
  | readEndsDrain hpc hnd =>
      obtain ⟨-, hread, -⟩ := hnd.not_counted
      obtain ⟨hq, hparse⟩ := hnd.keeps
      exact h.keep hquiet hparse hread hq False.elim (by simp) nofun
  | readOversized hpc hbig =>
      exact h.keep hquiet id (fun hread => absurd hread.2 (by omega)) rfl False.elim
        (fun _ => .inr (.inr hpc)) nofun
  | @decoded n buf q hpc hpos hfits hdone =>
      obtain ⟨events, hdecode, hsome, hmany⟩ := decode_wholeRecords hwhole hpos t.inotifyEventBuffer
      obtain rfl : t.inotifyEventBuffer ++ events = q := by
        rw [hdecode, DecodeResult.done.injEq] at hdone
        exact hdone
      have hcount : readsSinceDispatch ((past ++ [(t, Answer.readBytes n buf)]).map Prod.snd) =
          readsSinceDispatch (past.map Prod.snd) + 1 := by
        rw [actions_snoc]
        exact countSince_of_counts _ id ⟨hpos, hfits⟩
      -- the cap was tested before this `read`, so there were nine events at most
      have hcapped := h.capped hpc
      have hprogress := h.progress (.inr hpc)
      refine ⟨hquiet, False.elim, fun _ => ?_, nofun, ?_, ?_⟩
      · rw [hcount, List.length_append]
        omega
      · rw [hcount]
        omega
      · rw [List.length_append]
        omega
  | decodeFaults _ hpos _ hfault =>
      obtain ⟨events, hdecode, -⟩ := decode_wholeRecords hwhole hpos t.inotifyEventBuffer
      exact absurd (hdecode.symm.trans hfault) DecodeResult.noConfusion
  | decodeSpins _ hpos _ hspin =>
      obtain ⟨events, hdecode, -⟩ := decode_wholeRecords hwhole hpos t.inotifyEventBuffer
      exact absurd (hdecode.symm.trans hspin) DecodeResult.noConfusion
  | @dispatched path result errno event rest hpc hq =>
      refine h.parsed hquiet trivial ?_ (afterDispatch_ne nofun nofun)
      rw [hq, List.length_cons]
      exact Nat.le_succ _
  | frontOfEmpty _ _ => exact h.parsed hquiet trivial le_rfl nofun

/-- The records of a run of `opendir`s. -/
def openRecords (count : Nat) : List InotifyEvent := List.replicate count openRecord

/-- Nine events do not fill the deque, and the next `read` is a full one. -/
def flood : List Answer :=
  [.epollCtl false, .stopped false, .epollWait 1 .zero, .stopped false,
   .readBytes 144 (.zeroed (openRecords 9) (by decide +kernel)), .stopped false,
   .readBytes 1024 (.zeroed (openRecords 64) (by decide +kernel))]

theorem flood_length : (exec step (.start .zero) flood).map
    (fun x => x.2.inotifyEventBuffer.length) = some 73 := by
  decide +kernel

theorem flood_wholeRecords : ∀ a ∈ flood, a.WholeRecords := by
  intro a ha
  simp only [flood, List.mem_cons, List.not_mem_nil, or_false] at ha
  rcases ha with rfl | rfl | rfl | rfl | rfl | rfl | rfl
  · trivial
  · trivial
  · trivial
  · trivial
  · exact fun _ => ⟨openRecords 9, by decide +kernel, by decide +kernel⟩
  · trivial
  · exact fun _ => ⟨openRecords 64, by decide +kernel, by decide +kernel⟩

/-- **The bounds of the deque and of a drain phase.** As long as each `read` that
returns data returns whole records, in every state of a run the deque holds at most
9 + 1024 / 16 events, and at most 10 `read`s have returned data since the last call of
`ParseRawEvent`. Some run brings the deque to this bound. -/
theorem queue_bounded :
    (∀ (errno : Errno) (hist : List (Thread × Answer)) (t : Thread),
      Run (fun t a t' => step t a = some t') (.start errno) hist t →
      Meets (fun _ a => a.WholeRecords) hist →
      t.inotifyEventBuffer.length ≤ 73 ∧ readsSinceDispatch (hist.map Prod.snd) ≤ 10) ∧
    ∃ (errno : Errno) (hist : List (Thread × Answer)) (t : Thread),
      Run (fun t a t' => step t a = some t') (.start errno) hist t ∧
      Meets (fun _ a => a.WholeRecords) hist ∧ t.inotifyEventBuffer.length = 73 := by
  constructor
  · intro errno hist t h hwhole
    have hpaced : Paced hist t :=
      h.invariant_hist_of_meets (fun _ _ _ _ ht hC hstep => ht.step hC (step_cases hstep)) hwhole
        ⟨fun _ => rfl, fun _ => rfl, fun _ => Nat.zero_le _, nofun, Nat.zero_le _, Nat.zero_le _⟩
    exact ⟨hpaced.size, hpaced.reads⟩
  · obtain ⟨⟨hist, t⟩, hexec, hlength⟩ := Option.map_eq_some_iff.mp flood_length
    have hwhole : Meets (fun _ a => a.WholeRecords) hist :=
      meets_of_actions (actions_of_exec hexec) fun a ha _ => flood_wholeRecords a ha
    exact ⟨.zero, hist, t, run_of_exec hexec, hwhole, hlength⟩

end InotifyRealtime.EpollHandler
