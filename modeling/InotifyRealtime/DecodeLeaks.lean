import InotifyRealtime.DecodeBytes
/-!
# InotifyRealtime.DecodeLeaks

What the decode loop's events say about bytes that were not read.

Two arrays that begin with the same `n` bytes send the loop to the same headers
inside those bytes (`Agree.headerAt`), and a `len` that wraps sends it in front of
both of them or of neither. Names are another matter: each is copied from behind its
header up to the first NUL, wherever that is. The events depend on the `n` bytes
alone exactly when the loop never leaves them for a header and each header has a NUL
behind it among them (`decode_reveals_iff`).
-/

namespace InotifyRealtime

open Bytes

/-- Two arrays that begin with the same `n` bytes. -/
def Agree (n : Nat) (buf buf' : ReadBuffer) : Prop := buf.bytes.take n = buf'.bytes.take n

instance (n : Nat) (buf buf' : ReadBuffer) : Decidable (Agree n buf buf') :=
  inferInstanceAs (Decidable (_ = _))

theorem Agree.symm {n : Nat} {buf buf' : ReadBuffer} (h : Agree n buf buf') : Agree n buf' buf :=
  Eq.symm h

/-- Any stretch of the first `n` bytes is the same. -/
theorem Agree.stretch {n : Nat} {buf buf' : ReadBuffer} (h : Agree n buf buf') {pos k : Nat}
    (hk : pos + k ≤ n) : (buf.bytes.drop pos).take k = (buf'.bytes.drop pos).take k := by
  have hwithin : ∀ bytes : List Byte,
      (bytes.drop pos).take k = ((bytes.take n).drop pos).take k := by
    intro bytes
    rw [List.drop_take, List.take_take, Nat.min_eq_left (by omega)]
  rw [hwithin, h, ← hwithin]

/-- At a header inside the `n` bytes the two arrays differ in the name at most. -/
theorem Agree.stackAt {n pos : Nat} {buf buf' : ReadBuffer} (h : Agree n buf buf')
    (hn : n ≤ readBufferSize) (hfits : pos + headerSize ≤ n) :
    ∃ hd : Header,
      InotifyRealtime.stackAt buf pos =
        some ⟨hd.wd, hd.mask, hd.cookie, hd.len, cString (buf.bytes.drop (pos + headerSize))⟩ ∧
      InotifyRealtime.stackAt buf' pos =
        some ⟨hd.wd, hd.mask, hd.cookie, hd.len, cString (buf'.bytes.drop (pos + headerSize))⟩ := by
  obtain ⟨hd, hstack, hread⟩ := stackAt_inside buf pos (by omega)
  obtain ⟨hd', hstack', hread'⟩ := stackAt_inside buf' pos (by omega)
  have hsame := (hread []).symm.trans (h.stretch hfits ▸ hread' [])
  obtain ⟨rfl, -⟩ := Prod.mk.inj (Option.some.inj hsame)
  exact ⟨hd, hstack, hstack'⟩

/-- The loop reads headers at the same positions. -/
theorem Agree.headerAt {n pos : Nat} {buf buf' : ReadBuffer} (h : Agree n buf buf')
    (hn : n ≤ readBufferSize) (hheader : HeaderAt buf n pos) : HeaderAt buf' n pos := by
  induction hheader with
  | first hfits => exact .first hfits
  | next hheader hstack hstep hfits ih =>
      obtain ⟨hd, hhere, hthere⟩ := h.stackAt hn hheader.inside
      obtain rfl := Option.some.inj (hstack.symm.trans hhere)
      exact ih.next hthere hstep hfits

/-! ### The events the loop pushes -/

theorem decodeLoop_mono {buf : ReadBuffer} {q : List CustomizedInotifyEvent} (d : Nat)
    {fuel : Nat} {s : DecodeState} (h : decodeLoop buf fuel s = .done q) :
    decodeLoop buf (fuel + d) s = .done q := by
  induction fuel generalizing s with
  | zero => exact DecodeResult.noConfusion h
  | succ fuel ih =>
      by_cases hread : headerSize ≤ s.readSize
      · cases hbody : decodeBody buf s with
        | none =>
            rw [decodeLoop, if_neg (Int.not_lt.mpr hread), hbody] at h
            exact DecodeResult.noConfusion h
        | some t =>
            rw [decodeLoop_turn hread hbody] at h
            rw [Nat.add_right_comm, decodeLoop_turn hread hbody]
            exact ih h
      · rw [decodeLoop, if_pos (Int.not_le.mp hread)] at h
        rw [Nat.add_right_comm, decodeLoop, if_pos (Int.not_le.mp hread), h]

/-- A turn appends what it finds at its header. -/
theorem decodeBody_push {buf : ReadBuffer} {s t : DecodeState} {stack : CustomizedInotifyEvent}
    (h : decodeBody buf s = some t) (hstack : stackAt buf s.startPos = some stack) :
    t.inotifyEventBuffer = s.inotifyEventBuffer ++ [stack] := by
  rw [decodeBody, hstack, Option.map_some, Option.some.injEq] at h
  rw [← h]

/-- The loop appends to the deque, one event for each header. -/
theorem Turns.pushed {buf : ReadBuffer} {start s : DecodeState} {k : Nat}
    (h : Turns buf start k s) :
    ∃ es, s.inotifyEventBuffer = start.inotifyEventBuffer ++ es := by
  induction h with
  | zero => exact ⟨[], by simp⟩
  | succ _ _ hbody ih =>
      obtain ⟨es, hes⟩ := ih
      obtain ⟨stack, hstack, -⟩ := decodeBody_eq_some hbody
      exact ⟨es ++ [stack], by rw [decodeBody_push hbody hstack, hes, List.append_assoc]⟩

/-- What the loop pushes it found at its headers. -/
theorem Turns.pushed_at_header {buf : ReadBuffer} {n : Nat} {q q' : List CustomizedInotifyEvent}
    (hn : n ≤ readBufferSize) {fuel k : Nat} {s : DecodeState} (h : Turns buf ⟨n, 0, q⟩ k s)
    (hdone : InotifyRealtime.decodeLoop buf fuel s = .done q') :
    ∃ es, q' = s.inotifyEventBuffer ++ es ∧
      ∀ e ∈ es, ∃ pos : Nat, HeaderAt buf n pos ∧ stackAt buf pos = some e := by
  induction fuel generalizing k s with
  | zero => exact DecodeResult.noConfusion hdone
  | succ fuel ih =>
      by_cases hread : headerSize ≤ s.readSize
      · cases hbody : decodeBody buf s with
        | none =>
            rw [InotifyRealtime.decodeLoop, if_neg (Int.not_lt.mpr hread), hbody] at hdone
            exact DecodeResult.noConfusion hdone
        | some t =>
            rw [decodeLoop_turn hread hbody] at hdone
            obtain ⟨es, hes, hall⟩ := ih (h.succ hread hbody) hdone
            obtain ⟨pos, hheader, hpos, -⟩ := h.headerAt hn hread (startPos_nonneg hbody)
            obtain ⟨stack, hstack, -⟩ := decodeBody_eq_some hbody
            refine ⟨stack :: es, ?_, fun e he => ?_⟩
            · rw [hes, decodeBody_push hbody hstack, List.append_assoc, List.singleton_append]
            · rcases List.mem_cons.mp he with rfl | he
              · exact ⟨pos, hheader, hpos ▸ hstack⟩
              · exact hall e he
      · rw [InotifyRealtime.decodeLoop, if_pos (Int.not_le.mp hread),
          DecodeResult.done.injEq] at hdone
        exact ⟨[], by rw [hdone, List.append_nil], fun e he => absurd he List.not_mem_nil⟩

/-- What stands at a header the loop pushes, if it ends. -/
theorem HeaderAt.pushed {buf : ReadBuffer} {n pos : Nat} {q q' : List CustomizedInotifyEvent}
    {stack : CustomizedInotifyEvent} (h : HeaderAt buf n pos) (hn : n ≤ readBufferSize)
    (hstack : InotifyRealtime.stackAt buf pos = some stack)
    (hdone : decode buf n q = .done (q ++ q')) : stack ∈ q' := by
  obtain ⟨k, s, hturns, hpos, hsize⟩ := h.turns hn q
  have hread : headerSize ≤ s.readSize := by
    have := h.inside
    omega
  rw [← hpos] at hstack
  obtain ⟨t, hbody, -⟩ := decodeBody_of_stackAt rfl hstack
  -- with fuel to spare the loop passes through this header
  have hlong := decodeLoop_mono (k + 1) hdone
  have hturns' := hturns.succ hread hbody
  rw [hturns'.decodeLoop] at hlong
  obtain ⟨es, hes, -⟩ := hturns'.pushed_at_header hn hlong
  obtain ⟨es₀, hes₀⟩ := hturns.pushed
  rw [decodeBody_push hbody hstack, hes₀, List.append_assoc, List.append_assoc] at hes
  rw [List.append_cancel_left hes]
  simp

/-! ### Two runs -/

/-- The loop ends on both arrays or on neither: their `int`s go together. -/
theorem Agree.ends {n : Nat} {buf buf' : ReadBuffer} (h : Agree n buf buf')
    (hn : n ≤ readBufferSize) {fuel : Nat} {s s' : DecodeState} {q : List CustomizedInotifyEvent}
    (hin : InStep n s) (hsize : s'.readSize = s.readSize) (hpos : s'.startPos = s.startPos)
    (hdone : decodeLoop buf fuel s = .done q) : ∃ q', decodeLoop buf' fuel s' = .done q' := by
  induction fuel generalizing s s' with
  | zero => exact DecodeResult.noConfusion hdone
  | succ fuel ih =>
      by_cases hread : headerSize ≤ s.readSize
      · cases hbody : decodeBody buf s with
        | none =>
            rw [decodeLoop, if_neg (Int.not_lt.mpr hread), hbody] at hdone
            exact DecodeResult.noConfusion hdone
        | some t =>
            obtain ⟨pos, heq, -, hfits⟩ := hin.header_inside hn hread (startPos_nonneg hbody)
            obtain ⟨hd, hhere, hthere⟩ := h.stackAt hn hfits
            have hread' : headerSize ≤ s'.readSize := hsize ▸ hread
            obtain ⟨stack, hstack, hstart, hrest⟩ := decodeBody_eq_some hbody
            obtain ⟨t', hbody', hstart', hrest'⟩ := decodeBody_of_stackAt (hpos.trans heq) hthere
            rw [heq, hhere, Option.some.injEq] at hstack
            subst hstack
            rw [decodeLoop_turn hread hbody] at hdone
            rw [decodeLoop_turn hread' hbody']
            refine ih (hin.turn hbody) ?_ ?_ hdone
            · rw [hrest', hrest, hsize]
            · rw [hstart', hstart, heq]
      · have hread' : s'.readSize < headerSize := by omega
        exact ⟨s'.inotifyEventBuffer, by rw [decodeLoop, if_pos hread']⟩

/-- No header's `len` leads the loop on to one in front of the array. -/
def HeadersInside (buf : ReadBuffer) (n : Nat) : Prop :=
  ∀ (pos : Nat) stack, HeaderAt buf n pos → stackAt buf pos = some stack →
    headerSize ≤ toInt32 (n - pos - advance stack.len) → 0 ≤ toInt32 (pos + advance stack.len)

/-- In terms of the loop: every header it reads is inside the `n` bytes, on any array that
begins with them. -/
theorem headersInside_iff {buf : ReadBuffer} {n : Nat} (hn : n ≤ readBufferSize) :
    HeadersInside buf n ↔ ∀ buf' q k s, Agree n buf buf' → Turns buf' ⟨n, 0, q⟩ k s →
      headerSize ≤ s.readSize → 0 ≤ s.startPos ∧ s.startPos + headerSize ≤ n := by
  constructor
  · intro h buf' q k s hagree hturns hread
    have hpos : 0 ≤ s.startPos := by
      cases hturns with
      | zero => exact Int.le_refl 0
      | @succ k s' _ hturns' hread' hbody =>
          -- the header before this one is inside, and the same in `buf`
          obtain ⟨pos, hheader, hpos, hsize⟩ := hturns'.headerAt hn hread' (startPos_nonneg hbody)
          obtain ⟨hd, hhere, hthere⟩ := hagree.stackAt hn hheader.inside
          obtain ⟨stack, hstack, hstart, hrest⟩ := decodeBody_eq_some hbody
          rw [hpos, hthere, Option.some.injEq] at hstack
          subst hstack
          rw [hpos] at hstart
          rw [hsize] at hrest
          have hnext := h pos _ (hagree.symm.headerAt hn hheader) hhere
          rw [hstart]
          exact hnext (hrest ▸ hread)
    obtain ⟨pos, heq, -, hfits⟩ :=
      (hturns.inStep (inStep_start hn q)).header_inside hn hread hpos
    rw [heq]
    exact ⟨Int.natCast_nonneg pos, by omega⟩
  · intro h pos stack hheader hstack hread
    obtain ⟨k, s, hturns, hpos, hsize⟩ := hheader.turns hn []
    have hread' : headerSize ≤ s.readSize := by
      have := hheader.inside
      omega
    obtain ⟨t, hbody, hstart, hrest⟩ := decodeBody_of_stackAt hpos hstack
    rw [hsize] at hrest
    rw [← hstart]
    exact (h buf [] (k + 1) t rfl (hturns.succ hread' hbody) (hrest.symm ▸ hread)).1

/-- A `len` that does not wrap leads to no header outside. -/
theorem Unwrapped.headersInside {buf : ReadBuffer} {n : Nat} (h : Unwrapped buf n)
    (hn : n ≤ readBufferSize) : HeadersInside buf n := by
  intro pos stack hheader hstack hread
  have hle := hheader.inside
  have hlen := h pos stack hheader hstack
  have hcases := advance_cases stack.len
  have hlt := stack.len.isLt
  rw [← Int.natCast_sub (by omega), exact_turn hn hle hlen] at hread
  simp only [readBufferSize, headerSize] at *
  rw [toInt32_of_range (by omega) (by omega)]
  omega

/-- Behind each header there is a NUL among the first `n` bytes. -/
def NamesInside (buf : ReadBuffer) (n : Nat) : Prop :=
  ∀ pos, HeaderAt buf n pos → 0#8 ∈ (buf.bytes.take n).drop (pos + headerSize)

/-- The bytes behind a header: those that were read, and the others. -/
theorem drop_eq_read_append (buf : ReadBuffer) {n pos : Nat} (h : pos ≤ n)
    (hn : n ≤ readBufferSize) :
    buf.bytes.drop pos = (buf.bytes.take n).drop pos ++ buf.bytes.drop n := by
  have hlen : pos ≤ (buf.bytes.take n).length := by
    rw [List.length_take, buf.size_eq]
    omega
  rw [← List.drop_append_of_le_length hlen, List.take_append_drop]

/-- A name with a NUL among the bytes read is the same in both arrays. -/
theorem Agree.cString {n pos : Nat} {buf buf' : ReadBuffer} (h : Agree n buf buf')
    (hn : n ≤ readBufferSize) (hpos : pos ≤ n) (hnul : 0#8 ∈ (buf.bytes.take n).drop pos) :
    Bytes.cString (buf.bytes.drop pos) = Bytes.cString (buf'.bytes.drop pos) := by
  rw [drop_eq_read_append buf hpos hn, drop_eq_read_append buf' hpos hn, cString_append hnul, ← h,
    cString_append hnul]

/-- With all names inside the bytes read, the loop does the same on both arrays. -/
theorem Agree.decodeLoop {n : Nat} {buf buf' : ReadBuffer} {q : List CustomizedInotifyEvent}
    (h : Agree n buf buf') (hn : n ≤ readBufferSize) (hinside : NamesInside buf n) :
    ∀ {fuel k : Nat} {s : DecodeState}, Turns buf ⟨n, 0, q⟩ k s →
      InotifyRealtime.decodeLoop buf fuel s = InotifyRealtime.decodeLoop buf' fuel s
  | 0, _, _, _ => rfl
  | fuel + 1, k, s, hturns => by
      by_cases hread : headerSize ≤ s.readSize
      · have hsame : decodeBody buf s = decodeBody buf' s := by
          by_cases hneg : s.startPos < 0
          · simp only [decodeBody, InotifyRealtime.stackAt, if_pos hneg]
          · obtain ⟨pos, hheader, hpos, -⟩ := hturns.headerAt hn hread (Int.not_lt.mp hneg)
            obtain ⟨hd, hhere, hthere⟩ := h.stackAt hn hheader.inside
            have hname := h.cString hn hheader.inside (hinside pos hheader)
            simp only [decodeBody, hpos, hhere, hthere, hname]
        cases hbody : decodeBody buf s with
        | none =>
            rw [InotifyRealtime.decodeLoop, InotifyRealtime.decodeLoop, ← hsame, hbody]
        | some t =>
            rw [decodeLoop_turn hread hbody, decodeLoop_turn hread (hsame ▸ hbody)]
            exact h.decodeLoop hn hinside (hturns.succ hread hbody)
      · have hdone : s.readSize < headerSize := Int.not_le.mp hread
        rw [InotifyRealtime.decodeLoop, InotifyRealtime.decodeLoop, if_pos hdone, if_pos hdone]

/-- The array that begins with the same `n` bytes and has no NUL behind them. -/
def ReadBuffer.unterminated (buf : ReadBuffer) (n : Nat) : ReadBuffer where
  bytes := buf.bytes.take n ++ List.replicate (readBufferSize - (buf.bytes.take n).length) 1#8
  size_eq := by
    have := buf.size_eq
    rw [List.length_append, List.length_replicate, List.length_take]
    omega

theorem agree_unterminated (buf : ReadBuffer) {n : Nat} (hn : n ≤ readBufferSize) :
    Agree n buf (buf.unterminated n) := by
  have hlen : (buf.bytes.take n).length = n := by
    rw [List.length_take, buf.size_eq, Nat.min_eq_left hn]
  rw [Agree, ReadBuffer.unterminated, List.take_append_of_le_length (by omega), List.take_take,
    Nat.min_self]

theorem drop_unterminated (buf : ReadBuffer) {n : Nat} (hn : n ≤ readBufferSize) :
    (buf.unterminated n).bytes.drop n = List.replicate (readBufferSize - n) 1#8 := by
  have hlen : (buf.bytes.take n).length = n := by
    rw [List.length_take, buf.size_eq, Nat.min_eq_left hn]
  rw [ReadBuffer.unterminated, List.drop_append_of_le_length (by omega), hlen,
    List.drop_eq_nil_of_le (by omega), List.nil_append]

/-- On no array that begins with the same `n` bytes does the loop read a header outside of
them, and where it ends on two such arrays its events are the same, and none of their
names was read past the end of the array. -/
structure RevealsOnlyRead (buf : ReadBuffer) (n : Nat) : Prop where
  headers : ∀ buf₁ q k s, Agree n buf buf₁ → Turns buf₁ ⟨n, 0, q⟩ k s →
    headerSize ≤ s.readSize → 0 ≤ s.startPos ∧ s.startPos + headerSize ≤ n
  events : ∀ buf₁ buf₂ q es₁ es₂, Agree n buf buf₁ → Agree n buf buf₂ →
    decode buf₁ n q = .done (q ++ es₁) → decode buf₂ n q = .done (q ++ es₂) →
    es₁ = es₂ ∧ ∀ e ∈ es₁, e.name ≠ none

/-- A header without a NUL behind it gives a name that goes on past the array, if no
NUL happens to stand behind the bytes read. -/
theorem RevealsOnlyRead.namesInside {buf : ReadBuffer} {n : Nat} (h : RevealsOnlyRead buf n)
    (hn : n ≤ readBufferSize) (hends : ∃ q, decode buf n [] = .done q) : NamesInside buf n := by
  intro pos hheader
  obtain ⟨q, hends⟩ := hends
  have hagree := agree_unterminated buf hn
  obtain ⟨es, hdone⟩ := hagree.ends hn (inStep_start hn []) rfl rfl hends
  obtain ⟨-, hnames⟩ := h.events _ _ [] es es hagree hagree hdone hdone
  obtain ⟨hd, -, hstack⟩ := hagree.stackAt hn hheader.inside
  have hname := hnames _ ((hagree.headerAt hn hheader).pushed hn hstack hdone)
  have hnul := cString_ne_none_iff.mp hname
  rw [drop_eq_read_append _ hheader.inside hn, ← hagree, drop_unterminated buf hn,
    List.mem_append, List.mem_replicate] at hnul
  exact hnul.resolve_right fun hbehind => absurd hbehind.2 (by decide)

/-- **When the events depend on the bytes read alone.** On all arrays that begin with
the same `n` bytes the loop reads its headers there, and on those it ends on it pushes
the same events and reads no name past the end of the array, if and only if no header
leads it out of the `n` bytes to another and, if it ends, each header has a NUL behind
it among them. -/
theorem decode_reveals_iff (buf : ReadBuffer) (n : Nat) (hn : n ≤ readBufferSize) :
    RevealsOnlyRead buf n ↔
      HeadersInside buf n ∧ ((∃ q, decode buf n [] = .done q) → NamesInside buf n) := by
  refine ⟨fun h => ⟨(headersInside_iff hn).mpr h.headers, fun hends => h.namesInside hn hends⟩,
    fun hand => ⟨(headersInside_iff hn).mp hand.1, ?_⟩⟩
  intro buf₁ buf₂ q es₁ es₂ h₁ h₂ hdone₁ hdone₂
  have hends : ∃ q', decode buf n [] = .done q' :=
    h₁.symm.ends hn (inStep_start hn q) rfl rfl hdone₁
  have hinside := hand.2 hends
  have hsame₁ : decode buf n q = decode buf₁ n q := h₁.decodeLoop hn hinside .zero
  have hsame₂ : decode buf n q = decode buf₂ n q := h₂.decodeLoop hn hinside .zero
  have hdone := hsame₁.trans hdone₁
  have heq : q ++ es₁ = q ++ es₂ :=
    DecodeResult.done.inj (hdone.symm.trans (hsame₂.trans hdone₂))
  refine ⟨List.append_cancel_left heq, fun e he => ?_⟩
  obtain ⟨es, hes, hall⟩ := Turns.zero.pushed_at_header hn hdone
  rw [List.append_cancel_left hes] at he
  obtain ⟨pos, hheader, hstack⟩ := hall e he
  obtain ⟨hd, hhere, -⟩ := h₁.stackAt hn hheader.inside
  obtain rfl := Option.some.inj (hstack.symm.trans hhere)
  rw [cString_ne_none_iff, drop_eq_read_append buf hheader.inside hn]
  exact List.mem_append_left _ (hinside pos hheader)

/-- A read that ends with a named record. -/
theorem decode_reveals_create :
    RevealsOnlyRead (.zeroed [createRecord] (by decide)) 32 := by
  have hholds : ReadBuffer.Holds (.zeroed [createRecord] (by decide)) [createRecord] := by
    decide +kernel
  refine (decode_reveals_iff _ 32 (by decide)).mpr
    ⟨(unwrapped_of_holds hholds).headersInside (by decide), fun _ pos hheader => ?_⟩
  obtain ⟨before, r, after, heq, rfl⟩ := headerAt_of_holds hholds hheader
  obtain rfl : before = [] := by
    cases before with
    | nil => rfl
    | cons b before => simp at heq
  decide +kernel

/-- The name of a nameless last record is what stands behind the bytes read. -/
theorem decode_reveals_unread :
    ¬ ∀ (buf : ReadBuffer) (n : Nat), 0 < n → n ≤ readBufferSize → RevealsOnlyRead buf n := by
  intro h
  have hreveals := h (.zeroed [closeRecord] (by decide)) 16 (by decide) (by decide)
  have hnames := hreveals.namesInside (by decide)
    ⟨[⟨1, 0x40000010#32, 0, 0, some []⟩], by decide +kernel⟩
  exact absurd (hnames 0 (.first (by decide))) (by decide +kernel)

end InotifyRealtime
