import InotifyRealtime.DecodeSound
/-!
# InotifyRealtime.DecodeBytes

The decode loop on arbitrary bytes.

`Decode` follows the loop over well-formed records. Here the array may hold
anything. The loop keeps two `int`s whose sum is the number of bytes read, up to
a multiple of 2^32, so wherever it reads a header at a position that is not
negative, the header lies inside the bytes read (`InStep.header_inside`). What may
go wrong is the step to the next position: `stack.len + 16` is computed modulo
2^32 and subtracted in a 32-bit `int`. `HeaderAt` lists the positions the loop
reads headers at, and `Unwrapped` says that at none of them the subtraction wraps.
Then the loop ends within `n / 16` turns and stays inside the `n` bytes
(`decode_ends_in_range`). Otherwise it may never end, and `decode` runs out of fuel
then and only then (`decode_outOfFuel_iff`).
-/

namespace InotifyRealtime

open Bytes

/-! ### 32-bit arithmetic -/

/-- A value and its conversion to `int` differ by a multiple of 2^32. -/
theorem toInt32_spec (x : Int) :
    (∃ k, toInt32 x = x + k * 2 ^ 32) ∧ -(2 ^ 31) ≤ toInt32 x ∧ toInt32 x < 2 ^ 31 := by
  refine ⟨?_, ?_, ?_⟩
  · refine ⟨-(x.bdiv (2 ^ 32)), ?_⟩
    have hsplit := Int.bmod_add_bdiv' x (2 ^ 32)
    simp only [toInt32]
    omega
  · exact Int.le_bmod (by decide)
  · exact Int.bmod_lt (by decide)

theorem advance_lt (len : BitVec 32) : advance len < 2 ^ 32 := (len + 16#32).isLt

/-- The sum in `uint32_t` is `len + 16`, or misses it by 2^32. -/
theorem advance_cases (len : BitVec 32) :
    advance len = len.toNat + headerSize ∨ advance len + 2 ^ 32 = len.toNat + headerSize := by
  have hlen := len.isLt
  have hsum : advance len = (len.toNat + 16) % 2 ^ 32 := by
    rw [advance, BitVec.toNat_add, BitVec.toNat_ofNat]
  simp only [headerSize]
  omega

/-! ### Headers inside the array -/

theorem takeWord_take (bytes : List Byte) (h : 4 ≤ bytes.length) :
    ∃ w, ∀ following, takeWord (bytes.take 4 ++ following) = some (w, following) := by
  match bytes, h with
  | b₀ :: b₁ :: b₂ :: b₃ :: _, _ => exact ⟨b₃ ++ b₂ ++ b₁ ++ b₀, fun _ => rfl⟩

/-- The header at the front of some bytes is made of the first 16. -/
theorem readHeader_take {bytes : List Byte} (h : headerSize ≤ bytes.length) :
    ∃ hd, ∀ following, readHeader (bytes.take headerSize ++ following) = some (hd, following) := by
  simp only [headerSize] at h ⊢
  have hsplit : ∀ following, bytes.take 16 ++ following =
      bytes.take 4 ++ ((bytes.drop 4).take 4 ++ ((bytes.drop 8).take 4 ++
        ((bytes.drop 12).take 4 ++ following))) := by
    intro following
    have h₁ : bytes.take 16 = bytes.take 4 ++ (bytes.drop 4).take 12 := by
      rw [← List.take_add]
    have h₂ : (bytes.drop 4).take 12 = (bytes.drop 4).take 4 ++ (bytes.drop 8).take 8 := by
      rw [show (12 : Nat) = 4 + 8 from rfl, List.take_add, List.drop_drop]
    have h₃ : (bytes.drop 8).take 8 = (bytes.drop 8).take 4 ++ (bytes.drop 12).take 4 := by
      rw [show (8 : Nat) = 4 + 4 from rfl, List.take_add, List.drop_drop]
    rw [h₁, h₂, h₃]
    simp only [List.append_assoc]
  obtain ⟨wd, hwd⟩ := takeWord_take bytes (by omega)
  obtain ⟨mask, hmask⟩ := takeWord_take (bytes.drop 4) (by rw [List.length_drop]; omega)
  obtain ⟨cookie, hcookie⟩ := takeWord_take (bytes.drop 8) (by rw [List.length_drop]; omega)
  obtain ⟨len, hlen⟩ := takeWord_take (bytes.drop 12) (by rw [List.length_drop]; omega)
  refine ⟨⟨wd.toInt, mask, cookie, len⟩, fun following => ?_⟩
  rw [hsplit]
  simp [readHeader, hwd, hmask, hcookie, hlen]

/-- What the body of the loop finds where a header lies inside the array. -/
theorem stackAt_inside (buf : ReadBuffer) (pos : Nat) (h : pos + headerSize ≤ readBufferSize) :
    ∃ hd : Header, stackAt buf pos =
        some ⟨hd.wd, hd.mask, hd.cookie, hd.len, cString (buf.bytes.drop (pos + headerSize))⟩ ∧
      ∀ following, readHeader ((buf.bytes.drop pos).take headerSize ++ following) =
        some (hd, following) := by
  have hlong : headerSize ≤ (buf.bytes.drop pos).length := by
    rw [List.length_drop, buf.size_eq]
    omega
  obtain ⟨hd, hread⟩ := readHeader_take hlong
  refine ⟨hd, ?_, hread⟩
  have hpos : ¬ ((pos : Int) < 0) := by omega
  have hsplit : buf.bytes.drop pos =
      (buf.bytes.drop pos).take headerSize ++ buf.bytes.drop (pos + headerSize) := by
    rw [← List.drop_drop, List.take_append_drop]
  rw [stackAt, if_neg hpos, Int.toNat_natCast, hsplit, hread]
  rfl

/-! ### Turns of the loop -/

/-- The state after `k` turns. -/
inductive Turns (buf : ReadBuffer) (start : DecodeState) : Nat → DecodeState → Prop
  | zero : Turns buf start 0 start
  | succ {k : Nat} {s t : DecodeState} :
      Turns buf start k s → headerSize ≤ s.readSize → decodeBody buf s = some t →
      Turns buf start (k + 1) t

/-- One turn uses up one unit of fuel. -/
theorem decodeLoop_turn {buf : ReadBuffer} {s t : DecodeState} (hread : headerSize ≤ s.readSize)
    (hbody : decodeBody buf s = some t) (fuel : Nat) :
    decodeLoop buf (fuel + 1) s = decodeLoop buf fuel t := by
  rw [decodeLoop, if_neg (Int.not_lt.mpr hread), hbody]

theorem Turns.decodeLoop {buf : ReadBuffer} {start s : DecodeState} {k : Nat}
    (h : Turns buf start k s) :
    ∀ fuel, decodeLoop buf (fuel + k) start = InotifyRealtime.decodeLoop buf fuel s := by
  induction h with
  | zero => exact fun _ => rfl
  | @succ k s t _ hread hbody ih =>
      intro fuel
      rw [show fuel + (k + 1) = (fuel + 1) + k by omega, ih, decodeLoop_turn hread hbody]

/-- When turns never run out of the array and are never more than `bound`, the loop
ends with fuel for that many. -/
theorem decodeLoop_done_of_bound {buf : ReadBuffer} {start : DecodeState} {bound : Nat}
    (hinside : ∀ k s, Turns buf start k s → headerSize ≤ s.readSize → decodeBody buf s ≠ none)
    (hbound : ∀ k s, Turns buf start k s → k ≤ bound) {fuel k : Nat} {s : DecodeState}
    (h : Turns buf start k s) (hk : k + fuel = bound + 1) :
    ∃ q, decodeLoop buf fuel s = .done q := by
  induction fuel generalizing k s with
  | zero =>
      have := hbound k s h
      omega
  | succ fuel ih =>
      by_cases hread : headerSize ≤ s.readSize
      · obtain ⟨t, hbody⟩ := Option.ne_none_iff_exists'.mp (hinside k s h hread)
        rw [decodeLoop_turn hread hbody]
        exact ih (.succ h hread hbody) (by omega)
      · exact ⟨s.inotifyEventBuffer, by rw [decodeLoop, if_pos (Int.not_le.mp hread)]⟩

/-- The two `int`s of a loop over `n` bytes: together they are `n`, but for a
multiple of 2^32. -/
structure InStep (n : Nat) (s : DecodeState) : Prop where
  readSize_range : -(2 ^ 31) ≤ s.readSize ∧ s.readSize < 2 ^ 31
  startPos_range : -(2 ^ 31) ≤ s.startPos ∧ s.startPos < 2 ^ 31
  sum_eq : ∃ k : Int, s.startPos + s.readSize = n + k * 2 ^ 32

theorem inStep_start {n : Nat} (hn : n ≤ readBufferSize) (q : List CustomizedInotifyEvent) :
    InStep n ⟨n, 0, q⟩ := by
  simp only [readBufferSize] at hn
  refine ⟨?_, ?_, 0, by simp⟩
  · show -(2 ^ 31) ≤ (n : Int) ∧ (n : Int) < 2 ^ 31
    omega
  · show -(2 ^ 31) ≤ (0 : Int) ∧ (0 : Int) < 2 ^ 31
    omega

/-- What the body of the loop does to the two `int`s. -/
theorem decodeBody_eq_some {buf : ReadBuffer} {s t : DecodeState} (h : decodeBody buf s = some t) :
    ∃ stack, stackAt buf s.startPos = some stack ∧
      t.startPos = toInt32 (s.startPos + advance stack.len) ∧
      t.readSize = toInt32 (s.readSize - advance stack.len) := by
  obtain ⟨stack, hstack, rfl⟩ := Option.map_eq_some_iff.mp h
  exact ⟨stack, hstack, rfl, rfl⟩

/-- Where a header is read the body has a result. -/
theorem decodeBody_of_stackAt {buf : ReadBuffer} {s : DecodeState} {pos : Int}
    {stack : CustomizedInotifyEvent} (hpos : s.startPos = pos)
    (hstack : stackAt buf pos = some stack) :
    ∃ t, decodeBody buf s = some t ∧ t.startPos = toInt32 (pos + advance stack.len) ∧
      t.readSize = toInt32 (s.readSize - advance stack.len) := by
  rw [decodeBody, hpos, hstack]
  exact ⟨_, rfl, rfl, rfl⟩

theorem InStep.turn {buf : ReadBuffer} {n : Nat} {s t : DecodeState} (h : InStep n s)
    (hbody : decodeBody buf s = some t) : InStep n t := by
  obtain ⟨stack, -, hpos, hsize⟩ := decodeBody_eq_some hbody
  obtain ⟨⟨i, hi⟩, hlow, hhigh⟩ := toInt32_spec (s.startPos + advance stack.len)
  obtain ⟨⟨j, hj⟩, hlow', hhigh'⟩ := toInt32_spec (s.readSize - advance stack.len)
  obtain ⟨k, hk⟩ := h.sum_eq
  rw [← hpos] at hi hlow hhigh
  rw [← hsize] at hj hlow' hhigh'
  exact ⟨⟨hlow', hhigh'⟩, ⟨hlow, hhigh⟩, k + i + j, by omega⟩

theorem Turns.inStep {buf : ReadBuffer} {n k : Nat} {start s : DecodeState}
    (h : Turns buf start k s) (hstart : InStep n start) : InStep n s := by
  induction h with
  | zero => exact hstart
  | succ _ _ hbody ih => exact ih.turn hbody

/-- A header at a position that is not negative lies inside the bytes read. -/
theorem InStep.header_inside {n : Nat} {s : DecodeState} (h : InStep n s)
    (hn : n ≤ readBufferSize) (hread : headerSize ≤ s.readSize) (hpos : 0 ≤ s.startPos) :
    ∃ pos : Nat, s.startPos = pos ∧ s.readSize = n - pos ∧ pos + headerSize ≤ n := by
  obtain ⟨⟨-, hsize⟩, ⟨-, hstart⟩, k, hk⟩ := h
  simp only [readBufferSize, headerSize] at *
  obtain rfl : k = 0 := by omega
  exact ⟨s.startPos.toNat, by omega, by omega, by omega⟩

/-- A turn was taken at a position that is not negative. -/
theorem startPos_nonneg {buf : ReadBuffer} {s t : DecodeState} (h : decodeBody buf s = some t) :
    0 ≤ s.startPos := by
  obtain ⟨stack, hstack, -⟩ := decodeBody_eq_some h
  by_contra hneg
  rw [stackAt, if_pos (by omega)] at hstack
  exact Option.some_ne_none stack hstack.symm

/-! ### The fuel of `decode` -/

/-- What the loop does next depends on its two `int`s. -/
theorem decodeLoop_outOfFuel_congr {buf : ReadBuffer} {fuel : Nat} {s s' : DecodeState}
    (hsize : s'.readSize = s.readSize) (hpos : s'.startPos = s.startPos)
    (h : decodeLoop buf fuel s = .outOfFuel) : decodeLoop buf fuel s' = .outOfFuel := by
  induction fuel generalizing s s' with
  | zero => rfl
  | succ fuel ih =>
      by_cases hread : headerSize ≤ s.readSize
      · cases hbody : decodeBody buf s with
        | none =>
            rw [decodeLoop, if_neg (Int.not_lt.mpr hread), hbody] at h
            exact DecodeResult.noConfusion h
        | some t =>
            obtain ⟨stack, hstack, hstart, hrest⟩ := decodeBody_eq_some hbody
            obtain ⟨t', hbody', hstart', hrest'⟩ := decodeBody_of_stackAt hpos hstack
            rw [decodeLoop_turn hread hbody] at h
            rw [decodeLoop_turn (hsize ▸ hread) hbody']
            exact ih (by rw [hrest', hrest, hsize]) (by rw [hstart', hstart]) h
      · rw [decodeLoop, if_pos (Int.not_le.mp hread)] at h
        exact DecodeResult.noConfusion h

/-- A loop that is out of fuel has taken a turn for each unit of it. -/
theorem turns_of_outOfFuel {buf : ReadBuffer} {start : DecodeState} {fuel : Nat}
    (h : decodeLoop buf fuel start = .outOfFuel) {k : Nat} (hk : k ≤ fuel) :
    ∃ s, Turns buf start k s ∧ decodeLoop buf (fuel - k) s = .outOfFuel := by
  induction k with
  | zero => exact ⟨start, .zero, h⟩
  | succ k ih =>
      obtain ⟨s, hturns, hleft⟩ := ih (Nat.le_of_succ_le hk)
      obtain ⟨left, hfuel⟩ : ∃ left, fuel - k = left + 1 := ⟨fuel - k - 1, by omega⟩
      rw [hfuel] at hleft
      by_cases hread : headerSize ≤ s.readSize
      · cases hbody : decodeBody buf s with
        | none =>
            rw [decodeLoop, if_neg (Int.not_lt.mpr hread), hbody] at hleft
            exact DecodeResult.noConfusion hleft
        | some t =>
            rw [decodeLoop_turn hread hbody] at hleft
            exact ⟨t, hturns.succ hread hbody, by rwa [show fuel - (k + 1) = left by omega]⟩
      · rw [decodeLoop, if_pos (Int.not_le.mp hread)] at hleft
        exact DecodeResult.noConfusion hleft

/-- With less fuel it is out of it, too. -/
theorem outOfFuel_of_le {buf : ReadBuffer} {start : DecodeState} {fuel fuel' : Nat}
    (h : decodeLoop buf fuel start = .outOfFuel) (hle : fuel' ≤ fuel) :
    decodeLoop buf fuel' start = .outOfFuel := by
  obtain ⟨s, hturns, -⟩ := turns_of_outOfFuel h hle
  rw [← Nat.zero_add fuel', hturns.decodeLoop]
  rfl

/-- A loop that comes to a header twice never ends. -/
theorem endless_of_revisit {buf : ReadBuffer} {start s t : DecodeState} {i j : Nat}
    (hs : Turns buf start i s) (ht : Turns buf start j t) (hij : i < j)
    (hsize : t.readSize = s.readSize) (hpos : t.startPos = s.startPos) (fuel : Nat) :
    decodeLoop buf fuel start = .outOfFuel := by
  have hrounds : ∀ m, decodeLoop buf (m * (j - i)) t = .outOfFuel := by
    intro m
    induction m with
    | zero =>
        rw [Nat.zero_mul]
        rfl
    | succ m ih =>
        refine decodeLoop_outOfFuel_congr hsize hpos ?_
        rw [← hs.decodeLoop, show (m + 1) * (j - i) + i = m * (j - i) + j by
          rw [Nat.succ_mul]
          omega, ht.decodeLoop]
        exact ih
  have hlong : fuel ≤ fuel * (j - i) + j :=
    (Nat.le_mul_of_pos_right fuel (by omega)).trans (Nat.le_add_right _ j)
  refine outOfFuel_of_le ?_ hlong
  rw [ht.decodeLoop]
  exact hrounds fuel

/-- **`decode` has fuel enough**: it is out of it only where the loop never ends, as more
turns than the array has positions come to one of them twice. -/
theorem decode_outOfFuel_iff (buf : ReadBuffer) {n : Nat} (hn : n ≤ readBufferSize)
    (q : List CustomizedInotifyEvent) :
    decode buf n q = .outOfFuel ↔ ∀ fuel, decodeLoop buf fuel ⟨n, 0, q⟩ = .outOfFuel := by
  refine ⟨fun h fuel => ?_, fun h => h _⟩
  have hheaders : ∀ k : Fin (readBufferSize + 1), ∃ (pos : Fin readBufferSize) (s : DecodeState),
      Turns buf ⟨n, 0, q⟩ k s ∧ s.startPos = pos.val ∧ s.readSize = n - (pos.val : Int) := by
    intro k
    obtain ⟨t, hnext, -⟩ := turns_of_outOfFuel h (Nat.succ_le_of_lt k.isLt)
    cases hnext with
    | @succ _ s _ hturns hread hbody =>
        obtain ⟨pos, hpos, hsize, hfits⟩ := (hturns.inStep (inStep_start hn q)).header_inside hn
          hread (startPos_nonneg hbody)
        have hlt : pos < readBufferSize := by
          simp only [headerSize] at hfits
          omega
        exact ⟨⟨pos, hlt⟩, s, hturns, hpos, hsize⟩
  choose pos state hturns hpos hsize using hheaders
  obtain ⟨i, j, hne, hij⟩ := Fintype.exists_ne_map_eq_of_card_lt pos (by simp)
  have hrevisit : ∀ a b : Fin (readBufferSize + 1), a < b → pos a = pos b →
      decodeLoop buf fuel ⟨n, 0, q⟩ = .outOfFuel := by
    intro a b hab heq
    exact endless_of_revisit (hturns a) (hturns b) hab (by rw [hsize, hsize, heq])
      (by rw [hpos, hpos, heq]) fuel
  rcases lt_or_gt_of_ne hne with hlt | hgt
  · exact hrevisit i j hlt hij
  · exact hrevisit j i hgt hij.symm

/-! ### Where headers are read -/

/-- The positions of headers among the first `n` bytes: the front, and from each
header the position its `len` leads to, as long as a header fits there. -/
inductive HeaderAt (buf : ReadBuffer) (n : Nat) : Nat → Prop
  | first : headerSize ≤ n → HeaderAt buf n 0
  | next {pos pos' : Nat} {stack : CustomizedInotifyEvent} :
      HeaderAt buf n pos → stackAt buf pos = some stack →
      toInt32 (pos + advance stack.len) = pos' → pos' + headerSize ≤ n →
      HeaderAt buf n pos'

theorem HeaderAt.inside {buf : ReadBuffer} {n pos : Nat} (h : HeaderAt buf n pos) :
    pos + headerSize ≤ n := by
  cases h with
  | first h => simpa using h
  | next _ _ _ h => exact h

/-- The loop reads headers there and nowhere else. -/
theorem Turns.headerAt {buf : ReadBuffer} {n k : Nat} {q : List CustomizedInotifyEvent}
    {s : DecodeState} (hn : n ≤ readBufferSize) (h : Turns buf ⟨n, 0, q⟩ k s)
    (hread : headerSize ≤ s.readSize) (hpos : 0 ≤ s.startPos) :
    ∃ pos : Nat, HeaderAt buf n pos ∧ s.startPos = pos ∧ s.readSize = n - pos := by
  obtain ⟨pos, heq, hsize, hfits⟩ := (h.inStep (inStep_start hn q)).header_inside hn hread hpos
  refine ⟨pos, ?_, heq, hsize⟩
  induction h generalizing pos with
  | zero =>
      obtain rfl : pos = 0 := by simpa using heq.symm
      exact .first (by simpa using hfits)
  | @succ k s t h hread' hbody ih =>
      have hpos' := startPos_nonneg hbody
      obtain ⟨pos', heq', hsize', hfits'⟩ :=
        (h.inStep (inStep_start hn q)).header_inside hn hread' hpos'
      obtain ⟨stack, hstack, hstep, -⟩ := decodeBody_eq_some hbody
      rw [heq'] at hstack hstep
      exact .next (ih hread' hpos' pos' heq' hsize' hfits') hstack (hstep.symm.trans heq) hfits

theorem HeaderAt.turns {buf : ReadBuffer} {n pos : Nat} (hn : n ≤ readBufferSize)
    (h : HeaderAt buf n pos) (q : List CustomizedInotifyEvent) :
    ∃ k s, Turns buf ⟨n, 0, q⟩ k s ∧ s.startPos = pos ∧ s.readSize = n - pos := by
  induction h with
  | first _ => exact ⟨0, _, .zero, rfl, by simp⟩
  | @next pos pos' stack h hstack hstep hfits ih =>
      obtain ⟨k, s, hturns, hpos, hsize⟩ := ih
      have hread : headerSize ≤ s.readSize := by
        have := h.inside
        omega
      obtain ⟨t, hbody, hstep', -⟩ := decodeBody_of_stackAt hpos hstack
      rw [hstep] at hstep'
      have hturns' := hturns.succ hread hbody
      -- the other `int` follows from the sum
      have hin := hturns'.inStep (inStep_start hn q)
      obtain ⟨hsizeRange, -, i, hi⟩ := hin
      refine ⟨k + 1, t, hturns', hstep', ?_⟩
      simp only [readBufferSize, headerSize] at *
      omega

/-! ### Lengths that do not wrap -/

/-- At no header does `read_size -= stack.len + 16` wrap. -/
def Unwrapped (buf : ReadBuffer) (n : Nat) : Prop :=
  ∀ pos stack, HeaderAt buf n pos → stackAt buf pos = some stack →
    stack.len.toNat + headerSize ≤ 2 ^ 31 + (n - pos)

/-- A turn takes at least a header off the bytes still to decode exactly when its
`len` does not wrap: a sum that wraps is less than a header, and a difference that
wraps is more than there was. -/
theorem progress_iff (pos n : Nat) (len : BitVec 32) :
    toInt32 (((n - pos : Nat) : Int) - advance len) + headerSize ≤ ((n - pos : Nat) : Int) ↔
      len.toNat + headerSize ≤ 2 ^ 31 + (n - pos) := by
  obtain ⟨⟨k, hk⟩, hlow, hhigh⟩ := toInt32_spec (((n - pos : Nat) : Int) - advance len)
  have hlt := advance_lt len
  have hlen := len.isLt
  have hcases := advance_cases len
  simp only [headerSize] at hcases ⊢
  omega

/-- A turn at a header that does not wrap moves on by exactly `len + 16`. -/
theorem exact_turn {pos n : Nat} (hn : n ≤ readBufferSize) (hfits : pos + headerSize ≤ n)
    {len : BitVec 32} (hlen : len.toNat + headerSize ≤ 2 ^ 31 + (n - pos)) :
    toInt32 (((n - pos : Nat) : Int) - advance len) =
      ((n - pos : Nat) : Int) - (len.toNat + headerSize : Nat) := by
  have hlt := len.isLt
  have hcases := advance_cases len
  simp only [readBufferSize, headerSize] at hn hfits hlen hcases ⊢
  rw [toInt32_of_range (by omega) (by omega)]
  omega

/-- What the loop does with its `n` bytes when nothing wraps: it ends within
`n / 16` turns, and each header it reads lies inside the bytes read. -/
structure EndsInRange (buf : ReadBuffer) (n : Nat) (q : List CustomizedInotifyEvent) : Prop where
  ends : ∃ q', decodeLoop buf (n / headerSize + 1) ⟨n, 0, q⟩ = .done q'
  in_range : ∀ k s, Turns buf ⟨n, 0, q⟩ k s → headerSize ≤ s.readSize →
    0 ≤ s.startPos ∧ s.startPos + headerSize ≤ n

/-- Every turn takes at least a header off the bytes still to decode. -/
def Progresses (buf : ReadBuffer) (n : Nat) (q : List CustomizedInotifyEvent) : Prop :=
  ∀ k s t, Turns buf ⟨n, 0, q⟩ k s → headerSize ≤ s.readSize → decodeBody buf s = some t →
    t.readSize + headerSize ≤ s.readSize

theorem unwrapped_iff_progresses {buf : ReadBuffer} {n : Nat} (hn : n ≤ readBufferSize)
    (q : List CustomizedInotifyEvent) : Unwrapped buf n ↔ Progresses buf n q := by
  constructor
  · intro h k s t hturns hread hbody
    obtain ⟨pos, hheader, hpos, hsize⟩ := hturns.headerAt hn hread (startPos_nonneg hbody)
    obtain ⟨stack, hstack, -, hstep⟩ := decodeBody_eq_some hbody
    have hle := hheader.inside
    rw [hpos] at hstack
    rw [hsize, ← Int.natCast_sub (by omega)] at hstep ⊢
    rw [hstep]
    exact (progress_iff pos n stack.len).mpr (h pos stack hheader hstack)
  · intro h pos stack hheader hstack
    obtain ⟨k, s, hturns, hpos, hsize⟩ := hheader.turns hn q
    have hle := hheader.inside
    have hread : headerSize ≤ s.readSize := by omega
    obtain ⟨t, hbody, -, hstep⟩ := decodeBody_of_stackAt hpos hstack
    have hprogress := h k s t hturns hread hbody
    rw [hsize, ← Int.natCast_sub (by omega)] at hstep hprogress
    rw [hstep] at hprogress
    exact (progress_iff pos n stack.len).mp hprogress

/-- While nothing wraps, a state with a header to read is at a header. -/
theorem Unwrapped.at_header {buf : ReadBuffer} {n k : Nat} {q : List CustomizedInotifyEvent}
    {s : DecodeState} (h : Unwrapped buf n) (hn : n ≤ readBufferSize)
    (hturns : Turns buf ⟨n, 0, q⟩ k s) (hread : headerSize ≤ s.readSize) :
    ∃ pos : Nat, HeaderAt buf n pos ∧ s.startPos = pos ∧ s.readSize = n - pos := by
  refine hturns.headerAt hn hread ?_
  cases hturns with
  | zero => exact Int.le_refl 0
  | @succ k s' _ hturns' hread' hbody =>
      -- `read_size` went down and not below a header, so the position went up as much
      have hpos' := startPos_nonneg hbody
      obtain ⟨pos, hheader, hpos, hsize⟩ := hturns'.headerAt hn hread' hpos'
      obtain ⟨stack, hstack, hstart, hstep⟩ := decodeBody_eq_some hbody
      have hle := hheader.inside
      rw [hpos] at hstack hstart
      have hlen := h pos stack hheader hstack
      have hcases := advance_cases stack.len
      have hlt := stack.len.isLt
      rw [hsize, ← Int.natCast_sub (by omega), exact_turn hn hle hlen] at hstep
      simp only [readBufferSize, headerSize] at *
      rw [hstart, toInt32_of_range (by omega) (by omega)]
      omega

/-- Each turn used up at least a header. -/
theorem Progresses.turns_le {buf : ReadBuffer} {n k : Nat} {q : List CustomizedInotifyEvent}
    {s : DecodeState} (h : Progresses buf n q) (hturns : Turns buf ⟨n, 0, q⟩ k s) :
    s.readSize + (headerSize * k : Nat) ≤ n ∧ k ≤ n / headerSize := by
  induction hturns with
  | zero => simp
  | @succ k s t hturns hread hbody ih =>
      have hprogress := h k s t hturns hread hbody
      simp only [headerSize] at *
      omega

/-- **When the decode loop ends and stays in range.** For every content of the
array: as long as no header's `len` makes `read_size -= stack.len + 16` wrap, the
loop ends within `n / 16` turns and reads every header inside the first `n` bytes.
And the lengths that wrap are exactly those that take a turn off the track: each
other turn takes at least a header off the bytes still to decode, theirs do not. -/
theorem decode_ends_in_range (buf : ReadBuffer) (n : Nat) (q : List CustomizedInotifyEvent)
    (hn : n ≤ readBufferSize) :
    (Unwrapped buf n → EndsInRange buf n q) ∧ (Unwrapped buf n ↔ Progresses buf n q) := by
  refine ⟨fun h => ⟨?_, fun k s hturns hread => ?_⟩, unwrapped_iff_progresses hn q⟩
  · have hprogress := (unwrapped_iff_progresses hn q).mp h
    have hbound : ∀ k s, Turns buf ⟨n, 0, q⟩ k s → k ≤ n / headerSize := fun k s hturns =>
      (hprogress.turns_le hturns).2
    refine decodeLoop_done_of_bound (fun k s hturns hread => ?_) hbound .zero (by omega)
    obtain ⟨pos, hheader, hpos, -⟩ := h.at_header hn hturns hread
    have hle := hheader.inside
    obtain ⟨hd, hstack, -⟩ := stackAt_inside buf pos (by omega)
    rw [decodeBody, hpos, hstack]
    exact Option.some_ne_none _
  · obtain ⟨pos, hheader, hpos, -⟩ := h.at_header hn hturns hread
    have hle := hheader.inside
    omega

/-- In a read of whole records, headers are read where records begin. -/
theorem headerAt_of_holds {buf : ReadBuffer} {rs : List InotifyEvent} (h : buf.Holds rs)
    {pos : Nat} (hheader : HeaderAt buf (encodeAll rs).length pos) :
    ∃ before r after, rs = before ++ r :: after ∧ pos = (encodeAll before).length := by
  induction hheader with
  | first hfits =>
      cases rs with
      | nil => simp [headerSize] at hfits
      | cons r rs => exact ⟨[], r, rs, rfl, rfl⟩
  | @next pos pos' stack hheader hstack hstep hfits ih =>
      obtain ⟨before, r, after, rfl, rfl⟩ := ih
      have hbytes : buf.bytes = encodeAll before ++ (r.encode ++ (encodeAll after ++
          buf.behind (before ++ r :: after))) := by
        rw [h.bytes_eq]
        simp [encodeAll]
      have hle := h.length_le
      rw [stackAt_encode hbytes, Option.some.injEq] at hstack
      subst hstack
      have hlen : (encodeAll (before ++ r :: after)).length =
          (encodeAll before).length + (r.encode.length + (encodeAll after).length) := by
        simp [encodeAll]
      have hencode := r.encode_length
      have hnext : toInt32 ((encodeAll before).length + advance r.len) =
          ((encodeAll before).length + r.encode.length : Nat) := by
        simp only [readBufferSize, headerSize] at hle hencode
        rw [advance_of_lt (by simp only [headerSize]; omega), headerSize,
          toInt32_of_range (by omega) (by omega)]
        omega
      have hpos : pos' = (encodeAll before).length + r.encode.length := by
        have := hnext.symm.trans hstep
        omega
      cases after with
      | nil =>
          rw [hpos, hlen] at hfits
          simp [headerSize] at hfits
      | cons r' after =>
          refine ⟨before ++ [r], r', after, by simp, ?_⟩
          rw [hpos]
          simp [encodeAll]

/-- What the kernel writes does not wrap. -/
theorem unwrapped_of_holds {buf : ReadBuffer} {rs : List InotifyEvent} (h : buf.Holds rs) :
    Unwrapped buf (encodeAll rs).length := by
  intro pos stack hheader hstack
  obtain ⟨before, r, after, rfl, rfl⟩ := headerAt_of_holds h hheader
  have hbytes : buf.bytes = encodeAll before ++ (r.encode ++ (encodeAll after ++
      buf.behind (before ++ r :: after))) := by
    rw [h.bytes_eq]
    simp [encodeAll]
  rw [stackAt_encode hbytes, Option.some.injEq] at hstack
  subst hstack
  have hle := h.length_le
  have hlen : (encodeAll (before ++ r :: after)).length =
      (encodeAll before).length + (r.encode.length + (encodeAll after).length) := by
    simp [encodeAll]
  have hencode := r.encode_length
  show r.len.toNat + headerSize ≤ _
  simp only [readBufferSize] at hle
  omega

theorem decode_ends_in_range_create_close :
    EndsInRange (.zeroed [createRecord, closeRecord] (by decide)) 48 [] :=
  (decode_ends_in_range _ 48 [] (by decide)).1
    (unwrapped_of_holds (show ReadBuffer.Holds _ [createRecord, closeRecord] by decide +kernel))

/-- A `len` for which `len + 16` is 0 leaves the loop where it is. -/
theorem decodeLoop_spins {buf : ReadBuffer} {s : DecodeState} {stack : CustomizedInotifyEvent}
    (hread : headerSize ≤ s.readSize) (hstack : stackAt buf s.startPos = some stack)
    (hlen : advance stack.len = 0) (hpos : toInt32 s.startPos = s.startPos)
    (hsize : toInt32 s.readSize = s.readSize) :
    ∀ fuel q, decodeLoop buf fuel { s with inotifyEventBuffer := q } = .outOfFuel
  | 0, _ => rfl
  | fuel + 1, q => by
      have hbody : decodeBody buf { s with inotifyEventBuffer := q } =
          some { s with inotifyEventBuffer := q ++ [stack] } := by
        simp only [decodeBody, hstack, Option.map_some, hlen, Int.natCast_zero, Int.add_zero,
          Int.sub_zero, hpos, hsize]
      rw [decodeLoop_turn (s := { s with inotifyEventBuffer := q }) hread hbody]
      exact decodeLoop_spins hread hstack hlen hpos hsize fuel (q ++ [stack])

/-- A header whose `len` is 2^32 - 16. -/
def endlessBuffer : ReadBuffer where
  bytes := List.replicate 12 0#8 ++ (wordBytes 0xfffffff0#32 ++ List.replicate 1008 0#8)
  size_eq := by decide +kernel

theorem decode_never_ends :
    (∀ fuel, decodeLoop endlessBuffer fuel ⟨16, 0, []⟩ = .outOfFuel) ∧
      ¬ ∀ (buf : ReadBuffer) (n : Nat) (q : List CustomizedInotifyEvent), 0 < n →
        n ≤ readBufferSize → EndsInRange buf n q := by
  have hspins : ∀ fuel, decodeLoop endlessBuffer fuel ⟨16, 0, []⟩ = .outOfFuel := by
    intro fuel
    have hstack : stackAt endlessBuffer 0 = some ⟨0, 0, 0, 0xfffffff0#32, some []⟩ := by
      decide +kernel
    exact decodeLoop_spins (s := ⟨16, 0, []⟩) (by decide) hstack (by decide) (by decide)
      (by decide) fuel []
  refine ⟨hspins, fun h => ?_⟩
  obtain ⟨q', hends⟩ := (h endlessBuffer 16 [] (by decide) (by decide)).ends
  exact absurd (hends.symm.trans (hspins _)) nofun

end InotifyRealtime
