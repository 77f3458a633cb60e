import InotifyRealtime.Foundation.Machine
/-!
# Foundation.Monitor

Objects behind a mutex.

Each method of such an object locks the mutex first and unlocks it when it returns. Its
body takes several steps, between which other things go on: threads come and wait for
the mutex, and the rest of the program changes what the body has not locked. A body may
also have to wait.

A `Monitor` says what a call does step by step. What one wants to think is that it does
all of it at once, when it gets the mutex. `Serialises` is what has to be shown for that:
there is a state the object is about to have (`settle`), which the steps of a body do not
change, and to which everything else that happens does what it would do to the object at
rest. Then each run is a run of whole calls, in the order of the mutex
(`Serialises.run`).
-/

namespace Machine

variable {σ τ κ β ε : Type*}

/-- An object whose methods hold one mutex from their beginning to their end. -/
structure Monitor (σ τ κ β ε : Type*) where
  /-- Where the body of a call begins. -/
  enter : τ → κ → β
  /-- The next step of a body, and where the body goes on if it does; nothing while the
  body has to wait. -/
  body : τ → β → σ → Option (Option β × σ)
  /-- Whether a thread can call, by who is in a call already. -/
  mayCall : σ → (τ → Bool) → τ → Bool
  /-- What else happens. -/
  other : σ → (τ → Bool) → ε → Option σ

namespace Monitor

structure State (σ τ κ β : Type*) where
  shared : σ
  /-- Who holds the mutex, and where its call stands. -/
  holder : Option (τ × β)
  waiting : List (τ × κ)

inductive Action (τ κ ε : Type*)
  /-- A thread calls, and waits for the mutex. -/
  | call (t : τ) (k : κ)
  /-- A thread that waits gets the mutex. -/
  | acquire (t : τ) (k : κ)
  /-- The body takes a step. With its last it unlocks the mutex. -/
  | advance
  | other (e : ε)
  deriving DecidableEq

variable [DecidableEq τ] [DecidableEq κ]

/-- The thread is in a call. -/
def State.busy (s : State σ τ κ β) (t : τ) : Bool :=
  s.holder.any (fun x => x.1 = t) || s.waiting.any (fun x => x.1 = t)

variable (M : Monitor σ τ κ β ε)

def next (s : State σ τ κ β) : Action τ κ ε → Option (State σ τ κ β)
  | .call t k =>
      if M.mayCall s.shared s.busy t then some { s with waiting := s.waiting ++ [(t, k)] }
      else none
  | .acquire t k =>
      if s.holder.isNone ∧ (t, k) ∈ s.waiting then
        some { s with holder := some (t, M.enter t k), waiting := s.waiting.erase (t, k) }
      else none
  | .advance =>
      s.holder.bind fun (t, b) =>
        (M.body t b s.shared).map fun (b', shared) =>
          { s with shared, holder := b'.map fun b => (t, b) }
  | .other e => (M.other s.shared s.busy e).map fun shared => { s with shared }

def Step (s : State σ τ κ β) (a : Action τ κ ε) (s' : State σ τ κ β) : Prop :=
  M.next s a = some s'

/-- What can happen at once. -/
inductive Does : State σ τ κ β → Action τ κ ε → State σ τ κ β → Prop
  | call {s : State σ τ κ β} {t : τ} {k : κ} :
      M.mayCall s.shared s.busy t = true →
      Does s (.call t k) { s with waiting := s.waiting ++ [(t, k)] }
  | acquire {s : State σ τ κ β} {t : τ} {k : κ} :
      s.holder = none → (t, k) ∈ s.waiting →
      Does s (.acquire t k)
        { s with holder := some (t, M.enter t k), waiting := s.waiting.erase (t, k) }
  | advance {s : State σ τ κ β} {t : τ} {b : β} {b' : Option β} {shared : σ} :
      s.holder = some (t, b) → M.body t b s.shared = some (b', shared) →
      Does s .advance { s with shared, holder := b'.map fun b => (t, b) }
  | other {s : State σ τ κ β} {e : ε} {shared : σ} :
      M.other s.shared s.busy e = some shared → Does s (.other e) { s with shared }

variable {M}

theorem Step.does {s s' : State σ τ κ β} {a : Action τ κ ε} (h : M.Step s a s') :
    Does M s a s' := by
  cases a with
  | call t k =>
      obtain ⟨hmay, h⟩ := Option.ite_none_right_eq_some.mp h
      obtain rfl := Option.some.inj h
      exact .call hmay
  | acquire t k =>
      obtain ⟨⟨hfree, hwaits⟩, h⟩ := Option.ite_none_right_eq_some.mp h
      obtain rfl := Option.some.inj h
      exact .acquire (Option.isNone_iff_eq_none.mp hfree) hwaits
  | advance =>
      obtain ⟨⟨t, b⟩, hholder, h⟩ := Option.bind_eq_some_iff.mp h
      obtain ⟨⟨b', shared⟩, hbody, rfl⟩ := Option.map_eq_some_iff.mp h
      exact .advance hholder hbody
  | other e =>
      obtain ⟨shared, hother, rfl⟩ := Option.map_eq_some_iff.mp h
      exact .other hother

theorem step_advance {s : State σ τ κ β} {t : τ} {b : β} {b' : Option β} {shared : σ}
    (hholder : s.holder = some (t, b)) (hbody : M.body t b s.shared = some (b', shared)) :
    M.Step s .advance { s with shared, holder := b'.map fun b => (t, b) } := by
  simp only [Step, next, hholder, Option.bind_some, hbody, Option.map_some]

theorem step_other {s : State σ τ κ β} {e : ε} {shared : σ}
    (h : M.other s.shared s.busy e = some shared) :
    M.Step s (.other e) { s with shared } := by
  simp only [Step, next, h, Option.map_some]

/-! ### One call at a time -/

variable {ω γ : Type*}

/-- What makes a run of the monitor a run of whole calls. -/
structure Serialises (M : Monitor σ τ κ β ε) (I : State σ τ κ β → Prop)
    (step : ω → γ → ω → Prop) (settle : Option (τ × β) → σ → ω)
    (callLabel : τ → κ → γ) (otherLabel : Option (τ × β) → σ → ε → Option γ) : Prop where
  keep : ∀ s a s', I s → M.Step s a s' → I s'
  /-- The call does all it does at once. -/
  calls : ∀ s t k, I s → s.holder = none → (t, k) ∈ s.waiting →
    step (settle none s.shared) (callLabel t k) (settle (some (t, M.enter t k)) s.shared)
  /-- Its steps only come closer to that. -/
  body : ∀ t b s b' s', M.body t b s = some (b', s') →
    settle (b'.map fun b => (t, b)) s' = settle (some (t, b)) s
  /-- What else happens is seen then as well. -/
  seen : ∀ s e shared l, I s → M.other s.shared s.busy e = some shared →
    otherLabel s.holder s.shared e = some l →
    step (settle s.holder s.shared) l (settle s.holder shared)
  hidden : ∀ s e shared, I s → M.other s.shared s.busy e = some shared →
    otherLabel s.holder s.shared e = none → settle s.holder shared = settle s.holder s.shared

/-- What is seen of an action. -/
def label (callLabel : τ → κ → γ) (otherLabel : Option (τ × β) → σ → ε → Option γ)
    (s : State σ τ κ β) : Action τ κ ε → Option γ
  | .acquire t k => some (callLabel t k)
  | .other e => otherLabel s.holder s.shared e
  | .call _ _ | .advance => none

/-- **Calls are serialised.** A run of the monitor is a run of whole calls, in the order in
which they got the mutex. -/
theorem Serialises.run {I : State σ τ κ β → Prop} {step : ω → γ → ω → Prop}
    {settle : Option (τ × β) → σ → ω} {callLabel : τ → κ → γ}
    {otherLabel : Option (τ × β) → σ → ε → Option γ}
    (h : Serialises M I step settle callLabel otherLabel) {s u : State σ τ κ β}
    {hist : List (State σ τ κ β × Action τ κ ε)} (r : Run M.Step s hist u) (hI : I s) :
    ∃ hist', Run step (settle s.holder s.shared) hist' (settle u.holder u.shared) ∧
      hist'.map Prod.snd = hist.filterMap fun x => label callLabel otherLabel x.1 x.2 := by
  refine ⟨_, r.maps (f := fun s => settle s.holder s.shared) (l := label callLabel otherLabel)
    h.keep (fun s a t b hs hstep hlabel => ?_) (fun s a t hs hstep hlabel => ?_) hI, ?_⟩
  · cases hstep.does with
    | call _ | advance _ _ => exact absurd hlabel.symm (Option.some_ne_none b)
    | acquire hfree hwaits =>
        obtain rfl := Option.some.inj hlabel
        rw [hfree]
        exact h.calls s _ _ hs hfree hwaits
    | other hother => exact h.seen s _ _ b hs hother hlabel
  · cases hstep.does with
    | call _ => rfl
    | acquire _ _ => exact absurd hlabel (Option.some_ne_none _)
    | @advance t b b' shared hholder hbody =>
        rw [hholder]
        exact h.body t b s.shared b' shared hbody
    | other hother => exact h.hidden s _ _ hs hother hlabel
  · simp only [List.map_filterMap, Option.map_map, Function.comp_def, Option.map_id']

end Monitor

end Machine
