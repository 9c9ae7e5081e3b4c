import BasedAI.Lib.Transition

/-!
# Calls that call out

While a contract waits for another one it has called, foreign code runs, and may call the
contract again. So a call that calls out is a stretch of steps, with further calls open
inside it; and whatever is open can revert, which restores the state that it found.

`code q s l q' s'` is what the contract does at a time: from the state `s` to `s'`, with
`q` what the call had still to do, or `none` where it is a new one, and `q'` what is left,
or `none` where it is over.

* `CallStep`   — one step of the machine with its stack of open calls;
* `Holds`      — what is true now, and of every state the open calls could fall back to;
* `Holds.run`  — what the contract's code keeps holds in every configuration;
* `Holds.run_onLabels` — the same, for what it keeps under labels that meet a condition;
* `Holds.run_labels` — what the code shows of its labels.
-/

namespace CallStack

open Transition

variable {S L P : Type}

/-- An open call: what it found, and what it has left to do. A call of foreign code has
nothing to do for the contract. -/
structure Frame (S P : Type) where
  found : S
  pending : Option P

/-- The state, and the open calls from the innermost on. -/
structure Config (S P : Type) where
  state : S
  frames : List (Frame S P)

inductive CallStep (code : Option P → S → L → Option P → S → Prop) :
    Config S P → Option L → Config S P → Prop
  -- a call that does not call out
  | plain {s s' : S} {l : L} {fs : List (Frame S P)} :
      code none s l none s' → CallStep code ⟨s, fs⟩ (some l) ⟨s', fs⟩
  | enter {s s' : S} {l : L} {p : P} {fs : List (Frame S P)} :
      code none s l (some p) s' → CallStep code ⟨s, fs⟩ (some l) ⟨s', ⟨s, some p⟩ :: fs⟩
  -- the innermost call goes on when what it has called returns
  | resume {s s' f : S} {l : L} {p p' : P} {fs : List (Frame S P)} :
      code (some p) s l (some p') s' →
      CallStep code ⟨s, ⟨f, some p⟩ :: fs⟩ (some l) ⟨s', ⟨f, some p'⟩ :: fs⟩
  | leave {s s' f : S} {l : L} {p : P} {fs : List (Frame S P)} :
      code (some p) s l none s' → CallStep code ⟨s, ⟨f, some p⟩ :: fs⟩ (some l) ⟨s', fs⟩
  | foreign {s : S} {fs : List (Frame S P)} :
      CallStep code ⟨s, fs⟩ none ⟨s, ⟨s, none⟩ :: fs⟩
  | returned {s f : S} {fs : List (Frame S P)} :
      CallStep code ⟨s, ⟨f, none⟩ :: fs⟩ none ⟨s, fs⟩
  | revert {s f : S} {q : Option P} {fs : List (Frame S P)} :
      CallStep code ⟨s, ⟨f, q⟩ :: fs⟩ none ⟨f, fs⟩

/-- What is left to do, from the innermost call on. -/
def pendings (fs : List (Frame S P)) : List P := fs.filterMap Frame.pending

@[simp] theorem pendings_nil : pendings ([] : List (Frame S P)) = [] := rfl

@[simp] theorem pendings_cons (f : S) (q : Option P) (fs : List (Frame S P)) :
    pendings (⟨f, q⟩ :: fs) = q.toList ++ pendings fs := by
  cases q <;> rfl

/-- `I` is true of the state and of what is left to do, and was when each open call began
of the state it found and of what the calls around it had left to do. -/
def Holds (I : List P → S → Prop) (s : S) : List (Frame S P) → Prop
  | [] => I [] s
  | f :: fs => I (pendings (f :: fs)) s ∧ Holds I f.found fs

/-- What the contract's code keeps, whatever the calls around it have left to do. -/
def KeptByCode (code : Option P → S → L → Option P → S → Prop) (I : List P → S → Prop) : Prop :=
  ∀ {q s l q' s'} (ps : List P), code q s l q' s' → I (q.toList ++ ps) s → I (q'.toList ++ ps) s'

variable {code : Option P → S → L → Option P → S → Prop} {I : List P → S → Prop} {s s' : S}
  {fs : List (Frame S P)} {c c' : Config S P} {l : Option L} {ls : List (Option L)}

theorem Holds.now (h : Holds I s fs) : I (pendings fs) s := by
  cases fs with
  | nil => exact h
  | cons f fs => exact h.1

/-- The state may change as long as `I` does not. -/
theorem Holds.moved (h : Holds I s fs) (hs' : I (pendings fs) s') : Holds I s' fs := by
  cases fs with
  | nil => exact hs'
  | cons f fs => exact ⟨hs', h.2⟩

theorem Holds.step (hkept : KeptByCode code I) (hstep : CallStep code c l c')
    (h : Holds I c.state c.frames) : Holds I c'.state c'.frames := by
  cases hstep with
  | plain hcode => exact h.moved (hkept _ hcode h.now)
  | @enter s s' l p fs hcode =>
    have hnow : I (pendings (⟨s, some p⟩ :: fs)) s' := by
      rw [pendings_cons]
      exact hkept _ hcode h.now
    exact ⟨hnow, h⟩
  | @resume s s' f l p p' fs hcode =>
    -- the pending part of the innermost frame is what the code works with
    obtain ⟨hnow, hfound⟩ := h
    rw [pendings_cons] at hnow
    have hnow' : I (pendings (⟨f, some p'⟩ :: fs)) s' := by
      rw [pendings_cons]
      exact hkept _ hcode hnow
    exact ⟨hnow', hfound⟩
  | leave hcode =>
    obtain ⟨hnow, hfound⟩ := h
    rw [pendings_cons] at hnow
    -- the frame is gone, and the state under it is the one the call left
    exact hfound.moved (hkept _ hcode hnow)
  | foreign => exact ⟨h.now, h⟩
  | returned => exact h.2.moved h.1
  | revert => exact h.2

/-- **The invariant rule.** What the code keeps is true in every configuration that can be
reached, whatever the foreign code does, and whatever reverts. -/
theorem Holds.run (hkept : KeptByCode code I) (hrun : Run (CallStep code) c ls c')
    (h : Holds I c.state c.frames) : Holds I c'.state c'.frames :=
  hrun.invariant (I := fun c => Holds I c.state c.frames) (Holds.step hkept) h

/-! ## Conditions on labels -/

/-- The code, for the labels that meet a condition. -/
def onLabels (good : L → Prop) (code : Option P → S → L → Option P → S → Prop) :
    Option P → S → L → Option P → S → Prop :=
  fun q s l q' s' => code q s l q' s' ∧ good l

variable {good : L → Prop}

theorem CallStep.onLabels (h : CallStep code c l c') (hgood : ∀ k, l = some k → good k) :
    CallStep (onLabels good code) c l c' := by
  cases h with
  | plain hcode => exact .plain ⟨hcode, hgood _ rfl⟩
  | enter hcode => exact .enter ⟨hcode, hgood _ rfl⟩
  | resume hcode => exact .resume ⟨hcode, hgood _ rfl⟩
  | leave hcode => exact .leave ⟨hcode, hgood _ rfl⟩
  | foreign => exact .foreign
  | returned => exact .returned
  | revert => exact .revert

/-- A step whose label meets a condition on it and on the state. -/
theorem CallStep.under {rule : S → L → Prop} (h : CallStep code c l c')
    (hrule : ∀ k, l = some k → rule c.state k) :
    CallStep (fun q s l q' s' => code q s l q' s' ∧ rule s l) c l c' := by
  cases h with
  | plain hcode => exact .plain ⟨hcode, hrule _ rfl⟩
  | enter hcode => exact .enter ⟨hcode, hrule _ rfl⟩
  | resume hcode => exact .resume ⟨hcode, hrule _ rfl⟩
  | leave hcode => exact .leave ⟨hcode, hrule _ rfl⟩
  | foreign => exact .foreign
  | returned => exact .returned
  | revert => exact .revert

/-- **The invariant rule under conditions**, where every label of the run meets them. -/
theorem Holds.run_onLabels (hkept : KeptByCode (CallStack.onLabels good code) I)
    (hrun : Run (CallStep code) c ls c') (hgood : ∀ l, some l ∈ ls → good l)
    (h : Holds I c.state c.frames) : Holds I c'.state c'.frames := by
  have hall : ∀ l ∈ ls, ∀ k, l = some k → good k := by
    rintro l hl k rfl
    exact hgood k hl
  have hlabels := hrun.restrict_labels hall
  exact Holds.run hkept (hlabels.mono fun hstep => hstep.1.onLabels hstep.2) h

/-- A run whose labels all meet a condition, as one of the code under it. -/
theorem run_underLabels (hrun : Run (CallStep code) c ls c') (hgood : ∀ k, some k ∈ ls → good k) :
    Run (CallStep (CallStack.onLabels good code)) c ls c' := by
  have hall : ∀ l ∈ ls, ∀ k, l = some k → good k := by
    rintro l hl k rfl
    exact hgood k hl
  exact (hrun.restrict_labels hall).mono fun hstep => hstep.1.onLabels hstep.2

/-! ## What labels show -/

/-- A label is of a piece of code that ran. -/
theorem CallStep.code_of_label {k : L} (h : CallStep code c (some k) c') :
    ∃ q q' ps, code q c.state k q' c'.state ∧ pendings c.frames = q.toList ++ ps := by
  cases h with
  | plain hcode => exact ⟨none, none, _, hcode, rfl⟩
  | enter hcode => exact ⟨none, _, _, hcode, rfl⟩
  | resume hcode => exact ⟨_, _, _, hcode, pendings_cons _ _ _⟩
  | leave hcode => exact ⟨_, none, _, hcode, pendings_cons _ _ _⟩

/-- **The rule for labels.** What the code shows of its label, where an invariant holds, is true
of every label of a run. -/
theorem Holds.run_labels {fact : L → Prop} (hkept : KeptByCode code I)
    (hfact : ∀ {q s k q' s'} (ps : List P), code q s k q' s' → I (q.toList ++ ps) s → fact k)
    (hrun : Run (CallStep code) c ls c') (h : Holds I c.state c.frames) :
    ∀ k, some k ∈ ls → fact k := by
  induction hrun with
  | nil => exact fun k hk => absurd hk List.not_mem_nil
  | cons hstep hrest ih =>
    intro k hk
    rcases List.mem_cons.mp hk with rfl | hk
    · obtain ⟨q, q', ps, hcode, hpending⟩ := hstep.code_of_label
      exact hfact ps hcode (hpending ▸ h.now)
    · exact ih (h.step hkept hstep) k hk

end CallStack
