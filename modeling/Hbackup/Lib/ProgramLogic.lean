import Mathlib.Data.List.Basic
import Mathlib.Tactic.Common

/-!
# Weakest preconditions for programs that may stop early

A program in `EStateM ε σ` either returns a value or stops with an `ε`; both keep the state
reached.  `wp m Q E s` says that running `m` from `s` ends in `Q` if it returns and in `E` if it
stops.  When every primitive step of `m` may stop (a kill, a failing call), `E` speaks of every
intermediate state of the run, so one triple covers both what a finished run achieves and what an
interrupted one leaves behind.

The rules are equivalences on the program's syntax (`wp_bind`, `wp_tryCatch`, …), consequence
(`wp_mono`), and an invariant rule for each list loop, indexed by the part already processed.
-/

namespace ProgramLogic

variable {ε σ α β γ : Type}

/-- `m`, run from `s`, returns in `Q` or stops in `E`. -/
def wp (m : EStateM ε σ α) (Q : α → σ → Prop) (E : ε → σ → Prop) (s : σ) : Prop :=
  match m s with
  | .ok a s' => Q a s'
  | .error e s' => E e s'

/-- The state in which `m`, run from `s`, returns or stops. -/
def stateAfter (m : EStateM ε σ α) (s : σ) : σ :=
  match m s with
  | .ok _ s' => s'
  | .error _ s' => s'

/-- What holds however `m` ends holds of the state that it leaves. -/
theorem wp_stateAfter (m : EStateM ε σ α) (P : σ → Prop) (s : σ) :
    wp m (fun _ => P) (fun _ => P) s ↔ P (stateAfter m s) := by
  unfold wp stateAfter
  cases m s <;> rfl

/-- What `m`, run from `s`, returns. -/
def value? (m : EStateM ε σ α) (s : σ) : Option α :=
  match m s with
  | .ok a _ => some a
  | .error _ _ => none

theorem ok_of_value? {m : EStateM ε σ α} {s : σ} {a : α} (h : value? m s = some a) :
    m s = .ok a (stateAfter m s) := by
  unfold value? at h
  unfold stateAfter
  cases hm : m s with
  | ok b s' =>
    rw [hm] at h
    rw [Option.some.inj h]
  | error e s' =>
    rw [hm] at h
    cases h

/-- What `m`, run from `s`, stops with. -/
def stop? (m : EStateM ε σ α) (s : σ) : Option ε :=
  match m s with
  | .ok _ _ => none
  | .error e _ => some e

theorem error_of_stop? {m : EStateM ε σ α} {s : σ} {e : ε} (h : stop? m s = some e) :
    m s = .error e (stateAfter m s) := by
  unfold stop? at h
  unfold stateAfter
  cases hm : m s with
  | ok a s' =>
    rw [hm] at h
    cases h
  | error e' s' =>
    rw [hm] at h
    rw [Option.some.inj h]

/-! ### Rules for the syntax -/

theorem wp_of_ok {m : EStateM ε σ α} {Q : α → σ → Prop} {E : ε → σ → Prop} {s s' : σ} {a : α}
    (hm : m s = .ok a s') (hQ : Q a s') : wp m Q E s := by
  rw [wp, hm]; exact hQ

/-- What a triple says about a run that returned. -/
theorem wp_elim_ok {m : EStateM ε σ α} {Q : α → σ → Prop} {E : ε → σ → Prop} {s s' : σ} {a : α}
    (h : wp m Q E s) (hm : m s = .ok a s') : Q a s' := by
  rw [wp, hm] at h; exact h

/-- What a triple says about a run that stopped. -/
theorem wp_elim_error {m : EStateM ε σ α} {Q : α → σ → Prop} {E : ε → σ → Prop} {s s' : σ} {e : ε}
    (h : wp m Q E s) (hm : m s = .error e s') : E e s' := by
  rw [wp, hm] at h; exact h

/-- What comes behind a computation that returns. -/
theorem bind_of_ok {m : EStateM ε σ α} {f : α → EStateM ε σ β} {s s' : σ} {a : α}
    (h : m s = .ok a s') : (m >>= f) s = f a s' := by
  change EStateM.bind m f s = _
  rw [EStateM.bind, h]

/-- What comes behind a computation matters only where that ends. -/
theorem bind_congr_of_wp {m : EStateM ε σ α} {f g : α → EStateM ε σ β} {s : σ}
    (h : wp m (fun a s' => f a s' = g a s') (fun _ _ => True) s) : (m >>= f) s = (m >>= g) s := by
  change EStateM.bind m f s = EStateM.bind m g s
  unfold wp at h
  unfold EStateM.bind
  cases hm : m s with
  | ok a s' =>
    rw [hm] at h
    exact h
  | error e s' => rfl

/-- A triple that excludes stopping gives the run. -/
theorem wp_returns {m : EStateM ε σ α} {Q : α → σ → Prop} {s : σ}
    (h : wp m Q (fun _ _ => False) s) : ∃ a s', m s = .ok a s' ∧ Q a s' := by
  cases hm : m s with
  | ok a s' => exact ⟨a, s', rfl, wp_elim_ok h hm⟩
  | error e s' => exact (wp_elim_error h hm).elim

/-- A triple that excludes returning gives the stop. -/
theorem wp_stops {m : EStateM ε σ α} {E : ε → σ → Prop} {s : σ}
    (h : wp m (fun _ _ => False) E s) : ∃ e s', m s = .error e s' ∧ E e s' := by
  cases hm : m s with
  | ok a s' => exact (wp_elim_ok h hm).elim
  | error e s' => exact ⟨e, s', rfl, wp_elim_error h hm⟩

@[simp] theorem wp_pure (a : α) (Q : α → σ → Prop) (E : ε → σ → Prop) (s : σ) :
    wp (pure a) Q E s ↔ Q a s := Iff.rfl

@[simp] theorem wp_bind (m : EStateM ε σ α) (f : α → EStateM ε σ β) (Q : β → σ → Prop)
    (E : ε → σ → Prop) (s : σ) :
    wp (m >>= f) Q E s ↔ wp m (fun a => wp (f a) Q E) E s := by
  change wp (EStateM.bind m f) Q E s ↔ _
  unfold wp EStateM.bind
  cases m s <;> rfl

@[simp] theorem wp_map (m : EStateM ε σ α) (f : α → β) (Q : β → σ → Prop) (E : ε → σ → Prop)
    (s : σ) : wp (f <$> m) Q E s ↔ wp m (fun a => Q (f a)) E s := by
  change wp (EStateM.map f m) Q E s ↔ _
  unfold wp EStateM.map
  cases m s <;> rfl

@[simp] theorem wp_get (Q : σ → σ → Prop) (E : ε → σ → Prop) (s : σ) :
    wp (get : EStateM ε σ σ) Q E s ↔ Q s s := Iff.rfl

@[simp] theorem wp_set (s' : σ) (Q : PUnit → σ → Prop) (E : ε → σ → Prop) (s : σ) :
    wp (set s' : EStateM ε σ PUnit) Q E s ↔ Q ⟨⟩ s' := Iff.rfl

@[simp] theorem wp_modify (f : σ → σ) (Q : PUnit → σ → Prop) (E : ε → σ → Prop) (s : σ) :
    wp (modify f : EStateM ε σ PUnit) Q E s ↔ Q ⟨⟩ (f s) := Iff.rfl

@[simp] theorem wp_throw (e : ε) (Q : α → σ → Prop) (E : ε → σ → Prop) (s : σ) :
    wp (throw e : EStateM ε σ α) Q E s ↔ E e s := Iff.rfl

@[simp] theorem wp_tryCatch (m : EStateM ε σ α) (h : ε → EStateM ε σ α) (Q : α → σ → Prop)
    (E : ε → σ → Prop) (s : σ) :
    wp (tryCatch m h) Q E s ↔ wp m Q (fun e => wp (h e) Q E) s := by
  change wp (EStateM.tryCatch m h) Q E s ↔ _
  unfold wp EStateM.tryCatch
  cases m s <;> rfl

@[simp] theorem wp_ite {c : Prop} [Decidable c] (m m' : EStateM ε σ α) (Q : α → σ → Prop)
    (E : ε → σ → Prop) (s : σ) :
    wp (if c then m else m') Q E s ↔ if c then wp m Q E s else wp m' Q E s := by
  split_ifs <;> rfl

/-- Consequence. -/
theorem wp_mono {m : EStateM ε σ α} {Q Q' : α → σ → Prop} {E E' : ε → σ → Prop} {s : σ}
    (h : wp m Q E s) (hQ : ∀ a s', Q a s' → Q' a s') (hE : ∀ e s', E e s' → E' e s') :
    wp m Q' E' s := by
  unfold wp at *
  cases hm : m s with
  | ok a s' => rw [hm] at h; exact hQ a s' h
  | error e s' => rw [hm] at h; exact hE e s' h

theorem wp_and {m : EStateM ε σ α} {Q Q' : α → σ → Prop} {E E' : ε → σ → Prop} {s : σ}
    (h : wp m Q E s) (h' : wp m Q' E' s) :
    wp m (fun a s' => Q a s' ∧ Q' a s') (fun e s' => E e s' ∧ E' e s') s := by
  unfold wp at *
  cases hm : m s with
  | ok a s' => rw [hm] at h h'; exact ⟨h, h'⟩
  | error e s' => rw [hm] at h h'; exact ⟨h, h'⟩

/-! ### Loops over lists -/

/-- Invariant rule for `foldlM`; the invariant sees the part of the list already processed. -/
theorem wp_foldlM {f : β → γ → EStateM ε σ β} {E : ε → σ → Prop} (I : List γ → β → σ → Prop)
    {l : List γ} (step : ∀ pre x post b s, l = pre ++ x :: post → I pre b s →
      wp (f b x) (I (pre ++ [x])) E s)
    {b : β} {s : σ} (h : I [] b s) : wp (l.foldlM f b) (I l) E s := by
  suffices H : ∀ post pre b s, l = pre ++ post → I pre b s → wp (post.foldlM f b) (I l) E s from
    H l [] b s rfl h
  intro post
  induction post with
  | nil =>
    intro pre b s hl hI
    rw [List.append_nil] at hl
    rw [List.foldlM_nil, wp_pure, hl]
    exact hI
  | cons x post ih =>
    intro pre b s hl hI
    rw [List.foldlM_cons, wp_bind]
    refine wp_mono (step pre x post b s hl hI) (fun b' s' hI' => ?_) (fun _ _ he => he)
    exact ih (pre ++ [x]) b' s' (by rw [hl, List.append_assoc]; rfl) hI'

/-- Invariant rule for `forM`. -/
theorem wp_forM {f : γ → EStateM ε σ PUnit} {E : ε → σ → Prop} (I : List γ → σ → Prop)
    {l : List γ} (step : ∀ pre x post s, l = pre ++ x :: post → I pre s →
      wp (f x) (fun _ => I (pre ++ [x])) E s)
    {s : σ} (h : I [] s) : wp (l.forM f) (fun _ => I l) E s := by
  suffices H : ∀ post pre s, l = pre ++ post → I pre s →
      wp (post.forM f) (fun _ => I l) E s from H l [] s rfl h
  intro post
  induction post with
  | nil =>
    intro pre s hl hI
    rw [List.append_nil] at hl
    rw [hl]
    exact hI
  | cons x post ih =>
    intro pre s hl hI
    change wp (f x >>= fun _ => post.forM f) _ E s
    rw [wp_bind]
    refine wp_mono (step pre x post s hl hI) (fun _ s' hI' => ?_) (fun _ _ he => he)
    exact ih (pre ++ [x]) s' (by rw [hl, List.append_assoc]; rfl) hI'

/-! ### Frames -/

/-- Wherever `m` returns or stops, the state is related by `R` to that in which it was started. -/
def Frames (R : σ → σ → Prop) (m : EStateM ε σ α) : Prop :=
  ∀ s, wp m (fun _ => R s) (fun _ => R s) s

namespace Frames

variable {R : σ → σ → Prop} {m m' : EStateM ε σ α}

theorem mono {R' : σ → σ → Prop} (h : Frames R m) (hR : ∀ s s', R s s' → R' s s') : Frames R' m :=
  fun s => wp_mono (h s) (fun _ s' => hR s s') fun _ s' => hR s s'

theorem modify {f : σ → σ} (hf : ∀ s, R s (f s)) : Frames R (modify f : EStateM ε σ PUnit) := hf

/-- Looking at the state. -/
theorem get_bind {f : σ → EStateM ε σ β} (hf : ∀ s, Frames R (f s)) : Frames R (get >>= f) :=
  fun s => hf s s

theorem ite {c : Prop} [Decidable c] (hm : Frames R m) (hm' : Frames R m') :
    Frames R (if c then m else m') := by
  split
  · exact hm
  · exact hm'

variable [Std.Refl R]

theorem pure (a : α) : Frames R (pure a : EStateM ε σ α) := fun s => Std.Refl.refl s

theorem throw (e : ε) : Frames R (throw e : EStateM ε σ α) := fun s => Std.Refl.refl s

variable [IsTrans σ R]

omit [Std.Refl R] in
theorem bind {f : α → EStateM ε σ β} (hm : Frames R m) (hf : ∀ a, Frames R (f a)) :
    Frames R (m >>= f) := by
  intro s
  rw [wp_bind]
  refine wp_mono (hm s) (fun a s₁ h₁ => ?_) fun _ _ h => h
  exact wp_mono (hf a s₁) (fun _ _ h₂ => IsTrans.trans _ _ _ h₁ h₂) fun _ _ h₂ => IsTrans.trans _ _ _ h₁ h₂

omit [Std.Refl R] in
theorem tryCatch {f : ε → EStateM ε σ α} (hm : Frames R m) (hf : ∀ e, Frames R (f e)) :
    Frames R (tryCatch m f) := by
  intro s
  rw [wp_tryCatch]
  refine wp_mono (hm s) (fun _ _ h => h) fun e s₁ h₁ => ?_
  exact wp_mono (hf e s₁) (fun _ _ h₂ => IsTrans.trans _ _ _ h₁ h₂) fun _ _ h₂ => IsTrans.trans _ _ _ h₁ h₂

theorem forM {f : γ → EStateM ε σ PUnit} (hf : ∀ x, Frames R (f x)) :
    ∀ l : List γ, Frames R (l.forM f)
  | [] => pure _
  | x :: l => bind (hf x) fun _ => forM hf l

theorem foldlM {f : β → γ → EStateM ε σ β} (hf : ∀ b x, Frames R (f b x)) :
    ∀ (l : List γ) (b : β), Frames R (l.foldlM f b)
  | [], _ => pure _
  | x :: l, b => bind (hf b x) fun b => foldlM hf l b

end Frames

/-! ### How a program may stop -/

/-- Wherever it starts, `m` stops with an `E` only. -/
def StopsIn (E : ε → Prop) (m : EStateM ε σ α) : Prop :=
  ∀ s, wp m (fun _ _ => True) (fun e _ => E e) s

namespace StopsIn

variable {E : ε → Prop} {m m' : EStateM ε σ α}

theorem pure (a : α) : StopsIn E (pure a : EStateM ε σ α) := fun _ => trivial

theorem throw {e : ε} (he : E e) : StopsIn E (throw e : EStateM ε σ α) := fun _ => he

theorem modify (f : σ → σ) : StopsIn E (modify f : EStateM ε σ PUnit) := fun _ => trivial

theorem bind {f : α → EStateM ε σ β} (hm : StopsIn E m) (hf : ∀ a, StopsIn E (f a)) :
    StopsIn E (m >>= f) := by
  intro s
  rw [wp_bind]
  exact wp_mono (hm s) (fun a s' _ => hf a s') fun _ _ h => h

/-- Looking at the state. -/
theorem get_bind {f : σ → EStateM ε σ β} (hf : ∀ s, StopsIn E (f s)) : StopsIn E (get >>= f) :=
  fun s => hf s s

theorem ite {c : Prop} [Decidable c] (hm : StopsIn E m) (hm' : StopsIn E m') :
    StopsIn E (if c then m else m') := by
  split
  · exact hm
  · exact hm'

theorem tryCatch {f : ε → EStateM ε σ α} (hm : StopsIn E m) (hf : ∀ e, E e → StopsIn E (f e)) :
    StopsIn E (tryCatch m f) := by
  intro s
  rw [wp_tryCatch]
  exact wp_mono (hm s) (fun _ _ h => h) fun e s' he => hf e he s'

theorem forM {f : γ → EStateM ε σ PUnit} (hf : ∀ x, StopsIn E (f x)) :
    ∀ l : List γ, StopsIn E (l.forM f)
  | [] => pure _
  | x :: l => bind (hf x) fun _ => forM hf l

end StopsIn

/-- Run from `s`, `m` stops with an `E`. -/
def MayStop (E : ε → Prop) (m : EStateM ε σ α) (s : σ) : Prop := ∃ e s', m s = .error e s' ∧ E e

section MayStop

variable {E : ε → Prop} {m : EStateM ε σ α} {f : α → EStateM ε σ β} {s : σ}

theorem StopsIn.not_mayStop (h : StopsIn (fun e => ¬ E e) m) (s : σ) : ¬ MayStop E m s := by
  rintro ⟨e, s', hm, he⟩
  exact wp_elim_error (h s) hm he

/-- A computation stops in its first part, or that returns and the rest stops. -/
theorem mayStop_bind : MayStop E (m >>= f) s ↔
    MayStop E m s ∨ ∃ a s', m s = .ok a s' ∧ MayStop E (f a) s' := by
  have hbind : (m >>= f) s = EStateM.bind m f s := rfl
  unfold MayStop
  rw [hbind, EStateM.bind]
  cases m s with
  | ok a s' => simp
  | error e s' => simp

/-- The first part does not stop so. -/
theorem StopsIn.mayStop_bind (h : StopsIn (fun e => ¬ E e) m) :
    MayStop E (m >>= f) s ↔ ∃ a s', m s = .ok a s' ∧ MayStop E (f a) s' := by
  rw [ProgramLogic.mayStop_bind]
  exact or_iff_right (h.not_mayStop s)

/-- What comes behind does not stop so. -/
theorem mayStop_bind_left (h : ∀ a, StopsIn (fun e => ¬ E e) (f a)) :
    MayStop E (m >>= f) s ↔ MayStop E m s := by
  rw [mayStop_bind]
  refine or_iff_left ?_
  rintro ⟨a, s', -, hstop⟩
  exact (h a).not_mayStop s' hstop

end MayStop

end ProgramLogic
