import Mathlib.Logic.Function.Basic
import Mathlib.Logic.Relation
import Hbackup.Lib.ProgramLogic

/-!
# Programs that run at the same time

A program is the calls that it makes, each with what it does next for every answer.  It can be run
by itself, by a handler of its calls (`interp`), or in a pool, where the calls of all programs take
their turns in any order on one shared state, and any program may be stopped between two calls.

What a pool does is proved one program at a time: `Safe` says that a program keeps the invariant and
its guarantee, as long as the others do nothing but what it relies on.  If the guarantees of the
others are what each relies on, all of this holds in every state that the pool reaches
(`Pool.AllSafe.steps`).
-/

namespace Concurrent

open ProgramLogic

/-- A program that makes `Call`s, which are answered or fail. -/
inductive Prog (Call : Type) (Res : Call → Type) (ε α : Type)
  | ret (a : α)
  | throw (e : ε)
  | call (c : Call) (k : Except ε (Res c) → Prog Call Res ε α)

variable {Call : Type} {Res : Call → Type} {ε α β γ σ ι : Type}

namespace Prog

/-- One program behind the other. -/
def bind : Prog Call Res ε α → (α → Prog Call Res ε β) → Prog Call Res ε β
  | ret a, f => f a
  | throw e, _ => throw e
  | call c k, f => call c fun r => (k r).bind f

/-- What is thrown is handled. -/
def handle : Prog Call Res ε α → (ε → Prog Call Res ε α) → Prog Call Res ε α
  | ret a, _ => ret a
  | throw e, h => h e
  | call c k, h => call c fun r => (k r).handle h

instance : Monad (Prog Call Res ε) where
  pure := ret
  bind := bind

/-- A call whose failure is thrown. -/
def perform (c : Call) : Prog Call Res ε (Res c) :=
  call c fun
    | .ok a => ret a
    | .error e => throw e

/-! ### Running by itself -/

/-- The program is run, and its calls are handled; it does not get to know of what kills it. -/
def interp (fatal : ε → Prop) [DecidablePred fatal] (handler : ∀ c, EStateM ε σ (Res c)) :
    Prog Call Res ε α → EStateM ε σ α
  | ret a => Pure.pure a
  | throw e => MonadExcept.throw e
  | call c k => fun s =>
    match handler c s with
    | .ok a s' => (k (.ok a)).interp fatal handler s'
    | .error e s' => if fatal e then .error e s' else (k (.error e)).interp fatal handler s'

section interp

variable (fatal : ε → Prop) [DecidablePred fatal] (handler : ∀ c, EStateM ε σ (Res c))

theorem interp_call (c : Call) (k : Except ε (Res c) → Prog Call Res ε α) (s : σ) :
    interp fatal handler (call c k) s = match handler c s with
      | .ok a s' => interp fatal handler (k (.ok a)) s'
      | .error e s' => if fatal e then .error e s' else interp fatal handler (k (.error e)) s' := by
  rw [interp]

theorem wp_interp_call (c : Call) (k : Except ε (Res c) → Prog Call Res ε α) (Q : α → σ → Prop)
    (E : ε → σ → Prop) (s : σ) : wp (interp fatal handler (call c k)) Q E s ↔
      wp (handler c) (fun a s' => wp (interp fatal handler (k (.ok a))) Q E s')
        (fun e s' => if fatal e then E e s' else wp (interp fatal handler (k (.error e))) Q E s')
        s := by
  unfold wp
  rw [interp_call]
  cases handler c s with
  | ok a s' => rfl
  | error e s' => by_cases hf : fatal e <;> simp only [hf, if_true, if_false]

@[simp] theorem interp_pure (a : α) : interp fatal handler (pure a) = pure a := rfl

@[simp] theorem interp_throw (e : ε) :
    interp fatal handler (throw e : Prog Call Res ε α) = MonadExcept.throw e := rfl

@[simp] theorem interp_bind (p : Prog Call Res ε α) (f : α → Prog Call Res ε β) :
    interp fatal handler (p >>= f) =
      interp fatal handler p >>= fun a => interp fatal handler (f a) := by
  change interp fatal handler (p.bind f) = _
  induction p with
  | ret a => rfl
  | throw e => rfl
  | call c k ih =>
    funext s
    change interp fatal handler (call c fun r => (k r).bind f) s =
      EStateM.bind (interp fatal handler (call c k)) _ s
    unfold EStateM.bind
    rw [interp_call, interp_call]
    cases handler c s with
    | ok a s' => exact congrFun (ih (.ok a)) s'
    | error e s' =>
      dsimp only
      split
      · rfl
      · exact congrFun (ih (.error e)) s'

/-- Handling is handling, if what kills the program is thrown again. -/
theorem interp_handle (p : Prog Call Res ε α) {h : ε → Prog Call Res ε α}
    (hfatal : ∀ e, fatal e → h e = throw e) : interp fatal handler (p.handle h) =
      tryCatch (interp fatal handler p) fun e => interp fatal handler (h e) := by
  induction p with
  | ret a => rfl
  | throw e => rfl
  | call c k ih =>
    funext s
    change interp fatal handler (call c fun r => (k r).handle h) s =
      EStateM.tryCatch (interp fatal handler (call c k)) _ s
    unfold EStateM.tryCatch
    rw [interp_call, interp_call]
    cases handler c s with
    | ok a s' => exact congrFun (ih (.ok a)) s'
    | error e s' =>
      dsimp only
      split
      · rename_i hf
        change _ = interp fatal handler (h e) s'
        rw [hfatal e hf]
        rfl
      · exact congrFun (ih (.error e)) s'

@[simp] theorem interp_perform (c : Call) : interp fatal handler (perform c) = handler c := by
  funext s
  rw [perform, interp_call]
  cases handler c s with
  | ok a s' => rfl
  | error e s' => exact ite_self _

@[simp] theorem interp_ite {c : Prop} [Decidable c] (p p' : Prog Call Res ε α) :
    interp fatal handler (if c then p else p') =
      if c then interp fatal handler p else interp fatal handler p' := by
  split <;> rfl

theorem interp_forM {f : γ → Prog Call Res ε PUnit} {g : γ → EStateM ε σ PUnit}
    (h : ∀ x, interp fatal handler (f x) = g x) (l : List γ) :
    interp fatal handler (l.forM f) = l.forM g := by
  induction l with
  | nil => rfl
  | cons x l ih =>
    change interp fatal handler (f x >>= fun _ => l.forM f) = g x >>= fun _ => l.forM g
    simp only [interp_bind, h, ih]

theorem interp_foldlM {f : β → γ → Prog Call Res ε β} {g : β → γ → EStateM ε σ β}
    (h : ∀ b x, interp fatal handler (f b x) = g b x) (l : List γ) (b : β) :
    interp fatal handler (l.foldlM f b) = l.foldlM g b := by
  induction l generalizing b with
  | nil => rfl
  | cons x l ih => simp only [List.foldlM_cons, interp_bind, h, ih]

end interp

end Prog

/-! ### One program among others -/

/-- What calls do to the state, with every answer that they may give. -/
abbrev Exec (Call : Type) (Res : Call → Type) (ε σ : Type) :=
  (c : Call) → σ → Except ε (Res c) → σ → Prop

/-- The others do `R` between the calls; then every call keeps the invariant `I` and does `G`, and the
program returns in `Q` or throws in `E`. -/
def Safe (exec : Exec Call Res ε σ) (I : σ → Prop) (R G : σ → σ → Prop) :
    Prog Call Res ε α → (α → σ → Prop) → (ε → σ → Prop) → σ → Prop
  | .ret a, Q, _, s => ∀ s', R s s' → Q a s'
  | .throw e, _, E, s => ∀ s', R s s' → E e s'
  | .call c k, Q, E, s => ∀ s₁, R s s₁ → I s₁ → ∀ r s₂, exec c s₁ r s₂ →
      I s₂ ∧ G s₁ s₂ ∧ Safe exec I R G (k r) Q E s₂

/-- What the others do does not matter to `A`. -/
def Stable (R : σ → σ → Prop) (A : σ → Prop) : Prop := ∀ s s', R s s' → A s → A s'

theorem Stable.true (R : σ → σ → Prop) : Stable R fun _ => True := fun _ _ _ _ => trivial

theorem Stable.and {R : σ → σ → Prop} {A B : σ → Prop} (hA : Stable R A) (hB : Stable R B) :
    Stable R fun s => A s ∧ B s := fun s s' hs h => ⟨hA s s' hs h.1, hB s s' hs h.2⟩

namespace Safe

variable {exec : Exec Call Res ε σ} {I : σ → Prop} {R G : σ → σ → Prop} {s s' : σ}
  {p : Prog Call Res ε α} {Q Q' : α → σ → Prop} {E E' : ε → σ → Prop}

/-- The others may come first. -/
theorem later [IsTrans σ R] (h : Safe exec I R G p Q E s) (hR : R s s') :
    Safe exec I R G p Q E s' := by
  cases p with
  | ret a => exact fun s'' hs'' => h s'' (IsTrans.trans _ _ _ hR hs'')
  | throw e => exact fun s'' hs'' => h s'' (IsTrans.trans _ _ _ hR hs'')
  | call c k => exact fun s₁ hs₁ => h s₁ (IsTrans.trans _ _ _ hR hs₁)

/-- Consequence. -/
theorem mono (h : Safe exec I R G p Q E s) (hQ : ∀ a s', Q a s' → Q' a s')
    (hE : ∀ e s', E e s' → E' e s') : Safe exec I R G p Q' E' s := by
  induction p generalizing s with
  | ret a => exact fun s' hs' => hQ a s' (h s' hs')
  | throw e => exact fun s' hs' => hE e s' (h s' hs')
  | call c k ih =>
    intro s₁ hs₁ hI r s₂ hexec
    obtain ⟨hI₂, hG, hk⟩ := h s₁ hs₁ hI r s₂ hexec
    exact ⟨hI₂, hG, ih r hk⟩

theorem pure {a : α} (hQ : Stable R (Q a)) (h : Q a s) : Safe exec I R G (pure a) Q E s :=
  fun s' hs' => hQ s s' hs' h

theorem throw {e : ε} (hE : Stable R (E e)) (h : E e s) : Safe exec I R G (.throw e) Q E s :=
  fun s' hs' => hE s s' hs' h

/-- One call, from where `A` holds. -/
theorem perform {c : Call} {A : σ → Prop} {Q : Res c → σ → Prop} (hA : Stable R A)
    (hQ : ∀ a, Stable R (Q a)) (hE : ∀ e, Stable R (E e))
    (h : ∀ s₁, A s₁ → I s₁ → ∀ r s₂, exec c s₁ r s₂ → I s₂ ∧ G s₁ s₂ ∧
      match r with
      | .ok a => Q a s₂
      | .error e => E e s₂) (hs : A s) : Safe exec I R G (.perform c) Q E s := by
  intro s₁ hs₁ hI r s₂ hexec
  obtain ⟨hI₂, hG, hpost⟩ := h s₁ (hA s s₁ hs₁ hs) hI r s₂ hexec
  refine ⟨hI₂, hG, ?_⟩
  cases r with
  | ok a => exact fun s' hs' => hQ a s₂ s' hs' hpost
  | error e => exact fun s' hs' => hE e s₂ s' hs' hpost

/-- What neither the others nor the program itself change. -/
theorem frame {A : σ → Prop} (hR : Stable R A) (hG : Stable G A) (h : Safe exec I R G p Q E s)
    (hA : A s) : Safe exec I R G p (fun a s => Q a s ∧ A s) E s := by
  induction p generalizing s with
  | ret a => exact fun s' hs' => ⟨h s' hs', hR s s' hs' hA⟩
  | throw e => exact h
  | call c k ih =>
    intro s₁ hs₁ hI r s₂ hexec
    obtain ⟨hI₂, hG₂, hk⟩ := h s₁ hs₁ hI r s₂ hexec
    exact ⟨hI₂, hG₂, ih r hk (hG s₁ s₂ hG₂ (hR s s₁ hs₁ hA))⟩

theorem ite {c : Prop} [Decidable c] {p' : Prog Call Res ε α} (h : c → Safe exec I R G p Q E s)
    (h' : ¬c → Safe exec I R G p' Q E s) : Safe exec I R G (if c then p else p') Q E s := by
  split
  · exact h ‹_›
  · exact h' ‹_›

variable [Std.Refl R]

theorem bind {f : α → Prog Call Res ε β} {Q : β → σ → Prop}
    (h : Safe exec I R G p (fun a => Safe exec I R G (f a) Q E) E s) :
    Safe exec I R G (p >>= f) Q E s := by
  change Safe exec I R G (p.bind f) Q E s
  induction p generalizing s with
  | ret a => exact h s (Std.Refl.refl s)
  | throw e => exact h
  | call c k ih =>
    intro s₁ hs₁ hI r s₂ hexec
    obtain ⟨hI₂, hG, hk⟩ := h s₁ hs₁ hI r s₂ hexec
    exact ⟨hI₂, hG, ih r hk⟩

theorem handle {h : ε → Prog Call Res ε α}
    (hp : Safe exec I R G p Q (fun e => Safe exec I R G (h e) Q E) s) :
    Safe exec I R G (p.handle h) Q E s := by
  induction p generalizing s with
  | ret a => exact hp
  | throw e => exact hp s (Std.Refl.refl s)
  | call c k ih =>
    intro s₁ hs₁ hI r s₂ hexec
    obtain ⟨hI₂, hG, hk⟩ := hp s₁ hs₁ hI r s₂ hexec
    exact ⟨hI₂, hG, ih r hk⟩

/-- Invariant rule for `forM`; the invariant sees the part of the list already processed. -/
theorem forM {f : γ → Prog Call Res ε PUnit} {l : List γ} (J : List γ → σ → Prop)
    (stable : ∀ pre, Stable R (J pre))
    (step : ∀ pre x post s, l = pre ++ x :: post → J pre s →
      Safe exec I R G (f x) (fun _ => J (pre ++ [x])) E s) (h : J [] s) :
    Safe exec I R G (l.forM f) (fun _ => J l) E s := by
  suffices H : ∀ post pre s, l = pre ++ post → J pre s →
      Safe exec I R G (post.forM f) (fun _ => J l) E s from H l [] s rfl h
  intro post
  induction post with
  | nil =>
    intro pre s hl hJ s' hs'
    rw [List.append_nil] at hl
    rw [hl]
    exact stable pre s s' hs' hJ
  | cons x post ih =>
    intro pre s hl hJ
    change Safe exec I R G (f x >>= fun _ => post.forM f) _ E s
    refine bind ((step pre x post s hl hJ).mono (fun _ s' hJ' => ?_) fun _ _ he => he)
    exact ih (pre ++ [x]) s' (by rw [hl, List.append_assoc]; rfl) hJ'

/-- Invariant rule for `foldlM`. -/
theorem foldlM {f : β → γ → Prog Call Res ε β} {l : List γ} (J : List γ → β → σ → Prop)
    (stable : ∀ pre b, Stable R (J pre b))
    (step : ∀ pre x post b s, l = pre ++ x :: post → J pre b s →
      Safe exec I R G (f b x) (J (pre ++ [x])) E s) {b : β} (h : J [] b s) :
    Safe exec I R G (l.foldlM f b) (J l) E s := by
  suffices H : ∀ post pre b s, l = pre ++ post → J pre b s →
      Safe exec I R G (post.foldlM f b) (J l) E s from H l [] b s rfl h
  intro post
  induction post with
  | nil =>
    intro pre b s hl hJ s' hs'
    rw [List.append_nil] at hl
    rw [hl]
    exact stable pre b s s' hs' hJ
  | cons x post ih =>
    intro pre b s hl hJ
    rw [List.foldlM_cons]
    refine bind ((step pre x post b s hl hJ).mono (fun b' s' hJ' => ?_) fun _ _ he => he)
    exact ih (pre ++ [x]) b' s' (by rw [hl, List.append_assoc]; rfl) hJ'

end Safe

/-! ### All of them -/

/-- Programs that share a state; those that have been stopped are gone. -/
structure Pool (ι Call : Type) (Res : Call → Type) (ε α σ : Type) where
  shared : σ
  procs : ι → Option (Prog Call Res ε α)

namespace Pool

section Step

variable [DecidableEq ι]

/-- A call is made, or a program that has not returned is stopped; `die` is what happens to the state
then. -/
inductive Step (exec : ι → Exec Call Res ε σ) (die : ι → σ → σ) (P : Pool ι Call Res ε α σ) :
    Pool ι Call Res ε α σ → Prop
  | call {i : ι} {c : Call} {k : Except ε (Res c) → Prog Call Res ε α} {r : Except ε (Res c)} {s : σ}
      (hproc : P.procs i = some (.call c k)) (hexec : exec i c P.shared r s) :
      Step exec die P ⟨s, Function.update P.procs i (some (k r))⟩
  | stop {i : ι} {p : Prog Call Res ε α} (hproc : P.procs i = some p) (hrunning : ∀ a, p ≠ .ret a) :
      Step exec die P ⟨die i P.shared, Function.update P.procs i none⟩

/-- Any number of steps. -/
abbrev Steps (exec : ι → Exec Call Res ε σ) (die : ι → σ → σ) :
    Pool ι Call Res ε α σ → Pool ι Call Res ε α σ → Prop :=
  Relation.ReflTransGen (Step exec die)

end Step

/-- The invariant holds, and every program is safe from here. -/
structure AllSafe (exec : ι → Exec Call Res ε σ) (I : σ → Prop) (R G : ι → σ → σ → Prop)
    (Q : ι → α → σ → Prop) (E : ι → ε → σ → Prop) (P : Pool ι Call Res ε α σ) : Prop where
  invariant : I P.shared
  safe : ∀ i p, P.procs i = some p → Safe (exec i) I (R i) (G i) p (Q i) (E i) P.shared

variable {exec : ι → Exec Call Res ε σ} {die : ι → σ → σ} {I : σ → Prop} {R G : ι → σ → σ → Prop}
  {Q : ι → α → σ → Prop} {E : ι → ε → σ → Prop} {P P' : Pool ι Call Res ε α σ}

/-- What holds of a program that has returned. -/
theorem AllSafe.returned [∀ i, Std.Refl (R i)] (hP : AllSafe exec I R G Q E P) {i : ι} {a : α}
    (hproc : P.procs i = some (.ret a)) : Q i a P.shared :=
  hP.safe i _ hproc P.shared (Std.Refl.refl _)

section AllSafe

variable [DecidableEq ι] [∀ i, Std.Refl (R i)] [∀ i, IsTrans σ (R i)]
  (hothers : ∀ i j s s', i ≠ j → G i s s' → R j s s')
  (hdie : ∀ i s, I s → I (die i s) ∧ G i s (die i s))

include hothers hdie

/-- **A step keeps all programs safe.** -/
theorem AllSafe.step (hP : AllSafe exec I R G Q E P) (h : Step exec die P P') :
    AllSafe exec I R G Q E P' := by
  cases h with
  | @call i c k r s hproc hexec =>
    obtain ⟨hI, hG, hk⟩ := hP.safe i _ hproc P.shared (Std.Refl.refl _) hP.invariant r s hexec
    refine ⟨hI, fun j p hj => ?_⟩
    by_cases hij : j = i
    · subst hij
      simp only [Function.update_self, Option.some.injEq] at hj
      exact hj ▸ hk
    · simp only [Function.update_of_ne hij] at hj
      exact (hP.safe j p hj).later (hothers i j _ _ (Ne.symm hij) hG)
  | @stop i p hproc hrunning =>
    obtain ⟨hI, hG⟩ := hdie i P.shared hP.invariant
    refine ⟨hI, fun j p hj => ?_⟩
    by_cases hij : j = i
    · subst hij
      simp at hj
    · simp only [Function.update_of_ne hij] at hj
      exact (hP.safe j p hj).later (hothers i j _ _ (Ne.symm hij) hG)

/-- **The rule for a pool**: what is safe at first is safe in every state that is reached. -/
theorem AllSafe.steps (hP : AllSafe exec I R G Q E P) (h : Steps exec die P P') :
    AllSafe exec I R G Q E P' := by
  induction h with
  | refl => exact hP
  | tail _ hstep ih => exact ih.step hothers hdie hstep

end AllSafe

end Pool

/-! ### One of them by itself -/

/-- A program makes some calls, and nothing else happens. -/
inductive Runs (exec : Exec Call Res ε σ) :
    Prog Call Res ε α → σ → Prog Call Res ε α → σ → Prop
  | refl (p : Prog Call Res ε α) (s : σ) : Runs exec p s p s
  | call {c : Call} {k : Except ε (Res c) → Prog Call Res ε α} {r : Except ε (Res c)}
      {p' : Prog Call Res ε α} {s s₁ s' : σ} (hexec : exec c s r s₁)
      (hrest : Runs exec (k r) s₁ p' s') : Runs exec (.call c k) s p' s'

/-- What a program does by itself it can do in a pool. -/
theorem Runs.steps [DecidableEq ι] (exec : ι → Exec Call Res ε σ) (die : ι → σ → σ) {i : ι}
    {p p' : Prog Call Res ε α} {s s' : σ} (h : Runs (exec i) p s p' s')
    {procs : ι → Option (Prog Call Res ε α)} (hproc : procs i = some p) :
    Pool.Steps exec die ⟨s, procs⟩ ⟨s', Function.update procs i (some p')⟩ := by
  induction h generalizing procs with
  | refl p s =>
    rw [← hproc, Function.update_eq_self]
  | call hexec _ ih =>
    have hrest := ih (Function.update_self i (some _) procs)
    rw [Function.update_idem] at hrest
    exact .head (.call hproc hexec) hrest

theorem Runs.bind {exec : Exec Call Res ε σ} {p p' : Prog Call Res ε α} {s s' : σ}
    (h : Runs exec p s p' s') (f : α → Prog Call Res ε β) :
    Runs exec (p >>= f) s (p' >>= f) s' := by
  induction h with
  | refl p s => exact .refl _ _
  | call hexec _ ih => exact .call hexec ih

theorem Runs.trans {exec : Exec Call Res ε σ} {p p' p'' : Prog Call Res ε α} {s s' s'' : σ}
    (h : Runs exec p s p' s') (h' : Runs exec p' s' p'' s'') : Runs exec p s p'' s'' := by
  induction h with
  | refl => exact h'
  | call hexec _ ih => exact .call hexec (ih h')

variable {ω π : Type}

/-- Calls that may be made in some order only: which are allowed depends on a phase, and those that
don't fail may change it, and answer as `answers` says. -/
def inOrder (next : Call → π → Option π) (answers : ∀ c, Res c → Prop) :
    Exec Call Res ε (Option π) := fun c x r x' =>
  (x' = x.bind fun y =>
    match r with
    | .ok _ => next c y
    | .error _ => (next c y).map fun _ => y) ∧
  ∀ a, r = .ok a → x'.isSome = true → answers c a

/-- The program makes no call that is not allowed, and ends in a phase in `Q`. -/
abbrev Orderly (next : Call → π → Option π) (answers : ∀ c, Res c → Prop) (p : Prog Call Res ε α)
    (Q : α → Option π → Prop) (E : ε → Option π → Prop) (x : Option π) : Prop :=
  Safe (inOrder next answers) (fun x => x.isSome = true) Eq (fun _ _ => True) p Q E x

theorem stable_eq (A : σ → Prop) : Stable Eq A := fun _ _ hs hA => hs ▸ hA

/-- A call that is allowed. -/
theorem Orderly.perform {next : Call → π → Option π} {answers : ∀ c, Res c → Prop} {c : Call} {x y : π}
    {Q : Res c → Option π → Prop} {E : ε → Option π → Prop} (hnext : next c x = some y)
    (hQ : ∀ a, answers c a → Q a (some y)) (hE : ∀ e, E e (some x)) :
    Orderly next answers (.perform c) Q E (some x) := by
  refine Safe.perform (A := (· = some x)) (stable_eq _) (fun _ => stable_eq _) (fun _ => stable_eq _)
    ?_ rfl
  rintro x₁ rfl - r x₂ ⟨rfl, hanswer⟩
  cases r with
  | ok a =>
    have hsome : (some x).bind (next c) = some y := hnext
    refine ⟨by simp [hnext], trivial, ?_⟩
    change Q a ((some x).bind (next c))
    rw [hsome]
    exact hQ a (hanswer a rfl (by simp [hnext]))
  | error e => simpa [hnext] using hE e

/-- **What a handler does is done in the pool**: if each of its calls does what one of the pool may do,
as far as `Rel` sees, all of a program does that makes its calls in order. -/
theorem wp_interp {exec : Exec Call Res ε σ} {fatal : ε → Prop} [DecidablePred fatal]
    {handler : ∀ c, EStateM ε ω (Res c)} {next : Call → π → Option π} {answers : ∀ c, Res c → Prop}
    {Rel : π → σ → ω → Prop}
    (hcall : ∀ c x x' s w, next c x = some x' → Rel x s w →
      wp (handler c) (fun a w' => answers c a ∧ ∃ s', exec c s (.ok a) s' ∧ Rel x' s' w')
        (fun e w' => if fatal e then Rel x s w' else ∃ s', exec c s (.error e) s' ∧ Rel x s' w') w)
    {p : Prog Call Res ε α} {Q : α → Option π → Prop} {E : ε → Option π → Prop} {x : π} {s : σ} {w : ω}
    (hp : Orderly next answers p Q E (some x)) (hrel : Rel x s w) :
    wp (p.interp fatal handler)
      (fun a w' => ∃ x' s', Runs exec p s (.ret a) s' ∧ Rel x' s' w' ∧ Q a (some x'))
      (fun e w' => ∃ p' x' s', Runs exec p s p' s' ∧ Rel x' s' w' ∧
        ((∀ a, p' ≠ .ret a) ∧ (p' = .throw e ∨ fatal e))) w := by
  induction p generalizing x s w with
  | ret a => exact ⟨x, s, .refl _ _, hrel, hp _ rfl⟩
  | throw e => exact ⟨_, x, s, .refl _ _, hrel, by simp, .inl rfl⟩
  | call c k ih =>
    cases hnext : next c x with
    | none =>
      -- the call is not allowed, whatever is answered
      have hnot : ∀ r : Except ε (Res c), False := by
        intro r
        have hstep : inOrder next answers c (some x) r none := by
          refine ⟨?_, fun _ _ hsome => by cases hsome⟩
          cases r <;> simp [hnext]
        obtain ⟨hsome, -⟩ := hp (some x) rfl rfl r none hstep
        cases hsome
      unfold wp
      cases hhandler : handler c w with
      | ok a w' => exact (hnot (.ok a)).elim
      | error e w' => exact (hnot (.error e)).elim
    | some x' =>
      have hok : ∀ a, answers c a → Orderly next answers (k (.ok a)) Q E (some x') := by
        refine fun a ha => (hp (some x) rfl rfl (.ok a) _ ⟨hnext.symm, ?_⟩).2.2
        intro b hb _
        rw [← Except.ok.inj hb]
        exact ha
      have herror : ∀ e, Orderly next answers (k (.error e)) Q E (some x) := by
        refine fun e => (hp (some x) rfl rfl (.error e) _ ⟨?_, fun _ hb => by cases hb⟩).2.2
        simp [hnext]
      rw [Prog.wp_interp_call]
      refine wp_mono (hcall c x x' s w hnext hrel) ?_ ?_
      · rintro a w' ⟨ha, s', hexec, hrel'⟩
        refine wp_mono (ih (.ok a) (hok a ha) hrel') ?_ ?_
        · rintro b w'' ⟨y, s'', hruns, hend⟩
          exact ⟨y, s'', .call hexec hruns, hend⟩
        · rintro e w'' ⟨p', y, s'', hruns, hend⟩
          exact ⟨p', y, s'', .call hexec hruns, hend⟩
      · intro e w' hdone
        by_cases hf : fatal e
        · rw [if_pos hf] at hdone ⊢
          exact ⟨_, x, s, .refl _ _, hdone, by simp, .inr hf⟩
        · rw [if_neg hf] at hdone ⊢
          obtain ⟨s', hexec, hrel'⟩ := hdone
          refine wp_mono (ih (.error e) (herror e) hrel') ?_ ?_
          · rintro b w'' ⟨y, s'', hruns, hend⟩
            exact ⟨y, s'', .call hexec hruns, hend⟩
          · rintro e' w'' ⟨p', y, s'', hruns, hend⟩
            exact ⟨p', y, s'', .call hexec hruns, hend⟩

end Concurrent
