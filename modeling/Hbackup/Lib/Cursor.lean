import Mathlib.Data.List.Basic
import Mathlib.Tactic.Common

/-!
# Decoders that move a position

A decoder reads a list of items from a position and leaves the position where it stops.  `Yields`
says how it ends wherever an encoding stands: it may take it for a value (`Decodes`) or fail
(`Fails`).  Encodings that follow each other are decoded one by one (`Yields.bind`).
-/

namespace Cursor

variable {ι ε α β : Type}

/-- A decoder of a list of items, which starts at the position in its state. -/
abbrev Decoder (ι ε α : Type) : Type := List ι → EStateM ε Nat α

/-- Wherever `enc` stands, the result is in `P`, which also has what stands up to the end of `enc`. -/
def Yields (f : Decoder ι ε α) (enc : List ι) (P : List ι → EStateM.Result ε Nat α → Prop) : Prop :=
  ∀ before after, P (before ++ enc) (f (before ++ enc ++ after) before.length)

/-- Wherever `enc` stands, `f` returns `a` and leaves the position behind it. -/
def Decodes (f : Decoder ι ε α) (enc : List ι) (a : α) : Prop :=
  Yields f enc fun upTo result => result = .ok a upTo.length

/-- Wherever `enc` stands, `f` fails. -/
def Fails (f : Decoder ι ε α) (enc : List ι) : Prop :=
  Yields f enc fun _ result => ∃ e i, result = .error e i

theorem Decodes.pure (a : α) :
    Decodes (fun _ : List ι => (Pure.pure a : EStateM ε Nat α)) [] a := by
  intro before after
  rw [List.append_nil]
  rfl

/-- What follows an encoding is decoded from behind it. -/
theorem Yields.bind {f : Decoder ι ε α} {g : List ι → α → EStateM ε Nat β} {enc enc' : List ι}
    {a : α} {P : List ι → EStateM.Result ε Nat β → Prop} (hf : Decodes f enc a)
    (hg : Yields (fun s => g s a) enc' P) :
    Yields (fun s => f s >>= g s) (enc ++ enc') P := by
  intro before after
  have hfirst := hf before (enc' ++ after)
  have hsecond := hg (before ++ enc) after
  change P _ (EStateM.bind (f _) (g _) _)
  rw [EStateM.bind]
  simp only [← List.append_assoc] at hfirst hsecond ⊢
  rw [hfirst]
  exact hsecond

theorem Decodes.bind {f : Decoder ι ε α} {g : List ι → α → EStateM ε Nat β} {enc enc' : List ι}
    {a : α} {b : β} (hf : Decodes f enc a) (hg : Decodes (fun s => g s a) enc' b) :
    Decodes (fun s => f s >>= g s) (enc ++ enc') b :=
  Yields.bind hf hg

/-- What is behind an encoding that fails is not reached. -/
theorem Fails.bind {f : Decoder ι ε α} {enc : List ι} (hf : Fails f enc)
    (g : List ι → α → EStateM ε Nat β) (enc' : List ι) :
    Fails (fun s => f s >>= g s) (enc ++ enc') := by
  intro before after
  obtain ⟨e, i, he⟩ := hf before (enc' ++ after)
  refine ⟨e, i, ?_⟩
  change EStateM.bind (f _) (g _) _ = _
  rw [EStateM.bind]
  simp only [← List.append_assoc] at he ⊢
  rw [he]

theorem Decodes.not_fails {f : Decoder ι ε α} {enc : List ι} {a : α} (h : Decodes f enc a) :
    ¬ Fails f enc := by
  intro hfails
  obtain ⟨e, i, he⟩ := hfails [] []
  rw [h [] []] at he
  cases he

end Cursor
