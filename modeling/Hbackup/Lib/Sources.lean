import Mathlib.Data.List.Basic

/-!
# The first element with a key

Where a list is gone through in order, what is done for an element may depend on whether there has been
one with the same key: the first of them is the source of all of them.  An element that has no key is a
source of its own.
-/

namespace Sources

variable {α κ : Type} [DecidableEq κ] (key : α → Option κ)

/-- The first element with the key `k`. -/
def first (l : List α) (k : κ) : Option α := l.find? fun a => key a = some k

/-- The first element with the same key as `a`, or `a` if it has none. -/
def source (l : List α) (a : α) : α := ((key a).bind (first key l)).getD a

variable {key} {l l' : List α} {a b : α} {k : κ}

theorem first_append (l l' : List α) (k : κ) :
    first key (l ++ l') k = (first key l k).or (first key l' k) := List.find?_append

theorem first_singleton (a : α) (k : κ) :
    first key [a] k = if key a = some k then some a else none := by
  unfold first
  rw [List.find?_singleton]
  simp

theorem first_spec (h : first key l k = some a) : a ∈ l ∧ key a = some k :=
  ⟨List.mem_of_find?_eq_some h, by simpa using List.find?_some h⟩

theorem first_isSome (hm : a ∈ l) (hk : key a = some k) : (first key l k).isSome := by
  unfold first
  rw [List.find?_isSome]
  exact ⟨a, hm, by simpa using hk⟩

theorem source_of_none (h : key a = none) : source key l a = a := by
  unfold source
  rw [h]
  rfl

theorem source_eq (hk : key a = some k) (hfirst : first key l k = some b) : source key l a = b := by
  unfold source
  rw [hk, Option.bind_some, hfirst]
  rfl

/-- An element is its own source where it is the first with its key. -/
theorem source_self (h : ∀ k, key a = some k → first key l k = none) :
    source key (l ++ a :: l') a = a := by
  cases hk : key a with
  | none => exact source_of_none hk
  | some k =>
    apply source_eq hk
    rw [← List.singleton_append, first_append, first_append, h k hk, first_singleton, if_pos hk]
    rfl

/-- The source is one of the elements, and a source of its own. -/
theorem source_spec (hm : a ∈ l) : source key l a ∈ l ∧
    source key l (source key l a) = source key l a ∧ key (source key l a) = key a := by
  cases hk : key a with
  | none => rw [source_of_none hk]; exact ⟨hm, source_of_none hk, hk⟩
  | some k =>
    obtain ⟨b, hb⟩ := Option.isSome_iff_exists.mp (first_isSome hm hk)
    obtain ⟨hmem, hbk⟩ := first_spec hb
    rw [source_eq hk hb]
    exact ⟨hmem, source_eq hbk hb, hbk⟩

/-- **Elements have one source** exactly if they are the same, or have the same key. -/
theorem source_eq_iff (hm : a ∈ l) (hm' : b ∈ l) : source key l a = source key l b ↔
    a = b ∨ (key a).isSome ∧ key a = key b := by
  constructor
  · intro heq
    have ha : key (source key l a) = key a := (source_spec hm).2.2
    have hb : key (source key l b) = key b := (source_spec hm').2.2
    rw [heq, hb] at ha
    cases hk : key a with
    | none =>
      rw [source_of_none hk, source_of_none (ha.trans hk)] at heq
      exact .inl heq
    | some k => exact .inr ⟨rfl, hk.symm.trans ha.symm⟩
  · rintro (rfl | ⟨hsome, heq⟩)
    · rfl
    · obtain ⟨k, hk⟩ := Option.isSome_iff_exists.mp hsome
      obtain ⟨x, hx⟩ := Option.isSome_iff_exists.mp (first_isSome hm hk)
      rw [source_eq hk hx, source_eq (heq ▸ hk) hx]

end Sources
