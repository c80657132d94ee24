import Mathlib.Data.List.Basic
import Mathlib.Tactic.Common

/-!
# Text made of separated parts

Two ways to cut a list at a separator: `List.splitOn` (parts *between* separators) and `unlines`
(parts each *followed by* one).  `cutAt` finds the first separator.  The facts needed of a
truncated text are `prefix_unlines` and `prefix_intercalate`: a prefix consists of whole parts and
a prefix of the next one.
-/

namespace Separated

variable {α : Type} [BEq α] [LawfulBEq α]

/-! ### The first separator -/

/-- The text before and behind the first `c`. -/
def cutAt (c : α) (l : List α) : Option (List α × List α) :=
  (l.idxOf? c).map fun i => (l.take i, l.drop (i + 1))

theorem cutAt_cons_self (c : α) (l : List α) : cutAt c (c :: l) = some ([], l) := by
  simp [cutAt, List.idxOf?_cons]

theorem cutAt_cons_ne {c d : α} (h : d ≠ c) (l : List α) :
    cutAt c (d :: l) = (cutAt c l).map fun p => (d :: p.1, p.2) := by
  have hb : (d == c) = false := by simpa using h
  simp only [cutAt, List.idxOf?_cons, hb]
  cases l.idxOf? c <;> simp

theorem cutAt_append {c : α} {a : List α} (ha : c ∉ a) (b : List α) :
    cutAt c (a ++ c :: b) = some (a, b) := by
  induction a with
  | nil => exact cutAt_cons_self c b
  | cons d a ih =>
    rw [List.mem_cons, not_or] at ha
    rw [List.cons_append, cutAt_cons_ne (Ne.symm ha.1), ih ha.2]
    rfl

theorem cutAt_eq_none_iff {c : α} {l : List α} : cutAt c l = none ↔ c ∉ l := by
  simp [cutAt]

theorem cutAt_eq_some_iff {c : α} {l a b : List α} :
    cutAt c l = some (a, b) ↔ c ∉ a ∧ l = a ++ c :: b := by
  constructor
  · intro h
    by_cases hc : c ∈ l
    · obtain ⟨a', b', rfl, ha'⟩ := List.eq_append_cons_of_mem hc
      rw [cutAt_append ha'] at h
      cases h
      exact ⟨ha', rfl⟩
    · rw [cutAt_eq_none_iff.mpr hc] at h
      cases h
  · rintro ⟨ha, rfl⟩
    exact cutAt_append ha b

/-- `splitOn` peels off the text before the first separator. -/
theorem splitOn_of_cutAt {c : α} {l a b : List α} (h : cutAt c l = some (a, b)) :
    l.splitOn c = a :: b.splitOn c := by
  obtain ⟨ha, rfl⟩ := cutAt_eq_some_iff.mp h
  exact List.splitOn_append_cons_self_of_not_mem ha b

theorem splitOn_of_cutAt_none {c : α} {l : List α} (h : cutAt c l = none) :
    l.splitOn c = [l] :=
  List.splitOn_eq_singleton (cutAt_eq_none_iff.mp h)

/-- No piece contains the separator. -/
theorem not_mem_of_mem_splitOn {c : α} {l piece : List α} (h : piece ∈ l.splitOn c) : c ∉ piece := by
  induction hn : l.length using Nat.strongRecOn generalizing l with
  | ind n ih =>
    cases hcut : cutAt c l with
    | none =>
      rw [splitOn_of_cutAt_none hcut, List.mem_singleton] at h
      rw [h]
      exact cutAt_eq_none_iff.mp hcut
    | some p =>
      obtain ⟨a, b⟩ := p
      obtain ⟨ha, hl⟩ := cutAt_eq_some_iff.mp hcut
      rw [splitOn_of_cutAt hcut, List.mem_cons] at h
      rcases h with rfl | h
      · exact ha
      · have hshort : b.length < n := by
          rw [← hn, hl, List.length_append, List.length_cons]
          omega
        exact ih b.length hshort h rfl

/-! ### Terminated lines -/

section Lines

variable {β : Type}

/-- The lines, each followed by `c`. -/
def unlines (c : β) (ls : List (List β)) : List β := ls.flatMap (· ++ [c])

@[simp] theorem unlines_nil (c : β) : unlines c [] = [] := rfl

@[simp] theorem unlines_cons (c : β) (l : List β) (ls : List (List β)) :
    unlines c (l :: ls) = l ++ c :: unlines c ls := by
  simp [unlines]

@[simp] theorem unlines_append (c : β) (ls ls' : List (List β)) :
    unlines c (ls ++ ls') = unlines c ls ++ unlines c ls' := by
  simp [unlines]

/-- A prefix of `a ++ b` ends in `a` or goes on into `b`. -/
theorem prefix_append_cases {p a b : List β} (h : p <+: a ++ b) :
    p <+: a ∨ ∃ q, p = a ++ q ∧ q <+: b := by
  rcases List.prefix_or_prefix_of_prefix h (List.prefix_append a b) with h' | ⟨q, rfl⟩
  · exact .inl h'
  · exact .inr ⟨q, rfl, (List.prefix_append_right_inj a).mp h⟩

/-- **Prefixes of a text of lines**: some whole lines, and a prefix of the next one. -/
theorem prefix_unlines {c : β} : ∀ {ls : List (List β)} {p : List β}, p <+: unlines c ls →
    p = unlines c ls ∨ ∃ pre x post frag, ls = pre ++ x :: post ∧ p = unlines c pre ++ frag ∧
      frag <+: x
  | [], p, h => by
    rw [unlines_nil, List.prefix_nil] at h
    exact .inl h
  | l :: ls, p, h => by
    rw [unlines_cons] at h
    rcases prefix_append_cases h with h | ⟨q, rfl, hq⟩
    · exact .inr ⟨[], l, ls, p, rfl, rfl, h⟩
    cases q with
    | nil => exact .inr ⟨[], l, ls, l, rfl, by simp, List.prefix_rfl⟩
    | cons d q =>
      obtain ⟨rfl, hq'⟩ := List.cons_prefix_cons.mp hq
      rcases prefix_unlines hq' with rfl | ⟨pre, x, post, frag, rfl, rfl, hf⟩
      · exact .inl (unlines_cons d l ls).symm
      · exact .inr ⟨l :: pre, x, post, frag, rfl, by simp, hf⟩

/-- Prefixes of parts joined by a separator: some whole parts, and a prefix of the next one. -/
theorem prefix_intercalate {c : β} : ∀ {ls : List (List β)} {p : List β}, ls ≠ [] →
    p <+: [c].intercalate ls → ∃ pre x post frag, ls = pre ++ x :: post ∧
      p = [c].intercalate (pre ++ [frag]) ∧ frag <+: x
  | [], _, hne, _ => absurd rfl hne
  | [l], p, _, h => ⟨[], l, [], p, rfl, by simp, by simpa using h⟩
  | l :: l' :: ls, p, _, h => by
    rw [List.intercalate_cons_cons, List.append_assoc] at h
    rcases prefix_append_cases h with h | ⟨q, rfl, hq⟩
    · exact ⟨[], l, l' :: ls, p, rfl, by simp, h⟩
    cases q with
    | nil => exact ⟨[], l, l' :: ls, l, rfl, by simp, List.prefix_rfl⟩
    | cons d q =>
      obtain ⟨rfl, hq'⟩ := List.cons_prefix_cons.mp hq
      obtain ⟨pre, x, post, frag, hls, rfl, hf⟩ := prefix_intercalate (by simp) hq'
      refine ⟨l :: pre, x, post, frag, by rw [hls]; rfl, ?_, hf⟩
      cases pre <;> simp [List.intercalate_cons_cons]

end Lines

end Separated
