import Mathlib.Data.List.Basic
import Mathlib.Tactic.Common

/-!
# Converting text between character sets

A `Charset` says what there is at the beginning of a byte string: a character, how many bytes it takes
and what becomes of it, or none.  It may depend on a state, which every character may change.
`Converts` is the conversion of some characters one after another.

`recoded` converts a whole string, with a mark in the place of every byte at which there is no character:
it is the conversions of the successive stretches of characters, and a mark behind each but the last
(`recodes_recoded`).  It may be computed in pieces: `recoded_of_converts` puts off what is behind some
characters, and `recoded_skip` steps over a byte.
-/

namespace CharStream

/-- What there is at the beginning of a byte string. -/
inductive Next (σ : Type)
  /-- A character of `n` bytes, what becomes of it, and the state behind it. -/
  | char (n : Nat) (out : List UInt8) (st : σ)
  | illegal
  /-- The beginning of a character. -/
  | incomplete

structure Charset (σ : Type) where
  initial : σ
  next : σ → List UInt8 → Next σ
  takes : ∀ {st : σ} {s : List UInt8} {n : Nat} {out : List UInt8} {st' : σ},
    next st s = .char n out st' → 0 < n ∧ n ≤ s.length

variable {σ : Type} {cs : Charset σ} {st st' : σ} {s rest out : List UInt8}

namespace Charset

/-- No character becomes more than `k` bytes. -/
def AtMost (cs : Charset σ) (k : Nat) : Prop :=
  ∀ {st : σ} {s : List UInt8} {n : Nat} {out : List UInt8} {st' : σ},
    cs.next st s = .char n out st' → out.length ≤ k

/-- There are bytes, but not a character. -/
def Stuck (cs : Charset σ) (st : σ) (s : List UInt8) : Prop :=
  s ≠ [] ∧ (cs.next st s = .illegal ∨ cs.next st s = .incomplete)

end Charset

/-! ### Characters one after another -/

/-- Some characters at the beginning of a string are converted; `rest` is behind them. -/
inductive Converts (cs : Charset σ) : σ → List UInt8 → σ → List UInt8 → List UInt8 → Prop
  | nil (st : σ) (s : List UInt8) : Converts cs st s st s []
  | char {st st' st'' : σ} {s rest out out' : List UInt8} {n : Nat}
      (hnext : cs.next st s = .char n out st') (h : Converts cs st' (s.drop n) st'' rest out') :
      Converts cs st s st'' rest (out ++ out')

/-- One more character. -/
theorem Converts.snoc {st'' : σ} {out' : List UInt8} {n : Nat} (h : Converts cs st s st' rest out)
    (hnext : cs.next st' rest = .char n out' st'') :
    Converts cs st s st'' (rest.drop n) (out ++ out') := by
  induction h with
  | nil st s =>
    have hone := Converts.char hnext (.nil st'' (s.drop n))
    rwa [List.append_nil] at hone
  | char hfirst _ ih =>
    rw [List.append_assoc]
    exact .char hfirst (ih hnext)

/-- No character, or something of the string is taken. -/
theorem Converts.progress (h : Converts cs st s st' rest out) :
    (st' = st ∧ rest = s ∧ out = []) ∨ rest.length < s.length := by
  induction h with
  | nil st s => exact .inl ⟨rfl, rfl, rfl⟩
  | @char st st' st'' s rest out out' n hnext _ ih =>
    right
    obtain ⟨hpos, hle⟩ := cs.takes hnext
    have hdrop : (s.drop n).length < s.length := by
      rw [List.length_drop]
      omega
    rcases ih with ⟨-, rfl, -⟩ | hlt
    · exact hdrop
    · exact Nat.lt_trans hlt hdrop

theorem Converts.length_le (h : Converts cs st s st' rest out) : rest.length ≤ s.length := by
  rcases h.progress with ⟨-, rfl, -⟩ | hlt
  · exact Nat.le_refl _
  · exact Nat.le_of_lt hlt

/-! ### Whole strings -/

/-- The string with all of its characters converted, and `mark` for the other bytes. -/
def recoded (cs : Charset σ) (mark : UInt8) (st : σ) (s : List UInt8) : List UInt8 :=
  match s with
  | [] => []
  | c :: s =>
    match cs.next st (c :: s) with
    -- the first byte of a character is `c`
    | .char n out st' => out ++ recoded cs mark st' (s.drop (n - 1))
    | .illegal => mark :: recoded cs mark st s
    | .incomplete => mark :: recoded cs mark st s
termination_by s.length
decreasing_by
  · rw [List.length_drop, List.length_cons]
    omega
  · exact Nat.lt_succ_self _
  · exact Nat.lt_succ_self _

variable {mark : UInt8}

theorem recoded_nil : recoded cs mark st [] = [] := by
  rw [recoded]

theorem recoded_char {n : Nat} (hnext : cs.next st s = .char n out st') :
    recoded cs mark st s = out ++ recoded cs mark st' (s.drop n) := by
  obtain ⟨hpos, hle⟩ := cs.takes hnext
  obtain ⟨c, s, rfl⟩ := List.exists_cons_of_length_pos (Nat.lt_of_lt_of_le hpos hle)
  obtain ⟨n, rfl⟩ := Nat.exists_eq_succ_of_ne_zero (Nat.ne_of_gt hpos)
  rw [recoded, hnext]
  rfl

/-- **A byte at which there is no character** is replaced. -/
theorem recoded_skip (h : cs.Stuck st s) :
    recoded cs mark st s = mark :: recoded cs mark st (s.drop 1) := by
  obtain ⟨hne, hnext⟩ := h
  obtain ⟨c, s, rfl⟩ := List.exists_cons_of_ne_nil hne
  rw [recoded]
  rcases hnext with hnext | hnext <;> rw [hnext] <;> rfl

/-- **Characters are converted before what is behind them.** -/
theorem recoded_of_converts (h : Converts cs st s st' rest out) :
    recoded cs mark st s = out ++ recoded cs mark st' rest := by
  induction h with
  | nil => rfl
  | char hnext _ ih => rw [recoded_char hnext, ih, List.append_assoc]

/-- Stretches of characters, with a mark for the byte between two of them. -/
inductive Recodes (cs : Charset σ) (mark : UInt8) : σ → List UInt8 → List UInt8 → Prop
  | last {st st' : σ} {s out : List UInt8} (h : Converts cs st s st' [] out) :
      Recodes cs mark st s out
  | skip {st st' : σ} {s rest out out' : List UInt8} (h : Converts cs st s st' rest out)
      (hstuck : cs.Stuck st' rest) (hrest : Recodes cs mark st' (rest.drop 1) out') :
      Recodes cs mark st s (out ++ mark :: out')

/-- A character in front of the first stretch. -/
theorem Recodes.char {n : Nat} {out' : List UInt8} (hnext : cs.next st s = .char n out st')
    (h : Recodes cs mark st' (s.drop n) out') : Recodes cs mark st s (out ++ out') := by
  cases h with
  | last h => exact .last (.char hnext h)
  | skip h hstuck hrest =>
    rw [← List.append_assoc]
    exact .skip (.char hnext h) hstuck hrest

/-- **What a string is converted to**: the conversions of its stretches of characters, in order. -/
theorem recodes_recoded (cs : Charset σ) (mark : UInt8) (st : σ) (s : List UInt8) :
    Recodes cs mark st s (recoded cs mark st s) := by
  induction hn : s.length using Nat.strongRecOn generalizing st s with
  | ind n ih =>
    by_cases hnil : s = []
    · rw [hnil, recoded_nil]
      exact .last (.nil st [])
    cases hnext : cs.next st s with
    | char k out st' =>
      obtain ⟨hpos, hle⟩ := cs.takes hnext
      rw [recoded_char hnext]
      exact .char hnext (ih _ (by rw [List.length_drop]; omega) _ _ rfl)
    | illegal | incomplete =>
      have hstuck : cs.Stuck st s := ⟨hnil, by simp [hnext]⟩
      have hlen := List.length_pos_iff.mpr hnil
      rw [recoded_skip hstuck]
      exact .skip (.nil st s) hstuck (ih _ (by rw [List.length_drop]; omega) _ _ rfl)

end CharStream
