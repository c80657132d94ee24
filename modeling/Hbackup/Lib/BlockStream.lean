import Mathlib.Data.List.Basic
import Mathlib.Tactic.Common

/-!
# Streaming through blocks

A function that works through a sequence in blocks of `B` items can be given the items one by one:
the items that do not make a block yet are `pending`.  `feed` is the stream, and `overBlocks` the
function on whole blocks.  A stream depends on the concatenation of what it is given only
(`feed_append`), and over whole blocks it is `overBlocks` (`feed_blocks`).
-/

namespace BlockStream

variable {σ α : Type}

/-- The state after the blocks so far, and the items behind them. -/
structure State (σ α : Type) where
  state : σ
  pending : List α

/-- The first `n` blocks. -/
def overBlocks (B : Nat) (compress : σ → List α → σ) : Nat → σ → List α → σ
  | 0, s, _ => s
  | n + 1, s, l => overBlocks B compress n (compress s (l.take B)) (l.drop B)

/-- One more item. -/
def push (B : Nat) (compress : σ → List α → σ) (s : State σ α) (x : α) : State σ α :=
  if s.pending.length + 1 = B then ⟨compress s.state (s.pending ++ [x]), []⟩
  else ⟨s.state, s.pending ++ [x]⟩

/-- More items. -/
def feed (B : Nat) (compress : σ → List α → σ) (s : State σ α) (l : List α) : State σ α :=
  l.foldl (push B compress) s

variable {B : Nat} {compress : σ → List α → σ}

@[simp] theorem feed_nil (s : State σ α) : feed B compress s [] = s := rfl

theorem feed_cons (s : State σ α) (x : α) (l : List α) :
    feed B compress s (x :: l) = feed B compress (push B compress s x) l := rfl

/-- What was given before does not matter but for the state that it left. -/
theorem feed_append (s : State σ α) (l l' : List α) :
    feed B compress s (l ++ l') = feed B compress (feed B compress s l) l' :=
  List.foldl_append

/-- There is no whole block. -/
theorem feed_short {s : State σ α} {l : List α} (h : s.pending.length + l.length < B) :
    feed B compress s l = ⟨s.state, s.pending ++ l⟩ := by
  induction l generalizing s with
  | nil => rw [feed_nil, List.append_nil]
  | cons x l ih =>
    rw [List.length_cons] at h
    have hne : s.pending.length + 1 ≠ B := by omega
    have hlen : (s.pending ++ [x]).length = s.pending.length + 1 := List.length_append
    rw [feed_cons, push, if_neg hne, ih (by show (s.pending ++ [x]).length + _ < B; omega)]
    simp

/-- The items complete a block. -/
theorem feed_complete {s : State σ α} {l : List α} (hl : l ≠ [])
    (h : s.pending.length + l.length = B) :
    feed B compress s l = ⟨compress s.state (s.pending ++ l), []⟩ := by
  obtain ⟨init, x, rfl⟩ := (List.eq_nil_or_concat l).resolve_left hl
  rw [List.concat_eq_append] at h ⊢
  rw [List.length_append, List.length_singleton] at h
  have hlen : (s.pending ++ init).length = s.pending.length + init.length := List.length_append
  have hinit : feed B compress s init = ⟨s.state, s.pending ++ init⟩ := feed_short (by omega)
  have hfull : (s.pending ++ init).length + 1 = B := by omega
  rw [feed_append, hinit, feed_cons, feed_nil, push, if_pos hfull, List.append_assoc]

theorem feed_blocks {n : Nat} (hB : 0 < B) (s : σ) {l : List α} (h : l.length = n * B) :
    feed B compress ⟨s, []⟩ l = ⟨overBlocks B compress n s l, []⟩ := by
  induction n generalizing s l with
  | zero =>
    rw [Nat.zero_mul] at h
    rw [List.length_eq_zero_iff.mp h]
    rfl
  | succ n ih =>
    rw [Nat.succ_mul] at h
    have htake : (l.take B).length = B := by
      rw [List.length_take]
      omega
    have hdrop : (l.drop B).length = n * B := by
      rw [List.length_drop]
      omega
    have hne : l.take B ≠ [] := by
      rw [← List.length_pos_iff]
      omega
    have hfirst : feed B compress ⟨s, []⟩ (l.take B) = ⟨compress s (l.take B), []⟩ :=
      feed_complete hne (by show 0 + (l.take B).length = B; omega)
    calc feed B compress ⟨s, []⟩ l = feed B compress ⟨s, []⟩ (l.take B ++ l.drop B) := by
          rw [List.take_append_drop]
      _ = ⟨overBlocks B compress (n + 1) s l, []⟩ := by rw [feed_append, hfirst, ih _ hdrop]; rfl

/-- How much of a block is there. -/
theorem pending_feed {s : State σ α} (hs : s.pending.length < B) (l : List α) :
    (feed B compress s l).pending.length = (s.pending.length + l.length) % B := by
  induction l generalizing s with
  | nil => rw [feed_nil, List.length_nil, Nat.add_zero, Nat.mod_eq_of_lt hs]
  | cons x l ih =>
    rw [feed_cons, push, List.length_cons]
    split
    · rename_i hfull
      rw [ih (by show 0 < B; omega), List.length_nil, Nat.zero_add,
        show s.pending.length + (l.length + 1) = B + l.length by omega, Nat.add_mod_left]
    · have hlen : (s.pending ++ [x]).length = s.pending.length + 1 := List.length_append
      rw [ih (by show (s.pending ++ [x]).length < B; omega), hlen]
      congr 1
      omega

end BlockStream
