import Hbackup.Recode
import Hbackup.Lib.CharStream

/-!
# The output buffer of `Recode::convert` does not matter

What POSIX says of `iconv` is stated for a character set (`Posix`): a call converts characters until
there are no more bytes, or none of them is next, or the next one does not fit.  Then the loop of
`convert` takes something of the input at every turn, and its result is what the string is converted to
character by character (`convertLoop_eq`), whatever the size of the buffer, if every character fits in
it.

There is such an `iconv` for every character set (`posix_greedy`).
-/

namespace Hbackup

open CharStream

variable {σ : Type} {ic : Iconv σ} {cs : Charset σ} {room : Room}

/-! ### What POSIX says of `iconv` -/

/-- The ways in which a call may end: it has converted some characters, which fit, and then the input is
at its end, or there is no character, or one that does not fit. -/
inductive Answers (cs : Charset σ) (cd : σ) (inbuf : Bytes) (room : Room) : Called σ → Prop
  | done {cd' : σ} {buffer : Bytes} {n : Nat} (h : Converts cs cd inbuf cd' [] buffer)
      (hfits : FitsIn buffer.length room) : Answers cs cd inbuf room ⟨cd', [], buffer, .ok n⟩
  | illegal {cd' : σ} {rest buffer : Bytes} (h : Converts cs cd inbuf cd' rest buffer)
      (hfits : FitsIn buffer.length room) (hne : rest ≠ []) (hnext : cs.next cd' rest = .illegal) :
      Answers cs cd inbuf room ⟨cd', rest, buffer, .error EILSEQ⟩
  | incomplete {cd' : σ} {rest buffer : Bytes} (h : Converts cs cd inbuf cd' rest buffer)
      (hfits : FitsIn buffer.length room) (hne : rest ≠ []) (hnext : cs.next cd' rest = .incomplete) :
      Answers cs cd inbuf room ⟨cd', rest, buffer, .error EINVAL⟩
  | full {cd' cd'' : σ} {rest buffer out : Bytes} {n : Nat}
      (h : Converts cs cd inbuf cd' rest buffer) (hfits : FitsIn buffer.length room)
      (hnext : cs.next cd' rest = .char n out cd'')
      (hfull : ¬ FitsIn (buffer.length + out.length) room) :
      Answers cs cd inbuf room ⟨cd', rest, buffer, .error E2BIG⟩

/-- The `iconv` of POSIX, for the conversion between two character sets. -/
structure Posix (ic : Iconv σ) (cs : Charset σ) : Prop where
  reset : ∀ cd, ic.reset cd = cs.initial
  iconv : ∀ cd inbuf room, Answers cs cd inbuf room (ic.iconv cd inbuf room)

/-! ### The loop -/

/-- A character that does not fit is not the first one of the input. -/
theorem length_lt_of_full {cd cd' cd'' : σ} {inbuf rest buffer out : Bytes} {n : Nat}
    (hroom : FitsIn sizeofBuffer room) (hmost : cs.AtMost sizeofBuffer)
    (h : Converts cs cd inbuf cd' rest buffer) (hnext : cs.next cd' rest = .char n out cd'')
    (hfull : ¬ FitsIn (buffer.length + out.length) room) : rest.length < inbuf.length := by
  rcases h.progress with ⟨-, -, rfl⟩ | hlt
  · exfalso
    apply hfull
    intro k hk
    rw [List.length_nil, Nat.zero_add]
    exact (hmost hnext).trans (hroom k hk)
  · exact hlt

/-- **The loop converts the string**, within as many turns as there are bytes, and one. -/
theorem convertLoop_eq (hposix : Posix ic cs) (hroom : FitsIn sizeofBuffer room)
    (hmost : cs.AtMost sizeofBuffer) {turns : Nat} {inbuf : Bytes} (hturns : inbuf.length < turns)
    (cd : σ) (r : Bytes) :
    ∃ cd', convertLoop ic room turns cd inbuf r = .ok (r ++ recoded cs 63 cd inbuf, cd') := by
  induction turns generalizing inbuf cd r with
  | zero => omega
  | succ turns ih =>
    rw [convertLoop]
    by_cases hnil : inbuf = []
    · rw [if_pos hnil, hnil, recoded_nil, List.append_nil]
      exact ⟨cd, rfl⟩
    have hpos := List.length_pos_iff.mpr hnil
    have hmark : lit "?" = [63] := rfl
    have hanswers := hposix.iconv cd inbuf room
    rw [if_neg hnil]
    revert hanswers
    generalize ic.iconv cd inbuf room = c
    intro hanswers
    -- what `recoded` is, by what has been converted, and the rest by the induction hypothesis
    cases hanswers with
    | @done cd' buffer n h hfits =>
      rw [recoded_of_converts h, ← List.append_assoc]
      apply ih
      show 0 < turns
      omega
    | @illegal cd' rest buffer h hfits hne hnext =>
      obtain ⟨c, rest, rfl⟩ := List.exists_cons_of_ne_nil hne
      have hle := h.length_le
      rw [List.length_cons] at hle
      rw [recoded_of_converts h, recoded_skip ⟨hne, .inl hnext⟩, ← List.append_assoc,
        List.append_cons, ← hmark]
      exact ih (by omega) cd' _
    | @incomplete cd' rest buffer h hfits hne hnext =>
      obtain ⟨c, rest, rfl⟩ := List.exists_cons_of_ne_nil hne
      have hle := h.length_le
      rw [List.length_cons] at hle
      rw [recoded_of_converts h, recoded_skip ⟨hne, .inr hnext⟩, ← List.append_assoc,
        List.append_cons, ← hmark]
      exact ih (by omega) cd' _
    | @full cd' cd'' rest buffer out n h hfits hnext hfull =>
      have hlt := length_lt_of_full hroom hmost h hnext hfull
      rw [recoded_of_converts h, ← List.append_assoc]
      apply ih
      show rest.length < turns
      omega

/-- **The buffer does not show in the result.**  `convert` returns what it would return with a buffer
without end: the conversions of the stretches of characters of the string, in order, and a `?` for every
byte between them. -/
theorem convert_eq (ic : Iconv σ) (cs : Charset σ) (hposix : Posix ic cs)
    (hmost : cs.AtMost sizeofBuffer) (cd : σ) (s : Bytes) :
    ∃ r, Recodes cs 63 cs.initial s r ∧ ∀ turns, s.length < turns →
      (∃ cd', convert ic (some sizeofBuffer) turns (some cd) s = .ok (r, cd')) ∧
      ∃ cd', convert ic none turns (some cd) s = .ok (r, cd') := by
  refine ⟨recoded cs 63 cs.initial s, recodes_recoded cs 63 cs.initial s, fun turns hturns => ?_⟩
  have hconvert : ∀ room : Room, FitsIn sizeofBuffer room →
      ∃ cd', convert ic room turns (some cd) s = .ok (recoded cs 63 cs.initial s, cd') := by
    intro room hroom
    obtain ⟨cd', hloop⟩ := convertLoop_eq hposix hroom hmost hturns cs.initial []
    refine ⟨some cd', ?_⟩
    rw [convert, hposix.reset, hloop]
    rfl
  exact ⟨hconvert (some sizeofBuffer) (by decide), hconvert none (by decide)⟩

/-! ### An `iconv` for every character set -/

/-- Characters are converted as long as they fit. -/
def greedyLoop (cs : Charset σ) (room : Room) (cd : σ) (s buffer : Bytes) : Called σ :=
  match s with
  | [] => ⟨cd, [], buffer, .ok 0⟩
  | c :: s =>
    match cs.next cd (c :: s) with
    | .illegal => ⟨cd, c :: s, buffer, .error EILSEQ⟩
    | .incomplete => ⟨cd, c :: s, buffer, .error EINVAL⟩
    | .char n out cd' =>
      if FitsIn (buffer.length + out.length) room then
        greedyLoop cs room cd' (s.drop (n - 1)) (buffer ++ out)
      else ⟨cd, c :: s, buffer, .error E2BIG⟩
termination_by s.length
decreasing_by
  rw [List.length_drop, List.length_cons]
  omega

def greedy (cs : Charset σ) : Iconv σ where
  reset _ := cs.initial
  iconv cd inbuf room := greedyLoop cs room cd inbuf []

theorem answers_greedyLoop {cd₀ cd : σ} {inbuf s buffer : Bytes}
    (h : Converts cs cd₀ inbuf cd s buffer) (hfits : FitsIn buffer.length room) :
    Answers cs cd₀ inbuf room (greedyLoop cs room cd s buffer) := by
  induction hn : s.length using Nat.strongRecOn generalizing cd s buffer with
  | ind n ih =>
    cases s with
    | nil =>
      rw [greedyLoop]
      exact .done h hfits
    | cons c s =>
      rw [greedyLoop]
      cases hnext : cs.next cd (c :: s) with
      | illegal => exact .illegal h hfits (List.cons_ne_nil c s) hnext
      | incomplete => exact .incomplete h hfits (List.cons_ne_nil c s) hnext
      | char k out cd' =>
        obtain ⟨hpos, -⟩ := cs.takes hnext
        show Answers cs cd₀ inbuf room (if FitsIn (buffer.length + out.length) room then _ else _)
        split
        · rename_i hfit
          have hdrop : (c :: s).drop k = s.drop (k - 1) := by
            obtain ⟨k, rfl⟩ := Nat.exists_eq_succ_of_ne_zero (Nat.ne_of_gt hpos)
            rfl
          have hmore := h.snoc hnext
          rw [hdrop] at hmore
          refine ih _ ?_ hmore (by rwa [List.length_append]) rfl
          rw [← hn, List.length_drop, List.length_cons]
          omega
        · exact .full h hfits hnext ‹_›

/-- **It behaves as POSIX says.** -/
theorem posix_greedy (cs : Charset σ) : Posix (greedy cs) cs where
  reset _ := rfl
  iconv cd inbuf _ := answers_greedyLoop (.nil cd inbuf) fun _ _ => Nat.zero_le _

/-- ASCII, to UTF-16 with the high byte first. -/
def ascii : Charset Unit where
  initial := ()
  next _ s :=
    match s with
    | [] => .incomplete
    | c :: _ => if c < 128 then .char 1 [0, c] () else .illegal
  takes {st s n out st'} h := by
    cases s with
    | nil => cases h
    | cons c s =>
      dsimp only at h
      split at h
      · cases h
        exact ⟨Nat.one_pos, Nat.succ_le_succ (Nat.zero_le _)⟩
      · cases h

theorem ascii_atMost : ascii.AtMost sizeofBuffer := by
  intro st s n out st' h
  cases s with
  | nil => cases h
  | cons c s =>
    dsimp only [ascii] at h
    split at h
    · cases h
      show 2 ≤ sizeofBuffer
      decide
    · cases h

/-- More than the buffer holds of them, a byte that is not ASCII, and a `b`. -/
def longText : Bytes := List.replicate 600 97 ++ [200, 98]

theorem length_longText : longText.length = 602 := by
  rw [longText, List.length_append, List.length_replicate]
  rfl

theorem convert_ascii : ∃ r, Recodes ascii 63 () longText r ∧ ∀ turns, 602 < turns →
    (∃ cd', convert (greedy ascii) (some sizeofBuffer) turns (some ()) longText = .ok (r, cd')) ∧
    ∃ cd', convert (greedy ascii) none turns (some ()) longText = .ok (r, cd') := by
  obtain ⟨r, hr, hconvert⟩ :=
    convert_eq (greedy ascii) ascii (posix_greedy ascii) ascii_atMost () longText
  rw [length_longText] at hconvert
  exact ⟨r, hr, hconvert⟩

end Hbackup
