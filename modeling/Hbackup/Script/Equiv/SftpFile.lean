import Hbackup.Script.Index
import Hbackup.Script.SftpFile
import Hbackup.Lib.ProgramLogic
import Mathlib.Data.List.Infix

/-!
# Reading an `sftpfile`

What an `sftpfile` still has to return is what is in its buffer and then what is in the file from its
offset on.  Every way of reading takes a piece off the front of that (`Call.takes`), so that the
pieces follow each other in the file, whatever the server answers (`calls_return_file`).
-/

namespace Hbackup.Script

open ProgramLogic Sftp

/-! ### Lines -/

/-- The first line, with its newline if it has one. -/
def firstLine : Bytes → Bytes
  | [] => []
  | c :: r => if c = 10 then [10] else c :: firstLine r

theorem isPrefix_firstLine (r : Bytes) : firstLine r <+: r := by
  induction r with
  | nil => exact List.prefix_rfl
  | cons c r ih =>
    rw [firstLine]
    split
    · rename_i hc
      rw [hc]
      exact ⟨r, rfl⟩
    · exact (List.prefix_cons_inj c).mpr ih

theorem firstLine_ne_nil {r : Bytes} (h : r ≠ []) : firstLine r ≠ [] := by
  cases r with
  | nil => exact absurd rfl h
  | cons c r =>
    rw [firstLine]
    split <;> simp

theorem linesOf_eq {r : Bytes} (h : r ≠ []) :
    linesOf r = firstLine r :: linesOf (r.drop (firstLine r).length) := by
  induction r with
  | nil => exact absurd rfl h
  | cons c r ih =>
    rw [linesOf, firstLine]
    split
    · rfl
    · rw [List.length_cons, List.drop_succ_cons]
      by_cases hr : r = []
      · rw [hr]
        rfl
      · rw [ih hr]

/-- The newline is in the buffer. -/
theorem firstLine_of_newline {input : Bytes} {i : Nat} (h : input.idxOf? 10 = some i) (rest : Bytes) :
    firstLine (input ++ rest) = input.take (i + 1) := by
  induction input generalizing i with
  | nil => cases h
  | cons c input ih =>
    rw [List.idxOf?_cons] at h
    rw [List.cons_append, firstLine]
    by_cases hc : c = 10
    · rw [if_pos (by simpa using hc)] at h
      rw [if_pos hc, ← Option.some.inj h, hc]
      rfl
    · rw [if_neg (by simpa using hc)] at h
      obtain ⟨j, hj, rfl⟩ := Option.map_eq_some_iff.mp h
      rw [if_neg hc, ih hj]
      rfl

/-- The buffer ends before the newline. -/
theorem firstLine_of_none {input : Bytes} (h : input.idxOf? 10 = none) (rest : Bytes) :
    firstLine (input ++ rest) = input ++ firstLine rest := by
  have hno : (10 : UInt8) ∉ input := by simpa using h
  clear h
  induction input with
  | nil => rfl
  | cons c input ih =>
    rw [List.mem_cons, not_or] at hno
    rw [List.cons_append, firstLine, if_neg (Ne.symm hno.1), ih hno.2]
    rfl

theorem lt_of_idxOf {input : Bytes} {i : Nat} (h : input.idxOf? 10 = some i) : i < input.length := by
  rw [List.idxOf?_eq_some_iff] at h
  exact h.1

/-! ### What is left -/

/-- `r` is still to be returned. -/
structure Left (f : SftpFile) (r : Bytes) : Prop where
  offset : f.offset ≤ f.remote.content.length
  ended : f.eof → f.offset = f.remote.content.length
  left : f.input ++ f.remote.content.drop f.offset = r

/-- How often the file can be filled again. -/
def fills (f : SftpFile) : Nat :=
  f.remote.content.length - f.offset + if f.eof then 0 else 1

variable {f : SftpFile} {r : Bytes}

theorem Left.opened (remote : Remote) (sizes : Nat → Nat) : Left { remote, sizes } remote.content :=
  ⟨Nat.zero_le _, by simp, rfl⟩

/-- At the end of the file, all that is left is in the buffer. -/
theorem Left.input_eq (h : Left f r) (heof : f.eof = true) : f.input = r := by
  have hleft := h.left
  rw [h.ended heof, List.drop_length, List.append_nil] at hleft
  exact hleft

/-- A fill moves bytes to the buffer or finds the end of the file. -/
theorem Left.wp_fill (h : Left f r) (heof : f.eof = false) :
    wp (fill FILL) (fun _ f' => Left f' r ∧ fills f' < fills f) (fun _ _ => False) f := by
  have hsize := f.remote.size_lt
  have hoffset : (UInt64.ofNat f.offset).toNat = f.offset :=
    UInt64.toNat_ofNat_of_lt' (lt_of_le_of_lt h.offset hsize)
  rw [fill, wp_bind, wp_get, wp_ite, if_neg (by simp [heof]), wp_bind, ask, wp_bind, wp_get, wp_bind,
    wp_set, wp_pure, Remote.answer, hoffset]
  -- at the end of the file the server answers with an end of file
  by_cases hend : f.remote.content.length ≤ f.offset
  · rw [if_pos hend]
    dsimp only
    rw [wp_ite, if_pos rfl, wp_modify]
    refine ⟨⟨h.offset, fun _ => le_antisymm h.offset hend, h.left⟩, ?_⟩
    unfold fills
    rw [heof, if_pos rfl, if_neg (by simp)]
    exact Nat.lt_succ_self _
  · rw [if_neg hend, wp_modify]
    -- otherwise with at least one byte, as many as it likes
    set n := max 1 (min (f.sizes 0) (UInt32.ofNat FILL).toNat) with hn
    have hpos : 1 ≤ n := Nat.le_max_left _ _
    have hlen : ((f.remote.content.drop f.offset).take n).length =
        min n (f.remote.content.length - f.offset) := by
      rw [List.length_take, List.length_drop]
    constructor
    · refine ⟨?_, ?_, ?_⟩
      · dsimp only
        omega
      · intro heof'
        rw [heof] at heof'
        cases heof'
      · have hrest : f.remote.content.drop (f.offset + ((f.remote.content.drop f.offset).take n).length) =
            (f.remote.content.drop f.offset).drop n := by
          rw [hlen, List.drop_drop]
          by_cases hle : n ≤ f.remote.content.length - f.offset
          · rw [min_eq_left hle]
          · rw [List.drop_eq_nil_of_le (by omega), List.drop_eq_nil_of_le (by omega)]
        dsimp only
        rw [hrest, List.append_assoc, List.take_append_drop]
        exact h.left
    · unfold fills
      dsimp only
      rw [heof, if_neg (by simp)]
      omega

/-- No more than is wanted. -/
def upTo : Option Nat → Bytes → Bytes
  | none, s => s
  | some n, s => s.take n

/-! ### Blocks -/

/-- The loop of `read` stops with enough bytes in the buffer, or at the end of the file. -/
theorem Left.wp_readLoop {n : Option Nat} {turns : Nat} (h : Left f r) (hturns : fills f < turns) :
    wp (readLoop n turns)
      (fun _ f' => Left f' r ∧ fills f' ≤ fills f ∧
        (f'.eof = true ∨ ∃ m, n = some m ∧ m ≤ f'.input.length))
      (fun _ _ => False) f := by
  induction turns generalizing f with
  | zero => omega
  | succ turns ih =>
    rw [readLoop, wp_bind, wp_get, wp_ite]
    split
    · rename_i hmore
      rw [wp_bind]
      apply wp_mono (h.wp_fill (by simpa using hmore.1)) _ fun _ _ hfalse => hfalse
      rintro _ f₁ ⟨h₁, hless⟩
      apply wp_mono (ih h₁ (by omega)) _ fun _ _ hfalse => hfalse
      rintro _ f₂ ⟨h₂, hle, hstop⟩
      exact ⟨h₂, by omega, hstop⟩
    · rename_i hstop
      refine ⟨h, le_rfl, ?_⟩
      by_cases heof : f.eof = true
      · exact .inl heof
      · right
        cases n with
        | none => exact absurd ⟨by simpa using heof, rfl⟩ hstop
        | some m =>
          refine ⟨m, rfl, ?_⟩
          by_contra hlt
          exact hstop ⟨by simpa using heof, by simpa using hlt⟩

/-- What is in the buffer is the front of what is left. -/
theorem Left.take_input {n : Nat} (h : Left f r) (hn : n ≤ f.input.length) :
    f.input.take n = r.take n ∧ Left { f with input := f.input.drop n } (r.drop n) := by
  have hleft := h.left
  refine ⟨?_, h.offset, h.ended, ?_⟩
  · rw [← hleft, List.take_append_of_le_length hn]
  · rw [← hleft, List.drop_append_of_le_length hn]

/-- **A block**: so many bytes, or what is left. -/
theorem Left.wp_read {n : Option Nat} {turns : Nat} (h : Left f r) (hturns : fills f < turns) :
    wp (read turns n)
      (fun s f' => s = upTo n r ∧
        Left f' (r.drop s.length) ∧ fills f' ≤ fills f)
      (fun _ _ => False) f := by
  rw [read, wp_bind]
  apply wp_mono (h.wp_readLoop hturns) _ fun _ _ hfalse => hfalse
  rintro _ f₁ ⟨h₁, hless, hstop⟩
  rw [wp_bind, wp_get, wp_bind, wp_set, wp_pure]
  rcases hstop with heof | ⟨m, rfl, hm⟩
  · -- the end: all that is left is in the buffer
    have hinput := h₁.input_eq heof
    have hall : f₁.input.take (n.getD f₁.input.length) =
        upTo n r := by
      rw [hinput]
      cases n with
      | none => exact List.take_length
      | some n => rfl
    refine ⟨hall, ⟨h₁.offset, h₁.ended, ?_⟩, hless⟩
    have hleft := h₁.left
    rw [h₁.ended heof, List.drop_length, List.append_nil] at hleft
    dsimp only
    rw [h₁.ended heof, List.drop_length, List.append_nil, hinput, List.length_take]
    by_cases hle : n.getD r.length ≤ r.length
    · rw [min_eq_left hle]
    · rw [List.drop_eq_nil_of_le (by omega), List.drop_eq_nil_of_le (by omega)]
  · obtain ⟨htake, hrest⟩ := h₁.take_input hm
    refine ⟨htake, ?_, hless⟩
    have hlen : (f₁.input.take m).length = m := by
      rw [List.length_take]
      exact min_eq_left hm
    rw [Option.getD_some, hlen]
    exact hrest

/-! ### Lines -/

/-- The loop of `readline` stops with a newline in the buffer, at the end of the file, or with as many
bytes as are wanted. -/
theorem Left.wp_readlineLoop {n : Option Nat} {turns : Nat} {where_ : Option Nat} (h : Left f r)
    (hturns : fills f < turns) (hwhere : where_ = f.input.idxOf? 10) :
    wp (readlineLoop n turns where_)
      (fun where_ f' => Left f' r ∧ where_ = f'.input.idxOf? 10 ∧ fills f' ≤ fills f ∧
        (where_ = none → f'.eof = true ∨ ∃ m, n = some m ∧ m ≤ f'.input.length))
      (fun _ _ => False) f := by
  induction turns generalizing f where_ with
  | zero => omega
  | succ turns ih =>
    rw [readlineLoop, wp_bind, wp_get, wp_ite]
    split
    · rename_i hmore
      obtain ⟨-, heof, -⟩ := hmore
      rw [wp_bind]
      apply wp_mono (h.wp_fill (by simpa using heof)) _ fun _ _ hfalse => hfalse
      rintro _ f₁ ⟨h₁, hless⟩
      rw [wp_bind, wp_get]
      apply wp_mono (ih h₁ (by omega) rfl) _ fun _ _ hfalse => hfalse
      rintro where_ f₂ ⟨h₂, hwhere₂, hle, hstop⟩
      exact ⟨h₂, hwhere₂, by omega, hstop⟩
    · rename_i hstop
      refine ⟨h, hwhere, le_rfl, ?_⟩
      intro hnone
      by_cases heof : f.eof = true
      · exact .inl heof
      · right
        cases n with
        | none => exact absurd ⟨hnone, by simpa using heof, rfl⟩ hstop
        | some m =>
          refine ⟨m, rfl, ?_⟩
          by_contra hlt
          exact hstop ⟨hnone, by simpa using heof, by simpa using hlt⟩

/-- **A line**: up to the newline and with it, or what is left, and no more than is wanted. -/
theorem Left.wp_readline {n : Option Nat} {turns : Nat} (h : Left f r) (hturns : fills f < turns) :
    wp (readline turns n)
      (fun s f' => s = upTo n (firstLine r) ∧
        Left f' (r.drop s.length) ∧ fills f' ≤ fills f)
      (fun _ _ => False) f := by
  rw [readline, wp_bind, wp_get, wp_bind]
  apply wp_mono (h.wp_readlineLoop hturns rfl) _ fun _ _ hfalse => hfalse
  rintro where_ f₁ ⟨h₁, hwhere, hless, hstop⟩
  rw [wp_bind, wp_get]
  have hleft := h₁.left
  -- what is read is the line
  have hread : ∀ w, r.take w = upTo n (firstLine r) →
      wp (read turns (some w))
        (fun s f' => s = upTo n (firstLine r) ∧
          Left f' (r.drop s.length) ∧ fills f' ≤ fills f)
        (fun _ _ => False) f₁ := by
    intro w hw
    apply wp_mono (h₁.wp_read (by omega)) _ fun _ _ hfalse => hfalse
    rintro s f₂ ⟨hs, h₂, hle⟩
    exact ⟨hs.trans hw, h₂, by omega⟩
  cases where_ with
  | some i =>
    have hi := lt_of_idxOf hwhere.symm
    have hline := firstLine_of_newline hwhere.symm (f₁.remote.content.drop f₁.offset)
    rw [hleft] at hline
    have htake : r.take (i + 1) = firstLine r := by
      rw [hline, ← hleft, List.take_append_of_le_length hi]
    apply hread
    cases n with
    | none => exact htake
    | some n =>
      rw [upTo, ← htake, List.take_take]
      congr 1
      dsimp only
      split <;> omega
  | none =>
    have hline := firstLine_of_none hwhere.symm (f₁.remote.content.drop f₁.offset)
    rw [hleft] at hline
    rcases hstop rfl with heof | ⟨m, rfl, hm⟩
    · have hinput := h₁.input_eq heof
      have hrest : firstLine r = r := by
        rw [hline, h₁.ended heof, List.drop_length, hinput]
        exact List.append_nil r
      apply hread
      rw [hinput, hrest]
      cases n with
      | none => exact List.take_length
      | some n =>
        dsimp only [upTo]
        split
        · rfl
        · rw [List.take_length, List.take_of_length_le (by omega)]
    · apply hread
      dsimp only [upTo]
      have hw : (if f₁.input.length > m then m else f₁.input.length) = m := by
        split <;> omega
      rw [hw, hline, List.take_append_of_le_length hm]
      exact (h₁.take_input hm).1.symm

/-- **A step of an iteration** is a line, and the iteration stops at the end of the file. -/
theorem Left.wp_next {turns : Nat} (h : Left f r) (hturns : fills f < turns) :
    wp (next turns)
      (fun line f' => line = (if r = [] then none else some (firstLine r)) ∧
        Left f' (r.drop (firstLine r).length) ∧ fills f' ≤ fills f)
      (fun _ _ => False) f := by
  rw [next, wp_bind]
  apply wp_mono (h.wp_readline hturns) _ fun _ _ hfalse => hfalse
  rintro s f₁ ⟨rfl, h₁, hless⟩
  rw [wp_pure]
  refine ⟨?_, h₁, hless⟩
  by_cases hr : r = []
  · rw [hr]
    rfl
  · rw [if_neg hr]
    exact if_neg (firstLine_ne_nil hr)

theorem Left.wp_readlinesLoop {turns more : Nat} {lines : List Bytes} (h : Left f r)
    (hturns : fills f < turns) (hmore : r.length < more) :
    wp (readlinesLoop turns more lines)
      (fun lines' f' => lines' = lines ++ linesOf r ∧ Left f' [] ∧ fills f' ≤ fills f)
      (fun _ _ => False) f := by
  induction more generalizing f r lines with
  | zero => omega
  | succ more ih =>
    rw [readlinesLoop, wp_bind]
    apply wp_mono (h.wp_next hturns) _ fun _ _ hfalse => hfalse
    rintro _ f₁ ⟨rfl, h₁, hless⟩
    by_cases hr : r = []
    · rw [if_pos hr, wp_pure]
      rw [hr] at h₁ ⊢
      exact ⟨(List.append_nil lines).symm, h₁, hless⟩
    · rw [if_neg hr]
      have hshort : (r.drop (firstLine r).length).length < more := by
        have hpos := List.length_pos_iff.mpr (firstLine_ne_nil hr)
        have hrpos := List.length_pos_iff.mpr hr
        rw [List.length_drop]
        omega
      apply wp_mono (ih h₁ (by omega) hshort) _ fun _ _ hfalse => hfalse
      rintro lines' f₂ ⟨rfl, h₂, hle⟩
      refine ⟨?_, h₂, by omega⟩
      rw [linesOf_eq hr, List.append_assoc]
      rfl

/-! ### Any calls -/

/-- A call on a file that is being read. -/
inductive Call
  | read (n : Nat)
  | readAll
  | readline
  | readlineUpTo (n : Nat)
  | next
  | readlines

/-- What a call returns; `next` may raise `StopIteration`. -/
inductive Answer
  | string (s : Bytes)
  | stopIteration
  | lines (ls : List Bytes)
deriving DecidableEq, Repr

namespace Call

/-- The call. -/
def run (turns : Nat) : Call → R Answer
  | read n => return .string (← Script.read turns (some n))
  | readAll => return .string (← Script.read turns none)
  | readline => return .string (← Script.readline turns none)
  | readlineUpTo n => return .string (← Script.readline turns (some n))
  | next => do
    match ← Script.next turns with
    | none => return .stopIteration
    | some line => return .string line
  | readlines => return .lines (← Script.readlines turns)

/-- What the call is to return when `r` is left. -/
def takes (r : Bytes) : Call → Answer
  | read n => .string (r.take n)
  | readAll => .string r
  | readline => .string (firstLine r)
  | readlineUpTo n => .string ((firstLine r).take n)
  | next => if r = [] then .stopIteration else .string (firstLine r)
  | readlines => .lines (linesOf r)

end Call

/-- What has been returned of the file. -/
def Answer.bytes : Answer → Bytes
  | string s => s
  | stopIteration => []
  | lines ls => ls.flatten

/-- What the calls are to return, each of what the ones before it have left. -/
def takesAll : Bytes → List Call → List Answer
  | _, [] => []
  | r, call :: calls => call.takes r :: takesAll (r.drop (call.takes r).bytes.length) calls

theorem linesOf_flatten (r : Bytes) : (linesOf r).flatten = r := by
  induction r with
  | nil => rfl
  | cons c r ih =>
    rw [linesOf]
    split
    · rename_i hc
      rw [List.flatten_cons, ih, hc]
      rfl
    · cases hlines : linesOf r with
      | nil =>
        rw [hlines] at ih
        rw [← ih]
        rfl
      | cons line lines =>
        rw [hlines] at ih
        rw [← ih]
        rfl

/-- Every call takes a piece off the front. -/
theorem Call.isPrefix_takes (call : Call) (r : Bytes) : (call.takes r).bytes <+: r := by
  cases call with
  | read n => exact List.take_prefix n r
  | readAll => exact List.prefix_rfl
  | readline => exact isPrefix_firstLine r
  | readlineUpTo n =>
    have htake : (firstLine r).take n <+: firstLine r := List.take_prefix n _
    exact htake.trans (isPrefix_firstLine r)
  | next =>
    rw [takes]
    split
    · exact List.nil_prefix
    · exact isPrefix_firstLine r
  | readlines =>
    rw [takes, Answer.bytes, linesOf_flatten]

/-- The pieces follow each other. -/
theorem isPrefix_takesAll (r : Bytes) (calls : List Call) :
    ((takesAll r calls).flatMap Answer.bytes) <+: r := by
  induction calls generalizing r with
  | nil => exact List.nil_prefix
  | cons call calls ih =>
    rw [takesAll, List.flatMap_cons]
    obtain ⟨rest, hrest⟩ := call.isPrefix_takes r
    have hdrop : r.drop (call.takes r).bytes.length = rest := by
      nth_rewrite 2 [← hrest]
      exact List.drop_left
    rw [hdrop]
    have happend := (List.prefix_append_right_inj (call.takes r).bytes).mpr (ih rest)
    rwa [hrest] at happend

theorem Call.wp_run (call : Call) {turns : Nat} (h : Left f r) (hturns : fills f < turns)
    (hlines : r.length < turns) :
    wp (call.run turns)
      (fun answer f' => answer = call.takes r ∧ Left f' (r.drop answer.bytes.length) ∧
        fills f' ≤ fills f)
      (fun _ _ => False) f := by
  -- each call takes its piece, and leaves no more to be filled than there was
  cases call with
  | read n =>
    rw [run, wp_bind]
    apply wp_mono (h.wp_read hturns) _ fun _ _ hfalse => hfalse
    rintro s f₁ ⟨hs, h₁, hless⟩
    exact ⟨congrArg Answer.string hs, h₁, hless⟩
  | readAll =>
    rw [run, wp_bind]
    apply wp_mono (h.wp_read hturns) _ fun _ _ hfalse => hfalse
    rintro s f₁ ⟨hs, h₁, hless⟩
    exact ⟨congrArg Answer.string hs, h₁, hless⟩
  | readline =>
    rw [run, wp_bind]
    apply wp_mono (h.wp_readline hturns) _ fun _ _ hfalse => hfalse
    rintro s f₁ ⟨hs, h₁, hless⟩
    exact ⟨congrArg Answer.string hs, h₁, hless⟩
  | readlineUpTo n =>
    rw [run, wp_bind]
    apply wp_mono (h.wp_readline hturns) _ fun _ _ hfalse => hfalse
    rintro s f₁ ⟨hs, h₁, hless⟩
    exact ⟨congrArg Answer.string hs, h₁, hless⟩
  | next =>
    rw [run, wp_bind]
    apply wp_mono (h.wp_next hturns) _ fun _ _ hfalse => hfalse
    rintro _ f₁ ⟨rfl, h₁, hless⟩
    by_cases hr : r = []
    · rw [if_pos hr, takes, if_pos hr]
      rw [hr] at h₁ ⊢
      exact ⟨rfl, h₁, hless⟩
    · rw [if_neg hr, takes, if_neg hr]
      exact ⟨rfl, h₁, hless⟩
  | readlines =>
    rw [run, wp_bind, Script.readlines]
    apply wp_mono (h.wp_readlinesLoop hturns hlines) _ fun _ _ hfalse => hfalse
    rintro _ f₁ ⟨rfl, h₁, hless⟩
    refine ⟨rfl, ?_, hless⟩
    rw [List.nil_append, Answer.bytes, linesOf_flatten, List.drop_length]
    exact h₁

theorem Call.wp_runs (calls : List Call) {turns : Nat} (h : Left f r) (hturns : fills f < turns)
    (hlines : r.length < turns) :
    wp (calls.mapM (run turns)) (fun answers _ => answers = takesAll r calls) (fun _ _ => False) f := by
  induction calls generalizing f r with
  | nil =>
    rw [List.mapM_nil, wp_pure]
    rfl
  | cons call calls ih =>
    rw [List.mapM_cons, wp_bind]
    apply wp_mono (call.wp_run h hturns hlines) _ fun _ _ hfalse => hfalse
    rintro _ f₁ ⟨rfl, h₁, hless⟩
    have hshort : (r.drop (call.takes r).bytes.length).length < turns := by
      rw [List.length_drop]
      omega
    rw [wp_bind]
    apply wp_mono (ih h₁ (by omega) hshort) _ fun _ _ hfalse => hfalse
    rintro _ f₂ rfl
    rfl

/-- **An `sftpfile` returns the file**: whatever the server answers and in whatever order the calls
come, each returns its piece of what the ones before it have left, and the pieces follow each
other from the start of the file.  No call takes more turns than the file has bytes, and two. -/
theorem calls_return_file (remote : Remote) (sizes : Nat → Nat) (calls : List Call) :
    (∃ f, (calls.mapM (Call.run (remote.content.length + 2))) { remote, sizes } =
      .ok (takesAll remote.content calls) f) ∧
    (takesAll remote.content calls).flatMap Answer.bytes <+: remote.content := by
  refine ⟨?_, isPrefix_takesAll _ _⟩
  have hopened := Left.opened remote sizes
  have hfills : fills { remote, sizes } < remote.content.length + 2 := by
    unfold fills
    simp
  obtain ⟨answers, f, hok, rfl⟩ := wp_returns (Call.wp_runs calls hopened hfills (by omega))
  exact ⟨f, hok⟩

/-- A file of two lines and a half. -/
def twoLines : Remote := ⟨lit "name=a\nname=b\n[en", by decide⟩

/-- Some calls. -/
def someCalls : List Call := [.readline, .read 4, .next, .readlineUpTo 2, .readAll, .next]

/-- Its lines and the rest, although the server never gives more than three bytes. -/
theorem calls_return_twoLines : ∃ f,
    (someCalls.mapM (Call.run (twoLines.content.length + 2)))
        { remote := twoLines, sizes := fun i => i % 4 } =
      .ok [.string (lit "name=a\n"), .string (lit "name"), .string (lit "=b\n"), .string (lit "[e"),
        .string (lit "n"), .stopIteration] f := by
  have htakes : takesAll twoLines.content someCalls = [.string (lit "name=a\n"),
      .string (lit "name"), .string (lit "=b\n"), .string (lit "[e"), .string (lit "n"),
      .stopIteration] := by decide
  rw [← htakes]
  exact (calls_return_file twoLines (fun i => i % 4) someCalls).1

end Hbackup.Script
