import Hbackup.Basic

/-!
# Encoding conversion

`Recode::convert` of `recode.cc`, over an `iconv` that may be anything.  The output goes through a buffer,
of which the size is a parameter here.
-/

namespace Hbackup

def E2BIG : Errno := 7
def EILSEQ : Errno := 84

/-- The size of an output buffer; `none` for one without end. -/
abbrev Room := Option Nat

/-- So many bytes are not too many for the buffer. -/
def FitsIn (n : Nat) (room : Room) : Prop := ∀ k ∈ room, n ≤ k

instance (n : Nat) : (room : Room) → Decidable (FitsIn n room)
  | none => isTrue fun _ hk => by cases hk
  | some k => decidable_of_iff (n ≤ k) ⟨fun h _ hk => by cases hk; exact h, fun h => h k rfl⟩

/-- What a call of `iconv` leaves behind. -/
structure Called (σ : Type) where
  /-- The state of the conversion descriptor. -/
  cd : σ
  /-- The input that has not been taken. -/
  inbuf : Bytes
  /-- The output. -/
  buffer : Bytes
  /-- The result; `(size_t)-1` is the error. -/
  n : Except Errno Nat

/-- A conversion descriptor in a state of `σ`. -/
structure Iconv (σ : Type) where
  /-- `iconv(cd, 0, 0, 0, 0)`. -/
  reset : σ → σ
  iconv : σ → Bytes → Room → Called σ

/-- Why there is no result. -/
inductive RecodeStop
  /-- `fatal`. -/
  | fatal (e : Errno)
  /-- A byte behind the end of the input is skipped. -/
  | overrun
  /-- The loop is not at its end after the turns that were allowed. -/
  | running
deriving DecidableEq, Repr

/-- `sizeof buffer`. -/
def sizeofBuffer : Nat := 1024

variable {σ : Type}

/-- The loop of `convert`. -/
def convertLoop (ic : Iconv σ) (room : Room) : Nat → σ → Bytes → Bytes → Except RecodeStop (Bytes × σ)
  | 0, _, _, _ => .error .running
  | turns + 1, cd, inbuf, r =>
    if inbuf = [] then .ok (r, cd)
    else
      -- convert some bytes
      let c := ic.iconv cd inbuf room
      -- append whatever we got
      let r := r ++ c.buffer
      match c.n with
      | .ok _ => convertLoop ic room turns c.cd c.inbuf r
      | .error e =>
        if e = EILSEQ ∨ e = EINVAL then
          match c.inbuf with
          | [] => .error .overrun
          | _ :: inbuf => convertLoop ic room turns c.cd inbuf (r ++ lit "?")
        else if e = E2BIG then convertLoop ic room turns c.cd c.inbuf r
        else .error (.fatal e)

/-- `convert`, and the state that the descriptor is left in; without a descriptor nothing is
converted. -/
def convert (ic : Iconv σ) (room : Room) (turns : Nat) (cd : Option σ) (s : Bytes) :
    Except RecodeStop (Bytes × Option σ) :=
  match cd with
  | none => .ok (s, none)
  | some cd => do
    let (r, cd) ← convertLoop ic room turns (ic.reset cd) s []
    return (r, some cd)

end Hbackup
