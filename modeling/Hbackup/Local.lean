import Hbackup.Buffer

/-!
# Writing to a local file

`LocalFile::writebytes` of `local.cc`, with the calls of `write` that it makes.  The bytes that a call
passes are those from some offset on, counted from the start of the buffer; what lies behind the
buffer is whatever the memory holds.
-/

namespace Hbackup

/-- A call of `write`: the bytes passed to it, and how many of them it took. -/
structure WriteCall where
  offset : Nat
  count : Nat
  taken : Nat
deriving DecidableEq, Repr

/-- A descriptor; `answer i count` is what the `i`th `write` says when it is passed `count` bytes. -/
structure Descriptor where
  answer : Nat → Nat → Except Errno Nat
  calls : List WriteCall := []

/-- `write`. -/
def Descriptor.write (path : Bytes) (offset count : Nat) : EStateM FileStop Descriptor Nat := do
  let d ← get
  match d.answer d.calls.length count with
  | .error e => throw (.exn (.fileError "writing" path e))
  | .ok n =>
    set { d with calls := d.calls ++ [WriteCall.mk offset count n] }
    return n

namespace LocalFile

/-- The loop of `writebytes`. -/
def writebytesLoop (path : Bytes) (nbytes : Nat) : Nat → Nat → EStateM FileStop Descriptor Unit
  | 0, _ => throw .running
  | turns + 1, written => do
    if written < nbytes then
      let n ← Descriptor.write path written nbytes
      writebytesLoop path nbytes turns (written + n)
    else return

/-- `writebytes`. -/
def writebytes (path : Bytes) (turns nbytes : Nat) : EStateM FileStop Descriptor Unit :=
  writebytesLoop path nbytes turns 0

end LocalFile

end Hbackup
