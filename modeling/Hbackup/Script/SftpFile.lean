import Hbackup.Sftp.Client

/-!
# `sftpfile` of the `hbackup` script

A file that has been opened for reading on an SFTP server.  The server may answer a READ with less than
what has been asked for; how much the next answers give is part of the state.
-/

namespace Hbackup.Script

open Sftp

/-- `SftpError`; or not within the turns that were allowed. -/
inductive SftpStop
  | error (msg : String)
  | running
deriving DecidableEq, Repr

/-- A file on the server; its offsets are 64-bit numbers. -/
structure Remote where
  content : Bytes
  size_lt : content.length < 2 ^ 64

/-- Between 1 and `len` bytes from the offset, or the end of the file. -/
def Remote.answer (remote : Remote) (size : Nat) (offset : UInt64) (len : UInt32) : Reply :=
  if remote.content.length ≤ offset.toNat then .STATUS SSH_FX_EOF (lit "End of file")
  else .DATA ((remote.content.drop offset.toNat).take (max 1 (min size len.toNat)))

/-- An `sftpfile` that is not written, and the server behind it. -/
structure SftpFile where
  remote : Remote
  sizes : Nat → Nat
  /-- input EOF seen -/
  eof : Bool := false
  /-- pending input -/
  input : Bytes := []
  /-- file offset -/
  offset : Nat := 0

abbrev R := EStateM SftpStop SftpFile

/-- A READ is sent and its reply received; `pack_uint64` and `pack_uint32` keep the low bits. -/
def ask (offset n : Nat) : R Reply := do
  let f ← get
  set { f with sizes := fun i => f.sizes (i + 1) }
  return f.remote.answer (f.sizes 0) (UInt64.ofNat offset) (UInt32.ofNat n)

/-- `_fill`. -/
def fill (n : Nat) : R Unit := do
  let f ← get
  if f.eof then return
  else
    match ← ask f.offset n with
    | .STATUS status _ =>
      if status = SSH_FX_EOF then modify fun f => { f with eof := true }
      else if status ≠ SSH_FX_OK then throw (.error "sftp error")
      else throw (.error "unexpected response")
    | .DATA input => modify fun f => { f with offset := f.offset + input.length, input := f.input ++ input }
    | _ => throw (.error "unexpected response")

/-- The default of `n` in `_fill`. -/
def FILL : Nat := 8192

/-- `while not self.eof and (n == None or len(self.input) < n)`. -/
def readLoop (n : Option Nat) : Nat → R Unit
  | 0 => throw .running
  | turns + 1 => do
    let f ← get
    if !f.eof ∧ n.all (f.input.length < ·) then
      fill FILL
      readLoop n turns
    else return

/-- `read`. -/
def read (turns : Nat) (n : Option Nat) : R Bytes := do
  readLoop n turns
  let f ← get
  let n := n.getD f.input.length
  set { f with input := f.input.drop n }
  return f.input.take n

/-- The loop of `readline`; what it looks for is the first newline of the input. -/
def readlineLoop (n : Option Nat) : Nat → Option Nat → R (Option Nat)
  | 0, _ => throw .running
  | turns + 1, where_ => do
    let f ← get
    if where_ = none ∧ !f.eof ∧ n.all (f.input.length < ·) then
      fill FILL
      readlineLoop n turns ((← get).input.idxOf? 10)
    else return where_

/-- `readline`. -/
def readline (turns : Nat) (n : Option Nat) : R Bytes := do
  let where_ ← readlineLoop n turns ((← get).input.idxOf? 10)
  let f ← get
  let where_ := match where_ with
    | none => f.input.length
    | some i => i + 1  -- include the newline
  let where_ := match n with
    | some n => if where_ > n then n else where_
    | none => where_
  read turns (some where_)

/-- `next`; `none` is `StopIteration`. -/
def next (turns : Nat) : R (Option Bytes) := do
  let s ← readline turns none
  return if s = [] then none else some s

/-- The loop of `readlines`, and of everything else that goes over the lines. -/
def readlinesLoop (turns : Nat) : Nat → List Bytes → R (List Bytes)
  | 0, _ => throw .running
  | more + 1, lines => do
    match ← next turns with
    | none => return lines
    | some line => readlinesLoop turns more (lines ++ [line])

/-- `readlines`. -/
def readlines (turns : Nat) : R (List Bytes) := readlinesLoop turns turns []

end Hbackup.Script
