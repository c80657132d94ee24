import Hbackup.Basic

/-!
# The class `File`

`File` of `file.cc` keeps a buffer between its callers and the virtual functions that move the
bytes.  Here it is a state of its own, around the state `δ` of the device behind it, so that what is
in the buffer when a virtual function throws is still there for the destructor.

`next` and `top` are replaced by what lies between them: the bytes that have been read and not yet
returned or, in a file that is being written, those between `buffer` and `next`.
-/

namespace Hbackup

/-- `sizeof buffer`. -/
def BUFFER_SIZE : Nat := 4096

/-- `mode`. -/
inductive FileMode
  | none
  | reading
  | writing
deriving DecidableEq, Repr

/-- Why a function does not return: an exception, a failed assertion, the end of the process, or not
within the turns that were allowed. -/
inductive FileStop
  | exn (e : Exn)
  | assertion (what : String)
  | killed
  | running
deriving DecidableEq, Repr

/-- A `File`; `buf` lies between `next` and `top` or, in a file that is being written, between
`buffer` and `next`. -/
structure File (δ : Type) where
  mode : FileMode := .none
  eof : Bool := false
  buf : Bytes := []
  dev : δ

/-- The virtual functions. -/
structure Virtual (δ : Type) where
  /-- Read up to so many bytes. -/
  readbytes : Nat → EStateM FileStop δ Bytes
  writebytes : Bytes → EStateM FileStop δ Unit
  synchronize : EStateM FileStop δ Unit

abbrev FileM (δ : Type) := EStateM FileStop (File δ)

namespace File

variable {δ : Type} (v : Virtual δ)

/-- A call of a virtual function. -/
def onDevice {α : Type} (m : EStateM FileStop δ α) : FileM δ α := fun f =>
  match m f.dev with
  | .ok a dev => .ok a { f with dev }
  | .error e dev => .error e { f with dev }

/-- `assert`. -/
def require (c : Bool) (what : String) : FileM δ Unit := if c then return else throw (.assertion what)

/-- The assertion in `~File`. -/
def destructible (f : File δ) : Bool := f.mode ≠ .writing || f.buf.length = 0

/-! ### Reading -/

/-- `fill`. -/
def fill : FileM δ Nat := do
  require ((← get).mode ≠ .writing) "mode != writing"
  modify fun f => { f with mode := .reading }
  if (← get).eof then return 0
  else
    let bytes ← onDevice (v.readbytes BUFFER_SIZE)
    modify fun f => { f with buf := bytes, eof := bytes.length = 0 }
    return bytes.length

/-- `fill`, if there is need for it; 0 is the end of the file. -/
def fillIf (c : Bool) : FileM δ Nat := if c then fill v else return 1

/-- `getch`; `none` is `EOF`. -/
def getch : FileM δ (Option UInt8) := do
  let n ← fillIf v ((← get).buf.length = 0)
  if n = 0 then return none
  else
    match (← get).buf with
    | [] => return none
    | c :: buf =>
      modify fun f => { f with buf }
      return some c

/-- The loop of `getline`, and whether it ended at a newline. -/
def getlineLoop : Nat → Bytes → FileM δ (Bytes × Bool)
  | 0, _ => throw .running
  | turns + 1, r => do
    match ← getch v with
    | none => return (r, false)
    | some c => if c = 10 then return (r, true) else getlineLoop turns (r ++ [c])

/-- `getline`; `none` is its result 0. -/
def getline (turns : Nat) : FileM δ (Option Bytes) := do
  let (r, newline) ← getlineLoop v turns []
  return if newline ∨ r.length ≠ 0 then some r else none

/-- What one turn of the loop of `getbytes` copies to `dst`. -/
def getpiece (max : Nat) : FileM δ Bytes := do
  let f ← get
  if f.buf.length ≠ 0 then
    -- there's data left in the buffer
    modify fun f => { f with buf := f.buf.drop max }
    return f.buf.take max
  else
    -- bypass buffering for large reads
    onDevice (v.readbytes max)

/-- The loop of `getbytes`. -/
def getbytesLoop (all : Bool) : Nat → Nat → Bytes → FileM δ Bytes
  | 0, _, _ => throw .running
  | turns + 1, max, dst => do
    let f ← get
    -- the buffer is empty, and we're doing a small read: arrange for the buffer not to be empty
    let filled ← fillIf v (f.buf.length = 0 ∧ max < BUFFER_SIZE ∧ !f.eof)
    if filled = 0 then return dst
    else
      let bytes ← getpiece v max
      modify fun f => { f with eof := f.eof || bytes.length = 0 }
      if all ∧ !(← get).eof ∧ max - bytes.length > 0 then
        getbytesLoop all turns (max - bytes.length) (dst ++ bytes)
      else return dst ++ bytes

/-- `getbytes`. -/
def getbytes (turns max : Nat) (all : Bool) : FileM δ Bytes := do
  let filled ← fillIf v ((← get).mode ≠ .reading)
  if filled = 0 then return [] else getbytesLoop v all turns max []

/-! ### Writing -/

/-- What is in the buffer of a file that is being written goes to the device. -/
def writeBuffer : FileM δ Unit := do
  let f ← get
  if f.mode = .writing ∧ f.buf.length ≠ 0 then onDevice (v.writebytes f.buf) else return

/-- `flush`. -/
def flush : FileM δ Unit := do
  require ((← get).mode ≠ .reading) "mode != reading"
  writeBuffer v
  modify fun f => { f with mode := .writing, buf := [] }
  onDevice v.synchronize

/-- `next == top`; both are 0 before the first flush. -/
def atTop (f : File δ) : Bool :=
  match f.mode with
  | .none => true
  | .reading => f.buf.length = 0
  | .writing => f.buf.length = BUFFER_SIZE

/-- `if(next == top) flush()`. -/
def makeRoom : FileM δ Unit := do
  if (← get).atTop then flush v else return

/-- `put` of a character.  In a file that is being read it would take the place of the next one. -/
def putc (c : UInt8) : FileM δ Unit := do
  makeRoom v
  modify fun f => { f with buf := if f.mode = .reading then f.buf.drop 1 else f.buf ++ [c] }

/-- `put` of a block. -/
def put (s : Bytes) : FileM δ Unit := s.forM (putc v)

/-- `putf`, of a text that has been formatted. -/
def putf (s : Bytes) : FileM δ Unit := put v s

end File

end Hbackup
