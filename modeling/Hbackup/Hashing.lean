import Hbackup.Buffer
import Hbackup.Sha1

/-!
# `hash.cc`

The class `Hash`, which throws the errors of `sha1.c`, and `hashfile`, which maps a file of the local
filesystem into memory window by window, or reads a file of any filesystem.
-/

namespace Hbackup

/-! ### The class `Hash` -/

namespace Hash

/-- The constructor; what is in the memory of the context is left there. -/
def new (c : SHA1Context) : SHA1Context := SHA1Reset c

/-- `write`: the number of bytes goes to a parameter that is an `unsigned`. -/
def write (c : SHA1Context) (ptr : Bytes) (nbytes : Nat) : Except Exn SHA1Context :=
  let (e, c) := SHA1Input c ptr (UInt32.ofNat nbytes)
  if e ≠ 0 then .error (.hashError e) else .ok c

/-- `value`, of which the result stays in the object. -/
def value (c : SHA1Context) : Except Exn Bytes :=
  match (SHA1Result c).1 with
  | .error e => .error (.hashError e)
  | .ok result => .ok result

/-- A whole use of the class: the blocks are written one behind the other. -/
def ofBlocks (c : SHA1Context) (blocks : List Bytes) : Except Exn Bytes := do
  value (← blocks.foldlM (fun ho block => write ho block block.length) (new c))

end Hash

/-! ### `hashfile` -/

/-- `MAXMAP`. -/
def MAXMAP : Nat := 256 * 1024 * 1024

/-- The calls by which a file is mapped into memory. -/
structure Mapping where
  open_ : Except Exn Unit
  /-- `st_size`. -/
  fstat : Except Exn Nat
  /-- So many bytes from an offset on. -/
  mmap : Nat → Nat → Except Exn Bytes
  munmap : Nat → Nat → Except Exn Unit
  close : Except Exn Unit

/-- The loop over the windows. -/
def hashWindows (m : Mapping) (st_size n : Nat) (ho : SHA1Context) : Except Exn SHA1Context :=
  if n < st_size then do
    let left := st_size - n
    let size := if left > MAXMAP then MAXMAP else left
    let w ← m.mmap size n
    let ho ← Hash.write ho w size
    m.munmap size n
    hashWindows m st_size (n + size) ho
  else .ok ho
termination_by st_size - n
decreasing_by
  rw [MAXMAP]
  split <;> omega

/-- The path of `hashfile` for a local file. -/
def hashMapped (m : Mapping) (ho : SHA1Context) : Except Exn SHA1Context := do
  m.open_
  let st_size ← m.fstat
  let ho ← hashWindows m st_size 0 ho
  m.close
  return ho

/-- The loop of the other path. -/
def hashBlocks {δ : Type} (v : Virtual δ) (fuel : Nat) : Nat → SHA1Context → FileM δ SHA1Context
  | 0, _ => throw .running
  | turns + 1, ho => do
    let buffer ← File.getbytes v fuel 4096 false
    if buffer.length = 0 then return ho
    else
      match Hash.write ho buffer buffer.length with
      | .error e => throw (.exn e)
      | .ok ho => hashBlocks v fuel turns ho

/-- A value, or the exception as that of a file. -/
def orStop {α : Type} : Except Exn α → Except FileStop α
  | .error e => .error (.exn e)
  | .ok a => .ok a

/-- What comes of reading the file. -/
def afterReading {δ : Type} : EStateM.Result FileStop (File δ) SHA1Context → Except FileStop Bytes
  | .error e _ => .error e
  | .ok ho _ => orStop (Hash.value ho)

/-- `hashfile`: `mapped` and `opened` are how the file is seen by the one path and by the other, and
`c` is what is in the memory of `ho`. -/
def hashfile {δ : Type} (fs_is_local mmap_hint : Bool) (mapped : Mapping) (v : Virtual δ)
    (opened : Except Exn (File δ)) (fuel : Nat) (c : SHA1Context) : Except FileStop Bytes := do
  let ho := Hash.new c
  if fs_is_local && mmap_hint then
    let ho ← orStop (hashMapped mapped ho)
    orStop (Hash.value ho)
  else
    let f ← orStop opened
    afterReading (hashBlocks v fuel fuel ho f)

end Hbackup
