import Hbackup.Utils.IndexLine

/-!
# Reading files

`File` buffers what `readbytes` gives it; what a reader of the file sees is one sequence of bytes,
followed by the end of file or by the error that the next read reports.  `InFile` is that view of a
file opened for reading.
-/

namespace Hbackup

/-- A file opened for reading: the bytes not read yet, and the error reported behind them, if it is
not the end of file. -/
structure InFile where
  rest : Bytes
  fault : Option Exn

namespace InFile

/-- The loop of `File::getline`: the characters before a newline or the end of file, and whether it
was a newline. -/
def getlineLoop (fault : Option Exn) : Bytes → Bytes → Except Exn ((Bytes × Bool) × Bytes)
  | [], r =>
    match fault with
    | some e => .error e
    | none => .ok ((r, false), [])
  | c :: rest, r => if c = 10 then .ok ((r, true), rest) else getlineLoop fault rest (r ++ [c])

/-- `File::getline`; `none` is its result 0.  Characters without a newline behind them are a line
all the same. -/
def getline (f : InFile) : Except Exn (Option Bytes × InFile) := do
  let ((r, newline), rest) ← getlineLoop f.fault f.rest []
  return (if newline ∨ r.length ≠ 0 then some r else none, { f with rest })

/-- All the bytes of the file, read to its end in pieces: what the `getbytes` loops make of it. -/
def getall (f : InFile) : Except Exn Bytes :=
  match f.fault with
  | some e => .error e
  | none => .ok f.rest

end InFile

/-- `readIndexLine`; `none` is its result 0, for `[end]`. -/
def readIndexLine (f : InFile) : Except Exn (Option Details × InFile) := do
  let (line, f) ← f.getline
  match line with
  | none => .error (.badIndexFile (lit "unexpected end of file"))
  | some line =>
    if line = lit "[end]" then return (none, f)
    else
      let l ← parseIndexLine line
      return (some l, f)

/-- `while(readIndexLine(f, details)) body`; `raise` is how the program around it throws.  Every
line takes at least a byte off the file, so `f.rest.length + 1` turns are enough. -/
def whileReadIndexLine {m : Type → Type} [Monad m] (raise : Exn → m PUnit)
    (body : Details → m PUnit) : Nat → InFile → m PUnit
  | 0, _ => pure ⟨⟩
  | turns + 1, f =>
    match readIndexLine f with
    | .error e => raise e
    | .ok (none, _) => pure ⟨⟩
    | .ok (some details, f) => do
      body details
      whileReadIndexLine raise body turns f

/-- The turns that are enough for `f`. -/
def InFile.turns (f : InFile) : Nat := f.rest.length + 1

end Hbackup
