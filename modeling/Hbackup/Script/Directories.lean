import Hbackup.Basic

/-!
# Making directories in the `hbackup` script

`fsbase.makedirs`, and a filesystem for it to work on.  A directory is known by the names on the way to
it from the root; a path that does not start at the root starts at the working directory.
-/

namespace Hbackup.Script

/-! ### The filesystem -/

inductive Kind
  | dir
  | other
deriving DecidableEq, Repr

/-- What there is; everything is in a directory. -/
structure Places where
  kind : List Bytes → Option Kind
  root : kind [] = some .dir
  closed : ∀ q name, kind (q ++ [name]) ≠ none → kind q = some .dir

/-- Where a component leads from `q`. -/
def step (q : List Bytes) (c : Bytes) : List Bytes :=
  if c = [] ∨ c = lit "." then q
  else if c = lit ".." then q.dropLast
  else q ++ [c]

/-- Where a path comes by, from its start to its end. -/
def onTheWay (cwd : List Bytes) (path : Bytes) : List (List Bytes) :=
  (path.splitOn 47).scanl step (if path.head? = some 47 then [] else cwd)

namespace Places

def isDirAt (t : Places) (q : List Bytes) : Bool := t.kind q = some .dir

/-- A directory is made at `q`, if there is none and one to make it in. -/
def add (t : Places) (q : List Bytes) : Places where
  kind q' := if q' = q ∧ t.kind q = none ∧ t.kind q.dropLast = some .dir then some .dir else t.kind q'
  root := by
    split
    · rfl
    · exact t.root
  closed := by
    intro q' name h
    by_cases hnew : q' ++ [name] = q ∧ t.kind q = none ∧ t.kind q.dropLast = some .dir
    · obtain ⟨rfl, -, hdir⟩ := hnew
      rw [List.dropLast_concat] at hdir
      rw [hdir]
      split <;> rfl
    · rw [if_neg hnew] at h
      rw [t.closed q' name h]
      split <;> rfl

end Places

/-- `os.path.isdir`: every step of the way leads to a directory. -/
def isdir (cwd : List Bytes) (path : Bytes) : EStateM Errno Places Bool :=
  return path ≠ [] ∧ (onTheWay cwd path).all (← get).isDirAt

/-- `os.mkdir`. -/
def mkdir (cwd : List Bytes) (path : Bytes) : EStateM Errno Places Unit := do
  let t ← get
  if (onTheWay cwd path).dropLast.all t.isDirAt then
    let q := (onTheWay cwd path).getLastD []
    if t.kind q = none then set (t.add q) else throw EEXIST
  else throw ENOENT

/-! ### `fsbase` -/

/-- One turn of the loop of `makedirs`. -/
def makedirsTurn (cwd : List Bytes) (bits bit : Bytes) : EStateM Errno Places Bytes := do
  let bits := bits ++ (lit "/" ++ bit)
  if ← isdir cwd bits then return bits
  else
    mkdir cwd bits
    return bits

/-- `fsbase.makedirs`. -/
def makedirs (cwd : List Bytes) (path : Bytes) : EStateM Errno Places Unit := do
  if ← isdir cwd path then return
  else
    let _ ← ((path.splitOn 47).drop 1).foldlM (makedirsTurn cwd) []
    return

end Hbackup.Script
