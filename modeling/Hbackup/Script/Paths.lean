import Hbackup.Basic

/-!
# Paths of the `hbackup` script

`hash_path` of the script `hbackup`, and `os.path.join` of the Python library, which it uses.
-/

namespace Hbackup.Script

/-- One step of `os.path.join`: an absolute path replaces what comes before it. -/
def join1 (path b : Bytes) : Bytes :=
  if b.head? = some 47 then b
  else if path = [] ∨ path.getLast? = some 47 then path ++ b
  else path ++ lit "/" ++ b

/-- `os.path.join(a, *p)`. -/
def join (a : Bytes) (p : List Bytes) : Bytes := p.foldl join1 a

/-- `h[i:j]`. -/
def slice (h : Bytes) (i j : Nat) : Bytes := (h.take j).drop i

/-- `repodir, repopath`. -/
def hash_path (repo type h : Bytes) : Bytes × Bytes :=
  let repodir := join repo [type, slice h 0 2, slice h 2 4]
  let repopath := join repodir [h]
  (repodir, repopath)

end Hbackup.Script
