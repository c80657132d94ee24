import Hbackup.Backup

/-!
# The class `Filesystem`

`makedirs` is not virtual: it is made of the virtual functions `exists` and `mkdir`.  Here it works on
any two such functions, among them those of the backup filesystem and those of a filesystem that does
what it is told.
-/

namespace Hbackup

/-- `Filesystem::makedirs`. -/
def Filesystem.makedirs {m : Type → Type} [Monad m] (exists_ : Bytes → m Bool)
    (mkdir : Bytes → m Unit) (path : Bytes) : m Unit := do
  if ← exists_ path then return
  else
    (parents path).forM fun dir => do
      if ← exists_ dir then return
      else mkdir dir
    mkdir path

/-- The backup filesystem inherits it. -/
theorem makedirs_eq (cfg : Config) (path : Bytes) :
    makedirs cfg path = Filesystem.makedirs (Backupfs.exists_ cfg) (Backupfs.mkdir cfg) path := rfl

namespace Store

/-! ### A filesystem that does what it is told -/

def exists_ (path : Bytes) : EStateM Errno Store Bool := return ((← get).lookup path).isSome

/-- Neither a directory that is there already nor one whose parent is missing can be made. -/
def mkdir (path : Bytes) : EStateM Errno Store Unit := do
  let s ← get
  if s.hasParent path = false then throw ENOENT
  else if (s.lookup path).isSome then throw EEXIST
  else set (s.insert path .dir)

end Store

end Hbackup
