import Hbackup.Backup
import Hbackup.Buffer

/-!
# The filesystem that is restored to

The calls of `LocalFilesystem` and `LocalFile` that `do_restore` makes on `hostfs`, which is always
`local`.  What a call does to the names and inodes is a function on `Target`, or the error that it
gives; in `M` it may also fail at any moment.  A path ends at its first zero byte.

Nothing is looked up through a symbolic link, and `..` is a name like any other.
-/

namespace Hbackup

def EPERM : Errno := 1
def ENXIO : Errno := 6
def EBADF : Errno := 9
def EBUSY : Errno := 16
def ELOOP : Errno := 40

/-- The names on the way. -/
def components (path : Bytes) : List Bytes :=
  ((cstr path).splitOn 47).filter fun name => name ≠ [] ∧ name ≠ lit "."

namespace Target

/-! ### Looking at names -/

/-- The inode that a path names. -/
def get (t : Target) (path : List Bytes) : Option Inode :=
  (t.names.lookup path).bind fun i => t.inodes[i]?

/-- The path names a directory; where all paths start there is one. -/
def isDir (t : Target) (path : List Bytes) : Bool :=
  path = [] || match t.get path with
    | some ino => ino.body = .dir
    | none => false

/-- The directory that an entry for `path` would be made in exists. -/
def hasParent (t : Target) (path : List Bytes) : Bool := t.isDir path.dropLast

/-- What is in `dir`. -/
def children (t : Target) (dir : List Bytes) : List (List Bytes) :=
  t.names.keys.filter fun q => q ≠ [] ∧ q.dropLast = dir

/-- Why a path names nothing: something on the way is not a directory, or is missing. -/
def missing (t : Target) (path : List Bytes) : Errno :=
  if path.dropLast.inits.any fun d => (t.names.lookup d).isSome && !t.isDir d then ENOTDIR else ENOENT

/-! ### Changing them -/

/-- The inode `i` is changed. -/
def update (t : Target) (i : Nat) (f : Inode → Inode) : Target :=
  { t with inodes := t.inodes.modify i f }

/-- The directory of `path` has been changed. -/
def touch (t : Target) (now : Int64) (path : List Bytes) : Target :=
  match t.names.lookup path.dropLast with
  | some i => t.update i fun ino => { ino with mtime := now }
  | none => t

/-- Something new, under the name `path`. -/
def create (t : Target) (now : Int64) (path : List Bytes) (ino : Inode) : Except Errno Target :=
  if t.hasParent path = false then .error (t.missing path)
  else if path = [] ∨ (t.names.lookup path).isSome then .error EEXIST
  else
    let t' : Target := { names := t.names.insert path t.inodes.length, inodes := t.inodes ++ [ino] }
    .ok (t'.touch now path)

def remove (t : Target) (now : Int64) (path : List Bytes) : Except Errno Target :=
  if (t.names.lookup path).isNone then .error (t.missing path)
  else if t.isDir path ∧ t.children path ≠ [] then .error ENOTEMPTY
  else .ok ({ t with names := t.names.erase path }.touch now path)

/-- `open` with `O_WRONLY|O_CREAT|O_TRUNC`: the inode, which `new` is if there is none yet. -/
def openWrite (t : Target) (now : Int64) (path : List Bytes) (new : Inode) :
    Except Errno (Nat × Target) :=
  match t.names.lookup path with
  | none => (t.create now path new).map fun t' => (t.inodes.length, t')
  | some i =>
    match (t.get path).map Inode.body with
    | some (.file _) => .ok (i, t.update i fun ino => { ino with body := .file [], mtime := now })
    | some (.dev _ _) => .ok (i, t)
    | some .dir => .error EISDIR
    | some .socket => .error ENXIO
    | _ => .error ELOOP

/-- A block goes to the end of a file. -/
def append (t : Target) (now : Int64) (i : Nat) (block : Bytes) : Target :=
  t.update i fun ino =>
    match ino.body with
    | .file data => { ino with body := .file (data ++ block), mtime := now }
    | _ => ino

def link (t : Target) (now : Int64) (oldpath newpath : List Bytes) : Except Errno Target :=
  match t.names.lookup oldpath with
  | none => .error (t.missing oldpath)
  | some i =>
    if t.isDir oldpath then .error EPERM
    else if t.hasParent newpath = false then .error (t.missing newpath)
    else if newpath = [] ∨ (t.names.lookup newpath).isSome then .error EEXIST
    else .ok ({ t with names := t.names.insert newpath i }.touch now newpath)

/-- The name `oldpath` becomes `newpath`.  A directory that has entries is not moved. -/
def move (t : Target) (now : Int64) (i : Nat) (oldpath newpath : List Bytes) : Except Errno Target :=
  if t.isDir oldpath ∧ t.children oldpath ≠ [] then .error ENOTEMPTY
  else .ok (({ t with names := (t.names.erase oldpath).insert newpath i }.touch now oldpath).touch now
    newpath)

def rename (t : Target) (now : Int64) (oldpath newpath : List Bytes) : Except Errno Target :=
  match t.names.lookup oldpath with
  | none => .error (t.missing oldpath)
  | some i =>
    if t.hasParent newpath = false then .error (t.missing newpath)
    else if newpath = [] then .error EBUSY
    else
      match t.names.lookup newpath with
      | none => t.move now i oldpath newpath
      | some j =>
        -- two links to one file: nothing is done
        if i = j then .ok t
        else if t.isDir newpath ∧ t.isDir oldpath = false then .error EISDIR
        else if t.isDir newpath = false ∧ t.isDir oldpath then .error ENOTDIR
        else if t.isDir newpath ∧ t.children newpath ≠ [] then .error ENOTEMPTY
        else t.move now i oldpath newpath

/-- The inode that `path` names is changed. -/
def change (t : Target) (path : List Bytes) (f : Inode → Inode) : Except Errno Target :=
  match t.names.lookup path with
  | none => .error (t.missing path)
  | some i => .ok (t.update i f)

/-- A change of owner takes the set-user-ID and set-group-ID bits away, but not from a directory. -/
def lchown (t : Target) (path : List Bytes) (uid gid : UInt32) : Except Errno Target :=
  t.change path fun ino =>
    { ino with uid, gid, mode := if ino.body = .dir then ino.mode else ino.mode &&& 0o1777 }

def chmod (t : Target) (path : List Bytes) (mode : UInt32) : Except Errno Target :=
  t.change path fun ino => { ino with mode := mode &&& 0o7777 }

def utimes (t : Target) (path : List Bytes) (atime mtime : Int64) : Except Errno Target :=
  t.change path fun ino => { ino with atime, mtime }

end Target

/-! ### Calls -/

namespace Hostfs

/-- The filesystem is changed, or an error is given. -/
def apply (doing : String) (path : Bytes) (f : Target → Except Errno Target) : M Unit := do
  match f (← get).target with
  | .error e => throwExn (.fileError doing path e)
  | .ok target => modify fun w => { w with target }

/-- A call that changes the filesystem. -/
def change (cfg : Config) (doing : String) (path : Bytes) (f : Int64 → Target → Except Errno Target) :
    M Unit := do
  let m ← call cfg doing path
  apply doing path (f m.now)

/-- A new file of the process. -/
def newInode (cfg : Config) (now : Int64) (body : Body) (mode : UInt32) : Inode where
  body
  mode := mode &&& 0o7777
  uid := cfg.euid
  gid := cfg.egid
  atime := now
  mtime := now

/-- The permission bits of a new file. -/
def masked (cfg : Config) (mode : UInt32) : UInt32 := mode &&& ~~~cfg.umask

def rename (cfg : Config) (oldpath newpath : Bytes) : M Unit :=
  change cfg "renaming" oldpath fun now t => t.rename now (components oldpath) (components newpath)

def link (cfg : Config) (oldpath newpath : Bytes) : M Unit :=
  change cfg "linking" oldpath fun now t => t.link now (components oldpath) (components newpath)

def remove (cfg : Config) (path : Bytes) : M Unit := do
  let m ← tick cfg
  match m.stuck with
  | some e => throwExn (.fileError "removing" path e)
  | none => apply "removing" path fun t => t.remove m.now (components path)

def mkdir (cfg : Config) (path : Bytes) (mode : UInt32) : M Unit :=
  change cfg "creating directory" path fun now t =>
    t.create now (components path) (newInode cfg now .dir (masked cfg mode))

/-- `mknod`; only devices are made. -/
def mknod (cfg : Config) (path : Bytes) (mode : UInt32) (dev : UInt64) : M Unit :=
  change cfg "creating device" path fun now t =>
    let type := mode &&& S_IFMT
    if type = S_IFCHR ∨ type = S_IFBLK then
      t.create now (components path) (newInode cfg now (.dev type dev) (masked cfg mode))
    else .error EINVAL

def lchown (cfg : Config) (path : Bytes) (uid gid : UInt32) : M Unit :=
  change cfg "changing ownership of" path fun _ t => t.lchown (components path) uid gid

def chmod (cfg : Config) (path : Bytes) (mode : UInt32) : M Unit :=
  change cfg "changing permissions of" path fun _ t => t.chmod (components path) mode

def symlink (cfg : Config) (target path : Bytes) : M Unit :=
  change cfg "creating symlink" path fun now t =>
    t.create now (components path) (newInode cfg now (.link (cstr target)) 0o777)

def utimes (cfg : Config) (path : Bytes) (atime mtime : Int64) : M Unit :=
  change cfg "setting file times" path fun _ t => t.utimes (components path) atime mtime

/-- `bind`. -/
def bind (cfg : Config) (path : Bytes) : M Unit :=
  change cfg "binding" path fun now t =>
    t.create now (components path) (newInode cfg now .socket (masked cfg 0o777))

def exists_ (cfg : Config) (path : Bytes) : M Bool := do
  let m ← call cfg "stat" path
  let t := (← get).target
  if t.isDir (components path) then return true
  else
    match (t.get (components path)).map Inode.body with
    | some (.link _) => return m.leads (cstr path)
    | some _ =>
      -- a file is no directory
      if (cstr path).getLast? = some 47 then throwExn (.fileError "stat" path ENOTDIR)
      else return true
    | none =>
      if t.missing (components path) = ENOENT then return false
      else throwExn (.fileError "stat" path (t.missing (components path)))

/-! ### Files -/

/-- `open(path, Overwrite)`: the inode that is written to. -/
def openWrite (cfg : Config) (path : Bytes) : M Nat := do
  let m ← call cfg "opening" path
  match (← get).target.openWrite m.now (components path)
      (newInode cfg m.now (.file []) (masked cfg 0o666)) with
  | .error e => throwExn (.fileError "opening" path e)
  | .ok (i, target) =>
    modify fun w => { w with target }
    return i

/-- `LocalFile::writebytes`: the block goes to the end of the file; a write that fails may leave some
of it there. -/
def writebytes (cfg : Config) (path : Bytes) (i : Nat) (block : Bytes) : M Unit := do
  let m ← tick cfg
  match m.full with
  | some e =>
    modify fun w => { w with target := w.target.append m.now i (block.take m.written) }
    throwExn (.fileError "writing" path e)
  | none => modify fun w => { w with target := w.target.append m.now i block }

/-- What has stopped a call, inside a virtual function of `File`. -/
def inFile : Stop → FileStop
  | .exn e => .exn e
  | .assertion what => .assertion what
  | _ => .killed

/-- A call, as a virtual function of `File`. -/
def asVirtual {α : Type} (m : M α) : EStateM FileStop World α := fun w =>
  match m w with
  | .ok a w' => .ok a w'
  | .error stop w' => .error (inFile stop) w'

/-- The virtual functions of a file opened with `Overwrite`. -/
def virtual (cfg : Config) (path : Bytes) (i : Nat) : Virtual World where
  readbytes _ := throw (.exn (.fileError "reading" path EBADF))
  writebytes block := asVirtual (writebytes cfg path i block)
  synchronize := return

/-- What the assertion in `~File` says. -/
def emptied : String := "next == buffer"

/-- `File *f = open(..); try { body } catch(...) { delete f; throw; } delete f;` — the file is deleted
when `body` has ended, whatever has ended it. -/
def withFile (body : FileM World Unit) : M Unit := fun w =>
  match body { dev := w } with
  | .ok _ f => if f.destructible then .ok () f.dev else .error (.assertion emptied) f.dev
  | .error (.exn e) f =>
    if f.destructible then .error (.exn e) f.dev else .error (.assertion emptied) f.dev
  | .error (.assertion what) f => .error (.assertion what) f.dev
  | .error _ f => .error .killed f.dev

end Hostfs

end Hbackup
