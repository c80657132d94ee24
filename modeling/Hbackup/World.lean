import Mathlib.Data.List.AList
import Hbackup.File
import Hbackup.Utils.Number

/-!
# The program and its surroundings

A command runs in `M`: it changes a `World` and may stop with a `Stop`.  Every filesystem call is a
tick of the clock; what the surroundings do at a tick is the `Moment` that the configuration's `env`
gives for it.  The process may be killed there, the call may fail, and, while a backup runs, the
files being backed up may be anything at all.  As the process may be killed at every tick, a
statement about the state in which a run stops covers every state it goes through.

The backup filesystem is a `Store`, a finite map from path names.  Different path names are taken to
name different files: there are no symbolic links or `..` in the paths the programs use there.
-/

namespace Hbackup

/-! ### The backup filesystem -/

/-- What there is at a path of the backup filesystem. -/
inductive Node
  | file (data : Bytes)
  | dir
  | other
deriving DecidableEq, Repr

abbrev Store := AList fun _ : Bytes => Node

/-- `string(path, 0, path.rfind('/'))`, or `none` without a `/`. -/
def dirname (path : Bytes) : Option Bytes :=
  (path.reverse.idxOf? 47).map fun i => path.take (path.length - (i + 1))

namespace Store

/-- The directory that an entry for `path` would be made in exists. -/
def hasParent (s : Store) (path : Bytes) : Bool :=
  match dirname path with
  | none => true
  | some d => d = [] || s.lookup d = some .dir

/-- The name in `dir` that `path` has, if it is directly in `dir`. -/
def childName (dir path : Bytes) : Option Bytes :=
  if (dir ++ lit "/").isPrefixOf path then
    let name := path.drop (dir.length + 1)
    if name = [] ∨ 47 ∈ name then none else some name
  else none

/-- The names in `dir`. -/
def children (s : Store) (dir : Bytes) : List Bytes := s.keys.filterMap (childName dir)

end Store

/-- `Filetype`. -/
inductive Filetype
  | RegularFile
  | Directory
  | UnknownFileType
deriving DecidableEq, Repr

/-! ### The filesystem that is restored to -/

/-- What kind of file an inode is. -/
inductive Body
  | file (data : Bytes)
  | dir
  | link (target : Bytes)
  | dev (type : UInt32) (rdev : UInt64)
  | socket
deriving DecidableEq, Repr

structure Inode where
  body : Body
  /-- The permission bits. -/
  mode : UInt32
  uid : UInt32
  gid : UInt32
  atime : Int64
  mtime : Int64
deriving DecidableEq, Repr

/-- Paths, and the inodes that they name: the numbers in `names` are places in `inodes`.  Two paths are
links to the same file if they have the same number.  A path is the list of the names on the way, from
the directory at which all of them start. -/
structure Target where
  names : AList fun _ : List Bytes => Nat := ∅
  inodes : List Inode := []

/-! ### The files being backed up -/

/-- `struct stat`, with 64-bit times and numbers. -/
structure Stat where
  st_mode : UInt32
  st_nlink : Nat
  st_uid : UInt32
  st_gid : UInt32
  st_dev : UInt64
  st_ino : UInt64
  st_rdev : UInt64
  st_size : Nat
  st_atime : Int64
  st_mtime : Int64
  st_ctime : Int64
deriving DecidableEq, Repr

/-- What calls on the host filesystem answer at one moment.  Reading a file gives its bytes, and an
error behind them if reading fails. -/
structure Host where
  contents : Bytes → Except Errno (List Bytes)
  lstat : Bytes → Except Errno Stat
  data : Bytes → Except Errno (Bytes × Option Errno)
  readlink : Bytes → Except Errno Bytes
  ismount : Bytes → Except Errno Bool
  utimes : Bytes → Except Errno Unit

/-- A path that cannot be read: opening it fails, or reading does after some bytes. -/
structure ReadFault where
  after : Option Nat
  errno : Errno

/-- What the surroundings do at one tick of the clock. -/
structure Moment where
  /-- The process is killed before the call is made. -/
  killed : Bool
  /-- The call fails. -/
  fault : Option Errno
  /-- How much of the block a failing write leaves in the file. -/
  written : Nat
  /-- Paths of the backup filesystem that cannot be read. -/
  reads : Bytes → Option ReadFault
  /-- An SFTP server answers the existence probes still unanswered from what it found when they
  arrived, not from what it finds now. -/
  early : Bool
  host : Host
  /-- The time. -/
  now : Int64 := 0
  /-- A write to a file that is being restored fails. -/
  full : Option Errno := none
  /-- Something on the filesystem that is restored to cannot be removed. -/
  stuck : Option Errno := none
  /-- Whether a symbolic link on the filesystem that is restored to leads to something. -/
  leads : Bytes → Bool := fun _ => false

/-- `getpwuid`, `getpwnam`, `getgrgid` and `getgrnam`. -/
structure UserDb where
  getpwuid : UInt32 → Option Bytes
  getpwnam : Bytes → Option UInt32
  getgrgid : UInt32 → Option Bytes
  getgrnam : Bytes → Option UInt32

/-- The command line. -/
structure Options where
  repo : Bytes
  root : Bytes
  indexfile : Bytes
  hintfile : Bytes
  crossfs : Bool
  preserve_atime : Bool
  overwrite_index : Bool
  permissions : Bool
  recheckhash : Bool
  detectbogus : Bool
  deleteclean : Bool
  /-- `backupfs` is an `SftpFilesystem`. -/
  sftp : Bool
  /-- `exclusions.excluded`. -/
  excluded : Bytes → Bool
  /-- `Recode::convert`. -/
  convert : Bytes → Bytes := id
  /-- What the process is: its owner, and the permission bits that its files don't get. -/
  euid : UInt32 := 0
  egid : UInt32 := 0
  umask : UInt32 := 0o022

/-- What a run depends on; `sha1` is the digest that `Hash` gives for everything written to it. -/
structure Config extends Options where
  sha1 : Bytes → Hash
  users : UserDb
  env : Nat → Moment

/-! ### State -/

/-- A `File` opened for writing; `buf` is what lies between `buffer` and `next`. -/
structure OFile where
  path : Bytes
  writing : Bool
  buf : Bytes

/-- A set of hashes. -/
abbrev HashSet := List Hash

namespace HashSet

def insert (s : HashSet) (h : Hash) : HashSet := if h ∈ s then s else h :: s

def has (s : HashSet) (h : Hash) : Bool := h ∈ s

@[simp] theorem mem_insert {s : HashSet} {h h' : Hash} : h' ∈ s.insert h ↔ h' = h ∨ h' ∈ s := by
  unfold insert
  split_ifs with hs
  · exact ⟨.inr, fun e => e.elim (fun e => e ▸ hs) id⟩
  · exact List.mem_cons

@[simp] theorem has_iff {s : HashSet} {h : Hash} : s.has h = true ↔ h ∈ s := by
  simp [has]

end HashSet

/-- `struct hint`, with the fields of `statdata` that are set. -/
structure Hint where
  hash : Hash
  st_ctime : Int64
  st_mtime : Int64
  st_size : UInt64

/-- The static tables of `utils.cc`. -/
structure Names where
  uid2names : List (UInt32 × Bytes) := []
  gid2names : List (UInt32 × Bytes) := []
  names2uid : List (Bytes × UInt32) := []
  names2gid : List (Bytes × UInt32) := []

/-- A call on a file that is being backed up that has to do with its access time. -/
inductive Access
  | lstat (path : Bytes) (sb : Stat)
  | read (path : Bytes)
  | utimes (path : Bytes) (atime mtime : Int64)
deriving DecidableEq, Repr

/-- Why a command stops early. -/
inductive Stop
  | killed
  /-- `fatal`: the message, and what its `%s`s stand for. -/
  | fatal (msg : String) (args : List Bytes)
  | exn (e : Exn)
  | assertion (what : String)
deriving DecidableEq

structure World where
  clock : Nat := 0
  /-- The backup filesystem. -/
  store : Store
  /-- The paths of the backup filesystem that this run has opened for writing or renamed a file
  to. -/
  written : List Bytes := []
  /-- The paths of the backup filesystem that this run has removed. -/
  removed : List Bytes := []
  /-- `existence_inflight`: the paths asked for, and whether they existed when they were. -/
  existence_inflight : List (Bytes × Bool) := []
  /-- `existence`. -/
  existence : List (Bytes × Bool) := []
  stdout : List Bytes := []
  errors : Nat := 0
  warnings : Nat := 0
  names : Names := {}
  inrepo : HashSet := []
  /-- The hint files, on the local filesystem. -/
  hintStore : Store := ∅
  hints : Option (List (Bytes × Hint)) := none
  newhints : Option OFile := none
  /-- The calls on the files being backed up, the last one first. -/
  accesses : List Access := []
  /-- The filesystem that is restored to. -/
  target : Target := {}

abbrev M := EStateM Stop World

/-! ### Calls -/

/-- One tick of the clock. -/
def tick (cfg : Config) : M Moment := do
  let w ← get
  set { w with clock := w.clock + 1 }
  let m := cfg.env w.clock
  if m.killed then throw .killed
  return m

def throwExn {α : Type} (e : Exn) : M α := throw (.exn e)

def fatal {α : Type} (msg : String) : M α := throw (.fatal msg [])

/-- `fatal` about a file. -/
def fatalf {α : Type} (msg : String) (path : Bytes) : M α := throw (.fatal msg [path])

/-- A call that fails if the moment says so. -/
def call (cfg : Config) (doing : String) (path : Bytes) : M Moment := do
  let m ← tick cfg
  match m.fault with
  | some e => throwExn (.fileError doing path e)
  | none => return m

/-- A call on a file that is being backed up is made. -/
def access (a : Access) : M Unit := modify fun w => { w with accesses := a :: w.accesses }

def warning : M Unit := modify fun w => { w with warnings := w.warnings + 1 }

def error : M Unit := modify fun w => { w with errors := w.errors + 1 }

/-- A computation on strings, as a part of a command. -/
def liftExcept {α : Type} : Except Exn α → M α
  | .ok a => return a
  | .error e => throwExn e

/-! ### `backupfs` -/

namespace Backupfs

/-- What `open(path, ReadOnly)` gives, and what can then be read. -/
def fileAt (reads : Bytes → Option ReadFault) (s : Store) (path : Bytes) : Except Exn InFile :=
  match reads path with
  | some ⟨none, e⟩ => .error (.fileError "opening" path e)
  | fault =>
    match s.lookup path with
    | some (.file data) =>
      match fault with
      | some ⟨some n, e⟩ => .ok ⟨data.take n, some (.fileError "reading" path e)⟩
      | _ => .ok ⟨data, none⟩
    | some .dir => .ok ⟨[], some (.fileError "reading" path EISDIR)⟩
    | some .other => .error (.fileError "opening" path EACCES)
    | none => .error (.fileError "opening" path ENOENT)

/-- `open(path, ReadOnly)`. -/
def openRead (cfg : Config) (path : Bytes) : M InFile := do
  let m ← tick cfg
  liftExcept (fileAt m.reads (← get).store path)

/-- `open(path, Overwrite)`. -/
def openWrite (cfg : Config) (path : Bytes) : M OFile := do
  let _ ← call cfg "opening" path
  let w ← get
  if w.store.hasParent path = false then throwExn (.fileError "opening" path ENOENT)
  else if w.store.lookup path = some .dir then throwExn (.fileError "opening" path EISDIR)
  else
    set { w with store := w.store.insert path (.file []), written := path :: w.written }
    return ⟨path, false, []⟩

/-- `writebytes`: the block goes to the end of the file; a write that fails may leave some of it
there. -/
def writebytes (cfg : Config) (path block : Bytes) : M Unit := do
  let m ← tick cfg
  let w ← get
  match w.store.lookup path with
  | some (.file data) =>
    match m.fault with
    | some e =>
      set { w with store := w.store.insert path (.file (data ++ block.take m.written)) }
      throwExn (.fileError "writing" path e)
    | none => set { w with store := w.store.insert path (.file (data ++ block)) }
  | _ => throwExn (.fileError "writing" path EACCES)

/-- `rename`, of a file. -/
def rename (cfg : Config) (oldpath newpath : Bytes) : M Unit := do
  let _ ← call cfg "renaming" oldpath
  let w ← get
  match w.store.lookup oldpath with
  | some (.file data) =>
    if w.store.lookup newpath = some .dir then throwExn (.fileError "renaming" oldpath EISDIR)
    else if w.store.hasParent newpath = false then throwExn (.fileError "renaming" oldpath ENOENT)
    else
      set { w with
        store := (w.store.erase oldpath).insert newpath (.file data)
        written := newpath :: w.written }
  | _ => throwExn (.fileError "renaming" oldpath ENOENT)

def remove (cfg : Config) (path : Bytes) : M Unit := do
  let _ ← call cfg "removing" path
  let w ← get
  match w.store.lookup path with
  | none => throwExn (.fileError "removing" path ENOENT)
  | some .dir =>
    if (w.store.children path).length ≠ 0 then throwExn (.fileError "removing" path ENOTEMPTY)
    set { w with store := w.store.erase path, removed := path :: w.removed }
  | some _ => set { w with store := w.store.erase path, removed := path :: w.removed }

def mkdir (cfg : Config) (path : Bytes) : M Unit := do
  let _ ← call cfg "creating directory" path
  let w ← get
  if w.store.hasParent path = false then throwExn (.fileError "creating directory" path ENOENT)
  else if (w.store.lookup path).isSome then throwExn (.fileError "creating directory" path EEXIST)
  else set { w with store := w.store.insert path .dir }

def contents (cfg : Config) (path : Bytes) : M (List Bytes) := do
  let _ ← call cfg "opening directory" path
  let w ← get
  match w.store.lookup path with
  | some .dir => return w.store.children path
  | some _ => throwExn (.fileError "opening directory" path ENOTDIR)
  | none => throwExn (.fileError "opening directory" path ENOENT)

def type (cfg : Config) (path : Bytes) : M Filetype := do
  let _ ← call cfg "lstat" path
  let w ← get
  match w.store.lookup path with
  | some (.file _) => return .RegularFile
  | some .dir => return .Directory
  | some .other => return .UnknownFileType
  | none => throwExn (.fileError "lstat" path ENOENT)

/-- `SftpFilesystem::prefigure_exists` sends a probe; `Filesystem::prefigure_exists` does
nothing. -/
def prefigure_exists (cfg : Config) (path : Bytes) : M Unit := do
  if cfg.sftp then
    let _ ← call cfg "sending" path
    modify fun w => { w with
      existence_inflight := w.existence_inflight ++ [(path, (w.store.lookup path).isSome)] }

/-- The loop of `SftpFilesystem::exists`: the answers to the probes in flight go to the cache.  Any
answer but `SSH_FXP_ATTRS` counts as absence. -/
def collectExistence (cfg : Config) : List (Bytes × Bool) → M Unit
  | [] => return
  | (path, before) :: rest => do
    let m ← tick cfg
    modify fun w =>
      let found := if m.early then before else (w.store.lookup path).isSome
      { w with
        existence := (path, found && m.fault.isNone) :: w.existence
        existence_inflight := rest }
    collectExistence cfg rest

/-- `exists`.  On SFTP the cached answer is used up; without one, a probe is sent and the wait for
its answer is the same loop again. -/
def exists_ (cfg : Config) (path : Bytes) : M Bool := do
  if cfg.sftp then
    collectExistence cfg (← get).existence_inflight
    match (← get).existence.lookup path with
    | some e =>
      modify fun w => { w with existence := w.existence.filter (·.1 ≠ path) }
      return e
    | none =>
      prefigure_exists cfg path
      collectExistence cfg (← get).existence_inflight
      let e := ((← get).existence.lookup path).getD false
      modify fun w => { w with existence := w.existence.filter (·.1 ≠ path) }
      return e
  else
    let _ ← call cfg "stat" path
    return ((← get).store.lookup path).isSome

end Backupfs

/-- A call on the local filesystem, where the hint files are. -/
def onLocal {α : Type} (m : M α) : M α := fun w =>
  match m { w with store := w.hintStore } with
  | .ok a w' => .ok a { w' with store := w.store, hintStore := w'.store, written := w.written }
  | .error e w' => .error e { w' with store := w.store, hintStore := w'.store, written := w.written }

/-! ### Files opened for writing -/

namespace OFile

/-- `File::flush`, for a file that `write` writes to. -/
def flush (write : Bytes → Bytes → M Unit) (f : OFile) : M OFile := do
  if f.writing ∧ f.buf.length ≠ 0 then write f.path f.buf
  return { f with writing := true, buf := [] }

/-- `File::put` of a character: the buffer holds 4096, and none before the first flush. -/
def put1 (write : Bytes → Bytes → M Unit) (f : OFile) (c : UInt8) : M OFile := do
  let f ← if !f.writing ∨ f.buf.length = 4096 then f.flush write else pure f
  return { f with buf := f.buf ++ [c] }

/-- `File::put` of a string. -/
def put (write : Bytes → Bytes → M Unit) (f : OFile) (s : Bytes) : M OFile :=
  s.foldlM (put1 write) f

end OFile

end Hbackup
