import Hbackup.Backup
import Hbackup.Script.Index
import Hbackup.Script.Paths

/-!
# Backup with the `hbackup` script

`scan_files` of the script, with `urlencode` of the Python library and what it calls on the files to
be backed up and on the filesystem of the repository.  It writes a line for a file, and goes into a
directory as soon as its line has been written.
-/

namespace Hbackup.Script

/-! ### The Python library -/

/-- The characters that `quote` always leaves alone. -/
def alwaysSafe (c : UInt8) : Bool :=
  (65 ≤ c && c ≤ 90) || (97 ≤ c && c ≤ 122) || (48 ≤ c && c ≤ 57) || (lit "_.-").contains c

/-- `'%%%02X' % c`. -/
def percent02X (c : UInt8) : Bytes :=
  let digits := lit "0123456789ABCDEF"
  [37, digits.getD (c.toNat / 16) 0, digits.getD (c.toNat % 16) 0]

def quotePlusByte (c : UInt8) : Bytes :=
  if c = 32 then lit "+" else if alwaysSafe c then [c] else percent02X c

/-- `quote_plus`. -/
def quote_plus (s : Bytes) : Bytes := s.flatMap quotePlusByte

/-- `k + '=' + v`. -/
def quotedPart (kv : Bytes × Bytes) : Bytes := quote_plus kv.1 ++ 61 :: quote_plus kv.2

/-- `urlencode`, of a dictionary with these items. -/
def urlencode (items : Pairs) : Bytes := ([38] : Bytes).intercalate (items.map quotedPart)

/-! ### The surroundings -/

/-- What ends a scan. -/
inductive ScanError
  | osError
  | ioError
  | typeError
  | runtimeError
deriving DecidableEq, Repr

/-- The calls on `fs`, a filesystem with the states `σ`. -/
structure Fs (σ : Type) where
  isfile : Bytes → EStateM ScanError σ Bool
  makedirs : Bytes → EStateM ScanError σ Unit
  openWrite : Bytes → EStateM ScanError σ Unit
  write : Bytes → Bytes → EStateM ScanError σ Unit
  close : Bytes → EStateM ScanError σ Unit
  rename : Bytes → Bytes → EStateM ScanError σ Unit
  remove : Bytes → EStateM ScanError σ Unit

/-- The command line, and what a scan depends on. -/
structure Setup (σ : Type) where
  root : Bytes
  repo : Bytes
  index : Bytes
  cross_mounts : Bool
  preserve_atime : Bool
  rename_files : Bool
  excluded : Bytes → Bool
  /-- The files to be backed up. -/
  host : Host
  users : UserDb
  /-- `sha.sha()`, and its `hexdigest`. -/
  sha1 : Bytes → Hash
  fs : Fs σ
  /-- The items of a dictionary, in the order in which it gives them. -/
  items : Pairs → Pairs
  items_perm : ∀ details, (items details).Perm details

/-- The global variables, the text written to `ind`, and the state of `fs`. -/
structure Scanning (σ : Type) where
  fs : σ
  ind : Bytes := []
  uids : List (UInt32 × Bytes) := []
  gids : List (UInt32 × Bytes) := []

abbrev Scan (σ : Type) := EStateM ScanError (Scanning σ)

variable {σ : Type}

/-- A call on `fs`. -/
def onFs {α : Type} (x : EStateM ScanError σ α) : Scan σ α := fun s =>
  match x s.fs with
  | .ok a fs => .ok a { s with fs }
  | .error e fs => .error e { s with fs }

/-- `ind.write(line)`. -/
def writeIndex (c : Setup σ) (line : Bytes) : Scan σ Unit := do
  onFs (c.fs.write c.index line)
  modify fun s => { s with ind := s.ind ++ line }

/-- `os.listdir`. -/
def listdir (c : Setup σ) (path : Bytes) : Scan σ (List Bytes) :=
  match c.host.contents path with
  | .error _ => throw .osError
  | .ok names => return names.filter fun name => name ≠ lit "." ∧ name ≠ lit ".."

/-- `os.path.ismount`. -/
def ismount (c : Setup σ) (path : Bytes) : Bool :=
  match c.host.ismount path with
  | .error _ => false
  | .ok mount => mount

/-! ### Names and contents -/

/-- `uid2name`. -/
def uid2name (c : Setup σ) (uid : UInt32) : Scan σ Bytes := do
  match (← get).uids.lookup uid with
  | some name => return name
  | none =>
    let name := (c.users.getpwuid uid).getD (decimal uid.toNat)
    modify fun s => { s with uids := (uid, name) :: s.uids }
    return name

/-- `gid2name`. -/
def gid2name (c : Setup σ) (gid : UInt32) : Scan σ Bytes := do
  match (← get).gids.lookup gid with
  | some name => return name
  | none =>
    let name := (c.users.getgrgid gid).getD (decimal gid.toNat)
    modify fun s => { s with gids := (gid, name) :: s.gids }
    return name

/-- `sha1`, of a file to be backed up. -/
def sha1 (c : Setup σ) (path : Bytes) : Scan σ Bytes :=
  match c.host.data path with
  | .ok (data, none) => return hexencode (c.sha1 data).bytes
  | _ => throw .ioError

/-- The loop of `copy`: blocks of 4096 bytes are read, until there are no more. -/
def blocks : Nat → Bytes → List Bytes
  | 0, _ => []
  | turns + 1, data => if data = [] then [] else data.take 4096 :: blocks turns (data.drop 4096)

/-- `copy`, of a file to be backed up. -/
def copy (c : Setup σ) (src dest : Bytes) : Scan σ Unit :=
  match c.host.data src with
  | .error _ => throw .ioError
  | .ok (data, fault) => do
    onFs (c.fs.openWrite dest)
    (blocks data.length data).forM fun bytes => onFs (c.fs.write dest bytes)
    if fault.isSome then throw .ioError else onFs (c.fs.close dest)

/-- `copy_rip`. -/
def copy_rip (c : Setup σ) (src dest : Bytes) : Scan σ Unit :=
  if c.rename_files then do
    copy c src (dest ++ lit ".tmp")
    onFs (c.fs.rename (dest ++ lit ".tmp") dest)
  else
    tryCatch (copy c src dest) fun e => do
      onFs (c.fs.remove dest)
      throw e

/-! ### The scan -/

/-- The details of any file. -/
def commonDetails (rn uid gid : Bytes) (ls : Stat) : Pairs :=
  [(lit "perms", octal (ls.st_mode &&& 0o7777).toNat), (lit "name", rn), (lit "uid", uid),
    (lit "gid", gid), (lit "atime", signedDecimal ls.st_atime.toInt),
    (lit "ctime", signedDecimal ls.st_ctime.toInt), (lit "mtime", signedDecimal ls.st_mtime.toInt)]

/-- The details of a regular file with this hash. -/
def fileDetails (h : Bytes) (ls : Stat) : Pairs :=
  (HASH_NAME, h) :: if ls.st_nlink > 1 then [(lit "inode", decimal ls.st_ino.toNat)] else []

/-- A regular file is copied into the repository, if it is not there. -/
def saveFile (c : Setup σ) (fn : Bytes) (ls : Stat) : Scan σ Pairs := do
  let h ← sha1 c fn
  let repopath := (hash_path c.repo HASH_NAME h).2
  if ← onFs (c.fs.isfile repopath) then return fileDetails h ls
  else
    onFs (c.fs.makedirs (hash_path c.repo HASH_NAME h).1)
    copy_rip c fn repopath
    -- `os.times` takes no arguments
    if c.preserve_atime then throw .typeError else return fileDetails h ls

/-- The details that the type of the file adds; nothing if it cannot be saved. -/
def typeDetails (c : Setup σ) (fn : Bytes) (ls : Stat) : Scan σ (Option Pairs) := do
  if ls.is S_IFLNK then
    match c.host.readlink fn with
    | .error _ => throw .osError
    | .ok target => return some [(lit "type", lit "link"), (lit "target", target)]
  else if ls.is S_IFDIR then return some [(lit "type", lit "dir")]
  else if ls.is S_IFREG then return some (← saveFile c fn ls)
  else if ls.is S_IFCHR then
    return some [(lit "type", lit "chr"), (lit "rdev", decimal ls.st_rdev.toNat)]
  else if ls.is S_IFBLK then
    return some [(lit "type", lit "blk"), (lit "rdev", decimal ls.st_rdev.toNat)]
  else return none

/-- `rn`, without an initial `./`. -/
def relativeName (dir f : Bytes) : Bytes := if dir = lit "." then f else join dir [f]

/-- One turn of the loop over a directory; `scan` is the recursion into subdirectories. -/
def scanFile (c : Setup σ) (scan : Bytes → Scan σ Unit) (dir f : Bytes) : Scan σ Unit := do
  let rn := relativeName dir f
  if c.excluded rn then return
  else
    let fn := join c.root [rn]
    match c.host.lstat fn with
    | .error _ => throw .osError
    | .ok ls =>
      let uid ← uid2name c ls.st_uid
      let gid ← gid2name c ls.st_gid
      match ← typeDetails c fn ls with
      | none => return
      | some details =>
        writeIndex c (urlencode (c.items (commonDetails rn uid gid ls ++ details)) ++ lit "\n")
        if ls.is S_IFDIR && (c.cross_mounts || !ismount c fn) then scan rn else return

/-- `scan_files`; the interpreter limits the recursion. -/
def scan_files (c : Setup σ) : Nat → Bytes → Scan σ Unit
  | 0, _ => throw .runtimeError
  | depth + 1, dir => do
    let files ← listdir c (join c.root [dir])
    (files.insertionSort (· ≤ ·)).forM (scanFile c (scan_files c depth) dir)

/-- The scan of all files, and the end marker. -/
def writeIndexFile (c : Setup σ) (depth : Nat) : Scan σ Unit := do
  scan_files c depth (lit ".")
  writeIndex c (lit "[end]\n")

end Hbackup.Script
