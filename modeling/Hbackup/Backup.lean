import Mathlib.Data.List.Sort
import Hbackup.Utils.Names

/-!
# Backup

`do_backup` and `backup_dir` of `backup.cc`.  The names in a directory are sorted, a line goes to the
index for each, the contents that the repository does not have yet are copied into it at the end of
the directory, and then come the subdirectories.
-/

namespace Hbackup

/-- `STORE_LIMIT`. -/
def STORE_LIMIT : Nat := 256

/-- `MAXLINKSIZE`. -/
def MAXLINKSIZE : Nat := 8192

def ENAMETOOLONG : Errno := 36

/-! ### File types -/

def S_IFMT : UInt32 := 0o170000
def S_IFREG : UInt32 := 0o100000
def S_IFDIR : UInt32 := 0o040000
def S_IFLNK : UInt32 := 0o120000
def S_IFCHR : UInt32 := 0o020000
def S_IFBLK : UInt32 := 0o060000
def S_IFSOCK : UInt32 := 0o140000

/-- `S_ISREG`, `S_ISDIR`, … : the mode's type is `type`. -/
def Stat.is (sb : Stat) (type : UInt32) : Bool := sb.st_mode &&& S_IFMT = type

/-- The types that are backed up. -/
def Stat.known (sb : Stat) : Bool :=
  [S_IFREG, S_IFDIR, S_IFLNK, S_IFCHR, S_IFBLK, S_IFSOCK].any sb.is

instance : Inhabited Stat := ⟨⟨0, 0, 0, 0, 0, 0, 0, 0, 0, 0, 0⟩⟩

/-- `(unsigned long long)t`, printed. -/
def putTime (t : Int64) : Bytes := decimal t.toUInt64.toNat

/-! ### Hints -/

/-- The text of a file on the local filesystem. -/
def readHints (cfg : Config) : M InFile :=
  onLocal do
    let _ ← call cfg "opening" cfg.hintfile
    liftExcept (Backupfs.fileAt (fun _ => none) (← get).store cfg.hintfile)

/-- One turn of the loop of `load_hints`. -/
def loadHint (hintdetails : Details) : M PUnit := do
  let hash ← liftExcept (hashdecode (hintdetails.get HASH_NAME))
  let h : Hint := {
    hash
    st_ctime := (strtoull (hintdetails.get (lit "ctime"))).toInt64
    st_mtime := (strtoull (hintdetails.get (lit "mtime"))).toInt64
    st_size := strtoull (hintdetails.get (lit "size")) }
  modify fun w => { w with
    hints := w.hints.map fun hints => (hintdetails.get (lit "name"), h) :: hints }

def load_hints (cfg : Config) : M Unit := do
  let found ← onLocal do
    let _ ← call cfg "stat" cfg.hintfile
    return ((← get).store.lookup cfg.hintfile).isSome
  if found then
    let f ← readHints cfg
    whileReadIndexLine throwExn loadHint f.turns f

/-- `local.open` of the new hint file. -/
def openHints (cfg : Config) : M Unit := do
  let o ← onLocal (Backupfs.openWrite cfg (cfg.hintfile ++ lit ".tmp"))
  modify fun w => { w with newhints := some o }

/-- `newhints->put`, if there is a hint file. -/
def putHints (cfg : Config) (text : Bytes) : M Unit := do
  match (← get).newhints with
  | none => return
  | some o =>
    let o ← o.put (fun path block => onLocal (Backupfs.writebytes cfg path block)) text
    modify fun w => { w with newhints := some o }

/-- The end of the new hint file, which then takes the place of the old one. -/
def finishHints (cfg : Config) : M Unit := do
  putHints cfg (lit "[end]\n")
  match (← get).newhints with
  | none => return
  | some o =>
    let o ← o.flush fun path block => onLocal (Backupfs.writebytes cfg path block)
    modify fun w => { w with newhints := some o }
    onLocal (Backupfs.rename cfg (cfg.hintfile ++ lit ".tmp") cfg.hintfile)

/-! ### The files of a directory -/

/-- `localname`. -/
def localname (dir name : Bytes) : Bytes :=
  if dir = lit "." then name else dir ++ lit "/" ++ name

/-- `fulldir`. -/
def fulldir (root dir : Bytes) : Bytes :=
  root ++ if dir = lit "." then [] else lit "/" ++ dir

/-- `fullname`, and the path that an index line names. -/
def fullname (root localname : Bytes) : Bytes := root ++ lit "/" ++ localname

/-- The loop over the contents of the directory: the files to be backed up, with what `lstat` says
about them. -/
def statFiles (cfg : Config) (dir : Bytes) : List Bytes → M (List (Bytes × Stat))
  | [] => return []
  | name :: c => do
    let path := fullname cfg.root (localname dir name)
    -- skip infra links and excluded files
    if name = lit "." ∨ name = lit ".." then statFiles cfg dir c
    else if cfg.excluded (localname dir name) then statFiles cfg dir c
    else
      let m ← tick cfg
      match m.host.lstat path with
      | .error e =>
        if e = ENOENT then
          warning
          statFiles cfg dir c
        else throwExn (.fileError "lstat" path e)
      | .ok sb =>
        access (.lstat path sb)
        if sb.known then
          let files ← statFiles cfg dir c
          return (name, sb) :: files
        else
          warning
          statFiles cfg dir c

/-- `s[name]`: what was assigned last. -/
def statOf (files : List (Bytes × Stat)) (name : Bytes) : Stat :=
  (files.reverse.lookup name).getD default

/-! ### One file -/

/-- `hashable`. -/
structure Hashable where
  path : Bytes
  hp : Bytes
  hash : Hash

/-- The variables of the loop over a directory. -/
structure Progress where
  index : OFile
  first : Bool := true
  hashables : List Hashable := []
  dirs : List Bytes := []

/-- How the name is represented. -/
def relname (first : Bool) (localname : Bytes) : Bytes :=
  if first then localname
  else
    match localname.reverse.idxOf? 47 with
    | some i => lit "./" ++ localname.drop (localname.length - i)
    | none => localname

/-- A file is read, up to the first `space` bytes. -/
def readHost (path : Bytes) (space : Nat) : M Unit :=
  -- no call is made for no bytes
  if space = 0 then return else access (.read path)

/-- The bytes of a small file. -/
def smallFile (cfg : Config) (path : Bytes) (sb : Stat) : M Bytes := do
  let m ← tick cfg
  match m.host.data path with
  | .error e => throwExn (.fileError "opening" path e)
  | .ok (data, fault) =>
    readHost path sb.st_size
    if sb.st_size ≤ data.length then return data.take sb.st_size
    else
      match fault with
      | some e => throwExn (.fileError "reading" path e)
      | none => fatalf "unexpected EOF reading %s" path

/-- `hashfile`, for a file that is being backed up. -/
def hashHostFile (cfg : Config) (path : Bytes) : M Hash := do
  let m ← tick cfg
  match m.host.data path with
  | .error e => throwExn (.fileError "opening" path e)
  | .ok (data, fault) =>
    access (.read path)
    match fault with
    | some e => throwExn (.fileError "reading" path e)
    | none => return cfg.sha1 data

/-- The hint for `path`, if the file hasn't changed since it was made. -/
def findHint (hints : Option (List (Bytes × Hint))) (path : Bytes) (sb : Stat) : Option Hash :=
  match hints.bind (List.lookup path) with
  | none => none
  | some h =>
    if h.st_size.toNat = sb.st_size ∧ h.st_mtime = sb.st_mtime ∧ h.st_ctime = sb.st_ctime then
      some h.hash
    else none

/-- The hash of a large file, from a hint or from its contents. -/
def hashOf (cfg : Config) (path : Bytes) (sb : Stat) : M Hash := do
  match findHint (← get).hints path sb with
  | some h => return h
  | none => hashHostFile cfg path

/-- The line that is stashed in the new hint file. -/
def hintLine (path : Bytes) (h : Hash) (sb : Stat) : Bytes :=
  lit "name=" ++ urlencode path ++ lit "&" ++ HASH_NAME ++ lit "=" ++ hexencode h.bytes ++
    lit "&ctime=" ++ putTime sb.st_ctime ++ lit "&mtime=" ++ putTime sb.st_mtime ++
    lit "&size=" ++ decimal sb.st_size ++ lit "\n"

/-- See if we've got `h`; if not, it is queued. -/
def queueHash (cfg : Config) (path : Bytes) (h : Hash) : M (List Hashable) := do
  if (← get).inrepo.has h then return []
  else
    Backupfs.prefigure_exists cfg (objectPath cfg.repo h)
    modify fun w => { w with inrepo := w.inrepo.insert h }
    return [⟨path, objectPath cfg.repo h, h⟩]

/-- The contents of a regular file, or their hash: what goes into the index, and what is queued. -/
def contentsOf (cfg : Config) (path : Bytes) (sb : Stat) : M (Bytes × List Hashable) := do
  if sb.st_size ≤ STORE_LIMIT then
    -- the file is small so we just store the bytes
    let data ← smallFile cfg path sb
    return (lit "&data=" ++ urlencode data, [])
  else
    -- the file is large so we store it in the filesystem by hash
    let h ← hashOf cfg path sb
    putHints cfg (hintLine path h sb)
    let hashables ← queueHash cfg path h
    return (lit "&" ++ HASH_NAME ++ lit "=" ++ hexencode h.bytes, hashables)

/-- `hostfs->readlink`. -/
def readlink (cfg : Config) (path : Bytes) : M Bytes := do
  let m ← tick cfg
  match m.host.readlink path with
  | .error e => throwExn (.fileError "reading link" path e)
  | .ok target =>
    if MAXLINKSIZE ≤ target.length then throwExn (.fileError "reading link" path ENAMETOOLONG)
    else return cstr target

/-- Whether a subdirectory is entered. -/
def entersDir (cfg : Config) (path : Bytes) : M Bool := do
  if cfg.crossfs then return true
  else
    let m ← tick cfg
    match m.host.ismount path with
    | .error e => throwExn (.fileError "stat" path e)
    | .ok mount => return !mount

/-- `put` and `putf` on the index. -/
def putIndex (cfg : Config) (index : OFile) (text : Bytes) : M OFile :=
  index.put (Backupfs.writebytes cfg) text

/-- The generic details. -/
def genericDetails (relname uid gid : Bytes) (sb : Stat) : Bytes :=
  lit "name=" ++ urlencode relname ++ lit "&perms=" ++ octal (sb.st_mode &&& 0o7777).toNat ++
    lit "&uid=" ++ urlencode uid ++ lit "&gid=" ++ urlencode gid ++
    lit "&atime=" ++ putTime sb.st_atime ++ lit "&ctime=" ++ putTime sb.st_ctime ++
    lit "&mtime=" ++ putTime sb.st_mtime

/-- If the number of links is nontrivial record the inode number. -/
def inodeField (sb : Stat) : Bytes :=
  if sb.st_nlink > 1 then lit "&inode=" ++ decimal sb.st_ino.toNat else []

/-- `%d` of a `dev_t`: its low 32 bits. -/
def rdevField (sb : Stat) : Bytes := signedDecimal sb.st_rdev.toUInt32.toInt32.toInt

/-- The atime is restored. -/
def restoreAtime (cfg : Config) (path : Bytes) (sb : Stat) : M Unit := do
  if cfg.preserve_atime then
    let m ← tick cfg
    match m.host.utimes path with
    | .error e => throwExn (.fileError "restoring access time" path e)
    | .ok _ => access (.utimes path sb.st_atime sb.st_mtime)

/-- One turn of the loop over the sorted names. -/
def backupFile (cfg : Config) (dir : Bytes) (files : List (Bytes × Stat)) (p : Progress)
    (name : Bytes) : M Progress := do
  let path := fullname cfg.root (localname dir name)
  let sb := statOf files name
  -- generic details
  let uid ← uid2string cfg sb.st_uid
  let gid ← gid2string cfg sb.st_gid
  let index ← putIndex cfg p.index (genericDetails (relname p.first (localname dir name)) uid gid sb)
  let p := { p with index, first := false }
  -- type-specific details
  if sb.is S_IFREG then
    let (text, hashables) ← contentsOf cfg path sb
    let index ← putIndex cfg p.index text
    let index ← putIndex cfg index (inodeField sb)
    let index ← putIndex cfg index (lit "\n")
    restoreAtime cfg path sb
    return { p with index, hashables := p.hashables ++ hashables }
  else if sb.is S_IFDIR then
    let index ← putIndex cfg p.index (lit "&type=dir\n")
    let enters ← entersDir cfg path
    return { p with index, dirs := p.dirs ++ if enters then [localname dir name] else [] }
  else if sb.is S_IFLNK then
    let target ← readlink cfg path
    let index ← putIndex cfg p.index (lit "&target=" ++ urlencode target ++ lit "&type=link\n")
    return { p with index }
  else if sb.is S_IFCHR ∨ sb.is S_IFBLK then
    let index ← putIndex cfg p.index (lit "&rdev=" ++ rdevField sb ++ lit "&type=" ++
      (if sb.is S_IFCHR then lit "chr" else lit "blk") ++ lit "\n")
    return { p with index }
  else if sb.is S_IFSOCK then
    let index ← putIndex cfg p.index (lit "&type=socket\n")
    return { p with index }
  else return p

/-! ### Copying into the repository -/

/-- The proper prefixes of `path` that end before a `/`. -/
def parents (path : Bytes) : List Bytes :=
  (List.range path.length).filterMap fun n =>
    if 1 ≤ n ∧ path[n]? = some 47 then some (path.take n) else none

def makedirs (cfg : Config) (path : Bytes) : M Unit := do
  if ← Backupfs.exists_ cfg path then return
  else
    (parents path).forM fun dir => do
      if ← Backupfs.exists_ cfg dir then return
      else Backupfs.mkdir cfg dir
    Backupfs.mkdir cfg path

/-- Try for the file open first; if the directory is missing, make it. -/
def openObject (cfg : Config) (hp : Bytes) : M OFile :=
  tryCatch (Backupfs.openWrite cfg (hp ++ lit ".tmp")) fun stop =>
    match stop with
    | .exn (.fileError _ _ e) =>
      if e = ENOENT then do
        makedirs cfg ((dirname hp).getD hp)
        Backupfs.openWrite cfg (hp ++ lit ".tmp")
      else throw stop
    | stop => throw stop

/-- The repo doesn't have this file.  Copy it in. -/
def copyFile (cfg : Config) (hb : Hashable) : M Unit := do
  let m ← tick cfg
  match m.host.data hb.path with
  | .error e => throwExn (.fileError "opening" hb.path e)
  | .ok (data, fault) =>
    let dst ← openObject cfg hb.hp
    access (.read hb.path)
    let dst ← dst.put (Backupfs.writebytes cfg) data
    match fault with
    | some e => throwExn (.fileError "reading" hb.path e)
    | none =>
      if cfg.recheckhash ∧ cfg.sha1 data ≠ hb.hash then
        fatalf "%s changed hash between test and write" hb.path
      else
        let _ ← dst.flush (Backupfs.writebytes cfg)
        Backupfs.rename cfg (hb.hp ++ lit ".tmp") hb.hp

def addHashable (cfg : Config) (hb : Hashable) : M Unit := do
  if ← Backupfs.exists_ cfg hb.hp then return
  else copyFile cfg hb

/-! ### Directories -/

/-- `hostfs->contents`. -/
def hostContents (cfg : Config) (dir : Bytes) : M (List Bytes) := do
  let m ← tick cfg
  match m.host.contents dir with
  | .error e => throwExn (.fileError "opening directory" dir e)
  | .ok c => return c

/-- The lines of one directory: the index, and the subdirectories. -/
def backupFiles (cfg : Config) (dir : Bytes) (index : OFile) : M Progress := do
  let c ← hostContents cfg (fulldir cfg.root dir)
  let files ← statFiles cfg dir c
  let p ← ((files.map Prod.fst).insertionSort (· ≤ ·)).foldlM (backupFile cfg dir files) { index }
  p.hashables.forM (addHashable cfg)
  return p

/-- `backup_dir`; the index is passed along.  The stack that the recursion needs is bounded by
`depth`. -/
def backup_dir (cfg : Config) : Nat → OFile → Bytes → M OFile
  | 0, _, _ => throw .killed
  | depth + 1, index, dir => do
    let p ← backupFiles cfg dir index
    p.dirs.foldlM (backup_dir cfg depth) p.index

/-- The checks of `do_backup`. -/
def checkBackup (cfg : Config) : M Unit := do
  if cfg.repo = [] then fatal "no repository specified"
  else if cfg.root = [] then fatal "no root specified"
  else if cfg.indexfile = [] then fatal "no index specified"
  else if cfg.overwrite_index then return
  else if ← Backupfs.exists_ cfg cfg.indexfile then
    fatalf "index file %s already exists" cfg.indexfile
  else return

/-- The hints are loaded, and a new hint file started. -/
def startHints (cfg : Config) : M Unit := do
  if cfg.hintfile = [] then return
  else
    modify fun w => { w with hints := some [] }
    load_hints cfg
    openHints cfg

/-- The path that the index is written to. -/
def indexPath (cfg : Config) : Bytes :=
  if cfg.overwrite_index then cfg.indexfile else cfg.indexfile ++ lit ".tmp"

def do_backup (cfg : Config) (depth : Nat) : M Unit := do
  checkBackup cfg
  startHints cfg
  let o ← Backupfs.openWrite cfg (indexPath cfg)
  let o ← backup_dir cfg depth o (lit ".")
  let o ← putIndex cfg o (lit "[end]\n")
  let _ ← o.flush (Backupfs.writebytes cfg)
  finishHints cfg
  if cfg.overwrite_index then return
  else Backupfs.rename cfg (cfg.indexfile ++ lit ".tmp") cfg.indexfile

end Hbackup
