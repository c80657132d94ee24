import Hbackup.Hostfs

/-!
# Restoring

`do_restore` of `restore.cc`.  Every entry of the index is made under a temporary name first, given
its owner, permission bits and times, and then renamed; a file with the inode number of one that has
been restored becomes a link to it, and the times of directories are set when everything in them is
there.
-/

namespace Hbackup

/-- `struct dirstamp`. -/
structure Dirstamp where
  dir : Bytes
  atime : Int64
  mtime : Int64

/-- The local variables of `do_restore`. -/
structure Restoring where
  dirtimes : List Dirstamp := []
  /-- The directory of the last full name. -/
  dir : Bytes := []
  inodes : List (UInt64 × Bytes) := []

/-- Deal with relative names: the name, and the directory for the benefit of the next line. -/
def resolveName (dir name : Bytes) : Option (Bytes × Bytes) :=
  if (lit "./").isPrefixOf name then
    -- it belongs to the same directory as the last file
    if dir = [] then none else some (dir ++ lit "/" ++ name.drop 2, dir)
  else some (name, (dirname name).getD [])

/-- `tmpname`. -/
def tmpname (fullname : Bytes) : Bytes := fullname ++ lit "~restore~"

/-- Get the temporary file out of the way. -/
def discardTmp (cfg : Config) (tmp : Bytes) : M Unit :=
  tryCatch (Hostfs.remove cfg tmp) fun stop =>
    match stop with
    | .exn _ => return
    | stop => throw stop

/-- `inodenum`, if there is an inode number. -/
def inodenum (details : Details) : Option UInt64 := (details.getdetail (lit "inode")).map strtoull

/-- `sizeof sun.sun_path`. -/
def SUN_PATH_SIZE : Nat := 108

/-- A socket; the result is whether there is one. -/
def makeSocket (cfg : Config) (tmp : Bytes) : M Bool := do
  if SUN_PATH_SIZE ≤ tmp.length then
    error
    return false
  else
    let m ← tick cfg
    if m.fault.isSome then fatal "error creating socket: %s"
    else
      let bound ← tryCatch (do Hostfs.bind cfg tmp; return true) fun stop =>
        match stop with
        | .exn _ => return false
        | stop => throw stop
      if bound then
        let m ← tick cfg
        if m.fault.isSome then fatal "error calling close: %s" else return true
      else
        error
        return false

/-- The type-specific part for anything but a regular file: the permission bits to set, or `none` for
`continue`. -/
def makeSpecial (cfg : Config) (details : Details) (type full : Bytes) (mode : UInt32) :
    M (Option UInt32) := do
  if type = lit "link" then
    -- just make the symlink
    Hostfs.symlink cfg (cfg.convert (details.get (lit "target"))) (tmpname full)
    return some mode
  else if type = lit "dir" then
    -- if the directory already exists assume that's intentional, but warn about it
    if ← Hostfs.exists_ cfg full then
      warning
      return none
    else
      let mode := if cfg.permissions then mode else 0o777
      Hostfs.mkdir cfg (tmpname full) mode
      return some mode
  else if type = lit "chr" ∨ type = lit "blk" then
    let devtype := if type = lit "chr" then S_IFCHR else S_IFBLK
    let mode := if cfg.permissions then mode else 0o666
    Hostfs.mknod cfg (tmpname full) (mode ||| devtype)
      (strtol 10 (details.get (lit "rdev"))).toUInt64
    return some mode
  else if type = lit "socket" then
    return if ← makeSocket cfg (tmpname full) then some mode else none
  else
    error
    return none

/-- We have the file data to hand. -/
def restoreData (cfg : Config) (tmp data : Bytes) : M Unit := do
  let i ← Hostfs.openWrite cfg tmp
  Hostfs.withFile do
    File.put (Hostfs.virtual cfg tmp i) data
    File.flush (Hostfs.virtual cfg tmp i)

/-- `while((n = src->getbytes(..))) dst->put(buffer, n);` and the flush. -/
def copyInto (v : Virtual World) (src : InFile) : FileM World Unit := do
  File.put v src.rest
  match src.fault with
  | some e => throw (.exn e)
  | none => File.flush v

/-- The file was saved by hash. -/
def restoreHash (cfg : Config) (tmp hash : Bytes) : M Unit := do
  let h ← liftExcept (hashdecode hash)
  let i ← Hostfs.openWrite cfg tmp
  Hostfs.withFile do
    let src ← File.onDevice (Hostfs.asVirtual (Backupfs.openRead cfg (objectPath cfg.repo h)))
    copyInto (Hostfs.virtual cfg tmp i) src

/-- A regular file; the result is whether it has been made. -/
def restoreRegular (cfg : Config) (details : Details) (tmp : Bytes) : M Bool := do
  match details.getdetail (lit "data") with
  | some data =>
    restoreData cfg tmp data
    return true
  | none =>
    match details.getdetail HASH_NAME with
    | some hash =>
      restoreHash cfg tmp hash
      return true
    | none =>
      -- must be from the future
      error
      return false

/-- The object is made under its temporary name: the permission bits to set, or `none` for
`continue`. -/
def makeObject (cfg : Config) (details : Details) (full : Bytes) : M (Option UInt32) := do
  let mode := (strtol 8 (details.get (lit "perms"))).toUInt64.toUInt32
  match details.getdetail (lit "type") with
  | some type => makeSpecial cfg details type full mode
  | none => return if ← restoreRegular cfg details (tmpname full) then some mode else none

def fixOwner (cfg : Config) (details : Details) (tmp : Bytes) : M Unit := do
  if cfg.permissions then
    let uid ← string2uid cfg (details.get (lit "uid"))
    let gid ← string2gid cfg (details.get (lit "gid"))
    Hostfs.lchown cfg tmp uid gid

def fixMode (cfg : Config) (mode : UInt32) (tmp : Bytes) : M Unit := do
  if cfg.permissions then Hostfs.chmod cfg tmp mode

/-- `details["atime"]` and `details["mtime"]`. -/
def timeOf (details : Details) (key : String) : Int64 :=
  (strtoull (details.get (lit key))).toInt64

/-- Permissions and times; the times of a directory are kept for later. -/
def fixAttributes (cfg : Config) (details : Details) (mode : UInt32) (full : Bytes) :
    M (List Dirstamp) := do
  fixOwner cfg details (tmpname full)
  if details.getdetail (lit "type") = some (lit "link") then return []
  else
    fixMode cfg mode (tmpname full)
    if details.getdetail (lit "type") = some (lit "dir") then
      return [⟨full, timeOf details "atime", timeOf details "mtime"⟩]
    else
      Hostfs.utimes cfg (tmpname full) (timeOf details "atime") (timeOf details "mtime")
      return []

/-- A file that is not a link to one already restored. -/
def restoreNew (cfg : Config) (details : Details) (full : Bytes) (r : Restoring) : M Restoring := do
  match ← makeObject cfg details full with
  | none => return r
  | some mode =>
    let inodes :=
      match details.getdetail (lit "type"), inodenum details with
      | none, some n => (n, full) :: r.inodes
      | _, _ => r.inodes
    let stamps ← fixAttributes cfg details mode full
    Hostfs.rename cfg (tmpname full) full
    return { r with inodes, dirtimes := r.dirtimes ++ stamps }

/-- One turn of the loop. -/
def restoreEntry (cfg : Config) (r : Restoring) (details : Details) : M Restoring := do
  match resolveName r.dir (cfg.convert (details.get (lit "name"))) with
  | none =>
    error
    return r
  | some (name, dir) =>
    let full := fullname cfg.root name
    let r := { r with dir }
    discardTmp cfg (tmpname full)
    -- might be a link to a file we already unpacked
    match (inodenum details).bind fun n => r.inodes.lookup n with
    | some path =>
      Hostfs.link cfg path (tmpname full)
      Hostfs.rename cfg (tmpname full) full
      return r
    | none => restoreNew cfg details full r

/-- The loop over the index. -/
def restoreEntries (cfg : Config) : Nat → InFile → Restoring → M Restoring
  | 0, _, r => return r
  | turns + 1, f, r =>
    match readIndexLine f with
    | .error e => throwExn e
    | .ok (none, _) => return r
    | .ok (some details, f) => do
      let r ← restoreEntry cfg r details
      restoreEntries cfg turns f r

/-- Fix up directory timestamps now that all the contents have been created. -/
def fixDirtimes (cfg : Config) (dirtimes : List Dirstamp) : M Unit :=
  dirtimes.forM fun d => Hostfs.utimes cfg d.dir d.atime d.mtime

def do_restore (cfg : Config) : M Unit := do
  if cfg.repo = [] then fatal "no repository specified"
  else if cfg.root = [] then fatal "no root specified"
  else if cfg.indexfile = [] then fatal "no index specified"
  else
    let f ← Backupfs.openRead cfg cfg.indexfile
    let r ← restoreEntries cfg f.turns f {}
    fixDirtimes cfg r.dirtimes

end Hbackup
