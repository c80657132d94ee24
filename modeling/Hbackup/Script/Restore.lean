import Hbackup.Restore
import Hbackup.Script.Backup

/-!
# Restoring with the `hbackup` script

`restore` of the script, on the same two filesystems as `do_restore`.  A file is made under a temporary
name, and gets its permission bits before its owner; a directory is made under its own name, and gets its
times at once.  What goes wrong with permission bits, owners and times is a warning.
-/

namespace Hbackup.Script

/-! ### The Python library -/

/-- The value of digits. -/
def digitsValue (base : Nat) (s : Bytes) : Option Nat :=
  if s ≠ [] ∧ s.all fun c => isdigit c ∧ c.toNat - 48 < base then
    some (s.foldl (fun n c => base * n + (c.toNat - 48)) 0)
  else none

/-- `s.strip()`. -/
def strip (s : Bytes) : Bytes := ((s.dropWhile isspace).reverse.dropWhile isspace).reverse

/-- Base 8 takes `0o17` for `17`. -/
def dropOctal (base : Nat) (s : Bytes) : Bytes :=
  if base = 8 ∧ (s.take 2 = lit "0o" ∨ s.take 2 = lit "0O") then s.drop 2 else s

/-- `int(s, base)`. -/
def pyInt (base : Nat) (s : Bytes) : Option Int :=
  let (neg, digits) := takeSign (strip s)
  (digitsValue base (dropOctal base digits)).map fun n : Nat => if neg then -(n : Int) else n

/-- What ends a restore before its end. -/
inductive Raised
  | py (e : PyError)
  | osError
  | typeError
  | overflowError
  /-- The process is killed. -/
  | killed

/-- The global variables, and the two filesystems. -/
structure Unpacking extends Globals where
  world : World
  /-- `inodes`. -/
  inodes : Pairs := []
  uids : List (Bytes × Int) := []
  gids : List (Bytes × Int) := []

abbrev Unpack := EStateM Raised Unpacking

/-- What concerns the global variables of the other commands. -/
def onGlobals {α : Type} (x : Py α) : Unpack α := fun s =>
  match x s.toGlobals with
  | .ok a g => .ok a { s with toGlobals := g }
  | .error e g => .error (.py e) { s with toGlobals := g }

/-- What is called on the filesystems. -/
def onWorld {α : Type} (m : M α) : Unpack α := fun s =>
  match m s.world with
  | .ok a w => .ok a { s with world := w }
  | .error .killed w => .error .killed { s with world := w }
  | .error _ w => .error .osError { s with world := w }

/-- A call of the `os` module, which takes no string with a zero byte in it. -/
def os {α : Type} (strings : List Bytes) (m : M α) : Unpack α :=
  if ∃ t ∈ strings, 0 ∈ t then throw .typeError else onWorld m

/-- `details[k]`. -/
def item (details : Pairs) (k : String) : Unpack Bytes :=
  match details.lookup (lit k) with
  | none => throw (.py .keyError)
  | some v => return v

def int (base : Nat) (s : Bytes) : Unpack Int :=
  match pyInt base s with
  | none => throw (.py .valueError)
  | some n => return n

/-- A number is passed to a call that takes a C integer of this many bits. -/
def cInt (bits : Nat) (n : Int) : Unpack Unit :=
  if -2 ^ (bits - 1) ≤ n ∧ n < 2 ^ (bits - 1) then return else throw .overflowError

/-- What is done on any exception; a process that is killed does nothing. -/
def excepting {α : Type} (x handler : Unpack α) : Unpack α :=
  tryCatch x fun e =>
    match e with
    | .killed => throw .killed
    | _ => handler

/-- A question of `os.path` is answered with no if the call fails. -/
def orFalse (x : Unpack Bool) : Unpack Bool :=
  tryCatch x fun e =>
    match e with
    | .osError => return false
    | e => throw e

/-- `os.path.exists`. -/
def pathExists (cfg : Config) (path : Bytes) : Unpack Bool :=
  orFalse (os [path] (Hostfs.exists_ cfg path))

/-- `os.path.isdir`, where no symbolic link leads to a directory. -/
def pathIsdir (cfg : Config) (path : Bytes) : Unpack Bool :=
  orFalse <| os [path] do
    let _ ← call cfg "stat" path
    return (← get).target.isDir (components path)

/-! ### Owners -/

/-- `name2uid`. -/
def name2uid (cfg : Config) (name : Bytes) : Unpack Int := do
  match (← get).uids.lookup name with
  | some n => return n
  | none =>
    match pyInt 10 name with
    | some n =>
      modify fun s => { s with uids := (name, n) :: s.uids }
      return n
    | none =>
      match cfg.users.getpwnam name with
      | none => throw (.py .keyError)
      | some uid =>
        modify fun s => { s with uids := (name, (uid.toNat : Int)) :: s.uids }
        return uid.toNat

/-- `name2gid`. -/
def name2gid (cfg : Config) (name : Bytes) : Unpack Int := do
  match (← get).gids.lookup name with
  | some n => return n
  | none =>
    match pyInt 10 name with
    | some n =>
      modify fun s => { s with gids := (name, n) :: s.gids }
      return n
    | none =>
      match cfg.users.getgrnam name with
      | none => throw (.py .keyError)
      | some gid =>
        modify fun s => { s with gids := (name, (gid.toNat : Int)) :: s.gids }
        return gid.toNat

/-! ### Files -/

/-- `try_warn`. -/
def try_warn (fn : Unpack Unit) : Unpack Unit := excepting fn (onGlobals warn)

/-- `copy`, of a file of the repository. -/
def copyOut (cfg : Config) (src dest : Bytes) : Unpack Unit := do
  let s ← onWorld (Backupfs.openRead cfg src)
  let d ← os [dest] (Hostfs.openWrite cfg dest)
  (blocks s.rest.length s.rest).forM fun bytes => onWorld (Hostfs.writebytes cfg dest d bytes)
  if s.fault.isSome then throw .osError

/-- The data of a file is on the line. -/
def writeData (cfg : Config) (tmp data : Bytes) : Unpack Unit := do
  let f ← os [tmp] (Hostfs.openWrite cfg tmp)
  if data ≠ [] then onWorld (Hostfs.writebytes cfg tmp f data)

/-- `os.chmod(path, int(details['perms'], 8))`. -/
def setMode (cfg : Config) (details : Pairs) (path : Bytes) : Unpack Unit :=
  try_warn do
    let mode ← int 8 (← item details "perms")
    cInt 32 mode
    os [path] (Hostfs.chmod cfg path (UInt32.ofInt mode))

/-- `os.lchown(path, ..)`. -/
def setOwner (cfg : Config) (details : Pairs) (path : Bytes) : Unpack Unit :=
  try_warn do
    let uid ← name2uid cfg (← item details "uid")
    let gid ← name2gid cfg (← item details "gid")
    cInt 32 uid
    cInt 32 gid
    os [path] (Hostfs.lchown cfg path (UInt32.ofInt uid) (UInt32.ofInt gid))

/-- `os.utime(path, (int(details['atime']), int(details['mtime'])))`. -/
def setTimes (cfg : Config) (details : Pairs) (path : Bytes) : Unpack Unit := do
  let atime ← int 10 (← item details "atime")
  let mtime ← int 10 (← item details "mtime")
  cInt 64 atime
  cInt 64 mtime
  os [path] (Hostfs.utimes cfg path (Int64.ofInt atime) (Int64.ofInt mtime))

/-- Permission bits, owner and times; the owner is in the text of a warning. -/
def setAttributes (cfg : Config) (details : Pairs) (tmp : Bytes) : Unpack Unit := do
  setMode cfg details tmp
  let _ ← item details "uid"
  let _ ← item details "gid"
  setOwner cfg details tmp
  try_warn (setTimes cfg details tmp)

/-- The contents of a regular file. -/
def fillRegular (cfg : Config) (details : Pairs) (tmp : Bytes) : Unpack Unit :=
  match details.lookup HASH_NAME with
  | some hash => copyOut cfg (hash_path cfg.repo HASH_NAME hash).2 tmp
  | none =>
    match details.lookup (lit "data") with
    | some data => writeData cfg tmp data
    | none => onGlobals warn

/-- `inodes[details['inode']] = fn`. -/
def enterInode (details : Pairs) (fn : Bytes) : Unpack Unit :=
  match details.lookup (lit "inode") with
  | some inode =>
    modify fun s => { s with inodes := (inode, fn) :: s.inodes.filter (·.1 ≠ inode) }
  | none => return

/-- A regular file. -/
def unpackRegular (cfg : Config) (details : Pairs) (fn : Bytes) : Unpack Unit := do
  fillRegular cfg details (tmpname fn)
  setAttributes cfg details (tmpname fn)
  enterInode details fn
  -- rename into place
  os [tmpname fn, fn] (Hostfs.rename cfg (tmpname fn) fn)

def unpackLink (cfg : Config) (details : Pairs) (fn : Bytes) : Unpack Unit := do
  let tmp := tmpname fn
  let target ← item details "target"
  os [target, tmp] (Hostfs.symlink cfg target tmp)
  -- permissions are always 777 on links
  setOwner cfg details tmp
  os [tmp, fn] (Hostfs.rename cfg tmp fn)

/-- `os.mknod(tmp, int(details['perms'], 8) | tp, int(details['rdev']))`, and what follows. -/
def unpackDevice (cfg : Config) (details : Pairs) (tp : UInt32) (fn : Bytes) : Unpack Unit := do
  let tmp := tmpname fn
  let mode ← int 8 (← item details "perms")
  let rdev ← int 10 (← item details "rdev")
  cInt 32 mode
  cInt 32 rdev
  os [tmp] (Hostfs.mknod cfg tmp (UInt32.ofInt mode ||| tp) (UInt64.ofInt rdev))
  setAttributes cfg details tmp
  os [tmp, fn] (Hostfs.rename cfg tmp fn)

/-- The directory is created if it does not exist already; the result is whether there is one. -/
def makeDir (cfg : Config) (details : Pairs) (fn : Bytes) : Unpack Bool := do
  if ← pathExists cfg fn then pathIsdir cfg fn
  else
    let mode ← int 8 (← item details "perms")
    cInt 32 mode
    os [fn] (Hostfs.mkdir cfg fn (UInt32.ofInt mode))
    return true

def unpackDir (cfg : Config) (details : Pairs) (fn : Bytes) : Unpack Unit := do
  if ← makeDir cfg details fn then
    -- mkdir honors umask so permissions might be wrong
    setMode cfg details fn
    let _ ← item details "uid"
    let _ ← item details "gid"
    setOwner cfg details fn
    setTimes cfg details fn
  else onGlobals warn

/-- `restore`. -/
def restore (cfg : Config) (details : Pairs) : Unpack Unit := do
  let fn := join cfg.root [← item details "name"]
  let s ← get
  match (details.lookup (lit "inode")).bind fun inode => s.inodes.lookup inode with
  | some first =>
    -- the file has more than one link and we've already seen the first
    os [first, tmpname fn] (Hostfs.link cfg first (tmpname fn))
    os [tmpname fn, fn] (Hostfs.rename cfg (tmpname fn) fn)
  | none =>
    match details.lookup (lit "type") with
    | none => unpackRegular cfg details fn
    | some type =>
      if type = lit "link" then unpackLink cfg details fn
      else if type = lit "dir" then unpackDir cfg details fn
      else if type = lit "chr" then unpackDevice cfg details S_IFCHR fn
      else if type = lit "blk" then unpackDevice cfg details S_IFBLK fn
      else onGlobals warn

/-! ### The index -/

section

variable {m : Type → Type} [Monad m] (py : {α : Type} → Py α → m α) (handler : Pairs → m Unit)
  (atEnd : m Unit)

/-- `handle`, in another monad. -/
def handleIn (directory : Option Bytes) (details : Pairs) : m (Option Bytes) := do
  match details.lookup (lit "name") with
  | none => py (throw .keyError)
  | some name =>
    if name.take 2 = lit "./" then
      handler (setName details (inDirectory directory (name.drop 2)))
      return directory
    else
      handler details
      return some (dirname name)

/-- The loop over the lines; at the end of them more is read. -/
def parseLinesIn : List Bytes → Parsing → m Parsing
  | [], p => do
    atEnd
    return p
  | line :: rest, p => do
    if line = lit "[end]\n" then parseLinesIn rest { p with seen_end := true }
    else if p.seen_end then
      py warn
      return p
    else
      match ← py (parse_details line) with
      | none => parseLinesIn rest p
      | some details =>
        let directory ← handleIn py handler p.directory details
        parseLinesIn rest { p with directory }

/-- `parse_index`, for handlers that change more than the global variables of the other commands. -/
def parse_indexIn (lines : List Bytes) : m Unit := do
  let p ← parseLinesIn py handler atEnd lines {}
  if !p.seen_end then py warn
  if 0 < (← py get).warnings then py (fatal "%d problems found")

end

/-- The lines that can be read; one that is cut off by an error is not. -/
def linesRead (f : InFile) : List Bytes :=
  if f.fault.isSome then (linesOf f.rest).filter fun line => line.getLast? = some 10
  else linesOf f.rest

/-- `hbackup --restore`. -/
def restoreIndex (cfg : Config) : Unpack Unit := do
  let f ← onWorld (Backupfs.openRead cfg cfg.indexfile)
  let atEnd : Unpack Unit := if f.fault.isSome then throw .osError else return
  parse_indexIn onGlobals (restore cfg) atEnd (linesRead f)

end Hbackup.Script
