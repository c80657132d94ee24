import Hbackup.Sftp.File

/-!
# The SFTP filesystem

The operations of `SftpFilesystem`, each of which sends its requests and waits for their replies.
`perform` runs one operation of a client that goes on after an `SftpFileError`.
-/

namespace Hbackup.Sftp

/-- `OpenMode`. -/
inductive OpenMode
  | ReadOnly
  | Overwrite
  | NoOverwrite
deriving DecidableEq, Repr

def OpenMode.pflags : OpenMode → UInt32
  | .ReadOnly => SSH_FXF_READ
  | .Overwrite => SSH_FXF_WRITE ||| SSH_FXF_CREAT ||| SSH_FXF_TRUNC
  | .NoOverwrite => SSH_FXF_WRITE ||| SSH_FXF_CREAT ||| SSH_FXF_EXCL

/-- The string behind the id of a reply to `OPEN` or `OPENDIR`; a status that passes `check` has
the length 0 there. -/
def handleOf (what : String) (path : Bytes) (reply : Reply) : S Bytes :=
  match reply with
  | .HANDLE handle => return handle
  | reply => do
    check what path reply false
    return []

/-- `open`; the result is the number of the file. -/
def open_ (server : Nat → Request → Reply) (path : Bytes) (mode : OpenMode) : S Nat := do
  let id ← newid
  send server id (.OPEN path mode.pflags)
  let reply ← await server id
  let handle ← handleOf "opening" path reply
  let k := (← get).files.length
  modify fun c => { c with files := c.files ++ [some { path, handle }] }
  return k

/-- A request whose reply is only checked. -/
def simple (server : Nat → Request → Reply) (what : String) (path : Bytes) (req : Request) :
    S Unit := do
  let id ← newid
  send server id req
  checkId server what path id

/-- `rename` without the extension. -/
def plainRename (server : Nat → Request → Reply) (oldpath newpath : Bytes) : S Unit :=
  simple server "renaming" oldpath (.RENAME oldpath newpath)

def rename (server : Nat → Request → Reply) (oldpath newpath : Bytes) : S Unit := do
  if (← get).posix_rename then
    tryCatch (simple server "renaming" oldpath (.POSIX_RENAME oldpath newpath)) fun stop => do
      match stop with
      | .error _ _ status =>
        if status = SSH_FX_OP_UNSUPPORTED then
          modify fun c => { c with posix_rename := false }
          plainRename server oldpath newpath
        else throw stop
      | stop => throw stop
  else plainRename server oldpath newpath

def unlink (server : Nat → Request → Reply) (path : Bytes) : S Unit :=
  simple server "removing" path (.REMOVE path)

def rmdir (server : Nat → Request → Reply) (path : Bytes) : S Unit :=
  simple server "removing directory" path (.RMDIR path)

def remove (server : Nat → Request → Reply) (path : Bytes) : S Unit :=
  tryCatch (unlink server path) fun stop =>
    match stop with
    | .error _ _ status =>
      -- unlink failed - perhaps it's a directory
      if status = SSH_FX_FAILURE then rmdir server path else throw stop
    | stop => throw stop

def mkdir (server : Nat → Request → Reply) (path : Bytes) (mode : UInt32) : S Unit :=
  simple server "creating directory" path (.MKDIR path mode)

def prefigure_exists (server : Nat → Request → Reply) (path : Bytes) : S Unit := do
  let id ← newid
  send server id (.STAT path)
  modify fun c => { c with existence_inflight := c.existence_inflight ++ [(id, path)] }

/-- The loop of `exists` over the probes in flight. -/
def collectExistence (server : Nat → Request → Reply) : Nat → S Unit
  | 0 => return
  | turns + 1 => do
    match (← get).existence_inflight with
    | [] => return
    | (id, path) :: _ =>
      let reply ← await server id
      modify fun c => { c with
        existence := (path, reply = .ATTRS) :: c.existence.filter (·.1 ≠ path)
        existence_inflight := c.existence_inflight.tail }
      collectExistence server turns

/-- `exists`; the second turn finds the answer to the probe that the first one sends. -/
def exists_ (server : Nat → Request → Reply) (path : Bytes) : Nat → S Bool
  | 0 => throw (.fatal "no answer")
  | turns + 1 => do
    collectExistence server (← get).existence_inflight.length
    match (← get).existence.lookup path with
    | some e =>
      modify fun c => { c with existence := c.existence.filter (·.1 ≠ path) }
      return e
    | none =>
      prefigure_exists server path
      exists_ server path turns

/-- The loop of `contents`: `READDIR` is sent again under the id of the `OPENDIR`.  A server that
never says `EOF` keeps it going until the schedule ends. -/
def contentsLoop (server : Nat → Request → Reply) (path handle : Bytes) (id : UInt32) :
    Nat → List Bytes → S (List Bytes)
  | 0, _ => throw .blocked
  | turns + 1, c => do
    send server id (.READDIR handle)
    match ← await server id with
    | .NAME filenames =>
      contentsLoop server path handle id turns
        (c ++ filenames.filter fun filename => filename ≠ lit "." ∧ filename ≠ lit "..")
    | reply =>
      check "reading directory" path reply true
      return c

def contents (server : Nat → Request → Reply) (path : Bytes) : S (List Bytes) := do
  let id ← newid
  send server id (.OPENDIR path)
  let reply ← await server id
  let handle ← handleOf "opening directory" path reply
  let turns := (← get).schedule.length + 1
  let c ← tryCatch (contentsLoop server path handle id turns []) fun stop => do
    match stop with
    | .error .. => ignore (← closehandle server handle)
    | _ => pure ()
    throw stop
  ignore (← closehandle server handle)
  return c

/-- `Filetype`. -/
inductive Filetype
  | RegularFile
  | Directory
  | SymbolicLink
  | UnknownFileType
deriving DecidableEq, Repr

/-- `type`: whichever of `OPEN` and `OPENDIR` succeeded tells the file type `t'`; its handle is
closed again. -/
def closeReply (server : Nat → Request → Reply) (reply : Reply) (t' t : Filetype) :
    S Filetype := do
  match reply with
  | .HANDLE handle =>
    ignore (← closehandle server handle)
    return t'
  | _ => return t

/-- `type`: maybe the file doesn't exist. -/
def checkMissing (path : Bytes) (readfilereply : Reply) : S Unit :=
  match readfilereply with
  | .STATUS status _ =>
    if status = SSH_FX_NO_SUCH_FILE then check "checking file type" path readfilereply false
    else return
  | _ => return

def type (server : Nat → Request → Reply) (path : Bytes) : S Filetype := do
  let openfileid ← newid
  send server openfileid (.OPEN path SSH_FXF_READ)
  let opendirid ← newid
  send server opendirid (.OPENDIR path)
  let readlinkid ← newid
  send server readlinkid (.READLINK path)
  let readfilereply ← await server openfileid
  let readdirreply ← await server opendirid
  let readlinkreply ← await server readlinkid
  checkMissing path readfilereply
  let t ← closeReply server readfilereply .RegularFile .UnknownFileType
  let t ← closeReply server readdirreply .Directory t
  match readlinkreply with
  | .NAME _ => return .SymbolicLink
  | _ => return t

/-! ### Sequences of operations -/

/-- The operations of a client: those of the filesystem, and those of its `k`-th file. -/
inductive Operation
  | open_ (path : Bytes) (mode : OpenMode)
  | readbytes (k : Nat) (space : Nat)
  | writebytes (k : Nat) (buf : Bytes)
  | synchronize (k : Nat)
  | destroy (k : Nat)
  | rename (oldpath newpath : Bytes)
  | remove (path : Bytes)
  | mkdir (path : Bytes) (mode : UInt32)
  | prefigure_exists (path : Bytes)
  | exists_ (path : Bytes)
  | contents (path : Bytes)
  | type (path : Bytes)

def perform (server : Nat → Request → Reply) : Operation → S Unit
  | .open_ path mode => do let _ ← open_ server path mode
  | .readbytes k space => do let _ ← readbytes server k space
  | .writebytes k buf => writebytes server k buf
  | .synchronize k => synchronize server k
  | .destroy k => destroy server k
  | .rename oldpath newpath => rename server oldpath newpath
  | .remove path => remove server path
  | .mkdir path mode => mkdir server path mode
  | .prefigure_exists path => prefigure_exists server path
  | .exists_ path => do let _ ← exists_ server path 2
  | .contents path => do let _ ← contents server path
  | .type path => do let _ ← type server path

/-- Operations one after the other; the client goes on after an `SftpFileError`. -/
def performAll (server : Nat → Request → Reply) (ops : List Operation) : S Unit :=
  ops.forM fun op =>
    tryCatch (perform server op) fun stop =>
      match stop with
      | .error .. => pure ()
      | stop => throw stop

end Hbackup.Sftp
