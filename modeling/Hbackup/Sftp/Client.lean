import Hbackup.Basic

/-!
# The SFTP client

Requests carry an id, and replies are matched to them by it: `poll` files the next reply that
arrives in the map `replies`, unless its id is in the set `ignored`, and `await` polls until the
reply it wants is there.

The server answers every request once, in any order and at any time.  `server` says with what, and
the schedule says when: each time the client looks at its input, the next item of the schedule
tells whether a reply has arrived by then, and to which of the unanswered requests.  A client that
waits when there is nothing more to come is `blocked`.

Requests are numbered as they are sent, and what becomes of their replies is recorded in a log; the
program has neither numbers nor log.
-/

namespace Hbackup.Sftp

/-! ### Packets -/

def SSH_FX_OK : UInt32 := 0
def SSH_FX_EOF : UInt32 := 1
def SSH_FX_NO_SUCH_FILE : UInt32 := 2
def SSH_FX_FAILURE : UInt32 := 4
def SSH_FX_OP_UNSUPPORTED : UInt32 := 8

def SSH_FXF_READ : UInt32 := 0x01
def SSH_FXF_WRITE : UInt32 := 0x02
def SSH_FXF_CREAT : UInt32 := 0x08
def SSH_FXF_TRUNC : UInt32 := 0x10
def SSH_FXF_EXCL : UInt32 := 0x20

/-- What is packed into a request behind its type and id. -/
inductive Request
  | OPEN (path : Bytes) (pflags : UInt32)
  | CLOSE (handle : Bytes)
  | READ (handle : Bytes) (offset : UInt64) (len : UInt32)
  | WRITE (handle : Bytes) (offset : UInt64) (data : Bytes)
  | OPENDIR (path : Bytes)
  | READDIR (handle : Bytes)
  | REMOVE (path : Bytes)
  | MKDIR (path : Bytes) (permissions : UInt32)
  | RMDIR (path : Bytes)
  | STAT (path : Bytes)
  | RENAME (oldpath newpath : Bytes)
  | READLINK (path : Bytes)
  | POSIX_RENAME (oldpath newpath : Bytes)
deriving DecidableEq, Repr

/-- What is packed into a reply behind its type and id; of a directory entry, the file name. -/
inductive Reply
  | STATUS (status : UInt32) (message : Bytes)
  | HANDLE (handle : Bytes)
  | DATA (data : Bytes)
  | NAME (filenames : List Bytes)
  | ATTRS
  | other (type : UInt8)
deriving DecidableEq, Repr

/-- A request that has been sent and not answered; `serial` is its number. -/
structure Pending where
  serial : Nat
  id : UInt32
  req : Request
deriving DecidableEq, Repr

/-! ### State -/

/-- What is recorded of a run. -/
inductive Event
  /-- `newid` returned `id`, which was in use already or not. -/
  | newid (id : UInt32) (inUse : Bool)
  | sent (p : Pending)
  /-- `await` returned the reply to request `serial`. -/
  | delivered (serial : Nat)
  /-- The reply to request `serial` was thrown away. -/
  | dropped (serial : Nat)
  /-- `ignore` was called for `id`, last sent with request `serial`; `arrived` says whether the
  reply had arrived. -/
  | ignored (id : UInt32) (serial : Option Nat) (arrived : Bool)
  /-- `synchronize_one` took `id` off a write queue that starts with `front`. -/
  | reaped (id front : UInt32)
  /-- An `SftpFile` was released with these ids still queued. -/
  | released (left : List UInt32)
deriving DecidableEq, Repr

/-- An `SftpFile`; `writing` and `buf` are the mode and the buffer of the `File` that it is. -/
structure SftpFile where
  path : Bytes
  handle : Bytes
  readqueue : List UInt32 := []
  readbuffer : Bytes := []
  readoffset : UInt64 := 0
  eof : Bool := false
  writequeue : List UInt32 := []
  writeoffset : UInt64 := 0
  writing : Bool := false
  buf : Bytes := []

/-- The ids that the file is waiting for. -/
def SftpFile.queued (f : SftpFile) : List UInt32 := f.readqueue ++ f.writequeue

/-- An `SftpFilesystem`, its files, and what is under way. -/
structure Client where
  id : UInt32 := 0
  /-- `replies`, with the number of the request. -/
  replies : List (UInt32 × Nat × Reply) := []
  ignored : List UInt32 := []
  existence_inflight : List (UInt32 × Bytes) := []
  existence : List (Bytes × Bool) := []
  posix_rename : Bool := true
  /-- The `SftpFile`s, in the order of their opening; `none` once destroyed. -/
  files : List (Option SftpFile) := []
  outstanding : List Pending := []
  serial : Nat := 0
  schedule : List (Option Nat)
  log : List Event := []

inductive Stop
  | blocked
  | fatal (msg : String)
  /-- `SftpFileError`. -/
  | error (doing : String) (path : Bytes) (status : UInt32)
deriving DecidableEq, Repr

abbrev S := EStateM Stop Client

/-- The ids that somebody in the client waits for. -/
def Client.owned (c : Client) : List UInt32 :=
  c.existence_inflight.map Prod.fst ++ c.files.flatMap fun f => (f.map SftpFile.queued).getD []

/-- `id` is that of a request whose reply is still to come, to be collected or to be ignored. -/
def Client.inUse (c : Client) (id : UInt32) : Bool :=
  id ∈ c.outstanding.map Pending.id ∨ id ∈ c.replies.map Prod.fst ∨ id ∈ c.ignored ∨ id ∈ c.owned

/-- The number of the request last sent under `id`. -/
def lastSent (id : UInt32) : List Event → Option Nat
  | [] => none
  | .sent p :: log => if p.id = id then some p.serial else lastSent id log
  | _ :: log => lastSent id log

/-- `ready`. -/
def Client.ready (c : Client) (id : UInt32) : Bool := c.replies.any fun r => r.1 = id

/-- The replies under `id`, of which there is at most one. -/
def Client.repliesTo (c : Client) (id : UInt32) : List (UInt32 × Nat × Reply) :=
  c.replies.filter fun r => r.1 = id

/-- `replies.erase(id)`. -/
def Client.otherReplies (c : Client) (id : UInt32) : List (UInt32 × Nat × Reply) :=
  c.replies.filter fun r => r.1 ≠ id

/-- The replies under `id` are thrown away. -/
def Client.drops (c : Client) (id : UInt32) : List Event :=
  (c.repliesTo id).map fun r => .dropped r.2.1

def record (e : Event) : S Unit := modify fun c => { c with log := e :: c.log }

/-! ### Ids and replies -/

/-- `newid`; never 0. -/
def newid : S UInt32 := do
  let c ← get
  let id := if c.id = 0 then 1 else c.id
  set { c with id := id + 1, log := .newid id (c.inUse id) :: c.log }
  return id

/-- The next item of the schedule: a reply that has arrived, if there is one. -/
def arrival : S (Option Pending) := do
  let c ← get
  match c.schedule with
  | [] => return none
  | none :: schedule =>
    set { c with schedule }
    return none
  | some i :: schedule =>
    match c.outstanding[i % c.outstanding.length]? with
    | none =>
      set { c with schedule }
      return none
    | some p =>
      set { c with schedule, outstanding := c.outstanding.erase p }
      return some p

/-- What `poll` does with the reply it has received. -/
def stash (server : Nat → Request → Reply) (p : Pending) : S Unit := do
  let c ← get
  if p.id ∈ c.ignored then
    -- seen ignored reply, forget the ID for now
    set { c with ignored := c.ignored.erase p.id, log := .dropped p.serial :: c.log }
  else
    -- stash pending reply, in the place of any other under its id
    set { c with
      replies := (p.id, p.serial, server p.serial p.req) :: c.otherReplies p.id
      log := c.drops p.id ++ c.log }

/-- The loop of `send`: `while(in->readable()) poll();`. -/
def pollReady (server : Nat → Request → Reply) : Nat → S Unit
  | 0 => return
  | turns + 1 => do
    match ← arrival with
    | none => return
    | some p =>
      stash server p
      pollReady server turns

/-- `recv`: waits for the next reply. -/
def recv : Nat → S Pending
  | 0 => throw .blocked
  | turns + 1 => do
    match ← arrival with
    | some p => return p
    | none => recv turns

def poll (server : Nat → Request → Reply) : S Unit := do
  let p ← recv (← get).schedule.length
  stash server p

/-- `send`, of a request under `id`. -/
def send (server : Nat → Request → Reply) (id : UInt32) (req : Request) : S Unit := do
  pollReady server (← get).schedule.length
  modify fun c =>
    let p : Pending := ⟨c.serial, id, req⟩
    { c with
      outstanding := c.outstanding ++ [p]
      serial := c.serial + 1
      log := .sent p :: c.log }

/-- The loop of `await`; every `poll` uses up an item of the schedule. -/
def awaitLoop (server : Nat → Request → Reply) (id : UInt32) : Nat → S Reply
  | 0 => throw .blocked
  | turns + 1 => do
    match (← get).replies.lookup id with
    | some (serial, reply) =>
      modify fun c => { c with
        replies := c.otherReplies id
        log := .delivered serial :: c.log }
      return reply
    | none =>
      poll server
      awaitLoop server id turns

def await (server : Nat → Request → Reply) (id : UInt32) : S Reply := do
  awaitLoop server id ((← get).schedule.length + 1)

def ignore (id : UInt32) : S Unit :=
  modify fun c =>
    { c with
      replies := c.otherReplies id
      ignored := if id ∈ c.ignored then c.ignored else id :: c.ignored
      log := c.drops id ++ .ignored id (lastSent id c.log) (c.ready id) :: c.log }

/-- `check` of a reply that is there. -/
def check (what : String) (path : Bytes) (reply : Reply) (allow_eof : Bool) : S Unit :=
  match reply with
  | .STATUS status _ =>
    if status ≠ SSH_FX_OK ∧ (status ≠ SSH_FX_EOF ∨ allow_eof = false) then
      throw (.error what path status)
    else return
  | _ => throw (.fatal "expected SSH_FXP_STATUS")

/-- `check` of a reply still to come. -/
def checkId (server : Nat → Request → Reply) (what : String) (path : Bytes) (id : UInt32) :
    S Unit := do
  let reply ← await server id
  check what path reply false

end Hbackup.Sftp
