import Hbackup.Sftp.Client

/-!
# SFTP files

`SftpFile` keeps up to eight reads under way and hands out their replies in the order of the
requests; writes are sent without waiting, and their replies are collected when they are there or
when the file is synchronized.
-/

namespace Hbackup.Sftp

/-- `readqueuesize`. -/
def readqueuesize : Nat := 8

/-- The `k`-th file, which must still exist. -/
def getFile (k : Nat) : S SftpFile := do
  match (← get).files[k]? with
  | some (some f) => return f
  | _ => throw (.fatal "no such file")

def setFile (k : Nat) (f : SftpFile) : S Unit :=
  modify fun c => { c with files := c.files.set k (some f) }

/-- The loop that keeps the read queue full. -/
def fillQueue (server : Nat → Request → Reply) (k : Nat) (space : Nat) : Nat → S Unit
  | 0 => return
  | turns + 1 => do
    let f ← getFile k
    if f.readqueue.length < readqueuesize then
      let id ← newid
      setFile k { f with readoffset := f.readoffset + UInt64.ofNat space }
      send server id (.READ f.handle f.readoffset (UInt32.ofNat space))
      let f ← getFile k
      setFile k { f with readqueue := f.readqueue ++ [id] }
      fillQueue server k space turns

/-- At end of file: ignore all the remaining reads and empty the queue. -/
def ignoreQueue (k : Nat) : Nat → S Unit
  | 0 => return
  | turns + 1 => do
    let f ← getFile k
    match f.readqueue with
    | [] => return
    | id :: rest =>
      ignore id
      setFile k { f with readqueue := rest }
      ignoreQueue k turns

/-- The first part of `readbytes`: keep the read queue full. -/
def refill (server : Nat → Request → Reply) (k : Nat) (space : Nat) : S Unit := do
  let f ← getFile k
  if f.eof = false ∧ f.readqueue.length < readqueuesize then
    fillQueue server k space readqueuesize

/-- The second part of `readbytes`: when there is nothing in the buffer, the reply to the first of
the outstanding reads fills it. -/
def rebuffer (server : Nat → Request → Reply) (k : Nat) : S Unit := do
  let f ← getFile k
  match f.readbuffer, f.readqueue with
  | [], id :: rest =>
    setFile k { f with readqueue := rest }
    let reply ← await server id
    match reply with
    | .DATA data =>
      let f ← getFile k
      setFile k { f with readbuffer := data }
    | reply =>
      -- report errors
      check "reading" f.path reply true
      ignoreQueue k rest.length
      let f ← getFile k
      setFile k { f with eof := true }
  | _, _ => return

/-- `readbytes`: the bytes put into `buf`. -/
def readbytes (server : Nat → Request → Reply) (k : Nat) (space : Nat) : S Bytes := do
  refill server k space
  rebuffer server k
  let f ← getFile k
  let n := min space f.readbuffer.length
  setFile k { f with readbuffer := f.readbuffer.drop n }
  return f.readbuffer.take n

/-- `synchronize_one`; `none` is the id 0, for the first write in the queue. -/
def synchronize_one (server : Nat → Request → Reply) (k : Nat) (id : Option UInt32) : S Unit := do
  let f ← getFile k
  match f.writequeue with
  | [] => return
  | front :: _ =>
    let id := id.getD front
    record (.reaped id front)
    -- the reply awaited is that to the first write, whatever `id` is
    let reply ← await server front
    let f ← getFile k
    setFile k { f with writequeue := f.writequeue.erase id }
    check "writing to" f.path reply false

/-- The loop of `writebytes` over the writes that have been replied to. -/
def reapReady (server : Nat → Request → Reply) (k : Nat) : Nat → S Unit
  | 0 => return
  | turns + 1 => do
    let f ← getFile k
    let c ← get
    match f.writequeue.find? c.ready with
    | none => return
    | some id =>
      synchronize_one server k (some id)
      reapReady server k turns

def writebytes (server : Nat → Request → Reply) (k : Nat) (buf : Bytes) : S Unit := do
  if buf.length = 0 then return
  let f ← getFile k
  let id ← newid
  send server id (.WRITE f.handle f.writeoffset buf)
  let f ← getFile k
  setFile k { f with
    writeoffset := f.writeoffset + UInt64.ofNat buf.length
    writequeue := f.writequeue ++ [id] }
  reapReady server k (f.writequeue.length + 1)

/-- The loop of `synchronize`. -/
def synchronizeLoop (server : Nat → Request → Reply) (k : Nat) : Nat → S Unit
  | 0 => return
  | turns + 1 => do
    let f ← getFile k
    if f.writequeue.length ≠ 0 then
      synchronize_one server k none
      synchronizeLoop server k turns

def synchronize (server : Nat → Request → Reply) (k : Nat) : S Unit := do
  let f ← getFile k
  synchronizeLoop server k f.writequeue.length

/-! ### The `File` interface -/

/-- `File::flush`. -/
def flush (server : Nat → Request → Reply) (k : Nat) : S Unit := do
  let f ← getFile k
  if f.writing ∧ f.buf.length ≠ 0 then writebytes server k f.buf
  let f ← getFile k
  setFile k { f with writing := true, buf := [] }
  synchronize server k

/-- `File::put` of a character: the buffer holds 4096, and none before the first flush. -/
def put1 (server : Nat → Request → Reply) (k : Nat) (c : UInt8) : S Unit := do
  let f ← getFile k
  if f.writing = false ∨ f.buf.length = 4096 then flush server k
  let f ← getFile k
  setFile k { f with buf := f.buf ++ [c] }

/-- `File::put` of a string. -/
def put (server : Nat → Request → Reply) (k : Nat) (s : Bytes) : S Unit :=
  s.forM (put1 server k)

/-! ### The end of a file -/

/-- `closehandle`. -/
def closehandle (server : Nat → Request → Reply) (handle : Bytes) : S UInt32 := do
  let id ← newid
  send server id (.CLOSE handle)
  return id

/-- The file's memory is released, with whatever is still in its queues. -/
def release (k : Nat) : S Unit := do
  let f ← getFile k
  modify fun c => { c with
    files := c.files.set k none
    log := .released f.queued :: c.log }

/-- `~SftpFile`.  An exception from `synchronize` leaves the destructor before the handle is
closed. -/
def destroy (server : Nat → Request → Reply) (k : Nat) : S Unit := do
  tryCatch (synchronize server k) fun stop => do
    match stop with
    | .error .. => release k
    | _ => pure ()
    throw stop
  let f ← getFile k
  let id ← closehandle server f.handle
  ignore id
  release k

/-! ### Sequences of calls -/

/-- The calls with which a program writes a file. -/
inductive Output
  | put (s : Bytes)
  | flush

def Output.run (server : Nat → Request → Reply) (k : Nat) : Output → S Unit
  | .put s => Sftp.put server k s
  | .flush => Sftp.flush server k

/-- A call whose `SftpFileError` the caller catches; the result is what was thrown. -/
def attempt (call : S Unit) : S (Option Stop) :=
  tryCatch (do
    call
    return none) fun stop =>
    match stop with
    | .error .. => return some stop
    | stop => throw stop

end Hbackup.Sftp
