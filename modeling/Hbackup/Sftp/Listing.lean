import Hbackup.Sftp.Packet
import Hbackup.Sftp.Client

/-!
# Listing a directory, packet by packet

`SftpFilesystem::contents` down to the bytes of the packets.  A conversation has the packets that
`await` is going to return, one after the other; that they are the replies to the requests of the
caller is the matter of the client.
-/

namespace Hbackup.Sftp

def SSH_FXP_CLOSE : UInt8 := 4
def SSH_FXP_OPENDIR : UInt8 := 11
def SSH_FXP_READDIR : UInt8 := 12
def SSH_FXP_STATUS : UInt8 := 101
def SSH_FXP_HANDLE : UInt8 := 102
def SSH_FXP_NAME : UInt8 := 104

/-- What has been said between an `SftpFilesystem` and its server. -/
structure Conversation where
  id : UInt32 := 0
  /-- The replies to come. -/
  replies : List Bytes
  sent : List Bytes := []
  ignored : List UInt32 := []

/-- How an operation ends early. -/
inductive Break
  | outOfRange
  | fatal (msg : String)
  | error (doing : String) (path : Bytes) (st : Status)
  /-- No reply comes any more. -/
  | blocked
deriving DecidableEq, Repr

abbrev C := EStateM Break Conversation

namespace Raw

def newid : C UInt32 := do
  let c ← get
  let id := if c.id = 0 then 1 else c.id
  set { c with id := id + 1 }
  return id

def send (cmd : Bytes) : C Unit := modify fun c => { c with sent := c.sent ++ [cmd] }

def await : C Bytes := do
  let c ← get
  match c.replies with
  | [] => throw .blocked
  | reply :: replies =>
    set { c with replies }
    return reply

/-- The type that `await` returns: `reply[0]`, a NUL in an empty packet. -/
def type (reply : Bytes) : UInt8 := reply.headD 0

/-- Unpacks part of a reply, from `index` on. -/
def unpack {α : Type} (m : Unpack α) (index : Nat) : C (α × Nat) :=
  match m index with
  | .ok a index => return (a, index)
  | .error _ _ => throw .outOfRange

/-- The reply that `check` looks at, from its type on. -/
def unpackReply (reply : Bytes) : Unpack (UInt8 × Option Status) := do
  let r ← unpack_uint8 reply
  if r ≠ SSH_FXP_STATUS then return (r, none)
  else do
    let _ ← unpack_uint32 reply         -- skip ID
    let st ← unpack_status reply
    return (r, some st)

def check (what : String) (path : Bytes) (reply : Bytes) (allow_eof : Bool) : C Unit := do
  let ((_, st), _) ← unpack (unpackReply reply) 0
  match st with
  | none => throw (.fatal "expected SSH_FXP_STATUS")
  | some st =>
    if st.status ≠ SSH_FX_OK ∧ (st.status ≠ SSH_FX_EOF ∨ allow_eof = false) then
      throw (.error what path st)
    else return

def closehandle (handle : Bytes) : C UInt32 := do
  let id ← newid
  send (pack_string (pack_uint32 (pack_uint8 [] SSH_FXP_CLOSE) id) handle)
  return id

def ignore (id : UInt32) : C Unit :=
  modify fun c => { c with ignored := if id ∈ c.ignored then c.ignored else id :: c.ignored }

/-- The entries of a `NAME` reply: the file names behind those in `c`.  `attrs` is what the memory of
the `Attributes` holds at the start. -/
def namesLoop (attrs : Attributes) (reply : Bytes) : Nat → List Bytes → Unpack (List Bytes)
  | 0, c => return c
  | count + 1, c => do
    let filename ← unpack_string reply
    let _longname ← unpack_string reply
    let _attrs ← unpack_attrs attrs reply
    namesLoop attrs reply count
      (if filename ≠ lit "." ∧ filename ≠ lit ".." then c ++ [filename] else c)

def names (attrs : Attributes) (reply : Bytes) (c : List Bytes) : Unpack (List Bytes) := do
  let count ← unpack_uint32 reply
  namesLoop attrs reply count.toNat c

/-- The loop of `contents`; every turn uses up a reply. -/
def contentsLoop (attrs : Attributes) (path cmd : Bytes) : Nat → List Bytes → C (List Bytes)
  | 0, _ => throw .blocked
  | turns + 1, c => do
    send cmd
    let reply ← await
    if type reply = SSH_FXP_NAME then do
      let (c, _) ← unpack (names attrs reply c) 5         -- skip type+id
      contentsLoop attrs path cmd turns c
    else do
      check "reading directory" path reply true
      return c

/-- `check` of the reply to `OPENDIR`, unless it is a handle. -/
def checkHandle (path : Bytes) (reply : Bytes) : C Unit :=
  if type reply ≠ SSH_FXP_HANDLE then check "opening directory" path reply false else return

/-- `SftpFilesystem::contents`. -/
def contents (attrs : Attributes) (path : Bytes) (c : List Bytes) : C (List Bytes) := do
  let id ← newid
  send (pack_string (pack_uint32 (pack_uint8 [] SSH_FXP_OPENDIR) id) path)
  let reply ← await
  checkHandle path reply
  let (handle, _) ← unpack (unpack_string reply) 5        -- skip type+id
  let turns := (← get).replies.length + 1
  let cmd := pack_string (pack_uint32 (pack_uint8 [] SSH_FXP_READDIR) id) handle
  let c ← tryCatch (contentsLoop attrs path cmd turns c) fun e => do
    -- a fatal error ends the program; nothing is caught
    match e with
    | .fatal _ | .blocked => pure ()
    | _ => ignore (← closehandle handle)
    throw e
  ignore (← closehandle handle)
  return c

end Raw

end Hbackup.Sftp
