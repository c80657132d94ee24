import Hbackup.Equiv.Buffer
import Hbackup.Sftp.Packet

/-!
# Packets on a pipe

`send` puts a length word before each packet, and `recv` takes the packets apart again.  `in` and
`out` are `File`s around the two pipes to the server.
-/

namespace Hbackup.Sftp.Pipe

/-- `send`, behind its polling. -/
def send {δ : Type} (v : Virtual δ) (cmd : Bytes) : FileM δ Unit := do
  let slen := pack_uint32 [] (UInt32.ofNat cmd.length)
  File.put v slen
  File.put v cmd

/-- `recv`, and the reply.  Nothing below `main` catches what a length word that is too large for
an `int` makes `resize` throw. -/
def recv {δ : Type} (v : Virtual δ) (turns : Nat) : FileM δ (UInt8 × Bytes) := do
  let slen ← File.getbytes v turns 4 true
  if slen.length ≠ 4 then throw .killed
  else
    match unpack_uint32 slen 0 with
    | .error _ _ => throw .killed
    | .ok len _ =>
      if len.toNat < 2 ^ 31 then do
        let reply ← File.getbytes v turns len.toNat true
        if reply.length ≠ len.toNat then throw .killed
        else return (reply[0]?.getD 0, reply)
      else throw .killed

end Hbackup.Sftp.Pipe
