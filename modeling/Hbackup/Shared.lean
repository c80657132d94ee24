import Hbackup.Backup
import Hbackup.Lib.Concurrent

/-!
# Backups at the same time

Several processes copy into one repository, one filesystem call of any of them at a time.  A file is
named by its path until it is renamed over, and whoever has it open writes to it under any name: a
`write` goes to the position of the descriptor, `open(path, Overwrite)` empties the file for all who
have it open, and `rename` moves whatever has the name now.

The part of a backup that does this, `addHashable`, is given here as a program of calls; `onWorld`
handles these as a backup by itself does.
-/

namespace Hbackup.Shared

open Concurrent

/-! ### The disk -/

/-- What there is at a path; files have numbers. -/
inductive Entry
  | file (ino : Nat)
  | dir
  | other
deriving DecidableEq, Repr

/-- A file.  It is `cut` if a process has ended that had it open, and nobody has emptied it since. -/
structure Stored where
  data : Bytes
  cut : Bool
deriving DecidableEq, Repr

/-- A descriptor that is open for writing. -/
structure Handle where
  ino : Nat
  /-- The path that it was opened under. -/
  path : Bytes
  /-- What has been written to it; its position is the length of that. -/
  wrote : Bytes
  /-- The file has not been emptied since it was opened. -/
  fresh : Bool
deriving DecidableEq, Repr

/-- The backup filesystem, with the file that each process has open for writing. -/
structure Disk (ι : Type) where
  names : Bytes → Option Entry
  inodes : Nat → Stored
  /-- The number of the next file. -/
  next : Nat
  handles : ι → Option Handle

/-- `data`, with `block` written at the position `pos`; a gap before it is filled with zeros. -/
def patch (data : Bytes) (pos : Nat) (block : Bytes) : Bytes :=
  if block = [] then data
  else data.take pos ++ List.replicate (pos - data.length) 0 ++ block ++ data.drop (pos + block.length)

namespace Disk

variable {ι : Type} [DecidableEq ι]

/-- The directory that an entry for `path` would be made in exists. -/
def hasParent (d : Disk ι) (path : Bytes) : Bool :=
  match dirname path with
  | none => true
  | some dir => dir = [] || d.names dir = some .dir

/-- What a call finds at a path. -/
def node (d : Disk ι) (path : Bytes) : Option Node :=
  (d.names path).map fun
    | .file x => .file (d.inodes x).data
    | .dir => .dir
    | .other => .other

/-- A store, with no file open.  The files whose names end in `.tmp` may be what is left of others. -/
def ofStore (s : Store) : Disk ι where
  names path := (s.lookup path).map fun
    | .file _ => .file (s.keys.idxOf path)
    | .dir => .dir
    | .other => .other
  inodes x :=
    match s.keys[x]? with
    | some path =>
      match s.lookup path with
      | some (.file data) => ⟨data, (lit ".tmp").isSuffixOf path⟩
      | _ => ⟨[], false⟩
    | none => ⟨[], false⟩
  next := s.keys.length
  handles _ := none

/-- The descriptors on the file `x`, when it is emptied. -/
def unfresh (d : Disk ι) (x : Nat) (j : ι) : Option Handle :=
  (d.handles j).map fun hd => if hd.ino = x then { hd with fresh := false } else hd

/-- `open(path, O_WRONLY|O_CREAT|O_TRUNC)` of process `i`. -/
def openWrite (d : Disk ι) (i : ι) (path : Bytes) : Except Errno (Disk ι) :=
  if d.hasParent path = false then .error ENOENT
  else
    match d.names path with
    | some .dir => .error EISDIR
    | some (.file x) => .ok { d with
        inodes := Function.update d.inodes x ⟨[], false⟩
        handles := Function.update (d.unfresh x) i (some ⟨x, path, [], true⟩) }
    | _ => .ok { d with
        names := Function.update d.names path (some (.file d.next))
        inodes := Function.update d.inodes d.next ⟨[], false⟩
        next := d.next + 1
        handles := Function.update d.handles i (some ⟨d.next, path, [], true⟩) }

/-- `write`, at the position of the descriptor. -/
def writebytes (d : Disk ι) (i : ι) (block : Bytes) : Except Errno (Disk ι) :=
  match d.handles i with
  | none => .error EACCES
  | some hd => .ok { d with
      inodes := Function.update d.inodes hd.ino
        { d.inodes hd.ino with data := patch (d.inodes hd.ino).data hd.wrote.length block }
      handles := Function.update d.handles i (some { hd with wrote := hd.wrote ++ block }) }

def close (d : Disk ι) (i : ι) : Disk ι := { d with handles := Function.update d.handles i none }

/-- `rename`, of a file. -/
def rename (d : Disk ι) (oldpath newpath : Bytes) : Except Errno (Disk ι) :=
  match d.names oldpath with
  | some (.file x) =>
    if d.names newpath = some .dir then .error EISDIR
    else if d.hasParent newpath = false then .error ENOENT
    else .ok { d with
      names := Function.update (Function.update d.names oldpath none) newpath (some (.file x)) }
  | _ => .error ENOENT

def mkdir (d : Disk ι) (path : Bytes) : Except Errno (Disk ι) :=
  if d.hasParent path = false then .error ENOENT
  else if (d.names path).isSome then .error EEXIST
  else .ok { d with names := Function.update d.names path (some .dir) }

/-- The process ends; what it has open is closed. -/
def die (i : ι) (d : Disk ι) : Disk ι :=
  match d.handles i with
  | none => d
  | some hd => { d with
      inodes := Function.update d.inodes hd.ino { d.inodes hd.ino with cut := true }
      handles := Function.update d.handles i none }

end Disk

/-! ### Calls -/

/-- The calls of `addHashable`. -/
inductive Call
  | exists_ (path : Bytes)
  /-- The file being backed up is opened and read. -/
  | openHost (path : Bytes)
  | readHost (path : Bytes)
  | openWrite (path : Bytes)
  | writebytes (path block : Bytes)
  | close
  | rename (oldpath newpath : Bytes)
  | mkdir (path : Bytes)

/-- What they return. -/
def Res : Call → Type
  | .exists_ _ => Bool
  | .openHost _ => Bytes × Option Errno
  | .openWrite _ => OFile
  | _ => Unit

/-- A backup by itself handles the calls like this; the file is closed when it is flushed. -/
def onWorld (cfg : Config) : ∀ c, M (Res c)
  | .exists_ path => Backupfs.exists_ cfg path
  | .openHost path => do
    let m ← tick cfg
    match m.host.data path with
    | .error e => throwExn (.fileError "opening" path e)
    | .ok r => return r
  | .readHost path => access (.read path)
  | .openWrite path => Backupfs.openWrite cfg path
  | .writebytes path block => Backupfs.writebytes cfg path block
  | .close => return ()
  | .rename oldpath newpath => Backupfs.rename cfg oldpath newpath
  | .mkdir path => Backupfs.mkdir cfg path

/-- A process does not get to know that it has been killed. -/
abbrev Fatal (stop : Stop) : Prop := stop = .killed

section performs

variable {ι : Type} [DecidableEq ι]

/-- A call fails, and has done nothing. -/
def Fails {α : Type} (doing : String) (path : Bytes) (d : Disk ι) (r : Except Stop α)
    (d' : Disk ι) : Prop :=
  d' = d ∧ ∃ e, r = .error (.exn (.fileError doing path e))

/-- What the calls of process `i` do.  Every call may fail; a write that does may leave some of the
block in the file.  An answer that something exists is right; an answer that it doesn't may be late, or
stand for an error. -/
def performs (cfg : Config) (i : ι) : Exec Call Res Stop (Disk ι)
  | .exists_ path, d, r, d' =>
    (d' = d ∧ ∃ found : Bool, r = .ok found ∧ (found = true → (d.names path).isSome)) ∨
      d' = d ∧ ∃ s, r = .error s
  | .openHost path, d, r, d' =>
    (d' = d ∧ ∃ n a, r = .ok a ∧ (cfg.env n).host.data path = .ok a) ∨ Fails "opening" path d r d'
  | .readHost _, d, r, d' => d' = d ∧ r = .ok ()
  | .openWrite path, d, r, d' =>
    (d.openWrite i path = .ok d' ∧ r = .ok ⟨path, false, []⟩) ∨ Fails "opening" path d r d'
  | .writebytes path block, d, r, d' =>
    (d.writebytes i block = .ok d' ∧ r = .ok ()) ∨
      ((∃ n, d.writebytes i (block.take n) = .ok d') ∧
        ∃ e, r = .error (.exn (.fileError "writing" path e))) ∨
      Fails "writing" path d r d'
  | .close, d, r, d' => d' = d.close i ∧ r = .ok ()
  | .rename oldpath newpath, d, r, d' =>
    (d.rename oldpath newpath = .ok d' ∧ r = .ok ()) ∨ Fails "renaming" oldpath d r d'
  | .mkdir path, d, r, d' =>
    (d.mkdir path = .ok d' ∧ r = .ok ()) ∨ Fails "creating directory" path d r d'

end performs

/-! ### Copying into the repository -/

/-- A program that makes these calls. -/
abbrev P := Prog Call Res Stop

def exists_ (path : Bytes) : P Bool := Prog.perform (Call.exists_ path)

def openHost (path : Bytes) : P (Bytes × Option Errno) := Prog.perform (Call.openHost path)

def readHost (path : Bytes) : P Unit := Prog.perform (Call.readHost path)

def openWrite (path : Bytes) : P OFile := Prog.perform (Call.openWrite path)

def writebytes (path block : Bytes) : P Unit := Prog.perform (Call.writebytes path block)

def close : P Unit := Prog.perform Call.close

def rename (oldpath newpath : Bytes) : P Unit := Prog.perform (Call.rename oldpath newpath)

def mkdir (path : Bytes) : P Unit := Prog.perform (Call.mkdir path)

/-- `File::flush`. -/
def flush (f : OFile) : P OFile := do
  if f.writing ∧ f.buf.length ≠ 0 then writebytes f.path f.buf
  return { f with writing := true, buf := [] }

/-- `File::put` of a character. -/
def put1 (f : OFile) (c : UInt8) : P OFile := do
  let f ← if !f.writing ∨ f.buf.length = 4096 then flush f else pure f
  return { f with buf := f.buf ++ [c] }

/-- `File::put` of a string. -/
def put (f : OFile) (s : Bytes) : P OFile := s.foldlM put1 f

def makedirs (path : Bytes) : P Unit := do
  if ← exists_ path then return
  else
    (parents path).forM fun dir => do
      if ← exists_ dir then return
      else mkdir dir
    mkdir path

/-- Try for the file open first; if the directory is missing, make it. -/
def openObject (hp : Bytes) : P OFile :=
  (openWrite (hp ++ lit ".tmp")).handle fun stop =>
    match stop with
    | .exn (.fileError _ _ e) =>
      if e = ENOENT then do
        makedirs ((dirname hp).getD hp)
        openWrite (hp ++ lit ".tmp")
      else .throw stop
    | stop => .throw stop

/-- The repo doesn't have this file.  Copy it in. -/
def copyFile (cfg : Config) (hb : Hashable) : P Unit := do
  let (data, fault) ← openHost hb.path
  let dst ← openObject hb.hp
  readHost hb.path
  let dst ← put dst data
  match fault with
  | some e => .throw (.exn (.fileError "reading" hb.path e))
  | none =>
    if cfg.recheckhash ∧ cfg.sha1 data ≠ hb.hash then
      .throw (.fatal "%s changed hash between test and write" [hb.path])
    else
      let _ ← flush dst
      close
      rename (hb.hp ++ lit ".tmp") hb.hp

def addHashable (cfg : Config) (hb : Hashable) : P Unit := do
  if ← exists_ hb.hp then return
  else copyFile cfg hb

end Hbackup.Shared
