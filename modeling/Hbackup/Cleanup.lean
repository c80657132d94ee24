import Hbackup.World

/-!
# Cleanup

`do_clean` of `cleanup.cc`: the hashes named by the live indexes are collected, and every regular
file below `repo/sha1` that is not named by one of them is listed or removed.
-/

namespace Hbackup

/-- `hashfile`, for a file of the backup filesystem. -/
def hashBackupFile (cfg : Config) (path : Bytes) : M Hash := do
  let f ← Backupfs.openRead cfg path
  let data ← liftExcept f.getall
  return cfg.sha1 data

/-- The `while` loop of `do_clean`; the set keeps what was inserted before an exception. -/
def collectHashes (f : InFile) : EStateM Exn HashSet PUnit :=
  whileReadIndexLine throw (fun details =>
    match details.getdetail HASH_NAME with
    | none => return
    | some hash =>
      match hashdecode hash with
      | .error e => throw e
      | .ok h => modify (·.insert h)) f.turns f

/-- One turn of the loop over `argv`: the hashes so far, and the bad files so far. -/
def checkIndex (cfg : Config) (acc : HashSet × List Bytes) (name : Bytes) :
    M (HashSet × List Bytes) := do
  let f ← Backupfs.openRead cfg name
  match collectHashes f acc.1 with
  | .ok _ needed => return (needed, acc.2)
  | .error e needed =>
    match e with
    | .badHex _ => return (needed, acc.2 ++ [name])
    | .badHexDigit => return (needed, acc.2 ++ [name])
    | .badIndexFile _ =>
      error
      return (needed, acc.2 ++ [name])
    | e => throwExn e

/-- The part of `do_clean` before the scan: the hashes that are needed. -/
def neededHashes (cfg : Config) (argv : List Bytes) : M HashSet := do
  if cfg.repo = [] then fatal "no repository specified"
  if argv.length = 0 then fatal "no index files specified"
  let (needed, badfiles) ← argv.foldlM (checkIndex cfg) ([], [])
  if badfiles.length ≠ 0 then fatal "bad input files"
  return needed

/-- Whether `clean_recurse` keeps the regular file `name`. -/
def keepFile (cfg : Config) (needed : HashSet) (name fullname : Bytes) : M Bool :=
  tryCatch
    (do
      let h ← liftExcept (hashdecode name)
      if cfg.detectbogus then
        let actual_hash ← hashBackupFile cfg fullname
        return needed.has h && actual_hash = h
      else return needed.has h)
    fun stop =>
      match stop with
      | .exn _ => return false
      | stop => throw stop

/-- What `clean_recurse` does with a file that it does not keep. -/
def discard (cfg : Config) (fullname : Bytes) : M Unit :=
  if cfg.deleteclean then
    tryCatch (Backupfs.remove cfg fullname) fun stop =>
      match stop with
      | .exn (.fileError ..) => error
      | stop => throw stop
  else do
    let m ← tick cfg
    if m.fault.isSome then fatal "error writing to stdout"
    modify fun w => { w with stdout := w.stdout ++ [fullname] }

/-- `clean_recurse`; the result counts the files listed or removed.  A directory's path is longer
than that of the directory it is in, so the length of the longest path bounds the depth. -/
def clean_recurse (cfg : Config) (needed : HashSet) : Nat → Bytes → M Nat
  | 0, _ => return 0
  | depth + 1, path => do
    let files ← Backupfs.contents cfg path
    files.foldlM (fun deleted name => do
      let fullname := path ++ lit "/" ++ name
      match ← Backupfs.type cfg fullname with
      | .RegularFile =>
        if ← keepFile cfg needed name fullname then return deleted
        else
          discard cfg fullname
          return deleted + 1
      | .Directory => return deleted + (← clean_recurse cfg needed depth fullname)
      | .UnknownFileType => return deleted) 0

/-- More than the length of any path. -/
def Store.depth (s : Store) : Nat := (s.keys.map List.length).sum + 1

def do_clean (cfg : Config) (argv : List Bytes) : M Nat := do
  let needed ← neededHashes cfg argv
  clean_recurse cfg needed (← get).store.depth (cfg.repo ++ lit "/" ++ HASH_NAME)

end Hbackup
