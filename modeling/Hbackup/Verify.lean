import Hbackup.Cleanup

/-!
# Verification

`do_verify` of `verify.cc`: the contents of the regular files that an index names are looked for in
the repository, and with `--detect-bogus` those that have the wrong hash are removed.
-/

namespace Hbackup

/-- The `try` block of `do_verify`. -/
def checkObject (cfg : Config) (h : Hash) : M Unit := do
  let hp := objectPath cfg.repo h
  tryCatch
    (do
      let actual_hash ← hashBackupFile cfg hp
      if h = actual_hash then return
      else
        error
        if cfg.detectbogus then Backupfs.remove cfg hp)
    fun stop =>
      match stop with
      | .exn (.fileError _ _ e) => if e = ENOENT then error else throw stop
      | stop => throw stop

/-- One turn of the loop of `do_verify`. -/
def verifyLine (cfg : Config) (details : Details) : M PUnit := do
  match details.getdetail (lit "type") with
  | some _ => return
  | none =>
    match details.getdetail (lit "data") with
    | some _ => return
    | none =>
      match details.getdetail HASH_NAME with
      | none => error
      | some hash => do
        let h ← liftExcept (hashdecode hash)
        checkObject cfg h

def do_verify (cfg : Config) : M Unit := do
  if cfg.repo = [] then fatal "no repository specified"
  if cfg.root ≠ [] then fatal "root specified for --verify"
  if cfg.indexfile = [] then fatal "no index specified"
  let f ← Backupfs.openRead cfg cfg.indexfile
  whileReadIndexLine throwExn (verifyLine cfg) f.turns f

end Hbackup
