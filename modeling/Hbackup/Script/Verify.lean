import Hbackup.Basic
import Hbackup.Script.Index
import Hbackup.Script.Paths

/-!
# Verification with the `hbackup` script

`hbackup --verify` hashes the files of the repository that an index names.  A hash that is not the one
on the line is a warning; a file that cannot be read ends the script.
-/

namespace Hbackup.Script

/-- The command line, and what a verification depends on. -/
structure Checking where
  repo : Bytes
  index : Bytes
  /-- What `fs` reads in a file, from its start to its end. -/
  contents : Bytes → Except PyError Bytes
  /-- `sha.sha()` of all that it has been given. -/
  sha1 : Bytes → Hash

/-- The loop of `sha1`: `m` has been given to the hash function, and `f` has not been read. -/
def updated (m f : Bytes) : Bytes :=
  if f = [] then m else updated (m ++ f.take 4096) (f.drop 4096)
termination_by f.length
decreasing_by
  rw [List.length_drop]
  have := List.length_pos_of_ne_nil ‹_›
  omega

/-- `sha1`, of a file of the repository. -/
def Checking.hexdigest (c : Checking) (path : Bytes) : Py Bytes :=
  match c.contents path with
  | .error e => throw e
  | .ok data => return hexencode (c.sha1 (updated [] data)).bytes

/-- `verify`. -/
def verify (c : Checking) (details : Pairs) : Py Unit :=
  match details.lookup (lit "type") with
  | some _ => return
  | none =>
    match details.lookup HASH_NAME with
    | some hash => do
      -- the hash of what was saved
      let h ← c.hexdigest (hash_path c.repo HASH_NAME hash).2
      if h ≠ hash then warn
    | none =>
      match details.lookup (lit "data") with
      -- always right
      | some _ => return
      | none => warn

/-- `hbackup --verify`. -/
def verifyIndex (c : Checking) : Py Unit :=
  match c.contents c.index with
  | .error e => throw e
  | .ok text => parse_index (verify c) text

end Hbackup.Script
