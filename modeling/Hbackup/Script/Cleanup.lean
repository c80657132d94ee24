import Hbackup.Script.Index
import Hbackup.Script.Paths

/-!
# Cleaning up with the `hbackup` script

`hbackup --cleanup` collects the files of the repository in a table, takes out of it what the indexes
name, and prints the rest.
-/

namespace Hbackup.Script

/-- The name of something in a directory. -/
def FileName : Type := { name : Bytes // name ≠ [] ∧ 47 ∉ name }

/-- What a path of the repository leads to. -/
inductive Node
  | file
  | other
  /-- A directory that cannot be listed. -/
  | closed
  | dir (entries : List (FileName × Node))

/-- `files[f] = fn`. -/
def record (f fn : Bytes) : Py Unit :=
  modify fun g => { g with files := (f, fn) :: g.files.filter (·.1 ≠ f) }

mutual

/-- `scan_repo`. -/
def scan_repo (dir : Bytes) : Node → Py Unit
  | .dir entries => scanEntries dir entries
  | _ => throw .ioError

/-- The loop over what is in a directory. -/
def scanEntries (dir : Bytes) : List (FileName × Node) → Py Unit
  | [] => return
  | (f, node) :: entries => do
    scanEntry (join dir [f.val]) f.val node
    scanEntries dir entries

/-- One turn: `fn` leads to the node. -/
def scanEntry (fn f : Bytes) : Node → Py Unit
  -- recurse into subdirectories
  | .dir entries => scanEntries fn entries
  | .closed => throw .ioError
  -- record all regular files
  | .file => record f fn
  | .other => warn

end

/-- `keep`; that there is no such key, in `details` or in `files`, is passed over. -/
def keep (details : Pairs) : Py Unit :=
  match details.lookup HASH_NAME with
  | none => return
  | some hash => modify fun g => { g with files := g.files.filter (·.1 ≠ hash) }

/-- `hbackup --cleanup`: `node` is what is at `sha1` in the repository, and `text` gives the text of an
index, if it can be read. -/
def cleanup (repo : Bytes) (node : Node) (text : Bytes → Except PyError Bytes) (argv : List Bytes) :
    Py Unit := do
  if argv = [] then fatal "--cleanup but no index files specified"
  else
    scan_repo (join repo [lit "sha1"]) node
    argv.forM fun i =>
      match text i with
      | .error e => throw e
      | .ok t => parse_index keep t
    let g ← get
    g.files.forM fun f => modify fun g => { g with stdout := g.stdout ++ [f.2] }

end Hbackup.Script
