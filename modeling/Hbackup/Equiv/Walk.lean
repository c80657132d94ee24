import Hbackup.Equiv.Copy
import Hbackup.Equiv.Entry
import Hbackup.Utils.Equiv.Names

/-!
# What a backup makes of a tree

The entries that `backup_dir` may write for a directory, given what the calls on the host have
answered (`Walk`): the lines of the directory itself, in the order of the names, and then those of
each subdirectory that is entered.  From the entries follow the contents that are queued for copying
(`queueOf`) and the new hint file (`hintText`).
-/

namespace Hbackup

variable (cfg : Config) (hs : Option (List (Bytes × Hint)))

/-! ### One entry -/

/-- Where the hash of a large file comes from. -/
def HashFrom (path : Bytes) (sb : Stat) (h : Hash) : Prop :=
  findHint hs path sb = some h ∨
    findHint hs path sb = none ∧ ∃ data, WasRead cfg path data none ∧ h = cfg.sha1 data

/-- What is said about a file with the status `sb`. -/
inductive KindOf (path : Bytes) (sb : Stat) : Kind → Prop
  | data {data : Bytes} {fault : Option Errno} (htype : sb.is S_IFREG)
      (hsmall : sb.st_size ≤ STORE_LIMIT) (hread : WasRead cfg path data fault)
      (hsize : sb.st_size ≤ data.length) : KindOf path sb (.data (data.take sb.st_size))
  | sha1 {h : Hash} (htype : sb.is S_IFREG) (hlarge : ¬ sb.st_size ≤ STORE_LIMIT)
      (hfrom : HashFrom cfg hs path sb h) : KindOf path sb (.sha1 h)
  | dir (htype : sb.is S_IFDIR) : KindOf path sb .dir
  | link {n : Nat} {target : Bytes} (htype : sb.is S_IFLNK)
      (hread : (cfg.env n).host.readlink path = .ok target) (hsize : target.length < MAXLINKSIZE) :
      KindOf path sb (.link (cstr target))
  | chr (htype : sb.is S_IFCHR) : KindOf path sb (.dev (lit "chr"))
  | blk (htype : sb.is S_IFBLK) : KindOf path sb (.dev (lit "blk"))
  | socket (htype : sb.is S_IFSOCK) : KindOf path sb .socket

/-- The entry of `name` in `dir`. -/
structure EntryOf (dir : Bytes) (first : Bool) (name : Bytes) (sb : Stat) (e : Entry) : Prop where
  path : e.path = fullname cfg.root (localname dir name)
  relname : e.relname = relname first (localname dir name)
  stat : e.sb = sb
  uid : e.uid = idName cfg.users.getpwuid sb.st_uid
  gid : e.gid = idName cfg.users.getgrgid sb.st_gid
  kind : KindOf cfg hs e.path sb e.kind

/-- The subdirectories that are entered for `name` in `dir`: itself, or none. -/
inductive Enters (dir name : Bytes) (sb : Stat) : List Bytes → Prop
  | file (htype : ¬ sb.is S_IFDIR) : Enters dir name sb []
  | crossfs (htype : sb.is S_IFDIR) (hcross : cfg.crossfs = true) :
      Enters dir name sb [localname dir name]
  | onefs {n : Nat} {mount : Bool} (htype : sb.is S_IFDIR) (hcross : cfg.crossfs = false)
      (hmount : (cfg.env n).host.ismount (fullname cfg.root (localname dir name)) = .ok mount) :
      Enters dir name sb (if mount then [] else [localname dir name])

/-! ### Directories -/

/-- The files of a directory that are backed up, with their status. -/
inductive Stats (dir : Bytes) : List Bytes → List (Bytes × Stat) → Prop
  | nil : Stats dir [] []
  | skip {name : Bytes} {c : List Bytes} {files : List (Bytes × Stat)}
      (hskip : name = lit "." ∨ name = lit ".." ∨ cfg.excluded (localname dir name))
      (hrest : Stats dir c files) : Stats dir (name :: c) files
  | gone {name : Bytes} {c : List Bytes} {files : List (Bytes × Stat)} {n : Nat}
      (hname : ¬ (name = lit "." ∨ name = lit "..")) (hexcluded : ¬ cfg.excluded (localname dir name))
      (hgone : (cfg.env n).host.lstat (fullname cfg.root (localname dir name)) = .error ENOENT)
      (hrest : Stats dir c files) : Stats dir (name :: c) files
  | unknown {name : Bytes} {c : List Bytes} {files : List (Bytes × Stat)} {n : Nat} {sb : Stat}
      (hname : ¬ (name = lit "." ∨ name = lit "..")) (hexcluded : ¬ cfg.excluded (localname dir name))
      (hstat : (cfg.env n).host.lstat (fullname cfg.root (localname dir name)) = .ok sb)
      (hknown : sb.known = false) (hrest : Stats dir c files) : Stats dir (name :: c) files
  | cons {name : Bytes} {c : List Bytes} {files : List (Bytes × Stat)} {n : Nat} {sb : Stat}
      (hname : ¬ (name = lit "." ∨ name = lit "..")) (hexcluded : ¬ cfg.excluded (localname dir name))
      (hstat : (cfg.env n).host.lstat (fullname cfg.root (localname dir name)) = .ok sb)
      (hknown : sb.known = true) (hrest : Stats dir c files) :
      Stats dir (name :: c) ((name, sb) :: files)

/-- The lines for `names`, and the subdirectories among them that are entered. -/
inductive Lines (dir : Bytes) (files : List (Bytes × Stat)) :
    Bool → List Bytes → List Entry → List Bytes → Prop
  | nil {first : Bool} : Lines dir files first [] [] []
  | cons {first : Bool} {name : Bytes} {names : List Bytes} {e : Entry} {es : List Entry}
      {entered ds : List Bytes} (hentry : EntryOf cfg hs dir first name (statOf files name) e)
      (henters : Enters cfg dir name (statOf files name) entered)
      (hrest : Lines dir files false names es ds) :
      Lines dir files first (name :: names) (e :: es) (entered ++ ds)

/-- The names in a directory, in order. -/
def sortedNames (files : List (Bytes × Stat)) : List Bytes :=
  (files.map Prod.fst).insertionSort (· ≤ ·)

/-- The entries of the directory itself, and the subdirectories that are entered. -/
def Own (dir : Bytes) (es : List Entry) (ds : List Bytes) : Prop :=
  ∃ n c files, (cfg.env n).host.contents (fulldir cfg.root dir) = .ok c ∧ Stats cfg dir c files ∧
    Lines cfg hs dir files true (sortedNames files) es ds

/-- The entries of a directory and all below it. -/
def Walk : Nat → Bytes → List Entry → Prop
  | 0, _, _ => False
  | depth + 1, dir, es => ∃ own ds subs, Own cfg hs dir own ds ∧
      List.Forall₂ (Walk depth) ds subs ∧ es = own ++ subs.flatten

/-! ### What follows from the entries -/

/-- What is queued for `hash`, if `all` has been looked for already. -/
def queuedHash (all : List Hashable) (path : Bytes) (hash : Hash) : List Hashable :=
  if hash ∈ all.map Hashable.hash then [] else [⟨path, objectPath cfg.repo hash, hash⟩]

/-- The contents that have to be looked for. -/
def Entry.queued (all : List Hashable) (e : Entry) : List Hashable :=
  match e.kind with
  | .sha1 h => queuedHash cfg all e.path h
  | _ => []

/-- All the contents that have been looked for after `es`. -/
def queueOf (all : List Hashable) (es : List Entry) : List Hashable :=
  es.foldl (fun all e => all ++ e.queued cfg all) all

/-- The line of the new hint file. -/
def Entry.hint (e : Entry) : Bytes :=
  match e.kind with
  | .sha1 h => hintLine e.path h e.sb
  | _ => []

/-- The lines of the new hint file. -/
def hintText (es : List Entry) : Bytes := es.flatMap Entry.hint

/-- The hashes that entries name. -/
def hashesOf (es : List Entry) : List Hash :=
  es.filterMap fun e => match e.kind with
    | .sha1 h => some h
    | _ => none

variable {cfg}

theorem queueOf_append (all : List Hashable) (es es' : List Entry) :
    queueOf cfg all (es ++ es') = queueOf cfg (queueOf cfg all es) es' := List.foldl_append

/-- The hashes looked for are those that the entries name, each once. -/
theorem mem_queueOf {es : List Entry} {all : List Hashable} {h : Hash} :
    h ∈ (queueOf cfg all es).map Hashable.hash ↔
      h ∈ all.map Hashable.hash ∨ h ∈ hashesOf es := by
  induction es generalizing all with
  | nil => simp [queueOf, hashesOf]
  | cons e es ih =>
    have hcons : queueOf cfg all (e :: es) = queueOf cfg (all ++ e.queued cfg all) es := rfl
    rw [hcons, ih, List.map_append, List.mem_append]
    unfold Entry.queued hashesOf
    rw [List.filterMap_cons]
    cases e.kind with
    | sha1 h' =>
      dsimp only [queuedHash]
      split_ifs with hm
      · simp only [List.map_nil, List.not_mem_nil, or_false, List.mem_cons]
        constructor
        · tauto
        · rintro (hh | rfl | hh)
          · exact .inl hh
          · exact .inl hm
          · exact .inr hh
      · simp only [List.map_cons, List.map_nil, List.mem_cons]
        tauto
    | _ => simp

end Hbackup
