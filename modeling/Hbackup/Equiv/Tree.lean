import Hbackup.Equiv.BackupRun

/-!
# The index of a tree

While a tree does not change, the calls on it always give the same answers, and what a backup makes
of it is a function of the tree (`Tree.entries`): the entries that `Walk` allows are these and no
others (`Walk.eq_tree`).  What is left open is the hash of a large file, which may come from a hint;
`Tree.hash` gives it.
-/

namespace Hbackup

variable {cfg : Config} {hs : Option (List (Bytes × Hint))} {host : Host}

/-- A tree, and what a backup of it depends on. -/
structure Tree where
  root : Bytes
  excluded : Bytes → Bool
  crossfs : Bool
  users : UserDb
  host : Host
  /-- The hash of a large file. -/
  hash : Bytes → Stat → Hash

/-- The tree that `cfg` backs up. -/
def Config.tree (cfg : Config) (host : Host) (hash : Bytes → Stat → Hash) : Tree where
  root := cfg.root
  excluded := cfg.excluded
  crossfs := cfg.crossfs
  users := cfg.users
  host
  hash

/-! ### Calls -/

/-- The bytes of a file. -/
def Host.bytes (host : Host) (path : Bytes) : Bytes :=
  match host.data path with
  | .ok (data, _) => data
  | .error _ => []

/-- The target of a link. -/
def Host.target (host : Host) (path : Bytes) : Bytes :=
  match host.readlink path with
  | .ok target => target
  | .error _ => []

/-- The names in a directory. -/
def Host.names (host : Host) (path : Bytes) : List Bytes :=
  match host.contents path with
  | .ok names => names
  | .error _ => []

namespace Tree

variable (t : Tree)

/-- The path of `name` in `dir`. -/
def path (dir name : Bytes) : Bytes := fullname t.root (localname dir name)

/-- What is said about a file. -/
def kind (path : Bytes) (sb : Stat) : Kind :=
  if sb.is S_IFREG then
    if sb.st_size ≤ STORE_LIMIT then .data ((t.host.bytes path).take sb.st_size)
    else .sha1 (t.hash path sb)
  else if sb.is S_IFDIR then .dir
  else if sb.is S_IFLNK then .link (cstr (t.host.target path))
  else if sb.is S_IFCHR then .dev (lit "chr")
  else if sb.is S_IFBLK then .dev (lit "blk")
  else .socket

/-- The entry of `name` in `dir`. -/
def entry (dir : Bytes) (first : Bool) (name : Bytes) (sb : Stat) : Entry where
  path := t.path dir name
  relname := relname first (localname dir name)
  sb
  uid := idName t.users.getpwuid sb.st_uid
  gid := idName t.users.getgrgid sb.st_gid
  kind := t.kind (t.path dir name) sb

/-- A file and its status, if it is backed up. -/
def file (dir name : Bytes) : Option (Bytes × Stat) :=
  if name = lit "." ∨ name = lit ".." ∨ t.excluded (localname dir name) then none
  else
    match t.host.lstat (t.path dir name) with
    | .ok sb => if sb.known then some (name, sb) else none
    | .error _ => none

/-- The files among `names` that are backed up. -/
def files (dir : Bytes) (names : List Bytes) : List (Bytes × Stat) := names.filterMap (t.file dir)

/-- The files of a directory. -/
def dirFiles (dir : Bytes) : List (Bytes × Stat) :=
  t.files dir (t.host.names (fulldir t.root dir))

/-- The entries for `names`. -/
def lines (dir : Bytes) (files : List (Bytes × Stat)) : Bool → List Bytes → List Entry
  | _, [] => []
  | first, name :: names =>
    t.entry dir first name (statOf files name) :: lines dir files false names

/-- Whether `name` in `dir` is a subdirectory that is entered. -/
def enters (dir name : Bytes) (sb : Stat) : Bool :=
  sb.is S_IFDIR && (t.crossfs ||
    match t.host.ismount (t.path dir name) with
    | .ok mount => !mount
    | .error _ => true)

/-- The subdirectories that are entered. -/
def subdirs (dir : Bytes) (files : List (Bytes × Stat)) (names : List Bytes) : List Bytes :=
  (names.filter fun name => t.enters dir name (statOf files name)).map (localname dir)

/-- **The entries of a directory and all below it.** -/
def entries : Nat → Bytes → List Entry
  | 0, _ => []
  | depth + 1, dir =>
    let files := t.dirFiles dir
    t.lines dir files true (sortedNames files) ++
      (t.subdirs dir files (sortedNames files)).flatMap (entries depth)

end Tree

/-! ### What a backup makes of it -/

/-- The calls on the host always give the same answers. -/
def Unchanging (cfg : Config) (host : Host) : Prop := ∀ n, (cfg.env n).host = host

/-- The files always have the same contents. -/
def SameData (cfg : Config) (host : Host) : Prop := ∀ n, (cfg.env n).host.data = host.data

theorem Unchanging.sameData (h : Unchanging cfg host) : SameData cfg host := fun n => by rw [h n]

/-- The hash of a large file can only be that of the tree. -/
def HashesFrom (cfg : Config) (hs : Option (List (Bytes × Hint))) (host : Host)
    (hash : Bytes → Stat → Hash) : Prop :=
  ∀ path sb h, host.lstat path = .ok sb → sb.is S_IFREG → HashFrom cfg hs path sb h →
    h = hash path sb

/-- A file has one type. -/
theorem Stat.is_eq_false {sb : Stat} {type type' : UInt32} (h : sb.is type = true)
    (hne : type ≠ type') : sb.is type' = false := by
  simp only [Stat.is, decide_eq_true_eq, decide_eq_false_iff_not] at *
  rw [h]
  exact hne

variable {hash : Bytes → Stat → Hash} {dir : Bytes}

theorem WasRead.bytes {path data : Bytes} {fault : Option Errno} (h : WasRead cfg path data fault)
    (hdata : SameData cfg host) : data = host.bytes path := by
  obtain ⟨n, hn⟩ := h
  rw [hdata n] at hn
  rw [Host.bytes, hn]

theorem KindOf.eq_tree {path : Bytes} {sb : Stat} {k : Kind} (h : KindOf cfg hs path sb k)
    (hhost : Unchanging cfg host) (hhash : HashesFrom cfg hs host hash)
    (hstat : host.lstat path = .ok sb) : k = (cfg.tree host hash).kind path sb := by
  unfold Tree.kind
  cases h with
  | data htype hsmall hread hsize =>
    rw [if_pos htype, if_pos hsmall, hread.bytes hhost.sameData]
    rfl
  | sha1 htype hlarge hfrom =>
    rw [if_pos htype, if_neg hlarge, hhash path sb _ hstat htype hfrom]
    rfl
  | dir htype => simp [htype, Stat.is_eq_false htype (by decide : S_IFDIR ≠ S_IFREG)]
  | @link n target htype hread hsize =>
    rw [hhost n] at hread
    have htarget : (cfg.tree host hash).host.target path = target := by
      rw [Host.target, show (cfg.tree host hash).host.readlink path = _ from hread]
    simp [htype, Stat.is_eq_false htype (by decide : S_IFLNK ≠ S_IFREG),
      Stat.is_eq_false htype (by decide : S_IFLNK ≠ S_IFDIR), htarget]
  | chr htype =>
    simp [htype, Stat.is_eq_false htype (by decide : S_IFCHR ≠ S_IFREG),
      Stat.is_eq_false htype (by decide : S_IFCHR ≠ S_IFDIR),
      Stat.is_eq_false htype (by decide : S_IFCHR ≠ S_IFLNK)]
  | blk htype =>
    simp [htype, Stat.is_eq_false htype (by decide : S_IFBLK ≠ S_IFREG),
      Stat.is_eq_false htype (by decide : S_IFBLK ≠ S_IFDIR),
      Stat.is_eq_false htype (by decide : S_IFBLK ≠ S_IFLNK),
      Stat.is_eq_false htype (by decide : S_IFBLK ≠ S_IFCHR)]
  | socket htype =>
    simp [Stat.is_eq_false htype (by decide : S_IFSOCK ≠ S_IFREG),
      Stat.is_eq_false htype (by decide : S_IFSOCK ≠ S_IFDIR),
      Stat.is_eq_false htype (by decide : S_IFSOCK ≠ S_IFLNK),
      Stat.is_eq_false htype (by decide : S_IFSOCK ≠ S_IFCHR),
      Stat.is_eq_false htype (by decide : S_IFSOCK ≠ S_IFBLK)]

theorem EntryOf.eq_tree {first : Bool} {name : Bytes} {sb : Stat} {e : Entry}
    (h : EntryOf cfg hs dir first name sb e) (hhost : Unchanging cfg host)
    (hhash : HashesFrom cfg hs host hash)
    (hstat : host.lstat (fullname cfg.root (localname dir name)) = .ok sb) :
    e = (cfg.tree host hash).entry dir first name sb := by
  obtain ⟨path, relname, sb', uid, gid, kind⟩ := e
  obtain ⟨hpath, hrel, hsb, huid, hgid, hkind⟩ := h
  dsimp only at hpath hrel hsb huid hgid hkind
  subst hpath hrel hsb huid hgid
  rw [hkind.eq_tree hhost hhash hstat]
  rfl

@[simp] theorem Config.tree_excluded : (cfg.tree host hash).excluded = cfg.excluded := rfl

@[simp] theorem Config.tree_host : (cfg.tree host hash).host = host := rfl

@[simp] theorem Config.tree_path (dir name : Bytes) :
    (cfg.tree host hash).path dir name = fullname cfg.root (localname dir name) := rfl

/-- The files that are backed up. -/
theorem Stats.eq_tree {c : List Bytes} {files : List (Bytes × Stat)} (h : Stats cfg dir c files)
    (hash : Bytes → Stat → Hash) (hhost : Unchanging cfg host) : files = (cfg.tree host hash).files dir c := by
  induction h with
  | nil => rfl
  | @skip name c files hskip hrest ih =>
    have hfile : (cfg.tree host hash).file dir name = none := by
      rw [Tree.file, Config.tree_excluded, if_pos hskip]
    rw [ih, Tree.files, Tree.files, List.filterMap_cons, hfile]
  | @gone name c files n hname hexcluded hgone hrest ih =>
    rw [hhost n] at hgone
    have hfile : (cfg.tree host hash).file dir name = none := by
      rw [Tree.file, Config.tree_excluded, if_neg (by tauto), Config.tree_host, Config.tree_path,
        hgone]
    rw [ih, Tree.files, Tree.files, List.filterMap_cons, hfile]
  | @unknown name c files n sb hname hexcluded hstat hknown hrest ih =>
    rw [hhost n] at hstat
    have hfile : (cfg.tree host hash).file dir name = none := by
      rw [Tree.file, Config.tree_excluded, if_neg (by tauto), Config.tree_host, Config.tree_path,
        hstat]
      simp [hknown]
    rw [ih, Tree.files, Tree.files, List.filterMap_cons, hfile]
  | @cons name c files n sb hname hexcluded hstat hknown hrest ih =>
    rw [hhost n] at hstat
    have hfile : (cfg.tree host hash).file dir name = some (name, sb) := by
      rw [Tree.file, Config.tree_excluded, if_neg (by tauto), Config.tree_host, Config.tree_path,
        hstat]
      simp [hknown]
    rw [ih, Tree.files, Tree.files, List.filterMap_cons, hfile]

/-- What is known of a file that is backed up. -/
theorem Tree.file_spec {t : Tree} {name : Bytes} {p : Bytes × Stat} (h : t.file dir name = some p) :
    p.1 = name ∧ t.host.lstat (t.path dir name) = .ok p.2 ∧ p.2.known = true := by
  unfold Tree.file at h
  split at h
  · cases h
  · split at h
    · rename_i sb hstat
      split at h
      · cases h
        exact ⟨rfl, hstat, ‹_›⟩
      · cases h
    · cases h

/-- A name whose file is backed up has the status that `lstat` gave. -/
theorem Tree.lstat_statOf {t : Tree} {names : List Bytes} {name : Bytes}
    (h : name ∈ (t.files dir names).map Prod.fst) :
    t.host.lstat (t.path dir name) = .ok (statOf (t.files dir names) name) := by
  have hall : ∀ p ∈ t.files dir names, t.host.lstat (t.path dir p.1) = .ok p.2 := by
    intro p hp
    obtain ⟨name, -, hfile⟩ := List.mem_filterMap.mp hp
    obtain ⟨rfl, hstat, -⟩ := file_spec hfile
    exact hstat
  obtain ⟨p, hp, rfl⟩ := List.mem_map.mp h
  rw [statOf]
  cases hl : (t.files dir names).reverse.lookup p.1 with
  | none =>
    have := List.lookup_eq_none_iff.mp hl p (List.mem_reverse.mpr hp)
    simp at this
  | some sb =>
    obtain ⟨l₁, l₂, hsplit, -⟩ := List.lookup_eq_some_iff.mp hl
    have hmem : (p.1, sb) ∈ t.files dir names := List.mem_reverse.mp (by rw [hsplit]; simp)
    exact hall _ hmem

theorem Tree.mem_lines {t : Tree} {files : List (Bytes × Stat)} {first : Bool} {names : List Bytes}
    {e : Entry} (h : e ∈ t.lines dir files first names) :
    ∃ first' name, name ∈ names ∧ e = t.entry dir first' name (statOf files name) := by
  induction names generalizing first with
  | nil => exact absurd h List.not_mem_nil
  | cons name names ih =>
    rcases List.mem_cons.mp h with rfl | h
    · exact ⟨first, name, List.mem_cons_self, rfl⟩
    · obtain ⟨first', name', hm, he⟩ := ih h
      exact ⟨first', name', List.mem_cons_of_mem _ hm, he⟩

/-- **What is known of an entry**: the status of its path, and that its kind is what is there. -/
theorem Tree.mem_entries {t : Tree} {depth : Nat} {e : Entry} (h : e ∈ t.entries depth dir) :
    t.host.lstat e.path = .ok e.sb ∧ e.kind = t.kind e.path e.sb := by
  induction depth generalizing dir with
  | zero => exact absurd h List.not_mem_nil
  | succ depth ih =>
    rw [Tree.entries] at h
    rcases List.mem_append.mp h with h | h
    · obtain ⟨first, name, hm, rfl⟩ := mem_lines h
      exact ⟨lstat_statOf ((List.mem_insertionSort _).mp hm), rfl⟩
    · obtain ⟨sub, -, h⟩ := List.mem_flatMap.mp h
      exact ih h

/-- A hash is that of a regular file. -/
theorem Tree.kind_eq_sha1 {t : Tree} {path : Bytes} {sb : Stat} {h : Hash}
    (hkind : t.kind path sb = .sha1 h) : sb.is S_IFREG ∧ h = t.hash path sb := by
  unfold Tree.kind at hkind
  split at hkind
  · rename_i htype
    split at hkind
    · cases hkind
    · cases hkind
      exact ⟨htype, rfl⟩
  · split at hkind
    · cases hkind
    · split at hkind
      · cases hkind
      · split at hkind
        · cases hkind
        · split at hkind <;> cases hkind

theorem Enters.eq_tree {name : Bytes} {sb : Stat} {entered : List Bytes}
    (h : Enters cfg dir name sb entered) (hash : Bytes → Stat → Hash)
    (hhost : Unchanging cfg host) :
    entered = if (cfg.tree host hash).enters dir name sb then [localname dir name] else [] := by
  unfold Tree.enters
  cases h with
  | file htype => simp [htype]
  | crossfs htype hcross =>
    have hcross : (cfg.tree host hash).crossfs = true := hcross
    simp [htype, hcross]
  | @onefs n mount htype hcross hmount =>
    rw [hhost n] at hmount
    have hcross : (cfg.tree host hash).crossfs = false := hcross
    cases mount <;> simp [htype, hcross, hmount]

theorem Lines.eq_tree {files : List (Bytes × Stat)} {first : Bool} {names : List Bytes}
    {es : List Entry} {ds : List Bytes} (h : Lines cfg hs dir files first names es ds)
    (hhost : Unchanging cfg host) (hhash : HashesFrom cfg hs host hash)
    (hstat : ∀ name ∈ names,
      host.lstat (fullname cfg.root (localname dir name)) = .ok (statOf files name)) :
    es = (cfg.tree host hash).lines dir files first names ∧
      ds = (cfg.tree host hash).subdirs dir files names := by
  induction h with
  | nil => exact ⟨rfl, rfl⟩
  | @cons first name names e es entered ds hentry henters hrest ih =>
    obtain ⟨hes, hds⟩ := ih fun name hm => hstat name (List.mem_cons_of_mem _ hm)
    refine ⟨?_, ?_⟩
    · rw [Tree.lines, hentry.eq_tree hhost hhash (hstat name List.mem_cons_self), hes]
    · rw [henters.eq_tree hash hhost, hds, Tree.subdirs, Tree.subdirs, List.filter_cons]
      split <;> rfl

/-- What a backup makes of one directory. -/
theorem Own.eq_tree {own : List Entry} {ds : List Bytes} (h : Own cfg hs dir own ds)
    (hhost : Unchanging cfg host) (hhash : HashesFrom cfg hs host hash) :
    own = (cfg.tree host hash).lines dir ((cfg.tree host hash).dirFiles dir) true
        (sortedNames ((cfg.tree host hash).dirFiles dir)) ∧
      ds = (cfg.tree host hash).subdirs dir ((cfg.tree host hash).dirFiles dir)
        (sortedNames ((cfg.tree host hash).dirFiles dir)) := by
  obtain ⟨n, c, files, hcontents, hstats, hlines⟩ := h
  rw [hhost n] at hcontents
  have hc : (cfg.tree host hash).dirFiles dir = (cfg.tree host hash).files dir c := by
    rw [Tree.dirFiles, Host.names]
    change (cfg.tree host hash).files dir
      (match host.contents (fulldir cfg.root dir) with
        | .ok names => names
        | .error _ => []) = _
    rw [hcontents]
  obtain rfl := hstats.eq_tree hash hhost
  rw [hc]
  exact hlines.eq_tree hhost hhash fun name hm =>
    Tree.lstat_statOf (t := cfg.tree host hash) ((List.mem_insertionSort _).mp hm)

/-- **While the tree does not change, a backup makes its entries of it.** -/
theorem Walk.eq_tree {depth : Nat} {es : List Entry} (h : Walk cfg hs depth dir es)
    (hhost : Unchanging cfg host) (hhash : HashesFrom cfg hs host hash) :
    es = (cfg.tree host hash).entries depth dir := by
  induction depth generalizing dir es with
  | zero => exact h.elim
  | succ depth ih =>
    obtain ⟨own, ds, subs, hown, hsubs, rfl⟩ := h
    obtain ⟨rfl, rfl⟩ := hown.eq_tree hhost hhash
    rw [Tree.entries]
    refine congrArg _ ?_
    clear hown
    generalize (cfg.tree host hash).subdirs dir _ _ = ds at hsubs
    induction hsubs with
    | nil => rfl
    | cons hw _ ih' => rw [List.flatten_cons, List.flatMap_cons, ih hw, ih']

end Hbackup
