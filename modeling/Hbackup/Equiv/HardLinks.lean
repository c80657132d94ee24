import Hbackup.Equiv.RestoreRun
import Hbackup.Equiv.Source

/-!
# Hard links and mount points

A backup of an unchanging tree and a restore of its index into an empty directory give every file
its place and its contents.  The index identifies a file with several links by its inode number
only, so that hard links survive if no two filesystems share such a number, and not otherwise
(`links_survive_iff`).
-/

namespace Hbackup

open Preorder ProgramLogic

variable {cfg r : Config} {host : Host} {store hintStore s : Store} {w w' : World} {depth : Nat}
  {target : Target} {hash : Bytes → Stat → Hash}

/-! ### Entries of a tree -/

theorem Tree.type_kind {t : Tree} {path : Bytes} {sb : Stat} :
    (t.kind path sb).type = none ↔ sb.is S_IFREG := by
  unfold Tree.kind
  split
  · rename_i htype
    refine iff_of_true ?_ htype
    split <;> rfl
  · rename_i htype
    refine iff_of_false ?_ htype
    split_ifs <;> simp [Kind.type]

/-- The inode number is on the line if the number of links is nontrivial. -/
theorem inodenum_of_regular {t : Tree} {e : Entry} {path : Bytes} (hk : e.kind = t.kind path e.sb)
    (htype : e.sb.is S_IFREG) :
    e.inodenum = if e.sb.st_nlink > 1 then some e.sb.st_ino else none := by
  unfold Entry.inodenum
  rw [hk, Tree.type_kind.mpr htype]

theorem restorable_placed (hnames : RealNames host) :
    Restorable ((cfg.tree host hash).placed depth) where
  arranged := Tree.arranged_placed (t := cfg.tree host hash) hnames depth
  devices := by
    intro pe hm type hk
    obtain ⟨-, -, -, -, hkind⟩ := Tree.entry_of_placed (t := cfg.tree host hash) hnames hm
    rw [hkind] at hk
    unfold Tree.kind at hk
    split_ifs at hk <;> cases hk
    · exact .inl rfl
    · exact .inr rfl

/-- The file `p` is a regular one that is backed up, with the status `sb`. -/
structure Tree.Regular (t : Tree) (p : List Bytes) (sb : Stat) : Prop where
  kept : t.Kept p
  lstat : t.host.lstat (t.full p) = .ok sb
  regular : sb.is S_IFREG

theorem Tree.Regular.entry {t : Tree} {p : List Bytes} {sb : Stat} (h : t.Regular p sb)
    (hnames : RealNames t.host) (hwithin : Within t.subnames depth []) :
    ∃ e, (p, e) ∈ t.placed depth ∧ e.sb = sb ∧ e.kind = t.kind (t.full p) e.sb ∧
      e.inodenum = if sb.st_nlink > 1 then some sb.st_ino else none := by
  obtain ⟨⟨p, e⟩, hm, rfl⟩ := List.mem_map.mp ((mem_places hnames hwithin).mpr h.kept)
  obtain ⟨-, hstat, -, -, hkind⟩ := entry_of_placed hnames hm
  obtain rfl := Except.ok.inj (hstat.symm.trans h.lstat)
  exact ⟨e, hm, rfl, hkind, inodenum_of_regular hkind h.regular⟩

/-- An entry for a regular file. -/
theorem Tree.regular_of_placed {t : Tree} (hnames : RealNames t.host)
    (hwithin : Within t.subnames depth []) {pe : Placed} (hm : pe ∈ t.placed depth)
    (htype : pe.2.kind.type = none) : t.Regular pe.1 pe.2.sb := by
  obtain ⟨-, hstat, -, -, hkind⟩ := entry_of_placed hnames hm
  rw [hkind] at htype
  exact ⟨(mem_places hnames hwithin).mp (List.mem_map_of_mem hm), hstat, type_kind.mp htype⟩

/-! ### The tree that is restored -/

/-- Two names are hard links of each other. -/
def Target.HardLinks (t : Target) (path path' : List Bytes) : Prop :=
  ∃ i, t.names.lookup path = some i ∧ t.names.lookup path' = some i

/-- Where there is something, another path is a link to it exactly if it has the same inode. -/
theorem Target.hardLinks_iff_lookup {t : Target} {path path' : List Bytes} {i : Nat}
    (hi : t.names.lookup path = some i) :
    t.HardLinks path path' ↔ t.names.lookup path = t.names.lookup path' := by
  constructor
  · rintro ⟨j, hj, hj'⟩
    rw [hj, hj']
  · intro heq
    exact ⟨i, hi, heq ▸ hi⟩

/-- The index of `cfg` is restored into an empty directory, with no encoding conversion. -/
structure Restores (cfg r : Config) (target : Target) : Prop where
  repo : r.repo = cfg.repo
  indexfile : r.indexfile = cfg.indexfile
  root : 0 ∉ r.root
  convert : ∀ s, r.convert s = s
  empty : EmptyRoot r target

theorem HoldsIndex.wp_do_restore (h : HoldsIndex cfg host hash depth s) (hnames : RealNames host)
    (hr : Restores cfg r target) {s' : Store}
    (hindex : s'.lookup cfg.indexfile = s.lookup cfg.indexfile) :
    wp (do_restore r)
      (fun _ w' => RestoredTree r ((cfg.tree host hash).placed depth) { store := s', target } w')
      (fun _ _ => Smooth r → r.repo ≠ [] → r.root ≠ [] → r.indexfile ≠ [] →
        ∃ pe ∈ (cfg.tree host hash).placed depth,
          sourceOf ((cfg.tree host hash).placed depth) pe = pe ∧ Lacking r s' pe.2.details)
      { store := s', target } := by
  refine wp_do_restore_rebuilt hr.root hr.convert (restorable_placed hnames) hr.empty ?_ ?_
  · exact ⟨by simp, by simp⟩
  · rw [hr.indexfile, ← h.index]
    exact hindex

/-- The names of owners are known where the tree is restored, if owners are restored. -/
def OwnersResolve (t : Tree) (r : Config) : Prop :=
  r.permissions = true → ∀ p sb, t.Kept p → t.host.lstat (t.full p) = .ok sb →
    (idOf r.users.getpwnam (idName t.users.getpwuid sb.st_uid)).isSome ∧
      (idOf r.users.getgrnam (idName t.users.getgrgid sb.st_gid)).isSome

theorem Entry.details_uid (e : Entry) : e.details.get (lit "uid") = e.uid ∧
    e.details.get (lit "gid") = e.gid :=
  ⟨e.details_of_lookup rfl, e.details_of_lookup rfl⟩

/-- **Nothing is wrong with an entry** if its object is there and its owner is known. -/
theorem HoldsIndex.not_lacking (h : HoldsIndex cfg host hash depth s) (hnames : RealNames host)
    (howners : OwnersResolve (cfg.tree host hash) r) {s' : Store} {pe : Placed}
    (hm : pe ∈ (cfg.tree host hash).placed depth)
    (hobject : ∀ hash, pe.2.kind = .sha1 hash →
      ∃ c, s'.lookup (objectPath r.repo hash) = some (.file c)) :
    ¬ Lacking r s' pe.2.details := by
  obtain ⟨-, hstat, huid, hgid, -⟩ := Tree.entry_of_placed (t := cfg.tree host hash) hnames hm
  have hkept : (cfg.tree host hash).Kept pe.1 :=
    (Tree.mem_places (t := cfg.tree host hash) hnames h.within).mp (List.mem_map_of_mem hm)
  intro hlacking
  cases hlacking with
  | @contents hash htype hdata hhash hlost =>
    rw [pe.2.details_sha1] at hhash
    split at hhash
    · rename_i h' hk
      obtain ⟨c, hc⟩ := hobject h' hk
      rw [← Option.some.inj hhash] at hlost
      exact hlost h' (hashdecode_hexencode h') c hc
    · cases hhash
  | uid hp hid =>
    have hu := (howners hp pe.1 pe.2.sb hkept hstat).1
    rw [pe.2.details_uid.1, huid] at hid
    rw [hid] at hu
    cases hu
  | gid hp hid =>
    have hg := (howners hp pe.1 pe.2.sb hkept hstat).2
    rw [pe.2.details_uid.2, hgid] at hid
    rw [hid] at hg
    cases hg
  | perms hbits =>
    apply hbits
    rw [pe.2.permsOf_details, UInt32.and_assoc]
    have hzero : (0o7777 : UInt32) &&& S_IFMT = 0 := by decide
    rw [hzero, UInt32.and_zero]

section Restored

variable {w₀ : World} (h : HoldsIndex cfg host hash depth s) (hnames : RealNames host)
  (hw : RestoredTree r ((cfg.tree host hash).placed depth) w₀ w)

include h hnames hw

/-- A regular file is restored from the entry of `q`: its own, or the first one with its inode
number. -/
theorem RestoredTree.regular {p : List Bytes} {sb : Stat} (hp : (cfg.tree host hash).Regular p sb) :
    ∃ q e ino, (q, e) ∈ (cfg.tree host hash).placed depth ∧ (cfg.tree host hash).Regular q e.sb ∧
      (q = p ∨ 1 < sb.st_nlink ∧ 1 < e.sb.st_nlink ∧ sb.st_ino = e.sb.st_ino) ∧
      w.target.get (r.spot p) = some ino ∧ Complete r w₀.store e.details ino := by
  obtain ⟨pe, hm, hsb, hkind, hinode⟩ := hp.entry hnames h.within
  have hregular : pe.kind.type = none := by
    rw [hkind, hsb]
    exact Tree.type_kind.mpr hp.regular
  have hnot : ¬ Placed.IsSocket (p, pe) := by
    unfold Placed.IsSocket
    rw [hregular]
    simp
  obtain ⟨i, ino, hi, hino, hcomplete⟩ := hw.made _ hm hnot
  obtain ⟨hsm, -, hsn⟩ := sourceOf_spec hm
  have hget : w.target.get (r.spot p) = some ino := by
    unfold Target.get
    rw [hi]
    exact hino
  -- what is there is what was restored for the first entry with the inode number
  generalize hqe : sourceOf ((cfg.tree host hash).placed depth) (p, pe) = qe at *
  obtain ⟨q, e⟩ := qe
  cases hn : pe.inodenum with
  | none =>
    rw [sourceOf_of_none hn] at hqe
    cases hqe
    exact ⟨p, pe, ino, hm, hsb ▸ hp, .inl rfl, hget, hcomplete⟩
  | some n =>
    rw [hn] at hsn
    have htype := Entry.type_of_inodenum hsn
    have hq := Tree.regular_of_placed (t := cfg.tree host hash) hnames h.within hsm htype
    obtain ⟨-, -, -, -, hqkind⟩ := Tree.entry_of_placed (t := cfg.tree host hash) hnames hsm
    have hqinode := inodenum_of_regular hqkind hq.regular
    rw [hsn] at hqinode
    rw [hn] at hinode
    split at hinode
    · rename_i hlinks
      split at hqinode
      · rename_i hqlinks
        refine ⟨q, e, ino, hsm, hq, .inr ⟨hlinks, hqlinks, ?_⟩, hget, hcomplete⟩
        exact Option.some.inj (hinode.symm.trans hqinode)
      · cases hqinode
    · cases hinode

/-- **Regular files are restored as hard links** exactly if both have several links and the same
inode number. -/
theorem RestoredTree.hardLinks_iff {p q : List Bytes} {sb sb' : Stat}
    (hp : (cfg.tree host hash).Regular p sb) (hq : (cfg.tree host hash).Regular q sb') :
    w.target.HardLinks (r.spot p) (r.spot q) ↔
      p = q ∨ 1 < sb.st_nlink ∧ 1 < sb'.st_nlink ∧ sb.st_ino = sb'.st_ino := by
  obtain ⟨pe, hpm, hpsb, hpkind, hpinode⟩ := hp.entry hnames h.within
  obtain ⟨qe, hqm, hqsb, hqkind, hqinode⟩ := hq.entry hnames h.within
  have hnot : ∀ {p : List Bytes} {e : Entry},
      e.kind = (cfg.tree host hash).kind ((cfg.tree host hash).full p) e.sb → e.sb.is S_IFREG →
      ¬ Placed.IsSocket (p, e) := by
    intro p e hkind htype
    unfold Placed.IsSocket
    rw [hkind, Tree.type_kind.mpr htype]
    simp
  have hpnot := hnot hpkind (hpsb ▸ hp.regular)
  have hqnot := hnot hqkind (hqsb ▸ hq.regular)
  obtain ⟨i, ino, hi, -⟩ := hw.made _ hpm hpnot
  have hi : w.target.names.lookup (r.spot p) = some i := hi
  rw [Target.hardLinks_iff_lookup hi, hw.linked _ hpm _ hqm hpnot hqnot, sourceOf_eq_iff hpm hqm]
  dsimp only
  rw [hpinode, hqinode]
  refine or_congr ?_ ?_
  · constructor
    · intro heq
      exact congrArg Prod.fst heq
    · intro heq
      exact Tree.placed_injective (t := cfg.tree host hash) hnames hpm hqm heq
  · by_cases hpl : sb.st_nlink > 1
    · by_cases hql : sb'.st_nlink > 1
      · simp [hpl, hql]
      · simp [hpl, hql]
    · simp [hpl]

end Restored

/-! ### Contents -/

/-- What a backup starts from: the index is not among the objects, the objects hash to their names
and no two contents have the same hash, and what the hints say is right. -/
structure Starts (cfg : Config) (host : Host) (store hintStore : Store) : Prop where
  outside : Outside cfg
  unchanging : Unchanging cfg host
  real : RealFiles host
  hints : TruthfulHints cfg hintStore host
  repo : GoodRepo cfg store
  collisions : Set.InjOn cfg.sha1 (allContents cfg store host)

theorem devices_placed (hnames : RealNames host) {pe : Placed}
    (hm : pe ∈ (cfg.tree host hash).placed depth) :
    ∀ type, pe.2.kind = .dev type → type = lit "chr" ∨ type = lit "blk" :=
  (restorable_placed hnames).devices pe hm

/-- **The contents of a regular file**, as its entry and the repository have them. -/
theorem HoldsTree.body_of_complete (h : HoldsTree cfg host depth store s)
    (hs : Starts cfg host store hintStore) (hrepo : r.repo = cfg.repo) {pe : Placed} {ino : Inode}
    (hm : pe ∈ (cfg.source host).placed depth) (htype : pe.2.sb.is S_IFREG)
    (hc : Complete r s pe.2.details ino) :
    ino.body = .file (host.bytes ((cfg.source host).full pe.1)) := by
  have hsays := hc.body.describedBy (devices_placed hs.real.names hm)
  unfold Entry.Says at hsays
  rcases h.contents pe hm htype with hk | hk
  · rw [hk] at hsays
    exact hsays
  · rw [hk] at hsays
    obtain ⟨c, hc, hbody⟩ := hsays
    rw [hrepo, h.object hs.real hs.repo hs.collisions hm hk] at hc
    cases hc
    exact hbody

/-! ### Files with several links -/

/-- Regular files of the tree are restored faithfully: hard links of each other only if they were
the same file, and with their contents. -/
structure KeepsFiles (t : Tree) (r : Config) (target : Target) : Prop where
  links : ∀ p q sb sb', t.Regular p sb → t.Regular q sb' →
    target.HardLinks (r.spot p) (r.spot q) → sb.SameFile sb'
  contents : ∀ p sb, t.Regular p sb → ∃ ino, target.get (r.spot p) = some ino ∧
    ino.body = .file (t.host.bytes (t.full p))

/-- No two regular files with several links have the same inode number on different filesystems. -/
def Tree.DistinctInodes (t : Tree) : Prop :=
  ∀ p q sb sb', t.Regular p sb → t.Regular q sb' → 1 < sb.st_nlink → 1 < sb'.st_nlink →
    sb.st_ino = sb'.st_ino → sb.st_dev = sb'.st_dev

/-- **Hard links with mount points**: what is restored is faithful exactly if no inode number of a
file with several links is shared between filesystems. -/
theorem links_survive_iff (cfg r : Config) (host : Host) (depth : Nat) (store hintStore : Store)
    (target : Target) (w w' : World) (hs : Starts cfg host store hintStore)
    (hr : Restores cfg r target) (hbackup : do_backup cfg depth { store, hintStore } = .ok () w)
    (hrestore : do_restore r { store := w.store, target } = .ok () w') :
    KeepsFiles (cfg.source host) r w'.target ↔ (cfg.source host).DistinctInodes := by
  have h := do_backup_holds hs.outside hs.unchanging hs.real hs.hints hbackup
  have hindex := h.toHoldsIndex
  have hw := wp_elim_ok (h.wp_do_restore hs.real.names hr rfl) hrestore
  constructor
  · -- files with the same inode number become hard links
    intro hkeeps p q sb sb' hp hq hlinks hlinks' hino
    have hhard := (hw.hardLinks_iff hindex hs.real.names hp hq).mpr (.inr ⟨hlinks, hlinks', hino⟩)
    exact (hkeeps.links p q sb sb' hp hq hhard).1
  intro hdistinct
  constructor
  · intro p q sb sb' hp hq hhard
    rcases (hw.hardLinks_iff hindex hs.real.names hp hq).mp hhard with rfl | ⟨hlinks, hlinks', hino⟩
    · have hstat := hp.lstat.symm.trans hq.lstat
      rw [Except.ok.inj hstat]
      exact ⟨rfl, rfl⟩
    · exact ⟨hdistinct p q sb sb' hp hq hlinks hlinks' hino, hino⟩
  · intro p sb hp
    obtain ⟨q, e, ino, hm, hq, hsource, hget, hcomplete⟩ := hw.regular hindex hs.real.names hp
    refine ⟨ino, hget, ?_⟩
    rw [h.body_of_complete hs hr.repo hm hq.regular hcomplete]
    rcases hsource with rfl | ⟨hlinks, hlinks', hino⟩
    · rfl
    · have hsame : sb.SameFile e.sb := ⟨hdistinct p q sb e.sb hp hq hlinks hlinks' hino, hino⟩
      exact congrArg Body.file (hs.real.bytes hp.lstat hq.lstat hsame)

/-- A file of one byte with two links. -/
def twoLinks (dev ino : UInt64) : Stat :=
  { (default : Stat) with
    st_mode := S_IFREG, st_nlink := 2, st_dev := dev, st_ino := ino, st_size := 1 }

/-- A directory of the device 2. -/
def mountedDir : Stat := { (default : Stat) with st_mode := S_IFDIR, st_dev := 2, st_ino := 2 }

/-- The inode number of the other file: the same one, or another. -/
def otherInode (shared : Bool) : UInt64 := if shared then 5 else 6

/-- The file `a`, and `m/b` on another filesystem, perhaps with the same inode number. -/
def mounted (shared : Bool) : Host where
  contents path := .ok (if path = lit "/home" then [lit "a", lit "m"]
    else if path = lit "/home/m" then [lit "b"] else [])
  lstat path := if path = lit "/home/a" then .ok (twoLinks 1 5)
    else if path = lit "/home/m" then .ok mountedDir
    else if path = lit "/home/m/b" then .ok (twoLinks 2 (otherInode shared)) else .error ENOENT
  data path := if path = lit "/home/a" then .ok ([1], none)
    else if path = lit "/home/m/b" then .ok ([2], none) else .error ENOENT
  readlink _ := .error ENOENT
  ismount path := .ok (path = lit "/home/m")
  utimes _ := .ok ()

theorem length_firsts (c : Bytes) : (List.replicate HASH_SIZE (c.headD 0)).length = HASH_SIZE :=
  List.length_replicate

/-- A hash that is made of the first byte. -/
def firstHash (c : Bytes) : Hash := ⟨List.replicate HASH_SIZE (c.headD 0), length_firsts c⟩

/-- A backup of it. -/
def mountedBackup (shared : Bool) : Config :=
  { largeFile 1000 with
    sha1 := firstHash
    env := fun n => { (largeFile 1000).env n with host := mounted shared } }

/-- The restore of a backup to `/r`. -/
def restoreToR : Config :=
  { smallRestore none with repo := lit "repo", indexfile := lit "index", permissions := true }

section Mounted

variable {shared : Bool}

theorem lstat_mounted {path : Bytes} {sb : Stat} (h : (mounted shared).lstat path = .ok sb) :
    path = lit "/home/a" ∧ sb = twoLinks 1 5 ∨ path = lit "/home/m" ∧ sb = mountedDir ∨
      path = lit "/home/m/b" ∧ sb = twoLinks 2 (otherInode shared) := by
  have hlstat : (mounted shared).lstat path = if path = lit "/home/a" then .ok (twoLinks 1 5)
      else if path = lit "/home/m" then .ok mountedDir
      else if path = lit "/home/m/b" then .ok (twoLinks 2 (otherInode shared))
      else .error ENOENT := rfl
  rw [hlstat] at h
  split_ifs at h with ha hm hb
  · exact .inl ⟨ha, (Except.ok.inj h).symm⟩
  · exact .inr (.inl ⟨hm, (Except.ok.inj h).symm⟩)
  · exact .inr (.inr ⟨hb, (Except.ok.inj h).symm⟩)

theorem realNames_mounted : RealNames (mounted shared) := by
  have hnames : ∀ path, (mounted shared).names path = if path = lit "/home" then [lit "a", lit "m"]
      else if path = lit "/home/m" then [lit "b"] else [] := fun _ => rfl
  constructor
  · intro path
    rw [hnames]
    split_ifs <;> decide
  · intro path
    rw [hnames]
    split_ifs <;> decide

theorem realFiles_mounted : RealFiles (mounted shared) where
  names := realNames_mounted
  size := by
    intro path sb data fault hstat htype hdata
    have hdata' : (if path = lit "/home/a" then Except.ok ([1], none)
      else if path = lit "/home/m/b" then .ok ([2], none) else .error ENOENT) =
        Except.ok (data, fault) := hdata
    rcases lstat_mounted hstat with ⟨rfl, rfl⟩ | ⟨rfl, rfl⟩ | ⟨rfl, rfl⟩
    · rw [if_pos rfl] at hdata'
      cases hdata'
      exact ⟨le_refl _, fun _ => rfl⟩
    · cases htype
    · rw [if_neg (by decide), if_pos rfl] at hdata'
      cases hdata'
      exact ⟨le_refl _, fun _ => rfl⟩
  same := by
    intro path path' sb sb' hstat hstat' hsame
    have h12 : (1 : UInt64) ≠ 2 := by decide
    have hother : ∀ shared, otherInode shared ≠ 2 := by decide
    rcases lstat_mounted hstat with ⟨rfl, rfl⟩ | ⟨rfl, rfl⟩ | ⟨rfl, rfl⟩ <;>
      rcases lstat_mounted hstat' with ⟨rfl, rfl⟩ | ⟨rfl, rfl⟩ | ⟨rfl, rfl⟩
    · exact ⟨rfl, rfl⟩
    · exact absurd hsame.1 h12
    · exact absurd hsame.1 h12
    · exact absurd hsame.1.symm h12
    · exact ⟨rfl, rfl⟩
    · exact absurd hsame.2.symm (hother shared)
    · exact absurd hsame.1.symm h12
    · exact absurd hsame.2 (hother shared)
    · exact ⟨rfl, rfl⟩

/-- Only three contents are found. -/
theorem bytes_mounted (path : Bytes) : (mounted shared).bytes path = [1] ∨
    (mounted shared).bytes path = [2] ∨ (mounted shared).bytes path = [] := by
  have hbytes : (mounted shared).bytes path = if path = lit "/home/a" then [1]
      else if path = lit "/home/m/b" then [2] else [] := by
    unfold Host.bytes mounted
    dsimp only
    by_cases ha : path = lit "/home/a"
    · rw [if_pos ha, if_pos ha]
    · by_cases hb : path = lit "/home/m/b"
      · rw [if_neg ha, if_neg ha, if_pos hb, if_pos hb]
      · rw [if_neg ha, if_neg ha, if_neg hb, if_neg hb]
  rw [hbytes]
  split_ifs
  · exact .inl rfl
  · exact .inr (.inl rfl)
  · exact .inr (.inr rfl)

theorem not_under_index : ¬ Under (objectsDir (lit "repo")) (lit "index") := by
  unfold Under
  decide

theorem starts_mounted : Starts (mountedBackup shared) (mounted shared) ∅ ∅ where
  outside := ⟨not_under_index⟩
  unchanging _ := rfl
  real := realFiles_mounted
  hints := truthfulHints_of_nil rfl
  repo _ _ h := by cases h
  collisions := by
    have hcontents : ∀ c ∈ allContents (mountedBackup shared) ∅ (mounted shared),
        c = [1] ∨ c = [2] ∨ c = [] := by
      rintro c (⟨h, hc⟩ | ⟨path, rfl⟩)
      · cases hc
      · exact bytes_mounted path
    intro c hc c' hc' heq
    -- a hash is made of the first byte
    have hfirst : c.headD 0 = c'.headD 0 :=
      (List.replicate_inj.mp (congrArg Hash.bytes heq)).2.resolve_left (by decide)
    rcases hcontents c hc with rfl | rfl | rfl <;> rcases hcontents c' hc' with rfl | rfl | rfl <;>
      first | rfl | exact absurd hfirst (by decide)

theorem zero_not_mem_r : 0 ∉ lit "/r" := by
  decide

theorem emptyRoot_r (hroot : r.root = lit "/r") : EmptyRoot r (emptyRoot []).target := by
  have hcomponents : components r.root = [lit "r"] := by
    rw [hroot]
    decide
  refine ⟨ok_emptyRoot _, by rw [hcomponents]; decide, fun p hp => ?_⟩
  have hne : r.spot p ≠ [lit "r"] := by
    unfold Config.spot
    rw [hcomponents]
    simpa using hp
  exact (AList.lookup_insert_ne hne).trans rfl

theorem restores_mounted : Restores (mountedBackup shared) restoreToR (emptyRoot []).target :=
  ⟨rfl, rfl, zero_not_mem_r, fun _ => rfl, emptyRoot_r rfl⟩

/-- `m/b` is backed up. -/
theorem regular_mounted : ((mountedBackup shared).source (mounted shared)).Regular
    [lit "m", lit "b"] (twoLinks 2 (otherInode shared)) := by
  have hprefix : ∀ q, q <+: [lit "m", lit "b"] →
      q = [] ∨ q = [lit "m"] ∨ q = [lit "m", lit "b"] := by
    intro q hq
    simpa using (List.mem_inits _ _).mpr hq
  have hlast : ((mounted shared).lstat (((mountedBackup shared).source (mounted shared)).full
      [lit "m", lit "b"])) = .ok (twoLinks 2 (otherInode shared)) := by
    cases shared <;> decide +kernel
  have htype : (twoLinks 2 (otherInode shared)).known = true ∧
      (twoLinks 2 (otherInode shared)).is S_IFREG = true := by
    cases shared <;> decide
  refine ⟨⟨by simp, ?_, ?_, ⟨_, hlast, htype.1⟩, fun _ _ _ => rfl, ?_⟩, hlast, htype.2⟩
  · intro q name hq
    rcases hprefix _ hq with h | h | h
    · simp at h
    · obtain ⟨rfl, hname⟩ := List.append_inj' (show q ++ [name] = [] ++ [lit "m"] from h) rfl
      rw [List.singleton_injective hname]
      cases shared <;> decide +kernel
    · obtain ⟨rfl, hname⟩ := List.append_inj' (show q ++ [name] = [lit "m"] ++ [lit "b"] from h) rfl
      rw [List.singleton_injective hname]
      cases shared <;> decide +kernel
  · intro q hq hne hne'
    rcases hprefix q hq with rfl | rfl | rfl
    · exact absurd rfl hne
    · refine ⟨mountedDir, ?_, rfl⟩
      cases shared <;> decide +kernel
    · exact absurd rfl hne'
  · intro hcross
    cases hcross

end Mounted

/-- The backup of a tree, restored to `/r`. -/
def restoredMounted (shared : Bool) : World :=
  stateAfter (do_restore restoreToR) {
    store := (stateAfter (do_backup (mountedBackup shared) 3) { store := ∅ }).store
    target := (emptyRoot []).target }

theorem runs_mounted (shared : Bool) : ∃ w,
    do_backup (mountedBackup shared) 3 { store := ∅ } = .ok () w ∧
    do_restore restoreToR { store := w.store, target := (emptyRoot []).target } =
      .ok () (restoredMounted shared) := by
  have hvalue : value? (do_backup (mountedBackup shared) 3) { store := ∅ } = some () := by
    cases shared <;> decide +kernel
  have hvalue' : value? (do_restore restoreToR) {
      store := (stateAfter (do_backup (mountedBackup shared) 3) { store := ∅ }).store
      target := (emptyRoot []).target } = some () := by
    cases shared <;> decide +kernel
  exact ⟨_, ok_of_value? hvalue, ok_of_value? hvalue'⟩

/-- The file on the other filesystem is restored with the contents of the first one. -/
theorem not_links_survive : ¬ ∀ (cfg r : Config) (host : Host) (depth : Nat)
    (store hintStore : Store) (target : Target) (w w' : World),
    Starts cfg host store hintStore → Restores cfg r target →
    do_backup cfg depth { store, hintStore } = .ok () w →
    do_restore r { store := w.store, target } = .ok () w' →
    KeepsFiles (cfg.source host) r w'.target := by
  intro h
  obtain ⟨w, hbackup, hrestore⟩ := runs_mounted true
  have hkeeps := h _ _ _ _ _ _ _ _ _ starts_mounted restores_mounted hbackup hrestore
  obtain ⟨ino, hget, hbody⟩ := hkeeps.contents _ _ regular_mounted
  have hfirst : ((restoredMounted true).target.get
      (restoreToR.spot [lit "m", lit "b"])).map Inode.body = some (.file [1]) := by decide +kernel
  have hsecond : (mounted true).bytes (((mountedBackup true).source (mounted true)).full
      [lit "m", lit "b"]) = [2] := by decide +kernel
  rw [hget, Option.map_some, hbody, Option.some_inj, Body.file.injEq] at hfirst
  exact absurd (hsecond.symm.trans hfirst) (by decide)

/-- With another inode number both files are restored. -/
theorem links_survive_mounted : ∃ w w',
    do_backup (mountedBackup false) 3 { store := ∅ } = .ok () w ∧
    do_restore restoreToR { store := w.store, target := (emptyRoot []).target } = .ok () w' ∧
    KeepsFiles ((mountedBackup false).source (mounted false)) restoreToR w'.target := by
  obtain ⟨w, hbackup, hrestore⟩ := runs_mounted false
  refine ⟨w, _, hbackup, hrestore, (links_survive_iff _ _ _ _ _ _ _ _ _ starts_mounted
    restores_mounted hbackup hrestore).mpr ?_⟩
  intro p q sb sb' hp hq hlinks hlinks' hino
  rcases lstat_mounted hp.lstat with ⟨-, rfl⟩ | ⟨-, rfl⟩ | ⟨-, rfl⟩ <;>
    rcases lstat_mounted hq.lstat with ⟨-, rfl⟩ | ⟨-, rfl⟩ | ⟨-, rfl⟩ <;>
    first | rfl | exact absurd hino (by decide)

end Hbackup
