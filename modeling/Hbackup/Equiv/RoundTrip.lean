import Hbackup.Equiv.HardLinks
import Hbackup.Equiv.Overwrite

/-!
# A tree is restored as it was backed up

A tree of directories, regular files and symbolic links on one filesystem (`Tree.Plain`) is backed
up and restored into an empty directory: there is no error, and the tree that is restored is the
same (`backup_restore_round_trip`).
-/

namespace Hbackup

open Preorder ProgramLogic

variable {cfg r : Config} {host : Host} {store hintStore s : Store} {w w' : World} {depth : Nat}
  {target : Target}

/-! ### Trees on one filesystem -/

namespace Tree

/-- `p` is in the tree: the directories on the way list its names. -/
structure Present (t : Tree) (p : List Bytes) : Prop where
  nonempty : p ≠ []
  listed : ∀ q name, q ++ [name] <+: p → name ∈ t.names q
  inner : ∀ q, q <+: p → q ≠ [] → q ≠ p → t.IsDir q

/-- A tree of directories, regular files and symbolic links, on one filesystem and with nothing
excluded.  The number of links of a file is not less than that of its names in the tree. -/
structure Plain (t : Tree) : Prop where
  included : ∀ path, t.excluded path = false
  types : ∀ p, t.Present p → ∃ sb, t.host.lstat (t.full p) = .ok sb ∧
    (sb.is S_IFREG ∨ sb.is S_IFDIR ∨ sb.is S_IFLNK)
  onefs : ∀ p q sb sb', t.Present p → t.Present q → t.host.lstat (t.full p) = .ok sb →
    t.host.lstat (t.full q) = .ok sb' → sb.st_dev = sb'.st_dev
  nomount : ∀ p, t.Present p → ¬ t.IsMount p
  links : ∀ p q sb sb', t.Present p → t.Present q → p ≠ q → t.host.lstat (t.full p) = .ok sb →
    t.host.lstat (t.full q) = .ok sb' → sb.SameFile sb' → sb.is S_IFREG → 1 < sb.st_nlink
  targets : ∀ p, t.Present p → 0 ∉ t.host.target (t.full p)

variable {t : Tree}

/-- **All of a plain tree is to be backed up.** -/
theorem Plain.kept_iff (h : t.Plain) {p : List Bytes} : t.Kept p ↔ t.Present p := by
  constructor
  · intro hk
    exact ⟨hk.nonempty, hk.listed, hk.inner⟩
  · intro hp
    have habove : ∀ q, q <+: p → q ≠ [] → q ≠ p → t.Present q := by
      intro q hq hne hqp
      refine ⟨hne, fun q' name hq' => hp.listed q' name (hq'.trans hq), ?_⟩
      intro q' hq' hne' hqq'
      refine hp.inner q' (hq'.trans hq) hne' ?_
      rintro rfl
      exact hqp (hq.eq_of_length_le hq'.length_le)
    obtain ⟨sb, hstat, htype⟩ := h.types p hp
    refine ⟨hp.nonempty, hp.listed, hp.inner, ⟨sb, hstat, ?_⟩, fun q _ _ => h.included _, ?_⟩
    · unfold Stat.known
      rcases htype with htype | htype | htype <;> simp [htype]
    · intro _ q hq hne hqp
      exact h.nomount q (habove q hq hne hqp)

/-- What a file is. -/
def bodyOf (t : Tree) (p : List Bytes) (sb : Stat) : Body :=
  if sb.is S_IFREG then .file (t.host.bytes (t.full p))
  else if sb.is S_IFDIR then .dir else .link (t.host.target (t.full p))

end Tree

/-- A file with the status `sb` and its copy: type and contents, owner, permission bits and the
modification time. -/
structure SameAs (t : Tree) (r : Config) (p : List Bytes) (sb : Stat) (ino : Inode) : Prop where
  body : ino.body = t.bodyOf p sb
  uid : idOf r.users.getpwnam (idName t.users.getpwuid sb.st_uid) = some ino.uid
  gid : idOf r.users.getgrnam (idName t.users.getgrgid sb.st_gid) = some ino.gid
  mode : ¬ sb.is S_IFLNK → ino.mode = sb.st_mode &&& 0o7777
  mtime : ¬ sb.is S_IFLNK → ino.mtime = sb.st_mtime

/-- The tree in `r.root` is the tree `t`. -/
structure SameTree (t : Tree) (r : Config) (target : Target) : Prop where
  paths : ∀ p, p ≠ [] → ((target.names.lookup (r.spot p)).isSome ↔ t.Present p)
  files : ∀ p sb, t.Present p → t.host.lstat (t.full p) = .ok sb →
    ∃ ino, target.get (r.spot p) = some ino ∧ SameAs t r p sb ino
  links : ∀ p q sb sb', t.Present p → t.Present q → t.host.lstat (t.full p) = .ok sb →
    t.host.lstat (t.full q) = .ok sb' → sb.is S_IFREG → sb'.is S_IFREG →
    (target.HardLinks (r.spot p) (r.spot q) ↔ sb.SameFile sb')

/-- The permission bits are those of the file. -/
theorem Complete.mode_eq {s : Store} {e : Entry} {ino : Inode} (h : Complete r s e.details ino)
    (hp : r.permissions = true) (htype : e.kind.type ≠ some (lit "link")) :
    ino.mode = e.sb.st_mode &&& 0o7777 := by
  rw [h.mode hp (e.details_type ▸ htype), e.permsOf_details, UInt32.and_assoc, UInt32.and_self]

theorem Tree.kind_of_dir {t : Tree} {path : Bytes} {sb : Stat} (h : sb.is S_IFDIR) :
    t.kind path sb = .dir := by
  unfold Tree.kind
  rw [if_neg (by simp [Stat.is_eq_false h (by decide : S_IFDIR ≠ S_IFREG)]), if_pos h]

theorem Tree.kind_of_link {t : Tree} {path : Bytes} {sb : Stat} (h : sb.is S_IFLNK) :
    t.kind path sb = .link (cstr (t.host.target path)) := by
  unfold Tree.kind
  rw [if_neg (by simp [Stat.is_eq_false h (by decide : S_IFLNK ≠ S_IFREG)]),
    if_neg (by simp [Stat.is_eq_false h (by decide : S_IFLNK ≠ S_IFDIR)]), if_pos h]

/-- What an entry of a plain tree is for. -/
theorem Tree.Plain.kind_cases {t : Tree} (h : t.Plain) {p : List Bytes} {sb : Stat}
    (hp : t.Present p) (hstat : t.host.lstat (t.full p) = .ok sb) :
    sb.is S_IFREG ∨ (sb.is S_IFDIR ∧ t.kind (t.full p) sb = .dir ∧ t.bodyOf p sb = .dir) ∨
      sb.is S_IFLNK ∧ t.kind (t.full p) sb = .link (t.host.target (t.full p)) ∧
        t.bodyOf p sb = .link (t.host.target (t.full p)) := by
  obtain ⟨sb', hstat', htype⟩ := h.types p hp
  obtain rfl := Except.ok.inj (hstat'.symm.trans hstat)
  rcases htype with htype | htype | htype
  · exact .inl htype
  · refine .inr (.inl ⟨htype, kind_of_dir htype, ?_⟩)
    unfold bodyOf
    rw [if_neg (by simp [Stat.is_eq_false htype (by decide : S_IFDIR ≠ S_IFREG)]), if_pos htype]
  · refine .inr (.inr ⟨htype, ?_, ?_⟩)
    · rw [kind_of_link htype, cstr_eq (h.targets p hp)]
    · unfold bodyOf
      rw [if_neg (by simp [Stat.is_eq_false htype (by decide : S_IFLNK ≠ S_IFREG)]),
        if_neg (by simp [Stat.is_eq_false htype (by decide : S_IFLNK ≠ S_IFDIR)])]

/-! ### The round trip -/

section Restored

variable {w₀ : World} (hs : Starts cfg host store hintStore) (hplain : (cfg.source host).Plain)
  (h : HoldsTree cfg host depth store w₀.store) (hr : Restores cfg r target)
  (hw : RestoredTree r ((cfg.source host).placed depth) w₀ w)

include hs hplain h in
/-- An entry of a plain tree. -/
theorem HoldsTree.entry_present {pe : Placed} (hm : pe ∈ (cfg.source host).placed depth) :
    (cfg.source host).Present pe.1 ∧
      (cfg.source host).host.lstat ((cfg.source host).full pe.1) = .ok pe.2.sb ∧ ¬ pe.IsSocket := by
  obtain ⟨-, hstat, -, -, hkind⟩ := Tree.entry_of_placed (t := cfg.source host) hs.real.names hm
  have hp : (cfg.source host).Present pe.1 :=
    hplain.kept_iff.mp ((Tree.mem_places (t := cfg.source host) hs.real.names h.within).mp
      (List.mem_map_of_mem hm))
  refine ⟨hp, hstat, ?_⟩
  unfold Placed.IsSocket
  rw [hkind]
  rcases hplain.kind_cases hp hstat with htype | ⟨-, hk, -⟩ | ⟨-, hk, -⟩
  · rw [Tree.type_kind.mpr htype]
    simp
  · rw [hk]
    decide
  · rw [hk]
    simp [Kind.type, lit]

include hs in
/-- The copy of a file, if the details of an entry for it describe it. -/
theorem sameAs_of_complete (hperm : r.permissions = true) {pe : Placed} {ino : Inode}
    (hm : pe ∈ (cfg.source host).placed depth) (hc : Complete r w₀.store pe.2.details ino)
    (hbody : ino.body = (cfg.source host).bodyOf pe.1 pe.2.sb)
    (htype : ¬ pe.2.sb.is S_IFLNK → pe.2.kind.type ≠ some (lit "link") ∧
      ino.mtime = pe.2.sb.st_mtime) :
    SameAs (cfg.source host) r pe.1 pe.2.sb ino := by
  obtain ⟨-, -, huid, hgid, -⟩ := Tree.entry_of_placed (t := cfg.source host) hs.real.names hm
  obtain ⟨hu, hg⟩ := hc.owner hperm
  rw [pe.2.details_uid.1, huid] at hu
  rw [pe.2.details_uid.2, hgid] at hg
  exact ⟨hbody, hu, hg, fun hl => hc.mode_eq hperm (htype hl).1, fun hl => (htype hl).2⟩

include hs hplain h hw

/-- Anything but a regular file is restored from its own entry. -/
theorem RestoredTree.other {pe : Placed} (hm : pe ∈ (cfg.source host).placed depth) {type : Bytes}
    (htype : pe.2.kind.type = some type) :
    ∃ i ino, w.target.names.lookup (r.spot pe.1) = some i ∧ w.target.inodes[i]? = some ino ∧
      Complete r w₀.store pe.2.details ino ∧ pe.2.Says r w₀.store ino.body := by
  obtain ⟨-, -, hnot⟩ := h.entry_present hs hplain hm
  obtain ⟨i, ino, hi, hino, hc⟩ := hw.made pe hm hnot
  have hnone : pe.2.inodenum = none := by
    unfold Entry.inodenum
    rw [htype]
  rw [sourceOf_of_none hnone] at hc
  exact ⟨i, ino, hi, hino, hc, hc.body.describedBy (devices_placed hs.real.names hm)⟩

include hr

/-- **Every file has its copy.** -/
theorem RestoredTree.sameAs (hperm : r.permissions = true) {p : List Bytes} {sb : Stat}
    (hp : (cfg.source host).Present p) (hstat : host.lstat ((cfg.source host).full p) = .ok sb) :
    ∃ ino, w.target.get (r.spot p) = some ino ∧ SameAs (cfg.source host) r p sb ino := by
  have hnames := hs.real.names
  have hkept := hplain.kept_iff.mpr hp
  obtain ⟨pe, hm, rfl⟩ :=
    List.mem_map.mp ((Tree.mem_places (t := cfg.source host) hnames h.within).mpr hkept)
  obtain ⟨-, hstat', -, -, hkind⟩ := Tree.entry_of_placed (t := cfg.source host) hnames hm
  obtain rfl := Except.ok.inj (hstat'.symm.trans hstat)
  rcases hplain.kind_cases hp hstat with htype | ⟨htype, hk, hbodyOf⟩ | ⟨htype, hk, hbodyOf⟩
  · -- perhaps it is a link to a file that has been restored before
    obtain ⟨q, e, ino, hqm, hq, hsource, hget, hc⟩ :=
      hw.regular h.toHoldsIndex hs.real.names ⟨hkept, hstat, htype⟩
    refine ⟨ino, hget, ?_⟩
    have hsame : e.sb = pe.2.sb ∧ host.bytes ((cfg.source host).full q) =
        host.bytes ((cfg.source host).full pe.1) := by
      rcases hsource with rfl | ⟨-, -, hino⟩
      · exact ⟨Except.ok.inj (hq.lstat.symm.trans hstat), rfl⟩
      · have hdev := hplain.onefs pe.1 q _ _ hp (hplain.kept_iff.mp hq.kept) hstat hq.lstat
        have hfile : pe.2.sb.SameFile e.sb := ⟨hdev, hino⟩
        exact ⟨(hs.real.same _ _ _ _ hstat hq.lstat hfile).1, hs.real.bytes hstat hq.lstat hfile⟩
    have hregular : e.kind.type = none := by
      rw [(Tree.entry_of_placed (t := cfg.source host) hnames hqm).2.2.2.2]
      exact Tree.type_kind.mpr hq.regular
    have hbody : ino.body = (cfg.source host).bodyOf q e.sb := by
      unfold Tree.bodyOf
      rw [if_pos hq.regular]
      exact h.body_of_complete hs hr.repo hqm hq.regular hc
    have htimes : ino.mtime = e.sb.st_mtime := by
      rw [← e.timeOf_details.2]
      refine (hc.times ?_ ?_).2 <;> rw [e.details_type, hregular] <;> simp
    have hcopy : SameAs (cfg.source host) r q e.sb ino :=
      sameAs_of_complete hs hperm hqm hc hbody fun _ => ⟨by rw [hregular]; simp, htimes⟩
    obtain ⟨hsb, hbytes⟩ := hsame
    rw [hsb] at hcopy
    refine ⟨hcopy.body.trans ?_, hcopy.uid, hcopy.gid, hcopy.mode, hcopy.mtime⟩
    unfold Tree.bodyOf
    rw [if_pos htype, if_pos htype]
    exact congrArg Body.file hbytes
  · have hdir : pe.2.kind.type = some (lit "dir") := by
      rw [hkind, hk]
      rfl
    obtain ⟨i, ino, hi, hino, hc, hsays⟩ := hw.other hs hplain h hm hdir
    refine ⟨ino, by rw [Target.get, hi]; exact hino,
      sameAs_of_complete hs hperm hm hc ?_ fun _ => ⟨?_, ?_⟩⟩
    · unfold Entry.Says at hsays
      rw [hkind, hk] at hsays
      exact hsays.trans hbodyOf.symm
    · rw [hdir]
      decide
    · exact (hw.times pe hm hdir i ino hi hino).2
  · have hlink : pe.2.kind.type = some (lit "link") := by
      rw [hkind, hk]
      rfl
    obtain ⟨i, ino, hi, hino, hc, hsays⟩ := hw.other hs hplain h hm hlink
    refine ⟨ino, by rw [Target.get, hi]; exact hino,
      sameAs_of_complete hs hperm hm hc ?_ fun hno => absurd htype hno⟩
    unfold Entry.Says at hsays
    rw [hkind, hk] at hsays
    dsimp only at hsays
    rw [hr.convert, cstr_eq (hplain.targets pe.1 hp)] at hsays
    exact hsays.trans hbodyOf.symm

/-- **The tree that is restored** is the one that was backed up. -/
theorem RestoredTree.sameTree (hperm : r.permissions = true) :
    SameTree (cfg.source host) r w.target where
  paths := by
    intro p hp
    rw [← hplain.kept_iff, ← Tree.mem_places (t := cfg.source host) hs.real.names h.within]
    constructor
    · exact hw.names p hp
    · intro hmem
      obtain ⟨pe, hm, rfl⟩ := List.mem_map.mp hmem
      obtain ⟨i, ino, hi, -⟩ := hw.made pe hm (h.entry_present hs hplain hm).2.2
      rw [hi]
      rfl
  files p sb hp hstat := hw.sameAs hs hplain h hr hperm hp hstat
  links := by
    intro p q sb sb' hp hq hstat hstat' htype htype'
    have hpr : (cfg.source host).Regular p sb := ⟨hplain.kept_iff.mpr hp, hstat, htype⟩
    have hqr : (cfg.source host).Regular q sb' := ⟨hplain.kept_iff.mpr hq, hstat', htype'⟩
    rw [hw.hardLinks_iff h.toHoldsIndex hs.real.names hpr hqr]
    constructor
    · rintro (rfl | ⟨-, -, hino⟩)
      · rw [Except.ok.inj (hstat.symm.trans hstat')]
        exact ⟨rfl, rfl⟩
      · exact ⟨hplain.onefs p q sb sb' hp hq hstat hstat', hino⟩
    · intro hsame
      by_cases hpq : p = q
      · exact .inl hpq
      · have hlinks := hplain.links p q sb sb' hp hq hpq hstat hstat' hsame htype
        obtain rfl := (hs.real.same _ _ _ _ hstat hstat' hsame).1
        exact .inr ⟨hlinks, hlinks, rfl⟩

end Restored

/-- **Backup and restore are the identity on trees** of directories, regular files and symbolic
links on one filesystem: the restore returns with no errors, and the tree that it leaves has the
same paths, types, contents, targets, owners, permission bits and modification times, and the same
hard links. -/
theorem backup_restore_round_trip (cfg r : Config) (host : Host) (depth : Nat)
    (store hintStore : Store) (target : Target) (w : World) (hs : Starts cfg host store hintStore)
    (hr : Restores cfg r target) (hplain : (cfg.source host).Plain)
    (howners : OwnersResolve (cfg.source host) r)
    (hgiven : r.toOptions.Given) (hsmooth : Smooth r) (hperm : r.permissions = true)
    (hbackup : do_backup cfg depth { store, hintStore } = .ok () w) :
    ∃ w', do_restore r { store := w.store, target } = .ok () w' ∧ w'.errors = 0 ∧
      SameTree (cfg.source host) r w'.target := by
  have h := do_backup_holds hs.outside hs.unchanging hs.real hs.hints hbackup
  obtain ⟨hrepo, hroot, hindex⟩ := hgiven
  have hruns : wp (do_restore r)
      (fun _ w' => RestoredTree r ((cfg.source host).placed depth) { store := w.store, target } w')
      (fun _ _ => False) { store := w.store, target } := by
    refine wp_mono (h.wp_do_restore hs.real.names hr rfl) (fun _ _ hw => hw) ?_
    intro _ _ hstop
    obtain ⟨pe, hm, -, hlacking⟩ := hstop hsmooth hrepo hroot hindex
    refine h.not_lacking hs.real.names howners hm ?_ hlacking
    intro hash hk
    rw [hr.repo]
    exact ⟨_, h.object hs.real hs.repo hs.collisions hm hk⟩
  obtain ⟨_, w', hrun, hw⟩ := wp_returns hruns
  refine ⟨w', hrun, ?_, ?_⟩
  · exact hw.errors fun pe hm => (h.entry_present hs hplain hm).2.2
  · refine RestoredTree.sameTree hs hplain ?_ hr hw hperm
    exact h

/-- The two names of a file, and a directory with a symbolic link in it. -/
def homeFiles : List (List Bytes × Stat) :=
  [([lit "a"], twoLinks 1 5), ([lit "a~restore~"], twoLinks 1 5),
    ([lit "d"], { (default : Stat) with
      st_mode := S_IFDIR ||| 0o750, st_dev := 1, st_ino := 6, st_mtime := 7 }),
    ([lit "d", lit "l"], { (default : Stat) with
      st_mode := S_IFLNK ||| 0o777, st_dev := 1, st_ino := 7 })]

/-- The files with their paths. -/
def homePaths : List (Bytes × Stat) :=
  homeFiles.map fun p => (fullname (lit "/home") (relpath p.1), p.2)

/-- The tree of these files. -/
def homeTree : Host where
  contents path := .ok (if path = lit "/home" then [lit "a", lit "a~restore~", lit "d", lit "."]
    else if path = lit "/home/d" then [lit "l"] else [])
  lstat path :=
    match homePaths.lookup path with
    | some sb => .ok sb
    | none => .error ENOENT
  data path := if path = lit "/home/a" ∨ path = lit "/home/a~restore~" then .ok ([1], none)
    else .error ENOENT
  readlink path := if path = lit "/home/d/l" then .ok (lit "../a") else .error ENOENT
  ismount _ := .ok false
  utimes _ := .ok ()

/-- A backup of it. -/
def homeBackup : Config :=
  { mountedBackup false with env := fun n => { (largeFile 1000).env n with host := homeTree } }

theorem lstat_homeTree {path : Bytes} {sb : Stat} (h : homeTree.lstat path = .ok sb) :
    (path, sb) ∈ homePaths := by
  have hlstat : homeTree.lstat path = match homePaths.lookup path with
    | some sb => .ok sb
    | none => .error ENOENT := rfl
  rw [hlstat] at h
  split at h
  · rename_i sb' hlookup
    obtain rfl := Except.ok.inj h
    obtain ⟨l₁, l₂, hsplit, -⟩ := List.lookup_eq_some_iff.mp hlookup
    rw [hsplit]
    simp
  · cases h

theorem names_homeTree (path : Bytes) : homeTree.names path =
    if path = lit "/home" then [lit "a", lit "a~restore~", lit "d", lit "."]
    else if path = lit "/home/d" then [lit "l"] else [] := rfl

theorem realFiles_homeTree : RealFiles homeTree where
  names := by
    constructor
    · intro path
      rw [names_homeTree]
      split_ifs <;> decide
    · intro path
      rw [names_homeTree]
      split_ifs <;> decide
  size := by
    intro path sb data fault hstat htype hdata
    have hdata' : (if path = lit "/home/a" ∨ path = lit "/home/a~restore~" then
      Except.ok ([1], none) else .error ENOENT) = Except.ok (data, fault) := hdata
    split at hdata'
    · cases hdata'
      have hsize : ∀ p ∈ homePaths, p.2.is S_IFREG → p.2.st_size = 1 := by decide +kernel
      rw [hsize _ (lstat_homeTree hstat) htype]
      exact ⟨le_refl _, fun _ => rfl⟩
    · cases hdata'
  same := by
    intro path path' sb sb' hstat hstat' hsame
    -- the two names of the file are the only files with the same inode number
    have hall : ∀ p ∈ homePaths, ∀ q ∈ homePaths, p.2.st_ino = q.2.st_ino →
        q.2 = p.2 ∧ (p.1 = q.1 ∨ p.1 ∈ [lit "/home/a", lit "/home/a~restore~"] ∧
          q.1 ∈ [lit "/home/a", lit "/home/a~restore~"]) := by decide +kernel
    obtain ⟨hsb, hpath⟩ := hall _ (lstat_homeTree hstat) _ (lstat_homeTree hstat') hsame.2
    refine ⟨hsb, ?_⟩
    have hdata : ∀ path ∈ [lit "/home/a", lit "/home/a~restore~"],
        homeTree.data path = .ok ([1], none) := by
      intro path hm
      rcases List.mem_cons.mp hm with rfl | hm
      · rfl
      · rw [List.mem_singleton.mp hm]
        rfl
    rcases hpath with hpath | ⟨hm, hm'⟩
    · exact congrArg homeTree.data (Eq.symm hpath)
    · rw [hdata _ hm, hdata _ hm']

theorem isDir_homeTree {p : List Bytes} (h : (homeBackup.source homeTree).IsDir p) :
    fullname (lit "/home") (relpath p) = lit "/home/d" := by
  obtain ⟨sb, hstat, htype⟩ := h
  have hall : ∀ p ∈ homePaths, p.2.is S_IFDIR → p.1 = lit "/home/d" := by decide +kernel
  exact hall _ (lstat_homeTree hstat) htype

/-- All the files of the tree. -/
theorem present_homeTree {p : List Bytes} (h : (homeBackup.source homeTree).Present p) :
    p ∈ homeFiles.map Prod.fst := by
  have hroot : (homeBackup.source homeTree).names [] = [lit "a", lit "a~restore~", lit "d"] := by
    decide +kernel
  have hd : (homeBackup.source homeTree).names [lit "d"] = [lit "l"] := by decide +kernel
  have hfull : ∀ name ∈ [lit "a", lit "a~restore~", lit "d"],
      fullname (lit "/home") (relpath [name]) = lit "/home/d" → name = lit "d" := by decide +kernel
  rcases p with _ | ⟨name, p⟩
  · exact absurd rfl h.nonempty
  have hname := h.listed [] name ⟨p, rfl⟩
  rw [hroot] at hname
  rcases p with _ | ⟨name', p⟩
  · have hall : ∀ name ∈ [lit "a", lit "a~restore~", lit "d"], [name] ∈ homeFiles.map Prod.fst := by
      decide +kernel
    exact hall name hname
  -- only `d` is a directory
  obtain rfl := hfull name hname
    (isDir_homeTree (h.inner [name] ⟨name' :: p, rfl⟩ (by simp) (by simp)))
  have hname' := h.listed [lit "d"] name' ⟨p, rfl⟩
  rw [hd, List.mem_singleton] at hname'
  subst hname'
  rcases p with _ | ⟨name'', p⟩
  · decide +kernel
  · have hdir := isDir_homeTree (h.inner [lit "d", lit "l"] ⟨name'' :: p, rfl⟩ (by simp) (by simp))
    exact absurd hdir (by decide +kernel)

/-- A file of the tree and its status. -/
theorem mem_homeFiles {p : List Bytes} {sb : Stat} (h : (homeBackup.source homeTree).Present p)
    (hstat : homeTree.lstat ((homeBackup.source homeTree).full p) = .ok sb) :
    (p, sb) ∈ homeFiles := by
  have hall : ∀ q ∈ homeFiles,
      homeTree.lstat ((homeBackup.source homeTree).full q.1) = .ok q.2 := by decide +kernel
  obtain ⟨q, hm, rfl⟩ := List.mem_map.mp (present_homeTree h)
  obtain rfl := Except.ok.inj ((hall q hm).symm.trans hstat)
  exact hm

theorem plain_homeTree : (homeBackup.source homeTree).Plain where
  included _ := rfl
  types := by
    intro p hp
    have hall : ∀ q ∈ homeFiles, homeTree.lstat ((homeBackup.source homeTree).full q.1) = .ok q.2 ∧
        (q.2.is S_IFREG ∨ q.2.is S_IFDIR ∨ q.2.is S_IFLNK) := by decide +kernel
    obtain ⟨q, hm, rfl⟩ := List.mem_map.mp (present_homeTree hp)
    exact ⟨q.2, hall q hm⟩
  onefs := by
    intro p q sb sb' hp hq hstat hstat'
    have hall : ∀ q ∈ homeFiles, q.2.st_dev = 1 := by decide +kernel
    exact (hall _ (mem_homeFiles hp hstat)).trans (hall _ (mem_homeFiles hq hstat')).symm
  nomount p _ h := by cases h
  links := by
    intro p q sb sb' hp hq hne hstat hstat' hsame htype
    have hall : ∀ p ∈ homeFiles, p.2.is S_IFREG → p.2.st_nlink = 2 := by decide +kernel
    rw [hall _ (mem_homeFiles hp hstat) htype]
    exact Nat.one_lt_two
  targets := by
    intro p hp
    have hall : ∀ q ∈ homeFiles, 0 ∉ homeTree.target ((homeBackup.source homeTree).full q.1) := by
      decide +kernel
    obtain ⟨q, hm, rfl⟩ := List.mem_map.mp (present_homeTree hp)
    exact hall q hm

theorem starts_homeTree : Starts homeBackup homeTree ∅ ∅ where
  outside := ⟨not_under_index⟩
  unchanging _ := rfl
  real := realFiles_homeTree
  hints := truthfulHints_of_nil rfl
  repo _ _ h := by cases h
  collisions := by
    have hcontents : ∀ c ∈ allContents homeBackup ∅ homeTree, c = [1] ∨ c = [] := by
      rintro c (⟨h, hc⟩ | ⟨path, rfl⟩)
      · cases hc
      · have hbytes : homeTree.bytes path =
            if path = lit "/home/a" ∨ path = lit "/home/a~restore~" then [1] else [] := by
          unfold Host.bytes homeTree
          dsimp only
          by_cases ha : path = lit "/home/a" ∨ path = lit "/home/a~restore~"
          · rw [if_pos ha, if_pos ha]
          · rw [if_neg ha, if_neg ha]
        rw [hbytes]
        split_ifs
        · exact .inl rfl
        · exact .inr rfl
    intro c hc c' hc' heq
    have hfirst : c.headD 0 = c'.headD 0 :=
      (List.replicate_inj.mp (congrArg Hash.bytes heq)).2.resolve_left (by decide)
    rcases hcontents c hc with rfl | rfl <;> rcases hcontents c' hc' with rfl | rfl <;>
      first | rfl | exact absurd hfirst (by decide)

theorem smooth_restoreToR : Smooth restoreToR :=
  ⟨fun _ => ⟨rfl, rfl, fun _ => rfl⟩, fun _ => rfl⟩

/-- The tree is restored to `/r`. -/
theorem round_trip_homeTree : ∃ w w', do_backup homeBackup 3 { store := ∅ } = .ok () w ∧
    do_restore restoreToR { store := w.store, target := (emptyRoot []).target } = .ok () w' ∧
    w'.errors = 0 ∧ SameTree (homeBackup.source homeTree) restoreToR w'.target := by
  have hvalue : value? (do_backup homeBackup 3) { store := ∅ } = some () := by decide +kernel
  have howners : OwnersResolve (homeBackup.source homeTree) restoreToR := by
    intro _ p sb hp hstat
    have hall : ∀ q ∈ homeFiles,
        (idOf restoreToR.users.getpwnam (idName homeBackup.users.getpwuid q.2.st_uid)).isSome ∧
          (idOf restoreToR.users.getgrnam (idName homeBackup.users.getgrgid q.2.st_gid)).isSome :=
      by decide +kernel
    exact hall _ (mem_homeFiles (plain_homeTree.kept_iff.mp hp) hstat)
  have hrestores : Restores homeBackup restoreToR (emptyRoot []).target :=
    ⟨rfl, rfl, zero_not_mem_r, fun _ => rfl, emptyRoot_r rfl⟩
  obtain ⟨w', hrestore, herrors, hsame⟩ := backup_restore_round_trip _ _ _ _ _ _ _ _ starts_homeTree
    hrestores plain_homeTree howners (by unfold Options.Given; decide) smooth_restoreToR rfl
    (ok_of_value? hvalue)
  exact ⟨_, w', ok_of_value? hvalue, hrestore, herrors, hsame⟩

end Hbackup
