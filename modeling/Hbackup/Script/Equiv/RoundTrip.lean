import Hbackup.Equiv.RoundTrip
import Hbackup.Script.Equiv.RestoreRun
import Hbackup.Script.Equiv.Verify

/-!
# Trees that the script restores

The lines of an index are those of the files of a tree (`LineFor`).  What the script restores from it is the
tree again, but for the set-user-ID and set-group-ID bits of files and the times of directories
(`UnpackedTree.sameTreeBut`).
-/

namespace Hbackup.Script

open ProgramLogic Target Sources

variable {t : Tree} {r : Config} {store : Store} {target : Target} {l : List Line} {line line' : Line}
  {sb sb' : Stat} {ino : Inode}

/-! ### One file -/

/-- What a line says of a file of the tree with the status `sb`. -/
structure LineFor (t : Tree) (r : Config) (store : Store) (sb : Stat) (line : Line) : Prop where
  lstat : t.host.lstat (t.full line.1) = .ok sb
  body : bodyFor r.repo store line.2 = some (t.bodyOf line.1 sb)
  link : HasType line.2 "link" ↔ sb.is S_IFLNK
  uid : line.2.lookup (lit "uid") = some (idName t.users.getpwuid sb.st_uid)
  gid : line.2.lookup (lit "gid") = some (idName t.users.getgrgid sb.st_gid)
  mode : modeFor line.2 = some (sb.st_mode &&& 0o7777)
  atime : ¬ sb.is S_IFLNK → timeFor line.2 "atime" = some sb.st_atime
  mtime : ¬ sb.is S_IFLNK → timeFor line.2 "mtime" = some sb.st_mtime
  inode : inodeOf line =
    if sb.is S_IFREG ∧ 1 < sb.st_nlink then some (decimal sb.st_ino.toNat) else none

/-- A file with the status `sb`, and what the script makes of it: the set-user-ID and set-group-ID bits of
a file are lost, and a directory does not keep its times. -/
structure SameBut (t : Tree) (r : Config) (p : List Bytes) (sb : Stat) (ino : Inode) : Prop where
  body : ino.body = t.bodyOf p sb
  uid : ownerId r.users.getpwnam (idName t.users.getpwuid sb.st_uid) = some ino.uid
  gid : ownerId r.users.getgrnam (idName t.users.getgrgid sb.st_gid) = some ino.gid
  mode : ¬ sb.is S_IFLNK → ino.mode = sb.st_mode &&& if sb.is S_IFDIR then 0o7777 else 0o1777
  times : sb.is S_IFREG → ino.atime = sb.st_atime ∧ ino.mtime = sb.st_mtime

/-- The tree in `r.root` is the tree `t`, but for that. -/
structure SameTreeBut (t : Tree) (r : Config) (target : Target) : Prop where
  paths : ∀ p, p ≠ [] → ((target.names.lookup (r.spot p)).isSome ↔ t.Present p)
  files : ∀ p sb, t.Present p → t.host.lstat (t.full p) = .ok sb →
    ∃ ino, target.get (r.spot p) = some ino ∧ SameBut t r p sb ino
  links : ∀ p q sb sb', t.Present p → t.Present q → t.host.lstat (t.full p) = .ok sb →
    t.host.lstat (t.full q) = .ok sb' → sb.is S_IFREG → sb'.is S_IFREG →
    (target.HardLinks (r.spot p) (r.spot q) ↔ sb.SameFile sb')

/-- Only a directory is one. -/
theorem bodyOf_eq_dir {p : List Bytes} (htype : sb.is S_IFREG ∨ sb.is S_IFDIR ∨ sb.is S_IFLNK) :
    t.bodyOf p sb = .dir ↔ sb.is S_IFDIR := by
  unfold Tree.bodyOf
  rcases htype with htype | htype | htype
  · simp [htype, Stat.is_eq_false htype (by decide : S_IFREG ≠ S_IFDIR)]
  · simp [htype, Stat.is_eq_false htype (by decide : S_IFDIR ≠ S_IFREG)]
  · simp [Stat.is_eq_false htype (by decide : S_IFLNK ≠ S_IFREG),
      Stat.is_eq_false htype (by decide : S_IFLNK ≠ S_IFDIR)]

theorem LineFor.sameBut (h : LineFor t r store sb line) (hright : Right r store line.2 ino)
    (htype : sb.is S_IFREG ∨ sb.is S_IFDIR ∨ sb.is S_IFLNK) : SameBut t r line.1 sb ino := by
  have hbody : ino.body = t.bodyOf line.1 sb := Option.some.inj (hright.body.symm.trans h.body)
  have hdir : ino.body = .dir ↔ sb.is S_IFDIR := by
    rw [hbody]
    exact bodyOf_eq_dir htype
  constructor
  · exact hbody
  · have huid := hright.uid
    rwa [ownerFor, h.uid] at huid
  · have hgid := hright.gid
    rwa [ownerFor, h.gid] at hgid
  · intro hlink
    have hmode := hright.mode fun hl => hlink (h.link.mp hl)
    rw [h.mode, Option.map_some] at hmode
    rw [← Option.some.inj hmode, UInt32.and_assoc]
    by_cases hd : sb.is S_IFDIR
    · rw [if_pos (hdir.mpr hd), if_pos hd]
      rfl
    · rw [if_neg fun hb => hd (hdir.mp hb), if_neg hd]
      rfl
  · intro hreg
    have hlink : ¬ sb.is S_IFLNK := by
      simp [Stat.is_eq_false hreg (by decide : S_IFREG ≠ S_IFLNK)]
    have hno : ino.body ≠ .dir := by
      rw [ne_eq, hdir]
      simp [Stat.is_eq_false hreg (by decide : S_IFREG ≠ S_IFDIR)]
    obtain ⟨hatime, hmtime⟩ := hright.times (fun hl => hlink (h.link.mp hl)) hno
    rw [h.atime hlink] at hatime
    rw [h.mtime hlink] at hmtime
    exact ⟨(Option.some.inj hatime).symm, (Option.some.inj hmtime).symm⟩

theorem decimal_injective {m n : Nat} (h : decimal m = decimal n) : m = n := by
  have hm := pyInt_decimal m
  rw [h, pyInt_decimal] at hm
  exact (Int.ofNat.inj (Option.some.inj hm)).symm

/-! ### The tree -/

/-- An index of a tree. -/
structure TreeLines (t : Tree) (r : Config) (store : Store) (l : List Line) : Prop where
  places : ∀ p, p ∈ l.map Prod.fst ↔ t.Present p
  nodup : (l.map Prod.fst).Nodup
  lines : ∀ line ∈ l, ∃ sb, LineFor t r store sb line

/-- Lines with the same inode number are those of one file. -/
theorem TreeLines.sameFile (h : TreeLines t r store l) (hplain : t.Plain) (hm : line ∈ l)
    (hm' : line' ∈ l) (hl : LineFor t r store sb line) (hl' : LineFor t r store sb' line')
    (hsome : (inodeOf line).isSome) (heq : inodeOf line = inodeOf line') :
    sb.SameFile sb' ∧ sb.is S_IFREG ∧ sb'.is S_IFREG := by
  rw [hl.inode] at hsome heq
  rw [hl'.inode] at heq
  split at hsome
  · rename_i hreg
    rw [if_pos hreg] at heq
    split at heq
    · rename_i hreg'
      have hino : sb.st_ino = sb'.st_ino :=
        UInt64.toNat_inj.mp (decimal_injective (Option.some.inj heq))
      have hp := (h.places _).mp (List.mem_map_of_mem hm)
      have hp' := (h.places _).mp (List.mem_map_of_mem hm')
      exact ⟨⟨hplain.onefs _ _ _ _ hp hp' hl.lstat hl'.lstat, hino⟩, hreg.1, hreg'.1⟩
    · cases heq
  · cases hsome

/-- The lines of two names of one file have the same inode number. -/
theorem TreeLines.inode_eq (h : TreeLines t r store l) (hplain : t.Plain) (hm : line ∈ l)
    (hm' : line' ∈ l) (hl : LineFor t r store sb line) (hl' : LineFor t r store sb line')
    (hne : line.1 ≠ line'.1) (hsame : sb.SameFile sb) (hreg : sb.is S_IFREG) :
    (inodeOf line).isSome ∧ inodeOf line = inodeOf line' := by
  have hp := (h.places _).mp (List.mem_map_of_mem hm)
  have hp' := (h.places _).mp (List.mem_map_of_mem hm')
  have hlinks := hplain.links _ _ _ _ hp hp' hne hl.lstat hl'.lstat hsame hreg
  rw [hl.inode, hl'.inode, if_pos ⟨hreg, hlinks⟩]
  exact ⟨rfl, rfl⟩

/-- Two lines for one place are the same. -/
theorem TreeLines.eq_of_place (h : TreeLines t r store l) (hm : line ∈ l) (hm' : line' ∈ l)
    (heq : line.1 = line'.1) : line = line' :=
  List.inj_on_of_nodup_map h.nodup hm hm' heq

section

variable (hl : TreeLines t r store l) (hplain : t.Plain) (hreal : RealFiles t.host)
  (hu : UnpackedTree r l store target)

include hl hplain hreal hu

/-- **Every file has its copy.** -/
theorem UnpackedTree.sameBut {p : List Bytes} (hp : t.Present p)
    (hstat : t.host.lstat (t.full p) = .ok sb) :
    ∃ ino, target.get (r.spot p) = some ino ∧ SameBut t r p sb ino := by
  obtain ⟨line, hm, rfl⟩ := List.mem_map.mp ((hl.places p).mpr hp)
  obtain ⟨sb₁, hline⟩ := hl.lines line hm
  obtain rfl := Except.ok.inj (hline.lstat.symm.trans hstat)
  obtain ⟨i, ino, hi, hino, hright⟩ := hu.made line hm
  refine ⟨ino, by rw [Target.get, hi]; exact hino, ?_⟩
  obtain ⟨hm', -, hkey⟩ := @source_spec _ _ _ inodeOf l line hm
  obtain ⟨sb', hline'⟩ := hl.lines _ hm'
  have htype : ∀ {q : List Bytes} {sb : Stat}, t.Present q → t.host.lstat (t.full q) = .ok sb →
      sb.is S_IFREG ∨ sb.is S_IFDIR ∨ sb.is S_IFLNK := by
    intro q sb hq hsb
    obtain ⟨sb', hsb', htype⟩ := hplain.types q hq
    rwa [Except.ok.inj (hsb.symm.trans hsb')]
  have hp' := (hl.places _).mp (List.mem_map_of_mem hm')
  cases hn : inodeOf line with
  | none =>
    rw [source_of_none hn] at hright
    exact hline.sameBut hright (htype hp hstat)
  | some n =>
    -- perhaps it is a link to a file that has been restored before
    obtain ⟨hsame, hreg, hreg'⟩ := hl.sameFile hplain hm hm' hline hline' (by rw [hn]; rfl) hkey.symm
    have hbytes := hreal.bytes hline.lstat hline'.lstat hsame
    obtain ⟨rfl, -⟩ := hreal.same _ _ _ _ hline.lstat hline'.lstat hsame
    have hcopy := hline'.sameBut hright (htype hp' hline'.lstat)
    refine ⟨hcopy.body.trans ?_, hcopy.uid, hcopy.gid, hcopy.mode, hcopy.times⟩
    unfold Tree.bodyOf
    rw [if_pos hreg, if_pos hreg, hbytes]

/-- **The tree that is restored** is the one that was backed up. -/
theorem UnpackedTree.sameTreeBut : SameTreeBut t r target where
  paths p hp := by
    rw [← hl.places]
    constructor
    · exact hu.names p hp
    · intro hmem
      obtain ⟨line, hm, rfl⟩ := List.mem_map.mp hmem
      obtain ⟨i, ino, hi, -⟩ := hu.made line hm
      rw [hi]
      rfl
  files p sb hp hstat := hu.sameBut hl hplain hreal hp hstat
  links := by
    intro p q sb sb' hp hq hstat hstat' hreg hreg'
    obtain ⟨line, hm, rfl⟩ := List.mem_map.mp ((hl.places p).mpr hp)
    obtain ⟨line', hm', rfl⟩ := List.mem_map.mp ((hl.places q).mpr hq)
    obtain ⟨sb₁, hline⟩ := hl.lines line hm
    obtain rfl := Except.ok.inj (hline.lstat.symm.trans hstat)
    obtain ⟨sb₂, hline'⟩ := hl.lines line' hm'
    obtain rfl := Except.ok.inj (hline'.lstat.symm.trans hstat')
    obtain ⟨i, ino, hi, -⟩ := hu.made line hm
    rw [hardLinks_iff_lookup hi, hu.linked line hm line' hm']
    constructor
    · rintro (rfl | ⟨hsome, heq⟩)
      · rw [Except.ok.inj (hstat.symm.trans hstat')]
        exact ⟨rfl, rfl⟩
      · exact (hl.sameFile hplain hm hm' hline hline' hsome heq).1
    · intro hsame
      -- two names of a file are one line, or two with the inode number on them
      by_cases hne : line.1 = line'.1
      · exact .inl (hl.eq_of_place hm hm' hne)
      · obtain ⟨rfl, -⟩ := hreal.same _ _ _ _ hstat hstat' hsame
        exact .inr (hl.inode_eq hplain hm hm' hline hline' hne hsame hreg)

end

/-- The names of owners are known where the tree is restored. -/
def OwnersKnown (t : Tree) (r : Config) : Prop :=
  ∀ p sb, t.Present p → t.host.lstat (t.full p) = .ok sb →
    (ownerId r.users.getpwnam (idName t.users.getpwuid sb.st_uid)).isSome ∧
      (ownerId r.users.getgrnam (idName t.users.getgrgid sb.st_gid)).isSome

theorem LineFor.provided (h : LineFor t r store sb line) (howners : OwnersKnown t r)
    (hp : t.Present line.1) : Provided r store line.2 := by
  obtain ⟨huid, hgid⟩ := howners _ sb hp h.lstat
  constructor
  · rw [h.body]
    rfl
  · rwa [ownerFor, h.uid]
  · rwa [ownerFor, h.gid]
  · intro _
    rw [h.mode]
    rfl
  · intro hl
    rw [h.atime fun hlink => hl (h.link.mpr hlink)]
    rfl
  · intro hl
    rw [h.mtime fun hlink => hl (h.link.mpr hlink)]
    rfl

/-- **An index of a tree is restored.** -/
theorem TreeLines.restores {text : Bytes} {w : World} (hl : TreeLines t r w.store (inFull l))
    (hplain : t.Plain) (hreal : RealFiles t.host) (howners : OwnersKnown t r) (hsmooth : Smooth r)
    (hroot : RootNamed r) (hempty : EmptyRoot r w.target) (h : IsIndexOf [] text l)
    (harr : ArrangedLines (inFull l)) (hindex : w.store.lookup r.indexfile = some (.file text)) :
    ∃ s, restoreIndex r { world := w } = .ok () s ∧ SameTreeBut t r s.world.target := by
  have hruns : wp (restoreIndex r)
      (fun _ s => UnpackedTree r (inFull l) w.store s.world.target) (fun _ _ => False)
      { world := w } := by
    refine wp_mono (wp_restoreIndex hroot hempty hindex h harr) (fun _ _ hu => hu) ?_
    refine fun _ _ hno => hno ⟨hsmooth, fun line hm _ => ?_⟩
    obtain ⟨sb, hline⟩ := hl.lines line hm
    exact hline.provided howners ((hl.places _).mp (List.mem_map_of_mem hm))
  obtain ⟨_, s, hrun, hu⟩ := wp_returns hruns
  exact ⟨s, hrun, hu.sameTreeBut hl hplain hreal⟩

/-! ### Numbers on lines -/

variable {details : Pairs} {k : String}

section

variable {es : List Placed} {pe : Placed} (h : Arranged es) (hm : pe ∈ es)

include h hm

end

section

variable {cfg : Config} {host : Host} {hintStore before s : Store} {depth : Nat}
  (hs : Starts cfg host before hintStore) (hplain : (cfg.source host).Plain)
  (h : HoldsTree cfg host depth before s)

include hs hplain h

end

/-! ### Any index -/

variable {cfg : Config}

end Hbackup.Script
