import Hbackup.Equiv.Hostfs

/-!
# One entry is restored

What `restoreEntry` makes of the details of a line: the complete object that they describe
(`Complete`), or a link to what has been restored for the same inode number.  It shows under its final
name when it is complete, and before that nothing but its temporary name is touched.
-/

namespace Hbackup

open ProgramLogic File Target

variable {cfg : Config} {w w' w'' : World} {tmp : List Bytes} {ino : Inode} {d : Details}

/-! ### The object that the details describe -/

/-- The permission bits on the line. -/
def permsOf (d : Details) : UInt32 := (strtol 8 (d.get (lit "perms"))).toUInt64.toUInt32

/-- What the details say that the object is; the contents of a large file are in the repository. -/
inductive Describes (cfg : Config) (s : Store) (d : Details) : Body → Prop
  | data {data : Bytes} (htype : d (lit "type") = none) (hdata : d (lit "data") = some data) :
      Describes cfg s d (.file data)
  | hashed {hash data : Bytes} {h : Hash} (htype : d (lit "type") = none)
      (hdata : d (lit "data") = none) (hhash : d HASH_NAME = some hash)
      (hdecode : hashdecode hash = .ok h)
      (hfile : s.lookup (objectPath cfg.repo h) = some (.file data)) :
      Describes cfg s d (.file data)
  | link (htype : d (lit "type") = some (lit "link")) :
      Describes cfg s d (.link (cstr (cfg.convert (d.get (lit "target")))))
  | dir (htype : d (lit "type") = some (lit "dir")) : Describes cfg s d .dir
  | chr (htype : d (lit "type") = some (lit "chr")) :
      Describes cfg s d (.dev (((if cfg.permissions then permsOf d else 0o666) ||| S_IFCHR) &&& S_IFMT)
        (strtol 10 (d.get (lit "rdev"))).toUInt64)
  | blk (htype : d (lit "type") = some (lit "blk")) :
      Describes cfg s d (.dev (((if cfg.permissions then permsOf d else 0o666) ||| S_IFBLK) &&& S_IFMT)
        (strtol 10 (d.get (lit "rdev"))).toUInt64)
  | socket (htype : d (lit "type") = some (lit "socket")) : Describes cfg s d .socket

/-- The complete object: with its owner, its mode and its times.  The times of directories come
later. -/
structure Complete (cfg : Config) (s : Store) (d : Details) (ino : Inode) : Prop where
  body : Describes cfg s d ino.body
  owner : cfg.permissions = true →
    idOf cfg.users.getpwnam (d.get (lit "uid")) = some ino.uid ∧
      idOf cfg.users.getgrnam (d.get (lit "gid")) = some ino.gid
  mode : cfg.permissions = true → d (lit "type") ≠ some (lit "link") →
    ino.mode = permsOf d &&& 0o7777
  times : d (lit "type") ≠ some (lit "link") → d (lit "type") ≠ some (lit "dir") →
    ino.atime = timeOf d "atime" ∧ ino.mtime = timeOf d "mtime"

theorem Describes.type_of_dir {s : Store} (h : Describes cfg s d .dir) :
    d (lit "type") = some (lit "dir") := by
  cases h with
  | dir htype => exact htype

/-- Anything but a regular file. -/
theorem Describes.of_type {s : Store} {type : Bytes} {body : Body} (h : Describes cfg s d body)
    (htype : d (lit "type") = some type) :
    type = lit "link" ∧ body = .link (cstr (cfg.convert (d.get (lit "target")))) ∨
      type = lit "dir" ∧ body = .dir ∨
      (type = lit "chr" ∨ type = lit "blk") ∧ (∃ t rdev, body = .dev t rdev) ∨
      type = lit "socket" ∧ body = .socket := by
  have htypes : ∀ {type'}, d (lit "type") = some type' → type = type' := fun h =>
    Option.some.inj (htype.symm.trans h)
  cases h with
  | data hnone => rw [htype] at hnone; cases hnone
  | hashed hnone => rw [htype] at hnone; cases hnone
  | link h => exact .inl ⟨htypes h, rfl⟩
  | dir h => exact .inr (.inl ⟨htypes h, rfl⟩)
  | chr h => exact .inr (.inr (.inl ⟨.inl (htypes h), _, _, rfl⟩))
  | blk h => exact .inr (.inr (.inl ⟨.inr (htypes h), _, _, rfl⟩))
  | socket h => exact .inr (.inr (.inr ⟨htypes h, rfl⟩))

/-- A regular file. -/
theorem Describes.of_regular {s : Store} {body : Body} (h : Describes cfg s d body)
    (htype : d (lit "type") = none) :
    (∃ data, d (lit "data") = some data ∧ body = .file data) ∨
      d (lit "data") = none ∧ ∃ hash data h, d HASH_NAME = some hash ∧ hashdecode hash = .ok h ∧
        s.lookup (objectPath cfg.repo h) = some (.file data) ∧ body = .file data := by
  cases h with
  | data _ hdata => exact .inl ⟨_, hdata, rfl⟩
  | hashed _ hdata hhash hdecode hfile => exact .inr ⟨hdata, _, _, _, hhash, hdecode, hfile, rfl⟩
  | link h => rw [htype] at h; cases h
  | dir h => rw [htype] at h; cases h
  | chr h => rw [htype] at h; cases h
  | blk h => rw [htype] at h; cases h
  | socket h => rw [htype] at h; cases h

theorem Describes.body_of_dir {s : Store} {body : Body} (h : Describes cfg s d body)
    (hdir : d (lit "type") = some (lit "dir")) : body = .dir := by
  rcases h.of_type hdir with ⟨h, -⟩ | ⟨-, h⟩ | ⟨h | h, -⟩ | ⟨h, -⟩
  · exact absurd h (by decide)
  · exact h
  · exact absurd h (by decide)
  · exact absurd h (by decide)
  · exact absurd h (by decide)

theorem Complete.alike {s : Store} {ino' : Inode} (h : Complete cfg s d ino) (ha : ino.Alike ino') :
    Complete cfg s d ino' where
  body := ha.body.symm ▸ h.body
  owner hp := by
    rw [ha.uid, ha.gid]
    exact h.owner hp
  mode hp ht := ha.mode.trans (h.mode hp ht)
  times hl hd := by
    have hne : ino.body ≠ .dir := fun e => hd (e ▸ h.body).type_of_dir
    rw [ha.eq_of_ne_dir hne]
    exact h.times hl hd

/-! ### Contents -/

/-- The file under the temporary name holds what has been written to it. -/
def Holding (cfg : Config) (tmp : List Bytes) (w : World) (t : Bytes) (w' : World) : Prop :=
  ∃ ino, ino.body = .file t ∧ Making cfg tmp w ino w'

/-- A block that is written, or some of it. -/
theorem Holding.append {t : Bytes} (h : Holding cfg tmp w t w') (block : Bytes) (now : Int64)
    (n : Nat) : Holding cfg tmp w (t ++ block) { w' with
      clock := n
      target := w'.target.append now w.target.inodes.length block } := by
  obtain ⟨ino, hbody, hmaking⟩ := h
  refine ⟨_, ?_, hmaking.update _⟩
  rw [hbody]

theorem accepts_hostfs (tmp : List Bytes) (w : World) (path : Bytes) :
    Accepts (Hostfs.virtual cfg path w.target.inodes.length) (Holding cfg tmp w)
      fun _ w' => Broken tmp w w' ∧ ¬ Smooth cfg where
  writebytes := by
    intro t w' block h
    apply (wp_asVirtual _ _ _ _).mpr
    rw [Hostfs.writebytes, wp_bind, wp_tick]
    split
    · rename_i hkilled
      obtain ⟨ino, -, hmaking⟩ := h
      refine ⟨⟨hmaking.still.store, hmaking.broken.names, hmaking.broken.old⟩, fun hsmooth => ?_⟩
      rw [(hsmooth.undisturbed w'.clock).1] at hkilled
      cases hkilled
    cases hfull : (cfg.env w'.clock).full with
    | none => exact h.append block _ _
    | some e =>
      obtain ⟨ino, -, hmaking⟩ := h.append (block.take (cfg.env w'.clock).written)
        (cfg.env w'.clock).now (w'.clock + 1)
      refine ⟨hmaking.broken, fun hsmooth => ?_⟩
      rw [hsmooth.room] at hfull
      cases hfull
  synchronize h := h

/-- A file is written, and deleted in the end. -/
theorem wp_withFile {body : FileM World Unit} {Q : World → Prop} {E : World → Prop} {w' : World}
    (h : wp body (fun _ f => Q f.dev ∧ f.destructible) (fun _ f => E f.dev) { dev := w' }) :
    wp (Hostfs.withFile body) (fun _ => Q) (fun _ => E) w' := by
  unfold wp Hostfs.withFile
  cases hrun : body { dev := w' } with
  | ok a f =>
    obtain ⟨hQ, hd⟩ := wp_elim_ok h hrun
    dsimp only
    rw [if_pos hd]
    exact hQ
  | error stop f =>
    have hE : E f.dev := wp_elim_error h hrun
    cases stop with
    | exn e =>
      dsimp only
      by_cases hd : f.destructible = true
      · rw [if_pos hd]
        exact hE
      · rw [if_neg hd]
        exact hE
    | _ => exact hE

/-- The file is opened: there is none yet, or it is a directory that is not opened. -/
theorem wp_openWrite_host (path : Bytes) (hw : w.target.Ok)
    (hfree : w.target.names.lookup (components path) = none ∨ w.target.isDir (components path)) :
    wp (Hostfs.openWrite cfg path)
      (fun i w' => i = w.target.inodes.length ∧ Clear w.target (components path) ∧
        Holding cfg (components path) w [] w')
      (fun _ w' => Broken (components path) w w' ∧
        (Smooth cfg → ¬ Clear w.target (components path))) w := by
  rw [Hostfs.openWrite, wp_bind, wp_call]
  split
  · rename_i hkilled
    refine ⟨.of_target rfl rfl, fun hsmooth => ?_⟩
    rw [(hsmooth.undisturbed w.clock).1] at hkilled
    cases hkilled
  split
  · rename_i e hfault
    refine ⟨.of_target rfl rfl, fun hsmooth => ?_⟩
    rw [(hsmooth.undisturbed w.clock).2.1] at hfault
    cases hfault
  rw [wp_bind, wp_get]
  dsimp only
  cases hopen : w.target.openWrite (cfg.env w.clock).now (components path)
      (Hostfs.newInode cfg (cfg.env w.clock).now (.file []) (Hostfs.masked cfg 0o666)) with
  | error e =>
    refine ⟨.of_target rfl rfl, fun _ hclear => ?_⟩
    obtain ⟨t, ht⟩ := create_ok (cfg.env w.clock).now
      (Hostfs.newInode cfg (cfg.env w.clock).now (.file []) (Hostfs.masked cfg 0o666))
      hclear.ne_nil hclear.parent hclear.free
    rw [openWrite_eq hclear.free, ht] at hopen
    cases hopen
  | ok p =>
    obtain ⟨i, t⟩ := p
    have hnone : w.target.names.lookup (components path) = none := by
      rcases hfree with hnone | hdir
      · exact hnone
      -- a directory is not opened for writing
      by_contra hsome
      obtain ⟨n, hn⟩ := Option.ne_none_iff_exists'.mp hsome
      obtain ⟨m, dir, hm, hino, hbody⟩ := (isDir_iff (hw.ne_nil hn)).mp hdir
      have hget : w.target.get (components path) = some dir := by
        unfold Target.get
        rw [hm, Option.bind_some, hino]
      unfold Target.openWrite at hopen
      rw [hm, hget, Option.map_some, hbody] at hopen
      cases hopen
    rw [openWrite_eq hnone] at hopen
    cases hcreate : w.target.create (cfg.env w.clock).now (components path)
        (Hostfs.newInode cfg (cfg.env w.clock).now (.file []) (Hostfs.masked cfg 0o666)) with
    | error e =>
      rw [hcreate] at hopen
      cases hopen
    | ok t' =>
      rw [hcreate] at hopen
      cases hopen
      obtain ⟨hne, hparent, -, hnamed, hnew⟩ := create_spec hcreate hw
      exact ⟨rfl, ⟨hne, hparent, hnone⟩, _, rfl, ⟨rfl, rfl, id⟩, hnamed, hnew⟩

/-- We have the file data to hand. -/
theorem wp_restoreData (path data : Bytes) (hw : w.target.Ok)
    (hfree : w.target.names.lookup (components path) = none ∨ w.target.isDir (components path)) :
    wp (restoreData cfg path data)
      (fun _ w' => Clear w.target (components path) ∧ Holding cfg (components path) w data w')
      (fun _ w' => Broken (components path) w w' ∧
        (Smooth cfg → ¬ Clear w.target (components path))) w := by
  rw [restoreData, wp_bind]
  refine wp_mono (wp_openWrite_host path hw hfree) ?_ fun _ _ h => h
  rintro _ w₁ ⟨rfl, hclear, hholding⟩
  apply wp_withFile
  rw [wp_bind]
  have hv := @accepts_hostfs cfg (components path) w path
  refine wp_mono (Given.wp_put (.opened hholding) hv data) ?_ ?_
  · intro _ f hgiven
    refine wp_mono (hgiven.wp_flush hv) ?_ fun _ _ h => ⟨h.1, fun hsmooth => absurd hsmooth h.2⟩
    rintro _ f' ⟨-, hdev, -, hempty⟩
    exact ⟨⟨hclear, hdev⟩, by simp [destructible, hempty]⟩
  · exact fun _ _ h => ⟨h.1, fun hsmooth => absurd hsmooth h.2⟩

/-- The contents of a hash are not in the repository. -/
def Lost (cfg : Config) (s : Store) (hash : Bytes) : Prop :=
  ∀ h, hashdecode hash = .ok h → ∀ c, s.lookup (objectPath cfg.repo h) ≠ some (.file c)

/-- What can be read to its end is a file. -/
theorem lookup_of_fileAt_ok {reads : Bytes → Option ReadFault} {s : Store} {path : Bytes} {src : InFile}
    (h : Backupfs.fileAt reads s path = .ok src) (hfault : src.fault = none) :
    s.lookup path = some (.file src.rest) := by
  unfold Backupfs.fileAt at h
  split at h
  · cases h
  split at h
  · rename_i data hl
    split at h
    · cases h
      cases hfault
    · cases h
      exact hl
  · cases h
    cases hfault
  · cases h
  · cases h

/-- An object that cannot be opened, or not read to its end, is lost. -/
theorem lost_of_fileAt {hash : Bytes} {h : Hash} (hsmooth : Smooth cfg) {n : Nat} {s : Store}
    (hdecode : hashdecode hash = .ok h)
    (hbad : ∀ c, Backupfs.fileAt (cfg.env n).reads s (objectPath cfg.repo h) ≠ .ok ⟨c, none⟩) :
    Lost cfg s hash := by
  intro h' hdecode' c hc
  obtain rfl := Except.ok.inj (hdecode.symm.trans hdecode')
  apply hbad c
  unfold Backupfs.fileAt
  rw [(hsmooth.undisturbed n).2.2, hc]

/-- The file was saved by hash. -/
theorem wp_restoreHash (path hash : Bytes) (hw : w.target.Ok)
    (hfree : w.target.names.lookup (components path) = none ∨ w.target.isDir (components path)) :
    wp (restoreHash cfg path hash)
      (fun _ w' => Clear w.target (components path) ∧ ∃ h c, hashdecode hash = .ok h ∧
        w.store.lookup (objectPath cfg.repo h) = some (.file c) ∧
        Holding cfg (components path) w c w')
      (fun _ w' => Broken (components path) w w' ∧
        (Smooth cfg → Clear w.target (components path) → Lost cfg w.store hash)) w := by
  rw [restoreHash, wp_bind, wp_liftExcept]
  cases hdecode : hashdecode hash with
  | error e =>
    refine ⟨.of_target rfl rfl, fun _ _ h hdecode' => ?_⟩
    rw [hdecode] at hdecode'
    cases hdecode'
  | ok h =>
    dsimp only
    rw [wp_bind]
    refine wp_mono (wp_openWrite_host path hw hfree) ?_
      fun _ _ hstop => ⟨hstop.1, fun hsmooth hclear => absurd hclear (hstop.2 hsmooth)⟩
    rintro _ w₁ ⟨rfl, hclear, hholding⟩
    have hbroken : Broken (components path) w w₁ := by
      obtain ⟨ino, -, hmaking⟩ := hholding
      exact hmaking.broken
    -- the reading leaves the file as it is
    have hafter : ∀ n, Holding cfg (components path) w [] { w₁ with clock := n } := by
      obtain ⟨ino, hbody, hmaking⟩ := hholding
      exact fun n => ⟨ino, hbody, hmaking.of_target ⟨rfl, rfl, id⟩ rfl⟩
    have hbroken' : ∀ n, Broken (components path) w { w₁ with clock := n } :=
      fun n => ⟨hbroken.store, hbroken.names, hbroken.old⟩
    apply wp_withFile
    rw [wp_bind, wp_onDevice]
    apply (wp_asVirtual _ _ _ _).mpr
    rw [Backupfs.openRead, wp_bind, wp_tick]
    split
    · rename_i hkilled
      refine ⟨hbroken' _, fun hsmooth => ?_⟩
      rw [(hsmooth.undisturbed w₁.clock).1] at hkilled
      cases hkilled
    rw [wp_bind, wp_get, wp_liftExcept]
    dsimp only
    have hlost : (∀ c, Backupfs.fileAt (cfg.env w₁.clock).reads w₁.store (objectPath cfg.repo h) ≠
        .ok ⟨c, none⟩) → Smooth cfg → Lost cfg w.store hash := by
      intro hbad hsmooth
      rw [← hbroken.store]
      exact lost_of_fileAt hsmooth hdecode hbad
    cases hfile : Backupfs.fileAt (cfg.env w₁.clock).reads w₁.store (objectPath cfg.repo h) with
    | error e =>
      refine ⟨hbroken' _, fun hsmooth _ => hlost (fun c hc => ?_) hsmooth⟩
      rw [hfile] at hc
      cases hc
    | ok src =>
      dsimp only
      rw [copyInto, wp_bind]
      have hv := @accepts_hostfs cfg (components path) w path
      refine wp_mono (Given.wp_put (.opened (hafter _)) hv src.rest) ?_ ?_
      swap
      · exact fun _ _ hstop => ⟨hstop.1, fun hsmooth => absurd hsmooth hstop.2⟩
      intro _ f hgiven
      cases hfault : src.fault with
      | some e =>
        obtain ⟨t, ⟨ino, -, hmaking⟩, -⟩ := hgiven.given
        refine ⟨hmaking.broken, fun hsmooth _ => hlost (fun c hc => ?_) hsmooth⟩
        rw [hfile] at hc
        rw [Except.ok.inj hc] at hfault
        cases hfault
      | none =>
        have hlookup := lookup_of_fileAt_ok hfile hfault
        rw [hbroken.store] at hlookup
        refine wp_mono (hgiven.wp_flush hv) ?_
          fun _ _ hstop => ⟨hstop.1, fun hsmooth => absurd hsmooth hstop.2⟩
        rintro _ f' ⟨-, hdev, -, hempty⟩
        exact ⟨⟨hclear, h, src.rest, rfl, hlookup, hdev⟩, by simp [destructible, hempty]⟩

/-! ### Anything but a regular file -/

/-- Nothing has been made. -/
structure Skipped (cfg : Config) (w w' : World) : Prop where
  store : w'.store = w.store
  target : w'.target = w.target
  knows : KnowsIds cfg w.names → KnowsIds cfg w'.names

/-- What is not made although nothing goes wrong. -/
def Unmade (d : Details) (tmp : Bytes) : Prop :=
  d (lit "type") = some (lit "socket") ∧ SUN_PATH_SIZE ≤ tmp.length ∨
    (∃ type, d (lit "type") = some type ∧
      type ∉ [lit "link", lit "dir", lit "chr", lit "blk", lit "socket"]) ∨
    d (lit "type") = none ∧ d (lit "data") = none ∧ d HASH_NAME = none

/-- On the way to a directory there are directories. -/
theorem isDir_above {t : Target} (ht : t.Ok) {path q : List Bytes} (hdir : t.isDir path = true)
    (hq : q <+: path) : t.isDir q = true := by
  induction path using List.reverseRecOn with
  | nil =>
    rw [List.prefix_nil.mp hq, isDir_nil]
  | append_singleton path name ih =>
    rcases List.prefix_concat_iff.mp hq with rfl | hq
    · exact hdir
    · obtain ⟨i, ino, hi, -, -⟩ := (isDir_iff (by simp)).mp hdir
      have hparent : t.isDir (path ++ [name]).dropLast = true := ht.parent (by rw [hi]; rfl)
      rw [List.dropLast_concat] at hparent
      exact ih hparent hq

/-- What is missing in a directory is just not there. -/
theorem missing_eq {t : Target} (ht : t.Ok) {path : List Bytes} (hparent : t.hasParent path = true) :
    t.missing path = ENOENT := by
  unfold missing
  rw [if_neg]
  rw [List.any_eq_true]
  rintro ⟨q, hq, hbad⟩
  rw [isDir_above ht hparent ((List.mem_inits _ _).mp hq)] at hbad
  simp at hbad

theorem wp_exists_host (path : Bytes) (hw : w.target.Ok) :
    wp (Hostfs.exists_ cfg path)
      (fun found w' => w' = { w with clock := w.clock + 1 } ∧
        (Clear w.target (components path) → found = false))
      (fun _ w' => w' = { w with clock := w.clock + 1 } ∧
        (Smooth cfg → ¬ Clear w.target (components path))) w := by
  rw [Hostfs.exists_, wp_bind, wp_call]
  split
  · rename_i hkilled
    refine ⟨rfl, fun hsmooth => ?_⟩
    rw [(hsmooth.undisturbed w.clock).1] at hkilled
    cases hkilled
  split
  · rename_i e hfault
    refine ⟨rfl, fun hsmooth => ?_⟩
    rw [(hsmooth.undisturbed w.clock).2.1] at hfault
    cases hfault
  rw [wp_bind, wp_get]
  dsimp only
  -- nothing is at a clear place, so that none of the answers but the last is given
  have hget : Clear w.target (components path) → w.target.get (components path) = none := by
    intro hclear
    unfold Target.get
    rw [hclear.free]
    rfl
  rw [wp_ite]
  split
  · rename_i hdir
    refine ⟨rfl, fun hclear => ?_⟩
    rw [isDir_eq_false hclear.ne_nil hclear.free] at hdir
    cases hdir
  split
  · rename_i target hlink
    refine ⟨rfl, fun hclear => ?_⟩
    rw [hget hclear] at hlink
    cases hlink
  · rename_i hbody
    have hno : ¬ Clear w.target (components path) := by
      intro hclear
      rw [hget hclear] at hbody
      cases hbody
    rw [wp_ite]
    split
    · exact ⟨rfl, fun _ => hno⟩
    · exact ⟨rfl, fun hclear => absurd hclear hno⟩
  · rw [wp_ite]
    split
    · exact ⟨rfl, fun _ => rfl⟩
    · rename_i hmissing
      exact ⟨rfl, fun _ hclear => hmissing (missing_eq hw hclear.parent)⟩

/-- What making an object leaves: the object under its temporary name, or nothing. -/
def MadeObject (cfg : Config) (d : Details) (full : Bytes) (w : World) :
    Option UInt32 → World → Prop
  | none, w' => Skipped cfg w w' ∧ (Clear w.target (components (tmpname full)) →
      Clear w.target (components full) → Unmade d (tmpname full) ∨
        ¬ Smooth cfg ∧ d (lit "type") = some (lit "socket"))
  | some mode, w' => Clear w.target (components (tmpname full)) ∧
      (cfg.permissions = true → mode = permsOf d) ∧
      ∃ ino, Describes cfg w.store d ino.body ∧ Making cfg (components (tmpname full)) w ino w'

/-- What is wrong with an entry that cannot be restored: its contents are lost, its owner is not known,
or its permission bits are more than that. -/
inductive Lacking (cfg : Config) (s : Store) (d : Details) : Prop
  | contents {hash : Bytes} (htype : d (lit "type") = none) (hdata : d (lit "data") = none)
      (hhash : d HASH_NAME = some hash) (hlost : Lost cfg s hash) : Lacking cfg s d
  | uid (hp : cfg.permissions = true)
      (hid : idOf cfg.users.getpwnam (d.get (lit "uid")) = none) : Lacking cfg s d
  | gid (hp : cfg.permissions = true)
      (hid : idOf cfg.users.getgrnam (d.get (lit "gid")) = none) : Lacking cfg s d
  | perms (hbits : permsOf d &&& S_IFMT ≠ 0) : Lacking cfg s d

/-- How restoring an entry stops. -/
def StoppedObject (cfg : Config) (d : Details) (full : Bytes) (w w' : World) : Prop :=
  Broken (components (tmpname full)) w w' ∧ (Smooth cfg → Clear w.target (components (tmpname full)) →
    Clear w.target (components full) → Lacking cfg w.store d)

/-- One call makes it. -/
theorem wp_created {doing : String} {path full : Bytes} {new : Int64 → Inode}
    {f : Int64 → Target → Except Errno Target} {mode : UInt32} (hw : w.target.Ok)
    (hf : ∀ now t, f now t = t.create now (components (tmpname full)) (new now))
    (hmode : cfg.permissions = true → mode = permsOf d)
    (hbody : ∀ now, Describes cfg w.store d (new now).body) :
    wp (do Hostfs.change cfg doing path f; return some mode) (MadeObject cfg d full w)
      (fun _ => StoppedObject cfg d full w) w := by
  rw [wp_bind]
  refine wp_mono (wp_create hw hf) ?_ ?_
  · rintro _ w' ⟨hclear, now, hmaking⟩
    exact ⟨hclear, hmode, _, hbody now, hmaking⟩
  · rintro _ w' ⟨hbroken, -, -, -, hsmooth⟩
    exact ⟨hbroken, fun h hclear _ => absurd hclear (hsmooth h)⟩

/-- A tick that stops the program, and one that does not. -/
theorem wp_tick_smooth {Q : Moment → World → Prop} {E : Stop → World → Prop}
    (hok : Q (cfg.env w.clock) { w with clock := w.clock + 1 })
    (hstop : ¬ Smooth cfg → E .killed { w with clock := w.clock + 1 }) : wp (tick cfg) Q E w := by
  rw [wp_tick]
  split
  · rename_i hkilled
    refine hstop fun hsmooth => ?_
    rw [(hsmooth.undisturbed w.clock).1] at hkilled
    cases hkilled
  · exact hok

theorem wp_makeSocket (path : Bytes) (hw : w.target.Ok) :
    wp (makeSocket cfg path)
      (fun made w' => if made then Clear w.target (components path) ∧
          ∃ ino, ino.body = .socket ∧ Making cfg (components path) w ino w'
        else Skipped cfg w w' ∧ (Smooth cfg → Clear w.target (components path) →
          SUN_PATH_SIZE ≤ path.length))
      (fun _ w' => Broken (components path) w w' ∧
        (Smooth cfg → ¬ Clear w.target (components path))) w := by
  rw [makeSocket, wp_ite]
  split
  · rename_i hlong
    exact ⟨⟨rfl, rfl, id⟩, fun _ _ => hlong⟩
  rw [wp_bind]
  apply wp_tick_smooth
  swap
  · exact fun hsmooth => ⟨.of_target rfl rfl, fun h => absurd h hsmooth⟩
  rw [wp_ite]
  split
  · rename_i hfault
    refine ⟨.of_target rfl rfl, fun hsmooth => ?_⟩
    rw [(hsmooth.undisturbed w.clock).2.1] at hfault
    cases hfault
  rw [wp_bind, wp_tryCatch, wp_bind, Hostfs.bind]
  set w₁ : World := { w with clock := w.clock + 1 }
  have hstill : Still cfg w w₁ := ⟨rfl, rfl, id⟩
  have hw₁ : w₁.target.Ok := hw
  refine wp_mono (wp_create hw₁ fun _ _ => rfl) ?_ ?_
  · rintro _ w₂ ⟨hclear, now, hmaking⟩
    have hafter : ∀ n, Making cfg (components path) w _ { w₂ with clock := n } := fun n =>
      ⟨hstill.trans (hmaking.still.trans ⟨rfl, rfl, id⟩), hmaking.named, hmaking.inode⟩
    rw [wp_pure, wp_ite, if_pos rfl, wp_bind]
    apply wp_tick_smooth
    swap
    · exact fun hsmooth => ⟨(hafter _).broken, fun h => absurd h hsmooth⟩
    rw [wp_ite]
    split
    · rename_i hfault
      refine ⟨(hafter _).broken, fun hsmooth => ?_⟩
      rw [(hsmooth.undisturbed w₂.clock).2.1] at hfault
      cases hfault
    · rw [wp_pure, if_pos rfl]
      exact ⟨hclear, _, rfl, hafter _⟩
  · rintro stop w₂ ⟨hbroken, -, hknows, htarget, hsmooth⟩
    split
    · -- `bind` has failed
      rw [wp_pure, wp_ite, if_neg (by simp), wp_bind, wp_error, wp_pure, if_neg (by simp)]
      exact ⟨⟨hbroken.store, htarget, hknows⟩, fun h hclear => absurd hclear (hsmooth h)⟩
    · exact ⟨⟨hbroken.store, hbroken.names, hbroken.old⟩, hsmooth⟩

theorem describes_dev {s : Store} {type : Bytes} (htype : d (lit "type") = some type)
    (hdev : type = lit "chr" ∨ type = lit "blk") :
    Describes cfg s d (.dev (((if cfg.permissions then permsOf d else 0o666) |||
      if type = lit "chr" then S_IFCHR else S_IFBLK) &&& S_IFMT)
        (strtol 10 (d.get (lit "rdev"))).toUInt64) := by
  rcases hdev with rfl | rfl
  · exact .chr htype
  · exact .blk htype

/-- **Anything but a regular file.** -/
theorem wp_makeSpecial (type full : Bytes) (hw : w.target.Ok) (htype : d (lit "type") = some type) :
    wp (makeSpecial cfg d type full (permsOf d)) (MadeObject cfg d full w)
      (fun _ => StoppedObject cfg d full w) w := by
  rw [makeSpecial, wp_ite]
  split
  · rename_i hlink
    subst hlink
    exact wp_created hw (fun _ _ => rfl) (fun _ => rfl) fun _ => .link htype
  rename_i hlink
  rw [wp_ite]
  split
  · rename_i hdir
    subst hdir
    rw [wp_bind]
    refine wp_mono (wp_exists_host full hw) ?_ ?_
    · rintro found w₁ ⟨rfl, hfound⟩
      rw [wp_ite]
      split
      · rename_i hthere
        refine ⟨⟨rfl, rfl, id⟩, fun _ hclear => ?_⟩
        rw [hfound hclear] at hthere
        cases hthere
      · have hmode : cfg.permissions = true → (if cfg.permissions then permsOf d else 0o777) = permsOf d :=
          fun hp => if_pos hp
        have hw₁ : ({ w with clock := w.clock + 1 } : World).target.Ok := hw
        refine wp_mono (wp_created hw₁ (fun _ _ => rfl) hmode fun _ => .dir htype) ?_ ?_
        · rintro (_ | mode) w₂ h
          · exact ⟨⟨h.1.store, h.1.target, h.1.knows⟩, h.2⟩
          · obtain ⟨hclear, hmode, ino, hbody, hmaking⟩ := h
            exact ⟨hclear, hmode, ino, hbody,
              ⟨hmaking.still.store, hmaking.still.errors, hmaking.still.knows⟩, hmaking.named,
              hmaking.inode⟩
        · rintro _ w₂ ⟨hbroken, hsmooth⟩
          exact ⟨⟨hbroken.store, hbroken.names, hbroken.old⟩, hsmooth⟩
    · rintro _ w₁ ⟨rfl, hsmooth⟩
      exact ⟨.of_target rfl rfl, fun h _ hclear => absurd hclear (hsmooth h)⟩
  rename_i hdir
  rw [wp_ite]
  split
  · rename_i hdev
    set bits := if cfg.permissions then permsOf d else 0o666 with hbits
    set devtype := if type = lit "chr" then S_IFCHR else S_IFBLK with hdevtype
    by_cases htypes : (bits ||| devtype) &&& S_IFMT = S_IFCHR ∨ (bits ||| devtype) &&& S_IFMT = S_IFBLK
    · refine wp_created hw (fun _ _ => if_pos htypes) (fun hp => if_pos hp) fun _ => ?_
      exact describes_dev htype hdev
    · -- there are bits of another type on the line
      rw [wp_bind]
      apply wp_change
      · intro t ht
        rw [if_neg htypes] at ht
        cases ht
      · intro stop _
        refine ⟨.of_target rfl rfl, fun _ _ _ => .perms fun hzero => htypes ?_⟩
        have hmasked : bits &&& S_IFMT = 0 := by
          rw [hbits]
          split
          · exact hzero
          · decide
        have hdevmasked : devtype &&& S_IFMT = S_IFCHR ∨ devtype &&& S_IFMT = S_IFBLK := by
          rw [hdevtype]
          split <;> decide
        have hor : (bits ||| devtype) &&& S_IFMT = bits &&& S_IFMT ||| devtype &&& S_IFMT := by
          apply UInt32.toBitVec_inj.mp
          simp only [UInt32.toBitVec_and, UInt32.toBitVec_or]
          exact BitVec.and_or_distrib_right
        rw [hor, hmasked, UInt32.zero_or]
        exact hdevmasked
  rename_i hdev
  rw [wp_ite]
  split
  · rename_i hsocket
    subst hsocket
    rw [wp_bind]
    refine wp_mono (wp_makeSocket (tmpname full) hw) ?_ ?_
    · rintro made w₁ h
      cases made with
      | true =>
        obtain ⟨hclear, ino, hbody, hmaking⟩ := h
        exact ⟨hclear, fun _ => rfl, ino, hbody ▸ .socket htype, hmaking⟩
      | false =>
        obtain ⟨hskipped, hlong⟩ := h
        refine ⟨hskipped, fun hclear _ => ?_⟩
        by_cases hsmooth : Smooth cfg
        · exact .inl (.inl ⟨htype, hlong hsmooth hclear⟩)
        · exact .inr ⟨hsmooth, htype⟩
    · rintro _ w₁ ⟨hbroken, hsmooth⟩
      exact ⟨hbroken, fun h hclear _ => absurd hclear (hsmooth h)⟩
  · rename_i hsocket
    refine ⟨⟨rfl, rfl, id⟩, fun _ _ => .inl (.inr (.inl ⟨type, htype, ?_⟩))⟩
    obtain ⟨hchr, hblk⟩ := not_or.mp hdev
    simp [hlink, hdir, hchr, hblk, hsocket]

/-! ### The object -/

theorem wp_restoreRegular (path : Bytes) (hw : w.target.Ok) (htype : d (lit "type") = none)
    (hfree : w.target.names.lookup (components path) = none ∨ w.target.isDir (components path)) :
    wp (restoreRegular cfg d path)
      (fun made w' => if made then Clear w.target (components path) ∧
          ∃ ino, Describes cfg w.store d ino.body ∧ Making cfg (components path) w ino w'
        else Skipped cfg w w' ∧ Unmade d path)
      (fun _ w' => Broken (components path) w w' ∧
        (Smooth cfg → Clear w.target (components path) → Lacking cfg w.store d)) w := by
  rw [restoreRegular]
  unfold Details.getdetail
  cases hdata : d (lit "data") with
  | some data =>
    dsimp only
    rw [wp_bind]
    refine wp_mono (wp_restoreData path data hw hfree) ?_ ?_
    · rintro _ w' ⟨hclear, ino, hbody, hmaking⟩
      exact ⟨hclear, ino, hbody ▸ .data htype hdata, hmaking⟩
    · exact fun _ _ hstop => ⟨hstop.1, fun hsmooth hclear => absurd hclear (hstop.2 hsmooth)⟩
  | none =>
    dsimp only
    cases hhash : d HASH_NAME with
    | some hash =>
      dsimp only
      rw [wp_bind]
      refine wp_mono (wp_restoreHash path hash hw hfree) ?_ ?_
      · rintro _ w' ⟨hclear, h, c, hdecode, hfile, ino, hbody, hmaking⟩
        exact ⟨hclear, ino, hbody ▸ .hashed htype hdata hhash hdecode hfile, hmaking⟩
      · intro _ _ hstop
        exact ⟨hstop.1, fun hsmooth hclear => .contents htype hdata hhash (hstop.2 hsmooth hclear)⟩
    | none => exact ⟨⟨rfl, rfl, id⟩, .inr (.inr ⟨htype, hdata, hhash⟩)⟩

/-- **The object is made under its temporary name.** -/
theorem wp_makeObject (full : Bytes) (hw : w.target.Ok)
    (hfree : w.target.names.lookup (components (tmpname full)) = none ∨
      w.target.isDir (components (tmpname full))) :
    wp (makeObject cfg d full) (MadeObject cfg d full w) (fun _ => StoppedObject cfg d full w) w := by
  rw [makeObject]
  unfold Details.getdetail
  cases htype : d (lit "type") with
  | some type => exact wp_makeSpecial type full hw htype
  | none =>
    dsimp only
    rw [wp_bind]
    refine wp_mono (wp_restoreRegular (tmpname full) hw htype hfree) ?_ ?_
    · rintro made w' h
      cases made with
      | true =>
        obtain ⟨hclear, ino, hbody, hmaking⟩ := h
        exact ⟨hclear, fun _ => rfl, ino, hbody, hmaking⟩
      | false => exact ⟨h.1, fun _ _ => .inl h.2⟩
    · exact fun _ _ hstop => ⟨hstop.1, fun hsmooth hclear _ => hstop.2 hsmooth hclear⟩

/-! ### Owner, mode and times -/

/-- How fixing attributes stops. -/
def StoppedFixing (cfg : Config) (d : Details) (tmp : List Bytes) (w w' : World) : Prop :=
  Broken tmp w w' ∧ (Smooth cfg → Lacking cfg w.store d)

theorem Making.wp_fix (h : Making cfg tmp w ino w') (d : Details) {doing : String} {path : Bytes}
    {f : Int64 → Target → Except Errno Target} {g : Inode → Inode}
    (hf : ∀ now t i, t.names.lookup tmp = some i → f now t = .ok (t.update i g)) :
    wp (Hostfs.change cfg doing path f) (fun _ w'' => Making cfg tmp w (g ino) w'')
      (fun _ => StoppedFixing cfg d tmp w) w' :=
  wp_mono (h.wp_change hf) (fun _ _ h => h) fun _ _ hstop =>
    ⟨hstop.1, fun hsmooth => absurd hsmooth hstop.2⟩

/-- The owner is one that the details name. -/
def Owned (cfg : Config) (d : Details) (ino : Inode) : Prop :=
  cfg.permissions = true → idOf cfg.users.getpwnam (d.get (lit "uid")) = some ino.uid ∧
    idOf cfg.users.getgrnam (d.get (lit "gid")) = some ino.gid

theorem Making.wp_fixOwner {path : Bytes} (h : Making cfg (components path) w ino w')
    (hk : KnowsIds cfg w.names) :
    wp (fixOwner cfg d path)
      (fun _ w'' => ∃ ino', ino'.body = ino.body ∧ Owned cfg d ino' ∧
        Making cfg (components path) w ino' w'')
      (fun _ => StoppedFixing cfg d (components path) w) w' := by
  rw [fixOwner, wp_ite]
  split
  · rename_i hp
    rw [wp_bind]
    refine wp_mono (wp_string2uid _ w') ?_ ?_
    swap
    · rintro _ w₁ ⟨rfl, hnone⟩
      exact ⟨h.broken, fun _ => .uid hp hnone⟩
    intro uid w₁ ⟨hstill, htarget, huid⟩
    have h₁ := h.of_target hstill htarget
    have huid := huid (h.still.knows hk)
    rw [wp_bind]
    refine wp_mono (wp_string2gid _ w₁) ?_ ?_
    swap
    · rintro _ w₂ ⟨rfl, hnone⟩
      exact ⟨h₁.broken, fun _ => .gid hp hnone⟩
    intro gid w₂ ⟨hstill₂, htarget₂, hgid⟩
    have h₂ := h₁.of_target hstill₂ htarget₂
    have hgid := hgid (h₁.still.knows hk)
    refine wp_mono (h₂.wp_fix d fun now t i hi => change_eq _ hi) ?_ fun _ _ hstop => hstop
    intro _ w₃ h₃
    refine ⟨_, ?_, ?_, h₃⟩
    · rfl
    · exact fun _ => ⟨huid, hgid⟩
  · rename_i hp
    exact ⟨ino, rfl, fun h => absurd h hp, h⟩

theorem Making.wp_fixMode {path : Bytes} {mode : UInt32} (h : Making cfg (components path) w ino w')
    (hmode : cfg.permissions = true → mode = permsOf d) (howner : Owned cfg d ino) :
    wp (fixMode cfg mode path)
      (fun _ w'' => ∃ ino', ino'.body = ino.body ∧ Owned cfg d ino' ∧
        (cfg.permissions = true → ino'.mode = permsOf d &&& 0o7777) ∧
        Making cfg (components path) w ino' w'')
      (fun _ => StoppedFixing cfg d (components path) w) w' := by
  rw [fixMode, wp_ite]
  split
  · rename_i hp
    refine wp_mono (h.wp_fix d fun now t i hi => change_eq _ hi) ?_ fun _ _ hstop => hstop
    intro _ w'' h'
    refine ⟨_, ?_, ?_, ?_, h'⟩
    · rfl
    · exact howner
    · intro _
      rw [hmode hp]
  · rename_i hp
    exact ⟨ino, rfl, howner, fun h => absurd h hp, h⟩

/-- **Permissions and times are fixed under the temporary name.** -/
theorem Making.wp_fixAttributes {full : Bytes} {mode : UInt32}
    (h : Making cfg (components (tmpname full)) w ino w') (hbody : Describes cfg w.store d ino.body)
    (hmode : cfg.permissions = true → mode = permsOf d) (hk : KnowsIds cfg w.names) :
    wp (fixAttributes cfg d mode full)
      (fun stamps w'' => (∃ ino, Complete cfg w.store d ino ∧
          Making cfg (components (tmpname full)) w ino w'') ∧
        stamps = if d (lit "type") = some (lit "dir") then
          [⟨full, timeOf d "atime", timeOf d "mtime"⟩] else [])
      (fun _ => StoppedFixing cfg d (components (tmpname full)) w) w' := by
  rw [fixAttributes, wp_bind]
  refine wp_mono (h.wp_fixOwner hk) ?_ fun _ _ hstop => hstop
  intro _ w₁ ⟨ino₁, hbody₁, howner₁, h₁⟩
  rw [← hbody₁] at hbody
  unfold Details.getdetail
  rw [wp_ite]
  split
  · rename_i hlink
    rw [wp_pure, hlink, if_neg (by decide)]
    have hcomplete : Complete cfg w.store d ino₁ :=
      ⟨hbody, howner₁, fun _ hne => absurd hlink hne, fun hne => absurd hlink hne⟩
    exact ⟨⟨ino₁, hcomplete, h₁⟩, rfl⟩
  rw [wp_bind]
  refine wp_mono (h₁.wp_fixMode hmode howner₁) ?_ fun _ _ hstop => hstop
  intro _ w₂ ⟨ino₂, hbody₂, howner₂, hmode₂, h₂⟩
  rw [← hbody₂] at hbody
  rw [wp_ite]
  split
  · rename_i hdir
    have hcomplete : Complete cfg w.store d ino₂ :=
      ⟨hbody, howner₂, fun hp _ => hmode₂ hp, fun _ hne => absurd hdir hne⟩
    exact ⟨⟨ino₂, hcomplete, h₂⟩, rfl⟩
  · rw [wp_bind]
    refine wp_mono (h₂.wp_fix d fun now t i hi => change_eq _ hi) ?_ fun _ _ hstop => hstop
    intro _ w₃ h₃
    have hcomplete : Complete cfg w.store d
        { ino₂ with atime := timeOf d "atime", mtime := timeOf d "mtime" } :=
      ⟨hbody, howner₂, fun hp _ => hmode₂ hp, fun _ _ => ⟨rfl, rfl⟩⟩
    exact ⟨⟨_, hcomplete, h₃⟩, rfl⟩

/-! ### Into place -/

theorem isComponent_tmp {last : Bytes} (h0 : 0 ∉ last) (hslash : 47 ∉ last) :
    IsComponent (last ++ lit "~restore~") := by
  have hsuffix : 0 ∉ lit "~restore~" ∧ 47 ∉ lit "~restore~" ∧ 46 ∉ lit "~restore~" := by decide
  refine ⟨by simp [h0, hsuffix.1], by simp [hslash, hsuffix.2.1], by simp [lit], fun e => ?_⟩
  -- a name that is longer than a dot
  have hlen := congrArg List.length e
  have hsuf : (lit "~restore~").length = 9 := rfl
  have hdot : (lit ".").length = 1 := rfl
  rw [List.length_append, hsuf, hdot] at hlen
  omega

/-- A name ends at a zero byte, and then the temporary name is the same. -/
theorem components_tmpname_of_zero {full : Bytes} (h0 : 0 ∈ full) :
    components (tmpname full) = components full := by
  have hcstr : cstr (tmpname full) = cstr full := by
    unfold cstr tmpname
    rw [List.takeWhile_append, if_neg]
    intro hlen
    have heq := (List.takeWhile_prefix _).eq_of_length hlen
    simpa using List.takeWhile_eq_self_iff.mp heq 0 h0
  unfold components
  rw [hcstr]

/-- The temporary name is another one than the final name, and nothing on the way to that. -/
theorem tmp_apart {full : Bytes} (h0 : 0 ∉ full) (hslash : 47 ∈ full) :
    components (tmpname full) ≠ [] ∧ components (tmpname full) ≠ components full ∧
      (components full).dropLast ≠ components (tmpname full) := by
  obtain ⟨p, last, htmp, hfull⟩ := components_tmp h0 hslash
    fun last h0 hslash => isComponent_tmp h0 hslash
  have htmp : components (tmpname full) = p ++ [last ++ lit "~restore~"] := htmp
  have hsuf : (lit "~restore~").length = 9 := rfl
  have hlast : last ++ lit "~restore~" ≠ last := by
    intro e
    have hlen := congrArg List.length e
    rw [List.length_append, hsuf] at hlen
    omega
  have hlen : (components full).length ≤ p.length + 1 := by
    rcases hfull with h | h <;> rw [h] <;> simp
  rw [htmp]
  refine ⟨by simp, ?_, ?_⟩
  · intro e
    rcases hfull with h | h
    · rw [h] at e
      have := List.append_cancel_left e
      exact hlast (List.singleton_injective this)
    · rw [h] at e
      have hlen' := congrArg List.length e
      simp at hlen'
  · intro e
    have hlen' := congrArg List.length e
    rw [List.length_dropLast, List.length_append, List.length_singleton] at hlen'
    omega

/-- What a new object leaves: it is complete, and has the final name. -/
structure New (cfg : Config) (d : Details) (full : Bytes) (w : World) (r r' : Restoring)
    (w' : World) : Prop where
  still : Still cfg w w'
  ok : w'.target.Ok
  clear : Clear w.target (components (tmpname full))
  named : w.target.Named w'.target (components full) w.target.inodes.length
  complete : ∃ ino, w'.target.inodes[w.target.inodes.length]? = some ino ∧
    Complete cfg w.store d ino
  restoring : r' = { r with
    inodes := match d (lit "type"), inodenum d with
      | none, some n => (n, full) :: r.inodes
      | _, _ => r.inodes
    dirtimes := r.dirtimes ++ if d (lit "type") = some (lit "dir") then
      [⟨full, timeOf d "atime", timeOf d "mtime"⟩] else [] }

/-- **An object that is not a link to one already restored.** -/
theorem wp_restoreNew {full : Bytes} (r : Restoring) (hslash : 47 ∈ full)
    (hw : w.target.Ok) (hk : KnowsIds cfg w.names)
    (hfree : w.target.names.lookup (components (tmpname full)) = none ∨
      w.target.isDir (components (tmpname full))) :
    wp (restoreNew cfg d full r)
      (fun r' w' => New cfg d full w r r' w' ∨ r' = r ∧ MadeObject cfg d full w none w')
      (fun _ => StoppedObject cfg d full w) w := by
  rw [restoreNew, wp_bind]
  refine wp_mono (wp_makeObject full hw hfree) ?_ fun _ _ hstop => hstop
  intro mode w₁ hmade
  cases mode with
  | none => exact .inr ⟨rfl, hmade⟩
  | some mode =>
    obtain ⟨hclear, hmode, ino, hbody, hmaking⟩ := hmade
    dsimp only
    rw [wp_bind]
    refine wp_mono (hmaking.wp_fixAttributes hbody hmode hk) ?_ ?_
    swap
    · exact fun _ _ hstop => ⟨hstop.1, fun hsmooth _ _ => hstop.2 hsmooth⟩
    intro stamps w₂ ⟨⟨ino₂, hcomplete, h₂⟩, hstamps⟩
    have hrestoring : ∀ w₃ : World, w₃.names = w₂.names → w₃.store = w₂.store →
        w₃.errors = w₂.errors → Still cfg w w₃ := by
      intro w₃ hnames hstore herrors
      exact h₂.still.trans ⟨hstore, herrors, fun hk => hnames ▸ hk⟩
    rw [wp_bind, Hostfs.rename]
    by_cases h0 : 0 ∈ full
    · -- the temporary name is the final one
      have hself := components_tmpname_of_zero h0
      have hnamed := h₂.named
      rw [hself] at hnamed hclear ⊢
      apply wp_change
      · intro t hrename
        obtain rfl := hnamed.rename_self hrename
        refine .inl ⟨hrestoring _ rfl rfl rfl, ?_, hself ▸ hclear, hnamed,
          ⟨ino₂, h₂.inode, hcomplete⟩, ?_⟩
        · refine hnamed.ok hw hclear.ne_nil (by rw [h₂.inode]; rfl) hclear.parent ?_
          exact hw.children_eq_nil (isDir_eq_false hclear.ne_nil hclear.free)
        · rw [hstamps]
          unfold Details.getdetail
          rfl
      · intro stop hstop
        refine ⟨⟨h₂.still.store, h₂.broken.names, h₂.broken.old⟩, fun hsmooth _ _ => ?_⟩
        obtain ⟨e, he⟩ := hstop hsmooth
        rw [hnamed.rename_self_ok _ hw hclear.ne_nil hclear.parent] at he
        cases he
    obtain ⟨htmp, hne, hout⟩ := tmp_apart h0 hslash
    apply wp_change
    · intro t hrename
      rcases h₂.named.rename hw htmp hclear.free hclear.parent (Ne.symm hne).symm hout hrename with
        ⟨hold, -⟩ | ⟨hparent, hfull, hempty, hnamed, hsame, -⟩
      · -- the inode is new
        have := hw.inode hold
        omega
      obtain ⟨ino₃, hino₃, halike⟩ := hsame _ _ h₂.inode
      refine .inl ⟨⟨h₂.still.store, h₂.still.errors, h₂.still.knows⟩, ?_, hclear, hnamed,
        ⟨ino₃, hino₃, hcomplete.alike halike⟩, ?_⟩
      · exact hnamed.ok hw hfull (by rw [hino₃]; rfl) hparent hempty
      · rw [hstamps]
        unfold Details.getdetail
        rfl
    · intro stop hstop
      refine ⟨⟨h₂.still.store, h₂.broken.names, h₂.broken.old⟩, fun hsmooth _ hclear' => ?_⟩
      obtain ⟨e, he⟩ := hstop hsmooth
      obtain ⟨t, ht⟩ := h₂.named.rename_ok (cfg.env w₂.clock).now hw hclear'.ne_nil
        hclear'.parent hclear.free hclear'.free htmp hne hout
      rw [ht] at he
      cases he

/-! ### The entry -/

/-- What a link to an object that has been restored leaves.  The temporary name may be left behind if
the final one is a link to the same file already. -/
structure Linked (cfg : Config) (path full : Bytes) (w w' : World) : Prop where
  still : Still cfg w w'
  ok : w'.target.Ok
  linked : ∃ i, w.target.names.lookup (components path) = some i ∧
    (w.target.Named w'.target (components full) i ∨
      w.target.names.lookup (components full) = some i ∧
        w.target.Named w'.target (components (tmpname full)) i)

/-- **A link to a file we already unpacked.** -/
theorem wp_restoreLink {path full : Bytes} {r : Restoring} (hslash : 47 ∈ full)
    (hw : w.target.Ok) :
    wp (do
        Hostfs.link cfg path (tmpname full)
        Hostfs.rename cfg (tmpname full) full
        return r)
      (fun r' w' => r' = r ∧ Linked cfg path full w w')
      (fun _ w' => Broken (components (tmpname full)) w w' ∧ (Smooth cfg →
        Clear w.target (components (tmpname full)) → Clear w.target (components full) →
        w.target.names.lookup (components path) = none ∨ w.target.isDir (components path) = true)) w := by
  rw [wp_bind, Hostfs.link]
  apply wp_change
  · intro t hlink
    obtain ⟨i, hi, hdir, htmp, hparent, hnone, hnamed, hlen⟩ := link_spec hlink hw
    rw [wp_bind, Hostfs.rename]
    have hino : (t.inodes[i]?).isSome := by
      rw [List.getElem?_eq_getElem (hlen.symm ▸ hw.inode hi)]
      rfl
    have hok : t.Ok :=
      hnamed.ok hw htmp hino hparent (hw.children_eq_nil (isDir_eq_false htmp hnone))
    by_cases h0 : 0 ∈ full
    · -- the temporary name is the final one
      have hself := components_tmpname_of_zero h0
      rw [hself] at hnamed hparent htmp ⊢
      apply wp_change
      · intro t' hrename
        obtain rfl := hnamed.rename_self hrename
        exact ⟨rfl, ⟨rfl, rfl, id⟩, hok, i, hi, .inl hnamed⟩
      · intro stop hstop
        refine ⟨⟨rfl, fun q hq => hnamed.lookup_ne (hself ▸ hq), hnamed.old⟩, fun hsmooth _ _ => ?_⟩
        obtain ⟨e, he⟩ := hstop hsmooth
        have he' : t.rename (cfg.env (w.clock + 1)).now (components full) (components full) =
          .error e := he
        rw [hnamed.rename_self_ok _ hw htmp hparent] at he'
        cases he'
    obtain ⟨-, hne, hout⟩ := tmp_apart h0 hslash
    apply wp_change
    · intro t' hrename
      rw [wp_pure]
      have hold := hnamed.rename hw htmp hnone hparent hne hout hrename
      rcases hold with ⟨hold, rfl⟩ | ⟨hparent', hfull, hempty, hnamed', hsame, hlen'⟩
      · exact ⟨rfl, ⟨rfl, rfl, id⟩, hok, i, hi, .inr ⟨hold, hnamed⟩⟩
      · refine ⟨rfl, ⟨rfl, rfl, id⟩, ?_, i, hi, .inl hnamed'⟩
        refine hnamed'.ok hw hfull ?_ hparent' hempty
        rw [List.getElem?_eq_getElem (by rw [hlen', hlen]; exact hw.inode hi)]
        rfl
    · intro stop hstop
      refine ⟨⟨rfl, fun q hq => hnamed.lookup_ne hq, hnamed.old⟩, fun hsmooth hclear hclear' => ?_⟩
      obtain ⟨e, he⟩ := hstop hsmooth
      obtain ⟨t', ht'⟩ := hnamed.rename_ok (cfg.env (w.clock + 1)).now hw hclear'.ne_nil
        hclear'.parent hclear.free hclear'.free htmp hne hout
      have he' : t.rename (cfg.env (w.clock + 1)).now (components (tmpname full)) (components full) =
          .error e := he
      rw [ht'] at he'
      cases he'
  · intro stop hstop
    refine ⟨.of_target rfl rfl, fun hsmooth hclear _ => ?_⟩
    obtain ⟨e, he⟩ := hstop hsmooth
    by_contra hnot
    obtain ⟨hsome, hdir⟩ := not_or.mp hnot
    obtain ⟨i, hi⟩ := Option.ne_none_iff_exists'.mp hsome
    obtain ⟨t, ht⟩ := link_ok (cfg.env w.clock).now hi (by simpa using hdir) hclear.ne_nil
      hclear.parent hclear.free
    rw [ht] at he
    cases he

end Hbackup
