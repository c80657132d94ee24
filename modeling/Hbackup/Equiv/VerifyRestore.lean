import Hbackup.Equiv.HardLinks
import Hbackup.Equiv.Hints
import Hbackup.Equiv.Overwrite
import Hbackup.Equiv.Verify

/-!
# What passes verification can be restored

Verification and restoring are two loops over the same index.  Whatever has become of the
repository, a verification finds no error exactly if the index can be restored, and every regular
file gets the data on its line, or contents with the hash on its line (`verify_tells`).  This is so
on one filesystem if the lines of a file with several links name the same hash, and its owners are
known where the tree is restored.
-/

namespace Hbackup

open Preorder ProgramLogic

variable {cfg v r : Config} {host : Host} {store hintStore s : Store} {w w' : World} {depth : Nat}
  {target : Target} {ds : List Details} {hash : Bytes → Stat → Hash}

/-! ### Verification -/

/-- `v` verifies the index of `cfg`; nothing is removed, and nothing disturbs it. -/
structure Verifies (cfg v : Config) : Prop where
  repo : v.repo = cfg.repo
  root : v.root = []
  indexfile : v.indexfile = cfg.indexfile
  sha1 : v.sha1 = cfg.sha1
  detectbogus : v.detectbogus = false
  undisturbed : Undisturbed v

theorem Undisturbed.truthful (h : Undisturbed v) : TruthfulErrors v := by
  intro n
  obtain ⟨-, hfault, hreads⟩ := h n
  refine ⟨by simp [hfault], fun path fault hsome => ?_⟩
  rw [hreads path] at hsome
  cases hsome

/-- Without `--detect-bogus` nothing is removed. -/
theorem LineChecked.store_of_off {d : Details} (h : LineChecked v d w w')
    (hoff : v.detectbogus = false) : w'.store = w.store := by
  cases h with
  | skip hd => rfl
  | unknown hd hnone => rfl
  | object hd hc =>
    cases hc with
    | good hfile hgood => rfl
    | missing hnone => rfl
    | wrong hfile hbad => rfl
    | removed hfile hbad hon =>
      rw [hoff] at hon
      cases hon

/-- What an index is read from has one list of entries. -/
theorem IndexRead.unique {ds' : List Details} (h : IndexRead v w ds) (h' : IndexRead v w ds') :
    ds' = ds := by
  obtain ⟨f, hf, hds⟩ := h
  obtain ⟨f', hf', hds'⟩ := h'
  obtain rfl := Except.ok.inj (hf.symm.trans hf')
  exact congrArg Prod.fst (hds'.symm.trans hds)

/-- **A verification finds no error** exactly if there is no bad line. -/
theorem verify_passes_iff (hoff : v.detectbogus = false) (hu : Undisturbed v) (hrepo : v.repo ≠ [])
    (hroot : v.root = []) (hindex : v.indexfile ≠ []) (hread : IndexRead v w ds) :
    (∃ w', do_verify v w = .ok () w' ∧ w'.errors = w.errors) ↔
      ∀ d ∈ ds, lineBad v w.store d = false := by
  have hstart : ({ w with clock := w.clock + 1 } : World).store = w.store ∧
      ({ w with clock := w.clock + 1 } : World).errors =
        w.errors + ([] : List Details).countP (lineBad v w.store) := ⟨rfl, rfl⟩
  have hruns := wp_do_verify (w := w) hu.truthful
    (I := fun pre w' => w'.store = w.store ∧ w'.errors = w.errors + pre.countP (lineBad v w.store))
    hstart ?_
  · constructor
    · rintro ⟨w', hrun, herrors⟩
      obtain ⟨ds', hread', -, hcount⟩ := wp_elim_ok hruns hrun
      rw [hread.unique hread', herrors] at hcount
      have hzero : ds.countP (lineBad v w.store) = 0 := by omega
      intro d hd
      rw [← Bool.not_eq_true]
      exact List.countP_eq_zero.mp hzero d hd
    · intro hgood
      have hreturns := wp_returns (wp_mono hruns (fun _ _ h => h) ?_)
      · obtain ⟨_, w', hrun, ds', hread', -, hcount⟩ := hreturns
        refine ⟨w', hrun, ?_⟩
        rw [hcount, hread.unique hread', List.countP_eq_zero.mpr]
        · rfl
        · intro d hd
          rw [hgood d hd]
          simp
      · intro _ _ hstop
        obtain ⟨pre, d, post, w₁, hsplit, ⟨hstore, -⟩, hbad⟩ := hstop hu hrepo hroot hindex ds hread
        rw [hstore, hgood d (by rw [hsplit]; simp)] at hbad
        cases hbad
  · rintro pre d w₁ w₂ ⟨hstore, herrors⟩ hline
    refine ⟨(hline.store_of_off hoff).trans hstore, ?_⟩
    rw [hline.errors, hstore, herrors, List.countP_append, List.countP_singleton]
    omega

/-- The line of an entry is bad if it names an object that is missing or wrong. -/
theorem Entry.lineBad_eq_false (e : Entry) : lineBad v s e.details = false ↔
    ∀ h, e.kind = .sha1 h → objectGood v s h = true := by
  have htype := e.details_type
  have hsha1 := e.details_sha1
  cases hk : e.kind with
  | sha1 hash =>
    rw [hk] at htype hsha1
    have hdata : e.details (lit "data") = none := by
      have hinode : (inodeFields e.sb).lookup (lit "data") = none := by
        unfold inodeFields
        split_ifs <;> rfl
      rw [Entry.details, e.lookup, Entry.fields, List.lookup_append, hk]
      exact hinode
    have hrefers : RefersTo e.details hash :=
      ⟨⟨htype, hdata⟩, _, hsha1, hashdecode_hexencode hash⟩
    rw [lineBad_of_refersTo hrefers, Bool.not_eq_false']
    constructor
    · intro hgood h hh
      rw [← Kind.sha1.inj hh]
      exact hgood
    · exact fun hall => hall hash rfl
  | data bytes =>
    have hdata : e.details (lit "data") = some bytes := by
      rw [Entry.details, e.lookup, Entry.fields, hk]
      rfl
    have hnot : ¬ Hashed e.details := by
      rintro ⟨-, hnone⟩
      rw [hdata] at hnone
      cases hnone
    refine iff_of_true ?_ fun h hh => by cases hh
    simp [lineBad, hnot]
  | _ =>
    rw [hk] at htype
    have hnot : ¬ Hashed e.details := by
      rintro ⟨hnone, -⟩
      rw [htype] at hnone
      cases hnone
    refine iff_of_true ?_ fun h hh => by cases hh
    simp [lineBad, hnot]

/-! ### Restoring -/

namespace Tree

/-- All that is backed up is on one filesystem. -/
def OneFilesystem (t : Tree) : Prop :=
  ∀ p q sb sb', t.Kept p → t.Kept q → t.host.lstat (t.full p) = .ok sb →
    t.host.lstat (t.full q) = .ok sb' → sb.st_dev = sb'.st_dev

/-- The lines of a large file with several links name the same hash. -/
def LinksAgree (t : Tree) : Prop :=
  ∀ p q sb, t.Regular p sb → t.Regular q sb → 1 < sb.st_nlink → STORE_LIMIT < sb.st_size →
    t.hash (t.full p) sb = t.hash (t.full q) sb

end Tree

/-- The data on the line, or contents with the hash on the line. -/
def RightContents (sha1 : Bytes → Hash) : Kind → Bytes → Prop
  | .data bytes, c => c = bytes
  | .sha1 h, c => sha1 c = h
  | _, _ => True

/-- Every regular file of the index has been restored with the right contents. -/
def RestoredRight (cfg r : Config) (l : List Placed) (target : Target) : Prop :=
  ∀ pe ∈ l, pe.2.kind.type = none → ∃ ino c, target.get (r.spot pe.1) = some ino ∧
    ino.body = .file c ∧ RightContents cfg.sha1 pe.2.kind c

/-- On one filesystem a regular file is restored from an entry of the same kind. -/
theorem RestoredTree.regular_kind {w₀ : World} (h : HoldsIndex cfg host hash depth s)
    (hreal : RealFiles host) (hone : (cfg.tree host hash).OneFilesystem)
    (hagree : (cfg.tree host hash).LinksAgree)
    (hw : RestoredTree r ((cfg.tree host hash).placed depth) w₀ w) {pe : Placed}
    (hm : pe ∈ (cfg.tree host hash).placed depth) (htype : pe.2.kind.type = none) :
    ∃ (e : Entry) (ino : Inode), e.kind = pe.2.kind ∧ w.target.get (r.spot pe.1) = some ino ∧
      e.Says r w₀.store ino.body := by
  have hnames := hreal.names
  have hp := Tree.regular_of_placed (t := cfg.tree host hash) hnames h.within hm htype
  obtain ⟨q, e, ino, hqm, hq, hsource, hget, hc⟩ := hw.regular h hnames hp
  refine ⟨e, ino, ?_, hget, hc.body.describedBy (devices_placed hnames hqm)⟩
  obtain ⟨-, -, -, -, hkind⟩ := Tree.entry_of_placed (t := cfg.tree host hash) hnames hm
  obtain ⟨-, -, -, -, hqkind⟩ := Tree.entry_of_placed (t := cfg.tree host hash) hnames hqm
  dsimp only at hqkind
  rw [hkind, hqkind]
  rcases hsource with rfl | ⟨hlinks, -, hino⟩
  · rw [Except.ok.inj (hq.lstat.symm.trans hp.lstat)]
  -- it is the same file
  have hfile : pe.2.sb.SameFile e.sb := ⟨hone pe.1 q _ _ hp.kept hq.kept hp.lstat hq.lstat, hino⟩
  have hsb := (hreal.same _ _ _ _ hp.lstat hq.lstat hfile).1
  have hbytes := hreal.bytes hp.lstat hq.lstat hfile
  rw [hsb] at hq ⊢
  unfold Tree.kind
  rw [if_pos hp.regular, if_pos hp.regular]
  split
  · rw [Config.tree_host, hbytes]
  · rename_i hlarge
    exact congrArg Kind.sha1 (hagree q pe.1 _ hq hp hlinks (not_le.mp hlarge))

/-! ### Both -/

/-- `cfg` has backed up a tree that is on one filesystem, with the hints `hs`.  The backup
filesystem has become `s` since then, where `v` verifies the index and `r` restores it, all calls
that it makes succeeding. -/
structure Later (cfg v r : Config) (host : Host) (depth : Nat) (hs : Option (List (Bytes × Hint)))
    (target : Target) (s : Store) : Prop where
  outside : Outside cfg
  unchanging : Unchanging cfg host
  real : RealFiles host
  onefs : (cfg.tree host (hintedHash cfg hs host)).OneFilesystem
  backup : ∃ store hintStore w, Loads cfg hintStore hs ∧
    do_backup cfg depth { store, hintStore } = .ok () w ∧
    s.lookup cfg.indexfile = w.store.lookup cfg.indexfile
  verifies : Verifies cfg v
  restores : Restores cfg r target
  given : r.toOptions.Given
  smooth : Smooth r

/-- The verification returns with no errors exactly if the restore returns and gives every regular
file the data on its line, or contents with the hash on its line. -/
def VerifyTells (cfg v r : Config) (l : List Placed) (target : Target) (s : Store) : Prop :=
  (∃ w, do_verify v { store := s } = .ok () w ∧ w.errors = 0) ↔
    ∃ w, do_restore r { store := s, target } = .ok () w ∧ RestoredRight cfg r l w.target

/-- **Verify answers whether the backup can be restored**, whatever has become of the repository: if
the lines of a file with several links agree, and its owners are known where it is restored. -/
theorem verify_tells (cfg v r : Config) (host : Host) (depth : Nat)
    (hs : Option (List (Bytes × Hint))) (target : Target) (s : Store)
    (hlater : Later cfg v r host depth hs target s)
    (hagree : (cfg.tree host (hintedHash cfg hs host)).LinksAgree)
    (howners : OwnersResolve (cfg.tree host (hintedHash cfg hs host)) r) :
    VerifyTells cfg v r ((cfg.tree host (hintedHash cfg hs host)).placed depth) target s := by
  obtain ⟨ho, hhost, hreal, hone, hran, hv, hr, hgiven, hsmooth⟩ := hlater
  obtain ⟨store, hintStore, w, hloads, hbackup, hindex⟩ := hran
  have h := do_backup_index ho hhost hreal.names (fun hs' hl => by
    rw [hloads.unique hl rfl]
    exact hashesFrom_hintedHash hhost hs) hbackup
  obtain ⟨hrepo, hroot, hfile⟩ := hgiven
  set l := (cfg.tree host (hintedHash cfg hs host)).placed depth with hl
  have hread : IndexRead v { store := s }
      (l.map fun pe => pe.2.details) := by
    refine ⟨⟨indexText (l.map Prod.snd), none⟩, ?_, ?_⟩
    · unfold Backupfs.fileAt
      rw [(hv.undisturbed _).2.2]
      dsimp only
      rw [hv.indexfile, hindex, h.index]
    · rw [entriesOf_indexText, List.map_map]
      rfl
  have hpasses := verify_passes_iff hv.detectbogus hv.undisturbed
    (hv.repo.trans hr.repo.symm ▸ hrepo) hv.root (hv.indexfile.trans hr.indexfile.symm ▸ hfile)
    hread
  unfold VerifyTells
  refine hpasses.trans ?_
  -- an object is good for the one if it is for the other
  have hobjects : (∀ d ∈ l.map fun pe => pe.2.details, lineBad v s d = false) ↔
      ∀ pe ∈ l, ∀ hash, pe.2.kind = .sha1 hash →
        ∃ c, s.lookup (objectPath r.repo hash) = some (.file c) ∧ cfg.sha1 c = hash := by
    rw [List.forall_mem_map]
    refine forall₂_congr fun pe _ => ?_
    rw [pe.2.lineBad_eq_false]
    refine forall₂_congr fun hash _ => ?_
    rw [objectGood_iff, hv.repo, hv.sha1, hr.repo]
  refine hobjects.trans ?_
  have hruns := h.wp_do_restore hreal.names hr hindex
  constructor
  · intro hgood
    have hreturns := wp_returns (wp_mono hruns (fun _ _ hw => hw) ?_)
    · obtain ⟨_, w', hrun, hw⟩ := hreturns
      refine ⟨w', hrun, fun pe hm htype => ?_⟩
      obtain ⟨e, ino, hkind, hget, hsays⟩ := hw.regular_kind h hreal hone hagree hm htype
      unfold Entry.Says at hsays
      rw [hkind] at hsays
      cases hk : pe.2.kind with
      | data bytes =>
        rw [hk] at hsays
        exact ⟨ino, bytes, hget, hsays, rfl⟩
      | sha1 hash =>
        rw [hk] at hsays
        obtain ⟨c, hc, hbody⟩ := hsays
        obtain ⟨c', hc', hhash⟩ := hgood pe hm hash hk
        obtain rfl : c' = c := by
          have hc : s.lookup (objectPath r.repo hash) = some (.file c) := hc
          rw [hc'] at hc
          cases hc
          rfl
        exact ⟨ino, c', hget, hbody, hhash⟩
      | _ =>
        rw [hk] at htype
        cases htype
    · intro _ _ hstop
      obtain ⟨pe, hm, -, hlacking⟩ := hstop hsmooth hrepo hroot hfile
      refine h.not_lacking hreal.names howners hm ?_ hlacking
      intro hash hk
      obtain ⟨c, hc, -⟩ := hgood pe hm hash hk
      exact ⟨c, hc⟩
  · rintro ⟨w', hrun, hright⟩ pe hm hash hk
    have hw := wp_elim_ok hruns hrun
    have htype : pe.2.kind.type = none := by
      rw [hk]
      rfl
    obtain ⟨e, ino, hkind, hget, hsays⟩ := hw.regular_kind h hreal hone hagree hm htype
    obtain ⟨ino', c, hget', hbody, hcontents⟩ := hright pe hm htype
    obtain rfl := Option.some.inj (hget.symm.trans hget')
    unfold Entry.Says at hsays
    rw [hkind, hk] at hsays
    rw [hk] at hcontents
    obtain ⟨c', hc', hbody'⟩ := hsays
    rw [hbody] at hbody'
    rw [← Body.file.inj hbody'] at hc'
    exact ⟨c, hc', hcontents⟩

/-- The two names `a` and `b` of a large file. -/
def twoNames : Host where
  contents _ := .ok [lit "a", lit "b"]
  lstat _ := .ok { (default : Stat) with st_mode := S_IFREG, st_nlink := 2, st_size := 300 }
  data _ := .ok (List.replicate 300 1, none)
  readlink _ := .error ENOENT
  ismount _ := .ok false
  utimes _ := .ok ()

theorem realFiles_twoNames : RealFiles twoNames where
  names := by
    have hnames : ∀ path, twoNames.names path = [lit "a", lit "b"] := fun _ => rfl
    constructor
    · intro path
      rw [hnames]
      decide
    · intro path
      rw [hnames]
      decide
  size := by
    intro path sb data fault hstat _ hdata
    cases hstat
    cases hdata
    exact ⟨le_of_eq List.length_replicate, fun _ => List.length_replicate⟩
  same := by
    intro path path' sb sb' hstat hstat' _
    cases hstat
    cases hstat'
    exact ⟨rfl, rfl⟩

/-- A backup of it for the owner `alice`, with the hint file `hintfile`. -/
def namesBackup (hintfile : Bytes) : Config :=
  { largeFile 1000 with
    hintfile
    sha1 := firstHash
    users := {
      getpwuid := fun _ => some (lit "alice")
      getpwnam := fun _ => none
      getgrgid := fun _ => some (lit "alice")
      getgrnam := fun _ => none }
    env := fun n => { (largeFile 1000).env n with host := twoNames } }

theorem oneFilesystem_twoNames (hintfile : Bytes) (hs : Option (List (Bytes × Hint))) :
    ((namesBackup hintfile).tree twoNames
      (hintedHash (namesBackup hintfile) hs twoNames)).OneFilesystem := by
  intro p q sb sb' _ _ hstat hstat'
  cases hstat
  cases hstat'
  rfl

/-- The verification of the backup. -/
def namesVerify : Config :=
  { smallRestore none with
    repo := lit "repo", root := [], indexfile := lit "index", sha1 := firstHash }

theorem verifies_names (hintfile : Bytes) : Verifies (namesBackup hintfile) namesVerify :=
  ⟨rfl, rfl, rfl, rfl, rfl, fun _ => ⟨rfl, rfl, fun _ => rfl⟩⟩

/-- The restore to `/r`, where `alice` has the number `id`, if she is known. -/
def namesRestore (id : Option UInt32) : Config :=
  { smallRestore none with
    repo := lit "repo"
    indexfile := lit "index"
    permissions := true
    users := ⟨fun _ => none, fun _ => id, fun _ => none, fun _ => id⟩ }

theorem restores_names (hintfile : Bytes) (id : Option UInt32) :
    Restores (namesBackup hintfile) (namesRestore id) (emptyRoot []).target :=
  ⟨rfl, rfl, zero_not_mem_r, fun _ => rfl, emptyRoot_r rfl⟩

theorem given_names (id : Option UInt32) : (namesRestore id).toOptions.Given := by
  have hgiven : lit "repo" ≠ [] ∧ lit "/r" ≠ [] ∧ lit "index" ≠ [] := by decide
  exact hgiven

theorem smooth_names (id : Option UInt32) : Smooth (namesRestore id) :=
  ⟨fun _ => ⟨rfl, rfl, fun _ => rfl⟩, fun _ => rfl⟩

/-- A backup of the two names, and a restore where `alice` has the number `id`. -/
theorem later_names (id : Option UInt32) {hintfile : Bytes} {hs : Option (List (Bytes × Hint))}
    {store hintStore : Store} {w : World} (hloads : Loads (namesBackup hintfile) hintStore hs)
    (hrun : do_backup (namesBackup hintfile) 1 { store, hintStore } = .ok () w) :
    Later (namesBackup hintfile) namesVerify (namesRestore id) twoNames 1 hs (emptyRoot []).target
      w.store where
  outside := ⟨not_under_index⟩
  unchanging _ := rfl
  real := realFiles_twoNames
  onefs := oneFilesystem_twoNames hintfile hs
  backup := ⟨store, hintStore, w, hloads, hrun, rfl⟩
  verifies := verifies_names hintfile
  restores := restores_names hintfile id
  given := given_names id
  smooth := smooth_names id

/-- The owner is not known where the tree is restored. -/
theorem unknownOwner_shows : ¬ ∀ (cfg v r : Config) (host : Host) (depth : Nat)
    (hs : Option (List (Bytes × Hint))) (target : Target) (s : Store),
    Later cfg v r host depth hs target s → (cfg.tree host (hintedHash cfg hs host)).LinksAgree →
    VerifyTells cfg v r ((cfg.tree host (hintedHash cfg hs host)).placed depth) target s := by
  intro h
  have hbackup : value? (do_backup (namesBackup []) 1) { store := ∅ } = some () := by decide +kernel
  have hverify : value? (do_verify namesVerify) {
      store := (stateAfter (do_backup (namesBackup []) 1) { store := ∅ }).store } = some () ∧
      (stateAfter (do_verify namesVerify) {
        store := (stateAfter (do_backup (namesBackup []) 1) { store := ∅ }).store }).errors = 0 :=
    by decide +kernel
  have hrestore : value? (do_restore (namesRestore none)) {
      store := (stateAfter (do_backup (namesBackup []) 1) { store := ∅ }).store
      target := (emptyRoot []).target } = none := by decide +kernel
  have hrun := ok_of_value? hbackup
  generalize stateAfter (do_backup (namesBackup []) 1) { store := ∅ } = w at hverify hrestore hrun
  have hagree : ((namesBackup []).tree twoNames
      (hintedHash (namesBackup []) none twoNames)).LinksAgree := fun _ _ _ _ _ _ _ => rfl
  have hiff := h _ _ _ _ _ _ _ _ (later_names none (.off rfl) hrun) hagree
  obtain ⟨w', hrun', -⟩ := hiff.mp ⟨_, ok_of_value? hverify.1, hverify.2⟩
  rw [value?, hrun'] at hrestore
  cases hrestore

/-- A hint for `b` with the hash of other contents. -/
def falseHint : Entry where
  path := lit "/home/b"
  relname := lit "b"
  sb := { (default : Stat) with st_mode := S_IFREG, st_nlink := 2, st_size := 300 }
  uid := []
  gid := []
  kind := .sha1 (firstHash [8])

/-- The hint file, and the repository with these contents. -/
def falseHints : World where
  store := (∅ : Store).insert (objectPath (lit "repo") (firstHash [8])) (.file [8])
  hintStore := (∅ : Store).insert (lit "hints") (.file (hintText [falseHint] ++ lit "[end]\n"))

theorem loads_falseHints :
    Loads (namesBackup (lit "hints")) falseHints.hintStore (some (hintsOf [falseHint])) := by
  have hsize : ∀ e ∈ [falseHint], e.sb.st_size < 2 ^ 64 := by
    intro e he
    rw [List.mem_singleton.mp he]
    decide
  obtain ⟨ds, hread, hds⟩ := entriesOf_hintText hsize
  exact .file (by decide) (AList.lookup_insert _) hread hds

/-- The line of `b` has the hash of the hint. -/
theorem placed_falseHint : ∃ pe ∈ ((namesBackup (lit "hints")).tree twoNames
    (hintedHash (namesBackup (lit "hints")) (some (hintsOf [falseHint])) twoNames)).placed 1,
    pe.1 = [lit "b"] ∧ hashesOf [pe.2] = [firstHash [8]] := by decide +kernel

/-- The two names of a file have different hashes, and it cannot have both. -/
theorem falseHints_show : ¬ ∀ (cfg v r : Config) (host : Host) (depth : Nat)
    (hs : Option (List (Bytes × Hint))) (target : Target) (s : Store),
    Later cfg v r host depth hs target s →
    OwnersResolve (cfg.tree host (hintedHash cfg hs host)) r →
    VerifyTells cfg v r ((cfg.tree host (hintedHash cfg hs host)).placed depth) target s := by
  intro h
  have hbackup : value? (do_backup (namesBackup (lit "hints")) 1) falseHints = some () := by
    decide +kernel
  have hverify : value? (do_verify namesVerify) {
      store := (stateAfter (do_backup (namesBackup (lit "hints")) 1) falseHints).store } = some () ∧
      (stateAfter (do_verify namesVerify) {
        store := (stateAfter (do_backup (namesBackup (lit "hints")) 1) falseHints).store }).errors =
          0 := by decide +kernel
  -- `b` is a link to `a`
  have hbody : ((stateAfter (do_restore (namesRestore (some 0))) {
      store := (stateAfter (do_backup (namesBackup (lit "hints")) 1) falseHints).store
      target := (emptyRoot []).target }).target.get
        ((namesRestore (some 0)).spot [lit "b"])).map Inode.body =
      some (.file (List.replicate 300 1)) := by decide +kernel
  have hrun := ok_of_value? hbackup
  generalize stateAfter (do_backup (namesBackup (lit "hints")) 1) falseHints = w
    at hverify hbody hrun
  have hiff := h _ _ _ _ _ _ _ _ (later_names (some 0) loads_falseHints hrun)
    fun _ _ _ _ _ => ⟨rfl, rfl⟩
  obtain ⟨w', hrun', hright⟩ := hiff.mp ⟨_, ok_of_value? hverify.1, hverify.2⟩
  obtain ⟨⟨p, e⟩, hm, rfl, hhash⟩ := placed_falseHint
  have hkind : e.kind = .sha1 (firstHash [8]) := by
    unfold hashesOf at hhash
    rw [List.filterMap_cons] at hhash
    dsimp only at hhash
    cases hk : e.kind with
    | sha1 hash =>
      rw [hk] at hhash
      exact congrArg Kind.sha1 (List.cons.inj hhash).1
    | _ =>
      rw [hk] at hhash
      cases hhash
  obtain ⟨ino, c, hget, hfile, hcontents⟩ := hright _ hm (by dsimp only; rw [hkind]; rfl)
  have hcontents' : firstHash c = firstHash [8] := by
    dsimp only at hcontents
    rw [hkind] at hcontents
    exact hcontents
  rw [stateAfter, hrun'] at hbody
  dsimp only at hbody
  rw [hget, Option.map_some, hfile] at hbody
  rw [Body.file.inj (Option.some.inj hbody)] at hcontents'
  exact absurd hcontents' (by decide +kernel)

/-- It is not enough that the tree is on one filesystem. -/
theorem not_verify_tells :
    (¬ ∀ (cfg v r : Config) (host : Host) (depth : Nat) (hs : Option (List (Bytes × Hint)))
      (target : Target) (s : Store), Later cfg v r host depth hs target s →
      (cfg.tree host (hintedHash cfg hs host)).LinksAgree →
      VerifyTells cfg v r ((cfg.tree host (hintedHash cfg hs host)).placed depth) target s) ∧
    ¬ ∀ (cfg v r : Config) (host : Host) (depth : Nat) (hs : Option (List (Bytes × Hint)))
      (target : Target) (s : Store), Later cfg v r host depth hs target s →
      OwnersResolve (cfg.tree host (hintedHash cfg hs host)) r →
      VerifyTells cfg v r ((cfg.tree host (hintedHash cfg hs host)).placed depth) target s :=
  ⟨unknownOwner_shows, falseHints_show⟩

/-- Where `alice` is known both are so. -/
theorem tells_twoNames : ∃ w, do_backup (namesBackup []) 1 { store := ∅ } = .ok () w ∧
    VerifyTells (namesBackup []) namesVerify (namesRestore (some 0))
      (((namesBackup []).tree twoNames (hintedHash (namesBackup []) none twoNames)).placed 1)
      (emptyRoot []).target w.store := by
  have hbackup : value? (do_backup (namesBackup []) 1) { store := ∅ } = some () := by decide +kernel
  have hrun := ok_of_value? hbackup
  generalize stateAfter (do_backup (namesBackup []) 1) { store := ∅ } = w at hrun
  refine ⟨w, hrun, verify_tells _ _ _ _ _ _ _ _ (later_names (some 0) (.off rfl) hrun) ?_ ?_⟩
  · exact fun _ _ _ _ _ _ _ => rfl
  · exact fun _ _ _ _ _ => ⟨rfl, rfl⟩

end Hbackup
