import Hbackup.Equiv.Shape

/-!
# The order of a listing

Two backups that find the same files in each directory, listed in different orders, write the same
index and the same hint file and leave the same repository (`order_does_not_matter`): names are
sorted before anything is made of them.
-/

namespace Hbackup

open ProgramLogic Preorder

variable {cfg : Config} {host host' : Host} {hash : Bytes → Stat → Hash}

/-- The same files, with each directory listed in some other order. -/
structure Relisted (host host' : Host) : Prop where
  names : ∀ path, (host'.names path).Perm (host.names path)
  lstat : host'.lstat = host.lstat
  data : host'.data = host.data
  readlink : host'.readlink = host.readlink
  ismount : host'.ismount = host.ismount

namespace Tree

variable {t : Tree} {dir : Bytes}

/-- The tree with the calls answered by `host`. -/
def onHost (t : Tree) (host : Host) : Tree := { t with host }

theorem file_onHost (h : Relisted t.host host') (dir name : Bytes) :
    (t.onHost host').file dir name = t.file dir name := by
  unfold file
  rw [show (t.onHost host').host.lstat = t.host.lstat from h.lstat]
  rfl

/-- The files of a directory are the same in another order. -/
theorem dirFiles_perm (h : Relisted t.host host') (dir : Bytes) :
    ((t.onHost host').dirFiles dir).Perm (t.dirFiles dir) := by
  unfold dirFiles files
  have hfile : (t.onHost host').file dir = t.file dir := funext fun name => file_onHost h dir name
  rw [hfile]
  exact (h.names _).filterMap _

/-- **Sorting undoes the order of the listing.** -/
theorem sortedNames_perm {files files' : List (Bytes × Stat)} (h : files'.Perm files) :
    sortedNames files' = sortedNames files := by
  refine List.Perm.eq_of_pairwise (fun a b _ _ => ?_) (List.pairwise_insertionSort _ _)
    (List.pairwise_insertionSort _ _) ?_
  · exact List.le_antisymm
  exact (List.perm_insertionSort _ _).trans ((h.map _).trans (List.perm_insertionSort _ _).symm)

theorem kind_onHost (h : Relisted t.host host') (path : Bytes) (sb : Stat) :
    (t.onHost host').kind path sb = t.kind path sb := by
  have hbytes : host'.bytes path = t.host.bytes path := by
    rw [Host.bytes, Host.bytes, h.data]
  have htarget : host'.target path = t.host.target path := by
    rw [Host.target, Host.target, h.readlink]
  unfold kind
  rw [show (t.onHost host').host = host' from rfl, hbytes, htarget]
  rfl

theorem entry_onHost (h : Relisted t.host host') (dir : Bytes) (first : Bool) (name : Bytes)
    (sb : Stat) : (t.onHost host').entry dir first name sb = t.entry dir first name sb := by
  unfold entry
  rw [kind_onHost h]
  rfl

theorem enters_onHost (h : Relisted t.host host') (dir name : Bytes) (sb : Stat) :
    (t.onHost host').enters dir name sb = t.enters dir name sb := by
  unfold enters
  rw [show (t.onHost host').host.ismount = t.host.ismount from h.ismount]
  rfl

/-- What `lstat` said is remembered alike. -/
theorem statOf_onHost (h : Relisted t.host host') {name : Bytes}
    (hm : name ∈ sortedNames (t.dirFiles dir)) :
    statOf ((t.onHost host').dirFiles dir) name = statOf (t.dirFiles dir) name := by
  have hm' : name ∈ sortedNames ((t.onHost host').dirFiles dir) := by
    rwa [sortedNames_perm (dirFiles_perm h dir)]
  have hstat := lstat_statOf ((List.mem_insertionSort _).mp hm)
  have hstat' := lstat_statOf ((List.mem_insertionSort _).mp hm')
  rw [show (t.onHost host').host.lstat = t.host.lstat from h.lstat,
    show (t.onHost host').path dir name = t.path dir name from rfl, hstat] at hstat'
  exact (Except.ok.inj hstat').symm

theorem lines_congr {t t' : Tree} (hentry : ∀ first name sb,
    t'.entry dir first name sb = t.entry dir first name sb) {files files' : List (Bytes × Stat)}
    {names : List Bytes} (hstat : ∀ name ∈ names, statOf files' name = statOf files name)
    (first : Bool) : t'.lines dir files' first names = t.lines dir files first names := by
  induction names generalizing first with
  | nil => rfl
  | cons name names ih =>
    obtain ⟨hname, hrest⟩ := List.forall_mem_cons.mp hstat
    rw [lines, lines, hentry, hname, ih hrest]

/-- **The lines of a directory do not depend on the order.** -/
theorem lines_onHost (h : Relisted t.host host') (dir : Bytes) :
    (t.onHost host').lines dir ((t.onHost host').dirFiles dir) true
        (sortedNames ((t.onHost host').dirFiles dir)) =
      t.lines dir (t.dirFiles dir) true (sortedNames (t.dirFiles dir)) := by
  rw [sortedNames_perm (dirFiles_perm h dir)]
  exact lines_congr (entry_onHost h dir) (fun name hm => statOf_onHost h hm) true

/-- Nor do the subdirectories. -/
theorem subdirs_onHost (h : Relisted t.host host') (dir : Bytes) :
    (t.onHost host').subdirs dir ((t.onHost host').dirFiles dir)
        (sortedNames ((t.onHost host').dirFiles dir)) =
      t.subdirs dir (t.dirFiles dir) (sortedNames (t.dirFiles dir)) := by
  rw [sortedNames_perm (dirFiles_perm h dir), subdirs, subdirs]
  refine congrArg _ (List.filter_congr fun name hm => ?_)
  rw [enters_onHost h, statOf_onHost h hm]

end Tree

/-! ### Two backups -/

variable {hs : Option (List (Bytes × Hint))} {env : Nat → Moment}

theorem Relisted.bytes (h : Relisted host host') : host'.bytes = host.bytes := by
  funext path
  rw [Host.bytes, Host.bytes, h.data]

theorem Relisted.hintedHash (h : Relisted host host') :
    Hbackup.hintedHash { cfg with env } hs host' = Hbackup.hintedHash cfg hs host := by
  funext path sb
  rw [Hbackup.hintedHash, Hbackup.hintedHash, h.bytes]

/-- **Two walks through a tree find the same entries**, whatever the order of the listings. -/
theorem Walk.eq_of_relisted (hhost : Unchanging cfg host)
    (hhost' : Unchanging { cfg with env } host') (hsame : Relisted host host') {depth depth' : Nat}
    {dir : Bytes} {es es' : List Entry} (h : Walk cfg hs depth dir es)
    (h' : Walk { cfg with env } hs depth' dir es') : es' = es := by
  have hhash := hashesFrom_hintedHash hhost hs
  have hhash' := hashesFrom_hintedHash hhost' hs
  rw [hsame.hintedHash] at hhash'
  induction depth generalizing depth' dir es es' with
  | zero => exact h.elim
  | succ depth ih =>
    cases depth' with
    | zero => exact h'.elim
    | succ depth' =>
      obtain ⟨own, ds, subs, hown, hsubs, rfl⟩ := h
      obtain ⟨own', ds', subs', hown', hsubs', rfl⟩ := h'
      obtain ⟨hown, hds⟩ := hown.eq_tree hhost hhash
      obtain ⟨hown', hds'⟩ := hown'.eq_tree hhost' hhash'
      have hlines := Tree.lines_onHost (t := cfg.tree host (Hbackup.hintedHash cfg hs host)) hsame dir
      have hdirs := Tree.subdirs_onHost (t := cfg.tree host (Hbackup.hintedHash cfg hs host)) hsame dir
      rw [hown, hown'.trans hlines]
      rw [hds] at hsubs
      rw [hds'.trans hdirs] at hsubs'
      refine congrArg _ (congrArg _ ?_)
      clear hds hds' hdirs
      generalize (cfg.tree host _).subdirs dir _ _ = ds at hsubs hsubs'
      induction hsubs generalizing subs' with
      | nil =>
        cases hsubs'
        rfl
      | cons hw _ ih' =>
        cases hsubs' with
        | cons hw' hrest => rw [ih hw hw', ih' _ hrest]

/-- **The order of the listings does not matter**: the index and the hint file are the same, and so
are the objects in the repository if no call fails. -/
theorem order_does_not_matter (cfg : Config) (env : Nat → Moment) (depth depth' : Nat)
    (store hintStore : Store) (host host' : Host) (w w' : World) (ho : Outside cfg)
    (hhost : Unchanging cfg host) (hhost' : Unchanging { cfg with env } host')
    (hsame : Relisted host host') (hrun : do_backup cfg depth { store, hintStore } = .ok () w)
    (hrun' : do_backup { cfg with env } depth' { store, hintStore } = .ok () w') :
    w'.store.lookup cfg.indexfile = w.store.lookup cfg.indexfile ∧
      (cfg.hintfile ≠ [] →
        w'.hintStore.lookup cfg.hintfile = w.hintStore.lookup cfg.hintfile) ∧
      (Faultless cfg → Faultless { cfg with env } → SameObjects cfg.repo w.store w'.store) := by
  have ho' : Outside { cfg with env } := ⟨ho.indexfile⟩
  obtain ⟨hs, es, hl, hwalk, hfin⟩ := wp_elim_ok (wp_do_backup ho depth trivial
    (fun _ _ => trivial) fun _ _ => keepsRepo_trivial) hrun
  obtain ⟨hs', es', hl', hwalk', hfin'⟩ := wp_elim_ok (wp_do_backup ho' depth' trivial
    (fun _ _ => trivial) fun _ _ => keepsRepo_trivial) hrun'
  obtain rfl := hl.unique hl' rfl
  obtain rfl := hwalk.eq_of_relisted hhost hhost' hsame hwalk'
  refine ⟨hfin'.index.trans hfin.index.symm, fun hon => (hfin'.hints hon).trans (hfin.hints hon).symm,
    fun hfault hfault' => ?_⟩
  obtain ⟨hs₁, es₁, hl₁, hwalk₁, hfin₁⟩ := wp_elim_ok (wp_do_backup ho depth
    (Backed.nil host.bytes store hintStore) (J := fun _ => True) (fun _ _ => trivial)
    fun hs _ => keeps_backed ho hhost.sameData hfault store hs) hrun
  obtain ⟨hs₂, es₂, hl₂, hwalk₂, hfin₂⟩ := wp_elim_ok (wp_do_backup ho' depth'
    (Backed.nil host'.bytes store hintStore) (J := fun _ => True) (fun _ _ => trivial)
    fun hs _ => keeps_backed ho' hhost'.sameData hfault' store hs) hrun'
  obtain rfl := hl₁.unique hl₂ rfl
  obtain rfl := hwalk₁.eq_of_relisted hhost hhost' hsame hwalk₂
  have hobjects' := hfin₂.repo.objects
  rw [hsame.bytes] at hobjects'
  exact hfin₁.repo.objects.symm.trans hobjects'

/-- Three large files, two of them in a directory. -/
def largeFiles : Host where
  contents path := .ok <|
    if path = lit "/home" then [lit "d", lit ".", lit "a"]
    else if path = lit "/home/d" then [lit "c", lit "b", lit ".."] else []
  lstat path := .ok { (default : Stat) with
    st_mode := if path = lit "/home/d" then S_IFDIR else S_IFREG, st_size := 300 }
  data path := .ok (List.replicate 300 (path.getLastD 0), none)
  readlink _ := .error ENOENT
  ismount _ := .ok false
  utimes _ := .ok ()

/-- The same files, listed in another order. -/
def relistedFiles : Host :=
  { largeFiles with contents := fun path => (largeFiles.contents path).map List.reverse }

/-- A backup of them, with a hash that tells them apart. -/
def largeFilesBackup : Config :=
  { largeFile 1000 with
    sha1 := fun bytes => ⟨List.replicate HASH_SIZE (bytes.headD 0), List.length_replicate⟩
    env := fun n => { (largeFile 1000).env n with host := largeFiles } }

theorem relisted_files : Relisted largeFiles relistedFiles where
  names path := by
    have hnames : relistedFiles.names path = (largeFiles.names path).reverse := rfl
    rw [hnames]
    exact List.reverse_perm _
  lstat := rfl
  data := rfl
  readlink := rfl
  ismount := rfl

/-- The surroundings with the other order. -/
def relistedEnv (n : Nat) : Moment := { (largeFile 1000).env n with host := relistedFiles }

/-- Both orders give the same index and the same three objects. -/
theorem index_relistedFiles : ∃ w w' : World,
    w'.store.lookup (lit "index") = w.store.lookup (lit "index") ∧
      SameObjects (lit "repo") w.store w'.store ∧
      ∀ c ∈ lit "abc", (w.store.lookup (objectPath (lit "repo")
        (largeFilesBackup.sha1 [c]))).isSome := by
  have hvalue : value? (do_backup largeFilesBackup 2) { store := ∅ } = some () := by decide +kernel
  have hobjects : ∀ c ∈ lit "abc", ((stateAfter (do_backup largeFilesBackup 2)
      { store := ∅ }).store.lookup (objectPath (lit "repo") (largeFilesBackup.sha1 [c]))).isSome := by
    decide +kernel
  have hvalue' : value? (do_backup { largeFilesBackup with env := relistedEnv } 2) { store := ∅ } =
      some () := by decide +kernel
  obtain ⟨w, hrun, hw⟩ : ∃ w, do_backup largeFilesBackup 2 { store := ∅ } = .ok () w ∧
      ∀ c ∈ lit "abc", (w.store.lookup (objectPath (lit "repo")
        (largeFilesBackup.sha1 [c]))).isSome := ⟨_, ok_of_value? hvalue, hobjects⟩
  obtain ⟨w', hrun'⟩ : ∃ w', do_backup { largeFilesBackup with env := relistedEnv } 2
      { store := ∅ } = .ok () w' := ⟨_, ok_of_value? hvalue'⟩
  have h := order_does_not_matter largeFilesBackup relistedEnv 2 2 ∅ ∅ largeFiles relistedFiles w w'
    ⟨by unfold Under; decide +kernel⟩ (fun _ => rfl) (fun _ => rfl) relisted_files hrun hrun'
  exact ⟨w, w', h.1, h.2.2 (fun _ => rfl) fun _ => rfl, hw⟩

end Hbackup
