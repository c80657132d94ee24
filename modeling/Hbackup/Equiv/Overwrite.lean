import Hbackup.Backup
import Hbackup.Equiv.Paths
import Hbackup.Equiv.World

/-!
# An index that exists already

Without `--overwrite`, `do_backup` looks first whether the index exists.  On the local filesystem
the answer is right or the run ends.  `SftpFilesystem::exists` takes any answer but `SSH_FXP_ATTRS`
for absence, so that the existing index is kept exactly if the server gives that answer
(`do_backup_keepsIndex_iff`): otherwise there is a run that goes on and replaces it.
-/

namespace Hbackup

open ProgramLogic

/-- The index is the same when the run has ended. -/
def KeepsIndex (cfg : Config) (depth : Nat) (store hintStore : Store) : Prop :=
  (stateAfter (do_backup cfg depth) { store, hintStore }).store.lookup cfg.indexfile =
    store.lookup cfg.indexfile

/-- A repository, a root and an index have been given. -/
def Options.Given (opts : Options) : Prop :=
  opts.repo ≠ [] ∧ opts.root ≠ [] ∧ opts.indexfile ≠ []

/-! ### Asking an SFTP server -/

/-- `exists` on SFTP when no probe is in flight and nothing is known of the path: one tick to send
a probe, one for its answer. -/
theorem wp_exists_sftp {cfg : Config} {path : Bytes} {w : World} (hsftp : cfg.sftp = true)
    (hin : w.existence_inflight = []) (hknown : w.existence = []) {Q : Bool → World → Prop}
    {E : Stop → World → Prop}
    (hstop : ((cfg.env w.clock).killed = true ∨ (cfg.env w.clock).fault ≠ none ∨
      (cfg.env (w.clock + 1)).killed = true) → ∀ stop w', w'.store = w.store → E stop w')
    (hok : Q ((w.store.lookup path).isSome && (cfg.env (w.clock + 1)).fault.isNone)
      { w with clock := w.clock + 2 }) :
    wp (Backupfs.exists_ cfg path) Q E w := by
  obtain ⟨clock, store, written, removed, inflight, existence, stdout⟩ := w
  obtain rfl : inflight = [] := hin
  obtain rfl : existence = [] := hknown
  rw [Backupfs.exists_, hsftp]
  simp only [if_true]
  rw [wp_bind, wp_get, wp_bind, Backupfs.collectExistence, wp_pure, wp_bind, wp_get]
  simp only [List.lookup_nil]
  rw [wp_bind, Backupfs.prefigure_exists, hsftp]
  simp only [if_true]
  rw [wp_bind, wp_call]
  split_ifs with hkill
  · exact hstop (.inl hkill) _ _ rfl
  split
  · rename_i e he
    exact hstop (.inr (.inl (by simp [he]))) _ _ rfl
  rw [wp_modify, wp_bind, wp_get, wp_bind]
  simp only [List.nil_append, Backupfs.collectExistence, wp_bind, wp_tick]
  split_ifs with hkill'
  · exact hstop (.inr (.inr hkill')) _ _ rfl
  · simpa using hok
  · simpa using hok

/-! ### The index is found -/

/-- If the existing index is found, or the options are incomplete, the run ends there. -/
theorem wp_checkBackup_stops {cfg : Config} {store hintStore : Store} {data : Bytes}
    (hov : cfg.overwrite_index = false) (hindex : store.lookup cfg.indexfile = some (.file data))
    (hfound : cfg.sftp = false ∨ (cfg.env 1).fault = none ∨ ¬ cfg.Given) :
    wp (checkBackup cfg) (fun _ _ => False) (fun _ w' => w'.store = store)
      { store, hintStore } := by
  rw [checkBackup]
  split_ifs with hrepo hroot hfile
  · exact rfl
  · exact rfl
  · exact rfl
  · exact absurd ‹_› (by simp [hov])
  have hgiven : cfg.Given := ⟨hrepo, hroot, hfile⟩
  rw [wp_bind]
  cases hsftp : cfg.sftp with
  | false =>
    rw [Backupfs.exists_, hsftp]
    simp only [Bool.false_eq_true, if_false]
    rw [wp_bind, wp_call]
    split_ifs
    · exact rfl
    split
    · exact rfl
    · simp [hindex]
  | true =>
    have hfault : (cfg.env 1).fault = none := by
      rcases hfound with h | h | h
      · rw [hsftp] at h
        cases h
      · exact h
      · exact absurd hgiven h
    refine wp_exists_sftp hsftp rfl rfl (fun _ _ _ h => h) ?_
    simp [hindex, hfault]

/-! ### The index is not found -/

/-- Nothing fails from tick `n` on. -/
def Calm (cfg : Config) (n : Nat) : Prop :=
  ∀ m ≥ n, (cfg.env m).killed = false ∧ (cfg.env m).fault = none

theorem Calm.wp_tick {cfg : Config} {n : Nat} (h : Calm cfg n) {w : World} (hn : n ≤ w.clock)
    {Q : Moment → World → Prop} {E : Stop → World → Prop}
    (hQ : Q (cfg.env w.clock) { w with clock := w.clock + 1 }) : wp (tick cfg) Q E w := by
  rw [Hbackup.wp_tick, (h w.clock hn).1]
  exact hQ

theorem Calm.wp_call {cfg : Config} {n : Nat} (h : Calm cfg n) {w : World} (hn : n ≤ w.clock)
    {doing : String} {path : Bytes} {Q : Moment → World → Prop} {E : Stop → World → Prop}
    (hQ : Q (cfg.env w.clock) { w with clock := w.clock + 1 }) :
    wp (call cfg doing path) Q E w := by
  rw [Hbackup.wp_call, (h w.clock hn).1, (h w.clock hn).2]
  exact hQ

theorem Calm.wp_openWrite {cfg : Config} {n : Nat} (h : Calm cfg n) {w : World} (hn : n ≤ w.clock)
    {path : Bytes} (hparent : w.store.hasParent path = true) (hdir : w.store.lookup path ≠ some .dir)
    {Q : OFile → World → Prop} {E : Stop → World → Prop}
    (hQ : Q ⟨path, false, []⟩ { w with
      clock := w.clock + 1, store := w.store.insert path (.file []), written := path :: w.written }) :
    wp (Backupfs.openWrite cfg path) Q E w := by
  rw [Backupfs.openWrite, wp_bind]
  refine h.wp_call hn ?_
  rw [wp_bind, wp_get, if_neg (by simp [hparent]), if_neg hdir]
  exact hQ

theorem Calm.wp_writebytes {cfg : Config} {n : Nat} (h : Calm cfg n) {w : World} (hn : n ≤ w.clock)
    {path block d : Bytes} (hfile : w.store.lookup path = some (.file d)) {Q : Unit → World → Prop}
    {E : Stop → World → Prop}
    (hQ : Q () { w with
      clock := w.clock + 1, store := w.store.insert path (.file (d ++ block)) }) :
    wp (Backupfs.writebytes cfg path block) Q E w := by
  rw [Backupfs.writebytes, wp_bind]
  refine h.wp_tick hn ?_
  rw [wp_bind, wp_get]
  simp only [hfile, (h w.clock hn).2]
  exact hQ

theorem Calm.wp_rename {cfg : Config} {n : Nat} (h : Calm cfg n) {w : World} (hn : n ≤ w.clock)
    {oldpath newpath d : Bytes} (hfile : w.store.lookup oldpath = some (.file d))
    (hdir : w.store.lookup newpath ≠ some .dir) (hparent : w.store.hasParent newpath = true)
    {Q : Unit → World → Prop} {E : Stop → World → Prop}
    (hQ : Q () { w with
      clock := w.clock + 1
      store := (w.store.erase oldpath).insert newpath (.file d)
      written := newpath :: w.written }) :
    wp (Backupfs.rename cfg oldpath newpath) Q E w := by
  rw [Backupfs.rename, wp_bind]
  refine h.wp_call hn ?_
  rw [wp_bind, wp_get]
  simp only [hfile]
  rw [if_neg hdir, if_neg (by simp [hparent])]
  exact hQ

/-- The end marker fits into the buffer of a file that has just been opened. -/
theorem put_end (write : Bytes → Bytes → M Unit) (path : Bytes) :
    OFile.put write ⟨path, false, []⟩ (lit "[end]\n") = pure ⟨path, true, lit "[end]\n"⟩ := rfl

theorem end_nonempty (path : Bytes) :
    (⟨path, true, lit "[end]\n"⟩ : OFile).writing = true ∧
      (⟨path, true, lit "[end]\n"⟩ : OFile).buf.length ≠ 0 :=
  ⟨rfl, List.cons_ne_nil _ _ ∘ List.eq_nil_of_length_eq_zero⟩

/-- Surroundings in which there is nothing to back up, and nothing fails but for the answer to the
first probe. -/
def nothingToDo (opts : Options) (reply : Option Errno) : Config where
  toOptions := opts
  sha1 := fun _ => ⟨List.replicate HASH_SIZE 0, rfl⟩
  users := ⟨fun _ => none, fun _ => none, fun _ => none, fun _ => none⟩
  env n := {
    killed := false
    fault := if n = 1 then reply else none
    written := 0
    reads := fun _ => none
    early := false
    host := ⟨fun _ => .ok [], fun _ => .error ENOENT, fun _ => .error ENOENT,
      fun _ => .error ENOENT, fun _ => .ok false, fun _ => .ok ()⟩ }

theorem calm_nothingToDo (opts : Options) (reply : Option Errno) :
    Calm (nothingToDo opts reply) 2 := fun m hm =>
  ⟨rfl, if_neg (by omega)⟩

/-- A filesystem with no more than the directory of `path`. -/
def parentStore (path : Bytes) : Store :=
  match dirname path with
  | none => ∅
  | some d => (∅ : Store).insert d .dir

theorem hasParent_parentStore (path : Bytes) : (parentStore path).hasParent path = true := by
  unfold Store.hasParent parentStore
  cases dirname path with
  | none => rfl
  | some d => simp only [AList.lookup_insert, decide_true, Bool.or_true]

theorem lookup_parentStore {path q : Bytes} (h : path.length ≤ q.length) :
    (parentStore path).lookup q = none := by
  unfold parentStore
  cases hd : dirname path with
  | none => rfl
  | some d =>
    have hlen := length_of_dirname hd
    have hne : q ≠ d := by
      rintro rfl
      omega
    exact AList.lookup_insert_ne hne

/-- The hints, once they are started: there are none, or a new hint file has been opened. -/
structure HintsReady (cfg : Config) (w : World) : Prop where
  clock : 2 ≤ w.clock
  ready : w.newhints = none ∨ w.newhints = some ⟨cfg.hintfile ++ lit ".tmp", false, []⟩ ∧
    w.hintStore.lookup (cfg.hintfile ++ lit ".tmp") = some (.file []) ∧
    w.hintStore.hasParent cfg.hintfile = true ∧ w.hintStore.lookup cfg.hintfile = none

theorem HintsReady.later {cfg : Config} {w : World} (h : HintsReady cfg w) {n : Nat}
    (hn : w.clock ≤ n) (s : Store) (written : List Bytes) :
    HintsReady cfg { w with clock := n, store := s, written } :=
  ⟨Nat.le_trans h.clock hn, h.ready⟩

theorem wp_startHints_calm {cfg : Config} {w : World} (hcalm : Calm cfg 2) (hclock : 2 ≤ w.clock)
    (hhints : w.newhints = none) (hstore : w.hintStore = parentStore cfg.hintfile) :
    wp (startHints cfg) (fun _ w' => w'.store = w.store ∧ HintsReady cfg w') (fun _ _ => False)
      w := by
  obtain ⟨clock, store, written, removed, inflight, existence, stdout, errors, warnings, names,
    inrepo, hintStore, hints, newhints⟩ := w
  obtain rfl : hintStore = parentStore cfg.hintfile := hstore
  have hnone : (parentStore cfg.hintfile).lookup cfg.hintfile = none :=
    lookup_parentStore (Nat.le_refl _)
  have hparent := hasParent_parentStore cfg.hintfile
  rw [startHints]
  split_ifs
  · exact ⟨rfl, hclock, .inl hhints⟩
  -- there is no hint file yet
  rw [wp_bind, wp_modify, wp_bind, load_hints, wp_bind, wp_onLocal, wp_bind]
  refine hcalm.wp_call (by exact hclock) ?_
  rw [wp_bind, wp_get, wp_pure]
  simp only [hnone, Option.isSome_none, Bool.false_eq_true, if_false, wp_pure]
  rw [openHints, wp_bind, wp_onLocal]
  have hdir : (parentStore cfg.hintfile).lookup (cfg.hintfile ++ lit ".tmp") ≠ some .dir := by
    rw [lookup_parentStore (by rw [tmp_length]; omega)]
    simp
  refine hcalm.wp_openWrite (by exact Nat.le_succ_of_le hclock) ((hasParent_tmp _ _).trans hparent) hdir ?_
  rw [wp_modify]
  have hlater : 2 ≤ clock + 1 + 1 := Nat.le_succ_of_le (Nat.le_succ_of_le hclock)
  refine ⟨rfl, hlater, .inr ⟨rfl, AList.lookup_insert _, ?_, ?_⟩⟩
  · exact hasParent_insert (by rw [tmp_length]; omega) _ hparent
  · exact (AList.lookup_insert_ne (tmp_ne _).symm).trans hnone

/-- The end marker is put into the new hint file, which takes its place. -/
theorem HintsReady.wp_finishHints {cfg : Config} {w : World} (hcalm : Calm cfg 2)
    (h : HintsReady cfg w) :
    wp (finishHints cfg) (fun _ w' => w'.store = w.store ∧ 2 ≤ w'.clock) (fun _ _ => False) w := by
  obtain ⟨clock, store, written, removed, inflight, existence, stdout, errors, warnings, names,
    inrepo, hintStore, hints, newhints⟩ := w
  obtain ⟨hclock, h⟩ := h
  rw [finishHints, wp_bind, putHints, wp_bind, wp_get]
  rcases h with h | ⟨h, hfile, hparent, hnone⟩
  · obtain rfl : newhints = none := h
    simp only
    rw [wp_pure, wp_bind, wp_get]
    exact ⟨rfl, hclock⟩
  · obtain rfl : newhints = some ⟨cfg.hintfile ++ lit ".tmp", false, []⟩ := h
    simp only
    rw [put_end, wp_bind, wp_pure, wp_modify, wp_bind, wp_get]
    simp only
    rw [wp_bind, OFile.flush, if_pos (end_nonempty _), wp_bind, wp_onLocal]
    refine hcalm.wp_writebytes (by exact hclock) (by exact hfile) ?_
    rw [wp_pure, wp_bind, wp_modify, wp_onLocal]
    refine hcalm.wp_rename (by exact Nat.le_succ_of_le hclock)
      (by exact AList.lookup_insert _) ?_ ?_ ?_
    · rw [AList.lookup_insert_ne (tmp_ne _).symm, hnone]
      simp
    · exact hasParent_insert (by rw [tmp_length]; omega) _ hparent
    · exact ⟨rfl, Nat.le_succ_of_le (Nat.le_succ_of_le hclock)⟩

/-- The root is empty. -/
theorem wp_backup_dir_empty (opts : Options) (reply : Option Errno) (o : OFile) {w : World}
    (hclock : 2 ≤ w.clock) {Q : OFile → World → Prop} {E : Stop → World → Prop}
    (hQ : Q o { w with clock := w.clock + 1 }) :
    wp (backup_dir (nothingToDo opts reply) 1 o (lit ".")) Q E w := by
  rw [backup_dir, wp_bind, backupFiles, wp_bind, hostContents, wp_bind]
  refine (calm_nothingToDo opts reply).wp_tick hclock ?_
  exact hQ

/-- **If the server does not say that the index exists, it is replaced.** -/
theorem wp_do_backup_replaces {opts : Options} (reply : Errno) (hov : opts.overwrite_index = false)
    (hsftp : opts.sftp = true) (hgiven : opts.Given) {store : Store} {data : Bytes}
    (hindex : store.lookup opts.indexfile = some (.file data))
    (htmp : store.lookup (opts.indexfile ++ lit ".tmp") = none)
    (hparent : store.hasParent opts.indexfile = true) :
    wp (do_backup (nothingToDo opts (some reply)) 1)
      (fun _ w' => w'.store.lookup opts.indexfile = some (.file (lit "[end]\n")))
      (fun _ _ => False) { store, hintStore := parentStore opts.hintfile } := by
  have hcalm := calm_nothingToDo opts (some reply)
  set cfg := nothingToDo opts (some reply) with hcfg
  obtain ⟨hrepo, hroot, hfile⟩ : cfg.Given := hgiven
  have hov' : ¬ cfg.overwrite_index := by simpa [cfg, nothingToDo] using hov
  have hpath : indexPath cfg = cfg.indexfile ++ lit ".tmp" := if_neg hov'
  rw [do_backup, wp_bind, checkBackup, if_neg hrepo, if_neg hroot, if_neg hfile, if_neg hov',
    wp_bind]
  refine wp_exists_sftp (show cfg.sftp = true from hsftp) rfl rfl (by simp [cfg, nothingToDo]) ?_
  rw [if_neg (by simp [cfg, nothingToDo]), wp_pure, wp_bind]
  refine wp_mono (wp_startHints_calm hcalm (Nat.le_refl _) rfl rfl) ?_ fun _ _ h => h
  rintro _ w ⟨hstore, hints⟩
  -- the new index
  rw [wp_bind, hpath]
  refine hcalm.wp_openWrite hints.clock ?_ ?_ ?_
  · rw [hstore, hasParent_tmp]
    exact hparent
  · rw [hstore]
    show store.lookup (opts.indexfile ++ lit ".tmp") ≠ _
    rw [htmp]
    intro h
    cases h
  rw [wp_bind]
  refine wp_backup_dir_empty opts (some reply) _ (Nat.le_succ_of_le hints.clock) ?_
  rw [wp_bind, putIndex, put_end, wp_pure, wp_bind, OFile.flush, if_pos (end_nonempty _), wp_bind]
  refine hcalm.wp_writebytes (by exact Nat.le_succ_of_le (Nat.le_succ_of_le hints.clock))
    (by exact AList.lookup_insert _) ?_
  rw [wp_pure, wp_bind]
  have hlater : w.clock ≤ w.clock + 1 + 1 + 1 := by omega
  refine wp_mono ((hints.later hlater _ _).wp_finishHints hcalm) ?_ fun _ _ h => h
  rintro _ w' ⟨hstore', hclock⟩
  -- the new index takes the place of the old one
  rw [if_neg hov']
  have htmpfile : w'.store.lookup (cfg.indexfile ++ lit ".tmp") = some (.file (lit "[end]\n")) := by
    rw [hstore']
    exact AList.lookup_insert _
  have hdir : w'.store.lookup cfg.indexfile ≠ some .dir := by
    rw [hstore', AList.lookup_insert_ne (tmp_ne _).symm, AList.lookup_insert_ne (tmp_ne _).symm,
      hstore]
    show store.lookup opts.indexfile ≠ _
    rw [hindex]
    intro h
    cases h
  have hparent' : w'.store.hasParent cfg.indexfile = true := by
    have hlen : cfg.indexfile.length ≤ (cfg.indexfile ++ lit ".tmp").length := by
      rw [tmp_length]
      omega
    rw [hstore']
    exact hasParent_insert hlen _ (hasParent_insert hlen _ (hstore ▸ hparent))
  refine hcalm.wp_rename hclock htmpfile hdir hparent' ?_
  exact AList.lookup_insert _

/-! ### When the index is kept -/

/-- **An existing index is kept exactly if it is looked for on the local filesystem or the server
says that it exists**, unless the run has nothing to do. -/
theorem do_backup_keepsIndex_iff (opts : Options) (reply : Option Errno)
    (hov : opts.overwrite_index = false) :
    (∀ (cfg : Config) (depth : Nat) (store hintStore : Store) (data : Bytes),
      cfg.toOptions = opts → (cfg.env 1).fault = reply →
      store.lookup opts.indexfile = some (.file data) → KeepsIndex cfg depth store hintStore) ↔
    opts.sftp = false ∨ reply = none ∨ ¬ opts.Given := by
  constructor
  · intro hkeeps
    by_contra hno
    obtain ⟨hsftp, hreply, hgiven⟩ : opts.sftp = true ∧ reply ≠ none ∧ opts.Given := by
      simpa using hno
    obtain ⟨e, rfl⟩ := Option.ne_none_iff_exists'.mp hreply
    set store : Store := (parentStore opts.indexfile).insert opts.indexfile (.file [])
    have hindex : store.lookup opts.indexfile = some (.file []) := AList.lookup_insert _
    have htmp : store.lookup (opts.indexfile ++ lit ".tmp") = none := by
      rw [AList.lookup_insert_ne (tmp_ne _), lookup_parentStore (by rw [tmp_length]; omega)]
    have hparent : store.hasParent opts.indexfile = true :=
      hasParent_insert (Nat.le_refl _) _ (hasParent_parentStore _)
    have hkept := hkeeps (nothingToDo opts (some e)) 1 store (parentStore opts.hintfile) [] rfl rfl
      hindex
    obtain ⟨_, w', hrun, hlost⟩ :=
      wp_returns (wp_do_backup_replaces e hov hsftp hgiven hindex htmp hparent)
    rw [KeepsIndex, stateAfter, hrun] at hkept
    have hsame : w'.store.lookup opts.indexfile = some (.file []) := hkept.trans hindex
    rw [hlost] at hsame
    exact absurd hsame (by decide)
  · rintro hwhen cfg depth store hintStore data rfl rfl hindex
    refine (wp_stateAfter _ (fun w' : World => w'.store.lookup cfg.indexfile = _) _).mp ?_
    rw [do_backup, wp_bind]
    refine wp_mono (wp_checkBackup_stops hov hindex hwhen) (fun _ _ h => h.elim) ?_
    intro _ w' hstore
    rw [hstore]

/-- A backup to an SFTP server. -/
def toServer : Options where
  repo := lit "repo"
  root := lit "/home"
  indexfile := lit "index"
  hintfile := []
  crossfs := true
  preserve_atime := false
  overwrite_index := false
  permissions := true
  recheckhash := true
  detectbogus := false
  deleteclean := false
  sftp := true
  excluded := fun _ => false

/-- The server's filesystem, with an index on it. -/
def indexed : Store := (∅ : Store).insert (lit "index") (.file (lit "[end]"))

theorem keepsIndex_toServer : KeepsIndex (nothingToDo toServer none) 1 indexed ∅ :=
  (do_backup_keepsIndex_iff toServer none rfl).mpr (.inr (.inl rfl)) (nothingToDo toServer none) 1
    indexed ∅ (lit "[end]") rfl rfl rfl

/-- Access to the index is denied, and it is replaced. -/
theorem not_keepsIndex_toServer : toServer.overwrite_index = false ∧
    indexed.lookup toServer.indexfile = some (.file (lit "[end]")) ∧
    ¬ KeepsIndex (nothingToDo toServer (some EACCES)) 1 indexed ∅ := by
  refine ⟨rfl, rfl, ?_⟩
  unfold KeepsIndex
  decide +kernel

end Hbackup
