import Hbackup.Equiv.CleanInputs
import Hbackup.Equiv.Source
import Hbackup.Equiv.IndexText
import Hbackup.Equiv.Overwrite
import Hbackup.Equiv.ReadOnly
import Hbackup.Equiv.Verify
import Hbackup.Lib.ContentStore

/-!
# Histories of a repository

Backups, verifications, cleanups and restores follow each other on one medium, each of them finished,
failed or killed.  The repository, with the indexes that are to be kept, is an archive addressed by
content, and every command is a run of that archive (`Holdings.Next.runs`).  So the indexes are whole
at any time, and what they name is in the repository (`indexes_stay_whole`).
-/

namespace Hbackup

open ContentStore ProgramLogic

variable {cfg : Config} {repo : Bytes} {sha1 : Bytes → Hash} {w w' : World} {s s' store hintStore : Store}

/-! ### What a backup keeps -/

theorem KeepsRepo.and {hs : Option (List (Bytes × Hint))}
    {I I' : List Hashable → List Hashable → World → Prop} {J J' : World → Prop}
    (h : KeepsRepo cfg hs I J) (h' : KeepsRepo cfg hs I' J') :
    KeepsRepo cfg hs (fun done queue w => I done queue w ∧ I' done queue w)
      (fun w => J w ∧ J' w) where
  weaken hI := ⟨h.weaken hI.1, h'.weaken hI.2⟩
  congr hI hsame := ⟨h.congr hI.1 hsame, h'.congr hI.2 hsame⟩
  queue hI hnew hfrom := ⟨h.queue hI.1 hnew hfrom, h'.queue hI.2 hnew hfrom⟩
  add hI hadd := ⟨h.add hI.1 hadd, h'.add hI.2 hadd⟩
  scratch hI hscratch := ⟨h.scratch hI.1 hscratch, h'.scratch hI.2 hscratch⟩

/-- The objects that there were are there, and so are the files that are neither objects nor the
index. -/
structure Lasting (cfg : Config) (before s : Store) : Prop where
  objects : ∀ h, (before.lookup (objectPath cfg.repo h)).isSome →
    (s.lookup (objectPath cfg.repo h)).isSome
  files : ∀ q c, q ≠ cfg.indexfile → q ≠ cfg.indexfile ++ lit ".tmp" →
    ¬ Under (objectsDir cfg.repo) q → before.lookup q = some (.file c) → s.lookup q = some (.file c)

theorem Lasting.refl (cfg : Config) (s : Store) : Lasting cfg s s :=
  ⟨fun _ h => h, fun _ _ _ _ _ h => h⟩

theorem Lasting.trans {before : Store} (h : Lasting cfg before s) (h' : Lasting cfg s s') :
    Lasting cfg before s' :=
  ⟨fun hash hs => h'.objects hash (h.objects hash hs),
    fun q c hq hqtmp hu hc => h'.files q c hq hqtmp hu (h.files q c hq hqtmp hu hc)⟩

theorem SameRepo.lasting (h : SameRepo cfg w w') (ho : Outside cfg) :
    Lasting cfg w.store w'.store := by
  refine ⟨fun hash hs => ?_, fun q c hq hqtmp _ hc => ?_⟩
  · rwa [h.lookup_object ho]
  · rwa [h.store q hq hqtmp]

theorem Scratched.lasting {hash : Hash} (h : Scratched cfg.repo hash w w') :
    Lasting cfg w.store w'.store := by
  refine ⟨fun hash' hs => ?_, fun q c _ _ hu hc => ?_⟩
  · rwa [h.lookup_object]
  · have hq : q ≠ tmpPath cfg.repo hash := fun e => hu (e ▸ under_tmpPath _ _)
    rcases h.store q hq with hsame | ⟨-, hnone, -⟩
    · rwa [hsame]
    · rw [hc] at hnone
      cases hnone

theorem Copied.lasting {hash : Hash} {data : Bytes} (h : Copied cfg.repo hash data s s') :
    Lasting cfg s s' := by
  refine ⟨fun hash' hs => ?_, fun q c _ _ hu hc => ?_⟩
  · by_cases he : hash' = hash
    · rw [he, h.object]
      rfl
    · rwa [h.lookup_object he]
  · have hobject : q ≠ objectPath cfg.repo hash := fun e => hu (e ▸ under_objectsDir _ _)
    have htmp : q ≠ tmpPath cfg.repo hash := fun e => hu (e ▸ under_tmpPath _ _)
    rw [h.others q hobject htmp]
    rcases deepened_objectDir s cfg.repo hash q with hsame | ⟨-, hnone, -⟩
    · rwa [hsame]
    · rw [hc] at hnone
      cases hnone

theorem keeps_lasting (ho : Outside cfg) (before : Store) (hs : Option (List (Bytes × Hint))) :
    KeepsRepo cfg hs (fun _ _ w => Lasting cfg before w.store)
      (fun w => Lasting cfg before w.store) where
  weaken h := h
  congr h hsame := h.trans (hsame.lasting ho)
  queue h _ _ := h
  add := by
    intro done queue w w' hb K h hadd
    cases hadd with
    | found _ _ honly => exact honly.store ▸ h
    | copied _ hin =>
      obtain ⟨data, -, -, hcopied⟩ := hin.copied
      exact h.trans hcopied.lasting
  scratch h hscratch := h.trans hscratch.lasting

/-- What is in the place of an object is good, if it was so before. -/
theorem SafeRepo.goodRepo {before : Store} {done : List Hashable} (h : SafeRepo cfg before done s)
    (hrepo : GoodRepo cfg before) : GoodRepo cfg s := by
  intro hash node hnode
  rcases h.files hash node hnode with ⟨c, rfl⟩ | hold
  · exact ⟨c, rfl, h.good hash c hnode⟩
  · exact hrepo hash node hold

/-- **A backup on a repository that is in use.** -/
theorem wp_do_backup_lasting (ho : Outside cfg) (hrecheck : cfg.recheckhash = true)
    (hrepo : GoodRepo cfg store) (depth : Nat) :
    wp (do_backup cfg depth)
      (fun _ w' => GoodRepo cfg w'.store ∧ Lasting cfg store w'.store ∧
        ∃ es, w'.store.lookup cfg.indexfile = some (.file (indexText es)) ∧
          NamesStored cfg store w'.store (indexText es))
      (fun _ w' => GoodRepo cfg w'.store ∧ Lasting cfg store w'.store) { store, hintStore } := by
  have hgood : GoodObjects cfg store := by
    intro h c hc
    obtain ⟨c', hc', hsha1⟩ := hrepo h _ hc
    cases hc'
    exact hsha1
  have hI : SafeRepo cfg store [] store ∧ Lasting cfg store store :=
    ⟨⟨hgood, fun _ _ hn => .inr hn, by simp⟩, .refl cfg store⟩
  have hstart : ∀ w', SameRepo cfg { store, hintStore } w' →
      SafeRepo cfg store [] w'.store ∧ Lasting cfg store w'.store := fun w' hsame =>
    ⟨hI.1.congr (hsame.lookup_object ho), hsame.lasting ho⟩
  refine wp_mono (wp_do_backup ho depth hI hstart
    fun hs _ => (keeps_safeRepo ho hrecheck store hs).and (keeps_lasting ho store hs)) ?_ ?_
  · rintro _ w' ⟨hs, es, -, -, hfin⟩
    refine ⟨hfin.repo.1.goodRepo hrepo, hfin.repo.2, es, hfin.index, ?_⟩
    exact namesStored_of_isIndex hfin.repo.1 (isIndex_indexText es)
  · rintro stop w' (⟨hstopped, -⟩ | ⟨hs, es, -, -, hending⟩)
    · exact ⟨hstopped.repo.1.goodRepo hrepo, hstopped.repo.2⟩
    · exact ⟨hending.repo.1.goodRepo hrepo, hending.repo.2⟩

/-! ### What verification and cleanup take away -/

/-- Nothing has happened to the files but that some below `dir` have been taken away, of which `P`
holds. -/
def TakesAway (dir : Bytes) (P : Bytes → Node → Prop) (w w' : World) : Prop :=
  ∀ q, w'.store.lookup q = w.store.lookup q ∨
    w'.store.lookup q = none ∧ Under dir q ∧ ∀ node, w.store.lookup q = some node → P q node

section TakesAway

variable {dir : Bytes} {P : Bytes → Node → Prop}

theorem TakesAway.of_store (h : w'.store = w.store) : TakesAway dir P w w' := fun q => .inl (by rw [h])

instance : Std.Refl (TakesAway dir P) := ⟨fun _ => .of_store rfl⟩

instance : IsTrans World (TakesAway dir P) := by
  refine ⟨fun w₁ w₂ w₃ h h' q => ?_⟩
  rcases h' q with hsame' | ⟨hnone', hu', hP'⟩
  · rcases h q with hsame | ⟨hnone, hu, hP⟩
    · exact .inl (hsame'.trans hsame)
    · exact .inr ⟨hsame'.trans hnone, hu, hP⟩
  · refine .inr ⟨hnone', hu', fun node hnode => ?_⟩
    rcases h q with hsame | ⟨-, -, hP⟩
    · exact hP' node (hsame.trans hnode)
    · exact hP node hnode

theorem takesAway_tick : Frames (TakesAway dir P) (tick cfg) := by
  intro w
  rw [wp_tick]
  split
  · exact .of_store rfl
  · exact .of_store rfl

theorem takesAway_liftExcept {α : Type} (x : Except Exn α) :
    Frames (TakesAway dir P) (liftExcept x) := by
  cases x with
  | ok a => exact .pure a
  | error e => exact .throw _

/-- A path is removed. -/
theorem wp_remove_takesAway {path : Bytes} (hu : Under dir path)
    (hP : ∀ node, w.store.lookup path = some node → P path node) :
    wp (Backupfs.remove cfg path) (fun _ => TakesAway dir P w) (fun _ => TakesAway dir P w) w := by
  have herase : ∀ {w₁ : World}, w₁.store = w.store.erase path → TakesAway dir P w w₁ := by
    intro w₁ hw₁ q
    by_cases hq : q = path
    · subst hq
      exact .inr ⟨by rw [hw₁, AList.lookup_erase], hu, hP⟩
    · exact .inl (by rw [hw₁, AList.lookup_erase_ne hq])
  rw [Backupfs.remove, wp_bind]
  refine wp_mono (wp_call_untouched cfg _ path w) ?_ ?_
  swap
  · rintro _ w₁ ⟨rfl, -⟩
    exact .of_store rfl
  rintro m w₁ ⟨-, rfl⟩
  rw [wp_bind, wp_get]
  dsimp only
  split
  · exact .of_store rfl
  · rw [wp_ite]
    split
    · exact .of_store rfl
    · exact herase rfl
  · exact herase rfl

end TakesAway

/-- What the scan of the repository does to it. -/
abbrev Cleans (cfg : Config) : World → World → Prop :=
  TakesAway (objectsDir cfg.repo) fun _ _ => True

theorem cleans_discard {q : Bytes} (hu : Under (objectsDir cfg.repo) q) :
    Frames (Cleans cfg) (discard cfg q) := by
  apply Frames.ite
  · apply Frames.tryCatch
    · exact fun w => wp_remove_takesAway hu fun _ _ => trivial
    · intro stop
      split
      · exact fun w => .of_store rfl
      · exact .throw _
  · apply Frames.bind takesAway_tick
    intro m
    dsimp only
    exact Frames.ite (fun w => .of_store rfl) fun w => .of_store rfl

theorem cleans_clean_recurse (needed : HashSet) :
    ∀ (depth : Nat) (path : Bytes), path = objectsDir cfg.repo ∨ Under (objectsDir cfg.repo) path →
      Frames (Cleans cfg) (clean_recurse cfg needed depth path) := by
  intro depth
  induction depth with
  | zero => exact fun _ _ => .pure _
  | succ depth ih =>
    intro path hpath
    -- whatever is found is in the directory of the objects
    have hunder : ∀ name, Under (objectsDir cfg.repo) (path ++ lit "/" ++ name) := by
      intro name
      rcases hpath with rfl | hu
      · exact under_inDir _ name
      · rw [List.append_assoc]
        exact hu.append _
    apply Frames.bind
    · intro w
      refine wp_mono (wp_contents cfg path w) ?_ ?_
      · rintro _ w' ⟨rfl, -⟩
        exact .of_store rfl
      · rintro _ w' ⟨rfl, -⟩
        exact .of_store rfl
    intro files
    apply Frames.foldlM
    -- one name of the listing
    intro deleted name
    apply Frames.bind
    · intro w
      refine wp_mono (wp_type cfg _ w) ?_ ?_
      · rintro _ w' ⟨rfl, -⟩
        exact .of_store rfl
      · rintro _ w' ⟨rfl, -⟩
        exact .of_store rfl
    intro type
    cases type with
    | RegularFile =>
      apply Frames.bind
      · intro w
        refine wp_mono (wp_keepFile cfg needed name _ w) ?_ ?_
        · rintro keep w' ⟨rfl | rfl, -⟩
          · exact .of_store rfl
          · exact .of_store rfl
        · rintro _ w' ⟨rfl, -⟩
          exact .of_store rfl
      intro keep
      -- only a file that is not kept is removed
      apply Frames.ite (.pure _)
      exact Frames.bind (cleans_discard (hunder name)) fun _ => .pure _
    | Directory => exact Frames.bind (ih _ (.inr (hunder name))) fun _ => .pure _
    | UnknownFileType => exact .pure _

/-- **Cleanup** takes nothing away but below the directory of the objects. -/
theorem cleans_do_clean (cfg : Config) (argv : List Bytes) : Frames (Cleans cfg) (do_clean cfg argv) := by
  apply Frames.bind
  · intro w
    refine wp_mono (wp_neededHashes cfg argv w) ?_ ?_
    · rintro _ w' ⟨-, hu, -⟩
      exact .of_store hu.store
    · rintro _ w' ⟨hu, -⟩
      exact .of_store hu.store
  · exact fun needed => Frames.get_bind fun w => cleans_clean_recurse needed _ _ (.inl rfl)

/-- What verification does to the repository. -/
abbrev Evicts (cfg : Config) : World → World → Prop :=
  TakesAway (objectsDir cfg.repo) fun q node => ∀ h c, q = objectPath cfg.repo h → node = .file c →
    cfg.sha1 c ≠ h

/-- A file that is read to its end is hashed. -/
theorem wp_hashBackupFile_file (path : Bytes) :
    wp (hashBackupFile cfg path)
      (fun h w' => w'.store = w.store ∧ ∀ c, w.store.lookup path = some (.file c) → h = cfg.sha1 c)
      (fun _ w' => w'.store = w.store) w := by
  rw [hashBackupFile, wp_bind, Backupfs.openRead, wp_bind, wp_tick]
  split_ifs with hk
  · rfl
  rw [wp_bind, wp_get, wp_liftExcept]
  split
  swap
  · rfl
  rename_i f hf
  rw [wp_bind, wp_liftExcept]
  split
  swap
  · rfl
  rename_i data hdata
  refine ⟨rfl, fun c hc => congrArg cfg.sha1 ?_⟩
  have hat : contentsAt (cfg.env w.clock).reads w.store path = .ok data := by
    unfold contentsAt
    rw [show Backupfs.fileAt (cfg.env w.clock).reads w.store path = .ok f from hf]
    exact hdata
  unfold contentsAt Backupfs.fileAt at hat
  rw [hc] at hat
  cases hr : (cfg.env w.clock).reads path with
  | none =>
    rw [hr] at hat
    exact (Except.ok.inj hat).symm
  | some fault =>
    rw [hr] at hat
    obtain ⟨after, e⟩ := fault
    cases after with
    | none => cases hat
    | some n => cases hat

theorem evicts_checkObject (h : Hash) : Frames (Evicts cfg) (checkObject cfg h) := by
  apply Frames.tryCatch
  · intro w
    rw [wp_bind]
    refine wp_mono (wp_hashBackupFile_file (objectPath cfg.repo h)) ?_ fun _ w' hw' => .of_store hw'
    rintro h' w₁ ⟨hw₁, hhash⟩
    rw [wp_ite]
    split
    · exact .of_store hw₁
    rename_i hne
    rw [wp_bind, wp_error, wp_ite]
    split
    swap
    · exact .of_store hw₁
    have hstep : wp (Backupfs.remove cfg (objectPath cfg.repo h))
        (fun _ => Evicts cfg { w₁ with errors := w₁.errors + 1 })
        (fun _ => Evicts cfg { w₁ with errors := w₁.errors + 1 })
        { w₁ with errors := w₁.errors + 1 } := by
      refine wp_remove_takesAway (under_objectsDir _ _) ?_
      rintro _ hnode h₁ c hpath rfl hgood
      rw [← objectPath_injective hpath] at hgood
      exact hne (hgood.symm.trans (hhash c (hw₁ ▸ hnode)).symm)
    refine wp_mono hstep (fun _ w₂ h₂ => ?_) fun _ w₂ h₂ => ?_
    · exact IsTrans.trans _ _ _ (TakesAway.of_store hw₁) h₂
    · exact IsTrans.trans _ _ _ (TakesAway.of_store hw₁) h₂
  · intro stop
    split
    · exact Frames.ite (fun w => .of_store rfl) (.throw _)
    · exact .throw _

theorem evicts_verifyLine (d : Details) : Frames (Evicts cfg) (verifyLine cfg d) := by
  unfold verifyLine
  split
  · exact .pure _
  split
  · exact .pure _
  split
  · exact fun w => .of_store rfl
  · exact Frames.bind (takesAway_liftExcept _) fun h => evicts_checkObject h

/-- **Verification** takes nothing away but objects with the wrong contents. -/
theorem evicts_do_verify (cfg : Config) : Frames (Evicts cfg) (do_verify cfg) := by
  unfold do_verify
  dsimp only
  refine Frames.ite (fun w => .of_store rfl) ?_
  refine Frames.ite (fun w => .of_store rfl) ?_
  refine Frames.ite (fun w => .of_store rfl) ?_
  apply Frames.bind
  · apply Frames.bind takesAway_tick
    exact fun m => Frames.get_bind fun w => takesAway_liftExcept _
  · intro f
    rw [whileReadIndexLine_eq_entriesOf]
    apply Frames.bind (Frames.forM evicts_verifyLine _)
    intro _
    cases (entriesOf f).2 with
    | none => exact .pure _
    | some e => exact .throw _

/-- What is read of an index, up to its end marker, is the index. -/
theorem IsIndex.of_isPrefix {p q : Bytes} {fault : Option Exn} {ds : List Details}
    (h : IsIndex ⟨q, fault⟩ ds) (hq : q <+: p) (hend : fault = none → q = p) :
    IsIndex ⟨p, none⟩ ds := by
  obtain ⟨lines, tail, hlines, hrest, ⟨rfl, hnone⟩ | ⟨t, rfl⟩⟩ := h
  · obtain rfl := hend hnone
    exact ⟨lines, [], hlines, hrest, .inl ⟨rfl, rfl⟩⟩
  · obtain ⟨r, rfl⟩ := hq
    refine ⟨lines, 10 :: (t ++ r), hlines, ?_, .inr ⟨_, rfl⟩⟩
    rw [show q = _ from hrest]
    simp only [List.append_assoc, List.cons_append]

/-- A good index has the entries of its file. -/
theorem GoodIndex.isIndex {reads : Bytes → Option ReadFault} {name text : Bytes} {ds : List Details}
    (h : GoodIndex reads s name ds) (hfile : s.lookup name = some (.file text)) :
    IsIndex ⟨text, none⟩ ds := by
  obtain ⟨f, hf, hindex, -⟩ := h
  unfold Backupfs.fileAt at hf
  rw [hfile] at hf
  split at hf
  · cases hf
  · dsimp only at hf
    split at hf
    · obtain rfl := Except.ok.inj hf
      exact hindex.of_isPrefix (List.take_prefix _ _) fun hnone => by cases hnone
    · obtain rfl := Except.ok.inj hf
      exact hindex

/-! ### Commands on one repository -/

/-- What there is between two commands: the backup filesystem, and the indexes on it that are to be
kept. -/
structure Holdings where
  store : Store
  live : List Bytes

/-- The command works on this repository. -/
structure Serves (cfg : Config) (repo : Bytes) (sha1 : Bytes → Hash) : Prop where
  repo : cfg.repo = repo
  sha1 : cfg.sha1 = sha1

/-- The index that is to be made is none of those that are kept, or it is found to exist already. -/
structure Spares (cfg : Config) (live : List Bytes) : Prop where
  indexfile : cfg.indexfile ∉ live ∨ cfg.overwrite_index = false ∧ cfg.sftp = false
  tmp : cfg.indexfile ++ lit ".tmp" ∉ live

namespace Holdings

/-- What may happen next: a command, wherever it stops, or something else that leaves the objects and
the indexes alone, after which perhaps fewer of them are to be kept. -/
inductive Next (repo : Bytes) (sha1 : Bytes → Hash) (H : Holdings) : Holdings → Prop
  | backedUp {cfg : Config} {depth : Nat} {hintStore : Store} {w : World}
      (hserves : Serves cfg repo sha1) (ho : Outside cfg) (hrecheck : cfg.recheckhash = true)
      (hspares : Spares cfg H.live)
      (hrun : do_backup cfg depth { store := H.store, hintStore } = .ok () w) :
      Next repo sha1 H ⟨w.store, cfg.indexfile :: H.live⟩
  | backupStopped {cfg : Config} {depth : Nat} {hintStore : Store} {w : World} {stop : Stop}
      (hserves : Serves cfg repo sha1) (ho : Outside cfg) (hrecheck : cfg.recheckhash = true)
      (hspares : Spares cfg H.live)
      (hrun : do_backup cfg depth { store := H.store, hintStore } = .error stop w) :
      Next repo sha1 H ⟨w.store, H.live⟩
  | verified {cfg : Config} (hserves : Serves cfg repo sha1) :
      Next repo sha1 H ⟨(stateAfter (do_verify cfg) { store := H.store }).store, H.live⟩
  /-- Cleanup is given all the indexes that are to be kept; if it checks contents, it can read them. -/
  | cleaned {cfg : Config} {argv : List Bytes} (hserves : Serves cfg repo sha1)
      (hargv : ∀ name ∈ H.live, name ∈ argv)
      (hread : cfg.detectbogus = false ∨ ∀ n h, (cfg.env n).reads (objectPath repo h) = none) :
      Next repo sha1 H ⟨(stateAfter (do_clean cfg argv) { store := H.store }).store, H.live⟩
  | restored {cfg : Config} {target : Target} (hserves : Serves cfg repo sha1) :
      Next repo sha1 H ⟨(stateAfter (do_restore cfg) { store := H.store, target }).store, H.live⟩
  | other {s : Store} {live : List Bytes} (hlive : ∀ name ∈ live, name ∈ H.live)
      (hindexes : ∀ name ∈ live, s.lookup name = H.store.lookup name)
      (hobjects : ∀ h, s.lookup (objectPath repo h) = H.store.lookup (objectPath repo h)) :
      Next repo sha1 H ⟨s, live⟩

/-- Any number of commands. -/
abbrev Follows (repo : Bytes) (sha1 : Bytes → Hash) (H H' : Holdings) : Prop :=
  Relation.ReflTransGen (Next repo sha1) H H'

/-- What is in the place of an object is good, and the indexes that are kept are finished ones outside
the repository. -/
structure WellKept (repo : Bytes) (sha1 : Bytes → Hash) (H : Holdings) : Prop where
  objects : ∀ h node, H.store.lookup (objectPath repo h) = some node →
    ∃ c, node = .file c ∧ sha1 c = h
  indexes : ∀ name ∈ H.live, ∃ es, H.store.lookup name = some (.file (indexText es))
  outside : ∀ name ∈ H.live, ¬ Under (objectsDir repo) name

/-! ### The archive -/

/-- The hashes that the index `name` names. -/
def named (s : Store) (name : Bytes) : Set Hash :=
  {h | ∃ text, s.lookup name = some (.file text) ∧ NamesHash (entriesOf ⟨text, none⟩).1 h}

open Classical in
/-- The repository and its indexes as an archive. -/
noncomputable def archive (repo : Bytes) (H : Holdings) : Archive Bytes Hash Bytes where
  objects h :=
    match H.store.lookup (objectPath repo h) with
    | some (.file c) => some c
    | _ => none
  roots name := if name ∈ H.live then some (named H.store name) else none

variable {H H' : Holdings} {name : Bytes} {h : Hash} {keys : Set Hash}

theorem archive_objects {c : Bytes} : (H.archive repo).objects h = some c ↔
    H.store.lookup (objectPath repo h) = some (.file c) := by
  unfold archive
  dsimp only
  split
  · rename_i c' hc'
    rw [hc', Option.some.injEq, Option.some.injEq, Node.file.injEq]
  · rename_i hno
    exact iff_of_false (by simp) fun hc => hno c hc

theorem archive_objects_congr
    (hsame : H'.store.lookup (objectPath repo h) = H.store.lookup (objectPath repo h)) :
    (H'.archive repo).objects h = (H.archive repo).objects h := by
  unfold archive
  dsimp only
  rw [hsame]

theorem archive_roots : (H.archive repo).roots name = some keys ↔
    name ∈ H.live ∧ named H.store name = keys := by
  unfold archive
  dsimp only
  split
  · simp [*]
  · simp [*]

theorem named_congr (hsame : s'.lookup name = s.lookup name) : named s' name = named s name := by
  unfold named
  rw [hsame]

theorem namesHash_details {es : List Entry} : NamesHash (es.map Entry.details) h ↔
    ∃ e ∈ es, e.kind = .sha1 h := by
  constructor
  · rintro ⟨d, hd, v, hv, hh⟩
    obtain ⟨e, he, rfl⟩ := List.mem_map.mp hd
    rw [e.details_sha1] at hv
    split at hv
    · rename_i hash hk
      rw [← Option.some.inj hv, hashdecode_hexencode] at hh
      exact ⟨e, he, hk.trans (congrArg Kind.sha1 (Except.ok.inj hh))⟩
    · cases hv
  · rintro ⟨e, he, hk⟩
    refine ⟨_, List.mem_map_of_mem he, hexencode h.bytes, ?_, hashdecode_hexencode h⟩
    rw [e.details_sha1, hk]

theorem mem_named {es : List Entry} (hfile : s.lookup name = some (.file (indexText es))) :
    h ∈ named s name ↔ ∃ e ∈ es, e.kind = .sha1 h := by
  rw [← namesHash_details]
  constructor
  · rintro ⟨text, htext, hnames⟩
    rw [hfile] at htext
    cases htext
    rwa [entriesOf_indexText] at hnames
  · intro hnames
    exact ⟨_, hfile, by rwa [entriesOf_indexText]⟩

/-- What there is under a hash is a good object. -/
theorem WellKept.isSome_iff (hi : H.WellKept repo sha1) : ((H.archive repo).objects h).isSome ↔
    (H.store.lookup (objectPath repo h)).isSome := by
  rw [Option.isSome_iff_exists, Option.isSome_iff_exists]
  constructor
  · rintro ⟨c, hc⟩
    exact ⟨_, archive_objects.mp hc⟩
  · rintro ⟨node, hnode⟩
    obtain ⟨c, rfl, -⟩ := hi.objects h node hnode
    exact ⟨c, archive_objects.mpr hnode⟩

/-- Contents are added, and indexes are made of what is there, or dropped. -/
theorem runs_of_added (hnew : ∀ h c, (H'.archive repo).objects h = some c → sha1 c = h)
    (hold : ∀ h, ((H.archive repo).objects h).isSome → ((H'.archive repo).objects h).isSome)
    (hroots : ∀ name keys, (H'.archive repo).roots name = some keys →
      (H.archive repo).roots name = some keys ∨
        ∀ h ∈ keys, ((H'.archive repo).objects h).isSome) :
    Runs sha1 (H.archive repo) (H'.archive repo) := by
  have hstore := Step.store (H'.archive repo).objects (fun h c hc => .inr (hnew h c hc)) hold
  exact .tail (.single hstore) (.publish (H'.archive repo).roots hroots)

/-- What has been taken away is not there. -/
theorem archive_objects_none (hnone : H.store.lookup (objectPath repo h) = none) :
    (H.archive repo).objects h = none := by
  unfold archive
  dsimp only
  rw [hnone]

/-- An index that is kept and has not changed is the same root. -/
theorem roots_of_same (hlive : name ∈ H.live)
    (hsame : H'.store.lookup name = H.store.lookup name)
    (hroot : (H'.archive repo).roots name = some keys) : (H.archive repo).roots name = some keys :=
  archive_roots.mpr ⟨hlive, (named_congr hsame).symm.trans (archive_roots.mp hroot).2⟩

/-- What takes objects away leaves the indexes alone. -/
theorem WellKept.index_of_takesAway {P : Bytes → Node → Prop} (hi : H.WellKept repo sha1) {w : World}
    (htakes : TakesAway (objectsDir repo) P { store := H.store } w) (hname : name ∈ H.live) :
    w.store.lookup name = H.store.lookup name :=
  (htakes name).resolve_right fun hn => hi.outside name hname hn.2.1

/-- What takes objects away is a run if it is a step. -/
theorem WellKept.takesAway {P : Bytes → Node → Prop} (hi : H.WellKept repo sha1) {w : World}
    (htakes : TakesAway (objectsDir repo) P { store := H.store } w)
    (hstep : Step sha1 (H.archive repo)
      { H.archive repo with objects := (archive repo ⟨w.store, H.live⟩).objects }) :
    WellKept repo sha1 ⟨w.store, H.live⟩ ∧
      Runs sha1 (H.archive repo) (archive repo ⟨w.store, H.live⟩) := by
  refine ⟨⟨fun h node hnode => ?_, fun name hname => ?_, hi.outside⟩, ?_⟩
  · rcases htakes (objectPath repo h) with he | ⟨hnone, -⟩
    · exact hi.objects h node (he ▸ hnode)
    · rw [show w.store.lookup _ = _ from hnode] at hnone
      cases hnone
  · obtain ⟨es, hes⟩ := hi.indexes name hname
    exact ⟨es, (hi.index_of_takesAway htakes hname).trans hes⟩
  · refine .tail (.single hstep)
      (.publish (archive repo ⟨w.store, H.live⟩).roots fun name keys hroot => .inl ?_)
    have hname := (archive_roots.mp hroot).1
    exact roots_of_same hname (hi.index_of_takesAway htakes hname) hroot

/-- An object that an index names is needed by a cleanup that is given the index. -/
theorem neededBy_of_named {argv : List Bytes} (hgood : AllGood cfg argv w) (hargv : name ∈ argv)
    (hnames : h ∈ named w.store name) : NeededBy cfg argv w h := by
  obtain ⟨i, hi⟩ := List.getElem?_of_mem hargv
  obtain ⟨ds, hds⟩ := hgood i name hi
  obtain ⟨text, hfile, hnames⟩ := hnames
  rw [entriesOf_of_isIndex (hds.isIndex hfile)] at hnames
  exact ⟨i, name, ds, hi, hds, hnames⟩

/-- **Cleanup keeps what an index that it is given names.** -/
theorem do_clean_keeps_named {argv : List Bytes} {c : Bytes} (hargv : name ∈ argv)
    (hread : cfg.detectbogus = false ∨ ∀ n, (cfg.env n).reads (objectPath cfg.repo h) = none)
    (hnames : h ∈ named store name) (hfile : store.lookup (objectPath cfg.repo h) = some (.file c))
    (hgood : cfg.sha1 c = h) :
    (stateAfter (do_clean cfg argv) { store }).store.lookup (objectPath cfg.repo h) =
      some (.file c) := by
  by_cases hall : AllGood cfg argv { store }
  · refine (wp_stateAfter _ (fun w : World => w.store.lookup _ = some (.file c)) _).mp ?_
    refine wp_mono (wp_do_clean_held (neededBy_of_named hall hargv hnames) hgood hread
      ⟨hfile, by simp, by simp⟩) ?_ ?_
    · exact fun _ _ hheld => hheld.1
    · exact fun _ _ hheld => hheld.1
  · -- with a bad index there is no scan
    rw [(untouched_of_bad hall).store]
    exact hfile

/-- A backup that has an index that is kept for its own finds it, and does nothing. -/
theorem wp_do_backup_spared (hi : H.WellKept cfg.repo cfg.sha1) (hspares : Spares cfg H.live)
    (hlive : cfg.indexfile ∈ H.live) {depth : Nat} :
    wp (do_backup cfg depth) (fun _ _ => False) (fun _ w' => w'.store = H.store)
      { store := H.store, hintStore } := by
  obtain ⟨hov, hlocal⟩ := hspares.indexfile.resolve_left fun hno => hno hlive
  obtain ⟨es, hes⟩ := hi.indexes _ hlive
  rw [do_backup, wp_bind]
  exact wp_mono (wp_checkBackup_stops hov hes (.inl hlocal)) (fun _ _ hno => hno.elim) fun _ _ h => h

/-- What a backup leaves of the indexes that are kept. -/
theorem WellKept.lasting (hi : H.WellKept cfg.repo cfg.sha1) (hspares : Spares cfg H.live)
    (hfresh : cfg.indexfile ∉ H.live) (hlasting : Lasting cfg H.store s) {name : Bytes}
    (hname : name ∈ H.live) : s.lookup name = H.store.lookup name := by
  obtain ⟨es, hes⟩ := hi.indexes name hname
  rw [hes]
  refine hlasting.files name _ ?_ ?_ (hi.outside name hname) hes
  · rintro rfl
    exact hfresh hname
  · rintro rfl
    exact hspares.tmp hname

/-- Objects that are good have the digests that they should have. -/
theorem WellKept.digest (hi : H.WellKept repo sha1) {c : Bytes}
    (hc : (H.archive repo).objects h = some c) : sha1 c = h := by
  obtain ⟨c', hc', hgood⟩ := hi.objects h _ (archive_objects.mp hc)
  cases hc'
  exact hgood

/-- A backup that has not finished. -/
theorem WellKept.stopped (hi : H.WellKept cfg.repo cfg.sha1) (hspares : Spares cfg H.live)
    (hfresh : cfg.indexfile ∉ H.live) (hrepo : GoodRepo cfg s) (hlasting : Lasting cfg H.store s) :
    WellKept cfg.repo cfg.sha1 ⟨s, H.live⟩ := by
  refine ⟨hrepo, fun name hname => ?_, hi.outside⟩
  obtain ⟨es, hes⟩ := hi.indexes name hname
  exact ⟨es, (hi.lasting hspares hfresh hlasting hname).trans hes⟩

/-- Contents that have been added. -/
theorem WellKept.isSome_of_lasting (hi : H.WellKept cfg.repo cfg.sha1)
    (hi' : H'.WellKept cfg.repo cfg.sha1) (hlasting : Lasting cfg H.store H'.store)
    (hsome : ((H.archive cfg.repo).objects h).isSome) :
    ((H'.archive cfg.repo).objects h).isSome :=
  hi'.isSome_iff.mpr (hlasting.objects h (hi.isSome_iff.mp hsome))

/-- A backup where no index is to be kept. -/
theorem Next.first {depth : Nat} (ho : Outside cfg) (hrecheck : cfg.recheckhash = true)
    (hrun : do_backup cfg depth { store, hintStore } = .ok () w) :
    Next cfg.repo cfg.sha1 ⟨store, []⟩ ⟨w.store, [cfg.indexfile]⟩ :=
  .backedUp ⟨rfl, rfl⟩ ho hrecheck ⟨.inl List.not_mem_nil, List.not_mem_nil⟩ hrun

/-- A backup can always be made, however it ends. -/
theorem Next.of_backup (cfg : Config) (hserves : Serves cfg repo sha1) (ho : Outside cfg)
    (hrecheck : cfg.recheckhash = true) (hspares : Spares cfg H.live) (depth : Nat) :
    ∃ H' : Holdings, Next repo sha1 H H' ∧
      (H'.live = H.live ∨ H'.live = cfg.indexfile :: H.live) := by
  cases hrun : do_backup cfg depth { store := H.store, hintStore := ∅ } with
  | ok u w => exact ⟨_, .backedUp hserves ho hrecheck hspares hrun, .inr rfl⟩
  | error stop w => exact ⟨_, .backupStopped hserves ho hrecheck hspares hrun, .inl rfl⟩

/-- An index that is kept is not changed. -/
theorem Next.same_index (h : Next repo sha1 H H') (hi : H.WellKept repo sha1) (hname : name ∈ H.live)
    (hname' : name ∈ H'.live) : H'.store.lookup name = H.store.lookup name := by
  cases h with
  | @backedUp cfg depth hintStore w hserves ho hrecheck hspares hrun =>
    obtain ⟨rfl, rfl⟩ := hserves
    by_cases hfresh : cfg.indexfile ∈ H.live
    · exact (wp_elim_ok (wp_do_backup_spared hi hspares hfresh) hrun).elim
    · have hleft := wp_elim_ok (wp_do_backup_lasting ho hrecheck hi.objects depth) hrun
      exact hi.lasting hspares hfresh hleft.2.1 hname
  | @backupStopped cfg depth hintStore w stop hserves ho hrecheck hspares hrun =>
    obtain ⟨rfl, rfl⟩ := hserves
    by_cases hfresh : cfg.indexfile ∈ H.live
    · have hstore := wp_elim_error (wp_do_backup_spared hi hspares hfresh) hrun
      exact congrArg (AList.lookup name) hstore
    · have hleft := wp_elim_error (wp_do_backup_lasting ho hrecheck hi.objects depth) hrun
      exact hi.lasting hspares hfresh hleft.2 hname
  | @verified cfg hserves =>
    obtain ⟨rfl, rfl⟩ := hserves
    exact hi.index_of_takesAway ((wp_stateAfter _ _ _).mp (evicts_do_verify cfg _)) hname
  | @cleaned cfg argv hserves =>
    obtain ⟨rfl, rfl⟩ := hserves
    exact hi.index_of_takesAway ((wp_stateAfter _ _ _).mp (cleans_do_clean cfg argv _)) hname
  | @restored cfg target =>
    have hstore := (wp_stateAfter _ _ _).mp
      (sameStore_do_restore cfg { store := H.store, target })
    exact congrArg (AList.lookup name) hstore
  | other _ hindexes _ => exact hindexes name hname'

/-- **A command is a run of the archive**, wherever it stops. -/
theorem Next.runs (h : Next repo sha1 H H') (hi : H.WellKept repo sha1) :
    H'.WellKept repo sha1 ∧ Runs sha1 (H.archive repo) (H'.archive repo) := by
  have hroots : ∀ name keys, name ∈ H.live → (H'.archive repo).roots name = some keys →
      (H.archive repo).roots name = some keys := fun name keys hname hroot =>
    roots_of_same hname (h.same_index hi hname (archive_roots.mp hroot).1) hroot
  cases h with
  | @backedUp cfg depth hintStore w hserves ho hrecheck hspares hrun =>
    obtain ⟨rfl, rfl⟩ := hserves
    by_cases hfresh : cfg.indexfile ∈ H.live
    · exact (wp_elim_ok (wp_do_backup_spared hi hspares hfresh) hrun).elim
    obtain ⟨hrepo, hlasting, es, hindex, hnames⟩ :=
      wp_elim_ok (wp_do_backup_lasting ho hrecheck hi.objects depth) hrun
    have hstopped := hi.stopped hspares hfresh hrepo hlasting
    have hi' : WellKept cfg.repo cfg.sha1 ⟨w.store, cfg.indexfile :: H.live⟩ := by
      refine ⟨hrepo, fun name hname => ?_, fun name hname => ?_⟩
      · rcases List.mem_cons.mp hname with rfl | hname
        · exact ⟨es, hindex⟩
        · exact hstopped.indexes name hname
      · rcases List.mem_cons.mp hname with rfl | hname
        · exact ho.indexfile
        · exact hi.outside name hname
    refine ⟨hi', runs_of_added (fun _ _ => hi'.digest)
      (fun _ => hi.isSome_of_lasting hi' hlasting) fun name keys hroot => ?_⟩
    obtain ⟨hname, rfl⟩ := archive_roots.mp hroot
    rcases List.mem_cons.mp hname with rfl | hname
    · -- the new index names what has been stored
      refine .inr fun hash hm => hi'.isSome_iff.mpr ?_
      obtain ⟨e, he, hk⟩ := (mem_named hindex).mp hm
      have hdetail : e.details.getdetail HASH_NAME = some (hexencode hash.bytes) := by
        rw [Details.getdetail, e.details_sha1, hk]
      obtain ⟨hash', hdecode, node, hnode, -⟩ :=
        hnames e.details (by rw [entriesOf_indexText]; exact List.mem_map_of_mem he) _ hdetail
      rw [hashdecode_hexencode] at hdecode
      obtain rfl := Except.ok.inj hdecode
      exact Option.isSome_iff_exists.mpr ⟨node, hnode⟩
    · exact .inl (hroots name _ hname hroot)
  | @backupStopped cfg depth hintStore w stop hserves ho hrecheck hspares hrun =>
    obtain ⟨rfl, rfl⟩ := hserves
    by_cases hfresh : cfg.indexfile ∈ H.live
    · have hstore := wp_elim_error (wp_do_backup_spared hi hspares hfresh) hrun
      rw [hstore]
      exact ⟨hi, .refl⟩
    obtain ⟨hrepo, hlasting⟩ :=
      wp_elim_error (wp_do_backup_lasting ho hrecheck hi.objects depth) hrun
    have hi' := hi.stopped hspares hfresh hrepo hlasting
    refine ⟨hi', runs_of_added (fun _ _ => hi'.digest)
      (fun _ => hi.isSome_of_lasting hi' hlasting) fun name keys hroot => ?_⟩
    exact .inl (hroots name keys (archive_roots.mp hroot).1 hroot)
  | @verified cfg hserves =>
    obtain ⟨rfl, rfl⟩ := hserves
    have hevicts := (wp_stateAfter _ _ _).mp (evicts_do_verify cfg { store := H.store })
    refine hi.takesAway hevicts (.evict _ fun hash => ?_)
    rcases hevicts (objectPath cfg.repo hash) with hsame | ⟨hnone, -, hbad⟩
    · exact .inl (archive_objects_congr hsame)
    · refine .inr ⟨archive_objects_none hnone, fun c hc => ?_⟩
      exact hbad _ (archive_objects.mp hc) hash c rfl rfl
  | @cleaned cfg argv hserves hargv hread =>
    obtain ⟨rfl, rfl⟩ := hserves
    have hcleans := (wp_stateAfter _ _ _).mp (cleans_do_clean cfg argv { store := H.store })
    refine hi.takesAway hcleans (.collect _ fun hash => ?_)
    rcases hcleans (objectPath cfg.repo hash) with hsame | ⟨hnone, -⟩
    · exact .inl (archive_objects_congr hsame)
    · by_cases hneeds : (H.archive cfg.repo).Needs hash
      swap
      · exact .inr ⟨archive_objects_none hnone, hneeds⟩
      -- what is needed is still there, if it was there
      refine .inl ((archive_objects_none hnone).trans ?_)
      obtain ⟨name, keys, hroot, hm⟩ := hneeds
      obtain ⟨hname, rfl⟩ := archive_roots.mp hroot
      cases hc : (H.archive cfg.repo).objects hash with
      | none => rfl
      | some c =>
        have hkept := do_clean_keeps_named (hargv name hname) (hread.imp_right fun hr n => hr n hash)
          hm (archive_objects.mp hc) (hi.digest hc)
        rw [hkept] at hnone
        cases hnone
  | @restored cfg target hserves =>
    have hstore := (wp_stateAfter _ _ _).mp
      (sameStore_do_restore cfg { store := H.store, target })
    rw [show (stateAfter (do_restore cfg) { store := H.store, target }).store = H.store from hstore]
    exact ⟨hi, .refl⟩
  | @other s live hlive hindexes hobjects =>
    have hi' : WellKept repo sha1 ⟨s, live⟩ := by
      refine ⟨fun h node hnode => ?_, fun name hname => ?_, fun name hname => ?_⟩
      · exact hi.objects h node (hobjects h ▸ hnode)
      · obtain ⟨es, hes⟩ := hi.indexes name (hlive name hname)
        exact ⟨es, (hindexes name hname).trans hes⟩
      · exact hi.outside name (hlive name hname)
    refine ⟨hi', runs_of_added (fun _ _ => hi'.digest) (fun h hsome => ?_) fun name keys hroot => ?_⟩
    · have hsame : (archive repo ⟨s, live⟩).objects h = (H.archive repo).objects h :=
        archive_objects_congr (hobjects h)
      rwa [hsame]
    · exact .inl (hroots name keys (hlive name (archive_roots.mp hroot).1) hroot)

/-! ### Histories -/

/-- What every command keeps. -/
theorem Follows.runs (h : Follows repo sha1 H H') (hi : H.WellKept repo sha1) :
    H'.WellKept repo sha1 ∧ Runs sha1 (H.archive repo) (H'.archive repo) := by
  have hstep : ∀ H₁ H₂ : Holdings, H₁.WellKept repo sha1 → Next repo sha1 H₁ H₂ →
      H₂.WellKept repo sha1 ∧ Runs sha1 (H₁.archive repo) (H₂.archive repo) :=
    fun _ _ hi hnext => hnext.runs hi
  exact Runs.of_steps hstep hi h

/-- The index `name` is finished, and what it names is in the repository. -/
def Whole (repo : Bytes) (sha1 : Bytes → Hash) (s : Store) (name : Bytes) : Prop :=
  ∃ es, s.lookup name = some (.file (indexText es)) ∧ ∀ e ∈ es, ∀ h, e.kind = .sha1 h →
    ∃ c, s.lookup (objectPath repo h) = some (.file c) ∧ sha1 c = h

/-- Indexes of a sound archive are whole. -/
theorem WellKept.whole (hi : H.WellKept repo sha1) (hsound : (H.archive repo).Sound sha1)
    (hname : name ∈ H.live) : Whole repo sha1 H.store name := by
  obtain ⟨es, hes⟩ := hi.indexes name hname
  refine ⟨es, hes, fun e he h hk => ?_⟩
  have hneeds : (H.archive repo).Needs h :=
    ⟨name, _, archive_roots.mpr ⟨hname, rfl⟩, (mem_named hes).mpr ⟨e, he, hk⟩⟩
  obtain ⟨c, hc⟩ := Option.isSome_iff_exists.mp (hsound.complete h hneeds)
  exact ⟨c, archive_objects.mp hc, hi.digest hc⟩

/-- A history that starts without indexes. -/
theorem Follows.sound (h : Follows repo sha1 ⟨s, []⟩ H)
    (hrepo : ∀ h node, s.lookup (objectPath repo h) = some node →
      ∃ c, node = .file c ∧ sha1 c = h) :
    H.WellKept repo sha1 ∧ (H.archive repo).Sound sha1 := by
  have hstart : WellKept repo sha1 ⟨s, []⟩ := ⟨hrepo, by simp, by simp⟩
  have hsound : (archive repo ⟨s, []⟩).Sound sha1 := by
    refine ⟨fun _ _ => hstart.digest, ?_⟩
    rintro h ⟨n, keys, hroot, -⟩
    exact absurd (archive_roots.mp hroot).1 List.not_mem_nil
  obtain ⟨hi, hruns⟩ := h.runs hstart
  exact ⟨hi, hruns.sound hsound⟩

end Holdings

end Hbackup
