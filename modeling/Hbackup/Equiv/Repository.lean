import Hbackup.Equiv.BackupRun

/-!
# The integrity of the repository and the index

Wherever a run of `do_backup` stops, the objects of the repository hash to their names, and an
index that has its end marker names only objects that are there
(`do_backup_keeps_integrity`).
-/

namespace Hbackup

open ProgramLogic Separated

variable {cfg : Config}

/-! ### The repository -/

/-- The contents of a file in the place of an object hash to its name. -/
def GoodObjects (cfg : Config) (s : Store) : Prop :=
  ∀ h c, s.lookup (objectPath cfg.repo h) = some (.file c) → cfg.sha1 c = h

/-- In the place of the object there is a file, or what was there before. -/
def Stored (cfg : Config) (before s : Store) (h : Hash) : Prop :=
  ∃ node, s.lookup (objectPath cfg.repo h) = some node ∧
    ((∃ c, node = .file c) ∨ before.lookup (objectPath cfg.repo h) = some node)

/-- What a backup keeps of the repository. -/
structure SafeRepo (cfg : Config) (before : Store) (done : List Hashable) (s : Store) : Prop where
  good : GoodObjects cfg s
  files : ∀ h node, s.lookup (objectPath cfg.repo h) = some node →
    (∃ c, node = .file c) ∨ before.lookup (objectPath cfg.repo h) = some node
  done : ∀ hb ∈ done, (s.lookup (objectPath cfg.repo hb.hash)).isSome

theorem SafeRepo.stored {before s : Store} {done : List Hashable} (h : SafeRepo cfg before done s)
    {hb : Hashable} (hm : hb ∈ done) : Stored cfg before s hb.hash := by
  obtain ⟨node, hnode⟩ := Option.isSome_iff_exists.mp (h.done hb hm)
  exact ⟨node, hnode, h.files hb.hash node hnode⟩

/-- The objects are what counts. -/
theorem SafeRepo.congr {before s s' : Store} {done : List Hashable}
    (h : SafeRepo cfg before done s)
    (hs : ∀ hash, s'.lookup (objectPath cfg.repo hash) = s.lookup (objectPath cfg.repo hash)) :
    SafeRepo cfg before done s' := by
  refine ⟨fun hash c hc => ?_, fun hash node hn => ?_, fun hb hm => ?_⟩
  · rw [hs] at hc
    exact h.good hash c hc
  · rw [hs] at hn
    exact h.files hash node hn
  · rw [hs]
    exact h.done hb hm

theorem SameRepo.lookup_object {w w' : World} (h : SameRepo cfg w w') (ho : Outside cfg)
    (hash : Hash) :
    w'.store.lookup (objectPath cfg.repo hash) = w.store.lookup (objectPath cfg.repo hash) := by
  have hunder := under_objectsDir cfg.repo hash
  refine h.store _ (fun e => ho.indexfile (e ▸ hunder)) fun e => ?_
  exact not_under_tmp ho.indexfile (e ▸ hunder)

theorem Scratched.lookup_object {w w' : World} {hash : Hash} (h : Scratched cfg.repo hash w w')
    (hash' : Hash) :
    w'.store.lookup (objectPath cfg.repo hash') = w.store.lookup (objectPath cfg.repo hash') := by
  refine (h.store _ (tmp_ne_objectPath _ _ _).symm).resolve_right fun hd => ?_
  rw [objectPath_length] at hd
  omega

theorem Copied.lookup_object {hash : Hash} {data : Bytes} {s s' : Store}
    (h : Copied cfg.repo hash data s s') {hash' : Hash} (hne : hash' ≠ hash) :
    s'.lookup (objectPath cfg.repo hash') = s.lookup (objectPath cfg.repo hash') := by
  rw [h.others _ (fun e => hne (objectPath_injective e)) (tmp_ne_objectPath _ _ _).symm]
  exact (deepened_objectDir s cfg.repo hash).lookup (objectPath_length _ _).ge

/-- Copying keeps it. -/
theorem keeps_safeRepo (ho : Outside cfg) (hrecheck : cfg.recheckhash = true) (before : Store)
    (hs : Option (List (Bytes × Hint))) :
    KeepsRepo cfg hs (fun done _ w => SafeRepo cfg before done w.store)
      (fun w => SafeRepo cfg before [] w.store) where
  weaken h := ⟨h.good, h.files, by simp⟩
  congr h hsame := h.congr (hsame.lookup_object ho)
  queue h _ _ := h
  add := by
    intro done queue w w' hb K h hadd
    cases hadd with
    -- an object that exists is left as it is
    | found hthere _ honly =>
      have hstore := honly.store
      refine ⟨hstore ▸ h.good, fun hash node hn => h.files hash node (hstore ▸ hn), ?_⟩
      intro hb' hm
      rw [hstore]
      rcases List.mem_append.mp hm with hm | hm
      · exact h.done hb' hm
      · rw [List.mem_singleton.mp hm]
        exact hthere
    -- a new one has been hashed once more
    | copied _ hin =>
      obtain ⟨data, -, hhash, hcopied⟩ := hin.copied
      refine ⟨fun hash c hc => ?_, fun hash node hn => ?_, fun hb' hm => ?_⟩
      · by_cases he : hash = hb.hash
        · subst he
          rw [hcopied.object] at hc
          cases hc
          exact hhash hrecheck
        · rw [hcopied.lookup_object he] at hc
          exact h.good hash c hc
      · by_cases he : hash = hb.hash
        · subst he
          rw [hcopied.object] at hn
          cases hn
          exact .inl ⟨data, rfl⟩
        · rw [hcopied.lookup_object he] at hn
          exact h.files hash node hn
      · by_cases he : hb'.hash = hb.hash
        · rw [he, hcopied.object]
          rfl
        · rw [hcopied.lookup_object he]
          rcases List.mem_append.mp hm with hm | hm
          · exact h.done hb' hm
          · rw [List.mem_singleton.mp hm] at he
            exact absurd rfl he
  scratch h hscratch := ⟨(h.congr hscratch.lookup_object).good, (h.congr hscratch.lookup_object).files,
    by simp⟩

/-! ### The index -/

/-- The map of details that is read back. -/
def Entry.details (e : Entry) : Details := Details.ofList e.fields

/-- What the line says about a hash. -/
theorem Entry.details_sha1 (e : Entry) : e.details HASH_NAME =
    match e.kind with
    | .sha1 h => some (hexencode h.bytes)
    | _ => none := by
  have hinode : (inodeFields e.sb).lookup HASH_NAME = none := by
    unfold inodeFields
    split_ifs <;> rfl
  rw [Entry.details, e.lookup, Entry.fields, List.lookup_append]
  change (e.kind.fields e.sb).lookup HASH_NAME = _
  cases e.kind with
  | data bytes => exact hinode
  | sha1 h => rfl
  | _ => rfl

theorem forall₂_entries (es : List Entry) :
    List.Forall₂ (fun l d => 10 ∉ l ∧ parseIndexLine l = .ok d) (es.map Entry.line)
      (es.map Entry.details) := by
  induction es with
  | nil => exact .nil
  | cons e es ih => exact .cons ⟨e.newline_not_mem, e.parse⟩ ih

/-- **What has an end marker is the whole index.** -/
theorem isIndex_of_end {es : List Entry} {d : Bytes}
    (hd : d <+: unlines 10 (es.map Entry.line) ++ lit "[end]\n") (hend : lit "[end]" ∈ d.splitOn 10) :
    IsIndex ⟨d, none⟩ (es.map Entry.details) := by
  have hnot : ¬ Unended d := fun hu => hu _ hend rfl
  have hnl : ∀ l ∈ es.map Entry.line, 10 ∉ l := by
    intro l hl
    obtain ⟨e, -, rfl⟩ := List.mem_map.mp hl
    exact e.newline_not_mem
  rcases prefix_append_cases hd with hp | ⟨q, rfl, hq⟩
  · rw [← List.append_nil (unlines _ _)] at hp
    exact absurd (unended_of_isPrefix (.inl rfl) hp) hnot
  refine ⟨es.map Entry.line, ?_⟩
  by_cases h10 : 10 ∈ q
  · -- with its newline the end marker is complete
    obtain rfl : q = lit "[end]\n" := by
      rcases List.prefix_concat_iff.mp (show q <+: lit "[end]" ++ [10] from hq) with he | hp
      · exact he
      · exact absurd (hp.mem h10) (by decide)
    refine ⟨[10], forall₂_entries es, ?_, .inr ⟨[], rfl⟩⟩
    rw [List.append_assoc]
    rfl
  · rw [splitOn_unlines hnl h10] at hend
    rcases List.mem_append.mp hend with hm | hm
    · obtain ⟨e, -, he⟩ := List.mem_map.mp hm
      have := e.begun.1
      rw [he] at this
      exact absurd this (by decide)
    · rw [List.mem_singleton.mp hm]
      exact ⟨[], forall₂_entries es, by simp, .inl ⟨rfl, rfl⟩⟩

/-! ### The result -/

/-- Every hash that the text names has an object. -/
def NamesStored (cfg : Config) (before s : Store) (text : Bytes) : Prop :=
  ∀ details ∈ (entriesOf ⟨text, none⟩).1, ∀ v, details.getdetail HASH_NAME = some v →
    ∃ h, hashdecode v = .ok h ∧ Stored cfg before s h

theorem mem_hashesOf {es : List Entry} {e : Entry} {h : Hash} (he : e ∈ es) (hk : e.kind = .sha1 h) :
    h ∈ hashesOf es :=
  List.mem_filterMap.mpr ⟨e, he, by rw [hk]⟩

/-- An index of `es` names the hashes that have been looked for. -/
theorem namesStored_of_isIndex {before s : Store} {es : List Entry} {text : Bytes}
    (h : SafeRepo cfg before (queueOf cfg [] es) s)
    (hindex : IsIndex ⟨text, none⟩ (es.map Entry.details)) : NamesStored cfg before s text := by
  intro details hm v hv
  rw [entriesOf_of_isIndex hindex] at hm
  obtain ⟨e, he, rfl⟩ := List.mem_map.mp hm
  rw [Details.getdetail, e.details_sha1] at hv
  split at hv
  · rename_i hash hk
    cases hv
    refine ⟨hash, hashdecode_hexencode hash, ?_⟩
    obtain ⟨hb, hmem, rfl⟩ := List.mem_map.mp (mem_queueOf.mpr (.inr (mem_hashesOf he hk)))
    exact h.stored hmem
  · cases hv

/-- The repository and the index are as they should be, wherever a run has stopped: objects hash to
their names, and an index of this run that has its end marker names only objects that are there. -/
structure Integrity (cfg : Config) (before : Store) (w : World) : Prop where
  objects : GoodObjects cfg w.store
  index : ∀ text, cfg.indexfile ∈ w.written →
    w.store.lookup cfg.indexfile = some (.file text) → lit "[end]" ∈ text.splitOn 10 →
    NamesStored cfg before w.store text

/-- **Repository and index integrity**, in whatever state a run is killed or fails. -/
theorem do_backup_keeps_integrity (cfg : Config) (depth : Nat) (store hintStore : Store)
    (ho : Outside cfg) (hrecheck : cfg.recheckhash = true) (hrepo : GoodObjects cfg store) :
    Integrity cfg store (stateAfter (do_backup cfg depth) { store, hintStore }) := by
  have hI : SafeRepo cfg store [] store := ⟨hrepo, fun _ _ hn => .inr hn, by simp⟩
  refine (wp_stateAfter _ (Integrity cfg store) _).mp ?_
  refine wp_mono (wp_do_backup ho depth hI (fun w' hsame => hI.congr (hsame.lookup_object ho))
    fun hs _ => keeps_safeRepo ho hrecheck store hs) ?_ ?_
  · rintro _ w ⟨hs, es, -, -, hfin⟩
    refine ⟨hfin.repo.good, fun text _ htext hend => ?_⟩
    obtain rfl : _ = text := by simpa [hfin.index] using htext
    exact namesStored_of_isIndex hfin.repo (isIndex_of_end List.prefix_rfl hend)
  · rintro stop w (⟨hstop, -⟩ | ⟨hs, es, -, -, hending⟩)
    · refine ⟨hstop.repo.good, fun text hw htext hend => ?_⟩
      obtain ⟨d, hd, hu⟩ := hstop.index hw
      obtain rfl : d = text := by simpa [hd] using htext
      exact absurd rfl (hu _ hend)
    · refine ⟨hending.repo.good, fun text hw htext hend => ?_⟩
      obtain ⟨d, hd, hpre⟩ := hending.index hw
      obtain rfl : d = text := by simpa [hd] using htext
      exact namesStored_of_isIndex hending.repo (isIndex_of_end hpre hend)

/-- A backup of one large file, which is killed at the tick `last`. -/
def largeFile (last : Nat) : Config where
  repo := lit "repo"
  root := lit "/home"
  indexfile := lit "index"
  hintfile := []
  crossfs := true
  preserve_atime := false
  overwrite_index := true
  permissions := true
  recheckhash := true
  detectbogus := false
  deleteclean := false
  sftp := false
  excluded := fun _ => false
  sha1 := fun _ => ⟨List.replicate HASH_SIZE 7, rfl⟩
  users := ⟨fun _ => none, fun _ => none, fun _ => none, fun _ => none⟩
  env n := {
    killed := n = last
    fault := none
    written := 0
    reads := fun _ => none
    early := false
    host := {
      contents := fun _ => .ok [lit "a"]
      lstat := fun _ => .ok { (default : Stat) with st_mode := S_IFREG, st_size := 300 }
      data := fun _ => .ok (List.replicate 300 1, none)
      readlink := fun _ => .error ENOENT
      ismount := fun _ => .ok false
      utimes := fun _ => .ok () } }

theorem integrity_largeFile :
    Integrity (largeFile 9) ∅ (stateAfter (do_backup (largeFile 9) 1) { store := ∅ }) :=
  do_backup_keeps_integrity (largeFile 9) 1 ∅ ∅ ⟨by unfold Under; decide +kernel⟩ rfl
    fun _ _ h => by cases h

/-! ### A directory in the place of an object -/

/-- Every hash that the index names is that of a file in the repository. -/
def NamesFiles (cfg : Config) (s : Store) (text : Bytes) : Prop :=
  ∀ details ∈ (entriesOf ⟨text, none⟩).1, ∀ v, details.getdetail HASH_NAME = some v →
    ∃ h c, hashdecode v = .ok h ∧ s.lookup (objectPath cfg.repo h) = some (.file c)

/-- There is a directory where the object of the large file belongs. -/
def blockedRepo : Store :=
  (∅ : Store).insert (objectPath (lit "repo") ((largeFile 0).sha1 [])) .dir

/-- The index of the large file. -/
def largeIndex : Bytes :=
  lit "name=a&perms=0&uid=0&gid=0&atime=0&ctime=0&mtime=0" ++
    lit "&sha1=0707070707070707070707070707070707070707\n[end]\n"

/-- `exists` takes the directory for the object, and the finished index names a hash for which there is
no file. -/
theorem not_namesFiles : ¬ ∀ (cfg : Config) (depth : Nat) (store hintStore : Store) (text : Bytes),
    Outside cfg → cfg.recheckhash = true → GoodObjects cfg store →
    cfg.indexfile ∈ (stateAfter (do_backup cfg depth) { store, hintStore }).written →
    (stateAfter (do_backup cfg depth) { store, hintStore }).store.lookup cfg.indexfile =
      some (.file text) → lit "[end]" ∈ text.splitOn 10 →
    NamesFiles cfg (stateAfter (do_backup cfg depth) { store, hintStore }).store text := by
  intro h
  have hgood : GoodObjects (largeFile 1000) blockedRepo := by
    intro hash c hc
    by_cases hpath : objectPath (lit "repo") hash =
        objectPath (lit "repo") ((largeFile 0).sha1 [])
    · have hdir : blockedRepo.lookup (objectPath (lit "repo") hash) = some .dir := by
        rw [hpath]
        exact AList.lookup_insert _
      rw [show objectPath (largeFile 1000).repo hash = objectPath (lit "repo") hash from rfl,
        hdir] at hc
      cases hc
    · have hnone : blockedRepo.lookup (objectPath (lit "repo") hash) = none :=
        AList.lookup_insert_ne hpath
      rw [show objectPath (largeFile 1000).repo hash = objectPath (lit "repo") hash from rfl,
        hnone] at hc
      cases hc
  have hnames := h (largeFile 1000) 1 blockedRepo ∅ largeIndex
    ⟨by unfold Under; decide +kernel⟩ rfl hgood (by decide +kernel) (by decide +kernel)
    (by decide +kernel)
  -- the entry of the file
  obtain ⟨details, hm, hv⟩ : ∃ details ∈ (entriesOf ⟨largeIndex, none⟩).1,
      details.getdetail HASH_NAME = some (lit "0707070707070707070707070707070707070707") := by
    refine ⟨((entriesOf ⟨largeIndex, none⟩).1.head?).getD Details.empty, ?_, by decide +kernel⟩
    have hone : (entriesOf ⟨largeIndex, none⟩).1.length = 1 := by decide +kernel
    obtain ⟨d, hd⟩ := List.length_eq_one_iff.mp hone
    simp [hd]
  obtain ⟨hash, c, hdecode, hc⟩ := hnames details hm _ hv
  have hseven : hashdecode (lit "0707070707070707070707070707070707070707") =
      .ok ((largeFile 0).sha1 []) := by decide +kernel
  rw [hseven] at hdecode
  cases hdecode
  have hdir : (stateAfter (do_backup (largeFile 1000) 1) { store := blockedRepo }).store.lookup
      (objectPath (lit "repo") ((largeFile 0).sha1 [])) = some .dir := by decide +kernel
  rw [show objectPath (largeFile 1000).repo _ = objectPath (lit "repo") _ from rfl, hdir] at hc
  cases hc

end Hbackup
