import Hbackup.Equiv.VerifyRestore
import Hbackup.Script.Equiv.Backup
import Hbackup.Script.Verify

/-!
# The two programs verify alike

On one filesystem, whatever has become of the repository, the verification of the script passes exactly
if that of `do_verify` finds no error, whichever of the programs has written the index; and as long as
there is a file for every hash, the script gives as many warnings as there are errors
(`verifiers_agree`).  The script ends at the first file that it cannot read.
-/

namespace Hbackup.Script

open ProgramLogic

variable {v : Config} {s : Store} {d d' : Details} {details : Pairs} {text : Bytes} {l : List Line}

/-! ### Lines -/

/-- A line with a type, one with data, or one with a hash. -/
inductive Known (d : Details) : Prop
  | typed {type : Bytes} (type : d (lit "type") = some type)
  | data {bytes : Bytes} (type : d (lit "type") = none) (data : d (lit "data") = some bytes)
      (sha1 : d HASH_NAME = none)
  | hashed {h : Hash} (type : d (lit "type") = none) (data : d (lit "data") = none)
      (sha1 : d HASH_NAME = some (hexencode h.bytes))

/-- The lines differ in the name at most. -/
def SameContents (d d' : Details) : Prop := ∀ k, k ≠ lit "name" → d' k = d k

theorem SameContents.known (hsame : SameContents d d') (h : Known d) : Known d' := by
  have htype := hsame (lit "type") (by decide)
  have hdata := hsame (lit "data") (by decide)
  have hsha1 := hsame HASH_NAME (by decide)
  cases h with
  | typed type => exact .typed (htype.trans type)
  | data type data sha1 => exact .data (htype.trans type) (hdata.trans data) (hsha1.trans sha1)
  | hashed type data sha1 => exact .hashed (htype.trans type) (hdata.trans data) (hsha1.trans sha1)

theorem SameContents.lineBad_eq (hsame : SameContents d d') : lineBad v s d' = lineBad v s d := by
  have hhashed : Hashed d' ↔ Hashed d := by
    unfold Hashed
    rw [hsame (lit "type") (by decide), hsame (lit "data") (by decide)]
  unfold lineBad
  rw [hsame HASH_NAME (by decide), decide_eq_decide.mpr hhashed]

theorem sameContents_lineMap (line : Line) : SameContents (Details.ofList line.2) (lineMap line) :=
  fun _ hk => Details.insert_of_ne _ _ hk

/-- The names are all that is made of the lines. -/
theorem sameContents_resolveNames {dir : Bytes} {ds ls : List Details}
    (h : resolveNames dir ds = some ls) : List.Forall₂ SameContents ls ds := by
  induction ds generalizing dir ls with
  | nil =>
    cases h
    exact .nil
  | cons d ds ih =>
    rw [resolveNames] at h
    cases hname : resolveName dir (d.get (lit "name")) with
    | none => simp [hname] at h
    | some nd =>
      cases hrest : resolveNames nd.2 ds with
      | none => simp [hname, hrest] at h
      | some ls' =>
        obtain rfl : d.insert (lit "name") nd.1 :: ls' = ls := by simpa [hname, hrest] using h
        exact .cons (fun k hk => (Details.insert_of_ne _ _ hk).symm) (ih hrest)

/-! ### Written lines -/

theorem Entry.known (e : Entry) : Known (Details.ofList e.fields) := by
  have htype : Details.ofList e.fields (lit "type") = e.kind.type := e.details_type
  have hsha1 := e.details_sha1
  have hinode : ∀ k, k ≠ lit "inode" → (inodeFields e.sb).lookup k = none := by
    intro k hk
    have hne : (k == lit "inode") = false := by simpa using hk
    unfold inodeFields
    split_ifs
    · rw [List.lookup_cons, hne]
      rfl
    · rfl
  cases hk : e.kind with
  | data bytes =>
    rw [hk] at htype
    have hdata : Details.ofList e.fields (lit "data") = some bytes := by
      rw [e.lookup, Entry.fields, hk]
      rfl
    refine .data htype hdata ?_
    rw [e.lookup, Entry.fields, hk]
    exact hinode HASH_NAME (by decide)
  | sha1 h =>
    rw [hk] at htype hsha1
    refine .hashed htype ?_ hsha1
    rw [e.lookup, Entry.fields, hk]
    exact hinode (lit "data") (by decide)
  | _ =>
    rw [hk] at htype
    exact .typed htype

/-- The details of a file that can be saved are known. -/
theorem known_fieldsOf {σ : Type} {c : Setup σ} {rn : Bytes} {ls : Stat} {fields : Pairs}
    (h : fieldsOf c rn ls = some fields) : Known fun k => fields.lookup k := by
  obtain ⟨extra, hextra, rfl⟩ := Option.map_eq_some_iff.mp h
  have htype : (commonDetails rn (idName c.users.getpwuid ls.st_uid)
      (idName c.users.getgrgid ls.st_gid) ls ++ extra).lookup (lit "type") =
    extra.lookup (lit "type") := rfl
  have hdata : (commonDetails rn (idName c.users.getpwuid ls.st_uid)
      (idName c.users.getgrgid ls.st_gid) ls ++ extra).lookup (lit "data") =
    extra.lookup (lit "data") := rfl
  have hsha1 : (commonDetails rn (idName c.users.getpwuid ls.st_uid)
      (idName c.users.getgrgid ls.st_gid) ls ++ extra).lookup HASH_NAME =
    extra.lookup HASH_NAME := rfl
  unfold typeFields at hextra
  split_ifs at hextra
  · cases hextra
    exact .typed htype
  · cases hextra
    exact .typed htype
  · cases hextra
    unfold fileDetails at htype hdata hsha1
    refine .hashed (htype.trans ?_) (hdata.trans ?_) hsha1
    · split_ifs <;> rfl
    · split_ifs <;> rfl
  · cases hextra
    exact .typed htype
  · cases hextra
    exact .typed htype

/-- Every line is that of a file that can be saved. -/
theorem fieldsOf_scanned {σ : Type} {c : Setup σ} : ∀ (depth : Nat) {d : List Bytes},
    ∀ line ∈ scanned c depth d, ∃ rn ls, fieldsOf c rn ls = some line.2
  | 0, _ => fun _ hm => absurd hm List.not_mem_nil
  | depth + 1, d => by
    intro line hm
    obtain ⟨f, -, hm⟩ := List.mem_flatMap.mp hm
    unfold scannedFile at hm
    split at hm
    · cases hm
    · split at hm
      · cases hm
      · split at hm
        · cases hm
        · rename_i ls hstat _ fields hfields
          rcases List.mem_cons.mp hm with rfl | hm
          · exact ⟨_, ls, hfields⟩
          · split at hm
            · exact fieldsOf_scanned depth line hm
            · cases hm

/-- **The lines that are read** of an index that has been written. -/
theorem Written.known (h : Written text l) :
    BothRead text (l.map lineMap) ∧ ∀ d ∈ l.map lineMap, Known d := by
  cases h with
  | @backup_dir cfg host hs depth store hintStore w text outside unchanging names hints run index =>
    have hindex := (do_backup_index outside unchanging names (fun hs' hl => by
      rw [hints.unique hl rfl]
      exact hashesFrom_hintedHash unchanging hs) run).index
    rw [index] at hindex
    cases hindex
    refine ⟨bothRead_of_isIndexOf (isIndexOf_indexText
      (Tree.arranged_placed (t := cfg.tree host (hintedHash cfg hs host)) names depth)), ?_⟩
    intro d hd
    obtain ⟨line, hline, rfl⟩ := List.mem_map.mp hd
    obtain ⟨pe, -, rfl⟩ := List.mem_map.mp hline
    exact (sameContents_lineMap _).known (Entry.known pe.2)
  | @scan_files σ c depth fs s names run =>
    have hroot : Components [] := fun _ hm => absurd hm List.not_mem_nil
    have hfull := fullLine_scanned names depth hroot
    have hboth := bothRead_scanned names depth
    rw [← wp_elim_ok (wp_writeIndexFile names depth fs) run] at hboth
    refine ⟨hboth, fun d hd => ?_⟩
    obtain ⟨line, hline, rfl⟩ := List.mem_map.mp hd
    obtain ⟨rn, ls, hfields⟩ := fieldsOf_scanned depth line hline
    refine (sameContents_lineMap line).known ?_
    have hlookup : Details.ofList line.2 = fun k => line.2.lookup k :=
      funext fun k => Details.ofList_apply _ _ (hfull line hline).nodup
    rw [hlookup]
    exact known_fieldsOf hfields

/-! ### The script -/

/-- What the script reads in a file. -/
def fileContents (s : Store) (path : Bytes) : Except PyError Bytes :=
  match s.lookup path with
  | some (.file data) => .ok data
  | _ => .error .ioError

/-- The script, with the repository and the index of `v`. -/
def Checking.of (v : Config) (s : Store) : Checking where
  repo := v.repo
  index := v.indexfile
  contents := fileContents s
  sha1 := v.sha1

/-- The script gets all of a file. -/
theorem updated_eq (m f : Bytes) : updated m f = m ++ f := by
  induction m, f using updated.induct with
  | case1 m =>
    rw [updated, if_pos rfl, List.append_nil]
  | case2 m f hf ih =>
    rw [updated, if_neg hf, ih, List.append_assoc, List.take_append_drop]

/-- The repository has a name, which does not end in a slash. -/
def RepoNamed (repo : Bytes) : Prop := repo ≠ [] ∧ repo.getLast? ≠ some 47

/-- The path of an object is the same for both programs. -/
theorem hash_path_eq {repo : Bytes} (hrepo : RepoNamed repo) (h : Hash) :
    (hash_path repo HASH_NAME (hexencode h.bytes)).2 = objectPath repo h := by
  have hname : join1 repo HASH_NAME = objectsDir repo := join1_of_name (by decide) hrepo.1 hrepo.2
  have hjoin : join repo [HASH_NAME] = objectsDir repo := hname
  rw [hash_path_hexencode, hjoin]
  rfl

theorem fileContents_file {path c : Bytes} (hc : s.lookup path = some (.file c)) :
    fileContents s path = .ok c := by
  rw [fileContents, hc]

theorem fileContents_missing {path : Bytes} (hno : ∀ c, s.lookup path ≠ some (.file c)) :
    fileContents s path = .error .ioError := by
  unfold fileContents
  split
  · rename_i c hc
    exact absurd hc (hno c)
  · rfl

/-- The script reads the contents of an object. -/
theorem hexdigest_eq (hrepo : RepoNamed v.repo) (h : Hash) :
    (Checking.of v s).hexdigest (hash_path (Checking.of v s).repo HASH_NAME (hexencode h.bytes)).2 =
      match fileContents s (objectPath v.repo h) with
      | .error e => throw e
      | .ok c => pure (hexencode (v.sha1 c).bytes) := by
  change (Checking.of v s).hexdigest (hash_path v.repo HASH_NAME (hexencode h.bytes)).2 = _
  rw [hash_path_eq hrepo, Checking.hexdigest]
  simp only [updated_eq, List.nil_append]
  rfl

/-- There is a file for the hash on the line, if there is one. -/
def ObjectThere (v : Config) (s : Store) (d : Details) : Prop :=
  ∀ h, RefersTo d h → ∃ c, s.lookup (objectPath v.repo h) = some (.file c)

/-- What the script does with a line. -/
inductive Judged (v : Config) (s : Store) (d : Details) : Py Unit → Prop
  | good (good : lineBad v s d = false) : Judged v s d (pure ())
  | wrong (bad : lineBad v s d = true) (there : ObjectThere v s d) : Judged v s d warn
  | missing (bad : lineBad v s d = true) (missing : ¬ ObjectThere v s d) :
    Judged v s d (throw .ioError)

/-- **The script passes a line that is not bad**; otherwise it warns, or ends. -/
theorem judged_verify (hrepo : RepoNamed v.repo) (hknown : Known fun k => details.lookup k) :
    Judged v s (fun k => details.lookup k) (verify (.of v s) details) := by
  unfold verify
  cases hknown with
  | typed type =>
    have hgood : lineBad v s (fun k => details.lookup k) = false := by
      simp [lineBad, Hashed, type]
    rw [type]
    exact .good hgood
  | data type data sha1 =>
    have hgood : lineBad v s (fun k => details.lookup k) = false := by
      simp [lineBad, Hashed, data]
    rw [type, sha1, data]
    exact .good hgood
  | @hashed h type data sha1 =>
    have hrefers : RefersTo (fun k => details.lookup k) h :=
      ⟨⟨type, data⟩, _, sha1, hashdecode_hexencode h⟩
    have hbad : lineBad v s (fun k => details.lookup k) = !objectGood v s h :=
      lineBad_of_refersTo hrefers
    rw [type, sha1]
    dsimp only
    rw [hexdigest_eq hrepo]
    -- whether there is a file decides whether the script goes on at all
    by_cases hfile : ∃ c, s.lookup (objectPath v.repo h) = some (.file c)
    · obtain ⟨c, hc⟩ := hfile
      have hthere : ObjectThere v s fun k => details.lookup k := by
        intro h' hrefers'
        rw [hrefers'.unique hrefers]
        exact ⟨c, hc⟩
      rw [fileContents_file hc]
      dsimp only
      rw [pure_bind]
      by_cases hsame : v.sha1 c = h
      · rw [hsame, if_neg (by simp)]
        refine .good ?_
        rw [hbad, objectGood_iff.mpr ⟨c, hc, hsame⟩]
        rfl
      · have hdigits : hexencode (v.sha1 c).bytes ≠ hexencode h.bytes := by
          intro he
          have hdecode := hashdecode_hexencode (v.sha1 c)
          rw [he, hashdecode_hexencode] at hdecode
          exact hsame (Except.ok.inj hdecode).symm
        rw [if_pos hdigits]
        refine .wrong ?_ hthere
        rw [hbad, Bool.not_eq_true']
        exact not_objectGood hc hsame
    · have hmissing : ∀ c, s.lookup (objectPath v.repo h) ≠ some (.file c) :=
        fun c hc => hfile ⟨c, hc⟩
      rw [fileContents_missing hmissing]
      refine .missing ?_ fun hthere => hfile (hthere h hrefers)
      rw [hbad, Bool.not_eq_true', ← Bool.not_eq_true, objectGood_iff]
      rintro ⟨c, hc, -⟩
      exact hfile ⟨c, hc⟩

/-- A line that is read is bad. -/
abbrev badLine (v : Config) (s : Store) (details : Pairs) : Bool :=
  lineBad v s fun k => details.lookup k

/-- If there is a file for every hash, the script counts the bad lines. -/
theorem forM_verify {ds : List Pairs} {g : Globals}
    (hall : ∀ details ∈ ds, Judged v s (fun k => details.lookup k) (verify (.of v s) details))
    (hthere : ∀ details ∈ ds, ObjectThere v s fun k => details.lookup k) :
    ds.forM (verify (.of v s)) g =
      .ok ⟨⟩ { g with warnings := g.warnings + ds.countP (badLine v s) } := by
  induction ds generalizing g with
  | nil => rfl
  | cons details ds ih =>
    have hrest : ∀ g : Globals, ds.forM (verify (.of v s)) g =
        .ok ⟨⟩ { g with warnings := g.warnings + ds.countP (badLine v s) } := fun _ =>
      ih (fun d hd => hall d (List.mem_cons_of_mem _ hd)) fun d hd =>
        hthere d (List.mem_cons_of_mem _ hd)
    change (verify (.of v s) details >>= fun _ => ds.forM (verify (.of v s))) g = _
    have hline := hall details List.mem_cons_self
    have hobject := hthere details List.mem_cons_self
    generalize hverify : verify (.of v s) details = x at hline
    cases hline with
    | good hgood =>
      rw [pure_bind, hrest, List.countP_cons_of_neg (by simpa using hgood)]
    | wrong hbad _ =>
      have hcount : badLine v s details = true := hbad
      change ds.forM (verify (.of v s)) { g with warnings := g.warnings + 1 } = _
      rw [hrest, List.countP_cons_of_pos hcount]
      dsimp only
      rw [Nat.add_right_comm, Nat.add_assoc]
    | missing _ hmissing => exact absurd hobject hmissing

/-- A line is bad if there is no file for its hash. -/
theorem lineBad_of_missing (hmissing : ¬ ObjectThere v s d) : lineBad v s d = true := by
  by_contra hgood
  refine hmissing fun h hrefers => ?_
  rw [lineBad_of_refersTo hrefers, Bool.not_eq_true', Bool.not_eq_false, objectGood_iff] at hgood
  obtain ⟨c, hc, -⟩ := hgood
  exact ⟨c, hc⟩

/-- If there is no file for a hash, the script ends. -/
theorem forM_verify_error {ds : List Pairs} {g : Globals}
    (hall : ∀ details ∈ ds, Judged v s (fun k => details.lookup k) (verify (.of v s) details))
    {details : Pairs} (hmem : details ∈ ds)
    (hmissing : ¬ ObjectThere v s fun k => details.lookup k) :
    ∃ g', ds.forM (verify (.of v s)) g = .error .ioError g' := by
  induction ds generalizing g with
  | nil => cases hmem
  | cons first ds ih =>
    change ∃ g', (verify (.of v s) first >>= fun _ => ds.forM (verify (.of v s))) g = _
    have hline := hall first List.mem_cons_self
    have hrest : ∀ g : Globals, ObjectThere v s (fun k => first.lookup k) →
        ∃ g', ds.forM (verify (.of v s)) g = .error .ioError g' := by
      intro g hthere
      rcases List.mem_cons.mp hmem with rfl | hm
      · exact absurd hthere hmissing
      · exact ih (fun d hd => hall d (List.mem_cons_of_mem _ hd)) hm
    generalize hverify : verify (.of v s) first = x at hline
    cases hline with
    | good hgood =>
      refine hrest g ?_
      by_contra hno
      rw [lineBad_of_missing hno] at hgood
      cases hgood
    | wrong _ hthere => exact hrest _ hthere
    | missing _ _ => exact ⟨g, rfl⟩

/-- **The script verifies an index**: what becomes of it. -/
theorem verifyIndex_eq {ls : List Details} (hread : BothRead text ls) (hknown : ∀ d ∈ ls, Known d)
    (hrepo : RepoNamed v.repo) (hindex : s.lookup v.indexfile = some (.file text)) :
    ((∀ d ∈ ls, ObjectThere v s d) → verifyIndex (.of v s) {} =
      if ls.countP (lineBad v s) = 0 then .ok () {}
      else .error (.systemExit "%d problems found") { warnings := ls.countP (lineBad v s) }) ∧
    ((∃ d ∈ ls, ¬ ObjectThere v s d) → ∃ g, verifyIndex (.of v s) {} = .error .ioError g) := by
  obtain ⟨ds, rfl, hparse⟩ := hread.script
  have hall : ∀ details ∈ ds, Judged v s (fun k => details.lookup k) (verify (.of v s) details) :=
    fun details hm => judged_verify hrepo (hknown _ (List.mem_map_of_mem hm))
  have hverify : verifyIndex (.of v s) = parse_index (verify (.of v s)) text := by
    have hcontents : (Checking.of v s).contents (Checking.of v s).index = .ok text :=
      fileContents_file hindex
    rw [verifyIndex, hcontents]
  rw [hverify, hparse]
  constructor
  · intro hthere
    have hloop := forM_verify (g := {}) hall fun details hm => hthere _ (List.mem_map_of_mem hm)
    have hcount : ds.countP (badLine v s) =
        (ds.map fun details k => details.lookup k).countP (lineBad v s) := by
      rw [List.countP_map]
      rfl
    rw [hcount] at hloop
    rw [bind_of_ok hloop]
    dsimp only
    generalize (ds.map fun details k => details.lookup k).countP (lineBad v s) = n
    rw [Nat.zero_add]
    cases n with
    | zero => rfl
    | succ n => rfl
  · rintro ⟨d, hd, hmissing⟩
    obtain ⟨details, hm, rfl⟩ := List.mem_map.mp hd
    obtain ⟨g', herror⟩ := forM_verify_error (g := {}) hall hm hmissing
    refine ⟨g', ?_⟩
    change EStateM.bind _ _ _ = _
    rw [EStateM.bind, herror]

/-! ### Both programs -/

/-- The errors of a verification are the bad lines. -/
theorem do_verify_errors {w w' : World} {ds : List Details} (hoff : v.detectbogus = false)
    (hu : Undisturbed v) (hread : IndexRead v w ds) (hrun : do_verify v w = .ok () w') :
    w'.errors = w.errors + ds.countP (lineBad v w.store) := by
  have hstart : ({ w with clock := w.clock + 1 } : World).store = w.store ∧
      ({ w with clock := w.clock + 1 } : World).errors =
        w.errors + ([] : List Details).countP (lineBad v w.store) := ⟨rfl, rfl⟩
  have hruns := wp_do_verify (w := w) hu.truthful
    (I := fun pre w' => w'.store = w.store ∧ w'.errors = w.errors + pre.countP (lineBad v w.store))
    hstart ?_
  · obtain ⟨ds', hread', -, hcount⟩ := wp_elim_ok hruns hrun
    rw [hcount, hread.unique hread']
  · rintro pre d w₁ w₂ ⟨hstore, herrors⟩ hline
    refine ⟨(hline.store_of_off hoff).trans hstore, ?_⟩
    rw [hline.errors, hstore, herrors, List.countP_append, List.countP_singleton]
    omega

/-- The lines that `do_verify` reads are bad where those of the script are. -/
theorem indexRead_of_bothRead {ls : List Details} (hread : BothRead text ls) (hu : Undisturbed v)
    (hindex : s.lookup v.indexfile = some (.file text)) :
    ∃ ds, IndexRead v { store := s } ds ∧ List.Forall₂ SameContents ls ds := by
  obtain ⟨ds, hentries, hnames⟩ := hread.lines
  refine ⟨ds, ⟨⟨text, none⟩, ?_, hentries⟩, sameContents_resolveNames hnames⟩
  obtain ⟨-, -, hreads⟩ := hu 0
  unfold Backupfs.fileAt
  rw [hreads]
  dsimp only
  rw [hindex]

theorem countP_of_sameContents {ls ds : List Details} (h : List.Forall₂ SameContents ls ds) :
    ds.countP (lineBad v s) = ls.countP (lineBad v s) := by
  induction h with
  | nil => rfl
  | cons hsame _ ih => rw [List.countP_cons, List.countP_cons, hsame.lineBad_eq, ih]

/-- **The verifiers agree** on every index that one of the programs has written, whatever has become of
the repository.  The script passes exactly if `do_verify` finds no error; if there is a file for every
hash, there are as many warnings as errors; and otherwise the script ends with an error. -/
theorem verifiers_agree (h : Written text l) (v : Config) (s : Store)
    (hindex : s.lookup v.indexfile = some (.file text)) (hu : Undisturbed v)
    (hoff : v.detectbogus = false) (hrepo : RepoNamed v.repo) (hroot : v.root = [])
    (hname : v.indexfile ≠ []) :
    ((∃ w, do_verify v { store := s } = .ok () w ∧ w.errors = 0) ↔
      verifyIndex (.of v s) {} = .ok () {}) ∧
    (∀ w, do_verify v { store := s } = .ok () w → (∀ d ∈ l.map lineMap, ObjectThere v s d) →
      (stateAfter (verifyIndex (.of v s)) {}).warnings = w.errors) ∧
    ((∃ d ∈ l.map lineMap, ¬ ObjectThere v s d) →
      ∃ g, verifyIndex (.of v s) {} = .error .ioError g) := by
  obtain ⟨hread, hknown⟩ := h.known
  obtain ⟨ds, hds, hsame⟩ := indexRead_of_bothRead hread hu hindex
  obtain ⟨hall, hmissing⟩ := verifyIndex_eq hread hknown hrepo hindex
  have hcount := countP_of_sameContents (v := v) (s := s) hsame
  have hpasses : (∃ w, do_verify v { store := s } = .ok () w ∧ w.errors = 0) ↔
      (l.map lineMap).countP (lineBad v s) = 0 := by
    rw [verify_passes_iff hoff hu hrepo.1 hroot hname hds, ← hcount, List.countP_eq_zero]
    simp only [Bool.not_eq_true]
  refine ⟨?_, fun w hrun hthere => ?_, hmissing⟩
  · rw [hpasses]
    constructor
    · intro hzero
      -- without bad lines nothing is missing
      have hthere : ∀ d ∈ l.map lineMap, ObjectThere v s d := by
        intro d hd
        by_contra hno
        exact List.countP_eq_zero.mp hzero d hd (lineBad_of_missing hno)
      rw [hall hthere, if_pos hzero]
    · intro hrun
      by_cases hthere : ∀ d ∈ l.map lineMap, ObjectThere v s d
      · by_contra hpos
        rw [hall hthere, if_neg hpos] at hrun
        cases hrun
      · push Not at hthere
        obtain ⟨g, herror⟩ := hmissing hthere
        rw [hrun] at herror
        cases herror
  · have herrors := do_verify_errors hoff hu hds hrun
    rw [Nat.zero_add, hcount] at herrors
    rw [herrors, stateAfter, hall hthere]
    generalize (l.map lineMap).countP (lineBad v s) = n
    cases n with
    | zero => rfl
    | succ n => rfl

/-- The backup of two names of a file is verified by both programs. -/
theorem verifiers_agree_twoNames : ∃ w, do_backup (namesBackup []) 1 { store := ∅ } = .ok () w ∧
    ((∃ w', do_verify namesVerify { store := w.store } = .ok () w' ∧ w'.errors = 0) ↔
      verifyIndex (.of namesVerify w.store) {} = .ok () {}) := by
  have hbackup : value? (do_backup (namesBackup []) 1) { store := ∅ } = some () := by decide +kernel
  obtain ⟨w, hrun⟩ : ∃ w, do_backup (namesBackup []) 1 { store := ∅ } = .ok () w :=
    ⟨_, ok_of_value? hbackup⟩
  have houtside : Outside (namesBackup []) := ⟨not_under_index⟩
  obtain ⟨text, hindex⟩ := has_index houtside hrun
  have hwritten := Written.backup_dir houtside (fun _ => rfl) realFiles_twoNames.names (.off rfl) hrun
    hindex
  have hrepo : RepoNamed namesVerify.repo := by
    unfold RepoNamed
    decide
  exact ⟨w, hrun, (verifiers_agree hwritten namesVerify w.store hindex (verifies_names []).undisturbed
    rfl hrepo rfl (by decide)).1⟩

end Hbackup.Script
