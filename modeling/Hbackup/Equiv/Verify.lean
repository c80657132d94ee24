import Hbackup.Verify
import Hbackup.Equiv.DoClean

/-!
# What verification finds and repairs

One turn of the loop of `do_verify` counts an error exactly if the contents of the line are not
there, or not the right ones (`wp_verifyLine`).  With `--detect-bogus` the wrong ones are removed,
so that a hash that many lines name is wrong for the first of them and missing for the others; the
number of errors is still the number of bad lines at the start (`do_verify_repairs`).
-/

namespace Hbackup

open ProgramLogic

variable {cfg : Config} {w w' : World}

/-! ### Lines -/

/-- A regular file whose contents are not on the line. -/
def Hashed (d : Details) : Prop := d (lit "type") = none ∧ d (lit "data") = none

instance (d : Details) : Decidable (Hashed d) := inferInstanceAs (Decidable (_ ∧ _))

/-- The contents of the line are those with the hash `h`. -/
def RefersTo (d : Details) (h : Hash) : Prop :=
  Hashed d ∧ ∃ s, d HASH_NAME = some s ∧ hashdecode s = .ok h

/-- In the place of the object there is a file with the right contents. -/
def objectGood (cfg : Config) (s : Store) (h : Hash) : Bool :=
  match s.lookup (objectPath cfg.repo h) with
  | some (.file c) => cfg.sha1 c = h
  | _ => false

/-- The line has no known hash, or the contents it names are missing or wrong. -/
def lineBad (cfg : Config) (s : Store) (d : Details) : Bool :=
  decide (Hashed d) &&
    match d HASH_NAME with
    | none => true
    | some hash =>
      match hashdecode hash with
      | .error _ => true
      | .ok h => !objectGood cfg s h

theorem objectGood_iff {s : Store} {h : Hash} : objectGood cfg s h = true ↔
    ∃ c, s.lookup (objectPath cfg.repo h) = some (.file c) ∧ cfg.sha1 c = h := by
  unfold objectGood
  split
  · rename_i c hc
    rw [hc]
    simp
  · rename_i hno
    exact iff_of_false (by simp) fun ⟨c, hc, _⟩ => hno c hc

theorem lineBad_of_refersTo {s : Store} {d : Details} {h : Hash} (hd : RefersTo d h) :
    lineBad cfg s d = !objectGood cfg s h := by
  obtain ⟨hhashed, hash, hs, hdecode⟩ := hd
  simp [lineBad, hhashed, hs, hdecode]

/-! ### One line -/

/-- The error `ENOENT` is given for what is not there, and for nothing else. -/
def TruthfulErrors (cfg : Config) : Prop :=
  ∀ n, (cfg.env n).fault ≠ some ENOENT ∧
    ∀ path fault, (cfg.env n).reads path = some fault → fault.errno ≠ ENOENT

/-- Every call succeeds that can, and the process is not killed. -/
def Undisturbed (cfg : Config) : Prop :=
  ∀ n, (cfg.env n).killed = false ∧ (cfg.env n).fault = none ∧ ∀ path, (cfg.env n).reads path = none

/-- The contents of a file of the backup filesystem are read to their end, or an error is given. -/
theorem wp_hashBackupFile (ht : TruthfulErrors cfg) (path : Bytes) (w : World) :
    wp (hashBackupFile cfg path)
      (fun h w' => w' = { w with clock := w.clock + 1 } ∧
        ∃ c, w.store.lookup path = some (.file c) ∧ h = cfg.sha1 c)
      (fun stop w' => w' = { w with clock := w.clock + 1 } ∧
        (∀ doing p, stop = .exn (.fileError doing p ENOENT) → w.store.lookup path = none) ∧
        (Undisturbed cfg → ∀ c, w.store.lookup path ≠ some (.file c))) w := by
  rw [hashBackupFile, wp_bind, Backupfs.openRead, wp_bind, wp_tick]
  split_ifs with hk
  · exact ⟨rfl, by simp, fun hu => by rw [(hu w.clock).1] at hk; cases hk⟩
  rw [wp_bind, wp_get, wp_liftExcept, Backupfs.fileAt]
  have htruth := (ht w.clock).2 path
  have hquiet : Undisturbed cfg → (cfg.env w.clock).reads path = none := fun hu => (hu _).2.2 path
  dsimp only
  -- the moment may have a fault for the path; without one the store decides
  cases hreads : (cfg.env w.clock).reads path with
  | some fault =>
    rw [hreads] at htruth hquiet
    have hno : Undisturbed cfg → ∀ c, w.store.lookup path ≠ some (.file c) := fun hu => by
      cases hquiet hu
    have hne := htruth fault rfl
    obtain ⟨after, e⟩ := fault
    cases after with
    | none => exact ⟨rfl, by simpa using fun h => absurd h hne, hno⟩
    | some n =>
      cases hl : w.store.lookup path with
      | none => exact ⟨rfl, fun _ _ _ => rfl, by simp⟩
      | some node =>
        cases node with
        | file c =>
          rw [hl] at hno
          exact ⟨rfl, by simpa using fun h => absurd h hne, hno⟩
        | dir => exact ⟨rfl, by simp [EISDIR, ENOENT], by simp⟩
        | other => exact ⟨rfl, by simp [EACCES, ENOENT], by simp⟩
  | none =>
    cases hl : w.store.lookup path with
    | none => exact ⟨rfl, fun _ _ _ => rfl, by simp⟩
    | some node =>
      cases node with
      | file c => exact ⟨rfl, c, rfl, rfl⟩
      | dir => exact ⟨rfl, by simp [EISDIR, ENOENT], by simp⟩
      | other => exact ⟨rfl, by simp [EACCES, ENOENT], by simp⟩

/-- What becomes of an object that a line names. -/
inductive Checked (cfg : Config) (h : Hash) (w : World) : World → Prop
  | good {c : Bytes} (hfile : w.store.lookup (objectPath cfg.repo h) = some (.file c))
      (hgood : cfg.sha1 c = h) : Checked cfg h w { w with clock := w.clock + 1 }
  | missing (hnone : w.store.lookup (objectPath cfg.repo h) = none) :
      Checked cfg h w { w with clock := w.clock + 1, errors := w.errors + 1 }
  | wrong {c : Bytes} (hfile : w.store.lookup (objectPath cfg.repo h) = some (.file c))
      (hbad : cfg.sha1 c ≠ h) (hoff : cfg.detectbogus = false) :
      Checked cfg h w { w with clock := w.clock + 1, errors := w.errors + 1 }
  | removed {c : Bytes} (hfile : w.store.lookup (objectPath cfg.repo h) = some (.file c))
      (hbad : cfg.sha1 c ≠ h) (hon : cfg.detectbogus = true) :
      Checked cfg h w { w with
        clock := w.clock + 2
        errors := w.errors + 1
        store := w.store.erase (objectPath cfg.repo h)
        removed := objectPath cfg.repo h :: w.removed }

theorem wp_checkObject (ht : TruthfulErrors cfg) (h : Hash) (w : World) :
    wp (checkObject cfg h) (fun _ w' => Checked cfg h w w')
      (fun _ _ => Undisturbed cfg → objectGood cfg w.store h = false) w := by
  have hnot : (∀ c, w.store.lookup (objectPath cfg.repo h) ≠ some (.file c)) →
      objectGood cfg w.store h = false := fun hno => by
    rw [← Bool.not_eq_true, objectGood_iff]
    exact fun ⟨c, hc, _⟩ => hno c hc
  rw [checkObject, wp_tryCatch, wp_bind]
  refine wp_mono (wp_hashBackupFile ht _ w) ?_ ?_
  · rintro h' w₁ ⟨rfl, c, hc, rfl⟩
    rw [wp_ite]
    split
    · rename_i heq
      exact .good hc heq.symm
    rename_i heq
    have hbad : cfg.sha1 c ≠ h := Ne.symm heq
    have hno : objectGood cfg w.store h = false := by
      rw [← Bool.not_eq_true, objectGood_iff]
      rintro ⟨c', hc', hgood⟩
      rw [hc] at hc'
      cases hc'
      exact hbad hgood
    rw [wp_bind, wp_error, wp_ite]
    split
    · rename_i hon
      refine wp_mono (wp_remove_file cfg _ c _ hc) ?_ ?_
      · rintro _ w₂ rfl
        exact .removed hc hbad hon
      · -- a failing `remove` is not taken for a missing file
        rintro stop w₂ ⟨rfl, rfl | ⟨e, hfault, rfl⟩, -⟩
        · exact fun _ => hno
        · rw [wp_ite, if_neg]
          · exact fun _ => hno
          · rintro rfl
            exact (ht _).1 hfault
    · rename_i hoff
      exact .wrong hc hbad (by simpa using hoff)
  · rintro stop w₁ ⟨rfl, hmissing, hundisturbed⟩
    have hE : Undisturbed cfg → objectGood cfg w.store h = false := fun hu => hnot (hundisturbed hu)
    split
    · rename_i doing p e
      rw [wp_ite]
      split
      · rename_i he
        subst he
        exact .missing (hmissing _ _ rfl)
      · exact hE
    · exact hE

/-- What a turn of the loop does. -/
inductive LineChecked (cfg : Config) (d : Details) (w : World) : World → Prop
  | skip (hd : ¬ Hashed d) : LineChecked cfg d w w
  | unknown (hd : Hashed d) (hnone : d HASH_NAME = none) :
      LineChecked cfg d w { w with errors := w.errors + 1 }
  | object {h : Hash} {w' : World} (hd : RefersTo d h) (hc : Checked cfg h w w') :
      LineChecked cfg d w w'

/-- **One turn of the loop.** -/
theorem wp_verifyLine (ht : TruthfulErrors cfg) (d : Details) (w : World) :
    wp (verifyLine cfg d) (fun _ w' => LineChecked cfg d w w')
      (fun _ _ => Undisturbed cfg → lineBad cfg w.store d = true) w := by
  unfold verifyLine Details.getdetail
  cases htype : d (lit "type") with
  | some type => exact .skip fun hd => absurd (htype.symm.trans hd.1) (by simp)
  | none =>
    cases hdata : d (lit "data") with
    | some data => exact .skip fun hd => absurd (hdata.symm.trans hd.2) (by simp)
    | none =>
      have hd : Hashed d := ⟨htype, hdata⟩
      cases hhash : d HASH_NAME with
      | none => exact .unknown hd hhash
      | some hash =>
        simp only [wp_bind, wp_liftExcept]
        cases hdecode : hashdecode hash with
        | error e =>
          intro _
          simp [lineBad, hd, hhash, hdecode]
        | ok h =>
          have hrefers : RefersTo d h := ⟨hd, hash, hhash, hdecode⟩
          refine wp_mono (wp_checkObject ht h w) (fun _ _ hc => .object hrefers hc) ?_
          intro _ _ hbad hu
          rw [lineBad_of_refersTo hrefers, hbad hu]
          rfl

theorem RefersTo.unique {d : Details} {h h' : Hash} (hd : RefersTo d h) (hd' : RefersTo d h') :
    h = h' := by
  obtain ⟨-, s, hs, hdecode⟩ := hd
  obtain ⟨-, s', hs', hdecode'⟩ := hd'
  rw [hs] at hs'
  cases hs'
  exact Except.ok.inj (hdecode.symm.trans hdecode')

theorem not_objectGood {s : Store} {h : Hash} {c : Bytes}
    (hfile : s.lookup (objectPath cfg.repo h) = some (.file c)) (hbad : cfg.sha1 c ≠ h) :
    objectGood cfg s h = false := by
  simp [objectGood, hfile, hbad]

/-- **An error is counted for a bad line**, and for no other. -/
theorem LineChecked.errors {d : Details} (h : LineChecked cfg d w w') :
    w'.errors = w.errors + if lineBad cfg w.store d then 1 else 0 := by
  cases h with
  | skip hd => simp [lineBad, hd]
  | unknown hd hnone => simp [lineBad, hd, hnone]
  | object hd hc =>
    rw [lineBad_of_refersTo hd]
    cases hc with
    | good hfile hgood => simp [objectGood_iff.mpr ⟨_, hfile, hgood⟩]
    | missing hnone => simp [objectGood, hnone]
    | wrong hfile hbad => simp [not_objectGood hfile hbad]
    | removed hfile hbad => simp [not_objectGood hfile hbad]

/-- Nothing is removed but the object that the line names, and only if it is bad. -/
theorem LineChecked.store {d : Details} (h : LineChecked cfg d w w') :
    w'.store = w.store ∨ ∃ h, RefersTo d h ∧ objectGood cfg w.store h = false ∧
      w'.store = w.store.erase (objectPath cfg.repo h) := by
  cases h with
  | skip hd => exact .inl rfl
  | unknown hd hnone => exact .inl rfl
  | object hd hc =>
    cases hc with
    | good hfile hgood => exact .inl rfl
    | missing hnone => exact .inl rfl
    | wrong hfile hbad => exact .inl rfl
    | removed hfile hbad => exact .inr ⟨_, hd, not_objectGood hfile hbad, rfl⟩

/-- With `--detect-bogus` the object of the line is then missing or right. -/
theorem LineChecked.object_good {d : Details} (h : LineChecked cfg d w w')
    (hon : cfg.detectbogus = true) {hash : Hash} (hd : RefersTo d hash) :
    w'.store.lookup (objectPath cfg.repo hash) = none ∨ objectGood cfg w'.store hash = true := by
  cases h with
  | skip hd' => exact absurd hd.1 hd'
  | unknown hd' hnone =>
    obtain ⟨-, s, hs, -⟩ := hd
    rw [hnone] at hs
    cases hs
  | object hd' hc =>
    obtain rfl := hd.unique hd'
    cases hc with
    | good hfile hgood => exact .inr (objectGood_iff.mpr ⟨_, hfile, hgood⟩)
    | missing hnone => exact .inl hnone
    | wrong hfile hbad hoff =>
      rw [hon] at hoff
      cases hoff
    | removed hfile hbad => exact .inl (AList.lookup_erase _ _)

/-! ### All lines -/

/-- What verification with `--detect-bogus` has done after the lines `ds`. -/
structure Repaired (cfg : Config) (ds : List Details) (w w' : World) : Prop where
  objects : ∀ d ∈ ds, ∀ h, RefersTo d h →
    w'.store.lookup (objectPath cfg.repo h) = none ∨ objectGood cfg w'.store h = true
  others : ∀ path, w'.store.lookup path = w.store.lookup path ∨
    w'.store.lookup path = none ∧ ∃ d ∈ ds, ∃ h, RefersTo d h ∧ path = objectPath cfg.repo h ∧
      objectGood cfg w.store h = false
  errors : w'.errors = w.errors + ds.countP (lineBad cfg w.store)

/-- An object is as good as it was, if it is good or was good. -/
theorem Repaired.objectGood_eq {ds : List Details} (h : Repaired cfg ds w w') (hash : Hash) :
    objectGood cfg w'.store hash = objectGood cfg w.store hash := by
  unfold objectGood
  rcases h.others (objectPath cfg.repo hash) with he | ⟨hnone, d, -, h', -, hpath, hbad⟩
  · rw [he]
  · obtain rfl := objectPath_injective hpath
    rw [hnone]
    exact hbad.symm

theorem Repaired.lineBad_eq {ds : List Details} (h : Repaired cfg ds w w') (d : Details) :
    lineBad cfg w'.store d = lineBad cfg w.store d := by
  unfold lineBad
  simp only [h.objectGood_eq]

/-- **One more line.** -/
theorem Repaired.snoc {ds : List Details} {w'' : World} {d : Details} (h : Repaired cfg ds w w')
    (hon : cfg.detectbogus = true) (hd : LineChecked cfg d w' w'') :
    Repaired cfg (ds ++ [d]) w w'' := by
  have hmem : ∀ {d'}, d' ∈ ds → d' ∈ ds ++ [d] := fun hm => List.mem_append_left _ hm
  refine ⟨fun d' hm hash hrefers => ?_, fun path => ?_, ?_⟩
  · rcases List.mem_append.mp hm with hm | hm
    · -- the object of an earlier line is removed only if it is that of this line
      rcases hd.store with he | ⟨h', hrefers', -, he⟩
      · rw [he]
        exact h.objects d' hm hash hrefers
      · by_cases hh : hash = h'
        · exact hd.object_good hon (hh ▸ hrefers')
        · have hne : objectPath cfg.repo hash ≠ objectPath cfg.repo h' :=
            fun e => hh (objectPath_injective e)
          rw [he, objectGood, AList.lookup_erase_ne hne]
          exact h.objects d' hm hash hrefers
    · obtain rfl := List.mem_singleton.mp hm
      exact hd.object_good hon hrefers
  · rcases hd.store with he | ⟨h', hrefers', hbad, he⟩
    · rw [he]
      rcases h.others path with ho | ⟨hnone, d', hm, ho⟩
      · exact .inl ho
      · exact .inr ⟨hnone, d', hmem hm, ho⟩
    · rw [he]
      by_cases hpath : path = objectPath cfg.repo h'
      · rw [h.objectGood_eq] at hbad
        exact .inr ⟨hpath ▸ AList.lookup_erase _ _, d, by simp, h', hrefers', hpath, hbad⟩
      · rw [AList.lookup_erase_ne hpath]
        rcases h.others path with ho | ⟨hnone, d', hm, ho⟩
        · exact .inl ho
        · exact .inr ⟨hnone, d', hmem hm, ho⟩
  · rw [hd.errors, h.errors, h.lineBad_eq, List.countP_append, List.countP_singleton, Nat.add_assoc]

/-- `f` is what the index is read from, to its end. -/
def IndexRead (cfg : Config) (w : World) (ds : List Details) : Prop :=
  ∃ f, Backupfs.fileAt (cfg.env w.clock).reads w.store cfg.indexfile = .ok f ∧
    entriesOf f = (ds, none)

/-- The loop of `do_verify` keeps what every line keeps.  If nothing disturbs it, it stops before the
end of a good index only at a bad line. -/
theorem wp_do_verify (ht : TruthfulErrors cfg) {I : List Details → World → Prop}
    (hI : I [] { w with clock := w.clock + 1 })
    (hstep : ∀ pre d w₁ w₂, I pre w₁ → LineChecked cfg d w₁ w₂ → I (pre ++ [d]) w₂) :
    wp (do_verify cfg) (fun _ w' => ∃ ds, IndexRead cfg w ds ∧ I ds w')
      (fun _ _ => Undisturbed cfg → cfg.repo ≠ [] → cfg.root = [] → cfg.indexfile ≠ [] →
        ∀ ds, IndexRead cfg w ds → ∃ pre d post w₁, ds = pre ++ d :: post ∧ I pre w₁ ∧
          lineBad cfg w₁.store d = true) w := by
  rw [do_verify]
  simp only [wp_bind, wp_ite, wp_fatal]
  split
  · exact fun _ hrepo => absurd ‹_› hrepo
  split
  · exact fun _ _ hroot => absurd hroot ‹_›
  split
  · exact fun _ _ _ hindex => absurd ‹_› hindex
  rw [Backupfs.openRead, wp_bind, wp_tick]
  split
  · rename_i hk
    exact fun hu => absurd (hu w.clock).1 (by simp [hk])
  rw [wp_bind, wp_get, wp_liftExcept]
  dsimp only
  cases hf : Backupfs.fileAt (cfg.env w.clock).reads w.store cfg.indexfile with
  | error e =>
    rintro - - - - ds ⟨f, hf', -⟩
    rw [hf] at hf'
    cases hf'
  | ok f =>
    -- the index that is read is the one on the filesystem
    have hread : ∀ {ds}, IndexRead cfg w ds → entriesOf f = (ds, none) := by
      rintro ds ⟨f', hf', hds⟩
      rw [hf] at hf'
      cases hf'
      exact hds
    dsimp only
    rw [whileReadIndexLine_eq_entriesOf, wp_bind]
    -- the lines one by one; the run may stop at one that is bad
    refine wp_mono (wp_forM I (fun pre d post w₁ hl hpre => ?_) hI) ?_ (fun _ _ h => h)
    · refine wp_mono (wp_verifyLine ht d w₁) (fun _ w₂ hd => hstep pre d w₁ w₂ hpre hd) ?_
      intro _ _ hbad hu _ _ _ ds hds
      refine ⟨pre, d, post, w₁, ?_, hpre, hbad hu⟩
      rw [← hl, hread hds]
    · intro _ w' hall
      cases hend : (entriesOf f).2 with
      | none => exact ⟨_, ⟨f, hf, Prod.ext rfl hend⟩, hall⟩
      | some e =>
        rintro - - - - ds hds
        rw [hread hds] at hend
        cases hend

/-- **Verification with `--detect-bogus`**, whenever it returns: every object that the index names is
missing or right; only objects that the index names have been removed, and no good ones; and the
errors are as many as there were bad lines at the start. -/
theorem do_verify_repairs (cfg : Config) (w w' : World) (hon : cfg.detectbogus = true)
    (ht : TruthfulErrors cfg) (hrun : do_verify cfg w = .ok () w') :
    ∃ ds, IndexRead cfg w ds ∧ Repaired cfg ds w w' := by
  have hinit : Repaired cfg [] w { w with clock := w.clock + 1 } := ⟨by simp, fun _ => .inl rfl, rfl⟩
  exact wp_elim_ok (wp_do_verify ht hinit fun _ _ _ _ hpre hd => hpre.snoc hon hd) hrun

/-- An index that names the same wrong object twice. -/
def wrongTwice : World where
  store := [
    ⟨objectPath (lit "r") ⟨List.replicate 20 0, rfl⟩, .file (lit "abc")⟩,
    ⟨lit "i", .file (lit "name=a&sha1=0000000000000000000000000000000000000000\n" ++
      lit "name=b&sha1=0000000000000000000000000000000000000000\n[end]\n")⟩].toAList

theorem truthfulErrors_abc : TruthfulErrors { abcConfig with indexfile := lit "i" } := by
  refine fun n => ⟨by simp [abcConfig], fun path fault hfault => ?_⟩
  have hfault : (if path = objectPath (lit "r") abcHash then some ⟨none, EACCES⟩ else none) =
      some fault := hfault
  split at hfault
  · cases hfault
    decide
  · cases hfault

/-- Two errors are counted, and the object is gone. -/
theorem repairs_wrongTwice : ∃ ds w', w'.errors = 2 ∧ w'.store.keys = [lit "i"] ∧
    IndexRead { abcConfig with indexfile := lit "i" } wrongTwice ds ∧
    Repaired { abcConfig with indexfile := lit "i" } ds wrongTwice w' := by
  have hrun : value? (do_verify { abcConfig with indexfile := lit "i" }) wrongTwice = some () := by
    decide +kernel
  obtain ⟨ds, hds, hrepaired⟩ := do_verify_repairs { abcConfig with indexfile := lit "i" }
    wrongTwice _ rfl truthfulErrors_abc (ok_of_value? hrun)
  exact ⟨ds, _, by decide +kernel, by decide +kernel, hds, hrepaired⟩

end Hbackup
