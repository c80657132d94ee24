import Hbackup.Equiv.IndexText
import Hbackup.Equiv.Tree

/-!
# What a backup adds to the repository

If every call is answered from what is there and the tree does not change, the objects after a
backup are those of the initial repository, and one more for each new hash (`Backed`).  It makes no
difference that the existence probes are sent early: a run that tests for existence afresh makes the
same copies (`do_backup_copies`).
-/

namespace Hbackup

open ProgramLogic Separated

variable {cfg : Config} {w w' : World} {host : Host}

/-! ### The part of the store that holds the objects -/

/-- Below `repo/sha1` there is the same. -/
def SameObjects (repo : Bytes) (s s' : Store) : Prop :=
  ∀ q, Under (objectsDir repo) q → s'.lookup q = s.lookup q

theorem SameObjects.refl (repo : Bytes) (s : Store) : SameObjects repo s s := fun _ _ => rfl

theorem SameObjects.symm {repo : Bytes} {s s' : Store} (h : SameObjects repo s s') :
    SameObjects repo s' s := fun q hq => (h q hq).symm

theorem SameObjects.trans {repo : Bytes} {s s' s'' : Store} (h : SameObjects repo s s')
    (h' : SameObjects repo s' s'') : SameObjects repo s s'' := fun q hq => (h' q hq).trans (h q hq)

theorem SameRepo.sameObjects (h : SameRepo cfg w w') (ho : Outside cfg) :
    SameObjects cfg.repo w.store w'.store := by
  intro q hq
  refine h.store q (fun e => ho.indexfile (e ▸ hq)) fun e => ?_
  exact not_under_tmp ho.indexfile (e ▸ hq)

theorem lookup_addDir (s : Store) (d q : Bytes) :
    (s.addDir d).lookup q = if q = d ∧ s.lookup d = none then some .dir else s.lookup q := by
  unfold Store.addDir
  by_cases hq : q = d
  · subst hq
    cases hl : s.lookup q with
    | none => simp
    | some node => simp [hl]
  · split
    · simp [hq]
    · simp [hq, AList.lookup_insert_ne hq]

theorem SameObjects.addDir {repo : Bytes} {s s' : Store} (h : SameObjects repo s s') (d : Bytes) :
    SameObjects repo (s.addDir d) (s'.addDir d) := by
  intro q hq
  rw [lookup_addDir, lookup_addDir, h q hq]
  by_cases hqd : q = d
  · subst hqd
    rw [h q hq]
  · simp [hqd]

theorem SameObjects.foldl_addDir {repo : Bytes} {s s' : Store} (h : SameObjects repo s s')
    (ds : List Bytes) : SameObjects repo (ds.foldl Store.addDir s) (ds.foldl Store.addDir s') := by
  induction ds generalizing s s' with
  | nil => exact h
  | cons d ds ih => exact ih (h.addDir d)

theorem under_objectDir (repo : Bytes) (h : Hash) : Under (objectsDir repo) (objectDir repo h) := by
  obtain ⟨x, y, hp⟩ := hashpath_eq h
  have hpath : objectPath repo h = inDir (inDir (inDir (objectsDir repo) (hexByte x)) (hexByte y))
      (hexencode h.bytes) := by
    rw [objectPath, hp]
    simp [inDir]
  rw [objectDir, hpath, dirname_inDir (slash_not_mem_hexencode _), Option.getD_some]
  exact Under.trans (under_inDir (inDir (objectsDir repo) (hexByte x)) (hexByte y))

theorem SameObjects.makedirs {repo : Bytes} {s s' : Store} (h : SameObjects repo s s') (hash : Hash) :
    SameObjects repo (s.makedirs (objectDir repo hash)) (s'.makedirs (objectDir repo hash)) := by
  unfold Store.makedirs
  rw [h _ (under_objectDir repo hash)]
  split
  · exact h
  · exact h.foldl_addDir _

/-! ### What is added for a hash -/

/-- The store after `hb` has been looked for, and copied in if it was not there. -/
def Store.addObject (repo : Bytes) (bytes : Bytes → Bytes) (s : Store) (hb : Hashable) : Store :=
  if (s.lookup (objectPath repo hb.hash)).isSome then s
  else ((s.makedirs (objectDir repo hb.hash)).insert (objectPath repo hb.hash)
    (.file (bytes hb.path))).erase (tmpPath repo hb.hash)

/-- Other objects are not concerned. -/
theorem lookup_addObject {repo : Bytes} {bytes : Bytes → Bytes} {s : Store} {hb : Hashable} {h : Hash}
    (hne : h ≠ hb.hash) :
    (s.addObject repo bytes hb).lookup (objectPath repo h) = s.lookup (objectPath repo h) := by
  unfold Store.addObject
  split
  · rfl
  · rw [AList.lookup_erase_ne (tmp_ne_objectPath _ _ _).symm,
      AList.lookup_insert_ne fun e => hne (objectPath_injective e)]
    exact (deepened_objectDir s repo hb.hash).lookup (objectPath_length _ _).ge

theorem lookup_foldl_addObject {repo : Bytes} {bytes : Bytes → Bytes} {s : Store}
    {done : List Hashable} {h : Hash} (hne : h ∉ done.map Hashable.hash) :
    (done.foldl (Store.addObject repo bytes) s).lookup (objectPath repo h) =
      s.lookup (objectPath repo h) := by
  induction done generalizing s with
  | nil => rfl
  | cons hb done ih =>
    rw [List.map_cons, List.mem_cons, not_or] at hne
    rw [List.foldl_cons, ih hne.2, lookup_addObject hne.1]

/-! ### The repository after a backup -/

/-- How often the object of `h` has been copied in. -/
def copies (cfg : Config) (h : Hash) (w : World) : Nat := w.written.count (objectPath cfg.repo h)

/-- The repository is the old one with the objects of `done`, each copied in once if it is new. -/
structure Backed (cfg : Config) (bytes : Bytes → Bytes) (before : Store)
    (done queue : List Hashable) (w : World) : Prop where
  objects : SameObjects cfg.repo (done.foldl (Store.addObject cfg.repo bytes) before) w.store
  copies : ∀ h, copies cfg h w =
    if h ∈ done.map Hashable.hash ∧ before.lookup (objectPath cfg.repo h) = none then 1 else 0
  nodup : ((done ++ queue).map Hashable.hash).Nodup

theorem Backed.nil (bytes : Bytes → Bytes) (store hintStore : Store) :
    Backed cfg bytes store [] [] { store, hintStore } :=
  ⟨.refl _ _, fun h => by simp [Hbackup.copies], .nil⟩

/-- What there was in the place of an object that has not been looked for. -/
theorem Backed.lookup_object {bytes : Bytes → Bytes} {before : Store} {done queue : List Hashable}
    (h : Backed cfg bytes before done queue w) {hash : Hash} (hne : hash ∉ done.map Hashable.hash) :
    w.store.lookup (objectPath cfg.repo hash) = before.lookup (objectPath cfg.repo hash) := by
  rw [h.objects _ (under_objectsDir _ _), lookup_foldl_addObject hne]

/-- The next hash has not been looked for. -/
theorem Backed.next {bytes : Bytes → Bytes} {before : Store} {done queue : List Hashable}
    {hb : Hashable} (h : Backed cfg bytes before done (hb :: queue) w) :
    hb.hash ∉ done.map Hashable.hash ∧ ((done ++ [hb] ++ queue).map Hashable.hash).Nodup := by
  have hnodup := h.nodup
  rw [List.append_cons] at hnodup
  refine ⟨fun hm => ?_, hnodup⟩
  rw [List.map_append, List.map_append] at hnodup
  exact (List.nodup_append.mp (List.nodup_append.mp hnodup).1).2.2 _ hm hb.hash (by simp) rfl

/-- The object was there already. -/
theorem Backed.found {bytes : Bytes → Bytes} {before : Store} {done queue : List Hashable}
    {hb : Hashable} (h : Backed cfg bytes before done (hb :: queue) w)
    (hthere : (w.store.lookup (objectPath cfg.repo hb.hash)).isSome) (honly : OnlyAsked w w') :
    Backed cfg bytes before (done ++ [hb]) queue w' := by
  obtain ⟨hnew, hnodup⟩ := h.next
  refine ⟨?_, fun hash => ?_, hnodup⟩
  · rw [List.foldl_append, List.foldl_cons, List.foldl_nil, Store.addObject, if_pos, honly.store]
    · exact h.objects
    · rwa [← h.objects _ (under_objectsDir _ _)]
  · have hcopies := h.copies hash
    rw [Hbackup.copies, honly.written]
    rw [Hbackup.copies] at hcopies
    rw [hcopies]
    by_cases hh : hash = hb.hash
    · subst hh
      rw [h.lookup_object hnew] at hthere
      have hsome : before.lookup (objectPath cfg.repo hb.hash) ≠ none := fun hnone => by
        rw [hnone] at hthere
        cases hthere
      simp [hsome]
    · simp [hh]

/-- The object has been copied in. -/
theorem Backed.copied {before : Store} {done queue : List Hashable} {hb : Hashable}
    {K : Bytes → Prop} (h : Backed cfg host.bytes before done (hb :: queue) w)
    (hdata : SameData cfg host)
    (hnone : w.store.lookup (objectPath cfg.repo hb.hash) = none) (hin : CopiedIn cfg K hb w w') :
    Backed cfg host.bytes before (done ++ [hb]) queue w' := by
  obtain ⟨hnew, hnodup⟩ := h.next
  obtain ⟨data, hread, -, hcopied⟩ := hin.copied
  obtain rfl := hread.bytes hdata
  have htmp := tmp_ne_objectPath cfg.repo hb.hash hb.hash
  refine ⟨?_, fun hash => ?_, hnodup⟩
  · intro q hq
    have habsent := h.objects _ (under_objectsDir cfg.repo hb.hash)
    rw [hnone] at habsent
    rw [List.foldl_append, List.foldl_cons, List.foldl_nil, Store.addObject, if_neg (by simp [← habsent])]
    by_cases hqtmp : q = tmpPath cfg.repo hb.hash
    · rw [hqtmp, hcopied.tmp, AList.lookup_erase]
    rw [AList.lookup_erase_ne hqtmp]
    by_cases hqobj : q = objectPath cfg.repo hb.hash
    · rw [hqobj, hcopied.object, AList.lookup_insert]
    · rw [AList.lookup_insert_ne hqobj, hcopied.others q hqobj hqtmp]
      exact h.objects.makedirs hb.hash q hq
  · have hcopies := h.copies hash
    rw [Hbackup.copies] at hcopies ⊢
    rw [hin.written, List.count_cons, List.count_cons_of_ne (tmp_ne_objectPath _ _ _), hcopies]
    by_cases hh : hash = hb.hash
    · subst hh
      rw [h.lookup_object hnew] at hnone
      simp [hnew, hnone]
    · have hne : (objectPath cfg.repo hb.hash == objectPath cfg.repo hash) = false := by
        rw [beq_eq_false_iff_ne]
        exact fun e => hh (objectPath_injective e).symm
      simp [hh, hne]

/-- Copying keeps it. -/
theorem keeps_backed (ho : Outside cfg) (hdata : SameData cfg host) (hfault : Faultless cfg)
    (before : Store) (hs : Option (List (Bytes × Hint))) :
    KeepsRepo cfg hs (Backed cfg host.bytes before) (fun _ => True) where
  weaken _ := trivial
  congr h hsame := ⟨h.objects.trans (hsame.sameObjects ho),
    fun hash => (hsame.written hash).trans (h.copies hash), h.nodup⟩
  queue := by
    intro done queue w hb h hnew _
    refine ⟨h.objects, h.copies, ?_⟩
    rw [← List.append_assoc, List.map_append]
    refine List.Nodup.append h.nodup (by simp) ?_
    simpa using hnew
  add := by
    intro done queue w w' hb K h hadd
    cases hadd with
    | found hthere _ honly => exact h.found hthere honly
    | copied hnone hin => exact h.copied hdata (hnone hfault) hin
  scratch _ _ := trivial

/-! ### A whole run -/

/-- **What a finished backup of an unchanging tree leaves.** -/
theorem wp_do_backup_tree (cfg : Config) (hash : Bytes → Stat → Hash) (ho : Outside cfg)
    (hhost : Unchanging cfg host) (hfault : Faultless cfg) (depth : Nat) {store hintStore : Store}
    (hhash : ∀ hs, Loads cfg hintStore hs → HashesFrom cfg hs host hash) :
    wp (do_backup cfg depth)
      (fun _ w => Finished cfg (Backed cfg host.bytes store)
        ((cfg.tree host hash).entries depth (lit ".")) w)
      (fun _ _ => True) { store, hintStore } := by
  refine wp_mono (wp_do_backup ho depth (Backed.nil host.bytes store hintStore)
    (J := fun _ => True) (fun _ _ => trivial) fun hs _ => keeps_backed ho hhost.sameData hfault store hs) ?_
    fun _ _ _ => trivial
  rintro _ w ⟨hs, es, hloads, hwalk, hfin⟩
  rw [← hwalk.eq_tree hhost (hhash hs hloads)]
  exact hfin

/-- The hints that are loaded are determined by the hint file. -/
theorem Loads.unique {cfg' : Config} {s : Store} {hs hs' : Option (List (Bytes × Hint))}
    (h : Loads cfg s hs) (h' : Loads cfg' s hs') (hfile : cfg'.hintfile = cfg.hintfile) : hs' = hs := by
  cases h' with
  | off hoff =>
    rw [hfile] at hoff
    cases h with
    | off => rfl
    | none hon => exact absurd hoff hon
    | file hon => exact absurd hoff hon
  | none hon hnone =>
    rw [hfile] at hon hnone
    cases h with
    | off hoff => exact absurd hoff hon
    | none => rfl
    | file _ hdata =>
      rw [hnone] at hdata
      cases hdata
  | file hon hdata hread hhints =>
    rw [hfile] at hon hdata
    cases h with
    | off hoff => exact absurd hoff hon
    | none _ hnone =>
      rw [hnone] at hdata
      cases hdata
    | file _ hdata' hread' hhints' =>
      rw [hdata'] at hdata
      cases hdata
      rw [hread'] at hread
      cases hread
      have hunique : Relator.RightUnique fun (d : Details) (h : Bytes × Hint) => hintOf d = .ok h :=
        fun d h h' hd hd' => Except.ok.inj (hd.symm.trans hd')
      rw [hunique.forall₂ hhints hhints']

/-- The hash of a large file, from a hint or from its contents. -/
def hintedHash (cfg : Config) (hs : Option (List (Bytes × Hint))) (host : Host) (path : Bytes)
    (sb : Stat) : Hash := (findHint hs path sb).getD (cfg.sha1 (host.bytes path))

theorem hashesFrom_hintedHash (hhost : Unchanging cfg host) (hs : Option (List (Bytes × Hint))) :
    HashesFrom cfg hs host (hintedHash cfg hs host) := by
  rintro path sb h - - (hhint | ⟨hnone, data, hread, rfl⟩)
  · rw [hintedHash, hhint]
    rfl
  · rw [hintedHash, hnone, hread.bytes hhost.sameData]
    rfl

/-! ### Tests for existence -/

/-- Two backups have left the same index and the same objects, copied in as often. -/
structure SameBackup (cfg : Config) (w w' : World) : Prop where
  index : w'.store.lookup cfg.indexfile = w.store.lookup cfg.indexfile
  objects : SameObjects cfg.repo w.store w'.store
  copies : ∀ h, copies cfg h w' = copies cfg h w

/-- **Prefetched existence tests do not change the backup.**  Every hash that the index names is copied
in once if it was not in the repository, and no other; a run that makes its tests afresh on the same
tree leaves the same. -/
theorem do_backup_copies (cfg : Config) (depth : Nat) (store hintStore : Store) (host : Host)
    (w : World) (ho : Outside cfg) (hhost : Unchanging cfg host) (hfault : Faultless cfg)
    (hrun : do_backup cfg depth { store, hintStore } = .ok () w) :
    ∃ es, w.store.lookup cfg.indexfile = some (.file (indexText es)) ∧
      (∀ h, copies cfg h w =
        if h ∈ hashesOf es ∧ store.lookup (objectPath cfg.repo h) = none then 1 else 0) ∧
      ∀ env w', Unchanging { cfg with sftp := false, env } host →
        Faultless { cfg with sftp := false, env } →
        do_backup { cfg with sftp := false, env } depth { store, hintStore } = .ok () w' →
        SameBackup cfg w w' := by
  obtain ⟨hs, -, hloads, -, -⟩ := wp_elim_ok (wp_do_backup ho depth
    (Backed.nil host.bytes store hintStore) (J := fun _ => True) (fun _ _ => trivial)
    fun hs _ => keeps_backed ho hhost.sameData hfault store hs) hrun
  have hfin := wp_elim_ok (wp_do_backup_tree cfg (hintedHash cfg hs host) ho hhost hfault depth
    fun hs' hl => by
      rw [hloads.unique hl rfl]
      exact hashesFrom_hintedHash hhost hs) hrun
  refine ⟨_, hfin.index, fun h => ?_, fun env w' hhost' hfault' hrun' => ?_⟩
  · rw [hfin.repo.copies h]
    simp [mem_queueOf]
  · have hfin' := wp_elim_ok (wp_do_backup_tree { cfg with sftp := false, env }
      (hintedHash cfg hs host) ⟨ho.indexfile⟩ hhost' hfault' depth fun hs' hl => by
        rw [hloads.unique hl rfl]
        exact hashesFrom_hintedHash hhost' hs) hrun'
    exact ⟨hfin'.index.trans hfin.index.symm, hfin.repo.objects.symm.trans hfin'.repo.objects,
      fun h => (hfin'.repo.copies h).trans (hfin.repo.copies h).symm⟩

/-- A backup of one large file to an SFTP server that answers probes from what it found when they
arrived. -/
def earlyAnswers : Config :=
  { largeFile 1000 with sftp := true, env := fun n => { (largeFile 1000).env n with early := true } }

/-- The object is copied in once, with early answers as with fresh tests. -/
theorem copies_earlyAnswers : ∃ w w', copies earlyAnswers ⟨List.replicate HASH_SIZE 7, rfl⟩ w = 1 ∧
    SameBackup earlyAnswers w w' := by
  have hvalue : value? (do_backup earlyAnswers 1) { store := ∅, hintStore := ∅ } = some () := by
    decide +kernel
  have hcopies : copies earlyAnswers ⟨List.replicate HASH_SIZE 7, rfl⟩
      (stateAfter (do_backup earlyAnswers 1) { store := ∅, hintStore := ∅ }) = 1 := by
    decide +kernel
  have hvalue' : value? (do_backup { earlyAnswers with sftp := false, env := (largeFile 1000).env } 1)
      { store := ∅, hintStore := ∅ } = some () := by decide +kernel
  obtain ⟨w, hrun, hcopies⟩ : ∃ w, do_backup earlyAnswers 1 { store := ∅, hintStore := ∅ } =
      .ok () w ∧ copies earlyAnswers ⟨List.replicate HASH_SIZE 7, rfl⟩ w = 1 :=
    ⟨_, ok_of_value? hvalue, hcopies⟩
  obtain ⟨w', hrun'⟩ : ∃ w', do_backup { earlyAnswers with
      sftp := false, env := (largeFile 1000).env } 1 { store := ∅, hintStore := ∅ } = .ok () w' :=
    ⟨_, ok_of_value? hvalue'⟩
  obtain ⟨es, -, -, hsame⟩ := do_backup_copies earlyAnswers 1 ∅ ∅ ((largeFile 1000).env 0).host w
    ⟨by unfold Under; decide +kernel⟩ (fun _ => rfl) (fun _ => rfl) hrun
  exact ⟨w, w', hcopies, hsame (largeFile 1000).env w' (fun _ => rfl) (fun _ => rfl) hrun'⟩

end Hbackup
