import Hbackup.Equiv.Objects
import Hbackup.Equiv.Source

/-!
# One backup after the other

Backups into one repository, of any trees, finished or killed, whose calls are answered from what is
there.  No object is written to that there was before, so in all of them together each is copied in at
most once (`copied_once`); and a tree that is backed up again, and has not changed, costs nothing
(`again_copies_nothing`).
-/

namespace Hbackup

open ProgramLogic

variable {cfg : Config} {repo : Bytes} {h : Hash} {s before : Store} {w w' : World}

/-! ### One backup -/

/-- What was in the place of an object is there, and no object has been written to that was there. -/
structure Untouching (cfg : Config) (before : Store) (w : World) : Prop where
  objects : ∀ h node, before.lookup (objectPath cfg.repo h) = some node →
    w.store.lookup (objectPath cfg.repo h) = some node
  written : ∀ h, objectPath cfg.repo h ∈ w.written →
    before.lookup (objectPath cfg.repo h) = none ∧
      (w.store.lookup (objectPath cfg.repo h)).isSome

theorem Untouching.congr (hu : Untouching cfg before w)
    (hstore : ∀ h, w'.store.lookup (objectPath cfg.repo h) = w.store.lookup (objectPath cfg.repo h))
    (hwritten : ∀ h, objectPath cfg.repo h ∈ w'.written → objectPath cfg.repo h ∈ w.written) :
    Untouching cfg before w' := by
  refine ⟨fun h node hnode => ?_, fun h hm => ?_⟩
  · rw [hstore]
    exact hu.objects h node hnode
  · rw [hstore]
    exact hu.written h (hwritten h hm)

theorem Untouching.sameRepo (hu : Untouching cfg before w) (ho : Outside cfg)
    (hsame : SameRepo cfg w w') : Untouching cfg before w' := by
  refine hu.congr (hsame.lookup_object ho) fun h hm => ?_
  rw [← List.count_pos_iff, hsame.written] at hm
  exact List.count_pos_iff.mp hm

/-- Copying keeps it. -/
theorem keeps_untouching (ho : Outside cfg) (hfault : Faultless cfg) (before : Store)
    (hs : Option (List (Bytes × Hint))) :
    KeepsRepo cfg hs (fun _ _ => Untouching cfg before) (Untouching cfg before) where
  weaken h := h
  congr h hsame := h.sameRepo ho hsame
  queue h _ _ := h
  add := by
    intro done queue w w' hb K h hadd
    cases hadd with
    | found _ _ honly =>
      exact h.congr (fun _ => by rw [honly.store]) fun _ hm => by rwa [honly.written] at hm
    | copied hnone hin =>
      have hnone := hnone hfault
      obtain ⟨data, -, -, hcopied⟩ := hin.copied
      refine ⟨fun hash node hnode => ?_, fun hash hm => ?_⟩
      · have hold := h.objects hash node hnode
        rwa [hcopied.lookup_object fun e => by rw [e, hnone] at hold; cases hold]
      · by_cases he : hash = hb.hash
        · subst he
          refine ⟨?_, by rw [hcopied.object]; rfl⟩
          cases hb' : before.lookup (objectPath cfg.repo hb.hash) with
          | none => rfl
          | some node =>
            rw [h.objects _ node hb'] at hnone
            cases hnone
        · rw [hcopied.lookup_object he]
          refine h.written hash ?_
          rw [hin.written, List.mem_cons, List.mem_cons] at hm
          rcases hm with hm | hm | hm
          · exact absurd (objectPath_injective hm) he
          · exact absurd hm.symm (tmp_ne_objectPath _ _ _)
          · exact hm
  scratch h hscratch := by
    refine h.congr hscratch.lookup_object fun hash hm => ?_
    exact (hscratch.written _ hm).resolve_right (tmp_ne_objectPath _ _ _).symm

/-- **However a backup ends**, it has not written to an object that was there. -/
theorem untouching_do_backup (ho : Outside cfg) (hfault : Faultless cfg) (depth : Nat)
    (store hintStore : Store) :
    Untouching cfg store (stateAfter (do_backup cfg depth) { store, hintStore }) := by
  have hstart : Untouching cfg store { store, hintStore } := by
    refine ⟨fun _ _ hnode => hnode, fun hash hm => ?_⟩
    cases hm
  refine (wp_stateAfter _ (Untouching cfg store) _).mp (wp_mono
    (wp_do_backup ho depth (I := fun _ _ => Untouching cfg store) hstart (fun _ => hstart.sameRepo ho)
      fun hs _ => keeps_untouching ho hfault store hs) ?_ ?_)
  · rintro _ w ⟨hs, es, -, -, hfin⟩
    exact hfin.repo
  · rintro _ w (⟨hstopped, -⟩ | ⟨hs, es, -, -, hending⟩)
    · exact hstopped.repo
    · exact hending.repo

/-! ### Many -/

/-- A backup into the repository, of a tree that may change; its index is not among the objects, and no
call on the backup filesystem fails. -/
structure RepoBackup (repo : Bytes) where
  cfg : Config
  depth : Nat
  hintStore : Store
  repo_eq : cfg.repo = repo
  outside : Outside cfg
  faultless : Faultless cfg

/-- A backup of a tree that does not change, with hints that are true of it if there are any. -/
structure TreeBackup (repo : Bytes) extends RepoBackup repo where
  host : Host
  unchanging : Unchanging cfg host
  hints : TruthfulHints cfg hintStore host

namespace RepoBackup

/-- The state in which it ends, or is killed. -/
def after (b : RepoBackup repo) (s : Store) : World :=
  stateAfter (do_backup b.cfg b.depth) { store := s, hintStore := b.hintStore }

/-- It has not been killed, and nothing else has stopped it. -/
def Finishes (b : RepoBackup repo) (s : Store) : Prop :=
  value? (do_backup b.cfg b.depth) { store := s, hintStore := b.hintStore } = some ()

/-- What is on the backup filesystem after all of them. -/
def afterAll (bs : List (RepoBackup repo)) (s : Store) : Store :=
  bs.foldl (fun s b => (b.after s).store) s

/-- How many of them copy an object in. -/
def timesCopied (h : Hash) : List (RepoBackup repo) → Store → Nat
  | [], _ => 0
  | b :: bs, s =>
    (if 0 < (b.after s).written.count (objectPath repo h) then 1 else 0) +
      timesCopied h bs (b.after s).store

theorem untouching (b : RepoBackup repo) (s : Store) : Untouching b.cfg s (b.after s) :=
  untouching_do_backup b.outside b.faultless b.depth s b.hintStore

/-- What is in the repository stays there. -/
theorem lookup_afterAll (bs : List (RepoBackup repo)) {node : Node}
    (hnode : s.lookup (objectPath repo h) = some node) :
    (afterAll bs s).lookup (objectPath repo h) = some node := by
  induction bs generalizing s with
  | nil => exact hnode
  | cons b bs ih =>
    have hobjects := (b.untouching s).objects h node
    rw [b.repo_eq] at hobjects
    exact ih (hobjects hnode)

/-- What is in the repository is not copied in. -/
theorem timesCopied_eq_zero (bs : List (RepoBackup repo)) {node : Node}
    (hnode : s.lookup (objectPath repo h) = some node) : timesCopied h bs s = 0 := by
  induction bs generalizing s with
  | nil => rfl
  | cons b bs ih =>
    have hu := b.untouching s
    have hobjects := hu.objects h node
    have hwritten := hu.written h
    rw [b.repo_eq] at hobjects hwritten
    rw [timesCopied, ih (hobjects hnode), if_neg]
    intro hm
    rw [(hwritten (List.count_pos_iff.mp hm)).1] at hnode
    cases hnode

end RepoBackup

open RepoBackup

/-- **Each object is copied in once**: of all the backups that are made of any trees, finished or
killed, at most one copies an object in, none if there was one at first, and what is in the repository
stays as it is. -/
theorem copied_once (repo : Bytes) (bs : List (RepoBackup repo)) (s : Store) (h : Hash) :
    timesCopied h bs s ≤ 1 ∧ ∀ node, s.lookup (objectPath repo h) = some node →
      timesCopied h bs s = 0 ∧ (afterAll bs s).lookup (objectPath repo h) = some node := by
  refine ⟨?_, fun node hnode => ⟨timesCopied_eq_zero bs hnode, lookup_afterAll bs hnode⟩⟩
  induction bs generalizing s with
  | nil => exact Nat.zero_le 1
  | cons b bs ih =>
    rw [timesCopied]
    split
    · rename_i hm
      have hwritten := (b.untouching s).written h
      rw [b.repo_eq] at hwritten
      obtain ⟨node, hnode⟩ := Option.isSome_iff_exists.mp (hwritten (List.count_pos_iff.mp hm)).2
      rw [timesCopied_eq_zero bs hnode]
    · rw [Nat.zero_add]
      exact ih _

/-- A backup of the large file, which is killed at the tick `last`. -/
def largeRun (last : Nat) : RepoBackup (lit "repo") where
  cfg := largeFile last
  depth := 1
  hintStore := ∅
  repo_eq := by rfl
  outside := ⟨show ¬ Under (objectsDir (lit "repo")) (lit "index") by unfold Under; decide +kernel⟩
  faultless := fun _ => by rfl

/-- One that is killed before it has copied the file, one that copies it, and another one. -/
theorem copied_once_largeFile :
    timesCopied ((largeFile 0).sha1 []) [largeRun 7, largeRun 1000, largeRun 1000] ∅ = 1 := by
  have hpos : 0 < timesCopied ((largeFile 0).sha1 []) [largeRun 7, largeRun 1000, largeRun 1000] ∅ := by
    decide +kernel
  have hle := (copied_once (lit "repo") [largeRun 7, largeRun 1000, largeRun 1000] ∅
    ((largeFile 0).sha1 [])).1
  omega

/-! ### The same tree again -/

/-- What has been looked for is there. -/
theorem isSome_foldl_addObject (bytes : Bytes → Bytes) {done : List Hashable}
    (hm : h ∈ done.map Hashable.hash ∨ (s.lookup (objectPath repo h)).isSome) :
    ((done.foldl (Store.addObject repo bytes) s).lookup (objectPath repo h)).isSome := by
  induction done generalizing s with
  | nil => exact hm.resolve_left List.not_mem_nil
  | cons hb done ih =>
    refine ih ?_
    by_cases hh : h = hb.hash
    · subst hh
      right
      unfold Store.addObject
      split
      · assumption
      · rw [AList.lookup_erase_ne (tmp_ne_objectPath _ _ _).symm, AList.lookup_insert]
        rfl
    · rw [lookup_addObject hh]
      rw [List.map_cons, List.mem_cons] at hm
      exact hm.imp_left fun hm => hm.resolve_left hh

/-- If all of it is there, nothing is added. -/
theorem foldl_addObject_of_isSome {bytes : Bytes → Bytes} {done : List Hashable}
    (hall : ∀ hb ∈ done, (s.lookup (objectPath repo hb.hash)).isSome) :
    done.foldl (Store.addObject repo bytes) s = s := by
  induction done with
  | nil => rfl
  | cons hb done ih =>
    rw [List.foldl_cons, Store.addObject, if_pos (hall hb List.mem_cons_self)]
    exact ih fun hb' hm => hall hb' (List.mem_cons_of_mem hb hm)

/-- What a finished backup leaves. -/
theorem TreeBackup.finished (b : TreeBackup repo) (hfinishes : b.Finishes s) :
    Finished b.cfg (Backed b.cfg b.host.bytes s)
      ((b.cfg.source b.host).entries b.depth (lit ".")) (b.after s) := by
  have hrun : do_backup b.cfg b.depth { store := s, hintStore := b.hintStore } = .ok () (b.after s) :=
    ok_of_value? hfinishes
  have hfin := wp_elim_ok (wp_do_backup_tree b.cfg (contentsHash b.cfg b.host) b.outside b.unchanging
    b.faultless b.depth fun _ hl => b.hints.hashesFrom b.unchanging hl) hrun
  exact hfin

/-- **What has been backed up costs nothing to back up again**: if a tree that has been backed up is
backed up once more, after any other backups, and with other options for the index, the hints and the
connection if so wanted, no file is copied in, the repository stays as it is, and the index is the same
as the first one. -/
theorem again_copies_nothing (repo : Bytes) (b b' : TreeBackup repo) (bs : List (RepoBackup repo))
    (s : Store) (htree : b'.cfg.source b'.host = b.cfg.source b.host) (hdepth : b'.depth = b.depth)
    (hfinishes : b.Finishes s) (hfinishes' : b'.Finishes (afterAll bs (b.after s).store)) :
    (∀ h, copies b'.cfg h (b'.after (afterAll bs (b.after s).store)) = 0) ∧
      SameObjects repo (afterAll bs (b.after s).store)
        (b'.after (afterAll bs (b.after s).store)).store ∧
      (b'.after (afterAll bs (b.after s).store)).store.lookup b'.cfg.indexfile =
        (b.after s).store.lookup b.cfg.indexfile := by
  have hfin := b.finished hfinishes
  have hfin' := b'.finished hfinishes'
  rw [htree, hdepth] at hfin'
  -- all that the index names is in the repository
  have hthere : ∀ h ∈ hashesOf ((b.cfg.source b.host).entries b.depth (lit ".")),
      ((afterAll bs (b.after s).store).lookup (objectPath repo h)).isSome := by
    intro h hm
    have hqueued : h ∈ (queueOf b.cfg [] ((b.cfg.source b.host).entries b.depth (lit "."))).map
        Hashable.hash := mem_queueOf.mpr (.inr hm)
    have hobject := hfin.repo.objects _ (under_objectsDir b.cfg.repo h)
    have hsome := hobject ▸ isSome_foldl_addObject b.host.bytes (.inl hqueued)
    rw [b.repo_eq] at hsome
    obtain ⟨node, hnode⟩ := Option.isSome_iff_exists.mp hsome
    rw [lookup_afterAll bs hnode]
    rfl
  refine ⟨fun h => ?_, ?_, hfin'.index.trans hfin.index.symm⟩
  · rw [hfin'.repo.copies h, if_neg]
    rintro ⟨hm, hnone⟩
    have hsome := hthere h ((mem_queueOf.mp hm).resolve_left List.not_mem_nil)
    rw [b'.repo_eq] at hnone
    rw [hnone] at hsome
    cases hsome
  · have hobjects := hfin'.repo.objects
    rw [foldl_addObject_of_isSome, b'.repo_eq] at hobjects
    · exact hobjects
    · intro hb hm
      rw [b'.repo_eq]
      refine hthere hb.hash ?_
      exact (mem_queueOf.mp (List.mem_map_of_mem hm)).resolve_left List.not_mem_nil

/-- The large file does not change. -/
def largeBackup : TreeBackup (lit "repo") :=
  { largeRun 1000 with
    host := ((largeFile 0).env 0).host
    unchanging := fun _ => by rfl
    hints := truthfulHints_of_nil rfl }

/-- It is backed up twice, and in between another backup is killed. -/
theorem again_largeFile :
    (∀ h, copies (largeFile 1000) h
        (largeBackup.after (afterAll [largeRun 7] (largeBackup.after ∅).store)) = 0) ∧
      SameObjects (lit "repo") (afterAll [largeRun 7] (largeBackup.after ∅).store)
        (largeBackup.after (afterAll [largeRun 7] (largeBackup.after ∅).store)).store := by
  have hfirst : largeBackup.Finishes ∅ := by
    unfold RepoBackup.Finishes
    decide +kernel
  have hsecond : largeBackup.Finishes (afterAll [largeRun 7] (largeBackup.after ∅).store) := by
    unfold RepoBackup.Finishes
    decide +kernel
  obtain ⟨hcopies, hsame, -⟩ := again_copies_nothing (lit "repo") largeBackup largeBackup [largeRun 7]
    ∅ rfl rfl hfirst hsecond
  exact ⟨hcopies, hsame⟩

end Hbackup
