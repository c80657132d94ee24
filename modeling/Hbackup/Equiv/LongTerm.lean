import Hbackup.Equiv.History
import Hbackup.Equiv.RoundTrip
import Hbackup.Equiv.VerifyRestore

/-!
# What is kept can be restored

Whatever has been done with a repository since a backup was made, the backup can be restored as long
as its index has been kept (`restored_at_any_time`), and verification finds nothing wrong with any
index that is kept (`verified_at_any_time`).
-/

namespace Hbackup

open ContentStore ProgramLogic

variable {cfg v r : Config} {host : Host} {repo : Bytes} {sha1 : Bytes → Hash} {depth : Nat}
  {s store hintStore : Store} {w : World} {target : Target} {H H' : Holdings}

/-! ### Verification -/

/-- **Verification finds no error at any time** in an index that is kept, if nothing disturbs it. -/
theorem verified_at_any_time (repo : Bytes) (sha1 : Bytes → Hash) (s : Store) (H : Holdings)
    (v : Config)
    (hrepo : ∀ h node, s.lookup (objectPath repo h) = some node → ∃ c, node = .file c ∧ sha1 c = h)
    (hhistory : Holdings.Follows repo sha1 ⟨s, []⟩ H) (hlive : v.indexfile ∈ H.live)
    (hserves : Serves v repo sha1) (hoff : v.detectbogus = false) (hu : Undisturbed v)
    (hgiven : v.repo ≠ []) (hroot : v.root = []) (hindex : v.indexfile ≠ []) :
    ∃ w, do_verify v { store := H.store } = .ok () w ∧ w.errors = 0 := by
  obtain ⟨rfl, rfl⟩ := hserves
  obtain ⟨hi, hsound⟩ := hhistory.sound hrepo
  obtain ⟨es, hes, hobjects⟩ := hi.whole hsound hlive
  have hread : IndexRead v { store := H.store } (es.map Entry.details) := by
    refine ⟨⟨indexText es, none⟩, ?_, entriesOf_indexText es⟩
    unfold Backupfs.fileAt
    rw [(hu _).2.2, hes]
  refine (verify_passes_iff hoff hu hgiven hroot hindex hread).mpr fun d hd => ?_
  obtain ⟨e, he, rfl⟩ := List.mem_map.mp hd
  exact e.lineBad_eq_false.mpr fun h hk => objectGood_iff.mpr (hobjects e he h hk)

/-- The backup of the file with two names, and another one that is killed. -/
theorem verified_twoNames : ∃ H : Holdings,
    Holdings.Follows (lit "repo") firstHash ⟨∅, []⟩ H ∧
      ∃ w, do_verify namesVerify { store := H.store } = .ok () w ∧ w.errors = 0 := by
  have hbackup : value? (do_backup (namesBackup []) 1) { store := ∅ } = some () := by decide +kernel
  obtain ⟨w, hrun⟩ : ∃ w, do_backup (namesBackup []) 1 { store := ∅ } = .ok () w :=
    ⟨_, ok_of_value? hbackup⟩
  have hfirst := Holdings.Next.first ⟨not_under_index⟩ rfl hrun
  have hspares : Spares { largeFile 9 with indexfile := lit "second", sha1 := firstHash }
      [lit "index"] := ⟨.inl (by decide +kernel), by decide +kernel⟩
  obtain ⟨H, hnext, hlive⟩ := Holdings.Next.of_backup (H := ⟨w.store, [lit "index"]⟩)
    { largeFile 9 with indexfile := lit "second", sha1 := firstHash } ⟨rfl, rfl⟩
    ⟨by unfold Under; decide +kernel⟩ rfl hspares 1
  have hindex : lit "index" ∈ H.live := by
    rcases hlive with h | h
    · simp [h]
    · simp [h]
  have hhistory := (Relation.ReflTransGen.single hfirst).tail hnext
  refine ⟨H, hhistory, verified_at_any_time _ _ ∅ H namesVerify (fun _ _ h => by cases h) hhistory
    hindex ⟨rfl, rfl⟩ rfl (verifies_names []).undisturbed (by decide) rfl (by decide)⟩

/-! ### Restoring -/

namespace Holdings

/-- Something happens, and the index `name` is kept. -/
def Keeping (repo : Bytes) (sha1 : Bytes → Hash) (name : Bytes) (H H' : Holdings) : Prop :=
  Next repo sha1 H H' ∧ name ∈ H.live ∧ name ∈ H'.live

/-- While an index is kept it is the same. -/
theorem same_index_of_keeping {name : Bytes} (hi : H.WellKept repo sha1)
    (hname : name ∈ H.live) (h : Relation.ReflTransGen (Keeping repo sha1 name) H H') :
    Follows repo sha1 H H' ∧ name ∈ H'.live ∧ H'.store.lookup name = H.store.lookup name := by
  induction h with
  | refl => exact ⟨.refl, hname, rfl⟩
  | tail _ hlast ih =>
    obtain ⟨hnext, hlive, hlive'⟩ := hlast
    obtain ⟨hfollows, -, hsame⟩ := ih
    have hi' := (hfollows.runs hi).1
    exact ⟨hfollows.tail hnext, hlive', (hnext.same_index hi' hlive hlive').trans hsame⟩

end Holdings

/-- **What has been backed up is there later**: the objects may have been there before, or may be
those that the backup has made. -/
theorem HoldsTree.later (h : HoldsTree cfg host depth store s) {s' : Store}
    (hindex : s'.lookup cfg.indexfile = s.lookup cfg.indexfile)
    (hobjects : ∀ e ∈ ((cfg.source host).placed depth).map Prod.snd, ∀ hash, e.kind = .sha1 hash →
      (s'.lookup (objectPath cfg.repo hash)).isSome) : HoldsTree cfg host depth s' s' where
  index := hindex.trans h.index
  within := h.within
  contents := h.contents
  repo := by
    refine ⟨fun _ _ hnode => .inl hnode, fun hb hm => ?_⟩
    obtain ⟨e, he, -, hk⟩ := (queueOf_spec hm).resolve_left List.not_mem_nil
    exact hobjects e he hb.hash hk

/-- All contents are those that there were, and those of the tree. -/
theorem HoldsTree.allContents_subset (h : HoldsTree cfg host depth store s) :
    allContents cfg s host ⊆ allContents cfg store host := by
  rintro c (⟨hash, hc⟩ | htree)
  · rcases h.repo.objects hash _ hc with hold | ⟨hb, -, -, hnode⟩
    · exact .inl ⟨hash, hold⟩
    · exact .inr ⟨hb.path, (Node.file.inj hnode).symm⟩
  · exact .inr htree

/-- **A tree that is held can be restored.** -/
theorem HoldsTree.restores (h : HoldsTree cfg host depth store w.store)
    (hs : Starts cfg host store hintStore) (hr : Restores cfg r target)
    (hplain : (cfg.source host).Plain) (howners : OwnersResolve (cfg.source host) r)
    (hgiven : r.toOptions.Given) (hsmooth : Smooth r) (hperm : r.permissions = true) :
    ∃ w', do_restore r { store := w.store, target } = .ok () w' ∧ w'.errors = 0 ∧
      SameTree (cfg.source host) r w'.target := by
  obtain ⟨hrepo, hroot, hindex⟩ := hgiven
  have hreturns : wp (do_restore r)
      (fun _ w' => RestoredTree r ((cfg.source host).placed depth) { store := w.store, target } w')
      (fun _ _ => False) { store := w.store, target } := by
    refine wp_mono (h.wp_do_restore hs.real.names hr rfl) (fun _ _ hw => hw) fun _ _ hstop => ?_
    -- every object is there and every owner is known
    obtain ⟨pe, hm, -, hlacking⟩ := hstop hsmooth hrepo hroot hindex
    refine h.not_lacking hs.real.names howners hm ?_ hlacking
    intro hash hk
    rw [hr.repo]
    exact ⟨_, h.object hs.real hs.repo hs.collisions hm hk⟩
  obtain ⟨_, w', hrun, hw⟩ := wp_returns hreturns
  refine ⟨w', hrun, hw.errors fun pe hm => (h.entry_present hs hplain hm).2.2, ?_⟩
  refine RestoredTree.sameTree hs hplain ?_ hr hw hperm
  exact h

/-- **A backup can be restored at any time**: a tree has been backed up, and since then there have been
any number of backups, verifications, cleanups and restores, wherever they have stopped, throughout
which its index was to be kept; then restoring it gives the tree back. -/
theorem restored_at_any_time (cfg r : Config) (host : Host) (depth : Nat) (store hintStore : Store)
    (w : World) (H : Holdings) (target : Target) (hs : Starts cfg host store hintStore)
    (hrecheck : cfg.recheckhash = true)
    (hbackup : do_backup cfg depth { store, hintStore } = .ok () w)
    (hlater : Relation.ReflTransGen (Holdings.Keeping cfg.repo cfg.sha1 cfg.indexfile)
      ⟨w.store, [cfg.indexfile]⟩ H)
    (hcollisions : Set.InjOn cfg.sha1 (allContents cfg H.store host))
    (hr : Restores cfg r target) (hplain : (cfg.source host).Plain)
    (howners : OwnersResolve (cfg.source host) r) (hgiven : r.toOptions.Given) (hsmooth : Smooth r)
    (hperm : r.permissions = true) :
    ∃ w', do_restore r { store := H.store, target } = .ok () w' ∧ w'.errors = 0 ∧
      SameTree (cfg.source host) r w'.target := by
  have h := do_backup_holds hs.outside hs.unchanging hs.real hs.hints hbackup
  have hfirst := Holdings.Next.first hs.outside hrecheck hbackup
  obtain ⟨hi₁, -⟩ := Holdings.Follows.sound (.single hfirst) hs.repo
  obtain ⟨hfollows, hlive, hsame⟩ :=
    Holdings.same_index_of_keeping hi₁ (List.mem_singleton_self cfg.indexfile) hlater
  obtain ⟨hi, hsound⟩ := Holdings.Follows.sound (.head hfirst hfollows) hs.repo
  -- the index is that of the tree, and whole
  obtain ⟨es, hes, hobjects⟩ := hi.whole hsound hlive
  have htree := hsame.trans h.index
  have hheld : HoldsTree cfg host depth H.store ({ store := H.store } : World).store := by
    refine h.later hsame fun e he hash hk => ?_
    have hnamed := (Holdings.mem_named htree).mpr ⟨e, he, hk⟩
    obtain ⟨e', he', hk'⟩ := (Holdings.mem_named hes).mp hnamed
    obtain ⟨c, hc, -⟩ := hobjects e' he' hash hk'
    rw [hc]
    rfl
  have hs' : Starts cfg host H.store hintStore :=
    ⟨hs.outside, hs.unchanging, hs.real, hs.hints, hi.objects, hcollisions⟩
  exact hheld.restores hs' hr hplain howners hgiven hsmooth hperm

/-- The repository is cleaned up before the tree is restored to `/r`. -/
theorem restored_homeTree : ∃ w H w', do_backup homeBackup 3 { store := ∅ } = .ok () w ∧
    Holdings.Next homeBackup.repo homeBackup.sha1 ⟨w.store, [homeBackup.indexfile]⟩ H ∧
    do_restore restoreToR { store := H.store, target := (emptyRoot []).target } = .ok () w' ∧
    w'.errors = 0 ∧ SameTree (homeBackup.source homeTree) restoreToR w'.target := by
  have hvalue : value? (do_backup homeBackup 3) { store := ∅ } = some () := by decide +kernel
  obtain ⟨w, hrun⟩ : ∃ w, do_backup homeBackup 3 { store := ∅ } = .ok () w :=
    ⟨_, ok_of_value? hvalue⟩
  have hs := starts_homeTree
  have hheld := do_backup_holds hs.outside hs.unchanging hs.real hs.hints hrun
  have hcleans := (wp_stateAfter _ _ _).mp
    (cleans_do_clean homeBackup [homeBackup.indexfile] { store := w.store })
  -- a cleanup comes in between, which is given the index
  have hnext : Holdings.Next homeBackup.repo homeBackup.sha1 ⟨w.store, [homeBackup.indexfile]⟩
      ⟨(stateAfter (do_clean homeBackup [homeBackup.indexfile]) { store := w.store }).store,
        [homeBackup.indexfile]⟩ :=
    .cleaned ⟨rfl, rfl⟩ (fun _ hname => hname) (.inl rfl)
  -- there are no contents that were not there before
  have hcollisions : Set.InjOn homeBackup.sha1 (allContents homeBackup
      (stateAfter (do_clean homeBackup [homeBackup.indexfile]) { store := w.store }).store
      homeTree) := by
    refine (hs.collisions.mono hheld.allContents_subset).mono ?_
    rintro c (⟨hash, hc⟩ | htree)
    · rcases hcleans (objectPath homeBackup.repo hash) with hsame | ⟨hnone, -⟩
      · exact .inl ⟨hash, hsame.symm.trans hc⟩
      · rw [hnone] at hc
        cases hc
    · exact .inr htree
  have howners : OwnersResolve (homeBackup.source homeTree) restoreToR := by
    intro _ p sb hp hstat
    have hall : ∀ q ∈ homeFiles,
        (idOf restoreToR.users.getpwnam (idName homeBackup.users.getpwuid q.2.st_uid)).isSome ∧
          (idOf restoreToR.users.getgrnam (idName homeBackup.users.getgrgid q.2.st_gid)).isSome :=
      by decide +kernel
    exact hall _ (mem_homeFiles (plain_homeTree.kept_iff.mp hp) hstat)
  have hrestores : Restores homeBackup restoreToR (emptyRoot []).target :=
    ⟨rfl, rfl, zero_not_mem_r, fun _ => rfl, emptyRoot_r rfl⟩
  have hlive := List.mem_singleton_self homeBackup.indexfile
  obtain ⟨w', hrestore, herrors, hsame⟩ := restored_at_any_time homeBackup restoreToR homeTree 3 ∅ ∅
    w _ _ hs rfl hrun (.single ⟨hnext, hlive, hlive⟩) hcollisions hrestores plain_homeTree howners
    (by unfold Options.Given; decide) smooth_restoreToR rfl
  exact ⟨w, _, w', hrun, hnext, hrestore, herrors, hsame⟩

end Hbackup
