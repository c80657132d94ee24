import Hbackup.Equiv.Aside

/-!
# The hint file during a run

The calls on the backup filesystem and on the files being backed up have nothing to do with the hint
files (`LeavesHints`), and the new hints go to another file first.  So the old hint file is what it
was until the very end of a run (`backup_dir_keepsHints`, `wp_finishHints_old`).
-/

namespace Hbackup

open ProgramLogic

variable {cfg : Config} {α β : Type}

/-! ### Calls that leave the hints alone -/

theorem leavesHints_statFiles (dir : Bytes) :
    ∀ c : List Bytes, LeavesHints (statFiles cfg dir c)
  | [] => .pure _
  | name :: c => by
    have ih := leavesHints_statFiles dir c
    unfold statFiles
    refine .ite ih (.ite ih ((leavesHints aside_tick).bind fun m => ?_))
    split
    · exact .ite ((leavesHints (aside_warning cfg)).bind fun _ => ih) (.throw _)
    · refine (leavesHints_access _).bind fun _ => ?_
      exact .ite (ih.bind fun _ => .pure _) ((leavesHints (aside_warning cfg)).bind fun _ => ih)

theorem leavesHints_smallFile (path : Bytes) (sb : Stat) : LeavesHints (smallFile cfg path sb) := by
  refine (leavesHints aside_tick).bind fun m => ?_
  split
  · exact .throw _
  · refine .bind (.ite (.pure _) (leavesHints_access _)) fun _ => .ite (.pure _) ?_
    split <;> exact .throw _

theorem leavesHints_hashOf (path : Bytes) (sb : Stat) : LeavesHints (hashOf cfg path sb) := by
  refine .get_bind fun w => ?_
  split
  · exact .pure _
  · refine (leavesHints aside_tick).bind fun m => ?_
    split
    · exact .throw _
    refine (leavesHints_access _).bind fun _ => ?_
    split
    · exact .throw _
    · exact .pure _

theorem leavesHints_restoreAtime (path : Bytes) (sb : Stat) :
    LeavesHints (restoreAtime cfg path sb) := by
  refine .ite ((leavesHints aside_tick).bind fun m => ?_) (.pure _)
  split
  · exact .throw _
  · exact leavesHints_access _

theorem leavesHints_openObject (hp : Bytes) : LeavesHints (openObject cfg hp) := by
  refine .tryCatch (leavesHints_openWrite _) fun stop => ?_
  split
  · refine .ite ?_ (.throw _)
    exact (leavesHints (aside_makedirs _)).bind fun _ => leavesHints_openWrite _
  · exact .throw _

theorem leavesHints_copyFile (hb : Hashable) : LeavesHints (copyFile cfg hb) := by
  refine (leavesHints aside_tick).bind fun m => ?_
  split
  · exact .throw _
  refine (leavesHints_openObject _).bind fun dst => (leavesHints_access _).bind fun _ => ?_
  refine (leavesHints (aside_put _ _)).bind fun dst => ?_
  split
  · exact .throw _
  refine .ite (.throw _) ((leavesHints (aside_flush _)).bind fun _ => leavesHints_rename _ _)

theorem leavesHints_addHashable (hb : Hashable) : LeavesHints (addHashable cfg hb) :=
  (leavesHints (aside_exists _)).bind fun _ => .ite (.pure _) (leavesHints_copyFile hb)

/-! ### The new hints -/

/-- The new hints go to the temporary file. -/
def NewHints (cfg : Config) (w : World) : Prop :=
  ∀ o, w.newhints = some o → o.path = cfg.hintfile ++ lit ".tmp"

/-- The old hint file is left alone, as long as the new hints go to the temporary file. -/
def KeepsOld (cfg : Config) (w w' : World) : Prop :=
  NewHints cfg w → NewHints cfg w' ∧ w'.hintStore.lookup cfg.hintfile = w.hintStore.lookup cfg.hintfile

instance : Std.Refl (KeepsOld cfg) := ⟨fun _ h => ⟨h, rfl⟩⟩

instance : IsTrans World (KeepsOld cfg) :=
  ⟨fun _ _ _ h h' hn => ⟨(h' (h hn).1).1, (h' (h hn).1).2.trans (h hn).2⟩⟩

theorem SameHints.keepsOld {w w' : World} (h : SameHints w w') : KeepsOld cfg w w' := fun hn =>
  ⟨fun o ho => hn o (h.newhints ▸ ho), by rw [h.hintStore]⟩

theorem keepsOld {m : M α} (h : LeavesHints m) : Frames (KeepsOld cfg) m :=
  h.mono fun _ _ hs => hs.keepsOld

/-- The old hint file and the new hints are the same. -/
structure SameOld (cfg : Config) (w w' : World) : Prop where
  file : w'.hintStore.lookup cfg.hintfile = w.hintStore.lookup cfg.hintfile
  newhints : w'.newhints = w.newhints

theorem SameOld.trans {w w' w'' : World} (h : SameOld cfg w w') (h' : SameOld cfg w' w'') :
    SameOld cfg w w'' := ⟨h'.file.trans h.file, h'.newhints.trans h.newhints⟩

/-- Writing to the new hint file. -/
theorem wp_writeNewHints (block : Bytes) (w : World) :
    wp (onLocal (Backupfs.writebytes cfg (cfg.hintfile ++ lit ".tmp") block))
      (fun _ => SameOld cfg w) (fun _ => SameOld cfg w) w := by
  have hne := (tmp_ne cfg.hintfile).symm
  rw [wp_onLocal, Backupfs.writebytes, wp_bind, wp_tick]
  split
  · exact ⟨rfl, rfl⟩
  rw [wp_bind, wp_get]
  split
  · split
    · exact ⟨AList.lookup_insert_ne hne, rfl⟩
    · exact ⟨AList.lookup_insert_ne hne, rfl⟩
  · exact ⟨rfl, rfl⟩

theorem wp_flushNewHints {o : OFile} (ho : o.path = cfg.hintfile ++ lit ".tmp") (w : World) :
    wp (o.flush fun path block => onLocal (Backupfs.writebytes cfg path block))
      (fun o' w' => o'.path = o.path ∧ SameOld cfg w w') (fun _ => SameOld cfg w) w := by
  unfold OFile.flush
  rw [ho]
  split
  · rw [wp_bind]
    exact wp_mono (wp_writeNewHints _ w) (fun _ _ h => ⟨rfl, h⟩) fun _ _ h => h
  · exact ⟨rfl, rfl, rfl⟩

theorem wp_putNewHints {o : OFile} (ho : o.path = cfg.hintfile ++ lit ".tmp") (text : Bytes)
    (w : World) :
    wp (o.put (fun path block => onLocal (Backupfs.writebytes cfg path block)) text)
      (fun o' w' => o'.path = o.path ∧ SameOld cfg w w') (fun _ => SameOld cfg w) w := by
  refine wp_foldlM (fun _ (o' : OFile) w' => o'.path = o.path ∧ SameOld cfg w w') ?_ ⟨rfl, rfl, rfl⟩
  rintro pre c post o' w' - ⟨hpath, hsame⟩
  unfold OFile.put1
  split
  · rw [wp_bind]
    refine wp_mono (wp_flushNewHints (hpath.trans ho) w') ?_ fun _ _ h => hsame.trans h
    rintro o'' w'' ⟨hpath', hsame'⟩
    exact ⟨hpath'.trans hpath, hsame.trans hsame'⟩
  · exact ⟨hpath, hsame⟩

theorem keepsOld_putHints (text : Bytes) : Frames (KeepsOld cfg) (putHints cfg text) := by
  intro w
  rw [putHints, wp_bind, wp_get]
  split
  · exact fun hn => ⟨hn, rfl⟩
  rename_i o ho
  by_cases hpath : o.path = cfg.hintfile ++ lit ".tmp"
  · rw [wp_bind]
    refine wp_mono (wp_putNewHints hpath text w) ?_ fun _ w' h hn => ⟨?_, h.file⟩
    · rintro o' w' ⟨hpath', hsame⟩
      rw [wp_modify]
      refine fun _ => ⟨?_, hsame.file⟩
      rintro _ ⟨⟩
      exact hpath'.trans hpath
    · rw [NewHints, h.newhints]
      exact hn
  · -- nothing is said about new hints that go elsewhere
    have hno : ∀ w', KeepsOld cfg w w' := fun w' hn => absurd (hn o ho) hpath
    unfold wp
    cases (o.put _ text >>= _) w <;> exact hno _

/-! ### The tree -/

theorem keepsOld_backupFile (dir : Bytes) (files : List (Bytes × Stat)) (p : Progress) (name : Bytes) :
    Frames (KeepsOld cfg) (backupFile cfg dir files p name) := by
  have hput : ∀ o text, Frames (KeepsOld cfg) (putIndex cfg o text) := fun o text =>
    keepsOld (leavesHints (aside_put o text))
  have hid : ∀ table remember getname id,
      Frames (KeepsOld cfg) (id2string table remember getname id) := fun _ _ _ _ =>
    keepsOld (leavesHints (aside_id2string cfg _ _ _ _))
  refine (hid _ _ _ _).bind fun uid => ?_
  refine (hid _ _ _ _).bind fun gid => ?_
  refine (hput _ _).bind fun index => ?_
  refine .ite ?_ (.ite ?_ (.ite ?_ (.ite ?_ (.ite ?_ (.pure _)))))
  · -- a regular file
    refine .bind (.ite ?_ ?_) fun _ => (hput _ _).bind fun _ => (hput _ _).bind fun _ =>
      (hput _ _).bind fun _ => (keepsOld (leavesHints_restoreAtime _ _)).bind fun _ => .pure _
    · exact (keepsOld (leavesHints_smallFile _ _)).bind fun _ => .pure _
    · refine (keepsOld (leavesHints_hashOf _ _)).bind fun h => (keepsOld_putHints _).bind fun _ => ?_
      exact (keepsOld (leavesHints (aside_queueHash _ _))).bind fun _ => .pure _
  · exact (hput _ _).bind fun _ => (keepsOld (leavesHints (aside_entersDir _))).bind fun _ => .pure _
  · exact (keepsOld (leavesHints (aside_readlink _))).bind fun _ => (hput _ _).bind fun _ => .pure _
  · exact (hput _ _).bind fun _ => .pure _
  · exact (hput _ _).bind fun _ => .pure _

theorem keepsOld_backup_dir : ∀ (depth : Nat) (o : OFile) (dir : Bytes),
    Frames (KeepsOld cfg) (backup_dir cfg depth o dir)
  | 0, _, _ => .throw _
  | depth + 1, o, dir => by
    refine .bind ?_ fun p => .foldlM (fun o dir => keepsOld_backup_dir depth o dir) _ _
    refine (keepsOld (leavesHints (aside_hostContents _))).bind fun c => ?_
    refine (keepsOld (leavesHints_statFiles _ _)).bind fun files => ?_
    refine .bind (.foldlM (fun p name => keepsOld_backupFile dir files p name) _ _) fun p => ?_
    exact .bind (.forM (fun hb => keepsOld (leavesHints_addHashable hb)) _) fun _ => .pure _

/-! ### The end of the new hints -/

/-- The old hint file is what it was, unless the new one has taken its place. -/
theorem wp_finishHints_old {w : World} (hn : NewHints cfg w) :
    wp (finishHints cfg)
      (fun _ w' => w'.hintStore.lookup cfg.hintfile = w.hintStore.lookup cfg.hintfile ∨
        w.newhints ≠ none)
      (fun _ w' => w'.hintStore.lookup cfg.hintfile = w.hintStore.lookup cfg.hintfile) w := by
  by_cases hnone : w.newhints = none
  · have hput : putHints cfg (lit "[end]\n") w = .ok () w := by
      have hget : (get : M World) w = .ok w w := rfl
      rw [putHints, bind_of_ok hget, hnone]
      rfl
    rw [finishHints, wp_bind]
    refine wp_of_ok hput ?_
    rw [wp_bind, wp_get]
    simp only [hnone]
    exact .inl rfl
  rw [finishHints, wp_bind]
  refine wp_mono (keepsOld_putHints (lit "[end]\n") w) ?_ fun _ _ h => (h hn).2
  intro _ w₁ h₁
  obtain ⟨hn₁, hold₁⟩ := h₁ hn
  rw [wp_bind, wp_get]
  split
  · exact .inl hold₁
  rename_i o ho
  rw [wp_bind]
  refine wp_mono (wp_flushNewHints (hn₁ o ho) w₁) ?_ fun _ _ h => h.file.trans hold₁
  rintro o' w₂ ⟨-, hsame⟩
  rw [wp_bind, wp_modify, wp_onLocal]
  refine wp_mono (wp_rename cfg _ _ _) (fun _ _ _ => .inr hnone) ?_
  rintro _ w₃ rfl
  exact hsame.file.trans hold₁

end Hbackup
