import Hbackup.Backup
import Hbackup.Equiv.Paths
import Hbackup.Equiv.Writes

/-!
# What the calls of a backup leave alone

Most of what a backup does has to do with neither the hint files, nor the files being backed up, nor
the objects in the repository (`Aside`).  What is said about those three therefore only has to look
at the few places where they are used.
-/

namespace Hbackup

open ProgramLogic

variable {cfg : Config} {α : Type} {w w' w'' : World}

/-- No file that is being backed up is used, and no object is written to. -/
structure SameTimes (cfg : Config) (w w' : World) : Prop where
  accesses : w'.accesses = w.accesses
  objects : ∀ h, objectPath cfg.repo h ∈ w'.written ↔ objectPath cfg.repo h ∈ w.written

instance : Std.Refl (SameTimes cfg) := ⟨fun _ => ⟨rfl, fun _ => Iff.rfl⟩⟩

theorem SameTimes.trans (h : SameTimes cfg w w') (h' : SameTimes cfg w' w'') : SameTimes cfg w w'' :=
  ⟨h'.accesses.trans h.accesses, fun hash => (h'.objects hash).trans (h.objects hash)⟩

instance : IsTrans World (SameTimes cfg) := ⟨fun _ _ _ => .trans⟩

/-- Neither the hint files nor the new hints are touched. -/
abbrev LeavesHints (m : M α) : Prop := Frames SameHints m

/-- Nothing is done to the hints, to the files being backed up or to an object. -/
structure Aside (cfg : Config) (w w' : World) : Prop where
  hints : SameHints w w'
  times : SameTimes cfg w w'

instance : Std.Refl SameHints := ⟨.refl⟩

instance : IsTrans World SameHints := ⟨fun _ _ _ => .trans⟩

instance : Std.Refl (Aside cfg) := ⟨fun w => ⟨.refl w, Std.Refl.refl w⟩⟩

instance : IsTrans World (Aside cfg) :=
  ⟨fun _ _ _ h h' => ⟨h.hints.trans h'.hints, h.times.trans h'.times⟩⟩

/-- What is aside leaves the hints alone. -/
theorem leavesHints {m : M α} (h : Frames (Aside cfg) m) : LeavesHints m :=
  h.mono fun _ _ ha => ha.hints

/-- What is aside leaves the files being backed up and the objects alone. -/
theorem sameTimes {m : M α} (h : Frames (Aside cfg) m) : Frames (SameTimes cfg) m :=
  h.mono fun _ _ ha => ha.times

/-- `accesses`, `written` and the hints are as they were. -/
theorem Aside.of_eq (hhints : w'.hintStore = w.hintStore) (hnew : w'.newhints = w.newhints)
    (haccesses : w'.accesses = w.accesses) (hwritten : w'.written = w.written) : Aside cfg w w' :=
  ⟨⟨hhints, hnew⟩, haccesses, fun _ => by rw [hwritten]⟩

/-! ### Calls -/

theorem aside_liftExcept (cfg : Config) (x : Except Exn α) : Frames (Aside cfg) (liftExcept x) := by
  cases x
  · exact .throw _
  · exact .pure _

theorem aside_tick : Frames (Aside cfg) (tick cfg) := by
  intro w
  rw [wp_tick]
  split <;> exact .of_eq rfl rfl rfl rfl

theorem aside_call (doing : String) (path : Bytes) : Frames (Aside cfg) (call cfg doing path) := by
  refine aside_tick.bind fun m => ?_
  cases m.fault
  · exact .pure _
  · exact .throw _

theorem aside_warning (cfg : Config) : Frames (Aside cfg) warning := fun _ => .of_eq rfl rfl rfl rfl

theorem leavesHints_access (a : Access) : LeavesHints (access a) := fun _ => ⟨rfl, rfl⟩

theorem leavesHints_openWrite (path : Bytes) : LeavesHints (Backupfs.openWrite cfg path) := by
  intro w
  refine wp_mono (wp_openWrite cfg path w) ?_ ?_
  · rintro o w' ⟨-, -, rfl⟩
    exact ⟨rfl, rfl⟩
  · rintro _ w' rfl
    exact ⟨rfl, rfl⟩

/-- A file that is no object is opened. -/
theorem aside_openWrite {path : Bytes} (hpath : ∀ h, objectPath cfg.repo h ≠ path) :
    Frames (Aside cfg) (Backupfs.openWrite cfg path) := by
  intro w
  refine wp_mono (wp_openWrite cfg path w) ?_ ?_
  · rintro o w' ⟨-, -, rfl⟩
    exact ⟨⟨rfl, rfl⟩, rfl, fun h => by simp [hpath h]⟩
  · rintro _ w' rfl
    exact .of_eq rfl rfl rfl rfl

theorem leavesHints_rename (oldpath newpath : Bytes) :
    LeavesHints (Backupfs.rename cfg oldpath newpath) := by
  intro w
  refine wp_mono (wp_rename cfg oldpath newpath w) ?_ ?_
  · rintro _ w' ⟨data, -, rfl⟩
    exact ⟨rfl, rfl⟩
  · rintro _ w' rfl
    exact ⟨rfl, rfl⟩

theorem aside_mkdir (path : Bytes) : Frames (Aside cfg) (Backupfs.mkdir cfg path) := by
  intro w
  refine wp_mono (wp_mkdir cfg path w) ?_ ?_
  · rintro _ w' ⟨-, rfl⟩
    exact .of_eq rfl rfl rfl rfl
  · rintro _ w' rfl
    exact .of_eq rfl rfl rfl rfl

theorem aside_writebytes (path block : Bytes) :
    Frames (Aside cfg) (Backupfs.writebytes cfg path block) := by
  intro w
  rw [Backupfs.writebytes, wp_bind, wp_tick]
  split
  · exact .of_eq rfl rfl rfl rfl
  rw [wp_bind, wp_get]
  split
  · split <;> exact .of_eq rfl rfl rfl rfl
  · exact .of_eq rfl rfl rfl rfl

theorem aside_prefigure_exists (path : Bytes) :
    Frames (Aside cfg) (Backupfs.prefigure_exists cfg path) := by
  refine .ite ?_ (.pure _)
  exact (aside_call _ _).bind fun _ => .modify fun _ => .of_eq rfl rfl rfl rfl

theorem aside_collectExistence :
    ∀ inflight : List (Bytes × Bool), Frames (Aside cfg) (Backupfs.collectExistence cfg inflight)
  | [] => .pure _
  | (_, _) :: inflight => aside_tick.bind fun _ =>
    .bind (.modify fun _ => .of_eq rfl rfl rfl rfl) fun _ => aside_collectExistence inflight

theorem aside_exists (path : Bytes) : Frames (Aside cfg) (Backupfs.exists_ cfg path) := by
  refine .ite ?_ ?_
  · refine .get_bind fun _ => (aside_collectExistence _).bind fun _ => .get_bind fun w => ?_
    split
    · exact .bind (.modify fun _ => .of_eq rfl rfl rfl rfl) fun _ => .pure _
    · refine (aside_prefigure_exists _).bind fun _ => .get_bind fun _ => ?_
      refine (aside_collectExistence _).bind fun _ => .get_bind fun _ => ?_
      exact .bind (.modify fun _ => .of_eq rfl rfl rfl rfl) fun _ => .pure _
  · exact (aside_call _ _).bind fun _ => .get_bind fun _ => .pure _

/-! ### Files that are written -/

section

variable {R : World → World → Prop} [Std.Refl R] [IsTrans World R] {write : Bytes → Bytes → M Unit}

theorem frames_flush (hwrite : ∀ path block, Frames R (write path block)) (o : OFile) :
    Frames R (o.flush write) := by
  unfold OFile.flush
  exact Frames.ite (.bind (hwrite _ _) fun _ => .pure _) (.pure _)

/-- What holds of every write holds of what is put into a file. -/
theorem frames_put (hwrite : ∀ path block, Frames R (write path block)) (o : OFile) (s : Bytes) :
    Frames R (o.put write s) := by
  refine .foldlM (fun o c => ?_) s o
  unfold OFile.put1
  exact Frames.ite ((frames_flush hwrite o).bind fun _ => .pure _) (.bind (.pure _) fun _ => .pure _)

end

theorem aside_flush (o : OFile) : Frames (Aside cfg) (o.flush (Backupfs.writebytes cfg)) :=
  frames_flush aside_writebytes o

theorem aside_put (o : OFile) (s : Bytes) : Frames (Aside cfg) (o.put (Backupfs.writebytes cfg) s) :=
  frames_put aside_writebytes o s

/-! ### The local filesystem -/

/-- The files being backed up are not used. -/
def SameAccesses (w w' : World) : Prop := w'.accesses = w.accesses

instance : Std.Refl SameAccesses := ⟨fun _ => rfl⟩

instance : IsTrans World SameAccesses := ⟨fun _ _ _ h h' => Eq.trans h' h⟩

/-- What is aside does not use the files being backed up. -/
theorem sameAccesses {m : M α} (h : Frames (Aside cfg) m) : Frames SameAccesses m :=
  h.mono fun _ _ ha => ha.times.accesses

/-- A call on the local filesystem has nothing to do with the objects. -/
theorem sameTimes_onLocal {m : M α} (h : Frames SameAccesses m) :
    Frames (SameTimes cfg) (onLocal m) := by
  intro w
  rw [wp_onLocal]
  exact wp_mono (h _) (fun _ _ ha => ⟨ha, fun _ => Iff.rfl⟩) fun _ _ ha => ⟨ha, fun _ => Iff.rfl⟩

theorem sameTimes_writeHints (path block : Bytes) :
    Frames (SameTimes cfg) (onLocal (Backupfs.writebytes cfg path block)) :=
  sameTimes_onLocal (sameAccesses (aside_writebytes path block))

theorem sameTimes_putHints (text : Bytes) : Frames (SameTimes cfg) (putHints cfg text) := by
  refine .get_bind fun w => ?_
  split
  · exact .pure _
  · refine (frames_put sameTimes_writeHints _ _).bind fun o => ?_
    exact .modify fun _ => ⟨rfl, fun _ => Iff.rfl⟩

theorem sameTimes_finishHints : Frames (SameTimes cfg) (finishHints cfg) := by
  refine (sameTimes_putHints _).bind fun _ => .get_bind fun w => ?_
  split
  · exact .pure _
  refine (frames_flush sameTimes_writeHints _).bind fun o => ?_
  refine .bind (.modify fun _ => ⟨rfl, fun _ => Iff.rfl⟩) fun _ => sameTimes_onLocal fun w => ?_
  refine wp_mono (wp_rename cfg _ _ w) ?_ ?_
  · rintro _ w' ⟨data, -, rfl⟩
    rfl
  · rintro _ w' rfl
    rfl

/-! ### The parts of a backup -/

theorem aside_id2string (cfg : Config) (table : Names → List (UInt32 × Bytes))
    (remember : Names → UInt32 → Bytes → Names) (getname : UInt32 → Option Bytes) (id : UInt32) :
    Frames (Aside cfg) (id2string table remember getname id) := by
  refine .get_bind fun w => ?_
  split
  · exact .pure _
  · split
    · exact .bind (.modify fun _ => .of_eq rfl rfl rfl rfl) fun _ => .pure _
    · exact (aside_warning cfg).bind fun _ => .bind (.modify fun _ => .of_eq rfl rfl rfl rfl) fun _ => .pure _

theorem aside_queueHash (path : Bytes) (h : Hash) : Frames (Aside cfg) (queueHash cfg path h) := by
  refine .get_bind fun w => .ite (.pure _) ?_
  refine (aside_prefigure_exists _).bind fun _ => ?_
  exact .bind (.modify fun _ => .of_eq rfl rfl rfl rfl) fun _ => .pure _

theorem aside_readlink (path : Bytes) : Frames (Aside cfg) (readlink cfg path) := by
  refine aside_tick.bind fun m => ?_
  split
  · exact .throw _
  · exact .ite (.throw _) (.pure _)

theorem aside_entersDir (path : Bytes) : Frames (Aside cfg) (entersDir cfg path) := by
  refine .ite (.pure _) (aside_tick.bind fun m => ?_)
  split
  · exact .throw _
  · exact .pure _

theorem aside_makedirs (path : Bytes) : Frames (Aside cfg) (makedirs cfg path) := by
  refine (aside_exists _).bind fun _ => .ite (.pure _) (.bind (.forM (fun dir => ?_) _) fun _ =>
    aside_mkdir _)
  exact (aside_exists _).bind fun _ => .ite (.pure _) (aside_mkdir _)

/-- The temporary file of an object is opened. -/
theorem aside_openObject (h : Hash) :
    Frames (Aside cfg) (openObject cfg (objectPath cfg.repo h)) := by
  have hopen : Frames (Aside cfg) (Backupfs.openWrite cfg (objectPath cfg.repo h ++ lit ".tmp")) :=
    aside_openWrite fun h' => (tmp_ne_objectPath cfg.repo h h').symm
  refine .tryCatch hopen fun stop => ?_
  split
  · exact .ite ((aside_makedirs _).bind fun _ => hopen) (.throw _)
  · exact .throw _

theorem aside_hostContents (dir : Bytes) : Frames (Aside cfg) (hostContents cfg dir) := by
  refine aside_tick.bind fun m => ?_
  split
  · exact .throw _
  · exact .pure _

theorem aside_checkBackup : Frames (Aside cfg) (checkBackup cfg) := by
  refine .ite (.throw _) (.ite (.throw _) (.ite (.throw _) (.ite (.pure _) ?_)))
  exact (aside_exists _).bind fun _ => .ite (.throw _) (.pure _)

end Hbackup
