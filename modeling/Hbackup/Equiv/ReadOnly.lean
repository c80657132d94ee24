import Hbackup.Restore
import Hbackup.Equiv.World

/-!
# Restoring leaves the repository alone

`do_restore` reads the backup filesystem and writes to the other one, wherever it stops
(`sameStore_do_restore`).
-/

namespace Hbackup

open ProgramLogic

variable {cfg : Config}

/-- The backup filesystem is as it was. -/
def SameStore (w w' : World) : Prop := w'.store = w.store

instance : Std.Refl SameStore := ⟨fun _ => rfl⟩

instance : IsTrans World SameStore := ⟨fun _ _ _ h h' => Eq.trans h' h⟩

/-! ### Files -/

section File

variable {δ : Type} {R : δ → δ → Prop} [Std.Refl R] [IsTrans δ R] {v : Virtual δ}

/-- What `R` says about the device behind a file. -/
def OnDevice (R : δ → δ → Prop) (f f' : File δ) : Prop := R f.dev f'.dev

instance : Std.Refl (OnDevice R) := ⟨fun f => Std.Refl.refl f.dev⟩

instance : IsTrans (File δ) (OnDevice R) :=
  ⟨fun f f' f'' => IsTrans.trans f.dev f'.dev f''.dev⟩

omit [Std.Refl R] [IsTrans δ R] in
theorem onDevice_call {α : Type} {m : EStateM FileStop δ α} (h : Frames R m) :
    Frames (OnDevice R) (File.onDevice m) := by
  intro f
  have hm := h f.dev
  unfold wp File.onDevice at *
  cases hrun : m f.dev with
  | ok a d =>
    rw [hrun] at hm
    exact hm
  | error e d =>
    rw [hrun] at hm
    exact hm

omit [IsTrans δ R] in
/-- Nothing of the device is changed. -/
theorem onDevice_modify {g : File δ → File δ} (hg : ∀ f, (g f).dev = f.dev) :
    Frames (OnDevice R) (modify g : FileM δ PUnit) := by
  refine Frames.modify fun f => ?_
  unfold OnDevice
  rw [hg]
  exact Std.Refl.refl f.dev

theorem onDevice_flush (hwrite : ∀ block, Frames R (v.writebytes block))
    (hsync : Frames R v.synchronize) : Frames (OnDevice R) (File.flush v) := by
  refine Frames.get_bind fun f => ?_
  apply Frames.bind
  · exact Frames.ite (.pure _) (.throw _)
  intro _
  apply Frames.bind
  · refine Frames.get_bind fun f => ?_
    exact Frames.ite (onDevice_call (hwrite _)) (.pure _)
  intro _
  refine Frames.bind (onDevice_modify fun _ => rfl) fun _ => ?_
  exact onDevice_call hsync

theorem onDevice_put (hwrite : ∀ block, Frames R (v.writebytes block))
    (hsync : Frames R v.synchronize) (s : Bytes) : Frames (OnDevice R) (File.put v s) := by
  refine Frames.forM (fun c => ?_) s
  apply Frames.bind
  · exact Frames.get_bind fun f => Frames.ite (onDevice_flush hwrite hsync) (.pure _)
  · exact fun _ => onDevice_modify fun _ => rfl

end File

/-! ### Calls -/

theorem sameStore_tick : Frames SameStore (tick cfg) := by
  intro w
  rw [wp_tick]
  split
  · rfl
  · rfl

theorem sameStore_call (doing : String) (path : Bytes) : Frames SameStore (call cfg doing path) := by
  apply Frames.bind sameStore_tick
  intro m
  cases m.fault with
  | none => exact .pure m
  | some e => exact .throw _

theorem sameStore_liftExcept {α : Type} (x : Except Exn α) : Frames SameStore (liftExcept x) := by
  cases x with
  | ok a => exact .pure a
  | error e => exact .throw _

theorem sameStore_openRead (path : Bytes) : Frames SameStore (Backupfs.openRead cfg path) :=
  Frames.bind sameStore_tick fun _ => Frames.get_bind fun _ => sameStore_liftExcept _

theorem sameStore_string2id {table : Names → List (Bytes × UInt32)}
    {remember : Names → Bytes → UInt32 → Names} {getid : Bytes → Option UInt32} {msg : String}
    (s : Bytes) : Frames SameStore (string2id table remember getid msg s) := by
  refine Frames.get_bind fun w => ?_
  split
  · exact .pure _
  apply Frames.ite
  · exact Frames.bind (Frames.modify fun _ => rfl) fun _ => .pure _
  split
  · exact Frames.bind (Frames.modify fun _ => rfl) fun _ => .pure _
  · exact .throw _

namespace Hostfs

theorem sameStore_apply (doing : String) (path : Bytes) (f : Target → Except Errno Target) :
    Frames SameStore (apply doing path f) := by
  refine Frames.get_bind fun w => ?_
  split
  · exact .throw _
  · exact Frames.modify fun _ => rfl

/-- All calls that change the filesystem that is restored to. -/
theorem sameStore_change (doing : String) (path : Bytes)
    (f : Int64 → Target → Except Errno Target) : Frames SameStore (change cfg doing path f) :=
  Frames.bind (sameStore_call _ _) fun _ => sameStore_apply _ _ _

theorem sameStore_remove (path : Bytes) : Frames SameStore (Hostfs.remove cfg path) := by
  apply Frames.bind sameStore_tick
  intro m
  split
  · exact .throw _
  · exact sameStore_apply _ _ _

theorem sameStore_exists (path : Bytes) : Frames SameStore (Hostfs.exists_ cfg path) := by
  apply Frames.bind (sameStore_call _ _)
  intro m
  refine Frames.get_bind fun w => ?_
  dsimp only
  apply Frames.ite (.pure _)
  split
  · exact .pure _
  · exact Frames.ite (.throw _) (.pure _)
  · exact Frames.ite (.pure _) (.throw _)

theorem sameStore_openWrite (path : Bytes) : Frames SameStore (Hostfs.openWrite cfg path) := by
  apply Frames.bind (sameStore_call _ _)
  intro m
  refine Frames.get_bind fun w => ?_
  split
  · exact .throw _
  · exact Frames.bind (Frames.modify fun _ => rfl) fun _ => .pure _

theorem sameStore_writebytes (path : Bytes) (i : Nat) (block : Bytes) :
    Frames SameStore (Hostfs.writebytes cfg path i block) := by
  apply Frames.bind sameStore_tick
  intro m
  split
  · exact Frames.bind (Frames.modify fun _ => rfl) fun _ => .throw _
  · exact Frames.modify fun _ => rfl

theorem sameStore_asVirtual {α : Type} {m : M α} (h : Frames SameStore m) :
    Frames SameStore (asVirtual m) := by
  intro w
  have hm := h w
  unfold wp asVirtual at *
  cases hrun : m w with
  | ok a w' =>
    rw [hrun] at hm
    exact hm
  | error e w' =>
    rw [hrun] at hm
    exact hm

theorem sameStore_withFile {body : FileM World Unit} (h : Frames (OnDevice SameStore) body) :
    Frames SameStore (withFile body) := by
  intro w
  have hbody := h { dev := w }
  unfold wp withFile at *
  cases hrun : body { dev := w } with
  | ok a f =>
    rw [hrun] at hbody
    dsimp only
    split_ifs
    · exact hbody
    · exact hbody
  | error stop f =>
    rw [hrun] at hbody
    cases stop with
    | exn e =>
      dsimp only
      split_ifs
      · exact hbody
      · exact hbody
    | assertion what => exact hbody
    | killed => exact hbody
    | running => exact hbody

/-- A file that is being restored is written. -/
theorem sameStore_putInto (path data : Bytes) (i : Nat) :
    Frames (OnDevice SameStore) (File.put (virtual cfg path i) data) :=
  onDevice_put (fun _ => sameStore_asVirtual (sameStore_writebytes _ _ _)) (.pure _) data

theorem sameStore_flushInto (path : Bytes) (i : Nat) :
    Frames (OnDevice SameStore) (File.flush (virtual cfg path i)) :=
  onDevice_flush (fun _ => sameStore_asVirtual (sameStore_writebytes _ _ _)) (.pure _)

end Hostfs

open Hostfs

/-! ### Restoring -/

theorem sameStore_restoreRegular (details : Details) (tmp : Bytes) :
    Frames SameStore (restoreRegular cfg details tmp) := by
  unfold restoreRegular
  split
  · apply Frames.bind
    · apply Frames.bind (sameStore_openWrite tmp)
      exact fun i => sameStore_withFile
        (Frames.bind (sameStore_putInto _ _ _) fun _ => sameStore_flushInto _ _)
    · exact fun _ => .pure _
  split
  · apply Frames.bind
    · apply Frames.bind (sameStore_liftExcept _)
      intro h
      apply Frames.bind (sameStore_openWrite tmp)
      intro i
      apply sameStore_withFile
      apply Frames.bind (onDevice_call (sameStore_asVirtual (sameStore_openRead _)))
      intro src
      apply Frames.bind (sameStore_putInto _ _ _)
      intro _
      cases src.fault with
      | some e => exact .throw _
      | none => exact sameStore_flushInto _ _
    · exact fun _ => .pure _
  · exact Frames.bind (Frames.modify fun _ => rfl) fun _ => .pure _

theorem sameStore_makeSocket (tmp : Bytes) : Frames SameStore (makeSocket cfg tmp) := by
  have herror : Frames SameStore (do error; return false : M Bool) :=
    Frames.bind (Frames.modify fun _ => rfl) fun _ => .pure _
  apply Frames.ite herror
  apply Frames.bind sameStore_tick
  intro m
  apply Frames.ite (.throw _)
  apply Frames.bind
  · apply Frames.tryCatch
    · exact Frames.bind (sameStore_change _ _ _) fun _ => .pure _
    · intro stop
      split
      · exact .pure _
      · exact .throw _
  intro bound
  refine Frames.ite ?_ herror
  apply Frames.bind sameStore_tick
  exact fun m => Frames.ite (.throw _) (.pure _)

theorem sameStore_makeSpecial (details : Details) (type full : Bytes) (mode : UInt32) :
    Frames SameStore (makeSpecial cfg details type full mode) := by
  unfold makeSpecial
  apply Frames.ite
  · exact Frames.bind (sameStore_change _ _ _) fun _ => .pure _
  apply Frames.ite
  · apply Frames.bind (sameStore_exists full)
    intro found
    apply Frames.ite
    · exact Frames.bind (Frames.modify fun _ => rfl) fun _ => .pure _
    · exact Frames.bind (sameStore_change _ _ _) fun _ => .pure _
  apply Frames.ite
  · exact Frames.bind (sameStore_change _ _ _) fun _ => .pure _
  apply Frames.ite
  · exact Frames.bind (sameStore_makeSocket _) fun _ => .pure _
  · exact Frames.bind (Frames.modify fun _ => rfl) fun _ => .pure _

theorem sameStore_fixAttributes (details : Details) (mode : UInt32) (full : Bytes) :
    Frames SameStore (fixAttributes cfg details mode full) := by
  apply Frames.bind
  · apply Frames.ite
    · apply Frames.bind (sameStore_string2id _)
      intro uid
      apply Frames.bind (sameStore_string2id _)
      exact fun gid => sameStore_change _ _ _
    · exact .pure _
  intro _
  apply Frames.ite (.pure _)
  apply Frames.bind (Frames.ite (sameStore_change _ _ _) (.pure _))
  intro _
  apply Frames.ite (.pure _)
  exact Frames.bind (sameStore_change _ _ _) fun _ => .pure _

theorem sameStore_restoreEntry (r : Restoring) (details : Details) :
    Frames SameStore (restoreEntry cfg r details) := by
  unfold restoreEntry
  split
  · exact Frames.bind (Frames.modify fun _ => rfl) fun _ => .pure _
  apply Frames.bind
  · apply Frames.tryCatch (sameStore_remove _)
    intro stop
    split
    · exact .pure _
    · exact .throw _
  intro _
  split
  · apply Frames.bind (sameStore_change _ _ _)
    exact fun _ => Frames.bind (sameStore_change _ _ _) fun _ => .pure _
  · apply Frames.bind
    · unfold makeObject
      split
      · exact sameStore_makeSpecial _ _ _ _
      · exact Frames.bind (sameStore_restoreRegular _ _) fun _ => .pure _
    intro made
    split
    · exact .pure _
    · apply Frames.bind (sameStore_fixAttributes _ _ _)
      intro stamps
      exact Frames.bind (sameStore_change _ _ _) fun _ => .pure _

theorem sameStore_restoreEntries (turns : Nat) (f : InFile) (r : Restoring) :
    Frames SameStore (restoreEntries cfg turns f r) := by
  induction turns generalizing f r with
  | zero => exact .pure _
  | succ turns ih =>
    unfold restoreEntries
    split
    · exact .throw _
    · exact .pure _
    · exact Frames.bind (sameStore_restoreEntry _ _) fun r => ih _ r

/-- **Restoring leaves the repository alone.** -/
theorem sameStore_do_restore (cfg : Config) : Frames SameStore (do_restore cfg) := by
  apply Frames.ite (.throw _)
  apply Frames.ite (.throw _)
  apply Frames.ite (.throw _)
  apply Frames.bind (sameStore_openRead _)
  intro f
  apply Frames.bind (sameStore_restoreEntries _ _ _)
  exact fun r => Frames.forM (fun d => sameStore_change _ _ _) _

end Hbackup
