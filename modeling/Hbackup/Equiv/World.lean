import Hbackup.World
import Hbackup.Lib.ProgramLogic

/-!
# What the calls of the program do

One rule for each call: what it needs of the state, what it leaves in it, and that a call which
stops the program has changed nothing but the clock.
-/

namespace Hbackup

open ProgramLogic

/-! ### Steps -/

/-- A tick passes, or the process is killed. -/
theorem wp_tick (cfg : Config) (Q : Moment → World → Prop) (E : Stop → World → Prop) (w : World) :
    wp (tick cfg) Q E w ↔
      if (cfg.env w.clock).killed then E .killed { w with clock := w.clock + 1 }
      else Q (cfg.env w.clock) { w with clock := w.clock + 1 } := by
  unfold tick
  split_ifs with h <;> simp [h]

@[simp] theorem wp_throwExn {α : Type} (e : Exn) (Q : α → World → Prop)
    (E : Stop → World → Prop) (w : World) : wp (throwExn e : M α) Q E w ↔ E (.exn e) w := Iff.rfl

@[simp] theorem wp_fatal {α : Type} (msg : String) (Q : α → World → Prop)
    (E : Stop → World → Prop) (w : World) : wp (fatal msg : M α) Q E w ↔ E (.fatal msg []) w :=
  Iff.rfl

@[simp] theorem wp_fatalf {α : Type} (msg : String) (path : Bytes) (Q : α → World → Prop)
    (E : Stop → World → Prop) (w : World) :
    wp (fatalf msg path : M α) Q E w ↔ E (.fatal msg [path]) w := Iff.rfl

@[simp] theorem wp_liftExcept {α : Type} (x : Except Exn α) (Q : α → World → Prop)
    (E : Stop → World → Prop) (w : World) :
    wp (liftExcept x) Q E w ↔
      match x with
      | .ok a => Q a w
      | .error e => E (.exn e) w := by
  cases x <;> exact Iff.rfl

@[simp] theorem wp_error (Q : Unit → World → Prop) (E : Stop → World → Prop) (w : World) :
    wp error Q E w ↔ Q () { w with errors := w.errors + 1 } := Iff.rfl

@[simp] theorem wp_warning (Q : Unit → World → Prop) (E : Stop → World → Prop) (w : World) :
    wp warning Q E w ↔ Q () { w with warnings := w.warnings + 1 } := Iff.rfl

@[simp] theorem wp_access (a : Access) (Q : Unit → World → Prop) (E : Stop → World → Prop)
    (w : World) : wp (access a) Q E w ↔ Q () { w with accesses := a :: w.accesses } := Iff.rfl

theorem wp_call (cfg : Config) (doing : String) (path : Bytes) (Q : Moment → World → Prop)
    (E : Stop → World → Prop) (w : World) :
    wp (call cfg doing path) Q E w ↔
      if (cfg.env w.clock).killed then E .killed { w with clock := w.clock + 1 }
      else match (cfg.env w.clock).fault with
        | some e => E (.exn (.fileError doing path e)) { w with clock := w.clock + 1 }
        | none => Q (cfg.env w.clock) { w with clock := w.clock + 1 } := by
  rw [call, wp_bind, wp_tick]
  split_ifs with h
  · rfl
  · cases (cfg.env w.clock).fault <;> rfl

/-- What happens on the local filesystem leaves the backup filesystem alone. -/
theorem wp_onLocal {α : Type} (m : M α) (Q : α → World → Prop) (E : Stop → World → Prop)
    (w : World) :
    wp (onLocal m) Q E w ↔ wp m
      (fun a w' => Q a { w' with store := w.store, hintStore := w'.store, written := w.written })
      (fun e w' => E e { w' with store := w.store, hintStore := w'.store, written := w.written })
      { w with store := w.hintStore } := by
  unfold wp onLocal
  cases m { w with store := w.hintStore } <;> rfl

/-! ### Calls that change nothing -/

/-- What a command that only reads leaves alone. -/
structure Untouched (w w' : World) : Prop where
  store : w'.store = w.store
  written : w'.written = w.written
  removed : w'.removed = w.removed
  stdout : w'.stdout = w.stdout

theorem Untouched.refl (w : World) : Untouched w w := ⟨rfl, rfl, rfl, rfl⟩

theorem Untouched.trans {w w' w'' : World} (h : Untouched w w') (h' : Untouched w' w'') :
    Untouched w w'' :=
  ⟨h'.store.trans h.store, h'.written.trans h.written, h'.removed.trans h.removed,
    h'.stdout.trans h.stdout⟩

theorem Untouched.clock (w : World) (n : Nat) : Untouched w { w with clock := n } :=
  ⟨rfl, rfl, rfl, rfl⟩

theorem Untouched.errors (w : World) (n : Nat) : Untouched w { w with errors := n } :=
  ⟨rfl, rfl, rfl, rfl⟩

/-- A call that is made: one tick later, and nothing else. -/
theorem wp_call_untouched (cfg : Config) (doing : String) (path : Bytes) (w : World) :
    wp (call cfg doing path)
      (fun m w' => m = cfg.env w.clock ∧ w' = { w with clock := w.clock + 1 })
      (fun _ w' => w' = { w with clock := w.clock + 1 } ∧
        ((cfg.env w.clock).killed = true ∨ (cfg.env w.clock).fault.isSome)) w := by
  rw [wp_call]
  split_ifs with hk
  · exact ⟨rfl, .inl hk⟩
  · cases hf : (cfg.env w.clock).fault with
    | none => exact ⟨rfl, rfl⟩
    | some e => exact ⟨rfl, .inr rfl⟩

theorem wp_contents (cfg : Config) (path : Bytes) (w : World) :
    wp (Backupfs.contents cfg path)
      (fun files w' => w' = { w with clock := w.clock + 1 } ∧ files = w.store.children path)
      (fun _ w' => w' = { w with clock := w.clock + 1 } ∧ ((cfg.env w.clock).killed = true ∨
        (cfg.env w.clock).fault.isSome ∨ w.store.lookup path ≠ some .dir)) w := by
  rw [Backupfs.contents, wp_bind]
  refine wp_mono (wp_call_untouched cfg _ path w) ?_ fun _ _ h => ⟨h.1, h.2.imp_right .inl⟩
  rintro m w' ⟨-, rfl⟩
  rw [wp_bind, wp_get]
  simp only
  cases hl : w.store.lookup path with
  | none => exact ⟨rfl, .inr (.inr (by simp))⟩
  | some n =>
    cases n with
    | dir => exact ⟨rfl, rfl⟩
    | file data => exact ⟨rfl, .inr (.inr (by simp))⟩
    | other => exact ⟨rfl, .inr (.inr (by simp))⟩

/-- The type that a node shows. -/
def Node.filetype : Node → Filetype
  | .file _ => .RegularFile
  | .dir => .Directory
  | .other => .UnknownFileType

theorem wp_type (cfg : Config) (path : Bytes) (w : World) :
    wp (Backupfs.type cfg path)
      (fun t w' => w' = { w with clock := w.clock + 1 } ∧
        (w.store.lookup path).map Node.filetype = some t)
      (fun _ w' => w' = { w with clock := w.clock + 1 } ∧ ((cfg.env w.clock).killed = true ∨
        (cfg.env w.clock).fault.isSome ∨ w.store.lookup path = none)) w := by
  rw [Backupfs.type, wp_bind]
  refine wp_mono (wp_call_untouched cfg _ path w) ?_ fun _ _ h => ⟨h.1, h.2.imp_right .inl⟩
  rintro m w' ⟨-, rfl⟩
  rw [wp_bind, wp_get]
  simp only
  cases hl : w.store.lookup path with
  | none => exact ⟨rfl, .inr (.inr rfl)⟩
  | some n => cases n <;> exact ⟨rfl, rfl⟩

/-! ### Removing a file -/

/-- A file is removed, or the call fails. -/
theorem wp_remove_file (cfg : Config) (path data : Bytes) (w : World)
    (h : w.store.lookup path = some (.file data)) :
    wp (Backupfs.remove cfg path)
      (fun _ w' => w' = { w with
        clock := w.clock + 1, store := w.store.erase path, removed := path :: w.removed })
      (fun stop w' => w' = { w with clock := w.clock + 1 } ∧
        (stop = .killed ∨ ∃ e, (cfg.env w.clock).fault = some e ∧
          stop = .exn (.fileError "removing" path e)) ∧
        ((cfg.env w.clock).killed = true ∨ (cfg.env w.clock).fault.isSome)) w := by
  rw [Backupfs.remove, wp_bind, wp_call]
  split_ifs with hk
  · exact ⟨rfl, .inl rfl, .inl hk⟩
  cases hf : (cfg.env w.clock).fault with
  | some e => exact ⟨rfl, .inr ⟨e, rfl, rfl⟩, .inr rfl⟩
  | none =>
    rw [wp_bind, wp_get]
    simp only [h, wp_set]

end Hbackup
