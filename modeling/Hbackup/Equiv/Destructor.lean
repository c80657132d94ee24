import Hbackup.Equiv.Hostfs
import Hbackup.Equiv.Overwrite

/-!
# The assertion in `~File`

A `File` that is being written is only emptied by a flush that succeeds.  So when an exception ends
the writing of a restored file its destructor finds characters in the buffer, and the program
aborts; only an exception from before the first character is passed on.

The files that a run fills are followed entry by entry (`RunFills`), each with the moments of the
writes that it takes, and the run fails the assertion exactly if one of them is broken off
(`do_restore_never_asserts_iff`).
-/

namespace Hbackup

open ProgramLogic File

variable {cfg : Config} {α : Type}

/-- A failed assertion. -/
def Aborts (stop : Stop) : Prop := ∃ what, stop = .assertion what

/-- Not a failed assertion. -/
def Propagates (stop : Stop) : Prop := ¬ Aborts stop

theorem propagates_killed : Propagates .killed := by
  rintro ⟨_, h⟩
  cases h

theorem propagates_exn (e : Exn) : Propagates (.exn e) := by
  rintro ⟨_, h⟩
  cases h

theorem propagates_fatalStop (msg : String) (args : List Bytes) : Propagates (.fatal msg args) := by
  rintro ⟨_, h⟩
  cases h

/-! ### Files that are filled -/

/-- A file of the tree is filled: from the moment `start` on the blocks of `text` are written, and
`fault` is what the reading of the stored object ends with, if it is not the end of file. -/
structure Filling where
  start : Nat
  text : Bytes
  fault : Option Exn

/-- The writes that filling the file takes: one for every full buffer and, unless the reading fails,
one for the rest. -/
def Filling.writes (a : Filling) : Nat :=
  match a.fault with
  | none => (a.text.length + (BUFFER_SIZE - 1)) / BUFFER_SIZE
  | some _ => (a.text.length - 1) / BUFFER_SIZE

/-- The first `n` writes from the moment `start` on are made, and none of them fails. -/
def WritesWell (cfg : Config) (start n : Nat) : Prop :=
  ∀ i < n, (cfg.env (start + i)).killed = false ∧ (cfg.env (start + i)).full = none

/-- A write that is made fails, or the reading does after some bytes. -/
def Filling.BreaksOff (cfg : Config) (a : Filling) : Prop :=
  (∃ n < a.writes, WritesWell cfg a.start n ∧ (cfg.env (a.start + n)).killed = false ∧
    (cfg.env (a.start + n)).full ≠ none) ∨
  a.fault ≠ none ∧ a.text ≠ [] ∧ WritesWell cfg a.start a.writes

/-- Restoring a regular file from `w` fills it. -/
inductive FileFills (cfg : Config) (details : Details) (tmp : Bytes) (w : World) : Filling → Prop
  | data {data : Bytes} {i : Nat} {w' : World}
      (hdata : details.getdetail (lit "data") = some data)
      (hopen : Hostfs.openWrite cfg tmp w = .ok i w') :
      FileFills cfg details tmp w ⟨w'.clock, data, none⟩
  | object {text : Bytes} {hash : Hash} {i : Nat} {src : InFile} {w' w'' : World}
      (hdata : details.getdetail (lit "data") = none)
      (hname : details.getdetail HASH_NAME = some text) (hhash : hashdecode text = .ok hash)
      (hopen : Hostfs.openWrite cfg tmp w = .ok i w')
      (hread : Backupfs.openRead cfg (objectPath cfg.repo hash) w' = .ok src w'') :
      FileFills cfg details tmp w ⟨w''.clock, src.rest, src.fault⟩

/-- Restoring an entry from `w` fills a file: it is a regular one, and not a link to one that has been
restored. -/
inductive EntryFills (cfg : Config) (r : Restoring) (details : Details) (w : World)
    (a : Filling) : Prop
  | intro {name dir : Bytes} {w' : World}
      (hname : resolveName r.dir (cfg.convert (details.get (lit "name"))) = some (name, dir))
      (htmp : discardTmp cfg (tmpname (fullname cfg.root name)) w = .ok () w')
      (hlink : ((inodenum details).bind fun n => r.inodes.lookup n) = none)
      (htype : details.getdetail (lit "type") = none)
      (hfills : FileFills cfg details (tmpname (fullname cfg.root name)) w' a)

/-- The loop over the index comes to an entry that fills a file. -/
inductive LoopFills (cfg : Config) : Nat → InFile → Restoring → World → Filling → Prop
  | here {turns : Nat} {f f' : InFile} {r : Restoring} {w : World} {a : Filling} {details : Details}
      (hline : readIndexLine f = .ok (some details, f')) (hfills : EntryFills cfg r details w a) :
      LoopFills cfg (turns + 1) f r w a
  | later {turns : Nat} {f f' : InFile} {r r' : Restoring} {w w' : World} {a : Filling}
      {details : Details} (hline : readIndexLine f = .ok (some details, f'))
      (hentry : restoreEntry cfg r details w = .ok r' w') (hfills : LoopFills cfg turns f' r' w' a) :
      LoopFills cfg (turns + 1) f r w a

/-- The run of `do_restore` from `w` fills a file. -/
inductive RunFills (cfg : Config) (w : World) (a : Filling) : Prop
  | intro {f : InFile} {w' : World} (hgiven : cfg.toOptions.Given)
      (hopen : Backupfs.openRead cfg cfg.indexfile w = .ok f w')
      (hfills : LoopFills cfg f.turns f {} w' a)

/-! ### Calls -/

theorem propagates_throwExn (e : Exn) : StopsIn Propagates (throwExn e : M α) :=
  .throw (propagates_exn e)

theorem propagates_fatal (msg : String) : StopsIn Propagates (fatal msg : M α) :=
  .throw (propagates_fatalStop msg [])

theorem propagates_liftExcept (x : Except Exn α) : StopsIn Propagates (liftExcept x) := by
  cases x with
  | ok a => exact .pure a
  | error e => exact propagates_throwExn e

theorem propagates_tick : StopsIn Propagates (tick cfg) := by
  intro w
  rw [wp_tick]
  split
  · exact propagates_killed
  · trivial

theorem propagates_call (doing : String) (path : Bytes) :
    StopsIn Propagates (call cfg doing path) := by
  refine propagates_tick.bind fun m => ?_
  cases m.fault with
  | none => exact .pure _
  | some e => exact propagates_throwExn _

theorem propagates_error : StopsIn Propagates error := .modify _

theorem propagates_warning : StopsIn Propagates warning := .modify _

theorem propagates_openRead (path : Bytes) :
    StopsIn Propagates (Backupfs.openRead cfg path) :=
  propagates_tick.bind fun _ => .get_bind fun _ => propagates_liftExcept _

theorem propagates_apply (doing : String) (path : Bytes) (f : Target → Except Errno Target) :
    StopsIn Propagates (Hostfs.apply doing path f) := by
  refine .get_bind fun w => ?_
  cases f w.target with
  | error e => exact propagates_throwExn _
  | ok t => exact .modify _

theorem propagates_change (doing : String) (path : Bytes)
    (f : Int64 → Target → Except Errno Target) :
    StopsIn Propagates (Hostfs.change cfg doing path f) :=
  (propagates_call _ _).bind fun _ => propagates_apply _ _ _

theorem propagates_remove (path : Bytes) : StopsIn Propagates (Hostfs.remove cfg path) := by
  refine propagates_tick.bind fun m => ?_
  cases m.stuck with
  | some e => exact propagates_throwExn _
  | none => exact propagates_apply _ _ _

theorem propagates_exists (path : Bytes) : StopsIn Propagates (Hostfs.exists_ cfg path) := by
  refine (propagates_call _ _).bind fun m => .get_bind fun w => .ite (.pure _) ?_
  split
  · exact .pure _
  · exact .ite (propagates_throwExn _) (.pure _)
  · exact .ite (.pure _) (propagates_throwExn _)

theorem propagates_openWrite (path : Bytes) : StopsIn Propagates (Hostfs.openWrite cfg path) := by
  refine (propagates_call _ _).bind fun m => .get_bind fun w => ?_
  split
  · exact propagates_throwExn _
  · exact .bind (.modify _) fun _ => .pure _

theorem propagates_string2id (table : Names → List (Bytes × UInt32))
    (remember : Names → Bytes → UInt32 → Names) (getid : Bytes → Option UInt32) (msg : String)
    (s : Bytes) : StopsIn Propagates (string2id table remember getid msg s) := by
  refine .get_bind fun w => ?_
  split
  · exact .pure _
  refine .ite (.bind (.modify _) fun _ => .pure _) ?_
  split
  · exact .bind (.modify _) fun _ => .pure _
  · exact .throw (propagates_fatalStop _ _)

/-- The file is opened and read, or the process ends, or an exception is thrown. -/
theorem stops_openRead (path : Bytes) :
    StopsIn (fun stop => stop = .killed ∨ ∃ e, stop = .exn e) (Backupfs.openRead cfg path) := by
  intro w
  rw [Backupfs.openRead, wp_bind, wp_tick]
  split
  · exact .inl rfl
  · rw [wp_bind, wp_get, wp_liftExcept]
    split
    · trivial
    · exact .inr ⟨_, rfl⟩

theorem liftExcept_eq_ok {x : Except Exn α} {a : α} {w w' : World} :
    liftExcept x w = .ok a w' ↔ x = .ok a ∧ w' = w := by
  cases x with
  | ok b =>
    constructor
    · rintro ⟨⟩
      exact ⟨rfl, rfl⟩
    · rintro ⟨⟨⟩, rfl⟩
      rfl
  | error e =>
    refine iff_of_false ?_ (by simp)
    rintro ⟨⟩

/-! ### Writing a file -/

/-- `n` writes have been made since `start`, none of which has failed. -/
structure Wrote (cfg : Config) (start n : Nat) (f : File World) : Prop where
  clock : f.dev.clock = start + n
  well : WritesWell cfg start n

/-- One of the first `bound` writes since `start` ends the process, or fails and leaves the file with
characters in its buffer. -/
def StopsAt (cfg : Config) (start bound : Nat) (stop : FileStop) (f : File World) : Prop :=
  ∃ n < bound, WritesWell cfg start n ∧
    (stop = .killed ∧ (cfg.env (start + n)).killed = true ∨
      (∃ e, stop = .exn e) ∧ f.destructible = false ∧ (cfg.env (start + n)).killed = false ∧
        (cfg.env (start + n)).full ≠ none)

variable {start n bound : Nat} {f : File World} {path : Bytes} {i : Nat}

theorem WritesWell.succ (h : WritesWell cfg start n)
    (hkilled : (cfg.env (start + n)).killed = false) (hfull : (cfg.env (start + n)).full = none) :
    WritesWell cfg start (n + 1) := by
  intro i hi
  rcases Nat.lt_succ_iff_lt_or_eq.mp hi with hlt | rfl
  · exact h i hlt
  · exact ⟨hkilled, hfull⟩

theorem StopsAt.mono {stop : FileStop} (h : StopsAt cfg start n stop f) (hle : n ≤ bound) :
    StopsAt cfg start bound stop f := by
  obtain ⟨k, hk, hstop⟩ := h
  exact ⟨k, hk.trans_le hle, hstop⟩

/-- **A flush makes one write**, and the buffer is empty only behind it. -/
theorem wp_flush_writes (hwrote : Wrote cfg start n f) (hmode : f.mode = .writing)
    (hbuf : f.buf ≠ []) :
    wp (flush (Hostfs.virtual cfg path i))
      (fun _ f' => Wrote cfg start (n + 1) f' ∧ f'.mode = .writing ∧ f'.buf = [])
      (StopsAt cfg start (n + 1)) f := by
  have hfilled : f.mode = .writing ∧ f.buf.length ≠ 0 := ⟨hmode, by simpa using hbuf⟩
  have hfull : ∀ w, ({ f with dev := w } : File World).destructible = false := by
    intro w
    simp [destructible, hmode, hbuf]
  rw [flush, wp_bind, wp_get, wp_bind, wp_require, if_pos (by simp [hmode]), wp_bind, writeBuffer,
    wp_bind, wp_get, if_pos hfilled, wp_onDevice]
  change wp (Hostfs.asVirtual (Hostfs.writebytes cfg path i f.buf)) _ _ f.dev
  rw [wp_asVirtual, Hostfs.writebytes, wp_bind, wp_tick, hwrote.clock]
  split
  · rename_i hkilled
    exact ⟨n, Nat.lt_succ_self n, hwrote.well, .inl ⟨rfl, hkilled⟩⟩
  rename_i hkilled
  have hkilled : (cfg.env (start + n)).killed = false := by simpa using hkilled
  cases hm : (cfg.env (start + n)).full with
  | some e =>
    refine ⟨n, Nat.lt_succ_self n, hwrote.well, .inr ⟨⟨_, rfl⟩, hfull _, hkilled, ?_⟩⟩
    rw [hm]
    exact Option.some_ne_none e
  | none =>
    exact ⟨⟨rfl, hwrote.well.succ hkilled hm⟩, rfl, rfl⟩

/-- What `text` leaves when all of it has been put: at least one character in the buffer, and a write
for every buffer that was full. -/
structure Filled (cfg : Config) (start : Nat) (text : Bytes) (f : File World) : Prop where
  mode : f.mode = .writing
  buf : f.buf ≠ []
  room : f.buf.length ≤ BUFFER_SIZE
  wrote : ∃ n, f.buf.length + BUFFER_SIZE * n = text.length ∧ Wrote cfg start n f

/-- Nothing has been put yet. -/
def Fresh (start : Nat) (f : File World) : Prop := f.mode = .none ∧ f.buf = [] ∧ f.dev.clock = start

/-- The first flush makes no write. -/
theorem wp_flush_fresh (h : Fresh start f) :
    wp (flush (Hostfs.virtual cfg path i))
      (fun _ f' => Wrote cfg start 0 f' ∧ f'.mode = .writing ∧ f'.buf = []) (fun _ _ => False) f := by
  obtain ⟨hmode, hbuf, hclock⟩ := h
  rw [flush, wp_bind, wp_get, wp_bind, wp_require, if_pos (by simp [hmode]), wp_bind, writeBuffer,
    wp_bind, wp_get, if_neg (by simp [hmode])]
  exact ⟨⟨hclock, fun i hi => absurd hi (Nat.not_lt_zero i)⟩, rfl, rfl⟩

theorem length_pos_of_filled {text : Bytes} (h : Filled cfg start text f) : text ≠ [] := by
  obtain ⟨n, hn, -⟩ := h.wrote
  have hpos := List.length_pos_iff.mpr h.buf
  rintro rfl
  rw [List.length_nil] at hn
  omega

/-- One character: there is a write in front of it if the buffer is full. -/
theorem wp_putc_filled {text : Bytes} {c : UInt8} (hbound : text.length / BUFFER_SIZE ≤ bound)
    (h : text = [] ∧ Fresh start f ∨ Filled cfg start text f) :
    wp (putc (Hostfs.virtual cfg path i) c) (fun _ f' => Filled cfg start (text ++ [c]) f')
      (StopsAt cfg start bound) f := by
  rw [putc, wp_bind, makeRoom, wp_bind, wp_get]
  -- the first character finds the buffer empty and writes nothing
  rcases h with ⟨rfl, hfresh⟩ | h
  · have htop : f.atTop = true := by
      rw [atTop, hfresh.1]
    rw [if_pos htop]
    refine wp_mono (wp_flush_fresh hfresh) ?_ fun _ _ h => h.elim
    rintro _ f' ⟨hwrote, hmode, hbuf⟩
    refine ⟨hmode, ?_, ?_, 0, ?_, hwrote.clock, hwrote.well⟩
    · simp [hmode]
    · simp [hmode, hbuf, BUFFER_SIZE]
    · simp [hmode, hbuf]
  obtain ⟨hmode, hne, hroom, n, hlen, hwrote⟩ := h
  -- a full buffer is written before the character goes into the next one
  by_cases htop : f.buf.length = BUFFER_SIZE
  · rw [if_pos (by simp [atTop, hmode, htop])]
    have hn : n + 1 ≤ bound := by
      refine le_trans ?_ hbound
      rw [← hlen, htop, Nat.add_mul_div_left _ _ (by decide), Nat.div_self (by decide)]
      omega
    refine wp_mono (wp_flush_writes hwrote hmode hne) ?_ fun _ _ h => h.mono hn
    rintro _ f' ⟨hwrote', hmode', hbuf'⟩
    refine ⟨hmode', ?_, ?_, n + 1, ?_, hwrote'.clock, hwrote'.well⟩
    · simp [hmode']
    · simp [hmode', hbuf', BUFFER_SIZE]
    · simp only [hmode', hbuf', List.length_append, List.length_singleton, ← hlen, htop]
      simp only [reduceCtorEq, if_false, List.nil_append, List.length_singleton]
      rw [Nat.mul_succ]
      omega
  · rw [if_neg (by simp [atTop, hmode, htop])]
    refine ⟨hmode, ?_, ?_, n, ?_, hwrote.clock, hwrote.well⟩
    · simp [hmode]
    · simp only [hmode, reduceCtorEq, if_false, List.length_append, List.length_singleton]
      omega
    · simp only [hmode, reduceCtorEq, if_false, List.length_append, List.length_singleton]
      omega

/-- **Putting a text** into a file that has just been opened. -/
theorem wp_put_filled (text : Bytes) (w : World) :
    wp (put (Hostfs.virtual cfg path i) text)
      (fun _ f => text = [] ∧ Fresh w.clock f ∨ Filled cfg w.clock text f)
      (StopsAt cfg w.clock ((text.length - 1) / BUFFER_SIZE)) { dev := w } := by
  refine wp_forM (fun pre f => pre = [] ∧ Fresh w.clock f ∨ Filled cfg w.clock pre f) ?_
    (.inl ⟨rfl, rfl, rfl, rfl⟩)
  intro pre c post f htext h
  refine wp_mono (wp_putc_filled ?_ h) (fun _ _ h => .inr h) fun _ _ h => h
  have hlen := congrArg List.length htext
  rw [List.length_append, List.length_cons] at hlen
  exact Nat.div_le_div_right (by omega)

/-! ### Broken off or not -/

theorem not_breaksOff_of_killed {a : Filling} (hwell : WritesWell cfg a.start n) (hn : n < a.writes)
    (hkilled : (cfg.env (a.start + n)).killed = true) : ¬ a.BreaksOff cfg := by
  rintro (⟨k, hk, hwell', halive, hfull⟩ | ⟨-, -, hall⟩)
  · rcases Nat.lt_trichotomy n k with hlt | rfl | hgt
    · rw [(hwell' n hlt).1] at hkilled
      cases hkilled
    · rw [halive] at hkilled
      cases hkilled
    · exact hfull (hwell k hgt).2
  · rw [(hall n hn).1] at hkilled
    cases hkilled

theorem not_breaksOff_of_well {a : Filling} (hwell : WritesWell cfg a.start a.writes)
    (hfault : a.fault = none ∨ a.text = []) : ¬ a.BreaksOff cfg := by
  rintro (⟨k, hk, -, -, hfull⟩ | ⟨hnone, hne, -⟩)
  · exact hfull (hwell k hk).2
  · rcases hfault with h | h
    · exact hnone h
    · exact hne h

/-- The file is deleted as it should be, unless `P`. -/
def DeletedUnless (P : Prop) (body : FileM World Unit) (w : World) : Prop :=
  wp body (fun _ f => f.destructible = true ∧ ¬ P)
    (fun stop f => stop = .killed ∧ ¬ P ∨ (∃ e, stop = .exn e) ∧ (f.destructible = false ↔ P))
    { dev := w }

theorem deletedUnless_of_stopsAt {a : Filling} {stop : FileStop}
    (h : StopsAt cfg a.start n stop f) (hn : n ≤ a.writes) :
    stop = .killed ∧ ¬ a.BreaksOff cfg ∨
      (∃ e, stop = .exn e) ∧ (f.destructible = false ↔ a.BreaksOff cfg) := by
  obtain ⟨k, hk, hwell, ⟨rfl, hkilled⟩ | ⟨hexn, hd, hkilled, hfull⟩⟩ := h
  · exact .inl ⟨rfl, not_breaksOff_of_killed hwell (hk.trans_le hn) hkilled⟩
  · exact .inr ⟨hexn, iff_of_true hd (.inl ⟨k, hk.trans_le hn, hwell, hkilled, hfull⟩)⟩

/-- **The file is deleted in the middle of a block exactly if it is broken off.** -/
theorem deletedUnless_copyInto (src : InFile) (w : World) :
    DeletedUnless (Filling.BreaksOff cfg ⟨w.clock, src.rest, src.fault⟩)
      (copyInto (Hostfs.virtual cfg path i) src) w := by
  have hle : (src.rest.length - 1) / BUFFER_SIZE ≤
      Filling.writes ⟨w.clock, src.rest, src.fault⟩ := by
    cases hfault : src.fault with
    | none =>
      have hless : src.rest.length - 1 ≤ src.rest.length + (BUFFER_SIZE - 1) := by omega
      exact Nat.div_le_div_right hless
    | some e => exact le_rfl
  unfold DeletedUnless
  rw [copyInto, wp_bind]
  refine wp_mono (wp_put_filled src.rest w) ?_ fun _ _ h => deletedUnless_of_stopsAt h hle
  rintro _ f h
  cases hfault : src.fault with
  | some e =>
    rcases h with ⟨hnil, hmode, -⟩ | h
    · -- nothing has been put
      have hd : f.destructible = true := by simp [destructible, hmode]
      refine .inr ⟨⟨e, rfl⟩, iff_of_false (by simp [hd]) ?_⟩
      rw [hnil]
      refine not_breaksOff_of_well (fun i hi => ?_) (.inr rfl)
      exact absurd hi (by simp [Filling.writes])
    · have hd : f.destructible = false := by simp [destructible, h.mode, h.buf]
      obtain ⟨n, hlen, hwrote⟩ := h.wrote
      refine .inr ⟨⟨e, rfl⟩, iff_of_true hd (.inr ⟨by simp, length_pos_of_filled h, ?_⟩)⟩
      have hpos := List.length_pos_iff.mpr h.buf
      have hroom := h.room
      have hn : Filling.writes ⟨w.clock, src.rest, some e⟩ = n := by
        change (src.rest.length - 1) / BUFFER_SIZE = n
        rw [← hlen, Nat.div_eq_iff (by decide)]
        unfold BUFFER_SIZE at hroom ⊢
        omega
      rw [hn]
      exact hwrote.well
  | none =>
    rcases h with ⟨hnil, hfresh⟩ | h
    · refine wp_mono (wp_flush_fresh hfresh) ?_ fun _ _ h => h.elim
      rintro _ f' ⟨-, hmode, hbuf⟩
      refine ⟨by simp [destructible, hbuf], ?_⟩
      rw [hnil]
      refine not_breaksOff_of_well (fun i hi => ?_) (.inl rfl)
      exact absurd hi (by simp [Filling.writes, BUFFER_SIZE])
    · obtain ⟨n, hlen, hwrote⟩ := h.wrote
      have hpos := List.length_pos_iff.mpr h.buf
      have hroom := h.room
      have hn : Filling.writes ⟨w.clock, src.rest, none⟩ = n + 1 := by
        change (src.rest.length + (BUFFER_SIZE - 1)) / BUFFER_SIZE = n + 1
        rw [← hlen, Nat.div_eq_iff (by decide)]
        unfold BUFFER_SIZE at hroom ⊢
        omega
      refine wp_mono (wp_flush_writes hwrote h.mode h.buf) ?_ fun _ _ h =>
        deletedUnless_of_stopsAt h hn.ge
      rintro _ f' ⟨hwrote', -, hbuf⟩
      refine ⟨by simp [destructible, hbuf], not_breaksOff_of_well ?_ (.inl rfl)⟩
      rw [hn]
      exact hwrote'.well

/-- A file that is deleted. -/
theorem mayStop_withFile {P : Prop} {body : FileM World Unit} {w : World}
    (h : DeletedUnless P body w) : MayStop Aborts (Hostfs.withFile body) w ↔ P := by
  unfold MayStop Hostfs.withFile
  cases hrun : body { dev := w } with
  | ok a f =>
    obtain ⟨hd, hP⟩ := wp_elim_ok h hrun
    dsimp only
    rw [if_pos hd]
    exact iff_of_false (by simp) hP
  | error stop f =>
    rcases wp_elim_error h hrun with ⟨rfl, hP⟩ | ⟨⟨e, rfl⟩, hd⟩
    · exact iff_of_false (by simp [Aborts]) hP
    · dsimp only
      by_cases hP : P
      · rw [if_neg (by simp [hd.mpr hP])]
        exact iff_of_true ⟨_, _, rfl, _, rfl⟩ hP
      · rw [if_pos (by simpa using mt hd.mp hP)]
        exact iff_of_false (by simp [Aborts]) hP

theorem mayStop_restoreData (tmp data : Bytes) (w : World) :
    MayStop Aborts (restoreData cfg tmp data) w ↔
      ∃ i w', Hostfs.openWrite cfg tmp w = .ok i w' ∧
        Filling.BreaksOff cfg ⟨w'.clock, data, none⟩ := by
  rw [restoreData, (propagates_openWrite tmp).mayStop_bind]
  have hfile : ∀ i w', MayStop Aborts (Hostfs.withFile (copyInto (Hostfs.virtual cfg tmp i) ⟨data, none⟩))
      w' ↔ Filling.BreaksOff cfg ⟨w'.clock, data, none⟩ := fun i w' =>
    mayStop_withFile (deletedUnless_copyInto ⟨data, none⟩ w')
  constructor
  · rintro ⟨i, w', hopen, h⟩
    exact ⟨i, w', hopen, (hfile i w').mp h⟩
  · rintro ⟨i, w', hopen, h⟩
    exact ⟨i, w', hopen, (hfile i w').mpr h⟩

/-- The object is opened, and copied. -/
theorem mayStop_copyObject (tmp : Bytes) (hash : Hash) (i : Nat) (w : World) :
    MayStop Aborts (Hostfs.withFile do
        let src ← onDevice (Hostfs.asVirtual (Backupfs.openRead cfg (objectPath cfg.repo hash)))
        copyInto (Hostfs.virtual cfg tmp i) src) w ↔
      ∃ src w', Backupfs.openRead cfg (objectPath cfg.repo hash) w = .ok src w' ∧
        Filling.BreaksOff cfg ⟨w'.clock, src.rest, src.fault⟩ := by
  refine mayStop_withFile ?_
  unfold DeletedUnless
  rw [wp_bind, wp_onDevice, wp_asVirtual]
  cases hopen : Backupfs.openRead cfg (objectPath cfg.repo hash) w with
  | ok src w' =>
    refine wp_of_ok hopen ?_
    have hsame : (∃ src₁ w₁, EStateM.Result.ok src w' = (.ok src₁ w₁ : EStateM.Result Stop World InFile) ∧
        Filling.BreaksOff cfg ⟨w₁.clock, src₁.rest, src₁.fault⟩) ↔
          Filling.BreaksOff cfg ⟨w'.clock, src.rest, src.fault⟩ := by
      constructor
      · rintro ⟨_, _, ⟨⟩, h⟩
        exact h
      · exact fun h => ⟨src, w', rfl, h⟩
    rw [hsame]
    exact deletedUnless_copyInto src w'
  | error stop w' =>
    have hnot : ¬ ∃ src₁ w₁, EStateM.Result.error stop w' =
        (.ok src₁ w₁ : EStateM.Result Stop World InFile) ∧
          Filling.BreaksOff cfg ⟨w₁.clock, src₁.rest, src₁.fault⟩ := by
      rintro ⟨_, _, ⟨⟩, -⟩
    have hstops := wp_elim_error (stops_openRead (objectPath cfg.repo hash) w) hopen
    rw [wp, hopen]
    rcases hstops with rfl | ⟨e, rfl⟩
    · exact .inl ⟨rfl, hnot⟩
    · exact .inr ⟨⟨e, rfl⟩, iff_of_false (by simp [destructible]) hnot⟩

/-! ### The run -/

theorem propagates_discardTmp (tmp : Bytes) : StopsIn Propagates (discardTmp cfg tmp) := by
  refine .tryCatch (propagates_remove _) fun stop hstop => ?_
  split
  · exact .pure _
  · exact .throw hstop

theorem propagates_makeSocket (tmp : Bytes) : StopsIn Propagates (makeSocket cfg tmp) := by
  refine .ite (propagates_error.bind fun _ => .pure _) (propagates_tick.bind fun m => ?_)
  refine .ite (propagates_fatal _) (.bind (.tryCatch ?_ fun stop hstop => ?_) fun bound => ?_)
  · exact (propagates_change _ _ _).bind fun _ => .pure _
  · split
    · exact .pure _
    · exact .throw hstop
  · refine .ite (propagates_tick.bind fun m => ?_) (propagates_error.bind fun _ => .pure _)
    exact .ite (propagates_fatal _) (.pure _)

theorem propagates_makeSpecial (details : Details) (type full : Bytes) (mode : UInt32) :
    StopsIn Propagates (makeSpecial cfg details type full mode) := by
  refine .ite ?_ (.ite ?_ (.ite ?_ (.ite ?_ ?_)))
  · exact (propagates_change _ _ _).bind fun _ => .pure _
  · refine (propagates_exists _).bind fun found => .ite ?_ ?_
    · exact propagates_warning.bind fun _ => .pure _
    · exact (propagates_change _ _ _).bind fun _ => .pure _
  · exact (propagates_change _ _ _).bind fun _ => .pure _
  · exact (propagates_makeSocket _).bind fun _ => .pure _
  · exact propagates_error.bind fun _ => .pure _

theorem propagates_fixAttributes (details : Details) (mode : UInt32) (full : Bytes) :
    StopsIn Propagates (fixAttributes cfg details mode full) := by
  refine .bind (.ite ?_ (.pure _)) fun _ => .ite (.pure _) (.bind (.ite ?_ (.pure _)) fun _ =>
    .ite (.pure _) ?_)
  · refine (propagates_string2id _ _ _ _ _).bind fun uid => ?_
    exact (propagates_string2id _ _ _ _ _).bind fun gid => propagates_change _ _ _
  · exact propagates_change _ _ _
  · exact (propagates_change _ _ _).bind fun _ => .pure _

/-- **A regular file**: its own filling is broken off. -/
theorem mayStop_restoreRegular (details : Details) (tmp : Bytes) (w : World) :
    MayStop Aborts (restoreRegular cfg details tmp) w ↔
      ∃ a, FileFills cfg details tmp w a ∧ a.BreaksOff cfg := by
  have hreturn : ∀ b : Bool, StopsIn Propagates (return b : M Bool) := fun b => .pure b
  unfold restoreRegular
  -- the entry has its data, or names an object, or can not be restored
  cases hdata : details.getdetail (lit "data") with
  | some data =>
    dsimp only
    rw [mayStop_bind_left fun _ => hreturn true, mayStop_restoreData]
    constructor
    · rintro ⟨i, w', hopen, hbreaks⟩
      exact ⟨_, .data hdata hopen, hbreaks⟩
    · rintro ⟨_, ⟨hdata', hopen⟩ | ⟨hdata', -, -, -, -⟩, hbreaks⟩
      · rw [hdata] at hdata'
        cases hdata'
        exact ⟨_, _, hopen, hbreaks⟩
      · rw [hdata] at hdata'
        cases hdata'
  | none =>
    dsimp only
    cases hname : details.getdetail HASH_NAME with
    | none =>
      refine iff_of_false ((propagates_error.bind fun _ => hreturn false).not_mayStop w) ?_
      rintro ⟨_, ⟨hdata', -⟩ | ⟨-, hname', -, -, -⟩, -⟩
      · rw [hdata] at hdata'
        cases hdata'
      · rw [hname] at hname'
        cases hname'
    | some text =>
      dsimp only
      rw [mayStop_bind_left fun _ => hreturn true, restoreHash,
        (propagates_liftExcept _).mayStop_bind]
      constructor
      · rintro ⟨hash, w₁, hhash, h⟩
        obtain ⟨hdecoded, rfl⟩ := liftExcept_eq_ok.mp hhash
        rw [(propagates_openWrite tmp).mayStop_bind] at h
        obtain ⟨i, w₂, hopen, h⟩ := h
        obtain ⟨src, w₃, hread, hbreaks⟩ := (mayStop_copyObject tmp hash i w₂).mp h
        exact ⟨_, .object hdata hname hdecoded hopen hread, hbreaks⟩
      · rintro ⟨_, ⟨hdata', -⟩ | ⟨-, hname', hhash, hopen, hread⟩, hbreaks⟩
        · rw [hdata] at hdata'
          cases hdata'
        rw [hname] at hname'
        cases hname'
        refine ⟨_, w, liftExcept_eq_ok.mpr ⟨hhash, rfl⟩, ?_⟩
        rw [(propagates_openWrite tmp).mayStop_bind]
        exact ⟨_, _, hopen, (mayStop_copyObject tmp _ _ _).mpr ⟨_, _, hread, hbreaks⟩⟩

theorem mayStop_makeObject (details : Details) (full : Bytes) (w : World) :
    MayStop Aborts (makeObject cfg details full) w ↔ details.getdetail (lit "type") = none ∧
      ∃ a, FileFills cfg details (tmpname full) w a ∧ a.BreaksOff cfg := by
  unfold makeObject
  dsimp only
  cases htype : details.getdetail (lit "type") with
  | some type =>
    refine iff_of_false ((propagates_makeSpecial details type full _).not_mayStop w) ?_
    rintro ⟨h, -⟩
    cases h
  | none =>
    dsimp only
    rw [mayStop_bind_left fun _ => .pure _, mayStop_restoreRegular]
    exact (and_iff_right rfl).symm

theorem mayStop_restoreNew (details : Details) (full : Bytes) (r : Restoring) (w : World) :
    MayStop Aborts (restoreNew cfg details full r) w ↔ details.getdetail (lit "type") = none ∧
      ∃ a, FileFills cfg details (tmpname full) w a ∧ a.BreaksOff cfg := by
  unfold restoreNew
  refine (mayStop_bind_left fun made => ?_).trans (mayStop_makeObject details full w)
  cases made with
  | none => exact .pure _
  | some mode =>
    refine (propagates_fixAttributes _ _ _).bind fun stamps => ?_
    exact (propagates_change _ _ _).bind fun _ => .pure _

/-- **One entry.** -/
theorem mayStop_restoreEntry (r : Restoring) (details : Details) (w : World) :
    MayStop Aborts (restoreEntry cfg r details) w ↔
      ∃ a, EntryFills cfg r details w a ∧ a.BreaksOff cfg := by
  unfold restoreEntry
  cases hname : resolveName r.dir (cfg.convert (details.get (lit "name"))) with
  | none =>
    refine iff_of_false ((propagates_error.bind fun _ => .pure _).not_mayStop w) ?_
    rintro ⟨a, ⟨hname', -, -, -, -⟩, -⟩
    rw [hname] at hname'
    cases hname'
  | some p =>
    obtain ⟨name, dir⟩ := p
    dsimp only
    rw [(propagates_discardTmp _).mayStop_bind]
    cases hlink : (inodenum details).bind fun n => r.inodes.lookup n with
    | some path =>
      -- a link to a file that has been restored
      refine iff_of_false ?_ ?_
      · rintro ⟨_, w', -, hstop⟩
        refine StopsIn.not_mayStop ?_ w' hstop
        refine (propagates_change _ _ _).bind fun _ => ?_
        exact (propagates_change _ _ _).bind fun _ => .pure _
      · rintro ⟨a, ⟨-, -, hlink', -, -⟩, -⟩
        rw [hlink] at hlink'
        cases hlink'
    | none =>
      constructor
      · rintro ⟨_, w', htmp, hstop⟩
        obtain ⟨htype, a, hfills, hbreaks⟩ := (mayStop_restoreNew _ _ _ _).mp hstop
        exact ⟨a, ⟨hname, htmp, hlink, htype, hfills⟩, hbreaks⟩
      · rintro ⟨a, ⟨hname', htmp, -, htype, hfills⟩, hbreaks⟩
        rw [hname] at hname'
        cases hname'
        exact ⟨_, _, htmp, (mayStop_restoreNew _ _ _ _).mpr ⟨htype, a, hfills, hbreaks⟩⟩

/-- **The loop**, by induction on its turns. -/
theorem mayStop_restoreEntries : ∀ (turns : Nat) (f : InFile) (r : Restoring) (w : World),
    MayStop Aborts (restoreEntries cfg turns f r) w ↔
      ∃ a, LoopFills cfg turns f r w a ∧ a.BreaksOff cfg := by
  intro turns
  induction turns with
  | zero =>
    intro f r w
    refine iff_of_false (StopsIn.not_mayStop (.pure r) w) ?_
    rintro ⟨a, ⟨⟩, -⟩
  | succ turns ih =>
    intro f r w
    unfold restoreEntries
    -- without a next entry nothing is filled, and the loop is over
    cases hline : readIndexLine f with
    | error e =>
      refine iff_of_false ((propagates_throwExn e).not_mayStop w) ?_
      rintro ⟨a, ⟨hline', -⟩ | ⟨hline', -, -⟩, -⟩
      · rw [hline] at hline'
        cases hline'
      · rw [hline] at hline'
        cases hline'
    | ok p =>
      obtain ⟨_ | details, f'⟩ := p
      · refine iff_of_false (StopsIn.not_mayStop (.pure r) w) ?_
        rintro ⟨a, ⟨hline', -⟩ | ⟨hline', -, -⟩, -⟩
        · rw [hline] at hline'
          cases hline'
        · rw [hline] at hline'
          cases hline'
      · dsimp only
        rw [mayStop_bind, mayStop_restoreEntry]
        -- this entry breaks off, or it is restored and one of the others does
        constructor
        · rintro (⟨a, hfills, hbreaks⟩ | ⟨r', w', hentry, hstop⟩)
          · exact ⟨a, .here hline hfills, hbreaks⟩
          · obtain ⟨a, hfills, hbreaks⟩ := (ih f' r' w').mp hstop
            exact ⟨a, .later hline hentry hfills, hbreaks⟩
        · rintro ⟨a, ⟨hline', hfills⟩ | ⟨hline', hentry, hfills⟩, hbreaks⟩
          · rw [hline] at hline'
            cases hline'
            exact .inl ⟨a, hfills, hbreaks⟩
          · rw [hline] at hline'
            cases hline'
            exact .inr ⟨_, _, hentry, (ih _ _ _).mpr ⟨a, hfills, hbreaks⟩⟩

/-- **A restore never fails the assertion exactly if no file that it fills is broken off**: no write
that it makes to one fails, and no reading of a stored object fails after some bytes. -/
theorem do_restore_never_asserts_iff (cfg : Config) (w : World) :
    (∀ what w', do_restore cfg w ≠ .error (.assertion what) w') ↔
      ∀ a, RunFills cfg w a → ¬ a.BreaksOff cfg := by
  have hruns : MayStop Aborts (do_restore cfg) w ↔ ∃ a, RunFills cfg w a ∧ a.BreaksOff cfg := by
    unfold do_restore
    by_cases hgiven : cfg.toOptions.Given
    · obtain ⟨hrepo, hroot, hindex⟩ := hgiven
      rw [if_neg hrepo, if_neg hroot, if_neg hindex, (propagates_openRead _).mayStop_bind]
      -- the times of directories come after all files
      have hdirs : ∀ r : Restoring, StopsIn Propagates (fixDirtimes cfg r.dirtimes) := fun r =>
        .forM (fun d => propagates_change _ _ _) _
      constructor
      · rintro ⟨f, w', hopen, hstop⟩
        rw [mayStop_bind_left hdirs, mayStop_restoreEntries] at hstop
        obtain ⟨a, hfills, hbreaks⟩ := hstop
        exact ⟨a, ⟨⟨hrepo, hroot, hindex⟩, hopen, hfills⟩, hbreaks⟩
      · rintro ⟨a, ⟨-, hopen, hfills⟩, hbreaks⟩
        refine ⟨_, _, hopen, ?_⟩
        rw [mayStop_bind_left hdirs, mayStop_restoreEntries]
        exact ⟨a, hfills, hbreaks⟩
    -- an option is missing, and nothing is restored
    · refine iff_of_false ?_ fun ⟨_, ⟨h, _, _⟩, _⟩ => hgiven h
      rintro ⟨stop, w', hrun, habort⟩
      have hfatal : ∀ msg, StopsIn Propagates (fatal msg : M Unit) := fun msg => propagates_fatal msg
      by_cases hrepo : cfg.repo = []
      · rw [if_pos hrepo] at hrun
        exact (hfatal _).not_mayStop w ⟨stop, w', hrun, habort⟩
      by_cases hroot : cfg.root = []
      · rw [if_neg hrepo, if_pos hroot] at hrun
        exact (hfatal _).not_mayStop w ⟨stop, w', hrun, habort⟩
      by_cases hindex : cfg.indexfile = []
      · rw [if_neg hrepo, if_neg hroot, if_pos hindex] at hrun
        exact (hfatal _).not_mayStop w ⟨stop, w', hrun, habort⟩
      · exact hgiven ⟨hrepo, hroot, hindex⟩
  constructor
  · intro h a hfills hbreaks
    obtain ⟨_, w', hrun, what, rfl⟩ := hruns.mpr ⟨a, hfills, hbreaks⟩
    exact h what w' hrun
  · intro h what w' hrun
    obtain ⟨a, hfills, hbreaks⟩ := hruns.mp ⟨_, w', hrun, what, rfl⟩
    exact h a hfills hbreaks

/-! ### A disk that is full -/

theorem length_sevens : (List.replicate HASH_SIZE (7 : UInt8)).length = HASH_SIZE :=
  List.length_replicate

/-- The restore of an index from `/i` to `/r`; writes to restored files fail with `full`. -/
def smallRestore (full : Option Errno) : Config where
  repo := lit "/repo"
  root := lit "/r"
  indexfile := lit "/i"
  hintfile := []
  crossfs := true
  preserve_atime := false
  overwrite_index := false
  permissions := false
  recheckhash := true
  detectbogus := false
  deleteclean := false
  sftp := false
  excluded := fun _ => false
  sha1 := fun _ => ⟨List.replicate HASH_SIZE 7, length_sevens⟩
  users := ⟨fun _ => none, fun _ => none, fun _ => none, fun _ => none⟩
  env _ := {
    killed := false
    fault := none
    written := 0
    reads := fun _ => none
    early := false
    host := {
      contents := fun _ => .error ENOENT
      lstat := fun _ => .error ENOENT
      data := fun _ => .error ENOENT
      readlink := fun _ => .error ENOENT
      ismount := fun _ => .error ENOENT
      utimes := fun _ => .error ENOENT }
    full }

/-- The directory `/r` is empty, and `index` is in `/i`. -/
def emptyRoot (index : Bytes) : World where
  store := (∅ : Store).insert (lit "/i") (.file index)
  target := {
    names := (∅ : AList fun _ : List Bytes => Nat).insert [lit "r"] 0
    inodes := [⟨.dir, 0o755, 0, 0, 0, 0⟩] }

/-- A file of one byte on a disk that is full: the exception does not get out. -/
theorem not_never_asserts : ¬ ∀ (cfg : Config) (w w' : World) (what : String),
    do_restore cfg w ≠ .error (.assertion what) w' := by
  intro h
  have hstop : stop? (do_restore (smallRestore (some 28)))
      (emptyRoot (lit "name=a&data=x\n[end]\n")) = some (.assertion Hostfs.emptied) := by
    decide +kernel
  exact h _ _ _ _ (error_of_stop? hstop)

/-- On a disk with room for it the file is restored, and a disk that is full does no harm to a run that
writes nothing. -/
example : stop? (do_restore (smallRestore none)) (emptyRoot (lit "name=a&data=x\n[end]\n")) = none ∧
    stop? (do_restore (smallRestore (some 28))) (emptyRoot (lit "name=a&data=\n[end]\n")) = none := by
  decide +kernel

end Hbackup
