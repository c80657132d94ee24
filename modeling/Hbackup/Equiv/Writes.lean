import Hbackup.Equiv.World

/-!
# Writing to the backup filesystem

What is written to one path is seen only there (`Puts`).  A file opened for writing holds its text
partly in the store and partly in its buffer (`Holds`); when a write stops the program, a prefix of
the text is what the store is left with.
-/

namespace Hbackup

open ProgramLogic

/-! ### Frames -/

/-- Apart from the clock, the store and the hint files, nothing has changed. -/
structure SameBooks (w w' : World) : Prop where
  written : w'.written = w.written
  existence_inflight : w'.existence_inflight = w.existence_inflight
  existence : w'.existence = w.existence
  names : w'.names = w.names
  inrepo : w'.inrepo = w.inrepo
  hints : w'.hints = w.hints

theorem SameBooks.refl (w : World) : SameBooks w w := ⟨rfl, rfl, rfl, rfl, rfl, rfl⟩

theorem SameBooks.trans {w w' w'' : World} (h : SameBooks w w') (h' : SameBooks w' w'') :
    SameBooks w w'' :=
  ⟨h'.written.trans h.written, h'.existence_inflight.trans h.existence_inflight,
    h'.existence.trans h.existence, h'.names.trans h.names, h'.inrepo.trans h.inrepo,
    h'.hints.trans h.hints⟩

/-- The hint files and their contents have not changed. -/
structure SameHints (w w' : World) : Prop where
  hintStore : w'.hintStore = w.hintStore
  newhints : w'.newhints = w.newhints

theorem SameHints.refl (w : World) : SameHints w w := ⟨rfl, rfl⟩

theorem SameHints.trans {w w' w'' : World} (h : SameHints w w') (h' : SameHints w' w'') :
    SameHints w w'' := ⟨h'.hintStore.trans h.hintStore, h'.newhints.trans h.newhints⟩

/-- All that has changed is the file `path`. -/
structure Puts (path : Bytes) (w w' : World) : Prop where
  others : ∀ q ≠ path, w'.store.lookup q = w.store.lookup q
  books : SameBooks w w'
  hints : SameHints w w'

theorem Puts.refl (path : Bytes) (w : World) : Puts path w w := ⟨fun _ _ => rfl, .refl w, .refl w⟩

theorem Puts.trans {path : Bytes} {w w' w'' : World} (h : Puts path w w') (h' : Puts path w' w'') :
    Puts path w w'' :=
  ⟨fun q hq => (h'.others q hq).trans (h.others q hq), h.books.trans h'.books,
    h.hints.trans h'.hints⟩

theorem Puts.insert (path : Bytes) (node : Node) (w : World) (n : Nat) :
    Puts path w { w with clock := n, store := w.store.insert path node } :=
  ⟨fun _ hq => AList.lookup_insert_ne hq, ⟨rfl, rfl, rfl, rfl, rfl, rfl⟩, rfl, rfl⟩

theorem Puts.clock (path : Bytes) (w : World) (n : Nat) : Puts path w { w with clock := n } :=
  ⟨fun _ _ => rfl, ⟨rfl, rfl, rfl, rfl, rfl, rfl⟩, rfl, rfl⟩

/-! ### Calls that write -/

theorem wp_openWrite (cfg : Config) (path : Bytes) (w : World) :
    wp (Backupfs.openWrite cfg path)
      (fun o w' => w.store.hasParent path = true ∧ o = ⟨path, false, []⟩ ∧ w' = { w with
        clock := w.clock + 1
        store := w.store.insert path (.file [])
        written := path :: w.written })
      (fun _ w' => w' = { w with clock := w.clock + 1 }) w := by
  rw [Backupfs.openWrite, wp_bind]
  refine wp_mono (wp_call_untouched cfg _ path w) ?_ fun _ _ h => h.1
  rintro m w' ⟨-, rfl⟩
  rw [wp_bind, wp_get]
  split_ifs with hparent
  · exact rfl
  · exact rfl
  · exact ⟨by simpa using hparent, rfl, rfl⟩

theorem wp_writebytes (cfg : Config) {path d : Bytes} (block : Bytes) {w : World}
    (h : w.store.lookup path = some (.file d)) :
    wp (Backupfs.writebytes cfg path block)
      (fun _ w' => Puts path w w' ∧ w'.store.lookup path = some (.file (d ++ block)))
      (fun _ w' => Puts path w w' ∧
        ∃ d', w'.store.lookup path = some (.file d') ∧ d' <+: d ++ block) w := by
  rw [Backupfs.writebytes, wp_bind, wp_tick]
  split_ifs with hk
  · exact ⟨.clock path w _, d, h, List.prefix_append d block⟩
  rw [wp_bind, wp_get]
  simp only [h]
  cases hf : (cfg.env w.clock).fault with
  | some e =>
    refine ⟨.insert path _ w _, d ++ block.take (cfg.env w.clock).written,
      AList.lookup_insert _, ?_⟩
    exact (List.prefix_append_right_inj d).mpr (List.take_prefix _ block)
  | none => exact ⟨.insert path _ w _, AList.lookup_insert _⟩

theorem wp_rename (cfg : Config) (oldpath newpath : Bytes) (w : World) :
    wp (Backupfs.rename cfg oldpath newpath)
      (fun _ w' => ∃ data, w.store.lookup oldpath = some (.file data) ∧ w' = { w with
        clock := w.clock + 1
        store := (w.store.erase oldpath).insert newpath (.file data)
        written := newpath :: w.written })
      (fun _ w' => w' = { w with clock := w.clock + 1 }) w := by
  rw [Backupfs.rename, wp_bind]
  refine wp_mono (wp_call_untouched cfg _ oldpath w) ?_ fun _ _ h => h.1
  rintro m w' ⟨-, rfl⟩
  rw [wp_bind, wp_get]
  simp only
  split
  · rename_i data hdata
    split_ifs
    · exact rfl
    · exact rfl
    · exact ⟨data, hdata, rfl⟩
  · exact rfl

theorem wp_mkdir (cfg : Config) (path : Bytes) (w : World) :
    wp (Backupfs.mkdir cfg path)
      (fun _ w' => w.store.lookup path = none ∧ w' = { w with
        clock := w.clock + 1, store := w.store.insert path .dir })
      (fun _ w' => w' = { w with clock := w.clock + 1 }) w := by
  rw [Backupfs.mkdir, wp_bind]
  refine wp_mono (wp_call_untouched cfg _ path w) ?_ fun _ _ h => h.1
  rintro m w' ⟨-, rfl⟩
  rw [wp_bind, wp_get]
  split_ifs with h1 h2
  · exact rfl
  · exact rfl
  · exact ⟨by simpa using h2, rfl⟩

/-! ### Files opened for writing -/

/-- `write` adds to files of the filesystem that `view` shows, and changes nothing else, as `R`
says. -/
structure Writer (write : Bytes → Bytes → M Unit) (view : World → Store)
    (R : Bytes → World → World → Prop) : Prop where
  refl : ∀ path w, R path w w
  trans : ∀ {path w w' w''}, R path w w' → R path w' w'' → R path w w''
  write : ∀ {path d : Bytes} {w : World} (block : Bytes), (view w).lookup path = some (.file d) →
    wp (write path block)
      (fun _ w' => R path w w' ∧ (view w').lookup path = some (.file (d ++ block)))
      (fun _ w' => R path w w' ∧ ∃ d', (view w').lookup path = some (.file d') ∧ d' <+: d ++ block) w

/-- The text of a file opened for writing: what is in the store, and what is in the buffer. -/
structure HoldsIn (s : Store) (o : OFile) (text : Bytes) : Prop where
  stored : ∃ d, s.lookup o.path = some (.file d) ∧ d ++ o.buf = text
  started : o.writing = false → o.buf = []

theorem HoldsIn.stored_isPrefix {s : Store} {o : OFile} {text : Bytes} (h : HoldsIn s o text) :
    ∃ d, s.lookup o.path = some (.file d) ∧ d <+: text := by
  obtain ⟨d, hd, rfl⟩ := h.stored
  exact ⟨d, hd, List.prefix_append d o.buf⟩

/-- A file that has just been opened. -/
theorem HoldsIn.opened {s : Store} {path : Bytes} (h : s.lookup path = some (.file [])) :
    HoldsIn s ⟨path, false, []⟩ [] := ⟨⟨[], h, rfl⟩, fun _ => rfl⟩

section Writer

variable {write : Bytes → Bytes → M Unit} {view : World → Store}
  {R : Bytes → World → World → Prop} {o : OFile} {text : Bytes} {w : World}

/-- After a flush all of the text is in the store; a write that stops the program leaves a prefix
of it there. -/
theorem Writer.wp_flush (hw : Writer write view R) (h : HoldsIn (view w) o text) :
    wp (o.flush write)
      (fun o' w' => R o.path w w' ∧ o' = ⟨o.path, true, []⟩ ∧
        (view w').lookup o.path = some (.file text))
      (fun _ w' => R o.path w w' ∧ ∃ d, (view w').lookup o.path = some (.file d) ∧ d <+: text)
      w := by
  obtain ⟨d, hd, rfl⟩ := h.stored
  rw [OFile.flush]
  split_ifs with hwrite
  · rw [wp_bind]
    refine wp_mono (hw.write o.buf hd) ?_ (fun _ _ h => h)
    rintro _ w' ⟨hR, hd'⟩
    exact ⟨hR, rfl, hd'⟩
  · have hbuf : o.buf = [] := by
      by_contra hne
      cases hwriting : o.writing with
      | false => exact hne (h.started hwriting)
      | true => exact hwrite ⟨hwriting, fun hl => hne (List.eq_nil_of_length_eq_zero hl)⟩
    exact ⟨hw.refl _ w, rfl, by rw [hd, hbuf, List.append_nil]⟩

theorem Writer.wp_put1 (hw : Writer write view R) (h : HoldsIn (view w) o text) (c : UInt8) :
    wp (o.put1 write c)
      (fun o' w' => R o.path w w' ∧ o'.path = o.path ∧ HoldsIn (view w') o' (text ++ [c]))
      (fun _ w' => R o.path w w' ∧ ∃ d, (view w').lookup o.path = some (.file d) ∧ d <+: text)
      w := by
  rw [OFile.put1]
  split_ifs with hfull
  · rw [wp_bind]
    refine wp_mono (hw.wp_flush h) ?_ (fun _ _ h => h)
    rintro _ w' ⟨hR, rfl, hd⟩
    exact ⟨hR, rfl, ⟨text, hd, by simp⟩, by simp⟩
  · obtain ⟨d, hd, rfl⟩ := h.stored
    refine ⟨hw.refl _ w, rfl, ⟨d, hd, by simp⟩, fun hwriting => ?_⟩
    exact absurd (.inl (by simpa using hwriting)) hfull

/-- **`put` adds to the text.** -/
theorem Writer.wp_put (hw : Writer write view R) (s : Bytes) (h : HoldsIn (view w) o text) :
    wp (o.put write s)
      (fun o' w' => R o.path w w' ∧ o'.path = o.path ∧ HoldsIn (view w') o' (text ++ s))
      (fun _ w' => R o.path w w' ∧
        ∃ d, (view w').lookup o.path = some (.file d) ∧ d <+: text ++ s) w := by
  unfold OFile.put
  induction s generalizing o text w with
  | nil => exact ⟨hw.refl _ w, rfl, by rwa [List.append_nil]⟩
  | cons c s ih =>
    rw [List.foldlM_cons, wp_bind]
    refine wp_mono (hw.wp_put1 h c) ?_ ?_
    · rintro o' w' ⟨hR, hpath, h'⟩
      rw [List.append_cons]
      refine wp_mono (ih h') ?_ ?_
      · rintro o'' w'' ⟨hR', hpath', h''⟩
        rw [hpath] at hR' hpath'
        exact ⟨hw.trans hR hR', hpath', h''⟩
      · rintro _ w'' ⟨hR', hd⟩
        rw [hpath] at hR' hd
        exact ⟨hw.trans hR hR', hd⟩
    · rintro _ w' ⟨hR, d, hd, hpre⟩
      exact ⟨hR, d, hd, hpre.trans (List.prefix_append _ _)⟩

end Writer

/-! ### On the backup filesystem -/

theorem backupWriter (cfg : Config) : Writer (Backupfs.writebytes cfg) World.store Puts :=
  ⟨Puts.refl, Puts.trans, fun block h => wp_writebytes cfg block h⟩

/-- What a file of the backup filesystem holds. -/
abbrev Holds (o : OFile) (text : Bytes) (w : World) : Prop := HoldsIn w.store o text

/-! ### On the local filesystem -/

/-- All that has changed is the hint file `path`. -/
structure PutsHints (path : Bytes) (w w' : World) : Prop where
  store : w'.store = w.store
  books : SameBooks w w'
  others : ∀ q ≠ path, w'.hintStore.lookup q = w.hintStore.lookup q
  newhints : w'.newhints = w.newhints

theorem PutsHints.refl (path : Bytes) (w : World) : PutsHints path w w :=
  ⟨rfl, .refl w, fun _ _ => rfl, rfl⟩

theorem PutsHints.trans {path : Bytes} {w w' w'' : World} (h : PutsHints path w w')
    (h' : PutsHints path w' w'') : PutsHints path w w'' :=
  ⟨h'.store.trans h.store, h.books.trans h'.books,
    fun q hq => (h'.others q hq).trans (h.others q hq), h'.newhints.trans h.newhints⟩

/-- `newhints` is written with `local`. -/
abbrev writeHints (cfg : Config) (path block : Bytes) : M Unit :=
  onLocal (Backupfs.writebytes cfg path block)

theorem hintWriter (cfg : Config) : Writer (writeHints cfg) World.hintStore PutsHints := by
  refine ⟨PutsHints.refl, PutsHints.trans, fun {path d w} block hd => ?_⟩
  have hback : ∀ {w' : World}, Puts path { w with store := w.hintStore } w' →
      PutsHints path w
        { w' with store := w.store, hintStore := w'.store, written := w.written } :=
    fun h => ⟨rfl, ⟨rfl, h.books.existence_inflight, h.books.existence, h.books.names,
      h.books.inrepo, h.books.hints⟩, h.others, h.hints.newhints⟩
  rw [wp_onLocal]
  refine wp_mono (wp_writebytes cfg block (w := { w with store := w.hintStore }) hd) ?_ ?_
  · exact fun _ w' h => ⟨hback h.1, h.2⟩
  · exact fun _ w' h => ⟨hback h.1, h.2⟩

end Hbackup
