import Hbackup.Equiv.Directories
import Hbackup.Equiv.HintFile

/-!
# The whole run

`do_backup` from a fresh start: the hints are what the old hint file says (`Loads`), and a run that
returns has written an index of the tree and the new hints (`Finished`).  A run that stops has no end
marker in its index yet, or has copied all that the index names (`Ending`).
-/

namespace Hbackup

open ProgramLogic Separated

variable {cfg : Config} {w w' : World}

/-! ### The old hints -/

/-- The hint that a line of the hint file is. -/
def hintOf (d : Details) : Except Exn (Bytes × Hint) := do
  let hash ← hashdecode (d.get HASH_NAME)
  return (d.get (lit "name"), {
    hash
    st_ctime := (strtoull (d.get (lit "ctime"))).toInt64
    st_mtime := (strtoull (d.get (lit "mtime"))).toInt64
    st_size := strtoull (d.get (lit "size")) })

/-- The hints that a run starts with; of two for one name the later one is first. -/
inductive Loads (cfg : Config) (s : Store) : Option (List (Bytes × Hint)) → Prop
  | off (hoff : cfg.hintfile = []) : Loads cfg s none
  | none (hon : cfg.hintfile ≠ []) (hnone : s.lookup cfg.hintfile = none) : Loads cfg s (some [])
  | file {data : Bytes} {ds : List Details} {hints : List (Bytes × Hint)} (hon : cfg.hintfile ≠ [])
      (hfile : s.lookup cfg.hintfile = some (.file data))
      (hread : entriesOf ⟨data, Option.none⟩ = (ds, Option.none))
      (hhints : List.Forall₂ (fun d h => hintOf d = .ok h) ds hints) :
      Loads cfg s (some hints.reverse)

theorem wp_loadHint (d : Details) (w : World) :
    wp (loadHint d) (fun _ w' => ∃ h, hintOf d = .ok h ∧
      w' = { w with hints := w.hints.map (h :: ·) })
      (fun _ w' => w' = w ∧ ∃ e, hintOf d = .error e) w := by
  rw [loadHint, wp_bind, wp_liftExcept, hintOf]
  cases hashdecode (d.get HASH_NAME) with
  | error e => exact ⟨rfl, e, rfl⟩
  | ok hash => exact ⟨_, rfl, rfl⟩

theorem wp_loadHints (ds : List Details) {acc : List (Bytes × Hint)} (hw : w.hints = some acc) :
    wp (ds.forM loadHint)
      (fun _ w' => ∃ l, List.Forall₂ (fun d h => hintOf d = .ok h) ds l ∧
        w' = { w with hints := some (l.reverse ++ acc) })
      (fun _ w' => ∃ hints, w' = { w with hints }) w := by
  induction ds generalizing w acc with
  | nil => exact ⟨[], .nil, by rw [List.reverse_nil, List.nil_append, ← hw]⟩
  | cons d ds ih =>
    change wp (loadHint d >>= fun _ => ds.forM loadHint) _ _ w
    rw [wp_bind]
    refine wp_mono (wp_loadHint d w) ?_ ?_
    · rintro _ w₁ ⟨h, hh, rfl⟩
      have hw₁ : w.hints.map (h :: ·) = some (h :: acc) := by rw [hw]; rfl
      refine wp_mono (ih hw₁) ?_ ?_
      · rintro _ w₂ ⟨l, hl, rfl⟩
        refine ⟨h :: l, .cons hh hl, ?_⟩
        rw [List.reverse_cons, List.append_assoc]
        rfl
      · rintro _ w₂ ⟨hints, rfl⟩
        exact ⟨hints, rfl⟩
    · rintro _ w₁ ⟨rfl, -⟩
      exact ⟨w₁.hints, rfl⟩

/-- A call on the local filesystem. -/
theorem wp_onLocal_call (doing : String) (path : Bytes) {α : Type} {k : Moment → M α}
    {Q : α → World → Prop} {E : Stop → World → Prop}
    (hstop : ∀ stop, E stop { w with clock := w.clock + 1 })
    (hk : wp (k (cfg.env w.clock))
      (fun a w' => Q a { w' with store := w.store, hintStore := w'.store, written := w.written })
      (fun e w' => E e { w' with store := w.store, hintStore := w'.store, written := w.written })
      { w with store := w.hintStore, clock := w.clock + 1 }) :
    wp (onLocal (call cfg doing path >>= k)) Q E w := by
  rw [wp_onLocal, wp_bind]
  refine wp_mono (wp_call_untouched cfg doing path _) ?_ ?_
  · rintro m w' ⟨rfl, rfl⟩
    exact hk
  · rintro stop w' ⟨rfl, -⟩
    exact hstop stop

theorem wp_readHints {Q : InFile → World → Prop} {E : Stop → World → Prop}
    (hstop : ∀ stop, E stop { w with clock := w.clock + 1 })
    (hok : ∀ f, Backupfs.fileAt (fun _ => none) w.hintStore cfg.hintfile = .ok f →
      Q f { w with clock := w.clock + 1 }) : wp (readHints cfg) Q E w := by
  refine wp_onLocal_call _ _ hstop ?_
  rw [wp_bind, wp_get, wp_liftExcept]
  split
  · rename_i f hf
    exact hok f hf
  · exact hstop _

/-- A file that can be read to its end holds what was read. -/
theorem lookup_of_fileAt {s : Store} {path : Bytes} {f : InFile}
    (hf : Backupfs.fileAt (fun _ => none) s path = .ok f) (hend : (entriesOf f).2 = none) :
    ∃ data, s.lookup path = some (.file data) ∧ f = ⟨data, none⟩ := by
  unfold Backupfs.fileAt at hf
  cases hl : s.lookup path with
  | none => simp [hl] at hf
  | some node =>
    cases node with
    | file data =>
      simp only [hl, Except.ok.injEq] at hf
      exact ⟨data, rfl, hf.symm⟩
    | dir =>
      simp only [hl, Except.ok.injEq] at hf
      rw [← hf, entriesOf_fault (by simp)] at hend
      cases hend
    | other => simp [hl] at hf

/-- The lines of the old hint file are read. -/
theorem wp_readHintLines {f : InFile} (hon : cfg.hintfile ≠ [])
    (hf : Backupfs.fileAt (fun _ => none) w.hintStore cfg.hintfile = .ok f)
    (hw : w.hints = some []) :
    wp (whileReadIndexLine throwExn loadHint f.turns f)
      (fun _ w' => ∃ hints, Loads cfg w.hintStore hints ∧ w' = { w with hints })
      (fun _ w' => ∃ hints, w' = { w with hints }) w := by
  rw [whileReadIndexLine_eq_entriesOf, wp_bind]
  refine wp_mono (wp_loadHints _ hw) ?_ fun _ _ h => h
  rintro _ w' ⟨l, hl, rfl⟩
  cases hend : (entriesOf f).2 with
  | some e => exact ⟨_, rfl⟩
  | none =>
    obtain ⟨data, hfile, rfl⟩ := lookup_of_fileAt hf hend
    rw [List.append_nil]
    exact ⟨_, .file hon hfile (Prod.ext rfl hend) hl, rfl⟩

theorem wp_load_hints (hon : cfg.hintfile ≠ []) (hw : w.hints = some []) :
    wp (load_hints cfg)
      (fun _ w' => ∃ hints n, Loads cfg w.hintStore hints ∧ w' = { w with clock := n, hints })
      (fun _ w' => ∃ hints n, w' = { w with clock := n, hints }) w := by
  rw [load_hints, wp_bind]
  refine wp_onLocal_call _ _ (fun _ => ⟨_, _, rfl⟩) ?_
  rw [wp_bind, wp_get, wp_pure, wp_ite]
  split
  · rw [wp_bind]
    refine wp_readHints (fun _ => ⟨_, _, rfl⟩) fun f hf => ?_
    refine wp_mono (wp_readHintLines hon hf hw) ?_ ?_
    · rintro _ w' ⟨hints, hl, rfl⟩
      exact ⟨hints, _, hl, rfl⟩
    · rintro _ w' ⟨hints, rfl⟩
      exact ⟨hints, _, rfl⟩
  · rename_i hnone
    exact ⟨some [], _, .none hon (by simpa using hnone), by rw [← hw]⟩

theorem wp_startHints (hhints : w.hints = none) (hnew : w.newhints = none) :
    wp (startHints cfg)
      (fun _ w' => Loads cfg w.hintStore w'.hints ∧ HoldsHints cfg [] w' ∧
        w'.hintStore.lookup cfg.hintfile = w.hintStore.lookup cfg.hintfile ∧
        ∃ n hints hintStore newhints, w' = { w with clock := n, hints, hintStore, newhints })
      (fun _ w' => w'.hintStore.lookup cfg.hintfile = w.hintStore.lookup cfg.hintfile ∧
        ∃ n hints hintStore newhints, w' = { w with clock := n, hints, hintStore, newhints }) w := by
  rw [startHints, wp_ite]
  split
  · rename_i hoff
    refine ⟨hhints ▸ .off hoff, ?_, rfl, _, _, _, _, rfl⟩
    rw [HoldsHints, hnew]
    exact hoff
  rename_i hon
  rw [wp_bind, wp_modify, wp_bind]
  refine wp_mono (wp_load_hints hon rfl) ?_ ?_
  swap
  · rintro _ w' ⟨hints, n, rfl⟩
    exact ⟨rfl, n, hints, _, _, rfl⟩
  rintro _ w' ⟨hints, n, hl, rfl⟩
  rw [openHints, wp_bind, wp_onLocal]
  refine wp_mono (wp_openWrite cfg _ _) ?_ ?_
  · rintro o w' ⟨-, rfl, rfl⟩
    rw [wp_modify]
    refine ⟨hl, ⟨rfl, ?_⟩, AList.lookup_insert_ne (tmp_ne _).symm, _, _, _, _, rfl⟩
    exact .opened (AList.lookup_insert _)
  · rintro _ w' rfl
    exact ⟨rfl, _, _, _, _, rfl⟩

/-! ### The end of the run -/

/-- A finished backup with the entries `es`. -/
structure Finished (cfg : Config) (I : List Hashable → List Hashable → World → Prop)
    (es : List Entry) (w : World) : Prop where
  repo : I (queueOf cfg [] es) [] w
  index : w.store.lookup cfg.indexfile = some (.file (unlines 10 (es.map Entry.line) ++ lit "[end]\n"))
  hints : cfg.hintfile ≠ [] →
    w.hintStore.lookup cfg.hintfile = some (.file (hintText es ++ lit "[end]\n"))

/-- A backup that stops when all of the tree has been backed up; `old` is the old hint file. -/
structure Ending (cfg : Config) (I : List Hashable → List Hashable → World → Prop)
    (old : Option Node) (es : List Entry) (w : World) : Prop where
  repo : I (queueOf cfg [] es) [] w
  hints : w.hintStore.lookup cfg.hintfile = old ∨
    w.hintStore.lookup cfg.hintfile = some (.file (hintText es ++ lit "[end]\n"))
  index : cfg.indexfile ∈ w.written → ∃ d, w.store.lookup cfg.indexfile = some (.file d) ∧
    d <+: unlines 10 (es.map Entry.line) ++ lit "[end]\n"

variable {hs : Option (List (Bytes × Hint))} {I : List Hashable → List Hashable → World → Prop}
  {J : World → Prop} {done queue : List Hashable} {hint : Bytes} {es : List Entry} {o : OFile}

/-- The new hint file takes the place of the old one. -/
theorem wp_finishHints (h : HoldsHints cfg hint w) :
    wp (finishHints cfg)
      (fun _ w' => w'.store = w.store ∧ w'.written = w.written ∧ (w.newhints ≠ none →
        w'.hintStore.lookup cfg.hintfile = some (.file (hint ++ lit "[end]\n"))))
      (fun _ w' => w'.store = w.store ∧ w'.written = w.written) w := by
  unfold HoldsHints at h
  rw [finishHints, wp_bind, putHints, wp_bind, wp_get]
  -- without a hint file there is nothing to be done
  split
  · rename_i hnone
    rw [hnone] at h
    rw [wp_pure, wp_bind, wp_get]
    simp only [hnone]
    exact ⟨rfl, rfl, fun hne => absurd rfl hne⟩
  rename_i f hf
  rw [hf] at h
  rw [wp_bind]
  refine wp_mono ((hintWriter cfg).wp_put _ h.2) ?_ fun _ _ hp => ⟨hp.1.store, hp.1.books.written⟩
  rintro f₁ w₁ ⟨hputs₁, hpath₁, h₁⟩
  have h₁' : HoldsIn (World.hintStore { w₁ with newhints := some f₁ }) f₁ (hint ++ lit "[end]\n") := h₁
  rw [wp_modify, wp_bind, wp_get]
  simp only
  rw [wp_bind]
  refine wp_mono ((hintWriter cfg).wp_flush h₁') ?_ ?_
  swap
  · rintro _ w₂ ⟨hputs₂, -⟩
    exact ⟨hputs₂.store.trans hputs₁.store, hputs₂.books.written.trans hputs₁.books.written⟩
  rintro f₂ w₂ ⟨hputs₂, -, hfile⟩
  rw [wp_bind, wp_modify, wp_onLocal]
  have hstore : w₂.store = w.store := hputs₂.store.trans hputs₁.store
  have hwritten : w₂.written = w.written := hputs₂.books.written.trans hputs₁.books.written
  -- the new hint file is complete under its temporary name
  refine wp_mono (wp_rename cfg _ _ _) ?_ ?_
  · rintro _ w₃ ⟨data, hdata, rfl⟩
    refine ⟨hstore, hwritten, fun _ => ?_⟩
    have hdata : w₂.hintStore.lookup (cfg.hintfile ++ lit ".tmp") = some (.file data) := hdata
    rw [← h.1, ← hpath₁, hfile] at hdata
    cases hdata
    exact AList.lookup_insert _
  · rintro _ w₃ rfl
    exact ⟨hstore, hwritten⟩

/-- With a hint file there are new hints. -/
theorem HoldsHints.newhints_ne (h : HoldsHints cfg hint w) (hon : cfg.hintfile ≠ []) :
    w.newhints ≠ none := by
  intro hnone
  rw [HoldsHints, hnone] at h
  exact hon h

theorem HoldsHints.newHints (h : HoldsHints cfg hint w) : NewHints cfg w := by
  intro o ho
  rw [HoldsHints, ho] at h
  exact h.1

/-- The end marker is put, and the index gets its name. -/
theorem Between.wp_end (hkeeps : KeepsRepo cfg hs I J) (ho : Outside cfg)
    (h : Between cfg hs I es o w) {old : Option Node}
    (hold : w.hintStore.lookup cfg.hintfile = old) :
    wp (do
        let o ← putIndex cfg o (lit "[end]\n")
        let _ ← o.flush (Backupfs.writebytes cfg)
        finishHints cfg
        if cfg.overwrite_index then return
        else Backupfs.rename cfg (cfg.indexfile ++ lit ".tmp") cfg.indexfile)
      (fun _ w' => Finished cfg I es w') (fun _ w' => Ending cfg I old es w') w := by
  set text := unlines 10 (es.map Entry.line) ++ lit "[end]\n" with htext
  have hholds : Holds o (unlines 10 (es.map Entry.line)) w := by
    have := h.holds
    rwa [List.append_nil] at this
  -- while the end marker is being written
  have hending : ∀ {w' : World}, SameRepo cfg w w' →
      (cfg.indexfile ∈ w'.written → cfg.indexfile ∈ w.written) →
      (∃ d, w'.store.lookup (indexPath cfg) = some (.file d) ∧ d <+: text) →
      (w'.hintStore.lookup cfg.hintfile = old ∨
        w'.hintStore.lookup cfg.hintfile = some (.file (hintText es ++ lit "[end]\n"))) →
      Ending cfg I old es w' := by
    intro w' hsame hwritten ⟨d, hd, hpre⟩ hhints
    refine ⟨hkeeps.congr h.repo hsame, hhints, fun hm => ⟨d, ?_, hpre⟩⟩
    rwa [indexPath, if_pos (h.hidden (hwritten hm))] at hd
  rw [wp_bind]
  refine wp_mono ((backupWriter cfg).wp_put _ hholds) ?_ ?_
  swap
  · rintro _ w₁ ⟨hputs, hd⟩
    rw [h.path] at hputs hd
    exact hending hputs.sameRepo (fun hm => hputs.books.written ▸ hm) hd
      (.inl (by rw [hputs.hints.hintStore, hold]))
  rintro o₁ w₁ ⟨hputs₁, hpath₁, h₁⟩
  rw [h.path] at hputs₁ hpath₁
  rw [wp_bind]
  refine wp_mono ((backupWriter cfg).wp_flush h₁) ?_ ?_
  swap
  · rintro _ w₂ ⟨hputs₂, hd⟩
    rw [hpath₁] at hputs₂ hd
    have hputs := hputs₁.trans hputs₂
    exact hending hputs.sameRepo (fun hm => hputs.books.written ▸ hm) hd
      (.inl (by rw [hputs.hints.hintStore, hold]))
  rintro o₂ w₂ ⟨hputs₂, -, hindex⟩
  rw [hpath₁] at hputs₂ hindex
  have hputs := hputs₁.trans hputs₂
  have hsame : ∀ {w₃ : World}, w₃.store = w₂.store → w₃.written = w₂.written →
      SameRepo cfg w w₃ := fun hstore hwritten =>
    ⟨fun q hq hqtmp => by rw [hstore]; exact hputs.sameRepo.store q hq hqtmp,
      fun hash => by rw [hwritten]; exact hputs.sameRepo.written hash⟩
  have hlater : ∀ {w₃ : World}, w₃.store = w₂.store → w₃.written = w₂.written →
      (w₃.hintStore.lookup cfg.hintfile = old ∨
        w₃.hintStore.lookup cfg.hintfile = some (.file (hintText es ++ lit "[end]\n"))) →
      Ending cfg I old es w₃ := by
    intro w₃ hstore hwritten hhints
    refine hending (hsame hstore hwritten) (fun hm => ?_) ⟨text, ?_, List.prefix_rfl⟩ hhints
    · rw [hwritten] at hm
      exact hputs.books.written ▸ hm
    · rw [hstore]
      exact hindex
  have hnew : HoldsHints cfg (hintText es) w₂ := h.newhints.congr hputs.hints
  have hold₂ : w₂.hintStore.lookup cfg.hintfile = old := by rw [hputs.hints.hintStore, hold]
  rw [wp_bind]
  refine wp_mono (wp_and (wp_finishHints hnew) (wp_finishHints_old hnew.newHints)) ?_
    fun _ _ hw => hlater hw.1.1 hw.1.2 (.inl (hw.2.trans hold₂))
  rintro _ w₃ ⟨⟨hstore, hwritten, hhints⟩, hold₃⟩
  have hfile : w₃.hintStore.lookup cfg.hintfile = old ∨
      w₃.hintStore.lookup cfg.hintfile = some (.file (hintText es ++ lit "[end]\n")) := by
    rcases hold₃ with hsame₃ | hne
    · exact .inl (hsame₃.trans hold₂)
    · exact .inr (hhints hne)
  have hindex₃ : w₃.store.lookup (indexPath cfg) = some (.file text) := by rw [hstore]; exact hindex
  rw [wp_ite]
  split
  · rename_i hov
    rw [indexPath, if_pos hov] at hindex₃
    exact ⟨hkeeps.congr h.repo (hsame hstore hwritten), hindex₃,
      fun hon => hhints (hnew.newhints_ne hon)⟩
  · rename_i hov
    rw [indexPath, if_neg hov] at hindex₃
    refine wp_mono (wp_rename cfg _ _ w₃) ?_ ?_
    · rintro _ w₄ ⟨data, hdata, rfl⟩
      rw [hindex₃] at hdata
      cases hdata
      refine ⟨hkeeps.congr (hkeeps.congr h.repo (hsame hstore hwritten)) ⟨?_, ?_⟩, ?_,
        fun hon => hhints (hnew.newhints_ne hon)⟩
      · intro q hq hqtmp
        exact (AList.lookup_insert_ne hq).trans (AList.lookup_erase_ne hqtmp)
      · intro hash
        refine List.count_cons_of_ne ?_
        rintro e
        exact ho.indexfile (e ▸ under_objectsDir _ _)
      · exact AList.lookup_insert _
    · rintro _ w₄ rfl
      exact hlater hstore hwritten hfile

/-! ### The beginning of the run -/

/-- The index is looked for, if it is to be new. -/
theorem wp_checkBackup (ha : Asked cfg (fun _ => False) w) :
    wp (checkBackup cfg) (fun _ w' => Asked cfg (fun _ => False) w' ∧ OnlyAsked w w')
      (fun _ w' => OnlyAsked w w') w := by
  rw [checkBackup, wp_ite]
  split
  · exact .refl w
  rw [wp_ite]
  split
  · exact .refl w
  rw [wp_ite]
  split
  · exact .refl w
  rw [wp_ite]
  split
  · exact ⟨ha, .refl w⟩
  rw [wp_bind]
  refine wp_mono (wp_exists ha _) ?_ fun _ _ ho => ho
  rintro found w' ⟨-, ha', ho⟩
  rw [wp_ite]
  split
  · exact ho
  · exact ⟨ha'.mono fun _ => And.left, ho⟩

/-- The index has been opened. -/
theorem Between.start (ho : Outside cfg) {w₀ : World} (w : World) (hkeeps : KeepsRepo cfg hs I J) (hI : I [] [] w₀)
    (hsame : SameRepo cfg w₀ w) (hwritten : w.written = []) (hinrepo : w.inrepo = [])
    (hnames : w.names = {}) (ha : Asked cfg (fun _ => False) w) (hints : w.hints = hs)
    (hnew : HoldsHints cfg [] w) (n : Nat) :
    Between cfg hs I [] ⟨indexPath cfg, false, []⟩ { w with
      clock := n
      store := w.store.insert (indexPath cfg) (.file [])
      written := indexPath cfg :: w.written } where
  repo := by
    refine hkeeps.congr (hkeeps.congr hI hsame) ⟨fun q hq hqtmp => ?_, fun hash => ?_⟩
    · refine AList.lookup_insert_ne ?_
      unfold indexPath
      split_ifs
      · exact hq
      · exact hqtmp
    · refine List.count_cons_of_ne ?_
      intro e
      exact ho.indexPath (e ▸ under_objectsDir _ _)
  asked := ⟨fun path found hm => (ha.right path found hm).1.elim, ha.none⟩
  hps := by simp
  inrepo := hinrepo
  hidden hm := by
    rw [hwritten, List.mem_singleton, indexPath] at hm
    split_ifs at hm with hov
    · exact hov
    · exact absurd hm.symm (tmp_ne _)
  names := by
    rw [show (_ : World).names = {} from hnames]
    exact ⟨by simp, by simp⟩
  hints := hints
  newhints := hnew.congr ⟨rfl, rfl⟩
  path := rfl
  holds := .opened (AList.lookup_insert _)
  begun := .inl rfl

/-- **What a run of `do_backup` leaves.** -/
theorem wp_do_backup (ho : Outside cfg) (depth : Nat) {store hintStore : Store}
    (hI : I [] [] { store, hintStore }) (hJ : ∀ w', SameRepo cfg { store, hintStore } w' → J w')
    (hkeeps : ∀ hs, Loads cfg hintStore hs → KeepsRepo cfg hs I J) :
    wp (do_backup cfg depth)
      (fun _ w' => ∃ hs es, Loads cfg hintStore hs ∧ Walk cfg hs depth (lit ".") es ∧
        Finished cfg I es w')
      (fun _ w' => (Stopped cfg J w' ∧
          w'.hintStore.lookup cfg.hintfile = hintStore.lookup cfg.hintfile) ∨
        ∃ hs es, Loads cfg hintStore hs ∧ Walk cfg hs depth (lit ".") es ∧
          Ending cfg I (hintStore.lookup cfg.hintfile) es w') { store, hintStore } := by
  set w₀ : World := { store, hintStore } with hw₀
  have hearly : ∀ {w' : World}, w'.store = w₀.store → w'.written = w₀.written →
      Stopped cfg J w' := by
    intro w' hstore hwritten
    refine ⟨hJ _ (.of_eq hstore hwritten), fun hm => ?_⟩
    rw [hwritten] at hm
    cases hm
  have ha₀ : Asked cfg (fun _ => False) w₀ := ⟨fun _ _ hm => by simp [hw₀] at hm, fun _ => ⟨rfl, rfl⟩⟩
  rw [do_backup, wp_bind]
  refine wp_mono (wp_checkBackup ha₀) ?_ fun _ _ honly => .inl
    ⟨hearly honly.store honly.written, by rw [honly.beside.hintFiles.hintStore]⟩
  rintro _ w₁ ⟨ha₁, honly₁⟩
  rw [wp_bind]
  refine wp_mono (wp_startHints (honly₁.beside.hints.trans rfl)
    (honly₁.beside.hintFiles.newhints.trans rfl)) ?_ ?_
  swap
  · rintro _ w₂ ⟨hold, n, hints, hintStore', newhints, rfl⟩
    rw [honly₁.beside.hintFiles.hintStore] at hold
    exact .inl ⟨hearly honly₁.store honly₁.written, hold⟩
  rintro _ w₂ ⟨hload, hnew, hold, n, hints, hintStore', newhints, rfl⟩
  rw [honly₁.beside.hintFiles.hintStore] at hload hold
  have hk := hkeeps _ hload
  rw [wp_bind]
  refine wp_mono (wp_openWrite cfg _ _) ?_ ?_
  swap
  · rintro _ w₃ rfl
    exact .inl ⟨hearly honly₁.store honly₁.written, hold⟩
  rintro o w₃ ⟨-, rfl, rfl⟩
  -- the tree, and then the end of the index
  have hstart := Between.start ho
    { w₁ with clock := n, hints, hintStore := hintStore', newhints } hk hI (.of_eq honly₁.store honly₁.written) honly₁.written
    honly₁.beside.inrepo honly₁.beside.names (ha₁.congr rfl rfl fun _ _ => rfl) rfl hnew (n + 1)
  rw [wp_bind]
  refine wp_mono (wp_and (hstart.wp_backup_dir hk ho depth (lit "."))
    (keepsOld_backup_dir depth _ (lit ".") _)) ?_ ?_
  swap
  · rintro _ w₄ ⟨hstopped, hkept⟩
    exact .inl ⟨hstopped, (hkept hstart.newhints.newHints).2.trans hold⟩
  rintro o w₄ ⟨⟨es, hwalk, h₄⟩, hkept⟩
  refine wp_mono (h₄.wp_end hk ho ((hkept hstart.newhints.newHints).2.trans hold)) ?_ ?_
  · exact fun _ _ hfin => ⟨_, es, hload, hwalk, hfin⟩
  · exact fun _ _ hend => .inr ⟨_, es, hload, hwalk, hend⟩

end Hbackup
