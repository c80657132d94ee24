import Hbackup.Equiv.Cleanup
import Hbackup.Equiv.Paths

/-!
# What the scan of the repository keeps and what it finds

`Keeps` is the decision that `clean_recurse` makes for one file.  A file that it keeps survives the
scan whatever else happens (`wp_clean_recurse_held`); in quiet surroundings a file that it does not
keep is listed or removed, once (`wp_clean_recurse_swept`), since the scan visits every file below the
directory it starts from.
-/

namespace Hbackup

open ProgramLogic

/-! ### The decision about one file -/

/-- What `clean_recurse` keeps: `data` is what reading the file gives. -/
def Keeps (cfg : Config) (needed : HashSet) (name : Bytes) (data : Except Exn Bytes) : Prop :=
  ∃ h, hashdecode name = .ok h ∧ h ∈ needed ∧
    (cfg.detectbogus = true → ∃ c, data = .ok c ∧ cfg.sha1 c = h)

/-- The bytes that reading the file `path` gives. -/
def contentsAt (reads : Bytes → Option ReadFault) (s : Store) (path : Bytes) : Except Exn Bytes :=
  (Backupfs.fileAt reads s path).bind InFile.getall

theorem contentsAt_file {reads : Bytes → Option ReadFault} {s : Store} {path c : Bytes}
    (hs : s.lookup path = some (.file c)) :
    contentsAt reads s path = .ok c ↔ reads path = none := by
  unfold contentsAt Backupfs.fileAt
  cases hr : reads path with
  | none => simp [hs, Except.bind, InFile.getall]
  | some f =>
    obtain ⟨_ | n, e⟩ := f
    · simp [Except.bind]
    · simp [hs, Except.bind, InFile.getall]

theorem wp_keepFile (cfg : Config) (needed : HashSet) (name fullname : Bytes) (w : World) :
    wp (keepFile cfg needed name fullname)
      (fun keep w' => (w' = w ∨ w' = { w with clock := w.clock + 1 }) ∧ (keep = true ↔
        Keeps cfg needed name (contentsAt (cfg.env w.clock).reads w.store fullname)))
      (fun _ w' => w' = { w with clock := w.clock + 1 } ∧ (cfg.env w.clock).killed = true) w := by
  rw [keepFile, wp_tryCatch, wp_bind, wp_liftExcept]
  cases hname : hashdecode name with
  | error e => simp [Keeps, hname]
  | ok h =>
    simp only [wp_ite]
    split_ifs with hbogus
    · simp only [hashBackupFile, Backupfs.openRead, wp_bind, wp_tick]
      split_ifs with hk
      · exact ⟨rfl, hk⟩
      simp only [wp_get, wp_liftExcept, Keeps, hname, hbogus, contentsAt, Except.ok.injEq,
        exists_eq_left', forall_const]
      cases Backupfs.fileAt (cfg.env w.clock).reads w.store fullname with
      | error e => simp [Except.bind]
      | ok f =>
        simp only [Except.bind]
        cases f.getall with
        | error e => simp
        | ok c => simp
    · simp [Keeps, hname, hbogus]

/-! ### A file that is kept -/

/-- The file `p` is there, with the contents `c`, and has been neither listed nor removed. -/
def Held (p c : Bytes) (w : World) : Prop :=
  w.store.lookup p = some (.file c) ∧ p ∉ w.stdout ∧ p ∉ w.removed

/-- Discarding one file leaves the others alone. -/
theorem wp_discard_held {cfg : Config} {p q c data : Bytes} {w : World} (hne : p ≠ q)
    (hq : w.store.lookup q = some (.file data)) (h : Held p c w) :
    wp (discard cfg q) (fun _ => Held p c) (fun _ => Held p c) w := by
  rw [discard, wp_ite]
  split_ifs with hdel
  · rw [wp_tryCatch]
    refine wp_mono (wp_remove_file cfg q data w hq) ?_ ?_
    · rintro _ w' rfl
      refine ⟨?_, h.2.1, ?_⟩
      · simpa [AList.lookup_erase_ne hne] using h.1
      · simpa [hne] using h.2.2
    · rintro stop w' ⟨rfl, rfl | ⟨e, -, rfl⟩, -⟩
      · exact h
      · exact h
  · rw [wp_bind, wp_tick]
    split_ifs with hk hf
    · exact h
    · exact h
    · exact ⟨h.1, by simpa [hne] using h.2.1, h.2.2⟩

/-- **A needed file that can be read and has the right contents survives the scan**, wherever the
scan stops. -/
theorem wp_clean_recurse_held {cfg : Config} {needed : HashSet} {h : Hash} {c : Bytes}
    (hneeded : h ∈ needed) (hgood : cfg.sha1 c = h)
    (hread : cfg.detectbogus = false ∨ ∀ n, (cfg.env n).reads (objectPath cfg.repo h) = none) :
    ∀ (depth : Nat) (path : Bytes) (w : World), Held (objectPath cfg.repo h) c w →
      wp (clean_recurse cfg needed depth path) (fun _ => Held (objectPath cfg.repo h) c)
        (fun _ => Held (objectPath cfg.repo h) c) w := by
  intro depth
  induction depth with
  | zero => intro path w hw; exact hw
  | succ depth ih =>
    intro path w hw
    rw [clean_recurse, wp_bind]
    refine wp_mono (wp_contents cfg path w) ?_ (by rintro _ w' ⟨rfl, -⟩; exact hw)
    rintro files w' ⟨rfl, rfl⟩
    refine wp_foldlM (fun _ _ => Held (objectPath cfg.repo h) c) ?_ hw
    intro pre name post deleted w' hfiles hw'
    have hslash : 47 ∉ name :=
      (mem_children.mp (hfiles ▸ List.mem_append_right _ List.mem_cons_self)).2.2
    simp only [wp_bind]
    refine wp_mono (wp_type cfg _ w') ?_ (by rintro _ w' ⟨rfl, -⟩; exact hw')
    rintro t w'' ⟨rfl, ht⟩
    cases t with
    | Directory =>
      simp only [wp_bind]
      exact wp_mono (ih _ _ hw') (fun _ _ h => h) (fun _ _ h => h)
    | UnknownFileType => exact hw'
    | RegularFile =>
      obtain ⟨data, hdata⟩ : ∃ data,
          w'.store.lookup (inDir path name) = some (.file data) := by
        obtain ⟨n, hn, hft⟩ := Option.map_eq_some_iff.mp ht
        cases n with
        | file data => exact ⟨data, hn⟩
        | dir => cases hft
        | other => cases hft
      simp only [wp_bind]
      refine wp_mono (wp_keepFile cfg needed name _ _) ?_ (by rintro _ w' ⟨rfl, -⟩; exact hw')
      rintro keep w'' ⟨hw'', hkeep⟩
      have hstore : w''.store = w'.store ∧ Held (objectPath cfg.repo h) c w'' := by
        rcases hw'' with rfl | rfl <;> exact ⟨rfl, hw'⟩
      split_ifs with hk
      · exact hstore.2
      · -- the file being discarded is another one
        have hne : objectPath cfg.repo h ≠ inDir path name := by
          intro e
          refine hk (hkeep.mpr ⟨h, ?_, hneeded, fun hbogus => ⟨c, ?_, hgood⟩⟩)
          · rw [name_of_objectPath hslash e.symm, hashdecode_hexencode]
          · have hr := hread.resolve_left (by simp [hbogus]) (w'.clock + 1)
            rw [e] at hr
            have := hw'.1
            rw [e] at this
            exact (contentsAt_file this).mpr hr
        simp only [wp_bind]
        exact wp_mono (wp_discard_held hne (hstore.1 ▸ hdata) hstore.2) (fun _ _ h => h)
          (fun _ _ h => h)

/-! ### A file that is not kept -/

/-- Nothing fails and the process is not killed. -/
def Quiet (cfg : Config) : Prop :=
  ∀ n, (cfg.env n).killed = false ∧ (cfg.env n).fault = none

/-- Below `base`, whatever is at a path is in a directory and has a name. -/
def TreeLike (base : Bytes) (s : Store) : Prop :=
  ∀ q ∈ s.keys, ∀ n < q.length, q[n]? = some 47 → (q.take n = base ∨ Under base (q.take n)) →
    s.lookup (q.take n) = some .dir ∧ n + 1 < q.length

instance (base : Bytes) (s : Store) : Decidable (TreeLike base s) := by
  unfold TreeLike Under; infer_instance

theorem treeLike_iff {base : Bytes} {s : Store} : TreeLike base s ↔
    ∀ a b, (a = base ∨ Under base a) → (s.lookup (inDir a b)).isSome →
      s.lookup a = some .dir ∧ b ≠ [] := by
  constructor
  · intro h a b ha hb
    have htake : (inDir a b).take a.length = a := by simp [inDir]
    obtain ⟨h1, h2⟩ := h (inDir a b) (AList.mem_keys.mp (AList.lookup_isSome.mp hb)) a.length
      (by simp [inDir]) (by simp [inDir]) (by rwa [htake])
    rw [htake] at h1
    refine ⟨h1, ?_⟩
    rintro rfl
    simp [inDir] at h2
  · intro h q hq n hn hslash hbase
    have hq' : q = inDir (q.take n) (q.drop (n + 1)) := by
      have hget := (List.getElem?_eq_some_iff.mp hslash).2
      rw [inDir, lit_slash, List.append_assoc, List.singleton_append, ← hget,
        List.cons_getElem_drop_succ, List.take_append_drop]
    obtain ⟨h1, h2⟩ := h (q.take n) (q.drop (n + 1)) hbase
      (by rw [← hq']; exact AList.lookup_isSome.mpr (AList.mem_keys.mpr hq))
    exact ⟨h1, by simpa using h2⟩

/-- The scan has removed some files in `S`, and nothing else has changed but its output. -/
structure Eroded (S : Bytes → Prop) (w w' : World) : Prop where
  lookup : ∀ q, w'.store.lookup q = w.store.lookup q ∨
    (S q ∧ (∃ c, w.store.lookup q = some (.file c)) ∧ w'.store.lookup q = none)
  stdout : ∀ q ∈ w.stdout, q ∈ w'.stdout
  removed : ∀ q ∈ w.removed, q ∈ w'.removed

theorem Eroded.of_untouched (S : Bytes → Prop) {w w' : World} (h : Untouched w w') :
    Eroded S w w' :=
  ⟨fun q => .inl (by rw [h.store]), fun q hq => by rwa [h.stdout],
    fun q hq => by rwa [h.removed]⟩

theorem Eroded.trans {S S' T : Bytes → Prop} {w w' w'' : World} (h : Eroded S w w')
    (h' : Eroded S' w' w'') (hS : ∀ q, S q → T q) (hS' : ∀ q, S' q → T q) : Eroded T w w'' := by
  refine ⟨fun q => ?_, fun q hq => h'.stdout q (h.stdout q hq),
    fun q hq => h'.removed q (h.removed q hq)⟩
  rcases h.lookup q with e | ⟨hq, hfile, hnone⟩
  · rcases h'.lookup q with e' | ⟨hq', hfile', hnone'⟩
    · exact .inl (e'.trans e)
    · exact .inr ⟨hS' q hq', e ▸ hfile', hnone'⟩
  · rcases h'.lookup q with e' | ⟨hq', hfile', hnone'⟩
    · exact .inr ⟨hS q hq, hfile, e'.trans hnone⟩
    · exact .inr ⟨hS q hq, hfile, hnone'⟩

/-- What is outside `S` is as it was. -/
theorem Eroded.outside {S : Bytes → Prop} {w w' : World} (h : Eroded S w w') {q : Bytes}
    (hq : ¬ S q) : w'.store.lookup q = w.store.lookup q :=
  (h.lookup q).resolve_right fun hq' => hq hq'.1

theorem Eroded.isSome {S : Bytes → Prop} {w w' : World} (h : Eroded S w w') {q : Bytes}
    (hq : (w'.store.lookup q).isSome) : (w.store.lookup q).isSome := by
  rcases h.lookup q with e | ⟨_, _, hnone⟩
  · rwa [e] at hq
  · rw [hnone] at hq; cases hq

theorem Eroded.dir {S : Bytes → Prop} {w w' : World} (h : Eroded S w w') {q : Bytes}
    (hq : w.store.lookup q = some .dir) : w'.store.lookup q = some .dir := by
  rcases h.lookup q with e | ⟨_, ⟨c, hc⟩, _⟩
  · rw [e, hq]
  · rw [hq] at hc; cases hc

theorem TreeLike.eroded {S : Bytes → Prop} {base : Bytes} {w w' : World}
    (ht : TreeLike base w.store) (h : Eroded S w w') : TreeLike base w'.store := by
  rw [treeLike_iff] at ht ⊢
  intro a b ha hb
  obtain ⟨hdir, hne⟩ := ht a b ha (h.isSome hb)
  exact ⟨h.dir hdir, hne⟩

theorem TreeLike.sub {base name : Bytes} {s : Store} (ht : TreeLike base s) :
    TreeLike (inDir base name) s := by
  rw [treeLike_iff] at ht ⊢
  rintro a b (rfl | ha) hb
  · exact ht _ b (.inr (under_inDir base name)) hb
  · exact ht a b (.inr (Under.trans ha)) hb

/-- Reading a file depends on that file only. -/
theorem contentsAt_congr {reads : Bytes → Option ReadFault} {s s' : Store} {q : Bytes}
    (h : s'.lookup q = s.lookup q) : contentsAt reads s' q = contentsAt reads s q := by
  unfold contentsAt Backupfs.fileAt
  rw [h]

/-- `clean_recurse` does not keep the file `q`. -/
def Rejected (cfg : Config) (needed : HashSet) (reads : Bytes → Option ReadFault) (s : Store)
    (q : Bytes) : Prop :=
  ∀ dir name, 47 ∉ name → q = inDir dir name → ¬ Keeps cfg needed name (contentsAt reads s q)

/-- The scan has gone through the files in `S`: those that it does not keep are listed or
removed. -/
structure Scanned (cfg : Config) (needed : HashSet) (reads : Bytes → Option ReadFault)
    (S : Bytes → Prop) (w w' : World) : Prop where
  eroded : Eroded S w w'
  found : ∀ q c, S q → w.store.lookup q = some (.file c) →
    Rejected cfg needed reads w.store q → q ∈ w'.stdout ∨ q ∈ w'.removed

/-- The files `l`, and no others, are listed or removed, in this order. -/
structure Discarded (cfg : Config) (l : List Bytes) (w w' : World) : Prop where
  lookup : ∀ q, w'.store.lookup q =
    if cfg.deleteclean = true ∧ q ∈ l then none else w.store.lookup q
  stdout : w'.stdout = w.stdout ++ if cfg.deleteclean then [] else l
  removed : w'.removed = (if cfg.deleteclean then l.reverse else []) ++ w.removed

theorem Discarded.of_untouched (cfg : Config) {w w' : World} (h : Untouched w w') :
    Discarded cfg [] w w' := by
  refine ⟨fun q => ?_, ?_, ?_⟩
  · rw [if_neg (by simp), h.store]
  · rw [h.stdout, ite_self, List.append_nil]
  · rw [h.removed, List.reverse_nil, ite_self, List.nil_append]

theorem Discarded.trans {cfg : Config} {l l' : List Bytes} {w w' w'' : World}
    (h : Discarded cfg l w w') (h' : Discarded cfg l' w' w'') : Discarded cfg (l ++ l') w w'' := by
  refine ⟨fun q => ?_, ?_, ?_⟩
  · rw [h'.lookup, h.lookup]
    simp only [List.mem_append]
    split_ifs <;> tauto
  · rw [h'.stdout, h.stdout]
    split_ifs <;> simp
  · rw [h'.removed, h.removed]
    split_ifs <;> simp

/-- The scan has gone through the files in `S`: `l` are those that it does not keep. -/
structure Swept (cfg : Config) (needed : HashSet) (reads : Bytes → Option ReadFault)
    (S : Bytes → Prop) (l : List Bytes) (w w' : World) : Prop where
  nodup : l.Nodup
  mem : ∀ q, q ∈ l ↔ S q ∧ (∃ c, w.store.lookup q = some (.file c)) ∧
    Rejected cfg needed reads w.store q
  discarded : Discarded cfg l w w'

section Swept

variable {cfg : Config} {needed : HashSet} {reads : Bytes → Option ReadFault} {S S' T : Bytes → Prop}
  {l l' : List Bytes} {w w' w'' : World}

/-- What is outside `S` is as it was. -/
theorem Swept.outside (h : Swept cfg needed reads S l w w') {q : Bytes} (hq : ¬ S q) :
    w'.store.lookup q = w.store.lookup q := by
  rw [h.discarded.lookup, if_neg]
  exact fun hm => hq ((h.mem q).mp hm.2).1

theorem Swept.scanned (h : Swept cfg needed reads S l w w') :
    Scanned cfg needed reads S w w' := by
  refine ⟨⟨fun q => ?_, fun q hq => ?_, fun q hq => ?_⟩, fun q c hq hfile hrej => ?_⟩
  · rw [h.discarded.lookup]
    split_ifs with hm
    · obtain ⟨hq, hfile, -⟩ := (h.mem q).mp hm.2
      exact .inr ⟨hq, hfile, rfl⟩
    · exact .inl rfl
  · rw [h.discarded.stdout]
    exact List.mem_append_left _ hq
  · rw [h.discarded.removed]
    exact List.mem_append_right _ hq
  · have hm := (h.mem q).mpr ⟨hq, ⟨c, hfile⟩, hrej⟩
    rw [h.discarded.stdout, h.discarded.removed]
    split_ifs
    · exact .inr (List.mem_append_left _ (List.mem_reverse.mpr hm))
    · exact .inl (List.mem_append_right _ hm)

/-- The regions need to agree on files only. -/
theorem Swept.congr (h : Swept cfg needed reads S l w w')
    (hST : ∀ q c, w.store.lookup q = some (.file c) → (T q ↔ S q)) :
    Swept cfg needed reads T l w w' := by
  refine ⟨h.nodup, fun q => ?_, h.discarded⟩
  rw [h.mem]
  constructor
  · rintro ⟨hq, ⟨c, hc⟩, hrej⟩
    exact ⟨(hST q c hc).mpr hq, ⟨c, hc⟩, hrej⟩
  · rintro ⟨hq, ⟨c, hc⟩, hrej⟩
    exact ⟨(hST q c hc).mp hq, ⟨c, hc⟩, hrej⟩

/-- Nothing has happened before. -/
theorem Swept.after (h : Swept cfg needed reads S l w' w'') (hu : Untouched w w') :
    Swept cfg needed reads S l w w'' := by
  refine ⟨h.nodup, fun q => ?_, (Discarded.of_untouched cfg hu).trans h.discarded⟩
  rw [h.mem, hu.store]

/-- Going on with files that have not been gone through yet. -/
theorem Swept.trans (h : Swept cfg needed reads S l w w') (h' : Swept cfg needed reads S' l' w' w'')
    (hdisj : ∀ q, S' q → ¬ S q) :
    Swept cfg needed reads (fun q => S q ∨ S' q) (l ++ l') w w'' := by
  have hrejected : ∀ q, S' q → (Rejected cfg needed reads w'.store q ↔
      Rejected cfg needed reads w.store q) := by
    intro q hq
    unfold Rejected
    rw [contentsAt_congr (h.outside (hdisj q hq))]
  have hmem' : ∀ q, q ∈ l' ↔ S' q ∧ (∃ c, w.store.lookup q = some (.file c)) ∧
      Rejected cfg needed reads w.store q := by
    intro q
    rw [h'.mem]
    refine and_congr_right fun hq => ?_
    rw [h.outside (hdisj q hq), hrejected q hq]
  refine ⟨?_, fun q => ?_, h.discarded.trans h'.discarded⟩
  · refine List.Nodup.append h.nodup h'.nodup fun q hq hq' => ?_
    exact hdisj q ((hmem' q).mp hq').1 ((h.mem q).mp hq).1
  · rw [List.mem_append, h.mem, hmem']
    tauto

end Swept

/-- The files in or below `name`. -/
def Region (path name q : Bytes) : Prop := q = inDir path name ∨ Under (inDir path name) q

theorem wp_discard_quiet {cfg : Config} (hquiet : Quiet cfg) {q data : Bytes} {w : World}
    (hq : w.store.lookup q = some (.file data)) :
    wp (discard cfg q) (fun _ w' => Discarded cfg [q] w w') (fun _ _ => False) w := by
  obtain ⟨hk, hf⟩ := hquiet w.clock
  rw [discard, wp_ite]
  split_ifs with hdel
  · rw [wp_tryCatch]
    refine wp_mono (wp_remove_file cfg q data w hq) ?_ ?_
    · rintro _ w' rfl
      refine ⟨fun q' => ?_, by simp [hdel], by simp [hdel]⟩
      by_cases hne : q' = q
      · subst hne
        simp [hdel]
      · simp [AList.lookup_erase_ne hne, hne]
    · rintro stop w' ⟨-, -, h | h⟩
      · rw [hk] at h; cases h
      · rw [hf] at h; cases h
  · rw [wp_bind, wp_tick, if_neg (by simp [hk])]
    simp only [hf]
    exact ⟨fun q' => by simp [hdel], by simp [hdel], by simp [hdel]⟩

/-- A quiet call does not stop. -/
theorem Quiet.no_stop {cfg : Config} (hquiet : Quiet cfg) {n : Nat} {P : Prop}
    (h : (cfg.env n).killed = true ∨ (cfg.env n).fault.isSome ∨ P) : P := by
  obtain ⟨hk, hf⟩ := hquiet n
  rcases h with h | h | h
  · rw [hk] at h; cases h
  · rw [hf] at h; cases h
  · exact h

/-- What the scan does with one name, given what it does with a directory. -/
theorem wp_scan_name (deleted : Nat) {cfg : Config} {needed : HashSet} {reads : Bytes → Option ReadFault}
    (hquiet : Quiet cfg) (hreads : ∀ n, (cfg.env n).reads = reads) {depth : Nat}
    {path name : Bytes} (hname : 47 ∉ name) {w : World}
    (htree : TreeLike path w.store) (hsome : (w.store.lookup (inDir path name)).isSome)
    (ih : w.store.lookup (inDir path name) = some .dir → ∀ w', w'.store = w.store →
      wp (clean_recurse cfg needed depth (inDir path name))
        (fun n w'' => ∃ l, n = l.length ∧
          Swept cfg needed reads (Under (inDir path name)) l w' w'') (fun _ _ => False) w') :
    wp (do
      match ← Backupfs.type cfg (inDir path name) with
      | .RegularFile =>
        if ← keepFile cfg needed name (inDir path name) then return deleted
        else
          discard cfg (inDir path name)
          return deleted + 1
      | .Directory => return deleted + (← clean_recurse cfg needed depth (inDir path name))
      | .UnknownFileType => return deleted)
      (fun n w' => ∃ l, n = deleted + l.length ∧
        Swept cfg needed reads (Region path name) l w w') (fun _ _ => False) w := by
  -- only a directory has files below it
  have below : w.store.lookup (inDir path name) ≠ some .dir → ∀ q c,
      w.store.lookup q = some (.file c) → (Region path name q ↔ q = inDir path name) := by
    rintro hnot q c hfile
    refine ⟨?_, .inl⟩
    rintro (rfl | ⟨b, rfl⟩)
    · rfl
    · exact absurd (treeLike_iff.mp htree (inDir path name) b (.inr (under_inDir path name))
        (by rw [inDir, hfile]; rfl)).1 hnot
  -- the only decomposition of the path
  have hrejected : Rejected cfg needed reads w.store (inDir path name) ↔
      ¬ Keeps cfg needed name (contentsAt reads w.store (inDir path name)) := by
    refine ⟨fun h => h path name hname rfl, fun h dir n hn he => ?_⟩
    rwa [← (inDir_injective hname hn he).2]
  have kept : ∀ {w'}, Untouched w w' → w.store.lookup (inDir path name) ≠ some .dir →
      (∀ c, w.store.lookup (inDir path name) = some (.file c) →
        Keeps cfg needed name (contentsAt reads w.store (inDir path name))) →
      Swept cfg needed reads (Region path name) [] w w' := by
    intro w' hu hnot hkeep
    refine ⟨.nil, fun q => iff_of_false List.not_mem_nil ?_, .of_untouched cfg hu⟩
    rintro ⟨hq, ⟨c, hfile⟩, hrej⟩
    obtain rfl := (below hnot q c hfile).mp hq
    exact hrejected.mp hrej (hkeep c hfile)
  rw [wp_bind]
  refine wp_mono (wp_type cfg _ w) ?_ ?_
  swap
  · rintro _ w' ⟨-, hstop⟩
    rw [hquiet.no_stop hstop] at hsome
    cases hsome
  rintro t w₁ ⟨rfl, ht⟩
  obtain ⟨node, hnode, hft⟩ := Option.map_eq_some_iff.mp ht
  cases node with
  | other =>
    subst hft
    refine ⟨[], rfl, kept (.clock w _) (by rw [hnode]; simp) fun c hc => ?_⟩
    rw [hnode] at hc
    cases hc
  | dir =>
    subst hft
    simp only [Node.filetype, wp_bind]
    refine wp_mono (ih hnode _ rfl) ?_ (fun _ _ h => h)
    rintro n w' ⟨l, rfl, h⟩
    refine ⟨l, rfl, (h.after (.clock w _)).congr fun q c hfile => ⟨fun hq => hq.resolve_left ?_, .inr⟩⟩
    rintro rfl
    rw [hnode] at hfile
    cases hfile
  | file data =>
    subst hft
    simp only [Node.filetype, wp_bind]
    refine wp_mono (wp_keepFile cfg needed name _ _) ?_ ?_
    swap
    · rintro _ w' ⟨-, hk⟩
      rw [(hquiet _).1] at hk; cases hk
    rintro keep w₂ ⟨hw₂, hkeep⟩
    rw [hreads] at hkeep
    have hu : Untouched w w₂ := by
      rcases hw₂ with rfl | rfl <;> exact ⟨rfl, rfl, rfl, rfl⟩
    have hnot : w.store.lookup (inDir path name) ≠ some .dir := by rw [hnode]; simp
    split_ifs with hk
    · exact ⟨[], rfl, kept hu hnot fun _ _ => hkeep.mp hk⟩
    · rw [wp_bind]
      refine wp_mono (wp_discard_quiet hquiet (hu.store ▸ hnode)) (fun _ w' h => ?_)
        (fun _ _ h => h)
      refine ⟨[inDir path name], rfl, List.nodup_singleton _, fun q => ?_,
        (Discarded.of_untouched cfg hu).trans h⟩
      rw [List.mem_singleton]
      constructor
      · rintro rfl
        exact ⟨.inl rfl, ⟨data, hnode⟩, hrejected.mpr fun h => hk (hkeep.mpr h)⟩
      · rintro ⟨hq, ⟨c, hfile⟩, -⟩
        exact (below hnot q c hfile).mp hq

/-- **In quiet surroundings the scan goes through every file below `path`**: those that it does not
keep, and no others, are listed or removed, each of them once, and the result counts them. -/
theorem wp_clean_recurse_swept {cfg : Config} {needed : HashSet}
    {reads : Bytes → Option ReadFault} (hquiet : Quiet cfg)
    (hreads : ∀ n, (cfg.env n).reads = reads) :
    ∀ (depth : Nat) (path : Bytes) (w : World), TreeLike path w.store →
      w.store.lookup path = some .dir →
      (∀ q, (w.store.lookup q).isSome → q.length < depth + path.length) →
      wp (clean_recurse cfg needed depth path)
        (fun n w' => ∃ l, n = l.length ∧ Swept cfg needed reads (Under path) l w w')
        (fun _ _ => False) w := by
  intro depth
  induction depth with
  | zero =>
    intro path w _ hdir hdepth
    have := hdepth path (by rw [hdir]; rfl)
    omega
  | succ depth ih =>
    intro path w htree hdir hdepth
    have htree' := treeLike_iff.mp htree
    rw [clean_recurse, wp_bind]
    refine wp_mono (wp_contents cfg path w) ?_ fun _ w' h => (hquiet.no_stop h.2) hdir
    rintro files w₁ ⟨rfl, rfl⟩
    have hslash : ∀ n ∈ w.store.children path, 47 ∉ n := fun n hn => (mem_children.mp hn).2.2
    refine wp_mono (wp_foldlM (fun pre deleted w' => ∃ l, deleted = l.length ∧
      Swept cfg needed reads (fun q => ∃ n ∈ pre, Region path n q) l w w') ?_ ?_) ?_
      (fun _ _ h => h)
    · rintro pre name post deleted w' hfiles ⟨l, rfl, h⟩
      have hmem : ∀ n ∈ pre ++ [name], n ∈ w.store.children path := by
        intro n hn
        rw [hfiles]
        rcases List.mem_append.mp hn with hn | hn
        · exact List.mem_append_left _ hn
        · rw [List.mem_singleton.mp hn]; simp
      have hname := hmem name (by simp)
      have hfresh : name ∉ pre := by
        have hnd := children_nodup w.store path
        rw [hfiles, List.nodup_append] at hnd
        exact fun hp => hnd.2.2 name hp name List.mem_cons_self rfl
      -- what is in or below `name` has not been touched yet
      have hdisj : ∀ q, Region path name q → ¬ ∃ n ∈ pre, Region path n q := by
        rintro q hq ⟨n, hn, hq'⟩
        exact inDir_apart (hslash n (hmem n (by simp [hn]))) (hslash name hname)
          (fun e => hfresh (e ▸ hn)) hq' hq
      have hsame := h.outside (hdisj _ (.inl rfl))
      have heroded := h.scanned.eroded
      refine wp_mono (wp_scan_name l.length hquiet hreads (hslash name hname)
        (htree.eroded heroded) (by rw [hsame]; exact (mem_children.mp hname).1) ?_)
        ?_ (fun _ _ h => h)
      · intro hd w₂ hw₂
        refine ih _ w₂ (hw₂ ▸ (htree.eroded heroded).sub) (hw₂ ▸ hd) fun q hq => ?_
        have := hdepth q (heroded.isSome (hw₂ ▸ hq))
        simp only [inDir, lit_slash, List.length_append, List.length_singleton]
        omega
      · rintro n w'' ⟨l', rfl, h'⟩
        refine ⟨l ++ l', by rw [List.length_append], (h.trans h' hdisj).congr fun q c _ => ?_⟩
        constructor
        · rintro ⟨n, hn, hq⟩
          rcases List.mem_append.mp hn with hn | hn
          · exact .inl ⟨n, hn, hq⟩
          · rw [List.mem_singleton.mp hn] at hq
            exact .inr hq
        · rintro (⟨n, hn, hq⟩ | hq)
          · exact ⟨n, by simp [hn], hq⟩
          · exact ⟨name, by simp, hq⟩
    · refine ⟨[], rfl, .nil, fun q => iff_of_false List.not_mem_nil ?_, .of_untouched cfg (.clock w _)⟩
      rintro ⟨⟨n, hn, -⟩, -⟩
      cases hn
    · -- every file below `path` is in or below one of the names in it
      rintro _ w' ⟨l, rfl, h⟩
      refine ⟨l, rfl, h.congr fun q c hfile => ⟨fun hq => ?_, ?_⟩⟩
      · obtain ⟨name, rest, hname, rfl, rfl | ⟨b, rfl⟩⟩ := hq.cases
        · rw [List.append_nil] at hfile ⊢
          have hsome : (w.store.lookup (inDir path name)).isSome := by rw [hfile]; rfl
          exact ⟨name, mem_children.mpr ⟨hsome, (htree' path name (.inl rfl) hsome).2, hname⟩,
            .inl rfl⟩
        · have hq' : inDir path name ++ 47 :: b = inDir (inDir path name) b := by simp [inDir]
          rw [hq'] at hfile ⊢
          have hd := (htree' (inDir path name) b (.inr (under_inDir path name))
            (by rw [hfile]; rfl)).1
          have hsome : (w.store.lookup (inDir path name)).isSome := by rw [hd]; rfl
          exact ⟨name, mem_children.mpr ⟨hsome, (htree' path name (.inl rfl) hsome).2, hname⟩,
            .inr (under_inDir _ _)⟩
      · rintro ⟨n, -, rfl | hq⟩
        · exact under_inDir path n
        · exact Under.trans hq

end Hbackup
