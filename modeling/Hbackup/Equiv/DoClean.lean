import Hbackup.Equiv.CleanRecurse

/-!
# Cleanup and good data

A file of the repository is *good* if its contents hash to its name, and needed if one of the
indexes names it.  Cleanup keeps the good needed files if none of them fails to be read while the
scan checks its contents; `do_clean_keepsGoodData_iff` shows that this is the exact condition.  The
`catch(...)` in `clean_recurse` is there for names that are not hashes, but it treats an error in
opening or reading the file in the same way.
-/

namespace Hbackup

open ProgramLogic

/-- No good needed file is listed or removed, wherever `do_clean` stops. -/
def KeepsGoodData (cfg : Config) (argv : List Bytes) (w : World) : Prop :=
  ∀ h c, NeededBy cfg argv w h → w.store.lookup (objectPath cfg.repo h) = some (.file c) →
    cfg.sha1 c = h →
    objectPath cfg.repo h ∉ (stateAfter (do_clean cfg argv) w).stdout ∧
      objectPath cfg.repo h ∉ (stateAfter (do_clean cfg argv) w).removed

/-- A good needed file that can be read, or is not checked, is kept. -/
theorem wp_do_clean_held {cfg : Config} {argv : List Bytes} {w : World} {h : Hash} {c : Bytes}
    (hneeded : NeededBy cfg argv w h) (hgood : cfg.sha1 c = h)
    (hread : cfg.detectbogus = false ∨ ∀ n, (cfg.env n).reads (objectPath cfg.repo h) = none)
    (hw : Held (objectPath cfg.repo h) c w) :
    wp (do_clean cfg argv) (fun _ => Held (objectPath cfg.repo h) c)
      (fun _ => Held (objectPath cfg.repo h) c) w := by
  have still : ∀ {w'}, Untouched w w' → Held (objectPath cfg.repo h) c w' := fun hu =>
    ⟨hu.store ▸ hw.1, hu.stdout ▸ hw.2.1, hu.removed ▸ hw.2.2⟩
  rw [do_clean, wp_bind]
  refine wp_mono (wp_neededHashes cfg argv w) ?_ fun _ w' h => still h.1
  rintro needed w' ⟨-, hu, -, hmem⟩
  rw [wp_bind, wp_get]
  exact wp_clean_recurse_held ((hmem h).mpr hneeded) hgood hread _ _ _ (still hu)

/-- A quiet run over a repository lists or removes the files that it does not keep, and counts
them. -/
theorem wp_do_clean_swept {cfg : Config} {argv : List Bytes} {w : World}
    {reads : Bytes → Option ReadFault} (hquiet : Quiet cfg)
    (hreads : ∀ n, (cfg.env n).reads = reads) (hrepo : cfg.repo ≠ []) (hargv : argv ≠ [])
    (hgood : AllGood cfg argv w) (htree : TreeLike (objectsDir cfg.repo) w.store)
    (hdir : w.store.lookup (objectsDir cfg.repo) = some .dir) :
    wp (do_clean cfg argv)
      (fun n w' => ∃ needed l, (∀ h, h ∈ needed ↔ NeededBy cfg argv w h) ∧ n = l.length ∧
        Swept cfg needed reads (Under (objectsDir cfg.repo)) l w w')
      (fun _ _ => False) w := by
  rw [do_clean, wp_bind]
  refine wp_mono (wp_neededHashes cfg argv w) ?_ ?_
  · rintro needed w' ⟨-, hu, -, hmem⟩
    rw [wp_bind, wp_get]
    refine wp_mono (wp_clean_recurse_swept hquiet hreads _ _ _ (hu.store ▸ htree)
      (hu.store ▸ hdir) fun q hq => ?_) ?_ (fun _ _ h => h)
    · -- a path is no longer than all of them together
      obtain ⟨a, b, hab⟩ := List.append_of_mem (AList.mem_keys.mp (AList.lookup_isSome.mp hq))
      rw [Store.depth, hab]
      simp only [List.map_append, List.map_cons, List.sum_append, List.sum_cons]
      omega
    · rintro n w'' ⟨l, hn, h⟩
      exact ⟨needed, l, hmem, hn, h.after hu⟩
  · rintro stop w' ⟨-, h | h | ⟨i, -, h⟩ | h⟩
    · exact hargv h
    · exact hrepo h
    · rw [(hquiet _).1] at h; cases h
    · exact h hgood

/-- **Cleanup keeps the good data** of the indexes it accepts, whatever else fails, exactly if
contents are not checked or no good needed file fails to be opened or read; `reads` is the pattern
of these failures. -/
theorem do_clean_keepsGoodData_iff (cfg : Config) (argv : List Bytes) (w : World)
    (reads : Bytes → Option ReadFault) (hrepo : cfg.repo ≠ []) (hargv : argv ≠ [])
    (haccepted : ∀ name ∈ argv, ∃ ds, GoodIndex reads w.store name ds)
    (htree : TreeLike (objectsDir cfg.repo) w.store) (hstart : w.stdout = [] ∧ w.removed = []) :
    (∀ env, (∀ n, (env n).reads = reads) → KeepsGoodData { cfg with env } argv w) ↔
      (cfg.detectbogus = false ∨ ∀ h c name ds, name ∈ argv → GoodIndex reads w.store name ds →
        NamesHash ds h → w.store.lookup (objectPath cfg.repo h) = some (.file c) →
        cfg.sha1 c = h → reads (objectPath cfg.repo h) = none) := by
  constructor
  · intro hkeeps
    by_cases hbogus : cfg.detectbogus = true
    swap
    · exact .inl (by simpa using hbogus)
    refine .inr fun h c name ds hname hds hnames hfile hgood => ?_
    by_contra hfault
    -- a quiet run whose only trouble is with reading the file
    set env : Nat → Moment := fun n =>
      { cfg.env n with killed := false, fault := none, reads := reads } with henv
    have hall : AllGood { cfg with env } argv w := fun i n hi =>
      haccepted n (List.mem_of_getElem? hi)
    obtain ⟨i, hi⟩ := List.getElem?_of_mem hname
    have hneeded : NeededBy { cfg with env } argv w h := ⟨i, name, ds, hi, hds, hnames⟩
    have hdir := (treeLike_iff.mp htree _ (hashpath h) (.inl rfl) (by rw [← under_objectPath, hfile]; rfl)).1
    have hquiet : Quiet { cfg with env } := fun n => ⟨rfl, rfl⟩
    have hreads : ∀ n, ({ cfg with env }.env n).reads = reads := fun n => rfl
    obtain ⟨u, w', hrun, needed, l, -, -, hswept⟩ := wp_returns (wp_do_clean_swept hquiet hreads
      hrepo hargv hall htree hdir)
    have hscan := hswept.scanned
    have hkept := hkeeps env (fun n => rfl) h c hneeded hfile hgood
    rw [stateAfter, hrun] at hkept
    refine absurd (hscan.found (objectPath cfg.repo h) c (under_inDir _ _) hfile ?_)
      (not_or.mpr hkept)
    rintro dir n hn e ⟨h', hh', -, hcheck⟩
    obtain ⟨c', hc', -⟩ := hcheck hbogus
    have : contentsAt reads w.store (objectPath cfg.repo h) = .ok c := by
      unfold contentsAt Backupfs.fileAt at hc' ⊢
      cases hr : reads (objectPath cfg.repo h) with
      | none => exact absurd hr hfault
      | some f =>
        obtain ⟨_ | k, e⟩ := f <;> simp [hr, hfile, Except.bind, InFile.getall] at hc'
    exact hfault ((contentsAt_file hfile).mp this)
  · intro hcond env henv h c hneeded hfile hgood
    obtain ⟨i, name, ds, hi, hds, hnames⟩ := hneeded
    have hread : cfg.detectbogus = false ∨ ∀ n, (env n).reads (objectPath cfg.repo h) = none :=
      hcond.imp_right fun hc n => by
        rw [henv]
        exact hc h c name ds (List.mem_of_getElem? hi) (henv _ ▸ hds) hnames hfile hgood
    have hneeded : NeededBy { cfg with env } argv w h := ⟨i, name, ds, hi, hds, hnames⟩
    exact ((wp_stateAfter _ _ _).mp (wp_do_clean_held hneeded hgood hread
      ⟨hfile, by simp [hstart.1], by simp [hstart.2]⟩)).2

/-! ### A file that cannot be read -/

section Example

/-- The digest of `abc`. -/
def abcHash : Hash :=
  ⟨[0xa9, 0x99, 0x3e, 0x36, 0x47, 0x06, 0x81, 0x6a, 0xba, 0x3e, 0x25, 0x71, 0x78, 0x50, 0xc2, 0x6c,
    0x9c, 0xd0, 0xd8, 0x9d], rfl⟩

/-- A repository `r` with the object `abc` and the index `i` that names it. -/
def abcWorld : World where
  store := [
    ⟨lit "r/sha1", .dir⟩, ⟨lit "r/sha1/a9", .dir⟩, ⟨lit "r/sha1/a9/99", .dir⟩,
    ⟨lit "r/sha1/a9/99/a9993e364706816aba3e25717850c26c9cd0d89d", .file (lit "abc")⟩,
    ⟨lit "i", .file (lit "name=a&sha1=a9993e364706816aba3e25717850c26c9cd0d89d\n[end]\n")⟩].toAList

/-- `nhbackup --clean --detect-bogus --delete` on it; the object cannot be opened. -/
def abcConfig : Config where
  repo := lit "r"
  root := []
  indexfile := []
  hintfile := []
  crossfs := true
  preserve_atime := false
  overwrite_index := false
  permissions := true
  recheckhash := true
  detectbogus := true
  deleteclean := true
  sftp := false
  excluded := fun _ => false
  sha1 := fun _ => abcHash
  users := ⟨fun _ => none, fun _ => none, fun _ => none, fun _ => none⟩
  env := fun _ =>
    { killed := false, fault := none, written := 0, early := false
      reads := fun path => if path = objectPath (lit "r") abcHash then some ⟨none, EACCES⟩ else none
      host := ⟨fun _ => .ok [], fun _ => .error ENOENT, fun _ => .error ENOENT,
        fun _ => .error ENOENT, fun _ => .ok false, fun _ => .ok ()⟩ }

/-- The fields of the entry of the index `i`. -/
def abcFields : List (Bytes × Bytes) :=
  [(lit "name", lit "a"), (lit "sha1", hexencode abcHash.bytes)]

theorem abc_goodIndex (reads : Bytes → Option ReadFault) (hreads : reads (lit "i") = none) :
    GoodIndex reads abcWorld.store (lit "i") [Details.ofList abcFields] := by
  have hfield : ∀ {k v : Bytes}, (∀ c ∈ k, FormCoding.Plain c) → (∀ c ∈ v, FormCoding.Plain c) →
      EncodesField (k ++ 61 :: v) (k, v) := fun hk hv =>
    ⟨_, _, rfl, .self hk, .self hv⟩
  have hline : parseIndexLine (([38] : Bytes).intercalate
      [lit "name" ++ 61 :: lit "a", lit "sha1" ++ 61 :: hexencode abcHash.bytes]) =
      .ok (Details.ofList abcFields) :=
    parseIndexLine_of_fields (by simp) (.cons (hfield (by decide +kernel) (by decide +kernel))
      (.cons (hfield (by decide +kernel) (hexencode_plain _)) .nil))
  refine ⟨⟨_, none⟩, by unfold Backupfs.fileAt; rw [hreads]; rfl, ?_, ?_⟩
  · exact ⟨_, [10], .cons ⟨by decide +kernel, hline⟩ .nil, by decide +kernel, .inr ⟨[], rfl⟩⟩
  · rintro d hd s hs
    rw [List.mem_singleton.mp hd] at hs
    obtain rfl : hexencode abcHash.bytes = s := Option.some.inj hs
    exact ⟨_, hashdecode_hexencode abcHash⟩

theorem abc_namesHash : NamesHash [Details.ofList abcFields] abcHash :=
  ⟨_, List.mem_singleton_self _, _, rfl, hashdecode_hexencode abcHash⟩

/-- The object cannot be opened, and is removed. -/
theorem not_keepsGoodData :
    GoodIndex (abcConfig.env 0).reads abcWorld.store (lit "i") [Details.ofList abcFields] ∧
      ¬ KeepsGoodData abcConfig [lit "i"] abcWorld := by
  refine ⟨abc_goodIndex _ rfl, fun h => ?_⟩
  have hkept := h abcHash (lit "abc")
    ⟨0, lit "i", _, rfl, abc_goodIndex _ rfl, abc_namesHash⟩ (by decide +kernel) rfl
  revert hkept
  decide +kernel

/-- If it could be opened it would be kept. -/
theorem keepsGoodData_abc :
    KeepsGoodData { abcConfig with
      env := fun n => { abcConfig.env n with reads := fun _ => none } } [lit "i"] abcWorld :=
  (do_clean_keepsGoodData_iff abcConfig [lit "i"] abcWorld (fun _ => none) (by decide) (by decide)
    (by rintro name hname
        rw [List.mem_singleton.mp hname]
        exact ⟨_, abc_goodIndex _ rfl⟩)
    (by decide +kernel) ⟨rfl, rfl⟩).mpr (.inr fun _ _ _ _ _ _ _ _ _ => rfl) _ fun _ => rfl

end Example

end Hbackup
