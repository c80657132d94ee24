import Hbackup.Equiv.DoClean

/-!
# What cleanup finds

Cleanup decides by the name of a file alone.  So it finds every file that is not referred to, each
once, exactly if no file outside its place has the name of a hash that is needed (`findsAll_iff`).
-/

namespace Hbackup

open ProgramLogic

/-- A regular file of the repository that no index refers to: it is not in the place of a needed
hash. -/
def Unreferenced (cfg : Config) (argv : List Bytes) (w : World) (q : Bytes) : Prop :=
  Under (objectsDir cfg.repo) q ∧ (∃ c, w.store.lookup q = some (.file c)) ∧
    ∀ h, NeededBy cfg argv w h → q ≠ objectPath cfg.repo h

/-- Cleanup lists or removes the files that are not referred to, each once, and counts them. -/
def FindsAll (cfg : Config) (argv : List Bytes) (w : World) : Prop :=
  ∃ n w' l, do_clean cfg argv w = .ok n w' ∧ l.Nodup ∧ (∀ q, q ∈ l ↔ Unreferenced cfg argv w q) ∧
    n = l.length ∧ Discarded cfg l w w'

/-- Every file that has the name of a needed hash is in the place of that hash. -/
def InPlace (cfg : Config) (argv : List Bytes) (w : World) : Prop :=
  ∀ dir name c h, 47 ∉ name → Under (objectsDir cfg.repo) (inDir dir name) →
    w.store.lookup (inDir dir name) = some (.file c) → hashdecode name = .ok h →
    NeededBy cfg argv w h → inDir dir name = objectPath cfg.repo h

/-- What has been discarded is determined. -/
theorem Discarded.unique {cfg : Config} {l l' : List Bytes} {w w' : World}
    (h : Discarded cfg l w w') (h' : Discarded cfg l' w w') : l' = l := by
  by_cases hdel : cfg.deleteclean = true
  · have hremoved := h.removed.symm.trans h'.removed
    rw [if_pos hdel, if_pos hdel] at hremoved
    exact (List.reverse_injective (List.append_cancel_right hremoved)).symm
  · have hstdout := h.stdout.symm.trans h'.stdout
    rw [if_neg hdel, if_neg hdel] at hstdout
    exact (List.append_cancel_left hstdout).symm

/-- Without a look at the contents, what is kept depends on the name. -/
theorem keeps_iff {cfg : Config} (hbogus : cfg.detectbogus = false) {argv : List Bytes} {w : World}
    {needed : HashSet} (hmem : ∀ h, h ∈ needed ↔ NeededBy cfg argv w h) {name : Bytes}
    {data : Except Exn Bytes} : Keeps cfg needed name data ↔
      ∃ h, hashdecode name = .ok h ∧ NeededBy cfg argv w h := by
  unfold Keeps
  simp [hbogus, hmem]

/-- **Cleanup finds every file that is not referred to exactly if the files with needed names are in
their places.** -/
theorem findsAll_iff (cfg : Config) (argv : List Bytes) (w : World) (hquiet : Quiet cfg)
    (hreads : ∀ n, (cfg.env n).reads = fun _ => none) (hbogus : cfg.detectbogus = false)
    (hrepo : cfg.repo ≠ []) (hargv : argv ≠ []) (hgood : AllGood cfg argv w)
    (htree : TreeLike (objectsDir cfg.repo) w.store)
    (hdir : w.store.lookup (objectsDir cfg.repo) = some .dir) :
    FindsAll cfg argv w ↔ InPlace cfg argv w := by
  obtain ⟨n, w', hrun, needed, l, hmem, hcount, hswept⟩ := wp_returns
    (wp_do_clean_swept hquiet hreads hrepo hargv hgood htree hdir)
  constructor
  · rintro ⟨n', w'', l', hrun', -, hall, -, hdiscarded⟩ dir name c h hname hunder hfile hdecode hneeded
    rw [hrun] at hrun'
    cases hrun'
    obtain rfl := hswept.discarded.unique hdiscarded
    by_contra hmisplaced
    have hunreferenced : Unreferenced cfg argv w (inDir dir name) := by
      refine ⟨hunder, ⟨c, hfile⟩, fun h' _ heq => hmisplaced ?_⟩
      have hh := name_of_objectPath hname heq
      rw [hh, hashdecode_hexencode] at hdecode
      rw [heq, Except.ok.inj hdecode]
    -- it is found, although its name is kept
    have hrejected := ((hswept.mem _).mp ((hall _).mpr hunreferenced)).2.2
    exact hrejected dir name hname rfl ((keeps_iff hbogus hmem).mpr ⟨h, hdecode, hneeded⟩)
  · intro hplace
    refine ⟨n, w', l, hrun, hswept.nodup, fun q => ?_, hcount, hswept.discarded⟩
    rw [hswept.mem]
    refine and_congr_right fun hunder => and_congr_right fun hfile => ?_
    obtain ⟨c, hfile⟩ := hfile
    constructor
    · rintro hrejected h hneeded rfl
      obtain ⟨dir, hpath⟩ := objectPath_inDir cfg.repo h
      exact hrejected dir (hexencode h.bytes) (slash_not_mem_hexencode _) hpath
        ((keeps_iff hbogus hmem).mpr ⟨h, hashdecode_hexencode h, hneeded⟩)
    · rintro hnot dir name hname rfl hkeeps
      obtain ⟨h, hdecode, hneeded⟩ := (keeps_iff hbogus hmem).mp hkeeps
      exact hnot h hneeded (hplace dir name c h hname hunder hfile hdecode hneeded)

/-! ### A file out of its place -/

/-- The repository of `abcWorld`, with a copy of the object directly in `sha1`. -/
def misplacedWorld : World where
  store := abcWorld.store.insert (lit "r/sha1/a9993e364706816aba3e25717850c26c9cd0d89d")
    (.file (lit "abc"))

/-- `nhbackup --clean` on it. -/
def listConfig : Config :=
  { abcConfig with
    detectbogus := false
    deleteclean := false
    env := fun n => { abcConfig.env n with reads := fun _ => none } }

theorem GoodIndex.congr {reads : Bytes → Option ReadFault} {s s' : Store} {name : Bytes}
    {ds : List Details} (h : GoodIndex reads s name ds) (hs : s'.lookup name = s.lookup name) :
    GoodIndex reads s' name ds := by
  unfold GoodIndex Backupfs.fileAt at *
  rwa [hs]

/-- Index `i` is good, and it is the only one. -/
theorem abc_allGood {w : World}
    (hs : w.store.lookup (lit "i") = abcWorld.store.lookup (lit "i")) :
    AllGood listConfig [lit "i"] w := by
  intro i name hi
  have hname : name = lit "i" := List.mem_singleton.mp (List.mem_of_getElem? hi)
  rw [hname]
  exact ⟨_, (abc_goodIndex _ rfl).congr hs⟩

/-- The copy is not found. -/
theorem not_findsAll :
    Quiet listConfig ∧ AllGood listConfig [lit "i"] misplacedWorld ∧
      TreeLike (objectsDir listConfig.repo) misplacedWorld.store ∧
      ¬ FindsAll listConfig [lit "i"] misplacedWorld := by
  refine ⟨fun _ => ⟨rfl, rfl⟩, abc_allGood (by decide +kernel), by decide +kernel, ?_⟩
  rintro ⟨n, w', l, hrun, -, hall, hcount, -⟩
  have hvalue : value? (do_clean listConfig [lit "i"]) misplacedWorld = some 0 := by
    decide +kernel
  rw [value?, hrun] at hvalue
  obtain rfl : n = 0 := Option.some.inj hvalue
  obtain rfl := List.eq_nil_of_length_eq_zero hcount.symm
  have hunreferenced : Unreferenced listConfig [lit "i"] misplacedWorld
      (lit "r/sha1/a9993e364706816aba3e25717850c26c9cd0d89d") := by
    refine ⟨by unfold Under; decide +kernel, ⟨lit "abc", by decide +kernel⟩, fun h _ => ?_⟩
    exact ne_objectPath_of_length (by decide) h
  exact List.not_mem_nil ((hall _).mpr hunreferenced)

/-- The repository of `abcWorld`, and a file that nothing refers to. -/
def rubbishWorld : World where
  store := abcWorld.store.insert (lit "r/sha1/rubbish") (.file (lit "x"))

/-- Everything is found there, and it is not nothing. -/
theorem findsAll_abc : FindsAll listConfig [lit "i"] rubbishWorld ∧
    Unreferenced listConfig [lit "i"] rubbishWorld (lit "r/sha1/rubbish") := by
  refine ⟨(findsAll_iff listConfig [lit "i"] rubbishWorld (fun _ => ⟨rfl, rfl⟩) (fun _ => rfl) rfl
    (by decide) (by decide) (abc_allGood (by decide +kernel)) (by decide +kernel)
    (by decide +kernel)).mpr ?_, ?_⟩
  · intro dir name c h hname hunder hfile hdecode _
    have hkeys : ∀ q ∈ rubbishWorld.store.keys, objectsDir (lit "r") ++ lit "/" <+: q →
        (rubbishWorld.store.lookup q).map Node.filetype = some .RegularFile →
          q = objectPath (lit "r") abcHash ∨ q = inDir (lit "r/sha1") (lit "rubbish") := by
      decide +kernel
    rcases hkeys _ (AList.mem_keys.mp (AList.lookup_isSome.mp (by rw [hfile]; rfl))) hunder
      (by rw [hfile]; rfl) with hpath | hpath
    · rw [name_of_objectPath hname hpath, hashdecode_hexencode] at hdecode
      rw [hpath, ← Except.ok.inj hdecode]
      rfl
    · -- the name is not that of a hash
      rw [(inDir_injective hname (by decide) hpath).2] at hdecode
      cases hdecode
  · refine ⟨by unfold Under; decide +kernel, ⟨lit "x", by decide +kernel⟩, fun h _ => ?_⟩
    exact ne_objectPath_of_length (by decide) h

end Hbackup
