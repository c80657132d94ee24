import Hbackup.Cleanup
import Hbackup.Equiv.File
import Hbackup.Equiv.World

/-!
# What cleanup needs

The first part of `do_clean` returns a set of hashes only if every index is well formed, and then it
is the set of the hashes that the indexes name (`wp_neededHashes`); otherwise the program stops
before it has listed or removed anything.
-/

namespace Hbackup

open ProgramLogic Separated

/-! ### Collecting the hashes of one index -/

/-- The `sha1` values of all the entries are hashes. -/
def HashesOk (ds : List Details) : Prop :=
  ∀ d ∈ ds, ∀ s, d HASH_NAME = some s → ∃ h, hashdecode s = .ok h

/-- One of the entries names `h`. -/
def NamesHash (ds : List Details) (h : Hash) : Prop :=
  ∃ d ∈ ds, ∃ s, d HASH_NAME = some s ∧ hashdecode s = .ok h

theorem namesHash_append_singleton {ds : List Details} {d : Details} {h : Hash} :
    NamesHash (ds ++ [d]) h ↔
      NamesHash ds h ∨ ∃ s, d HASH_NAME = some s ∧ hashdecode s = .ok h := by
  unfold NamesHash
  simp only [List.mem_append, List.mem_singleton]
  constructor
  · rintro ⟨d', hd | rfl, hs⟩
    · exact .inl ⟨d', hd, hs⟩
    · exact .inr hs
  · rintro (⟨d', hd, hs⟩ | hs)
    · exact ⟨d', .inl hd, hs⟩
    · exact ⟨d, .inr rfl, hs⟩

/-- The loop over one index either adds exactly the hashes that the index names, or ends in an
exception because the index is not well formed. -/
theorem wp_collectHashes (f : InFile) (needed : HashSet) :
    wp (collectHashes f)
      (fun _ needed' => ∃ ds, IsIndex f ds ∧ HashesOk ds ∧
        ∀ h, h ∈ needed' ↔ h ∈ needed ∨ NamesHash ds h)
      (fun _ _ => ¬ ∃ ds, IsIndex f ds ∧ HashesOk ds) needed := by
  -- the entries of an index are those that are read
  have hunique : ∀ {ds}, IsIndex f ds → ds = (entriesOf f).1 ∧ (entriesOf f).2 = none := by
    intro ds h
    rw [(entriesOf_eq_iff_isIndex f ds).mpr h]
    exact ⟨rfl, rfl⟩
  rw [collectHashes, whileReadIndexLine_eq_entriesOf, wp_bind]
  -- after any number of entries the set has their hashes, all of which can be decoded
  refine wp_mono (wp_forM (E := fun _ _ => ¬ ∃ ds, IsIndex f ds ∧ HashesOk ds)
    (I := fun pre s => HashesOk pre ∧ ∀ h, h ∈ s ↔ h ∈ needed ∨ NamesHash pre h)
    ?_ ⟨by simp [HashesOk], by simp [NamesHash]⟩) ?_ (fun _ _ he => he)
  · intro pre d post s hl ⟨hpre, hs⟩
    unfold Details.getdetail
    cases hd : d HASH_NAME with
    | none =>
      refine ⟨fun d' hd' v hv => ?_, fun h => ?_⟩
      · rcases List.mem_append.mp hd' with hd' | hd'
        · exact hpre d' hd' v hv
        · rw [List.mem_singleton.mp hd', hd] at hv; cases hv
      · rw [hs, namesHash_append_singleton, hd]
        simp
    | some v =>
      cases hv : hashdecode v with
      | error e =>
        simp only [hv, wp_throw]
        rintro ⟨ds, hds, hok⟩
        obtain ⟨h, hh⟩ := hok d (by rw [(hunique hds).1, hl]; simp) v hd
        rw [hv] at hh; cases hh
      | ok h =>
        simp only [hv, wp_modify]
        refine ⟨fun d' hd' v' hv' => ?_, fun h' => ?_⟩
        · rcases List.mem_append.mp hd' with hd' | hd'
          · exact hpre d' hd' v' hv'
          · rw [List.mem_singleton.mp hd', hd] at hv'
            cases hv'
            exact ⟨h, hv⟩
        · rw [HashSet.mem_insert, hs, namesHash_append_singleton, hd]
          simp only [Option.some.injEq, exists_eq_left', hv, Except.ok.injEq]
          tauto
  · rintro - s ⟨hok, hs⟩
    cases hend : (entriesOf f).2 with
    | none => exact ⟨_, isIndex_of_entriesOf (Prod.ext rfl hend), hok, hs⟩
    | some e =>
      rintro ⟨ds, hds, -⟩
      rw [(hunique hds).2] at hend; cases hend

/-! ### Collecting the hashes of all indexes -/

/-- The file `name` can be read and holds a well-formed index with the entries `ds`. -/
def GoodIndex (reads : Bytes → Option ReadFault) (s : Store) (name : Bytes) (ds : List Details) :
    Prop :=
  ∃ f, Backupfs.fileAt reads s name = .ok f ∧ IsIndex f ds ∧ HashesOk ds

/-- The indexes `argv` are opened at consecutive ticks from `w.clock` on. -/
def AllGood (cfg : Config) (argv : List Bytes) (w : World) : Prop :=
  ∀ i name, argv[i]? = some name → ∃ ds, GoodIndex (cfg.env (w.clock + i)).reads w.store name ds

/-- One of the indexes names `h`. -/
def NeededBy (cfg : Config) (argv : List Bytes) (w : World) (h : Hash) : Prop :=
  ∃ i name ds, argv[i]? = some name ∧
    GoodIndex (cfg.env (w.clock + i)).reads w.store name ds ∧ NamesHash ds h

/-- One more index. -/
theorem neededBy_append_singleton {cfg : Config} {pre : List Bytes} {name : Bytes} {w : World}
    {h : Hash} : NeededBy cfg (pre ++ [name]) w h ↔ NeededBy cfg pre w h ∨
      ∃ ds, GoodIndex (cfg.env (w.clock + pre.length)).reads w.store name ds ∧ NamesHash ds h := by
  unfold NeededBy
  constructor
  · rintro ⟨i, n, ds, hi, hds⟩
    rw [List.getElem?_append] at hi
    split_ifs at hi with hlt
    · exact .inl ⟨i, n, ds, hi, hds⟩
    · obtain ⟨hi0, rfl⟩ : i - pre.length = 0 ∧ name = n := by
        rw [List.getElem?_singleton] at hi
        split_ifs at hi with h0
        exact ⟨h0, Option.some.inj hi⟩
      obtain rfl : i = pre.length := by omega
      exact .inr ⟨ds, hds⟩
  · rintro (⟨i, n, ds, hi, hds⟩ | ⟨ds, hds⟩)
    · have hlt : i < pre.length := (List.getElem?_eq_some_iff.mp hi).1
      exact ⟨i, n, ds, by rw [List.getElem?_append, if_pos hlt, hi], hds⟩
    · exact ⟨pre.length, name, ds, by simp, hds⟩

theorem allGood_append_singleton {cfg : Config} {pre : List Bytes} {name : Bytes} {w : World} :
    AllGood cfg (pre ++ [name]) w ↔ AllGood cfg pre w ∧
      ∃ ds, GoodIndex (cfg.env (w.clock + pre.length)).reads w.store name ds := by
  unfold AllGood
  constructor
  · intro h
    refine ⟨fun i n hi => h i n ?_, h pre.length name (by simp)⟩
    have hlt : i < pre.length := (List.getElem?_eq_some_iff.mp hi).1
    rw [List.getElem?_append, if_pos hlt, hi]
  · rintro ⟨h, hname⟩ i n hi
    rw [List.getElem?_append] at hi
    split_ifs at hi with hlt
    · exact h i n hi
    · obtain ⟨hi0, rfl⟩ : i - pre.length = 0 ∧ name = n := by
        rw [List.getElem?_singleton] at hi
        split_ifs at hi with h0
        exact ⟨h0, Option.some.inj hi⟩
      obtain rfl : i = pre.length := by omega
      exact hname

/-- The entries of a good index are determined. -/
theorem GoodIndex.unique {reads : Bytes → Option ReadFault} {s : Store} {name : Bytes}
    {ds ds' : List Details} (h : GoodIndex reads s name ds) (h' : GoodIndex reads s name ds') :
    ds = ds' := by
  obtain ⟨f, hf, hi, -⟩ := h
  obtain ⟨f', hf', hi', -⟩ := h'
  obtain rfl : f = f' := Except.ok.inj (hf.symm.trans hf')
  have := (entriesOf_of_isIndex hi).symm.trans (entriesOf_of_isIndex hi')
  exact (Prod.mk.inj this).1

/-- What is known after some of the indexes have been read: the hashes and the bad files so far. -/
structure Collected (cfg : Config) (w : World) (pre : List Bytes) (acc : HashSet × List Bytes)
    (w' : World) : Prop where
  clock : w'.clock = w.clock + pre.length
  untouched : Untouched w w'
  good : acc.2 = [] ↔ AllGood cfg pre w
  needed : acc.2 = [] → ∀ h, h ∈ acc.1 ↔ NeededBy cfg pre w h

/-- Why the first part of `do_clean` may stop. -/
def StopsReading (cfg : Config) (argv : List Bytes) (w : World) : Prop :=
  argv = [] ∨ cfg.repo = [] ∨ (∃ i < argv.length, (cfg.env (w.clock + i)).killed = true) ∨
    ¬ AllGood cfg argv w

theorem wp_checkIndex {cfg : Config} {argv pre post : List Bytes} {name : Bytes} {w : World}
    (hargv : argv = pre ++ name :: post) {acc : HashSet × List Bytes} {w' : World}
    (h : Collected cfg w pre acc w') :
    wp (checkIndex cfg acc name) (Collected cfg w (pre ++ [name]))
      (fun _ w'' => Untouched w w'' ∧ StopsReading cfg argv w) w' := by
  have hname : argv[pre.length]? = some name := by rw [hargv]; simp
  have hclock : w'.clock + 1 = w.clock + (pre ++ [name]).length := by
    rw [h.clock]; simp [Nat.add_assoc]
  have hu : ∀ n, Untouched w { w' with clock := n } := fun n =>
    ⟨h.untouched.store, h.untouched.written, h.untouched.removed, h.untouched.stdout⟩
  -- a bad index makes the list of bad files nonempty for good
  have hbad : (¬ ∃ ds, GoodIndex (cfg.env (w.clock + pre.length)).reads w.store name ds) →
      ∀ (needed : HashSet) (n : Nat), Collected cfg w (pre ++ [name])
        (needed, acc.2 ++ [name]) { w' with clock := w'.clock + 1, errors := n } := by
    intro hno needed n
    refine ⟨hclock, ⟨h.untouched.store, h.untouched.written, h.untouched.removed,
      h.untouched.stdout⟩, ?_, by simp⟩
    rw [allGood_append_singleton]
    simp [hno]
  have hstop : (¬ ∃ ds, GoodIndex (cfg.env (w.clock + pre.length)).reads w.store name ds) →
      StopsReading cfg argv w := fun hno =>
    .inr (.inr (.inr fun hall => hno (hall pre.length name hname)))
  rw [checkIndex, wp_bind, Backupfs.openRead, wp_bind, wp_tick, h.clock]
  split_ifs with hk
  · exact ⟨hu _, .inr (.inr (.inl ⟨pre.length, by rw [hargv]; simp, hk⟩))⟩
  rw [wp_bind, wp_get, wp_liftExcept]
  rw [h.clock] at hbad
  have hu₁ := hu (w.clock + pre.length + 1)
  have hclock₁ : ({ w' with clock := w.clock + pre.length + 1 } : World).clock =
      w.clock + (pre ++ [name]).length := by simp [Nat.add_assoc]
  have hbad₁ : (¬ ∃ ds, GoodIndex (cfg.env (w.clock + pre.length)).reads w.store name ds) →
      ∀ (needed : HashSet) (n : Nat), Collected cfg w (pre ++ [name]) (needed, acc.2 ++ [name])
        { ({ w' with clock := w.clock + pre.length + 1 } : World) with errors := n } := hbad
  generalize ({ w' with clock := w.clock + pre.length + 1 } : World) = w₁ at *
  rw [hu₁.store]
  cases hf : Backupfs.fileAt (cfg.env (w.clock + pre.length)).reads w.store name with
  | error e =>
    refine ⟨hu₁, hstop ?_⟩
    rintro ⟨ds, f, hf', -⟩
    rw [hf] at hf'; cases hf'
  | ok f =>
    have hspec := wp_collectHashes f acc.1
    cases hc : collectHashes f acc.1 with
    | ok u needed =>
      obtain ⟨ds, hindex, hok, hmem⟩ := wp_elim_ok hspec hc
      have hds : GoodIndex (cfg.env (w.clock + pre.length)).reads w.store name ds :=
        ⟨f, hf, hindex, hok⟩
      simp only [hc, wp_pure]
      refine ⟨hclock₁, hu₁, ?_, fun hnil h' => ?_⟩
      · rw [allGood_append_singleton, ← h.good]
        exact ⟨fun e => ⟨e, ds, hds⟩, fun e => e.1⟩
      · rw [hmem, neededBy_append_singleton, ← h.needed hnil]
        constructor
        · rintro (hn | hn)
          · exact .inl hn
          · exact .inr ⟨ds, hds, hn⟩
        · rintro (hn | ⟨ds', hds', hn⟩)
          · exact .inl hn
          · exact .inr (hds.unique hds' ▸ hn)
    | error e needed =>
      have hno : ¬ ∃ ds, GoodIndex (cfg.env (w.clock + pre.length)).reads w.store name ds := by
        rintro ⟨ds, f', hf', hindex, hok⟩
        obtain rfl : f = f' := Except.ok.inj (hf.symm.trans hf')
        exact wp_elim_error hspec hc ⟨ds, hindex, hok⟩
      have hb := hbad₁ hno needed
      simp only [hc]
      cases e with
      | badHex s => exact hb w₁.errors
      | badHexDigit => exact hb w₁.errors
      | badIndexFile s => exact hb (w₁.errors + 1)
      | fileError doing path errno => exact ⟨hu₁, hstop hno⟩
      | readOnlyFile => exact ⟨hu₁, hstop hno⟩
      | writeOnlyFile => exact ⟨hu₁, hstop hno⟩
      | hashError e => exact ⟨hu₁, hstop hno⟩

/-- **The hashes used for the scan** are exactly those that the indexes name, and there is a scan
only if all the indexes are well formed. -/
theorem wp_neededHashes (cfg : Config) (argv : List Bytes) (w : World) :
    wp (neededHashes cfg argv)
      (fun needed w' => w'.clock = w.clock + argv.length ∧ Untouched w w' ∧
        AllGood cfg argv w ∧ ∀ h, h ∈ needed ↔ NeededBy cfg argv w h)
      (fun _ w' => Untouched w w' ∧ StopsReading cfg argv w) w := by
  have hloop := wp_foldlM (f := checkIndex cfg) (I := Collected cfg w)
    (E := fun _ w' => Untouched w w' ∧ StopsReading cfg argv w) (l := argv)
    (fun pre x post acc w' hl h => wp_checkIndex hl h) (b := ([], [])) (s := w)
    ⟨by simp, .refl w, by simp [AllGood], by simp [NeededBy]⟩
  rw [neededHashes]
  simp only [wp_bind, wp_ite, wp_fatal]
  split_ifs with hrepo hargv
  · exact ⟨.refl w, .inr (.inl hrepo)⟩
  · exact ⟨.refl w, .inl (List.eq_nil_of_length_eq_zero hargv)⟩
  refine wp_mono hloop (fun acc w' h => ?_) (fun _ _ h => h)
  split_ifs with hbad
  · refine ⟨h.untouched, .inr (.inr (.inr fun hall => hbad ?_))⟩
    rw [h.good.mpr hall]; rfl
  · have hnil : acc.2 = [] := List.eq_nil_of_length_eq_zero (by simpa using hbad)
    exact ⟨h.clock, h.untouched, h.good.mp hnil, h.needed hnil⟩

end Hbackup
