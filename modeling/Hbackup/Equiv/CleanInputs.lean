import Hbackup.Equiv.DoClean
import Hbackup.Equiv.IndexText

/-!
# Cleanup and its inputs

Cleanup does nothing to the repository unless every index it is given can be read, is a sequence of
lines with a complete end marker, and names hashes of 40 digits; then it needs exactly the hashes
that they name (`do_clean_allOrNothing`).  An index that has been cut off before its end marker is
complete is not well formed (`not_isIndex_of_cut`).
-/

namespace Hbackup

open ProgramLogic FormCoding Separated

/-! ### Well-formed indexes -/

/-- The index that is opened as number `i` can be read and has the entries `ds`, whose hashes are 40
digits. -/
def WellFormed (cfg : Config) (w : World) (i : Nat) (name : Bytes) (ds : List Details) : Prop :=
  ∃ f, Backupfs.fileAt (cfg.env (w.clock + i)).reads w.store name = .ok f ∧ IsIndex f ds ∧
    ∀ d ∈ ds, ∀ s, d HASH_NAME = some s → s.length = 40 ∧ ∀ c ∈ s, (hexValue c).isSome

theorem goodIndex_iff_wellFormed {cfg : Config} {w : World} {i : Nat} {name : Bytes}
    {ds : List Details} : GoodIndex (cfg.env (w.clock + i)).reads w.store name ds ↔
      WellFormed cfg w i name ds := by
  unfold GoodIndex WellFormed HashesOk
  simp only [hashdecode_isOk_iff]

/-! ### Indexes that have been cut off -/

/-- **An index that has been cut off** before its end marker is complete is not well formed. -/
theorem not_isIndex_of_cut {es : List Entry} {p : Bytes}
    (hp : p <+: unlines 10 (es.map Entry.line) ++ lit "[end]")
    (hne : p ≠ unlines 10 (es.map Entry.line) ++ lit "[end]") (fault : Option Exn)
    (ds : List Details) : ¬ IsIndex ⟨p, fault⟩ ds := by
  have htext : indexText es = unlines 10 (es.map Entry.line) ++ lit "[end]" ++ [10] := by
    rw [indexText, List.append_assoc]
    rfl
  have hlen : p.length < (unlines 10 (es.map Entry.line) ++ lit "[end]").length :=
    lt_of_le_of_ne hp.length_le fun hlen => hne (hp.eq_of_length hlen)
  have hcut : Cut es p := by
    refine cut_of_isPrefix (htext ▸ hp.trans (List.prefix_append _ _)) ?_
    rintro rfl
    rw [htext, List.length_append] at hlen
    omega
  rintro ⟨lines, tail, hlines, hrest, htail⟩
  have hindex : IsIndex ⟨p, none⟩ ds := ⟨lines, tail, hlines, hrest, htail.imp_left fun h => ⟨h.1, rfl⟩⟩
  have hsome := hcut.isSome fun h => hne (List.append_cancel_right (h.trans htext))
  rw [entriesOf_of_isIndex hindex] at hsome
  cases hsome

/-- A file that has been cut off is not well formed, whatever of it can be read. -/
theorem not_wellFormed_of_cut {cfg : Config} {w : World} {name p : Bytes} {es : List Entry}
    (hfile : w.store.lookup name = some (.file p))
    (hp : p <+: unlines 10 (es.map Entry.line) ++ lit "[end]")
    (hne : p ≠ unlines 10 (es.map Entry.line) ++ lit "[end]") (i : Nat) (ds : List Details) :
    ¬ WellFormed cfg w i name ds := by
  rintro ⟨f, hf, hindex, -⟩
  obtain ⟨q, fault, hq, rfl⟩ : ∃ q fault, q <+: p ∧ f = ⟨q, fault⟩ := by
    unfold Backupfs.fileAt at hf
    rw [hfile] at hf
    split at hf
    · cases hf
    · dsimp only at hf
      split at hf
      · rename_i n e hreads
        exact ⟨p.take n, _, List.take_prefix _ _, (Except.ok.inj hf).symm⟩
      · exact ⟨p, none, List.prefix_rfl, (Except.ok.inj hf).symm⟩
  refine not_isIndex_of_cut (hq.trans hp) ?_ fault ds hindex
  rintro rfl
  exact hne (hp.eq_of_length_le hq.length_le)

/-! ### The result -/

/-- Cleanup with a bad index leaves everything as it is. -/
theorem untouched_of_bad {cfg : Config} {argv : List Bytes} {w : World}
    (hbad : ¬ AllGood cfg argv w) : Untouched w (stateAfter (do_clean cfg argv) w) := by
  refine (wp_stateAfter _ (Untouched w) _).mp ?_
  rw [do_clean, wp_bind]
  exact wp_mono (wp_neededHashes cfg argv w) (fun _ _ h => absurd h.2.2.1 hbad) fun _ _ h => h.1

/-- **Cleanup is all or nothing**: with a bad index nothing in the repository is listed, removed or
written, in particular with an index that has been cut off before its end marker is complete; with
good ones the hashes used for the scan are exactly those that they name. -/
theorem do_clean_allOrNothing (cfg : Config) (argv : List Bytes) (w : World) :
    (∀ (i : Nat) (name : Bytes), argv[i]? = some name → (∀ ds, ¬ WellFormed cfg w i name ds) →
      Untouched w (stateAfter (do_clean cfg argv) w)) ∧
    (∀ (i : Nat) (name : Bytes) (es : List Entry) (p : Bytes), argv[i]? = some name →
      w.store.lookup name = some (.file p) →
      p <+: unlines 10 (es.map Entry.line) ++ lit "[end]" →
      p ≠ unlines 10 (es.map Entry.line) ++ lit "[end]" →
      Untouched w (stateAfter (do_clean cfg argv) w)) ∧
    ((∀ (i : Nat) (name : Bytes), argv[i]? = some name → ∃ ds, WellFormed cfg w i name ds) →
      wp (neededHashes cfg argv)
        (fun needed _ => ∀ h, h ∈ needed ↔ ∃ i name ds, argv[i]? = some name ∧
          WellFormed cfg w i name ds ∧ NamesHash ds h)
        (fun _ w' => Untouched w w' ∧ (argv = [] ∨ cfg.repo = [] ∨
          ∃ i < argv.length, (cfg.env (w.clock + i)).killed = true)) w) := by
  -- one index that is not well formed is enough
  have hbad : ∀ i name, argv[i]? = some name → (∀ ds, ¬ WellFormed cfg w i name ds) →
      Untouched w (stateAfter (do_clean cfg argv) w) := by
    intro i name hname hno
    refine untouched_of_bad fun hall => ?_
    obtain ⟨ds, hds⟩ := hall i name hname
    exact hno ds (goodIndex_iff_wellFormed.mp hds)
  refine ⟨hbad, ?_, ?_⟩
  · intro i name es p hname hfile hp hne
    exact hbad i name hname fun ds => not_wellFormed_of_cut hfile hp hne i ds
  · intro hgood
    have hall : AllGood cfg argv w := by
      intro i name hname
      obtain ⟨ds, hds⟩ := hgood i name hname
      exact ⟨ds, goodIndex_iff_wellFormed.mpr hds⟩
    refine wp_mono (wp_neededHashes cfg argv w) ?_ ?_
    · rintro needed w' ⟨-, -, -, hneeded⟩ h
      rw [hneeded h, NeededBy]
      simp only [goodIndex_iff_wellFormed]
    · rintro stop w' ⟨hu, hargv | hrepo | hkilled | hno⟩
      · exact ⟨hu, .inl hargv⟩
      · exact ⟨hu, .inr (.inl hrepo)⟩
      · exact ⟨hu, .inr (.inr hkilled)⟩
      · exact absurd hall hno

/-- The repository with the object `abc`; its index ends inside the first line. -/
def cutWorld : World where
  store := abcWorld.store.insert (lit "i") (.file (lit "name=a&perm"))

/-- The object stays, although nothing is left that names it. -/
theorem untouched_of_cut :
    Untouched cutWorld (stateAfter (do_clean abcConfig [lit "i"]) cutWorld) ∧
      cutWorld.store.lookup (objectPath (lit "r") abcHash) = some (.file (lit "abc")) :=
  ⟨(do_clean_allOrNothing abcConfig [lit "i"] cutWorld).2.1 0 (lit "i")
    [⟨[], lit "a", default, lit "0", lit "0", .sha1 abcHash⟩] (lit "name=a&perm") rfl
    (AList.lookup_insert _) (by decide +kernel) (by decide +kernel), by decide +kernel⟩

end Hbackup
