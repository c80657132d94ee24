import Hbackup.Equiv.Repository

/-!
# Indexes, whole and cut off

The index that a finished backup leaves is the lines of its entries and the end marker
(`indexText`, `do_backup_writes_index`).  Reading it delivers the maps of the entries
(`entriesOf_indexText`).

Cut off at any byte, it is read up to the cut: the whole lines first (`entriesOf_unlines`), and then
what is left behind the last newline.  The reading ends in an error unless the end marker is
complete (`isIndex_of_isPrefix`), but the rest of a line may be taken for a line:
`reads_truncated_iff` says exactly when.
-/

namespace Hbackup

open ProgramLogic FormCoding Separated

/-- The text of a finished index. -/
def indexText (es : List Entry) : Bytes := unlines 10 (es.map Entry.line) ++ lit "[end]\n"

/-- **What a finished run of `do_backup` writes.** -/
theorem do_backup_writes_index (cfg : Config) (depth : Nat) (store hintStore : Store)
    (ho : Outside cfg) :
    wp (do_backup cfg depth)
      (fun _ w => ∃ es, w.store.lookup cfg.indexfile = some (.file (indexText es)))
      (fun _ _ => True) { store, hintStore } := by
  refine wp_mono (wp_do_backup ho depth trivial (fun _ _ => trivial) fun _ _ => keepsRepo_trivial)
    ?_ fun _ _ _ => trivial
  rintro _ w ⟨hs, es, -, -, hfin⟩
  exact ⟨es, hfin.index⟩

/-! ### Reading whole lines -/

/-- The lines of entries are read one by one, and then what follows them. -/
theorem entriesOf_unlines (es : List Entry) (rest : Bytes) (fault : Option Exn) :
    entriesOf ⟨unlines 10 (es.map Entry.line) ++ rest, fault⟩ =
      (es.map Entry.details ++ (entriesOf ⟨rest, fault⟩).1, (entriesOf ⟨rest, fault⟩).2) := by
  induction es with
  | nil => rfl
  | cons e es ih =>
    rw [List.map_cons, unlines_cons, List.append_assoc, List.cons_append,
      entriesOf_line e.newline_not_mem (ne_end_of_parse e.parse) e.parse, ih]
    rfl

theorem isIndex_indexText (es : List Entry) : IsIndex ⟨indexText es, none⟩ (es.map Entry.details) :=
  ⟨es.map Entry.line, [10], forall₂_entries es, by rw [List.append_assoc]; rfl, .inr ⟨[], rfl⟩⟩

/-- **A finished index is read as its entries.** -/
theorem entriesOf_indexText (es : List Entry) :
    entriesOf ⟨indexText es, none⟩ = (es.map Entry.details, none) :=
  entriesOf_of_isIndex (isIndex_indexText es)

/-! ### Where the cut may fall -/

/-- The ways to cut an index off: in a line, perhaps just before its newline, or in the end marker,
which may even be complete without its newline. -/
inductive Cut (es : List Entry) : Bytes → Prop
  | line {pre post : List Entry} {e : Entry} {frag : Bytes} (hes : es = pre ++ e :: post)
      (hfrag : frag <+: e.line) : Cut es (unlines 10 (pre.map Entry.line) ++ frag)
  | marker {frag : Bytes} (hfrag : frag <+: lit "[end]") :
      Cut es (unlines 10 (es.map Entry.line) ++ frag)

theorem cut_of_isPrefix {es : List Entry} {p : Bytes} (hp : p <+: indexText es)
    (hne : p ≠ indexText es) : Cut es p := by
  rcases prefix_append_cases hp with hp | ⟨q, rfl, hq⟩
  · rcases prefix_unlines hp with rfl | ⟨lpre, l, lpost, frag, hls, rfl, hfrag⟩
    · rw [← List.append_nil (unlines _ _)]
      exact .marker List.nil_prefix
    · obtain ⟨pre, rest, rfl, rfl, hrest⟩ := List.map_eq_append_iff.mp hls
      obtain ⟨e, post, rfl, rfl, -⟩ := List.map_eq_cons_iff.mp hrest
      exact .line rfl hfrag
  · refine .marker ?_
    rcases List.prefix_concat_iff.mp (show q <+: lit "[end]" ++ [10] from hq) with he | hq
    · exact absurd (by rw [he]; rfl) hne
    · exact hq

/-! ### Reading a cut line -/

/-- Anything but the whole end marker, without a newline, is not a normal end. -/
theorem entriesOf_frag {frag : Bytes} (h10 : 10 ∉ frag) (hend : frag ≠ lit "[end]") :
    (entriesOf ⟨frag, none⟩).2.isSome ∧ (entriesOf ⟨frag, none⟩).1 =
      match parseIndexLine frag with
      | .error _ => []
      | .ok d => [d] := by
  rw [entriesOf_last h10, if_neg hend]
  split_ifs with hnil
  · rw [hnil]
    exact ⟨rfl, rfl⟩
  · cases parseIndexLine frag <;> exact ⟨rfl, rfl⟩

/-- A part of the end marker is not a line. -/
theorem parse_marker {frag : Bytes} (h : frag <+: lit "[end]") :
    (∃ e, parseIndexLine frag = .error e) ∧ lastValue frag = none := by
  have hmem : ∀ frag ∈ (lit "[end]").inits,
      (match parseIndexLine frag with
        | .error _ => true
        | .ok _ => false) = true ∧ lastValue frag = none := by decide
  obtain ⟨herr, hlast⟩ := hmem frag ((List.mem_inits frag _).mpr h)
  refine ⟨?_, hlast⟩
  cases hp : parseIndexLine frag with
  | error e => exact ⟨e, rfl⟩
  | ok d =>
    rw [hp] at herr
    cases herr

/-- What a line that is cut off inside a field is taken for is not the map of the entry. -/
theorem details_truncated {e : Entry} {pre post : List (Bytes × Bytes)} {kv : Bytes × Bytes}
    {s : Bytes} (hfields : e.fields = pre ++ kv :: post) (h : post ≠ [] ∨ s.length < kv.2.length) :
    Details.ofList (pre ++ [(kv.1, s)]) ≠ e.details := by
  have hnodup := e.keys_nodup
  have hnodup' : ((pre ++ [(kv.1, s)]).map Prod.fst).Nodup := by
    refine hnodup.sublist ?_
    rw [hfields, List.map_append, List.map_append]
    exact (List.Sublist.refl _).append (by simp)
  intro heq
  have hmem : ∀ k v, (k, v) ∈ pre ++ [(kv.1, s)] ↔ (k, v) ∈ e.fields := fun k v => by
    rw [← ofList_eq_some_iff hnodup', ← ofList_eq_some_iff hnodup, heq]
    rfl
  -- the value that has been cut is shorter, or a key behind it is missing
  rcases h with hpost | hshort
  · obtain ⟨kv', post, rfl⟩ := List.exists_cons_of_ne_nil hpost
    have hkey : kv'.1 ∈ (pre ++ [(kv.1, s)]).map Prod.fst :=
      List.mem_map_of_mem ((hmem kv'.1 kv'.2).mpr (by rw [hfields]; simp))
    rw [hfields, List.append_cons, List.map_append] at hnodup
    refine (List.nodup_append.mp hnodup).2.2 kv'.1 ?_ kv'.1 (by simp) rfl
    simpa using hkey
  · have hs : (kv.1, s) ∈ e.fields := (hmem _ _).mp (by simp)
    have hv : (kv.1, kv.2) ∈ e.fields := by rw [hfields]; simp
    rw [← ofList_eq_some_iff hnodup] at hs hv
    rw [Option.some.inj (hs.symm.trans hv)] at hshort
    exact absurd hshort (lt_irrefl _)

/-- **A cut line** is taken for a line exactly if it has a `=` behind its last `&` and does not end
inside an escape; the map is that of the entry only if the line is whole. -/
theorem parse_truncated {e : Entry} {frag : Bytes} (h : frag <+: e.line) :
    ((∃ err, parseIndexLine frag = .error err) ∧ ∀ v ∈ lastValue frag, EndsInEscape v) ∨
    (∃ v, lastValue frag = some v ∧ ¬ EndsInEscape v ∧ ∃ d, parseIndexLine frag = .ok d ∧
      (frag ≠ e.line → d ≠ e.details)) := by
  have hne : e.fields.map part ≠ [] := by simp [Entry.fields]
  refine (parseIndexLine_truncated hne (parts_encode e.plainKeys) h).imp_right ?_
  rintro ⟨v, hv, hesc, pre, kv, post, s, hfields, hparse, -, hcut⟩
  exact ⟨v, hv, hesc, _, hparse, fun hfrag => details_truncated hfields (hcut hfrag)⟩

/-! ### Reading a cut index -/

theorem newline_not_mem_lines (es : List Entry) : ∀ l ∈ es.map Entry.line, 10 ∉ l := by
  intro l hl
  obtain ⟨e, -, rfl⟩ := List.mem_map.mp hl
  exact e.newline_not_mem

/-- The text behind the last newline. -/
def lastLine (p : Bytes) : Bytes := (p.splitOn 10).getLastD []

theorem lastLine_unlines (es : List Entry) {frag : Bytes} (h : 10 ∉ frag) :
    lastLine (unlines 10 (es.map Entry.line) ++ frag) = frag := by
  rw [lastLine, splitOn_unlines (newline_not_mem_lines es) h]
  simp

/-- Part of a line is not the end marker. -/
theorem frag_spec {e : Entry} {frag : Bytes} (h : frag <+: e.line) :
    10 ∉ frag ∧ frag ≠ lit "[end]" := by
  refine ⟨fun hm => e.newline_not_mem (h.mem hm), ?_⟩
  rintro rfl
  obtain ⟨r, hr⟩ := h
  have hhead := e.begun.1
  rw [← hr] at hhead
  exact absurd (Option.some.inj hhead) (by decide)

theorem marker_spec {frag : Bytes} (h : frag <+: lit "[end]") : 10 ∉ frag :=
  fun hm => absurd (h.mem hm) (by decide)

/-- **A cut index has no normal end**, unless only the last newline is missing. -/
theorem Cut.isSome {es : List Entry} {p : Bytes} (h : Cut es p) (hp : p ++ [10] ≠ indexText es) :
    (entriesOf ⟨p, none⟩).2.isSome := by
  cases h with
  | line hes hfrag =>
    rw [entriesOf_unlines]
    exact (entriesOf_frag (frag_spec hfrag).1 (frag_spec hfrag).2).1
  | marker hfrag =>
    rw [entriesOf_unlines]
    refine (entriesOf_frag (marker_spec hfrag) ?_).1
    rintro rfl
    exact hp (by rw [indexText, List.append_assoc]; rfl)

/-- The byte behind a cut line is a newline if the line is whole. -/
theorem newline_next_iff {pre post : List Entry} {e : Entry} {frag : Bytes}
    (hfrag : frag <+: e.line) :
    unlines 10 (pre.map Entry.line) ++ frag ++ [10] <+: indexText (pre ++ e :: post) ↔
      frag = e.line := by
  have htext : indexText (pre ++ e :: post) =
      unlines 10 (pre.map Entry.line) ++ (e.line ++ 10 :: indexText post) := by
    simp [indexText]
  rw [htext, List.append_assoc, List.prefix_append_right_inj]
  obtain ⟨r, hr⟩ := hfrag
  constructor
  · intro h
    rw [← hr, List.append_assoc, List.prefix_append_right_inj] at h
    cases r with
    | nil => rw [← hr, List.append_nil]
    | cons c r =>
      obtain ⟨rfl, -⟩ := List.cons_prefix_cons.mp h
      exact absurd (by rw [← hr]; simp) e.newline_not_mem
  · rintro rfl
    exact ⟨indexText post, by simp⟩

/-- A cut index is read as it should be: its first entries are delivered, and the reading ends in an
error unless only the last newline is missing. -/
structure ReadsCut (w p : Bytes) : Prop where
  entries : ∃ k, (entriesOf ⟨p, none⟩).1 = (entriesOf ⟨w, none⟩).1.take k
  ends : p ++ [10] ≠ w → (entriesOf ⟨p, none⟩).2.isSome

/-- **A cut index is read as it should be** if and only if the cut falls before a newline, or the
text behind the last newline has no `=` behind its last `&`, or it ends inside an escape. -/
theorem readsCut_iff (es : List Entry) (p : Bytes) (hp : p <+: indexText es)
    (hne : p ≠ indexText es) :
    ReadsCut (indexText es) p ↔
      p ++ [10] <+: indexText es ∨ ∀ v ∈ lastValue (lastLine p), EndsInEscape v := by
  have hcut := cut_of_isPrefix hp hne
  have hends := hcut.isSome
  cases hcut with
  | marker hfrag =>
    obtain ⟨⟨err, herr⟩, hlast⟩ := parse_marker hfrag
    rw [lastLine_unlines es (marker_spec hfrag), hlast]
    refine iff_of_true ⟨⟨es.length, ?_⟩, hends⟩ (.inr (by simp))
    rw [entriesOf_unlines, entriesOf_indexText, entriesOf_last (marker_spec hfrag), herr]
    split_ifs <;> simp
  | @line pre post e frag hes hfrag =>
    subst hes
    obtain ⟨h10, hend⟩ := frag_spec hfrag
    have hread := (entriesOf_frag h10 hend).2
    rw [lastLine_unlines pre h10, newline_next_iff hfrag]
    rcases parse_truncated hfrag with ⟨⟨err, herr⟩, hlast⟩ | ⟨v, hv, hesc, d, hparse, hd⟩
    · -- nothing is made of the cut line
      rw [herr] at hread
      refine iff_of_true ⟨⟨pre.length, ?_⟩, hends⟩ (.inr hlast)
      rw [entriesOf_unlines, entriesOf_indexText, hread]
      simp
    · rw [hparse] at hread
      by_cases hwhole : frag = e.line
      · refine iff_of_true ⟨⟨pre.length + 1, ?_⟩, hends⟩ (.inl hwhole)
        rw [hwhole, e.parse] at hparse
        cases hparse
        have hmap : (pre ++ e :: post).map Entry.details =
            (pre.map Entry.details ++ [e.details]) ++ post.map Entry.details := by simp
        rw [entriesOf_unlines, entriesOf_indexText, hread, hmap, List.take_left' (by simp)]
        rfl
      · -- the map delivered for the cut line is in the place of another
        refine iff_of_false (fun h => hd hwhole ?_) ?_
        · obtain ⟨k, hk⟩ := h.entries
          rw [entriesOf_unlines, entriesOf_indexText, hread] at hk
          have hlen : pre.length < k := by
            have := congrArg List.length hk
            simp only [List.length_append, List.length_map, List.length_cons, List.length_nil,
              List.length_take] at this
            omega
          have := congrArg (·[pre.length]?) hk
          simpa [List.getElem?_take, hlen] using this
        · rintro (hw | hlast)
          · exact hwhole hw
          · exact hesc (hlast v hv)

/-- The index of one large file. -/
def largeFileIndex : Bytes :=
  lit "name=a&perms=0&uid=0&gid=0&atime=0&ctime=0&mtime=0" ++
    lit "&sha1=0707070707070707070707070707070707070707\n[end]\n"

/-- Without its last digit the hash is delivered all the same. -/
theorem not_readsCut : ¬ ∀ (cfg : Config) (depth : Nat) (store hintStore : Store) (w p : Bytes)
    (u : Unit) (w' : World), do_backup cfg depth { store, hintStore } = .ok u w' →
      w'.store.lookup cfg.indexfile = some (.file w) → p <+: w → p ≠ w → ReadsCut w p := by
  intro h
  have hrun : value? (do_backup (largeFile 1000) 1) { store := ∅ } = some () := by decide +kernel
  have hindex : (stateAfter (do_backup (largeFile 1000) 1) { store := ∅ }).store.lookup
      (lit "index") = some (.file largeFileIndex) := by decide +kernel
  obtain ⟨k, hk⟩ := (h (largeFile 1000) 1 ∅ ∅ largeFileIndex (largeFileIndex.take 95) _ _
    (ok_of_value? hrun) hindex (List.take_prefix _ _) (by decide)).entries
  have hcut : (entriesOf ⟨largeFileIndex.take 95, none⟩).1.map (· HASH_NAME) =
      [some (lit "070707070707070707070707070707070707070")] := by decide +kernel
  have hwhole : (entriesOf ⟨largeFileIndex, none⟩).1.map (· HASH_NAME) =
      [some (lit "0707070707070707070707070707070707070707")] := by decide +kernel
  have hk' := congrArg (List.map (· HASH_NAME)) hk
  rw [List.map_take, hcut, hwhole] at hk'
  cases k with
  | zero => exact absurd hk' (by decide)
  | succ k => exact absurd hk' (by simp; decide)

/-- A cut in a key does no harm. -/
theorem readsCut_key :
    ReadsCut (indexText [⟨[], lit "a", default, lit "0", lit "0", .socket⟩]) (lit "name=a&perm") :=
  (readsCut_iff [⟨[], lit "a", default, lit "0", lit "0", .socket⟩] (lit "name=a&perm")
    (by decide +kernel) (by decide +kernel)).mpr
      (.inr (by rw [(by decide : lastValue (lastLine (lit "name=a&perm")) = none)]; simp))

end Hbackup
