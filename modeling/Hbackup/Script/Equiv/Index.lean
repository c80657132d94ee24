import Hbackup.Equiv.Format
import Hbackup.Script.Index

/-!
# What the script reads from an index

`parse_qs` takes a line of encoded fields apart as it has been put together, and `parse_index` hands
the lines of an index on with the names in full (`parse_index_eq`).
-/

namespace Hbackup.Script

open FormCoding Separated

/-! ### `unquote` -/

theorem unquote_plain {c : UInt8} (hc : c ≠ 37) (s : Bytes) : unquote (c :: s) = c :: unquote s := by
  have hsplit : (c :: s).splitOn 37 = (s.splitOn 37).modifyHead (c :: ·) := by
    unfold List.splitOn
    rw [List.splitOnP_cons_eq_if_modifyHead, if_neg (by simpa using hc)]
  unfold unquote
  rw [hsplit]
  cases hs : s.splitOn 37 with
  | nil => exact absurd hs (List.splitOn_ne_nil 37 s)
  | cons first items => rfl

theorem unquote_escape {x y : UInt8} {a b : Nat} (hx : hexValue x = some a)
    (hy : hexValue y = some b) (s : Bytes) :
    unquote (37 :: x :: y :: s) = UInt8.ofNat (16 * a + b) :: unquote s := by
  have hxp := (hexValue_plain hx).2.2
  have hyp := (hexValue_plain hy).2.2
  have hsplit : (37 :: x :: y :: s).splitOn 37 =
      [] :: (s.splitOn 37).modifyHead fun first => x :: y :: first := by
    unfold List.splitOn
    rw [List.splitOnP_cons_eq_if_modifyHead, if_pos (by rfl), List.splitOnP_cons_eq_if_modifyHead, if_neg (by simpa using hxp),
      List.splitOnP_cons_eq_if_modifyHead, if_neg (by simpa using hyp)]
    cases List.splitOnP (· == 37) s <;> rfl
  unfold unquote
  rw [hsplit]
  cases hs : s.splitOn 37 with
  | nil => exact absurd hs (List.splitOn_ne_nil 37 s)
  | cons first items =>
    have hitem : unquoteItem (x :: y :: first) = UInt8.ofNat (16 * a + b) :: first := by
      rw [unquoteItem, hexdigit_eq, hexdigit_eq, hx, hy, mul_comm 16 a]
      rfl
    simp [List.modifyHead, hitem]

/-- **`parse_qs` decodes** what any encoder of the form coding has written. -/
theorem unquote_of_encodes {t s : Bytes} (h : Encodes t s) : unquote (plusToSpace t) = s := by
  induction h with
  | nil => rfl
  | @plain c t s hc _ ih =>
    have hplus : plusToSpace (c :: t) = c :: plusToSpace t := by
      simp [plusToSpace, hc.2.1]
    rw [hplus, unquote_plain hc.2.2, ih]
  | @plus t s _ ih =>
    have hplus : plusToSpace (43 :: t) = 32 :: plusToSpace t := rfl
    rw [hplus, unquote_plain (by decide), ih]
  | @escape x y a b t s hx hy _ ih =>
    have hplus : plusToSpace (37 :: x :: y :: t) = 37 :: x :: y :: plusToSpace t := by
      simp [plusToSpace, (hexValue_plain hx).2.1, (hexValue_plain hy).2.1]
    rw [hplus, unquote_escape hx hy, ih]

/-! ### Lines -/

theorem parsePart_of_encodesField {text : Bytes} {kv : Bytes × Bytes} (h : EncodesField text kv) :
    parsePart text = .ok kv := by
  obtain ⟨k, v, rfl, hk, hv⟩ := h
  rw [parsePart, cutAt_append (hk.separator_not_mem (by decide))]
  dsimp only
  rw [unquote_of_encodes hk, unquote_of_encodes hv]

/-- An encoded field has no separator of parts in it. -/
theorem splitOn_of_encodesField {text : Bytes} {kv : Bytes × Bytes} (h : EncodesField text kv) :
    text.splitOn 59 = [text] := by
  obtain ⟨k, v, rfl, hk, hv⟩ := h
  apply List.splitOn_eq_singleton
  have hk := hk.separator_not_mem (c := 59) (by decide)
  have hv := hv.separator_not_mem (c := 59) (by decide)
  simp [hk, hv]

/-- **A line of encoded fields is taken apart into these fields.** -/
theorem parse_qs_of_fields {parts : List Bytes} {fields : List (Bytes × Bytes)} (hne : parts ≠ [])
    (h : List.Forall₂ EncodesField parts fields) :
    parse_qs (([38] : Bytes).intercalate parts) = .ok fields := by
  unfold parse_qs
  rw [List.splitOn_intercalate _ (amp_not_mem_parts h) hne]
  clear hne
  induction h with
  | nil => rfl
  | cons hpart _ ih =>
    rw [List.flatMap_cons, splitOn_of_encodesField hpart, List.singleton_append, List.mapM_cons,
      parsePart_of_encodesField hpart, ih]
    rfl

theorem linesOf_line {line : Bytes} (h : 10 ∉ line) (rest : Bytes) :
    linesOf (line ++ 10 :: rest) = (line ++ [10]) :: linesOf rest := by
  induction line with
  | nil => rfl
  | cons c line ih =>
    rw [List.mem_cons, not_or] at h
    rw [List.cons_append, linesOf, if_neg (Ne.symm h.1), ih h.2]
    rfl

/-- A line is parsed as its fields. -/
theorem parse_details_of_fields {parts : List Bytes} {fields : List (Bytes × Bytes)}
    (hne : parts ≠ []) (h : List.Forall₂ EncodesField parts fields) :
    parse_details (([38] : Bytes).intercalate parts ++ [10]) = pure (some fields) := by
  unfold parse_details
  rw [if_neg (by simp), List.dropLast_concat, parse_qs_of_fields hne h]

/-! ### Names -/

/-- The directory of a place is that of its name. -/
theorem dirname_relpath {p : List Bytes} (hp : Components p) (hne : p ≠ []) :
    dirname (relpath p) = lastDir p := by
  obtain ⟨d, name, rfl⟩ := List.eq_nil_or_concat' p |>.resolve_left hne
  obtain ⟨hd, hname⟩ := components_snoc.mp hp
  have hslash : ∀ c ∈ name.reverse, decide (c ≠ 47) = true := by
    intro c hc
    rw [decide_eq_true_eq]
    rintro rfl
    exact hname.2.1 (List.mem_reverse.mp hc)
  unfold lastDir
  rw [List.dropLast_concat]
  by_cases hdn : d = []
  · rw [hdn, List.nil_append, relpath_singleton, if_pos rfl, dirname]
    have hhead : (name.reverse.dropWhile fun c => decide (c ≠ 47)) = [] :=
      List.dropWhile_eq_nil_iff.mpr hslash
    simp only [hhead]
    rfl
  · rw [relpath_snoc hdn, if_neg hdn, inDir, lit_slash, dirname]
    have hhead : ((relpath d ++ [47] ++ name).reverse.dropWhile fun c => decide (c ≠ 47)) =
        47 :: (relpath d).reverse := by
      rw [List.reverse_append, List.dropWhile_append_of_pos hslash, List.reverse_append]
      rfl
    -- the directory does not end in a slash
    obtain ⟨d', last, rfl⟩ := List.eq_nil_or_concat' d |>.resolve_left hdn
    obtain ⟨-, hlast⟩ := components_snoc.mp hd
    obtain ⟨c, rest, hrev⟩ : ∃ c rest, (relpath (d' ++ [last])).reverse = c :: rest ∧ c ≠ 47 := by
      obtain ⟨init, c, rfl⟩ := List.eq_nil_or_concat' last |>.resolve_left hlast.2.2.1
      have hc : c ≠ 47 := by
        rintro rfl
        exact hlast.2.1 (by simp)
      by_cases hd' : d' = []
      · exact ⟨c, init.reverse, by rw [hd', List.nil_append, relpath_singleton]; simp, hc⟩
      · exact ⟨c, (inDir (relpath d') init).reverse, by rw [relpath_snoc hd']; simp [inDir], hc⟩
    obtain ⟨hrev, hc⟩ := hrev
    simp only [hhead, hrev]
    rw [if_neg (by simp [hc]), List.reverse_reverse]
    have hdrop : ((47 :: c :: rest).dropWhile fun x => decide (x = 47)) = c :: rest := by
      simp [List.dropWhile, hc]
    rw [hdrop, ← hrev, List.reverse_reverse]

/-! ### Indexes -/

/-- What is handed on for a line, after one for the place `last`. -/
def handed (line : Line) : Pairs :=
  match line.2.lookup (lit "name") with
  | some name =>
    if name.take 2 = lit "./" then setName line.2 (relpath line.1) else line.2
  | none => line.2

theorem lookup_setName_self (details : Pairs) (name : Bytes) :
    (setName details name).lookup (lit "name") = some name := by
  rw [setName, List.lookup_cons_self]

theorem lookup_setName_of_ne (details : Pairs) (name : Bytes) {k : Bytes} (hk : k ≠ lit "name") :
    (setName details name).lookup k = details.lookup k := by
  have hne : (k == lit "name") = false := by simpa using hk
  rw [setName, List.lookup_cons, hne]
  dsimp only
  induction details with
  | nil => rfl
  | cons d details ih =>
    obtain ⟨k', v⟩ := d
    rw [List.filter_cons]
    by_cases hk' : k' = lit "name"
    · rw [if_neg (by simpa using hk'), ih, hk', List.lookup_cons, hne]
    · rw [if_pos (by simpa using hk'), List.lookup_cons, List.lookup_cons, ih]

/-- A name that is not relative is in full. -/
theorem name_cases {last p : List Bytes} {name : Bytes} (h : NameFor last p name)
    (hp : p ≠ [] ∧ Components p) :
    (name.take 2 ≠ lit "./" ∧ name = relpath p) ∨
      (name.take 2 = lit "./" ∧ p.dropLast = last.dropLast ∧ p.dropLast ≠ [] ∧
        relpath p = lastDir last ++ lit "/" ++ name.drop 2) := by
  have htake : ∀ name : Bytes, name.take 2 = lit "./" ↔ (lit "./").isPrefixOf name = true := by
    intro name
    rw [List.isPrefixOf_iff_prefix, List.prefix_iff_eq_take, eq_comm]
    rfl
  have hfull : (relpath p).take 2 ≠ lit "./" := by
    rw [ne_eq, htake, not_prefix_relpath hp.2 hp.1]
    exact Bool.false_ne_true
  rcases h with rfl | ⟨hdir, rfl⟩
  · exact .inl ⟨hfull, rfl⟩
  obtain ⟨d, name, rfl⟩ := List.eq_nil_or_concat' p |>.resolve_left hp.1
  obtain ⟨hd, hname⟩ := components_snoc.mp hp.2
  rw [relname_false hname.2.1]
  rw [List.dropLast_concat] at hdir ⊢
  by_cases hdn : d = []
  · subst hdn
    rw [List.nil_append, relpath_singleton] at hfull ⊢
    exact .inl ⟨hfull, rfl⟩
  · rw [if_neg hdn]
    refine .inr ⟨rfl, hdir, hdn, ?_⟩
    rw [relpath_snoc hdn, lastDir, ← hdir, if_neg hdn]
    rfl

/-- What is handed on has the name in full. -/
theorem lookup_handed {last p : List Bytes} {fields : List (Bytes × Bytes)} {name : Bytes}
    (hnodup : (fields.map Prod.fst).Nodup) (hname : fields.lookup (lit "name") = some name)
    (h : NameFor last p name) (hp : p ≠ [] ∧ Components p) :
    (fun k => (handed (p, fields)).lookup k) = lineMap (p, fields) := by
  funext k
  unfold handed lineMap
  rw [hname]
  dsimp only
  rcases name_cases h hp with ⟨htake, rfl⟩ | ⟨htake, -⟩
  · rw [if_neg htake]
    by_cases hk : k = lit "name"
    · rw [hk, hname, Details.insert_self]
    · rw [Details.insert_of_ne _ _ hk, Details.ofList_apply _ _ hnodup]
  · rw [if_pos htake]
    by_cases hk : k = lit "name"
    · rw [hk, lookup_setName_self, Details.insert_self]
    · rw [lookup_setName_of_ne _ _ hk, Details.insert_of_ne _ _ hk,
        Details.ofList_apply _ _ hnodup]

/-- The handler is given a line, and the directory is remembered for the next one. -/
theorem handle_eq {handler : Pairs → Py Unit} {last p : List Bytes}
    {fields : List (Bytes × Bytes)} {name : Bytes} {directory : Option Bytes}
    (hname : fields.lookup (lit "name") = some name) (h : NameFor last p name)
    (hp : p ≠ [] ∧ Components p) (hdir : last ≠ [] → directory = some (lastDir last)) :
    handle handler directory fields =
      handler (handed (p, fields)) >>= fun _ => pure (some (lastDir p)) := by
  unfold handle handed
  rw [hname]
  dsimp only
  rcases name_cases h hp with ⟨htake, rfl⟩ | ⟨htake, hlast, hne, hfull⟩
  · rw [if_neg htake, if_neg htake, dirname_relpath hp.2 hp.1]
  · have hlastne : last ≠ [] := by
      rintro rfl
      exact hne hlast
    have hdirs : lastDir last = lastDir p := by
      unfold lastDir
      rw [hlast]
    rw [if_pos htake, if_pos htake, hdir hlastne, inDirectory, Option.getD_some, ← hfull, hdirs]

/-- The lines of an index are handed on one by one. -/
theorem parseLines_eq {last : List Bytes} {text : Bytes} {l : List Line}
    (h : IsIndexOf last text l) {directory : Option Bytes}
    (hdir : last ≠ [] → directory = some (lastDir last)) :
    ∃ q : Parsing, q.seen_end = true ∧ ∀ handler : Pairs → Py Unit,
      parseLines handler (linesOf text) { directory } =
        (l.map handed).forM handler >>= fun _ => pure q := by
  induction h generalizing directory with
  | stop => exact ⟨{ seen_end := true, directory }, rfl, fun _ => rfl⟩
  | @line last p parts fields name text l encoded nodup named place names rest ih =>
    have hne : parts ≠ [] := by
      rintro rfl
      rw [List.forall₂_nil_left_iff.mp encoded] at named
      cases named
    have hnewline := newline_not_mem_parts encoded
    have hdirectory : p ≠ [] → some (lastDir p) = some (lastDir p) := fun _ => rfl
    obtain ⟨q, hq, heq⟩ := ih hdirectory
    refine ⟨q, hq, fun handler => ?_⟩
    have hend : ([38] : Bytes).intercalate parts ++ [10] ≠ lit "[end]\n" := by
      intro he
      have hparse := ne_end_of_parse (parseIndexLine_of_fields hne encoded)
      exact hparse (List.append_inj_left' he rfl)
    rw [linesOf_line hnewline, parseLines, if_neg hend, if_neg (by simp),
      parse_details_of_fields hne encoded, pure_bind]
    dsimp only
    rw [handle_eq named names place hdir, bind_assoc, List.map_cons]
    change _ = (handler (handed (p, fields)) >>= fun _ => (l.map handed).forM handler) >>= _
    rw [bind_assoc]
    refine bind_congr fun _ => ?_
    rw [pure_bind]
    exact heq handler

/-- **The script reads an index** and hands its lines on, with the names in full. -/
theorem parse_index_eq {text : Bytes} {l : List Line} (h : IsIndexOf [] text l)
    (handler : Pairs → Py Unit) :
    parse_index handler text = ((l.map handed).forM handler >>= fun _ => get >>= fun g =>
      if 0 < g.warnings then fatal "%d problems found" else pure ⟨⟩) := by
  have hdirectory : ([] : List Bytes) ≠ [] → none = some (lastDir []) := fun hne => absurd rfl hne
  obtain ⟨q, hq, heq⟩ := parseLines_eq h hdirectory
  rw [parse_index, heq handler, bind_assoc]
  refine bind_congr fun _ => ?_
  rw [pure_bind, hq]
  rfl

/-- The maps that are handed on. -/
theorem lookup_map_handed {last : List Bytes} {text : Bytes} {l : List Line}
    (h : IsIndexOf last text l) :
    (l.map handed).map (fun details k => details.lookup k) = l.map lineMap := by
  induction h with
  | stop => rfl
  | line encoded nodup named place names rest ih =>
    rw [List.map_cons, List.map_cons, List.map_cons, ih, lookup_handed nodup named names place]

end Hbackup.Script
