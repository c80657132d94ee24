import Hbackup.Equiv.Placed
import Hbackup.Equiv.Source

/-!
# The format of an index

`IsIndexOf` says which texts are an index of some lines, each with the place of its file, whichever
program has written it.  The index of a tree is one (`isIndexOf_indexText`).  `do_restore` reads it
as it would read the same lines with the names in full (`IsIndexOf.restoreEntries_eq`), that is
the maps `lineMap` of the lines.
-/

namespace Hbackup

open ProgramLogic Preorder

variable {cfg : Config} {last p : List Bytes} {text : Bytes}

/-! ### Indexes -/

/-- The fields of a line, and the place of its file. -/
abbrev Line := List Bytes × List (Bytes × Bytes)

/-- The name on a line for the place `p`, when the line before is for the place `last`: in full, or
relative to a directory that both are in. -/
def NameFor (last p : List Bytes) (name : Bytes) : Prop :=
  name = relpath p ∨ p.dropLast = last.dropLast ∧ name = relname false (relpath p)

/-- `text` is an index with these lines, and the line before it is for the place `last`. -/
inductive IsIndexOf : List Bytes → Bytes → List Line → Prop
  | stop {last : List Bytes} : IsIndexOf last (lit "[end]\n") []
  | line {last p : List Bytes} {parts : List Bytes} {fields : List (Bytes × Bytes)}
      {name text : Bytes} {l : List Line} (encoded : List.Forall₂ EncodesField parts fields)
      (nodup : (fields.map Prod.fst).Nodup) (named : fields.lookup (lit "name") = some name)
      (place : p ≠ [] ∧ Components p) (names : NameFor last p name) (rest : IsIndexOf p text l) :
      IsIndexOf last (([38] : Bytes).intercalate parts ++ 10 :: text) ((p, fields) :: l)

/-- The map of a line, with the name in full. -/
def lineMap (line : Line) : Details :=
  (Details.ofList line.2).insert (lit "name") (relpath line.1)

/-- A name resolves to the place. -/
theorem NameFor.resolve {name : Bytes} (h : NameFor last p name) (hp : p ≠ [] ∧ Components p) :
    resolveName (lastDir last) name = some (relpath p, lastDir p) := by
  rcases h with rfl | ⟨hdir, rfl⟩
  · exact resolve_full hp.2 hp.1 _
  · exact resolve_relative hp.2 hp.1 hdir.symm

/-! ### Restoring from an index -/

/-- The names that `do_restore` finds for the lines that it reads, in their maps. -/
def resolveNames : Bytes → List Details → Option (List Details)
  | _, [] => some []
  | dir, d :: ds => do
    let (name, dir) ← resolveName dir (d.get (lit "name"))
    return d.insert (lit "name") name :: (← resolveNames dir ds)

/-- Only `do_restore` itself looks at the name. -/
theorem restoreNew_congr {d d' : Details} (hsame : ∀ k, k ≠ lit "name" → d' k = d k) :
    restoreNew cfg d' = restoreNew cfg d ∧ inodenum d' = inodenum d := by
  have hdetail : ∀ k, k ≠ lit "name" → d'.getdetail k = d.getdetail k := hsame
  have hget : ∀ k, k ≠ lit "name" → d'.get k = d.get k := by
    intro k hk
    rw [Details.get, hsame k hk]
    rfl
  have hnum : inodenum d' = inodenum d := by
    rw [inodenum, hdetail (lit "inode") (by decide)]
    rfl
  have hmake : ∀ full, makeObject cfg d' full = makeObject cfg d full := by
    intro full
    unfold makeObject makeSpecial restoreRegular
    rw [hdetail (lit "type") (by decide), hget (lit "perms") (by decide),
      hget (lit "target") (by decide), hget (lit "rdev") (by decide),
      hdetail (lit "data") (by decide), hdetail HASH_NAME (by decide)]
  have hfix : ∀ mode full, fixAttributes cfg d' mode full = fixAttributes cfg d mode full := by
    intro mode full
    unfold fixAttributes fixOwner timeOf
    rw [hdetail (lit "type") (by decide), hget (lit "uid") (by decide),
      hget (lit "gid") (by decide), hget (lit "atime") (by decide), hget (lit "mtime") (by decide)]
  refine ⟨?_, hnum⟩
  funext full r
  unfold restoreNew
  rw [hmake, hdetail (lit "type") (by decide), hnum]
  simp only [hfix]

theorem restoreEntry_congr {r : Restoring} {d d' : Details}
    (hname : resolveName r.dir (cfg.convert (d'.get (lit "name"))) =
      resolveName r.dir (cfg.convert (d.get (lit "name"))))
    (hsame : ∀ k, k ≠ lit "name" → d' k = d k) : restoreEntry cfg r d' = restoreEntry cfg r d := by
  obtain ⟨hnew, hnum⟩ : restoreNew cfg d' = restoreNew cfg d ∧ inodenum d' = inodenum d :=
    restoreNew_congr hsame
  unfold restoreEntry
  rw [hname, hnew, hnum]

/-- The directory is remembered for the benefit of the next line. -/
theorem wp_restoreEntry_dir {r : Restoring} {d : Details} {name dir : Bytes} (w : World)
    (h : resolveName r.dir (cfg.convert (d.get (lit "name"))) = some (name, dir)) :
    wp (restoreEntry cfg r d) (fun r' _ => r'.dir = dir) (fun _ _ => True) w := by
  have hany : ∀ {α : Type} (m : M α) (w : World), wp m (fun _ _ => True) (fun _ _ => True) w :=
    fun m w => (wp_stateAfter m (fun _ => True) w).mpr trivial
  unfold restoreEntry
  rw [h]
  dsimp only
  rw [wp_bind]
  refine wp_mono (hany _ _) (fun _ w _ => ?_) fun _ _ h => h
  split
  · rw [wp_bind]
    refine wp_mono (hany _ _) (fun _ w _ => ?_) fun _ _ h => h
    rw [wp_bind]
    exact wp_mono (hany _ _) (fun _ _ _ => rfl) fun _ _ h => h
  · unfold restoreNew
    rw [wp_bind]
    refine wp_mono (hany _ _) (fun made w _ => ?_) fun _ _ h => h
    cases made with
    | none => rfl
    | some mode =>
      dsimp only
      rw [wp_bind]
      refine wp_mono (hany _ _) (fun _ w _ => ?_) fun _ _ h => h
      rw [wp_bind]
      exact wp_mono (hany _ _) (fun _ _ _ => rfl) fun _ _ h => h

/-! ### Reading an index -/

theorem newline_not_mem_parts {parts : List Bytes} {fields : List (Bytes × Bytes)}
    (h : List.Forall₂ EncodesField parts fields) : 10 ∉ ([38] : Bytes).intercalate parts := by
  refine not_mem_intercalate (by decide) ?_
  induction h with
  | nil => simp
  | cons hpart _ ih => simpa [hpart.newline_not_mem] using ih

/-- A line is read as its map. -/
theorem readIndexLine_line {parts : List Bytes} {fields : List (Bytes × Bytes)} {name : Bytes}
    (hparts : List.Forall₂ EncodesField parts fields)
    (hname : fields.lookup (lit "name") = some name) (text : Bytes) :
    readIndexLine ⟨([38] : Bytes).intercalate parts ++ 10 :: text, none⟩ =
      .ok (some (Details.ofList fields), ⟨text, none⟩) := by
  have hne : parts ≠ [] := by
    rintro rfl
    rw [List.forall₂_nil_left_iff.mp hparts] at hname
    cases hname
  have hparse := parseIndexLine_of_fields hne hparts
  have hnewline := newline_not_mem_parts hparts
  rw [readIndexLine, getline_line none hnewline]
  simp [bind, Except.bind, pure, Except.pure, ne_end_of_parse hparse, hparse]

/-- The name on a line is in its map. -/
theorem get_name {fields : List (Bytes × Bytes)} {name : Bytes}
    (hnodup : (fields.map Prod.fst).Nodup) (hname : fields.lookup (lit "name") = some name) :
    (Details.ofList fields).get (lit "name") = name := by
  rw [Details.get, Details.ofList_apply _ _ hnodup, hname]
  rfl

/-- **An index is read line by line**, and the names resolve to the places. -/
theorem IsIndexOf.reads {l : List Line} (h : IsIndexOf last text l) :
    entriesOf ⟨text, none⟩ = (l.map fun line => Details.ofList line.2, none) ∧
      resolveNames (lastDir last) (l.map fun line => Details.ofList line.2) =
        some (l.map lineMap) := by
  induction h with
  | stop => exact ⟨entriesOf_end [] none, rfl⟩
  | @line last p parts fields name text l encoded nodup named place names rest ih =>
    obtain ⟨hread, hnames⟩ := ih
    constructor
    · rw [entriesOf_eq, readIndexLine_line encoded named]
      dsimp only
      rw [hread]
      rfl
    · rw [List.map_cons, resolveNames, get_name nodup named, names.resolve place]
      dsimp only [Option.bind_eq_bind, Option.bind_some]
      rw [hnames]
      rfl

/-- **`do_restore` reads an index** as if the names on its lines were in full. -/
theorem IsIndexOf.restoreEntries_eq (hconvert : ∀ s, cfg.convert s = s) {l : List Line}
    (h : IsIndexOf last text l) : ∀ {turns : Nat} {r : Restoring} (w : World),
    text.length < turns → r.dir = lastDir last →
    restoreEntries cfg turns ⟨text, none⟩ r w = (l.map lineMap).foldlM (restoreEntry cfg) r w := by
  induction h with
  | stop =>
    intro turns r w hturns _
    obtain ⟨turns, rfl⟩ : ∃ k, turns = k + 1 := ⟨turns - 1, by omega⟩
    have hend : readIndexLine ⟨lit "[end]\n", none⟩ = .ok (none, ⟨[], none⟩) := by
      change readIndexLine ⟨lit "[end]" ++ 10 :: [], none⟩ = _
      rw [readIndexLine, getline_line none (by decide)]
      simp [bind, Except.bind, pure, Except.pure]
    rw [restoreEntries, hend]
    rfl
  | @line last p parts fields name text l encoded nodup named place names rest ih =>
    intro turns r w hturns hdir
    obtain ⟨turns, rfl⟩ : ∃ k, turns = k + 1 := ⟨turns - 1, by omega⟩
    have hname : resolveName r.dir (cfg.convert ((Details.ofList fields).get (lit "name"))) =
        some (relpath p, lastDir p) := by
      rw [hconvert, get_name nodup named, hdir, names.resolve place]
    have hfull : resolveName r.dir (cfg.convert ((lineMap (p, fields)).get (lit "name"))) =
        some (relpath p, lastDir p) := by
      rw [hconvert, lineMap, Details.get, Details.insert_self]
      exact resolve_full place.2 place.1 _
    -- in full or relative, the name comes to the same, and so does the entry
    have hentry : restoreEntry cfg r (Details.ofList fields) =
        restoreEntry cfg r (lineMap (p, fields)) :=
      restoreEntry_congr (hname.trans hfull.symm) fun k hk => (Details.insert_of_ne _ _ hk).symm
    rw [restoreEntries, readIndexLine_line encoded named, List.map_cons, List.foldlM_cons]
    dsimp only
    rw [hentry]
    apply bind_congr_of_wp
    refine wp_mono (wp_restoreEntry_dir w hfull) ?_ fun _ _ h => h
    intro r' w' hdir'
    refine ih w' ?_ hdir'
    simp only [List.length_append, List.length_cons] at hturns
    omega

/-! ### The index of a tree -/

/-- **The index that `do_backup` writes** is an index of the files of the tree. -/
theorem isIndexOf_indexText {l : List Placed} (h : Arranged l) :
    IsIndexOf [] (indexText (l.map Prod.snd)) (l.map fun pe => (pe.1, pe.2.fields)) := by
  suffices hsuffix : ∀ pre post, l = pre ++ post →
      IsIndexOf ((pre.getLast?.map Prod.fst).getD []) (indexText (post.map Prod.snd))
        (post.map fun pe => (pe.1, pe.2.fields)) from hsuffix [] l rfl
  intro pre post
  induction post generalizing pre with
  | nil => exact fun _ => .stop
  | cons pe post ih =>
    intro hl
    have hrest := ih (pre ++ [pe]) (by rw [hl, List.append_assoc]; rfl)
    rw [List.getLast?_concat] at hrest
    have htext : indexText ((pe :: post).map Prod.snd) =
        pe.2.line ++ 10 :: indexText (post.map Prod.snd) := by
      simp [indexText]
    rw [htext]
    refine .line (parts_encode pe.2.plainKeys) pe.2.keys_nodup rfl (h.components pe ?_) ?_ hrest
    · rw [hl]
      simp
    rcases h.relname pre pe post hl with hfull | ⟨pre', qe, rfl, hdir, hrel⟩
    · exact .inl hfull
    · right
      rw [List.getLast?_concat]
      exact ⟨hdir.symm, hrel⟩

end Hbackup
