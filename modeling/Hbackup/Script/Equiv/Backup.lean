import Hbackup.Script.Backup
import Hbackup.Script.Equiv.Index
import Hbackup.Script.Equiv.Paths

/-!
# The two programs agree on indexes

`scan_files` writes a line for every file of a tree that it can save (`scanned`), and its lines are
an index.  So are those of `do_backup`, and of either index both programs read the same maps, with
the names of the files that were backed up (`programs_agree`).
-/

namespace Hbackup.Script

open FormCoding ProgramLogic Separated

variable {σ : Type} {c : Setup σ}

/-! ### Encoding -/

theorem quotePlusByte_encodes (c : UInt8) : Encodes (quotePlusByte c) [c] := by
  have hbyte : ∀ c : UInt8, (alwaysSafe c = true → Plain c) ∧
      hexValue ((lit "0123456789ABCDEF").getD (c.toNat / 16) 0) = some (c.toNat / 16) ∧
      hexValue ((lit "0123456789ABCDEF").getD (c.toNat % 16) 0) = some (c.toNat % 16) :=
    forall_byte (by decide)
  obtain ⟨hsafe, hhigh, hlow⟩ := hbyte c
  unfold quotePlusByte
  split_ifs with h32 hplain
  · rw [h32]
    exact .plus .nil
  · exact .plain (hsafe hplain) .nil
  · have h := Encodes.escape hhigh hlow .nil
    rw [Nat.div_add_mod, UInt8.ofNat_toNat] at h
    exact h

/-- **`quote_plus` is an encoder of the form coding.** -/
theorem quote_plus_encodes (s : Bytes) : Encodes (quote_plus s) s :=
  Encodes.flatMap quotePlusByte_encodes s

theorem quotedParts_encode (items : Pairs) :
    List.Forall₂ EncodesField (items.map quotedPart) items := by
  induction items with
  | nil => exact .nil
  | cons kv items ih =>
    exact .cons ⟨_, _, rfl, quote_plus_encodes kv.1, quote_plus_encodes kv.2⟩ ih

/-! ### What is scanned -/

/-- The details that the type of a file adds. -/
def typeFields (c : Setup σ) (fn : Bytes) (ls : Stat) : Option Pairs :=
  if ls.is S_IFLNK then some [(lit "type", lit "link"), (lit "target", c.host.target fn)]
  else if ls.is S_IFDIR then some [(lit "type", lit "dir")]
  else if ls.is S_IFREG then some (fileDetails (hexencode (c.sha1 (c.host.bytes fn)).bytes) ls)
  else if ls.is S_IFCHR then some [(lit "type", lit "chr"), (lit "rdev", decimal ls.st_rdev.toNat)]
  else if ls.is S_IFBLK then some [(lit "type", lit "blk"), (lit "rdev", decimal ls.st_rdev.toNat)]
  else none

/-- The details of a file that can be saved. -/
def fieldsOf (c : Setup σ) (rn : Bytes) (ls : Stat) : Option Pairs :=
  (typeFields c (join c.root [rn]) ls).map fun details =>
    commonDetails rn (idName c.users.getpwuid ls.st_uid) (idName c.users.getgrgid ls.st_gid) ls ++
      details

/-- The line for `f` in the directory `d`, and the lines `sub` for what is in it. -/
def scannedFile (c : Setup σ) (sub : List Bytes → List Line) (d : List Bytes) (f : Bytes) :
    List Line :=
  if c.excluded (relpath (d ++ [f])) then []
  else
    match c.host.lstat (join c.root [relpath (d ++ [f])]) with
    | .error _ => []
    | .ok ls =>
      match fieldsOf c (relpath (d ++ [f])) ls with
      | none => []
      | some fields =>
        (d ++ [f], fields) ::
          if ls.is S_IFDIR && (c.cross_mounts || !ismount c (join c.root [relpath (d ++ [f])])) then
            sub (d ++ [f])
          else []

/-- The names in a directory, in order. -/
def namesIn (c : Setup σ) (d : List Bytes) : List Bytes :=
  ((c.host.names (join c.root [relpath d])).filter fun name =>
    name ≠ lit "." ∧ name ≠ lit "..").insertionSort (· ≤ ·)

/-- **The lines of a tree**: every file that can be saved and is not excluded, and behind a
directory what is in it. -/
def scanned (c : Setup σ) : Nat → List Bytes → List Line
  | 0, _ => []
  | depth + 1, d => (namesIn c d).flatMap (scannedFile c (scanned c depth) d)

/-- The lines as they are written. -/
def textOf (c : Setup σ) (l : List Line) : Bytes :=
  unlines 10 (l.map fun line => urlencode (c.items line.2))

/-! ### The scan -/

/-- The index and the names that are remembered stay as they are. -/
def SameIndex (s s' : Scanning σ) : Prop := s'.ind = s.ind ∧ s'.uids = s.uids ∧ s'.gids = s.gids

instance : Std.Refl (SameIndex (σ := σ)) := ⟨fun _ => ⟨rfl, rfl, rfl⟩⟩

instance : IsTrans (Scanning σ) SameIndex := ⟨fun _ _ _ h h' =>
  ⟨h'.1.trans h.1, h'.2.1.trans h.2.1, h'.2.2.trans h.2.2⟩⟩

/-- The repository is another matter. -/
theorem frames_onFs {α : Type} (x : EStateM ScanError σ α) : Frames SameIndex (onFs x) := by
  intro s
  unfold wp onFs
  cases x s.fs with
  | ok a fs => exact ⟨rfl, rfl, rfl⟩
  | error e fs => exact ⟨rfl, rfl, rfl⟩

theorem frames_copy (src dest : Bytes) : Frames SameIndex (copy c src dest) := by
  unfold copy
  cases c.host.data src with
  | error e => exact Frames.throw _
  | ok p =>
    apply Frames.bind (frames_onFs _)
    intro _
    apply Frames.bind (Frames.forM (fun bytes => frames_onFs _) _)
    intro _
    exact Frames.ite (Frames.throw _) (frames_onFs _)

theorem frames_saveFile (fn : Bytes) (ls : Stat) : Frames SameIndex (saveFile c fn ls) := by
  have hsha1 : Frames SameIndex (sha1 c fn) := by
    unfold sha1
    split
    · exact Frames.pure _
    · exact Frames.throw _
  have hcopy : ∀ src dest, Frames SameIndex (copy_rip c src dest) := by
    intro src dest
    apply Frames.ite
    · exact Frames.bind (frames_copy _ _) fun _ => frames_onFs _
    · exact Frames.tryCatch (frames_copy _ _) fun e =>
        Frames.bind (frames_onFs _) fun _ => Frames.throw _
  unfold saveFile
  apply Frames.bind hsha1
  intro h
  apply Frames.bind (frames_onFs _)
  intro found
  apply Frames.ite (Frames.pure _)
  apply Frames.bind (frames_onFs _)
  intro _
  apply Frames.bind (hcopy _ _)
  intro _
  exact Frames.ite (Frames.throw _) (Frames.pure _)

/-- The hash of a regular file is that of its contents. -/
theorem wp_saveFile (fn : Bytes) (ls : Stat) (s : Scanning σ) :
    wp (saveFile c fn ls)
      (fun details _ => details = fileDetails (hexencode (c.sha1 (c.host.bytes fn)).bytes) ls)
      (fun _ _ => True) s := by
  have hany : ∀ {α : Type} (m : Scan σ α) (s : Scanning σ),
      wp m (fun _ _ => True) (fun _ _ => True) s :=
    fun m s => (wp_stateAfter m (fun _ => True) s).mpr trivial
  unfold saveFile sha1
  rw [wp_bind]
  split
  · rename_i data hdata
    have hbytes : c.host.bytes fn = data := by rw [Host.bytes, hdata]
    rw [wp_pure, hbytes, wp_bind]
    refine wp_mono (hany _ _) (fun found s _ => ?_) fun _ _ h => h
    rw [wp_ite]
    split
    · rfl
    · rw [wp_bind]
      refine wp_mono (hany _ _) (fun _ s _ => ?_) fun _ _ h => h
      rw [wp_bind]
      refine wp_mono (hany _ _) (fun _ s _ => ?_) fun _ _ h => h
      rw [wp_ite]
      split
      · trivial
      · rfl
  · trivial

/-- What the type of a file adds does not depend on the run. -/
theorem wp_typeDetails (fn : Bytes) (ls : Stat) (s : Scanning σ) :
    wp (typeDetails c fn ls) (fun details s' => details = typeFields c fn ls ∧ SameIndex s s')
      (fun _ _ => True) s := by
  have hsame : SameIndex s s := ⟨rfl, rfl, rfl⟩
  unfold typeDetails typeFields
  by_cases hlink : ls.is S_IFLNK
  · rw [if_pos hlink, if_pos hlink]
    cases hread : c.host.readlink fn with
    | error e => trivial
    | ok target =>
      refine ⟨?_, hsame⟩
      rw [Host.target, hread]
  by_cases hdir : ls.is S_IFDIR
  · rw [if_neg hlink, if_neg hlink, if_pos hdir, if_pos hdir]
    exact ⟨rfl, hsame⟩
  by_cases hreg : ls.is S_IFREG
  · rw [if_neg hlink, if_neg hlink, if_neg hdir, if_neg hdir, if_pos hreg, if_pos hreg, wp_bind]
    refine wp_mono (wp_and (frames_saveFile fn ls s) (wp_saveFile fn ls s)) ?_ fun _ _ _ => trivial
    rintro details s' ⟨hs', rfl⟩
    exact ⟨rfl, hs'⟩
  rw [if_neg hlink, if_neg hlink, if_neg hdir, if_neg hdir, if_neg hreg, if_neg hreg]
  by_cases hchr : ls.is S_IFCHR
  · rw [if_pos hchr, if_pos hchr]
    exact ⟨rfl, hsame⟩
  rw [if_neg hchr, if_neg hchr]
  by_cases hblk : ls.is S_IFBLK
  · rw [if_pos hblk, if_pos hblk]
    exact ⟨rfl, hsame⟩
  · rw [if_neg hblk, if_neg hblk]
    exact ⟨rfl, hsame⟩

/-- The names remembered are right. -/
structure Remembers (c : Setup σ) (s : Scanning σ) : Prop where
  uid : ∀ uid name, s.uids.lookup uid = some name → name = idName c.users.getpwuid uid
  gid : ∀ gid name, s.gids.lookup gid = some name → name = idName c.users.getgrgid gid

theorem Remembers.congr {s s' : Scanning σ} (h : Remembers c s) (hs : SameIndex s s') :
    Remembers c s' := by
  obtain ⟨-, huids, hgids⟩ := hs
  exact ⟨by rw [huids]; exact h.uid, by rw [hgids]; exact h.gid⟩

theorem Remembers.wp_uid2name {s : Scanning σ} (h : Remembers c s) (uid : UInt32) :
    wp (uid2name c uid) (fun name s' => name = idName c.users.getpwuid uid ∧ Remembers c s' ∧
      s'.ind = s.ind) (fun _ _ => True) s := by
  unfold uid2name
  rw [wp_bind, wp_get]
  cases hl : s.uids.lookup uid with
  | some name => exact ⟨h.uid uid name hl, h, rfl⟩
  | none => exact ⟨rfl, ⟨KnowsNames.lookup_cons h.uid, h.gid⟩, rfl⟩

theorem Remembers.wp_gid2name {s : Scanning σ} (h : Remembers c s) (gid : UInt32) :
    wp (gid2name c gid) (fun name s' => name = idName c.users.getgrgid gid ∧ Remembers c s' ∧
      s'.ind = s.ind) (fun _ _ => True) s := by
  unfold gid2name
  rw [wp_bind, wp_get]
  cases hl : s.gids.lookup gid with
  | some name => exact ⟨h.gid gid name hl, h, rfl⟩
  | none => exact ⟨rfl, ⟨h.uid, KnowsNames.lookup_cons h.gid⟩, rfl⟩

theorem Remembers.wp_writeIndex {s : Scanning σ} (h : Remembers c s) (line : Bytes) :
    wp (writeIndex c line) (fun _ s' => Remembers c s' ∧ s'.ind = s.ind ++ line)
      (fun _ _ => True) s := by
  unfold writeIndex
  rw [wp_bind]
  refine wp_mono (frames_onFs _ s) ?_ fun _ _ _ => trivial
  intro _ s' hs'
  rw [wp_modify, ← hs'.1]
  exact ⟨⟨(h.congr hs').uid, (h.congr hs').gid⟩, rfl⟩

theorem textOf_append (l l' : List Line) : textOf c (l ++ l') = textOf c l ++ textOf c l' := by
  unfold textOf
  rw [List.map_append, unlines_append]

/-- The name of a file in a directory. -/
theorem relativeName_relpath {d : List Bytes} {f : Bytes} (hp : Components (d ++ [f])) :
    relativeName (relpath d) f = relpath (d ++ [f]) := by
  obtain ⟨hd, hf⟩ := components_snoc.mp hp
  have hproper : Proper d := fun name hm => ⟨(hd name hm).2.1, (hd name hm).2.2.2⟩
  unfold relativeName
  by_cases hdn : d = []
  · rw [hdn, List.nil_append, relpath_singleton]
    rfl
  rw [if_neg (relpath_ne_dot hproper hdn), relpath_snoc hdn]
  have hhead : f.head? ≠ some 47 := fun h => hf.2.1 (List.mem_of_head? h)
  obtain ⟨d', last, rfl⟩ := List.eq_nil_or_concat' d |>.resolve_left hdn
  obtain ⟨-, hlast⟩ := components_snoc.mp hd
  have hend : (relpath (d' ++ [last])).getLast? ≠ some 47 := by
    have hsame : (relpath (d' ++ [last])).getLast? = last.getLast? := by
      by_cases hd' : d' = []
      · rw [hd', List.nil_append, relpath_singleton]
      · rw [relpath_snoc hd', inDir, List.getLast?_append_of_ne_nil _ hlast.2.2.1]
    rw [hsame]
    exact fun h => hlast.2.1 (List.mem_of_getLast? h)
  exact join1_of_name hhead (relpath_ne_nil hd) hend

/-- What a scan of a directory does. -/
def ScansTo (c : Setup σ) (scan : Scan σ Unit) (l : List Line) : Prop :=
  ∀ s, Remembers c s → wp scan (fun _ s' => Remembers c s' ∧ s'.ind = s.ind ++ textOf c l)
    (fun _ _ => True) s

/-- **One file**: its line is written, and then the directory is entered. -/
theorem scanFile_scansTo {scan : Bytes → Scan σ Unit} {sub : List Bytes → List Line}
    {d : List Bytes} {f : Bytes} (hp : Components (d ++ [f]))
    (hscan : ScansTo c (scan (relpath (d ++ [f]))) (sub (d ++ [f]))) :
    ScansTo c (scanFile c scan (relpath d) f) (scannedFile c sub d f) := by
  intro s hs
  have hnone : ∀ s', Remembers c s' → s'.ind = s.ind →
      Remembers c s' ∧ s'.ind = s.ind ++ textOf c [] := by
    intro s' hs' hind
    exact ⟨hs', by rw [hind, textOf]; simp⟩
  unfold scanFile scannedFile
  rw [relativeName_relpath hp, wp_ite]
  -- an excluded file has no line
  by_cases hex : c.excluded (relpath (d ++ [f]))
  · rw [if_pos hex, if_pos hex]
    exact hnone s hs rfl
  rw [if_neg hex, if_neg hex]
  dsimp only
  cases hstat : c.host.lstat (join c.root [relpath (d ++ [f])]) with
  | error e => trivial
  | ok ls =>
    dsimp only
    rw [wp_bind]
    refine wp_mono (hs.wp_uid2name _) ?_ fun _ _ h => h
    rintro uid s₁ ⟨rfl, hs₁, hind₁⟩
    rw [wp_bind]
    refine wp_mono (hs₁.wp_gid2name _) ?_ fun _ _ h => h
    rintro gid s₂ ⟨rfl, hs₂, hind₂⟩
    rw [wp_bind]
    refine wp_mono (wp_typeDetails _ _ _) ?_ fun _ _ h => h
    rintro details s₃ ⟨rfl, hsame⟩
    have hind₃ : s₃.ind = s.ind := hsame.1.trans (hind₂.trans hind₁)
    have hs₃ := hs₂.congr hsame
    unfold fieldsOf
    -- what is no file, directory, link or device has none either
    cases typeFields c (join c.root [relpath (d ++ [f])]) ls with
    | none => exact hnone s₃ hs₃ hind₃
    | some details =>
      dsimp only [Option.map_some]
      rw [wp_bind]
      refine wp_mono (hs₃.wp_writeIndex _) ?_ fun _ _ h => h
      rintro _ s₄ ⟨hs₄, hind₄⟩
      rw [hind₃] at hind₄
      rw [wp_ite]
      -- a directory is entered, unless it is a mount point that is not to be crossed
      by_cases henter : (ls.is S_IFDIR && (c.cross_mounts ||
          !ismount c (join c.root [relpath (d ++ [f])]))) = true
      · rw [if_pos henter, if_pos henter]
        refine wp_mono (hscan s₄ hs₄) ?_ fun _ _ h => h
        rintro _ s₅ ⟨hs₅, hind₅⟩
        refine ⟨hs₅, ?_⟩
        rw [hind₅, hind₄, textOf, textOf, List.map_cons, unlines_cons]
        simp [lit]
      · rw [if_neg henter, if_neg henter]
        refine ⟨hs₄, ?_⟩
        rw [hind₄, textOf]
        simp [lit]

/-- The names that a directory lists can be components of a path. -/
theorem components_namesIn (hnames : RealNames c.host) {d : List Bytes} (hd : Components d)
    {f : Bytes} (hf : f ∈ namesIn c d) : Components (d ++ [f]) := by
  unfold namesIn at hf
  rw [List.mem_insertionSort, List.mem_filter] at hf
  obtain ⟨hlisted, hdots⟩ := hf
  obtain ⟨hne, h0⟩ := hnames.real _ f hlisted
  have hdots : f ≠ lit "." ∧ f ≠ lit ".." := by simpa using hdots
  exact components_snoc.mpr ⟨hd, h0, (hnames.proper _).2 f hlisted, hne, hdots.1⟩

/-- **`scan_files` writes the lines of the tree.** -/
theorem scan_files_scansTo (hnames : RealNames c.host) : ∀ (depth : Nat) {d : List Bytes},
    Components d → ScansTo c (scan_files c depth (relpath d)) (scanned c depth d)
  | 0, _, _ => fun _ _ => trivial
  | depth + 1, d, hd => by
    intro s hs
    unfold scan_files listdir
    rw [wp_bind]
    cases hlist : c.host.contents (join c.root [relpath d]) with
    | error e => trivial
    | ok names =>
      have hsorted : (names.filter fun name => name ≠ lit "." ∧ name ≠ lit "..").insertionSort
          (· ≤ ·) = namesIn c d := by
        rw [namesIn, Host.names, hlist]
      dsimp only
      rw [wp_pure, hsorted]
      have hloop := wp_forM (E := fun _ _ => True) (l := namesIn c d) (s := s)
        (f := scanFile c (scan_files c depth) (relpath d))
        (fun pre s' => Remembers c s' ∧
          s'.ind = s.ind ++ textOf c (pre.flatMap (scannedFile c (scanned c depth) d)))
        ?_ ⟨hs, by simp [textOf]⟩
      · exact hloop
      rintro pre f post s₁ hsplit ⟨hs₁, hind₁⟩
      have hp := components_namesIn hnames hd (by rw [hsplit]; simp : f ∈ namesIn c d)
      refine wp_mono (scanFile_scansTo hp (scan_files_scansTo hnames depth hp) s₁ hs₁) ?_
        fun _ _ h => h
      rintro _ s₂ ⟨hs₂, hind₂⟩
      refine ⟨hs₂, ?_⟩
      rw [hind₂, hind₁, List.flatMap_append, textOf_append, List.append_assoc]
      simp

/-! ### The lines are an index -/

/-- A line with the name in full. -/
structure FullLine (line : Line) : Prop where
  place : line.1 ≠ [] ∧ Components line.1
  nodup : (line.2.map Prod.fst).Nodup
  named : line.2.lookup (lit "name") = some (relpath line.1)

/-- Every key occurs once. -/
theorem fieldsOf_nodup {rn : Bytes} {ls : Stat} {fields : Pairs}
    (h : fieldsOf c rn ls = some fields) : (fields.map Prod.fst).Nodup := by
  obtain ⟨details, hdetails, rfl⟩ := Option.map_eq_some_iff.mp h
  have hfile : ∀ hash, (fileDetails hash ls).map Prod.fst = [HASH_NAME] ∨
      (fileDetails hash ls).map Prod.fst = [HASH_NAME, lit "inode"] := by
    intro hash
    unfold fileDetails
    split_ifs
    · exact .inr rfl
    · exact .inl rfl
  -- the fields behind the common ones, in each of the five cases
  have hkeys : details.map Prod.fst ∈ [[lit "type", lit "target"], [lit "type"], [HASH_NAME],
      [HASH_NAME, lit "inode"], [lit "type", lit "rdev"]] := by
    unfold typeFields at hdetails
    split_ifs at hdetails
    · rw [← Option.some.inj hdetails]
      change [lit "type", lit "target"] ∈ _
      decide
    · rw [← Option.some.inj hdetails]
      decide
    · rw [← Option.some.inj hdetails]
      rcases hfile (hexencode (c.sha1 (c.host.bytes (join c.root [rn]))).bytes) with h | h
      · rw [h]
        decide
      · rw [h]
        decide
    · rw [← Option.some.inj hdetails]
      change [lit "type", lit "rdev"] ∈ _
      decide
    · rw [← Option.some.inj hdetails]
      change [lit "type", lit "rdev"] ∈ _
      decide
  have hnodup : ∀ keys ∈ [[lit "type", lit "target"], [lit "type"], [HASH_NAME],
      [HASH_NAME, lit "inode"], [lit "type", lit "rdev"]],
      ([lit "perms", lit "name", lit "uid", lit "gid", lit "atime", lit "ctime", lit "mtime"] ++
        keys).Nodup := by decide
  rw [List.map_append]
  exact hnodup _ hkeys

/-- **Every line of a tree** has the name of its file in full. -/
theorem fullLine_scanned (hnames : RealNames c.host) : ∀ (depth : Nat) {d : List Bytes},
    Components d → ∀ line ∈ scanned c depth d, FullLine line
  | 0, _, _ => fun _ hm => absurd hm List.not_mem_nil
  | depth + 1, d, hd => by
    intro line hm
    obtain ⟨f, hf, hm⟩ := List.mem_flatMap.mp hm
    have hp := components_namesIn hnames hd hf
    unfold scannedFile at hm
    by_cases hex : c.excluded (relpath (d ++ [f])) = true
    · rw [if_pos hex] at hm
      cases hm
    rw [if_neg hex] at hm
    cases hstat : c.host.lstat (join c.root [relpath (d ++ [f])]) with
    | error e =>
      rw [hstat] at hm
      cases hm
    | ok ls =>
      rw [hstat] at hm
      dsimp only at hm
      cases hfields : fieldsOf c (relpath (d ++ [f])) ls with
      | none =>
        rw [hfields] at hm
        cases hm
      | some fields =>
        rw [hfields] at hm
        rcases List.mem_cons.mp hm with rfl | hm
        · refine ⟨⟨by simp, hp⟩, fieldsOf_nodup hfields, ?_⟩
          obtain ⟨details, -, rfl⟩ := Option.map_eq_some_iff.mp hfields
          rfl
        · split_ifs at hm
          · exact fullLine_scanned hnames depth hp line hm
          · cases hm

/-- The fields of a line in another order. -/
def reordered (c : Setup σ) (line : Line) : Line := (line.1, c.items line.2)

/-- The map of a line does not depend on the order of its fields. -/
theorem lineMap_reordered {line : Line} (h : FullLine line) :
    lineMap (reordered c line) = lineMap line := by
  have hperm := c.items_perm line.2
  have hnodup : ((c.items line.2).map Prod.fst).Nodup :=
    (hperm.map Prod.fst).nodup_iff.mpr h.nodup
  have hmap : Details.ofList (c.items line.2) = Details.ofList line.2 := by
    funext k
    apply Option.ext
    intro v
    rw [ofList_eq_some_iff hnodup, ofList_eq_some_iff h.nodup, hperm.mem_iff]
  unfold lineMap reordered
  rw [hmap]

/-- **Lines with the names in full are an index**, whatever the order of their fields. -/
theorem isIndexOf_textOf {last : List Bytes} {l : List Line} (h : ∀ line ∈ l, FullLine line) :
    IsIndexOf last (textOf c l ++ lit "[end]\n") (l.map (reordered c)) := by
  induction l generalizing last with
  | nil => exact .stop
  | cons line l ih =>
    have hline := h line List.mem_cons_self
    have hperm := c.items_perm line.2
    have hnodup : ((c.items line.2).map Prod.fst).Nodup :=
      (hperm.map Prod.fst).nodup_iff.mpr hline.nodup
    have hnamed : (c.items line.2).lookup (lit "name") = some (relpath line.1) := by
      rw [← Details.ofList_apply _ _ hnodup, ofList_eq_some_iff hnodup, hperm.mem_iff,
        ← ofList_eq_some_iff hline.nodup, Details.ofList_apply _ _ hline.nodup]
      exact hline.named
    have hrest : IsIndexOf line.1 (textOf c l ++ lit "[end]\n") (l.map (reordered c)) :=
      ih fun line' hm => h line' (List.mem_cons_of_mem _ hm)
    have htext : textOf c (line :: l) ++ lit "[end]\n" =
        urlencode (c.items line.2) ++ 10 :: (textOf c l ++ lit "[end]\n") := by
      simp [textOf]
    rw [htext]
    exact .line (quotedParts_encode _) hnodup hnamed hline.place (.inl rfl) hrest

/-! ### Both programs -/

/-- An index that one of the programs has written, and its lines: those of the files backed up, in
the order in which that was done. -/
inductive Written : Bytes → List Line → Prop
  | backup_dir {cfg : Config} {host : Host} {hs : Option (List (Bytes × Hint))} {depth : Nat}
      {store hintStore : Store} {w : World} {text : Bytes} (outside : Outside cfg)
      (unchanging : Unchanging cfg host) (names : RealNames host) (hints : Loads cfg hintStore hs)
      (run : do_backup cfg depth { store, hintStore } = .ok () w)
      (index : w.store.lookup cfg.indexfile = some (.file text)) :
      Written text (((cfg.tree host (hintedHash cfg hs host)).placed depth).map fun pe =>
        (pe.1, pe.2.fields))
  | scan_files {σ : Type} {c : Setup σ} {depth : Nat} {fs : σ} {s : Scanning σ}
      (names : RealNames c.host) (run : writeIndexFile c depth { fs } = .ok () s) :
      Written s.ind (scanned c depth [])

/-- Both programs read the maps `l` from `text`.  `do_restore` and the handlers of the script are
given one after the other, with the names in full. -/
structure BothRead (text : Bytes) (l : List Details) : Prop where
  lines : ∃ ds, entriesOf ⟨text, none⟩ = (ds, none) ∧ resolveNames [] ds = some l
  restore : ∀ (cfg : Config) (w : World), (∀ s, cfg.convert s = s) →
    restoreEntries cfg (InFile.turns ⟨text, none⟩) ⟨text, none⟩ {} w =
      l.foldlM (restoreEntry cfg) {} w
  script : ∃ ds : List Pairs, ds.map (fun details k => details.lookup k) = l ∧
    ∀ handler : Pairs → Py Unit, parse_index handler text =
      (ds.forM handler >>= fun _ => get >>= fun g =>
        if 0 < g.warnings then fatal "%d problems found" else pure ⟨⟩)

/-- An index is read by both programs. -/
theorem bothRead_of_isIndexOf {text : Bytes} {l : List Line} (h : IsIndexOf [] text l) :
    BothRead text (l.map lineMap) where
  lines := ⟨_, h.reads⟩
  restore _ w hconvert := h.restoreEntries_eq hconvert w (Nat.lt_succ_self _) rfl
  script := ⟨_, lookup_map_handed h, parse_index_eq h⟩

theorem remembers_start (fs : σ) : Remembers c { fs } := by
  constructor
  · intro uid name hl
    cases hl
  · intro gid name hl
    cases hl

/-- The script writes the lines of what it scans, and the end marker. -/
theorem wp_writeIndexFile (names : RealNames c.host) (depth : Nat) (fs : σ) :
    wp (writeIndexFile c depth)
      (fun _ s' => s'.ind = textOf c (scanned c depth []) ++ lit "[end]\n")
      (fun _ _ => True) { fs } := by
  have hroot : Components [] := fun _ hm => absurd hm List.not_mem_nil
  unfold writeIndexFile
  rw [wp_bind]
  refine wp_mono (scan_files_scansTo names depth hroot _ (remembers_start fs)) ?_ fun _ _ h => h
  rintro _ s₁ ⟨hs₁, hind₁⟩
  refine wp_mono (hs₁.wp_writeIndex _) ?_ fun _ _ h => h
  rintro _ s₂ ⟨-, hind₂⟩
  rw [hind₂, hind₁]
  rfl

/-- What the script writes is read by both programs. -/
theorem bothRead_scanned (names : RealNames c.host) (depth : Nat) :
    BothRead (textOf c (scanned c depth []) ++ lit "[end]\n")
      ((scanned c depth []).map lineMap) := by
  have hroot : Components [] := fun _ hm => absurd hm List.not_mem_nil
  have hfull := fullLine_scanned names depth hroot
  have hboth := bothRead_of_isIndexOf (isIndexOf_textOf (c := c) hfull)
  -- the script writes the fields in another order, which the maps do not have
  have hmaps : ((scanned c depth []).map (reordered c)).map lineMap =
      (scanned c depth []).map lineMap := by
    rw [List.map_map]
    exact List.map_congr_left fun line hm => lineMap_reordered (hfull line hm)
  rw [← hmaps]
  exact hboth

/-- **The two programs agree on the format of an index.**  Whichever of them has written it, both
read the same maps, and the names are those of the files that were backed up. -/
theorem programs_agree {text : Bytes} {l : List Line} (h : Written text l) :
    BothRead text (l.map lineMap) := by
  cases h with
  | @backup_dir cfg host hs depth store hintStore w text outside unchanging names hints run index =>
    have hindex := (do_backup_index outside unchanging names (fun hs' hl => by
      rw [hints.unique hl rfl]
      exact hashesFrom_hintedHash unchanging hs) run).index
    rw [index] at hindex
    cases hindex
    exact bothRead_of_isIndexOf (isIndexOf_indexText
      (Tree.arranged_placed (t := cfg.tree host (hintedHash cfg hs host)) names depth))
  | @scan_files σ c depth fs s names run =>
    rw [wp_elim_ok (wp_writeIndexFile names depth fs) run]
    exact bothRead_scanned names depth

/-- A finished backup has an index. -/
theorem has_index {cfg : Config} {depth : Nat} {store hintStore : Store} {w : World}
    (ho : Outside cfg) (hrun : do_backup cfg depth { store, hintStore } = .ok () w) :
    ∃ text, w.store.lookup cfg.indexfile = some (.file text) := by
  obtain ⟨es, hindex⟩ := wp_elim_ok (do_backup_writes_index cfg depth store hintStore ho) hrun
  exact ⟨_, hindex⟩

/-- A directory `d` with the links `a;b` and `c d` in it. -/
def linkPair : Host where
  contents path := .ok <|
    if path = lit "/home" ∨ path = lit "/home/." then [lit ".", lit "d"]
    else if path = lit "/home/d" then [lit "c d", lit "a;b"] else []
  lstat path := .ok { (default : Stat) with
    st_mode := if path = lit "/home/d" then S_IFDIR else S_IFLNK }
  data _ := .error ENOENT
  readlink _ := .ok (lit "a=b&%")
  ismount _ := .ok false
  utimes _ := .ok ()

theorem realNames_linkPair : RealNames linkPair := by
  have hnames : ∀ path, linkPair.names path =
      if path = lit "/home" ∨ path = lit "/home/." then [lit ".", lit "d"]
      else if path = lit "/home/d" then [lit "c d", lit "a;b"] else [] := fun _ => rfl
  constructor
  · intro path
    rw [hnames]
    split_ifs <;> decide
  · intro path
    rw [hnames]
    split_ifs <;> decide

/-- Files on a filesystem of their own. -/
def storeFs : Fs Store where
  isfile path := do
    match (← get).lookup path with
    | some (.file _) => return true
    | _ => return false
  makedirs path := modify fun s => (parents path ++ [path]).foldl (fun s d => s.insert d .dir) s
  openWrite path := modify fun s => s.insert path (.file [])
  write path bytes := do
    match (← get).lookup path with
    | some (.file old) => modify fun s => s.insert path (.file (old ++ bytes))
    | _ => throw .ioError
  close _ := return
  rename old new := do
    match (← get).lookup old with
    | some node => modify fun s => (s.erase old).insert new node
    | none => throw .osError
  remove path := do
    if ((← get).lookup path).isSome then modify fun s => s.erase path else throw .osError

/-- A backup of the two links by the script. -/
def linksSetup : Setup Store where
  root := lit "/home"
  repo := lit "repo"
  index := lit "index.tmp"
  cross_mounts := true
  preserve_atime := false
  rename_files := true
  excluded _ := false
  host := linkPair
  users := (largeFile 1000).users
  sha1 := (largeFile 1000).sha1
  fs := storeFs
  items details := details.reverse
  items_perm := List.reverse_perm

/-- A backup of the two links by the other program. -/
def linksBackup : Config :=
  { largeFile 1000 with env := fun n => { (largeFile 1000).env n with host := linkPair } }

/-- Both indexes of the two links are read by both programs. -/
theorem agree_twoLinks :
    (∃ text, BothRead text ((((linksBackup.tree linkPair
      (hintedHash linksBackup none linkPair)).placed 2).map fun pe =>
        (pe.1, pe.2.fields)).map lineMap)) ∧
    ∃ text, BothRead text ((scanned linksSetup 2 []).map lineMap) := by
  constructor
  · have hvalue : value? (do_backup linksBackup 2) { store := ∅, hintStore := ∅ } = some () := by
      decide +kernel
    obtain ⟨w, hrun⟩ : ∃ w, do_backup linksBackup 2 { store := ∅, hintStore := ∅ } = .ok () w :=
      ⟨_, ok_of_value? hvalue⟩
    have hnot : ¬ Under (objectsDir (lit "repo")) (lit "index") := by
      unfold Under
      decide
    have houtside : Outside linksBackup := ⟨hnot⟩
    obtain ⟨text, hindex⟩ := has_index houtside hrun
    have hwritten := Written.backup_dir houtside (fun _ => rfl) realNames_linkPair (.off rfl) hrun
      hindex
    exact ⟨_, programs_agree hwritten⟩
  · have hvalue : value? (writeIndexFile linksSetup 2)
        { fs := (∅ : Store).insert (lit "index.tmp") (.file []) } = some () := by decide +kernel
    obtain ⟨s, hrun⟩ : ∃ s, writeIndexFile linksSetup 2
        { fs := (∅ : Store).insert (lit "index.tmp") (.file []) } = .ok () s :=
      ⟨_, ok_of_value? hvalue⟩
    have hnames : RealNames linksSetup.host := realNames_linkPair
    exact ⟨_, programs_agree (.scan_files hnames hrun)⟩

end Hbackup.Script
