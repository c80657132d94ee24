import Hbackup.World
import Hbackup.Lib.Separated
import Hbackup.Utils.Equiv.Hex

/-!
# Paths

The names in a directory of the backup filesystem, and the place of an object in the repository.
-/

namespace Hbackup

/-- The path of `name` in `dir`. -/
abbrev inDir (dir name : Bytes) : Bytes := dir ++ lit "/" ++ name

/-- `q` is below `dir`. -/
def Under (dir q : Bytes) : Prop := dir ++ lit "/" <+: q

theorem under_inDir (dir name : Bytes) : Under dir (inDir dir name) :=
  List.prefix_append _ _

theorem Under.trans {dir name q : Bytes} (h : Under (inDir dir name) q) : Under dir q :=
  List.IsPrefix.trans (under_inDir dir (name ++ lit "/")) (by simpa [Under, inDir] using h)

/-- A path below `dir` is in `dir`, or below one of the names there. -/
theorem Under.cases {dir q : Bytes} (h : Under dir q) :
    ∃ name rest, 47 ∉ name ∧ q = inDir dir name ++ rest ∧ (rest = [] ∨ ∃ b, rest = 47 :: b) := by
  obtain ⟨r, rfl⟩ := h
  by_cases hr : (47 : UInt8) ∈ r
  · obtain ⟨name, b, rfl, hname⟩ := List.eq_append_cons_of_mem hr
    exact ⟨name, 47 :: b, hname, by simp, .inr ⟨b, rfl⟩⟩
  · exact ⟨r, [], hr, by simp, .inl rfl⟩

theorem append_slash_inj {a a' : Bytes} (b b' : Bytes) (ha : 47 ∉ a) (ha' : 47 ∉ a')
    (h : a ++ 47 :: b = a' ++ 47 :: b') : a = a' ∧ b = b' := by
  have h1 := Separated.cutAt_append ha b
  rw [h, Separated.cutAt_append ha' b'] at h1
  simpa [eq_comm] using h1

/-- Names in one directory are apart, and so is what is below them. -/
theorem inDir_apart {dir name name' q : Bytes} (h : 47 ∉ name) (h' : 47 ∉ name')
    (hne : name ≠ name') (hq : q = inDir dir name ∨ Under (inDir dir name) q) :
    ¬ (q = inDir dir name' ∨ Under (inDir dir name') q) := by
  -- behind `dir/`, both forms of `q` are the name and then nothing or a slash
  have form : ∀ {n : Bytes}, (q = inDir dir n ∨ Under (inDir dir n) q) →
      ∃ r, q = dir ++ lit "/" ++ r ∧ ∃ b, r ++ [47] = n ++ 47 :: b := by
    rintro n (rfl | ⟨b, rfl⟩)
    · exact ⟨n, rfl, [], rfl⟩
    · refine ⟨n ++ 47 :: b, by simp [inDir, lit], b ++ [47], by simp⟩
  intro hq'
  obtain ⟨r, rfl, b, hb⟩ := form hq
  obtain ⟨r', hr, b', hb'⟩ := form hq'
  obtain rfl : r = r' := List.append_cancel_left hr
  exact hne (append_slash_inj _ _ h h' (hb.symm.trans hb')).1

theorem childName_eq_some {dir q name : Bytes} :
    Store.childName dir q = some name ↔ q = inDir dir name ∧ name ≠ [] ∧ 47 ∉ name := by
  have hdrop : ∀ r : Bytes, List.drop (dir.length + 1) (dir ++ lit "/" ++ r) = r := by
    intro r
    rw [List.append_assoc, ← List.drop_drop, List.drop_left]; rfl
  unfold Store.childName
  constructor
  · intro h
    split_ifs at h with hpre
    obtain ⟨r, rfl⟩ := List.isPrefixOf_iff_prefix.mp hpre
    rw [hdrop] at h
    simp only [Option.ite_none_left_eq_some, not_or, Option.some.injEq] at h
    obtain ⟨⟨hne, hslash⟩, rfl⟩ := h
    exact ⟨rfl, hne, hslash⟩
  · rintro ⟨rfl, hne, hslash⟩
    rw [if_pos (List.isPrefixOf_iff_prefix.mpr (List.prefix_append _ _)), hdrop,
      if_neg (by simp [hne, hslash])]

theorem mem_children {s : Store} {dir name : Bytes} :
    name ∈ s.children dir ↔ (s.lookup (inDir dir name)).isSome ∧ name ≠ [] ∧ 47 ∉ name := by
  unfold Store.children
  simp only [List.mem_filterMap, AList.lookup_isSome, AList.mem_keys, childName_eq_some]
  constructor
  · rintro ⟨q, hq, rfl, h⟩
    exact ⟨hq, h⟩
  · rintro ⟨hq, h⟩
    exact ⟨_, hq, rfl, h⟩

theorem children_nodup (s : Store) (dir : Bytes) : (s.children dir).Nodup := by
  refine List.Nodup.filterMap ?_ s.keys_nodup
  intro q q' n hn hn'
  rw [(childName_eq_some.mp hn).1, (childName_eq_some.mp hn').1]

theorem slash_not_mem_hexencode (bytes : Bytes) : (47 : UInt8) ∉ hexencode bytes := by
  have hdigit : ∀ c : UInt8, (47 : UInt8) ∉ hexByte c :=
    FormCoding.forall_byte (p := fun c => (47 : UInt8) ∉ hexByte c) (by decide)
  intro hm
  obtain ⟨c, _, hc⟩ := List.mem_flatMap.mp hm
  exact hdigit c hc

/-- A path is in one directory, under one name. -/
theorem inDir_injective {dir dir' name name' : Bytes} (h : 47 ∉ name) (h' : 47 ∉ name')
    (e : inDir dir name = inDir dir' name') : dir = dir' ∧ name = name' := by
  -- read from the end, both sides are the name up to the last slash
  have e' := congrArg List.reverse e
  obtain ⟨hname, hdir⟩ : name.reverse = name'.reverse ∧ dir.reverse = dir'.reverse :=
    append_slash_inj _ _ (by simpa using h) (by simpa using h') (by simpa [inDir] using e')
  exact ⟨List.reverse_injective hdir, List.reverse_injective hname⟩

theorem objectPath_inDir (repo : Bytes) (h : Hash) :
    ∃ dir, objectPath repo h = inDir dir (hexencode h.bytes) := by
  obtain ⟨x, y, hp⟩ := hashpath_eq h
  refine ⟨inDir (inDir (inDir repo HASH_NAME) (hexByte x)) (hexByte y), ?_⟩
  rw [objectPath, hp]
  simp [inDir]

/-- The name of an object in its directory is its hash. -/
theorem name_of_objectPath {repo dir name : Bytes} {h : Hash} (hname : 47 ∉ name)
    (e : inDir dir name = objectPath repo h) : name = hexencode h.bytes := by
  obtain ⟨dir', hpath⟩ := objectPath_inDir repo h
  exact (inDir_injective hname (slash_not_mem_hexencode h.bytes) (e.trans hpath)).2

/-! ### Objects and their temporary names -/

/-- `repo + "/" + HASH_NAME`. -/
abbrev objectsDir (repo : Bytes) : Bytes := repo ++ lit "/" ++ HASH_NAME

theorem under_objectPath (repo : Bytes) (h : Hash) :
    objectPath repo h = inDir (objectsDir repo) (hashpath h) := rfl

theorem objectPath_length (repo : Bytes) (h : Hash) :
    (objectPath repo h).length = repo.length + 52 := by
  have hsha1 : HASH_NAME.length = 4 := rfl
  simp only [objectPath, List.length_append, hashpath_length, lit_slash, List.length_singleton, hsha1]

theorem objectPath_injective {repo : Bytes} {h h' : Hash}
    (e : objectPath repo h = objectPath repo h') : h = h' :=
  hashpath_injective (List.append_cancel_left e)

/-- A path that no object has, because it is not as long. -/
theorem ne_objectPath_of_length {repo path : Bytes} (hlen : path.length ≠ repo.length + 52)
    (h : Hash) : path ≠ objectPath repo h := by
  rintro rfl
  exact hlen (objectPath_length repo h)

/-- The name under which an object is written is none of an object. -/
theorem tmp_ne_objectPath (repo : Bytes) (h h' : Hash) :
    objectPath repo h ++ lit ".tmp" ≠ objectPath repo h' := by
  refine ne_objectPath_of_length ?_ h'
  rw [List.length_append, objectPath_length]
  have : (lit ".tmp").length = 4 := rfl
  omega

/-- What is below a directory stays below it with more behind it. -/
theorem Under.append {dir path : Bytes} (h : Under dir path) (s : Bytes) : Under dir (path ++ s) :=
  List.IsPrefix.trans h (List.prefix_append path s)

theorem under_objectsDir (repo : Bytes) (h : Hash) : Under (objectsDir repo) (objectPath repo h) := by
  rw [under_objectPath]
  exact under_inDir _ _

/-- `.tmp` behind a path does not take it into a directory. -/
theorem not_under_tmp {dir path : Bytes} (h : ¬ Under dir path) : ¬ Under dir (path ++ lit ".tmp") := by
  intro hu
  rcases Separated.prefix_append_cases hu with hp | ⟨q, hq, hqt⟩
  · exact h hp
  -- the slash behind `dir` would be one of `.tmp`
  rcases List.eq_nil_or_concat q with rfl | ⟨q', c, rfl⟩
  · rw [List.append_nil] at hq
    exact h (hq ▸ List.prefix_rfl)
  · rw [List.concat_eq_append, ← List.append_assoc] at hq
    have hc : (47 : UInt8) = c := by
      have := congrArg List.getLast? hq
      simpa using this
    have hmem : c ∈ lit ".tmp" := hqt.mem (by simp)
    rw [← hc] at hmem
    exact absurd hmem (by decide)

/-- `string(path, 0, path.rfind('/'))` is shorter than the path. -/
theorem dirname_length {path : Bytes} (hslash : 47 ∈ path) :
    ((dirname path).getD path).length < path.length := by
  have hrev : (path.reverse.idxOf? 47).isSome := by simpa using hslash
  obtain ⟨i, hi⟩ := Option.isSome_iff_exists.mp hrev
  have hpos : 0 < path.length := List.length_pos_of_mem hslash
  rw [dirname, hi, Option.map_some, Option.getD_some, List.length_take]
  omega

theorem dirname_tmp (path : Bytes) : dirname (path ++ lit ".tmp") = dirname path := by
  have hrev : (path ++ lit ".tmp").reverse = 112 :: 109 :: 116 :: 46 :: path.reverse := by
    rw [List.reverse_append]
    rfl
  have hne : ((112 : UInt8) == 47) = false ∧ ((109 : UInt8) == 47) = false ∧
      ((116 : UInt8) == 47) = false ∧ ((46 : UInt8) == 47) = false := by decide
  unfold dirname
  rw [hrev]
  simp only [List.idxOf?_cons, hne, Bool.false_eq_true, if_false]
  cases path.reverse.idxOf? 47 with
  | none => rfl
  | some i =>
    have hlen : (path ++ lit ".tmp").length - (i + 1 + 1 + 1 + 1 + 1) = path.length - (i + 1) := by
      rw [List.length_append]
      have : (lit ".tmp").length = 4 := rfl
      omega
    simp only [Option.map_some, hlen]
    rw [List.take_append_of_le_length (by omega)]

/-- A directory has a shorter name than what is in it. -/
theorem length_of_dirname {path d : Bytes} (h : dirname path = some d) : d.length < path.length := by
  have hslash : (47 : UInt8) ∈ path := by
    unfold dirname at h
    cases hi : path.reverse.idxOf? 47 with
    | none =>
      rw [hi] at h
      cases h
    | some i =>
      by_contra hm
      have hrev : path.reverse.idxOf? 47 = none := by simpa using hm
      rw [hi] at hrev
      cases hrev
  have hlen := dirname_length hslash
  rwa [h] at hlen

theorem idxOf?_append_cons {c : UInt8} {s : Bytes} (h : c ∉ s) (r : Bytes) :
    (s ++ c :: r).idxOf? c = some s.length := by
  induction s with
  | nil => simp [List.idxOf?_cons]
  | cons a s ih =>
    have hne : (a == c) = false := by
      rw [beq_eq_false_iff_ne]
      rintro rfl
      exact h List.mem_cons_self
    rw [List.cons_append, List.idxOf?_cons, hne, ih fun hs => h (List.mem_cons_of_mem a hs)]
    rfl

theorem dirname_inDir {dir name : Bytes} (h : 47 ∉ name) : dirname (inDir dir name) = some dir := by
  have hrev : (inDir dir name).reverse = name.reverse ++ 47 :: dir.reverse := by simp [inDir]
  have hlen : (inDir dir name).length - (name.reverse.length + 1) = dir.length := by
    simp only [inDir, List.length_append, lit_slash, List.length_singleton, List.length_reverse]
    omega
  rw [dirname, hrev, idxOf?_append_cons (by simpa using h), Option.map_some, hlen, inDir,
    List.append_assoc, List.take_left]

/-- The directory of an object. -/
theorem dirname_objectPath (repo : Bytes) (h : Hash) :
    ∃ d, dirname (objectPath repo h) = some d ∧ d ≠ [] := by
  obtain ⟨x, y, hp⟩ := hashpath_eq h
  have hdir : objectPath repo h =
      inDir (objectsDir repo ++ lit "/" ++ hexByte x ++ lit "/" ++ hexByte y) (hexencode h.bytes) := by
    rw [objectPath, hp]
    simp
  rw [hdir]
  exact ⟨_, dirname_inDir (slash_not_mem_hexencode _), by simp⟩

theorem hasParent_tmp (s : Store) (path : Bytes) :
    s.hasParent (path ++ lit ".tmp") = s.hasParent path := by
  rw [Store.hasParent, Store.hasParent, dirname_tmp]

theorem tmp_length (path : Bytes) : (path ++ lit ".tmp").length = path.length + 4 := by
  rw [List.length_append]
  rfl

/-- The temporary name is another name. -/
theorem tmp_ne (path : Bytes) : path ++ lit ".tmp" ≠ path := fun h => by
  have := congrArg List.length h
  rw [tmp_length] at this
  omega

/-- An entry that is not a directory's name changes nothing about the directory. -/
theorem hasParent_insert {s : Store} {path q : Bytes} (hq : path.length ≤ q.length) (node : Node)
    (h : s.hasParent path = true) : Store.hasParent (s.insert q node) path = true := by
  unfold Store.hasParent at h ⊢
  cases hd : dirname path with
  | none => rfl
  | some d =>
    rw [hd] at h
    have hne : d ≠ q := by
      rintro rfl
      have := length_of_dirname hd
      omega
    simpa [AList.lookup_insert_ne hne] using h

end Hbackup
