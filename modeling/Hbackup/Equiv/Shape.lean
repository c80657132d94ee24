import Hbackup.Equiv.Objects
import Hbackup.Lib.Preorder

/-!
# The shape of an index

The directories of a tree are listed in preorder, and each gives one block of the index, with its
names in order.  The blocks together have an entry for every file that is to be backed up, and for
no other (`index_shape`).
-/

namespace Hbackup

open ProgramLogic Preorder

/-! ### Paths -/

/-- The path relative to the root, from the names on the way. -/
def relpath (p : List Bytes) : Bytes := if p = [] then lit "." else [47].intercalate p

/-- The names are those of files: without a `/`, and not `.`. -/
def Proper (p : List Bytes) : Prop := ∀ name ∈ p, 47 ∉ name ∧ name ≠ lit "."

theorem proper_snoc {p : List Bytes} {name : Bytes} :
    Proper (p ++ [name]) ↔ Proper p ∧ 47 ∉ name ∧ name ≠ lit "." := by
  unfold Proper
  rw [List.forall_mem_append, List.forall_mem_singleton]

theorem intercalate_snoc {p : List Bytes} (hp : p ≠ []) (name : Bytes) :
    [47].intercalate (p ++ [name]) = [47].intercalate p ++ 47 :: name := by
  induction p with
  | nil => exact absurd rfl hp
  | cons a p ih =>
    cases p with
    | nil => simp [List.intercalate]
    | cons b p =>
      rw [List.cons_append, List.cons_append, List.intercalate_cons_cons,
        List.intercalate_cons_cons, ← List.cons_append, ih (by simp)]
      simp

theorem relpath_injective {p q : List Bytes} (hp : ∀ name ∈ p, 47 ∉ name)
    (hq : ∀ name ∈ q, 47 ∉ name) (hpn : p ≠ []) (hqn : q ≠ []) (h : relpath p = relpath q) :
    p = q := by
  rw [relpath, relpath, if_neg hpn, if_neg hqn] at h
  rw [← List.splitOn_intercalate 47 hp hpn, h, List.splitOn_intercalate 47 hq hqn]

theorem relpath_ne_dot {p : List Bytes} (hp : Proper p) (hpn : p ≠ []) : relpath p ≠ lit "." := by
  intro h
  have hdot : relpath [lit "."] = lit "." := rfl
  rw [← hdot] at h
  have := relpath_injective (fun name hm => (hp name hm).1) (by decide) hpn (by simp) h
  subst this
  exact (hp (lit ".") (List.mem_singleton_self _)).2 rfl

/-- The path of `name` in a directory. -/
theorem localname_relpath {p : List Bytes} (hp : Proper p) (name : Bytes) :
    localname (relpath p) name = relpath (p ++ [name]) := by
  by_cases hpn : p = []
  · subst hpn
    simp [localname, relpath, List.intercalate]
  · rw [localname, if_neg (relpath_ne_dot hp hpn), relpath, relpath, if_neg hpn, if_neg (by simp),
      intercalate_snoc hpn, lit_slash, List.append_assoc]
    rfl

/-- After the first one, a name is represented by itself. -/
theorem relname_false {p : List Bytes} {name : Bytes} (hname : 47 ∉ name) :
    relname false (relpath (p ++ [name])) = if p = [] then name else lit "./" ++ name := by
  rw [relname, if_neg (by simp), relpath, if_neg (by simp)]
  by_cases hpn : p = []
  · subst hpn
    have hnone : name.reverse.idxOf? 47 = none := by
      rw [List.idxOf?_eq_none_iff]
      simpa using hname
    simp [List.intercalate, hnone]
  · have hlast : ([47].intercalate p ++ 47 :: name).reverse.idxOf? 47 = some name.length := by
      rw [List.reverse_append, List.reverse_cons, List.append_assoc, List.singleton_append,
        idxOf?_append_cons (by simpa using hname), List.length_reverse]
    have hdrop : ([47].intercalate p ++ 47 :: name).drop
        (([47].intercalate p ++ 47 :: name).length - name.length) = name := by
      rw [List.append_cons, List.length_append, Nat.add_sub_cancel, List.drop_left]
    rw [intercalate_snoc hpn, if_neg hpn, hlast]
    change lit "./" ++ List.drop _ _ = _
    rw [hdrop]

/-! ### The files of a tree -/

/-- A directory lists every name once, and no name has a `/` in it. -/
def ProperNames (host : Host) : Prop :=
  ∀ path, (host.names path).Nodup ∧ ∀ name ∈ host.names path, 47 ∉ name

namespace Tree

variable (t : Tree)

/-- The path of a file. -/
def full (p : List Bytes) : Bytes := fullname t.root (relpath p)

/-- The names in a directory, but for the infra links. -/
def names (d : List Bytes) : List Bytes :=
  (t.host.names (fulldir t.root (relpath d))).filter fun name => name ≠ lit "." ∧ name ≠ lit ".."

def IsDir (p : List Bytes) : Prop := ∃ sb, t.host.lstat (t.full p) = .ok sb ∧ sb.is S_IFDIR

/-- The file has a type that is backed up. -/
def Supported (p : List Bytes) : Prop := ∃ sb, t.host.lstat (t.full p) = .ok sb ∧ sb.known

def IsMount (p : List Bytes) : Prop := t.host.ismount (t.full p) = .ok true

/-- The file `p` is to be backed up: it is in the tree and has a supported type, neither it nor a
directory on the way is excluded, and the way does not lead across a mount point if it must not. -/
structure Kept (p : List Bytes) : Prop where
  nonempty : p ≠ []
  listed : ∀ q name, q ++ [name] <+: p → name ∈ t.names q
  inner : ∀ q, q <+: p → q ≠ [] → q ≠ p → t.IsDir q
  supported : t.Supported p
  included : ∀ q, q <+: p → q ≠ [] → t.excluded (relpath q) = false
  onefs : t.crossfs = false → ∀ q, q <+: p → q ≠ [] → q ≠ p → ¬ t.IsMount q

/-! ### The directories that are entered -/

/-- The names for which there are entries. -/
def own (d : List Bytes) : List Bytes := sortedNames (t.dirFiles (relpath d))

/-- Those of subdirectories that are entered. -/
def subnames (d : List Bytes) : List Bytes :=
  (t.own d).filter fun name =>
    t.enters (relpath d) name (statOf (t.dirFiles (relpath d)) name)

/-- The entries of a directory. -/
def block (d : List Bytes) : List Entry :=
  t.lines (relpath d) (t.dirFiles (relpath d)) true (t.own d)

variable {t} {d : List Bytes} {name : Bytes}

theorem path_relpath (hd : Proper d) : t.path (relpath d) name = t.full (d ++ [name]) := by
  rw [Tree.path, localname_relpath hd]
  rfl

theorem mem_names : name ∈ t.names d ↔
    name ∈ t.host.names (fulldir t.root (relpath d)) ∧ name ≠ lit "." ∧ name ≠ lit ".." := by
  rw [names, List.mem_filter, decide_eq_true_iff]

theorem file_isSome (hd : Proper d) : (t.file (relpath d) name).isSome ↔
    (name ≠ lit "." ∧ name ≠ lit "..") ∧ t.excluded (relpath (d ++ [name])) = false ∧
      t.Supported (d ++ [name]) := by
  rw [file, localname_relpath hd, path_relpath hd, Supported]
  split_ifs with hskip
  · refine iff_of_false (by simp) fun h => ?_
    rcases hskip with hdot | hdot | hex
    · exact h.1.1 hdot
    · exact h.1.2 hdot
    · rw [h.2.1] at hex
      cases hex
  · rw [not_or, not_or, Bool.not_eq_true] at hskip
    obtain ⟨hdot, hdots, hex⟩ := hskip
    cases hstat : t.host.lstat (t.full (d ++ [name])) with
    | error e => simp
    | ok sb =>
      cases hknown : sb.known <;> simp [hdot, hdots, hex, hknown]

/-- **The names for which there are entries.** -/
theorem mem_own (hd : Proper d) : name ∈ t.own d ↔
    name ∈ t.names d ∧ t.excluded (relpath (d ++ [name])) = false ∧ t.Supported (d ++ [name]) := by
  rw [own, sortedNames, List.mem_insertionSort, mem_names, and_assoc, ← file_isSome hd, dirFiles,
    files]
  constructor
  · intro hm
    obtain ⟨p, hp, rfl⟩ := List.mem_map.mp hm
    obtain ⟨n, hn, hfile⟩ := List.mem_filterMap.mp hp
    obtain ⟨rfl, -⟩ := file_spec hfile
    exact ⟨hn, by rw [hfile]; rfl⟩
  · rintro ⟨hn, hsome⟩
    obtain ⟨p, hfile⟩ := Option.isSome_iff_exists.mp hsome
    obtain ⟨hp, -⟩ := file_spec hfile
    exact List.mem_map.mpr ⟨p, List.mem_filterMap.mpr ⟨name, hn, hfile⟩, hp⟩

theorem lstat_own (hd : Proper d) (h : name ∈ t.own d) : t.host.lstat (t.full (d ++ [name])) =
    .ok (statOf (t.dirFiles (relpath d)) name) := by
  rw [← path_relpath hd]
  exact lstat_statOf ((List.mem_insertionSort _).mp h)

theorem isDir_iff {p : List Bytes} {sb : Stat} (h : t.host.lstat (t.full p) = .ok sb) :
    t.IsDir p ↔ sb.is S_IFDIR := by
  unfold IsDir
  rw [h]
  exact ⟨by rintro ⟨sb, ⟨⟩, htype⟩; exact htype, fun htype => ⟨sb, rfl, htype⟩⟩

theorem IsDir.supported {p : List Bytes} (h : t.IsDir p) : t.Supported p := by
  obtain ⟨sb, hstat, htype⟩ := h
  exact ⟨sb, hstat, by simp [Stat.known, htype]⟩

/-- **The subdirectories that are entered.** -/
theorem mem_subnames (hd : Proper d) : name ∈ t.subnames d ↔
    name ∈ t.names d ∧ t.excluded (relpath (d ++ [name])) = false ∧ t.IsDir (d ++ [name]) ∧
      (t.crossfs = false → ¬ t.IsMount (d ++ [name])) := by
  have henters : name ∈ t.own d →
      (t.enters (relpath d) name (statOf (t.dirFiles (relpath d)) name) = true ↔
        t.IsDir (d ++ [name]) ∧ (t.crossfs = false → ¬ t.IsMount (d ++ [name]))) := by
    intro hm
    rw [isDir_iff (lstat_own hd hm), enters, path_relpath hd, IsMount, Bool.and_eq_true]
    refine and_congr_right fun _ => ?_
    cases t.crossfs with
    | true => simp
    | false =>
      rcases t.host.ismount (t.full (d ++ [name])) with e | (_ | _) <;> simp
  rw [subnames, List.mem_filter]
  constructor
  · rintro ⟨hm, he⟩
    obtain ⟨hlisted, hincluded, -⟩ := (mem_own hd).mp hm
    exact ⟨hlisted, hincluded, (henters hm).mp he⟩
  · rintro ⟨hlisted, hincluded, hdir, hmount⟩
    have hm : name ∈ t.own d := (mem_own hd).mpr ⟨hlisted, hincluded, hdir.supported⟩
    exact ⟨hm, (henters hm).mpr ⟨hdir, hmount⟩⟩

theorem map_fst_files (dir : Bytes) (c : List Bytes) :
    (t.files dir c).map Prod.fst = c.filter fun name => (t.file dir name).isSome := by
  induction c with
  | nil => rfl
  | cons name c ih =>
    rw [files] at ih ⊢
    rw [List.filterMap_cons]
    cases hfile : t.file dir name with
    | none =>
      rw [List.filter_cons_of_neg (by simp [hfile])]
      exact ih
    | some p =>
      rw [List.filter_cons_of_pos (by simp [hfile]), List.map_cons, (file_spec hfile).1]
      exact congrArg _ ih

variable (hnames : ProperNames t.host)

include hnames in
theorem nodup_own : (t.own d).Nodup := by
  rw [own, sortedNames, (List.perm_insertionSort _ _).nodup_iff, dirFiles, map_fst_files]
  exact (hnames _).1.filter _

include hnames in
/-- The names are in order. -/
theorem pairwise_own : (t.own d).Pairwise (· < ·) := by
  have hsorted : (t.own d).Pairwise (· ≤ ·) := List.pairwise_insertionSort _ _
  exact hsorted.imp₂ (fun a b hle hne => (List.le_iff_lt_or_eq.mp hle).resolve_right hne)
    (nodup_own hnames)

include hnames in
theorem proper_names (h : name ∈ t.names d) : 47 ∉ name ∧ name ≠ lit "." := by
  obtain ⟨hm, hdot, -⟩ := mem_names.mp h
  exact ⟨(hnames _).2 name hm, hdot⟩

include hnames in
/-- A directory that is entered has a proper path. -/
theorem proper_of_node (h : IsNode t.subnames d) : Proper d := by
  induction d using List.reverseRecOn with
  | nil => exact fun _ hm => absurd hm List.not_mem_nil
  | append_singleton d name ih =>
    obtain ⟨hd, hm⟩ := isNode_snoc.mp h
    exact proper_snoc.mpr ⟨ih hd, proper_names hnames ((mem_subnames (ih hd)).mp hm).1⟩

include hnames in
theorem proper_own (hd : Proper d) (h : name ∈ t.own d) : Proper (d ++ [name]) :=
  proper_snoc.mpr ⟨hd, proper_names hnames ((mem_own hd).mp h).1⟩

include hnames in
theorem Kept.proper {p : List Bytes} (h : t.Kept p) : Proper p := by
  intro name hm
  obtain ⟨q, r, rfl⟩ := List.append_of_mem hm
  exact proper_names hnames (h.listed q name ⟨r, by simp⟩)

include hnames in
/-- **The files that are to be backed up** are those for which there are entries. -/
theorem kept_iff {p : List Bytes} :
    t.Kept p ↔ ∃ d name, p = d ++ [name] ∧ IsNode t.subnames d ∧ name ∈ t.own d := by
  constructor
  · intro h
    have hp := h.proper hnames
    obtain ⟨d, name, rfl⟩ := List.eq_nil_or_concat' p |>.resolve_left h.nonempty
    have hd := (proper_snoc.mp hp).1
    refine ⟨d, name, rfl, fun q a hq => ?_, ?_⟩
    · have hqp : q ++ [a] <+: d ++ [name] := hq.trans (List.prefix_append _ _)
      have hlen := hq.length_le
      have hne : q ++ [a] ≠ d ++ [name] := fun e => by
        have := congrArg List.length e
        simp only [List.length_append, List.length_singleton] at this hlen
        omega
      have hq' : Proper q := fun b hb => hd b (hq.subset (List.mem_append_left _ hb))
      exact (mem_subnames hq').mpr ⟨h.listed q a hqp, h.included _ hqp (by simp),
        h.inner _ hqp (by simp) hne, fun hone => h.onefs hone _ hqp (by simp) hne⟩
    · exact (mem_own hd).mpr ⟨h.listed d name List.prefix_rfl,
        h.included _ List.prefix_rfl (by simp), h.supported⟩
  · rintro ⟨d, name, rfl, hnode, hm⟩
    have hd := proper_of_node hnames hnode
    obtain ⟨hlisted, hincluded, hsupported⟩ := (mem_own hd).mp hm
    -- what is known of a directory on the way
    have hway : ∀ q, q <+: d → q ≠ [] → ∃ r a, q = r ++ [a] ∧ Proper r ∧ a ∈ t.subnames r := by
      intro q hq hqn
      obtain ⟨r, a, rfl⟩ := List.eq_nil_or_concat' q |>.resolve_left hqn
      exact ⟨r, a, rfl, fun b hb => hd b (hq.subset (List.mem_append_left _ hb)), hnode r a hq⟩
    have hinner : ∀ q, q <+: d ++ [name] → q ≠ d ++ [name] → q <+: d := fun q hq hne =>
      (List.prefix_concat_iff.mp hq).resolve_left hne
    refine ⟨by simp, ?_, ?_, hsupported, ?_, ?_⟩
    · intro q a hq
      rcases List.prefix_concat_iff.mp hq with heq | hq
      · obtain ⟨rfl, ha⟩ := List.append_inj' heq rfl
        obtain rfl := List.singleton_injective ha
        exact hlisted
      · obtain ⟨r, b, heq, hr, hb⟩ := hway _ hq (by simp)
        obtain ⟨rfl, hab⟩ := List.append_inj' heq rfl
        obtain rfl := List.singleton_injective hab
        exact ((mem_subnames hr).mp hb).1
    · intro q hq hqn hne
      obtain ⟨r, a, rfl, hr, ha⟩ := hway q (hinner q hq hne) hqn
      exact ((mem_subnames hr).mp ha).2.2.1
    · intro q hq hqn
      by_cases hne : q = d ++ [name]
      · rw [hne]
        exact hincluded
      · obtain ⟨r, a, rfl, hr, ha⟩ := hway q (hinner q hq hne) hqn
        exact ((mem_subnames hr).mp ha).2.1
    · intro hone q hq hqn hne
      obtain ⟨r, a, rfl, hr, ha⟩ := hway q (hinner q hq hne) hqn
      exact ((mem_subnames hr).mp ha).2.2.2 hone

/-! ### Blocks -/

/-- The paths and the names in a block: the first one carries the path. -/
def named (t : Tree) (d : List Bytes) : List Bytes → List (Bytes × Bytes)
  | [] => []
  | name :: names =>
    (t.full (d ++ [name]), relpath (d ++ [name])) ::
      names.map fun name => (t.full (d ++ [name]), if d = [] then name else lit "./" ++ name)

theorem map_lines (hd : Proper d) (files : List (Bytes × Stat)) {names : List Bytes}
    (hslash : ∀ name ∈ names, 47 ∉ name) :
    (t.lines (relpath d) files false names).map (fun e => (e.path, e.relname)) =
      names.map fun name => (t.full (d ++ [name]), if d = [] then name else lit "./" ++ name) := by
  induction names with
  | nil => rfl
  | cons name names ih =>
    obtain ⟨hname, hrest⟩ := List.forall_mem_cons.mp hslash
    rw [lines, List.map_cons, List.map_cons, ih hrest, entry, path_relpath hd,
      localname_relpath hd, relname_false hname]

include hnames in
/-- **The names in a block.** -/
theorem map_block (hd : Proper d) :
    (t.block d).map (fun e => (e.path, e.relname)) = t.named d (t.own d) := by
  have hslash : ∀ name ∈ t.own d, 47 ∉ name := fun name hm =>
    (proper_names hnames ((mem_own hd).mp hm).1).1
  unfold block
  cases hown : t.own d with
  | nil => rfl
  | cons name names =>
    rw [hown] at hslash
    rw [lines, List.map_cons, map_lines hd _ (List.forall_mem_cons.mp hslash).2, entry,
      path_relpath hd, localname_relpath hd]
    rfl

theorem map_path_block (hd : Proper d) :
    (t.block d).map Entry.path = (t.own d).map fun name => t.full (d ++ [name]) := by
  unfold block
  generalize true = first
  induction t.own d generalizing first with
  | nil => rfl
  | cons name names ih =>
    rw [lines, List.map_cons, List.map_cons, ih, entry, path_relpath hd]

include hnames in
/-- The entries of the directories in preorder. -/
theorem entries_eq (depth : Nat) (hd : Proper d) :
    t.entries depth (relpath d) = (nodes t.subnames depth d).flatMap t.block := by
  induction depth generalizing d with
  | zero => rfl
  | succ depth ih =>
    have hsubs : t.subdirs (relpath d) (t.dirFiles (relpath d)) (t.own d) =
        (t.subnames d).map fun name => relpath (d ++ [name]) := by
      rw [subdirs, subnames]
      exact List.map_congr_left fun name _ => localname_relpath hd name
    rw [entries, nodes, List.flatMap_cons]
    refine congrArg (t.block d ++ ·) ?_
    change (t.subdirs (relpath d) (t.dirFiles (relpath d)) (t.own d)).flatMap _ = _
    rw [hsubs, List.flatMap_map, List.flatMap_assoc]
    refine List.flatMap_congr fun name hm => ?_
    exact ih (proper_snoc.mpr ⟨hd, proper_names hnames ((mem_subnames hd).mp hm).1⟩)

/-! ### The whole index -/

theorem full_injective {p q : List Bytes} (hp : Proper p) (hq : Proper q) (hpn : p ≠ [])
    (hqn : q ≠ []) (h : t.full p = t.full q) : p = q :=
  relpath_injective (fun name hm => (hp name hm).1) (fun name hm => (hq name hm).1) hpn hqn
    (List.append_cancel_left h)

/-- The entry is for a file in the directory `d`. -/
def InDir (t : Tree) (d : List Bytes) (e : Entry) : Prop :=
  ∃ name, 47 ∉ name ∧ name ≠ lit "." ∧ e.path = t.full (d ++ [name])

/-- The entries `es` are those of the tree, in good order. -/
structure Shaped (t : Tree) (es : List Entry) : Prop where
  /-- Every path is there once. -/
  nodup : (es.map Entry.path).Nodup
  /-- The paths are those of the files that are to be backed up. -/
  complete : ∀ path, path ∈ es.map Entry.path ↔ ∃ p, t.Kept p ∧ path = t.full p
  /-- The entries of a directory are one block, sorted by name, and that of the directory itself
  comes before them. -/
  blocks : ∀ d, Proper d → ∃ before block after names, es = before ++ block ++ after ∧
    names.Pairwise (· < ·) ∧ block.map (fun e => (e.path, e.relname)) = t.named d names ∧
    (∀ e ∈ before ++ after, ¬ t.InDir d e) ∧
    (d ≠ [] → block ≠ [] → ∃ e ∈ before, e.path = t.full d)

include hnames in
theorem inDir_block {e : Entry} (hd : Proper d) (h : e ∈ t.block d) :
    ∃ name, name ∈ t.own d ∧ Proper (d ++ [name]) ∧ e.path = t.full (d ++ [name]) := by
  have hm : e.path ∈ (t.block d).map Entry.path := List.mem_map_of_mem h
  rw [map_path_block hd] at hm
  obtain ⟨name, hm, hpath⟩ := List.mem_map.mp hm
  exact ⟨name, hm, proper_own hnames hd hm, hpath.symm⟩

include hnames in
/-- An entry belongs to one directory only. -/
theorem eq_of_inDir {e : Entry} {d' : List Bytes} (hd : Proper d) (hd' : Proper d')
    (h : e ∈ t.block d) (hin : t.InDir d' e) : d' = d := by
  obtain ⟨name, -, hproper, hpath⟩ := inDir_block hnames hd h
  obtain ⟨name', hslash, hdot, hpath'⟩ := hin
  have heq := full_injective (proper_snoc.mpr ⟨hd', hslash, hdot⟩) hproper (by simp) (by simp)
    (hpath'.symm.trans hpath)
  exact (List.append_inj' heq rfl).1

include hnames in
/-- **Entries in preorder have the shape of the tree.** -/
theorem shaped_nodes {depth : Nat} (hwithin : Within t.subnames depth []) :
    t.Shaped ((nodes t.subnames depth []).flatMap t.block) := by
  have hproper : ∀ d ∈ nodes t.subnames depth [], Proper d := fun d hm =>
    proper_of_node hnames ((mem_nodes hwithin isNode_nil).mp hm).2
  have hnodup : (nodes t.subnames depth []).Nodup :=
    nodup_nodes fun d => (nodup_own hnames).filter _
  refine ⟨?_, fun path => ?_, fun d hd => ?_⟩
  · rw [List.map_flatMap]
    refine List.nodup_flatMap.mpr ⟨fun d hm => ?_, ?_⟩
    · rw [map_path_block (hproper d hm)]
      refine (nodup_own hnames).map_on fun a ha b hb heq => ?_
      have := full_injective (proper_own hnames (hproper d hm) ha)
        (proper_own hnames (hproper d hm) hb) (by simp) (by simp) heq
      exact List.singleton_injective (List.append_cancel_left this)
    · refine hnodup.imp_of_mem ?_
      intro d d' hm hm' hne path hp hp'
      obtain ⟨e, he, rfl⟩ := List.mem_map.mp hp
      obtain ⟨e', he', heq⟩ := List.mem_map.mp hp'
      obtain ⟨name, -, hproper', hpath⟩ := inDir_block hnames (hproper d' hm') he'
      rw [heq] at hpath
      obtain ⟨-, hslash, hdot⟩ := proper_snoc.mp hproper'
      exact hne (eq_of_inDir hnames (hproper d hm) (hproper d' hm') he
        ⟨name, hslash, hdot, hpath⟩).symm
  · rw [List.map_flatMap, List.mem_flatMap]
    constructor
    · rintro ⟨d, hm, hpath⟩
      rw [map_path_block (hproper d hm)] at hpath
      obtain ⟨name, hname, rfl⟩ := List.mem_map.mp hpath
      exact ⟨d ++ [name], (kept_iff hnames).mpr
        ⟨d, name, rfl, ((mem_nodes hwithin isNode_nil).mp hm).2, hname⟩, rfl⟩
    · rintro ⟨p, hp, rfl⟩
      obtain ⟨d, name, rfl, hnode, hname⟩ := (kept_iff hnames).mp hp
      have hm := (mem_nodes hwithin isNode_nil).mpr ⟨List.nil_prefix, hnode⟩
      refine ⟨d, hm, ?_⟩
      rw [map_path_block (hproper d hm)]
      exact List.mem_map.mpr ⟨name, hname, rfl⟩
  · have hother : ∀ ds ⊆ nodes t.subnames depth [], d ∉ ds →
        ∀ e ∈ ds.flatMap t.block, ¬ t.InDir d e := by
      intro ds hds hd' e he hin
      obtain ⟨d', hm, he⟩ := List.mem_flatMap.mp he
      exact hd' (eq_of_inDir hnames (hproper d' (hds hm)) hd he hin ▸ hm)
    by_cases hm : d ∈ nodes t.subnames depth []
    swap
    · refine ⟨(nodes t.subnames depth []).flatMap t.block, [], [], [], by simp, .nil, rfl, ?_,
        fun _ h => absurd rfl h⟩
      rw [List.append_nil]
      exact hother _ (fun _ h => h) hm
    obtain ⟨ds, ds', hsplit⟩ := List.append_of_mem hm
    have hnodup' := hnodup
    rw [hsplit] at hnodup'
    refine ⟨ds.flatMap t.block, t.block d, ds'.flatMap t.block, t.own d, ?_,
      pairwise_own hnames, map_block hnames hd, ?_, fun hdn _ => ?_⟩
    · rw [hsplit, List.flatMap_append, List.flatMap_cons, List.append_assoc]
    · rw [← List.flatMap_append]
      refine hother _ ?_ (List.nodup_middle.mp hnodup').notMem
      intro d' hm'
      rw [hsplit]
      rcases List.mem_append.mp hm' with h | h
      · exact List.mem_append_left _ h
      · exact List.mem_append_right _ (List.mem_cons_of_mem _ h)
    · -- the entry of a subdirectory is in the block of its parent
      have hparent := parent_mem hsplit hdn
      obtain ⟨q, name, rfl⟩ := List.eq_nil_or_concat' d |>.resolve_left hdn
      rw [List.dropLast_concat] at hparent
      obtain ⟨-, hname⟩ := isNode_snoc.mp ((mem_nodes hwithin isNode_nil).mp hm).2
      have hpath : t.full (q ++ [name]) ∈ (t.block q).map Entry.path := by
        rw [map_path_block (proper_snoc.mp hd).1]
        exact List.mem_map.mpr ⟨name, (List.mem_filter.mp hname).1, rfl⟩
      obtain ⟨e, he, hpath⟩ := List.mem_map.mp hpath
      exact ⟨e, List.mem_flatMap.mpr ⟨q, hparent, he⟩, hpath⟩

end Tree

/-! ### What a backup writes -/

variable {cfg : Config} {hs : Option (List (Bytes × Hint))} {host : Host}
  {hash : Bytes → Stat → Hash}

/-- A backup that has gone through a tree has reached all of it. -/
theorem Walk.within {depth : Nat} {d : List Bytes} {es : List Entry}
    (h : Walk cfg hs depth (relpath d) es) (hd : Proper d) (hhost : Unchanging cfg host)
    (hhash : HashesFrom cfg hs host hash) (hnames : ProperNames host) :
    Within (cfg.tree host hash).subnames depth d := by
  induction depth generalizing d es with
  | zero => exact h.elim
  | succ depth ih =>
    obtain ⟨own, ds, subs, hown, hsubs, rfl⟩ := h
    obtain ⟨-, rfl⟩ := hown.eq_tree hhost hhash
    intro name hm
    have hname := Tree.proper_names (t := cfg.tree host hash) hnames ((Tree.mem_subnames hd).mp hm).1
    have hds : relpath (d ++ [name]) ∈ (cfg.tree host hash).subdirs (relpath d)
        ((cfg.tree host hash).dirFiles (relpath d)) ((cfg.tree host hash).own d) := by
      rw [← localname_relpath hd]
      exact List.mem_map_of_mem hm
    obtain ⟨⟨i, hi⟩, hget⟩ := List.get_of_mem hds
    obtain ⟨hlen, hwalks⟩ := List.forall₂_iff_get.mp hsubs
    have hwalk := hwalks i hi (hlen ▸ hi)
    exact ih (hget ▸ hwalk) (proper_snoc.mpr ⟨hd, hname⟩)

/-- **The index of an unchanging tree**: every file that is to be backed up, once, in blocks sorted by
name, with a directory before what is in it. -/
theorem index_shape (cfg : Config) (depth : Nat) (store hintStore : Store) (host : Host)
    (w : World) (ho : Outside cfg) (hhost : Unchanging cfg host) (hnames : ProperNames host)
    (hrun : do_backup cfg depth { store, hintStore } = .ok () w) :
    ∃ es hash, w.store.lookup cfg.indexfile = some (.file (indexText es)) ∧
      (cfg.tree host hash).Shaped es := by
  obtain ⟨hs, es, hloads, hwalk, hfin⟩ := wp_elim_ok (wp_do_backup ho depth trivial
    (fun _ _ => trivial) fun _ _ => keepsRepo_trivial) hrun
  have hhash := hashesFrom_hintedHash hhost hs
  have hroot : relpath [] = lit "." := rfl
  have hproper : Proper [] := fun _ hm => absurd hm List.not_mem_nil
  refine ⟨es, hintedHash cfg hs host, hfin.index, ?_⟩
  rw [← hroot] at hwalk
  rw [hwalk.eq_tree hhost hhash, Tree.entries_eq (t := cfg.tree host _) hnames depth hproper]
  exact Tree.shaped_nodes (t := cfg.tree host _) hnames (hwalk.within hproper hhost hhash hnames)

/-- A directory `a` with a socket `c` in it, and a socket `b`. -/
def sockets : Host where
  contents path := .ok <|
    if path = lit "/home" then [lit ".", lit "b", lit "a"]
    else if path = lit "/home/a" then [lit "c", lit ".."] else []
  lstat path := .ok { (default : Stat) with
    st_mode := if path = lit "/home/a" then S_IFDIR else S_IFSOCK }
  data _ := .ok ([], none)
  readlink _ := .error ENOENT
  ismount _ := .ok false
  utimes _ := .ok ()

/-- A backup of it. -/
def socketsBackup : Config :=
  { largeFile 1000 with env := fun n => { (largeFile 1000).env n with host := sockets } }

theorem properNames_sockets : ProperNames sockets := by
  intro path
  have hnames : sockets.names path = if path = lit "/home" then [lit ".", lit "b", lit "a"]
      else if path = lit "/home/a" then [lit "c", lit ".."] else [] := rfl
  rw [hnames]
  split_ifs <;> decide

theorem shaped_sockets : ∃ (w : World) (es : List Entry) (hash : Bytes → Stat → Hash),
    w.store.lookup (lit "index") = some (.file (indexText es)) ∧
      (socketsBackup.tree sockets hash).Shaped es := by
  have hvalue : value? (do_backup socketsBackup 2) { store := ∅ } = some () := by decide +kernel
  obtain ⟨w, hrun⟩ : ∃ w, do_backup socketsBackup 2 { store := ∅ } = .ok () w :=
    ⟨_, ok_of_value? hvalue⟩
  exact ⟨w, index_shape socketsBackup 2 ∅ ∅ sockets w ⟨by unfold Under; decide +kernel⟩
    (fun _ => rfl) properNames_sockets hrun⟩

end Hbackup
