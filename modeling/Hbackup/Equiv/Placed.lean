import Hbackup.Equiv.Shape
import Hbackup.Equiv.Target
import Hbackup.Restore

/-!
# Where the entries of an index go

Every entry of an index of a tree has its place, the names on the way to its file.  `Arranged` says what
restoring needs of an index in order: every place is there once and after that of its directory, a
temporary name is not yet in use, and the names on the lines resolve to the places (`Arranged.resolve`).
The index of a tree is arranged so (`arranged_placed`).
-/

namespace Hbackup

open Preorder

/-- An entry and its place. -/
abbrev Placed := List Bytes × Entry

/-! ### Names on lines -/

theorem relpath_snoc {d : List Bytes} (hd : d ≠ []) (name : Bytes) :
    relpath (d ++ [name]) = inDir (relpath d) name := by
  unfold relpath inDir
  rw [if_neg (by simp), if_neg hd, intercalate_snoc hd, lit_slash, List.append_assoc]
  rfl

theorem relpath_singleton (name : Bytes) : relpath [name] = name := by
  simp [relpath]

/-- The names can be components of a path. -/
def Components (p : List Bytes) : Prop := ∀ name ∈ p, IsComponent name

theorem components_snoc {d : List Bytes} {name : Bytes} :
    Components (d ++ [name]) ↔ Components d ∧ IsComponent name := by
  unfold Components
  rw [List.forall_mem_append, List.forall_mem_singleton]

theorem zero_not_mem_relpath {p : List Bytes} (hp : Components p) : 0 ∉ relpath p := by
  induction p using List.reverseRecOn with
  | nil => decide
  | append_singleton d name ih =>
    obtain ⟨hd, hname⟩ := components_snoc.mp hp
    by_cases hdn : d = []
    · rw [hdn, List.nil_append, relpath_singleton]
      exact hname.1
    · have h := ih hd
      rw [relpath_snoc hdn]
      simp [inDir, h, hname.1]

/-- **The components of a path** relative to a directory are those of the directory and the names. -/
theorem components_relpath {p : List Bytes} (hp : Components p) (hne : p ≠ []) :
    components (relpath p) = p := by
  induction p using List.reverseRecOn with
  | nil => exact absurd rfl hne
  | append_singleton d name ih =>
    obtain ⟨hd, hname⟩ := components_snoc.mp hp
    by_cases hdn : d = []
    · rw [hdn, List.nil_append, relpath_singleton, components_self hname]
    · rw [relpath_snoc hdn, inDir, lit_slash, List.append_assoc]
      change components (relpath d ++ 47 :: name) = _
      rw [components_slash (zero_not_mem_relpath hd) hname.1, ih hd hdn, components_self hname]

theorem relpath_ne_nil {p : List Bytes} (hp : Components p) : relpath p ≠ [] := by
  induction p using List.reverseRecOn with
  | nil => decide
  | append_singleton d name _ =>
    obtain ⟨-, hname⟩ := components_snoc.mp hp
    by_cases hdn : d = []
    · rw [hdn, List.nil_append, relpath_singleton]
      exact hname.2.2.1
    · rw [relpath_snoc hdn]
      simp [inDir]

/-- The directory that is remembered after the entry of `p`. -/
def lastDir (p : List Bytes) : Bytes := if p.dropLast = [] then [] else relpath p.dropLast

theorem dirname_of_slash_not_mem {name : Bytes} (h : 47 ∉ name) : dirname name = none := by
  unfold dirname
  rw [List.idxOf?_eq_none_iff.mpr (by simpa using h)]
  rfl

theorem dirname_relpath {p : List Bytes} (hp : Components p) (hne : p ≠ []) :
    (dirname (relpath p)).getD [] = lastDir p := by
  obtain ⟨d, name, rfl⟩ := List.eq_nil_or_concat' p |>.resolve_left hne
  obtain ⟨-, hname⟩ := components_snoc.mp hp
  unfold lastDir
  rw [List.dropLast_concat]
  by_cases hdn : d = []
  · rw [hdn, List.nil_append, relpath_singleton, dirname_of_slash_not_mem hname.2.1, if_pos rfl]
    rfl
  · rw [relpath_snoc hdn, dirname_inDir hname.2.1, if_neg hdn]
    rfl

/-- A name in full is not taken for a relative one. -/
theorem not_prefix_relpath {p : List Bytes} (hp : Components p) (hne : p ≠ []) :
    (lit "./").isPrefixOf (relpath p) = false := by
  rw [← Bool.not_eq_true, List.isPrefixOf_iff_prefix]
  rintro ⟨r, hr⟩
  -- the first component would be a dot
  have hdot : lit "./" ++ r = lit "." ++ 47 :: r := by simp [lit]
  have hzero := zero_not_mem_relpath hp
  rw [← hr] at hzero
  have hr0 : 0 ∉ r := fun h => hzero (List.mem_append_right _ h)
  have hsplit := List.splitOn_append_cons_self_of_not_mem (a := 47) (by decide : 47 ∉ lit ".") r
  rw [← hdot, hr] at hsplit
  have hp' : (relpath p).splitOn 47 = p := by
    unfold relpath
    rw [if_neg hne]
    exact List.splitOn_intercalate 47 (fun name hm => (hp name hm).2.1) hne
  rw [hp'] at hsplit
  have hmem : lit "." ∈ p := by
    rw [hsplit]
    exact List.mem_cons_self
  exact (hp _ hmem).2.2.2 rfl

theorem resolve_full {p : List Bytes} (hp : Components p) (hne : p ≠ []) (dir : Bytes) :
    resolveName dir (relpath p) = some (relpath p, lastDir p) := by
  unfold resolveName
  rw [not_prefix_relpath hp hne, if_neg (by simp), dirname_relpath hp hne]

theorem resolve_relative {p q : List Bytes} (hp : Components p) (hne : p ≠ [])
    (hq : q.dropLast = p.dropLast) :
    resolveName (lastDir q) (relname false (relpath p)) = some (relpath p, lastDir p) := by
  obtain ⟨d, name, rfl⟩ := List.eq_nil_or_concat' p |>.resolve_left hne
  obtain ⟨hd, hname⟩ := components_snoc.mp hp
  rw [relname_false hname.2.1]
  by_cases hdn : d = []
  · subst hdn
    rw [if_pos rfl]
    have h := resolve_full hp hne (lastDir q)
    rw [List.nil_append, relpath_singleton] at h
    rwa [List.nil_append, relpath_singleton]
  · rw [if_neg hdn]
    unfold resolveName lastDir
    rw [List.dropLast_concat] at hq ⊢
    have hprefix : (lit "./").isPrefixOf (lit "./" ++ name) = true := by
      rw [List.isPrefixOf_iff_prefix]
      exact List.prefix_append _ _
    have hdrop : (lit "./" ++ name).drop 2 = name := rfl
    rw [hq, if_neg hdn, if_pos hprefix, if_neg (relpath_ne_nil hd), hdrop, relpath_snoc hdn]

/-! ### Entries in order -/

/-- What restoring needs of the places of an index. -/
structure Arranged (l : List Placed) : Prop where
  nodup : (l.map Prod.fst).Nodup
  components : ∀ pe ∈ l, pe.1 ≠ [] ∧ Components pe.1
  /-- The directory comes first. -/
  parent : ∀ pre pe post, l = pre ++ pe :: post →
    pe.1.dropLast = [] ∨ ∃ e, (pe.1.dropLast, e) ∈ pre ∧ e.kind = .dir
  /-- The temporary name is not in use. -/
  tmp : ∀ pre pe post d name, l = pre ++ pe :: post → pe.1 = d ++ [name] →
    d ++ [name ++ lit "~restore~"] ∉ pre.map Prod.fst
  relname : ∀ pre pe post, l = pre ++ pe :: post → pe.2.relname = relpath pe.1 ∨
    ∃ pre' qe, pre = pre' ++ [qe] ∧ qe.1.dropLast = pe.1.dropLast ∧
      pe.2.relname = Hbackup.relname false (relpath pe.1)

/-- The directory that is remembered after some entries. -/
def dirAfter (pre : List Placed) : Bytes := (pre.getLast?.map fun pe => lastDir pe.1).getD []

theorem dirAfter_snoc (pre : List Placed) (pe : Placed) : dirAfter (pre ++ [pe]) = lastDir pe.1 := by
  simp [dirAfter]

/-- **Names resolve to places.** -/
theorem Arranged.resolve {l pre post : List Placed} {pe : Placed} (h : Arranged l)
    (hl : l = pre ++ pe :: post) :
    resolveName (dirAfter pre) pe.2.relname = some (relpath pe.1, lastDir pe.1) := by
  obtain ⟨hne, hp⟩ := h.components pe (by rw [hl]; simp)
  rcases h.relname pre pe post hl with hfull | ⟨pre', qe, rfl, hq, hrel⟩
  · rw [hfull, resolve_full hp hne]
  · rw [hrel, dirAfter_snoc, resolve_relative hp hne hq]

/-! ### The index of a tree -/

/-- The names that a directory lists are real ones. -/
structure RealNames (host : Host) : Prop where
  proper : ProperNames host
  real : ∀ path, ∀ name ∈ host.names path, name ≠ [] ∧ 0 ∉ name

namespace Tree

variable (t : Tree)

/-- The entries for `names`, with their places. -/
def placedLines (d : List Bytes) : Bool → List Bytes → List Placed
  | _, [] => []
  | first, name :: names =>
    (d ++ [name], t.entry (relpath d) first name (statOf (t.dirFiles (relpath d)) name)) ::
      placedLines d false names

/-- The entries of a directory, with their places. -/
def placedBlock (d : List Bytes) : List Placed := t.placedLines d true (t.own d)

/-- The entries of the tree, with their places. -/
def placed (depth : Nat) : List Placed := (nodes t.subnames depth []).flatMap t.placedBlock

variable {t} {d : List Bytes} {depth : Nat}

theorem map_snd_placedLines (d : List Bytes) (first : Bool) (names : List Bytes) :
    (t.placedLines d first names).map Prod.snd =
      t.lines (relpath d) (t.dirFiles (relpath d)) first names := by
  induction names generalizing first with
  | nil => rfl
  | cons name names ih => rw [placedLines, lines, List.map_cons, ih]

theorem map_fst_placedLines (d : List Bytes) (first : Bool) (names : List Bytes) :
    (t.placedLines d first names).map Prod.fst = names.map fun name => d ++ [name] := by
  induction names generalizing first with
  | nil => rfl
  | cons name names ih => rw [placedLines, List.map_cons, List.map_cons, ih]

theorem map_snd_placed (hnames : ProperNames t.host) (depth : Nat) :
    (t.placed depth).map Prod.snd = t.entries depth (lit ".") := by
  have hproper : Proper [] := fun _ h => absurd h List.not_mem_nil
  have hroot : relpath [] = lit "." := rfl
  rw [← hroot, entries_eq hnames depth hproper, placed, List.map_flatMap]
  refine List.flatMap_congr fun d _ => ?_
  rw [placedBlock, map_snd_placedLines]
  rfl

theorem placedLines_split {first : Bool} {names : List Bytes} {b b' : List Placed} {pe : Placed}
    (h : t.placedLines d first names = b ++ pe :: b') :
    ∃ before name after first', names = before ++ name :: after ∧
      b.map Prod.fst = before.map (fun name => d ++ [name]) ∧ first' = (first && b.isEmpty) ∧
      pe = (d ++ [name],
        t.entry (relpath d) first' name (statOf (t.dirFiles (relpath d)) name)) := by
  induction names generalizing first b with
  | nil => simp [placedLines] at h
  | cons name names ih =>
    rw [placedLines] at h
    cases b with
    | nil =>
      obtain ⟨rfl, -⟩ := List.cons.inj h
      exact ⟨[], name, names, first, rfl, rfl, by simp, rfl⟩
    | cons qe b =>
      obtain ⟨rfl, hrest⟩ := List.cons.inj h
      obtain ⟨before, name', after, first', rfl, hb, hfirst, hpe⟩ := ih hrest
      refine ⟨name :: before, name', after, first', rfl, ?_, by simpa using hfirst, hpe⟩
      rw [List.map_cons, List.map_cons, hb]

/-- An entry, its directory, and what is in front of it. -/
structure Splits (t : Tree) (depth : Nat) (pre : List Placed) (pe : Placed) (ds : List (List Bytes))
    (d : List Bytes) (before : List Bytes) (name : Bytes) : Prop where
  nodes : ∃ ds', nodes t.subnames depth [] = ds ++ d :: ds'
  own : ∃ after, t.own d = before ++ name :: after
  place : pe.1 = d ++ [name]
  places : pre.map Prod.fst =
    (ds.flatMap fun d => (t.own d).map fun name => d ++ [name]) ++ before.map fun name => d ++ [name]
  entry : ∃ first, pe.2 = t.entry (relpath d) first name (statOf (t.dirFiles (relpath d)) name) ∧
    (first = true ∨ ∃ pre' qe, pre = pre' ++ [qe] ∧ qe.1.dropLast = d ∧ first = false)

theorem placed_split {pre post : List Placed} {pe : Placed} (h : t.placed depth = pre ++ pe :: post) :
    ∃ ds d before name, t.Splits depth pre pe ds d before name := by
  obtain ⟨ds, d, ds', b, b', hnodes, hblock, rfl⟩ := flatMap_split h
  obtain ⟨before, name, after, first, hown, hb, hfirst, rfl⟩ := placedLines_split hblock
  refine ⟨ds, d, before, name, ⟨ds', hnodes⟩, ⟨after, hown⟩, rfl, ?_, first, rfl, ?_⟩
  · rw [List.map_append, hb, List.map_flatMap]
    refine congrArg (· ++ _) (List.flatMap_congr fun d _ => ?_)
    exact map_fst_placedLines d true _
  · rcases List.eq_nil_or_concat' b with rfl | ⟨b₀, qe, rfl⟩
    · exact .inl (by rw [hfirst]; rfl)
    · right
      have hqe : qe.1 ∈ before.map fun name => d ++ [name] := by
        rw [← hb]
        simp
      obtain ⟨name', -, hqe⟩ := List.mem_map.mp hqe
      refine ⟨ds.flatMap t.placedBlock ++ b₀, qe, by rw [List.append_assoc], ?_, ?_⟩
      · rw [← hqe, List.dropLast_concat]
      · rw [hfirst]
        simp

theorem components_of_node (hnames : RealNames t.host) (h : IsNode t.subnames d) : Components d := by
  induction d using List.reverseRecOn with
  | nil => exact fun _ hm => absurd hm List.not_mem_nil
  | append_singleton d name ih =>
    obtain ⟨hd, hm⟩ := isNode_snoc.mp h
    have hproper := proper_of_node hnames.proper hd
    obtain ⟨hlisted, hdot, -⟩ := mem_names.mp ((mem_subnames hproper).mp hm).1
    obtain ⟨hne, h0⟩ := hnames.real _ name hlisted
    exact components_snoc.mpr ⟨ih hd, h0, (hnames.proper _).2 name hlisted, hne, hdot⟩

theorem components_own (hnames : RealNames t.host) (h : IsNode t.subnames d) {name : Bytes}
    (hm : name ∈ t.own d) : Components (d ++ [name]) := by
  have hproper := proper_of_node hnames.proper h
  obtain ⟨hlisted, hdot, -⟩ := mem_names.mp ((mem_own hproper).mp hm).1
  obtain ⟨hne, h0⟩ := hnames.real _ name hlisted
  exact components_snoc.mpr
    ⟨components_of_node hnames h, h0, (hnames.proper _).2 name hlisted, hne, hdot⟩

theorem nodup_places (hnames : ProperNames t.host) : ((t.placed depth).map Prod.fst).Nodup := by
  have hnodup : (nodes t.subnames depth []).Nodup := nodup_nodes fun d => (nodup_own hnames).filter _
  have hmap : (t.placed depth).map Prod.fst =
      (nodes t.subnames depth []).flatMap fun d => (t.own d).map fun name => d ++ [name] := by
    rw [placed, List.map_flatMap]
    exact List.flatMap_congr fun d _ => map_fst_placedLines d true _
  rw [hmap]
  refine List.nodup_flatMap.mpr ⟨fun d _ => ?_, ?_⟩
  · apply (nodup_own hnames).map
    intro a b heq
    exact List.singleton_injective (List.append_cancel_left heq)
  · apply hnodup.imp
    intro d d' hne p hp hp'
    obtain ⟨name, -, rfl⟩ := List.mem_map.mp hp
    obtain ⟨name', -, heq⟩ := List.mem_map.mp hp'
    exact hne (List.append_inj' heq rfl).1.symm

/-- What is known of an entry and its place. -/
theorem Splits.facts {pre : List Placed} {pe : Placed} {ds : List (List Bytes)} {before : List Bytes}
    {name : Bytes} (h : t.Splits depth pre pe ds d before name) (hnames : RealNames t.host) :
    IsNode t.subnames d ∧ name ∈ t.own d ∧ Components (d ++ [name]) := by
  obtain ⟨ds', hnodes⟩ := h.nodes
  obtain ⟨after, hown⟩ := h.own
  have hnode : IsNode t.subnames d := isNode_of_mem_nodes isNode_nil (by rw [hnodes]; simp)
  have hm : name ∈ t.own d := by
    rw [hown]
    simp
  exact ⟨hnode, hm, components_own hnames hnode hm⟩

/-- **The index of a tree is arranged.** -/
theorem arranged_placed (hnames : RealNames t.host) (depth : Nat) : Arranged (t.placed depth) := by
  constructor
  · exact nodup_places hnames.proper
  · intro pe hm
    obtain ⟨pre, post, hsplit⟩ := List.append_of_mem hm
    obtain ⟨ds, d, before, name, h⟩ := placed_split hsplit
    rw [h.place]
    exact ⟨by simp, (h.facts hnames).2.2⟩
  · intro pre pe post hsplit
    obtain ⟨ds, d, before, name, h⟩ := placed_split hsplit
    obtain ⟨ds', hnodes⟩ := h.nodes
    obtain ⟨hnode, -, -⟩ := h.facts hnames
    rw [h.place, List.dropLast_concat]
    refine or_iff_not_imp_left.mpr fun hdn => ?_
    -- the entry of the directory is in the block of its own directory
    have hparent := parent_mem hnodes hdn
    obtain ⟨q, a, rfl⟩ := List.eq_nil_or_concat' d |>.resolve_left hdn
    rw [List.dropLast_concat] at hparent
    obtain ⟨hq, ha⟩ := isNode_snoc.mp hnode
    have hproper := proper_of_node hnames.proper hq
    have hown : a ∈ t.own q := (List.mem_filter.mp ha).1
    have hplace : q ++ [a] ∈ pre.map Prod.fst := by
      rw [h.places]
      exact List.mem_append_left _ (List.mem_flatMap.mpr ⟨q, hparent, List.mem_map_of_mem hown⟩)
    obtain ⟨qe, hqe, hfst⟩ := List.mem_map.mp hplace
    refine ⟨qe.2, by rw [← hfst]; exact hqe, ?_⟩
    obtain ⟨pre₁, post₁, hpre⟩ := List.append_of_mem hqe
    have hsplit' : t.placed depth = pre₁ ++ qe :: (post₁ ++ pe :: post) := by
      rw [hsplit, hpre, List.append_assoc]
      rfl
    obtain ⟨ds₁, d₁, before₁, name₁, h₁⟩ := placed_split hsplit'
    obtain ⟨first, hentry, -⟩ := h₁.entry
    obtain ⟨rfl, hname⟩ := List.append_inj' (hfst.symm.trans h₁.place) rfl
    obtain rfl := List.singleton_injective hname
    obtain ⟨sb, hstat, htype⟩ := ((mem_subnames hproper).mp ha).2.2.1
    rw [lstat_own hproper hown] at hstat
    obtain rfl := Except.ok.inj hstat
    rw [hentry]
    change t.kind _ _ = _
    simp [kind, htype, Stat.is_eq_false htype (by decide : S_IFDIR ≠ S_IFREG)]
  · intro pre pe post d' name' hsplit hplace hm
    obtain ⟨ds, d, before, name, h⟩ := placed_split hsplit
    obtain ⟨ds', hnodes⟩ := h.nodes
    obtain ⟨after, hown⟩ := h.own
    obtain ⟨rfl, hname⟩ := List.append_inj' (hplace.symm.trans h.place) rfl
    obtain rfl := List.singleton_injective hname
    rw [h.places, List.mem_append] at hm
    rcases hm with hm | hm
    · -- the directory comes once
      obtain ⟨q, hq, hm⟩ := List.mem_flatMap.mp hm
      obtain ⟨a, -, heq⟩ := List.mem_map.mp hm
      obtain ⟨rfl, -⟩ := List.append_inj' heq rfl
      have hnodup : (nodes t.subnames depth []).Nodup :=
        nodup_nodes fun d => (nodup_own hnames.proper).filter _
      rw [hnodes] at hnodup
      exact (List.nodup_append.mp hnodup).2.2 _ hq _ List.mem_cons_self rfl
    · -- the temporary name is behind the name
      obtain ⟨a, ha, heq⟩ := List.mem_map.mp hm
      obtain rfl := List.singleton_injective (List.append_cancel_left heq)
      have hsorted := pairwise_own (d := d') hnames.proper
      rw [hown] at hsorted
      have hlt := (List.pairwise_append.mp hsorted).2.2 _ ha _ List.mem_cons_self
      exact absurd hlt (List.not_lt.mpr List.le_append_left)
  · intro pre pe post hsplit
    obtain ⟨ds, d, before, name, h⟩ := placed_split hsplit
    obtain ⟨hnode, -, -⟩ := h.facts hnames
    have hproper := proper_of_node hnames.proper hnode
    obtain ⟨first, hentry, hfirst⟩ := h.entry
    have hrel : pe.2.relname = Hbackup.relname first (relpath pe.1) := by
      rw [hentry, h.place, ← localname_relpath hproper]
      rfl
    rcases hfirst with rfl | ⟨pre', qe, hpre, hqe, rfl⟩
    · left
      rw [hrel]
      rfl
    · right
      refine ⟨pre', qe, hpre, ?_, hrel⟩
      rw [hqe, h.place, List.dropLast_concat]

end Tree

end Hbackup
