import Hbackup.Equiv.Copy
import Hbackup.Filesystem

/-!
# `makedirs` makes what is missing

A path without superfluous slashes (`DirPath`) and the directories on the way to it.  `makedirs` asks for
them in their order, so that the parent of each is there when it is made, and in the end there are
those that were there and those on the way (`makedirs_makes_missing`).
-/

namespace Hbackup

open ProgramLogic

/-! ### Paths -/

/-- The text of a path. -/
def textOf (absolute : Bool) (comps : List Bytes) : Bytes :=
  (if absolute then lit "/" else []) ++ [47].intercalate comps

/-- The directories on the way, one for every component. -/
def way (absolute : Bool) (comps : List Bytes) : List Bytes := comps.inits.tail.map (textOf absolute)

/-- A path of nonempty components between single slashes. -/
structure DirPath where
  absolute : Bool
  comps : List Bytes
  nonempty : comps ≠ []
  names : ∀ c ∈ comps, c ≠ [] ∧ 47 ∉ c

namespace DirPath

def text (p : DirPath) : Bytes := textOf p.absolute p.comps

/-- The directories on the way to the path, and the path. -/
def prefixes (p : DirPath) : List Bytes := way p.absolute p.comps

end DirPath

theorem way_concat (absolute : Bool) (comps : List Bytes) (c : Bytes) :
    way absolute (comps ++ [c]) = way absolute comps ++ [textOf absolute (comps ++ [c])] := by
  have hne : comps.inits ≠ [] := by cases comps <;> simp
  have hone : [c].inits.tail.map (fun l => comps ++ l) = [comps ++ [c]] := rfl
  rw [way, way, List.inits_append, hone, List.tail_append_of_ne_nil hne, List.map_append]
  rfl

theorem textOf_concat {absolute : Bool} {comps : List Bytes} (hne : comps ≠ []) (c : Bytes) :
    textOf absolute (comps ++ [c]) = inDir (textOf absolute comps) c := by
  have hjoin : ∀ comps : List Bytes, comps ≠ [] →
      ([47] : Bytes).intercalate (comps ++ [c]) = [47].intercalate comps ++ (lit "/" ++ c) := by
    intro comps hne
    induction comps with
    | nil => exact absurd rfl hne
    | cons d comps ih =>
      cases comps with
      | nil => simp [List.intercalate_cons_cons, lit]
      | cons d' comps =>
        have hcons := ih (by simp)
        rw [List.cons_append, List.cons_append, List.intercalate_cons_cons,
          List.intercalate_cons_cons, ← List.cons_append, hcons]
        simp only [List.append_assoc]
  rw [textOf, textOf, hjoin comps hne, inDir, List.append_assoc, List.append_assoc]

theorem textOf_single (absolute : Bool) (c : Bytes) :
    textOf absolute [c] = if absolute then inDir [] c else c := by
  cases absolute <;> simp [textOf, inDir]

theorem textOf_ne_nil {absolute : Bool} {comps : List Bytes} (hne : comps ≠ [])
    (hnames : ∀ c ∈ comps, c ≠ [] ∧ 47 ∉ c) : textOf absolute comps ≠ [] := by
  cases comps with
  | nil => exact absurd rfl hne
  | cons c comps =>
    have hc := (hnames c List.mem_cons_self).1
    cases comps with
    | nil =>
      rw [textOf_single]
      split
      · simp [inDir]
      · exact hc
    | cons d comps => simp [textOf, List.intercalate_cons_cons, hc]

/-! ### What the loop looks at -/

/-- Behind the last slash there is none. -/
theorem parents_name {c : Bytes} (hc : 47 ∉ c) : parents c = [] := by
  apply List.filterMap_eq_nil_iff.mpr
  intro n _
  apply if_neg
  rintro ⟨-, hn⟩
  exact hc (List.mem_of_getElem? hn)

theorem parents_inDir {t c : Bytes} (ht : t ≠ []) (hc : 47 ∉ c) :
    parents (inDir t c) = parents t ++ [t] := by
  have hpath : inDir t c = t ++ 47 :: c := by
    rw [inDir, lit_slash, List.append_assoc]
    rfl
  have hlen : (t ++ 47 :: c).length = t.length + (1 + c.length) := by
    rw [List.length_append, List.length_cons, Nat.add_comm 1]
  rw [hpath, parents, hlen, List.range_add, List.filterMap_append]
  congr 1
  · -- before the last slash
    apply List.filterMap_congr
    intro n hn
    have hn := List.mem_range.mp hn
    rw [List.getElem?_append_left hn, List.take_append_of_le_length hn.le]
  · -- the last slash, and nothing behind it
    have hpos : 1 ≤ t.length := List.length_pos_iff.mpr ht
    rw [List.range_add, List.map_append, List.filterMap_append]
    have hself : t.length + 0 = t.length := rfl
    have hslash : (t ++ 47 :: c)[t.length]? = some 47 := by simp
    have hrest : ((List.range c.length).map (1 + ·) |>.map (t.length + ·)).filterMap (fun n =>
        if 1 ≤ n ∧ (t ++ 47 :: c)[n]? = some 47 then some ((t ++ 47 :: c).take n) else none) = [] := by
      apply List.filterMap_eq_nil_iff.mpr
      intro n hn
      obtain ⟨m, hm, rfl⟩ := List.mem_map.mp hn
      obtain ⟨k, -, rfl⟩ := List.mem_map.mp hm
      apply if_neg
      rintro ⟨-, hk⟩
      rw [List.getElem?_append_right (by omega), Nat.add_sub_cancel_left, Nat.add_comm 1,
        List.getElem?_cons_succ] at hk
      exact hc (List.mem_of_getElem? hk)
    rw [hrest, List.append_nil]
    change List.filterMap _ [t.length + 0] = [t]
    rw [hself, List.filterMap_cons, if_pos ⟨hpos, hslash⟩, List.take_left]
    rfl

/-- The loop of `makedirs` looks at all that is on the way before the path itself. -/
theorem parents_textOf {absolute : Bool} {comps : List Bytes} {c : Bytes}
    (hnames : ∀ d ∈ comps ++ [c], d ≠ [] ∧ 47 ∉ d) :
    parents (textOf absolute (comps ++ [c])) = way absolute comps := by
  induction comps using List.reverseRecOn generalizing c with
  | nil =>
    have hc := (hnames c (by simp)).2
    rw [List.nil_append, textOf_single]
    split
    · rw [inDir, List.nil_append, lit_slash]
      apply List.filterMap_eq_nil_iff.mpr
      intro n _
      apply if_neg
      rintro ⟨hpos, hn⟩
      rw [List.getElem?_append_right hpos] at hn
      exact hc (List.mem_of_getElem? hn)
    · exact parents_name hc
  | append_singleton comps d ih =>
    have hhead : ∀ e ∈ comps ++ [d], e ≠ [] ∧ 47 ∉ e := fun e he =>
      hnames e (List.mem_append_left _ he)
    have hc := (hnames c (by simp)).2
    rw [textOf_concat (by simp), parents_inDir (textOf_ne_nil (by simp) hhead) hc, ih hhead,
      way_concat]

/-! ### What there is in the end -/

namespace Store

/-- Every directory is in another one. -/
def Closed (s : Store) : Prop := ∀ q, s.lookup q = some .dir → s.hasParent q = true

theorem lookup_addDir (s : Store) (d q : Bytes) :
    (s.addDir d).lookup q = (s.lookup q).or (if q = d then some .dir else none) := by
  unfold addDir
  by_cases hq : q = d
  · subst hq
    rw [if_pos rfl]
    cases h : s.lookup q with
    | some n => rw [if_pos (by rfl), h]; rfl
    | none => rw [if_neg (by simp), AList.lookup_insert]; rfl
  · rw [if_neg hq, Option.or_none]
    split
    · rfl
    · exact AList.lookup_insert_ne hq

theorem lookup_addDirs (s : Store) (ds : List Bytes) (q : Bytes) :
    (ds.foldl addDir s).lookup q = (s.lookup q).or (if q ∈ ds then some .dir else none) := by
  induction ds generalizing s with
  | nil => rw [List.foldl_nil, if_neg List.not_mem_nil, Option.or_none]
  | cons d ds ih =>
    rw [List.foldl_cons, ih, lookup_addDir, Option.or_assoc]
    congr 1
    by_cases hq : q = d
    · simp [hq]
    · simp [hq]

/-- Nothing but a directory, if anything, has the name. -/
def Free (s : Store) (d : Bytes) : Prop := s.lookup d = none ∨ s.lookup d = some .dir

theorem Free.addDirs {s : Store} {d : Bytes} (h : s.Free d) (ds : List Bytes) :
    (ds.foldl addDir s).Free d := by
  unfold Free at h ⊢
  rw [lookup_addDirs]
  rcases h with hnone | hdir
  · rw [hnone, Option.none_or]
    split
    · exact .inr rfl
    · exact .inl rfl
  · right
    rw [hdir]
    rfl

theorem Free.lookup_addDirs_of_mem {s : Store} {d : Bytes} (h : s.Free d) {ds : List Bytes}
    (hd : d ∈ ds) : (ds.foldl addDir s).lookup d = some .dir := by
  rw [lookup_addDirs, if_pos hd]
  rcases h with hnone | hdir
  · rw [hnone]
    rfl
  · rw [hdir]
    rfl

theorem hasParent_textOf {s : Store} {absolute : Bool} {comps : List Bytes} {c : Bytes} (hc : 47 ∉ c)
    (hparent : comps = [] ∨ s.lookup (textOf absolute comps) = some .dir) :
    s.hasParent (textOf absolute (comps ++ [c])) = true := by
  by_cases hne : comps = []
  · rw [hne, List.nil_append, textOf_single]
    cases absolute with
    | true =>
      rw [if_pos rfl, hasParent, dirname_inDir hc]
      rfl
    | false =>
      have hnone : c.reverse.idxOf? 47 = none := by
        rw [List.idxOf?_eq_none_iff, List.mem_reverse]
        exact hc
      have hroot : dirname c = none := by
        unfold dirname
        rw [hnone]
        rfl
      rw [if_neg (by simp), hasParent, hroot]
  · rw [textOf_concat hne, hasParent, dirname_inDir hc]
    simp [hparent.resolve_left hne]

/-- In a closed store, what is on the way to a directory is one too. -/
theorem Closed.way {s : Store} (h : s.Closed) {absolute : Bool} {comps : List Bytes}
    (hnames : ∀ c ∈ comps, c ≠ [] ∧ 47 ∉ c)
    (hdir : comps = [] ∨ s.lookup (textOf absolute comps) = some .dir) :
    ∀ d ∈ way absolute comps, s.lookup d = some .dir := by
  induction comps using List.reverseRecOn with
  | nil => simp [Hbackup.way]
  | append_singleton comps c ih =>
    have hdir := hdir.resolve_left (by simp)
    have hhead : ∀ d ∈ comps, d ≠ [] ∧ 47 ∉ d := fun d hd => hnames d (List.mem_append_left _ hd)
    have hup : comps = [] ∨ s.lookup (textOf absolute comps) = some .dir := by
      by_cases hne : comps = []
      · exact .inl hne
      · right
        have hparent := h _ hdir
        rw [textOf_concat hne, hasParent, dirname_inDir (hnames c (by simp)).2] at hparent
        simpa [textOf_ne_nil hne hhead] using hparent
    intro d hd
    rw [way_concat, List.mem_append, List.mem_singleton] at hd
    rcases hd with hd | rfl
    · exact ih hhead hup d hd
    · exact hdir

/-! ### Runs -/

theorem mkdir_run {s : Store} {d : Bytes} (hparent : s.hasParent d = true)
    (habsent : s.lookup d = none) : mkdir d s = .ok () (s.addDir d) := by
  have hrun : wp (mkdir d) (fun _ s' => s' = s.addDir d) (fun _ _ => False) s := by
    rw [mkdir, wp_bind, wp_get, wp_ite, if_neg (by simp [hparent]), wp_ite, if_neg (by simp [habsent]),
      wp_set, addDir, if_neg (by simp [habsent])]
  obtain ⟨_, s', hok, rfl⟩ := wp_returns hrun
  exact hok

theorem exists_run (s : Store) (d : Bytes) : exists_ d s = .ok (s.lookup d).isSome s := rfl

/-- One turn of the loop. -/
theorem ensure_run {s : Store} {d : Bytes} (hparent : s.hasParent d = true) (hfree : s.Free d) :
    (exists_ d >>= fun found => if found then return else mkdir d) s = .ok () (s.addDir d) := by
  rw [bind_of_ok (exists_run s d)]
  rcases hfree with hnone | hdir
  · rw [hnone, if_neg (by simp)]
    exact mkdir_run hparent hnone
  · rw [hdir, if_pos (by rfl), addDir, if_pos (by rw [hdir]; rfl)]
    rfl

theorem forM_concat {f : Bytes → EStateM Errno Store Unit} {l : List Bytes} {x : Bytes}
    {s s' : Store} (h : l.forM f s = .ok () s') : (l ++ [x]).forM f s = f x s' := by
  have happend : (l ++ [x]).forM f = l.forM f >>= fun _ => [x].forM f := List.forM_append
  have hone : [x].forM f = f x := bind_pure _
  rw [happend, bind_of_ok h, hone]

/-- The loop: each directory is made, if need be, in the one before it. -/
theorem way_run {absolute : Bool} {comps : List Bytes} (hnames : ∀ c ∈ comps, c ≠ [] ∧ 47 ∉ c)
    {s : Store} (hfree : ∀ d ∈ way absolute comps, s.Free d) :
    (way absolute comps).forM (fun d => exists_ d >>= fun found => if found then return else mkdir d)
      s = .ok () ((way absolute comps).foldl addDir s) := by
  induction comps using List.reverseRecOn with
  | nil => rfl
  | append_singleton comps c ih =>
    rw [way_concat] at hfree ⊢
    have hloop := ih (fun d hd => hnames d (List.mem_append_left _ hd)) fun d hd =>
      hfree d (List.mem_append_left _ hd)
    rw [forM_concat hloop, List.foldl_append]
    have hparent : comps = [] ∨
        ((way absolute comps).foldl addDir s).lookup (textOf absolute comps) = some .dir := by
      rcases List.eq_nil_or_concat' comps with hnil | ⟨rest, d, hcomps⟩
      · exact .inl hnil
      · have hmem : textOf absolute comps ∈ way absolute comps := by
          rw [hcomps, way_concat]
          simp
        exact .inr ((hfree _ (List.mem_append_left _ hmem)).lookup_addDirs_of_mem hmem)
    have hturn := ensure_run (hasParent_textOf (hnames c (by simp)).2 hparent)
      ((hfree (textOf absolute (comps ++ [c])) (by simp)).addDirs (way absolute comps))
    exact hturn

end Store

/-- All of a run: what is on the way is there in the end, and nothing else has changed. -/
theorem makedirs_run (p : DirPath) {s : Store} (hclosed : s.Closed)
    (hfree : ∀ d ∈ p.prefixes, s.Free d) :
    ∃ s', Filesystem.makedirs Store.exists_ Store.mkdir p.text s = .ok () s' ∧
      ∀ q, s'.lookup q = (s.lookup q).or (if q ∈ p.prefixes then some .dir else none) := by
  obtain ⟨absolute, comps, hne, hnames⟩ := p
  obtain ⟨rest, c, rfl⟩ := (List.eq_nil_or_concat' comps).resolve_left hne
  change ∀ d ∈ way absolute (rest ++ [c]), s.Free d at hfree
  change ∃ s', Filesystem.makedirs Store.exists_ Store.mkdir (textOf absolute (rest ++ [c])) s =
    .ok () s' ∧ ∀ q, s'.lookup q = (s.lookup q).or
      (if q ∈ way absolute (rest ++ [c]) then some .dir else none)
  have hself : textOf absolute (rest ++ [c]) ∈ way absolute (rest ++ [c]) := by
    rw [way_concat]
    simp
  rw [Filesystem.makedirs, bind_of_ok (Store.exists_run s _)]
  rcases hfree _ hself with habsent | hthere
  · -- nothing of this name: the loop, and then the path itself
    have habove : ∀ d ∈ way absolute rest, s.Free d := by
      intro d hd
      apply hfree
      rw [way_concat]
      exact List.mem_append_left _ hd
    have hloop := Store.way_run (fun d hd => hnames d (List.mem_append_left _ hd)) habove
    rw [habsent, if_neg (by simp), parents_textOf hnames, bind_of_ok hloop]
    have hnew : textOf absolute (rest ++ [c]) ∉ way absolute rest := by
      rw [← parents_textOf hnames]
      intro hmem
      exact absurd (length_of_mem_parents hmem) (lt_irrefl _)
    have habsent' : ((way absolute rest).foldl Store.addDir s).lookup (textOf absolute (rest ++ [c])) =
        none := by
      rw [Store.lookup_addDirs, habsent, if_neg hnew]
      rfl
    have hparent : rest = [] ∨
        ((way absolute rest).foldl Store.addDir s).lookup (textOf absolute rest) = some .dir := by
      rcases List.eq_nil_or_concat' rest with hnil | ⟨above, d, hrest⟩
      · exact .inl hnil
      · have hmem : textOf absolute rest ∈ way absolute rest := by
          rw [hrest, way_concat]
          simp
        exact .inr ((habove _ hmem).lookup_addDirs_of_mem hmem)
    refine ⟨_, Store.mkdir_run (Store.hasParent_textOf (hnames c (by simp)).2 hparent) habsent', ?_⟩
    intro q
    have hall := Store.lookup_addDirs s (way absolute (rest ++ [c])) q
    rw [way_concat, List.foldl_append] at hall
    rw [way_concat]
    exact hall
  · -- the path is there, and so is all above it
    rw [hthere, if_pos (by rfl)]
    refine ⟨s, rfl, ?_⟩
    intro q
    split
    · rename_i hq
      rw [hclosed.way hnames (.inr hthere) q hq]
      rfl
    · rw [Option.or_none]

/-- **`makedirs` makes what is missing**, and nothing else.  It returns, so that it has not tried to make
a directory that is there already or one whose parent is missing; and called again it finds
nothing to do. -/
theorem makedirs_makes_missing (p : DirPath) (s : Store) (hclosed : s.Closed)
    (hfree : ∀ d ∈ p.prefixes, s.lookup d = none ∨ s.lookup d = some .dir) :
    ∃ s', Filesystem.makedirs Store.exists_ Store.mkdir p.text s = .ok () s' ∧
      (∀ q, s'.lookup q = some .dir ↔ s.lookup q = some .dir ∨ q ∈ p.prefixes) ∧
      (∀ q n, n ≠ .dir → (s'.lookup q = some n ↔ s.lookup q = some n)) ∧
      Filesystem.makedirs Store.exists_ Store.mkdir p.text s' = .ok () s' := by
  obtain ⟨s', hrun, hlookup⟩ := makedirs_run p hclosed hfree
  have hself : p.text ∈ p.prefixes := by
    obtain ⟨rest, c, hcomps⟩ := (List.eq_nil_or_concat' p.comps).resolve_left p.nonempty
    rw [DirPath.text, DirPath.prefixes, hcomps, way_concat]
    simp
  have hdirs : ∀ q, s'.lookup q = some .dir ↔ s.lookup q = some .dir ∨ q ∈ p.prefixes := by
    intro q
    rw [hlookup]
    by_cases hq : q ∈ p.prefixes
    · rw [if_pos hq]
      rcases hfree q hq with hnone | hdir
      · rw [hnone]
        simp [hq]
      · rw [hdir]
        simp
    · rw [if_neg hq, Option.or_none]
      simp [hq]
  refine ⟨s', hrun, hdirs, ?_, ?_⟩
  · intro q n hn
    rw [hlookup]
    split
    · cases s.lookup q with
      | some m => rfl
      | none => simp [Ne.symm hn]
    · rw [Option.or_none]
  · rw [Filesystem.makedirs, bind_of_ok (Store.exists_run s' _), (hdirs p.text).mpr (.inr hself)]
    rfl

/-- A store with part of the way to `/a/b/c`, and a file beside it. -/
def partOfTheWay : Store :=
  [⟨lit "/a", .dir⟩, ⟨lit "/a/f", .file (lit "x")⟩].toAList

theorem makedirs_makes_two : ∃ s',
    Filesystem.makedirs Store.exists_ Store.mkdir (lit "/a/b/c") partOfTheWay = .ok () s' ∧
    (∀ q, s'.lookup q = some .dir ↔
      partOfTheWay.lookup q = some .dir ∨ q ∈ [lit "/a", lit "/a/b", lit "/a/b/c"]) ∧
    (∀ q n, n ≠ .dir → (s'.lookup q = some n ↔ partOfTheWay.lookup q = some n)) ∧
    Filesystem.makedirs Store.exists_ Store.mkdir (lit "/a/b/c") s' = .ok () s' := by
  refine makedirs_makes_missing ⟨true, [lit "a", lit "b", lit "c"], by simp, by decide⟩ partOfTheWay
    ?_ (by decide +kernel)
  have hclosed : ∀ q ∈ partOfTheWay.keys, partOfTheWay.hasParent q = true := by decide +kernel
  exact fun q hq => hclosed q (AList.mem_keys.mp (AList.lookup_isSome.mp (by rw [hq]; rfl)))

end Hbackup
