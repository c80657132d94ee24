import Mathlib.Data.List.TakeWhile
import Hbackup.Equiv.Paths
import Hbackup.Hostfs

/-!
# Names and inodes

What the calls on a `Target` leave.  A call that gives something the name `path` leaves all other names
as they are, and all other inodes but for the times of directories (`Named`); so does what is then done
to it under that name, and once it is renamed it is as if it had been made under the new name from the
start (`rename_spec`).
-/

namespace Hbackup

/-! ### Components -/

theorem cstr_eq {s : Bytes} (h : 0 ∉ s) : cstr s = s :=
  List.takeWhile_eq_self_iff.mpr fun c hc => by
    have hne : c ≠ 0 := fun e => h (e ▸ hc)
    simpa using hne

/-- The components of a path are those before a `/` and those behind it. -/
theorem components_slash {a b : Bytes} (ha : 0 ∉ a) (hb : 0 ∉ b) :
    components (a ++ 47 :: b) = components a ++ components b := by
  have h : 0 ∉ a ++ 47 :: b := by simp [ha, hb]
  unfold components
  rw [cstr_eq h, cstr_eq ha, cstr_eq hb, List.splitOn_append_cons_self, List.filter_append]

/-- What can be a component. -/
def IsComponent (name : Bytes) : Prop := 0 ∉ name ∧ 47 ∉ name ∧ name ≠ [] ∧ name ≠ lit "."

theorem components_self {name : Bytes} (h : IsComponent name) : components name = [name] := by
  obtain ⟨h0, hslash, hne, hdot⟩ := h
  unfold components
  rw [cstr_eq h0, List.splitOn_eq_singleton hslash, List.filter_cons_of_pos (by simp [hne, hdot]),
    List.filter_nil]

/-- The components of a text without a `/`: itself, or none. -/
theorem components_of_slash_not_mem {name : Bytes} (h0 : 0 ∉ name) (hslash : 47 ∉ name) :
    components name = [name] ∨ components name = [] := by
  by_cases h : name ≠ [] ∧ name ≠ lit "."
  · exact .inl (components_self ⟨h0, hslash, h⟩)
  · right
    unfold components
    rw [cstr_eq h0, List.splitOn_eq_singleton hslash, List.filter_cons_of_neg (by simpa using h),
      List.filter_nil]

/-- The last `/`. -/
theorem eq_append_slash {path : Bytes} (h : 47 ∈ path) :
    ∃ pre last, path = pre ++ 47 :: last ∧ 47 ∉ last := by
  obtain ⟨a, b, hab, ha⟩ := List.eq_append_cons_of_mem (List.mem_reverse.mpr h)
  refine ⟨b.reverse, a.reverse, ?_, by simpa using ha⟩
  rw [← List.reverse_reverse path, hab]
  simp

/-- **A temporary name** is in the directory of the final one, or in what has the final one. -/
theorem components_tmp {path suffix : Bytes} (h0 : 0 ∉ path) (hslash : 47 ∈ path)
    (hsuffix : ∀ last, 0 ∉ last → 47 ∉ last → IsComponent (last ++ suffix)) :
    ∃ p last, components (path ++ suffix) = p ++ [last ++ suffix] ∧
      (components path = p ++ [last] ∨ components path = p) := by
  obtain ⟨pre, last, rfl, hlast⟩ := eq_append_slash hslash
  have hpre0 : 0 ∉ pre := fun h => h0 (by simp [h])
  have hlast0 : 0 ∉ last := fun h => h0 (by simp [h])
  have hcomponent := hsuffix last hlast0 hlast
  refine ⟨components pre, last, ?_, ?_⟩
  · rw [List.append_assoc, List.cons_append, components_slash hpre0 hcomponent.1,
      components_self hcomponent]
  · rw [components_slash hpre0 hlast0]
    rcases components_of_slash_not_mem hlast0 hlast with h | h
    · exact .inl (by rw [h])
    · exact .inr (by rw [h, List.append_nil])

/-! ### Inodes -/

/-- The inode is the same, but for the times of a directory. -/
def Inode.Alike (ino ino' : Inode) : Prop :=
  ino' = ino ∨ ino.body = .dir ∧ ino' = { ino with atime := ino'.atime, mtime := ino'.mtime }

namespace Inode.Alike

variable {ino ino' ino'' : Inode}

theorem refl (ino : Inode) : ino.Alike ino := .inl rfl

theorem body (h : ino.Alike ino') : ino'.body = ino.body := by
  rcases h with rfl | ⟨-, h⟩
  · rfl
  · rw [h]

theorem mode (h : ino.Alike ino') : ino'.mode = ino.mode := by
  rcases h with rfl | ⟨-, h⟩
  · rfl
  · rw [h]

theorem uid (h : ino.Alike ino') : ino'.uid = ino.uid := by
  rcases h with rfl | ⟨-, h⟩
  · rfl
  · rw [h]

theorem gid (h : ino.Alike ino') : ino'.gid = ino.gid := by
  rcases h with rfl | ⟨-, h⟩
  · rfl
  · rw [h]

theorem eq_of_ne_dir (h : ino.Alike ino') (hne : ino.body ≠ .dir) : ino' = ino :=
  h.resolve_right fun hdir => hne hdir.1

theorem trans (h : ino.Alike ino') (h' : ino'.Alike ino'') : ino.Alike ino'' := by
  rcases h' with rfl | ⟨hdir', h'⟩
  · exact h
  rcases h with rfl | ⟨hdir, h⟩
  · exact .inr ⟨hdir', h'⟩
  · -- only the times have changed, twice
    have heq : ino'' = { ino with atime := ino''.atime, mtime := ino''.mtime } := by
      rw [h', h]
    exact .inr ⟨hdir, heq⟩

end Inode.Alike

namespace Target

variable {t t' t'' : Target} {path oldpath newpath q : List Bytes} {i j : Nat} {ino : Inode}
  {now : Int64}

/-- The inode `i` is the same, but for the times of a directory. -/
def SameInode (t t' : Target) (i : Nat) : Prop :=
  ∀ ino, t.inodes[i]? = some ino → ∃ ino', t'.inodes[i]? = some ino' ∧ ino.Alike ino'

theorem SameInode.refl (t : Target) (i : Nat) : t.SameInode t i :=
  fun ino h => ⟨ino, h, .refl ino⟩

theorem SameInode.trans (h : t.SameInode t' i) (h' : t'.SameInode t'' i) : t.SameInode t'' i := by
  intro ino hino
  obtain ⟨ino', hino', halike⟩ := h ino hino
  obtain ⟨ino'', hino'', halike'⟩ := h' ino' hino'
  exact ⟨ino'', hino'', halike.trans halike'⟩

theorem SameInode.of_inodes (h : t'.inodes[i]? = t.inodes[i]?) : t.SameInode t' i :=
  fun ino hino => ⟨ino, h.trans hino, .refl ino⟩

/-! ### Updates -/

@[simp] theorem update_names (f : Inode → Inode) : (t.update i f).names = t.names := rfl

theorem getElem?_update (f : Inode → Inode) :
    (t.update i f).inodes[j]? = if j = i then t.inodes[j]?.map f else t.inodes[j]? := by
  unfold update
  rw [List.getElem?_modify]
  by_cases h : i = j
  · simp [h]
  · have hne : j ≠ i := fun e => h e.symm
    simp [h, hne]

theorem getElem?_update_ne (f : Inode → Inode) (h : j ≠ i) :
    (t.update i f).inodes[j]? = t.inodes[j]? := by
  rw [getElem?_update, if_neg h]

theorem getElem?_update_self (f : Inode → Inode) (h : t.inodes[i]? = some ino) :
    (t.update i f).inodes[i]? = some (f ino) := by
  rw [getElem?_update, if_pos rfl, h, Option.map_some]

/-! ### Directories -/

/-- A directory that has a name. -/
theorem isDir_iff (hne : path ≠ []) : t.isDir path = true ↔
    ∃ i ino, t.names.lookup path = some i ∧ t.inodes[i]? = some ino ∧ ino.body = .dir := by
  unfold isDir get
  rw [decide_eq_false hne, Bool.false_or]
  cases hl : t.names.lookup path with
  | none => simp
  | some i =>
    rw [Option.bind_some]
    cases hi : t.inodes[i]? with
    | none => simp [hi]
    | some ino => simp [hi]

@[simp] theorem isDir_nil : t.isDir [] = true := rfl

theorem isDir_congr (hn : t'.names.lookup path = t.names.lookup path)
    (hi : ∀ i, t.names.lookup path = some i → t.SameInode t' i) (h : t.isDir path = true) :
    t'.isDir path = true := by
  by_cases hne : path = []
  · rw [hne, isDir_nil]
  obtain ⟨i, ino, hlookup, hino, hbody⟩ := (isDir_iff hne).mp h
  obtain ⟨ino', hino', halike⟩ := hi i hlookup ino hino
  exact (isDir_iff hne).mpr ⟨i, ino', hn.trans hlookup, hino', halike.body.trans hbody⟩

theorem mem_children {dir : List Bytes} : q ∈ t.children dir ↔
    (t.names.lookup q).isSome ∧ q ≠ [] ∧ q.dropLast = dir := by
  unfold children
  rw [List.mem_filter, AList.lookup_isSome, AList.mem_keys]
  simp

/-- Names have inodes, and are in directories. -/
structure Ok (t : Target) : Prop where
  start : t.names.lookup [] = none
  inode : ∀ {path i}, t.names.lookup path = some i → i < t.inodes.length
  parent : ∀ {path}, (t.names.lookup path).isSome → t.isDir path.dropLast

theorem Ok.ne_nil (h : t.Ok) (hi : t.names.lookup path = some i) : path ≠ [] := by
  intro e
  rw [e, h.start] at hi
  cases hi

/-- There is nothing in what is not a directory. -/
theorem Ok.children_eq_nil (h : t.Ok) (hdir : t.isDir path = false) : t.children path = [] := by
  rw [List.eq_nil_iff_forall_not_mem]
  intro q hq
  obtain ⟨hsome, -, rfl⟩ := mem_children.mp hq
  have hparent := h.parent hsome
  rw [hdir] at hparent
  cases hparent

theorem isDir_eq_false (hne : path ≠ []) (hnone : t.names.lookup path = none) :
    t.isDir path = false := by
  rw [← Bool.not_eq_true, isDir_iff hne]
  rintro ⟨i, -, hi, -⟩
  rw [hnone] at hi
  cases hi

theorem dropLast_ne (hne : path ≠ []) : path.dropLast ≠ path := by
  intro e
  have hlen : path.dropLast.length = path.length - 1 := List.length_dropLast
  have hpos : 0 < path.length := List.length_pos_iff.mpr hne
  rw [e] at hlen
  omega

/-! ### Times of directories -/

@[simp] theorem touch_names : (t.touch now path).names = t.names := by
  unfold touch
  split <;> rfl

/-- A change of `path` shows in the times of its directory. -/
theorem sameInode_touch (hstart : t.names.lookup [] = none) (hparent : t.hasParent path = true)
    (i : Nat) : t.SameInode (t.touch now path) i := by
  unfold touch
  cases hn : t.names.lookup path.dropLast with
  | none => exact .refl t i
  | some n =>
    have hne : path.dropLast ≠ [] := by
      intro e
      rw [e, hstart] at hn
      cases hn
    obtain ⟨m, dir, hm, hdir, hbody⟩ := (isDir_iff hne).mp hparent
    obtain rfl : n = m := Option.some.inj (hn.symm.trans hm)
    intro ino hino
    by_cases hi : i = n
    · subst hi
      obtain rfl : dir = ino := Option.some.inj (hdir.symm.trans hino)
      exact ⟨_, getElem?_update_self _ hino, .inr ⟨hbody, rfl⟩⟩
    · exact ⟨ino, (getElem?_update_ne _ hi).trans hino, .refl ino⟩

/-- Other inodes are left as they are. -/
theorem getElem?_touch (h : t.names.lookup path.dropLast ≠ some i) :
    (t.touch now path).inodes[i]? = t.inodes[i]? := by
  unfold touch
  split
  · rename_i n hn
    exact getElem?_update_ne _ fun e => h (e ▸ hn)
  · rfl

/-! ### New names -/

/-- The name `path` is that of the inode `i`, and nothing else has changed. -/
structure Named (t t' : Target) (path : List Bytes) (i : Nat) : Prop where
  names : ∀ q, t'.names.lookup q = if q = path then some i else t.names.lookup q
  old : ∀ j < t.inodes.length, t.SameInode t' j

theorem Named.lookup_ne (h : t.Named t' path i) (hne : q ≠ path) :
    t'.names.lookup q = t.names.lookup q := by
  rw [h.names, if_neg hne]

theorem Named.lookup_self (h : t.Named t' path i) : t'.names.lookup path = some i := by
  rw [h.names, if_pos rfl]

/-- A directory of another name is still one. -/
theorem Named.isDir (h : t.Named t' path i) (ht : t.Ok) (hne : q ≠ path) (hdir : t.isDir q = true) :
    t'.isDir q = true :=
  isDir_congr (h.lookup_ne hne) (fun _ hj => h.old _ (ht.inode hj)) hdir

/-- Something that changes no names and none of the old inodes. -/
theorem Named.step (h : t.Named t' path i) (hnames : ∀ q, t''.names.lookup q = t'.names.lookup q)
    (hold : ∀ j < t.inodes.length, t'.SameInode t'' j) : t.Named t'' path i where
  names q := (hnames q).trans (h.names q)
  old j hj := (h.old j hj).trans (hold j hj)

/-- **The tree stays one** if nothing was in what had the name. -/
theorem Named.ok (h : t.Named t' path i) (ht : t.Ok) (hne : path ≠ [])
    (hino : (t'.inodes[i]?).isSome) (hparent : t.hasParent path = true)
    (hempty : t.children path = []) : t'.Ok := by
  have hdir : ∀ q, (t.names.lookup q).isSome ∨ q = path → q.dropLast ≠ path := by
    rintro q (hsome | rfl) heq
    · have hq : q ∈ t.children path := by
        refine mem_children.mpr ⟨hsome, ?_, heq⟩
        rintro rfl
        rw [ht.start] at hsome
        cases hsome
      rw [hempty] at hq
      cases hq
    · exact dropLast_ne hne heq
  constructor
  · rw [h.lookup_ne (Ne.symm hne), ht.start]
  · intro q j hj
    rw [h.names] at hj
    split_ifs at hj with hq
    · obtain rfl := Option.some.inj hj
      obtain ⟨ino, hino⟩ := Option.isSome_iff_exists.mp hino
      exact (List.getElem?_eq_some_iff.mp hino).1
    · obtain ⟨ino, hino⟩ : ∃ ino, t.inodes[j]? = some ino :=
        ⟨_, List.getElem?_eq_getElem (ht.inode hj)⟩
      obtain ⟨ino', hino', -⟩ := h.old j (ht.inode hj) ino hino
      exact (List.getElem?_eq_some_iff.mp hino').1
  · intro q hsome
    by_cases hq : q = path
    · subst hq
      exact h.isDir ht (hdir q (.inr rfl)) hparent
    · rw [h.lookup_ne hq] at hsome
      exact h.isDir ht (hdir q (.inl hsome)) (ht.parent hsome)

/-! ### Making things -/

/-- **Something new.** -/
theorem create_spec (h : t.create now path ino = .ok t') (ht : t.Ok) :
    path ≠ [] ∧ t.hasParent path = true ∧ t.names.lookup path = none ∧
      t.Named t' path t.inodes.length ∧ t'.inodes[t.inodes.length]? = some ino := by
  unfold create at h
  cases hparent : t.hasParent path with
  | false => simp [hparent] at h
  | true =>
    rw [hparent, if_neg (by simp)] at h
    split at h
    · cases h
    rename_i hnew
    obtain ⟨hne, hnone⟩ := not_or.mp hnew
    have hnone : t.names.lookup path = none := by simpa using hnone
    obtain rfl := Except.ok.inj h
    set t₁ : Target :=
      { names := t.names.insert path t.inodes.length, inodes := t.inodes ++ [ino] } with ht₁
    have hnames : ∀ q, t₁.names.lookup q =
        if q = path then some t.inodes.length else t.names.lookup q := by
      intro q
      by_cases hq : q = path
      · rw [if_pos hq, hq]
        exact AList.lookup_insert _
      · rw [if_neg hq]
        exact AList.lookup_insert_ne hq
    have hnamed : t.Named t₁ path t.inodes.length :=
      ⟨hnames, fun j hj => .of_inodes (List.getElem?_append_left hj)⟩
    have hdir : t₁.hasParent path = true := hnamed.isDir ht (dropLast_ne hne) hparent
    have hstart : t₁.names.lookup [] = none := by rw [hnames, if_neg (Ne.symm hne), ht.start]
    refine ⟨hne, rfl, hnone, hnamed.step (fun q => by rw [touch_names]) fun j _ => ?_, ?_⟩
    · exact sameInode_touch hstart hdir j
    · -- the directory is an old inode
      have hold : t₁.names.lookup path.dropLast ≠ some t.inodes.length := by
        rw [hnamed.lookup_ne (dropLast_ne hne)]
        intro e
        have := ht.inode e
        omega
      rw [getElem?_touch hold, ht₁]
      simp

theorem create_ok (now : Int64) (ino : Inode) (hne : path ≠ [])
    (hparent : t.hasParent path = true) (hnone : t.names.lookup path = none) : ∃ t', t.create now path ino = .ok t' := by
  unfold create
  rw [hparent, if_neg (by simp), hnone, if_neg (by simpa using hne)]
  exact ⟨_, rfl⟩

/-- **A name is taken away.** -/
theorem remove_spec (h : t.remove now path = .ok t') (ht : t.Ok) :
    (∀ q, t'.names.lookup q = if q = path then none else t.names.lookup q) ∧
      (∀ j, t.SameInode t' j) ∧ t'.inodes.length = t.inodes.length ∧ t'.Ok := by
  unfold remove at h
  split at h
  · cases h
  rename_i hsome
  have hsome : (t.names.lookup path).isSome := by
    cases hl : t.names.lookup path with
    | none => simp [hl] at hsome
    | some i => rfl
  split at h
  · cases h
  rename_i hleaf
  obtain rfl := Except.ok.inj h
  have hempty : t.children path = [] := by
    cases hdir : t.isDir path with
    | true => simpa [hdir] using hleaf
    | false => exact ht.children_eq_nil hdir
  set t₁ : Target := { t with names := t.names.erase path }
  have hnames : ∀ q, t₁.names.lookup q = if q = path then none else t.names.lookup q := by
    intro q
    by_cases hq : q = path
    · rw [if_pos hq, hq]
      exact AList.lookup_erase _ _
    · rw [if_neg hq]
      exact AList.lookup_erase_ne hq
  obtain ⟨i, hi⟩ := Option.isSome_iff_exists.mp hsome
  have hne := ht.ne_nil hi
  have hdir₁ : ∀ q, q ≠ path → t.isDir q = true → t₁.isDir q = true := fun q hq hdir =>
    isDir_congr (by rw [hnames, if_neg hq]) (fun j _ => .refl t j) hdir
  have hstart : t₁.names.lookup [] = none := by rw [hnames, if_neg (Ne.symm hne), ht.start]
  have hsame : ∀ j, t₁.SameInode (t₁.touch now path) j :=
    sameInode_touch hstart (hdir₁ _ (dropLast_ne hne) (ht.parent hsome))
  have hlen : (t₁.touch now path).inodes.length = t.inodes.length := by
    unfold touch
    split
    · exact List.length_modify _ _ _
    · rfl
  refine ⟨fun q => by rw [touch_names, hnames], hsame, hlen, ?_, fun hq => ?_, fun hq => ?_⟩
  · rw [touch_names, hstart]
  · rw [touch_names, hnames] at hq
    split_ifs at hq
    rw [hlen]
    exact ht.inode hq
  · rename_i q
    rw [touch_names, hnames] at hq
    split_ifs at hq with hqp
    · cases hq
    -- nothing was in what has been removed
    have hout : q.dropLast ≠ path := by
      intro e
      have hm : q ∈ t.children path := by
        refine mem_children.mpr ⟨hq, ?_, e⟩
        rintro rfl
        rw [ht.start] at hq
        cases hq
      rw [hempty] at hm
      cases hm
    exact isDir_congr (by rw [touch_names]) (fun j _ => hsame j) (hdir₁ _ hout (ht.parent hq))

/-- What cannot be removed is not there, or is a directory with something in it. -/
theorem remove_error {e : Errno} (h : t.remove now path = .error e) :
    t.names.lookup path = none ∨ t.isDir path = true := by
  unfold remove at h
  split at h
  · left
    simpa using ‹(t.names.lookup path).isNone = true›
  · split at h
    · rename_i hfull
      exact .inr hfull.1
    · cases h

theorem link_spec (h : t.link now oldpath newpath = .ok t') (ht : t.Ok) :
    ∃ i, t.names.lookup oldpath = some i ∧ t.isDir oldpath = false ∧ newpath ≠ [] ∧
      t.hasParent newpath = true ∧ t.names.lookup newpath = none ∧ t.Named t' newpath i ∧
      t'.inodes.length = t.inodes.length := by
  unfold link at h
  split at h
  · cases h
  rename_i i hi
  split at h
  · cases h
  rename_i hdir
  split at h
  · cases h
  rename_i hparent
  split at h
  · cases h
  rename_i hnew
  -- all the checks of `link` have been passed
  obtain ⟨hne, hnone⟩ := not_or.mp hnew
  have hparent : t.hasParent newpath = true := by simpa using hparent
  have hnone : t.names.lookup newpath = none := by simpa using hnone
  obtain rfl := Except.ok.inj h
  set t₁ : Target := { t with names := t.names.insert newpath i }
  have hnamed : t.Named t₁ newpath i := by
    constructor
    · intro q
      by_cases hq : q = newpath
      · rw [if_pos hq, hq]
        exact AList.lookup_insert _
      · rw [if_neg hq]
        exact AList.lookup_insert_ne hq
    · intro j _
      exact .refl t j
  have hstart : t₁.names.lookup [] = none := by rw [hnamed.lookup_ne (Ne.symm hne), ht.start]
  have hdir₁ : t₁.hasParent newpath = true := hnamed.isDir ht (dropLast_ne hne) hparent
  refine ⟨i, hi, by simpa using hdir, hne, hparent, hnone, ?_, ?_⟩
  · exact hnamed.step (fun q => by rw [touch_names]) fun j _ => sameInode_touch hstart hdir₁ j
  · unfold touch
    split
    · exact List.length_modify _ _ _
    · rfl

theorem link_ok (now : Int64) (hi : t.names.lookup oldpath = some i)
    (hdir : t.isDir oldpath = false) (hne : newpath ≠ []) (hparent : t.hasParent newpath = true)
    (hnone : t.names.lookup newpath = none) :
    ∃ t', t.link now oldpath newpath = .ok t' := by
  unfold link
  rw [hi]
  dsimp only
  rw [hdir, if_neg (by simp), hparent, if_neg (by simp), hnone, if_neg (by simp [hne])]
  exact ⟨_, rfl⟩

/-! ### Changing what has been made -/

/-- A change to the inode that has been named. -/
theorem Named.update (h : t.Named t' path i) (hnew : ∀ j < t.inodes.length, j ≠ i)
    (f : Inode → Inode) : t.Named (t'.update i f) path i := by
  refine h.step (fun q => rfl) fun j hj => ?_
  exact .of_inodes (getElem?_update_ne f (hnew j hj))

theorem change_eq (f : Inode → Inode) (h : t.names.lookup path = some i) :
    t.change path f = .ok (t.update i f) := by
  unfold change
  rw [h]

theorem openWrite_eq (h : t.names.lookup path = none) :
    t.openWrite now path ino = (t.create now path ino).map fun t' => (t.inodes.length, t') := by
  unfold openWrite
  rw [h]

/-! ### Renaming -/

theorem move_spec (h : t.move now i oldpath newpath = .ok t') (hstart : t.names.lookup [] = none)
    (hold : oldpath ≠ []) (hnew : newpath ≠ []) (hparent : t.hasParent oldpath = true)
    (hparent' : t.hasParent newpath = true) (hin : oldpath.dropLast ≠ newpath)
    (hout : newpath.dropLast ≠ oldpath) :
    (∀ q, t'.names.lookup q =
        if q = newpath then some i else if q = oldpath then none else t.names.lookup q) ∧
      (∀ j, t.SameInode t' j) ∧ t'.inodes.length = t.inodes.length := by
  unfold move at h
  split at h
  · cases h
  obtain rfl := Except.ok.inj h
  set t₁ : Target := { t with names := (t.names.erase oldpath).insert newpath i }
  -- the names move; after that only the times of the two directories change
  have hnames : ∀ q, t₁.names.lookup q =
      if q = newpath then some i else if q = oldpath then none else t.names.lookup q := by
    intro q
    by_cases hq : q = newpath
    · rw [if_pos hq, hq]
      exact AList.lookup_insert _
    · rw [if_neg hq]
      refine (AList.lookup_insert_ne hq).trans ?_
      by_cases hq' : q = oldpath
      · rw [if_pos hq', hq']
        exact AList.lookup_erase _ _
      · rw [if_neg hq']
        exact AList.lookup_erase_ne hq'
  -- the two directories are still there
  have hdir : ∀ q, q ≠ newpath → q ≠ oldpath → t.isDir q = true → t₁.isDir q = true :=
    fun q hq hq' => isDir_congr (by rw [hnames, if_neg hq, if_neg hq']) fun j _ => .refl t j
  have hstart₁ : t₁.names.lookup [] = none := by
    rw [hnames, if_neg (Ne.symm hnew), if_neg (Ne.symm hold), hstart]
  have hdir₁ : t₁.hasParent oldpath = true := hdir _ hin (dropLast_ne hold) hparent
  have hdir₂ : t₁.hasParent newpath = true := hdir _ (dropLast_ne hnew) hout hparent'
  have hsame₁ : ∀ j, t₁.SameInode (t₁.touch now oldpath) j := sameInode_touch hstart₁ hdir₁
  have hsame₂ : ∀ j, (t₁.touch now oldpath).SameInode
      ((t₁.touch now oldpath).touch now newpath) j := by
    refine sameInode_touch (by rw [touch_names, hstart₁]) ?_
    exact isDir_congr (by rw [touch_names]) (fun j _ => hsame₁ j) hdir₂
  have hlen : ∀ (t : Target) (path : List Bytes),
      (t.touch now path).inodes.length = t.inodes.length := by
    intro t path
    unfold touch
    split
    · exact List.length_modify _ _ _
    · rfl
  exact ⟨fun q => by rw [touch_names, touch_names, hnames],
    fun j => (hsame₁ j).trans (hsame₂ j), by rw [hlen, hlen]⟩

/-- **What has been made under a temporary name is renamed.**  Nothing is done if the new name is that of
the same inode already. -/
theorem Named.rename (h : t.Named t' oldpath i) (ht : t.Ok) (hold : oldpath ≠ [])
    (hnone : t.names.lookup oldpath = none) (hparent : t.hasParent oldpath = true)
    (hne : oldpath ≠ newpath) (hout : newpath.dropLast ≠ oldpath)
    (hrename : t'.rename now oldpath newpath = .ok t'') :
    t.names.lookup newpath = some i ∧ t'' = t' ∨
      t.hasParent newpath = true ∧ newpath ≠ [] ∧ t.children newpath = [] ∧
        t.Named t'' newpath i ∧ (∀ j, t'.SameInode t'' j) ∧
        t''.inodes.length = t'.inodes.length := by
  unfold Target.rename at hrename
  rw [h.lookup_self] at hrename
  dsimp only at hrename
  split at hrename
  · cases hrename
  rename_i hparent'
  have hparent' : t'.hasParent newpath = true := by simpa using hparent'
  split at hrename
  · cases hrename
  rename_i hnew
  have hstart : t'.names.lookup [] = none := by rw [h.lookup_ne (Ne.symm hold), ht.start]
  have hparentOld : t'.hasParent oldpath = true := h.isDir ht (dropLast_ne hold) hparent
  -- the directory of the new name was there from the start
  have hparentNew : t.hasParent newpath = true := by
    by_cases hd : newpath.dropLast = []
    · show t.isDir newpath.dropLast = true
      rw [hd, isDir_nil]
    obtain ⟨n, ino, hn, hino, hbody⟩ := (isDir_iff hd).mp hparent'
    rw [h.lookup_ne hout] at hn
    have hlt := ht.inode hn
    obtain ⟨ino', hino', halike⟩ := h.old n hlt _ (List.getElem?_eq_getElem hlt)
    rw [hino] at hino'
    obtain rfl := Option.some.inj hino'
    exact (isDir_iff hd).mpr ⟨n, _, hn, List.getElem?_eq_getElem hlt, halike.body.symm.trans hbody⟩
  -- so the move, if there is one
  have hmove : t.children newpath = [] → oldpath.dropLast ≠ newpath →
      t'.move now i oldpath newpath = .ok t'' →
      t.hasParent newpath = true ∧ newpath ≠ [] ∧ t.children newpath = [] ∧
        t.Named t'' newpath i ∧ (∀ j, t'.SameInode t'' j) ∧
        t''.inodes.length = t'.inodes.length := by
    intro hempty hin hmove
    obtain ⟨hnames, hsame, hlen⟩ :=
      move_spec hmove hstart hold hnew hparentOld hparent' hin hout
    refine ⟨hparentNew, hnew, hempty, ⟨fun q => ?_, fun j hj => ?_⟩, hsame, hlen⟩
    · rw [hnames]
      by_cases hq : q = newpath
      · rw [if_pos hq, if_pos hq]
      · rw [if_neg hq, if_neg hq]
        by_cases hq' : q = oldpath
        · rw [if_pos hq', hq', hnone]
        · rw [if_neg hq', h.lookup_ne hq']
    · exact (h.old j hj).trans (hsame j)
  have hlookup : t'.names.lookup newpath = t.names.lookup newpath := h.lookup_ne (Ne.symm hne)
  rw [hlookup] at hrename
  cases hl : t.names.lookup newpath with
  | none =>
    rw [hl] at hrename
    refine .inr (hmove (ht.children_eq_nil (isDir_eq_false hnew hl)) ?_ hrename)
    -- a name that is free is no directory
    intro e
    have hdir : t.isDir newpath = true := e ▸ hparent
    rw [isDir_eq_false hnew hl] at hdir
    cases hdir
  | some j =>
    rw [hl] at hrename
    dsimp only at hrename
    split at hrename
    · rename_i hij
      exact .inl ⟨hij ▸ rfl, (Except.ok.inj hrename).symm⟩
    split at hrename
    · cases hrename
    split at hrename
    · cases hrename
    split at hrename
    · cases hrename
    rename_i hfull
    -- a directory that gives way has nothing in it
    have hsub : ∀ q ∈ t.children newpath, q ∈ t'.children newpath := by
      intro q hq
      obtain ⟨hsome, hqne, hqdir⟩ := mem_children.mp hq
      refine mem_children.mpr ⟨?_, hqne, hqdir⟩
      rw [h.lookup_ne, hsome]
      rintro rfl
      rw [hnone] at hsome
      cases hsome
    have hgone : t'.isDir newpath = true → t'.children newpath = [] := by
      intro hdir
      simpa [hdir] using hfull
    have hempty : t.children newpath = [] := by
      cases hdir : t.isDir newpath with
      | false => exact ht.children_eq_nil hdir
      | true =>
        rw [List.eq_nil_iff_forall_not_mem]
        intro q hq
        have hq' := hsub q hq
        rw [hgone (h.isDir ht (Ne.symm hne) hdir)] at hq'
        cases hq'
    refine .inr (hmove hempty ?_ hrename)
    intro e
    have hin : oldpath ∈ t'.children newpath := by
      refine mem_children.mpr ⟨?_, hold, e⟩
      rw [h.lookup_self]
      rfl
    rw [hgone (e ▸ hparentOld)] at hin
    cases hin

/-- Nothing is done if a name is to become itself. -/
theorem Named.rename_self (h : t.Named t' path i)
    (hrename : t'.rename now path path = .ok t'') : t'' = t' := by
  unfold Target.rename at hrename
  rw [h.lookup_self] at hrename
  dsimp only at hrename
  split at hrename
  · cases hrename
  split at hrename
  · cases hrename
  rw [if_pos rfl] at hrename
  exact (Except.ok.inj hrename).symm

theorem Named.rename_self_ok (now : Int64) (h : t.Named t' path i) (ht : t.Ok) (hne : path ≠ [])
    (hparent : t.hasParent path = true) : t'.rename now path path = .ok t' := by
  have hparent' : t'.hasParent path = true := h.isDir ht (dropLast_ne hne) hparent
  unfold Target.rename
  rw [h.lookup_self]
  dsimp only
  rw [hparent', if_neg (by simp), if_neg hne, if_pos rfl]

theorem Named.rename_ok (now : Int64) (h : t.Named t' oldpath i) (ht : t.Ok) (hnew : newpath ≠ [])
    (hparent : t.hasParent newpath = true) (hold : t.names.lookup oldpath = none)
    (hnone : t.names.lookup newpath = none) (holdne : oldpath ≠ []) (hne : oldpath ≠ newpath)
    (hout : newpath.dropLast ≠ oldpath) : ∃ t'', t'.rename now oldpath newpath = .ok t'' := by
  have hparent' : t'.hasParent newpath = true := h.isDir ht hout hparent
  have hempty : t'.children oldpath = [] := by
    rw [List.eq_nil_iff_forall_not_mem]
    intro q hq
    obtain ⟨hsome, hqne, hqdir⟩ := mem_children.mp hq
    have hq' : q ≠ oldpath := by
      rintro rfl
      exact dropLast_ne hqne hqdir
    rw [h.lookup_ne hq'] at hsome
    have hm : q ∈ t.children oldpath := mem_children.mpr ⟨hsome, hqne, hqdir⟩
    rw [ht.children_eq_nil (isDir_eq_false holdne hold)] at hm
    cases hm
  unfold Target.rename
  rw [h.lookup_self]
  dsimp only
  rw [hparent', if_neg (by simp), if_neg hnew, h.lookup_ne (Ne.symm hne), hnone]
  dsimp only
  unfold move
  rw [hempty, if_neg (by simp)]
  exact ⟨_, rfl⟩

end Target

end Hbackup
