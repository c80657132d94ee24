import Hbackup.Equiv.RestoreRun
import Hbackup.Lib.Sources
import Hbackup.Script.Equiv.Index
import Hbackup.Script.Equiv.Paths
import Hbackup.Script.Equiv.Restore

/-!
# The script restores an index into an empty directory

The lines of an index are restored one by one (`Unpacked`), each under its place: an object that the line
provides, or a link to the first with the same inode number.  A run that returns has done so for every
line; one in which every call succeeds that can returns if every line provides for its object
(`wp_restoreIndex`).
-/

namespace Hbackup.Script

open ProgramLogic Target Sources

variable {cfg : Config} {l done post : List Line} {line line' : Line} {s s' s₀ : Unpacking} {X : Prop}

/-! ### Lines in order -/

/-- The inode number on a line. -/
def inodeOf (line : Line) : Option Bytes := line.2.lookup (lit "inode")

/-- What restoring needs of the lines, with the names in full. -/
structure ArrangedLines (l : List Line) : Prop where
  nodup : (l.map Prod.fst).Nodup
  places : ∀ line ∈ l, line.1 ≠ [] ∧ Components line.1
  named : ∀ line ∈ l, line.2.lookup (lit "name") = some (relpath line.1)
  /-- The directory comes first. -/
  parent : ∀ pre line post, l = pre ++ line :: post →
    line.1.dropLast = [] ∨ ∃ fields, (line.1.dropLast, fields) ∈ pre ∧ HasType fields "dir"
  /-- The temporary name is not in use. -/
  tmp : ∀ pre line post d name, l = pre ++ line :: post → line.1 = d ++ [name] →
    tmpPlace d name ∉ pre.map Prod.fst
  /-- Only regular files have inode numbers. -/
  numbered : ∀ line ∈ l, inodeOf line ≠ none → line.2.lookup (lit "type") = none

/-! ### Places -/

/-- The full name of a place. -/
def fullJoin (cfg : Config) (p : List Bytes) : Bytes := join cfg.root [relpath p]

/-- `cfg.root` can be put before a name. -/
def RootNamed (cfg : Config) : Prop := cfg.root ≠ [] ∧ 0 ∉ cfg.root

theorem head?_relpath {p : List Bytes} (hp : Components p) : (relpath p).head? ≠ some 47 := by
  induction p using List.reverseRecOn with
  | nil => decide
  | append_singleton d name ih =>
    obtain ⟨hd, hname⟩ := components_snoc.mp hp
    by_cases hdn : d = []
    · rw [hdn, List.nil_append, relpath_singleton]
      exact fun h => hname.2.1 (List.mem_of_head? h)
    · rw [relpath_snoc hdn, inDir, List.append_assoc, List.head?_append_of_ne_nil _ (relpath_ne_nil hd)]
      exact ih hd

/-- What comes before the `/` is a name of `cfg.root`. -/
theorem fullJoin_eq {p : List Bytes} (hroot : RootNamed cfg) (hp : Components p) :
    ∃ root, 0 ∉ root ∧ components root = components cfg.root ∧
      fullJoin cfg p = root ++ 47 :: relpath p := by
  obtain ⟨hne, h0⟩ := hroot
  by_cases hlast : cfg.root.getLast? = some 47
  · obtain ⟨root, hsplit⟩ := List.getLast?_eq_some_iff.mp hlast
    have h0' : 0 ∉ root := fun h => h0 (by rw [hsplit]; exact List.mem_append_left _ h)
    refine ⟨root, h0', ?_, ?_⟩
    · rw [hsplit, components_slash h0' List.not_mem_nil]
      exact (List.append_nil _).symm
    · unfold fullJoin join join1
      rw [List.foldl_cons, List.foldl_nil, if_neg (head?_relpath hp), if_pos (.inr hlast), hsplit,
        List.append_assoc]
      rfl
  · refine ⟨cfg.root, h0, rfl, ?_⟩
    unfold fullJoin join
    rw [List.foldl_cons, List.foldl_nil, join1_of_name (head?_relpath hp) hne hlast, List.append_assoc]
    rfl

theorem zero_not_mem_fullJoin {p : List Bytes} (hroot : RootNamed cfg) (hp : Components p) :
    0 ∉ fullJoin cfg p := by
  obtain ⟨root, h0, -, hfull⟩ := fullJoin_eq hroot hp
  have hr := zero_not_mem_relpath hp
  rw [hfull]
  simp [h0, hr]

theorem components_fullJoin {p : List Bytes} (hroot : RootNamed cfg) (hp : Components p)
    (hne : p ≠ []) : components (fullJoin cfg p) = cfg.spot p := by
  obtain ⟨root, h0, hc, hfull⟩ := fullJoin_eq hroot hp
  rw [hfull, components_slash h0 (zero_not_mem_relpath hp), components_relpath hp hne, hc]
  rfl

theorem components_tmpJoin {d : List Bytes} {name : Bytes} (hroot : RootNamed cfg)
    (hp : Components (d ++ [name])) :
    components (tmpname (fullJoin cfg (d ++ [name]))) = cfg.spot (tmpPlace d name) := by
  obtain ⟨root, h0, hc, hfull⟩ := fullJoin_eq hroot hp
  obtain ⟨hd, hname⟩ := components_snoc.mp hp
  have htmp : Components (d ++ [name ++ lit "~restore~"]) :=
    components_snoc.mpr ⟨hd, isComponent_tmp hname.1 hname.2.1⟩
  rw [hfull, tmpname, List.append_assoc, List.cons_append, relpath_append_suffix,
    components_slash h0 (zero_not_mem_relpath htmp), components_relpath htmp (by simp), hc]
  rfl

/-! ### The state between two lines -/

/-- After the lines `done` of `l`. -/
structure Unpacked (cfg : Config) (l : List Line) (s₀ : Unpacking) (done : List Line) (s : Unpacking) :
    Prop where
  store : s.world.store = s₀.world.store
  ready : Ready cfg s
  root : s.world.target.isDir (components cfg.root) = true
  /-- Nothing else is in the directory. -/
  free : ∀ p, p ≠ [] → p ∉ done.map Prod.fst → s.world.target.names.lookup (cfg.spot p) = none
  made : ∀ line ∈ done, ∃ i ino, s.world.target.names.lookup (cfg.spot line.1) = some i ∧
    s.world.target.names.lookup (cfg.spot (source inodeOf l line).1) = some i ∧
    s.world.target.inodes[i]? = some ino ∧
    Right cfg s₀.world.store (source inodeOf l line).2 ino
  apart : ∀ line ∈ done, ∀ line' ∈ done, ∀ i,
    s.world.target.names.lookup (cfg.spot line.1) = some i →
    s.world.target.names.lookup (cfg.spot line'.1) = some i →
    source inodeOf l line = source inodeOf l line'
  inodes : ∀ n, s.inodes.lookup n = (first inodeOf done n).map fun line => fullJoin cfg line.1

/-- A line that has got its place, which is that of the inode `i`. -/
theorem Unpacked.placed {i : Nat} (h : Unpacked cfg l s₀ done s) (hne : line.1 ≠ [])
    (hnew : line.1 ∉ done.map Prod.fst) (hstore : s'.world.store = s.world.store)
    (hready : Ready cfg s')
    (hnamed : s.world.target.Named s'.world.target (cfg.spot line.1) i)
    (hsource : s'.world.target.names.lookup (cfg.spot (source inodeOf l line).1) = some i)
    (hright : ∃ ino, s'.world.target.inodes[i]? = some ino ∧
      Right cfg s₀.world.store (source inodeOf l line).2 ino)
    (hapart : ∀ line' ∈ done, s.world.target.names.lookup (cfg.spot line'.1) = some i →
      source inodeOf l line = source inodeOf l line')
    (hinodes : ∀ n, s'.inodes.lookup n =
      (first inodeOf (done ++ [line]) n).map fun line => fullJoin cfg line.1) :
    Unpacked cfg l s₀ (done ++ [line]) s' := by
  have hself := hnamed.lookup_self
  -- the other places
  have hother : ∀ line' ∈ done, s'.world.target.names.lookup (cfg.spot line'.1) =
      s.world.target.names.lookup (cfg.spot line'.1) := by
    intro line' hm
    refine hnamed.lookup_ne (spot_ne fun e => hnew ?_)
    exact e ▸ List.mem_map_of_mem hm
  constructor
  · rw [hstore, h.store]
  · exact hready
  · exact hnamed.isDir h.ready.ok (fun e => hne (List.self_eq_append_right.mp e)) h.root
  · intro p hp hm
    rw [List.map_append, List.mem_append, not_or] at hm
    have hpe : p ≠ line.1 := fun e => hm.2 (by simp [e])
    rw [hnamed.lookup_ne (spot_ne hpe)]
    exact h.free p hp hm.1
  · intro line' hm
    rcases List.mem_append.mp hm with hm | hm
    · obtain ⟨j, ino, hj, hjs, hino, hc⟩ := h.made line' hm
      obtain ⟨ino', hino', halike⟩ := hnamed.old j (h.ready.ok.inode hj) ino hino
      refine ⟨j, ino', (hother line' hm).trans hj, ?_, hino', hc.alike halike⟩
      have hne' : (source inodeOf l line').1 ≠ line.1 := by
        intro e
        rw [e, h.free line.1 hne hnew] at hjs
        cases hjs
      exact (hnamed.lookup_ne (spot_ne hne')).trans hjs
    · rw [List.mem_singleton.mp hm]
      obtain ⟨ino, hino, hc⟩ := hright
      exact ⟨i, ino, hself, hsource, hino, hc⟩
  · have hone : ∀ line' ∈ done, ∀ j, s'.world.target.names.lookup (cfg.spot line.1) = some j →
        s'.world.target.names.lookup (cfg.spot line'.1) = some j →
        source inodeOf l line = source inodeOf l line' := by
      intro line' hm j hj hqj
      rw [hself] at hj
      rw [hother line' hm, ← hj] at hqj
      exact hapart line' hm hqj
    intro a ha b hb j haj hbj
    rcases List.mem_append.mp ha with ha | ha
    · rcases List.mem_append.mp hb with hb | hb
      · rw [hother _ ha] at haj
        rw [hother _ hb] at hbj
        exact h.apart a ha b hb j haj hbj
      · rw [List.mem_singleton.mp hb] at hbj ⊢
        exact (hone a ha j hbj haj).symm
    · rw [List.mem_singleton.mp ha] at haj ⊢
      rcases List.mem_append.mp hb with hb | hb
      · exact hone b hb j haj hbj
      · rw [List.mem_singleton.mp hb]
  · exact hinodes

/-- The directory has been made. -/
theorem Unpacked.isDir_above (h : Unpacked cfg l s₀ done s) (hl : ArrangedLines l)
    (hsplit : l = done ++ line :: post) {d : List Bytes} (hd : line.1.dropLast = d) :
    s.world.target.isDir (cfg.spot d) = true := by
  by_cases hdn : d = []
  · rw [hdn, Config.spot, List.append_nil]
    exact h.root
  rcases hl.parent done line post hsplit with hnil | ⟨fields, hm, htype⟩
  · exact absurd (hd.symm.trans hnil) hdn
  rw [hd] at hm
  obtain ⟨i, ino, hi, -, hino, hright⟩ := h.made _ hm
  have hno : inodeOf (d, fields) = none := by
    by_contra hsome
    have hnone := hl.numbered (d, fields) (by rw [hsplit]; exact List.mem_append_left _ hm) hsome
    rw [htype] at hnone
    cases hnone
  rw [source_of_none hno] at hright
  have hbody := hright.body
  rw [bodyFor_of_type _ _ htype, if_neg (by decide), if_pos rfl] at hbody
  exact (isDir_iff (spot_ne_nil hdn)).mpr ⟨i, ino, hi, hino, (Option.some.inj hbody).symm⟩

/-- The way is clear for the next line. -/
theorem Unpacked.place (h : Unpacked cfg l s₀ done s) (hroot : RootNamed cfg) (hl : ArrangedLines l)
    (hsplit : l = done ++ line :: post) :
    line.1 ∉ done.map Prod.fst ∧ Place (fullJoin cfg line.1) s.world.target := by
  have hm : line ∈ l := by rw [hsplit]; simp
  obtain ⟨hne, hp⟩ := hl.places line hm
  have hnew : line.1 ∉ done.map Prod.fst := by
    have hnodup := hl.nodup
    rw [hsplit, List.map_append, List.map_cons] at hnodup
    exact fun hmem => (List.nodup_append.mp hnodup).2.2 _ hmem _ List.mem_cons_self rfl
  obtain ⟨root, -, -, hfull⟩ := fullJoin_eq hroot hp
  refine ⟨hnew, zero_not_mem_fullJoin hroot hp, ?_, ?_, ?_⟩
  · rw [hfull]
    simp
  · obtain ⟨d, name, hplace⟩ := List.eq_nil_or_concat' line.1 |>.resolve_left hne
    have hdir := h.isDir_above hl hsplit (d := d) (by rw [hplace, List.dropLast_concat])
    rw [hplace, components_tmpJoin hroot (hplace ▸ hp)]
    refine ⟨spot_ne_nil (by simp [tmpPlace]), hasParent_spot hdir, h.free _ (by simp [tmpPlace]) ?_⟩
    exact hl.tmp done line post d name hsplit hplace
  · obtain ⟨d, name, hplace⟩ := List.eq_nil_or_concat' line.1 |>.resolve_left hne
    have hdir := h.isDir_above hl hsplit (d := d) (by rw [hplace, List.dropLast_concat])
    rw [components_fullJoin hroot hp hne]
    refine ⟨spot_ne_nil hne, ?_, h.free _ hne hnew⟩
    rw [hplace]
    exact hasParent_spot hdir

/-- A regular file is no directory. -/
theorem ne_dir_of_regular {repo : Bytes} {store : Store} {details : Pairs} {body : Body}
    (htype : details.lookup (lit "type") = none) (h : bodyFor repo store details = some body) :
    body ≠ .dir := by
  rintro rfl
  unfold bodyFor at h
  rw [htype] at h
  dsimp only at h
  split at h
  · split at h
    · cases h
    · cases h
  · cases hdata : details.lookup (lit "data") with
    | none =>
      rw [hdata] at h
      cases h
    | some data =>
      rw [hdata] at h
      cases h

/-- The first line with its inode number. -/
theorem Unpacked.wp_restoreNew (h : Unpacked cfg l s₀ done s) (hroot : RootNamed cfg)
    (hl : ArrangedLines l) (hsplit : l = done ++ line :: post)
    (hfirst : ∀ n, inodeOf line = some n → first inodeOf done n = none)
    (hX : ¬ (Smooth cfg ∧ Provided cfg s₀.world.store line.2) → X) :
    wp (restore cfg line.2) (fun _ => Fine X (Unpacked cfg l s₀ (done ++ [line])))
      (fun _ _ => X) s := by
  have hm : line ∈ l := by rw [hsplit]; simp
  obtain ⟨hne, hp⟩ := hl.places line hm
  obtain ⟨hnew, hplace⟩ := h.place hroot hl hsplit
  have hself : source inodeOf l line = line := hsplit ▸ source_self hfirst
  have hseen : seenFirst line.2 s.inodes = none := by
    unfold seenFirst
    cases hn : line.2.lookup (lit "inode") with
    | none => rfl
    | some n =>
      rw [Option.bind_some, h.inodes, hfirst n hn]
      rfl
  rw [← h.store] at hX
  refine wp_mono (h.ready.wp_restore (hl.named line hm) hplace hseen hX) ?_ fun _ _ h => h
  rintro _ s' (⟨hzero, hput, hentered⟩ | hwarned)
  swap
  · exact .inr hwarned
  have hnamed := hput.named
  change s.world.target.Named _ (components (fullJoin cfg line.1)) _ at hnamed
  rw [components_fullJoin hroot hp hne] at hnamed
  refine .inl ⟨hzero, h.placed hne hnew hput.store ⟨hput.ok, hzero, hput.knows⟩ hnamed ?_ ?_ ?_ ?_⟩
  · rw [hself]
    exact hnamed.lookup_self
  · rw [hself, ← h.store]
    exact hput.right
  · -- the inode is new
    intro line' _ hi
    exact absurd (h.ready.ok.inode hi) (Nat.lt_irrefl _)
  · intro n
    rw [hentered, first_append, first_singleton]
    by_cases hn : inodeOf line = some n
    · have htype := hl.numbered line hm (by rw [hn]; simp)
      rw [if_pos ⟨htype, hn⟩, if_pos hn, hfirst n hn]
      rfl
    · rw [if_neg fun h => hn h.2, if_neg hn, Option.or_none]
      exact h.inodes n

/-- A line with the inode number of one that has been restored. -/
theorem Unpacked.wp_restoreLink (h : Unpacked cfg l s₀ done s) (hroot : RootNamed cfg)
    (hl : ArrangedLines l) (hsplit : l = done ++ line :: post) {n : Bytes}
    (hn : inodeOf line = some n) (hfirst : first inodeOf done n = some line')
    (hsmooth : ¬ Smooth cfg → X) :
    wp (restore cfg line.2) (fun _ => Fine X (Unpacked cfg l s₀ (done ++ [line])))
      (fun _ _ => X) s := by
  have hm : line ∈ l := by rw [hsplit]; simp
  obtain ⟨hne, hp⟩ := hl.places line hm
  obtain ⟨hnew, hplace⟩ := h.place hroot hl hsplit
  obtain ⟨hm', hn'⟩ := first_spec hfirst
  have hml : line' ∈ l := by rw [hsplit]; exact List.mem_append_left _ hm'
  have hfirst' : first inodeOf l n = some line' := by
    rw [hsplit, first_append, hfirst]
    rfl
  have hsource : source inodeOf l line = line' := source_eq hn hfirst'
  have hsource' : source inodeOf l line' = line' := source_eq hn' hfirst'
  obtain ⟨hne', hp'⟩ := hl.places line' hml
  have hname' := components_fullJoin hroot hp' hne'
  obtain ⟨i, ino, hi, -, hino, hright⟩ := h.made line' hm'
  rw [hsource'] at hright
  -- what is linked to is a file
  have hfile : s.world.target.isDir (cfg.spot line'.1) = false := by
    rw [← Bool.not_eq_true]
    intro hdir
    obtain ⟨j, dir, hj, hdirIno, hbody⟩ := (isDir_iff (h.ready.ok.ne_nil hi)).mp hdir
    obtain rfl := Option.some.inj (hi.symm.trans hj)
    obtain rfl := Option.some.inj (hino.symm.trans hdirIno)
    have htype := hl.numbered line' hml (by rw [hn']; simp)
    exact ne_dir_of_regular htype hright.body hbody
  unfold restore
  rw [wp_bind, wp_item, hl.named line hm]
  dsimp only
  have hseen : ((line.2.lookup (lit "inode")).bind fun inode => s.inodes.lookup inode) =
      some (fullJoin cfg line'.1) := by
    rw [show line.2.lookup (lit "inode") = some n from hn, Option.bind_some, h.inodes, hfirst]
    rfl
  rw [wp_bind, wp_get, hseen]
  dsimp only
  have h0 := zero_not_mem_fullJoin hroot (hl.places line' hml).2
  refine wp_mono (h.ready.wp_restoreLink hplace h0 (hname'.symm ▸ hi) (hname'.symm ▸ hfile) hsmooth) ?_
    fun _ _ h => h
  rintro _ s' (⟨hzero, hjoined⟩ | hwarned)
  swap
  · exact .inr hwarned
  obtain ⟨j, hj, hnamed⟩ := hjoined.named
  rw [hname', hi] at hj
  obtain rfl := Option.some.inj hj
  rw [components_fullJoin hroot hp hne] at hnamed
  obtain ⟨ino', hino', halike⟩ := hnamed.old i (h.ready.ok.inode hi) ino hino
  refine .inl ⟨hzero, h.placed hne hnew hjoined.store ⟨hjoined.ok, hzero, hjoined.knows⟩ hnamed
    ?_ ?_ ?_ ?_⟩
  · rw [hsource]
    have hapart : line'.1 ≠ line.1 := fun e => hnew (e ▸ List.mem_map_of_mem hm')
    exact (hnamed.lookup_ne (spot_ne hapart)).trans hi
  · rw [hsource]
    exact ⟨ino', hino', hright.alike halike⟩
  · intro x hx hxi
    rw [hsource, ← hsource']
    exact h.apart line' hm' x hx i hi hxi
  · intro m
    rw [hjoined.inodes, first_append, first_singleton, h.inodes]
    by_cases hmn : inodeOf line = some m
    · obtain rfl : n = m := Option.some.inj (hn.symm.trans hmn)
      rw [hfirst]
      rfl
    · rw [if_neg hmn, Option.or_none]

/-- **One line of an arranged index.** -/
theorem Unpacked.wp_restore (h : Unpacked cfg l s₀ done s) (hroot : RootNamed cfg)
    (hl : ArrangedLines l) (hsplit : l = done ++ line :: post)
    (hX : ¬ (Smooth cfg ∧ (source inodeOf l line = line → Provided cfg s₀.world.store line.2)) → X) :
    wp (restore cfg line.2) (fun _ => Fine X (Unpacked cfg l s₀ (done ++ [line])))
      (fun _ _ => X) s := by
  have hnew : (∀ n, inodeOf line = some n → first inodeOf done n = none) →
      wp (restore cfg line.2) (fun _ => Fine X (Unpacked cfg l s₀ (done ++ [line])))
        (fun _ _ => X) s :=
    fun hfirst => h.wp_restoreNew hroot hl hsplit hfirst fun hno => hX fun h =>
      hno ⟨h.1, h.2 (hsplit ▸ source_self hfirst)⟩
  cases hn : inodeOf line with
  | none => exact hnew fun n h => by rw [hn] at h; cases h
  | some n =>
    cases hfirst : first inodeOf done n with
    | none =>
      refine hnew fun m hm => ?_
      obtain rfl : n = m := Option.some.inj (hn.symm.trans hm)
      exact hfirst
    | some line' =>
      exact h.wp_restoreLink hroot hl hsplit hn hfirst fun hno => hX fun h => hno h.1

/-! ### The whole index -/

/-- All lines. -/
theorem wp_restoreLines (h : Unpacked cfg l s₀ [] s₀) (hroot : RootNamed cfg) (hl : ArrangedLines l)
    (hX : ¬ (Smooth cfg ∧ ∀ line ∈ l, source inodeOf l line = line →
      Provided cfg s₀.world.store line.2) → X) :
    wp ((l.map Prod.snd).forM (restore cfg)) (fun _ => Fine X (Unpacked cfg l s₀ l))
      (fun _ _ => X) s₀ := by
  rw [show (l.map Prod.snd).forM (restore cfg) = l.forM fun line => restore cfg line.2 from
    List.forM_map]
  refine wp_forM (fun pre => Fine X (Unpacked cfg l s₀ pre)) ?_ (.inl ⟨h.ready.warnings, h⟩)
  rintro pre line post s hsplit (⟨-, hs⟩ | ⟨hpos, hx⟩)
  · refine hs.wp_restore hroot hl hsplit fun hno => hX fun h => hno ⟨h.1, ?_⟩
    exact h.2 line (by rw [hsplit]; simp)
  · exact wp_mono (grows_restore s) (fun _ _ h => .inr ⟨Nat.lt_of_lt_of_le hpos h, hx⟩) fun _ _ _ => hx

/-! ### Reading the index -/

section

variable {m : Type → Type} [Monad m] {py : {α : Type} → Py α → m α}
  {handler : Pairs → m Unit} {atEnd : m Unit}

/-- The handler is given a line, and the directory is remembered for the next one. -/
theorem handleIn_eq {last p : List Bytes} {fields : Pairs} {name : Bytes} {directory : Option Bytes}
    (hname : fields.lookup (lit "name") = some name) (h : NameFor last p name)
    (hp : p ≠ [] ∧ Components p) (hdir : last ≠ [] → directory = some (lastDir last)) :
    handleIn py handler directory fields =
      handler (handed (p, fields)) >>= fun _ => pure (some (lastDir p)) := by
  unfold handleIn handed
  rw [hname]
  dsimp only
  rcases name_cases h hp with ⟨htake, rfl⟩ | ⟨htake, hlast, hne, hfull⟩
  · rw [if_neg htake, if_neg htake, dirname_relpath hp.2 hp.1]
  · have hlastne : last ≠ [] := by
      rintro rfl
      exact hne hlast
    have hdirs : lastDir last = lastDir p := by
      unfold lastDir
      rw [hlast]
    rw [if_pos htake, if_pos htake, hdir hlastne, inDirectory, Option.getD_some, ← hfull, hdirs]

variable [LawfulMonad m]

/-- The lines of an index are handed on one by one. -/
theorem parseLinesIn_eq (hpy : ∀ {α : Type} (a : α), py (pure a : Py α) = pure a) {last : List Bytes}
    {text : Bytes} {l : List Line} (h : IsIndexOf last text l) {directory : Option Bytes}
    (hdir : last ≠ [] → directory = some (lastDir last)) :
    ∃ q : Parsing, q.seen_end = true ∧ parseLinesIn py handler atEnd (linesOf text) { directory } =
      (l.map handed).forM handler >>= fun _ => atEnd >>= fun _ => pure q := by
  induction h generalizing directory with
  | stop =>
    refine ⟨{ seen_end := true, directory }, rfl, ?_⟩
    show parseLinesIn py handler atEnd [lit "[end]\n"] { directory } = _
    rw [parseLinesIn, if_pos rfl, parseLinesIn, List.map_nil]
    show _ = (pure ⟨⟩ : m PUnit) >>= _
    rw [pure_bind]
  | @line last p parts fields name text l encoded nodup named place names rest ih =>
    have hne : parts ≠ [] := by
      rintro rfl
      rw [List.forall₂_nil_left_iff.mp encoded] at named
      cases named
    have hdirectory : p ≠ [] → some (lastDir p) = some (lastDir p) := fun _ => rfl
    obtain ⟨q, hq, heq⟩ := ih hdirectory
    refine ⟨q, hq, ?_⟩
    have hend : ([38] : Bytes).intercalate parts ++ [10] ≠ lit "[end]\n" := by
      intro he
      exact ne_end_of_parse (parseIndexLine_of_fields hne encoded) (List.append_inj_left' he rfl)
    rw [linesOf_line (newline_not_mem_parts encoded), parseLinesIn, if_neg hend, if_neg (by simp),
      parse_details_of_fields hne encoded, hpy, pure_bind]
    dsimp only
    rw [handleIn_eq named names place hdir, bind_assoc, List.map_cons]
    change _ = (handler (handed (p, fields)) >>= fun _ => (l.map handed).forM handler) >>= _
    rw [bind_assoc]
    refine bind_congr fun _ => ?_
    rw [pure_bind]
    exact heq

/-- **An index is read** and its lines are handed on, with the names in full. -/
theorem parse_indexIn_eq (hpy : ∀ {α : Type} (a : α), py (pure a : Py α) = pure a) {text : Bytes}
    (h : IsIndexOf [] text l) : parse_indexIn py handler atEnd (linesOf text) =
      (l.map handed).forM handler >>= fun _ => atEnd >>= fun _ => py get >>= fun g =>
        if 0 < g.warnings then py (fatal "%d problems found") else pure ⟨⟩ := by
  have hdirectory : ([] : List Bytes) ≠ [] → none = some (lastDir []) := fun hne => absurd rfl hne
  obtain ⟨q, hq, heq⟩ := @parseLinesIn_eq m _ py handler atEnd _ hpy _ _ _ h _ hdirectory
  rw [parse_indexIn, heq, bind_assoc]
  refine bind_congr fun _ => ?_
  rw [bind_assoc]
  refine bind_congr fun _ => ?_
  rw [pure_bind, hq]
  rfl

/-- It is `parse_index` where only the global variables of the other commands change. -/
theorem parse_indexIn_self (handler : Pairs → Py Unit) (text : Bytes) :
    parse_indexIn (fun x => x) handler (pure ⟨⟩) (linesOf text) = parse_index handler text := by
  have hlines : ∀ (lines : List Bytes) (q : Parsing),
      parseLinesIn (fun x => x) handler (pure ⟨⟩) lines q = parseLines handler lines q := by
    intro lines
    induction lines with
    | nil => exact fun q => rfl
    | cons line lines ih =>
      intro q
      rw [parseLinesIn, parseLines, ih]
      split
      · rfl
      split
      · rfl
      refine bind_congr fun details => ?_
      cases details with
      | none => exact ih q
      | some details => exact bind_congr fun _ => ih _
  unfold parse_indexIn parse_index
  rw [hlines]

end

/-- An index that cannot be read to its end is not restored. -/
theorem wp_parseLinesIn_stops {handler : Pairs → Unpack Unit} {e : Raised} :
    ∀ (lines : List Bytes) (q : Parsing) (s : Unpacking),
      wp (parseLinesIn onGlobals handler (throw e) lines q) (fun _ s' => 0 < s'.warnings)
        (fun _ _ => True) s
  | [], _, _ => trivial
  | line :: lines, q, s => by
    have hany : ∀ {α : Type} (x : Unpack α) (s : Unpacking),
        wp x (fun _ _ => True) (fun _ _ => True) s := fun x s =>
      (wp_stateAfter x (fun _ => True) s).mpr trivial
    rw [parseLinesIn, wp_ite]
    split
    · exact wp_parseLinesIn_stops lines _ s
    rw [wp_ite]
    split
    · rw [wp_bind, wp_warn]
      exact Nat.succ_pos _
    rw [wp_bind]
    refine wp_mono (hany _ s) ?_ fun _ _ _ => trivial
    rintro (_ | details) s' -
    · exact wp_parseLinesIn_stops lines _ s'
    dsimp only
    rw [wp_bind]
    exact wp_mono (hany _ s') (fun _ s'' _ => wp_parseLinesIn_stops lines _ s'') fun _ _ _ => trivial

/-- The script ends with a message if there have been warnings. -/
theorem wp_verdict {msg : String} {Q : PUnit → Unpacking → Prop} {E : Raised → Unpacking → Prop} :
    wp (onGlobals get >>= fun g => if 0 < g.warnings then onGlobals (fatal msg) else pure ⟨⟩) Q E s ↔
      if 0 < s.warnings then E (.py (.systemExit msg)) s else Q ⟨⟩ s := by
  rw [wp_bind]
  show wp (if 0 < s.warnings then onGlobals (fatal msg) else pure ⟨⟩) Q E s ↔ _
  rw [wp_ite]
  rfl

theorem wp_parse_indexIn_stops {handler : Pairs → Unpack Unit} {e : Raised} (lines : List Bytes)
    (s : Unpacking) : wp (parse_indexIn onGlobals handler (throw e) lines) (fun _ _ => False)
      (fun _ _ => True) s := by
  unfold parse_indexIn
  rw [wp_bind]
  refine wp_mono (wp_parseLinesIn_stops lines {} s) ?_ fun _ _ _ => trivial
  intro q s' hpos
  have hend : ∀ s'' : Unpacking, 0 < s''.warnings →
      wp (onGlobals get >>= fun g =>
        if 0 < g.warnings then onGlobals (fatal "%d problems found") else pure PUnit.unit)
        (fun _ _ => False) (fun _ _ => True) s'' := by
    intro s'' h
    rw [wp_verdict, if_pos h]
    trivial
  dsimp only
  rw [wp_ite]
  split
  · rw [wp_bind, wp_warn]
    exact hend _ (Nat.succ_pos _)
  · exact hend _ hpos

/-- The lines with the names in full. -/
def inFull (l : List Line) : List Line := l.map fun line => (line.1, handed line)

/-- What a restore that returns leaves in an empty directory. -/
structure UnpackedTree (cfg : Config) (l : List Line) (store : Store) (t : Target) : Prop where
  names : ∀ p, p ≠ [] → (t.names.lookup (cfg.spot p)).isSome → p ∈ l.map Prod.fst
  made : ∀ line ∈ l, ∃ i ino, t.names.lookup (cfg.spot line.1) = some i ∧ t.inodes[i]? = some ino ∧
    Right cfg store (source inodeOf l line).2 ino
  /-- Lines are links to the same file exactly if they have the same inode number. -/
  linked : ∀ line ∈ l, ∀ line' ∈ l,
    (t.names.lookup (cfg.spot line.1) = t.names.lookup (cfg.spot line'.1) ↔
      line = line' ∨ (inodeOf line).isSome ∧ inodeOf line = inodeOf line')

theorem Unpacked.tree (h : Unpacked cfg l s₀ l s) :
    UnpackedTree cfg l s₀.world.store s.world.target where
  names p hp hsome := by
    by_contra hm
    rw [h.free p hp hm] at hsome
    cases hsome
  made line hm := by
    obtain ⟨i, ino, hi, -, hino, hright⟩ := h.made line hm
    exact ⟨i, ino, hi, hino, hright⟩
  linked line hm line' hm' := by
    rw [← source_eq_iff hm hm']
    obtain ⟨i, -, hi, hsi, -, -⟩ := h.made line hm
    obtain ⟨j, -, hj, hsj, -, -⟩ := h.made line' hm'
    rw [hi, hj]
    constructor
    · intro heq
      exact h.apart line hm line' hm' i hi (heq ▸ hj)
    · intro heq
      rw [← hsi, heq, hsj]

/-- The script starts. -/
theorem Unpacked.start {w : World} (h : EmptyRoot cfg w.target) (n : Nat) :
    Unpacked cfg l { world := { w with clock := n } } [] { world := { w with clock := n } } where
  store := rfl
  ready := ⟨h.ok, rfl, fun _ _ h => (by cases h), fun _ _ h => (by cases h)⟩
  root := h.dir
  free p hp _ := h.empty p hp
  made _ hm := absurd hm List.not_mem_nil
  apart _ hm := absurd hm List.not_mem_nil
  inodes _ := rfl

/-- **An index is restored into an empty directory.** -/
theorem wp_restoreIndex {w : World} {text : Bytes} (hroot : RootNamed cfg)
    (hempty : EmptyRoot cfg w.target) (hindex : w.store.lookup cfg.indexfile = some (.file text))
    (h : IsIndexOf [] text l) (hl : ArrangedLines (inFull l)) :
    wp (restoreIndex cfg) (fun _ s => UnpackedTree cfg (inFull l) w.store s.world.target)
      (fun _ _ => ¬ (Smooth cfg ∧ ∀ line ∈ inFull l, source inodeOf (inFull l) line = line →
        Provided cfg w.store line.2)) { world := w } := by
  unfold restoreIndex
  rw [wp_bind, wp_onWorld, Backupfs.openRead, wp_bind]
  refine wp_tick_smooth ?_ fun hs hall => hs hall.1
  rw [wp_bind, wp_get, wp_liftExcept]
  dsimp only
  -- in a smooth run the index can be opened and read to its end
  cases hfile : Backupfs.fileAt (cfg.env w.clock).reads w.store cfg.indexfile with
  | error e =>
    rintro ⟨hs, -⟩
    unfold Backupfs.fileAt at hfile
    rw [(hs.undisturbed w.clock).2.2, hindex] at hfile
    cases hfile
  | ok f =>
    dsimp only
    cases hfault : f.fault with
    | some e =>
      have hno : ¬ Smooth cfg := by
        intro hs
        unfold Backupfs.fileAt at hfile
        rw [(hs.undisturbed w.clock).2.2, hindex] at hfile
        rw [← Except.ok.inj hfile] at hfault
        cases hfault
      refine wp_mono (wp_parse_indexIn_stops _ _) (fun _ _ h => h.elim) ?_
      exact fun _ _ _ hall => hno hall.1
    | none =>
      have htext : f.rest = text := by
        have hrest := lookup_of_fileAt_ok hfile hfault
        rw [hindex] at hrest
        cases hrest
        rfl
      have hlines : linesRead f = linesOf text := by
        unfold linesRead
        rw [hfault, htext]
        rfl
      rw [hlines, parse_indexIn_eq (fun _ => rfl) h]
      have hfull : l.map handed = (inFull l).map Prod.snd := by
        unfold inFull
        rw [List.map_map]
        rfl
      rw [hfull, wp_bind]
      refine wp_mono (wp_restoreLines (Unpacked.start hempty _) hroot hl id) ?_ fun _ _ h => h
      intro _ s hs
      -- the script ends with an error if there has been a warning
      rw [if_neg (by simp), pure_bind, wp_verdict]
      rcases hs with ⟨hzero, hs⟩ | ⟨hpos, hx⟩
      · rw [hzero, if_neg (Nat.lt_irrefl 0)]
        exact hs.tree
      · rw [if_pos hpos]
        exact hx

end Hbackup.Script
