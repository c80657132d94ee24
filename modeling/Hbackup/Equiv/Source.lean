import Hbackup.Equiv.Objects
import Hbackup.Equiv.Placed

/-!
# A tree in an index and a repository

A finished backup of an unchanging tree leaves an index of all of it, and the contents of every
large file in the repository (`do_backup_holds`).  The files of the tree are those of a filesystem
(`RealFiles`): a regular file has `st_size` bytes, and a device and an inode number stand for one
file.
-/

namespace Hbackup

open Preorder ProgramLogic

variable {cfg : Config} {host : Host} {hs : Option (List (Bytes × Hint))} {store hintStore : Store}
  {w w' : World} {depth : Nat}

/-! ### The files of a tree -/

/-- A file is identified by its device and its inode number. -/
def Stat.SameFile (sb sb' : Stat) : Prop := sb.st_dev = sb'.st_dev ∧ sb.st_ino = sb'.st_ino

/-- What holds of files: reading a regular file gives `st_size` bytes, unless there is an error
before its end, and a file is the same under all of its names. -/
structure RealFiles (host : Host) : Prop where
  names : RealNames host
  size : ∀ path sb data fault, host.lstat path = .ok sb → sb.is S_IFREG →
    host.data path = .ok (data, fault) →
    data.length ≤ sb.st_size ∧ (fault = none → data.length = sb.st_size)
  same : ∀ path path' sb sb', host.lstat path = .ok sb → host.lstat path' = .ok sb' →
    sb.SameFile sb' → sb' = sb ∧ host.data path' = host.data path

theorem RealFiles.bytes (h : RealFiles host) {path path' : Bytes} {sb sb' : Stat}
    (hstat : host.lstat path = .ok sb) (hstat' : host.lstat path' = .ok sb')
    (hsame : sb.SameFile sb') :
    host.bytes path' = host.bytes path := by
  unfold Host.bytes
  rw [(h.same path path' sb sb' hstat hstat' hsame).2]

/-- The hash of the contents. -/
def contentsHash (cfg : Config) (host : Host) (path : Bytes) (_ : Stat) : Hash :=
  cfg.sha1 (host.bytes path)

/-- The tree that is backed up, with the hashes of the contents. -/
abbrev Config.source (cfg : Config) (host : Host) : Tree := cfg.tree host (contentsHash cfg host)

/-- A hint that is used for a file is the hash of its contents. -/
def TruthfulHints (cfg : Config) (hintStore : Store) (host : Host) : Prop :=
  ∀ hs, Loads cfg hintStore hs → ∀ path sb h, host.lstat path = .ok sb → sb.is S_IFREG →
    findHint hs path sb = some h → ∃ data, host.data path = .ok (data, none) ∧ h = cfg.sha1 data

/-- Without a hint file there are no hints. -/
theorem truthfulHints_of_nil (hoff : cfg.hintfile = []) : TruthfulHints cfg hintStore host := by
  intro hs hloads path sb h _ _ hfind
  cases hloads with
  | off => cases hfind
  | none hon => exact absurd hoff hon
  | file hon => exact absurd hoff hon

/-- Where a hash comes from, the contents have been read. -/
theorem TruthfulHints.wasRead (h : TruthfulHints cfg hintStore host) (hhost : Unchanging cfg host)
    (hl : Loads cfg hintStore hs) {path : Bytes} {sb : Stat} {hash : Hash}
    (hstat : host.lstat path = .ok sb) (htype : sb.is S_IFREG)
    (hfrom : HashFrom cfg hs path sb hash) :
    ∃ data, host.data path = .ok (data, none) ∧ hash = cfg.sha1 data := by
  rcases hfrom with hhint | ⟨-, data, ⟨n, hread⟩, rfl⟩
  · exact h hs hl path sb hash hstat htype hhint
  · rw [hhost n] at hread
    exact ⟨data, hread, rfl⟩

theorem TruthfulHints.hashesFrom (h : TruthfulHints cfg hintStore host)
    (hhost : Unchanging cfg host) (hl : Loads cfg hintStore hs) :
    HashesFrom cfg hs host (contentsHash cfg host) := by
  intro path sb hash hstat htype hfrom
  obtain ⟨data, hdata, rfl⟩ := h.wasRead hhost hl hstat htype hfrom
  rw [contentsHash, Host.bytes, hdata]

/-! ### Entries -/

/-- Every entry is that of a file in some directory. -/
theorem Walk.entryOf {dir : Bytes} {es : List Entry} (h : Walk cfg hs depth dir es) {e : Entry}
    (hm : e ∈ es) : ∃ dir first name, EntryOf cfg hs dir first name e.sb e := by
  have hlines : ∀ {dir files first names es ds}, Lines cfg hs dir files first names es ds → e ∈ es →
      ∃ dir first name, EntryOf cfg hs dir first name e.sb e := by
    intro dir files first names es ds hl hm
    induction hl with
    | nil => cases hm
    | cons hentry _ _ ih =>
      rcases List.mem_cons.mp hm with rfl | hm
      · exact ⟨_, _, _, hentry.stat ▸ hentry⟩
      · exact ih hm
  induction depth generalizing dir es with
  | zero => exact h.elim
  | succ depth ih =>
    obtain ⟨own, ds, subs, ⟨n, c, files, -, -, hl⟩, hsubs, rfl⟩ := h
    rcases List.mem_append.mp hm with hm | hm
    · exact hlines hl hm
    · obtain ⟨sub, hsub, hm⟩ := List.mem_flatten.mp hm
      obtain ⟨⟨i, hi⟩, rfl⟩ := List.get_of_mem hsub
      obtain ⟨hlen, hwalks⟩ := List.forall₂_iff_get.mp hsubs
      exact ih (hwalks i (hlen ▸ hi) hi) hm

/-- What is written for a regular file are its contents, or their hash. -/
theorem KindOf.contents (hhost : Unchanging cfg host) (hreal : RealFiles host)
    (hhints : TruthfulHints cfg hintStore host) (hl : Loads cfg hintStore hs) {path : Bytes}
    {sb : Stat} {kind : Kind} (h : KindOf cfg hs path sb kind) (hstat : host.lstat path = .ok sb)
    (htype : sb.is S_IFREG) :
    kind = .data (host.bytes path) ∨ kind = .sha1 (cfg.sha1 (host.bytes path)) := by
  cases h with
  | @data data fault _ hsmall hread hsize =>
    obtain ⟨n, hn⟩ := hread
    rw [hhost n] at hn
    have hlength := (hreal.size path sb data fault hstat htype hn).1
    have hbytes : host.bytes path = data := by
      rw [Host.bytes, hn]
    rw [hbytes, List.take_of_length_le hlength]
    exact .inl rfl
  | sha1 _ _ hfrom =>
    rw [hhints.hashesFrom hhost hl path sb _ hstat htype hfrom]
    exact .inr rfl
  | dir h => rw [Stat.is_eq_false h (by decide : S_IFDIR ≠ S_IFREG)] at htype; cases htype
  | link h => rw [Stat.is_eq_false h (by decide : S_IFLNK ≠ S_IFREG)] at htype; cases htype
  | chr h => rw [Stat.is_eq_false h (by decide : S_IFCHR ≠ S_IFREG)] at htype; cases htype
  | blk h => rw [Stat.is_eq_false h (by decide : S_IFBLK ≠ S_IFREG)] at htype; cases htype
  | socket h => rw [Stat.is_eq_false h (by decide : S_IFSOCK ≠ S_IFREG)] at htype; cases htype

namespace Tree

variable {t : Tree}

/-- **The places of an index** are the files that are to be backed up. -/
theorem mem_places (hnames : RealNames t.host) (hwithin : Within t.subnames depth [])
    {p : List Bytes} : p ∈ (t.placed depth).map Prod.fst ↔ t.Kept p := by
  rw [placed, List.map_flatMap, List.mem_flatMap, kept_iff hnames.proper]
  constructor
  · rintro ⟨d, hd, hm⟩
    rw [placedBlock, map_fst_placedLines] at hm
    obtain ⟨name, hname, rfl⟩ := List.mem_map.mp hm
    exact ⟨d, name, rfl, ((mem_nodes hwithin isNode_nil).mp hd).2, hname⟩
  · rintro ⟨d, name, rfl, hnode, hname⟩
    refine ⟨d, (mem_nodes hwithin isNode_nil).mpr ⟨List.nil_prefix, hnode⟩, ?_⟩
    rw [placedBlock, map_fst_placedLines]
    exact List.mem_map.mpr ⟨name, hname, rfl⟩

/-- The entry at a place is that of the file there. -/
theorem entry_of_placed (hnames : RealNames t.host) {pe : Placed} (hm : pe ∈ t.placed depth) :
    pe.2.path = t.full pe.1 ∧ t.host.lstat (t.full pe.1) = .ok pe.2.sb ∧
      pe.2.uid = idName t.users.getpwuid pe.2.sb.st_uid ∧
      pe.2.gid = idName t.users.getgrgid pe.2.sb.st_gid ∧
      pe.2.kind = t.kind (t.full pe.1) pe.2.sb := by
  obtain ⟨pre, post, hsplit⟩ := List.append_of_mem hm
  obtain ⟨ds, d, before, name, h⟩ := placed_split hsplit
  obtain ⟨hnode, hname, -⟩ := h.facts hnames
  have hproper := proper_of_node hnames.proper hnode
  obtain ⟨first, hentry, -⟩ := h.entry
  have hpath : t.path (relpath d) name = t.full (d ++ [name]) := path_relpath hproper
  rw [h.place, hentry]
  refine ⟨hpath, lstat_own hproper hname, rfl, rfl, ?_⟩
  rw [← hpath]
  rfl

/-- A place has one entry. -/
theorem placed_injective (hnames : RealNames t.host) {pe qe : Placed} (hm : pe ∈ t.placed depth)
    (hm' : qe ∈ t.placed depth) (h : pe.1 = qe.1) : pe = qe :=
  List.inj_on_of_nodup_map (nodup_places hnames.proper) hm hm' h

end Tree

/-! ### The repository -/

/-- What is in the place of an object is a file that hashes to its name. -/
def GoodRepo (cfg : Config) (s : Store) : Prop :=
  ∀ h node, s.lookup (objectPath cfg.repo h) = some node → ∃ c, node = .file c ∧ cfg.sha1 c = h

/-- The contents that there are in the repository and in the tree. -/
def allContents (cfg : Config) (s : Store) (host : Host) : Set Bytes :=
  {c | (∃ h, s.lookup (objectPath cfg.repo h) = some (.file c)) ∨ ∃ path, host.bytes path = c}

/-- The objects of `done` are there, and what is new are contents of files of the tree. -/
structure AddedFrom (cfg : Config) (host : Host) (before : Store) (done : List Hashable)
    (s : Store) : Prop where
  objects : ∀ h node, s.lookup (objectPath cfg.repo h) = some node →
    before.lookup (objectPath cfg.repo h) = some node ∨
      ∃ hb ∈ done, hb.hash = h ∧ node = .file (host.bytes hb.path)
  done : ∀ hb ∈ done, (s.lookup (objectPath cfg.repo hb.hash)).isSome

/-- Copying keeps it. -/
theorem keeps_addedFrom (ho : Outside cfg) (hhost : Unchanging cfg host) (before : Store)
    (hs : Option (List (Bytes × Hint))) :
    KeepsRepo cfg hs (fun done _ w => AddedFrom cfg host before done w.store) (fun _ => True) where
  weaken _ := trivial
  congr := by
    intro done queue w w' h hsame
    have hlookup := hsame.lookup_object ho
    refine ⟨fun hash node hn => h.objects hash node (hlookup hash ▸ hn), fun hb hm => ?_⟩
    rw [hlookup]
    exact h.done hb hm
  queue h _ _ := h
  add := by
    intro done queue w w' hb K h hadd
    have hmore : ∀ {hb'}, hb' ∈ done → hb' ∈ done ++ [hb] := fun hm => List.mem_append_left _ hm
    cases hadd with
    | found hthere _ honly =>
      constructor
      · intro hash node hn
        rw [honly.store] at hn
        exact (h.objects hash node hn).imp_right fun ⟨hb', hm, hhash⟩ => ⟨hb', hmore hm, hhash⟩
      · intro hb' hm
        rw [honly.store]
        rcases List.mem_append.mp hm with hm | hm
        · exact h.done hb' hm
        · rw [List.mem_singleton.mp hm]
          exact hthere
    -- a new object has the contents that were read; the others stay
    | copied _ hin =>
      obtain ⟨data, hread, -, hcopied⟩ := hin.copied
      obtain rfl := hread.bytes hhost.sameData
      constructor
      · intro hash node hn
        by_cases he : hash = hb.hash
        · subst he
          rw [hcopied.object] at hn
          obtain rfl := Option.some.inj hn
          exact .inr ⟨hb, by simp, rfl, rfl⟩
        · rw [hcopied.lookup_object he] at hn
          exact (h.objects hash node hn).imp_right fun ⟨hb', hm, hhash⟩ => ⟨hb', hmore hm, hhash⟩
      · intro hb' hm
        by_cases he : hb'.hash = hb.hash
        · rw [he, hcopied.object]
          rfl
        · rw [hcopied.lookup_object he]
          rcases List.mem_append.mp hm with hm | hm
          · exact h.done hb' hm
          · rw [List.mem_singleton.mp hm] at he
            exact absurd rfl he
  scratch _ _ := trivial

/-- What is queued is named by an entry. -/
theorem queueOf_spec {es : List Entry} {all : List Hashable} {hb : Hashable}
    (hm : hb ∈ queueOf cfg all es) :
    hb ∈ all ∨ ∃ e ∈ es, e.path = hb.path ∧ e.kind = .sha1 hb.hash := by
  induction es generalizing all with
  | nil => exact .inl hm
  | cons e es ih =>
    rcases ih hm with hm | ⟨e', he', h⟩
    · rcases List.mem_append.mp hm with hm | hm
      · exact .inl hm
      · refine .inr ⟨e, List.mem_cons_self, ?_⟩
        unfold Entry.queued at hm
        split at hm
        · rename_i hash hk
          unfold queuedHash at hm
          split at hm
          · cases hm
          · rw [List.mem_singleton.mp hm]
            exact ⟨rfl, hk⟩
        · cases hm
    · exact .inr ⟨e', List.mem_cons_of_mem _ he', h⟩

/-! ### A finished backup -/

/-- The index of a tree is there, and all of the tree is in it. -/
structure HoldsIndex (cfg : Config) (host : Host) (hash : Bytes → Stat → Hash) (depth : Nat)
    (s : Store) : Prop where
  index : s.lookup cfg.indexfile =
    some (.file (indexText (((cfg.tree host hash).placed depth).map Prod.snd)))
  within : Within (cfg.tree host hash).subnames depth []

/-- **A finished backup of an unchanging tree leaves its index**; the hashes may come from hints. -/
theorem do_backup_index {hash : Bytes → Stat → Hash} (ho : Outside cfg)
    (hhost : Unchanging cfg host) (hnames : RealNames host)
    (hhash : ∀ hs, Loads cfg hintStore hs → HashesFrom cfg hs host hash)
    (hrun : do_backup cfg depth { store, hintStore } = .ok () w) :
    HoldsIndex cfg host hash depth w.store := by
  obtain ⟨hs, es, hloads, hwalk, hfin⟩ := wp_elim_ok (wp_do_backup ho depth trivial
    (fun _ _ => trivial) fun _ _ => keepsRepo_trivial) hrun
  have hproper : Proper [] := fun _ hm => absurd hm List.not_mem_nil
  have hroot : relpath [] = lit "." := rfl
  have hes := hwalk.eq_tree hhost (hhash hs hloads)
  rw [← Tree.map_snd_placed (t := cfg.tree host hash) hnames.proper] at hes
  rw [← hroot] at hwalk
  subst hes
  exact ⟨hfin.index, hwalk.within hproper hhost (hhash hs hloads) hnames.proper⟩

/-- What a backup of a tree leaves. -/
structure HoldsTree (cfg : Config) (host : Host) (depth : Nat) (before s : Store) : Prop extends
    HoldsIndex cfg host (contentsHash cfg host) depth s where
  /-- What is written for a regular file are its contents, or their hash. -/
  contents : ∀ pe ∈ (cfg.source host).placed depth, pe.2.sb.is S_IFREG →
    pe.2.kind = .data (host.bytes ((cfg.source host).full pe.1)) ∨
      pe.2.kind = .sha1 (cfg.sha1 (host.bytes ((cfg.source host).full pe.1)))
  repo : AddedFrom cfg host before
    (queueOf cfg [] (((cfg.source host).placed depth).map Prod.snd)) s

/-- **A finished backup of an unchanging tree holds all of it.** -/
theorem do_backup_holds (ho : Outside cfg) (hhost : Unchanging cfg host) (hreal : RealFiles host)
    (hhints : TruthfulHints cfg hintStore host)
    (hrun : do_backup cfg depth { store, hintStore } = .ok () w) :
    HoldsTree cfg host depth store w.store := by
  have hstart : AddedFrom cfg host store [] store := ⟨fun _ _ h => .inl h, by simp⟩
  obtain ⟨hs, es, hloads, hwalk, hfin⟩ := wp_elim_ok (wp_do_backup ho depth hstart
    (J := fun _ => True) (fun _ _ => trivial) fun hs _ => keeps_addedFrom ho hhost store hs) hrun
  have hhash := hhints.hashesFrom hhost hloads
  have hes : es = ((cfg.source host).placed depth).map Prod.snd := by
    rw [Tree.map_snd_placed (t := cfg.source host) hreal.names.proper]
    exact hwalk.eq_tree hhost hhash
  have hcontents : ∀ pe ∈ (cfg.source host).placed depth, pe.2.sb.is S_IFREG →
      pe.2.kind = .data (host.bytes ((cfg.source host).full pe.1)) ∨
        pe.2.kind = .sha1 (cfg.sha1 (host.bytes ((cfg.source host).full pe.1))) := by
    intro pe hm htype
    obtain ⟨hpath, hstat, -⟩ := Tree.entry_of_placed (t := cfg.source host) hreal.names hm
    have hmem : pe.2 ∈ es := by
      rw [hes]
      exact List.mem_map_of_mem hm
    obtain ⟨dir, first, name, hentry⟩ := hwalk.entryOf hmem
    rw [← hpath] at hstat ⊢
    exact hentry.kind.contents hhost hreal hhints hloads hstat htype
  subst hes
  exact ⟨do_backup_index ho hhost hreal.names (fun hs hl => hhints.hashesFrom hhost hl) hrun,
    hcontents, hfin.repo⟩

/-- **The contents of a large file are in the repository.** -/
theorem HoldsTree.object {before s : Store} (h : HoldsTree cfg host depth before s)
    (hreal : RealFiles host) (hrepo : GoodRepo cfg before)
    (hinj : Set.InjOn cfg.sha1 (allContents cfg before host)) {pe : Placed} {hash : Hash}
    (hm : pe ∈ (cfg.source host).placed depth) (hk : pe.2.kind = .sha1 hash) :
    s.lookup (objectPath cfg.repo hash) =
      some (.file (host.bytes ((cfg.source host).full pe.1))) := by
  -- the hash on a line is that of the contents
  have hhash : ∀ {qe hash}, qe ∈ (cfg.source host).placed depth → qe.2.kind = .sha1 hash →
      hash = cfg.sha1 (host.bytes qe.2.path) := by
    intro qe hash hq hqk
    obtain ⟨hpath, -, -, -, hkind⟩ := Tree.entry_of_placed (t := cfg.source host) hreal.names hq
    rw [hpath]
    exact (Tree.kind_eq_sha1 (hkind.symm.trans hqk)).2
  obtain ⟨hpath, -⟩ := Tree.entry_of_placed (t := cfg.source host) hreal.names hm
  have hmem : hash ∈ hashesOf (((cfg.source host).placed depth).map Prod.snd) :=
    mem_hashesOf (List.mem_map_of_mem hm) hk
  have hdone : hash ∈ (queueOf cfg [] (((cfg.source host).placed depth).map Prod.snd)).map
      Hashable.hash := mem_queueOf.mpr (.inr hmem)
  obtain ⟨hb, hqueued, rfl⟩ := List.mem_map.mp hdone
  obtain ⟨node, hnode⟩ := Option.isSome_iff_exists.mp (h.repo.done hb hqueued)
  have heq := hhash hm hk
  rw [hnode]
  rw [hpath] at heq
  rcases h.repo.objects hb.hash node hnode with hold | ⟨hb', hqueued', hb'hash, rfl⟩
  · -- the repository has had it
    obtain ⟨c, rfl, hc⟩ := hrepo hb.hash node hold
    have hsame := hinj (.inl ⟨_, hold⟩) (.inr ⟨_, rfl⟩) (hc.trans heq)
    rw [hsame]
  · -- it has been copied, perhaps from another file
    obtain ⟨e, he, hepath, hek⟩ := (queueOf_spec hqueued').resolve_left List.not_mem_nil
    obtain ⟨qe, hq, rfl⟩ := List.mem_map.mp he
    have hqhash := hhash hq hek
    rw [hepath, hb'hash, heq] at hqhash
    have hsame := hinj (.inr ⟨_, rfl⟩) (.inr ⟨_, rfl⟩) hqhash
    rw [hsame]

end Hbackup
