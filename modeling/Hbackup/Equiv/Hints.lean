import Hbackup.Equiv.Objects

/-!
# Hints over many backups

The hint file that a backup leaves is read back as the hints for its large files, whatever their
names, times and sizes (`loads_hintText`).  If contents are a function of path, size, mtime and
ctime, every hint in the file is the hash of the contents that it is used for, over any number of
backups (`History.right`), and a backup with hints makes what one without them does
(`hints_do_not_matter`).
-/

namespace Hbackup

open ProgramLogic FormCoding Separated

/-! ### Lines of the hint file -/

/-- The fields of a line. -/
def hintFields (path : Bytes) (h : Hash) (sb : Stat) : List (Bytes × Bytes) :=
  [(lit "name", path), (HASH_NAME, hexencode h.bytes), (lit "ctime", putTime sb.st_ctime),
    (lit "mtime", putTime sb.st_mtime), (lit "size", decimal sb.st_size)]

theorem hintLine_eq (path : Bytes) (h : Hash) (sb : Stat) :
    hintLine path h sb = joined (hintFields path h sb) ++ [10] := by
  have hkeys : lit "name=" = lit "name" ++ [61] ∧ lit "&" = [38] ∧ lit "=" = [61] ∧
      lit "&ctime=" = 38 :: (lit "ctime" ++ [61]) ∧ lit "&mtime=" = 38 :: (lit "mtime" ++ [61]) ∧
      lit "&size=" = 38 :: (lit "size" ++ [61]) ∧ lit "\n" = [10] := by decide
  obtain ⟨h1, h2, h3, h4, h5, h6, h7⟩ := hkeys
  have hnumber : ∀ n, urlencode (decimal n) = decimal n := fun n =>
    urlencode_of_plain (literal_decimal n)
  rw [hintFields, joined_cons, hintLine, h1, h2, h3, h4, h5, h6, h7]
  simp [part, putTime, hnumber, urlencode_of_plain (literal_hexencode _)]

theorem plainKeys_hintFields (path : Bytes) (h : Hash) (sb : Stat) :
    PlainKeys (hintFields path h sb) := by
  have hkeys : ∀ k ∈ [lit "name", HASH_NAME, lit "ctime", lit "mtime", lit "size"], Literal k := by
    decide +kernel
  intro kv hkv c hc
  exact (hkeys kv.1 (List.mem_map_of_mem (f := Prod.fst) hkv) c hc).1

/-- The hint for an entry, if it has one. -/
def Entry.hinted (e : Entry) : Option (Bytes × Hint) :=
  match e.kind with
  | .sha1 h => some (e.path, ⟨h, e.sb.st_ctime, e.sb.st_mtime, UInt64.ofNat e.sb.st_size⟩)
  | _ => none

/-- **The hint is what was stashed.** -/
theorem hintOf_hintFields (path : Bytes) (h : Hash) {sb : Stat} (hsize : sb.st_size < 2 ^ 64) :
    hintOf (Details.ofList (hintFields path h sb)) =
      .ok (path, ⟨h, sb.st_ctime, sb.st_mtime, UInt64.ofNat sb.st_size⟩) := by
  have hnodup : ((hintFields path h sb).map Prod.fst).Nodup := by
    change [lit "name", HASH_NAME, lit "ctime", lit "mtime", lit "size"].Nodup
    decide
  have hget : ∀ k v, (hintFields path h sb).lookup k = some v →
      (Details.ofList (hintFields path h sb)).get k = v := by
    intro k v hk
    rw [Details.get, Details.ofList_apply _ _ hnodup, hk]
    rfl
  rw [hintOf, hget HASH_NAME _ rfl, hget (lit "name") _ rfl, hget (lit "ctime") _ rfl,
    hget (lit "mtime") _ rfl, hget (lit "size") _ rfl, hashdecode_hexencode, strtoull_putTime,
    strtoull_putTime, strtoull_decimal hsize]
  rfl

/-! ### The whole file -/

/-- **The lines of the hint file are read as the hints.** -/
theorem entriesOf_hintText {es : List Entry} (hsize : ∀ e ∈ es, e.sb.st_size < 2 ^ 64) :
    ∃ ds, entriesOf ⟨hintText es ++ lit "[end]\n", none⟩ = (ds, none) ∧
      List.Forall₂ (fun d h => hintOf d = .ok h) ds (es.filterMap Entry.hinted) := by
  induction es with
  | nil => exact ⟨[], entriesOf_end [] none, .nil⟩
  | cons e es ih =>
    obtain ⟨ds, hread, hds⟩ := ih fun e' he' => hsize e' (List.mem_cons_of_mem e he')
    have hskip : e.hint = [] → e.hinted = none → ∃ ds,
        entriesOf ⟨hintText (e :: es) ++ lit "[end]\n", none⟩ = (ds, none) ∧
          List.Forall₂ (fun d h => hintOf d = .ok h) ds ((e :: es).filterMap Entry.hinted) := by
      intro htext hnone
      rw [hintText, List.flatMap_cons, htext, List.nil_append, List.filterMap_cons, hnone]
      exact ⟨ds, hread, hds⟩
    cases hkind : e.kind with
    | sha1 h =>
      have htext : e.hint = joined (hintFields e.path h e.sb) ++ [10] := by
        rw [Entry.hint, hkind]
        exact hintLine_eq e.path h e.sb
      have hplain := plainKeys_hintFields e.path h e.sb
      have hparse := parse_joined (by simp [hintFields]) hplain
      have hhint := hintOf_hintFields e.path h (hsize e List.mem_cons_self)
      refine ⟨Details.ofList (hintFields e.path h e.sb) :: ds, ?_, ?_⟩
      · rw [hintText, List.flatMap_cons, htext, List.append_assoc, List.append_assoc,
          List.singleton_append,
          entriesOf_line (newline_not_mem_joined hplain) (ne_end_of_parse hparse) hparse]
        rw [hintText] at hread
        rw [hread]
      · have hsome : e.hinted = some (e.path,
            ⟨h, e.sb.st_ctime, e.sb.st_mtime, UInt64.ofNat e.sb.st_size⟩) := by
          rw [Entry.hinted, hkind]
        rw [List.filterMap_cons, hsome]
        exact .cons hhint hds
    | _ => exact hskip (by rw [Entry.hint, hkind]) (by rw [Entry.hinted, hkind])

/-- The hints that the entries leave; of two for one path the later one is first. -/
def hintsOf (es : List Entry) : List (Bytes × Hint) := (es.filterMap Entry.hinted).reverse

/-- **The hint file is read back as the hints that were written to it.** -/
theorem Loads.eq_hintsOf {cfg : Config} {s : Store} {es : List Entry}
    {hs : Option (List (Bytes × Hint))} (h : Loads cfg s hs) (hon : cfg.hintfile ≠ [])
    (hfile : s.lookup cfg.hintfile = some (.file (hintText es ++ lit "[end]\n")))
    (hsize : ∀ e ∈ es, e.sb.st_size < 2 ^ 64) : hs = some (hintsOf es) := by
  obtain ⟨ds, hread, hds⟩ := entriesOf_hintText hsize
  have hloads : Loads cfg s (some (hintsOf es)) := .file hon hfile hread hds
  exact hloads.unique h rfl

/-! ### Contents that the status determines -/

/-- The contents of a file, by its path, size, mtime and ctime. -/
abbrev Contents := Bytes → Nat → Int64 → Int64 → Bytes

variable {D : Contents} {cfg : Config} {host : Host}

/-- The contents of the regular files of `host` are what `D` says. -/
structure Fits (D : Contents) (host : Host) : Prop where
  size : ∀ path sb, host.lstat path = .ok sb → sb.st_size < 2 ^ 63
  contents : ∀ path sb data, host.lstat path = .ok sb → sb.is S_IFREG →
    host.data path = .ok (data, none) → data = D path sb.st_size sb.st_mtime sb.st_ctime

/-- The hash of what `D` says. -/
def Contents.hash (D : Contents) (sha1 : Bytes → Hash) (path : Bytes) (sb : Stat) : Hash :=
  sha1 (D path sb.st_size sb.st_mtime sb.st_ctime)

/-- The hints are hashes of what `D` says. -/
def RightHints (D : Contents) (sha1 : Bytes → Hash) (hints : List (Bytes × Hint)) : Prop :=
  ∀ path h, (path, h) ∈ hints → h.hash = sha1 (D path h.st_size.toNat h.st_mtime h.st_ctime)

/-- **A hint that is used is the hash of the file's contents.** -/
theorem findHint_right {hs : Option (List (Bytes × Hint))} (hright : ∀ l ∈ hs, RightHints D cfg.sha1 l)
    {path : Bytes} {sb : Stat} {h : Hash} (hfind : findHint hs path sb = some h) :
    h = D.hash cfg.sha1 path sb := by
  unfold findHint at hfind
  split at hfind
  · cases hfind
  rename_i hint hlookup
  split at hfind
  · rename_i hsame
    obtain ⟨hsize, hmtime, hctime⟩ := hsame
    cases hfind
    obtain ⟨l, hl, hlookup⟩ := Option.bind_eq_some_iff.mp hlookup
    obtain ⟨l₁, l₂, hsplit, -⟩ := List.lookup_eq_some_iff.mp hlookup
    rw [hright l hl path hint (by rw [hsplit]; simp), Contents.hash, hsize, hmtime, hctime]
  · cases hfind

/-- With right hints, or none, every hash is that of the contents. -/
theorem hashesFrom_right {hs : Option (List (Bytes × Hint))} (hhost : Unchanging cfg host)
    (hfits : Fits D host) (hright : ∀ l ∈ hs, RightHints D cfg.sha1 l) :
    HashesFrom cfg hs host (D.hash cfg.sha1) := by
  rintro path sb h hstat htype (hfind | ⟨-, data, ⟨n, hread⟩, rfl⟩)
  · exact findHint_right hright hfind
  · rw [hhost n] at hread
    rw [hfits.contents path sb data hstat htype hread]
    rfl

/-- The hints for the entries of a tree are right. -/
theorem rightHints_hintsOf {t : Tree} (hfits : Fits D t.host) {sha1 : Bytes → Hash}
    (hhash : t.hash = D.hash sha1) (depth : Nat) (dir : Bytes) :
    RightHints D sha1 (hintsOf (t.entries depth dir)) := by
  intro path h hm
  obtain ⟨e, he, hhinted⟩ := List.mem_filterMap.mp (List.mem_reverse.mp hm)
  obtain ⟨hstat, hkind⟩ := Tree.mem_entries he
  unfold Entry.hinted at hhinted
  split at hhinted
  · rename_i hash heq
    cases hhinted
    obtain ⟨-, rfl⟩ := Tree.kind_eq_sha1 (hkind.symm.trans heq)
    have hsize := hfits.size _ _ hstat
    rw [hhash, Contents.hash, UInt64.toNat_ofNat_of_lt' (hsize.trans (by decide))]
  · cases hhinted

/-! ### One backup after another -/

/-- A backup with the hint file `hintfile`.  Its tree does not change meanwhile, and has the contents
`D`. -/
structure HintedBackup (D : Contents) (sha1 : Bytes → Hash) (hintfile : Bytes) where
  cfg : Config
  depth : Nat
  store : Store
  host : Host
  sha1_eq : cfg.sha1 = sha1
  hintfile_eq : cfg.hintfile = hintfile
  outside : Outside cfg
  unchanging : Unchanging cfg host
  fits : Fits D host

variable {sha1 : Bytes → Hash} {hintfile : Bytes}

namespace HintedBackup

variable (b : HintedBackup D sha1 hintfile)

/-- The backup, with the hint files that the one before has left. -/
def run (hintStore : Store) : EStateM.Result Stop World Unit :=
  do_backup b.cfg b.depth { store := b.store, hintStore }

/-- The entries of its tree. -/
def entries : List Entry := (b.cfg.tree b.host (D.hash sha1)).entries b.depth (lit ".")

end HintedBackup

/-- The hint files after some backups, the first of which found none; `last` is what the last
backup that has put a new hint file in its place has backed up.  A backup that stops has done so
only if the hint file is not what it was. -/
inductive History (D : Contents) (sha1 : Bytes → Hash) (hintfile : Bytes) :
    Option (List Entry) → Store → Prop
  | start {s : Store} (hnone : s.lookup hintfile = none) : History D sha1 hintfile none s
  | completed {last : Option (List Entry)} {s : Store} {w : World} (h : History D sha1 hintfile last s)
      (b : HintedBackup D sha1 hintfile) (hrun : b.run s = .ok () w) :
      History D sha1 hintfile (some b.entries) w.hintStore
  | stopped {last : Option (List Entry)} {s : Store} {stop : Stop} {w : World}
      (h : History D sha1 hintfile last s) (b : HintedBackup D sha1 hintfile)
      (hrun : b.run s = .error stop w) (hsame : w.hintStore.lookup hintfile = s.lookup hintfile) :
      History D sha1 hintfile last w.hintStore
  | replaced {last : Option (List Entry)} {s : Store} {stop : Stop} {w : World}
      (h : History D sha1 hintfile last s) (b : HintedBackup D sha1 hintfile)
      (hrun : b.run s = .error stop w) (hnew : w.hintStore.lookup hintfile ≠ s.lookup hintfile) :
      History D sha1 hintfile (some b.entries) w.hintStore

/-- The hint file holds the hints for `last`, and they are right. -/
structure Remembers (D : Contents) (sha1 : Bytes → Hash) (hintfile : Bytes)
    (last : Option (List Entry)) (s : Store) : Prop where
  file : s.lookup hintfile = last.map fun es => .file (hintText es ++ lit "[end]\n")
  size : ∀ es ∈ last, ∀ e ∈ es, e.sb.st_size < 2 ^ 64
  right : ∀ es ∈ last, RightHints D sha1 (hintsOf es)

theorem Remembers.loads {last : Option (List Entry)} {s : Store} (h : Remembers D sha1 hintfile last s)
    {cfg : Config} (hfile : cfg.hintfile = hintfile) (hon : hintfile ≠ [])
    {hs : Option (List (Bytes × Hint))} (hl : Loads cfg s hs) :
    hs = some (last.elim [] hintsOf) := by
  subst hfile
  cases last with
  | none =>
    have hloads : Loads cfg s (some []) := .none hon h.file
    exact hloads.unique hl rfl
  | some es => exact hl.eq_hintsOf hon h.file (h.size es rfl)

/-- The hints that are loaded are right. -/
theorem Remembers.right_loads {last : Option (List Entry)} {s : Store}
    (h : Remembers D sha1 hintfile last s) {cfg : Config} (hfile : cfg.hintfile = hintfile)
    (hon : hintfile ≠ []) {hs : Option (List (Bytes × Hint))} (hl : Loads cfg s hs) :
    ∀ l ∈ hs, RightHints D sha1 l := by
  rw [h.loads hfile hon hl]
  rintro l ⟨⟩
  cases last with
  | none => exact fun _ _ hm => absurd hm List.not_mem_nil
  | some es => exact h.right es rfl

/-- A backup remembers its tree. -/
theorem HintedBackup.remembers (b : HintedBackup D sha1 hintfile) {s : Store}
    (hfile : s.lookup hintfile = some (.file (hintText b.entries ++ lit "[end]\n"))) :
    Remembers D sha1 hintfile (some b.entries) s := by
  refine ⟨hfile, ?_, ?_⟩
  · rintro _ ⟨⟩ e he
    exact (b.fits.size _ _ (Tree.mem_entries he).1).trans (by decide)
  · rintro _ ⟨⟩
    exact rightHints_hintsOf b.fits rfl b.depth (lit ".")

/-- **One backup more.**  The entries of a run are those of its tree, and the hint file is the old one
or the new one. -/
theorem HintedBackup.wp_run (b : HintedBackup D sha1 hintfile) (hon : hintfile ≠ [])
    {last : Option (List Entry)} {s : Store} (h : Remembers D sha1 hintfile last s) :
    wp (do_backup b.cfg b.depth)
      (fun _ w => Remembers D sha1 hintfile (some b.entries) w.hintStore)
      (fun _ w => w.hintStore.lookup hintfile = s.lookup hintfile ∨
        Remembers D sha1 hintfile (some b.entries) w.hintStore) { store := b.store, hintStore := s } := by
  have hentries : ∀ {hs es}, Loads b.cfg s hs → Walk b.cfg hs b.depth (lit ".") es →
      es = b.entries := by
    intro hs es hl hwalk
    refine hwalk.eq_tree b.unchanging (hashesFrom_right b.unchanging b.fits ?_) |>.trans ?_
    · rw [b.sha1_eq]
      exact h.right_loads b.hintfile_eq hon hl
    · rw [HintedBackup.entries, b.sha1_eq]
  refine wp_mono (wp_do_backup b.outside b.depth trivial (fun _ _ => trivial)
    fun _ _ => keepsRepo_trivial) ?_ ?_
  · rintro _ w ⟨hs, es, hl, hwalk, hfin⟩
    rw [hentries hl hwalk] at hfin
    have hnew := hfin.hints (by rw [b.hintfile_eq]; exact hon)
    rw [b.hintfile_eq] at hnew
    exact b.remembers hnew
  · rintro _ w (⟨-, hsame⟩ | ⟨hs, es, hl, hwalk, hend⟩)
    · rw [b.hintfile_eq] at hsame
      exact .inl hsame
    · have hfile := hend.hints
      rw [hentries hl hwalk, b.hintfile_eq] at hfile
      exact hfile.imp_right b.remembers

/-- **The hint file of any number of backups is right.** -/
theorem History.remembers {last : Option (List Entry)} {s : Store}
    (h : History D sha1 hintfile last s) (hon : hintfile ≠ []) :
    Remembers D sha1 hintfile last s := by
  induction h with
  | start hnone => exact ⟨hnone, by simp, by simp⟩
  | completed h b hrun ih =>
    exact wp_elim_ok (m := do_backup b.cfg b.depth) (b.wp_run hon ih) hrun
  | stopped h b hrun hsame ih => exact ⟨hsame.trans ih.file, ih.size, ih.right⟩
  | replaced h b hrun hnew ih =>
    rcases wp_elim_error (m := do_backup b.cfg b.depth) (b.wp_run hon ih) hrun with hsame | hremembers
    · exact absurd hsame hnew
    · exact hremembers

/-! ### Loading the hints -/

/-- Lines that are hints are all taken. -/
theorem wp_loadHints_all {ds : List Details} {l : List (Bytes × Hint)}
    (hds : List.Forall₂ (fun d h => hintOf d = .ok h) ds l) {w : World} {acc : List (Bytes × Hint)}
    (hw : w.hints = some acc) :
    wp (ds.forM loadHint) (fun _ w' => w'.hints = some (l.reverse ++ acc)) (fun _ _ => False) w := by
  induction hds generalizing w acc with
  | nil => exact hw
  | @cons d h ds l hd _ ih =>
    change wp (loadHint d >>= fun _ => ds.forM loadHint) _ _ w
    rw [wp_bind]
    refine wp_mono (wp_loadHint d w) ?_ ?_
    · rintro _ w₁ ⟨h', hh', rfl⟩
      obtain rfl : h = h' := Except.ok.inj (hd.symm.trans hh')
      rw [List.reverse_cons, List.append_assoc]
      exact ih (by rw [hw]; rfl)
    · rintro _ w₁ ⟨-, e, he⟩
      rw [hd] at he
      cases he

/-- **`load_hints` loads what the last backup wrote**, unless a call fails. -/
theorem wp_load_hintText {cfg : Config} {w : World} {last : Option (List Entry)} (hon : hintfile ≠ [])
    (hfile : cfg.hintfile = hintfile) (h : Remembers D sha1 hintfile last w.hintStore)
    (hw : w.hints = some []) :
    wp (load_hints cfg) (fun _ w' => w'.hints = some (last.elim [] hintsOf))
      (fun _ _ => ∃ n, (cfg.env n).killed = true ∨ (cfg.env n).fault.isSome) w := by
  subst hfile
  -- a call on the local filesystem returns, or has failed
  have hcall : ∀ {α : Type} (doing : String) (k : Moment → M α) {Q : α → World → Prop} (w : World),
      wp (onLocal (k (cfg.env w.clock))) Q
        (fun _ _ => ∃ n, (cfg.env n).killed = true ∨ (cfg.env n).fault.isSome)
        { w with clock := w.clock + 1 } →
      wp (onLocal (call cfg doing cfg.hintfile >>= k)) Q
        (fun _ _ => ∃ n, (cfg.env n).killed = true ∨ (cfg.env n).fault.isSome) w := by
    intro α doing k Q w hk
    rw [wp_onLocal, wp_bind]
    refine wp_mono (wp_call_untouched cfg doing _ _) ?_ fun _ _ hstop => ⟨_, hstop.2⟩
    rintro m w' ⟨rfl, rfl⟩
    rwa [wp_onLocal] at hk
  rw [load_hints, wp_bind]
  refine hcall _ _ _ ?_
  rw [wp_onLocal, wp_bind, wp_get, wp_pure, wp_ite]
  cases last with
  | none =>
    have hnone : w.hintStore.lookup cfg.hintfile = none := h.file
    simp only [hnone]
    exact hw
  | some es =>
    obtain ⟨ds, hread, hds⟩ := entriesOf_hintText (h.size es rfl)
    have hsome : w.hintStore.lookup cfg.hintfile = some (.file (hintText es ++ lit "[end]\n")) := h.file
    simp only [hsome, Option.isSome_some, if_true]
    rw [wp_bind, readHints]
    refine hcall _ _ _ ?_
    rw [wp_onLocal, wp_bind, wp_get, wp_liftExcept, Backupfs.fileAt]
    simp only [hsome]
    rw [whileReadIndexLine_eq_entriesOf, hread, wp_bind]
    refine wp_mono (wp_loadHints_all hds hw) ?_ fun _ _ hfalse => hfalse.elim
    intro _ w' hw'
    rw [List.append_nil] at hw'
    exact hw'

/-! ### With hints and without -/

/-- The indexes of two runs are the same if both name the contents `D`. -/
theorem index_eq_of_entries (cfg : Config) (hash : Bytes → Stat → Hash) (ho : Outside cfg)
    (hhost : Unchanging cfg host) (depth : Nat) {store hintStore : Store}
    (hhash : ∀ hs, Loads cfg hintStore hs → HashesFrom cfg hs host hash) {w : World}
    (hrun : do_backup cfg depth { store, hintStore } = .ok () w) :
    w.store.lookup cfg.indexfile =
      some (.file (indexText ((cfg.tree host hash).entries depth (lit ".")))) := by
  obtain ⟨hs, es, hl, hwalk, hfin⟩ := wp_elim_ok (wp_do_backup ho depth trivial
    (fun _ _ => trivial) fun _ _ => keepsRepo_trivial) hrun
  rw [← hwalk.eq_tree hhost (hhash hs hl)]
  exact hfin.index

/-- **Hints do not change the result.**  After any backups with the hint file, `load_hints` loads the
map that the last of them wrote, and a backup with these hints leaves the same index and the same
objects as one without hints. -/
theorem hints_do_not_matter (D : Contents) (sha1 : Bytes → Hash) (hintfile : Bytes)
    (last : Option (List Entry)) (hintStore : Store) (hon : hintfile ≠ [])
    (h : History D sha1 hintfile last hintStore) (b : HintedBackup D sha1 hintfile) :
    (∀ w, w.hintStore = hintStore → w.hints = some [] →
      wp (load_hints b.cfg) (fun _ w' => w'.hints = some (last.elim [] hintsOf))
        (fun _ _ => ∃ n, (b.cfg.env n).killed = true ∨ (b.cfg.env n).fault.isSome) w) ∧
    ∀ w env w', b.run hintStore = .ok () w →
      Unchanging { b.cfg with hintfile := [], env } b.host →
      do_backup { b.cfg with hintfile := [], env } b.depth { store := b.store, hintStore } =
        .ok () w' →
      w'.store.lookup b.cfg.indexfile = w.store.lookup b.cfg.indexfile ∧
        (Faultless b.cfg → Faultless { b.cfg with hintfile := [], env } → SameBackup b.cfg w w') := by
  have hremembers := h.remembers hon
  refine ⟨fun w hw hhints => ?_, fun w env w' hrun hhost' hrun' => ?_⟩
  · exact wp_load_hintText hon b.hintfile_eq (hw ▸ hremembers) hhints
  have hrun : do_backup b.cfg b.depth { store := b.store, hintStore } = .ok () w := hrun
  -- both runs name the contents that `D` gives
  have hhash : ∀ hs, Loads b.cfg hintStore hs →
      HashesFrom b.cfg hs b.host (D.hash b.cfg.sha1) := fun hs hl =>
    hashesFrom_right b.unchanging b.fits (by
      rw [b.sha1_eq]
      exact hremembers.right_loads b.hintfile_eq hon hl)
  have hhash' : ∀ hs, Loads { b.cfg with hintfile := [], env } hintStore hs →
      HashesFrom { b.cfg with hintfile := [], env } hs b.host (D.hash b.cfg.sha1) := by
    intro hs hl
    refine hashesFrom_right hhost' b.fits ?_
    cases hl with
    | off => simp
    | none hon' => exact absurd rfl hon'
    | file hon' => exact absurd rfl hon'
  have hindex : w'.store.lookup b.cfg.indexfile = w.store.lookup b.cfg.indexfile :=
    (index_eq_of_entries { b.cfg with hintfile := [], env } (D.hash b.cfg.sha1)
      ⟨b.outside.indexfile⟩ hhost' b.depth hhash' hrun').trans (index_eq_of_entries b.cfg
        (D.hash b.cfg.sha1) b.outside b.unchanging b.depth hhash hrun).symm
  refine ⟨hindex, fun hfault hfault' => ?_⟩
  have hfin := wp_elim_ok (wp_do_backup_tree b.cfg (D.hash b.cfg.sha1) b.outside b.unchanging hfault b.depth hhash) hrun
  have hfin' := wp_elim_ok (wp_do_backup_tree { b.cfg with hintfile := [], env }
    (D.hash b.cfg.sha1) ⟨b.outside.indexfile⟩ hhost' hfault' b.depth hhash') hrun'
  exact ⟨hindex, hfin.repo.objects.symm.trans hfin'.repo.objects,
    fun h => (hfin'.repo.copies h).trans (hfin.repo.copies h).symm⟩

/-- A backup of one large file with a hint file. -/
def hintedFile : HintedBackup (fun _ _ _ _ => List.replicate 300 1) (largeFile 1000).sha1
    (lit "hints") where
  cfg := { largeFile 1000 with hintfile := lit "hints" }
  depth := 1
  store := ∅
  host := ((largeFile 1000).env 0).host
  sha1_eq := rfl
  hintfile_eq := rfl
  outside := ⟨by unfold Under; decide +kernel⟩
  unchanging _ := rfl
  fits := {
    size := by
      rintro path sb ⟨⟩
      decide
    contents := by
      rintro path sb data - - ⟨⟩
      rfl }

/-- The second backup takes the hash from the hints. -/
theorem sameBackup_hintedFile : ∃ w w', SameBackup hintedFile.cfg w w' := by
  have hfirst : value? (do_backup hintedFile.cfg 1) { store := ∅, hintStore := ∅ } = some () := by
    decide +kernel
  have hsecond : value? (do_backup hintedFile.cfg 1) { store := ∅, hintStore :=
      (stateAfter (do_backup hintedFile.cfg 1) { store := ∅, hintStore := ∅ }).hintStore } =
        some () := by decide +kernel
  have hplain : value? (do_backup { hintedFile.cfg with hintfile := [], env := (largeFile 1000).env } 1)
      { store := ∅, hintStore :=
        (stateAfter (do_backup hintedFile.cfg 1) { store := ∅, hintStore := ∅ }).hintStore } =
          some () := by decide +kernel
  obtain ⟨w₁, hrun₁, w, hrun, w', hrun'⟩ : ∃ w₁, hintedFile.run ∅ = .ok () w₁ ∧
      ∃ w, hintedFile.run w₁.hintStore = .ok () w ∧ ∃ w',
        do_backup { hintedFile.cfg with hintfile := [], env := (largeFile 1000).env } 1
          { store := ∅, hintStore := w₁.hintStore } = .ok () w' :=
    ⟨_, ok_of_value? hfirst, _, ok_of_value? hsecond, _, ok_of_value? hplain⟩
  refine ⟨w, w', ?_⟩
  have hhistory : History _ _ (lit "hints") _ w₁.hintStore :=
    .completed (.start (s := ∅) (by rfl)) hintedFile hrun₁
  exact ((hints_do_not_matter _ _ (lit "hints") _ w₁.hintStore (by decide) hhistory hintedFile).2
    w (largeFile 1000).env w' hrun (fun _ => rfl) hrun').2 (fun _ => rfl) (fun _ => rfl)

end Hbackup
