import Hbackup.Equiv.Atime
import Hbackup.Equiv.Objects

/-!
# When access times are preserved

With `--preserve-atime` a backup leaves the access times of all files as they were exactly if it
copies nothing into the repository (`preserves_iff`).  On a tree of which only the access times
change, that is so if the repository already has every hash that is looked for; the hashes do not
depend on access times, so they are those of the tree without them (`Walk.still`).
-/

namespace Hbackup

open ProgramLogic

variable {cfg : Config} {hs : Option (List (Bytes × Hint))} {host : Host} {dir : Bytes}

/-! ### A tree without its access times -/

/-- The status without the access time. -/
def Stat.still (sb : Stat) : Stat := { sb with st_atime := 0 }

/-- Calls that give no access times. -/
def Host.still (host : Host) : Host :=
  { host with lstat := fun path => (host.lstat path).map Stat.still }

/-- The same tree, without its access times. -/
def Config.still (cfg : Config) : Config :=
  { cfg with env := fun n => { cfg.env n with host := (cfg.env n).host.still } }

/-- The entry without the access time. -/
def Entry.still (e : Entry) : Entry := { e with sb := e.sb.still }

@[simp] theorem Stat.is_still (sb : Stat) (type : UInt32) : sb.still.is type = sb.is type := rfl

theorem lookup_still (files : List (Bytes × Stat)) (name : Bytes) :
    (files.map (Prod.map id Stat.still)).lookup name = (files.lookup name).map Stat.still := by
  induction files with
  | nil => rfl
  | cons f files ih =>
    obtain ⟨n, sb⟩ := f
    rw [List.map_cons, List.lookup_cons, Prod.map_apply, List.lookup_cons, ih, id_eq]
    cases name == n <;> rfl

theorem statOf_still (files : List (Bytes × Stat)) (name : Bytes) :
    statOf (files.map (Prod.map id Stat.still)) name = (statOf files name).still := by
  rw [statOf, ← List.map_reverse, lookup_still, statOf]
  cases files.reverse.lookup name <;> rfl

theorem sortedNames_still (files : List (Bytes × Stat)) :
    sortedNames (files.map (Prod.map id Stat.still)) = sortedNames files := by
  rw [sortedNames, List.map_map]
  rfl

theorem KindOf.still {path : Bytes} {sb : Stat} {k : Kind} (h : KindOf cfg hs path sb k) :
    KindOf cfg.still hs path sb.still k := by
  cases h with
  | data htype hsmall hread hsize => exact .data htype hsmall hread hsize
  | sha1 htype hlarge hfrom => exact .sha1 htype hlarge hfrom
  | dir htype => exact .dir htype
  | @link n target htype hread hsize => exact .link (n := n) htype hread hsize
  | chr htype => exact .chr htype
  | blk htype => exact .blk htype
  | socket htype => exact .socket htype

theorem EntryOf.still {first : Bool} {name : Bytes} {sb : Stat} {e : Entry}
    (h : EntryOf cfg hs dir first name sb e) :
    EntryOf cfg.still hs dir first name sb.still e.still where
  path := h.path
  relname := h.relname
  stat := congrArg Stat.still h.stat
  uid := h.uid
  gid := h.gid
  kind := h.kind.still

theorem Enters.still {name : Bytes} {sb : Stat} {entered : List Bytes}
    (h : Enters cfg dir name sb entered) : Enters cfg.still dir name sb.still entered := by
  cases h with
  | file htype => exact .file htype
  | crossfs htype hcross => exact .crossfs htype hcross
  | @onefs n mount htype hcross hmount => exact .onefs (n := n) htype hcross hmount

theorem lstat_still {n : Nat} {path : Bytes} {answer : Except Errno Stat}
    (h : (cfg.env n).host.lstat path = answer) :
    (cfg.still.env n).host.lstat path = answer.map Stat.still := by
  rw [← h]
  rfl

theorem Stats.still {c : List Bytes} {files : List (Bytes × Stat)} (h : Stats cfg dir c files) :
    Stats cfg.still dir c (files.map (Prod.map id Stat.still)) := by
  induction h with
  | nil => exact .nil
  | skip hskip _ ih => exact .skip hskip ih
  | gone hname hexcluded hgone _ ih => exact .gone hname hexcluded (lstat_still hgone) ih
  | unknown hname hexcluded hstat hknown _ ih =>
    exact .unknown hname hexcluded (lstat_still hstat) hknown ih
  | cons hname hexcluded hstat hknown _ ih =>
    exact .cons hname hexcluded (lstat_still hstat) hknown ih

theorem Lines.still {files : List (Bytes × Stat)} {first : Bool} {names : List Bytes}
    {es : List Entry} {ds : List Bytes} (h : Lines cfg hs dir files first names es ds) :
    Lines cfg.still hs dir (files.map (Prod.map id Stat.still)) first names (es.map Entry.still) ds := by
  induction h with
  | nil => exact .nil
  | cons hentry henters _ ih =>
    refine .cons ?_ ?_ ih
    · rw [statOf_still]
      exact hentry.still
    · rw [statOf_still]
      exact henters.still

/-- **The entries of a tree without its access times.** -/
theorem Walk.still {depth : Nat} {es : List Entry} (h : Walk cfg hs depth dir es) :
    Walk cfg.still hs depth dir (es.map Entry.still) := by
  induction depth generalizing dir es with
  | zero => exact h.elim
  | succ depth ih =>
    obtain ⟨own, ds, subs, ⟨n, c, files, hcontents, hstats, hlines⟩, hsubs, rfl⟩ := h
    refine ⟨own.map Entry.still, ds, subs.map (List.map Entry.still),
      ⟨n, c, _, hcontents, hstats.still, ?_⟩, ?_, ?_⟩
    · rw [sortedNames_still]
      exact hlines.still
    · exact List.forall₂_map_right_iff.mpr (hsubs.imp fun _ _ hw => ih hw)
    · rw [List.map_append, List.map_flatten]

theorem hashesOf_still (es : List Entry) : hashesOf (es.map Entry.still) = hashesOf es := by
  rw [hashesOf, List.filterMap_map]
  rfl

/-! ### The run -/

/-- **A backup leaves the access times as they were exactly if it copies nothing**; on a tree of which
only the access times change, exactly if the repository has every hash that is looked for. -/
theorem preserves_iff {φ : Type} [DecidableEq φ] (cfg : Config) (depth : Nat) (store hintStore : Store)
    (w : World) (fs : AtimeFs φ) (ho : Outside cfg) (hatime : cfg.preserve_atime = true)
    (hrun : do_backup cfg depth { store, hintStore } = .ok () w) (htrue : fs.Truthful w.accesses)
    (hlater : ∀ n f, fs.now n ≠ fs.before f) :
    (fs.Preserves w.accesses ↔ ∀ h, copies cfg h w = 0) ∧
    ∀ host, Unchanging cfg.still host → Faultless cfg → ∃ hs, Loads cfg hintStore hs ∧
      (fs.Preserves w.accesses ↔
        ∀ h ∈ hashesOf ((cfg.tree host (hintedHash cfg hs host)).entries depth (lit ".")),
          (store.lookup (objectPath cfg.repo h)).isSome) := by
  have htimes := wp_elim_ok (wp_do_backup_times fs ho hatime depth store hintStore) hrun htrue
  have hcopies : fs.Preserves w.accesses ↔ ∀ h, copies cfg h w = 0 := by
    simp only [copies, List.count_eq_zero]
    constructor
    · intro hpres h hh
      obtain ⟨path, sb, n, hlstat, htype, hnow⟩ := htimes.touched h hh
      exact hlater n _ (hnow.symm.trans (hpres path sb hlstat htype))
    · intro hno path sb _ _
      rw [htimes.kept hno]
  refine ⟨hcopies, fun host hhost hfault => ?_⟩
  have hdata : SameData cfg host := fun n =>
    show (cfg.still.env n).host.data = host.data by rw [hhost n]
  obtain ⟨hs, es, hloads, hwalk, hfin⟩ := wp_elim_ok (wp_do_backup ho depth
    (Backed.nil host.bytes store hintStore) (J := fun _ => True) (fun _ _ => trivial)
    fun hs _ => keeps_backed ho hdata hfault store hs) hrun
  have hes : es.map Entry.still = (cfg.tree host (hintedHash cfg hs host)).entries depth (lit ".") :=
    hwalk.still.eq_tree hhost (hashesFrom_hintedHash hhost hs)
  refine ⟨hs, hloads, hcopies.trans ?_⟩
  rw [← hes, hashesOf_still]
  refine forall_congr' fun h => ?_
  rw [hfin.repo.copies h]
  simp [mem_queueOf, Option.isSome_iff_ne_none]

/-! ### A file that is new -/

/-- A backup of one large file, with `--preserve-atime`. -/
def keptFile : Config := { largeFile 1000 with preserve_atime := true }

/-- Every path is a file of its own, last read at time 0; the backup runs at time 1. -/
def atTimeOne : AtimeFs Bytes where
  file := id
  now _ := 1
  before _ := 0

theorem atTimeOne_later (n : Nat) (f : Bytes) : atTimeOne.now n ≠ atTimeOne.before f :=
  (by decide : (1 : Int64) ≠ 0)

/-- The status of its file. -/
def keptStat : Stat := { (default : Stat) with st_mode := S_IFREG, st_size := 300 }

/-- The calls of a run into an empty repository. -/
def keptFileAccesses : List Access :=
  [.read (lit "/home/a"), .utimes (lit "/home/a") 0 0, .read (lit "/home/a"),
    .lstat (lit "/home/a") keptStat]

theorem keptFile_run : ∃ w, do_backup keptFile 1 { store := ∅, hintStore := ∅ } = .ok () w ∧
    w.accesses = keptFileAccesses := by
  have hvalue : value? (do_backup keptFile 1) { store := ∅, hintStore := ∅ } = some () := by
    decide +kernel
  have haccesses : (stateAfter (do_backup keptFile 1) { store := ∅, hintStore := ∅ }).accesses =
      keptFileAccesses := by decide +kernel
  exact ⟨_, ok_of_value? hvalue, haccesses⟩

theorem outside_keptFile : Outside keptFile := ⟨by unfold Under; decide +kernel⟩

theorem truthful_keptFile : atTimeOne.Truthful keptFileAccesses :=
  ⟨fun _ => by decide +kernel, trivial⟩

/-- A file whose contents are new to the repository is read again after its access time has been set
back. -/
theorem not_preserves : ¬ ∀ (cfg : Config) (depth : Nat) (store hintStore : Store) (w : World)
    (fs : AtimeFs Bytes), Outside cfg → cfg.preserve_atime = true →
    do_backup cfg depth { store, hintStore } = .ok () w → fs.Truthful w.accesses →
    (∀ n f, fs.now n ≠ fs.before f) → fs.Preserves w.accesses := by
  intro h
  obtain ⟨w, hrun, haccesses⟩ := keptFile_run
  have hpres := h keptFile 1 ∅ ∅ w atTimeOne outside_keptFile rfl hrun
    (haccesses ▸ truthful_keptFile) atTimeOne_later
  rw [haccesses] at hpres
  exact absurd (hpres (lit "/home/a") keptStat (by simp [keptFileAccesses]) (by decide +kernel))
    (by decide +kernel)

/-- The repository has the contents of the file. -/
def keptStore : Store :=
  (∅ : Store).insert (objectPath (lit "repo") ((largeFile 0).sha1 []))
    (.file (List.replicate 300 1))

/-- The file is read once, and its access time is set back. -/
def keptStoreAccesses : List Access :=
  [.utimes (lit "/home/a") 0 0, .read (lit "/home/a"), .lstat (lit "/home/a") keptStat]

/-- A backup of a file whose contents the repository has leaves its access time as it was. -/
theorem preserves_keptFile :
    ∃ w, do_backup keptFile 1 { store := keptStore, hintStore := ∅ } = .ok () w ∧
      Access.read (lit "/home/a") ∈ w.accesses ∧ atTimeOne.Preserves w.accesses := by
  have hvalue : value? (do_backup keptFile 1) { store := keptStore, hintStore := ∅ } = some () := by
    decide +kernel
  have hcalls : (stateAfter (do_backup keptFile 1) { store := keptStore, hintStore := ∅ }).accesses =
      keptStoreAccesses := by decide +kernel
  have hwritten : (stateAfter (do_backup keptFile 1)
      { store := keptStore, hintStore := ∅ }).written = [lit "index"] := by decide +kernel
  obtain ⟨w, hrun, haccesses, hnone⟩ : ∃ w,
      do_backup keptFile 1 { store := keptStore, hintStore := ∅ } = .ok () w ∧
        w.accesses = keptStoreAccesses ∧ w.written = [lit "index"] :=
    ⟨_, ok_of_value? hvalue, hcalls, hwritten⟩
  have htruthful : atTimeOne.Truthful keptStoreAccesses := ⟨fun _ => by decide +kernel, trivial⟩
  refine ⟨w, hrun, by simp [haccesses, keptStoreAccesses], ?_⟩
  refine (preserves_iff keptFile 1 keptStore ∅ w atTimeOne outside_keptFile rfl hrun
    (haccesses ▸ htruthful) atTimeOne_later).1.mpr fun h => ?_
  -- only the index has been written
  rw [copies, hnone, List.count_eq_zero, List.mem_singleton]
  exact (ne_objectPath_of_length (by decide) h).symm

end Hbackup
