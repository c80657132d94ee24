import Hbackup.Equiv.Paths
import Hbackup.Equiv.Writes
import Hbackup.Shared

/-!
# A backup by itself

Run by itself, the program of calls that stands for `addHashable` is `addHashable`
(`interp_addHashable`).
-/

namespace Hbackup.Shared

open Concurrent Prog ProgramLogic

variable {cfg : Config}

/-! ### Calls -/

theorem interp_exists (path : Bytes) :
    interp Fatal (onWorld cfg) (exists_ path) = Backupfs.exists_ cfg path := interp_perform _ _ _

theorem interp_openHost (path : Bytes) : interp Fatal (onWorld cfg) (openHost path) = (do
      let m ← tick cfg
      match m.host.data path with
      | .error e => throwExn (.fileError "opening" path e)
      | .ok r => return r : M (Bytes × Option Errno)) := interp_perform _ _ _

theorem interp_readHost (path : Bytes) :
    interp Fatal (onWorld cfg) (readHost path) = access (.read path) := interp_perform _ _ _

theorem interp_openWrite (path : Bytes) :
    interp Fatal (onWorld cfg) (openWrite path) = Backupfs.openWrite cfg path := interp_perform _ _ _

theorem interp_writebytes (path block : Bytes) :
    interp Fatal (onWorld cfg) (writebytes path block) = Backupfs.writebytes cfg path block :=
  interp_perform _ _ _

theorem interp_close : interp Fatal (onWorld cfg) close = (pure () : M Unit) := interp_perform _ _ _

theorem interp_rename (oldpath newpath : Bytes) :
    interp Fatal (onWorld cfg) (rename oldpath newpath) = Backupfs.rename cfg oldpath newpath :=
  interp_perform _ _ _

theorem interp_mkdir (path : Bytes) :
    interp Fatal (onWorld cfg) (mkdir path) = Backupfs.mkdir cfg path := interp_perform _ _ _

/-! ### Programs -/

theorem interp_flush (f : OFile) :
    interp Fatal (onWorld cfg) (flush f) = f.flush (Backupfs.writebytes cfg) := by
  unfold flush OFile.flush
  dsimp only
  rw [interp_ite, interp_bind, interp_writebytes]
  rfl

theorem interp_put1 (f : OFile) (c : UInt8) :
    interp Fatal (onWorld cfg) (put1 f c) = f.put1 (Backupfs.writebytes cfg) c := by
  unfold put1 OFile.put1
  dsimp only
  rw [interp_ite, interp_bind, interp_flush]
  rfl

theorem interp_put (f : OFile) (s : Bytes) :
    interp Fatal (onWorld cfg) (put f s) = f.put (Backupfs.writebytes cfg) s :=
  interp_foldlM _ _ interp_put1 s f

theorem interp_makedir (dir : Bytes) :
    interp Fatal (onWorld cfg) (do if ← exists_ dir then return else mkdir dir) =
      (do if ← Backupfs.exists_ cfg dir then return else Backupfs.mkdir cfg dir) := by
  rw [interp_bind, interp_exists]
  simp only [interp_ite, interp_mkdir]
  rfl

theorem interp_makedirs (path : Bytes) :
    interp Fatal (onWorld cfg) (makedirs path) = Hbackup.makedirs cfg path := by
  unfold makedirs Hbackup.makedirs
  rw [interp_bind, interp_exists]
  simp only [interp_ite, interp_bind, interp_mkdir, interp_forM _ _ interp_makedir]
  rfl

theorem interp_openObject (hp : Bytes) :
    interp Fatal (onWorld cfg) (openObject hp) = Hbackup.openObject cfg hp := by
  unfold openObject Hbackup.openObject
  rw [interp_handle _ _ _ (by rintro _ rfl; rfl), interp_openWrite]
  congr 1
  funext stop
  cases stop with
  | exn e =>
    cases e with
    | fileError doing path e =>
      dsimp only
      rw [interp_ite, interp_bind, interp_makedirs]
      simp only [interp_openWrite]
      rfl
    | _ => rfl
  | _ => rfl

theorem interp_copyFile (hb : Hashable) :
    interp Fatal (onWorld cfg) (copyFile cfg hb) = Hbackup.copyFile cfg hb := by
  unfold copyFile Hbackup.copyFile
  rw [interp_bind, interp_openHost, bind_assoc]
  congr 1
  funext m
  cases m.host.data hb.path with
  | error e => rfl
  | ok a =>
    obtain ⟨data, fault⟩ := a
    dsimp only
    rw [pure_bind, interp_bind, interp_openObject]
    simp only [interp_bind, interp_readHost, interp_put]
    congr 1; funext dst; congr 1; funext _; congr 1; funext dst
    cases fault with
    | some e => rfl
    | none =>
      dsimp only
      simp only [interp_ite, interp_bind, interp_flush, interp_close, interp_rename, pure_bind]
      rfl

/-- **Run by itself, the program is `addHashable`.** -/
theorem interp_addHashable (hb : Hashable) :
    interp Fatal (onWorld cfg) (addHashable cfg hb) = Hbackup.addHashable cfg hb := by
  unfold addHashable Hbackup.addHashable
  rw [interp_bind, interp_exists]
  simp only [interp_ite, interp_copyFile]
  rfl

/-! ### What the calls do -/

variable {ι : Type} {d d' : Disk ι} {i j : ι} {x : Nat}

/-- A descriptor, but for whether its file has been emptied. -/
def SameHandle (o o' : Option Handle) : Prop :=
  o' = o ∨ ∃ hd, o = some hd ∧ o' = some { hd with fresh := false }

theorem SameHandle.refl (o : Option Handle) : SameHandle o o := .inl rfl

/-- The descriptor of `i` is closed. -/
structure Closed (i : ι) (d d' : Disk ι) : Prop where
  names : d'.names = d.names
  next : d'.next = d.next
  handle : d'.handles i = none
  handles : ∀ j, j ≠ i → d'.handles j = d.handles j

/-- A block is written to the descriptor `hd` of `i`. -/
structure Wrote (i : ι) (hd : Handle) (block : Bytes) (d d' : Disk ι) : Prop where
  names : d'.names = d.names
  next : d'.next = d.next
  inode : d'.inodes hd.ino =
    { d.inodes hd.ino with data := patch (d.inodes hd.ino).data hd.wrote.length block }
  inodes : ∀ x, x ≠ hd.ino → d'.inodes x = d.inodes x
  was : d.handles i = some hd
  handle : d'.handles i = some { hd with wrote := hd.wrote ++ block }
  handles : ∀ j, j ≠ i → d'.handles j = d.handles j

/-- The file `x` is opened at `path`, or made there, by `i`. -/
structure OpenedAt (i : ι) (path : Bytes) (x : Nat) (d d' : Disk ι) : Prop where
  name : d'.names path = some (.file x)
  names : ∀ p, p ≠ path → d'.names p = d.names p
  was : d.names path = some (.file x) ∧ d'.next = d.next ∨ x = d.next ∧ d'.next = d.next + 1
  inode : d'.inodes x = ⟨[], false⟩
  inodes : ∀ y, y ≠ x → d'.inodes y = d.inodes y
  handle : d'.handles i = some ⟨x, path, [], true⟩
  same : ∀ j, j ≠ i → SameHandle (d.handles j) (d'.handles j)
  others : ∀ j, j ≠ i → ∀ hd, hd.ino ≠ x → (d'.handles j = some hd ↔ d.handles j = some hd)
  emptied : x ≠ d.next → ∀ j, j ≠ i → ∀ hd, d'.handles j = some hd → hd.ino = x → hd.fresh = false

/-- The file `x` gets the name `newpath` instead of `oldpath`. -/
structure Moved (oldpath newpath : Bytes) (x : Nat) (d d' : Disk ι) : Prop where
  was : d.names oldpath = some (.file x)
  name : d'.names newpath = some (.file x)
  gone : oldpath ≠ newpath → d'.names oldpath = none
  names : ∀ p, p ≠ oldpath → p ≠ newpath → d'.names p = d.names p
  next : d'.next = d.next
  inodes : d'.inodes = d.inodes
  handles : d'.handles = d.handles

/-- A directory is made. -/
structure MadeDir (path : Bytes) (d d' : Disk ι) : Prop where
  name : d'.names path = some .dir
  names : ∀ p, p ≠ path → d'.names p = d.names p
  next : d'.next = d.next
  inodes : d'.inodes = d.inodes
  handles : d'.handles = d.handles

section calls

variable [DecidableEq ι]

theorem closed_close (i : ι) (d : Disk ι) : Closed i d (d.close i) :=
  ⟨rfl, rfl, Function.update_self _ _ _, fun _ hj => Function.update_of_ne hj _ _⟩

theorem closed_die (i : ι) (d : Disk ι) : Closed i d (d.die i) := by
  unfold Disk.die
  split
  next hnone => exact ⟨rfl, rfl, hnone, fun _ _ => rfl⟩
  next => exact ⟨rfl, rfl, Function.update_self _ _ _, fun _ hj => Function.update_of_ne hj _ _⟩

theorem wrote_writebytes {block : Bytes} (h : d.writebytes i block = .ok d') :
    ∃ hd, Wrote i hd block d d' := by
  unfold Disk.writebytes at h
  split at h
  · cases h
  rename_i hd hhd
  obtain rfl := Except.ok.inj h
  exact ⟨hd, rfl, rfl, Function.update_self _ _ _, fun _ hx => Function.update_of_ne hx _ _, hhd,
    Function.update_self _ _ _, fun _ hj => Function.update_of_ne hj _ _⟩

omit [DecidableEq ι] in
theorem same_unfresh (d : Disk ι) (x : Nat) (j : ι) : SameHandle (d.handles j) (d.unfresh x j) := by
  rw [Disk.unfresh]
  cases d.handles j with
  | none => exact .refl _
  | some hd =>
    by_cases hino : hd.ino = x
    · exact .inr ⟨hd, rfl, congrArg some (if_pos hino)⟩
    · exact .inl (congrArg some (if_neg hino))

omit [DecidableEq ι] in
theorem unfresh_eq_some {hd : Handle} : d.unfresh x j = some hd ↔
    ∃ hd₀, d.handles j = some hd₀ ∧ (if hd₀.ino = x then { hd₀ with fresh := false } else hd₀) = hd :=
  Option.map_eq_some_iff

theorem openedAt_openWrite {path : Bytes} (h : d.openWrite i path = .ok d') :
    ∃ x, OpenedAt i path x d d' := by
  unfold Disk.openWrite at h
  split at h
  · cases h
  split at h
  · cases h
  · rename_i x hx
    -- the file was there, and is emptied for all who have it open
    have hothers : ∀ j, j ≠ i → d'.handles j = d.unfresh x j := by
      rw [← Except.ok.inj h]
      exact fun j hj => Function.update_of_ne hj _ _
    obtain rfl := Except.ok.inj h
    refine ⟨x, hx, fun _ _ => rfl, .inl ⟨hx, rfl⟩, Function.update_self _ _ _,
      fun _ hy => Function.update_of_ne hy _ _, Function.update_self _ _ _,
      fun j hj => hothers j hj ▸ same_unfresh d x j, ?_, ?_⟩
    · intro j hj hd hne
      rw [hothers j hj, unfresh_eq_some]
      constructor
      · rintro ⟨hd₀, hhd, he⟩
        split_ifs at he with hino
        · exact absurd (he ▸ hino) hne
        · exact he ▸ hhd
      · exact fun hhd => ⟨hd, hhd, if_neg hne⟩
    · intro _ j hj hd hhd hx
      rw [hothers j hj, unfresh_eq_some] at hhd
      obtain ⟨hd₀, -, he⟩ := hhd
      split_ifs at he with hino
      · exact he ▸ rfl
      · exact absurd (he ▸ hx) hino
  -- it is a new file
  · have hothers : ∀ j, j ≠ i → d'.handles j = d.handles j := by
      rw [← Except.ok.inj h]
      exact fun j hj => Function.update_of_ne hj _ _
    obtain rfl := Except.ok.inj h
    refine ⟨d.next, Function.update_self _ _ _, fun _ hp => Function.update_of_ne hp _ _,
      .inr ⟨rfl, rfl⟩, Function.update_self _ _ _, fun _ hy => Function.update_of_ne hy _ _,
      Function.update_self _ _ _, fun j hj => .inl (hothers j hj), ?_, fun hne => absurd rfl hne⟩
    intro j hj hd _
    rw [hothers j hj]

omit [DecidableEq ι] in
theorem moved_rename {oldpath newpath : Bytes} (h : d.rename oldpath newpath = .ok d') :
    ∃ x, Moved oldpath newpath x d d' := by
  unfold Disk.rename at h
  split at h
  · rename_i x hx
    split_ifs at h
    obtain rfl := Except.ok.inj h
    refine ⟨x, hx, Function.update_self _ _ _, fun hne => ?_, fun p hp hp' => ?_, rfl, rfl, rfl⟩
    · exact (Function.update_of_ne hne _ _).trans (Function.update_self _ _ _)
    · exact (Function.update_of_ne hp' _ _).trans (Function.update_of_ne hp _ _)
  · cases h

omit [DecidableEq ι] in
theorem madeDir_mkdir {path : Bytes} (h : d.mkdir path = .ok d') : MadeDir path d d' := by
  unfold Disk.mkdir at h
  split_ifs at h
  obtain rfl := Except.ok.inj h
  exact ⟨Function.update_self _ _ _, fun _ hp => Function.update_of_ne hp _ _, rfl, rfl, rfl⟩

end calls

/-! ### One process -/

/-- The disk has what the store has; the process has the file open at the path in `o`, and has written
all that is in it. -/
structure Matches (i : ι) (o : Option Bytes) (d : Disk ι) (w : World) : Prop where
  nodes : ∀ p, d.node p = w.store.lookup p
  named : ∀ p x, d.names p = some (.file x) → x < d.next
  unlinked : ∀ p q x, d.names p = some (.file x) → d.names q = some (.file x) → p = q
  handle : match o with
    | none => d.handles i = none
    | some path => ∃ hd, d.handles i = some hd ∧ d.names path = some (.file hd.ino) ∧
        (d.inodes hd.ino).data = hd.wrote

/-- The order of the calls: one file is open at a time, and closed before it is renamed. -/
def next : Call → Option Bytes → Option (Option Bytes)
  | .openWrite path, none => some (some path)
  | .writebytes path _, some path' => if path = path' then some (some path') else none
  | .close, _ => some none
  | .rename oldpath newpath, none => if oldpath = newpath then none else some none
  | .mkdir _, none => some none
  | .exists_ _, o => some o
  | .openHost _, o => some o
  | .readHost _, o => some o
  | _, _ => none

/-- What opening a file answers. -/
def answers : ∀ c, Res c → Prop
  | .openWrite path, f => f = (⟨path, false, []⟩ : OFile)
  | _, _ => True

theorem node_eq_file {path data : Bytes} : d.node path = some (.file data) ↔
    ∃ x, d.names path = some (.file x) ∧ (d.inodes x).data = data := by
  unfold Disk.node
  cases d.names path with
  | none => simp
  | some e => cases e <;> simp

theorem node_eq_dir {path : Bytes} : d.node path = some .dir ↔ d.names path = some .dir := by
  unfold Disk.node
  cases d.names path with
  | none => simp
  | some e => cases e <;> simp

theorem isSome_node {path : Bytes} : (d.node path).isSome = (d.names path).isSome :=
  Option.isSome_map

section Matches

variable {o : Option Bytes} {w w' : World}

theorem Matches.congr (hm : Matches i o d w) (hstore : w'.store = w.store) : Matches i o d w' :=
  ⟨fun p => hstore ▸ hm.nodes p, hm.named, hm.unlinked, hm.handle⟩

theorem Matches.hasParent (hm : Matches i o d w) (path : Bytes) :
    d.hasParent path = w.store.hasParent path := by
  unfold Disk.hasParent Store.hasParent
  cases dirname path with
  | none => rfl
  | some dir =>
    dsimp only
    congr 2
    rw [← node_eq_dir, hm.nodes]

/-- A call that is made, or is not because the process is killed or the call fails. -/
theorem wp_call_bind {α : Type} {doing : String} {path : Bytes} {f : Moment → M α}
    {Q : α → World → Prop} {E : Stop → World → Prop}
    (hkill : E .killed { w with clock := w.clock + 1 })
    (hfault : ∀ e, E (.exn (.fileError doing path e)) { w with clock := w.clock + 1 })
    (hgo : wp (f (cfg.env w.clock)) Q E { w with clock := w.clock + 1 }) :
    wp (call cfg doing path >>= f) Q E w := by
  rw [wp_bind, wp_call]
  split_ifs
  · exact hkill
  · cases (cfg.env w.clock).fault with
    | some e => exact hfault e
    | none => exact hgo

/-- What `m` does is what `does` may do, in the phase `o`, and in `o'` after it. -/
abbrev Mirrors (i : ι) {α : Type} (m : M α) (does : Disk ι → Except Stop α → Disk ι → Prop)
    (o o' : Option Bytes) (d : Disk ι) (w : World) : Prop :=
  wp m (fun a w' => ∃ d', does d (.ok a) d' ∧ Matches i o' d' w')
    (fun stop w' => if Fatal stop then Matches i o d w'
      else ∃ d', does d (.error stop) d' ∧ Matches i o d' w') w

variable {α : Type} {does : Disk ι → Except Stop α → Disk ι → Prop}

/-- Killed. -/
theorem Matches.killed (hm : Matches i o d w) (hstore : w'.store = w.store) :
    if Fatal .killed then Matches i o d w'
      else ∃ d', does d (.error .killed) d' ∧ Matches i o d' w' := by
  rw [if_pos rfl]
  exact hm.congr hstore

/-- Failed. -/
theorem Matches.failed (hm : Matches i o d w) {e : Exn} (hstore : w'.store = w.store)
    (hfails : does d (.error (.exn e)) d) : if Fatal (.exn e) then Matches i o d w'
      else ∃ d', does d (.error (.exn e)) d' ∧ Matches i o d' w' := by
  rw [if_neg (by simp)]
  exact ⟨d, hfails, hm.congr hstore⟩

variable [DecidableEq ι]

theorem mirrors_exists (hsftp : cfg.sftp = false) (hm : Matches i o d w) (path : Bytes) :
    Mirrors i (Backupfs.exists_ cfg path) (performs cfg i (.exists_ path)) o o d w := by
  rw [Backupfs.exists_, if_neg (by simp [hsftp])]
  refine wp_call_bind (hm.killed rfl) (fun e => hm.failed rfl (.inr ⟨rfl, _, rfl⟩)) ?_
  rw [wp_bind, wp_get, wp_pure]
  refine ⟨d, .inl ⟨rfl, _, rfl, fun hfound => ?_⟩, hm.congr rfl⟩
  rw [← isSome_node, hm.nodes]
  exact hfound

theorem mirrors_openHost (hm : Matches i o d w) (path : Bytes) :
    Mirrors i (do
      let m ← tick cfg
      match m.host.data path with
      | .error e => throwExn (.fileError "opening" path e)
      | .ok r => return r) (performs cfg i (.openHost path)) o o d w := by
  unfold Mirrors
  rw [wp_bind, wp_tick]
  split
  · exact hm.killed rfl
  · cases hdata : (cfg.env w.clock).host.data path with
    | error e => exact hm.failed rfl (.inr ⟨rfl, e, rfl⟩)
    | ok a => exact ⟨d, .inl ⟨rfl, w.clock, a, rfl, hdata⟩, hm.congr rfl⟩

theorem mirrors_readHost (hm : Matches i o d w) (path : Bytes) :
    Mirrors i (access (.read path)) (performs cfg i (.readHost path)) o o d w := ⟨d, ⟨rfl, rfl⟩, hm.congr rfl⟩

theorem mirrors_close (hm : Matches i o d w) : Mirrors i (pure ()) (performs cfg i .close) o none d w := by
  refine ⟨d.close i, ⟨rfl, rfl⟩, ?_⟩
  exact ⟨hm.nodes, hm.named, hm.unlinked, Function.update_self _ _ _⟩

theorem mirrors_mkdir (hm : Matches i none d w) (path : Bytes) :
    Mirrors i (Backupfs.mkdir cfg path) (performs cfg i (.mkdir path)) none none d w := by
  rw [Backupfs.mkdir]
  refine wp_call_bind (hm.killed rfl) (fun e => hm.failed rfl (.inr ⟨rfl, _, rfl⟩)) ?_
  rw [wp_bind, wp_get]
  split_ifs with hparent hthere
  · exact hm.failed rfl (.inr ⟨rfl, _, rfl⟩)
  · exact hm.failed rfl (.inr ⟨rfl, _, rfl⟩)
  -- the directory is not there, on the disk either
  obtain ⟨d', hd'⟩ : ∃ d', d.mkdir path = .ok d' := by
    rw [← hm.hasParent] at hparent
    rw [← hm.nodes, isSome_node] at hthere
    exact ⟨_, by rw [Disk.mkdir, if_neg hparent, if_neg hthere]⟩
  have hmade := madeDir_mkdir hd'
  have hwas : ∀ {p x}, d'.names p = some (.file x) → p ≠ path ∧ d.names p = some (.file x) := by
    intro p x hp
    have hne : p ≠ path := by
      rintro rfl
      rw [hmade.name] at hp
      cases hp
    exact ⟨hne, hmade.names p hne ▸ hp⟩
  refine ⟨d', .inl ⟨hd', rfl⟩, fun p => ?_, fun p x hp => ?_, fun p q x hp hq => ?_, ?_⟩
  · change _ = (w.store.insert path .dir).lookup p
    by_cases hp : p = path
    · rw [hp, AList.lookup_insert, node_eq_dir]
      exact hmade.name
    · rw [AList.lookup_insert_ne hp, ← hm.nodes, Disk.node, Disk.node, hmade.names p hp, hmade.inodes]
  · exact hmade.next ▸ hm.named p x (hwas hp).2
  · exact hm.unlinked p q x (hwas hp).2 (hwas hq).2
  · exact (congrFun hmade.handles i).trans hm.handle

theorem mirrors_openWrite (hm : Matches i none d w) (path : Bytes) :
    Mirrors i (Backupfs.openWrite cfg path) (performs cfg i (.openWrite path)) none (some path) d w := by
  rw [Backupfs.openWrite]
  refine wp_call_bind (hm.killed rfl) (fun e => hm.failed rfl (.inr ⟨rfl, _, rfl⟩)) ?_
  rw [wp_bind, wp_get]
  split_ifs with hparent hdir
  · exact hm.failed rfl (.inr ⟨rfl, _, rfl⟩)
  · exact hm.failed rfl (.inr ⟨rfl, _, rfl⟩)
  obtain ⟨d', hd'⟩ : ∃ d', d.openWrite i path = .ok d' := by
    rw [← hm.hasParent] at hparent
    rw [← hm.nodes, node_eq_dir] at hdir
    unfold Disk.openWrite
    rw [if_neg hparent]
    split
    · exact absurd ‹_› hdir
    · exact ⟨_, rfl⟩
    · exact ⟨_, rfl⟩
  obtain ⟨x, ho⟩ := openedAt_openWrite hd'
  have hnext : d.next ≤ d'.next ∧ x < d'.next := by
    rcases ho.was with ⟨hx, hn⟩ | ⟨rfl, hn⟩
    · exact ⟨by rw [hn], by rw [hn]; exact hm.named _ _ hx⟩
    · omega
  -- no other path has this file
  have hother : ∀ {p y}, p ≠ path → d'.names p = some (.file y) → d.names p = some (.file y) ∧ y ≠ x := by
    intro p y hp hy
    rw [ho.names p hp] at hy
    refine ⟨hy, ?_⟩
    rintro rfl
    rcases ho.was with ⟨hx, -⟩ | ⟨hx, -⟩
    · exact hp (hm.unlinked _ _ _ hy hx)
    · exact absurd (hm.named _ _ hy) (hx ▸ Nat.lt_irrefl _)
  have hcases : ∀ {p y}, d'.names p = some (.file y) → p = path ∧ y = x ∨
      p ≠ path ∧ d.names p = some (.file y) ∧ y ≠ x := by
    intro p y hy
    by_cases hp : p = path
    · rw [hp, ho.name] at hy
      cases hy
      exact .inl ⟨hp, rfl⟩
    · exact .inr ⟨hp, hother hp hy⟩
  refine ⟨d', .inl ⟨hd', rfl⟩, fun p => ?_, fun p y hy => ?_, fun p q y hp hq => ?_, ?_⟩
  · change _ = (w.store.insert path (.file [])).lookup p
    by_cases hp : p = path
    · rw [hp, AList.lookup_insert, node_eq_file]
      exact ⟨x, ho.name, by rw [ho.inode]⟩
    · rw [AList.lookup_insert_ne hp, ← hm.nodes, Disk.node, Disk.node, ho.names p hp]
      cases he : d.names p with
      | none => rfl
      | some e =>
        cases e with
        | file y => simp [ho.inodes y (hother hp (ho.names p hp ▸ he)).2]
        | dir => rfl
        | other => rfl
  · rcases hcases hy with ⟨-, rfl⟩ | ⟨-, hy, -⟩
    · exact hnext.2
    · exact (hm.named p y hy).trans_le hnext.1
  · rcases hcases hp with ⟨rfl, rfl⟩ | ⟨-, hp, hy⟩
    · rcases hcases hq with ⟨rfl, -⟩ | ⟨-, -, hy⟩
      · rfl
      · exact absurd rfl hy
    · rcases hcases hq with ⟨-, rfl⟩ | ⟨-, hq, -⟩
      · exact absurd rfl hy
      · exact hm.unlinked p q y hp hq
  · exact ⟨_, ho.handle, ho.name, by rw [ho.inode]⟩

theorem mirrors_writebytes {path : Bytes} (hm : Matches i (some path) d w) (block : Bytes) :
    Mirrors i (Backupfs.writebytes cfg path block) (performs cfg i (.writebytes path block))
      (some path) (some path) d w := by
  obtain ⟨hd, hhd, hname, hdata⟩ := hm.handle
  have hlookup : w.store.lookup path = some (.file hd.wrote) := by
    rw [← hm.nodes, node_eq_file]
    exact ⟨_, hname, hdata⟩
  -- a block goes to the end of the file
  have hwrote : ∀ block w', w'.store = w.store.insert path (.file (hd.wrote ++ block)) →
      ∃ d', d.writebytes i block = .ok d' ∧ Matches i (some path) d' w' := by
    intro block w' hw'
    obtain ⟨d', hd'⟩ : ∃ d', d.writebytes i block = .ok d' := by
      unfold Disk.writebytes
      rw [hhd]
      exact ⟨_, rfl⟩
    obtain ⟨hd₀, hwr⟩ := wrote_writebytes hd'
    obtain rfl := Option.some.inj (hhd.symm.trans hwr.was)
    have hfile : (d'.inodes hd.ino).data = hd.wrote ++ block := by
      rw [hwr.inode]
      change patch (d.inodes hd.ino).data hd.wrote.length block = _
      rw [hdata, patch]
      split
      · simp [*]
      · simp
    refine ⟨d', hd', fun p => ?_, hwr.names ▸ hwr.next ▸ hm.named, hwr.names ▸ hm.unlinked, ?_⟩
    · rw [hw']
      by_cases hp : p = path
      · rw [hp, AList.lookup_insert, node_eq_file, hwr.names]
        exact ⟨_, hname, hfile⟩
      · rw [AList.lookup_insert_ne hp, ← hm.nodes, Disk.node, Disk.node, hwr.names]
        cases he : d.names p with
        | none => rfl
        | some e =>
          cases e with
          | file y =>
            have hy : y ≠ hd.ino := by
              rintro rfl
              exact hp (hm.unlinked _ _ _ he hname)
            simp [hwr.inodes y hy]
          | dir => rfl
          | other => rfl
    · exact ⟨_, hwr.handle, by rw [hwr.names]; exact hname, hfile⟩
  unfold Mirrors
  rw [Backupfs.writebytes, wp_bind, wp_tick]
  split
  · exact hm.killed rfl
  rw [wp_bind, wp_get]
  simp only [hlookup]
  cases (cfg.env w.clock).fault with
  | some e =>
    rw [wp_bind, wp_set]
    obtain ⟨d', hd', hm'⟩ := hwrote (block.take (cfg.env w.clock).written)
      { w with
        clock := w.clock + 1
        store := w.store.insert path (.file (hd.wrote ++ block.take (cfg.env w.clock).written)) } rfl
    rw [wp_throwExn, if_neg (by simp)]
    exact ⟨d', .inr (.inl ⟨⟨_, hd'⟩, e, rfl⟩), hm'⟩
  | none =>
    obtain ⟨d', hd', hm'⟩ := hwrote block
      { w with clock := w.clock + 1, store := w.store.insert path (.file (hd.wrote ++ block)) } rfl
    exact ⟨d', .inl ⟨hd', rfl⟩, hm'⟩

theorem mirrors_rename (hm : Matches i none d w) {oldpath newpath : Bytes} (hne : oldpath ≠ newpath) :
    Mirrors i (Backupfs.rename cfg oldpath newpath) (performs cfg i (.rename oldpath newpath))
      none none d w := by
  unfold Mirrors
  rw [Backupfs.rename]
  refine wp_call_bind (hm.killed rfl) (fun e => hm.failed rfl (.inr ⟨rfl, _, rfl⟩)) ?_
  rw [wp_bind, wp_get]
  dsimp only
  -- `rename` fails on both sides unless a file goes where no directory is
  cases hlookup : w.store.lookup oldpath with
  | none => exact hm.failed rfl (.inr ⟨rfl, _, rfl⟩)
  | some node =>
  cases node with
  | dir => exact hm.failed rfl (.inr ⟨rfl, _, rfl⟩)
  | other => exact hm.failed rfl (.inr ⟨rfl, _, rfl⟩)
  | file data =>
  dsimp only
  split_ifs with hdir hparent
  · exact hm.failed rfl (.inr ⟨rfl, _, rfl⟩)
  · exact hm.failed rfl (.inr ⟨rfl, _, rfl⟩)
  obtain ⟨x, hx, hdata⟩ := node_eq_file.mp ((hm.nodes oldpath).trans hlookup)
  obtain ⟨d', hd'⟩ : ∃ d', d.rename oldpath newpath = .ok d' := by
    rw [← hm.hasParent] at hparent
    rw [← hm.nodes, node_eq_dir] at hdir
    unfold Disk.rename
    rw [hx]
    dsimp only
    rw [if_neg hdir, if_neg hparent]
    exact ⟨_, rfl⟩
  obtain ⟨y, hmv⟩ := moved_rename hd'
  obtain rfl : x = y := by simpa using hx.symm.trans hmv.was
  -- a name that there is now is the new one, or had its file before
  have hcases : ∀ {p z}, d'.names p = some (.file z) → p = newpath ∧ z = x ∨
      p ≠ newpath ∧ d.names p = some (.file z) ∧ z ≠ x := by
    intro p z hz
    by_cases hnew : p = newpath
    · rw [hnew, hmv.name] at hz
      cases hz
      exact .inl ⟨hnew, rfl⟩
    · have hold : p ≠ oldpath := by
        rintro rfl
        rw [hmv.gone hne] at hz
        cases hz
      rw [hmv.names p hold hnew] at hz
      refine .inr ⟨hnew, hz, ?_⟩
      rintro rfl
      exact hold (hm.unlinked _ _ _ hz hx)
  refine ⟨d', .inl ⟨hd', rfl⟩, fun p => ?_, fun p z hz => ?_, fun p q z hp hq => ?_, ?_⟩
  -- the paths of the disk are those of the store
  · change _ = ((w.store.erase oldpath).insert newpath (.file data)).lookup p
    by_cases hnew : p = newpath
    · rw [hnew, AList.lookup_insert, node_eq_file, hmv.inodes]
      exact ⟨x, hmv.name, hdata⟩
    · rw [AList.lookup_insert_ne hnew]
      by_cases hold : p = oldpath
      · rw [hold, AList.lookup_erase, Disk.node, hmv.gone hne]
        rfl
      · rw [AList.lookup_erase_ne hold, ← hm.nodes, Disk.node, Disk.node, hmv.names p hold hnew,
          hmv.inodes]
  · rw [hmv.next]
    rcases hcases hz with ⟨-, rfl⟩ | ⟨-, hz, -⟩
    · exact hm.named _ _ hx
    · exact hm.named _ _ hz
  · rcases hcases hp with ⟨rfl, rfl⟩ | ⟨-, hp, hz⟩
    · rcases hcases hq with ⟨rfl, -⟩ | ⟨-, -, hz⟩
      · rfl
      · exact absurd rfl hz
    · rcases hcases hq with ⟨-, rfl⟩ | ⟨-, hq, -⟩
      · exact absurd rfl hz
      · exact hm.unlinked p q z hp hq
  · exact (congrFun hmv.handles i).trans hm.handle

/-- **A call of a process by itself** is one that it may make in a pool. -/
theorem mirrors_onWorld (hsftp : cfg.sftp = false) {c : Call} {o o' : Option Bytes}
    (hnext : next c o = some o') (hm : Matches i o d w) :
    Mirrors i (onWorld cfg c) (performs cfg i c) o o' d w := by
  -- call by call; one that is out of turn is not made
  cases c with
  | exists_ path =>
    obtain rfl := Option.some.inj hnext
    exact mirrors_exists hsftp hm path
  | openHost path =>
    obtain rfl := Option.some.inj hnext
    exact mirrors_openHost hm path
  | readHost path =>
    obtain rfl := Option.some.inj hnext
    exact mirrors_readHost hm path
  | openWrite path =>
    cases o with
    | none =>
      obtain rfl := Option.some.inj hnext
      exact mirrors_openWrite hm path
    | some path' => cases hnext
  | writebytes path block =>
    cases o with
    | none => cases hnext
    | some path' =>
      simp only [next] at hnext
      split_ifs at hnext with hpath
      obtain rfl := Option.some.inj hnext
      subst hpath
      exact mirrors_writebytes hm block
  | close =>
    obtain rfl := Option.some.inj hnext
    exact mirrors_close hm
  | rename oldpath newpath =>
    cases o with
    | none =>
      simp only [next] at hnext
      split_ifs at hnext with hne
      obtain rfl := Option.some.inj hnext
      exact mirrors_rename hm hne
    | some path' => cases hnext
  | mkdir path =>
    cases o with
    | none =>
      obtain rfl := Option.some.inj hnext
      exact mirrors_mkdir hm path
    | some path' => cases hnext

omit [DecidableEq ι] in
theorem answers_onWorld (c : Call) (w : World) :
    wp (onWorld cfg c) (fun a _ => answers c a) (fun _ _ => True) w := by
  cases c with
  | openWrite path => exact wp_mono (wp_openWrite cfg path w) (fun _ _ h => h.2.1) fun _ _ _ => trivial
  | _ =>
    unfold wp
    split
    · trivial
    · trivial

end Matches

/-! ### The order of the calls -/

/-- The calls are made in order. -/
abbrev Ordered {α : Type} (p : P α) (Q : α → Option (Option Bytes) → Prop) (o : Option Bytes) : Prop :=
  Orderly next answers p Q (fun _ _ => True) (some o)

theorem ordered_exists (path : Bytes) (o : Option Bytes) :
    Ordered (exists_ path) (fun _ y => y = some o) o :=
  .perform (x := o) (y := o) rfl (fun _ _ => rfl) fun _ => trivial

theorem ordered_mkdir (path : Bytes) : Ordered (mkdir path) (fun _ y => y = some none) none :=
  .perform (x := none) (y := none) rfl (fun _ _ => rfl) fun _ => trivial

theorem ordered_makedir (path : Bytes) :
    Ordered (do if ← exists_ path then return else mkdir path) (fun _ y => y = some none) none := by
  refine Safe.bind ((ordered_exists path none).mono ?_ fun _ _ h => h)
  rintro found _ rfl
  exact Safe.ite (fun _ => .pure (stable_eq _) rfl) fun _ => ordered_mkdir path

theorem ordered_makedirs (path : Bytes) : Ordered (makedirs path) (fun _ y => y = some none) none := by
  refine Safe.bind ((ordered_exists path none).mono ?_ fun _ _ h => h)
  rintro found _ rfl
  refine Safe.ite (fun _ => .pure (stable_eq _) rfl) fun _ => Safe.bind ?_
  refine (Safe.forM (fun _ => (· = some none)) (fun _ => stable_eq _) ?_ rfl).mono ?_ fun _ _ h => h
  · rintro pre dir post _ - rfl
    exact ordered_makedir dir
  · rintro _ _ rfl
    exact ordered_mkdir path

theorem ordered_openWrite (path : Bytes) :
    Orderly next answers (openWrite path) (fun f y => f = ⟨path, false, []⟩ ∧ y = some (some path))
      (fun _ y => y = some none) (some none) :=
  .perform (x := none) (y := some path) rfl (fun _ ha => ⟨ha, rfl⟩) fun _ => rfl

theorem ordered_openObject (hp : Bytes) : Ordered (openObject hp)
    (fun f y => f.path = hp ++ lit ".tmp" ∧ y = some (some (hp ++ lit ".tmp"))) none := by
  have hopen : ∀ (f : OFile) (y : Option (Option Bytes)),
      (f = ⟨hp ++ lit ".tmp", false, []⟩ ∧ y = some (some (hp ++ lit ".tmp"))) →
        f.path = hp ++ lit ".tmp" ∧ y = some (some (hp ++ lit ".tmp")) := by
    rintro f y ⟨rfl, rfl⟩
    exact ⟨rfl, rfl⟩
  refine Safe.handle ((ordered_openWrite _).mono hopen ?_)
  rintro stop _ rfl
  split
  · refine Safe.ite (fun _ => Safe.bind ?_) fun _ => .throw (.true _) trivial
    refine (ordered_makedirs _).mono ?_ fun _ _ h => h
    rintro _ _ rfl
    exact (ordered_openWrite _).mono hopen fun _ _ _ => trivial
  · exact .throw (.true _) trivial

theorem ordered_flush (f : OFile) : Ordered (flush f)
    (fun f' y => f'.path = f.path ∧ y = some (some f.path)) (some f.path) := by
  refine Safe.ite (fun _ => Safe.bind ?_) fun _ => .pure (stable_eq _) ⟨rfl, rfl⟩
  refine (Orderly.perform (x := some f.path) (y := some f.path) (Q := fun _ y => y = some (some f.path))
    (if_pos rfl) (fun _ _ => rfl) fun _ => trivial).mono ?_ fun _ _ h => h
  rintro _ _ rfl
  exact .pure (stable_eq _) ⟨rfl, rfl⟩

theorem ordered_put (f : OFile) (s : Bytes) : Ordered (put f s)
    (fun f' y => f'.path = f.path ∧ y = some (some f.path)) (some f.path) := by
  refine Safe.foldlM (fun _ (f' : OFile) y => f'.path = f.path ∧ y = some (some f.path))
    (fun _ _ => stable_eq _) ?_ ⟨rfl, rfl⟩
  rintro pre c post f₁ _ - ⟨hpath, rfl⟩
  rw [← hpath]
  refine Safe.ite (fun _ => Safe.bind ?_) fun _ => Safe.bind ?_
  · refine (ordered_flush f₁).mono ?_ fun _ _ h => h
    rintro f₂ _ ⟨hpath₂, rfl⟩
    exact .pure (stable_eq _) ⟨hpath₂, rfl⟩
  · rintro _ rfl
    exact .pure (stable_eq _) ⟨rfl, rfl⟩

theorem ordered_addHashable (hb : Hashable) :
    Ordered (addHashable cfg hb) (fun _ y => y = some none) none := by
  refine Safe.bind ((ordered_exists hb.hp none).mono ?_ fun _ _ h => h)
  rintro found _ rfl
  refine Safe.ite (fun _ => .pure (stable_eq _) rfl) fun _ => Safe.bind ?_
  refine (Orderly.perform (x := none) (y := none) (Q := fun _ y => y = some none) rfl
    (fun _ _ => rfl) fun _ => trivial).mono ?_ fun _ _ h => h
  rintro ⟨data, fault⟩ _ rfl
  refine Safe.bind ((ordered_openObject hb.hp).mono ?_ fun _ _ h => h)
  rintro f _ ⟨hpath, rfl⟩
  rw [← hpath]
  refine Safe.bind (Orderly.perform (x := some f.path) (y := some f.path) rfl (fun _ _ => ?_)
    fun _ => trivial)
  refine Safe.bind ((ordered_put f data).mono ?_ fun _ _ h => h)
  rintro f' _ ⟨hpath', rfl⟩
  cases fault with
  | some e => exact .throw (.true _) trivial
  | none =>
    refine Safe.ite (fun _ => .throw (.true _) trivial) fun _ => Safe.bind ?_
    rw [← hpath']
    refine (ordered_flush f').mono ?_ fun _ _ h => h
    rintro f'' _ ⟨-, rfl⟩
    refine Safe.bind (Orderly.perform (x := some f'.path) (y := none) rfl (fun _ _ => ?_) fun _ => trivial)
    refine Orderly.perform (x := none) (y := none) (if_neg ?_) (fun _ _ => rfl) fun _ => trivial
    rw [hpath', hpath]
    exact tmp_ne hb.hp

/-- **What a backup does by itself it may do in a pool**: copying into the repository, however it ends,
is a run of the program of calls, and leaves on the disk what it leaves in the store. -/
theorem wp_addHashables (hsftp : cfg.sftp = false) [DecidableEq ι] {w : World} (hbs : List Hashable)
    (hm : Matches i none d w) : wp (hbs.forM (Hbackup.addHashable cfg))
      (fun _ w' => ∃ d', Runs (performs cfg i) (hbs.forM (addHashable cfg)) d (.ret ()) d' ∧
        Matches i none d' w')
      (fun stop w' => ∃ p o d', Runs (performs cfg i) (hbs.forM (addHashable cfg)) d p d' ∧
        Matches i o d' w' ∧ (∀ a, p ≠ .ret a) ∧ (p = .throw stop ∨ stop = .killed)) w := by
  have hordered : Ordered (hbs.forM (addHashable cfg)) (fun _ y => y = some none) none := by
    refine Safe.forM (fun _ => (· = some none)) (fun _ => stable_eq _) ?_ rfl
    rintro pre hb post _ - rfl
    exact ordered_addHashable hb
  have hcall : ∀ c o o' d w, next c o = some o' → Matches i o d w →
      wp (onWorld cfg c)
        (fun a w' => answers c a ∧ ∃ d', performs cfg i c d (.ok a) d' ∧ Matches i o' d' w')
        (fun e w' => if Fatal e then Matches i o d w'
          else ∃ d', performs cfg i c d (.error e) d' ∧ Matches i o d' w') w :=
    fun c o o' d w hnext hm =>
      wp_mono (wp_and (answers_onWorld c w) (mirrors_onWorld hsftp hnext hm)) (fun _ _ h => h)
        fun _ _ h => h.2
  rw [← interp_forM Fatal (onWorld cfg) interp_addHashable]
  refine wp_mono (wp_interp hcall hordered hm) ?_ ?_
  · rintro _ w' ⟨o, d', hruns, hm', ho⟩
    obtain rfl := Option.some.inj ho
    exact ⟨d', hruns, hm'⟩
  · rintro stop w' ⟨p, o, d', hruns, hm', hend⟩
    exact ⟨p, o, d', hruns, hm', hend⟩

end Hbackup.Shared
