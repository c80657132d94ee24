import Hbackup.Equiv.IndexText
import Hbackup.Equiv.Placed
import Hbackup.Equiv.Restore
import Hbackup.Lib.Sources

/-!
# An index is restored into an empty directory

The entries of an arranged index are restored one by one (`Rebuilt`): each gets its place, a new
object or a link to the first entry with the same inode number (`sourceOf`), and only those share an
inode.  A run that returns has done so for every entry; one in which every call succeeds that can
stops only at an entry that cannot be restored (`wp_do_restore_rebuilt`).
-/

namespace Hbackup

open ProgramLogic File Target Sources

variable {cfg : Config} {w₀ w w' : World}

/-! ### Details of entries -/

theorem Entry.details_of_lookup {e : Entry} {k v : Bytes} (h : e.fields.lookup k = some v) :
    e.details.get k = v := by
  rw [Details.get, Entry.details, e.lookup, h, Option.getD_some]

theorem Entry.permsOf_details (e : Entry) : permsOf e.details = e.sb.st_mode &&& 0o7777 := by
  rw [permsOf, e.details_of_lookup (k := lit "perms") rfl, strtol_perms]

theorem Entry.timeOf_details (e : Entry) : timeOf e.details "atime" = e.sb.st_atime ∧
    timeOf e.details "mtime" = e.sb.st_mtime := by
  unfold timeOf
  rw [e.details_of_lookup (k := lit "atime") rfl, e.details_of_lookup (k := lit "mtime") rfl,
    strtoull_putTime, strtoull_putTime]
  exact ⟨rfl, rfl⟩

/-- The type on the line. -/
def Kind.type : Kind → Option Bytes
  | .data _ | .sha1 _ => none
  | .dir => some (lit "dir")
  | .link _ => some (lit "link")
  | .dev type => some type
  | .socket => some (lit "socket")

/-- The inode number on the line. -/
def Entry.inodenum (e : Entry) : Option UInt64 :=
  match e.kind.type with
  | none => if e.sb.st_nlink > 1 then some e.sb.st_ino else none
  | some _ => none

theorem Entry.details_type (e : Entry) : e.details (lit "type") = e.kind.type := by
  have hinode : (inodeFields e.sb).lookup (lit "type") = none := by
    unfold inodeFields
    split_ifs <;> rfl
  rw [Entry.details, e.lookup, Entry.fields, List.lookup_append]
  change (e.kind.fields e.sb).lookup (lit "type") = _
  cases e.kind with
  | data bytes => exact hinode
  | sha1 h => exact hinode
  | _ => rfl

theorem Entry.inodenum_details (e : Entry) : Hbackup.inodenum e.details = e.inodenum := by
  have hnumber : strtoull (decimal e.sb.st_ino.toNat) = e.sb.st_ino := by
    rw [strtoull_decimal (UInt64.toNat_lt _), UInt64.ofNat_toNat]
  have hregular : ((inodeFields e.sb).lookup (lit "inode")).map strtoull =
      if e.sb.st_nlink > 1 then some e.sb.st_ino else none := by
    unfold inodeFields
    split_ifs
    · exact congrArg some hnumber
    · rfl
  unfold Hbackup.inodenum Entry.inodenum Details.getdetail
  rw [Entry.details, e.lookup, Entry.fields, List.lookup_append]
  change ((e.kind.fields e.sb).lookup (lit "inode")).map strtoull = _
  cases e.kind with
  | data bytes => exact hregular
  | sha1 h => exact hregular
  | _ => rfl

theorem Entry.type_of_inodenum {e : Entry} {n : UInt64} (h : e.inodenum = some n) :
    e.kind.type = none := by
  unfold inodenum at h
  split at h
  · assumption
  · cases h

/-- What an entry says that its object is; `s` has the contents of large files. -/
def Entry.Says (cfg : Config) (s : Store) (e : Entry) (body : Body) : Prop :=
  match e.kind with
  | .data bytes => body = .file bytes
  | .sha1 h => ∃ c, s.lookup (objectPath cfg.repo h) = some (.file c) ∧ body = .file c
  | .dir => body = .dir
  | .link target => body = .link (cstr (cfg.convert target))
  | .dev _ => ∃ type rdev, body = .dev type rdev
  | .socket => body = .socket

/-- **What is restored for the details of an entry.** -/
theorem Describes.describedBy {s : Store} {e : Entry} {body : Body} (h : Describes cfg s e.details body)
    (hdev : ∀ type, e.kind = .dev type → type = lit "chr" ∨ type = lit "blk") :
    e.Says cfg s body := by
  have htype := e.details_type
  -- only an entry with data has a field for it; one for an inode number is not in its way
  have hdata : e.kind.type = none → e.details (lit "data") =
      match e.kind with
      | .data bytes => some bytes
      | _ => none := by
    intro hnone
    have hinode : (inodeFields e.sb).lookup (lit "data") = none := by
      unfold inodeFields
      split_ifs <;> rfl
    rw [Entry.details, e.lookup, Entry.fields, List.lookup_append]
    change (e.kind.fields e.sb).lookup (lit "data") = _
    cases hk : e.kind with
    | data bytes => rfl
    | sha1 h => exact hinode
    | _ =>
      rw [hk] at hnone
      cases hnone
  have hsha1 := e.details_sha1
  unfold Entry.Says
  cases hk : e.kind with
  | data bytes =>
    rw [hk] at htype hdata
    exact h.body_of_data htype (hdata rfl)
  | sha1 hash =>
    rw [hk] at htype hdata hsha1
    rcases h.of_regular htype with ⟨data, hsome, -⟩ | ⟨-, hex, data, h', hhash, hdecode, hfile, rfl⟩
    · rw [hdata rfl] at hsome
      cases hsome
    · rw [hsha1] at hhash
      rw [← Option.some.inj hhash, hashdecode_hexencode] at hdecode
      rw [← Except.ok.inj hdecode] at hfile
      exact ⟨data, hfile, rfl⟩
  | dir =>
    rw [hk] at htype
    exact h.body_of_dir htype
  | link target =>
    rw [hk] at htype
    have htarget : e.details.get (lit "target") = target := by
      refine e.details_of_lookup ?_
      rw [Entry.fields, hk]
      rfl
    rcases h.of_type htype with ⟨-, h⟩ | ⟨h, -⟩ | ⟨h | h, -⟩ | ⟨h, -⟩
    · rwa [htarget] at h
    -- the other types have other names
    all_goals exact absurd h (by decide)
  | dev type =>
    rw [hk] at htype
    have hother := hdev type hk
    rcases h.of_type htype with ⟨rfl, -⟩ | ⟨rfl, -⟩ | ⟨-, h⟩ | ⟨rfl, -⟩
    · exact absurd hother (by decide)
    · exact absurd hother (by decide)
    · exact h
    · exact absurd hother (by decide)
  | socket =>
    rw [hk] at htype
    rcases h.of_type htype with ⟨h, -⟩ | ⟨h, -⟩ | ⟨h | h, -⟩ | ⟨-, h⟩
    · exact absurd h (by decide)
    · exact absurd h (by decide)
    · exact absurd h (by decide)
    · exact absurd h (by decide)
    · exact h

/-! ### Inode numbers -/

/-- The first entry with the inode number `n`. -/
def firstWith (l : List Placed) (n : UInt64) : Option Placed := first (fun pe => pe.2.inodenum) l n

/-- The entry that is restored in the place of `pe`: the first one with the same inode number. -/
def sourceOf (l : List Placed) (pe : Placed) : Placed := source (fun pe => pe.2.inodenum) l pe

variable {l done post : List Placed} {pe qe : Placed} {n : UInt64}

theorem firstWith_append (l l' : List Placed) (n : UInt64) :
    firstWith (l ++ l') n = (firstWith l n).or (firstWith l' n) := first_append l l' n

theorem firstWith_singleton (pe : Placed) (n : UInt64) :
    firstWith [pe] n = if pe.2.inodenum = some n then some pe else none := first_singleton pe n

theorem firstWith_spec (h : firstWith l n = some qe) : qe ∈ l ∧ qe.2.inodenum = some n :=
  first_spec h

theorem sourceOf_of_none (h : pe.2.inodenum = none) : sourceOf l pe = pe := source_of_none h

theorem sourceOf_eq (hn : pe.2.inodenum = some n) (hfirst : firstWith l n = some qe) :
    sourceOf l pe = qe := source_eq hn hfirst

/-- The source is one of the entries, and a source of its own. -/
theorem sourceOf_spec (hm : pe ∈ l) : sourceOf l pe ∈ l ∧
    sourceOf l (sourceOf l pe) = sourceOf l pe ∧ (sourceOf l pe).2.inodenum = pe.2.inodenum :=
  source_spec hm

/-- **Entries have one source** exactly if they are the same, or have the same inode number. -/
theorem sourceOf_eq_iff (hm : pe ∈ l) (hm' : qe ∈ l) : sourceOf l pe = sourceOf l qe ↔
    pe = qe ∨ pe.2.inodenum.isSome ∧ pe.2.inodenum = qe.2.inodenum := source_eq_iff hm hm'

/-! ### Places on the filesystem that is restored to -/

/-- Where the place `p` is. -/
def Config.spot (cfg : Config) (p : List Bytes) : List Bytes := components cfg.root ++ p

/-- The full name of the place `p`. -/
def Config.fullPlace (cfg : Config) (p : List Bytes) : Bytes := fullname cfg.root (relpath p)

/-- The place of the temporary name. -/
def tmpPlace (d : List Bytes) (name : Bytes) : List Bytes := d ++ [name ++ lit "~restore~"]

theorem relpath_append_suffix (d : List Bytes) (name suffix : Bytes) :
    relpath (d ++ [name]) ++ suffix = relpath (d ++ [name ++ suffix]) := by
  by_cases hd : d = []
  · rw [hd, List.nil_append, List.nil_append, relpath_singleton, relpath_singleton]
  · rw [relpath_snoc hd, relpath_snoc hd]
    simp [inDir]

theorem components_fullname {p : List Bytes} (h0 : 0 ∉ cfg.root) (hp : Components p)
    (hne : p ≠ []) : components (fullname cfg.root (relpath p)) = cfg.spot p := by
  have hslash : fullname cfg.root (relpath p) = cfg.root ++ 47 :: relpath p := by
    unfold fullname
    rw [lit_slash, List.append_assoc]
    rfl
  rw [hslash, components_slash h0 (zero_not_mem_relpath hp), components_relpath hp hne]
  rfl

theorem components_fullPlace {p : List Bytes} (h0 : 0 ∉ cfg.root) (hp : Components p)
    (hne : p ≠ []) : components (cfg.fullPlace p) = cfg.spot p := components_fullname h0 hp hne

theorem components_tmpname {d : List Bytes} {name : Bytes} (h0 : 0 ∉ cfg.root)
    (hp : Components (d ++ [name])) :
    components (tmpname (cfg.fullPlace (d ++ [name]))) = cfg.spot (tmpPlace d name) := by
  obtain ⟨hd, hname⟩ := components_snoc.mp hp
  have htmp : Components (d ++ [name ++ lit "~restore~"]) :=
    components_snoc.mpr ⟨hd, isComponent_tmp hname.1 hname.2.1⟩
  have hfull : tmpname (cfg.fullPlace (d ++ [name])) =
      fullname cfg.root (relpath (tmpPlace d name)) := by
    unfold tmpname Config.fullPlace tmpPlace fullname
    rw [List.append_assoc, relpath_append_suffix]
  rw [hfull]
  exact components_fullname h0 htmp (by simp [tmpPlace])

/-- `cfg.root` is a directory with nothing in it. -/
structure EmptyRoot (cfg : Config) (t : Target) : Prop where
  ok : t.Ok
  dir : t.isDir (components cfg.root) = true
  empty : ∀ p, p ≠ [] → t.names.lookup (cfg.spot p) = none

/-! ### The state between two entries -/

/-- The times that a directory is to have. -/
def Config.stamp (cfg : Config) (pe : Placed) : Dirstamp :=
  ⟨cfg.fullPlace pe.1, pe.2.sb.st_atime, pe.2.sb.st_mtime⟩

/-- The stamp, if the entry is that of a directory. -/
def Config.stamp? (cfg : Config) (pe : Placed) : Option Dirstamp :=
  if pe.2.kind.type = some (lit "dir") then some (cfg.stamp pe) else none

/-- Sockets may be left out. -/
def Placed.IsSocket (pe : Placed) : Prop := pe.2.kind.type = some (lit "socket")

/-- After the entries `done` of `l`. -/
structure Rebuilt (cfg : Config) (l : List Placed) (w₀ : World) (done : List Placed) (r : Restoring)
    (w : World) : Prop where
  store : w.store = w₀.store
  knows : KnowsIds cfg w.names
  errors : (∀ pe ∈ done, ¬ pe.IsSocket) → w.errors = w₀.errors
  ok : w.target.Ok
  root : w.target.isDir (components cfg.root) = true
  /-- Nothing else is in the directory. -/
  free : ∀ p, p ≠ [] → p ∉ done.map Prod.fst → w.target.names.lookup (cfg.spot p) = none
  made : ∀ pe ∈ done, ¬ pe.IsSocket → ∃ i ino, w.target.names.lookup (cfg.spot pe.1) = some i ∧
    w.target.names.lookup (cfg.spot (sourceOf l pe).1) = some i ∧
    w.target.inodes[i]? = some ino ∧ Complete cfg w₀.store (sourceOf l pe).2.details ino
  apart : ∀ pe ∈ done, ∀ qe ∈ done, ∀ i, w.target.names.lookup (cfg.spot pe.1) = some i →
    w.target.names.lookup (cfg.spot qe.1) = some i → sourceOf l pe = sourceOf l qe
  inodes : ∀ n, r.inodes.lookup n = (firstWith done n).map fun pe => cfg.fullPlace pe.1
  dir : r.dir = dirAfter done
  dirtimes : r.dirtimes = done.filterMap cfg.stamp?

variable {r r' : Restoring}

theorem Rebuilt.start (h : EmptyRoot cfg w₀.target) (hk : KnowsIds cfg w₀.names) (n : Nat) :
    Rebuilt cfg l w₀ [] {} { w₀ with clock := n } where
  store := rfl
  knows := hk
  errors _ := rfl
  ok := h.ok
  root := h.dir
  free p hp _ := h.empty p hp
  made _ hm := absurd hm List.not_mem_nil
  apart _ hm := absurd hm List.not_mem_nil
  inodes _ := rfl
  dir := rfl
  dirtimes := rfl

theorem Rebuilt.congr (h : Rebuilt cfg l w₀ done r w) (hstill : Still cfg w w')
    (htarget : w'.target = w.target) : Rebuilt cfg l w₀ done r w' where
  store := hstill.store.trans h.store
  knows := hstill.knows h.knows
  errors hs := hstill.errors.trans (h.errors hs)
  ok := htarget ▸ h.ok
  root := htarget ▸ h.root
  free p hp hm := htarget ▸ h.free p hp hm
  made := htarget ▸ h.made
  apart := htarget ▸ h.apart
  inodes := h.inodes
  dir := h.dir
  dirtimes := h.dirtimes

theorem spot_ne {p q : List Bytes} (h : p ≠ q) : cfg.spot p ≠ cfg.spot q :=
  fun e => h (List.append_cancel_left e)

/-- An entry that has got its place, which is that of the inode `i`. -/
theorem Rebuilt.placed {i : Nat} (h : Rebuilt cfg l w₀ done r w) (hne : pe.1 ≠ [])
    (hnew : pe.1 ∉ done.map Prod.fst) (hstill : Still cfg w w') (hok : w'.target.Ok)
    (hnamed : w.target.Named w'.target (cfg.spot pe.1) i)
    (hsource : w'.target.names.lookup (cfg.spot (sourceOf l pe).1) = some i)
    (hcomplete : ∃ ino, w'.target.inodes[i]? = some ino ∧
      Complete cfg w₀.store (sourceOf l pe).2.details ino)
    (hapart : ∀ qe ∈ done, w.target.names.lookup (cfg.spot qe.1) = some i →
      sourceOf l pe = sourceOf l qe)
    (hinodes : ∀ n, r'.inodes.lookup n =
      (firstWith (done ++ [pe]) n).map fun pe => cfg.fullPlace pe.1)
    (hdir : r'.dir = lastDir pe.1)
    (hdirtimes : r'.dirtimes = r.dirtimes ++ (cfg.stamp? pe).toList) :
    Rebuilt cfg l w₀ (done ++ [pe]) r' w' := by
  have hself := hnamed.lookup_self
  -- the other places
  have hother : ∀ qe ∈ done, w'.target.names.lookup (cfg.spot qe.1) =
      w.target.names.lookup (cfg.spot qe.1) := by
    intro qe hm
    refine hnamed.lookup_ne (spot_ne fun e => hnew ?_)
    exact e ▸ List.mem_map_of_mem hm
  constructor
  · rw [hstill.store, h.store]
  · exact hstill.knows h.knows
  · intro hs
    rw [hstill.errors, h.errors fun qe hm => hs qe (List.mem_append_left _ hm)]
  · exact hok
  · refine hnamed.isDir h.ok (fun e => hne ?_) h.root
    exact (List.self_eq_append_right.mp e)
  · intro p hp hm
    rw [List.map_append, List.mem_append, not_or] at hm
    have hpe : p ≠ pe.1 := fun e => hm.2 (by simp [e])
    rw [hnamed.lookup_ne (spot_ne hpe)]
    exact h.free p hp hm.1
  · intro qe hm hsocket
    rcases List.mem_append.mp hm with hm | hm
    · obtain ⟨j, ino, hj, hjs, hino, hc⟩ := h.made qe hm hsocket
      obtain ⟨ino', hino', halike⟩ := hnamed.old j (h.ok.inode hj) ino hino
      refine ⟨j, ino', (hother qe hm).trans hj, ?_, hino', hc.alike halike⟩
      have hne' : (sourceOf l qe).1 ≠ pe.1 := by
        intro e
        rw [e, h.free pe.1 hne hnew] at hjs
        cases hjs
      exact (hnamed.lookup_ne (spot_ne hne')).trans hjs
    · rw [List.mem_singleton.mp hm]
      obtain ⟨ino, hino, hc⟩ := hcomplete
      exact ⟨i, ino, hself, hsource, hino, hc⟩
  · have hone : ∀ qe ∈ done, ∀ j, w'.target.names.lookup (cfg.spot pe.1) = some j →
        w'.target.names.lookup (cfg.spot qe.1) = some j → sourceOf l pe = sourceOf l qe := by
      intro qe hm j hj hqj
      rw [hself] at hj
      rw [hother qe hm, ← hj] at hqj
      exact hapart qe hm hqj
    intro qe hq xe hx j hqj hxj
    rcases List.mem_append.mp hq with hq | hq
    · rcases List.mem_append.mp hx with hx | hx
      · rw [hother _ hq] at hqj
        rw [hother _ hx] at hxj
        exact h.apart qe hq xe hx j hqj hxj
      · rw [List.mem_singleton.mp hx] at hxj ⊢
        exact (hone qe hq j hxj hqj).symm
    · rw [List.mem_singleton.mp hq] at hqj ⊢
      rcases List.mem_append.mp hx with hx | hx
      · exact hone xe hx j hqj hxj
      · rw [List.mem_singleton.mp hx]
  · exact hinodes
  · rw [hdir, dirAfter_snoc]
  · rw [hdirtimes, h.dirtimes, List.filterMap_append]
    congr 1

/-- A socket that has been left out. -/
theorem Rebuilt.skip (h : Rebuilt cfg l w₀ done r w) (hne : pe.1 ≠ [])
    (hnew : pe.1 ∉ done.map Prod.fst) (hsocket : pe.IsSocket) (hskipped : Skipped cfg w w') :
    Rebuilt cfg l w₀ (done ++ [pe]) { r with dir := lastDir pe.1 } w' := by
  have hinode : pe.2.inodenum = none := by
    unfold Entry.inodenum
    rw [hsocket]
  have hnone : w'.target.names.lookup (cfg.spot pe.1) = none := by
    rw [hskipped.target]
    exact h.free pe.1 hne hnew
  -- nothing has changed; a socket is the only entry that may have no object
  constructor
  · rw [hskipped.store, h.store]
  · exact hskipped.knows h.knows
  · exact fun hs => absurd hsocket (hs pe (by simp))
  · exact hskipped.target ▸ h.ok
  · exact hskipped.target ▸ h.root
  · intro p hp hm
    rw [List.map_append, List.mem_append, not_or] at hm
    exact hskipped.target ▸ h.free p hp hm.1
  · intro qe hm hs
    rcases List.mem_append.mp hm with hm | hm
    · exact hskipped.target ▸ h.made qe hm hs
    · exact absurd hsocket (List.mem_singleton.mp hm ▸ hs)
  · intro qe hq xe hx j hqj hxj
    rcases List.mem_append.mp hq with hq | hq
    · rcases List.mem_append.mp hx with hx | hx
      · rw [hskipped.target] at hqj hxj
        exact h.apart qe hq xe hx j hqj hxj
      · rw [List.mem_singleton.mp hx, hnone] at hxj
        cases hxj
    · rw [List.mem_singleton.mp hq, hnone] at hqj
      cases hqj
  · intro n
    rw [firstWith_append, firstWith_singleton, hinode, if_neg (by simp), Option.or_none]
    exact h.inodes n
  · rw [dirAfter_snoc]
  · have hstamp : cfg.stamp? pe = none := by
      unfold Config.stamp?
      rw [hsocket, if_neg (by decide)]
    rw [List.filterMap_append, List.filterMap_cons, hstamp]
    simp [h.dirtimes]

/-! ### One entry -/

/-- Nothing is under the temporary name, so that nothing is removed. -/
theorem wp_discardTmp_free {path : Bytes} (hfree : w.target.names.lookup (components path) = none) :
    wp (discardTmp cfg path) (fun _ w' => Still cfg w w' ∧ w'.target = w.target)
      (fun _ _ => ¬ Smooth cfg) w := by
  rw [discardTmp, wp_tryCatch, Hostfs.remove, wp_bind, wp_tick]
  split
  · rename_i hkilled
    intro hsmooth
    rw [(hsmooth.undisturbed w.clock).1] at hkilled
    cases hkilled
  split
  · exact ⟨⟨rfl, rfl, id⟩, rfl⟩
  rw [wp_apply]
  have hremove : ∀ now, w.target.remove now (components path) =
      .error (w.target.missing (components path)) := by
    intro now
    unfold Target.remove
    rw [hfree, Option.isNone_none, if_pos rfl]
  dsimp only
  rw [hremove]
  exact ⟨⟨rfl, rfl, id⟩, rfl⟩

/-- What is needed of the entries: they are arranged, and there are no types of special files but
two. -/
structure Restorable (l : List Placed) : Prop where
  arranged : Arranged l
  devices : ∀ pe ∈ l, ∀ type, pe.2.kind = .dev type → type = lit "chr" ∨ type = lit "blk"

/-- What is not made is a socket. -/
theorem isSocket_of_unmade {tmp : Bytes}
    (hdev : ∀ type, pe.2.kind = .dev type → type = lit "chr" ∨ type = lit "blk")
    (h : Unmade pe.2.details tmp ∨ ¬ Smooth cfg ∧ pe.2.details (lit "type") = some (lit "socket")) :
    pe.IsSocket := by
  have htype := pe.2.details_type
  unfold Placed.IsSocket
  -- the type on the line is one that is made, unless it is a socket
  rcases h with (⟨hsocket, -⟩ | ⟨type, hother, hunknown⟩ | ⟨hnone, hdata, hhash⟩) | ⟨-, hsocket⟩
  · exact htype.symm.trans hsocket
  · exfalso
    apply hunknown
    rw [htype] at hother
    cases hk : pe.2.kind with
    | dev type' =>
      rw [hk] at hother
      obtain rfl := Option.some.inj hother
      rcases hdev type' hk with rfl | rfl
      · decide
      · decide
    | data bytes => rw [hk] at hother; cases hother
    | sha1 hash => rw [hk] at hother; cases hother
    | dir => rw [hk] at hother; obtain rfl := Option.some.inj hother; decide
    | link target => rw [hk] at hother; obtain rfl := Option.some.inj hother; decide
    | socket => rw [hk] at hother; obtain rfl := Option.some.inj hother; decide
  · exfalso
    have hsha1 := pe.2.details_sha1
    rw [htype] at hnone
    cases hk : pe.2.kind with
    | data bytes =>
      have hsome : pe.2.details (lit "data") = some bytes := by
        rw [Entry.details, Entry.lookup, Entry.fields, hk]
        rfl
      rw [hsome] at hdata
      cases hdata
    | sha1 hash =>
      rw [hk, hhash] at hsha1
      cases hsha1
    | _ => rw [hk] at hnone; cases hnone
  · exact htype.symm.trans hsocket

/-- What is known before the entry `pe`. -/
structure Ready (cfg : Config) (l done : List Placed) (pe : Placed) (t : Target) : Prop where
  ne_nil : pe.1 ≠ []
  new : pe.1 ∉ done.map Prod.fst
  name : components (cfg.fullPlace pe.1) = cfg.spot pe.1
  clear : Clear t (cfg.spot pe.1)
  tmp : Clear t (components (tmpname (cfg.fullPlace pe.1)))

theorem hasParent_spot {t : Target} {d : List Bytes} {name : Bytes}
    (h : t.isDir (cfg.spot d) = true) : t.hasParent (cfg.spot (d ++ [name])) = true := by
  have hdir : (cfg.spot (d ++ [name])).dropLast = cfg.spot d := by
    unfold Config.spot
    rw [← List.append_assoc, List.dropLast_concat]
  unfold Target.hasParent
  rw [hdir, h]

theorem spot_ne_nil {p : List Bytes} (h : p ≠ []) : cfg.spot p ≠ [] := by
  unfold Config.spot
  simp [h]

/-- The way is clear for the next entry. -/
theorem Rebuilt.ready (h : Rebuilt cfg l w₀ done r w) (h0 : 0 ∉ cfg.root) (hl : Arranged l)
    (hsplit : l = done ++ pe :: post) : Ready cfg l done pe w.target := by
  have hm : pe ∈ l := by rw [hsplit]; simp
  obtain ⟨hne, hp⟩ := hl.components pe hm
  have hnew : pe.1 ∉ done.map Prod.fst := by
    have hnodup := hl.nodup
    rw [hsplit, List.map_append, List.map_cons] at hnodup
    exact fun hmem => (List.nodup_append.mp hnodup).2.2 _ hmem _ List.mem_cons_self rfl
  obtain ⟨d, name, hplace⟩ := List.eq_nil_or_concat' pe.1 |>.resolve_left hne
  have htmp := components_tmpname h0 (hplace ▸ hp)
  -- the directory has been made
  have hdir : w.target.isDir (cfg.spot d) = true := by
    rcases hl.parent done pe post hsplit with hd | ⟨e, he, hkind⟩
    · rw [hplace, List.dropLast_concat] at hd
      rw [hd, Config.spot, List.append_nil]
      exact h.root
    · rw [hplace, List.dropLast_concat] at he
      have htype : e.kind.type = some (lit "dir") := by rw [hkind]; rfl
      have hsource : sourceOf l (d, e) = (d, e) :=
        sourceOf_of_none (by unfold Entry.inodenum; rw [htype])
      have hnot : ¬ Placed.IsSocket (d, e) := by
        unfold Placed.IsSocket
        rw [htype]
        decide
      obtain ⟨i, ino, hi, -, hino, hcomplete⟩ := h.made _ he hnot
      rw [hsource] at hcomplete
      have hbody := hcomplete.body.body_of_dir (e.details_type.trans htype)
      by_cases hd : d = []
      · rw [hd, Config.spot, List.append_nil]
        exact h.root
      · exact (isDir_iff (spot_ne_nil hd)).mpr ⟨i, ino, hi, hino, hbody⟩
  constructor
  · exact hne
  · exact hnew
  · exact components_fullPlace h0 hp hne
  · refine ⟨spot_ne_nil hne, ?_, h.free _ hne hnew⟩
    rw [hplace]
    exact hasParent_spot hdir
  · rw [hplace, htmp]
    refine ⟨spot_ne_nil (by simp [tmpPlace]), hasParent_spot hdir, h.free _ (by simp [tmpPlace]) ?_⟩
    exact hl.tmp done pe post d name hsplit hplace

/-- An entry that is the first with its inode number, or has none. -/
theorem Rebuilt.wp_restoreNew (h : Rebuilt cfg l w₀ done r w)
    (hready : Ready cfg l done pe w.target)
    (hdev : ∀ type, pe.2.kind = .dev type → type = lit "chr" ∨ type = lit "blk")
    (hsource : sourceOf l pe = pe)
    (hfirst : ∀ n, pe.2.inodenum = some n → firstWith done n = none) :
    wp (restoreNew cfg pe.2.details (cfg.fullPlace pe.1) { r with dir := lastDir pe.1 })
      (fun r' w' => Rebuilt cfg l w₀ (done ++ [pe]) r' w')
      (fun _ _ => Smooth cfg → sourceOf l pe = pe ∧ Lacking cfg w₀.store pe.2.details) w := by
  have hslash := slash_mem_fullname cfg.root (relpath pe.1)
  have hclear : Clear w.target (components (cfg.fullPlace pe.1)) := hready.name.symm ▸ hready.clear
  have htype := pe.2.details_type
  have hinodenum := pe.2.inodenum_details
  refine wp_mono (Hbackup.wp_restoreNew _ hslash h.ok h.knows (.inl hready.tmp.free)) ?_ ?_
  swap
  · rintro _ w' ⟨-, hlacking⟩ hsmooth
    rw [← h.store]
    exact ⟨hsource, hlacking hsmooth hready.tmp hclear⟩
  rintro r' w' (hnew | ⟨rfl, hskipped, hunmade⟩)
  · have hnamed := hnew.named
    rw [hready.name] at hnamed
    obtain ⟨ino, hino, hcomplete⟩ := hnew.complete
    rw [h.store] at hcomplete
    refine h.placed hready.ne_nil hready.new hnew.still hnew.ok hnamed ?_ ?_ ?_ ?_ ?_ ?_
    · rw [hsource]
      exact hnamed.lookup_self
    · rw [hsource]
      exact ⟨ino, hino, hcomplete⟩
    · -- the inode is new
      intro qe _ hi
      have := h.ok.inode hi
      omega
    · intro n
      rw [hnew.restoring, firstWith_append, firstWith_singleton, htype, hinodenum]
      dsimp only
      have hold := h.inodes n
      cases hn : pe.2.inodenum with
      | none =>
        rw [if_neg (by simp), Option.or_none, ← hold]
        cases pe.2.kind.type <;> rfl
      | some m =>
        rw [Entry.type_of_inodenum hn]
        dsimp only
        rw [List.lookup_cons]
        by_cases hmn : n = m
        · subst hmn
          rw [hfirst n hn]
          simp [Config.fullPlace]
        · have hbeq : (n == m) = false := by simpa using hmn
          have hne : ¬ (some m = some n) := fun e => hmn (Option.some.inj e).symm
          rw [hbeq, if_neg hne, Option.or_none]
          exact hold
    · rw [hnew.restoring]
    · rw [hnew.restoring, htype]
      dsimp only
      congr 1
      unfold Config.stamp? Config.stamp
      rw [pe.2.timeOf_details.1, pe.2.timeOf_details.2]
      split <;> rfl
  · have hsocket := isSocket_of_unmade hdev (hunmade hready.tmp hclear)
    exact h.skip hready.ne_nil hready.new hsocket hskipped

/-- An entry with the inode number of one that has been restored. -/
theorem Rebuilt.wp_restoreLink (h : Rebuilt cfg l w₀ done r w)
    (hready : Ready cfg l done pe w.target) (hsplit : l = done ++ pe :: post)
    (hn : pe.2.inodenum = some n)
    (hfirst : firstWith done n = some qe)
    (hqname : components (cfg.fullPlace qe.1) = cfg.spot qe.1) :
    wp (do
        Hostfs.link cfg (cfg.fullPlace qe.1) (tmpname (cfg.fullPlace pe.1))
        Hostfs.rename cfg (tmpname (cfg.fullPlace pe.1)) (cfg.fullPlace pe.1)
        return ({ r with dir := lastDir pe.1 } : Restoring))
      (fun r' w' => Rebuilt cfg l w₀ (done ++ [pe]) r' w') (fun _ _ => ¬ Smooth cfg) w := by
  have hslash := slash_mem_fullname cfg.root (relpath pe.1)
  have hclear : Clear w.target (components (cfg.fullPlace pe.1)) := hready.name.symm ▸ hready.clear
  obtain ⟨hq, hqn⟩ := firstWith_spec hfirst
  have hfirst' : firstWith l n = some qe := by
    rw [hsplit, firstWith_append, hfirst]
    rfl
  have hsource : sourceOf l pe = qe := sourceOf_eq hn hfirst'
  have hsource' : sourceOf l qe = qe := sourceOf_eq hqn hfirst'
  have hregular := Entry.type_of_inodenum hqn
  have hnot : ¬ qe.IsSocket := by
    unfold Placed.IsSocket
    rw [hregular]
    simp
  obtain ⟨i, ino, hi, -, hino, hcomplete⟩ := h.made qe hq hnot
  rw [hsource'] at hcomplete
  refine wp_mono (Hbackup.wp_restoreLink hslash h.ok) ?_ ?_
  · rintro r' w' ⟨rfl, hstill, hok, j, hj, hnamed⟩
    rw [hqname, hi] at hj
    obtain rfl := Option.some.inj hj
    rcases hnamed with hnamed | ⟨hold, -⟩
    swap
    · -- the place is free
      rw [hclear.free] at hold
      cases hold
    rw [hready.name] at hnamed
    obtain ⟨ino', hino', halike⟩ := hnamed.old i (h.ok.inode hi) ino hino
    refine h.placed hready.ne_nil hready.new hstill hok hnamed ?_ ?_ ?_ ?_ rfl ?_
    · rw [hsource]
      have hne : qe.1 ≠ pe.1 := fun e => hready.new (e ▸ List.mem_map_of_mem hq)
      exact (hnamed.lookup_ne (spot_ne hne)).trans hi
    · rw [hsource]
      exact ⟨ino', hino', hcomplete.alike halike⟩
    · intro xe hx hxi
      rw [hsource, ← hsource']
      exact h.apart qe hq xe hx i hi hxi
    · intro m
      rw [firstWith_append, firstWith_singleton]
      refine (h.inodes m).trans ?_
      by_cases hm : pe.2.inodenum = some m
      · obtain rfl : n = m := Option.some.inj (hn.symm.trans hm)
        rw [hfirst]
        rfl
      · rw [if_neg hm, Option.or_none]
    · have hstamp : cfg.stamp? pe = none := by
        unfold Config.stamp?
        rw [Entry.type_of_inodenum hn, if_neg (by simp)]
      rw [hstamp]
      simp
  · rintro _ w' ⟨-, hstop⟩ hsmooth
    rcases hstop hsmooth hready.tmp hclear with hnone | hdir
    · rw [hqname, hi] at hnone
      cases hnone
    · -- it is a file
      rw [hqname] at hdir
      obtain ⟨j, dir, hj, hdirIno, hbody⟩ := (isDir_iff (h.ok.ne_nil hi)).mp hdir
      obtain rfl := Option.some.inj (hi.symm.trans hj)
      obtain rfl := Option.some.inj (hino.symm.trans hdirIno)
      have hfile := hcomplete.body.of_regular (qe.2.details_type.trans hregular)
      rw [hbody] at hfile
      rcases hfile with ⟨_, -, hfile⟩ | ⟨-, _, _, _, -, -, -, hfile⟩ <;> cases hfile

/-- **One entry of an arranged index.** -/
theorem Rebuilt.wp_restoreEntry (h : Rebuilt cfg l w₀ done r w) (h0 : 0 ∉ cfg.root)
    (hconvert : ∀ s, cfg.convert s = s) (hl : Restorable l) (hsplit : l = done ++ pe :: post) :
    wp (restoreEntry cfg r pe.2.details) (fun r' w' => Rebuilt cfg l w₀ (done ++ [pe]) r' w')
      (fun _ _ => Smooth cfg → sourceOf l pe = pe ∧ Lacking cfg w₀.store pe.2.details) w := by
  have hready := h.ready h0 hl.arranged hsplit
  have hm : pe ∈ l := by rw [hsplit]; simp
  have hresolve : resolveName r.dir (cfg.convert (pe.2.details.get (lit "name"))) =
      some (relpath pe.1, lastDir pe.1) := by
    rw [hconvert, pe.2.details_of_lookup (k := lit "name") rfl, h.dir]
    exact hl.arranged.resolve hsplit
  rw [restoreEntry, hresolve]
  dsimp only
  rw [wp_bind]
  refine wp_mono (wp_discardTmp_free hready.tmp.free) ?_
    fun _ _ hstop hsmooth => absurd hsmooth hstop
  -- nothing is under the temporary name
  rintro _ w₁ ⟨hstill, htarget⟩
  have h₁ := h.congr hstill htarget
  have hready₁ : Ready cfg l done pe w₁.target := htarget ▸ hready
  have hlookup : ((inodenum pe.2.details).bind fun n => r.inodes.lookup n) =
      pe.2.inodenum.bind fun n => (firstWith done n).map fun pe => cfg.fullPlace pe.1 := by
    rw [pe.2.inodenum_details]
    exact congrArg _ (funext h.inodes)
  rw [hlookup]
  have hnew : sourceOf l pe = pe → (∀ n, pe.2.inodenum = some n → firstWith done n = none) →
      wp (restoreNew cfg pe.2.details (cfg.fullPlace pe.1) { r with dir := lastDir pe.1 })
        (fun r' w' => Rebuilt cfg l w₀ (done ++ [pe]) r' w')
        (fun _ _ => Smooth cfg → sourceOf l pe = pe ∧ Lacking cfg w₀.store pe.2.details) w₁ :=
    fun hsource hfirst => h₁.wp_restoreNew hready₁ (hl.devices pe hm) hsource hfirst
  -- the first entry with an inode number is restored, the others are links to it
  cases hn : pe.2.inodenum with
  | none => exact hnew (sourceOf_of_none hn) fun n h => by rw [hn] at h; cases h
  | some n =>
    cases hfirst : firstWith done n with
    | none =>
      rw [Option.bind_some, hfirst]
      have hnone : ∀ m, pe.2.inodenum = some m → firstWith done m = none := by
        intro m hm'
        obtain rfl : n = m := Option.some.inj (hn.symm.trans hm')
        exact hfirst
      have hself : sourceOf l pe = pe := hsplit ▸ source_self hnone
      exact hnew hself hnone
    | some qe =>
      rw [Option.bind_some, hfirst]
      have hq : qe ∈ l := by
        rw [hsplit]
        exact List.mem_append_left _ (firstWith_spec hfirst).1
      obtain ⟨hqne, hqp⟩ := hl.arranged.components qe hq
      exact wp_mono (h₁.wp_restoreLink hready₁ hsplit hn hfirst (components_fullPlace h0 hqp hqne))
        (fun _ _ h => h) fun _ _ hstop hsmooth => absurd hsmooth hstop

/-! ### The whole index -/

/-- The loop over the index. -/
theorem Rebuilt.wp_restoreEntries (h0 : 0 ∉ cfg.root) (hconvert : ∀ s, cfg.convert s = s)
    (hl : Restorable l) : ∀ (turns : Nat) (f : InFile) {done post : List Placed} {r : Restoring}
    {w : World}, Rebuilt cfg l w₀ done r w → l = done ++ post →
    readEntries turns f = (post.map fun pe => pe.2.details, none) →
    wp (restoreEntries cfg turns f r) (fun r' w' => Rebuilt cfg l w₀ l r' w')
      (fun _ _ => Smooth cfg → ∃ pe ∈ l, sourceOf l pe = pe ∧ Lacking cfg w₀.store pe.2.details) w
  | 0, f, done, post, r, w, h, hsplit, hread => by
    rw [readEntries] at hread
    obtain rfl := List.map_eq_nil_iff.mp (congrArg Prod.fst hread).symm
    rw [List.append_nil] at hsplit
    exact hsplit ▸ h
  | turns + 1, f, done, post, r, w, h, hsplit, hread => by
    rw [restoreEntries]
    rw [readEntries] at hread
    cases hline : readIndexLine f with
    | error e =>
      rw [hline] at hread
      cases congrArg Prod.snd hread
    | ok p =>
      obtain ⟨_ | d, f'⟩ := p
      · rw [hline] at hread
        obtain rfl := List.map_eq_nil_iff.mp (congrArg Prod.fst hread).symm
        rw [List.append_nil] at hsplit
        exact hsplit ▸ h
      rw [hline] at hread
      obtain ⟨hfst, hsnd⟩ := Prod.mk.inj hread
      -- the entry that is read is the next one that was expected
      cases post with
      | nil => cases hfst
      | cons pe post =>
        obtain ⟨rfl, hrest⟩ := List.cons.inj hfst
        dsimp only
        rw [wp_bind]
        refine wp_mono (h.wp_restoreEntry h0 hconvert hl hsplit) ?_ ?_
        · intro r' w' h'
          refine Rebuilt.wp_restoreEntries h0 hconvert hl turns f' h' ?_ (Prod.ext hrest hsnd)
          rw [hsplit, List.append_assoc]
          rfl
        · intro _ _ hstop hsmooth
          exact ⟨pe, by rw [hsplit]; simp, hstop hsmooth⟩

/-- An index that cannot be read to its end is not restored. -/
theorem wp_restoreEntries_stops : ∀ (turns : Nat) (f : InFile) {r : Restoring} {w : World},
    (readEntries turns f).2 ≠ none →
    wp (restoreEntries cfg turns f r) (fun _ _ => False) (fun _ _ => True) w
  | 0, _, _, _, h => absurd rfl h
  | turns + 1, f, r, w, h => by
    rw [restoreEntries]
    rw [readEntries] at h
    cases hline : readIndexLine f with
    | error e => trivial
    | ok p =>
      obtain ⟨_ | d, f'⟩ := p
      · rw [hline] at h
        exact absurd rfl h
      rw [hline] at h
      dsimp only
      rw [wp_bind]
      have hany : wp (restoreEntry cfg r d) (fun _ _ => True) (fun _ _ => True) w :=
        (wp_stateAfter _ (fun _ => True) _).mpr trivial
      exact wp_mono hany (fun _ _ _ => wp_restoreEntries_stops turns f' h) fun _ _ h => h

/-- What a restore that returns leaves in an empty directory. -/
structure RestoredTree (cfg : Config) (l : List Placed) (w₀ w : World) : Prop where
  errors : (∀ pe ∈ l, ¬ pe.IsSocket) → w.errors = w₀.errors
  names : ∀ p, p ≠ [] → (w.target.names.lookup (cfg.spot p)).isSome → p ∈ l.map Prod.fst
  made : ∀ pe ∈ l, ¬ pe.IsSocket → ∃ i ino, w.target.names.lookup (cfg.spot pe.1) = some i ∧
    w.target.inodes[i]? = some ino ∧ Complete cfg w₀.store (sourceOf l pe).2.details ino
  /-- Entries are links to the same file exactly if they have one source. -/
  linked : ∀ pe ∈ l, ∀ qe ∈ l, ¬ pe.IsSocket → ¬ qe.IsSocket →
    (w.target.names.lookup (cfg.spot pe.1) = w.target.names.lookup (cfg.spot qe.1) ↔
      sourceOf l pe = sourceOf l qe)
  times : ∀ pe ∈ l, pe.2.kind.type = some (lit "dir") → ∀ i ino,
    w.target.names.lookup (cfg.spot pe.1) = some i → w.target.inodes[i]? = some ino →
    ino.atime = pe.2.sb.st_atime ∧ ino.mtime = pe.2.sb.st_mtime

/-- The times of directories that have been fixed up. -/
structure Stamped (cfg : Config) (l : List Placed) (w : World) (fixed : List Dirstamp)
    (w' : World) : Prop where
  settled : w.target.Settled w'.target
  errors : w'.errors = w.errors
  times : ∀ pe ∈ l, pe.2.kind.type = some (lit "dir") → cfg.stamp pe ∈ fixed → ∀ i ino,
    w.target.names.lookup (cfg.spot pe.1) = some i → w'.target.inodes[i]? = some ino →
    ino.atime = pe.2.sb.st_atime ∧ ino.mtime = pe.2.sb.st_mtime

/-- The times of one directory. -/
theorem Stamped.wp_utimes {fixed : List Dirstamp} (h : Stamped cfg l w fixed w')
    (hw : Rebuilt cfg l w₀ l r w) (hm : pe ∈ l) (htype : pe.2.kind.type = some (lit "dir"))
    (hnames : ∀ pe ∈ l, components (cfg.fullPlace pe.1) = cfg.spot pe.1) :
    wp (Hostfs.utimes cfg (cfg.stamp pe).dir (cfg.stamp pe).atime (cfg.stamp pe).mtime)
      (fun _ w'' => Stamped cfg l w (fixed ++ [cfg.stamp pe]) w'') (fun _ _ => ¬ Smooth cfg)
      w' := by
  have hnone : ∀ xe : Placed, xe.2.kind.type = some (lit "dir") → sourceOf l xe = xe := by
    intro xe hx
    refine sourceOf_of_none ?_
    unfold Entry.inodenum
    rw [hx]
  have hnot : ¬ pe.IsSocket := by
    unfold Placed.IsSocket
    rw [htype]
    decide
  obtain ⟨i, dir, hi, -, hdir, hcomplete⟩ := hw.made pe hm hnot
  rw [hnone pe htype] at hcomplete
  have hbody := hcomplete.body.body_of_dir (pe.2.details_type.trans htype)
  have hi' : w'.target.names.lookup (components (cfg.stamp pe).dir) = some i := by
    rw [h.settled.1]
    exact (hnames pe hm).symm ▸ hi
  apply wp_change
  · intro t ht
    unfold Target.utimes at ht
    rw [change_eq _ hi'] at ht
    obtain rfl := Except.ok.inj ht
    refine ⟨⟨h.settled.1, fun j hj => (h.settled.2 j hj).trans ?_⟩, h.errors, ?_⟩
    · intro ino hino
      by_cases hji : j = i
      · subst hji
        obtain ⟨ino', hino', halike⟩ := h.settled.2 j hj dir hdir
        obtain rfl := Option.some.inj (hino'.symm.trans hino)
        exact ⟨_, getElem?_update_self _ hino, .inr ⟨halike.body.trans hbody, rfl⟩⟩
      · exact ⟨ino, (getElem?_update_ne _ hji).trans hino, .refl ino⟩
    · intro qe hq hqtype hstamp j ino hj hino
      dsimp only at hino
      by_cases hji : j = i
      · -- two directories are not one
        subst hji
        have heq := hw.apart pe hm qe hq j hi hj
        rw [hnone pe htype, hnone qe hqtype] at heq
        subst heq
        rw [getElem?_update, if_pos rfl, Option.map_eq_some_iff] at hino
        obtain ⟨ino', -, rfl⟩ := hino
        exact ⟨rfl, rfl⟩
      · rw [getElem?_update_ne _ hji] at hino
        rcases List.mem_append.mp hstamp with hstamp | hstamp
        · exact h.times qe hq hqtype hstamp j ino hj hino
        · -- another directory has another stamp
          have hfull : cfg.fullPlace qe.1 = cfg.fullPlace pe.1 :=
            congrArg Dirstamp.dir (List.mem_singleton.mp hstamp)
          rw [← hnames qe hq, hfull, hnames pe hm, hi] at hj
          exact absurd (Option.some.inj hj).symm hji
  · intro stop hstop hsmooth
    obtain ⟨e, he⟩ := hstop hsmooth
    unfold Target.utimes at he
    rw [change_eq _ hi'] at he
    cases he

/-- **All times of directories.** -/
theorem Rebuilt.wp_fixDirtimes (h : Rebuilt cfg l w₀ l r w)
    (hnames : ∀ pe ∈ l, components (cfg.fullPlace pe.1) = cfg.spot pe.1) :
    wp (fixDirtimes cfg r.dirtimes) (fun _ w' => RestoredTree cfg l w₀ w') (fun _ _ => ¬ Smooth cfg)
      w := by
  have hstart : Stamped cfg l w [] w :=
    ⟨⟨fun _ => rfl, fun j _ => .refl _ j⟩, rfl, fun _ _ _ hm => absurd hm List.not_mem_nil⟩
  -- in the loop only times change; those of the directories so far are right
  have hloop : wp (fixDirtimes cfg r.dirtimes) (fun _ w' => Stamped cfg l w r.dirtimes w')
      (fun _ _ => ¬ Smooth cfg) w := by
    unfold fixDirtimes
    refine wp_forM (fun fixed w' => Stamped cfg l w fixed w') ?_ hstart
    intro pre stamp post w₁ hsplit hstamped
    have hmem : stamp ∈ l.filterMap cfg.stamp? := by
      rw [← h.dirtimes, hsplit]
      simp
    obtain ⟨pe, hm, hpe⟩ := List.mem_filterMap.mp hmem
    unfold Config.stamp? at hpe
    split at hpe
    · rename_i htype
      cases hpe
      exact hstamped.wp_utimes h hm htype hnames
    · cases hpe
  refine wp_mono hloop ?_ fun _ _ hstop => hstop
  rintro _ w' ⟨⟨hsame, hinodes⟩, herrors, htimes⟩
  -- all else is as it was before the loop
  constructor
  · intro hs
    rw [herrors, h.errors hs]
  · intro p hp hsome
    by_contra hm
    rw [hsame, h.free p hp hm] at hsome
    cases hsome
  · intro pe hm hnot
    obtain ⟨i, ino, hi, -, hino, hcomplete⟩ := h.made pe hm hnot
    obtain ⟨ino', hino', halike⟩ := hinodes i (h.ok.inode hi) ino hino
    exact ⟨i, ino', (hsame _).trans hi, hino', hcomplete.alike halike⟩
  · intro pe hm qe hq hnot hnot'
    obtain ⟨i, -, hi, hsi, -, -⟩ := h.made pe hm hnot
    obtain ⟨j, -, hj, hsj, -, -⟩ := h.made qe hq hnot'
    rw [hsame, hsame, hi, hj]
    constructor
    · intro heq
      exact h.apart pe hm qe hq i hi (heq ▸ hj)
    · intro heq
      rw [← hsi, heq, hsj]
  · intro pe hm htype i ino hi hino
    rw [hsame] at hi
    refine htimes pe hm htype ?_ i ino hi hino
    rw [h.dirtimes]
    refine List.mem_filterMap.mpr ⟨pe, hm, ?_⟩
    unfold Config.stamp?
    rw [if_pos htype]

/-- An index that is read to its end has been read whole. -/
theorem entriesOf_of_fileAt {reads : Bytes → Option ReadFault} {s : Store} {path : Bytes}
    {es : List Entry} {f : InFile} (hf : Backupfs.fileAt reads s path = .ok f)
    (hindex : s.lookup path = some (.file (indexText es))) (hend : (entriesOf f).2 = none) :
    entriesOf f = (es.map Entry.details, none) := by
  obtain ⟨lines, tail, hlines, hrest, htail⟩ := isIndex_of_entriesOf (Prod.ext rfl hend)
  have hprefix : ∃ more, indexText es = f.rest ++ more ∧ (f.fault = none → more = []) := by
    unfold Backupfs.fileAt at hf
    rw [hindex] at hf
    dsimp only at hf
    split at hf
    · cases hf
    split at hf
    · obtain rfl := Except.ok.inj hf
      exact ⟨_, (List.take_append_drop _ _).symm, fun h => by cases h⟩
    · obtain rfl := Except.ok.inj hf
      exact ⟨[], by simp, fun _ => rfl⟩
  obtain ⟨more, htext, hmore⟩ := hprefix
  -- the same lines are those of the whole text
  have hwhole : IsIndex ⟨indexText es, none⟩ (entriesOf f).1 := by
    refine ⟨lines, tail ++ more, hlines, ?_, ?_⟩
    · rw [htext, hrest, List.append_assoc]
    · rcases htail with ⟨rfl, hnone⟩ | ⟨t, rfl⟩
      · rw [hmore hnone]
        exact .inl ⟨rfl, rfl⟩
      · exact .inr ⟨t ++ more, rfl⟩
  have hds : ((entriesOf f).1, none) = (es.map Entry.details, none) :=
    (entriesOf_of_isIndex hwhole).symm.trans (entriesOf_indexText es)
  have hfst : (entriesOf f).1 = es.map Entry.details := (Prod.ext_iff.mp hds).1
  exact Prod.ext hfst hend

/-- **An index is restored into an empty directory.**  A run that returns has restored every entry;
if every call succeeds that can, it stops only at an entry that cannot be restored. -/
theorem wp_do_restore_rebuilt (h0 : 0 ∉ cfg.root) (hconvert : ∀ s, cfg.convert s = s)
    (hl : Restorable l) (hroot : EmptyRoot cfg w.target) (hk : KnowsIds cfg w.names)
    (hindex : w.store.lookup cfg.indexfile = some (.file (indexText (l.map Prod.snd)))) :
    wp (do_restore cfg) (fun _ w' => RestoredTree cfg l w w')
      (fun _ _ => Smooth cfg → cfg.repo ≠ [] → cfg.root ≠ [] → cfg.indexfile ≠ [] →
        ∃ pe ∈ l, sourceOf l pe = pe ∧ Lacking cfg w.store pe.2.details) w := by
  have hnames : ∀ pe ∈ l, components (cfg.fullPlace pe.1) = cfg.spot pe.1 := by
    intro pe hm
    obtain ⟨hne, hp⟩ := hl.arranged.components pe hm
    exact components_fullPlace h0 hp hne
  rw [do_restore, wp_ite]
  split
  · rename_i hrepo
    exact fun _ h => absurd hrepo h
  rw [wp_ite]
  split
  · rename_i hnil
    exact fun _ _ h => absurd hnil h
  rw [wp_ite]
  split
  · rename_i hnil
    exact fun _ _ _ h => absurd hnil h
  rw [wp_bind, Backupfs.openRead, wp_bind, wp_tick]
  split
  · rename_i hkilled
    intro hsmooth
    rw [(hsmooth.undisturbed w.clock).1] at hkilled
    cases hkilled
  rw [wp_bind, wp_get, wp_liftExcept]
  dsimp only
  -- the index is opened, unless something fails
  cases hfile : Backupfs.fileAt (cfg.env w.clock).reads w.store cfg.indexfile with
  | error e =>
    intro hsmooth
    unfold Backupfs.fileAt at hfile
    rw [(hsmooth.undisturbed w.clock).2.2, hindex] at hfile
    cases hfile
  | ok f =>
    dsimp only
    rw [wp_bind]
    cases hend : (entriesOf f).2 with
    | some e =>
      -- the index cannot be read to its end; in a smooth run it can
      have hstops : (readEntries f.turns f).2 ≠ none := by
        intro hnone
        rw [show (readEntries f.turns f).2 = (entriesOf f).2 from rfl, hend] at hnone
        cases hnone
      refine wp_mono (wp_restoreEntries_stops _ f hstops) (fun _ _ h => h.elim) ?_
      intro _ _ _ hsmooth
      unfold Backupfs.fileAt at hfile
      rw [(hsmooth.undisturbed w.clock).2.2, hindex] at hfile
      rw [← Except.ok.inj hfile, entriesOf_indexText] at hend
      cases hend
    | none =>
      have hread := entriesOf_of_fileAt hfile hindex hend
      rw [List.map_map] at hread
      refine wp_mono (Rebuilt.wp_restoreEntries h0 hconvert hl f.turns f
        (Rebuilt.start hroot hk (w.clock + 1)) rfl hread) ?_ ?_
      · intro r w' h
        exact wp_mono (h.wp_fixDirtimes hnames) (fun _ _ h => h)
          fun _ _ hstop hsmooth => absurd hsmooth hstop
      · exact fun _ _ hstop hsmooth _ _ _ => hstop hsmooth

end Hbackup
