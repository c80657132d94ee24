import Hbackup.Backup
import Hbackup.Equiv.File
import Hbackup.Utils.Equiv.Number

/-!
# Index entries

An `Entry` is what one line of the index says.  The pieces that `backup_dir` puts are those of
`Entry.line`, a line of encoded fields (`Entry.encodes`), so that the reader delivers the map of
the entry's fields (`Entry.parse`).
-/

namespace Hbackup

open FormCoding Separated

/-! ### Entries -/

/-- The type-specific details. -/
inductive Kind
  | data (bytes : Bytes)
  | sha1 (h : Hash)
  | dir
  | link (target : Bytes)
  | dev (type : Bytes)
  | socket

/-- What a line of the index says; `path` is the path that the name stands for. -/
structure Entry where
  path : Bytes
  relname : Bytes
  sb : Stat
  uid : Bytes
  gid : Bytes
  kind : Kind

/-- The inode number, if it is recorded. -/
def inodeFields (sb : Stat) : List (Bytes × Bytes) :=
  if sb.st_nlink > 1 then [(lit "inode", decimal sb.st_ino.toNat)] else []

def Kind.fields (sb : Stat) : Kind → List (Bytes × Bytes)
  | .data bytes => (lit "data", bytes) :: inodeFields sb
  | .sha1 h => (HASH_NAME, hexencode h.bytes) :: inodeFields sb
  | .dir => [(lit "type", lit "dir")]
  | .link target => [(lit "target", target), (lit "type", lit "link")]
  | .dev type => [(lit "rdev", rdevField sb), (lit "type", type)]
  | .socket => [(lit "type", lit "socket")]

/-- The fields of the line. -/
def Entry.fields (e : Entry) : List (Bytes × Bytes) :=
  [(lit "name", e.relname), (lit "perms", octal (e.sb.st_mode &&& 0o7777).toNat),
    (lit "uid", e.uid), (lit "gid", e.gid), (lit "atime", putTime e.sb.st_atime),
    (lit "ctime", putTime e.sb.st_ctime), (lit "mtime", putTime e.sb.st_mtime)] ++
    e.kind.fields e.sb

/-- `key=value`, with the value encoded. -/
def part (kv : Bytes × Bytes) : Bytes := kv.1 ++ 61 :: urlencode kv.2

/-- The parts joined by `&`. -/
def joined (fields : List (Bytes × Bytes)) : Bytes := ([38] : Bytes).intercalate (fields.map part)

/-- The line, without its newline. -/
def Entry.line (e : Entry) : Bytes := joined e.fields

/-! ### Numbers in fields -/

/-- `%llu` of a time, signed or not, is read back as that time. -/
theorem strtoull_putTime (t : Int64) : (strtoull (putTime t)).toInt64 = t := by
  rw [putTime, strtoull_decimal (UInt64.toNat_lt _), UInt64.ofNat_toNat, Int64.toInt64_toUInt64]

/-- `%0#o` of the permission bits is read back as these bits. -/
theorem strtol_perms (mode : UInt32) :
    (strtol 8 (octal (mode &&& 0o7777).toNat)).toUInt64.toUInt32 = mode &&& 0o7777 := by
  have hle : (mode &&& 0o7777).toNat ≤ 0o7777 := by
    rw [UInt32.toNat_and]
    exact Nat.and_le_right
  apply UInt32.toNat_inj.mp
  rw [strtol_octal (by omega), ← Int64.ofInt_eq_ofNat, UInt64.toNat_toUInt32, toNat_toUInt64_ofInt]
  omega

/-! ### Lines of encoded fields -/

theorem joined_cons (kv : Bytes × Bytes) (fields : List (Bytes × Bytes)) :
    joined (kv :: fields) = part kv ++ fields.flatMap fun kv => 38 :: part kv := by
  induction fields generalizing kv with
  | nil => simp [joined]
  | cons kv' fields ih =>
    have h := ih kv'
    rw [joined, List.map_cons] at h ⊢
    rw [List.map_cons, List.intercalate_cons_cons, List.append_assoc, h, List.flatMap_cons]
    rfl

/-- The generic details are the first parts of the line. -/
theorem genericDetails_eq (relname uid gid : Bytes) (sb : Stat) :
    genericDetails relname uid gid sb = joined [(lit "name", relname),
      (lit "perms", octal (sb.st_mode &&& 0o7777).toNat), (lit "uid", uid), (lit "gid", gid),
      (lit "atime", putTime sb.st_atime), (lit "ctime", putTime sb.st_ctime),
      (lit "mtime", putTime sb.st_mtime)] := by
  have hoctal := urlencode_of_plain (literal_octal (sb.st_mode &&& 0o7777).toNat)
  have htime : ∀ t : Int64, urlencode (putTime t) = putTime t := fun t =>
    urlencode_of_plain (literal_decimal _)
  have hkeys : lit "name=" = lit "name" ++ [61] ∧ lit "&perms=" = 38 :: (lit "perms" ++ [61]) ∧
      lit "&uid=" = 38 :: (lit "uid" ++ [61]) ∧ lit "&gid=" = 38 :: (lit "gid" ++ [61]) ∧
      lit "&atime=" = 38 :: (lit "atime" ++ [61]) ∧ lit "&ctime=" = 38 :: (lit "ctime" ++ [61]) ∧
      lit "&mtime=" = 38 :: (lit "mtime" ++ [61]) := by decide
  obtain ⟨h1, h2, h3, h4, h5, h6, h7⟩ := hkeys
  rw [joined_cons, genericDetails, h1, h2, h3, h4, h5, h6, h7]
  simp only [part, List.flatMap_cons, List.flatMap_nil, hoctal, htime, List.append_assoc,
    List.cons_append, List.nil_append, List.append_nil]

/-- More parts behind a line. -/
theorem joined_append {fields : List (Bytes × Bytes)} (hne : fields ≠ [])
    (fields' : List (Bytes × Bytes)) :
    joined (fields ++ fields') = joined fields ++ fields'.flatMap fun kv => 38 :: part kv := by
  obtain ⟨kv, fields, rfl⟩ := List.exists_cons_of_ne_nil hne
  rw [List.cons_append, joined_cons, joined_cons, List.flatMap_append, List.append_assoc]

/-- The pieces put into the index for an entry: the generic details, and then the parts of its
kind. -/
theorem Entry.line_eq (e : Entry) :
    e.line = genericDetails e.relname e.uid e.gid e.sb ++
      (e.kind.fields e.sb).flatMap fun kv => 38 :: part kv := by
  rw [genericDetails_eq, ← joined_append (by simp)]
  rfl

theorem part_encodes {kv : Bytes × Bytes} (hkey : ∀ c ∈ kv.1, Plain c) : EncodesField (part kv) kv :=
  ⟨kv.1, urlencode kv.2, rfl, .self hkey, urlencode_encodes kv.2⟩

/-- Keys need no escaping. -/
def PlainKeys (fields : List (Bytes × Bytes)) : Prop := ∀ kv ∈ fields, ∀ c ∈ kv.1, Plain c

theorem parts_encode {fields : List (Bytes × Bytes)} (h : PlainKeys fields) :
    List.Forall₂ EncodesField (fields.map part) fields := by
  induction fields with
  | nil => exact .nil
  | cons kv fields ih =>
    exact .cons (part_encodes (h kv List.mem_cons_self))
      (ih fun kv' hkv' => h kv' (List.mem_cons_of_mem kv hkv'))

/-- **A line of parts is read back as its fields.** -/
theorem parse_joined {fields : List (Bytes × Bytes)} (hne : fields ≠ []) (h : PlainKeys fields) :
    parseIndexLine (joined fields) = .ok (Details.ofList fields) :=
  parseIndexLine_of_fields (by simpa using hne) (parts_encode h)

theorem newline_not_mem_joined {fields : List (Bytes × Bytes)} (h : PlainKeys fields) :
    10 ∉ joined fields := by
  have hparts := parts_encode h
  have hmem : ∀ p ∈ fields.map part, 10 ∉ p := by
    intro p hp
    obtain ⟨kv, hkv, rfl⟩ := List.mem_map.mp hp
    exact (part_encodes (h kv hkv)).newline_not_mem
  cases hf : fields with
  | nil => simp [joined]
  | cons kv fields' =>
    rw [hf] at hmem
    rw [joined_cons]
    intro hm
    rcases List.mem_append.mp hm with hm | hm
    · exact hmem _ (List.mem_map_of_mem List.mem_cons_self) hm
    · obtain ⟨kv', hkv', hm⟩ := List.mem_flatMap.mp hm
      rcases List.mem_cons.mp hm with hm | hm
      · exact absurd hm (by decide)
      · exact hmem _ (List.mem_map_of_mem (List.mem_cons_of_mem kv hkv')) hm

/-! ### Keys -/

/-- The keys of all lines. -/
def genericKeys : List Bytes :=
  [lit "name", lit "perms", lit "uid", lit "gid", lit "atime", lit "ctime", lit "mtime"]

/-- The keys behind these, for each kind of line. -/
def kindKeys : List (List Bytes) :=
  [[lit "data", lit "inode"], [lit "data"], [HASH_NAME, lit "inode"], [HASH_NAME], [lit "type"],
    [lit "target", lit "type"], [lit "rdev", lit "type"]]

theorem Entry.keys_eq (e : Entry) :
    ∃ ks ∈ kindKeys, e.fields.map Prod.fst = genericKeys ++ ks := by
  have hinode : (inodeFields e.sb).map Prod.fst = [lit "inode"] ∨
      (inodeFields e.sb).map Prod.fst = [] := by
    unfold inodeFields
    split_ifs
    · exact .inl rfl
    · exact .inr rfl
  rw [Entry.fields, List.map_append]
  refine ⟨(e.kind.fields e.sb).map Prod.fst, ?_, rfl⟩
  cases e.kind with
  | data bytes =>
    change lit "data" :: (inodeFields e.sb).map Prod.fst ∈ kindKeys
    rcases hinode with h | h <;> rw [h] <;> decide
  | sha1 h =>
    change HASH_NAME :: (inodeFields e.sb).map Prod.fst ∈ kindKeys
    rcases hinode with h | h <;> rw [h] <;> decide
  | dir => exact (by decide : [lit "type"] ∈ kindKeys)
  | link target => exact (by decide : [lit "target", lit "type"] ∈ kindKeys)
  | dev type => exact (by decide : [lit "rdev", lit "type"] ∈ kindKeys)
  | socket => exact (by decide : [lit "type"] ∈ kindKeys)

/-- Keys need no escaping. -/
theorem Entry.plainKeys (e : Entry) : PlainKeys e.fields := by
  obtain ⟨ks, hks, hkeys⟩ := e.keys_eq
  have hplain : ∀ ks ∈ kindKeys, ∀ k ∈ genericKeys ++ ks, Literal k := by decide
  intro kv hkv c hc
  exact (hplain ks hks kv.1 (hkeys ▸ List.mem_map_of_mem hkv) c hc).1

/-- Every key occurs once. -/
theorem Entry.keys_nodup (e : Entry) : (e.fields.map Prod.fst).Nodup := by
  obtain ⟨ks, hks, hkeys⟩ := e.keys_eq
  have hnodup : ∀ ks ∈ kindKeys, (genericKeys ++ ks).Nodup := by decide
  rw [hkeys]
  exact hnodup ks hks

/-- **The reader delivers the map of the entry.** -/
theorem Entry.parse (e : Entry) : parseIndexLine e.line = .ok (Details.ofList e.fields) :=
  parse_joined (by simp [Entry.fields]) e.plainKeys

theorem Entry.newline_not_mem (e : Entry) : 10 ∉ e.line := newline_not_mem_joined e.plainKeys

/-- What the reader finds under a key. -/
theorem Entry.lookup (e : Entry) (k : Bytes) : Details.ofList e.fields k = e.fields.lookup k :=
  Details.ofList_apply _ k e.keys_nodup

/-! ### The pieces of a line -/

/-- The parts behind the generic details. -/
def kindText (sb : Stat) (k : Kind) : Bytes := (k.fields sb).flatMap fun kv => 38 :: part kv

theorem Entry.line_eq_kindText (e : Entry) :
    e.line = genericDetails e.relname e.uid e.gid e.sb ++ kindText e.sb e.kind := e.line_eq

theorem newline_not_mem_kindText (sb : Stat) (k : Kind) : 10 ∉ kindText sb k := by
  have h := (Entry.mk [] [] sb [] [] k).newline_not_mem
  rw [Entry.line_eq_kindText] at h
  exact fun hm => h (List.mem_append_right _ hm)

theorem begun_genericDetails (relname uid gid : Bytes) (sb : Stat) :
    (genericDetails relname uid gid sb).head? = some 110 ∧ 10 ∉ genericDetails relname uid gid sb := by
  have h := (Entry.mk [] relname sb uid gid .dir).newline_not_mem
  rw [Entry.line_eq_kindText] at h
  exact ⟨rfl, fun hm => h (List.mem_append_left _ hm)⟩

theorem inodeField_eq (sb : Stat) :
    inodeField sb = (inodeFields sb).flatMap fun kv => 38 :: part kv := by
  have hkey : lit "&inode=" = 38 :: (lit "inode" ++ [61]) := by decide
  unfold inodeField inodeFields
  split_ifs
  · simp [part, hkey, urlencode_of_plain (literal_decimal _)]
  · rfl

theorem kindText_data (sb : Stat) (data : Bytes) :
    lit "&data=" ++ urlencode data ++ inodeField sb = kindText sb (.data data) := by
  have hkey : lit "&data=" = 38 :: (lit "data" ++ [61]) := by decide
  rw [kindText, Kind.fields, List.flatMap_cons, inodeField_eq, hkey]
  simp [part]

theorem kindText_sha1 (sb : Stat) (h : Hash) :
    lit "&" ++ HASH_NAME ++ lit "=" ++ hexencode h.bytes ++ inodeField sb =
      kindText sb (.sha1 h) := by
  have hkey : lit "&" ++ HASH_NAME ++ lit "=" = 38 :: (HASH_NAME ++ [61]) := by decide
  rw [kindText, Kind.fields, List.flatMap_cons, inodeField_eq, hkey]
  simp [part, urlencode_of_plain (literal_hexencode _)]

theorem kindText_dir (sb : Stat) : lit "&type=dir\n" = kindText sb .dir ++ [10] := by
  have h : lit "&type=dir\n" = (38 :: part (lit "type", lit "dir")) ++ [10] := by decide
  simpa [kindText, Kind.fields] using h

theorem kindText_link (sb : Stat) (target : Bytes) :
    lit "&target=" ++ urlencode target ++ lit "&type=link\n" = kindText sb (.link target) ++ [10] := by
  have hkey : lit "&target=" = 38 :: (lit "target" ++ [61]) := by decide
  have h : lit "&type=link\n" = (38 :: part (lit "type", lit "link")) ++ [10] := by decide
  simp [kindText, Kind.fields, hkey, h, part]

theorem kindText_dev (sb : Stat) {type : Bytes} (htype : Literal type) :
    lit "&rdev=" ++ rdevField sb ++ lit "&type=" ++ type ++ lit "\n" =
      kindText sb (.dev type) ++ [10] := by
  have hrdev : lit "&rdev=" = 38 :: (lit "rdev" ++ [61]) := by decide
  have hkey : lit "&type=" = 38 :: (lit "type" ++ [61]) := by decide
  have hnewline : lit "\n" = [10] := by decide
  have hplain : urlencode (rdevField sb) = rdevField sb :=
    urlencode_of_plain (literal_signedDecimal _)
  simp [kindText, Kind.fields, hrdev, hkey, hnewline, hplain, urlencode_of_plain htype, part]

theorem kindText_socket (sb : Stat) : lit "&type=socket\n" = kindText sb .socket ++ [10] := by
  have h : lit "&type=socket\n" = (38 :: part (lit "type", lit "socket")) ++ [10] := by
    decide
  simpa [kindText, Kind.fields] using h

end Hbackup
