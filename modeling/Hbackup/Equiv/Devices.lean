import Hbackup.Equiv.Destructor
import Hbackup.Equiv.Entry

/-!
# Devices

The numbers in the line of a device, and what `do_restore` makes of them.  Permission bits and times come
back as they were, whatever they are; a device number is printed with `%d` and comes back if
it is the sign extension of its low 32 bits (`device_comes_back_iff`).
-/

namespace Hbackup

variable {cfg : Config}

/-! ### The line of a device -/

/-- The type-specific details of a device. -/
def deviceText (sb : Stat) : Bytes :=
  lit "&rdev=" ++ rdevField sb ++ lit "&type=" ++
    (if sb.is S_IFCHR then lit "chr" else lit "blk") ++ lit "\n"

/-- The line of a device, with its newline. -/
def deviceLine (relname uid gid : Bytes) (sb : Stat) : Bytes :=
  genericDetails relname uid gid sb ++ deviceText sb

/-- What `backup_dir` puts into the index for a device. -/
theorem backupFile_device (dir : Bytes) (files : List (Bytes × Stat)) (p : Progress) (name : Bytes)
    (hdev : (statOf files name).is S_IFCHR = true ∨ (statOf files name).is S_IFBLK = true) :
    backupFile cfg dir files p name = do
      let uid ← uid2string cfg (statOf files name).st_uid
      let gid ← gid2string cfg (statOf files name).st_gid
      let index ← putIndex cfg p.index
        (genericDetails (relname p.first (localname dir name)) uid gid (statOf files name))
      let index ← putIndex cfg index (deviceText (statOf files name))
      return { p with index, first := false } := by
  have hnot : ∀ type, type ≠ S_IFCHR → type ≠ S_IFBLK → (statOf files name).is type = false := by
    intro type hchr hblk
    by_contra h
    have htype := of_decide_eq_true (Bool.eq_true_of_not_eq_false h)
    rcases hdev with h' | h'
    · exact hchr (htype.symm.trans (of_decide_eq_true h'))
    · exact hblk (htype.symm.trans (of_decide_eq_true h'))
  have hreg := hnot S_IFREG (by decide) (by decide)
  have hdir := hnot S_IFDIR (by decide) (by decide)
  have hlnk := hnot S_IFLNK (by decide) (by decide)
  unfold backupFile
  simp only [hreg, hdir, hlnk, Bool.false_eq_true, if_false, if_pos hdev]
  rfl

/-- The entry that the line is of. -/
def deviceEntry (relname uid gid : Bytes) (sb : Stat) : Entry where
  path := []
  relname
  sb
  uid
  gid
  kind := .dev (if sb.is S_IFCHR then lit "chr" else lit "blk")

theorem deviceLine_eq (relname uid gid : Bytes) (sb : Stat) :
    deviceLine relname uid gid sb = (deviceEntry relname uid gid sb).line ++ [10] := by
  have htype : Literal (if sb.is S_IFCHR then lit "chr" else lit "blk") := by
    split <;> decide +kernel
  rw [Entry.line_eq_kindText, deviceLine, deviceText, kindText_dev sb htype, List.append_assoc]
  rfl

/-- What `readIndexLine` makes of the line. -/
theorem readIndexLine_device (relname uid gid : Bytes) (sb : Stat) (rest : Bytes)
    (fault : Option Exn) :
    readIndexLine ⟨deviceLine relname uid gid sb ++ rest, fault⟩ =
      .ok (some (Details.ofList (deviceEntry relname uid gid sb).fields), ⟨rest, fault⟩) := by
  have hline : deviceLine relname uid gid sb ++ rest =
      (deviceEntry relname uid gid sb).line ++ 10 :: rest := by
    rw [deviceLine_eq, List.append_assoc]
    rfl
  have hend : (deviceEntry relname uid gid sb).line ≠ lit "[end]" := by
    intro h
    have hhead := congrArg List.head? h
    rw [Entry.line_eq_kindText, List.head?_append, (begun_genericDetails _ _ _ _).1] at hhead
    cases hhead
  rw [hline]
  simp only [readIndexLine, getline_line fault (Entry.newline_not_mem _), hend, Entry.parse, bind,
    Except.bind, pure, Except.pure, if_false]

/-! ### What is made of it -/

/-- The arguments of `mknod` and `utimes`. -/
structure DeviceCalls where
  mode : UInt32
  dev : UInt64
  atime : Int64
  mtime : Int64
deriving DecidableEq

/-- The permission bits of a device that is restored. -/
def deviceMode (cfg : Config) (details : Details) : UInt32 :=
  if cfg.permissions then (strtol 8 (details.get (lit "perms"))).toUInt64.toUInt32 else 0o666

/-- The calls that `do_restore` makes for a device. -/
def deviceCalls (cfg : Config) (details : Details) : DeviceCalls where
  mode := deviceMode cfg details |||
    (if details.get (lit "type") = lit "chr" then S_IFCHR else S_IFBLK)
  dev := (strtol 10 (details.get (lit "rdev"))).toUInt64
  atime := timeOf details "atime"
  mtime := timeOf details "mtime"

/-- The calls that make the device that there was. -/
def ownCalls (sb : Stat) : DeviceCalls where
  mode := sb.st_mode &&& 0o7777 ||| sb.st_mode &&& S_IFMT
  dev := sb.st_rdev
  atime := sb.st_atime
  mtime := sb.st_mtime

/-- What `do_restore` does for a device. -/
theorem restoreNew_device {details : Details} {type : Bytes}
    (htype : details (lit "type") = some type) (hdev : type = lit "chr" ∨ type = lit "blk")
    (full : Bytes) (r : Restoring) :
    restoreNew cfg details full r = do
      Hostfs.mknod cfg (tmpname full) (deviceCalls cfg details).mode (deviceCalls cfg details).dev
      fixOwner cfg details (tmpname full)
      fixMode cfg (deviceMode cfg details) (tmpname full)
      Hostfs.utimes cfg (tmpname full) (deviceCalls cfg details).atime (deviceCalls cfg details).mtime
      Hostfs.rename cfg (tmpname full) full
      return r := by
  have hlink : type ≠ lit "link" := by
    rcases hdev with rfl | rfl <;> decide
  have hdir : type ≠ lit "dir" := by
    rcases hdev with rfl | rfl <;> decide
  have hget : details.get (lit "type") = type := by
    rw [Details.get, htype, Option.getD_some]
  have hmake : makeObject cfg details full = do
      Hostfs.mknod cfg (tmpname full) (deviceCalls cfg details).mode (deviceCalls cfg details).dev
      return some (deviceMode cfg details) := by
    unfold makeObject makeSpecial deviceCalls deviceMode Details.getdetail
    rw [htype, hget]
    dsimp only
    rw [if_neg hlink, if_neg hdir, if_pos hdev]
  have hfix : ∀ mode, fixAttributes cfg details mode full = do
      fixOwner cfg details (tmpname full)
      fixMode cfg mode (tmpname full)
      Hostfs.utimes cfg (tmpname full) (deviceCalls cfg details).atime (deviceCalls cfg details).mtime
      return [] := by
    intro mode
    unfold fixAttributes Details.getdetail
    rw [htype, if_neg (by simpa using hlink), if_neg (by simpa using hdir)]
    rfl
  rw [restoreNew, hmake]
  simp only [bind_assoc, pure_bind, hfix, Details.getdetail, htype, List.append_nil]

/-! ### Numbers -/

theorem toInt_toInt32 (x : UInt32) :
    x.toInt32.toInt = if x.toNat < 2 ^ 31 then (x.toNat : Int) else x.toNat - 2 ^ 32 := by
  have h := x.toNat_lt
  change x.toBitVec.toInt = _
  rw [BitVec.toInt_eq_toNat_cond]
  change (if 2 * x.toNat < 2 ^ 32 then (x.toNat : Int) else x.toNat - (2 ^ 32 : Nat)) = _
  split_ifs
  · rfl
  · omega
  · omega
  · rfl

/-- The device number that comes back. -/
theorem toNat_strtol_rdevField (sb : Stat) :
    (strtol 10 (rdevField sb)).toUInt64.toNat =
      if sb.st_rdev.toNat % 2 ^ 32 < 2 ^ 31 then sb.st_rdev.toNat % 2 ^ 32
      else 2 ^ 64 - 2 ^ 32 + sb.st_rdev.toNat % 2 ^ 32 := by
  have hint := toInt_toInt32 sb.st_rdev.toUInt32
  rw [UInt64.toNat_toUInt32] at hint
  have hlt : sb.st_rdev.toNat % 2 ^ 32 < 2 ^ 32 := Nat.mod_lt _ (by decide)
  rw [rdevField, hint, strtol_signedDecimal (by split <;> omega) (by split <;> omega),
    toNat_toUInt64_ofInt]
  split <;> omega

/-- A device number comes back if it is the sign extension of its low 32 bits. -/
theorem rdev_comes_back_iff (sb : Stat) :
    (strtol 10 (rdevField sb)).toUInt64 = sb.st_rdev ↔
      sb.st_rdev.toNat < 2 ^ 31 ∨ 2 ^ 64 - 2 ^ 31 ≤ sb.st_rdev.toNat := by
  have hlt := sb.st_rdev.toNat_lt
  rw [← UInt64.toNat_inj, toNat_strtol_rdevField]
  split <;> omega

/-- The bits can be told from the type. -/
theorem or_type_inj {bits bits' type : UInt32} (hbits : bits &&& 0o7777 = bits)
    (hbits' : bits' &&& 0o7777 = bits') (htype : type &&& 0o7777 = 0) :
    bits ||| type = bits' ||| type ↔ bits = bits' := by
  have hback : ∀ bits, bits &&& 0o7777 = bits → (bits ||| type) &&& 0o7777 = bits := by
    intro bits hbits
    apply UInt32.toBitVec_inj.mp
    have hbits := congrArg UInt32.toBitVec hbits
    have htype := congrArg UInt32.toBitVec htype
    rw [UInt32.toBitVec_and] at hbits htype
    rw [UInt32.toBitVec_and, UInt32.toBitVec_or, BitVec.and_or_distrib_right, hbits, htype]
    exact BitVec.or_zero
  constructor
  · intro h
    rw [← hback bits hbits, h, hback bits' hbits']
  · rintro rfl
    rfl

/-- The fields of the line, as they are read. -/
theorem get_deviceFields (relname uid gid : Bytes) (sb : Stat) {k v : Bytes}
    (h : (deviceEntry relname uid gid sb).fields.lookup k = some v) :
    (Details.ofList (deviceEntry relname uid gid sb).fields).get k = v := by
  rw [Details.get, Entry.lookup, h, Option.getD_some]

/-- **The numbers of a device come back** through the line that `backup_dir` writes for it and into the
calls that `do_restore` makes for the line, exactly if the permission bits are wanted, or are those that
are given without, and the device number is the sign extension of its low 32 bits. -/
theorem device_comes_back_iff (cfg : Config) (relname uid gid : Bytes) (sb : Stat)
    (hdev : sb.is S_IFCHR = true ∨ sb.is S_IFBLK = true) (rest : Bytes) (fault : Option Exn) :
    ∃ details,
      readIndexLine ⟨deviceLine relname uid gid sb ++ rest, fault⟩ =
        .ok (some details, ⟨rest, fault⟩) ∧
      (∀ full r, restoreNew cfg details full r = do
        Hostfs.mknod cfg (tmpname full) (deviceCalls cfg details).mode (deviceCalls cfg details).dev
        fixOwner cfg details (tmpname full)
        fixMode cfg (deviceMode cfg details) (tmpname full)
        Hostfs.utimes cfg (tmpname full) (deviceCalls cfg details).atime
          (deviceCalls cfg details).mtime
        Hostfs.rename cfg (tmpname full) full
        return r) ∧
      (deviceCalls cfg details = ownCalls sb ↔
        (cfg.permissions = true ∨ sb.st_mode &&& 0o7777 = 0o666) ∧
          (sb.st_rdev.toNat < 2 ^ 31 ∨ 2 ^ 64 - 2 ^ 31 ≤ sb.st_rdev.toNat)) := by
  set fields := (deviceEntry relname uid gid sb).fields with hfields
  have hget := fun {k v} => get_deviceFields relname uid gid sb (k := k) (v := v)
  have htype := hget (k := lit "type") (v := if sb.is S_IFCHR then lit "chr" else lit "blk") rfl
  have hrdev := hget (k := lit "rdev") (v := rdevField sb) rfl
  have hperms := hget (k := lit "perms") (v := octal (sb.st_mode &&& 0o7777).toNat) rfl
  have hatime := hget (k := lit "atime") (v := putTime sb.st_atime) rfl
  have hmtime := hget (k := lit "mtime") (v := putTime sb.st_mtime) rfl
  refine ⟨Details.ofList fields, readIndexLine_device relname uid gid sb rest fault, ?_, ?_⟩
  · have hfield : Details.ofList fields (lit "type") =
        some (if sb.is S_IFCHR then lit "chr" else lit "blk") := by
      rw [Entry.lookup]
      rfl
    apply restoreNew_device hfield
    split
    · exact .inl rfl
    · exact .inr rfl
  · -- the type and the times are as they were
    have hown : (if (Details.ofList fields).get (lit "type") = lit "chr" then S_IFCHR else S_IFBLK) =
        sb.st_mode &&& S_IFMT := by
      rw [htype]
      by_cases hchr : sb.is S_IFCHR = true
      · rw [if_pos hchr, if_pos rfl]
        exact (of_decide_eq_true hchr).symm
      · rw [if_neg hchr, if_neg (by decide)]
        exact (of_decide_eq_true (hdev.resolve_left hchr)).symm
    have hno : (sb.st_mode &&& S_IFMT) &&& 0o7777 = 0 := by
      rcases hdev with h | h
      · rw [of_decide_eq_true h]
        rfl
      · rw [of_decide_eq_true h]
        rfl
    have hbits : (sb.st_mode &&& 0o7777) &&& 0o7777 = sb.st_mode &&& 0o7777 := by
      rw [UInt32.and_assoc]
      rfl
    have hmode : deviceMode cfg (Details.ofList fields) =
        if cfg.permissions then sb.st_mode &&& 0o7777 else 0o666 := by
      rw [deviceMode, hperms, strtol_perms]
    have hmode' : deviceMode cfg (Details.ofList fields) = sb.st_mode &&& 0o7777 ↔
        cfg.permissions = true ∨ sb.st_mode &&& 0o7777 = 0o666 := by
      rw [hmode]
      cases cfg.permissions with
      | true => simp
      | false => simp [eq_comm]
    have hmasked : deviceMode cfg (Details.ofList fields) &&& 0o7777 =
        deviceMode cfg (Details.ofList fields) := by
      rw [hmode]
      split
      · exact hbits
      · rfl
    rw [← hmode', ← rdev_comes_back_iff, deviceCalls, ownCalls, DeviceCalls.mk.injEq, hown,
      or_type_inj hmasked hbits hno, hrdev, timeOf, timeOf, hatime, hmtime, strtoull_putTime,
      strtoull_putTime]
    simp

/-- A block device with the permission bits 0660, which was read before 1970. -/
def blockDevice (rdev : UInt64) : Stat where
  st_mode := S_IFBLK ||| 0o660
  st_nlink := 1
  st_uid := 0
  st_gid := 6
  st_dev := 0
  st_ino := 0
  st_rdev := rdev
  st_size := 0
  st_atime := -1
  st_mtime := 0
  st_ctime := 0

def keepPermissions : Config := { smallRestore none with permissions := true }

/-- The device 8, 1. -/
theorem blockDevice_comes_back : ∃ details,
    readIndexLine ⟨deviceLine (lit "sda1") (lit "root") (lit "disk") (blockDevice 2049) ++ [], none⟩ =
      .ok (some details, ⟨[], none⟩) ∧
    deviceCalls keepPermissions details = ownCalls (blockDevice 2049) := by
  obtain ⟨details, hread, -, hiff⟩ := device_comes_back_iff keepPermissions (lit "sda1") (lit "root")
    (lit "disk") (blockDevice 2049) (.inr (by decide)) [] none
  exact ⟨details, hread, hiff.mpr ⟨.inl rfl, .inl (by decide)⟩⟩

/-- A device with the minor number 2 ^ 19 and more has bit 31 set. -/
theorem not_device_comes_back : ¬ ∀ (cfg : Config) (relname uid gid : Bytes) (sb : Stat)
    (_ : sb.is S_IFCHR = true ∨ sb.is S_IFBLK = true) (details : Details),
    readIndexLine ⟨deviceLine relname uid gid sb ++ [], none⟩ = .ok (some details, ⟨[], none⟩) →
      (deviceCalls cfg details).dev = sb.st_rdev := by
  intro hall
  have hread := readIndexLine_device (lit "sda1") (lit "root") (lit "disk") (blockDevice 0x80000801) []
    none
  have hdev : (strtol 10 ((Details.ofList (deviceEntry (lit "sda1") (lit "root") (lit "disk")
      (blockDevice 0x80000801)).fields).get (lit "rdev"))).toUInt64 = (blockDevice 0x80000801).st_rdev :=
    hall keepPermissions _ _ _ _ (.inr (by decide)) _ hread
  have hrdev := get_deviceFields (lit "sda1") (lit "root") (lit "disk") (blockDevice 0x80000801)
    (k := lit "rdev") rfl
  rw [hrdev] at hdev
  exact absurd ((rdev_comes_back_iff (blockDevice 0x80000801)).mp hdev) (by decide)

end Hbackup
