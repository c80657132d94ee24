import Hbackup.Basic
import Hbackup.Lib.Cursor

/-!
# SFTP packets

The `pack_` and `unpack_` functions of `sftp.cc`.  The unpacking functions move an index in the
packet; `s.at` and the constructor of a substring throw `out_of_range`.
-/

namespace Hbackup.Sftp

/-- `std::out_of_range`. -/
inductive OutOfRange
  | out_of_range
deriving DecidableEq, Repr

/-- `size_t &index`. -/
abbrev Unpack (α : Type) : Type := EStateM OutOfRange Nat α

/-! ### Packing -/

def pack_uint8 (s : Bytes) (byte : UInt8) : Bytes := s ++ [byte]

def pack_uint32 (s : Bytes) (u : UInt32) : Bytes :=
  let s := pack_uint8 s (u >>> 24).toUInt8
  let s := pack_uint8 s (u >>> 16).toUInt8
  let s := pack_uint8 s (u >>> 8).toUInt8
  pack_uint8 s u.toUInt8

def pack_uint64 (s : Bytes) (u : UInt64) : Bytes :=
  let s := pack_uint8 s (u >>> 56).toUInt8
  let s := pack_uint8 s (u >>> 48).toUInt8
  let s := pack_uint8 s (u >>> 40).toUInt8
  let s := pack_uint8 s (u >>> 32).toUInt8
  let s := pack_uint8 s (u >>> 24).toUInt8
  let s := pack_uint8 s (u >>> 16).toUInt8
  let s := pack_uint8 s (u >>> 8).toUInt8
  pack_uint8 s u.toUInt8

def pack_string (s t : Bytes) : Bytes := pack_uint32 s (UInt32.ofNat t.length) ++ t

/-- `data` points to `n` bytes. -/
def pack_bytes (s data : Bytes) (n : Nat) : Bytes := pack_uint32 s (UInt32.ofNat n) ++ data.take n

/-! ### Unpacking -/

/-- `s.at(index++)`. -/
def unpack_uint8 (s : Bytes) : Unpack UInt8 := do
  let index ← get
  set (index + 1)
  match s[index]? with
  | none => throw .out_of_range
  | some byte => return byte

def unpack_uint32 (s : Bytes) : Unpack UInt32 := do
  let a ← unpack_uint8 s
  let b ← unpack_uint8 s
  let c ← unpack_uint8 s
  let d ← unpack_uint8 s
  return (a.toUInt32 <<< 24) + (b.toUInt32 <<< 16) + (c.toUInt32 <<< 8) + d.toUInt32

def unpack_uint64 (s : Bytes) : Unpack UInt64 := do
  let a ← unpack_uint8 s
  let b ← unpack_uint8 s
  let c ← unpack_uint8 s
  let d ← unpack_uint8 s
  let e ← unpack_uint8 s
  let f ← unpack_uint8 s
  let g ← unpack_uint8 s
  let h ← unpack_uint8 s
  return (a.toUInt64 <<< 56) + (b.toUInt64 <<< 48) + (c.toUInt64 <<< 40) + (d.toUInt64 <<< 32) +
    (e.toUInt64 <<< 24) + (f.toUInt64 <<< 16) + (g.toUInt64 <<< 8) + h.toUInt64

/-- `string(s, pos, n)`: at most `n` bytes, and fewer where the packet ends before. -/
def substring (s : Bytes) (pos n : Nat) : Unpack Bytes :=
  if s.length < pos then throw .out_of_range else return (s.drop pos).take n

def unpack_string (s : Bytes) : Unpack Bytes := do
  let len ← unpack_uint32 s
  modify fun index => index + len.toNat
  substring s ((← get) - len.toNat) len.toNat

/-- `Status`. -/
structure Status where
  status : UInt32
  message : Bytes
  lang : Bytes
deriving DecidableEq, Repr

def unpack_status (s : Bytes) : Unpack Status := do
  let status ← unpack_uint32 s
  let message ← unpack_string s
  let lang ← unpack_string s
  return { status, message, lang }

/-! ### Attributes -/

def SSH_FILEXFER_ATTR_SIZE : UInt32 := 0x00000001
def SSH_FILEXFER_ATTR_UIDGID : UInt32 := 0x00000002
def SSH_FILEXFER_ATTR_PERMISSIONS : UInt32 := 0x00000004
def SSH_FILEXFER_ATTR_ACMODTIME : UInt32 := 0x00000008
def SSH_FILEXFER_ATTR_EXTENDED : UInt32 := 0x80000000

/-- `Attributes`. -/
structure Attributes where
  flags : UInt32
  size : UInt64
  uid : UInt32
  gid : UInt32
  permissions : UInt32
  atime : UInt32
  mtime : UInt32
  extended : Details

/-- `if(attrs.flags & bit)`. -/
def ifFlag (attrs : Attributes) (bit : UInt32) (unpack : Unpack Attributes) : Unpack Attributes :=
  if attrs.flags &&& bit ≠ 0 then unpack else return attrs

/-- `while(count > 0)`; the body leaves `count` as it is.  Every turn reads at least eight bytes, so
`s.length + 1` turns are enough. -/
def extendedLoop (s : Bytes) : Nat → UInt32 → Details → Unpack Details
  | 0, _, extended => return extended
  | turns + 1, count, extended =>
    if count > 0 then do
      let k ← unpack_string s
      let v ← unpack_string s
      extendedLoop s turns count (extended.insert k v)
    else return extended

/-- `unpack_attrs` into `attrs`. -/
def unpack_attrs (attrs : Attributes) (s : Bytes) : Unpack Attributes := do
  let flags ← unpack_uint32 s
  let attrs := { attrs with flags }
  let attrs ← ifFlag attrs SSH_FILEXFER_ATTR_SIZE do
    let size ← unpack_uint64 s
    return { attrs with size }
  let attrs ← ifFlag attrs SSH_FILEXFER_ATTR_UIDGID do
    let uid ← unpack_uint32 s
    let gid ← unpack_uint32 s
    return { attrs with uid, gid }
  let attrs ← ifFlag attrs SSH_FILEXFER_ATTR_PERMISSIONS do
    let permissions ← unpack_uint32 s
    return { attrs with permissions }
  let attrs ← ifFlag attrs SSH_FILEXFER_ATTR_ACMODTIME do
    let atime ← unpack_uint32 s
    let mtime ← unpack_uint32 s
    return { attrs with atime, mtime }
  ifFlag attrs SSH_FILEXFER_ATTR_EXTENDED do
    let count ← unpack_uint32 s
    let extended ← extendedLoop s (s.length + 1) count attrs.extended
    return { attrs with extended }

end Hbackup.Sftp
