import Mathlib.Data.List.Basic
import Mathlib.Data.UInt
import Mathlib.Tactic.Common

/-!
# Bytes, errors and hashes

`std::string` is a list of bytes throughout: names, index text and file contents are arbitrary byte
strings.  The exceptions of `exceptions.cc` are one inductive type; each carries what its
constructor puts into the message.
-/

namespace Hbackup

/-- A `std::string`, or the contents of a file. -/
abbrev Bytes := List UInt8

/-- The bytes of an (ASCII) string literal. -/
def lit (s : String) : Bytes := s.toList.map fun c => UInt8.ofNat c.toNat

@[simp] theorem lit_slash : lit "/" = [47] := rfl

/-- An `errno` value; `SftpFileError` uses `-1` where no code fits. -/
abbrev Errno := Int

def ENOENT : Errno := 2
def EACCES : Errno := 13
def EEXIST : Errno := 17
def ENOTDIR : Errno := 20
def EISDIR : Errno := 21
def EINVAL : Errno := 22
def ENOTEMPTY : Errno := 39

/-- The exceptions of `exceptions.cc`. -/
inductive Exn
  | fileError (doing : String) (path : Bytes) (errno : Errno)
  | readOnlyFile
  | writeOnlyFile
  | badHex (s : Bytes)
  | badHexDigit
  | hashError (e : Nat)
  | badIndexFile (s : Bytes)
deriving DecidableEq, Repr

/-! ### Hashes -/

/-- `HASH_SIZE`. -/
def HASH_SIZE : Nat := 20

/-- `HASH_NAME`. -/
def HASH_NAME : Bytes := lit "sha1"

/-- A `uint8_t [HASH_SIZE]`. -/
structure Hash where
  bytes : Bytes
  size : bytes.length = HASH_SIZE
deriving DecidableEq

theorem Hash.ext {h h' : Hash} (e : h.bytes = h'.bytes) : h = h' := by
  cases h; cases h'; cases e; rfl

/-! ### The details of an index line -/

/-- `map<string, string>`, as the function its lookups compute. -/
abbrev Details := Bytes → Option Bytes

namespace Details

/-- The map after `clear()`. -/
def empty : Details := fun _ => none

/-- `l[k] = v`. -/
def insert (l : Details) (k v : Bytes) : Details := fun k' => if k' = k then some v else l k'

/-- The map built by assigning the pairs in order. -/
def ofList (kvs : List (Bytes × Bytes)) : Details :=
  kvs.foldl (fun l kv => l.insert kv.1 kv.2) empty

/-- `details[key]`: a missing key reads as the empty string. -/
def get (l : Details) (k : Bytes) : Bytes := (l k).getD []

/-- `getdetail`: a pointer to the value, or 0 if it's not there. -/
def getdetail (l : Details) (k : Bytes) : Option Bytes := l k

@[simp] theorem insert_self (l : Details) (k v : Bytes) : l.insert k v k = some v := by
  simp [insert]

theorem insert_of_ne (l : Details) {k k' : Bytes} (v : Bytes) (h : k' ≠ k) :
    l.insert k v k' = l k' := by
  simp [insert, h]

/-- Assigning pairs with distinct keys: every pair is found again, and nothing else. -/
theorem foldl_insert_apply (kvs : List (Bytes × Bytes)) (l : Details) (k : Bytes)
    (hnd : (kvs.map Prod.fst).Nodup) :
    kvs.foldl (fun l kv => l.insert kv.1 kv.2) l k = (kvs.lookup k).or (l k) := by
  induction kvs generalizing l with
  | nil => simp
  | cons kv kvs ih =>
    rw [List.map_cons, List.nodup_cons] at hnd
    rw [List.foldl_cons, ih _ hnd.2, List.lookup_cons]
    by_cases hk : k = kv.1
    · subst hk
      have : kvs.lookup kv.1 = none := by
        rw [List.lookup_eq_none_iff]
        intro p hp
        simp only [bne_iff_ne, ne_eq]
        intro heq
        exact hnd.1 (heq ▸ List.mem_map_of_mem hp)
      simp [this]
    · have hb : (k == kv.1) = false := by simpa using hk
      rw [insert_of_ne _ _ hk, hb]

theorem ofList_apply (kvs : List (Bytes × Bytes)) (k : Bytes) (hnd : (kvs.map Prod.fst).Nodup) :
    ofList kvs k = kvs.lookup k := by
  rw [ofList, foldl_insert_apply kvs _ k hnd]
  simp [empty]

end Details

end Hbackup
