import Hbackup.Utils.Number

/-!
# Hexadecimal text

The two directions of `utils.cc`: `hexencode` writes lower-case digits, `hexdigit` reads either
case through a 256-entry table, and `hashdecode` is `hexdecode` behind a length check.  `hashpath`
lays the files of the repository out two directory levels deep.
-/

namespace Hbackup

/-- `hexdigits`. -/
def hexdigits : Bytes := lit "0123456789abcdef"

/-- The table of `hexdigit`. -/
def hexLookup : List Int :=
  List.replicate 48 (-1) ++ [0, 1, 2, 3, 4, 5, 6, 7, 8, 9] ++ List.replicate 7 (-1) ++
    [10, 11, 12, 13, 14, 15] ++ List.replicate 26 (-1) ++ [10, 11, 12, 13, 14, 15] ++
    List.replicate 153 (-1)

def hexdigit (c : UInt8) : Except Exn Nat :=
  let decoded := hexLookup.getD c.toNat (-1)
  if 0 ≤ decoded then .ok decoded.toNat else .error .badHexDigit

/-- The two digits of one byte. -/
def hexByte (c : UInt8) : Bytes :=
  [hexdigits.getD (c >>> 4).toNat 0, hexdigits.getD (c &&& 0x0F).toNat 0]

def hexencode (h : Bytes) : Bytes := h.flatMap hexByte

/-- The loop of `hexdecode`, over the digits still to be read. -/
def hexdecodeLoop : Bytes → Except Exn Bytes
  | x :: y :: rest => do
    let a ← hexdigit x
    let b ← hexdigit y
    let bytes ← hexdecodeLoop rest
    return UInt8.ofNat (a * 16 + b) :: bytes
  | _ => return []

def hexdecode (hex : Bytes) : Except Exn Bytes :=
  if hex.length % 2 ≠ 0 then .error (.badHex hex) else hexdecodeLoop hex

/-- `hexdecode` gives one byte for two digits. -/
theorem hexdecodeLoop_length : ∀ {hex bytes : Bytes}, hexdecodeLoop hex = .ok bytes →
    bytes.length = hex.length / 2
  | [], bytes, h => by
    simp only [hexdecodeLoop, pure, Except.pure, Except.ok.injEq] at h
    rw [← h]; rfl
  | [_], bytes, h => by
    simp only [hexdecodeLoop, pure, Except.pure, Except.ok.injEq] at h
    rw [← h]; simp
  | x :: y :: rest, bytes, h => by
    rw [hexdecodeLoop] at h
    cases hx : hexdigit x with
    | error e => simp [hx, bind, Except.bind] at h
    | ok a =>
      cases hy : hexdigit y with
      | error e => simp [hx, hy, bind, Except.bind] at h
      | ok b =>
        cases hr : hexdecodeLoop rest with
        | error e => simp [hx, hy, hr, bind, Except.bind] at h
        | ok bs =>
          simp only [hx, hy, hr, bind, Except.bind, pure, Except.pure, Except.ok.injEq] at h
          rw [← h, List.length_cons, hexdecodeLoop_length hr, List.length_cons, List.length_cons]
          omega

theorem hexdecode_length {hex bytes : Bytes} (h : hexdecode hex = .ok bytes) :
    bytes.length = hex.length / 2 := by
  unfold hexdecode at h
  split_ifs at h
  exact hexdecodeLoop_length h

def hashdecode (hex : Bytes) : Except Exn Hash :=
  if hlen : hex.length ≠ 40 then .error (.badHex hex)
  else
    match h : hexdecode hex with
    | .error e => .error e
    | .ok s => .ok ⟨s, by rw [hexdecode_length h, HASH_SIZE]; omega⟩

/-- `%02x`, of a byte. -/
def hex02 (c : UInt8) : Bytes :=
  List.replicate (2 - (digits 16 c.toNat).length) 48 ++ digits 16 c.toNat

/-- `hashpath`: two directory levels of one byte each, then all the digits. -/
def hashpath (h : Hash) : Bytes :=
  (h.bytes.take 2).flatMap (fun c => hex02 c ++ lit "/") ++ h.bytes.flatMap hex02

/-- `repo + "/" + HASH_NAME + "/" + hashpath(h)`. -/
def objectPath (repo : Bytes) (h : Hash) : Bytes :=
  repo ++ lit "/" ++ HASH_NAME ++ lit "/" ++ hashpath h

end Hbackup
