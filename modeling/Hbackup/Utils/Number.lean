import Hbackup.Basic

/-!
# Numbers in index lines

The `printf` conversions that write numbers and the `strtoull` and `strtol` calls that read them
back.  The C functions skip white space, take a sign and stop at the first character that is not a
digit; values out of range saturate.
-/

namespace Hbackup

/-- The digits of `n`; `%llu` and `%lu`. -/
def digits (base n : Nat) : Bytes := (Nat.toDigits base n).map fun c => UInt8.ofNat c.toNat

def decimal (n : Nat) : Bytes := digits 10 n

/-- `%0#o`: the alternate form puts a `0` in front, unless the number is 0. -/
def octal (n : Nat) : Bytes := if n = 0 then lit "0" else lit "0" ++ digits 8 n

/-- `%d`. -/
def signedDecimal (n : Int) : Bytes := if n < 0 then lit "-" ++ decimal n.natAbs else decimal n.natAbs

/-- `s.c_str()`, as the C functions see it. -/
def cstr (s : Bytes) : Bytes := s.takeWhile (· ≠ 0)

/-- `isspace`, in the C locale. -/
def isspace (c : UInt8) : Bool := c = 32 ∨ (9 ≤ c ∧ c ≤ 13)

def isdigit (c : UInt8) : Bool := 48 ≤ c ∧ c ≤ 57

/-- `alldigits`. -/
def alldigits (s : Bytes) : Bool := s.length ≠ 0 && s.all isdigit

/-- Whether there is a `-`, and what is behind the sign. -/
def takeSign : Bytes → Bool × Bytes
  | 45 :: s => (true, s)
  | 43 :: s => (false, s)
  | s => (false, s)

/-- The sign and the number at the start of `s`, before any limits are applied. -/
def strtonum (base : Nat) (s : Bytes) : Bool × Nat :=
  let (neg, s) := takeSign ((cstr s).dropWhile isspace)
  let ds := s.takeWhile fun c => isdigit c ∧ c.toNat - 48 < base
  (neg, ds.foldl (fun n c => base * n + (c.toNat - 48)) 0)

/-- `strtoull(s, 0, 10)`. -/
def strtoull (s : Bytes) : UInt64 :=
  let (neg, n) := strtonum 10 s
  if n ≥ 2 ^ 64 then UInt64.ofNat (2 ^ 64 - 1)
  else if neg then -UInt64.ofNat n else UInt64.ofNat n

/-- `strtol(s, 0, base)`. -/
def strtol (base : Nat) (s : Bytes) : Int64 :=
  let (neg, n) := strtonum base s
  if neg then Int64.ofInt (max (-2 ^ 63) (-n)) else Int64.ofInt (min (2 ^ 63 - 1) n)

end Hbackup
