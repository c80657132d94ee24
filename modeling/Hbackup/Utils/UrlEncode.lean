import Hbackup.Utils.Hex

/-!
# URL encoding

`urlencode` and `urldecode` of `utils.cc`.  The decoder works in place on the part `[start, end)` of
a longer line; `end` is `none` for `string::npos`.
-/

namespace Hbackup

/-- `%XX`. -/
def percentByte (c : UInt8) : Bytes := lit "%" ++ hexByte c

/-- The characters with a `case` label of their own. -/
def isReserved (c : UInt8) : Bool := lit "+%&=;" |>.contains c

/-- The `switch` of `urlencode`; `;` is escaped because Python's decoder splits on it. -/
def urlencodeByte (c : UInt8) : Bytes :=
  if c = 32 then lit "+"
  else if isReserved c || c < 32 || c > 126 then percentByte c
  else [c]

def urlencode (s : Bytes) : Bytes := s.flatMap urlencodeByte

/-- `s[n]`; the byte at position `s.size()` is NUL. -/
def byteAt (s : Bytes) (n : Nat) : UInt8 := s.getD n 0

/-- The `while` loop of `urldecode`.  Every turn moves `n` forward, so `limit - n` turns are
enough. -/
def urldecodeLoop (s : Bytes) (end_ : Option Nat) (limit : Nat) :
    Nat → Nat → Bytes → Except Exn Bytes
  | 0, _, r => .ok r
  | turns + 1, n, r =>
    if n < limit then
      if byteAt s n = 43 then urldecodeLoop s end_ limit turns (n + 1) (r ++ [32])
      else if byteAt s n = 37 then
        -- the check is against `end`, which is larger than any position when it is `npos`
        if end_.all fun e => n + 2 < e then do
          let a ← hexdigit (byteAt s (n + 1))
          let b ← hexdigit (byteAt s (n + 2))
          urldecodeLoop s end_ limit turns (n + 3) (r ++ [UInt8.ofNat (16 * a + b)])
        else .error (.badHex ((s.drop n).take (limit - n)))
      else urldecodeLoop s end_ limit turns (n + 1) (r ++ [byteAt s n])
    else .ok r

def urldecode (s : Bytes) (start : Nat) (end_ : Option Nat) : Except Exn Bytes :=
  let limit := end_.getD s.length
  urldecodeLoop s end_ limit (limit - start) start []

end Hbackup
