import Hbackup.Utils.IndexLine

/-!
# What parsing looks at

`urldecode` with the positions of the string that it looks at, and the calls of it that
`parseIndexLine` makes.  The message that is printed when decoding fails shows the whole string and
is left out.
-/

namespace Hbackup

/-- The `while` loop of `urldecode`, with the positions that it looks at. -/
def urldecodeLooks (s : Bytes) (end_ : Option Nat) (limit : Nat) :
    Nat → Nat → Bytes → List Nat × Except Exn Bytes
  | 0, _, r => ([], .ok r)
  | turns + 1, n, r =>
    let goOn (seen : List Nat) (n : Nat) (r : Bytes) : List Nat × Except Exn Bytes :=
      let (looks, result) := urldecodeLooks s end_ limit turns n r
      (seen ++ looks, result)
    if n < limit then
      if byteAt s n = 43 then goOn [n] (n + 1) (r ++ [32])
      else if byteAt s n = 37 then
        if end_.all fun e => n + 2 < e then
          match hexdigit (byteAt s (n + 1)) with
          | .error e => ([n, n + 1], .error e)
          | .ok a =>
            match hexdigit (byteAt s (n + 2)) with
            | .error e => ([n, n + 1, n + 2], .error e)
            | .ok b => goOn [n, n + 1, n + 2] (n + 3) (r ++ [UInt8.ofNat (16 * a + b)])
        -- the exception shows the rest of the part
        else (List.range' n (limit - n), .error (.badHex ((s.drop n).take (limit - n))))
      else goOn [n] (n + 1) (r ++ [byteAt s n])
    else ([], .ok r)

/-- A call of `urldecode`. -/
structure DecodeCall where
  start : Nat
  end_ : Option Nat

/-- The end of the part that the call decodes. -/
def DecodeCall.limit (line : Bytes) (c : DecodeCall) : Nat := c.end_.getD line.length

/-- The part that the call decodes. -/
def DecodeCall.part (line : Bytes) (c : DecodeCall) : Bytes :=
  (line.drop c.start).take (c.limit line - c.start)

/-- What the call looks at. -/
def DecodeCall.looks (line : Bytes) (c : DecodeCall) : List Nat :=
  (urldecodeLooks line c.end_ (c.limit line) (c.limit line - c.start) c.start []).1

/-- The calls that the loop of `parseIndexLine` makes. -/
def decodeCallsLoop (line : Bytes) : Nat → Nat → List DecodeCall
  | 0, _ => []
  | turns + 1, pos =>
    let n := find line 38 pos
    match find line 61 pos with
    | none => []
    | some sep =>
      if n.any fun n => n < sep then []
      else
        ⟨sep + 1, n⟩ ::
          match urldecode line (sep + 1) n with
          | .error _ => []
          | .ok _ =>
            ⟨pos, some sep⟩ ::
              match urldecode line pos (some sep) with
              | .error _ => []
              | .ok _ =>
                match n with
                | none => []
                | some n => decodeCallsLoop line turns (n + 1)

/-- The calls that `parseIndexLine` makes. -/
def decodeCalls (line : Bytes) : List DecodeCall := decodeCallsLoop line (line.length + 1) 0

end Hbackup
