import Hbackup.Utils.UrlEncode

/-!
# Index lines

`parseIndexLine` of `utils.cc`: a line is a sequence of `key=value` parts joined by `&`, found by
two searches per part.
-/

namespace Hbackup

/-- `s.find(c, pos)`; `none` is `string::npos`. -/
def find (s : Bytes) (c : UInt8) (pos : Nat) : Option Nat :=
  ((s.drop pos).idxOf? c).map (pos + ·)

/-- The `do` loop of `parseIndexLine`.  Every turn but the last moves `pos` past a `&`, so
`line.length + 1` turns are enough. -/
def parseIndexLoop (line : Bytes) : Nat → Nat → Details → Except Exn Details
  | 0, _, l => .ok l
  | turns + 1, pos, l =>
    let n := find line 38 pos
    match find line 61 pos with
    | none => .error (.badIndexFile line)
    | some sep =>
      if n.any fun n => n < sep then .error (.badIndexFile line)
      else do
        -- in `l[…] = …` the right-hand side is evaluated first
        let v ← urldecode line (sep + 1) n
        let k ← urldecode line pos (some sep)
        match n with
        | none => return l.insert k v
        | some n => parseIndexLoop line turns (n + 1) (l.insert k v)

def parseIndexLine (line : Bytes) : Except Exn Details :=
  parseIndexLoop line (line.length + 1) 0 Details.empty

end Hbackup
