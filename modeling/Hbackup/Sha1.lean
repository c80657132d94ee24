import Hbackup.Basic

/-!
# `sha1.c`

The SHA-1 context: a block that is being filled, the words from the blocks before it, and the number
of bits so far as two words.
-/

namespace Hbackup

/-! ### The context -/

/-- `SHA1HashSize`. -/
def SHA1HashSize : Nat := 20

/-- Error codes. -/
def shaSuccess : Nat := 0
def shaStateError : Nat := 3

/-- `SHA1Context`. -/
structure SHA1Context where
  Intermediate_Hash : Vector UInt32 5
  Length_Low : UInt32
  Length_High : UInt32
  Message_Block_Index : Nat
  Message_Block : Vector UInt8 64
  Computed : Nat
  Corrupted : Nat

namespace SHA1Context

/-- `Message_Block[Message_Block_Index++] = b`. -/
def put (context : SHA1Context) (b : UInt8) : SHA1Context :=
  { context with
    Message_Block := context.Message_Block.setIfInBounds context.Message_Block_Index b
    Message_Block_Index := context.Message_Block_Index + 1 }

/-- `while(Message_Block_Index < n) Message_Block[Message_Block_Index++] = 0`. -/
def zeroTo (n : Nat) (context : SHA1Context) : SHA1Context :=
  (fun c => put c 0)^[n - context.Message_Block_Index] context

/-- `Message_Block[i] = b`. -/
def store (context : SHA1Context) (i : Nat) (b : UInt8) : SHA1Context :=
  { context with Message_Block := context.Message_Block.setIfInBounds i b }

/-- Eight more bits. -/
def count (context : SHA1Context) : SHA1Context :=
  let c := { context with Length_Low := context.Length_Low + 8 }
  if c.Length_Low = 0 then
    let c := { c with Length_High := c.Length_High + 1 }
    -- message is too long
    if c.Length_High = 0 then { c with Corrupted := 1 } else c
  else c

end SHA1Context

/-- `SHA1Reset`. -/
def SHA1Reset (context : SHA1Context) : SHA1Context :=
  { context with
    Length_Low := 0
    Length_High := 0
    Message_Block_Index := 0
    Intermediate_Hash := #v[0x67452301, 0xEFCDAB89, 0x98BADCFE, 0x10325476, 0xC3D2E1F0]
    Computed := 0
    Corrupted := 0 }

/-! ### A block -/

/-- `SHA1CircularShift`. -/
def SHA1CircularShift (bits word : UInt32) : UInt32 := (word <<< bits) ||| (word >>> (32 - bits))

/-- The first 16 words of `W`. -/
def initW (block : Vector UInt8 64) : List UInt32 :=
  let M (i : Nat) : UInt32 := (block.toList.getD i 0).toUInt32
  (List.range 16).map fun t =>
    M (t * 4) <<< 24 ||| M (t * 4 + 1) <<< 16 ||| M (t * 4 + 2) <<< 8 ||| M (t * 4 + 3)

/-- `W`. -/
def wordSequence (block : Vector UInt8 64) : List UInt32 :=
  (List.range' 16 64).foldl
    (fun W t => W ++ [SHA1CircularShift 1
      (W.getD (t - 3) 0 ^^^ W.getD (t - 8) 0 ^^^ W.getD (t - 14) 0 ^^^ W.getD (t - 16) 0)])
    (initW block)

/-- The word buffers. -/
structure Buffers where
  A : UInt32
  B : UInt32
  C : UInt32
  D : UInt32
  E : UInt32

/-- One of the four loops: the 20 turns from `t`. -/
def turns20 (f : UInt32 → UInt32 → UInt32 → UInt32) (K : UInt32) (W : List UInt32) (t : Nat)
    (r : Buffers) : Buffers :=
  (List.range' t 20).foldl
    (fun r t =>
      let temp := SHA1CircularShift 5 r.A + f r.B r.C r.D + r.E + W.getD t 0 + K
      ⟨temp, r.A, SHA1CircularShift 30 r.B, r.C, r.D⟩) r

/-- The four loops. -/
def turns80 (W : List UInt32) (r : Buffers) : Buffers :=
  let r := turns20 (fun B C D => (B &&& C) ||| (~~~B &&& D)) 0x5A827999 W 0 r
  let r := turns20 (fun B C D => B ^^^ C ^^^ D) 0x6ED9EBA1 W 20 r
  let r := turns20 (fun B C D => (B &&& C) ||| (B &&& D) ||| (C &&& D)) 0x8F1BBCDC W 40 r
  turns20 (fun B C D => B ^^^ C ^^^ D) 0xCA62C1D6 W 60 r

/-- `SHA1ProcessMessageBlock`. -/
def SHA1ProcessMessageBlock (context : SHA1Context) : SHA1Context :=
  let H := context.Intermediate_Hash
  let r := turns80 (wordSequence context.Message_Block) ⟨H[0], H[1], H[2], H[3], H[4]⟩
  { context with
    Intermediate_Hash := #v[H[0] + r.A, H[1] + r.B, H[2] + r.C, H[3] + r.D, H[4] + r.E]
    Message_Block_Index := 0 }

/-! ### The message -/

/-- One turn of the loop of `SHA1Input`. -/
def inputByte (context : SHA1Context) (b : UInt8) : SHA1Context :=
  let c := (context.put b).count
  if c.Message_Block_Index = 64 then SHA1ProcessMessageBlock c else c

/-- The loop of `SHA1Input`. -/
def inputLoop : Bytes → SHA1Context → SHA1Context
  | [], context => context
  | b :: message_array, context =>
    if context.Corrupted = 0 then inputLoop message_array (inputByte context b) else context

/-- `SHA1Input`, and its result. -/
def SHA1Input (context : SHA1Context) (message_array : Bytes) (length : UInt32) : Nat × SHA1Context :=
  if length = 0 then (shaSuccess, context)
  else if context.Computed ≠ 0 then (shaStateError, { context with Corrupted := shaStateError })
  else if context.Corrupted ≠ 0 then (context.Corrupted, context)
  else (shaSuccess, inputLoop (message_array.take length.toNat) context)

/-- The message length is stored as the last 8 octets. -/
def storeLength (c : SHA1Context) : SHA1Context :=
  [(56, c.Length_High >>> 24), (57, c.Length_High >>> 16), (58, c.Length_High >>> 8),
    (59, c.Length_High), (60, c.Length_Low >>> 24), (61, c.Length_Low >>> 16),
    (62, c.Length_Low >>> 8), (63, c.Length_Low)].foldl (fun c p => c.store p.1 p.2.toUInt8) c

/-- `SHA1PadMessage`. -/
def SHA1PadMessage (context : SHA1Context) : SHA1Context :=
  let c :=
    if context.Message_Block_Index > 55 then
      -- the block is too small to hold the initial padding bits and length
      (SHA1ProcessMessageBlock ((context.put 0x80).zeroTo 64)).zeroTo 56
    else (context.put 0x80).zeroTo 56
  SHA1ProcessMessageBlock (storeLength c)

/-- `Message_Digest`. -/
def messageDigest (context : SHA1Context) : Bytes :=
  (List.range SHA1HashSize).map fun i =>
    (context.Intermediate_Hash.toList.getD (i >>> 2) 0 >>> UInt32.ofNat (8 * (3 - (i &&& 3)))).toUInt8

/-- `SHA1Result`: an error code or the digest. -/
def SHA1Result (context : SHA1Context) : Except Nat Bytes × SHA1Context :=
  if context.Corrupted ≠ 0 then (.error context.Corrupted, context)
  else
    let c :=
      if context.Computed = 0 then
        { SHA1PadMessage context with
          -- message may be sensitive, clear it out
          Message_Block := Vector.replicate 64 0
          Length_Low := 0
          Length_High := 0
          Computed := 1 }
      else context
    (.ok (messageDigest c), c)

end Hbackup
