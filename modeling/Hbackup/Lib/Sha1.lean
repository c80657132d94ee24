import Hbackup.Lib.BlockStream
import Mathlib.Data.UInt

/-!
# SHA-1

The hash function of FIPS PUB 180-1, of a message of whole bytes: the message is padded to blocks of
64 bytes (`pad`), and each block is compressed into five words (`compress`).
-/

namespace Sha1

open BlockStream

/-! ### Words -/

/-- The circular left shift `S^n`. -/
def S (n x : UInt32) : UInt32 := (x <<< n) ||| (x >>> (32 - n))

/-- The word with these bytes, the most significant one first. -/
def wordOf (x₀ x₁ x₂ x₃ : UInt8) : UInt32 :=
  UInt32.ofNat (x₀.toNat * 2 ^ 24 + x₁.toNat * 2 ^ 16 + x₂.toNat * 2 ^ 8 + x₃.toNat)

/-- The bytes of a word, the most significant one first. -/
def bytesOf (w : UInt32) : List UInt8 :=
  [(w >>> 24).toUInt8, (w >>> 16).toUInt8, (w >>> 8).toUInt8, w.toUInt8]

/-- `H₀`, …, `H₄`. -/
structure Words where
  a : UInt32
  b : UInt32
  c : UInt32
  d : UInt32
  e : UInt32
deriving DecidableEq

/-- What they are in the beginning. -/
def initial : Words := ⟨0x67452301, 0xEFCDAB89, 0x98BADCFE, 0x10325476, 0xC3D2E1F0⟩

def Words.bytes (h : Words) : List UInt8 :=
  bytesOf h.a ++ bytesOf h.b ++ bytesOf h.c ++ bytesOf h.d ++ bytesOf h.e

/-! ### Compression -/

/-- `f_t`. -/
def f (t : Nat) (b c d : UInt32) : UInt32 :=
  if t < 20 then (b &&& c) ||| (~~~b &&& d)
  else if t < 40 then b ^^^ c ^^^ d
  else if t < 60 then (b &&& c) ||| (b &&& d) ||| (c &&& d)
  else b ^^^ c ^^^ d

/-- `K_t`. -/
def K (t : Nat) : UInt32 :=
  if t < 20 then 0x5A827999
  else if t < 40 then 0x6ED9EBA1
  else if t < 60 then 0x8F1BBCDC
  else 0xCA62C1D6

/-- `W₀`, …, `W₁₅`: the words of the block. -/
def blockWords (block : List UInt8) : List UInt32 :=
  (List.range 16).map fun t =>
    wordOf (block.getD (t * 4) 0) (block.getD (t * 4 + 1) 0) (block.getD (t * 4 + 2) 0)
      (block.getD (t * 4 + 3) 0)

/-- `W_t`, of those before it. -/
def nextWord (W : List UInt32) (t : Nat) : UInt32 :=
  S 1 (W.getD (t - 3) 0 ^^^ W.getD (t - 8) 0 ^^^ W.getD (t - 14) 0 ^^^ W.getD (t - 16) 0)

/-- `W₀`, …, `W₇₉`. -/
def schedule (block : List UInt8) : List UInt32 :=
  (List.range' 16 64).foldl (fun W t => W ++ [nextWord W t]) (blockWords block)

/-- The step `t`. -/
def round (W : List UInt32) (h : Words) (t : Nat) : Words :=
  ⟨S 5 h.a + f t h.b h.c h.d + h.e + W.getD t 0 + K t, h.a, S 30 h.b, h.c, h.d⟩

/-- One block. -/
def compress (h : Words) (block : List UInt8) : Words :=
  let r := (List.range 80).foldl (round (schedule block)) h
  ⟨h.a + r.a, h.b + r.b, h.c + r.c, h.d + r.d, h.e + r.e⟩

/-! ### Padding -/

/-- A number as two words. -/
def twoWords (n : Nat) : List UInt8 :=
  bytesOf (UInt32.ofNat (n / 2 ^ 32)) ++ bytesOf (UInt32.ofNat n)

/-- What comes behind a message of `n` bytes: a 1, so many 0 that there is space for two words, and its
length in bits. -/
def padding (n : Nat) : List UInt8 :=
  0x80 :: (List.replicate ((119 - n % 64) % 64) 0 ++ twoWords (8 * n))

def pad (m : List UInt8) : List UInt8 := m ++ padding m.length

theorem length_padding (n : Nat) : (padding n).length = (119 - n % 64) % 64 + 9 := by
  have hwords : (twoWords (8 * n)).length = 8 := rfl
  rw [padding, List.length_cons, List.length_append, List.length_replicate, hwords]

/-- There are whole blocks. -/
theorem length_pad (m : List UInt8) : (pad m).length = (pad m).length / 64 * 64 := by
  rw [pad, List.length_append, length_padding]
  omega

/-- **The digest.** -/
def sha1 (m : List UInt8) : List UInt8 :=
  (overBlocks 64 compress ((pad m).length / 64) initial (pad m)).bytes

/-- The digest comes out of the stream, too. -/
theorem sha1_eq_feed (m : List UInt8) :
    sha1 m = (feed 64 compress (feed 64 compress ⟨initial, []⟩ m) (padding m.length)).state.bytes := by
  rw [← feed_append, ← pad, feed_blocks (by decide) initial (length_pad m)]
  rfl

end Sha1
