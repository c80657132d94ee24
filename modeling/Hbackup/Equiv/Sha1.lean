import Hbackup.Lib.Sha1
import Hbackup.Sha1
import Mathlib.Tactic.Ring
import Mathlib.Tactic.Positivity

/-!
# `sha1.c` is SHA-1

The context is a stream through blocks of 64 bytes: what is in the block before its index is pending
(`stream`).  `SHA1Input` feeds the stream byte by byte and counts the bits (`Absorbed`), and
`SHA1PadMessage` feeds it the padding, so that the digest is that of the standard
(`Absorbed.result`).
-/

namespace Hbackup

open BlockStream
open Sha1 (Words compress)

/-! ### Words -/

/-- The bytes of a word do not overlap. -/
theorem or_bytes (x₀ x₁ x₂ x₃ : UInt8) :
    x₀.toUInt32 <<< 24 ||| x₁.toUInt32 <<< 16 ||| x₂.toUInt32 <<< 8 ||| x₃.toUInt32 =
      Sha1.wordOf x₀ x₁ x₂ x₃ := by
  have h₀ := x₀.toNat_lt
  have h₁ := x₁.toNat_lt
  have h₂ := x₂.toNat_lt
  have h₃ := x₃.toNat_lt
  apply UInt32.toNat.inj
  rw [Sha1.wordOf, UInt32.toNat_ofNat_of_lt' (by
    show _ < 2 ^ 32
    omega)]
  have hor : ∀ a b i : Nat, b < 2 ^ i → a * 2 ^ i ||| b = a * 2 ^ i + b := by
    intro a b i hb
    rw [← Nat.shiftLeft_eq, ← Nat.shiftLeft_add_eq_or_of_lt hb]
  have hshift : ∀ (x : UInt8) (i : Nat), i ≤ 24 → x.toNat * 2 ^ i < 2 ^ 32 := by
    intro x i hi
    calc x.toNat * 2 ^ i < 2 ^ 8 * 2 ^ i := Nat.mul_lt_mul_of_pos_right x.toNat_lt (by positivity)
      _ = 2 ^ (8 + i) := (Nat.pow_add 2 8 i).symm
      _ ≤ 2 ^ 32 := Nat.pow_le_pow_right (by decide) (by omega)
  have e₀ : (x₀.toUInt32 <<< 24).toNat = x₀.toNat * 2 ^ 24 := by
    rw [UInt32.toNat_shiftLeft, UInt8.toNat_toUInt32, Nat.shiftLeft_eq]
    exact Nat.mod_eq_of_lt (hshift x₀ 24 (by decide))
  have e₁ : (x₁.toUInt32 <<< 16).toNat = x₁.toNat * 2 ^ 16 := by
    rw [UInt32.toNat_shiftLeft, UInt8.toNat_toUInt32, Nat.shiftLeft_eq]
    exact Nat.mod_eq_of_lt (hshift x₁ 16 (by decide))
  have e₂ : (x₂.toUInt32 <<< 8).toNat = x₂.toNat * 2 ^ 8 := by
    rw [UInt32.toNat_shiftLeft, UInt8.toNat_toUInt32, Nat.shiftLeft_eq]
    exact Nat.mod_eq_of_lt (hshift x₂ 8 (by decide))
  rw [UInt32.toNat_or, UInt32.toNat_or, UInt32.toNat_or, e₀, e₁, e₂, UInt8.toNat_toUInt32]
  -- each byte fills the space that those before it leave
  have s₁ : x₀.toNat * 2 ^ 24 ||| x₁.toNat * 2 ^ 16 = (x₀.toNat * 2 ^ 8 + x₁.toNat) * 2 ^ 16 := by
    rw [hor _ _ _ (by omega)]
    ring
  have s₂ : (x₀.toNat * 2 ^ 8 + x₁.toNat) * 2 ^ 16 ||| x₂.toNat * 2 ^ 8 =
      (x₀.toNat * 2 ^ 16 + x₁.toNat * 2 ^ 8 + x₂.toNat) * 2 ^ 8 := by
    rw [hor _ _ _ (by omega)]
    ring
  rw [s₁, s₂, hor _ _ _ (by omega)]
  ring

theorem initW_eq (block : Vector UInt8 64) : initW block = Sha1.blockWords block.toList := by
  apply List.map_congr_left
  intro t _
  exact or_bytes _ _ _ _

theorem wordSequence_eq (block : Vector UInt8 64) : wordSequence block = Sha1.schedule block.toList := by
  rw [wordSequence, initW_eq]
  rfl

/-! ### A block -/

/-- The words of a context. -/
def wordsOf (H : Vector UInt32 5) : Words := ⟨H.get 0, H.get 1, H.get 2, H.get 3, H.get 4⟩

/-- What a block begins with. -/
def buffersOf (H : Vector UInt32 5) : Buffers :=
  ⟨H.get 0, H.get 1, H.get 2, H.get 3, H.get 4⟩

def Buffers.words (r : Buffers) : Words := ⟨r.A, r.B, r.C, r.D, r.E⟩

theorem words_buffersOf (H : Vector UInt32 5) : (buffersOf H).words = wordsOf H := rfl

theorem wordsOf_add (H : Vector UInt32 5) (r : Buffers) :
    wordsOf #v[H.get 0 + r.A, H.get 1 + r.B, H.get 2 + r.C, H.get 3 + r.D, H.get 4 + r.E] =
      ⟨(wordsOf H).a + r.words.a, (wordsOf H).b + r.words.b, (wordsOf H).c + r.words.c,
        (wordsOf H).d + r.words.d, (wordsOf H).e + r.words.e⟩ := rfl

/-- Each of the four loops is 20 steps of the standard. -/
theorem turns20_words {f : UInt32 → UInt32 → UInt32 → UInt32} {K : UInt32} (W : List UInt32) (t : Nat)
    (hf : ∀ i ∈ List.range' t 20, Sha1.f i = f ∧ Sha1.K i = K) (r : Buffers) :
    (turns20 f K W t r).words = (List.range' t 20).foldl (Sha1.round W) r.words := by
  rw [turns20]
  generalize List.range' t 20 = l at hf
  induction l generalizing r with
  | nil => rfl
  | cons i l ih =>
    obtain ⟨hfi, hKi⟩ := hf i List.mem_cons_self
    rw [List.foldl_cons, List.foldl_cons, ih _ fun j hj => hf j (List.mem_cons_of_mem _ hj)]
    congr 1
    rw [Sha1.round, hfi, hKi]
    rfl

/-- The 80 steps. -/
theorem turns80_words (W : List UInt32) (r : Buffers) :
    (turns80 W r).words = (List.range 80).foldl (Sha1.round W) r.words := by
  -- the function and the constant of each of the four loops
  have h₀ : ∀ i ∈ List.range' 0 20, Sha1.f i = (fun B C D => (B &&& C) ||| (~~~B &&& D)) ∧
      Sha1.K i = 0x5A827999 := by
    intro i hi
    have h : i < 20 := (List.mem_range'_1.mp hi).2
    constructor
    · funext B C D
      rw [Sha1.f, if_pos h]
    · rw [Sha1.K, if_pos h]
  have h₁ : ∀ i ∈ List.range' 20 20, Sha1.f i = (fun B C D => B ^^^ C ^^^ D) ∧
      Sha1.K i = 0x6ED9EBA1 := by
    intro i hi
    obtain ⟨hlo, hhi⟩ := List.mem_range'_1.mp hi
    have h : ¬ i < 20 := by omega
    constructor
    · funext B C D
      rw [Sha1.f, if_neg h, if_pos hhi]
    · rw [Sha1.K, if_neg h, if_pos hhi]
  have h₂ : ∀ i ∈ List.range' 40 20,
      Sha1.f i = (fun B C D => (B &&& C) ||| (B &&& D) ||| (C &&& D)) ∧ Sha1.K i = 0x8F1BBCDC := by
    intro i hi
    obtain ⟨hlo, hhi⟩ := List.mem_range'_1.mp hi
    have h : ¬ i < 20 := by omega
    have h' : ¬ i < 40 := by omega
    constructor
    · funext B C D
      rw [Sha1.f, if_neg h, if_neg h', if_pos hhi]
    · rw [Sha1.K, if_neg h, if_neg h', if_pos hhi]
  have h₃ : ∀ i ∈ List.range' 60 20, Sha1.f i = (fun B C D => B ^^^ C ^^^ D) ∧
      Sha1.K i = 0xCA62C1D6 := by
    intro i hi
    have hlo := (List.mem_range'_1.mp hi).1
    have h : ¬ i < 20 := by omega
    have h' : ¬ i < 40 := by omega
    have h'' : ¬ i < 60 := by omega
    constructor
    · funext B C D
      rw [Sha1.f, if_neg h, if_neg h', if_neg h'']
    · rw [Sha1.K, if_neg h, if_neg h', if_neg h'']
  have hrange : List.range 80 =
      List.range' 0 20 ++ List.range' 20 20 ++ List.range' 40 20 ++ List.range' 60 20 := by decide
  rw [turns80, turns20_words W 60 h₃, turns20_words W 40 h₂, turns20_words W 20 h₁,
    turns20_words W 0 h₀, hrange, List.foldl_append, List.foldl_append, List.foldl_append]

theorem process_words (c : SHA1Context) :
    wordsOf (SHA1ProcessMessageBlock c).Intermediate_Hash =
      compress (wordsOf c.Intermediate_Hash) c.Message_Block.toList := by
  have h := turns80_words (wordSequence c.Message_Block) (buffersOf c.Intermediate_Hash)
  rw [words_buffersOf] at h
  rw [compress, ← wordSequence_eq, ← h, SHA1ProcessMessageBlock]
  exact wordsOf_add _ _

/-! ### The stream -/

/-- The context as a stream. -/
def stream (c : SHA1Context) : State Words UInt8 :=
  ⟨wordsOf c.Intermediate_Hash, c.Message_Block.toList.take c.Message_Block_Index⟩

theorem length_pending {c : SHA1Context} (h : c.Message_Block_Index ≤ 64) :
    (stream c).pending.length = c.Message_Block_Index := by
  show (c.Message_Block.toList.take c.Message_Block_Index).length = _
  rw [List.length_take, Vector.length_toList]
  omega

/-- A full block is compressed. -/
theorem stream_process {c : SHA1Context} (h : c.Message_Block_Index = 64) :
    stream (SHA1ProcessMessageBlock c) = ⟨compress (stream c).state (stream c).pending, []⟩ := by
  have hblock : (stream c).pending = c.Message_Block.toList := by
    show c.Message_Block.toList.take c.Message_Block_Index = _
    rw [List.take_of_length_le]
    rw [Vector.length_toList]
    omega
  rw [hblock, stream, process_words]
  rfl

theorem take_set_self {l : List UInt8} {i : Nat} (h : i < l.length) (b : UInt8) :
    (l.set i b).take (i + 1) = l.take i ++ [b] := by
  rw [List.take_add_one, List.take_set_of_le (le_refl i), List.getElem?_set_self h]
  rfl

theorem stream_put {c : SHA1Context} (h : c.Message_Block_Index < 64) (b : UInt8) :
    stream (c.put b) = ⟨(stream c).state, (stream c).pending ++ [b]⟩ := by
  have hlen : c.Message_Block_Index < c.Message_Block.toList.length := by
    rw [Vector.length_toList]
    exact h
  have hblock : (c.put b).Message_Block.toList = c.Message_Block.toList.set c.Message_Block_Index b :=
    Vector.toList_setIfInBounds
  show (⟨_, (c.put b).Message_Block.toList.take (c.Message_Block_Index + 1)⟩ : State Words UInt8) = _
  rw [hblock, take_set_self hlen]
  rfl

theorem stream_iterate {c : SHA1Context} {k : Nat} (h : c.Message_Block_Index + k ≤ 64) :
    stream ((fun c => SHA1Context.put c 0)^[k] c) =
        ⟨(stream c).state, (stream c).pending ++ List.replicate k 0⟩ ∧
      ((fun c => SHA1Context.put c 0)^[k] c).Message_Block_Index = c.Message_Block_Index + k := by
  induction k generalizing c with
  | zero =>
    rw [List.replicate_zero, List.append_nil]
    exact ⟨rfl, rfl⟩
  | succ k ih =>
    have hput : (c.put 0).Message_Block_Index = c.Message_Block_Index + 1 := rfl
    obtain ⟨hstream, hindex⟩ := ih (c := c.put 0) (by omega)
    rw [Function.iterate_succ_apply, hstream, hindex, stream_put (by omega), hput]
    constructor
    · rw [List.append_assoc, List.replicate_succ]
      rfl
    · omega

theorem stream_zeroTo {c : SHA1Context} {n : Nat} (h : c.Message_Block_Index ≤ n) (hn : n ≤ 64) :
    stream (c.zeroTo n) = ⟨(stream c).state,
        (stream c).pending ++ List.replicate (n - c.Message_Block_Index) 0⟩ ∧
      (c.zeroTo n).Message_Block_Index = n := by
  obtain ⟨hstream, hindex⟩ := stream_iterate (c := c) (k := n - c.Message_Block_Index) (by omega)
  refine ⟨hstream, hindex.trans ?_⟩
  omega

theorem set_last_eight {l : List UInt8} (hl : l.length = 64) (b₀ b₁ b₂ b₃ b₄ b₅ b₆ b₇ : UInt8) :
    (((((((l.set 56 b₀).set 57 b₁).set 58 b₂).set 59 b₃).set 60 b₄).set 61 b₅).set 62 b₆).set 63 b₇ =
      l.take 56 ++ [b₀, b₁, b₂, b₃, b₄, b₅, b₆, b₇] := by
  have hwhole : (((((((l.set 56 b₀).set 57 b₁).set 58 b₂).set 59 b₃).set 60 b₄).set 61 b₅).set 62 b₆).set
      63 b₇ = List.take (63 + 1) ((((((((l.set 56 b₀).set 57 b₁).set 58 b₂).set 59 b₃).set 60 b₄).set
        61 b₅).set 62 b₆).set 63 b₇) := (List.take_of_length_le (by simp [hl])).symm
  -- each byte is behind those before it
  rw [hwhole, take_set_self (by simp [hl]), take_set_self (by simp [hl]), take_set_self (by simp [hl]),
    take_set_self (by simp [hl]), take_set_self (by simp [hl]), take_set_self (by simp [hl]),
    take_set_self (by simp [hl]), take_set_self (by simp [hl])]
  simp

/-- The length behind 56 bytes. -/
theorem stream_storeLength {c : SHA1Context} (h : c.Message_Block_Index = 56) :
    (storeLength c).Message_Block.toList = (stream c).pending ++
        (Sha1.bytesOf c.Length_High ++ Sha1.bytesOf c.Length_Low) ∧
      (storeLength c).Intermediate_Hash = c.Intermediate_Hash := by
  refine ⟨?_, by simp [storeLength, SHA1Context.store]⟩
  have hlen : c.Message_Block.toList.length = 64 := Vector.length_toList
  have hset : (storeLength c).Message_Block.toList = ((((((((c.Message_Block.toList.set 56
      (c.Length_High >>> 24).toUInt8).set 57 (c.Length_High >>> 16).toUInt8).set 58
      (c.Length_High >>> 8).toUInt8).set 59 c.Length_High.toUInt8).set 60
      (c.Length_Low >>> 24).toUInt8).set 61 (c.Length_Low >>> 16).toUInt8).set 62
      (c.Length_Low >>> 8).toUInt8).set 63 c.Length_Low.toUInt8) := by
    simp [storeLength, SHA1Context.store, Vector.toList_setIfInBounds]
  rw [hset, set_last_eight hlen, stream, h]
  rfl

/-! ### Input -/

/-- The number of bits. -/
def bits (c : SHA1Context) : Nat := c.Length_High.toNat * 2 ^ 32 + c.Length_Low.toNat

/-- Eight bits are counted, as long as the two words are wide enough. -/
theorem bits_count {c : SHA1Context} (h : 8 ∣ bits c) (hmax : bits c + 8 < 2 ^ 64) :
    bits c.count = bits c + 8 ∧ c.count.Corrupted = c.Corrupted := by
  rw [bits] at h hmax
  have hlow := c.Length_Low.toNat_lt
  have hhigh := c.Length_High.toNat_lt
  have hdvd : 8 ∣ c.Length_Low.toNat := by omega
  have hadd : (c.Length_Low + 8).toNat = (c.Length_Low.toNat + 8) % 2 ^ 32 := UInt32.toNat_add _ _
  rw [SHA1Context.count]
  by_cases hwrap : c.Length_Low.toNat + 8 = 2 ^ 32
  · -- the lower word is full
    have hzero : c.Length_Low + 8 = 0 := by
      apply UInt32.toNat.inj
      rw [hadd, hwrap]
      rfl
    have hcarry : (c.Length_High + 1).toNat = c.Length_High.toNat + 1 := by
      rw [UInt32.toNat_add]
      exact Nat.mod_eq_of_lt (by show c.Length_High.toNat + 1 < 2 ^ 32; omega)
    have hne : c.Length_High + 1 ≠ 0 := by
      intro h0
      rw [h0] at hcarry
      exact Nat.succ_ne_zero _ hcarry.symm
    dsimp only
    rw [if_pos hzero, if_neg hne]
    refine ⟨?_, rfl⟩
    show (c.Length_High + 1).toNat * 2 ^ 32 + (c.Length_Low + 8).toNat = bits c + 8
    rw [hcarry, hzero, bits]
    show (c.Length_High.toNat + 1) * 2 ^ 32 + 0 = _
    omega
  · have hsum : (c.Length_Low + 8).toNat = c.Length_Low.toNat + 8 := by
      rw [hadd]
      exact Nat.mod_eq_of_lt (by omega)
    have hne : c.Length_Low + 8 ≠ 0 := by
      intro h0
      rw [h0] at hsum
      exact Nat.succ_ne_zero _ hsum.symm
    dsimp only
    rw [if_neg hne]
    refine ⟨?_, rfl⟩
    show c.Length_High.toNat * 2 ^ 32 + (c.Length_Low + 8).toNat = bits c + 8
    rw [hsum, bits, Nat.add_assoc]

/-- The context has taken in the message. -/
structure Absorbed (c : SHA1Context) (m : Bytes) : Prop where
  computed : c.Computed = 0
  corrupted : c.Corrupted = 0
  counted : bits c = 8 * m.length
  index : c.Message_Block_Index < 64
  streamed : stream c = feed 64 compress ⟨Sha1.initial, []⟩ m

theorem absorbed_reset (c : SHA1Context) : Absorbed (SHA1Reset c) [] where
  computed := rfl
  corrupted := rfl
  counted := by simp [bits, SHA1Reset]
  index := Nat.zero_lt_succ 63
  streamed := rfl

theorem count_frame (c : SHA1Context) : c.count.Message_Block_Index = c.Message_Block_Index ∧
    c.count.Computed = c.Computed ∧ stream c.count = stream c := by
  rw [SHA1Context.count]
  dsimp only
  split
  · split <;> exact ⟨rfl, rfl, rfl⟩
  · exact ⟨rfl, rfl, rfl⟩

/-- One byte. -/
theorem Absorbed.byte {c : SHA1Context} {m : Bytes} (h : Absorbed c m) (b : UInt8)
    (hmax : m.length + 1 < 2 ^ 61) : Absorbed (inputByte c b) (m ++ [b]) := by
  have hbits : bits (c.put b) = 8 * m.length := h.counted
  obtain ⟨hcount, hcorrupted⟩ := bits_count (c := c.put b) (by rw [hbits]; exact dvd_mul_right _ _)
    (by omega)
  obtain ⟨hindex, hcomputed, hstream⟩ := count_frame (c.put b)
  have hput : (c.put b).Message_Block_Index = c.Message_Block_Index + 1 := rfl
  have hpending := length_pending h.index.le
  rw [stream_put h.index] at hstream
  have hfeed : feed 64 compress ⟨Sha1.initial, []⟩ (m ++ [b]) =
      push 64 compress (stream c) b := by rw [feed_append, ← h.streamed]; rfl
  have hlength : 8 * (m ++ [b]).length = 8 * m.length + 8 := by
    rw [List.length_append, List.length_singleton]
    omega
  rw [push, hpending] at hfeed
  rw [inputByte]
  by_cases hfull : c.Message_Block_Index + 1 = 64
  · have hc : (c.put b).count.Message_Block_Index = 64 := by omega
    rw [if_pos hc]
    rw [if_pos hfull] at hfeed
    refine ⟨hcomputed.trans h.computed, hcorrupted.trans h.corrupted, ?_, Nat.zero_lt_succ 63, ?_⟩
    · rw [hlength, ← hbits, ← hcount]
      rfl
    · rw [hfeed, stream_process hc, hstream]
  · have hc : (c.put b).count.Message_Block_Index ≠ 64 := by omega
    rw [if_neg hc]
    rw [if_neg hfull] at hfeed
    refine ⟨hcomputed.trans h.computed, hcorrupted.trans h.corrupted, ?_, ?_, ?_⟩
    · rw [hlength, ← hbits, ← hcount]
    · have := h.index
      omega
    · rw [hfeed, hstream]

/-- More bytes. -/
theorem Absorbed.loop {c : SHA1Context} {m : Bytes} (h : Absorbed c m) (l : Bytes)
    (hmax : m.length + l.length < 2 ^ 61) : Absorbed (inputLoop l c) (m ++ l) := by
  induction l generalizing c m with
  | nil =>
    rw [List.append_nil]
    exact h
  | cons b l ih =>
    rw [List.length_cons] at hmax
    have hlen : (m ++ [b]).length = m.length + 1 := List.length_append
    rw [inputLoop, if_pos h.corrupted, List.append_cons]
    exact ih (h.byte b (by omega)) (by omega)

/-- **`SHA1Input` takes in what it is given**, in blocks of any size that its parameter can hold. -/
theorem Absorbed.input {c : SHA1Context} {m : Bytes} (h : Absorbed c m) {l : Bytes}
    {length : UInt32} (hl : l.length = length.toNat) (hmax : m.length + l.length < 2 ^ 61) :
    ∃ c', SHA1Input c l length = (shaSuccess, c') ∧ Absorbed c' (m ++ l) := by
  rw [SHA1Input]
  by_cases hzero : length = 0
  · rw [hzero] at hl
    rw [if_pos hzero, List.length_eq_zero_iff.mp hl, List.append_nil]
    exact ⟨c, rfl, h⟩
  · rw [if_neg hzero, if_neg (not_not.mpr h.computed), if_neg (not_not.mpr h.corrupted),
      List.take_of_length_le hl.le]
    exact ⟨_, rfl, h.loop l hmax⟩

/-! ### The digest -/

/-- The length of the message, in the two words. -/
theorem Absorbed.twoWords {c : SHA1Context} {m : Bytes} (h : Absorbed c m) :
    Sha1.twoWords (8 * m.length) = Sha1.bytesOf c.Length_High ++ Sha1.bytesOf c.Length_Low := by
  have hbits := h.counted
  have hlow := c.Length_Low.toNat_lt
  rw [bits] at hbits
  have hhigh : 8 * m.length / 2 ^ 32 = c.Length_High.toNat := by omega
  have hword : UInt32.ofNat (8 * m.length) = c.Length_Low := by
    apply UInt32.toNat.inj
    rw [UInt32.toNat_ofNat']
    omega
  rw [Sha1.twoWords, hhigh, hword, UInt32.ofNat_toNat]

/-- The words of the last block. -/
theorem words_storeLength {c : SHA1Context} (h : c.Message_Block_Index = 56) :
    wordsOf (SHA1ProcessMessageBlock (storeLength c)).Intermediate_Hash =
      compress (stream c).state ((stream c).pending ++
        (Sha1.bytesOf c.Length_High ++ Sha1.bytesOf c.Length_Low)) := by
  obtain ⟨hblock, hwords⟩ := stream_storeLength h
  rw [process_words, hblock, hwords]
  rfl

theorem length_words_zeroTo (c : SHA1Context) (n : Nat) :
    (c.zeroTo n).Length_High = c.Length_High ∧ (c.zeroTo n).Length_Low = c.Length_Low := by
  rw [SHA1Context.zeroTo]
  generalize n - c.Message_Block_Index = k
  induction k generalizing c with
  | zero => exact ⟨rfl, rfl⟩
  | succ k ih =>
    rw [Function.iterate_succ_apply]
    exact ih (c.put 0)

/-- What is behind the first byte of the padding completes a block. -/
theorem feed_last {s : State Words UInt8} {k : Nat} (hk : s.pending.length + k = 56) (hi lo : UInt32) :
    (feed 64 compress s (List.replicate k 0 ++ (Sha1.bytesOf hi ++ Sha1.bytesOf lo))).state =
      compress s.state (s.pending ++ List.replicate k 0 ++ (Sha1.bytesOf hi ++ Sha1.bytesOf lo)) := by
  have hwords : (Sha1.bytesOf hi ++ Sha1.bytesOf lo).length = 8 := rfl
  rw [feed_complete, List.append_assoc]
  · intro hnil
    rw [(List.append_eq_nil_iff.mp hnil).2] at hwords
    cases hwords
  · rw [List.length_append, List.length_replicate, hwords]
    omega

/-- **The padding is fed to the stream.** -/
theorem Absorbed.padded {c : SHA1Context} {m : Bytes} (h : Absorbed c m) :
    wordsOf (SHA1PadMessage c).Intermediate_Hash =
      (feed 64 compress (stream c) (Sha1.padding m.length)).state := by
  have hindex := h.index
  have hpending := length_pending hindex.le
  have hmod : c.Message_Block_Index = m.length % 64 := by
    rw [← hpending, h.streamed, pending_feed (by decide)]
    show (0 + m.length) % 64 = _
    rw [Nat.zero_add]
  have hput : (c.put 0x80).Message_Block_Index = c.Message_Block_Index + 1 := rfl
  have hstream := stream_put hindex 0x80
  have hpending' : (stream (c.put 0x80)).pending.length = c.Message_Block_Index + 1 :=
    length_pending (by omega)
  rw [Sha1.padding, ← hmod, h.twoWords, SHA1PadMessage]
  by_cases hsmall : c.Message_Block_Index > 55
  · -- the padding goes on into a second block
    have hzeros : (119 - c.Message_Block_Index) % 64 = 64 - (c.put 0x80).Message_Block_Index + 56 := by
      omega
    have hsplit : ∀ l : Bytes, 0x80 :: (List.replicate ((119 - c.Message_Block_Index) % 64) 0 ++ l) =
        0x80 :: List.replicate (64 - (c.put 0x80).Message_Block_Index) 0 ++
          (List.replicate 56 0 ++ l) := by
      intro l
      rw [hzeros, ← List.replicate_append_replicate, List.append_assoc]
      rfl
    obtain ⟨hfirst, hfull⟩ := stream_zeroTo (c := c.put 0x80) (n := 64) (by omega) (le_refl _)
    obtain ⟨hsecond, hlast⟩ := stream_zeroTo (c := SHA1ProcessMessageBlock ((c.put 0x80).zeroTo 64))
      (n := 56) (Nat.zero_le _) (by omega)
    obtain ⟨hhi, hlo⟩ := length_words_zeroTo (c.put 0x80) 64
    obtain ⟨hhi', hlo'⟩ := length_words_zeroTo (SHA1ProcessMessageBlock ((c.put 0x80).zeroTo 64)) 56
    have hblock : feed 64 compress (stream c)
        (0x80 :: List.replicate (64 - (c.put 0x80).Message_Block_Index) 0) =
          stream (SHA1ProcessMessageBlock ((c.put 0x80).zeroTo 64)) := by
      rw [feed_complete (List.cons_ne_nil _ _), stream_process hfull, hfirst, hstream,
        List.append_assoc]
      · rfl
      · rw [hpending, List.length_cons, List.length_replicate]
        omega
    have hempty : (stream (SHA1ProcessMessageBlock ((c.put 0x80).zeroTo 64))).pending.length + 56 =
        56 := by
      rw [stream_process hfull]
      rfl
    rw [if_pos hsmall, words_storeLength hlast, hsecond, hhi', hlo', hsplit, feed_append, hblock,
      feed_last hempty]
    show compress _ (_ ++ (Sha1.bytesOf ((c.put 0x80).zeroTo 64).Length_High ++
      Sha1.bytesOf ((c.put 0x80).zeroTo 64).Length_Low)) = _
    rw [hhi, hlo]
    rfl
  · have hzeros : (119 - c.Message_Block_Index) % 64 = 56 - (c.put 0x80).Message_Block_Index := by
      omega
    obtain ⟨hzero, hlast⟩ := stream_zeroTo (c := c.put 0x80) (n := 56) (by omega) (by omega)
    obtain ⟨hhi, hlo⟩ := length_words_zeroTo (c.put 0x80) 56
    have hone : feed 64 compress (stream c) [0x80] = stream (c.put 0x80) := by
      rw [feed_short (by rw [hpending, List.length_singleton]; omega), hstream]
    have hspace : (stream (c.put 0x80)).pending.length + (56 - (c.put 0x80).Message_Block_Index) =
        56 := by omega
    rw [if_neg hsmall, words_storeLength hlast, hzero, hhi, hlo, hzeros, ← List.singleton_append,
      feed_append, hone, feed_last hspace]
    rfl

theorem messageDigest_eq (c : SHA1Context) :
    messageDigest c = (wordsOf c.Intermediate_Hash).bytes := by
  obtain ⟨⟨⟨l⟩, hl⟩, lo, hi, i, b, x, y⟩ := c
  match l, hl with
  | [a₀, a₁, a₂, a₃, a₄], hl =>
    have hrange : List.range SHA1HashSize =
        [0, 1, 2, 3, 4, 5, 6, 7, 8, 9, 10, 11, 12, 13, 14, 15, 16, 17, 18, 19] := rfl
    rw [messageDigest, hrange]
    simp only [List.map_cons, List.map_nil]
    show [_, _, _, (a₀ >>> 0).toUInt8, _, _, _, (a₁ >>> 0).toUInt8, _, _, _, (a₂ >>> 0).toUInt8, _, _,
      _, (a₃ >>> 0).toUInt8, _, _, _, (a₄ >>> 0).toUInt8] = _
    simp only [UInt32.shiftRight_zero]
    rfl

/-- **`SHA1Result` is the digest of the message.** -/
theorem Absorbed.result {c : SHA1Context} {m : Bytes} (h : Absorbed c m) :
    (SHA1Result c).1 = .ok (Sha1.sha1 m) := by
  rw [SHA1Result, if_neg (not_not.mpr h.corrupted)]
  dsimp only
  rw [if_pos h.computed, messageDigest_eq]
  rw [h.padded, h.streamed, Sha1.sha1_eq_feed]

end Hbackup
