import Mathlib.Data.List.GetD
import Hbackup.Utils.UrlEncode
import Hbackup.Utils.Equiv.Hex

/-!
# Correctness of `urlencode` and `urldecode`

`urldecode` works on positions inside a longer line.  `urldecode_eq_decodePart` reduces it to
`decodePart`, a recursion over the bytes of the part alone; what is left of the positions is the
flag `last`, since only the last part of a line is decoded without an upper bound and so reports an
escape cut off by its end as a bad digit (the NUL behind the line) rather than as bad hex.

`urlencode` is an encoder of the form coding (`urlencode_encodes`) and `decodePart` a decoder of it
(`decodePart_of_encodes`, `decodePart_eq_error_iff`).
-/

namespace Hbackup

open FormCoding

/-! ### Encoding -/

theorem urlencodeByte_encodes (c : UInt8) : Encodes (urlencodeByte c) [c] := by
  unfold urlencodeByte
  split_ifs with h32 hesc
  · subst h32
    exact .plus .nil
  · obtain ⟨x, y, a, b, hxy, hx, hy, hc⟩ := hexByte_spec c
    rw [percentByte, hxy]
    have h := Encodes.escape hx hy .nil
    rw [hc] at h
    exact h
  · have hplain := forall_byte
      (p := fun c => (isReserved c || c < 32 || c > 126) = true ∨ Plain c) (by decide) c
    exact .plain (hplain.resolve_left hesc) .nil

/-- **`urlencode` is an encoder of the form coding.** -/
theorem urlencode_encodes (s : Bytes) : Encodes (urlencode s) s :=
  Encodes.flatMap urlencodeByte_encodes s

/-- Text without special bytes, spaces or control characters is left alone. -/
theorem urlencode_of_plain {s : Bytes} (h : ∀ c ∈ s, Plain c ∧ 32 < c ∧ c ≤ 126) :
    urlencode s = s := by
  have hbyte : ∀ c : UInt8, (Plain c ∧ 32 < c ∧ c ≤ 126) → urlencodeByte c = [c] :=
    forall_byte (p := fun c => (Plain c ∧ 32 < c ∧ c ≤ 126) → urlencodeByte c = [c])
      (by decide)
  induction s with
  | nil => rfl
  | cons c s ih =>
    unfold urlencode at ih ⊢
    rw [List.flatMap_cons, hbyte c (h c List.mem_cons_self),
      ih fun d hd => h d (List.mem_cons_of_mem _ hd)]
    rfl

/-! ### Decoding a part -/

/-- `urldecode` of a part on its own; `last` says that it is the last one of its line. -/
def decodePart (last : Bool) : Bytes → Except Exn Bytes
  | [] => .ok []
  | c :: t =>
    if c = 43 then (32 :: ·) <$> decodePart last t
    else if c = 37 then
      match t with
      | x :: y :: t' => do
        let a ← hexdigit x
        let b ← hexdigit y
        (UInt8.ofNat (16 * a + b) :: ·) <$> decodePart last t'
      | _ => .error (if last then .badHexDigit else .badHex (c :: t))
    else (c :: ·) <$> decodePart last t

theorem decodePart_plus (last : Bool) (t : Bytes) :
    decodePart last (43 :: t) = (32 :: ·) <$> decodePart last t := by
  rcases t with _ | ⟨x, _ | ⟨y, t⟩⟩ <;> rfl

theorem decodePart_plain (last : Bool) {c : UInt8} (t : Bytes) (h43 : c ≠ 43) (h37 : c ≠ 37) :
    decodePart last (c :: t) = (c :: ·) <$> decodePart last t := by
  rcases t with _ | ⟨x, _ | ⟨y, t⟩⟩ <;> simp [decodePart, h43, h37]

theorem decodePart_escape (last : Bool) (x y : UInt8) (t : Bytes) :
    decodePart last (37 :: x :: y :: t) = (do
      let a ← hexdigit x
      let b ← hexdigit y
      (UInt8.ofNat (16 * a + b) :: ·) <$> decodePart last t) := by
  rfl

theorem byteAt_of_le (s : Bytes) {n : Nat} (h : s.length ≤ n) : byteAt s n = 0 := by
  rw [byteAt, List.getD_eq_default _ _ h]

theorem part_cons (s : Bytes) {n limit : Nat} (hn : n < limit) (hl : limit ≤ s.length) :
    (s.drop n).take (limit - n) = byteAt s n :: (s.drop (n + 1)).take (limit - (n + 1)) := by
  rw [List.drop_eq_getElem_cons (by omega), show limit - n = limit - (n + 1) + 1 by omega,
    List.take_succ_cons, byteAt, List.getD_eq_getElem _ _ (by omega)]

/-- The loop of `urldecode` decodes what is left of the part and appends it. -/
theorem urldecodeLoop_eq (s : Bytes) (end_ : Option Nat) (limit : Nat) (hl : limit ≤ s.length)
    (hend : end_ = some limit ∨ (end_ = none ∧ limit = s.length)) :
    ∀ (turns n : Nat) (r : Bytes), limit - n ≤ turns →
      urldecodeLoop s end_ limit turns n r =
        (r ++ ·) <$> decodePart end_.isNone ((s.drop n).take (limit - n)) := by
  intro turns
  induction turns using Nat.strong_induction_on with
  | _ turns ih =>
  intro n r hturns
  by_cases hn : n < limit
  · obtain ⟨turns, rfl⟩ : ∃ k, turns = k + 1 := ⟨turns - 1, by omega⟩
    rw [urldecodeLoop, if_pos hn, part_cons s hn hl]
    by_cases h43 : byteAt s n = 43
    · rw [if_pos h43, h43, decodePart_plus, ih turns (by omega) _ _ (by omega)]
      cases decodePart end_.isNone ((s.drop (n + 1)).take (limit - (n + 1))) <;> simp
    rw [if_neg h43]
    by_cases h37 : byteAt s n = 37
    · rw [if_pos h37, h37]
      by_cases hfit : n + 2 < limit
      · have hall : end_.all (fun e => n + 2 < e) = true := by
          rcases hend with rfl | ⟨rfl, _⟩ <;> simp [hfit]
        rw [if_pos hall, part_cons s (show n + 1 < limit by omega) hl,
          part_cons s (show n + 1 + 1 < limit by omega) hl, decodePart_escape]
        cases hexdigit (byteAt s (n + 1)) with
        | error e => rfl
        | ok a =>
          cases hexdigit (byteAt s (n + 1 + 1)) with
          | error e => simp [bind, Except.bind]
          | ok b =>
            simp only [bind, Except.bind]
            rw [ih turns (by omega) _ _ (by omega)]
            cases decodePart end_.isNone ((s.drop (n + 3)).take (limit - (n + 3))) <;> simp
      · -- fewer than two bytes are left behind the `%`
        have hshort : ((s.drop (n + 1)).take (limit - (n + 1))).length < 2 := by
          rw [List.length_take]; omega
        rcases hend with rfl | ⟨rfl, rfl⟩
        · rw [if_neg (by simpa using hfit)]
          match hu : (s.drop (n + 1)).take (limit - (n + 1)), hshort with
          | [], _ => rfl
          | [x], _ => rfl
        · rw [if_pos (by simp)]
          -- the second digit read is a NUL, or lies behind it
          have hnul : hexdigit (byteAt s (n + 2)) = .error .badHexDigit := by
            rw [byteAt_of_le s (by omega)]; rfl
          have hdigit : ∀ c, hexdigit c = .error .badHexDigit ∨ ∃ a, hexdigit c = .ok a := by
            intro c
            rw [hexdigit_eq]
            cases hexValue c <;> simp
          have hright : decodePart (none : Option Nat).isNone
              (37 :: (s.drop (n + 1)).take (s.length - (n + 1))) = .error .badHexDigit := by
            match hu : (s.drop (n + 1)).take (s.length - (n + 1)), hshort with
            | [], _ => rfl
            | [x], _ => rfl
          rw [hright, hnul]
          rcases hdigit (byteAt s (n + 1)) with he | ⟨a, he⟩ <;> rw [he] <;> rfl
    · rw [if_neg h37, decodePart_plain _ _ h43 h37, ih turns (by omega) _ _ (by omega)]
      cases decodePart end_.isNone ((s.drop (n + 1)).take (limit - (n + 1))) <;> simp
  · have hzero : limit - n = 0 := by omega
    rw [hzero, List.take_zero]
    cases turns with
    | zero => simp [urldecodeLoop, decodePart]
    | succ turns => rw [urldecodeLoop, if_neg hn]; simp [decodePart]

/-- **`urldecode` decodes the part `[start, end)` on its own.** -/
theorem urldecode_eq_decodePart (s : Bytes) (start : Nat) (end_ : Option Nat)
    (hend : ∀ e ∈ end_, e ≤ s.length) :
    urldecode s start end_ =
      decodePart end_.isNone ((s.drop start).take (end_.getD s.length - start)) := by
  have h : end_.getD s.length ≤ s.length ∧
      (end_ = some (end_.getD s.length) ∨ (end_ = none ∧ end_.getD s.length = s.length)) := by
    cases end_ with
    | none => simp
    | some e => simpa using hend e rfl
  rw [urldecode, urldecodeLoop_eq s end_ _ h.1 h.2 _ _ _ (Nat.le_refl _)]
  cases decodePart end_.isNone ((s.drop start).take (end_.getD s.length - start)) <;> simp

/-! ### Decoding encoded text -/

/-- `decodePart` and the decoder of the form coding accept the same text. -/
theorem decodePart_eq_decode (last : Bool) : ∀ t : Bytes,
    (∀ s, decode t = some s → decodePart last t = .ok s) ∧
    (decode t = none → ∃ e, decodePart last t = .error e ∧ (e = .badHexDigit ∨ ∃ m, e = .badHex m))
  | [] => by simp [decode, decodePart]
  | c :: t => by
    -- a byte that stands for itself, or for a space
    have step : ∀ (c d : UInt8), decode (c :: t) = (decode t).map (d :: ·) →
        decodePart last (c :: t) = (d :: ·) <$> decodePart last t →
        (∀ s, decode (c :: t) = some s → decodePart last (c :: t) = .ok s) ∧
        (decode (c :: t) = none → ∃ e, decodePart last (c :: t) = .error e ∧
          (e = .badHexDigit ∨ ∃ m, e = .badHex m)) := by
      intro c d hd hp
      obtain ⟨ih1, ih2⟩ := decodePart_eq_decode last t
      rw [hd, hp]
      cases ht : decode t with
      | none =>
        obtain ⟨e, he, hbad⟩ := ih2 ht
        rw [he]
        exact ⟨fun s hs => by simp at hs, fun _ => ⟨e, rfl, hbad⟩⟩
      | some s =>
        rw [ih1 s ht]
        exact ⟨fun s' hs' => by simpa using hs', fun hn => by simp at hn⟩
    by_cases h43 : c = 43
    · subst h43
      exact step 43 32 (decode_plus t) (decodePart_plus last t)
    by_cases h37 : c = 37
    · subst h37
      -- an escape, which may be cut off
      rcases t with _ | ⟨x, _ | ⟨y, t'⟩⟩
      · cases last <;> simp [decode, decodePart]
      · cases last <;> simp [decode, decodePart]
      rw [decode_escape, decodePart_escape, hexdigit_eq, hexdigit_eq]
      cases hexValue x with
      | none => exact ⟨fun s hs => by simp at hs, fun _ => ⟨_, rfl, .inl rfl⟩⟩
      | some a =>
        cases hexValue y with
        | none => exact ⟨fun s hs => by simp at hs, fun _ => ⟨_, rfl, .inl rfl⟩⟩
        | some b =>
          obtain ⟨ih1, ih2⟩ := decodePart_eq_decode last t'
          cases ht : decode t' with
          | none =>
            obtain ⟨e, he, hbad⟩ := ih2 ht
            refine ⟨fun s hs => by simp at hs, fun _ => ⟨e, ?_, hbad⟩⟩
            simp [bind, Except.bind, he]
          | some s =>
            refine ⟨fun s' hs' => ?_, fun hn => by simp at hn⟩
            simpa [bind, Except.bind, ih1 s ht] using hs'
    · exact step c c (decode_plain t h43 h37) (decodePart_plain last t h43 h37)

theorem decodePart_of_encodes (last : Bool) {t s : Bytes} (h : Encodes t s) :
    decodePart last t = .ok s :=
  (decodePart_eq_decode last t).1 s (decode_of_encodes h)

/-- A part is rejected exactly when the form coding rejects it. -/
theorem decodePart_eq_error_iff (last : Bool) (t : Bytes) :
    (∃ e, decodePart last t = .error e) ↔ decode t = none := by
  constructor
  · rintro ⟨e, he⟩
    cases ht : decode t with
    | none => rfl
    | some s => rw [(decodePart_eq_decode last t).1 s ht] at he; cases he
  · intro ht
    obtain ⟨e, he, _⟩ := (decodePart_eq_decode last t).2 ht
    exact ⟨e, he⟩

end Hbackup
