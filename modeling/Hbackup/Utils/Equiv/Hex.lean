import Hbackup.Utils.Hex
import Hbackup.Lib.FormCoding

/-!
# Correctness of the hexadecimal functions

`hexdecode` inverts `hexencode` (`hexdecode_hexencode`), so `hashdecode` recovers a hash from its
digits (`hashdecode_hexencode`) and different hashes have different paths (`hashpath_injective`).
What `hashdecode` accepts is 40 digits of either case (`hashdecode_isOk_iff`), which come out in lower
case (`hexencode_hashdecode`).  The table of `hexdigit` is the digit value of the form coding
(`hexdigit_eq`).
-/

namespace Hbackup

open FormCoding

/-- What the table has for a byte. -/
def tableEntry (n : Nat) : Int := ((hexValue (UInt8.ofNat n)).map Int.ofNat).getD (-1)

theorem hexLookup_eq : hexLookup = (List.range 256).map tableEntry := by decide +kernel

/-- The table of `hexdigit` gives the value of the digit. -/
theorem hexdigit_eq (c : UInt8) :
    hexdigit c = (hexValue c).elim (.error .badHexDigit) .ok := by
  have hentry : hexLookup.getD c.toNat (-1) = tableEntry c.toNat := by
    have hlt : c.toNat < (List.range 256).length := by
      rw [List.length_range]
      exact c.toNat_lt
    rw [hexLookup_eq, List.getD_eq_getElem?_getD, List.getElem?_map, List.getElem?_eq_getElem hlt,
      List.getElem_range]
    rfl
  rw [hexdigit, hentry, tableEntry, UInt8.ofNat_toNat]
  cases hexValue c with
  | none => rfl
  | some a => rfl

theorem hexByte_spec (c : UInt8) : ∃ x y a b, hexByte c = [x, y] ∧ hexValue x = some a ∧
    hexValue y = some b ∧ UInt8.ofNat (16 * a + b) = c := by
  have h := forall_byte (p := fun c =>
    (hexValue ((hexByte c).getD 0 0)).bind (fun a => (hexValue ((hexByte c).getD 1 0)).map
      fun b => UInt8.ofNat (16 * a + b)) = some c) (by decide) c
  rw [Option.bind_eq_some_iff] at h
  obtain ⟨a, ha, h⟩ := h
  rw [Option.map_eq_some_iff] at h
  obtain ⟨b, hb, hc⟩ := h
  exact ⟨_, _, a, b, rfl, ha, hb, hc⟩

@[simp] theorem hexByte_length (c : UInt8) : (hexByte c).length = 2 := rfl

@[simp] theorem hexencode_length (h : Bytes) : (hexencode h).length = 2 * h.length := by
  unfold hexencode
  induction h with
  | nil => rfl
  | cons c h ih => rw [List.flatMap_cons, List.length_append, ih, hexByte_length, List.length_cons]; omega

/-- The digits of a hash stand for themselves in encoded text. -/
theorem hexByte_plain (c d : UInt8) (hd : d ∈ hexByte c) : Plain d := by
  obtain ⟨x, y, a, b, hxy, hx, hy, _⟩ := hexByte_spec c
  rw [hxy] at hd
  rcases List.mem_cons.mp hd with rfl | hd
  · exact hexValue_plain hx
  · rw [List.mem_singleton.mp hd]
    exact hexValue_plain hy

theorem hexencode_plain (h : Bytes) : ∀ d ∈ hexencode h, Plain d := by
  intro d hd
  obtain ⟨c, _, hc⟩ := List.mem_flatMap.mp hd
  exact hexByte_plain c d hc

theorem hexdecodeLoop_hexencode : ∀ h : Bytes, hexdecodeLoop (hexencode h) = .ok h
  | [] => rfl
  | c :: h => by
    obtain ⟨x, y, a, b, hxy, hx, hy, hc⟩ := hexByte_spec c
    have ih := hexdecodeLoop_hexencode h
    rw [hexencode] at ih
    rw [hexencode, List.flatMap_cons, hxy]
    change hexdecodeLoop (x :: y :: (h.flatMap hexByte)) = _
    rw [hexdecodeLoop, hexdigit_eq, hexdigit_eq, hx, hy, ih, ← hc, Nat.mul_comm]
    rfl

theorem hexdecode_hexencode (h : Bytes) : hexdecode (hexencode h) = .ok h := by
  rw [hexdecode, hexencode_length, if_neg (by omega), hexdecodeLoop_hexencode]

@[simp] theorem hexencode_hash_length (h : Hash) : (hexencode h.bytes).length = 40 := by
  rw [hexencode_length, h.size]; rfl

/-- **`hashdecode` recovers a hash from its digits.** -/
theorem hashdecode_hexencode (h : Hash) : hashdecode (hexencode h.bytes) = .ok h := by
  unfold hashdecode
  rw [dif_neg (by rw [hexencode_hash_length]; simp)]
  split
  · next e he => rw [hexdecode_hexencode] at he; cases he
  · next s hs =>
    rw [hexdecode_hexencode] at hs
    cases hs
    rfl

/-! ### What is accepted -/

theorem hexdigit_isOk_iff (c : UInt8) : (∃ n, hexdigit c = .ok n) ↔ (hexValue c).isSome := by
  rw [hexdigit_eq]
  cases hexValue c with
  | none => simp
  | some n => exact iff_of_true ⟨n, rfl⟩ rfl

theorem hexdecodeLoop_isOk_iff : ∀ {hex : Bytes}, hex.length % 2 = 0 →
    ((∃ bytes, hexdecodeLoop hex = .ok bytes) ↔ ∀ c ∈ hex, (hexValue c).isSome)
  | [], _ => iff_of_true ⟨[], rfl⟩ (by simp)
  | [_], h => by simp at h
  | x :: y :: rest, h => by
    have hrest : rest.length % 2 = 0 := by
      simp only [List.length_cons] at h
      omega
    have ih := hexdecodeLoop_isOk_iff hrest
    rw [List.forall_mem_cons, List.forall_mem_cons, ← ih, ← hexdigit_isOk_iff, ← hexdigit_isOk_iff,
      hexdecodeLoop]
    cases hexdigit x with
    | error e => simp [bind, Except.bind]
    | ok a =>
      cases hexdigit y with
      | error e => simp [bind, Except.bind]
      | ok b =>
        cases hexdecodeLoop rest with
        | error e => simp [bind, Except.bind]
        | ok bytes => simp [bind, Except.bind, pure, Except.pure]

/-- **A hash is 40 hexadecimal digits.** -/
theorem hashdecode_isOk_iff (s : Bytes) :
    (∃ h, hashdecode s = .ok h) ↔ s.length = 40 ∧ ∀ c ∈ s, (hexValue c).isSome := by
  unfold hashdecode
  split
  · rename_i hlen
    simp [hlen]
  · rename_i hlen
    have hlen : s.length = 40 := not_not.mp hlen
    have hdecode : hexdecode s = hexdecodeLoop s := by rw [hexdecode, if_neg (by rw [hlen]; decide)]
    rw [← hexdecodeLoop_isOk_iff (by rw [hlen]), ← hdecode]
    split
    · rename_i e he
      simp [he]
    · rename_i bytes hb
      exact iff_of_true ⟨_, rfl⟩ ⟨hlen, bytes, hb⟩

/-- A byte that is not accepted makes `hexdecode` throw `BadHexDigit`. -/
theorem hexdecodeLoop_error : ∀ {hex : Bytes} {e : Exn}, hexdecodeLoop hex = .error e →
    e = .badHexDigit
  | [], _, h => by cases h
  | [_], _, h => by cases h
  | x :: y :: rest, e, h => by
    have hdigit : ∀ {c : UInt8} {e : Exn}, hexdigit c = .error e → e = .badHexDigit := by
      intro c e he
      rw [hexdigit_eq] at he
      cases hc : hexValue c with
      | none =>
        rw [hc] at he
        exact (Except.error.inj he).symm
      | some a =>
        rw [hc] at he
        cases he
    rw [hexdecodeLoop] at h
    cases hx : hexdigit x with
    | error e' =>
      simp only [hx, bind, Except.bind, Except.error.injEq] at h
      rw [← h, hdigit hx]
    | ok a =>
      cases hy : hexdigit y with
      | error e' =>
        simp only [hx, hy, bind, Except.bind, Except.error.injEq] at h
        rw [← h, hdigit hy]
      | ok b =>
        cases hrest : hexdecodeLoop rest with
        | error e' =>
          simp only [hx, hy, hrest, bind, Except.bind, Except.error.injEq] at h
          rw [← h, hexdecodeLoop_error hrest]
        | ok bytes => simp [hx, hy, hrest, bind, Except.bind, pure, Except.pure] at h

/-- What is thrown for a text that is not a hash. -/
theorem hashdecode_error {s : Bytes} {e : Exn} (h : hashdecode s = .error e) :
    e = .badHex s ∨ e = .badHexDigit := by
  unfold hashdecode at h
  split at h
  · exact .inl (Except.error.inj h).symm
  · rename_i hlen
    have hlen : s.length = 40 := not_not.mp hlen
    split at h
    · rename_i e' he
      obtain rfl := Except.error.inj h
      rw [hexdecode, if_neg (by rw [hlen]; decide)] at he
      exact .inr (hexdecodeLoop_error he)
    · cases h

/-! ### Lower case -/

/-- `A` to `Z` become `a` to `z`. -/
def toLower (c : UInt8) : UInt8 := if 65 ≤ c ∧ c ≤ 90 then c + 32 else c

theorem hexValue_lt {c : UInt8} {a : Nat} (h : hexValue c = some a) : a < 16 := by
  have hc := forall_byte (p := fun c => ∀ a ∈ hexValue c, a < 16) (by decide) c
  exact hc a h

theorem hexdigits_getD {c : UInt8} {a : Nat} (h : hexValue c = some a) :
    hexdigits.getD a 0 = toLower c := by
  have hc := forall_byte (p := fun c => ∀ a ∈ hexValue c, hexdigits.getD a 0 = toLower c)
    (by decide) c
  exact hc a h

/-- The byte that two digits stand for is written with the same digits, in lower case. -/
theorem hexByte_of_digits {x y : UInt8} {a b : Nat} (hx : hexValue x = some a)
    (hy : hexValue y = some b) : hexByte (UInt8.ofNat (a * 16 + b)) = [toLower x, toLower y] := by
  have hpairs : ∀ a b : Fin 16, (UInt8.ofNat (a.val * 16 + b.val) >>> 4).toNat = a.val ∧
      (UInt8.ofNat (a.val * 16 + b.val) &&& 0x0F).toNat = b.val := by decide
  obtain ⟨hhigh, hlow⟩ := hpairs ⟨a, hexValue_lt hx⟩ ⟨b, hexValue_lt hy⟩
  rw [← hexdigits_getD hx, ← hexdigits_getD hy, hexByte, hhigh, hlow]

theorem hexencode_of_hexdecodeLoop : ∀ {hex bytes : Bytes}, hex.length % 2 = 0 →
    hexdecodeLoop hex = .ok bytes → hexencode bytes = hex.map toLower
  | [], bytes, _, h => by
    obtain rfl := Except.ok.inj h
    rfl
  | [_], _, hlen, _ => by simp at hlen
  | x :: y :: rest, bytes, hlen, h => by
    have hrest : rest.length % 2 = 0 := by
      simp only [List.length_cons] at hlen
      omega
    rw [hexdecodeLoop, hexdigit_eq, hexdigit_eq] at h
    cases hx : hexValue x with
    | none => simp [hx, bind, Except.bind] at h
    | some a =>
      cases hy : hexValue y with
      | none => simp [hx, hy, bind, Except.bind] at h
      | some b =>
        cases hr : hexdecodeLoop rest with
        | error e => simp [hx, hy, hr, bind, Except.bind] at h
        | ok bs =>
          simp only [hx, hy, hr, Option.elim, bind, Except.bind, pure, Except.pure,
            Except.ok.injEq] at h
          have ih := hexencode_of_hexdecodeLoop hrest hr
          unfold hexencode at ih ⊢
          rw [← h, List.flatMap_cons, ih, hexByte_of_digits hx hy]
          rfl

/-- **The digits of a hash are written in lower case**, however they were read. -/
theorem hexencode_hashdecode {s : Bytes} {h : Hash} (hs : hashdecode s = .ok h) :
    hexencode h.bytes = s.map toLower := by
  unfold hashdecode at hs
  split at hs
  · cases hs
  · rename_i hlen
    have hlen : s.length = 40 := not_not.mp hlen
    split at hs
    · cases hs
    · rename_i bytes hb
      obtain rfl := Except.ok.inj hs
      rw [hexdecode, if_neg (by rw [hlen]; decide)] at hb
      exact hexencode_of_hexdecodeLoop (by rw [hlen]) hb

/-! ### Paths in the repository -/

/-- `%02x` writes what `hexencode` does. -/
theorem hex02_eq : hex02 = hexByte :=
  funext (forall_byte (p := fun c => hex02 c = hexByte c) (by decide +kernel))

theorem hashpath_eq (h : Hash) : ∃ x y : UInt8, hashpath h =
    (hexByte x ++ lit "/" ++ (hexByte y ++ lit "/")) ++ hexencode h.bytes := by
  obtain ⟨bytes, hsize⟩ := h
  obtain ⟨x, y, rest, rfl⟩ : ∃ x y rest, bytes = x :: y :: rest := by
    match bytes, hsize with
    | x :: y :: rest, _ => exact ⟨x, y, rest, rfl⟩
  exact ⟨x, y, by rw [hashpath, hex02_eq]; simp [hexencode]⟩

theorem hashpath_length (h : Hash) : (hashpath h).length = 46 := by
  obtain ⟨x, y, hp⟩ := hashpath_eq h
  rw [hp, List.length_append, hexencode_hash_length]
  rfl

/-- **Different hashes have different paths.** -/
theorem hashpath_injective {h h' : Hash} (e : hashpath h = hashpath h') : h = h' := by
  obtain ⟨x, y, hp⟩ := hashpath_eq h
  obtain ⟨x', y', hp'⟩ := hashpath_eq h'
  rw [hp, hp'] at e
  have := (List.append_inj e rfl).2
  have hd := hashdecode_hexencode h
  rw [this, hashdecode_hexencode h'] at hd
  exact (Except.ok.inj hd).symm

end Hbackup
