import Mathlib.Data.List.TakeWhile
import Hbackup.Utils.Number
import Hbackup.Utils.Equiv.UrlEncode

/-!
# Numbers are read back

What `printf` writes is digits, which need no escaping, and the C functions read it back as the
number that it was (`strtoull_decimal`, `strtol_octal`).
-/

namespace Hbackup

open FormCoding

/-! ### Digits -/

theorem digitChar_toNat {d : Nat} (hd : d < 10) :
    (UInt8.ofNat d.digitChar.toNat).toNat = 48 + d := by
  have h : ∀ d : Fin 10, (UInt8.ofNat (d.val).digitChar.toNat).toNat = 48 + d.val := by decide
  exact h ⟨d, hd⟩

/-- Every byte of a number is a digit below the base. -/
theorem mem_digits {b : Nat} (hb : 1 < b) (hb' : b ≤ 10) (n : Nat) :
    ∀ c ∈ digits b n, ∃ d < b, c.toNat = 48 + d := by
  induction n using Nat.strong_induction_on with
  | _ n ih =>
  intro c hc
  rw [digits, Nat.toDigits_eq_if hb] at hc
  have hdigit : ∀ d < b, c = UInt8.ofNat d.digitChar.toNat → ∃ d < b, c.toNat = 48 + d := by
    rintro d hd rfl
    exact ⟨d, hd, digitChar_toNat (by omega)⟩
  split_ifs at hc with hn
  · rw [List.map_singleton, List.mem_singleton] at hc
    exact hdigit n hn hc
  · rw [List.map_append, List.mem_append, List.map_singleton, List.mem_singleton] at hc
    rcases hc with hc | hc
    · exact ih (n / b) (Nat.div_lt_self (by omega) hb) c hc
    · exact hdigit (n % b) (Nat.mod_lt n (by omega)) hc

theorem isdigit_of_toNat {c : UInt8} {d : Nat} (hd : d < 10) (hc : c.toNat = 48 + d) :
    isdigit c = true := by
  rw [isdigit, decide_eq_true_eq]
  constructor <;> rw [UInt8.le_iff_toNat_le, hc] <;> simp only [UInt8.reduceToNat] <;> omega

/-- Reading the digits of a number gives the number. -/
theorem foldl_digits {b : Nat} (hb : 1 < b) (hb' : b ≤ 10) (n : Nat) :
    (digits b n).foldl (fun n c => b * n + (c.toNat - 48)) 0 = n := by
  have hchar : ∀ c ∈ Nat.toDigits b n, (UInt8.ofNat c.toNat).toNat = c.toNat := by
    intro c hc
    have h := Nat.isDigit_of_mem_toDigits (by omega) hb' hc
    have h' : c.toNat ≤ 57 := by
      simp only [Char.isDigit, Bool.and_eq_true, decide_eq_true_eq] at h
      exact h.2
    rw [UInt8.toNat_ofNat_of_lt' (by change _ < 256; omega)]
  have hvalue := Nat.ofDigitChars_toDigits (n := n) hb hb'
  rw [Nat.ofDigitChars_eq_foldl] at hvalue
  rw [digits, List.foldl_map]
  refine Eq.trans (List.foldl_ext _ _ _ fun m c hc => ?_) hvalue
  rw [hchar c hc]
  rfl

/-! ### The C functions -/

/-- What the C functions make of a digit: it is neither the end of the string, nor space, nor a sign. -/
theorem digit_spec {b : Nat} (hb' : b ≤ 10) {s : Bytes} (hs : ∀ c ∈ s, ∃ d < b, c.toNat = 48 + d) :
    ∀ c ∈ s, c ≠ 0 ∧ isspace c = false ∧ c ≠ 45 ∧ c ≠ 43 ∧ (isdigit c ∧ c.toNat - 48 < b) := by
  intro c hc
  obtain ⟨d, hd, hcd⟩ := hs c hc
  have hne : ∀ k : UInt8, k.toNat < 48 → c ≠ k := fun k hk e => by rw [e] at hcd; omega
  refine ⟨hne 0 (by decide), ?_, hne 45 (by decide), hne 43 (by decide),
    isdigit_of_toNat (by omega) hcd, by omega⟩
  rw [isspace, decide_eq_false_iff_not, not_or, not_and]
  refine ⟨hne 32 (by decide), fun _ hle => ?_⟩
  rw [UInt8.le_iff_toNat_le, hcd] at hle
  simp at hle
  omega

/-- Digits are taken as they are. -/
theorem takeWhile_digits {b : Nat} (hb' : b ≤ 10) {s : Bytes}
    (hs : ∀ c ∈ s, ∃ d < b, c.toNat = 48 + d) :
    cstr s = s ∧ s.takeWhile (fun c => decide (isdigit c ∧ c.toNat - 48 < b)) = s := by
  have hbyte := digit_spec hb' hs
  constructor
  · exact List.takeWhile_eq_self_iff.mpr fun c hc => by simpa using (hbyte c hc).1
  · exact List.takeWhile_eq_self_iff.mpr fun c hc => by simpa using (hbyte c hc).2.2.2.2

/-- The number at the start of a text of digits. -/
theorem strtonum_of_digits {b : Nat} (hb' : b ≤ 10) {s : Bytes}
    (hs : ∀ c ∈ s, ∃ d < b, c.toNat = 48 + d) :
    strtonum b s = (false, s.foldl (fun n c => b * n + (c.toNat - 48)) 0) := by
  have hbyte := digit_spec hb' hs
  obtain ⟨hcstr, htake⟩ := takeWhile_digits hb' hs
  have hspace : s.dropWhile isspace = s := by
    cases s with
    | nil => rfl
    | cons c s =>
      rw [List.dropWhile_cons_of_neg]
      rw [(hbyte c List.mem_cons_self).2.1]
      exact Bool.false_ne_true
  have hsign : takeSign s = (false, s) := by
    unfold takeSign
    split
    · exact absurd rfl (hbyte 45 List.mem_cons_self).2.2.1
    · exact absurd rfl (hbyte 43 List.mem_cons_self).2.2.2.1
    · rfl
  rw [strtonum, hcstr, hspace, hsign]
  simp only [htake]

/-- The number behind a minus sign. -/
theorem strtonum_minus {b : Nat} (hb' : b ≤ 10) {s : Bytes}
    (hs : ∀ c ∈ s, ∃ d < b, c.toNat = 48 + d) :
    strtonum b (lit "-" ++ s) = (true, s.foldl (fun n c => b * n + (c.toNat - 48)) 0) := by
  obtain ⟨hcstr, htake⟩ := takeWhile_digits hb' hs
  have hminus : cstr (lit "-" ++ s) = 45 :: s := by
    change (45 :: s).takeWhile _ = _
    rw [List.takeWhile_cons_of_pos (by decide)]
    exact congrArg (List.cons 45) hcstr
  have hspace : (45 :: s).dropWhile isspace = 45 :: s :=
    List.dropWhile_cons_of_neg (by decide)
  have hsign : takeSign (45 :: s) = (true, s) := rfl
  rw [strtonum, hminus, hspace, hsign]
  simp only [htake]

/-- **`strtoull` reads back what `%llu` wrote.** -/
theorem strtoull_decimal {n : Nat} (hn : n < 2 ^ 64) : strtoull (decimal n) = UInt64.ofNat n := by
  have h := strtonum_of_digits (b := 10) (Nat.le_refl _) (mem_digits (by decide) (Nat.le_refl _) n)
  rw [foldl_digits (by decide) (Nat.le_refl _)] at h
  rw [strtoull, decimal, h]
  simp only [Bool.false_eq_true, if_false]
  rw [if_neg (by omega)]

/-- **`strtol` reads back what `%0#o` wrote.** -/
theorem strtol_octal {n : Nat} (hn : n < 2 ^ 63) : strtol 8 (octal n) = Int64.ofNat n := by
  have hnum : strtonum 8 (octal n) = (false, n) := by
    unfold octal
    split_ifs with h0
    · rw [h0]
      decide
    · have hmem : ∀ c ∈ lit "0" ++ digits 8 n, ∃ d < 8, c.toNat = 48 + d := by
        intro c hc
        rcases List.mem_append.mp hc with hc | hc
        · rw [List.mem_singleton.mp hc]
          exact ⟨0, by decide, rfl⟩
        · exact mem_digits (by decide) (by decide) n c hc
      rw [strtonum_of_digits (by decide) hmem, List.foldl_append]
      exact congrArg (Prod.mk false) (foldl_digits (by decide) (by decide) n)
  rw [strtol, hnum]
  simp only [Bool.false_eq_true, if_false]
  rw [Int.min_eq_right (by omega)]
  rfl

/-- **`strtol` reads back what `%d` wrote.** -/
theorem strtol_signedDecimal {n : Int} (hmin : -2 ^ 63 ≤ n) (hmax : n < 2 ^ 63) :
    strtol 10 (signedDecimal n) = Int64.ofInt n := by
  have hmem := mem_digits (b := 10) (by decide) (by decide) n.natAbs
  have hvalue := foldl_digits (b := 10) (by decide) (by decide) n.natAbs
  by_cases hneg : n < 0
  · have hnum : strtonum 10 (lit "-" ++ decimal n.natAbs) = (true, n.natAbs) := by
      rw [decimal, strtonum_minus (by decide) hmem, hvalue]
    rw [signedDecimal, if_pos hneg, strtol, hnum]
    simp only [if_true]
    rw [Int.max_eq_right (by omega)]
    congr 1
    omega
  · have hnum : strtonum 10 (decimal n.natAbs) = (false, n.natAbs) := by
      rw [decimal, strtonum_of_digits (by decide) hmem, hvalue]
    rw [signedDecimal, if_neg hneg, strtol, hnum]
    simp only [Bool.false_eq_true, if_false]
    rw [Int.min_eq_right (by omega)]
    congr 1
    omega

/-- `strtol` reads back what `%lu` wrote, if it is no larger than a `long`. -/
theorem strtol_decimal {n : Nat} (hn : n < 2 ^ 63) : strtol 10 (decimal n) = Int64.ofInt n := by
  have hsigned : signedDecimal n = decimal n := by
    rw [signedDecimal, if_neg (by omega)]
    rfl
  rw [← hsigned]
  exact strtol_signedDecimal (by omega) (by omega)

/-- The bits of a `long`. -/
theorem toNat_toUInt64_ofInt (n : Int) : (Int64.ofInt n).toUInt64.toNat = (n % 2 ^ 64).toNat :=
  BitVec.toNat_ofInt n

theorem alldigits_decimal (n : Nat) : alldigits (decimal n) = true := by
  have hne : decimal n ≠ [] := by
    rw [decimal, digits, ne_eq, List.map_eq_nil_iff]
    exact Nat.toDigits_ne_nil
  rw [alldigits, Bool.and_eq_true, List.all_eq_true]
  constructor
  · simpa using hne
  · intro c hc
    obtain ⟨d, hd, hcd⟩ := mem_digits (by decide) (by decide) n c hc
    exact isdigit_of_toNat hd hcd

/-! ### Numbers need no escaping -/

/-- Bytes that `urlencode` leaves alone. -/
def Literal (s : Bytes) : Prop := ∀ c ∈ s, Plain c ∧ 32 < c ∧ c ≤ 126

instance (s : Bytes) : Decidable (Literal s) := List.decidableBAll _ s

theorem Literal.append {s t : Bytes} (hs : Literal s) (ht : Literal t) : Literal (s ++ t) :=
  fun c hc => (List.mem_append.mp hc).elim (hs c) (ht c)

theorem literal_digits {b : Nat} (hb : 1 < b) (hb' : b ≤ 10) (n : Nat) : Literal (digits b n) := by
  intro c hc
  obtain ⟨d, hd, hcd⟩ := mem_digits hb hb' n c hc
  have h := forall_byte (p := fun c => 48 ≤ c.toNat → c.toNat < 58 → Plain c ∧ 32 < c ∧ c ≤ 126)
    (by decide) c
  exact h (by omega) (by omega)

theorem literal_decimal (n : Nat) : Literal (decimal n) := literal_digits (by decide) (by decide) n

theorem literal_octal (n : Nat) : Literal (octal n) := by
  unfold octal
  split_ifs
  · decide
  · exact Literal.append (by decide) (literal_digits (by decide) (by decide) n)

theorem literal_hexencode (bytes : Bytes) : Literal (hexencode bytes) := by
  intro d hd
  obtain ⟨c, -, hc⟩ := List.mem_flatMap.mp hd
  exact forall_byte (p := fun c => Literal (hexByte c)) (by decide) c d hc

theorem literal_signedDecimal (n : Int) : Literal (signedDecimal n) := by
  unfold signedDecimal
  split_ifs
  · exact Literal.append (by decide) (literal_decimal _)
  · exact literal_decimal _

end Hbackup
