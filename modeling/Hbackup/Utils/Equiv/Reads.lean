import Hbackup.Utils.Reads
import Hbackup.Utils.Equiv.Grammar

/-!
# Escapes that are cut off

The check of an escape is against the caller's `end`, which the last value of a line does not have.
A key or a value in the middle is decoded without a look behind its end, and a `BadHex` if an escape
is cut off there; the last value is so exactly if no escape is cut off in it (`staysInside_iff`).
-/

namespace Hbackup

open FormCoding Separated

/-! ### What `urldecode` looks at -/

/-- Looking changes nothing. -/
theorem urldecodeLooks_snd (s : Bytes) (end_ : Option Nat) (limit : Nat) :
    ∀ (turns n : Nat) (r : Bytes),
      (urldecodeLooks s end_ limit turns n r).2 = urldecodeLoop s end_ limit turns n r := by
  intro turns
  induction turns with
  | zero => exact fun _ _ => rfl
  | succ turns ih =>
    intro n r
    rw [urldecodeLooks, urldecodeLoop]
    by_cases hn : n < limit
    · rw [if_pos hn, if_pos hn]
      by_cases h43 : byteAt s n = 43
      · rw [if_pos h43, if_pos h43]
        exact ih _ _
      rw [if_neg h43, if_neg h43]
      by_cases h37 : byteAt s n = 37
      · rw [if_pos h37, if_pos h37]
        split
        · cases hexdigit (byteAt s (n + 1)) with
          | error e => rfl
          | ok a =>
            cases hexdigit (byteAt s (n + 2)) with
            | error e => rfl
            | ok b => exact ih _ _
        · rfl
      · rw [if_neg h37, if_neg h37]
        exact ih _ _
    · rw [if_neg hn, if_neg hn]

/-- An escape is cut off by the end of the text, and nothing before it is wrong. -/
def CutOff (t : Bytes) : Prop :=
  ∃ u, EscapesWhole u ∧ (t = u ++ [37] ∨ ∃ x, t = u ++ [37, x])

theorem CutOff.cons {c : UInt8} {t : Bytes} (hc : c ≠ 37) (h : CutOff t) : CutOff (c :: t) := by
  obtain ⟨u, hu, ht⟩ := h
  refine ⟨c :: u, (escapesWhole_cons hc u).mpr hu, ?_⟩
  rcases ht with rfl | ⟨x, rfl⟩
  · exact .inl rfl
  · exact .inr ⟨x, rfl⟩

theorem CutOff.escape {x y : UInt8} {t : Bytes} (hx : (hexValue x).isSome) (hy : (hexValue y).isSome)
    (h : CutOff t) : CutOff (37 :: x :: y :: t) := by
  obtain ⟨u, hu, ht⟩ := h
  refine ⟨37 :: x :: y :: u, (escapesWhole_escape _).mpr ⟨x, y, u, rfl, hx, hy, hu⟩, ?_⟩
  rcases ht with rfl | ⟨z, rfl⟩
  · exact .inl rfl
  · exact .inr ⟨z, rfl⟩

/-- Whole escapes are decoded, whatever follows them. -/
theorem decodePart_append (last : Bool) (t : Bytes) : ∀ {u : Bytes}, EscapesWhole u →
    ∃ s, decodePart last (u ++ t) = (s ++ ·) <$> decodePart last t
  | [], _ => by
    refine ⟨[], ?_⟩
    rw [List.nil_append]
    cases decodePart last t <;> rfl
  | c :: u, h => by
    by_cases h37 : c = 37
    · subst h37
      obtain ⟨x, y, w, rfl, hx, hy, hw⟩ := (escapesWhole_escape u).mp h
      obtain ⟨s, hs⟩ := decodePart_append last t hw
      obtain ⟨a, ha⟩ := Option.isSome_iff_exists.mp hx
      obtain ⟨b, hb⟩ := Option.isSome_iff_exists.mp hy
      refine ⟨UInt8.ofNat (16 * a + b) :: s, ?_⟩
      rw [List.cons_append, List.cons_append, List.cons_append, decodePart_escape, hexdigit_eq,
        hexdigit_eq, ha, hb, hs]
      cases decodePart last t <;> rfl
    · obtain ⟨s, hs⟩ := decodePart_append last t ((escapesWhole_cons h37 u).mp h)
      rw [List.cons_append]
      by_cases h43 : c = 43
      · subst h43
        refine ⟨32 :: s, ?_⟩
        rw [decodePart_plus, hs]
        cases decodePart last t <;> rfl
      · refine ⟨c :: s, ?_⟩
        rw [decodePart_plain last _ h43 h37, hs]
        cases decodePart last t <;> rfl

/-- **An escape that is cut off** is reported as bad hex, but by its digit in a last value. -/
theorem decodePart_of_cutOff (last : Bool) {t : Bytes} (h : CutOff t) :
    ∃ m, decodePart last t = .error (if last then .badHexDigit else .badHex m) := by
  obtain ⟨u, hu, rfl | ⟨x, rfl⟩⟩ := h
  · obtain ⟨s, hs⟩ := decodePart_append last [37] hu
    exact ⟨[37], by rw [hs]; rfl⟩
  · obtain ⟨s, hs⟩ := decodePart_append last [37, x] hu
    exact ⟨[37, x], by rw [hs]; rfl⟩

theorem part_nil_of_le (s : Bytes) {n limit : Nat} (h : limit ≤ n) :
    (s.drop n).take (limit - n) = [] := by
  rw [Nat.sub_eq_zero_of_le h, List.take_zero]

/-- **What is looked at lies in the part**, unless the last value is cut off in an escape. -/
theorem urldecodeLooks_inside (s : Bytes) (end_ : Option Nat) (limit : Nat) (hl : limit ≤ s.length)
    (hend : end_ = some limit ∨ (end_ = none ∧ limit = s.length)) :
    ∀ (turns n : Nat) (r : Bytes), ∀ p ∈ (urldecodeLooks s end_ limit turns n r).1,
      n ≤ p ∧ (p < limit ∨ end_ = none ∧ CutOff ((s.drop n).take (limit - n))) := by
  intro turns
  induction turns with
  | zero => exact fun _ _ p hp => absurd hp List.not_mem_nil
  | succ turns ih =>
    intro n r p hp
    rw [urldecodeLooks] at hp
    by_cases hn : n < limit
    swap
    · rw [if_neg hn] at hp
      exact absurd hp List.not_mem_nil
    rw [if_pos hn] at hp
    rw [part_cons s hn hl]
    by_cases h43 : byteAt s n = 43
    · rw [if_pos h43] at hp
      rcases List.mem_append.mp hp with hp | hp
      · rw [List.mem_singleton.mp hp]
        exact ⟨le_rfl, .inl hn⟩
      · obtain ⟨hle, hin⟩ := ih (n + 1) _ p hp
        exact ⟨by omega, hin.imp_right fun h => ⟨h.1, h.2.cons (by rw [h43]; decide)⟩⟩
    rw [if_neg h43] at hp
    by_cases h37 : byteAt s n = 37
    swap
    · rw [if_neg h37] at hp
      rcases List.mem_append.mp hp with hp | hp
      · rw [List.mem_singleton.mp hp]
        exact ⟨le_rfl, .inl hn⟩
      · obtain ⟨hle, hin⟩ := ih (n + 1) _ p hp
        exact ⟨by omega, hin.imp_right fun h => ⟨h.1, h.2.cons h37⟩⟩
    rw [if_pos h37] at hp
    by_cases hfit : n + 2 < limit
    · -- the escape is whole, if its digits are
      have hall : end_.all (fun e => n + 2 < e) = true := by
        rcases hend with rfl | ⟨rfl, -⟩ <;> simp [hfit]
      rw [if_pos hall] at hp
      rw [part_cons s (show n + 1 < limit by omega) hl, part_cons s (show n + 1 + 1 < limit by omega) hl]
      rw [hexdigit_eq, hexdigit_eq] at hp
      cases hx : hexValue (byteAt s (n + 1)) with
      | none =>
        have hp : p ∈ [n, n + 1] := by
          rw [hx] at hp
          exact hp
        simp only [List.mem_cons, List.not_mem_nil, or_false] at hp
        omega
      | some a =>
        cases hy : hexValue (byteAt s (n + 2)) with
        | none =>
          have hp : p ∈ [n, n + 1, n + 2] := by
            rw [hx, hy] at hp
            exact hp
          simp only [List.mem_cons, List.not_mem_nil, or_false] at hp
          omega
        | some b =>
          simp only [hx, hy] at hp
          rcases List.mem_append.mp hp with hp | hp
          · simp only [List.mem_cons, List.not_mem_nil, or_false] at hp
            omega
          · obtain ⟨hle, hin⟩ := ih (n + 3) _ p hp
            refine ⟨by omega, hin.imp_right fun h => ⟨h.1, ?_⟩⟩
            rw [h37]
            exact h.2.escape (by rw [hx]; rfl) (by rw [hy]; rfl)
    · -- it is cut off
      have hcut : CutOff (byteAt s n :: (s.drop (n + 1)).take (limit - (n + 1))) := by
        rw [h37]
        refine ⟨[], escapesWhole_nil, ?_⟩
        by_cases h1 : n + 1 < limit
        · rw [part_cons s h1 hl, part_nil_of_le s (by omega)]
          exact .inr ⟨_, rfl⟩
        · rw [part_nil_of_le s (by omega)]
          exact .inl rfl
      rcases hend with rfl | ⟨rfl, rfl⟩
      · rw [if_neg (by simpa using hfit)] at hp
        obtain ⟨hle, hlt⟩ := List.mem_range'_1.mp hp
        exact ⟨hle, .inl (by omega)⟩
      · refine ⟨?_, .inr ⟨rfl, hcut⟩⟩
        rw [if_pos (by simp)] at hp
        have hnul : hexdigit (byteAt s (n + 2)) = .error .badHexDigit := by
          rw [byteAt_of_le s (by omega)]
          rfl
        rw [hnul] at hp
        cases hdigit : hexdigit (byteAt s (n + 1)) with
        | error e =>
          have hp : p ∈ [n, n + 1] := by
            rw [hdigit] at hp
            exact hp
          simp only [List.mem_cons, List.not_mem_nil, or_false] at hp
          omega
        | ok a =>
          have hp : p ∈ [n, n + 1, n + 2] := by
            rw [hdigit] at hp
            exact hp
          simp only [List.mem_cons, List.not_mem_nil, or_false] at hp
          omega

/-! ### The calls of `parseIndexLine` -/

/-- The call looks only at the part that it decodes, and an escape that is cut off by the end of the
part is a `BadHex`. -/
def DecodeCall.StaysInside (line : Bytes) (c : DecodeCall) : Prop :=
  (∀ p ∈ c.looks line, c.start ≤ p ∧ p < c.limit line) ∧
    (CutOff (c.part line) → ∃ m, urldecode line c.start c.end_ = .error (.badHex m))

/-- The last value among `parts` is `v`, and it is decoded: no part before it is rejected.  Its own
key is decoded after it. -/
def LastDecoded (parts : List Bytes) (v : Bytes) : Prop :=
  ∃ init k, parts = init ++ [k ++ 61 :: v] ∧ 61 ∉ k ∧ ∀ part ∈ init, WellFormedPart part

theorem lastDecoded_cons {p : Bytes} {parts : List Bytes} (hne : parts ≠ []) (v : Bytes) :
    LastDecoded (p :: parts) v ↔ WellFormedPart p ∧ LastDecoded parts v := by
  constructor
  · rintro ⟨init, k, hsplit, hk, hinit⟩
    cases init with
    | nil => exact absurd (List.cons.inj hsplit).2 hne
    | cons q init =>
      obtain ⟨rfl, hparts⟩ := List.cons.inj hsplit
      obtain ⟨hp, hinit⟩ := List.forall_mem_cons.mp hinit
      exact ⟨hp, init, k, hparts, hk, hinit⟩
  · rintro ⟨hp, init, k, rfl, hk, hinit⟩
    exact ⟨p :: init, k, rfl, hk, List.forall_mem_cons.mpr ⟨hp, hinit⟩⟩

theorem cut_unique {k v k' v' : Bytes} (hk : 61 ∉ k) (hk' : 61 ∉ k')
    (h : k ++ 61 :: v = k' ++ 61 :: v') : k = k' ∧ v = v' := by
  have hcut := cutAt_append hk v
  rw [h, cutAt_append hk'] at hcut
  cases hcut
  exact ⟨rfl, rfl⟩

theorem wellFormedPart_iff {k : Bytes} (hk : 61 ∉ k) (v : Bytes) :
    WellFormedPart (k ++ 61 :: v) ↔ EscapesWhole k ∧ EscapesWhole v := by
  constructor
  · rintro ⟨k', v', h, hk', hwk, hwv⟩
    obtain ⟨rfl, rfl⟩ := cut_unique hk hk' h
    exact ⟨hwk, hwv⟩
  · rintro ⟨hwk, hwv⟩
    exact ⟨k, v, rfl, hk, hwk, hwv⟩

/-- The calls for the last part. -/
theorem decodeCallsLoop_last {line k v : Bytes} {pos : Nat} (turns : Nat)
    (hline : line.drop pos = k ++ 61 :: v) (h61 : find line 61 pos = some (pos + k.length))
    (h38 : find line 38 pos = none) :
    decodeCallsLoop line (turns + 1) pos =
      ⟨pos + k.length + 1, none⟩ ::
        if (decode v).isSome then [⟨pos, some (pos + k.length)⟩] else [] := by
  have hvalue : urldecode line (pos + k.length + 1) none = decodePart true v := by
    have hline' : line.drop pos = (k ++ [61]) ++ v := by rw [hline]; simp
    have := urldecode_end hline'
    rwa [List.length_append] at this
  rw [decodeCallsLoop, h61, h38]
  simp only [Option.any_none, Bool.false_eq_true, if_false, hvalue]
  rcases decodePart_cases true v with ⟨s, hs, hok⟩ | ⟨hnot, e, he, -⟩
  · rw [hok, hs]
    cases urldecode line pos (some (pos + k.length)) <;> rfl
  · rw [he, if_neg (by rwa [decode_isSome_iff])]

/-- The calls for a part in the middle, and those for the parts behind it. -/
theorem decodeCallsLoop_middle {line k v rest : Bytes} {pos : Nat} (turns : Nat)
    (hpos : pos ≤ line.length) (hline : line.drop pos = k ++ 61 :: (v ++ 38 :: rest))
    (h61 : find line 61 pos = some (pos + k.length))
    (h38 : find line 38 pos = some (pos + (k ++ 61 :: v).length)) :
    decodeCallsLoop line (turns + 1) pos =
      ⟨pos + k.length + 1, some (pos + (k ++ 61 :: v).length)⟩ ::
        if (decode v).isSome then
          ⟨pos, some (pos + k.length)⟩ ::
            if (decode k).isSome then
              decodeCallsLoop line turns (pos + (k ++ 61 :: v).length + 1)
            else []
        else [] := by
  have hkey : urldecode line pos (some (pos + k.length)) = decodePart false k :=
    urldecode_stretch (a := []) (b := 61 :: (v ++ 38 :: rest)) hpos (by rw [hline]; simp)
  have hvalue : urldecode line (pos + k.length + 1) (some (pos + (k ++ 61 :: v).length)) =
      decodePart false v := by
    have hline' : line.drop pos = (k ++ [61]) ++ v ++ 38 :: rest := by rw [hline]; simp
    have := urldecode_stretch hpos hline'
    simp only [List.length_append, List.length_cons, List.length_nil] at this ⊢
    rwa [show pos + (k.length + (v.length + 1)) = pos + (k.length + (0 + 1)) + v.length by omega]
  rw [decodeCallsLoop, h61, h38]
  simp only [Option.any_some]
  rw [if_neg (by simp), hvalue]
  rcases decodePart_cases false v with ⟨w, hw, hok⟩ | ⟨hnot, e, he, -⟩
  · rw [hok, hw, Option.isSome_some, if_pos rfl, hkey]
    rcases decodePart_cases false k with ⟨s, hs, hokk⟩ | ⟨hnotk, e, hek, -⟩
    · rw [hokk, hs]
      rfl
    · rw [hek, if_neg (by rwa [decode_isSome_iff])]
  · rw [he, if_neg (by rwa [decode_isSome_iff])]

/-- Only the last value is decoded without an end. -/
theorem decodeCallsLoop_spec (line : Bytes) : ∀ (turns pos : Nat), pos ≤ line.length →
    line.length - pos < turns →
      (∀ c ∈ decodeCallsLoop line turns pos, c.start ≤ c.limit line ∧ c.limit line ≤ line.length ∧
        (c.end_ = none → LastDecoded ((line.drop pos).splitOn 38) (line.drop c.start))) ∧
      ∀ v, LastDecoded ((line.drop pos).splitOn 38) v →
        ∃ c ∈ decodeCallsLoop line turns pos, c.end_ = none ∧ line.drop c.start = v := by
  intro turns
  induction turns with
  | zero => intro pos _ h; omega
  | succ turns ih =>
    intro pos hpos hturns
    rcases find_cases line pos with ⟨p, parts, hsplit, hp, hsep⟩ | ⟨k, v, hline, hk, hsplit, h61, h38⟩ |
      ⟨k, v, rest, hline, hk, hsplit, h61, h38⟩
    · -- the part is rejected before anything is decoded
      have hnone : ∀ v, ¬ LastDecoded (p :: parts) v := by
        rintro v ⟨init, k, h, -, hinit⟩
        cases init with
        | nil =>
          obtain ⟨rfl, -⟩ := List.cons.inj h
          exact hp (by simp)
        | cons q init =>
          obtain ⟨rfl, -⟩ := List.cons.inj h
          obtain ⟨⟨k', v', rfl, -⟩, -⟩ := List.forall_mem_cons.mp hinit
          exact hp (by simp)
      have hcalls : decodeCallsLoop line (turns + 1) pos = [] := by
        rw [decodeCallsLoop]
        cases h61 : find line 61 pos with
        | none => rfl
        | some sep =>
          have hany := hsep sep h61
          simp only [hany, if_true]
      rw [hcalls, hsplit]
      exact ⟨by simp, fun v hv => absurd hv (hnone v)⟩
    · -- the last part
      have hvalue : line.drop (pos + k.length + 1) = v := by
        have hline' : line.drop pos = (k ++ [61]) ++ v := by rw [hline]; simp
        have := drop_add_append hline'
        rwa [List.length_append] at this
      have hlength := congrArg List.length hline
      simp only [List.length_drop, List.length_append, List.length_cons] at hlength
      rw [hsplit, decodeCallsLoop_last turns hline h61 h38]
      constructor
      · intro c hc
        rcases List.mem_cons.mp hc with rfl | hc
        · refine ⟨show pos + k.length + 1 ≤ line.length by omega, le_rfl, fun _ => ?_⟩
          rw [hvalue]
          exact ⟨[], k, rfl, hk, by simp⟩
        · -- the key of the last part, decoded once its value is accepted
          split at hc
          · rw [List.mem_singleton.mp hc]
            exact ⟨show pos ≤ pos + k.length by omega, show pos + k.length ≤ line.length by omega,
              fun h => by cases h⟩
          · exact absurd hc List.not_mem_nil
      · rintro w ⟨init, k₂, h, hk₂, -⟩
        cases init with
        | cons q init => simp at h
        | nil =>
          obtain ⟨rfl, rfl⟩ := cut_unique hk hk₂ (List.cons.inj h).1
          exact ⟨⟨pos + k.length + 1, none⟩, List.mem_cons_self, rfl, hvalue⟩
    · -- a part in the middle
      have hnext : line.drop (pos + (k ++ 61 :: v).length + 1) = rest := by
        have hline' : line.drop pos = (k ++ 61 :: v ++ [38]) ++ rest := by rw [hline]; simp
        have := drop_add_append hline'
        rwa [List.length_append] at this
      have hlength := congrArg List.length hline
      simp only [List.length_drop, List.length_append, List.length_cons] at hlength
      have hlen : (k ++ 61 :: v).length = k.length + (v.length + 1) := by simp
      obtain ⟨ih₁, ih₂⟩ := ih (pos + (k ++ 61 :: v).length + 1) (by omega) (by omega)
      rw [hnext] at ih₁ ih₂
      rw [hsplit, decodeCallsLoop_middle turns hpos hline h61 h38]
      constructor
      · intro c hc
        rcases List.mem_cons.mp hc with rfl | hc
        · exact ⟨show pos + k.length + 1 ≤ pos + (k ++ 61 :: v).length by omega,
            show pos + (k ++ 61 :: v).length ≤ line.length by omega, fun h => by cases h⟩
        split at hc
        swap
        · exact absurd hc List.not_mem_nil
        rename_i hdv
        rcases List.mem_cons.mp hc with rfl | hc
        · exact ⟨show pos ≤ pos + k.length by omega, show pos + k.length ≤ line.length by omega,
            fun h => by cases h⟩
        split at hc
        swap
        · exact absurd hc List.not_mem_nil
        rename_i hdk
        obtain ⟨hle, hle', hlast⟩ := ih₁ c hc
        refine ⟨hle, hle', fun hend => (lastDecoded_cons (by simp) _).mpr ⟨?_, hlast hend⟩⟩
        exact (wellFormedPart_iff hk v).mpr ⟨(decode_isSome_iff k).mp hdk, (decode_isSome_iff v).mp hdv⟩
      · intro w hw
        obtain ⟨hpart, hlast⟩ := (lastDecoded_cons (by simp) w).mp hw
        obtain ⟨hwk, hwv⟩ := (wellFormedPart_iff hk v).mp hpart
        rw [if_pos ((decode_isSome_iff v).mpr hwv), if_pos ((decode_isSome_iff k).mpr hwk)]
        obtain ⟨c, hc, hend, hdrop⟩ := ih₂ w hlast
        exact ⟨c, List.mem_cons_of_mem _ (List.mem_cons_of_mem _ hc), hend, hdrop⟩

/-- **Decoding stays inside exactly if the last value is not cut off in an escape**, or a part
before it is rejected. -/
theorem staysInside_iff (line : Bytes) :
    (∀ c ∈ decodeCalls line, c.StaysInside line) ↔
      ∀ v, LastDecoded (line.splitOn 38) v → ¬ CutOff v := by
  obtain ⟨hcalls, hlast⟩ := decodeCallsLoop_spec line (line.length + 1) 0 (Nat.zero_le _) (by omega)
  rw [List.drop_zero] at hcalls hlast
  constructor
  · intro h v hv hcut
    obtain ⟨c, hc, hend, hdrop⟩ := hlast v hv
    have hpart : c.part line = v := by
      rw [DecodeCall.part, DecodeCall.limit, hend, hdrop, Option.getD_none, List.take_of_length_le]
      rw [← hdrop, List.length_drop]
    -- the exception is the one for a bad digit
    obtain ⟨m, hm⟩ := (h c hc).2 (hpart.symm ▸ hcut)
    obtain ⟨m', hm'⟩ := decodePart_of_cutOff true hcut
    rw [urldecode_eq_decodePart _ _ _ (by simp [hend])] at hm
    have hpart' : (line.drop c.start).take (c.end_.getD line.length - c.start) = v := hpart
    rw [hpart', hend] at hm
    rw [Option.isNone_none, hm'] at hm
    cases hm
  · intro h c hc
    obtain ⟨hle, hle', hnone⟩ := hcalls c hc
    have hend : c.end_ = some (c.limit line) ∨ (c.end_ = none ∧ c.limit line = line.length) := by
      cases he : c.end_ with
      | none => exact .inr ⟨rfl, by rw [DecodeCall.limit, he]; rfl⟩
      | some e => exact .inl (by rw [DecodeCall.limit, he]; rfl)
    have hwhole : c.end_ = none → ¬ CutOff (c.part line) := by
      intro he
      have hpart : c.part line = line.drop c.start := by
        rw [DecodeCall.part, DecodeCall.limit, he, Option.getD_none, List.take_of_length_le]
        rw [List.length_drop]
      rw [hpart]
      exact h _ (hnone he)
    refine ⟨fun p hp => ?_, fun hcut => ?_⟩
    · obtain ⟨hstart, hin⟩ := urldecodeLooks_inside line c.end_ (c.limit line) hle' hend _ _ _ p hp
      rcases hin with hlt | ⟨he, hcut⟩
      · exact ⟨hstart, hlt⟩
      · exact absurd hcut (hwhole he)
    · rcases hend with he | ⟨he, -⟩
      · obtain ⟨m, hm⟩ := decodePart_of_cutOff false hcut
        refine ⟨m, ?_⟩
        rw [urldecode_eq_decodePart _ _ _ (by rw [he]; rintro e ⟨⟩; exact hle')]
        have hpart : (line.drop c.start).take (c.end_.getD line.length - c.start) = c.part line := rfl
        rw [hpart, he, Option.isNone_some, hm]
        rfl
      · exact absurd hcut (hwhole he)

/-- In `a=%` the byte behind the line is looked at. -/
theorem not_staysInside : ¬ ∀ line, ∀ c ∈ decodeCalls line, c.StaysInside line := by
  intro h
  have hlook : 3 ∈ DecodeCall.looks (lit "a=%") ⟨2, none⟩ := by decide
  have hcalls : decodeCalls (lit "a=%") = [⟨2, none⟩] := rfl
  exact absurd ((h (lit "a=%") ⟨2, none⟩ (by rw [hcalls]; simp)).1 3 hlook).2 (by decide)

end Hbackup
