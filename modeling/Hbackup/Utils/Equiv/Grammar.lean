import Hbackup.Utils.Equiv.IndexLine

/-!
# The grammar of index lines

`parseIndexLine` accepts the lines whose `&`-separated parts all have a `=`, with whole escapes on
both sides of the first, and nothing else (`parseIndexLine_grammar`).
-/

namespace Hbackup

open FormCoding Separated

/-- `key=value`, with whole escapes. -/
def WellFormedPart (part : Bytes) : Prop :=
  ∃ k v, part = k ++ 61 :: v ∧ 61 ∉ k ∧ EscapesWhole k ∧ EscapesWhole v

/-- Every part of the line is well formed. -/
def Grammatical (line : Bytes) : Prop := ∀ part ∈ line.splitOn 38, WellFormedPart part

/-- `kv` is what the part says. -/
def Says (part : Bytes) (kv : Bytes × Bytes) : Prop :=
  ∃ k v, part = k ++ 61 :: v ∧ 61 ∉ k ∧ decode k = some kv.1 ∧ decode v = some kv.2

/-- The exceptions that parsing ends in. -/
def ParseError (line : Bytes) (e : Exn) : Prop :=
  e = .badIndexFile line ∨ (∃ s, e = .badHex s) ∨ e = .badHexDigit

/-- A part that is decoded, or the error. -/
theorem decodePart_cases (last : Bool) (t : Bytes) :
    (∃ s, decode t = some s ∧ decodePart last t = .ok s) ∨
      (¬ EscapesWhole t ∧ ∃ e, decodePart last t = .error e ∧
        (e = .badHexDigit ∨ ∃ m, e = .badHex m)) := by
  cases h : decode t with
  | some s => exact .inl ⟨s, rfl, (decodePart_eq_decode last t).1 s h⟩
  | none =>
    refine .inr ⟨fun hw => ?_, (decodePart_eq_decode last t).2 h⟩
    rw [← decode_isSome_iff, h] at hw
    cases hw

/-- **One part.** -/
theorem parsePart_cases (line : Bytes) (last : Bool) (part : Bytes) :
    (∃ kv, WellFormedPart part ∧ Says part kv ∧ parsePart line last part = .ok kv) ∨
      (¬ WellFormedPart part ∧ ∃ e, parsePart line last part = .error e ∧ ParseError line e) := by
  rw [parsePart]
  cases hcut : cutAt 61 part with
  | none =>
    have hno : 61 ∉ part := cutAt_eq_none_iff.mp hcut
    refine .inr ⟨?_, _, rfl, .inl rfl⟩
    rintro ⟨k, v, rfl, -⟩
    exact hno (by simp)
  | some p =>
    obtain ⟨k, v⟩ := p
    obtain ⟨hk, rfl⟩ := cutAt_eq_some_iff.mp hcut
    have hunique : WellFormedPart (k ++ 61 :: v) → EscapesWhole k ∧ EscapesWhole v := by
      rintro ⟨k', v', hpart, hk', hwk, hwv⟩
      have hcut' : cutAt 61 (k ++ 61 :: v) = some (k', v') := cutAt_eq_some_iff.mpr ⟨hk', hpart⟩
      rw [cutAt_append hk] at hcut'
      cases hcut'
      exact ⟨hwk, hwv⟩
    have herror : ∀ {e : Exn}, (e = .badHexDigit ∨ ∃ m, e = .badHex m) → ParseError line e :=
      fun he => .inr he.symm
    -- the value is decoded first
    rcases decodePart_cases last v with ⟨s', hs', hdv⟩ | ⟨hnot, e, he, hbad⟩
    · rcases decodePart_cases false k with ⟨s, hs, hdk⟩ | ⟨hnot, e, he, hbad⟩
      · refine .inl ⟨(s, s'), ⟨k, v, rfl, hk, ?_, ?_⟩, ⟨k, v, rfl, hk, hs, hs'⟩, ?_⟩
        · rw [← decode_isSome_iff, hs]
          rfl
        · rw [← decode_isSome_iff, hs']
          rfl
        · simp [bind, Except.bind, hdk, hdv, pure, Except.pure]
      · refine .inr ⟨fun hw => hnot (hunique hw).1, e, ?_, herror hbad⟩
        simp [bind, Except.bind, hdv, he]
    · refine .inr ⟨fun hw => hnot (hunique hw).2, e, ?_, herror hbad⟩
      simp [bind, Except.bind, he]

/-- All parts, one after the other. -/
theorem parseParts_cases (line : Bytes) (parts : List Bytes) (l : Details) :
    (∃ kvs, (∀ part ∈ parts, WellFormedPart part) ∧ List.Forall₂ Says parts kvs ∧
      parseParts line parts l = .ok (kvs.foldl (fun l kv => l.insert kv.1 kv.2) l)) ∨
      (¬ (∀ part ∈ parts, WellFormedPart part) ∧
        ∃ e, parseParts line parts l = .error e ∧ ParseError line e) := by
  induction parts generalizing l with
  | nil => exact .inl ⟨[], by simp, .nil, rfl⟩
  | cons part parts ih =>
    rw [parseParts]
    rcases parsePart_cases line parts.isEmpty part with ⟨kv, hw, hsays, hok⟩ | ⟨hnot, e, he, herr⟩
    · rw [hok]
      rcases ih (l.insert kv.1 kv.2) with ⟨kvs, hall, hsays', hok'⟩ | ⟨hnot, e, he, herr⟩
      · exact .inl ⟨kv :: kvs, List.forall_mem_cons.mpr ⟨hw, hall⟩, .cons hsays hsays', hok'⟩
      · exact .inr ⟨fun hall => hnot (List.forall_mem_cons.mp hall).2, e, he, herr⟩
    · rw [he]
      exact .inr ⟨fun hall => hnot (List.forall_mem_cons.mp hall).1, e, rfl, herr⟩

/-- A map built by assignments holds the last value assigned to each key. -/
theorem ofList_eq_lookup_reverse (kvs : List (Bytes × Bytes)) (k : Bytes) :
    Details.ofList kvs k = kvs.reverse.lookup k := by
  have hfold : ∀ (l : Details), kvs.foldl (fun l kv => l.insert kv.1 kv.2) l k =
      (kvs.reverse.lookup k).or (l k) := by
    induction kvs with
    | nil => simp
    | cons kv kvs ih =>
      intro l
      rw [List.foldl_cons, ih, List.reverse_cons, List.lookup_append, List.lookup_cons]
      by_cases hk : k = kv.1
      · subst hk
        simp
      · have hb : (k == kv.1) = false := by simpa using hk
        simp [hb, Details.insert_of_ne _ _ hk]
  rw [Details.ofList, hfold]
  simp [Details.empty]

/-- **`parseIndexLine` accepts exactly its grammar.**  The map of an accepted line binds each decoded
key to the decoded value of its last occurrence, and any other line is a `BadIndexFile`, a `BadHex`
or a `BadHexDigit`. -/
theorem parseIndexLine_grammar (line : Bytes) :
    ((∃ l, parseIndexLine line = .ok l) ↔ Grammatical line) ∧
      (∀ l, parseIndexLine line = .ok l → ∃ kvs, List.Forall₂ Says (line.splitOn 38) kvs ∧
        ∀ k, l k = kvs.reverse.lookup k) ∧
      ∀ e, parseIndexLine line = .error e → ParseError line e := by
  rw [parseIndexLine_eq]
  rcases parseParts_cases line (line.splitOn 38) Details.empty with
    ⟨kvs, hall, hsays, hok⟩ | ⟨hnot, e, he, herr⟩
  · rw [hok]
    refine ⟨iff_of_true ⟨_, rfl⟩ hall, ?_, ?_⟩
    · rintro _ ⟨⟩
      exact ⟨kvs, hsays, ofList_eq_lookup_reverse kvs⟩
    · rintro _ ⟨⟩
  · rw [he]
    refine ⟨iff_of_false (by simp) hnot, ?_, ?_⟩
    · rintro _ ⟨⟩
    · rintro _ ⟨⟩
      exact herr

/-- The value of a key that occurs twice is the second. -/
example : (parseIndexLine (lit "a=1&b=%32&a=+")).toOption.map (fun l => [l (lit "a"), l (lit "b")]) =
    some [some (lit " "), some (lit "2")] := by decide

end Hbackup
