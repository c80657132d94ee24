import Hbackup.Utils.IndexLine
import Hbackup.Utils.Equiv.UrlEncode
import Hbackup.Lib.Separated

/-!
# Correctness of `parseIndexLine`

`parseIndexLine` searches positions of one long string; `parseIndexLine_eq` turns it into
`parseParts`, a recursion over the `&`-separated parts of the line, each cut at its first `=`.

A line made of encoded keys and values is read back as the fields it was made of
(`parseIndexLine_of_fields`).  A line cut off in the middle of its last part is rejected, or read as
the whole parts and a cut-off value (`parseIndexLine_truncated`).
-/

namespace Hbackup

open FormCoding Separated

/-! ### Parts of a line -/

/-- One `key=value` part; `last` says that it is the last one of `line`. -/
def parsePart (line : Bytes) (last : Bool) (part : Bytes) : Except Exn (Bytes × Bytes) :=
  match cutAt 61 part with
  | none => .error (.badIndexFile line)
  | some (k, v) => do
    let v' ← decodePart last v
    let k' ← decodePart false k
    return (k', v')

/-- `parseIndexLine` over the parts of the line. -/
def parseParts (line : Bytes) : List Bytes → Details → Except Exn Details
  | [], l => .ok l
  | part :: parts, l => do
    let kv ← parsePart line parts.isEmpty part
    parseParts line parts (l.insert kv.1 kv.2)

theorem find_eq (s : Bytes) (c : UInt8) (pos : Nat) :
    find s c pos = (cutAt c (s.drop pos)).map fun p => pos + p.1.length := by
  unfold find cutAt
  cases h : (s.drop pos).idxOf? c with
  | none => rfl
  | some i =>
    have hi : i < (s.drop pos).length := (List.idxOf?_eq_some_iff.mp h).1
    simp only [Option.map_some, List.length_take, Nat.min_eq_left (Nat.le_of_lt hi)]

/-- A position behind `pos`, as a position in the rest of the line. -/
theorem drop_add_append {s a b : Bytes} {pos : Nat} (h : s.drop pos = a ++ b) :
    s.drop (pos + a.length) = b := by
  rw [← List.drop_drop, h, List.drop_left]

/-- **One turn of the loop**: its two searches find the first part's `=` and its end. -/
theorem find_cases (line : Bytes) (pos : Nat) :
    (∃ p parts, (line.drop pos).splitOn 38 = p :: parts ∧ 61 ∉ p ∧
      ∀ sep ∈ find line 61 pos, (find line 38 pos).any (fun n => n < sep)) ∨
    (∃ k v, line.drop pos = k ++ 61 :: v ∧ 61 ∉ k ∧ (line.drop pos).splitOn 38 = [k ++ 61 :: v] ∧
      find line 61 pos = some (pos + k.length) ∧ find line 38 pos = none) ∨
    (∃ k v rest, line.drop pos = k ++ 61 :: (v ++ 38 :: rest) ∧ 61 ∉ k ∧
      (line.drop pos).splitOn 38 = (k ++ 61 :: v) :: rest.splitOn 38 ∧
      find line 61 pos = some (pos + k.length) ∧
      find line 38 pos = some (pos + (k ++ 61 :: v).length)) := by
  rw [find_eq, find_eq]
  cases hamp : cutAt 38 (line.drop pos) with
  | none =>
    rw [splitOn_of_cutAt_none hamp]
    cases heq : cutAt 61 (line.drop pos) with
    | none => exact .inl ⟨_, [], rfl, cutAt_eq_none_iff.mp heq, by simp⟩
    | some kv =>
      obtain ⟨hk, hkv⟩ := cutAt_eq_some_iff.mp heq
      exact .inr (.inl ⟨kv.1, kv.2, hkv, hk, by rw [hkv], rfl, rfl⟩)
  | some pr =>
    obtain ⟨part, rest⟩ := pr
    obtain ⟨-, hrest⟩ := cutAt_eq_some_iff.mp hamp
    rw [splitOn_of_cutAt hamp]
    cases heq : cutAt 61 part with
    | none =>
      -- the first `=`, if there is one, lies behind the `&`
      have hnot : 61 ∉ part := cutAt_eq_none_iff.mp heq
      refine .inl ⟨part, rest.splitOn 38, rfl, hnot, fun sep hsep => ?_⟩
      obtain ⟨kv, hkv, rfl⟩ := Option.map_eq_some_iff.mp hsep
      obtain ⟨hk, hkv⟩ := cutAt_eq_some_iff.mp hkv
      have hlen : part.length < kv.1.length := by
        by_contra hle
        have hget := congrArg (fun l => l[kv.1.length]?) (hrest.symm.trans hkv)
        simp only [List.getElem?_append_right le_rfl, Nat.sub_self, List.getElem?_cons_zero] at hget
        rcases Nat.lt_or_ge kv.1.length part.length with hlt | hge
        · rw [List.getElem?_append_left hlt] at hget
          exact hnot (List.mem_of_getElem? hget)
        · have hsame : kv.1.length = part.length := by omega
          rw [hsame, List.getElem?_append_right le_rfl, Nat.sub_self] at hget
          simp at hget
      simpa using hlen
    | some kv =>
      obtain ⟨k, v⟩ := kv
      obtain ⟨hk, rfl⟩ := cutAt_eq_some_iff.mp heq
      have hline : line.drop pos = k ++ 61 :: (v ++ 38 :: rest) := by rw [hrest]; simp
      have hcut : cutAt 61 (line.drop pos) = some (k, v ++ 38 :: rest) := by
        rw [cutAt_eq_some_iff]; exact ⟨hk, hline⟩
      exact .inr (.inr ⟨k, v, rest, hline, hk, rfl, by rw [hcut]; rfl, rfl⟩)

/-- A stretch of the line is decoded on its own. -/
theorem urldecode_stretch {line a t b : Bytes} {pos : Nat} (hpos : pos ≤ line.length)
    (h : line.drop pos = a ++ t ++ b) :
    urldecode line (pos + a.length) (some (pos + a.length + t.length)) = decodePart false t := by
  have hlen := congrArg List.length h
  rw [List.length_drop, List.length_append, List.length_append] at hlen
  rw [urldecode_eq_decodePart _ _ _ (by rintro e ⟨⟩; omega),
    drop_add_append (b := t ++ b) (by rw [h, List.append_assoc])]
  simp

/-- So is the end of the line. -/
theorem urldecode_end {line a t : Bytes} {pos : Nat} (h : line.drop pos = a ++ t) :
    urldecode line (pos + a.length) none = decodePart true t := by
  have hdrop := drop_add_append h
  rw [urldecode_eq_decodePart _ _ _ (by simp), hdrop, List.take_of_length_le]
  · rfl
  · rw [← hdrop, List.length_drop]
    simp

theorem parseIndexLoop_eq (line : Bytes) : ∀ (turns pos : Nat) (l : Details),
    pos ≤ line.length → line.length - pos < turns →
      parseIndexLoop line turns pos l = parseParts line ((line.drop pos).splitOn 38) l := by
  intro turns
  induction turns with
  | zero => intro pos l _ h; omega
  | succ turns ih =>
    intro pos l hpos hturns
    rw [parseIndexLoop]
    rcases find_cases line pos with ⟨p, parts, hsplit, hp, hsep⟩ | ⟨k, v, hline, hk, hsplit, h61, h38⟩ |
      ⟨k, v, rest, hline, hk, hsplit, h61, h38⟩
    -- a part without a separator is rejected
    · rw [hsplit, parseParts, parsePart, cutAt_eq_none_iff.mpr hp]
      cases h61 : find line 61 pos with
      | none => rfl
      | some sep =>
        have hany := hsep sep h61
        simp only [hany, if_true]
        rfl
    -- the last part, whose value goes on to the end of the line
    · have hkey : urldecode line pos (some (pos + k.length)) = decodePart false k :=
        urldecode_stretch (a := []) (b := 61 :: v) hpos hline
      have hvalue : urldecode line (pos + k.length + 1) none = decodePart true v := by
        have hline' : line.drop pos = (k ++ [61]) ++ v := by rw [hline]; simp
        have := urldecode_end hline'
        rwa [List.length_append] at this
      rw [h61, h38, hsplit, parseParts, parsePart, cutAt_append hk]
      simp only [Option.any_none, Bool.false_eq_true, if_false, hkey, hvalue, List.isEmpty_nil,
        parseParts]
      cases decodePart true v <;> cases decodePart false k <;> rfl
    -- a part in the middle, and the rest of the line by induction
    · have hkey : urldecode line pos (some (pos + k.length)) = decodePart false k :=
        urldecode_stretch (a := []) (b := 61 :: (v ++ 38 :: rest)) hpos (by rw [hline]; simp)
      have hvalue : urldecode line (pos + k.length + 1) (some (pos + (k ++ 61 :: v).length)) =
          decodePart false v := by
        have hline' : line.drop pos = (k ++ [61]) ++ v ++ 38 :: rest := by rw [hline]; simp
        have := urldecode_stretch hpos hline'
        simp only [List.length_append, List.length_cons, List.length_nil] at this ⊢
        rwa [show pos + (k.length + (v.length + 1)) = pos + (k.length + (0 + 1)) + v.length by omega]
      have hnext : line.drop (pos + (k ++ 61 :: v).length + 1) = rest := by
        have hline' : line.drop pos = (k ++ 61 :: v ++ [38]) ++ rest := by rw [hline]; simp
        have := drop_add_append hline'
        rwa [List.length_append] at this
      have hlength := congrArg List.length hline
      simp only [List.length_drop, List.length_append, List.length_cons] at hlength
      have hne : (rest.splitOn 38).isEmpty = false := by simp
      rw [h61, h38, hsplit, parseParts, parsePart, cutAt_append hk, hne]
      simp only [Option.any_some]
      rw [if_neg (by simp), hkey, hvalue]
      cases decodePart false v with
      | error e => rfl
      | ok v' =>
        cases decodePart false k with
        | error e => rfl
        | ok k' =>
          simp only [bind, Except.bind, pure, Except.pure]
          rw [ih _ _ (by simp; omega) (by simp; omega), hnext]

/-- **`parseIndexLine` reads the parts of the line one after the other.** -/
theorem parseIndexLine_eq (line : Bytes) :
    parseIndexLine line = parseParts line (line.splitOn 38) Details.empty := by
  rw [parseIndexLine, parseIndexLoop_eq line _ _ _ (Nat.zero_le _) (by omega), List.drop_zero]

/-! ### Lines of encoded fields -/

/-- `text` is an encoding of the field `kv`. -/
def EncodesField (text : Bytes) (kv : Bytes × Bytes) : Prop :=
  ∃ k v, text = k ++ 61 :: v ∧ Encodes k kv.1 ∧ Encodes v kv.2

theorem EncodesField.amp_not_mem {text : Bytes} {kv : Bytes × Bytes} (h : EncodesField text kv) :
    38 ∉ text := by
  obtain ⟨k, v, rfl, hk, hv⟩ := h
  have h1 := hk.separator_not_mem (c := 38) (by decide)
  have h2 := hv.separator_not_mem (c := 38) (by decide)
  simp [h1, h2]

theorem EncodesField.newline_not_mem {text : Bytes} {kv : Bytes × Bytes}
    (h : EncodesField text kv) : 10 ∉ text := by
  obtain ⟨k, v, rfl, hk, hv⟩ := h
  have h1 := hk.separator_not_mem (c := 10) (by decide)
  have h2 := hv.separator_not_mem (c := 10) (by decide)
  simp [h1, h2]

theorem parsePart_of_encodesField (line : Bytes) (last : Bool) {text : Bytes} {kv : Bytes × Bytes}
    (h : EncodesField text kv) : parsePart line last text = .ok kv := by
  obtain ⟨k, v, rfl, hk, hv⟩ := h
  have hsep := hk.separator_not_mem (c := 61) (by decide)
  rw [parsePart, cutAt_append hsep]
  simp [bind, Except.bind, pure, Except.pure, decodePart_of_encodes _ hk,
    decodePart_of_encodes _ hv]

/-- Whole parts are read one by one; what follows them is read into the map they leave. -/
theorem parseParts_append (line : Bytes) {parts : List Bytes} {fields : List (Bytes × Bytes)}
    (h : List.Forall₂ EncodesField parts fields) (rest : List Bytes) (l : Details) :
    parseParts line (parts ++ rest) l =
      parseParts line rest (fields.foldl (fun l kv => l.insert kv.1 kv.2) l) := by
  induction h generalizing l with
  | nil => rfl
  | cons hp _ ih =>
    rw [List.cons_append, parseParts, parsePart_of_encodesField line _ hp]
    exact ih _

theorem amp_not_mem_parts {parts : List Bytes} {fields : List (Bytes × Bytes)}
    (h : List.Forall₂ EncodesField parts fields) : ∀ p ∈ parts, 38 ∉ p := by
  induction h with
  | nil => simp
  | cons hp _ ih => simpa [hp.amp_not_mem] using ih

/-- **A line of encoded fields is read back as these fields.** -/
theorem parseIndexLine_of_fields {parts : List Bytes} {fields : List (Bytes × Bytes)}
    (hne : parts ≠ []) (h : List.Forall₂ EncodesField parts fields) :
    parseIndexLine (([38] : Bytes).intercalate parts) = .ok (Details.ofList fields) := by
  have hamp := amp_not_mem_parts h
  have happ := parseParts_append (([38] : Bytes).intercalate parts) h [] Details.empty
  rw [List.append_nil] at happ
  rw [parseIndexLine_eq, List.splitOn_intercalate _ hamp hne, happ]
  rfl

/-! ### Lines as `urlencode` writes them -/

/-- `urlencode(k)=urlencode(v)`. -/
def encodedField (kv : Bytes × Bytes) : Bytes := urlencode kv.1 ++ 61 :: urlencode kv.2

/-- The fields, joined by `&`. -/
def encodedLine (kvs : List (Bytes × Bytes)) : Bytes :=
  ([38] : Bytes).intercalate (kvs.map encodedField)

theorem encodedField_encodes (kv : Bytes × Bytes) : EncodesField (encodedField kv) kv :=
  ⟨urlencode kv.1, urlencode kv.2, rfl, urlencode_encodes kv.1, urlencode_encodes kv.2⟩

theorem encodedFields_encode (kvs : List (Bytes × Bytes)) :
    List.Forall₂ EncodesField (kvs.map encodedField) kvs := by
  induction kvs with
  | nil => exact .nil
  | cons kv kvs ih => exact .cons (encodedField_encodes kv) ih

/-- A byte that is neither in the parts nor `&` is not in the line. -/
theorem not_mem_intercalate {c : UInt8} (hamp : c ≠ 38) {parts : List Bytes}
    (h : ∀ p ∈ parts, c ∉ p) : c ∉ ([38] : Bytes).intercalate parts := by
  induction parts with
  | nil => simp
  | cons p parts ih =>
    have hp : c ∉ p := h p List.mem_cons_self
    have htail := ih fun q hq => h q (List.mem_cons_of_mem p hq)
    cases parts with
    | nil => rwa [List.intercalate_singleton]
    | cons q parts =>
      rw [List.intercalate_cons_cons]
      simp only [List.mem_append, List.mem_singleton, not_or]
      exact ⟨⟨hp, hamp⟩, htail⟩

theorem separator_not_mem_encodedLine (kvs : List (Bytes × Bytes)) {c : UInt8}
    (hc : c ∈ separators) (hamp : c ≠ 38) (heq : c ≠ 61) : c ∉ encodedLine kvs := by
  apply not_mem_intercalate hamp
  intro p hp
  obtain ⟨kv, -, rfl⟩ := List.mem_map.mp hp
  have hkey := (urlencode_encodes kv.1).separator_not_mem hc
  have hvalue := (urlencode_encodes kv.2).separator_not_mem hc
  simp [encodedField, hkey, hvalue, heq]

/-- The part `[start, end)` of a line, where `end` may be left out if nothing follows. -/
theorem urldecode_urlencode_part (s pre post : Bytes) (end_ : Option Nat)
    (hend : end_ = some (pre.length + (urlencode s).length) ∨ end_ = none ∧ post = []) :
    urldecode (pre ++ urlencode s ++ post) pre.length end_ = .ok s := by
  have hbound : ∀ e ∈ end_, e ≤ (pre ++ urlencode s ++ post).length := by
    rcases hend with rfl | ⟨rfl, -⟩
    · rintro e ⟨⟩
      simp only [List.length_append]
      omega
    · simp
  have hpart : ((pre ++ urlencode s ++ post).drop pre.length).take
      (end_.getD (pre ++ urlencode s ++ post).length - pre.length) = urlencode s := by
    rw [List.append_assoc, List.drop_left]
    rcases hend with rfl | ⟨rfl, rfl⟩
    · rw [Option.getD_some, Nat.add_sub_cancel_left, List.take_left]
    · rw [List.append_nil, Option.getD_none, List.length_append, Nat.add_sub_cancel_left,
        List.take_length]
  rw [urldecode_eq_decodePart _ _ _ hbound, hpart]
  exact decodePart_of_encodes _ (urlencode_encodes s)

/-- The map of pairs with distinct keys holds these pairs. -/
theorem ofList_eq_some_iff {kvs : List (Bytes × Bytes)} (hnd : (kvs.map Prod.fst).Nodup)
    (k v : Bytes) : Details.ofList kvs k = some v ↔ (k, v) ∈ kvs := by
  rw [Details.ofList_apply kvs k hnd, List.lookup_eq_some_iff]
  constructor
  · rintro ⟨pre, post, rfl, -⟩
    simp
  · intro hm
    obtain ⟨pre, post, rfl⟩ := List.append_of_mem hm
    refine ⟨pre, post, rfl, fun p hp => ?_⟩
    rw [List.map_append, List.map_cons, List.nodup_append] at hnd
    have hne : p.1 ≠ k := hnd.2.2 p.1 (List.mem_map_of_mem hp) k List.mem_cons_self
    simpa using Ne.symm hne

/-- **Round trip of an index line.**  What `urlencode` writes has neither a newline nor a NUL,
`parseIndexLine` reads exactly the pairs back, and every string is decoded again wherever it stands
in a line. -/
theorem parseIndexLine_encodedLine (kvs : List (Bytes × Bytes)) (hne : kvs ≠ [])
    (hnd : (kvs.map Prod.fst).Nodup) :
    10 ∉ encodedLine kvs ∧ 0 ∉ encodedLine kvs ∧
      (∃ l, parseIndexLine (encodedLine kvs) = .ok l ∧ ∀ k v, l k = some v ↔ (k, v) ∈ kvs) ∧
      ∀ s pre post : Bytes,
        urldecode (urlencode s) 0 none = .ok s ∧
        urldecode (pre ++ urlencode s) pre.length none = .ok s ∧
        urldecode (pre ++ urlencode s ++ post) pre.length
          (some (pre.length + (urlencode s).length)) = .ok s := by
  refine ⟨separator_not_mem_encodedLine kvs (by decide) (by decide) (by decide),
    separator_not_mem_encodedLine kvs (by decide) (by decide) (by decide),
    ⟨Details.ofList kvs, ?_, ?_⟩, ?_⟩
  · exact parseIndexLine_of_fields (by simpa using hne) (encodedFields_encode kvs)
  · intro k v
    exact ofList_eq_some_iff hnd k v
  · intro s pre post
    refine ⟨?_, ?_, ?_⟩
    · have h := urldecode_urlencode_part s [] [] none (.inr ⟨rfl, rfl⟩)
      simpa using h
    · have h := urldecode_urlencode_part s pre [] none (.inr ⟨rfl, rfl⟩)
      simpa using h
    · exact urldecode_urlencode_part s pre post _ (.inl rfl)

/-- Two fields full of special bytes. -/
theorem parseIndexLine_two :
    ∃ l, parseIndexLine (encodedLine [([0, 10, 37, 38], [61, 59, 43, 32, 255]), ([], [])]) = .ok l ∧
      ∀ k v, l k = some v ↔ (k, v) ∈ [([0, 10, 37, 38], [61, 59, 43, 32, 255]), ([], [])] :=
  (parseIndexLine_encodedLine _ (by decide) (by decide)).2.2.1

/-! ### Truncated lines -/

/-- The value that a line cut off inside its last part ends in, if the part has a `=`. -/
def lastValue (line : Bytes) : Option Bytes :=
  (cutAt 61 ((line.splitOn 38).getLastD [])).map Prod.snd

/-- A part of the line, cut off. -/
theorem parsePart_truncated (line : Bytes) {text frag : Bytes} {kv : Bytes × Bytes}
    (h : EncodesField text kv) (hf : frag <+: text) :
    ((∃ e, parsePart line true frag = .error e) ∧
      ∀ v ∈ (cutAt 61 frag).map Prod.snd, EndsInEscape v) ∨
    (∃ v s, (cutAt 61 frag).map Prod.snd = some v ∧ ¬ EndsInEscape v ∧
      parsePart line true frag = .ok (kv.1, s) ∧ s.length ≤ kv.2.length ∧
      (frag ≠ text → s.length < kv.2.length)) := by
  obtain ⟨k, v, rfl, hk, hv⟩ := h
  have hsep := hk.separator_not_mem (c := 61) (by decide)
  have cutInKey : 61 ∉ frag → (∃ e, parsePart line true frag = .error e) ∧
      ∀ v ∈ (cutAt 61 frag).map Prod.snd, EndsInEscape v := by
    intro hno
    rw [parsePart, cutAt_eq_none_iff.mpr hno]
    exact ⟨⟨_, rfl⟩, by simp⟩
  rcases prefix_append_cases hf with hkey | ⟨q, rfl, hq⟩
  · exact .inl (cutInKey fun hm => hsep (hkey.mem hm))
  cases q with
  | nil => exact .inl (cutInKey (by simpa using hsep))
  | cons c v' =>
    obtain ⟨rfl, hv'⟩ := List.cons_prefix_cons.mp hq
    have hcut : cutAt 61 (k ++ 61 :: v') = some (k, v') := cutAt_append hsep v'
    rw [parsePart, hcut]
    rcases decode_prefix hv hv' with ⟨hesc, hdec⟩ | ⟨hesc, s, hs, hle, hlt⟩
    · obtain ⟨e, he⟩ := (decodePart_eq_error_iff true v').mpr hdec
      refine .inl ⟨⟨e, ?_⟩, by simpa using hesc⟩
      simp [bind, Except.bind, he]
    · refine .inr ⟨v', s, rfl, hesc, ?_, hle, fun hne => hlt fun e => hne (by rw [e])⟩
      simp [bind, Except.bind, pure, Except.pure, decodePart_of_encodes _ hk,
        decodePart_of_encodes _ hs]

/-- **A line of encoded fields that is cut off** is rejected exactly if it has no `=` in its last
part or ends inside an escape; otherwise it is read as the whole parts before the cut, and the cut
part's key with a value that is shorter if anything of it is missing. -/
theorem parseIndexLine_truncated {parts : List Bytes} {fields : List (Bytes × Bytes)}
    (hne : parts ≠ []) (h : List.Forall₂ EncodesField parts fields) {q : Bytes}
    (hq : q <+: ([38] : Bytes).intercalate parts) :
    ((∃ e, parseIndexLine q = .error e) ∧ ∀ v ∈ lastValue q, EndsInEscape v) ∨
    (∃ v, lastValue q = some v ∧ ¬ EndsInEscape v ∧
      ∃ pre kv post s, fields = pre ++ kv :: post ∧
        parseIndexLine q = .ok (Details.ofList (pre ++ [(kv.1, s)])) ∧ s.length ≤ kv.2.length ∧
        (q ≠ ([38] : Bytes).intercalate parts → post ≠ [] ∨ s.length < kv.2.length)) := by
  obtain ⟨pre, part, post, frag, rfl, rfl, hf⟩ := prefix_intercalate hne hq
  -- the fields of the parts before the cut, of the part cut, and of the parts behind it
  obtain ⟨fpre, frest, rfl, hpre, hrest⟩ :
      ∃ fpre frest, fields = fpre ++ frest ∧ List.Forall₂ EncodesField pre fpre ∧
        List.Forall₂ EncodesField (part :: post) frest := by
    have h1 := List.forall₂_take pre.length h
    have h2 := List.forall₂_drop pre.length h
    rw [List.take_left] at h1
    rw [List.drop_left] at h2
    exact ⟨_, _, (List.take_append_drop pre.length fields).symm, h1, h2⟩
  obtain ⟨kv, fpost, hkv, hpost, rfl⟩ := List.forall₂_cons_left_iff.mp hrest
  have hamp : ∀ p ∈ pre ++ [frag], 38 ∉ p := by
    intro p hp
    rcases List.mem_append.mp hp with hp | hp
    · exact amp_not_mem_parts hpre p hp
    · rw [List.mem_singleton.mp hp]
      exact fun hm => hkv.amp_not_mem (hf.mem hm)
  have hsplit : (([38] : Bytes).intercalate (pre ++ [frag])).splitOn 38 = pre ++ [frag] :=
    List.splitOn_intercalate _ hamp (by simp)
  have hlast : lastValue (([38] : Bytes).intercalate (pre ++ [frag])) =
      (cutAt 61 frag).map Prod.snd := by
    rw [lastValue, hsplit]
    simp
  rw [hlast, parseIndexLine_eq, hsplit, parseParts_append _ hpre]
  simp only [parseParts, List.isEmpty_nil]
  rcases parsePart_truncated (([38] : Bytes).intercalate (pre ++ [frag])) hkv hf with ⟨⟨e, he⟩, hesc⟩ | ⟨v, s, hv, hesc, hok, hle, hlt⟩
  · refine .inl ⟨⟨e, ?_⟩, hesc⟩
    rw [he]; rfl
  · refine .inr ⟨v, hv, hesc, fpre, kv, fpost, s, rfl, ?_, hle, fun hcut => ?_⟩
    · rw [hok, Details.ofList, List.foldl_append]
      rfl
    · by_cases hfrag : frag = part
      · left
        rintro rfl
        obtain rfl := List.forall₂_nil_right_iff.mp hpost
        exact hcut (by rw [hfrag])
      · exact .inr (hlt hfrag)

end Hbackup
