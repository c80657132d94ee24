import Hbackup.Script.Paths
import Hbackup.Utils.Equiv.Hex

/-!
# The paths of the two programs

The name of an object is the hash in hexadecimal digits, and so is its path in the repository, with the
first two pairs of digits as directories, for both programs (`names_and_hashes_correspond`).
-/

namespace Hbackup.Script

open FormCoding

/-! ### `os.path.join` -/

/-- A name is put behind a directory. -/
theorem join1_of_name {path b : Bytes} (hb : b.head? ≠ some 47) (hne : path ≠ [])
    (hpath : path.getLast? ≠ some 47) : join1 path b = path ++ lit "/" ++ b := by
  unfold join1
  rw [if_neg hb, if_neg (by simp [hne, hpath])]

theorem getLast?_join1 {path b : Bytes} (hb : b ≠ []) : (join1 path b).getLast? = b.getLast? := by
  unfold join1
  split_ifs
  · rfl
  · exact List.getLast?_append_of_ne_nil path hb
  · exact List.getLast?_append_of_ne_nil (path ++ lit "/") hb

theorem join1_ne_nil {path b : Bytes} (hb : b ≠ []) : join1 path b ≠ [] := by
  intro e
  have h : (join1 path b).getLast? = b.getLast? := getLast?_join1 hb
  rw [e, List.getLast?_nil, eq_comm, List.getLast?_eq_none_iff] at h
  exact hb h

/-! ### Digits in paths -/

/-- A digit is no `/`. -/
theorem hexdigits_ne_slash (n : Nat) : hexdigits.getD n 0 ≠ 47 := by
  have hdigits : ∀ i : Fin 16, hexdigits.getD i.val 0 ≠ 47 := by decide
  by_cases hn : n < 16
  · exact hdigits ⟨n, hn⟩
  · have hlen : hexdigits.length = 16 := by decide
    rw [List.getD_eq_getElem?_getD, List.getElem?_eq_none (by omega)]
    decide

theorem ne_slash_of_mem_hexByte {c d : UInt8} (h : d ∈ hexByte c) : d ≠ 47 := by
  rw [hexByte, List.mem_cons, List.mem_singleton] at h
  rcases h with rfl | rfl
  · exact hexdigits_ne_slash _
  · exact hexdigits_ne_slash _

theorem slash_not_mem_hexencode (bytes : Bytes) : 47 ∉ hexencode bytes := by
  intro hm
  obtain ⟨c, -, hc⟩ := List.mem_flatMap.mp hm
  exact ne_slash_of_mem_hexByte hc rfl

/-- The last component of the path of an object. -/
theorem splitOn_hashpath (h : Hash) : ∃ d d', (hashpath h).splitOn 47 = [d, d', hexencode h.bytes] := by
  obtain ⟨x, y, hpath⟩ := hashpath_eq h
  have hbyte : ∀ c, 47 ∉ hexByte c := fun c hm => ne_slash_of_mem_hexByte hm rfl
  refine ⟨hexByte x, hexByte y, ?_⟩
  rw [hpath, lit_slash, List.append_assoc, List.append_assoc, List.append_assoc]
  change (hexByte x ++ 47 :: (hexByte y ++ 47 :: hexencode h.bytes)).splitOn 47 = _
  rw [List.splitOn_append_cons_self_of_not_mem (hbyte x),
    List.splitOn_append_cons_self_of_not_mem (hbyte y),
    List.splitOn_eq_singleton (slash_not_mem_hexencode h.bytes)]

/-- **The path that the script builds** for a hash is that of `hashpath`, in the directory of the
hashes. -/
theorem hash_path_hexencode (repo : Bytes) (h : Hash) :
    (hash_path repo HASH_NAME (hexencode h.bytes)).2 =
      join repo [HASH_NAME] ++ lit "/" ++ hashpath h := by
  obtain ⟨bytes, hsize⟩ := h
  obtain ⟨x, y, rest, rfl⟩ : ∃ x y rest, bytes = x :: y :: rest := by
    match bytes, hsize with
    | x :: y :: rest, _ => exact ⟨x, y, rest, rfl⟩
  have hdigits : hexencode (x :: y :: rest) = hexByte x ++ (hexByte y ++ hexencode rest) := by
    rw [hexencode, List.flatMap_cons, List.flatMap_cons]
    rfl
  have hfirst : slice (hexencode (x :: y :: rest)) 0 2 = hexByte x := by
    rw [hdigits]
    rfl
  have hsecond : slice (hexencode (x :: y :: rest)) 2 4 = hexByte y := by
    rw [hdigits]
    rfl
  -- none of the parts begins or ends in a slash, so that they are joined by single ones
  have hhead : ∀ c, (hexByte c).head? ≠ some 47 := by
    intro c e
    exact ne_slash_of_mem_hexByte (List.mem_of_mem_head? e) rfl
  have hlast : ∀ (path : Bytes) (c : UInt8), (join1 path (hexByte c)).getLast? ≠ some 47 := by
    intro path c e
    rw [getLast?_join1 (by simp [hexByte])] at e
    exact ne_slash_of_mem_hexByte (List.mem_of_mem_getLast? e) rfl
  have hname : ∀ path : Bytes, (join1 path HASH_NAME).getLast? ≠ some 47 := by
    intro path e
    rw [getLast?_join1 (by decide)] at e
    exact absurd e (by decide)
  have hall : (hexencode (x :: y :: rest)).head? ≠ some 47 := by
    intro e
    exact slash_not_mem_hexencode _ (List.mem_of_mem_head? e)
  have hsome : ∀ c, hexByte c ≠ [] := fun c => by simp [hexByte]
  unfold hash_path join
  simp only [List.foldl_cons, List.foldl_nil, hfirst, hsecond]
  rw [join1_of_name hall (join1_ne_nil (hsome y)) (hlast _ y),
    join1_of_name (hhead y) (join1_ne_nil (hsome x)) (hlast _ x),
    join1_of_name (hhead x) (join1_ne_nil (by decide)) (hname repo)]
  simp [hashpath, hexencode, hex02_eq]

/-- **Names in the repository and hashes correspond one to one**, and both programs use the same
names. -/
theorem names_and_hashes_correspond (repo : Bytes) :
    (∀ h : Hash, hashdecode (hexencode h.bytes) = .ok h) ∧
    (∀ s, (∃ h, hashdecode s = .ok h) ↔ s.length = 40 ∧
      ∀ c ∈ s, 48 ≤ c ∧ c ≤ 57 ∨ 65 ≤ c ∧ c ≤ 70 ∨ 97 ≤ c ∧ c ≤ 102) ∧
    (∀ s e, hashdecode s = .error e → e = .badHex s ∨ e = .badHexDigit) ∧
    (∀ s h, hashdecode s = .ok h → hexencode h.bytes = s.map toLower) ∧
    (∀ h h', hashpath h = hashpath h' → h = h') ∧
    (∀ h, ∃ name, ((hashpath h).splitOn 47).getLast? = some name ∧ hashdecode name = .ok h) ∧
    ∀ h : Hash, (hash_path repo HASH_NAME (hexencode h.bytes)).2 =
      join repo [HASH_NAME] ++ lit "/" ++ hashpath h := by
  have hdigit : ∀ c : UInt8, (hexValue c).isSome ↔
      48 ≤ c ∧ c ≤ 57 ∨ 65 ≤ c ∧ c ≤ 70 ∨ 97 ≤ c ∧ c ≤ 102 := by
    intro c
    unfold hexValue
    split_ifs with h₁ h₂ h₃
    · simp [h₁]
    · simp [h₂]
    · simp [h₃]
    · simp [h₁, h₂, h₃]
  refine ⟨hashdecode_hexencode, fun s => ?_, fun s e => hashdecode_error,
    fun s h => hexencode_hashdecode, fun h h' => hashpath_injective, fun h => ?_,
    hash_path_hexencode repo⟩
  · rw [hashdecode_isOk_iff]
    exact and_congr_right fun _ => forall₂_congr fun c _ => hdigit c
  · obtain ⟨d, d', hsplit⟩ := splitOn_hashpath h
    exact ⟨_, by rw [hsplit]; rfl, hashdecode_hexencode h⟩

end Hbackup.Script
