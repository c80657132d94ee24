import Hbackup.Sftp.Packet
import Hbackup.Lib.ProgramLogic

/-!
# Packing and unpacking

What is packed is unpacked again, whatever stands before and after it.  The attributes of a file are
unpacked exactly if they have no extended pairs: the loop over these never ends but at the end of
the packet (`unpack_attrs_iff`).
-/

namespace Hbackup.Sftp

open Cursor ProgramLogic

/-! ### Packing appends -/

theorem pack_uint32_append (s : Bytes) (u : UInt32) : pack_uint32 s u = s ++ pack_uint32 [] u := by
  simp [pack_uint32, pack_uint8]

/-! ### Integers -/

/-- The four bytes of an integer make it up again. -/
theorem uint32_bytes (u : UInt32) :
    ((u >>> 24).toUInt8.toUInt32 <<< 24) + ((u >>> 16).toUInt8.toUInt32 <<< 16) +
      ((u >>> 8).toUInt8.toUInt32 <<< 8) + u.toUInt8.toUInt32 = u := by
  apply UInt32.toNat_inj.mp
  have hu := u.toNat_lt
  simp only [UInt32.toNat_add, UInt32.toNat_shiftLeft, UInt8.toNat_toUInt32, UInt32.toNat_toUInt8,
    UInt32.toNat_shiftRight, UInt32.reduceToNat, Nat.reduceMod, Nat.shiftRight_eq_div_pow,
    Nat.shiftLeft_eq, Nat.add_mod_mod, Nat.mod_add_mod]
  omega

/-- The eight bytes of an integer make it up again. -/
theorem uint64_bytes (u : UInt64) :
    ((u >>> 56).toUInt8.toUInt64 <<< 56) + ((u >>> 48).toUInt8.toUInt64 <<< 48) +
      ((u >>> 40).toUInt8.toUInt64 <<< 40) + ((u >>> 32).toUInt8.toUInt64 <<< 32) +
      ((u >>> 24).toUInt8.toUInt64 <<< 24) + ((u >>> 16).toUInt8.toUInt64 <<< 16) +
      ((u >>> 8).toUInt8.toUInt64 <<< 8) + u.toUInt8.toUInt64 = u := by
  apply UInt64.toNat_inj.mp
  have hu := u.toNat_lt
  simp only [UInt64.toNat_add, UInt64.toNat_shiftLeft, UInt8.toNat_toUInt64, UInt64.toNat_toUInt8,
    UInt64.toNat_shiftRight, UInt64.reduceToNat, Nat.reduceMod, Nat.shiftRight_eq_div_pow,
    Nat.shiftLeft_eq, Nat.add_mod_mod, Nat.mod_add_mod]
  omega

theorem unpack_uint8_eq (s : Bytes) (i : Nat) :
    unpack_uint8 s i = match s[i]? with
      | none => .error .out_of_range (i + 1)
      | some byte => .ok byte (i + 1) := by
  have hget : (get : Unpack Nat) i = .ok i i := rfl
  have hset : (set (i + 1) : Unpack PUnit) i = .ok ⟨⟩ (i + 1) := rfl
  rw [unpack_uint8, bind_of_ok hget, bind_of_ok hset]
  cases s[i]? <;> rfl

theorem decodes_uint8 (byte : UInt8) : Decodes unpack_uint8 [byte] byte := by
  intro before after
  have hget : (before ++ [byte] ++ after)[before.length]? = some byte := by simp
  rw [unpack_uint8_eq, hget, List.length_append]
  rfl

theorem decodes_uint32 (u : UInt32) : Decodes unpack_uint32 (pack_uint32 [] u) u := by
  have hbytes : pack_uint32 [] u = [(u >>> 24).toUInt8] ++ ([(u >>> 16).toUInt8] ++
      ([(u >>> 8).toUInt8] ++ ([u.toUInt8] ++ []))) := rfl
  rw [hbytes]
  refine (decodes_uint8 _).bind ?_
  refine (decodes_uint8 _).bind ?_
  refine (decodes_uint8 _).bind ?_
  refine (decodes_uint8 _).bind ?_
  rw [uint32_bytes]
  exact Decodes.pure u

theorem decodes_uint64 (u : UInt64) : Decodes unpack_uint64 (pack_uint64 [] u) u := by
  have hbytes : pack_uint64 [] u = [(u >>> 56).toUInt8] ++ ([(u >>> 48).toUInt8] ++
      ([(u >>> 40).toUInt8] ++ ([(u >>> 32).toUInt8] ++ ([(u >>> 24).toUInt8] ++
      ([(u >>> 16).toUInt8] ++ ([(u >>> 8).toUInt8] ++ ([u.toUInt8] ++ []))))))) := rfl
  rw [hbytes]
  refine (decodes_uint8 _).bind ?_
  refine (decodes_uint8 _).bind ?_
  refine (decodes_uint8 _).bind ?_
  refine (decodes_uint8 _).bind ?_
  refine (decodes_uint8 _).bind ?_
  refine (decodes_uint8 _).bind ?_
  refine (decodes_uint8 _).bind ?_
  refine (decodes_uint8 _).bind ?_
  rw [uint64_bytes]
  exact Decodes.pure u

/-- A string whose length fits its length word. -/
theorem decodes_string {t : Bytes} (ht : t.length < 2 ^ 32) :
    Decodes unpack_string (pack_string [] t) t := by
  have hlen : (UInt32.ofNat t.length).toNat = t.length := UInt32.toNat_ofNat_of_lt' ht
  refine (decodes_uint32 _).bind ?_
  intro before after
  rw [hlen]
  have hpos : before.length + t.length - t.length = before.length := Nat.add_sub_cancel _ _
  have hle : ¬ (before ++ t ++ after).length < before.length := by simp
  change (substring _ (before.length + t.length - t.length) _) (before.length + t.length) = _
  rw [hpos, substring, if_neg hle, List.append_assoc, List.drop_left, List.take_left,
    List.length_append]
  rfl

/-! ### Attributes -/

/-- The attributes that a server sends: those that `flags` announces, and for the others whatever
the memory holds. -/
structure AttrsBlock where
  flags : UInt32
  size : UInt64
  uid : UInt32
  gid : UInt32
  permissions : UInt32
  atime : UInt32
  mtime : UInt32
  extended : List (Bytes × Bytes)
  count_lt : extended.length < 2 ^ 32
  sizes_lt : ∀ kv ∈ extended, kv.1.length < 2 ^ 32 ∧ kv.2.length < 2 ^ 32

namespace AttrsBlock

/-- The flag is set. -/
def Has (a : AttrsBlock) (bit : UInt32) : Prop := a.flags &&& bit ≠ 0

instance (a : AttrsBlock) (bit : UInt32) : Decidable (a.Has bit) :=
  inferInstanceAs (Decidable (a.flags &&& bit ≠ 0))

/-- The number of the extended pairs and the pairs. -/
def packExtended (a : AttrsBlock) : Bytes :=
  pack_uint32 [] (UInt32.ofNat a.extended.length) ++
    a.extended.flatMap fun kv => pack_string [] kv.1 ++ pack_string [] kv.2

/-- The encoding of the attributes. -/
def pack (a : AttrsBlock) : Bytes :=
  pack_uint32 [] a.flags ++
    ((if a.Has SSH_FILEXFER_ATTR_SIZE then pack_uint64 [] a.size else []) ++
    ((if a.Has SSH_FILEXFER_ATTR_UIDGID then pack_uint32 [] a.uid ++ pack_uint32 [] a.gid else []) ++
    ((if a.Has SSH_FILEXFER_ATTR_PERMISSIONS then pack_uint32 [] a.permissions else []) ++
    ((if a.Has SSH_FILEXFER_ATTR_ACMODTIME then pack_uint32 [] a.atime ++ pack_uint32 [] a.mtime
      else []) ++
    if a.Has SSH_FILEXFER_ATTR_EXTENDED then a.packExtended else []))))

/-- What is to be left in `attrs`: a field that is not announced stays as it is. -/
def fields (a : AttrsBlock) (attrs : Attributes) : Attributes where
  flags := a.flags
  size := if a.Has SSH_FILEXFER_ATTR_SIZE then a.size else attrs.size
  uid := if a.Has SSH_FILEXFER_ATTR_UIDGID then a.uid else attrs.uid
  gid := if a.Has SSH_FILEXFER_ATTR_UIDGID then a.gid else attrs.gid
  permissions :=
    if a.Has SSH_FILEXFER_ATTR_PERMISSIONS then a.permissions else attrs.permissions
  atime := if a.Has SSH_FILEXFER_ATTR_ACMODTIME then a.atime else attrs.atime
  mtime := if a.Has SSH_FILEXFER_ATTR_ACMODTIME then a.mtime else attrs.mtime
  extended :=
    if a.Has SSH_FILEXFER_ATTR_EXTENDED then
      a.extended.foldl (fun extended kv => extended.insert kv.1 kv.2) attrs.extended
    else attrs.extended

/-- There are extended pairs in the encoding. -/
def HasPairs (a : AttrsBlock) : Prop := a.Has SSH_FILEXFER_ATTR_EXTENDED ∧ a.extended ≠ []

end AttrsBlock

/-- A flag that is set has its fields decoded, one that is not set has none. -/
theorem decodes_ifFlag {a : AttrsBlock} {attrs attrs' : Attributes} (hflags : attrs.flags = a.flags)
    {bit : UInt32} {unpack : Bytes → Unpack Attributes} {enc : Bytes}
    (hset : a.Has bit → Decodes unpack enc attrs') (hclear : ¬ a.Has bit → attrs' = attrs) :
    Decodes (fun s => ifFlag attrs bit (unpack s)) (if a.Has bit then enc else []) attrs' := by
  by_cases hbit : a.Has bit
  · rw [if_pos hbit]
    unfold ifFlag
    simp only [hflags, if_pos (show a.flags &&& bit ≠ 0 from hbit)]
    exact hset hbit
  · rw [if_neg hbit, hclear hbit]
    unfold ifFlag
    simp only [hflags, if_neg (show ¬ a.flags &&& bit ≠ 0 from hbit)]
    exact Decodes.pure attrs

/-! ### The loop over the extended pairs -/

theorem unpack_uint8_spec (s : Bytes) (i : Nat) :
    wp (unpack_uint8 s) (fun _ j => j = i + 1 ∧ j ≤ s.length) (fun _ _ => True) i := by
  rw [wp, unpack_uint8_eq]
  cases h : s[i]? with
  | none => trivial
  | some byte =>
    obtain ⟨hi, -⟩ := List.getElem?_eq_some_iff.mp h
    exact ⟨rfl, hi⟩

theorem unpack_uint32_spec (s : Bytes) (i : Nat) :
    wp (unpack_uint32 s) (fun _ j => j = i + 4 ∧ j ≤ s.length) (fun _ _ => True) i := by
  rw [unpack_uint32, wp_bind]
  refine wp_mono (unpack_uint8_spec s i) ?_ fun _ _ h => h
  rintro a _ ⟨rfl, -⟩
  rw [wp_bind]
  refine wp_mono (unpack_uint8_spec s _) ?_ fun _ _ h => h
  rintro b _ ⟨rfl, -⟩
  rw [wp_bind]
  refine wp_mono (unpack_uint8_spec s _) ?_ fun _ _ h => h
  rintro c _ ⟨rfl, -⟩
  rw [wp_bind]
  exact unpack_uint8_spec s _

/-- A string takes its length word at least, which is there. -/
theorem unpack_string_spec (s : Bytes) (i : Nat) :
    wp (unpack_string s) (fun _ j => i + 4 ≤ j ∧ i + 4 ≤ s.length) (fun _ _ => True) i := by
  rw [unpack_string, wp_bind]
  refine wp_mono (unpack_uint32_spec s i) ?_ fun _ _ h => h
  rintro len j ⟨rfl, hle⟩
  rw [wp_bind, wp_modify, wp_bind, wp_get, substring, wp_ite]
  split_ifs
  · trivial
  · exact ⟨Nat.le_add_right _ _, hle⟩

/-- **The loop ends only at the end of the packet**, if there is a pair to be read. -/
theorem extendedLoop_throws (s : Bytes) {count : UInt32} (hcount : 0 < count) :
    ∀ (turns i : Nat) (extended : Details), 0 < turns → s.length < i + turns →
      wp (extendedLoop s turns count extended) (fun _ _ => False) (fun _ _ => True) i := by
  intro turns
  induction turns with
  | zero =>
    intro i extended h
    omega
  | succ turns ih =>
    intro i extended _ hturns
    rw [extendedLoop, if_pos hcount, wp_bind]
    refine wp_mono (unpack_string_spec s i) ?_ fun _ _ h => h
    rintro k j ⟨hj, hlen⟩
    rw [wp_bind]
    refine wp_mono (unpack_string_spec s j) ?_ fun _ _ h => h
    rintro v j' ⟨hj', hlen'⟩
    exact ih j' _ (by omega) (by omega)

/-! ### `unpack_attrs` -/

/-- What has been decoded when the extended pairs are reached. -/
def AttrsBlock.fixed (a : AttrsBlock) (attrs : Attributes) : Attributes :=
  { a.fields attrs with extended := attrs.extended }

/-- Everything before the extended pairs is decoded. -/
theorem unpack_attrs_fixed (a : AttrsBlock) (attrs : Attributes)
    {P : Bytes → EStateM.Result OutOfRange Nat Attributes → Prop}
    (h : Yields (fun s => ifFlag (a.fixed attrs) SSH_FILEXFER_ATTR_EXTENDED do
        let count ← unpack_uint32 s
        let extended ← extendedLoop s (s.length + 1) count attrs.extended
        return { a.fixed attrs with extended })
      (if a.Has SSH_FILEXFER_ATTR_EXTENDED then a.packExtended else []) P) :
    Yields (unpack_attrs attrs) a.pack P := by
  unfold unpack_attrs AttrsBlock.pack
  -- the flags and the fields that they announce, one after the other
  refine Yields.bind (decodes_uint32 a.flags) (Yields.bind (a := { attrs with
      flags := a.flags
      size := if a.Has SSH_FILEXFER_ATTR_SIZE then a.size else attrs.size }) ?_ ?_)
  · refine decodes_ifFlag rfl (fun hset => ?_) fun hclear => ?_
    · rw [if_pos hset, ← List.append_nil (pack_uint64 [] a.size)]
      exact (decodes_uint64 a.size).bind (Decodes.pure _)
    · rw [if_neg hclear]
  refine Yields.bind (a := { attrs with
      flags := a.flags
      size := if a.Has SSH_FILEXFER_ATTR_SIZE then a.size else attrs.size
      uid := if a.Has SSH_FILEXFER_ATTR_UIDGID then a.uid else attrs.uid
      gid := if a.Has SSH_FILEXFER_ATTR_UIDGID then a.gid else attrs.gid }) ?_ ?_
  · refine decodes_ifFlag rfl (fun hset => ?_) fun hclear => ?_
    · rw [if_pos hset, if_pos hset, ← List.append_nil (pack_uint32 [] a.gid)]
      exact (decodes_uint32 a.uid).bind ((decodes_uint32 a.gid).bind (Decodes.pure _))
    · rw [if_neg hclear, if_neg hclear]
  refine Yields.bind (a := { attrs with
      flags := a.flags
      size := if a.Has SSH_FILEXFER_ATTR_SIZE then a.size else attrs.size
      uid := if a.Has SSH_FILEXFER_ATTR_UIDGID then a.uid else attrs.uid
      gid := if a.Has SSH_FILEXFER_ATTR_UIDGID then a.gid else attrs.gid
      permissions :=
        if a.Has SSH_FILEXFER_ATTR_PERMISSIONS then a.permissions else attrs.permissions }) ?_ ?_
  · refine decodes_ifFlag rfl (fun hset => ?_) fun hclear => ?_
    · rw [if_pos hset, ← List.append_nil (pack_uint32 [] a.permissions)]
      exact (decodes_uint32 a.permissions).bind (Decodes.pure _)
    · rw [if_neg hclear]
  refine Yields.bind (a := a.fixed attrs) ?_ h
  refine decodes_ifFlag rfl (fun hset => ?_) fun hclear => ?_
  · unfold AttrsBlock.fixed AttrsBlock.fields
    rw [if_pos hset, if_pos hset, ← List.append_nil (pack_uint32 [] a.mtime)]
    exact (decodes_uint32 a.atime).bind ((decodes_uint32 a.mtime).bind (Decodes.pure _))
  · unfold AttrsBlock.fixed AttrsBlock.fields
    rw [if_neg hclear, if_neg hclear]

theorem AttrsBlock.count_pos {a : AttrsBlock} (hne : a.extended ≠ []) :
    0 < UInt32.ofNat a.extended.length := by
  have hlen := List.length_pos_iff.mpr hne
  rw [UInt32.lt_iff_toNat_lt, UInt32.toNat_ofNat_of_lt' a.count_lt]
  exact hlen

/-- Extended pairs make `unpack_attrs` throw. -/
theorem unpack_attrs_fails {a : AttrsBlock} (h : a.HasPairs) (attrs : Attributes) :
    Fails (unpack_attrs attrs) a.pack := by
  obtain ⟨hset, hne⟩ := h
  apply unpack_attrs_fixed
  rw [if_pos hset]
  unfold ifFlag
  simp only [if_pos (show (a.fixed attrs).flags &&& SSH_FILEXFER_ATTR_EXTENDED ≠ 0 from hset)]
  refine Yields.bind (decodes_uint32 _) ?_
  rw [← List.append_nil (a.extended.flatMap _)]
  refine Fails.bind ?_ _ _
  intro before after
  obtain ⟨e, i, he, -⟩ := wp_stops <| extendedLoop_throws (before ++ _ ++ after)
    (AttrsBlock.count_pos hne) _ before.length attrs.extended (Nat.succ_pos _)
    (Nat.lt_add_left _ (Nat.lt_succ_self _))
  exact ⟨e, i, he⟩

/-- **The attributes are decoded exactly if they have no extended pairs.** -/
theorem unpack_attrs_iff (a : AttrsBlock) (attrs : Attributes) :
    Decodes (unpack_attrs attrs) a.pack (a.fields attrs) ↔ ¬ a.HasPairs := by
  constructor
  · intro h hpairs
    exact h.not_fails (unpack_attrs_fails hpairs attrs)
  · intro hpairs
    apply unpack_attrs_fixed
    refine decodes_ifFlag rfl (fun hset => ?_) fun hclear => ?_
    · -- the number of the pairs is 0
      have hnil : a.extended = [] := by
        by_contra hne
        exact hpairs ⟨hset, hne⟩
      have hfields : a.fields attrs = { a.fixed attrs with extended := attrs.extended } := by
        unfold AttrsBlock.fixed AttrsBlock.fields
        rw [hnil, if_pos hset]
        rfl
      rw [hfields, AttrsBlock.packExtended, hnil]
      exact (decodes_uint32 0).bind (Decodes.pure _)
    · unfold AttrsBlock.fixed AttrsBlock.fields
      rw [if_neg hclear]

end Hbackup.Sftp
