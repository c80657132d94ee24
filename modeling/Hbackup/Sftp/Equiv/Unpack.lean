import Hbackup.Sftp.Equiv.Packet
import Hbackup.Sftp.Equiv.Read

/-!
# Malformed packets

What a packet holds at an index (`HoldsString`, `HoldsStatus`), with the length words of its strings as
big-endian numbers.  `unpack_string` does not look whether the packet holds all the bytes that a length
word declares: it returns those that are there, so that it rejects malformed packets exactly if no
length word declares too much (`Fits`, `rejects_malformed_iff`).
-/

namespace Hbackup.Sftp

open Cursor ProgramLogic

/-! ### Length words -/

/-- The four bytes of a number, the highest first. -/
def bigEndian32 (n : Nat) : Bytes :=
  [UInt8.ofNat (n / 2 ^ 24), UInt8.ofNat (n / 2 ^ 16), UInt8.ofNat (n / 2 ^ 8), UInt8.ofNat n]

/-- The number that bytes stand for, the highest first. -/
def bigEndian (bytes : Bytes) : Nat := bytes.foldl (fun n c => 256 * n + c.toNat) 0

/-- The length word at `i`. -/
def lengthWord (s : Bytes) (i : Nat) : Nat := bigEndian ((s.drop i).take 4)

/-- `s` holds `t` at `i`: its length, and all its bytes. -/
def HoldsString (s : Bytes) (i : Nat) (t : Bytes) : Prop :=
  t.length < 2 ^ 32 ∧ bigEndian32 t.length ++ t <+: s.drop i

/-- `s` holds a status at `i`, with both its strings. -/
def HoldsStatus (s : Bytes) (i : Nat) (st : Status) : Prop :=
  st.message.length < 2 ^ 32 ∧ st.lang.length < 2 ^ 32 ∧
    bigEndian32 st.status.toNat ++ ((bigEndian32 st.message.length ++ st.message) ++
      (bigEndian32 st.lang.length ++ st.lang)) <+: s.drop i

/-- The string that is declared at `i`, if there is a length word, is no longer than what is left. -/
def Fits (s : Bytes) (i : Nat) : Prop := i + 4 ≤ s.length → i + 4 + lengthWord s i ≤ s.length

instance (s : Bytes) (i : Nat) : Decidable (Fits s i) := by unfold Fits; infer_instance

theorem bigEndian_four (a b c d : UInt8) :
    bigEndian [a, b, c, d] = a.toNat * 2 ^ 24 + b.toNat * 2 ^ 16 + c.toNat * 2 ^ 8 + d.toNat := by
  simp only [bigEndian, List.foldl_cons, List.foldl_nil]
  omega

theorem bigEndian_bigEndian32 {n : Nat} (hn : n < 2 ^ 32) : bigEndian (bigEndian32 n) = n := by
  rw [bigEndian32, bigEndian_four]
  simp only [UInt8.toNat_ofNat']
  omega

theorem bigEndian32_bigEndian (a b c d : UInt8) :
    bigEndian32 (bigEndian [a, b, c, d]) = [a, b, c, d] := by
  have ha := a.toNat_lt
  have hb := b.toNat_lt
  have hc := c.toNat_lt
  have hd := d.toNat_lt
  have hbyte : ∀ {n : Nat} {x : UInt8}, n % 256 = x.toNat → UInt8.ofNat n = x := by
    intro n x hx
    apply UInt8.toNat_inj.mp
    rw [UInt8.toNat_ofNat']
    exact hx
  rw [bigEndian_four, bigEndian32, hbyte (x := a) (by omega), hbyte (x := b) (by omega),
    hbyte (x := c) (by omega), hbyte (x := d) (by omega)]

/-- `pack_uint32` writes the highest byte first. -/
theorem pack_uint32_eq (u : UInt32) : pack_uint32 [] u = bigEndian32 u.toNat := by
  have hbyte : ∀ k, u.toNat / 2 ^ k % 256 = (UInt8.ofNat (u.toNat / 2 ^ k)).toNat := by
    intro k
    rw [UInt8.toNat_ofNat']
  have hshift : ∀ k : UInt32, k.toNat < 32 →
      (u >>> k).toUInt8 = UInt8.ofNat (u.toNat / 2 ^ k.toNat) := by
    intro k hk
    apply UInt8.toNat_inj.mp
    rw [UInt32.toNat_toUInt8, UInt32.toNat_shiftRight, Nat.mod_eq_of_lt hk,
      Nat.shiftRight_eq_div_pow, UInt8.toNat_ofNat']
  have hlow : u.toUInt8 = UInt8.ofNat u.toNat := by
    apply UInt8.toNat_inj.mp
    rw [UInt32.toNat_toUInt8, UInt8.toNat_ofNat']
  unfold pack_uint32 pack_uint8 bigEndian32
  rw [hshift 24 (by decide), hshift 16 (by decide), hshift 8 (by decide), hlow]
  rfl

/-! ### What the functions read -/

/-- Four bytes at `i`. -/
theorem drop_eq_word {s : Bytes} {i : Nat} (h : i + 4 ≤ s.length) :
    s.drop i = bigEndian32 (lengthWord s i) ++ s.drop (i + 4) ∧ lengthWord s i < 2 ^ 32 := by
  have hlen : (s.drop i).length = s.length - i := List.length_drop
  have hrest : s.drop (i + 4) = (s.drop i).drop 4 := by rw [List.drop_drop]
  unfold lengthWord
  rw [hrest]
  match hs : s.drop i with
  | [] | [_] | [_, _] | [_, _, _] =>
    rw [hs] at hlen
    simp only [List.length_nil, List.length_cons] at hlen
    omega
  | a :: b :: c :: d :: rest =>
    have htake : (a :: b :: c :: d :: rest).take 4 = [a, b, c, d] := rfl
    rw [htake, bigEndian32_bigEndian]
    refine ⟨rfl, ?_⟩
    have ha := a.toNat_lt
    have hb := b.toNat_lt
    have hc := c.toNat_lt
    have hd := d.toNat_lt
    rw [bigEndian_four]
    omega

theorem unpack_uint32_eq {s : Bytes} {i : Nat} (h : i + 4 ≤ s.length) :
    unpack_uint32 s i = .ok (UInt32.ofNat (lengthWord s i)) (i + 4) := by
  obtain ⟨hdrop, hlt⟩ := drop_eq_word h
  have hs : s = s.take i ++ pack_uint32 [] (UInt32.ofNat (lengthWord s i)) ++ s.drop (i + 4) := by
    rw [pack_uint32_eq, UInt32.toNat_ofNat_of_lt' hlt, List.append_assoc, ← hdrop,
      List.take_append_drop]
  have hlen : (s.take i).length = i := by
    rw [List.length_take]
    omega
  have hword := decodes_uint32 (UInt32.ofNat (lengthWord s i)) (s.take i) (s.drop (i + 4))
  rw [← hs, hlen] at hword
  rw [hword, List.length_append, hlen]
  rfl

/-- **What `unpack_string` does**: it needs the length word, but not all of the string. -/
theorem unpack_string_eq {s : Bytes} {i : Nat} (h : i + 4 ≤ s.length) :
    unpack_string s i =
      .ok ((s.drop (i + 4)).take (lengthWord s i)) (i + 4 + lengthWord s i) := by
  have hlt := (drop_eq_word h).2
  have hlen : (UInt32.ofNat (lengthWord s i)).toNat = lengthWord s i :=
    UInt32.toNat_ofNat_of_lt' hlt
  rw [unpack_string, bind_of_ok (unpack_uint32_eq h)]
  change substring s (i + 4 + (UInt32.ofNat (lengthWord s i)).toNat -
    (UInt32.ofNat (lengthWord s i)).toNat) _ (i + 4 + (UInt32.ofNat (lengthWord s i)).toNat) = _
  rw [Nat.add_sub_cancel, hlen, substring, if_neg (by omega)]
  rfl

theorem unpack_string_throws {s : Bytes} {i : Nat} (h : ¬ i + 4 ≤ s.length) (t : Bytes) (j : Nat) :
    unpack_string s i ≠ .ok t j := by
  intro hok
  have hwp : wp (unpack_string s) (fun _ _ => False) (fun _ _ => True) i := by
    rw [unpack_string, wp_bind]
    refine wp_mono (unpack_uint32_spec s i) ?_ fun _ _ h => h
    rintro len j ⟨rfl, hle⟩
    exact absurd hle h
  exact wp_elim_ok hwp hok

/-! ### Strings -/

/-- The string that is read is all there if its length fits. -/
theorem holdsString_iff {s : Bytes} {i : Nat} (h : i + 4 ≤ s.length) :
    HoldsString s i ((s.drop (i + 4)).take (lengthWord s i)) ↔
      i + 4 + lengthWord s i ≤ s.length := by
  obtain ⟨hdrop, hlt⟩ := drop_eq_word h
  have hlen : ((s.drop (i + 4)).take (lengthWord s i)).length =
      min (lengthWord s i) (s.length - (i + 4)) := by
    rw [List.length_take, List.length_drop]
  constructor
  · rintro ⟨hshort, hprefix⟩
    rw [hdrop] at hprefix
    -- the length words are the same
    have hwords : bigEndian32 ((s.drop (i + 4)).take (lengthWord s i)).length =
        bigEndian32 (lengthWord s i) := by
      obtain ⟨rest, hrest⟩ := hprefix
      rw [List.append_assoc] at hrest
      exact (List.append_inj hrest rfl).1
    have hsame := congrArg bigEndian hwords
    rw [bigEndian_bigEndian32 hshort, bigEndian_bigEndian32 hlt, hlen] at hsame
    omega
  · intro hfits
    have hwhole : ((s.drop (i + 4)).take (lengthWord s i)).length = lengthWord s i := by
      rw [hlen]
      omega
    refine ⟨by rw [hwhole]; exact hlt, ?_⟩
    rw [hwhole, hdrop]
    apply (List.prefix_append_right_inj _).mpr
    exact List.take_prefix _ _

/-- **A string is read as it is held, or not at all**, exactly if its length fits. -/
theorem unpack_string_iff (s : Bytes) (i : Nat) :
    (∀ t j, unpack_string s i = .ok t j → HoldsString s i t) ↔ Fits s i := by
  unfold Fits
  by_cases h : i + 4 ≤ s.length
  · rw [unpack_string_eq h]
    constructor
    · exact fun hall _ => (holdsString_iff h).mp (hall _ _ rfl)
    · rintro hfits t j hok
      cases hok
      exact (holdsString_iff h).mpr (hfits h)
  · exact iff_of_true (fun t j hok => absurd hok (unpack_string_throws h t j)) fun h' => absurd h' h

/-! ### Statuses -/

/-- The status, if its first two words are there: the second string is behind the first. -/
theorem unpack_status_eq {s : Bytes} {i : Nat} (h : i + 8 ≤ s.length) :
    unpack_status s i = match unpack_string s (i + 8 + lengthWord s (i + 4)) with
      | .ok lang j => .ok ⟨UInt32.ofNat (lengthWord s i),
          (s.drop (i + 8)).take (lengthWord s (i + 4)), lang⟩ j
      | .error e j => .error e j := by
  have hfirst : i + 4 ≤ s.length := by omega
  have hsecond : i + 4 + 4 ≤ s.length := by omega
  rw [unpack_status, bind_of_ok (unpack_uint32_eq hfirst), bind_of_ok (unpack_string_eq hsecond)]
  change EStateM.bind _ _ _ = _
  rw [EStateM.bind]
  cases unpack_string s (i + 8 + lengthWord s (i + 4)) <;> rfl

theorem unpack_status_throws {s : Bytes} {i : Nat} (h : ¬ i + 8 ≤ s.length) (st : Status) (j : Nat) :
    unpack_status s i ≠ .ok st j := by
  intro hok
  have hwp : wp (unpack_status s) (fun _ _ => False) (fun _ _ => True) i := by
    rw [unpack_status, wp_bind]
    refine wp_mono (unpack_uint32_spec s i) ?_ fun _ _ h => h
    rintro status j ⟨rfl, -⟩
    rw [wp_bind]
    refine wp_mono (unpack_string_spec s (i + 4)) ?_ fun _ _ h => h
    rintro message j ⟨-, hle⟩
    exact absurd hle (by omega)
  exact wp_elim_ok hwp hok

/-- **A status is read as it is held, or not at all**, exactly if its second string fits: a first
string that does not leaves no second one. -/
theorem unpack_status_iff (s : Bytes) (i : Nat) :
    (∀ st j, unpack_status s i = .ok st j → HoldsStatus s i st) ↔
      Fits s (i + 8 + lengthWord s (i + 4)) := by
  by_cases h : i + 8 ≤ s.length
  swap
  · refine iff_of_true (fun st j hok => absurd hok (unpack_status_throws h st j)) fun h' => ?_
    omega
  set k := i + 8 + lengthWord s (i + 4) with hk
  rw [unpack_status_eq h]
  by_cases hthere : k + 4 ≤ s.length
  swap
  · refine iff_of_true ?_ fun h' => absurd h' hthere
    intro st j hok
    cases hstring : unpack_string s k with
    | ok lang j' => exact absurd hstring (unpack_string_throws hthere lang j')
    | error e j' =>
      rw [hstring] at hok
      cases hok
  rw [unpack_string_eq hthere]
  -- what stands at `i`, up to the second string
  obtain ⟨hfirst, hlt⟩ := drop_eq_word (s := s) (i := i) (by omega)
  obtain ⟨hsecond, hlt'⟩ := drop_eq_word (s := s) (i := i + 4) (by omega)
  have hmessage : ((s.drop (i + 8)).take (lengthWord s (i + 4))).length = lengthWord s (i + 4) := by
    rw [List.length_take, List.length_drop]
    omega
  have hbehind : s.drop (i + 8) = (s.drop (i + 8)).take (lengthWord s (i + 4)) ++ s.drop k := by
    rw [hk, ← List.drop_drop (i := lengthWord s (i + 4)), List.take_append_drop]
  have hall : s.drop i = bigEndian32 (lengthWord s i) ++ ((bigEndian32 (lengthWord s (i + 4)) ++
      (s.drop (i + 8)).take (lengthWord s (i + 4))) ++ s.drop k) := by
    rw [List.append_assoc, ← hbehind, hfirst, hsecond]
  have hholds : HoldsStatus s i ⟨UInt32.ofNat (lengthWord s i),
      (s.drop (i + 8)).take (lengthWord s (i + 4)), (s.drop (k + 4)).take (lengthWord s k)⟩ ↔
      HoldsString s k ((s.drop (k + 4)).take (lengthWord s k)) := by
    unfold HoldsStatus HoldsString
    dsimp only
    rw [hmessage, UInt32.toNat_ofNat_of_lt' hlt, hall, List.prefix_append_right_inj,
      List.prefix_append_right_inj]
    exact and_iff_right hlt'
  constructor
  · intro hall _
    exact (holdsString_iff hthere).mp (hholds.mp (hall _ _ rfl))
  · rintro hfits st j hok
    cases hok
    exact hholds.mpr ((holdsString_iff hthere).mpr (hfits hthere))

/-! ### Data -/

/-- `readbytes`, once the read queue is full. -/
def handOut (server : Nat → Request → Reply) (k : Nat) (space : Nat) : S Bytes := do
  rebuffer server k
  let f ← getFile k
  let n := min space f.readbuffer.length
  setFile k { f with readbuffer := f.readbuffer.drop n }
  return f.readbuffer.take n

theorem readbytes_eq (server : Nat → Request → Reply) (k space : Nat) :
    readbytes server k space = (refill server k space >>= fun _ => handOut server k space) := rfl

/-- The file `k` has nothing in its buffer, and the reply to the first of its reads brings `data`. -/
def Brings (server : Nat → Request → Reply) (c : Client) (k : Nat) (data : Bytes) : Prop :=
  ∃ f id rest c', c.files[k]? = some (some f) ∧ f.readbuffer = [] ∧ f.readqueue = id :: rest ∧
    await server id { c with files := c.files.set k (some { f with readqueue := rest }) } =
      .ok (.DATA data) c'

theorem Unmoved.receives (server : Nat → Request → Reply) (c : Client) :
    Receives server (Unmoved c) where
  passes _ _ h := ⟨h.files, h.id⟩
  files c' p schedule h _ := by
    rw [stash, wp_bind, wp_get]
    split_ifs
    · exact ⟨h.files, h.id⟩
    · exact ⟨h.files, h.id⟩

/-- The data of the reply are handed out, as far as there is space. -/
theorem wp_handOut {server : Nat → Request → Reply} {c : Client} {k : Nat} {data : Bytes}
    (h : Brings server c k data) (space : Nat) :
    wp (handOut server k space) (fun bytes _ => bytes = data.take space) (fun _ _ => False) c := by
  obtain ⟨f, id, rest, c', hfile, hbuf, hqueue, hawait⟩ := h
  rw [handOut, wp_bind, rebuffer, wp_bind, wp_getFile hfile, hbuf, hqueue]
  dsimp only
  rw [wp_bind, wp_setFile, wp_bind]
  rw [hbuf] at hawait
  obtain ⟨c₁, s, hmoved, -, hc'⟩ := wp_elim_ok ((Unmoved.receives server _).wp_await id .rfl) hawait
  have hfile' : c'.files[k]? = some (some { f with readqueue := rest, readbuffer := [] }) := by
    rw [hc']
    change c₁.files[k]? = _
    rw [hmoved.files]
    exact files_set hfile _
  unfold wp
  rw [hawait]
  change wp (do
    let f ← getFile k
    setFile k { f with readbuffer := data }) _ _ c'
  rw [wp_bind, wp_getFile hfile', wp_setFile]
  exact wp_readbuffer (files_set hfile' _) rfl

/-- No data of the packet `reply` are handed out, if it is the reply to a read. -/
def HandsOutNothing (reply : Bytes) : Prop :=
  ∀ server c k data j space, unpack_string reply 5 = .ok data j → Brings server c k data →
    wp (handOut server k space) (fun bytes _ => bytes = []) (fun _ _ => True) c

/-- A client that has read a reply with `data`. -/
def broughtData (data : Bytes) : Client where
  files := [some { path := [], handle := [], readqueue := [1] }]
  replies := [(1, 0, .DATA data)]
  schedule := []

theorem brings_broughtData (server : Nat → Request → Reply) (data : Bytes) :
    Brings server (broughtData data) 0 data :=
  ⟨{ path := [], handle := [], readqueue := [1] }, 1, [], _, rfl, rfl, rfl, rfl⟩

/-- Data that are too short are handed out all the same, unless there are none. -/
theorem handsOutNothing_iff {reply : Bytes} (h : 5 + 4 ≤ reply.length) (hover : ¬ Fits reply 5) :
    HandsOutNothing reply ↔ reply.length = 9 := by
  have hword : 0 < lengthWord reply 5 := by
    unfold Fits at hover
    omega
  constructor
  · intro hnothing
    have hbytes := hnothing (fun _ _ => .ATTRS) _ 0 _ _ reply.length (unpack_string_eq h)
      (brings_broughtData _ _)
    obtain ⟨bytes, c', hrun, rfl⟩ := wp_returns (wp_handOut (brings_broughtData (fun _ _ => .ATTRS)
      ((reply.drop (5 + 4)).take (lengthWord reply 5))) reply.length)
    have hnil := wp_elim_ok hbytes hrun
    have hlen := congrArg List.length hnil
    rw [List.length_take, List.length_take, List.length_drop, List.length_nil] at hlen
    omega
  · rintro hlen server c k data j space hok hbrings
    rw [unpack_string_eq h] at hok
    obtain ⟨rfl, rfl⟩ := EStateM.Result.ok.inj hok
    have hnone : reply.drop (5 + 4) = [] := List.drop_eq_nil_of_le (by omega)
    rw [hnone, List.take_nil] at hbrings
    refine wp_mono (wp_handOut hbrings space) (fun bytes _ hb => ?_) fun _ _ hf => hf.elim
    rw [hb, List.take_nil]

/-- **Malformed packets are rejected** exactly if no length word in them declares more than what is left:
a string is returned only as the packet holds it; so is a status, for which the length word of its
second string counts; and a reply that declares more data than it has gives none to `readbytes` only if
it has none. -/
theorem rejects_malformed_iff (s : Bytes) (i : Nat) :
    ((∀ t j, unpack_string s i = .ok t j → HoldsString s i t) ↔ Fits s i) ∧
    ((∀ st j, unpack_status s i = .ok st j → HoldsStatus s i st) ↔
      Fits s (i + 8 + lengthWord s (i + 4))) ∧
    ((¬ Fits s 5 → HandsOutNothing s) ↔ Fits s 5 ∨ s.length = 9) := by
  refine ⟨unpack_string_iff s i, unpack_status_iff s i, ?_⟩
  by_cases hfits : Fits s 5
  · exact iff_of_true (fun h => absurd hfits h) (.inl hfits)
  · have hlen : 5 + 4 ≤ s.length := by
      unfold Fits at hfits
      omega
    rw [forall_prop_of_true hfits, handsOutNothing_iff hlen hfits, or_iff_right hfits]

/-- A reply with one byte of data, which are said to be 200. -/
def shortData : Bytes := [103, 0, 0, 0, 1, 0, 0, 0, 200, 97]

theorem not_rejects_malformed : ¬ ∀ (s : Bytes) (i : Nat) (t : Bytes) (j : Nat),
    unpack_string s i = .ok t j → HoldsString s i t := by
  intro hall
  have hfits := (unpack_string_iff shortData 5).mp (hall _ _)
  exact absurd hfits (by decide)

end Hbackup.Sftp
