import Hbackup.Sftp.Equiv.Packet
import Hbackup.Sftp.Frame

/-!
# Fields in packets, and packets in frames

Any fields that are packed one behind the other are unpacked again in the same order, and any packets
that are sent one behind the other are received again, whatever the pieces in which they arrive
(`packets_round_trip`).
-/

namespace Hbackup.Sftp

open Cursor ProgramLogic

/-! ### Fields -/

/-- What the `unpack_` functions return. -/
inductive Value
  | uint8 (byte : UInt8)
  | uint32 (u : UInt32)
  | uint64 (u : UInt64)
  | string (t : Bytes)
deriving DecidableEq, Repr

/-- A field that is packed; strings are shorter than a length word can say. -/
inductive Field
  | uint8 (byte : UInt8)
  | uint32 (u : UInt32)
  | uint64 (u : UInt64)
  | string (t : Bytes) (fits : t.length < 2 ^ 32)
  | bytes (data : Bytes) (fits : data.length < 2 ^ 32)

namespace Field

/-- The field is appended to `s`. -/
def pack (s : Bytes) : Field → Bytes
  | uint8 byte => pack_uint8 s byte
  | uint32 u => pack_uint32 s u
  | uint64 u => pack_uint64 s u
  | string t _ => pack_string s t
  | bytes data _ => pack_bytes s data data.length

def value : Field → Value
  | uint8 byte => .uint8 byte
  | uint32 u => .uint32 u
  | uint64 u => .uint64 u
  | string t _ => .string t
  | bytes data _ => .string data

/-- A value of the field's type is unpacked. -/
def unpack (s : Bytes) : Field → Unpack Value
  | uint8 _ => return .uint8 (← unpack_uint8 s)
  | uint32 _ => return .uint32 (← unpack_uint32 s)
  | uint64 _ => return .uint64 (← unpack_uint64 s)
  | string _ _ => return .string (← unpack_string s)
  | bytes _ _ => return .string (← unpack_string s)

/-- The encoding of a field does not depend on what stands before it. -/
theorem pack_append (field : Field) (s : Bytes) : field.pack s = s ++ field.pack [] := by
  cases field with
  | uint8 byte => rfl
  | uint32 u => exact pack_uint32_append s u
  | uint64 u => simp [pack, pack_uint64, pack_uint8]
  | string t fits =>
    rw [pack, pack, pack_string, pack_string, pack_uint32_append, List.append_assoc]
  | bytes data fits =>
    rw [pack, pack, pack_bytes, pack_bytes, pack_uint32_append, List.append_assoc]

/-- One field is unpacked. -/
theorem decodes (field : Field) : Decodes (fun s => field.unpack s) (field.pack []) field.value := by
  -- the conversion to a value reads nothing
  have hreturn : ∀ {α : Type} {f : Bytes → Unpack α} {enc : Bytes} {a : α} (value : α → Value),
      Decodes f enc a → Decodes (fun s => do return value (← f s)) enc (value a) := by
    intro α f enc a value hf
    have hpure : Decodes (fun _ : Bytes => (pure (value a) : Unpack Value)) [] (value a) :=
      Decodes.pure _
    have h := hf.bind (g := fun _ a => pure (value a)) hpure
    rwa [List.append_nil] at h
  cases field with
  | uint8 byte => exact hreturn .uint8 (decodes_uint8 byte)
  | uint32 u => exact hreturn .uint32 (decodes_uint32 u)
  | uint64 u => exact hreturn .uint64 (decodes_uint64 u)
  | string t fits => exact hreturn .string (decodes_string fits)
  | bytes data fits =>
    have hpack : pack [] (bytes data fits) = pack_string [] data := by
      rw [pack, pack_bytes, List.take_length, pack_string]
    rw [hpack]
    exact hreturn .string (decodes_string fits)

end Field

/-- The fields are appended to `s`. -/
def packAll (s : Bytes) (fields : List Field) : Bytes := fields.foldl Field.pack s

/-- Values of the same types are unpacked. -/
def unpackAll (s : Bytes) (fields : List Field) : Unpack (List Value) :=
  fields.mapM fun field => field.unpack s

theorem packAll_append (s : Bytes) (fields : List Field) :
    packAll s fields = s ++ packAll [] fields := by
  induction fields generalizing s with
  | nil => exact (List.append_nil s).symm
  | cons field fields ih =>
    change packAll (field.pack s) fields = s ++ packAll (field.pack []) fields
    rw [ih, ih (field.pack []), field.pack_append, List.append_assoc]

theorem decodes_all (fields : List Field) :
    Decodes (fun s => unpackAll s fields) (packAll [] fields) (fields.map Field.value) := by
  induction fields with
  | nil => exact Decodes.pure []
  | cons field fields ih =>
    have hpack : packAll [] (field :: fields) = field.pack [] ++ (packAll [] fields ++ []) := by
      rw [List.append_nil]
      exact packAll_append (field.pack []) fields
    have hunpack : ∀ s, unpackAll s (field :: fields) =
        field.unpack s >>= fun value => unpackAll s fields >>= fun values =>
          pure (value :: values) := by
      intro s
      exact List.mapM_cons
    rw [hpack]
    simp only [hunpack]
    apply field.decodes.bind
    apply ih.bind
    exact Decodes.pure _

/-! ### Frames -/

/-- A packet that can be sent and received. -/
structure Packet where
  bytes : Bytes
  nonempty : bytes ≠ []
  small : bytes.length < 2 ^ 31

/-- The packet behind its length word. -/
def Packet.frame (p : Packet) : Bytes := pack_uint32 [] (UInt32.ofNat p.bytes.length) ++ p.bytes

/-- What `recv` returns: the type and all of the packet. -/
def Packet.received (p : Packet) : UInt8 × Bytes := (p.bytes.head p.nonempty, p.bytes)

namespace Pipe

variable {g : File Bytes} {text : Bytes}

theorem wp_send (p : Packet) (h : File.Given (fun t dev => dev = t) g text) :
    wp (send sink p.bytes) (fun _ g' => File.Given (fun t dev => dev = t) g' (text ++ p.frame))
      (fun _ _ => False) g := by
  rw [send, wp_bind]
  apply wp_mono (h.wp_put File.accepts_sink _) _ fun _ _ hfalse => hfalse
  intro _ g₁ h₁
  rw [Packet.frame, ← List.append_assoc]
  exact h₁.wp_put File.accepts_sink _

theorem wp_sends (packets : List Packet) (h : File.Given (fun t dev => dev = t) g text) :
    wp (packets.forM fun p => send sink p.bytes)
      (fun _ g' => File.Given (fun t dev => dev = t) g' (text ++ packets.flatMap Packet.frame))
      (fun _ _ => False) g := by
  apply wp_forM fun sent g' =>
    File.Given (fun t dev => dev = t) g' (text ++ sent.flatMap Packet.frame)
  · intro sent p rest g' _ h'
    rw [List.flatMap_append, ← List.append_assoc, List.flatMap_singleton]
    exact wp_send p h'
  · rw [List.flatMap_nil, List.append_nil]
    exact h

/-- `getbytes` brings all that is asked for, if it is there. -/
theorem piece_eq {max : Nat} {x rest bytes r : Bytes} (hmax : x.length = max)
    (h : File.Piece max true (x ++ rest) bytes r) : bytes = x ∧ r = rest := by
  subst hmax
  have hlen : bytes.length = x.length := by
    rcases h.whole rfl with hlen | hnil
    · exact hlen
    · have hle := h.le
      have hsplit := h.split
      rw [hnil, List.append_nil] at hsplit
      rw [hsplit, List.length_append] at hle ⊢
      omega
  exact List.append_inj h.split hlen

/-- A whole frame is taken from what is left. -/
theorem wp_recv {turns : Nat} {f : File Source} {r : Bytes} (p : Packet)
    (h : File.Left f (p.frame ++ r)) (hturns : (p.frame ++ r).length < turns) :
    wp (recv Source.virtual turns) (fun reply f' => reply = p.received ∧ File.Left f' r)
      (fun _ _ => False) f := by
  have hsmall := p.small
  have hlen : (UInt32.ofNat p.bytes.length).toNat = p.bytes.length :=
    UInt32.toNat_ofNat_of_lt' (show _ < 2 ^ 32 by omega)
  have hpos : 1 ≤ p.bytes.length := List.length_pos_iff.mpr p.nonempty
  rw [Packet.frame, List.append_assoc] at h hturns
  rw [recv, wp_bind]
  apply wp_mono (h.wp_getbytes hturns (by decide)) _ fun _ _ hfalse => hfalse
  rintro slen f₁ ⟨r₁, h₁, hpiece₁⟩
  have hfour : (pack_uint32 [] (UInt32.ofNat p.bytes.length)).length = 4 := rfl
  obtain ⟨rfl, rfl⟩ := piece_eq hfour hpiece₁
  have hword : unpack_uint32 (pack_uint32 [] (UInt32.ofNat p.bytes.length)) 0 =
      .ok (UInt32.ofNat p.bytes.length) 4 := by
    have hdecodes := decodes_uint32 (UInt32.ofNat p.bytes.length) [] []
    rwa [List.append_nil] at hdecodes
  rw [wp_ite, if_neg (by rw [hfour]; decide), hword]
  dsimp only
  rw [wp_ite, if_pos (by omega), hlen, wp_bind]
  have hturns₁ : (p.bytes ++ r).length < turns := by
    rw [List.length_append] at hturns
    omega
  apply wp_mono (h₁.wp_getbytes hturns₁ hpos) _ fun _ _ hfalse => hfalse
  rintro reply f₂ ⟨r₂, h₂, hpiece₂⟩
  obtain ⟨rfl, rfl⟩ := piece_eq rfl hpiece₂
  rw [wp_ite, if_neg (by simp), wp_pure]
  refine ⟨?_, h₂⟩
  have hhead : p.bytes[0]?.getD 0 = p.bytes.head p.nonempty := by
    rw [← List.head?_eq_getElem?, List.head?_eq_some_head p.nonempty]
    rfl
  rw [hhead, Packet.received]

theorem wp_recvs {turns : Nat} {f : File Source} (packets : List Packet)
    (h : File.Left f (packets.flatMap Packet.frame))
    (hturns : (packets.flatMap Packet.frame).length < turns) :
    wp (packets.mapM fun _ => recv Source.virtual turns)
      (fun replies _ => replies = packets.map Packet.received) (fun _ _ => False) f := by
  induction packets generalizing f with
  | nil => exact wp_pure _ _ _ _ |>.mpr rfl
  | cons p packets ih =>
    rw [List.flatMap_cons] at h hturns
    rw [List.mapM_cons, wp_bind]
    apply wp_mono (wp_recv p h hturns) _ fun _ _ hfalse => hfalse
    rintro _ f₁ ⟨rfl, h₁⟩
    have hturns₁ : (packets.flatMap Packet.frame).length < turns := by
      rw [List.length_append] at hturns
      omega
    rw [wp_bind]
    apply wp_mono (ih h₁ hturns₁) _ fun _ _ hfalse => hfalse
    rintro _ f₂ rfl
    rfl

end Pipe

/-- **Packets are received as they were made and sent**: the fields of a packet wherever they stand in
it, and the packets whatever the pieces in which the stream arrives. -/
theorem packets_round_trip :
    (∀ (fields : List Field) (before after : Bytes),
      unpackAll (packAll before fields ++ after) fields before.length =
        .ok (fields.map Field.value) (packAll before fields).length) ∧
    ∀ packets : List Packet, ∃ g,
      (do packets.forM fun p => Pipe.send sink p.bytes; File.flush sink) { dev := [] } = .ok () g ∧
      ∀ (sizes : Nat → Nat) (turns : Nat), g.dev.length < turns →
        ∃ f, (packets.mapM fun _ => Pipe.recv Source.virtual turns) { dev := ⟨g.dev, sizes⟩ } =
          .ok (packets.map Packet.received) f := by
  constructor
  · intro fields before after
    rw [packAll_append]
    exact decodes_all fields before after
  · intro packets
    have hsent : wp (do packets.forM fun p => Pipe.send sink p.bytes; File.flush sink)
        (fun _ g => g.dev = packets.flatMap Packet.frame) (fun _ _ => False)
        ({ dev := [] } : File Bytes) := by
      rw [wp_bind]
      apply wp_mono (Pipe.wp_sends packets (.opened rfl)) _ fun _ _ hfalse => hfalse
      intro _ g h
      exact wp_mono (h.wp_flush File.accepts_sink) (fun _ _ h' => h'.2.1) fun _ _ hfalse => hfalse
    obtain ⟨_, g, hg, hdev⟩ := wp_returns hsent
    refine ⟨g, hg, ?_⟩
    intro sizes turns hturns
    rw [hdev] at hturns ⊢
    obtain ⟨replies, f, hf, hreplies⟩ := wp_returns
      (Pipe.wp_recvs packets (.opened (packets.flatMap Packet.frame) sizes) hturns)
    rw [hreplies] at hf
    exact ⟨f, hf⟩

/-- A field of each type, and a packet that arrives byte by byte. -/
theorem packet_comes_byte_by_byte :
    unpackAll (packAll [9] [.uint32 0xFFFFFFFF, .string [200, 0] (by decide)] ++ [7])
        [.uint32 0xFFFFFFFF, .string [200, 0] (by decide)] 1 =
      .ok [.uint32 0xFFFFFFFF, .string [200, 0]] 11 ∧
    ∃ g, (do [(⟨[101, 0], by decide, by decide⟩ : Packet)].forM fun p => Pipe.send sink p.bytes
             File.flush sink) { dev := [] } = .ok () g ∧
      ∃ f, ([(⟨[101, 0], by decide, by decide⟩ : Packet)].mapM fun _ =>
        Pipe.recv Source.virtual (g.dev.length + 1)) { dev := ⟨g.dev, fun _ => 1⟩ } =
          .ok [(101, [101, 0])] f := by
  refine ⟨packets_round_trip.1 _ _ _, ?_⟩
  obtain ⟨g, hg, hrecv⟩ := packets_round_trip.2 [⟨[101, 0], by decide, by decide⟩]
  exact ⟨g, hg, hrecv (fun _ => 1) _ (Nat.lt_succ_self _)⟩

end Hbackup.Sftp
