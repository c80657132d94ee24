import Hbackup.Sftp.Listing
import Hbackup.Sftp.Equiv.Packet

/-!
# What a listing returns

`contents` returns the file names that the server sends, unless some file has extended attributes:
then it stops in the loop over these (`contents_iff`).
-/

namespace Hbackup.Sftp

open Cursor ProgramLogic

/-! ### What a server sends -/

/-- An entry of a `NAME` reply. -/
structure Entry where
  filename : Bytes
  longname : Bytes
  attrs : AttrsBlock
  filename_lt : filename.length < 2 ^ 32
  longname_lt : longname.length < 2 ^ 32

def Entry.pack (e : Entry) : Bytes :=
  pack_string [] e.filename ++ (pack_string [] e.longname ++ e.attrs.pack)

/-- The type and the id of a reply. -/
def header (type : UInt8) (id : UInt32) : Bytes := pack_uint32 (pack_uint8 [] type) id

/-- A `NAME` reply. -/
structure NameReply where
  id : UInt32
  entries : List Entry
  count_lt : entries.length < 2 ^ 32

def NameReply.pack (r : NameReply) : Bytes :=
  header SSH_FXP_NAME r.id ++
    (pack_uint32 [] (UInt32.ofNat r.entries.length) ++ r.entries.flatMap Entry.pack)

/-- A `HANDLE` reply. -/
structure HandleReply where
  id : UInt32
  handle : Bytes
  handle_lt : handle.length < 2 ^ 32

def HandleReply.pack (r : HandleReply) : Bytes :=
  header SSH_FXP_HANDLE r.id ++ pack_string [] r.handle

/-- A `STATUS` reply that says `EOF`. -/
structure EofReply where
  id : UInt32
  message : Bytes
  lang : Bytes
  message_lt : message.length < 2 ^ 32
  lang_lt : lang.length < 2 ^ 32

def EofReply.pack (r : EofReply) : Bytes :=
  pack_uint8 [] SSH_FXP_STATUS ++ (pack_uint32 [] r.id ++
    (pack_uint32 [] SSH_FX_EOF ++ (pack_string [] r.message ++ pack_string [] r.lang)))

/-- The file names other than `.` and `..`. -/
def listed (entries : List Entry) : List Bytes :=
  (entries.map Entry.filename).filter fun filename => filename ≠ lit "." ∧ filename ≠ lit ".."

/-- No file has extended attributes. -/
def NoPairs (entries : List Entry) : Prop := ∀ e ∈ entries, ¬ e.attrs.HasPairs

/-! ### A reply -/

theorem decodes_status {r : EofReply} :
    Decodes Raw.unpackReply r.pack (SSH_FXP_STATUS, some ⟨SSH_FX_EOF, r.message, r.lang⟩) := by
  unfold Raw.unpackReply EofReply.pack
  refine (decodes_uint8 SSH_FXP_STATUS).bind ?_
  refine (decodes_uint32 r.id).bind ?_
  rw [← List.append_nil (_ ++ _)]
  refine Decodes.bind (a := ⟨SSH_FX_EOF, r.message, r.lang⟩) ?_ (Decodes.pure _)
  refine (decodes_uint32 SSH_FX_EOF).bind ?_
  refine (decodes_string r.message_lt).bind ?_
  rw [← List.append_nil (pack_string [] r.lang)]
  exact (decodes_string r.lang_lt).bind (Decodes.pure _)

theorem listed_cons (e : Entry) (entries : List Entry) (c : List Bytes) :
    (if e.filename ≠ lit "." ∧ e.filename ≠ lit ".." then c ++ [e.filename] else c) ++
      listed entries = c ++ listed (e :: entries) := by
  unfold listed
  rw [List.map_cons]
  split_ifs with h
  · rw [List.filter_cons_of_pos (by simpa using h), List.append_assoc, List.singleton_append]
  · rw [List.filter_cons_of_neg (by simpa using h)]

/-- Without extended attributes all entries are decoded. -/
theorem decodes_namesLoop (attrs : Attributes) : ∀ (entries : List Entry) (c : List Bytes),
    NoPairs entries → Decodes (fun s => Raw.namesLoop attrs s entries.length c)
      (entries.flatMap Entry.pack) (c ++ listed entries) := by
  intro entries
  induction entries with
  | nil =>
    intro c _
    rw [show c ++ listed [] = c from List.append_nil c]
    exact Decodes.pure c
  | cons e entries ih =>
    intro c h
    obtain ⟨he, hentries⟩ := List.forall_mem_cons.mp h
    rw [List.flatMap_cons, Entry.pack, List.append_assoc, List.append_assoc, ← listed_cons]
    refine (decodes_string e.filename_lt).bind ?_
    refine (decodes_string e.longname_lt).bind ?_
    exact ((unpack_attrs_iff e.attrs attrs).mpr he).bind (ih _ hentries)

/-- Extended attributes make it fail. -/
theorem fails_namesLoop (attrs : Attributes) : ∀ (entries : List Entry) (c : List Bytes),
    ¬ NoPairs entries → Fails (fun s => Raw.namesLoop attrs s entries.length c)
      (entries.flatMap Entry.pack) := by
  intro entries
  induction entries with
  | nil =>
    intro c h
    exact absurd (fun e he => absurd he List.not_mem_nil) h
  | cons e entries ih =>
    intro c h
    rw [List.flatMap_cons, Entry.pack, List.append_assoc, List.append_assoc]
    refine Yields.bind (decodes_string e.filename_lt) ?_
    refine Yields.bind (decodes_string e.longname_lt) ?_
    by_cases he : e.attrs.HasPairs
    · exact (unpack_attrs_fails he attrs).bind _ _
    · refine Yields.bind ((unpack_attrs_iff e.attrs attrs).mpr he) (ih _ ?_)
      exact fun hentries => h (List.forall_mem_cons.mpr ⟨he, hentries⟩)

/-- The names of a reply are unpacked, if there are no extended attributes. -/
theorem wp_unpack_names (attrs : Attributes) (r : NameReply) (c : List Bytes)
    (conv : Conversation) :
    wp (Raw.unpack (Raw.names attrs r.pack c) 5)
      (fun result conv' => conv' = conv ∧ result.1 = c ++ listed r.entries ∧ NoPairs r.entries)
      (fun _ _ => ¬ NoPairs r.entries) conv := by
  have hcount : (UInt32.ofNat r.entries.length).toNat = r.entries.length :=
    UInt32.toNat_ofNat_of_lt' r.count_lt
  by_cases h : NoPairs r.entries
  · have hnames : Decodes (fun s => Raw.names attrs s c)
        (pack_uint32 [] (UInt32.ofNat r.entries.length) ++ r.entries.flatMap Entry.pack)
        (c ++ listed r.entries) := by
      refine (decodes_uint32 _).bind ?_
      rw [hcount]
      exact decodes_namesLoop attrs r.entries c h
    have hrun := hnames (header SSH_FXP_NAME r.id) []
    rw [List.append_nil] at hrun
    rw [Raw.unpack, show Raw.names attrs r.pack c 5 = _ from hrun]
    exact ⟨rfl, rfl, h⟩
  · have hnames : Fails (fun s => Raw.names attrs s c)
        (pack_uint32 [] (UInt32.ofNat r.entries.length) ++ r.entries.flatMap Entry.pack) := by
      refine Yields.bind (decodes_uint32 _) ?_
      rw [hcount]
      exact fails_namesLoop attrs r.entries c h
    obtain ⟨e, i, hrun⟩ := hnames (header SSH_FXP_NAME r.id) []
    rw [List.append_nil] at hrun
    rw [Raw.unpack, show Raw.names attrs r.pack c 5 = _ from hrun]
    exact h

/-- `check` lets an `EOF` pass. -/
theorem raw_check_eof (what : String) (path : Bytes) (r : EofReply) (conv : Conversation) :
    Raw.check what path r.pack true conv = .ok () conv := by
  have hrun := decodes_status (r := r) [] []
  rw [List.append_nil] at hrun
  change EStateM.bind (Raw.unpack (Raw.unpackReply r.pack) 0) _ conv = _
  rw [EStateM.bind, Raw.unpack, show Raw.unpackReply r.pack 0 = _ from hrun]
  rfl

theorem wp_await {Q : Bytes → Conversation → Prop} {E : Break → Conversation → Prop}
    {conv : Conversation} {reply : Bytes} {replies : List Bytes}
    (h : conv.replies = reply :: replies) (hQ : Q reply { conv with replies }) :
    wp Raw.await Q E conv := by
  unfold Raw.await
  rw [wp_bind, wp_get, h]
  exact hQ

/-! ### The loop -/

/-- The loop returns the names in all replies, or stops at a file with extended attributes. -/
theorem wp_contentsLoop (attrs : Attributes) (path cmd : Bytes) (eof : EofReply)
    (later : List Bytes) : ∀ (names : List NameReply) (turns : Nat) (c : List Bytes)
    (conv : Conversation), names.length < turns →
    conv.replies = names.map NameReply.pack ++ eof.pack :: later →
      wp (Raw.contentsLoop attrs path cmd turns c)
        (fun c' _ => c' = c ++ names.flatMap (fun r => listed r.entries) ∧
          ∀ r ∈ names, NoPairs r.entries)
        (fun _ _ => ¬ ∀ r ∈ names, NoPairs r.entries) conv := by
  intro names
  induction names with
  | nil =>
    intro turns c conv hturns hreplies
    obtain ⟨turns, rfl⟩ := Nat.exists_eq_succ_of_ne_zero (Nat.ne_of_gt hturns)
    rw [Raw.contentsLoop, wp_bind, Raw.send, wp_modify, wp_bind]
    refine wp_await hreplies ?_
    have htype : Raw.type eof.pack = SSH_FXP_STATUS := rfl
    rw [htype, if_neg (by decide), wp_bind]
    refine wp_of_ok (raw_check_eof _ path eof _) ?_
    exact ⟨(List.append_nil c).symm, fun r hr => absurd hr List.not_mem_nil⟩
  | cons r names ih =>
    intro turns c conv hturns hreplies
    obtain ⟨turns, rfl⟩ := Nat.exists_eq_succ_of_ne_zero (Nat.ne_of_gt (Nat.zero_lt_of_lt hturns))
    rw [Raw.contentsLoop, wp_bind, Raw.send, wp_modify, wp_bind]
    refine wp_await hreplies ?_
    rw [if_pos (show Raw.type r.pack = SSH_FXP_NAME from rfl), wp_bind]
    refine wp_mono (wp_unpack_names attrs r c _) ?_ ?_
    · rintro ⟨c', index⟩ conv' ⟨rfl, rfl, hr⟩
      refine wp_mono (ih turns _ _ (Nat.lt_of_succ_lt_succ hturns) rfl) ?_ ?_
      · rintro c' conv' ⟨rfl, hnames⟩
        exact ⟨by rw [List.flatMap_cons, List.append_assoc],
          List.forall_mem_cons.mpr ⟨hr, hnames⟩⟩
      · exact fun _ _ h hall => h (List.forall_mem_cons.mp hall).2
    · exact fun _ _ h hall => h (List.forall_mem_cons.mp hall).1

/-! ### `contents` -/

/-- A conversation in which the server is going to answer with a handle, with names and with `EOF`. -/
def listing (id : UInt32) (handle : HandleReply) (names : List NameReply) (eof : EofReply)
    (later : List Bytes) (sent : List Bytes) (ignored : List UInt32) : Conversation where
  id := id
  replies := handle.pack :: (names.map NameReply.pack ++ eof.pack :: later)
  sent := sent
  ignored := ignored

/-- The handle in a reply. -/
theorem unpack_handle (r : HandleReply) (conv : Conversation) :
    Raw.unpack (unpack_string r.pack) 5 conv = .ok (r.handle, r.pack.length) conv := by
  have hrun := decodes_string r.handle_lt (header SSH_FXP_HANDLE r.id) []
  rw [List.append_nil] at hrun
  rw [Raw.unpack, show unpack_string r.pack 5 = _ from hrun]
  rfl

theorem wp_contents (attrs : Attributes) (path : Bytes) (id : UInt32) (handle : HandleReply)
    (names : List NameReply) (eof : EofReply) (later sent : List Bytes) (ignored : List UInt32) :
    wp (Raw.contents attrs path [])
      (fun c' _ => c' = names.flatMap (fun r => listed r.entries) ∧
        ∀ r ∈ names, NoPairs r.entries)
      (fun _ _ => ¬ ∀ r ∈ names, NoPairs r.entries)
      (listing id handle names eof later sent ignored) := by
  unfold Raw.contents Raw.newid Raw.send
  rw [wp_bind, wp_bind, wp_get, wp_bind, wp_set, wp_pure, wp_bind, wp_modify, wp_bind]
  refine wp_await rfl ?_
  rw [wp_bind, Raw.checkHandle, if_neg (by rw [not_not]; rfl), wp_pure, wp_bind]
  refine wp_of_ok (unpack_handle handle _) ?_
  rw [wp_bind, wp_get, wp_bind, wp_tryCatch]
  refine wp_mono (wp_contentsLoop attrs path _ eof later names _ [] _ ?_ rfl) ?_ ?_
  · show names.length < (names.map NameReply.pack ++ eof.pack :: later).length + 1
    rw [List.length_append, List.length_map]
    omega
  · rintro c' conv ⟨rfl, hnames⟩
    exact ⟨rfl, hnames⟩
  · intro e conv h
    cases e <;> exact h

/-- **A listing returns exactly the names**, as attributes are unpacked, if no file has extended
attributes. -/
theorem contents_iff (attrs : Attributes) (path : Bytes) (id : UInt32) (handle : HandleReply)
    (names : List NameReply) (eof : EofReply) (later sent : List Bytes) (ignored : List UInt32) :
    ((∃ conv, Raw.contents attrs path [] (listing id handle names eof later sent ignored) =
      .ok (names.flatMap fun r => listed r.entries) conv) ↔ ∀ r ∈ names, NoPairs r.entries) ∧
    ∀ (a : AttrsBlock) (attrs : Attributes),
      Decodes (unpack_attrs attrs) a.pack (a.fields attrs) ↔ ¬ a.HasPairs := by
  refine ⟨⟨?_, ?_⟩, unpack_attrs_iff⟩
  · rintro ⟨conv, hrun⟩
    exact (wp_elim_ok (wp_contents attrs path id handle names eof later sent ignored) hrun).2
  · intro h
    have hwp := wp_contents attrs path id handle names eof later sent ignored
    cases hrun : Raw.contents attrs path [] (listing id handle names eof later sent ignored) with
    | ok c conv =>
      rw [(wp_elim_ok hwp hrun).1]
      exact ⟨conv, rfl⟩
    | error e conv => exact absurd h (wp_elim_error hwp hrun)

/-- A file `f` with one extended attribute, `k` with value `v`. -/
def extendedEntry : Entry where
  filename := lit "f"
  longname := []
  attrs := {
    flags := SSH_FILEXFER_ATTR_EXTENDED
    size := 0
    uid := 0
    gid := 0
    permissions := 0
    atime := 0
    mtime := 0
    extended := [(lit "k", lit "v")]
    count_lt := by decide
    sizes_lt := by decide }
  filename_lt := by decide
  longname_lt := by decide

/-- The listing of a directory with this file fails. -/
theorem not_contents_returns :
    ¬ ∀ (attrs : Attributes) (path : Bytes) (id : UInt32) (handle : HandleReply)
        (names : List NameReply) (eof : EofReply) (later sent : List Bytes) (ignored : List UInt32),
      ∃ conv, Raw.contents attrs path [] (listing id handle names eof later sent ignored) =
        .ok (names.flatMap fun r => listed r.entries) conv := by
  intro h
  let handle : HandleReply := ⟨1, lit "h", by decide⟩
  let names : List NameReply := [⟨1, [extendedEntry], by decide⟩]
  let eof : EofReply := ⟨1, [], [], by decide, by decide⟩
  let attrs : Attributes := ⟨0, 0, 0, 0, 0, 0, 0, Details.empty⟩
  obtain ⟨conv, hrun⟩ := h attrs (lit "/d") 1 handle names eof [] [] []
  have hnone := (wp_elim_ok (wp_contents attrs (lit "/d") 1 handle names eof [] [] []) hrun).2
  exact hnone _ (List.mem_singleton_self _) extendedEntry (List.mem_singleton_self _)
    ⟨by decide, by decide⟩

end Hbackup.Sftp
