import Hbackup.Sftp.Equiv.Client

/-!
# Pipelined reading

The reads under way are described by tickets, in the order of the queue: each continues where the
one before it ends.  Whatever the order in which replies arrive, the reply handed to the caller is
that to the first ticket, so the bytes handed out continue the file (`wp_readbytes`), and the first
reply that says end of file comes when all of it has been handed out.
-/

namespace Hbackup.Sftp

open ProgramLogic

variable {server : Nat → Request → Reply}

/-! ### Tickets -/

/-- A read under way: number of its id, and the range of the file it asks for. -/
structure Ticket where
  n : Nat
  offset : Nat
  len : Nat

def Ticket.id (t : Ticket) : UInt32 := idOf t.n

def Ticket.req (t : Ticket) (handle : Bytes) : Request :=
  .READ handle (UInt64.ofNat t.offset) (UInt32.ofNat t.len)

/-- Tickets from number `n` and offset `off` to number `m` and offset `e`, without a gap. -/
def Contiguous : Nat → Nat → List Ticket → Nat → Nat → Prop
  | n, off, [], m, e => n = m ∧ off = e
  | n, off, t :: ts, m, e =>
    t.n = n ∧ t.offset = off ∧ 1 ≤ t.len ∧ t.len < 2 ^ 32 ∧ Contiguous (n + 1) (off + t.len) ts m e

theorem Contiguous.length : ∀ {ts : List Ticket} {n off m e : Nat}, Contiguous n off ts m e →
    m = n + ts.length ∧ off ≤ e ∧ e ≤ off + ts.length * 2 ^ 32
  | [], n, off, m, e, h => by
    obtain ⟨rfl, rfl⟩ := h
    simp
  | t :: ts, n, off, m, e, h => by
    obtain ⟨rfl, rfl, h1, h2, h⟩ := h
    obtain ⟨h3, h4, h5⟩ := Contiguous.length h
    simp only [List.length_cons]
    omega

theorem Contiguous.append {len : Nat} (h1 : 1 ≤ len) (h2 : len < 2 ^ 32) :
    ∀ {ts : List Ticket} {n off m e : Nat}, Contiguous n off ts m e →
      Contiguous n off (ts ++ [⟨m, e, len⟩]) (m + 1) (e + len)
  | [], n, off, m, e, h => by
    obtain ⟨rfl, rfl⟩ := h
    exact ⟨rfl, rfl, h1, h2, rfl, rfl⟩
  | t :: ts, n, off, m, e, h => by
    obtain ⟨rfl, rfl, h3, h4, h⟩ := h
    exact ⟨rfl, rfl, h3, h4, Contiguous.append h1 h2 h⟩

theorem Contiguous.mem : ∀ {ts : List Ticket} {n off m e : Nat}, Contiguous n off ts m e →
    ∀ t ∈ ts, n ≤ t.n ∧ t.n < m
  | [], _, _, _, _, _, t, ht => by cases ht
  | t :: ts, n, off, m, e, h, t', ht' => by
    obtain ⟨rfl, rfl, -, -, h⟩ := h
    have hlen := (Contiguous.length h).1
    rcases List.mem_cons.mp ht' with rfl | ht'
    · omega
    · have := Contiguous.mem h t' ht'
      omega

/-- Tickets that are in the queue together have different ids. -/
theorem Contiguous.id_inj {ts : List Ticket} {n off m e : Nat} (h : Contiguous n off ts m e)
    (hsmall : ts.length ≤ readqueuesize) {t t' : Ticket} (ht : t ∈ ts) (ht' : t' ∈ ts)
    (he : t.id = t'.id) : t.n = t'.n := by
  have h1 := h.mem t ht
  have h2 := h.mem t' ht'
  have h3 := h.length.1
  unfold readqueuesize at hsmall
  rcases Nat.lt_trichotomy t.n t'.n with hlt | heq | hgt
  · exact absurd he (idOf_ne hlt (by omega))
  · exact heq
  · exact absurd he.symm (idOf_ne hgt (by omega))

/-- The tickets behind the first one have other ids. -/
theorem Contiguous.id_ne {t : Ticket} {ts : List Ticket} {n off m e : Nat}
    (h : Contiguous n off (t :: ts) m e) (hsmall : (t :: ts).length ≤ readqueuesize) :
    ∀ t' ∈ ts, t'.id ≠ t.id := by
  intro t' ht' he
  have hn := h.id_inj hsmall (List.mem_cons_of_mem t ht') List.mem_cons_self he
  have h' := h.2.2.2.2.mem t' ht'
  have := h.1
  omega

/-- The next id is none of those in the queue. -/
theorem Contiguous.next_ne {ts : List Ticket} {n off m e : Nat} (h : Contiguous n off ts m e)
    (hsmall : ts.length < readqueuesize) : ∀ t ∈ ts, t.id ≠ idOf m := by
  intro t ht
  have h1 := h.mem t ht
  have h2 := h.length.1
  unfold readqueuesize at hsmall
  exact idOf_ne h1.2 (by omega)

/-! ### Replies on the way -/

/-- The requests in flight and the replies are those of the tickets `ts` and of `others`, that
have nothing to do with them. -/
structure Awaited (server : Nat → Request → Reply) (handle : Bytes) (others : List UInt32)
    (ts : List Ticket) (c : Client) : Prop where
  tickets : ∀ t ∈ ts, t.id ∉ others
  ignored : ∀ id ∈ c.ignored, id ∈ others
  outstanding : ∀ p ∈ c.outstanding, p.id ∈ others ∨ ∃ t ∈ ts, p.id = t.id ∧ p.req = t.req handle
  replies : ∀ r ∈ c.replies,
    r.1 ∈ others ∨ ∃ t ∈ ts, r.1 = t.id ∧ r.2.2 = server r.2.1 (t.req handle)
  once : ∀ id ∉ others,
    (c.outstanding.map Pending.id).count id + (c.replies.map Prod.fst).count id ≤ 1

/-- What the client does not touch while it waits. -/
structure Unmoved (c c' : Client) : Prop where
  files : c'.files = c.files
  id : c'.id = c.id

theorem Unmoved.rfl {c : Client} : Unmoved c c := ⟨Eq.refl _, Eq.refl _⟩

theorem count_otherReplies (c : Client) (id id' : UInt32) :
    ((c.otherReplies id).map Prod.fst).count id' =
      if id' = id then 0 else (c.replies.map Prod.fst).count id' := by
  have hfilter : (c.otherReplies id).map Prod.fst = (c.replies.map Prod.fst).filter (· ≠ id) := by
    rw [Client.otherReplies, List.filter_map]
    rfl
  rw [hfilter]
  split_ifs with he
  · rw [he]
    exact List.count_eq_zero.mpr fun hm => by simp at hm
  · exact List.count_filter (by simpa using he)

theorem count_erase_id {l : List Pending} {p : Pending} (hp : p ∈ l) (id : UInt32) :
    ((l.erase p).map Pending.id).count id + (if p.id = id then 1 else 0) =
      (l.map Pending.id).count id := by
  rw [((List.perm_cons_erase hp).map Pending.id).count_eq id, List.map_cons, List.count_cons]
  simp only [beq_iff_eq]

theorem Awaited.receives (handle : Bytes) (others : List UInt32) (ts : List Ticket) (c : Client) :
    Receives server fun c' => Awaited server handle others ts c' ∧ Unmoved c c' where
  passes c' schedule h :=
    ⟨⟨h.1.tickets, h.1.ignored, h.1.outstanding, h.1.replies, h.1.once⟩, h.2.files, h.2.id⟩
  files c' p schedule h hp := by
    obtain ⟨h, hu⟩ := h
    have hmem : ∀ {q}, q ∈ c'.outstanding.erase p → q ∈ c'.outstanding := List.mem_of_mem_erase
    have hcount := count_erase_id hp
    rw [stash, wp_bind, wp_get]
    split_ifs with hig
    · -- somebody else's reply
      refine ⟨⟨h.tickets, fun id hid => h.ignored id (List.mem_of_mem_erase hid),
        fun q hq => h.outstanding q (hmem hq), h.replies, fun id hid => ?_⟩, hu.files, hu.id⟩
      have h1 := h.once id hid
      have h2 := hcount id
      simp only
      omega
    · refine ⟨⟨h.tickets, h.ignored, fun q hq => h.outstanding q (hmem hq), ?_, fun id hid => ?_⟩,
        hu.files, hu.id⟩
      · intro r hr
        rcases List.mem_cons.mp hr with rfl | hr
        · rcases h.outstanding p hp with ho | ⟨t, ht, hid, hreq⟩
          · exact .inl ho
          · exact .inr ⟨t, ht, hid, by simp only [hreq]⟩
        · exact h.replies r (List.mem_of_mem_filter hr)
      · have h1 := h.once id hid
        have h2 := hcount id
        simp only [List.map_cons, List.count_cons, beq_iff_eq]
        change _ + (((c'.otherReplies p.id).map Prod.fst).count id + _) ≤ 1
        rw [count_otherReplies]
        by_cases he : p.id = id
        · rw [if_pos he] at h2
          rw [if_pos he.symm, if_pos he]
          omega
        · rw [if_neg he] at h2
          rw [if_neg (Ne.symm he), if_neg he]
          omega

/-- A new request joins. -/
theorem Awaited.send {handle : Bytes} {others : List UInt32} {ts : List Ticket} {c : Client}
    {t : Ticket} (h : Awaited server handle others ts c) (ht : t.id ∉ others)
    (hne : ∀ t' ∈ ts, t'.id ≠ t.id) (serial serial' : Nat) (log : List Event) :
    Awaited server handle others (ts ++ [t]) { c with
      outstanding := c.outstanding ++ [⟨serial, t.id, t.req handle⟩]
      serial := serial'
      log } where
  tickets t' ht' := by
    rcases List.mem_append.mp ht' with ht' | ht'
    · exact h.tickets t' ht'
    · rwa [List.mem_singleton.mp ht']
  ignored := h.ignored
  outstanding p hp := by
    rcases List.mem_append.mp hp with hp | hp
    · rcases h.outstanding p hp with ho | ⟨t', ht', hid⟩
      · exact .inl ho
      · exact .inr ⟨t', List.mem_append_left _ ht', hid⟩
    · rw [List.mem_singleton.mp hp]
      exact .inr ⟨t, by simp, rfl, rfl⟩
  replies r hr := by
    rcases h.replies r hr with ho | ⟨t', ht', hid⟩
    · exact .inl ho
    · exact .inr ⟨t', List.mem_append_left _ ht', hid⟩
  once id hid := by
    have h1 := h.once id hid
    simp only [List.map_append, List.count_append, List.map_cons, List.map_nil, List.count_cons,
      List.count_nil, beq_iff_eq]
    split_ifs with he
    · -- nothing was under way under this id
      have h2 : (c.outstanding.map Pending.id).count id = 0 := by
        refine List.count_eq_zero.mpr fun hm => ?_
        obtain ⟨p, hp, hpid⟩ := List.mem_map.mp hm
        rcases h.outstanding p hp with ho | ⟨t', ht', hid', -⟩
        · exact hid (hpid ▸ ho)
        · exact hne t' ht' (by rw [← hid', hpid, he])
      have h3 : (c.replies.map Prod.fst).count id = 0 := by
        refine List.count_eq_zero.mpr fun hm => ?_
        obtain ⟨r, hr, hrid⟩ := List.mem_map.mp hm
        rcases h.replies r hr with ho | ⟨t', ht', hid', -⟩
        · exact hid (hrid ▸ ho)
        · exact hne t' ht' (by rw [← hid', hrid, he])
      omega
    · omega

/-- The reply to the first request is collected. -/
theorem Awaited.collect {handle : Bytes} {others : List UInt32} {t : Ticket} {ts : List Ticket}
    {c : Client} (h : Awaited server handle others (t :: ts) c)
    (hne : ∀ t' ∈ ts, t'.id ≠ t.id) {s : Nat} {reply : Reply}
    (hl : c.replies.lookup t.id = some (s, reply)) (log : List Event) :
    reply = server s (t.req handle) ∧
      Awaited server handle others ts { c with replies := c.otherReplies t.id, log } := by
  have hmem := mem_of_lookup hl
  have ho := h.tickets t List.mem_cons_self
  -- there is one of a kind, so that nothing else is on its way to this ticket
  have hgone : (c.outstanding.map Pending.id).count t.id = 0 := by
    have h1 := h.once t.id ho
    have h2 : 0 < (c.replies.map Prod.fst).count t.id :=
      List.count_pos_iff.mpr (List.mem_map.mpr ⟨_, hmem, rfl⟩)
    omega
  refine ⟨?_, fun t' ht' => h.tickets t' (List.mem_cons_of_mem t ht'), h.ignored, ?_, ?_, ?_⟩
  · rcases h.replies _ hmem with ho' | ⟨t', ht', hid, hr⟩
    · exact absurd ho' ho
    rcases List.mem_cons.mp ht' with rfl | ht'
    · exact hr
    · exact absurd hid.symm (hne t' ht')
  · intro p hp
    rcases h.outstanding p hp with ho' | ⟨t', ht', hid, hr⟩
    · exact .inl ho'
    rcases List.mem_cons.mp ht' with rfl | ht'
    · exact absurd (List.mem_map.mpr ⟨p, hp, hid⟩) (List.count_eq_zero.mp hgone)
    · exact .inr ⟨t', ht', hid, hr⟩
  · intro r hr
    rw [Client.otherReplies, List.mem_filter] at hr
    rcases h.replies r hr.1 with ho' | ⟨t', ht', hid, hr'⟩
    · exact .inl ho'
    rcases List.mem_cons.mp ht' with rfl | ht'
    · simp [hid] at hr
    · exact .inr ⟨t', ht', hid, hr'⟩
  · intro id hid
    have h1 := h.once id hid
    change (c.outstanding.map Pending.id).count id +
      ((c.otherReplies t.id).map Prod.fst).count id ≤ 1
    rw [count_otherReplies]
    split_ifs <;> omega

/-! ### The read queue -/

/-- File `k` is `f`, and its queue holds the tickets `ts` from number `n` and offset `off` on; the
next id is number `m`. -/
structure Queued (server : Nat → Request → Reply) (others : List UInt32) (k : Nat) (f : SftpFile)
    (ts : List Ticket) (n off m : Nat) (c : Client) : Prop where
  file : c.files[k]? = some (some f)
  queue : f.readqueue = ts.map Ticket.id
  short : ts.length ≤ readqueuesize
  contiguous : Contiguous n off ts m f.readoffset.toNat
  next : NextId m c
  awaited : Awaited server f.handle others ts c

/-- One more read is sent; it starts where the last one ends. -/
theorem Queued.wp_fillQueue {others : List UInt32} {k space n off M : Nat} (h1 : 1 ≤ space)
    (h2 : space < 2 ^ 31) (hoff : off < 2 ^ 63 + 2 ^ 32) :
    ∀ (turns : Nat) {f : SftpFile} {ts : List Ticket} {m : Nat} {c : Client},
      Queued server others k f ts n off m c → (∀ i, m ≤ i → i < M → idOf i ∉ others) →
      m + turns ≤ M → readqueuesize ≤ ts.length + turns →
      wp (fillQueue server k space turns)
        (fun _ c' => ∃ f' ts' m', Queued server others k f' ts' n off m' c' ∧ m' ≤ m + turns ∧
          ts'.length = readqueuesize ∧ f' = { f with
            readqueue := f'.readqueue, readoffset := f'.readoffset })
        (fun _ _ => False) c
  | 0, f, ts, m, c, h, _, _, hfull => by
    rw [fillQueue, wp_pure]
    exact ⟨f, ts, m, h, by omega, by have := h.short; omega, rfl⟩
  | turns + 1, f, ts, m, c, h, hfresh, hM, hfull => by
    rw [fillQueue, wp_bind, wp_getFile h.file, wp_ite]
    have hlen : f.readqueue.length = ts.length := by rw [h.queue, List.length_map]
    split_ifs with hshort
    swap
    · rw [wp_pure]
      exact ⟨f, ts, m, h, by omega, by have := h.short; omega, rfl⟩
    rw [hlen] at hshort
    rw [wp_bind]
    refine wp_mono h.next.wp_newid ?_ (fun _ _ h => h)
    rintro _ c₁ ⟨rfl, hc₁⟩
    rw [wp_bind, wp_setFile, wp_bind]
    -- the file as it is while the request is being sent
    set f₁ : SftpFile := { f with readoffset := f.readoffset + UInt64.ofNat space } with hf₁
    set c₂ : Client := { c₁ with files := c₁.files.set k (some f₁) } with hc₂
    have hfile₂ : c₂.files[k]? = some (some f₁) := files_set (by rw [hc₁]; exact h.file) f₁
    have hid₂ : c₂.id = idOf m + 1 := by rw [hc₂, hc₁]
    have hawaited : Awaited server f.handle others ts c₂ := by
      rw [hc₂, hc₁]
      exact ⟨h.awaited.tickets, h.awaited.ignored, h.awaited.outstanding, h.awaited.replies,
        h.awaited.once⟩
    -- no offset overflows
    have hends := h.contiguous.length
    have hroff : (f.readoffset + UInt64.ofNat space).toNat = f.readoffset.toNat + space := by
      unfold readqueuesize at hshort
      rw [UInt64.toNat_add, UInt64.toNat_ofNat_of_lt' (by omega : space < 2 ^ 64)]
      exact Nat.mod_eq_of_lt (by omega)
    let t : Ticket := ⟨m, f.readoffset.toNat, space⟩
    have hreq : Request.READ f.handle f.readoffset (UInt32.ofNat space) = t.req f.handle := by
      simp only [Ticket.req, t, UInt64.ofNat_toNat]
    rw [hreq]
    refine wp_mono ((Awaited.receives f.handle others ts c₂).wp_send _ _ ⟨hawaited, .rfl⟩) ?_
      (fun _ _ h => h)
    rintro _ c₄ ⟨c₃, ⟨hawaited₃, hmoved⟩, hc₄⟩
    have hfile₄ : c₄.files[k]? = some (some f₁) := by rw [hc₄]; simp only [hmoved.files, hfile₂]
    rw [wp_bind, wp_getFile hfile₄, wp_bind, wp_setFile]
    set f₂ : SftpFile := { f₁ with readqueue := f₁.readqueue ++ [idOf m] } with hf₂
    have hqueued : Queued server others k f₂ (ts ++ [t]) n off (m + 1)
        { c₄ with files := c₄.files.set k (some f₂) } := by
      refine ⟨files_set hfile₄ _, ?_, ?_, ?_, NextId.succ ?_, ?_⟩
      · simp only [hf₂, hf₁, h.queue, List.map_append]
        rfl
      · rw [List.length_append]
        exact hshort
      · simp only [hf₂, hf₁, hroff]
        exact h.contiguous.append h1 (by omega)
      · rw [hc₄]
        simp only [hmoved.id, hid₂]
      · have hsent := hawaited₃.send (t := t) (hfresh m (Nat.le_refl _) (by omega))
          (h.contiguous.next_ne hshort) c₃.serial (c₃.serial + 1)
          (.sent ⟨c₃.serial, t.id, t.req f.handle⟩ :: c₃.log)
        rw [hc₄]
        exact ⟨hsent.tickets, hsent.ignored, hsent.outstanding, hsent.replies, hsent.once⟩
    refine wp_mono (hqueued.wp_fillQueue h1 h2 hoff turns
      (fun i hi hi' => hfresh i (by omega) hi') (by omega) (by simp; omega)) ?_ (fun _ _ h => h)
    rintro _ c' ⟨f', ts', m', hq, hm', hlen', hf'⟩
    exact ⟨f', ts', m', hq, by omega, hlen', by rw [hf']⟩

/-- At end of file the queue is emptied. -/
theorem wp_ignoreQueue {k : Nat} : ∀ (turns : Nat) {f : SftpFile} {c : Client},
    c.files[k]? = some (some f) → f.readqueue.length = turns →
    wp (ignoreQueue k turns)
      (fun _ c' => c'.files[k]? = some (some { f with readqueue := [] })) (fun _ _ => False) c
  | 0, f, c, hf, hlen => by
    rw [ignoreQueue, wp_pure, hf, ← List.eq_nil_of_length_eq_zero hlen]
  | turns + 1, f, c, hf, hlen => by
    rw [ignoreQueue, wp_bind, wp_getFile hf]
    match hq : f.readqueue with
    | [] => simp [hq] at hlen
    | id :: rest =>
      simp only [wp_bind]
      rw [ignore, wp_modify]
      refine wp_mono (wp_ignoreQueue turns (f := { f with readqueue := rest }) (files_set hf _) ?_)
        (fun _ _ h => h) (fun _ _ h => h)
      rw [hq] at hlen
      exact Nat.succ.inj hlen

/-! ### One call of `readbytes` -/

/-- The server reads a file that does not change. -/
def Honest (server : Nat → Request → Reply) (handle content : Bytes) : Prop :=
  ∀ (serial : Nat) (offset : UInt64) (len : UInt32),
    (offset.toNat < content.length → server serial (.READ handle offset len) =
      .DATA ((content.drop offset.toNat).take len.toNat)) ∧
    (content.length ≤ offset.toNat → ∃ message,
      server serial (.READ handle offset len) = .STATUS SSH_FX_EOF message)

/-- The bytes `done`, already returned, and those in the buffer are the file up to where the queue
starts; `left` more calls use none of the ids `others`. -/
def Reading (server : Nat → Request → Reply) (handle content : Bytes) (others : List UInt32)
    (k left : Nat) (done : Bytes) (c : Client) : Prop :=
  ∃ f ts n off m, Queued server others k f ts n off m c ∧ f.handle = handle ∧ f.eof = false ∧
    done ++ f.readbuffer = content.take off ∧ off ≤ content.length + 2 ^ 32 ∧
    ∀ i < readqueuesize * left, idOf (m + i) ∉ others

/-- The end of file has been seen, and nothing is left in the buffer. -/
def Finished (k : Nat) (c : Client) : Prop :=
  ∃ f, c.files[k]? = some (some f) ∧ f.eof = true ∧ f.readqueue = [] ∧ f.readbuffer = []

/-- The bytes that `readbytes` hands out. -/
theorem wp_readbuffer {k space : Nat} {f : SftpFile} {c : Client}
    (hf : c.files[k]? = some (some f)) {Q : Bytes → Client → Prop} {E : Stop → Client → Prop}
    (h : Q (f.readbuffer.take space) { c with
      files := c.files.set k (some { f with readbuffer := f.readbuffer.drop space }) }) :
    wp (do
      let f ← getFile k
      let n := min space f.readbuffer.length
      setFile k { f with readbuffer := f.readbuffer.drop n }
      return f.readbuffer.take n) Q E c := by
  rw [wp_bind, wp_getFile hf, wp_bind, wp_setFile, wp_pure]
  rcases Nat.le_total space f.readbuffer.length with hle | hle
  · rwa [Nat.min_eq_left hle]
  · rw [Nat.min_eq_right hle, List.take_length, List.drop_length]
    rwa [List.take_of_length_le hle, List.drop_eq_nil_of_le hle] at h

theorem Queued.wp_refill {others : List UInt32} {k space n off m left : Nat} {f : SftpFile}
    {ts : List Ticket} {c : Client} (hq : Queued server others k f ts n off m c) (h1 : 1 ≤ space)
    (h2 : space < 2 ^ 31) (hoff : off < 2 ^ 63 + 2 ^ 32) (heof : f.eof = false)
    (hfresh : ∀ i < readqueuesize * (left + 1), idOf (m + i) ∉ others) :
    wp (refill server k space)
      (fun _ c' => ∃ f' ts' m', Queued server others k f' ts' n off m' c' ∧
        ts'.length = readqueuesize ∧ (∀ i < readqueuesize * left, idOf (m' + i) ∉ others) ∧
        f' = { f with readqueue := f'.readqueue, readoffset := f'.readoffset })
      (fun _ _ => False) c := by
  have hlen : f.readqueue.length = ts.length := by rw [hq.queue, List.length_map]
  rw [refill, wp_bind, wp_getFile hq.file, wp_ite, hlen]
  rw [Nat.mul_succ] at hfresh
  split_ifs with hshort
  · refine wp_mono (hq.wp_fillQueue h1 h2 hoff readqueuesize
      (M := m + (readqueuesize * left + readqueuesize)) ?_ (by omega) (by omega)) ?_
      (fun _ _ h => h)
    · intro i hi hi'
      have := hfresh (i - m) (by omega)
      rwa [Nat.add_sub_cancel' hi] at this
    · rintro _ c' ⟨f', ts', m', hq', hm', hlen', hf'⟩
      refine ⟨f', ts', m', hq', hlen', fun i hi => ?_, hf'⟩
      have h1 := hq.contiguous.length.1
      have h2 := hq'.contiguous.length.1
      have h3 := hq.short
      have := hfresh (m' + i - m) (by omega)
      rwa [show m + (m' + i - m) = m' + i by omega] at this
  · have h3 := hq.short
    refine ⟨f, ts, m, hq, ?_, fun i hi => hfresh i (by omega), rfl⟩
    rw [not_and] at hshort
    have := hshort heof
    omega

/-- Bytes of the buffer are handed out. -/
theorem Reading.take {handle content : Bytes} {others : List UInt32} {k left : Nat}
    {f : SftpFile} {ts : List Ticket} {n off m : Nat} {done : Bytes} {c : Client}
    (hq : Queued server others k f ts n off m c) (hhandle : f.handle = handle)
    (heof : f.eof = false) (hdone : done ++ f.readbuffer = content.take off)
    (hoff : off ≤ content.length + 2 ^ 32)
    (hfresh : ∀ i < readqueuesize * left, idOf (m + i) ∉ others) (space : Nat) :
    Reading server handle content others k left (done ++ f.readbuffer.take space) { c with
      files := c.files.set k (some { f with readbuffer := f.readbuffer.drop space }) } :=
  ⟨{ f with readbuffer := f.readbuffer.drop space }, ts, n, off, m,
    ⟨files_set hq.file _, hq.queue, hq.short, hq.contiguous, hq.next,
      ⟨hq.awaited.tickets, hq.awaited.ignored, hq.awaited.outstanding, hq.awaited.replies,
        hq.awaited.once⟩⟩,
    hhandle, heof, by rw [List.append_assoc, List.take_append_drop, hdone], hoff, hfresh⟩

/-- End of file is not an error. -/
theorem check_eof (what : String) (path message : Bytes) :
    check what path (.STATUS SSH_FX_EOF message) true = pure () := rfl

/-- After the reply to the first read there is something in the buffer, or the whole file has been
handed out. -/
theorem Queued.wp_rebuffer {content : Bytes} {others : List UInt32} {k n off m : Nat}
    {f : SftpFile} {ts : List Ticket} {done : Bytes} {c : Client}
    (hq : Queued server others k f ts n off m c) (hserver : Honest server f.handle content)
    (hsize : content.length < 2 ^ 63) (hfull : ts.length = readqueuesize)
    (hdone : done ++ f.readbuffer = content.take off) (hoff : off ≤ content.length + 2 ^ 32) :
    wp (rebuffer server k)
      (fun _ c' => (∃ f' ts' n' off', Queued server others k f' ts' n' off' m c' ∧
          f'.readbuffer ≠ [] ∧ done ++ f'.readbuffer = content.take off' ∧
          off' ≤ content.length + 2 ^ 32 ∧ f'.handle = f.handle ∧ f'.eof = f.eof) ∨
        (done = content ∧ Finished k c'))
      (fun stop c' => stop = .blocked ∧ c'.schedule = []) c := by
  rw [rebuffer, wp_bind, wp_getFile hq.file]
  by_cases hbuf : f.readbuffer = []
  swap
  · -- there is something in the buffer already
    obtain ⟨b, bs, hb⟩ := List.exists_cons_of_ne_nil hbuf
    rw [hb]
    exact .inl ⟨f, ts, n, off, hq, hbuf, hdone, hoff, rfl, rfl⟩
  obtain ⟨t, ts, rfl⟩ : ∃ t ts', ts = t :: ts' := by
    cases ts with
    | nil => simp [readqueuesize] at hfull
    | cons t ts => exact ⟨t, ts, rfl⟩
  have hqueue := hq.queue
  rw [hbuf, List.append_nil] at hdone
  rw [List.map_cons] at hqueue
  rw [hbuf, hqueue]
  simp only
  rw [wp_bind, wp_setFile, wp_bind]
  -- the front of the queue is taken off, and its reply awaited
  set f₁ : SftpFile := { f with readqueue := ts.map Ticket.id, readbuffer := [] }
  set c₁ : Client := { c with files := c.files.set k (some f₁) }
  have hne := hq.contiguous.id_ne hq.short
  have hawaited₁ : Awaited server f.handle others (t :: ts) c₁ :=
    ⟨hq.awaited.tickets, hq.awaited.ignored, hq.awaited.outstanding, hq.awaited.replies,
      hq.awaited.once⟩
  refine wp_mono ((Awaited.receives f.handle others (t :: ts) c₁).wp_await t.id
    ⟨hawaited₁, .rfl⟩) ?_ (fun _ _ h => ⟨h.1, h.2.1.1⟩)
  rintro r c₃ ⟨c₂, s, ⟨hawaited₂, hmoved⟩, hl, hc₃⟩
  obtain ⟨hr, hawaited₃⟩ := hawaited₂.collect hne hl (.delivered s :: c₂.log)
  rw [← hc₃] at hawaited₃
  have hfile₃ : c₃.files[k]? = some (some f₁) := by
    rw [hc₃]
    simp only [hmoved.files]
    exact files_set hq.file f₁
  obtain ⟨rfl, rfl, hlen1, hlen2, hcontiguous⟩ := hq.contiguous
  -- what the reply is
  have hoffset : (UInt64.ofNat t.offset).toNat = t.offset :=
    UInt64.toNat_ofNat_of_lt' (by change _ < 2 ^ 64; omega)
  have hlen : (UInt32.ofNat t.len).toNat = t.len := UInt32.toNat_ofNat_of_lt' hlen2
  obtain ⟨hdata, heof⟩ := hserver s (UInt64.ofNat t.offset) (UInt32.ofNat t.len)
  rw [hoffset, hlen] at hdata
  rw [hoffset] at heof
  rcases Nat.lt_or_ge t.offset content.length with hlt | hge
  · rw [show r = _ from hr.trans (hdata hlt)]
    simp only
    rw [wp_bind, wp_getFile hfile₃, wp_setFile]
    refine .inl ⟨{ f₁ with readbuffer := (content.drop t.offset).take t.len }, ts, t.n + 1,
      t.offset + t.len, ⟨files_set hfile₃ _, rfl, ?_, hcontiguous, ?_, ?_⟩, ?_, ?_, ?_, rfl, rfl⟩
    · have := hq.short
      rw [List.length_cons] at this
      omega
    · have := hq.next
      rw [NextId] at this ⊢
      rw [hc₃]
      simp only [hmoved.id]
      exact this
    · exact ⟨hawaited₃.tickets, hawaited₃.ignored, hawaited₃.outstanding, hawaited₃.replies,
        hawaited₃.once⟩
    · intro hnil
      have := congrArg List.length hnil
      rw [List.length_take, List.length_drop, List.length_nil] at this
      omega
    · rw [List.take_add, hdone]
    · omega
  · obtain ⟨message, heof⟩ := heof hge
    rw [show r = _ from hr.trans heof]
    simp only
    rw [check_eof, wp_bind, wp_pure, wp_bind]
    refine wp_mono (wp_ignoreQueue (ts.map Ticket.id).length hfile₃ rfl) ?_ (fun _ _ h => h.elim)
    intro _ c₄ hfile₄
    rw [wp_bind, wp_getFile hfile₄, wp_setFile]
    refine .inr ⟨?_, ⟨_, files_set hfile₄ _, rfl, rfl, rfl⟩⟩
    rw [hdone, List.take_of_length_le hge]

/-- **One call of `readbytes`** returns the next bytes of the file, and none only when there are
none left. -/
theorem Reading.wp_readbytes {handle content : Bytes} {others : List UInt32} {k left space : Nat}
    {done : Bytes} {c : Client} (hserver : Honest server handle content)
    (hsize : content.length < 2 ^ 63) (h1 : 1 ≤ space) (h2 : space < 2 ^ 31)
    (h : Reading server handle content others k (left + 1) done c) :
    wp (readbytes server k space)
      (fun r c' => (r ≠ [] ∧ Reading server handle content others k left (done ++ r) c') ∨
        (r = [] ∧ done = content ∧ Finished k c'))
      (fun stop c' => stop = .blocked ∧ c'.schedule = []) c := by
  obtain ⟨f, ts, n, off, m, hq, rfl, heof, hdone, hoff, hfresh⟩ := h
  rw [readbytes, wp_bind]
  refine wp_mono (hq.wp_refill h1 h2 (by omega) heof hfresh) ?_ (fun _ _ h => h.elim)
  rintro _ c₁ ⟨f₁, ts₁, m₁, hq₁, hfull, hfresh₁, hf₁⟩
  have hhandle : f₁.handle = f.handle := by rw [hf₁]
  have heof₁ : f₁.eof = false := by rw [hf₁]; exact heof
  have hdone₁ : done ++ f₁.readbuffer = content.take off := by rw [hf₁]; exact hdone
  rw [wp_bind]
  refine wp_mono (hq₁.wp_rebuffer (hhandle ▸ hserver) hsize hfull hdone₁ hoff) ?_ (fun _ _ h => h)
  rintro _ c₂ (⟨f₂, ts₂, n₂, off₂, hq₂, hne, hdone₂, hoff₂, hhandle₂, heof₂⟩ | ⟨hall, hfin⟩)
  · refine wp_readbuffer hq₂.file (.inl ⟨?_, Reading.take hq₂ (hhandle₂.trans hhandle)
      (heof₂.trans heof₁) hdone₂ hoff₂ hfresh₁ space⟩)
    intro hnil
    rcases List.take_eq_nil_iff.mp hnil with h | h
    · omega
    · exact hne h
  · obtain ⟨f₂, hfile₂, heof₂, hqueue₂, hbuf₂⟩ := hfin
    refine wp_readbuffer hfile₂ (.inr ⟨by rw [hbuf₂, List.take_nil], hall, ?_⟩)
    exact ⟨_, files_set hfile₂ _, heof₂, hqueue₂, by rw [hbuf₂, List.drop_nil]⟩

/-- At end of file `readbytes` does nothing. -/
theorem Finished.wp_readbytes {k : Nat} {c : Client} (h : Finished k c) (space : Nat) :
    wp (readbytes server k space) (fun r c' => r = [] ∧ Finished k c') (fun _ _ => False) c := by
  obtain ⟨f, hfile, heof, hqueue, hbuf⟩ := h
  rw [readbytes, wp_bind, refill, wp_bind, wp_getFile hfile, wp_ite,
    if_neg (by rw [heof]; simp), wp_pure, wp_bind, rebuffer, wp_bind, wp_getFile hfile, hqueue,
    hbuf]
  refine wp_readbuffer hfile ⟨by rw [hbuf, List.take_nil], ?_⟩
  exact ⟨_, files_set hfile _, heof, hqueue, by rw [hbuf, List.drop_nil]⟩

/-! ### Any number of calls -/

/-- What has been handed out begins the file. -/
theorem Reading.isPrefix {handle content : Bytes} {others : List UInt32} {k left : Nat}
    {done : Bytes} {c : Client} (h : Reading server handle content others k left done c) :
    done <+: content := by
  obtain ⟨f, ts, n, off, m, -, -, -, hdone, -⟩ := h
  exact (List.prefix_append done f.readbuffer).trans (hdone ▸ List.take_prefix off content)

theorem Finished.wp_mapM {k : Nat} : ∀ (sizes : List Nat) {c : Client}, Finished k c →
    wp (sizes.mapM (readbytes server k)) (fun rs _ => ∀ r ∈ rs, r = []) (fun _ _ => False) c
  | [], c, _ => by
    rw [List.mapM_nil, wp_pure]
    simp
  | space :: sizes, c, h => by
    rw [List.mapM_cons, wp_bind]
    refine wp_mono (h.wp_readbytes space) ?_ (fun _ _ h => h)
    rintro r c₁ ⟨hr, h₁⟩
    rw [wp_bind]
    refine wp_mono (Finished.wp_mapM sizes h₁) (fun rs c₂ h₂ => ?_) (fun _ _ h => h)
    rw [wp_pure]
    exact List.forall_mem_cons.mpr ⟨hr, h₂⟩

/-- The chunks `rs` continue `done`, and an empty one marks the end of the file. -/
structure Continues (content done : Bytes) (rs : List Bytes) : Prop where
  is_prefix : done ++ rs.flatten <+: content
  ends : ∀ i, rs[i]? = some [] →
    done ++ (rs.take i).flatten = content ∧ ∀ r ∈ rs.drop i, r = []

theorem Continues.of_all_empty {content : Bytes} {rs : List Bytes} (h : ∀ r ∈ rs, r = []) :
    Continues content content rs := by
  have hflat : ∀ l : List Bytes, (∀ r ∈ l, r = []) → l.flatten = [] := fun l hl =>
    List.flatten_eq_nil_iff.mpr hl
  refine ⟨by rw [hflat rs h, List.append_nil], fun i _ => ⟨?_, fun r hr => ?_⟩⟩
  · rw [hflat _ fun r hr => h r (List.mem_of_mem_take hr), List.append_nil]
  · exact h r (List.mem_of_mem_drop hr)

theorem Continues.cons {content done r : Bytes} {rs : List Bytes} (hr : r ≠ [])
    (h : Continues content (done ++ r) rs) : Continues content done (r :: rs) := by
  refine ⟨by simpa using h.is_prefix, fun i hi => ?_⟩
  cases i with
  | zero => exact absurd (Option.some.inj hi) hr
  | succ i => simpa using h.ends i hi

theorem Reading.wp_mapM {handle content : Bytes} {others : List UInt32} {k : Nat}
    (hserver : Honest server handle content) (hsize : content.length < 2 ^ 63) :
    ∀ (sizes : List Nat) {done : Bytes} {c : Client},
      (∀ space ∈ sizes, 1 ≤ space ∧ space < 2 ^ 31) →
      Reading server handle content others k sizes.length done c →
      wp (sizes.mapM (readbytes server k)) (fun rs _ => Continues content done rs)
        (fun stop c' => stop = .blocked ∧ c'.schedule = []) c
  | [], done, c, _, h => by
    rw [List.mapM_nil, wp_pure]
    exact ⟨by simpa using h.isPrefix, by simp⟩
  | space :: sizes, done, c, hsizes, h => by
    obtain ⟨h1, h2⟩ := hsizes space List.mem_cons_self
    rw [List.mapM_cons, wp_bind]
    refine wp_mono (h.wp_readbytes hserver hsize h1 h2) ?_ (fun _ _ h => h)
    rintro r c₁ (⟨hne, h₁⟩ | ⟨rfl, hall, h₁⟩)
    · rw [wp_bind]
      refine wp_mono (Reading.wp_mapM hserver hsize sizes
        (fun space hs => hsizes space (List.mem_cons_of_mem _ hs)) h₁) (fun rs c₂ h₂ => ?_)
        (fun _ _ h => h)
      exact h₂.cons hne
    · rw [wp_bind]
      refine wp_mono (h₁.wp_mapM sizes) (fun rs c₂ h₂ => ?_) (fun _ _ h => h.elim)
      rw [wp_pure, hall]
      exact .of_all_empty (List.forall_mem_cons.mpr ⟨rfl, h₂⟩)

/-- A file that has just been opened. -/
theorem Reading.start {path handle content : Bytes} {k n left : Nat} {c : Client}
    (hfile : c.files[k]? = some (some { path, handle })) (hn : NextId n c)
    (hfresh : ∀ i < readqueuesize * left, c.inUse (idOf (n + i)) = false) :
    Reading server handle content
      (c.outstanding.map Pending.id ++ c.replies.map Prod.fst ++ c.ignored) k left [] c := by
  refine ⟨_, [], n, 0, n, ⟨hfile, rfl, Nat.zero_le _, ⟨rfl, rfl⟩, hn, ⟨?_, ?_, ?_, ?_, ?_⟩⟩, rfl,
    rfl, rfl, Nat.zero_le _, fun i hi => ?_⟩
  · simp
  · exact fun id hid => List.mem_append_right _ hid
  · exact fun p hp => .inl (List.mem_append_left _ (List.mem_append_left _
      (List.mem_map_of_mem hp)))
  · exact fun r hr => .inl (List.mem_append_left _ (List.mem_append_right _
      (List.mem_map_of_mem hr)))
  · intro id hid
    simp only [List.mem_append, not_or] at hid
    rw [List.count_eq_zero.mpr hid.1.1, List.count_eq_zero.mpr hid.1.2]
    exact Nat.zero_le 1
  · have := hfresh i hi
    simp only [Client.inUse, decide_eq_false_iff_not, not_or] at this
    simp only [List.mem_append, not_or]
    exact ⟨⟨this.1, this.2.1⟩, this.2.2.1⟩

/-- **Pipelined reading returns the file.**  Whatever the order and the timing of the replies, what
calls of `readbytes` with any sizes return begins the file; a call returns nothing only when all of
the file has been returned, and so do all calls after it.  A call that does not return is waiting
for a reply that never comes. -/
theorem readbytes_returns_file {path handle content : Bytes} {k n : Nat} {sizes : List Nat}
    {c : Client} (hserver : Honest server handle content) (hsize : content.length < 2 ^ 63)
    (hsizes : ∀ space ∈ sizes, 1 ≤ space ∧ space < 2 ^ 31)
    (hfile : c.files[k]? = some (some { path, handle })) (hn : NextId n c)
    (hfresh : ∀ i < readqueuesize * sizes.length, c.inUse (idOf (n + i)) = false) :
    (∀ rs c', sizes.mapM (readbytes server k) c = .ok rs c' →
      rs.flatten <+: content ∧ ∀ i, rs[i]? = some [] →
        (rs.take i).flatten = content ∧ ∀ r ∈ rs.drop i, r = []) ∧
    (∀ stop c', sizes.mapM (readbytes server k) c = .error stop c' →
      stop = .blocked ∧ c'.schedule = []) := by
  have h := Reading.wp_mapM hserver hsize sizes hsizes (Reading.start hfile hn hfresh)
  constructor
  · intro rs c' hrun
    have hrs := wp_elim_ok h hrun
    exact ⟨hrs.is_prefix, hrs.ends⟩
  · intro stop c' hrun
    have hstop := wp_elim_error h hrun
    exact hstop

/-! ### An example -/

/-- A server with one file, under the handle `h`. -/
def oneFile (content : Bytes) (_ : Nat) : Request → Reply
  | .READ handle offset len =>
    if handle ≠ lit "h" then .STATUS SSH_FX_FAILURE []
    else if offset.toNat < content.length then
      .DATA ((content.drop offset.toNat).take len.toNat)
    else .STATUS SSH_FX_EOF (lit "end of file")
  | _ => .STATUS SSH_FX_OP_UNSUPPORTED []

theorem honest_oneFile (content : Bytes) : Honest (oneFile content) (lit "h") content :=
  fun serial offset len => ⟨fun h => by rw [oneFile, if_neg (fun h => h rfl), if_pos h], fun h =>
    ⟨_, by rw [oneFile, if_neg (fun h => h rfl), if_neg (Nat.not_lt.mpr h)]⟩⟩

/-- The third reply overtakes the first two. -/
def abcOpen : Client where
  files := [some { path := lit "abc", handle := lit "h" }]
  schedule := [none, some 2, some 0, some 0, some 3, some 1, some 1, some 0]

/-- Three calls on a file of three bytes. -/
theorem abcOpen_read :
    ∃ rs c', [2, 5, 1].mapM (readbytes (oneFile (lit "abc")) 0) abcOpen = .ok rs c' ∧
      rs = [lit "ab", lit "c", []] ∧ rs.flatten <+: lit "abc" ∧ ∀ i, rs[i]? = some [] →
        (rs.take i).flatten = lit "abc" ∧ ∀ r ∈ rs.drop i, r = [] := by
  have hrun : value? ([2, 5, 1].mapM (readbytes (oneFile (lit "abc")) 0)) abcOpen =
      some [lit "ab", lit "c", []] := by decide +kernel
  replace hrun := ok_of_value? hrun
  have hsizes : ∀ space ∈ [2, 5, 1], 1 ≤ space ∧ space < 2 ^ 31 := by simp
  have hfile : abcOpen.files[0]? = some (some { path := lit "abc", handle := lit "h" }) := rfl
  have hnext : NextId 0 abcOpen := by
    unfold NextId
    decide +kernel
  have hfresh : ∀ i < readqueuesize * [2, 5, 1].length, abcOpen.inUse (idOf (0 + i)) = false := by
    decide +kernel
  exact ⟨_, _, hrun, rfl, (readbytes_returns_file (honest_oneFile _) (by decide) hsizes hfile
    hnext hfresh).1 _ _ hrun⟩

end Hbackup.Sftp
