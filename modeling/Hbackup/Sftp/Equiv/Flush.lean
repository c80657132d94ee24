import Hbackup.Sftp.Equiv.Ledger

/-!
# Writing through a `File`

`File::flush` writes its buffer out and synchronizes, and `File::put` writes in no other way.  So
the write queue is empty between two calls, a call has at most one `WRITE` under way at any moment,
and it does not return before the reply to it has been checked.  That is why the order of the
replies, which `synchronize_one` does not cope with, makes no difference here.
-/

namespace Hbackup.Sftp

open ProgramLogic List

variable {server : Nat → Request → Reply}

/-! ### What is written -/

/-- The writes cover `data` from the offset `off` on, without a gap. -/
def Covers (handle : Bytes) : UInt64 → List Pending → Bytes → Prop
  | _, [], data => data = []
  | off, p :: ps, data => ∃ chunk rest, chunk ≠ [] ∧ data = chunk ++ rest ∧
      p.req = .WRITE handle off chunk ∧ Covers handle (off + UInt64.ofNat chunk.length) ps rest

theorem offset_add (off : UInt64) (a b : Nat) :
    off + UInt64.ofNat a + UInt64.ofNat b = off + UInt64.ofNat (a + b) := by
  rw [UInt64.add_assoc, ← UInt64.ofNat_add]

theorem Covers.append {handle : Bytes} : ∀ {ps ps' : List Pending} {off : UInt64}
    {data data' : Bytes}, Covers handle off ps data →
    Covers handle (off + UInt64.ofNat data.length) ps' data' →
    Covers handle off (ps ++ ps') (data ++ data')
  | [], ps', off, data, data', h, h' => by
    have hdata : data = [] := h
    subst hdata
    simpa using h'
  | p :: ps, ps', off, data, data', h, h' => by
    obtain ⟨chunk, rest, hne, rfl, hreq, hrest⟩ := h
    refine ⟨chunk, rest ++ data', hne, append_assoc _ _ _, hreq, hrest.append ?_⟩
    rw [offset_add, ← length_append]
    exact h'

/-- What a call does to a file: `new` are its writes, and `s` is what it puts. -/
structure Extends (f f' : SftpFile) (new : List Pending) (s : Bytes) : Prop where
  handle : f'.handle = f.handle
  data : ∃ data, Covers f.handle f.writeoffset new data ∧
    f'.writeoffset = f.writeoffset + UInt64.ofNat data.length ∧ data ++ f'.buf = f.buf ++ s

theorem Extends.trans {f f' f'' : SftpFile} {new new' : List Pending} {s s' : Bytes}
    (h : Extends f f' new s) (h' : Extends f' f'' new' s') :
    Extends f f'' (new ++ new') (s ++ s') := by
  obtain ⟨d, hcov, hoff, hdata⟩ := h.data
  obtain ⟨d', hcov', hoff', hdata'⟩ := h'.data
  refine ⟨h'.handle.trans h.handle, d ++ d', hcov.append ?_, ?_, ?_⟩
  · rw [← h.handle, ← hoff]
    exact hcov'
  · rw [hoff', hoff, offset_add, length_append]
  · rw [append_assoc, hdata', ← append_assoc, hdata, append_assoc]

/-- Only the buffer changes. -/
theorem Extends.buffer {f f' : SftpFile} {s : Bytes} (hhandle : f'.handle = f.handle)
    (hoff : f'.writeoffset = f.writeoffset) (hbuf : f'.buf = f.buf ++ s) : Extends f f' [] s :=
  ⟨hhandle, [], rfl, by simpa using hoff, by simpa using hbuf⟩

/-! ### Between two calls -/

/-- The `k`-th file between two calls: its queue is empty, and the next `left` ids are not in use
elsewhere. -/
structure Ready (server : Nat → Request → Reply) (others : List UInt32) (k : Nat) (n left : Nat)
    (f : SftpFile) (done : List Pending) (c : Client) : Prop where
  ledger : Ledger server others k f done done [] c
  next : NextId n c
  fresh : ∀ i < left, idOf (n + i) ∉ others
  started : f.writing = false → f.buf = []
  room : f.buf.length ≤ 4096

variable {others : List UInt32} {k n left : Nat} {f : SftpFile} {done : List Pending}
  {c c' : Client}

theorem Ledger.setFile {waited q : List Pending} (h : Ledger server others k f done waited q c)
    (f' : SftpFile) (hqueue : f'.writequeue = f.writequeue) :
    Ledger server others k f' done waited q { c with files := c.files.set k (some f') } :=
  ⟨files_set h.file f', hqueue.trans h.queue, h.ids,
    fun p hp => ⟨(h.due p hp).wanted, (h.due p hp).somewhere⟩,
    fun p hp => (h.settled p hp).imp_right fun hi => ⟨hi.outstanding, hi.replies⟩, h.serials,
    h.bound, h.sent, h.delivered, h.awaited, fun id ho hq =>
      ⟨(h.free id ho hq).unwanted, (h.free id ho hq).idle.outstanding,
        (h.free id ho hq).idle.replies⟩⟩

/-- The file is changed, but not its queue. -/
theorem Ready.setFile (h : Ready server others k n left f done c) (f' : SftpFile)
    (hqueue : f'.writequeue = f.writequeue) (hstarted : f'.writing = false → f'.buf = [])
    (hroom : f'.buf.length ≤ 4096) :
    Ready server others k n left f' done { c with files := c.files.set k (some f') } :=
  ⟨h.ledger.setFile f' hqueue, h.next, h.fresh, hstarted, hroom⟩

/-- Fewer ids are asked for. -/
theorem Ready.fewer {left' : Nat} (h : Ready server others k n left' f done c) (hle : left ≤ left') :
    Ready server others k n left f done c :=
  ⟨h.ledger, h.next, fun i hi => h.fresh i (Nat.lt_of_lt_of_le hi hle), h.started, h.room⟩

/-- A call has returned: its writes `new` were accepted. -/
def Returned (server : Nat → Request → Reply) (others : List UInt32) (k left : Nat) (f : SftpFile)
    (done : List Pending) (s : Bytes) (f' : SftpFile) (c' : Client) : Prop :=
  ∃ new n', Ready server others k n' left f' (done ++ new) c' ∧
    (∀ p ∈ new, Accepted (server p.serial p.req)) ∧ Extends f f' new s

/-- A call was stopped by the reply to its write `p`, or by the lack of one. -/
def Halted (server : Nat → Request → Reply) (others : List UInt32) (k left : Nat)
    (done : List Pending) (stop : Stop) (c' : Client) : Prop :=
  ∃ new p, (∀ p ∈ new, Accepted (server p.serial p.req)) ∧ Refused server p c' stop ∧
    sentOf c'.log = done ++ new ++ [p] ∧
    awaitedOf c'.log = (done ++ new ++ [p]).map Pending.id ∧
    (stop ≠ .blocked → ∃ f' n', Ready server others k n' left f' (done ++ new ++ [p]) c')

/-- The writes of a call that came before. -/
theorem Halted.after {new : List Pending} {stop : Stop}
    (hnew : ∀ p ∈ new, Accepted (server p.serial p.req))
    (h : Halted server others k left (done ++ new) stop c') :
    Halted server others k left done stop c' := by
  obtain ⟨new', p, hnew', hp, hsent, hawaited, hready⟩ := h
  refine ⟨new ++ new', p, fun p hp => ?_, hp, ?_, ?_, ?_⟩
  · exact (mem_append.mp hp).elim (hnew p) (hnew' p)
  · rw [hsent]
    simp
  · rw [hawaited]
    simp
  · simpa only [append_assoc] using hready

theorem Halted.of_refused {p : Pending} {f₀ f₁ : SftpFile} {stop : Stop}
    (hp : Refused server p c' stop) (hnext : NextId (n + 1) c')
    (hfresh : ∀ i < left + 1, idOf (n + i) ∉ others) (hstarted : f₁.writing = false → f₁.buf = [])
    (hroom : f₁.buf.length ≤ 4096)
    (hblocked : stop = .blocked → Ledger server others k f₀ done (done ++ [p]) [p] c')
    (hother : stop ≠ .blocked → Ledger server others k f₁ (done ++ [p]) (done ++ [p]) [] c') :
    Halted server others k left done stop c' := by
  have hrecord : sentOf c'.log = done ++ [p] ∧ awaitedOf c'.log = (done ++ [p]).map Pending.id := by
    by_cases hb : stop = .blocked
    · exact ⟨(hblocked hb).sent, (hblocked hb).awaited⟩
    · refine ⟨(hother hb).sent.trans (append_nil _), (hother hb).awaited⟩
  refine ⟨[], p, by simp, hp, ?_, ?_, fun hb => ⟨f₁, n + 1, ?_⟩⟩
  · rw [append_nil]
    exact hrecord.1
  · rw [append_nil]
    exact hrecord.2
  · rw [append_nil]
    refine ⟨hother hb, hnext, fun i hi => ?_, hstarted, hroom⟩
    rw [Nat.add_right_comm]
    exact hfresh (i + 1) (Nat.succ_lt_succ hi)

/-! ### One call -/

/-- `synchronize` with at most one write in the queue. -/
theorem wp_synchronize_nil (h : Ledger server others k f done done [] c)
    {Q : Unit → Client → Prop} {E : Stop → Client → Prop} (hQ : Q () c) :
    wp (synchronize server k) Q E c := by
  rw [synchronize, wp_bind, wp_getFile h.file, h.queue]
  exact hQ

theorem wp_synchronize_one {p : Pending} (h : Ledger server others k f done done [p] c)
    {Q : Unit → Client → Prop} {E : Stop → Client → Prop}
    (hreap : wp (synchronize_one server k none) Q E c) :
    wp (synchronize server k) Q E c := by
  have hlen : f.writequeue.length = 1 := by rw [h.queue]; rfl
  rw [synchronize, wp_bind, wp_getFile h.file, hlen, synchronizeLoop, wp_bind, wp_getFile h.file,
    hlen]
  simp only [ne_eq, one_ne_zero, not_false_eq_true, if_true]
  rw [wp_bind]
  exact wp_mono hreap (fun _ _ h => h) (fun _ _ h => h)

/-- The state after the only write of a `flush`: its reply is collected, or still to come. -/
def Written (server : Nat → Request → Reply) (others : List UInt32) (k : Nat) (f : SftpFile)
    (done : List Pending) (p : Pending) (c : Client) : Prop :=
  Ledger server others k { f with writequeue := [p.id] } done done [p] c ∨
    Accepted (server p.serial p.req) ∧
      Ledger server others k { f with writequeue := [] } (done ++ [p]) (done ++ [p]) [] c

/-- `writebytes`, with nothing in the queue. -/
theorem Ready.wp_writebytes (h : Ready server others k n (left + 1) f done c)
    (hwriting : f.writing = true) (hbuf : f.buf ≠ []) :
    wp (writebytes server k f.buf)
      (fun _ c' => ∃ p, p.req = .WRITE f.handle f.writeoffset f.buf ∧ NextId (n + 1) c' ∧
        Written server others k (f.wrote p.id f.buf) done p c')
      (fun stop c' => Halted server others k left done stop c') c := by
  have hid : c.nextId = idOf n := h.next
  have hfree : Free c.nextId c :=
    h.ledger.free _ (hid ▸ h.fresh 0 (Nat.succ_pos left)) (by simp)
  refine h.ledger.wp_writebytes hbuf hfree fun p c' hreq hc' h' => ?_
  have hnext : NextId (n + 1) c' := NextId.succ (hid ▸ hc')
  have hqueue : (f.wrote p.id f.buf).writequeue = [p.id] := h'.queue
  rw [nil_append] at h'
  have h₁ : Ledger server others k { f.wrote p.id f.buf with writequeue := [p.id] } done done [p]
      c' := by
    rw [← hqueue]
    exact h'
  rw [reapReady, wp_bind, wp_getFile h'.file, wp_bind, wp_get, hqueue]
  split
  · exact ⟨p, hreq, hnext, .inl h₁⟩
  · rename_i id hfind
    obtain rfl : p.id = id := by
      have := mem_of_find?_eq_some hfind
      rw [mem_singleton] at this
      exact this.symm
    rw [wp_bind]
    refine h'.wp_reap rfl (fun c'' hok hc'' h'' => ?_) fun stop c'' hstop hc'' hb hs => ?_
    · exact ⟨p, hreq, by rwa [NextId, hc''], .inr ⟨hok, h''⟩⟩
    · refine Halted.of_refused hstop (by rwa [NextId, hc'']) h.fresh ?_ (by exact h.room) hb hs
      intro hw
      exact absurd (hwriting.symm.trans hw) (by simp)

/-- The write of a whole buffer. -/
theorem Extends.flushed {p : Pending} (hbuf : f.buf ≠ [])
    (hreq : p.req = .WRITE f.handle f.writeoffset f.buf) {f' : SftpFile}
    (hhandle : f'.handle = f.handle)
    (hoff : f'.writeoffset = f.writeoffset + UInt64.ofNat f.buf.length) (hbuf' : f'.buf = []) :
    Extends f f' [p] [] :=
  ⟨hhandle, f.buf, ⟨f.buf, [], hbuf, (append_nil _).symm, hreq, rfl⟩, hoff, by rw [hbuf']⟩

/-- **`flush` returns when all that was put has been written and accepted.** -/
theorem Ready.wp_flush (h : Ready server others k n (left + 1) f done c) :
    wp (flush server k)
      (fun _ c' => ∃ f', Returned server others k left f done [] f' c' ∧ f'.buf = [] ∧
        f'.writing = true)
      (fun stop c' => Halted server others k left done stop c') c := by
  rw [flush, wp_bind, wp_getFile h.ledger.file]
  split_ifs with hwrite
  · -- the buffer is written
    obtain ⟨hwriting, hlen⟩ := hwrite
    have hbuf : f.buf ≠ [] := fun he => hlen (by rw [he]; rfl)
    rw [wp_bind]
    refine wp_mono (h.wp_writebytes hwriting hbuf) ?_ (fun _ _ h => h)
    rintro _ c₁ ⟨p, hreq, hnext, hwritten⟩
    have hfresh : ∀ i < left, idOf (n + 1 + i) ∉ others := fun i hi => by
      rw [Nat.add_right_comm]
      exact h.fresh (i + 1) (Nat.succ_lt_succ hi)
    set f₁ : SftpFile := { f.wrote p.id f.buf with writing := true, buf := [], writequeue := [] }
    have hdone : ∀ c' : Client, NextId (n + 1) c' → Accepted (server p.serial p.req) →
        Ledger server others k f₁ (done ++ [p]) (done ++ [p]) [] c' →
        ∃ f', Returned server others k left f done [] f' c' ∧ f'.buf = [] ∧ f'.writing = true := by
      intro c' hn' hok h'
      refine ⟨f₁, ⟨[p], n + 1, ⟨h', hn', hfresh, fun hw => rfl, Nat.zero_le _⟩, ?_,
        Extends.flushed hbuf hreq rfl rfl rfl⟩, rfl, rfl⟩
      intro p' hp'
      rw [mem_singleton.mp hp']
      exact hok
    rcases hwritten with h₁ | ⟨hok, h₁⟩
    · -- its reply is still to come
      rw [wp_bind, wp_getFile h₁.file, wp_bind, wp_setFile]
      have h₂ := h₁.setFile { f₁ with writequeue := [p.id] } rfl
      refine wp_synchronize_one h₂ (h₂.wp_reap rfl (fun c' hok hc' h' => ?_)
        fun stop c' hstop hc' hb hs => ?_)
      · exact hdone c' (by rwa [NextId, hc']) hok h'
      · exact Halted.of_refused hstop (by rwa [NextId, hc']) h.fresh (fun hw => rfl) (Nat.zero_le _)
          hb hs
    · rw [wp_bind, wp_getFile h₁.file, wp_bind, wp_setFile]
      have h₂ := h₁.setFile f₁ rfl
      exact wp_synchronize_nil h₂ (hdone _ hnext hok h₂)
  · -- there is nothing to write
    have hbuf : f.buf = [] := by
      by_contra hne
      cases hw : f.writing with
      | false => exact hne (h.started hw)
      | true => exact hwrite ⟨hw, fun hl => hne (eq_nil_of_length_eq_zero hl)⟩
    rw [wp_bind, wp_getFile h.ledger.file, wp_bind, wp_setFile]
    have h₁ := (h.fewer (Nat.le_succ left)).setFile { f with writing := true, buf := [] } rfl
      (fun _ => rfl) (Nat.zero_le _)
    refine wp_synchronize_nil h₁.ledger ⟨{ f with writing := true, buf := [] },
      ⟨[], n, ?_, by simp, Extends.buffer rfl rfl ?_⟩, rfl, rfl⟩
    · rw [append_nil]
      exact h₁
    · rw [hbuf]
      rfl

theorem Returned.ready (h : Ready server others k n left f done c) :
    Returned server others k left f done [] f c :=
  ⟨[], n, by rwa [append_nil], by simp, .buffer rfl rfl (append_nil _).symm⟩

/-- How many writes it takes to put `m` characters behind `b` in the buffer. -/
def writesFor (b m : Nat) : Nat := (b + m - 1) / 4096

/-- A character goes to the buffer of a file that is writing, if there is room. -/
theorem Ready.wp_append (h : Ready server others k n left f done c) (hwriting : f.writing = true)
    (hroom : f.buf.length < 4096) (ch : UInt8) :
    wp (do
        let f ← getFile k
        Sftp.setFile k { f with buf := f.buf ++ [ch] })
      (fun _ c' => ∃ f', Returned server others k left f done [ch] f' c' ∧
        f'.buf.length = f.buf.length + 1)
      (fun stop c' => Halted server others k left done stop c') c := by
  rw [wp_bind, wp_getFile h.ledger.file, wp_setFile]
  have hlen : (f.buf ++ [ch]).length = f.buf.length + 1 := length_append
  have h₁ := h.setFile { f with buf := f.buf ++ [ch] } rfl
    (fun hw => absurd (hwriting.symm.trans hw) (by simp)) (by rw [hlen]; exact hroom)
  refine ⟨{ f with buf := f.buf ++ [ch] }, ⟨[], n, ?_, by simp, .buffer rfl rfl rfl⟩, hlen⟩
  rwa [append_nil]

/-- The first character, which there is room for at once. -/
theorem Ready.wp_put1_fresh (h : Ready server others k n left f done c) (hwriting : f.writing = false)
    (ch : UInt8) :
    wp (put1 server k ch)
      (fun _ c' => ∃ f', Returned server others k left f done [ch] f' c' ∧ f'.buf.length = 1)
      (fun stop c' => Halted server others k left done stop c') c := by
  have hbuf := h.started hwriting
  rw [put1, wp_bind, wp_getFile h.ledger.file, if_pos (.inl hwriting), wp_bind, flush,
    wp_bind, wp_getFile h.ledger.file, if_neg (by simp [hwriting]), wp_bind,
    wp_getFile h.ledger.file, wp_bind, wp_setFile]
  have h₁ := h.setFile { f with writing := true, buf := [] } rfl (fun _ => rfl) (Nat.zero_le _)
  refine wp_synchronize_nil h₁.ledger ?_
  refine wp_mono (h₁.wp_append rfl (by simp) ch) ?_ fun _ _ h => h
  rintro _ c' ⟨f', ⟨new, n', h', hnew, hext⟩, hlen⟩
  have hsame : Extends f { f with writing := true, buf := [] } [] [] := .buffer rfl rfl (by simp [hbuf])
  exact ⟨f', ⟨new, n', h', hnew, hsame.trans hext⟩, hlen⟩

theorem Returned.trans {f' f'' : SftpFile} {new : List Pending} {s s' : Bytes}
    (hnew : ∀ p ∈ new, Accepted (server p.serial p.req)) (hext : Extends f f' new s)
    (h : Returned server others k left f' (done ++ new) s' f'' c') :
    Returned server others k left f done (s ++ s') f'' c' := by
  obtain ⟨new', n', hready, hnew', hext'⟩ := h
  rw [append_assoc] at hready
  exact ⟨new ++ new', n', hready, fun p hp => (mem_append.mp hp).elim (hnew p) (hnew' p),
    hext.trans hext'⟩

theorem Halted.ready_of_le {left' : Nat} {stop : Stop} (hle : left ≤ left')
    (h : Halted server others k left' done stop c') : Halted server others k left done stop c' := by
  obtain ⟨new, p, hnew, hp, hsent, hawaited, hready⟩ := h
  refine ⟨new, p, hnew, hp, hsent, hawaited, fun hb => ?_⟩
  obtain ⟨f', n', h'⟩ := hready hb
  exact ⟨f', n', h'.fewer hle⟩

/-- **Characters are put one by one**, and there is a write whenever the buffer is full. -/
theorem Ready.wp_put : ∀ (s : Bytes) {n : Nat} {f : SftpFile} {done : List Pending} {c : Client},
    Ready server others k n (writesFor f.buf.length s.length + left) f done c →
    wp (put server k s)
      (fun _ c' => ∃ f', Returned server others k left f done s f' c')
      (fun stop c' => Halted server others k left done stop c') c
  | [], n, f, done, c, h => ⟨f, .ready (h.fewer (Nat.le_add_left _ _))⟩
  | ch :: s, n, f, done, c, h => by
    change wp (put1 server k ch >>= fun _ => put server k s) _ _ _
    rw [wp_bind]
    have hroom := h.room
    -- the rest, once the character is in the buffer
    have hrest : ∀ {left' : Nat} {f₁ : SftpFile} {c₁ : Client},
        Returned server others k left' f done [ch] f₁ c₁ →
        writesFor f₁.buf.length s.length + left ≤ left' →
        wp (put server k s)
          (fun _ c' => ∃ f', Returned server others k left f done (ch :: s) f' c')
          (fun stop c' => Halted server others k left done stop c') c₁ := by
      rintro left' f₁ c₁ ⟨new, n₁, h₁, hnew, hext⟩ hle
      refine wp_mono ((h₁.fewer hle).wp_put s) ?_ fun stop c' h' => h'.after hnew
      rintro _ c' ⟨f', h'⟩
      exact ⟨f', h'.trans hnew hext⟩
    have hwrites : writesFor f.buf.length (ch :: s).length = (f.buf.length + s.length) / 4096 := by
      rw [writesFor, length_cons, ← Nat.add_assoc, Nat.add_sub_cancel]
    rw [hwrites] at h
    cases hw : f.writing with
    | false =>
      have hbuf : f.buf.length = 0 := by rw [h.started hw]; rfl
      rw [hbuf] at h
      refine wp_mono (h.wp_put1_fresh hw ch) ?_ fun stop c' h' => h'.ready_of_le (Nat.le_add_left _ _)
      rintro _ c₁ ⟨f₁, h₁, hlen⟩
      refine hrest h₁ (Nat.add_le_add_right ?_ left)
      rw [writesFor, hlen]
      exact Nat.div_le_div_right (by omega)
    | true =>
      by_cases hfull : f.buf.length = 4096
      · -- the buffer is written first
        have hmore : (f.buf.length + s.length) / 4096 + left = s.length / 4096 + left + 1 := by
          rw [hfull]
          omega
        rw [hmore] at h
        rw [put1, wp_bind, wp_getFile h.ledger.file, if_pos (.inr hfull), wp_bind]
        refine wp_mono h.wp_flush ?_ fun stop c' h' => h'.ready_of_le (Nat.le_add_left _ _)
        rintro _ c₁ ⟨f₁, ⟨new, n₁, h₁, hnew, hext⟩, hbuf₁, hwriting₁⟩
        have hlen₁ : f₁.buf.length = 0 := by rw [hbuf₁]; rfl
        refine wp_mono (h₁.wp_append hwriting₁ (by omega) ch) ?_ fun stop c' h' =>
          (h'.after hnew).ready_of_le (Nat.le_add_left _ _)
        rintro _ c₂ ⟨f₂, h₂, hlen₂⟩
        refine hrest (h₂.trans hnew hext) (Nat.add_le_add_right ?_ left)
        rw [writesFor, hlen₂, hlen₁]
        exact Nat.div_le_div_right (by omega)
      · have hnot : ¬ (f.writing = false ∨ f.buf.length = 4096) := by
          simp [hw, hfull]
        rw [put1, wp_bind, wp_getFile h.ledger.file, if_neg hnot]
        refine wp_mono (h.wp_append hw (by omega) ch) ?_ fun stop c' h' =>
          h'.ready_of_le (Nat.le_add_left _ _)
        rintro _ c₁ ⟨f₁, h₁, hlen⟩
        refine hrest h₁ (Nat.add_le_add_right ?_ left)
        rw [writesFor, hlen]
        exact Nat.div_le_div_right (by omega)

/-! ### Any number of calls -/

/-- The bytes that a call puts. -/
def Output.bytes : Output → Bytes
  | .put s => s
  | .flush => []

/-- The most `WRITE`s that a call sends: one for every full buffer that it takes to hold what is
put. -/
def Output.writes : Output → Nat
  | .put s => (s.length + 4095) / 4096
  | .flush => 1

theorem Ready.wp_run (call : Output) (h : Ready server others k n (call.writes + left) f done c) :
    wp (call.run server k)
      (fun _ c' => ∃ f', Returned server others k left f done call.bytes f' c' ∧
        (call = .flush → f'.buf = []))
      (fun stop c' => Halted server others k left done stop c') c := by
  cases call with
  | put s =>
    have hle : writesFor f.buf.length s.length ≤ (s.length + 4095) / 4096 :=
      Nat.div_le_div_right (by have := h.room; omega)
    refine wp_mono (Ready.wp_put s (h.fewer (Nat.add_le_add_right hle left))) ?_ (fun _ _ h => h)
    rintro _ c' ⟨f', h'⟩
    exact ⟨f', h', fun he => by cases he⟩
  | flush =>
    rw [Output.writes, Nat.add_comm] at h
    refine wp_mono h.wp_flush ?_ (fun _ _ h => h)
    rintro _ c' ⟨f', h', hbuf, -⟩
    exact ⟨f', h', fun _ => hbuf⟩

/-- The calls, and what each of them threw. -/
def runAll (server : Nat → Request → Reply) (k : Nat) (calls : List Output) :
    S (List (Option Stop)) :=
  calls.mapM fun call => attempt (call.run server k)

/-- After some calls; if none has thrown, `f` has grown by what was put. -/
def After (server : Nat → Request → Reply) (others : List UInt32) (k left : Nat) (f₀ : SftpFile)
    (calls : List Output) (outcomes : List (Option Stop)) (c : Client) : Prop :=
  ∃ f done n, Ready server others k n left f done c ∧
    ((∀ o ∈ outcomes, o = none) → (∀ p ∈ done, Accepted (server p.serial p.req)) ∧
      Extends f₀ f done (calls.flatMap Output.bytes) ∧
      (calls.getLast? = some .flush → f.buf = []))

/-- One call more. -/
theorem After.wp_attempt {f₀ : SftpFile} {calls : List Output} {outcomes : List (Option Stop)}
    (call : Output) (h : After server others k (call.writes + left) f₀ calls outcomes c) :
    wp (attempt (call.run server k))
      (fun o c' => After server others k left f₀ (calls ++ [call]) (outcomes ++ [o]) c')
      (fun _ _ => True) c := by
  obtain ⟨f, done, n, hready, hall⟩ := h
  rw [attempt, wp_tryCatch, wp_bind]
  refine wp_mono (hready.wp_run call) ?_ fun stop c' h' => ?_
  · rintro _ c' ⟨f', ⟨new, n', h', hnew, hext⟩, hflush⟩
    refine ⟨f', done ++ new, n', h', fun hnone => ?_⟩
    obtain ⟨hdone, hext₀, -⟩ := hall fun o ho => hnone o (mem_append_left _ ho)
    refine ⟨fun p hp => (mem_append.mp hp).elim (hdone p) (hnew p), ?_, fun hlast => ?_⟩
    · rw [flatMap_append, flatMap_singleton]
      exact hext₀.trans hext
    · rw [getLast?_concat] at hlast
      exact hflush (Option.some.inj hlast)
  · obtain ⟨new, p, -, -, -, -, hready'⟩ := h'
    cases stop with
    | error what path status =>
      obtain ⟨f', n', h'⟩ := hready' (by simp)
      refine ⟨f', _, n', h', fun hnone => ?_⟩
      exact absurd (hnone _ (mem_append_right _ (mem_singleton_self _))) (by simp)
    | blocked => trivial
    | fatal => trivial

theorem After.wp_runAll {f₀ : SftpFile} : ∀ (post : List Output) {calls : List Output}
    {outcomes : List (Option Stop)} {c : Client},
    After server others k ((post.map Output.writes).sum + left) f₀ calls outcomes c →
    wp (runAll server k post)
      (fun os c' => After server others k left f₀ (calls ++ post) (outcomes ++ os) c')
      (fun _ _ => True) c
  | [], calls, outcomes, c, h => by
    rw [runAll, mapM_nil, wp_pure, append_nil, append_nil]
    simpa using h
  | call :: post, calls, outcomes, c, h => by
    rw [map_cons, sum_cons, Nat.add_assoc] at h
    rw [runAll, mapM_cons, wp_bind]
    refine wp_mono (h.wp_attempt call) (fun o c₁ h₁ => ?_) (fun _ _ h => h)
    rw [wp_bind]
    refine wp_mono (h₁.wp_runAll post) (fun os c' h' => ?_) (fun _ _ h => h)
    rw [wp_pure]
    simpa using h'

/-- A file that has just been opened. -/
theorem After.start (server : Nat → Request → Reply) {path handle : Bytes}
    (hfile : c.files[k]? = some (some { path, handle }))
    (hlog : c.log = []) (hn : NextId n c) (hfresh : ∀ i < left, c.inUse (idOf (n + i)) = false) :
    After server c.busy k left { path, handle } [] [] c :=
  ⟨_, [], n, ⟨.start hfile hlog, hn, fun i hi => not_busy_of_not_inUse (hfresh i hi), fun _ => rfl,
      Nat.zero_le _⟩,
    fun _ => ⟨by simp, .buffer rfl rfl rfl, fun h => by cases h⟩⟩

/-- **When `flush` returns the data is stored.**  If no call of `put` or `flush` throws and the last
one is a `flush`, the writes sent cover the bytes put, and each was answered, once, with
`SSH_FX_OK`.  A call that returns has had all its writes accepted; one that does not was stopped by
the status of the last write it sent, or waits for the reply to it.  Every reply is waited for
once. -/
theorem flush_stores {path handle : Bytes} {calls : List Output}
    (hfile : c.files[k]? = some (some { path, handle })) (hlog : c.log = []) (hn : NextId n c)
    (hfresh : ∀ i < (calls.map Output.writes).sum, c.inUse (idOf (n + i)) = false) :
    (∀ outcomes c', runAll server k calls c = .ok outcomes c' →
      awaitedOf c'.log = (sentOf c'.log).map Pending.id ∧
      ((∀ o ∈ outcomes, o = none) → calls.getLast? = some .flush →
        Covers handle 0 (sentOf c'.log) (calls.flatMap Output.bytes) ∧
        ∀ p ∈ sentOf c'.log, Accepted (server p.serial p.req) ∧
          (deliveredOf c'.log).count p.serial = 1)) ∧
    ∀ pre call post outcomes c₁, calls = pre ++ call :: post →
      runAll server k pre c = .ok outcomes c₁ →
      (∀ c', call.run server k c₁ = .ok () c' → ∃ new, sentOf c'.log = sentOf c₁.log ++ new ∧
        ∀ p ∈ new, Accepted (server p.serial p.req)) ∧
      ∀ stop c', call.run server k c₁ = .error stop c' →
        awaitedOf c'.log = (sentOf c'.log).map Pending.id ∧
        ∃ new p, sentOf c'.log = sentOf c₁.log ++ new ++ [p] ∧
          (∀ p ∈ new, Accepted (server p.serial p.req)) ∧ Refused server p c' stop := by
  -- all that has been sent is done with when nothing is in the queue
  have hsent : ∀ {f done c'}, Ledger server c.busy k f done done [] c' → sentOf c'.log = done :=
    fun h => h.sent.trans (append_nil _)
  constructor
  · intro outcomes c' hrun
    have h₀ : After server c.busy k ((calls.map Output.writes).sum + 0) _ [] [] c :=
      .start server hfile hlog hn hfresh
    have hwp := h₀.wp_runAll calls
    -- the whole run, from an open file of which nothing is known
    obtain ⟨f, done, n', hready, hall⟩ := wp_elim_ok hwp hrun
    have hledger := hready.ledger
    rw [hsent hledger]
    refine ⟨hledger.awaited, fun hnone hlast => ?_⟩
    obtain ⟨haccepted, hext, hflush⟩ := hall hnone
    obtain ⟨data, hcov, -, hdata⟩ := hext.data
    rw [hflush hlast, append_nil] at hdata
    refine ⟨?_, fun p hp => ⟨haccepted p hp, ?_⟩⟩
    · rw [hdata] at hcov
      exact hcov
    · have hnd := hledger.serials
      rw [append_nil] at hnd
      rw [hledger.delivered]
      exact count_eq_one_of_mem hnd (mem_map_of_mem hp)
  -- one call, after those before it
  · rintro pre call post outcomes c₁ rfl hrun
    rw [map_append, sum_append, map_cons, sum_cons] at hfresh
    have h₀ := After.start server hfile hlog hn hfresh
    have hwp := h₀.wp_runAll pre
    obtain ⟨f, done, n', hready, -⟩ := wp_elim_ok hwp hrun
    have hcall := hready.wp_run call
    rw [hsent hready.ledger]
    constructor
    · intro c' hrun'
      obtain ⟨f', ⟨new, n'', h', hnew, -⟩, -⟩ := wp_elim_ok hcall hrun'
      exact ⟨new, hsent h'.ledger, hnew⟩
    · intro stop c' hrun'
      obtain ⟨new, p, hnew, hp, hsent', hawaited, -⟩ := wp_elim_error hcall hrun'
      exact ⟨by rw [hawaited, hsent'], new, p, hsent', hnew, hp⟩

/-! ### An example -/

/-- A server that accepts all writes. -/
def acceptsWrites (_ : Nat) : Request → Reply
  | .WRITE .. => .STATUS SSH_FX_OK []
  | _ => .STATUS SSH_FX_OP_UNSUPPORTED []

/-- A file has been opened while two existence probes are in flight, one of them unanswered. -/
def opened : Client where
  id := 3
  files := [some { path := lit "f", handle := lit "h" }]
  outstanding := [⟨0, 1, .STAT (lit "a")⟩]
  replies := [(2, 1, .ATTRS)]
  serial := 2
  schedule := [none, some 1, some 0, none, some 0]

/-- Two bytes are put and flushed, and then two more: there are two writes. -/
def twoFlushes : List Output := [.put (lit "ab"), .flush, .put (lit "cd"), .flush]

theorem opened_stores :
    ∃ c', runAll acceptsWrites 0 twoFlushes opened = .ok [none, none, none, none] c' ∧
      (sentOf c'.log).length = 2 ∧ Covers (lit "h") 0 (sentOf c'.log) (lit "abcd") ∧
      ∀ p ∈ sentOf c'.log, Accepted (acceptsWrites p.serial p.req) ∧
        (deliveredOf c'.log).count p.serial = 1 := by
  have hvalue : value? (runAll acceptsWrites 0 twoFlushes) opened = some [none, none, none, none] := by
    decide +kernel
  have hlength : (sentOf (stateAfter (runAll acceptsWrites 0 twoFlushes) opened).log).length = 2 := by
    decide +kernel
  have hrun := ok_of_value? hvalue
  generalize stateAfter (runAll acceptsWrites 0 twoFlushes) opened = c' at hrun hlength
  have hfile : opened.files[0]? = some (some { path := lit "f", handle := lit "h" }) := rfl
  have hnext : NextId 2 opened := by
    unfold NextId
    decide +kernel
  have hsum : (twoFlushes.map Output.writes).sum = 4 := by decide +kernel
  have hfresh : ∀ i < (twoFlushes.map Output.writes).sum, opened.inUse (idOf (2 + i)) = false := by
    rw [hsum]
    decide +kernel
  have hstores := (flush_stores hfile rfl hnext hfresh).1 _ _ hrun
  have hbytes : twoFlushes.flatMap Output.bytes = lit "abcd" := by decide
  obtain ⟨hcov, hall⟩ := hstores.2 (by simp) rfl
  rw [hbytes] at hcov
  exact ⟨c', hrun, hlength, hcov, hall⟩

end Hbackup.Sftp
