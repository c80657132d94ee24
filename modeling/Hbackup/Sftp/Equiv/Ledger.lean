import Hbackup.Sftp.Equiv.Client

/-!
# Writes under way

`Ledger` accounts for every `WRITE` that a file has sent: those whose replies have been collected,
in the order in which they were sent, and then those in the write queue, whose replies are on their
way or in the reply map.  Sending a `WRITE` and collecting the reply to the first one in the queue
keep it (`Ledger.wp_send`, `Ledger.wp_reap`).
-/

namespace Hbackup.Sftp

open ProgramLogic List

variable {server : Nat → Request → Reply}

/-! ### What the log says -/

/-- The requests sent, in order. -/
def sentOf (log : List Event) : List Pending :=
  log.reverse.filterMap fun
    | .sent p => some p
    | _ => none

/-- The numbers of the requests whose replies were delivered, in order. -/
def deliveredOf (log : List Event) : List Nat :=
  log.reverse.filterMap fun
    | .delivered serial => some serial
    | _ => none

/-- The ids that `synchronize_one` has waited for, in order. -/
def awaitedOf (log : List Event) : List UInt32 :=
  log.reverse.filterMap fun
    | .reaped _ front => some front
    | _ => none

/-- The two logs say the same of requests sent, delivered and waited for. -/
structure SameRecord (log log' : List Event) : Prop where
  sent : sentOf log' = sentOf log
  delivered : deliveredOf log' = deliveredOf log
  awaited : awaitedOf log' = awaitedOf log

theorem SameRecord.refl (log : List Event) : SameRecord log log := ⟨rfl, rfl, rfl⟩

theorem SameRecord.trans {log log' log'' : List Event} (h : SameRecord log log')
    (h' : SameRecord log' log'') : SameRecord log log'' :=
  ⟨h'.sent.trans h.sent, h'.delivered.trans h.delivered, h'.awaited.trans h.awaited⟩

theorem SameRecord.newid (id : UInt32) (inUse : Bool) (log : List Event) :
    SameRecord log (.newid id inUse :: log) := by
  constructor <;> simp [sentOf, deliveredOf, awaitedOf]

theorem SameRecord.dropped (serials : List Nat) (log : List Event) :
    SameRecord log (serials.map Event.dropped ++ log) := by
  constructor <;>
    simp [sentOf, deliveredOf, awaitedOf, filterMap_map, ← map_reverse]

theorem drops_eq (c : Client) (id : UInt32) :
    c.drops id = ((c.repliesTo id).map fun r => r.2.1).map Event.dropped := by
  rw [Client.drops, map_map]
  rfl

/-! ### One request under way -/

/-- Nothing is under way under `id`. -/
structure Idle (id : UInt32) (c : Client) : Prop where
  outstanding : c.outstanding.filter (·.id = id) = []
  replies : c.repliesTo id = []

/-- The one thing under way under the id of `p` is `p` or its reply, and that is wanted. -/
structure OnItsWay (server : Nat → Request → Reply) (p : Pending) (c : Client) : Prop where
  wanted : p.id ∉ c.ignored
  somewhere : (c.outstanding.filter (·.id = p.id) = [p] ∧ c.repliesTo p.id = []) ∨
    (c.outstanding.filter (·.id = p.id) = [] ∧
      c.repliesTo p.id = [(p.id, p.serial, server p.serial p.req)])

theorem filter_erase_of_ne {id : UInt32} {p : Pending} (hne : p.id ≠ id) (l : List Pending) :
    (l.erase p).filter (·.id = id) = l.filter (·.id = id) := by
  rw [← erase_filter]
  exact erase_of_not_mem fun hm => hne (by simpa using (mem_filter.mp hm).2)

theorem filter_otherReplies {id id' : UInt32} (hne : id' ≠ id) (c : Client) :
    (c.otherReplies id').filter (·.1 = id) = c.repliesTo id := by
  rw [Client.otherReplies, filter_filter, Client.repliesTo]
  refine filter_congr fun r _ => ?_
  by_cases hr : r.1 = id
  · simp [hr, Ne.symm hne]
  · simp [hr]

/-- An arrival under another id. -/
theorem Idle.wp_stash {id : UInt32} {c : Client} (h : Idle id c)
    (server : Nat → Request → Reply) {p : Pending}
    (hp : p ∈ c.outstanding) (schedule : List (Option Nat)) :
    wp (stash server p) (fun _ c' => Idle id c') (fun _ _ => False)
      { c with schedule, outstanding := c.outstanding.erase p } := by
  have hne : p.id ≠ id := by
    intro he
    have hm : p ∈ c.outstanding.filter (·.id = id) := mem_filter.mpr ⟨hp, by simpa using he⟩
    rw [h.outstanding] at hm
    cases hm
  rw [stash, wp_bind, wp_get]
  split_ifs
  · exact ⟨(filter_erase_of_ne hne _).trans h.outstanding, h.replies⟩
  · refine ⟨(filter_erase_of_ne hne _).trans h.outstanding, ?_⟩
    simp only [Client.repliesTo, filter_cons, hne, decide_false, Bool.false_eq_true, if_false]
    exact (filter_otherReplies hne c).trans h.replies

theorem OnItsWay.wp_stash {p₀ : Pending} {c : Client} (h : OnItsWay server p₀ c) {p : Pending}
    (hp : p ∈ c.outstanding) (schedule : List (Option Nat)) :
    wp (stash server p) (fun _ c' => OnItsWay server p₀ c') (fun _ _ => False)
      { c with schedule, outstanding := c.outstanding.erase p } := by
  by_cases hid : p.id = p₀.id
  · -- its own reply
    have hm : p ∈ c.outstanding.filter (·.id = p₀.id) := mem_filter.mpr ⟨hp, by simpa using hid⟩
    rcases h.somewhere with ⟨hout, -⟩ | ⟨hout, -⟩
    swap
    · rw [hout] at hm
      cases hm
    rw [hout] at hm
    obtain rfl := mem_singleton.mp hm
    rw [stash, wp_bind, wp_get, if_neg h.wanted]
    refine ⟨h.wanted, .inr ⟨?_, ?_⟩⟩
    · change (c.outstanding.erase p).filter (·.id = p.id) = []
      rw [← erase_filter, hout, erase_cons_head]
    · change filter _ (_ :: c.otherReplies p.id) = _
      rw [filter_cons_of_pos (by simp), Client.otherReplies, filter_filter]
      simp
  · have hout : (c.outstanding.erase p).filter (·.id = p₀.id) = _ := filter_erase_of_ne hid _
    rw [stash, wp_bind, wp_get]
    split_ifs
    · refine ⟨fun hm => h.wanted (mem_of_mem_erase hm), ?_⟩
      change (filter _ (c.outstanding.erase p) = _ ∧ _) ∨ (filter _ (c.outstanding.erase p) = _ ∧ _)
      rw [hout]
      exact h.somewhere
    · refine ⟨h.wanted, ?_⟩
      have hrep : ∀ r : Nat × Reply,
          filter (·.1 = p₀.id) ((p.id, r) :: c.otherReplies p.id) = c.repliesTo p₀.id := by
        intro r
        rw [filter_cons_of_neg (by simpa using hid)]
        exact filter_otherReplies hid c
      change (filter _ (c.outstanding.erase p) = _ ∧ filter _ (_ :: c.otherReplies p.id) = _) ∨
        (filter _ (c.outstanding.erase p) = _ ∧ filter _ (_ :: c.otherReplies p.id) = _)
      rw [hout, hrep]
      exact h.somewhere

/-- `id` may be given to a new request. -/
structure Free (id : UInt32) (c : Client) : Prop where
  unwanted : id ∉ c.ignored
  idle : Idle id c

/-- The ids of what is under way, or ignored. -/
def Client.busy (c : Client) : List UInt32 :=
  c.outstanding.map Pending.id ++ c.replies.map Prod.fst ++ c.ignored

theorem Free.of_not_busy {id : UInt32} {c : Client} (h : id ∉ c.busy) : Free id c := by
  simp only [Client.busy, mem_append, not_or] at h
  obtain ⟨⟨hout, hrep⟩, hig⟩ := h
  refine ⟨hig, filter_eq_nil_iff.mpr fun p hp he => ?_, filter_eq_nil_iff.mpr fun r hr he => ?_⟩
  · exact hout (mem_map.mpr ⟨p, hp, by simpa using he⟩)
  · exact hrep (mem_map.mpr ⟨r, hr, by simpa using he⟩)

theorem not_busy_of_not_inUse {id : UInt32} {c : Client} (h : c.inUse id = false) :
    id ∉ c.busy := by
  simp only [Client.inUse, decide_eq_false_iff_not, not_or] at h
  simp only [Client.busy, mem_append, not_or]
  exact ⟨⟨h.1, h.2.1⟩, h.2.2.1⟩

theorem Free.receives (id : UInt32) : Receives server (Free id) where
  passes _ _ h := ⟨h.unwanted, h.idle.outstanding, h.idle.replies⟩
  files c p schedule h hp := by
    have hidle := h.idle.wp_stash server hp schedule
    rw [stash, wp_bind, wp_get] at hidle ⊢
    split_ifs at hidle ⊢
    · exact ⟨fun hm => h.unwanted (mem_of_mem_erase hm), hidle⟩
    · exact ⟨h.unwanted, hidle⟩

/-! ### The ledger -/

/-- The writes of the `k`-th file `f`: `done` have been collected, `waited` have been waited for,
and `q` are in the queue; `others` are the ids that other requests may use. -/
structure Ledger (server : Nat → Request → Reply) (others : List UInt32) (k : Nat) (f : SftpFile)
    (done waited q : List Pending) (c : Client) : Prop where
  file : c.files[k]? = some (some f)
  queue : f.writequeue = q.map Pending.id
  ids : (q.map Pending.id).Nodup
  due : ∀ p ∈ q, OnItsWay server p c
  settled : ∀ p ∈ done, p.id ∈ q.map Pending.id ∨ Idle p.id c
  serials : ((done ++ q).map Pending.serial).Nodup
  bound : ∀ p ∈ done ++ q, p.serial < c.serial
  sent : sentOf c.log = done ++ q
  delivered : deliveredOf c.log = done.map Pending.serial
  awaited : awaitedOf c.log = waited.map Pending.id
  free : ∀ id ∉ others, id ∉ q.map Pending.id → Free id c

variable {others : List UInt32} {k : Nat} {f : SftpFile} {done waited q : List Pending} {c c' : Client}

/-- A file that has just been opened. -/
theorem Ledger.start {path handle : Bytes} (hfile : c.files[k]? = some (some { path, handle }))
    (hlog : c.log = []) : Ledger server c.busy k { path, handle } [] [] [] c := by
  have hfree : ∀ id ∉ c.busy, Free id c := fun _ h => .of_not_busy h
  constructor <;> simp [hfile, hlog, sentOf, deliveredOf, awaitedOf]
  exact hfree

/-- Steps that have nothing to do with the writes. -/
theorem Ledger.aside (h : Ledger server others k f done waited q c) (hfiles : c'.files = c.files)
    (hserial : c'.serial = c.serial) (hlog : SameRecord c.log c'.log)
    (hdue : ∀ p ∈ q, OnItsWay server p c') (hidle : ∀ id, Idle id c → Idle id c')
    (hfree : ∀ id, Free id c → Free id c') :
    Ledger server others k f done waited q c' where
  file := hfiles ▸ h.file
  queue := h.queue
  ids := h.ids
  due := hdue
  settled p hp := (h.settled p hp).imp_right (hidle _)
  serials := h.serials
  bound := hserial ▸ h.bound
  sent := hlog.sent.trans h.sent
  delivered := hlog.delivered.trans h.delivered
  awaited := hlog.awaited.trans h.awaited
  free id ho hq := hfree id (h.free id ho hq)

/-- What an arrival leaves alone. -/
theorem wp_stash_record (server : Nat → Request → Reply) (p : Pending) (c : Client) :
    wp (stash server p) (fun _ c' => c'.files = c.files ∧ c'.serial = c.serial ∧ c'.id = c.id ∧
      SameRecord c.log c'.log) (fun _ _ => False) c := by
  rw [stash, wp_bind, wp_get]
  split_ifs
  · exact ⟨rfl, rfl, rfl, .dropped [p.serial] c.log⟩
  · refine ⟨rfl, rfl, rfl, ?_⟩
    simp only [drops_eq]
    exact .dropped _ c.log

/-- What holds however a step ends, of every member of a family. -/
theorem wp_forall {ι α : Type} {m : S α} {P : ι → Client → Prop} {c : Client}
    (hreturns : wp m (fun _ _ => True) (fun _ _ => False) c)
    (h : ∀ i, wp m (fun _ => P i) (fun _ _ => False) c) :
    wp m (fun _ c' => ∀ i, P i c') (fun _ _ => False) c := by
  unfold wp at *
  cases hm : m c with
  | ok a c' =>
    intro i
    have hi := h i
    rw [hm] at hi
    exact hi
  | error e c' =>
    rw [hm] at hreturns
    exact hreturns

theorem Ledger.receives (server : Nat → Request → Reply) (others : List UInt32) (k : Nat) (f : SftpFile) (done waited q : List Pending) (id : UInt32) :
    Receives server fun c => Ledger server others k f done waited q c ∧ c.id = id where
  passes _ _ h := ⟨h.1.aside rfl rfl (.refl _)
    (fun p hp => ⟨(h.1.due p hp).wanted, (h.1.due p hp).somewhere⟩)
    (fun _ hi => ⟨hi.outstanding, hi.replies⟩)
    (fun _ hi => ⟨hi.unwanted, hi.idle.outstanding, hi.idle.replies⟩), h.2⟩
  files c p schedule h hp := by
    have hrecord := wp_stash_record server p
      { c with schedule, outstanding := c.outstanding.erase p }
    have hreturns := wp_mono hrecord (fun _ _ _ => trivial) (fun _ _ h => h)
    have hdue := wp_forall (P := fun (p : { p // p ∈ q }) c' => OnItsWay server p.1 c') hreturns
      fun p₀ => (h.1.due p₀.1 p₀.2).wp_stash hp schedule
    have hidle := wp_forall (P := fun (id : { id // Idle id c }) c' => Idle id.1 c') hreturns
      fun id => id.2.wp_stash server hp schedule
    have hfree := wp_forall (P := fun (id : { id // Free id c }) c' => Free id.1 c') hreturns
      fun id => (Free.receives id.1).files c p schedule id.2 hp
    refine wp_mono (wp_and hrecord (wp_and hdue (wp_and hidle hfree))) ?_ (fun _ _ h => h.1)
    rintro _ c' ⟨⟨hfiles, hserial, hid, hlog⟩, hdue, hidle, hfree⟩
    exact ⟨h.1.aside hfiles hserial hlog (fun p hp => hdue ⟨p, hp⟩) (fun id hi => hidle ⟨id, hi⟩)
      (fun id hi => hfree ⟨id, hi⟩), hid.trans h.2⟩

theorem OnItsWay.not_idle {p : Pending} (h : OnItsWay server p c) : ¬ Idle p.id c := by
  intro hi
  rcases h.somewhere with ⟨hout, -⟩ | ⟨-, hrep⟩
  · rw [hi.outstanding] at hout
    cases hout
  · rw [hi.replies] at hrep
    cases hrep

/-- Another request is put on the wire. -/
theorem filter_append_ne {id : UInt32} {p : Pending} (hne : p.id ≠ id) (l : List Pending) :
    (l ++ [p]).filter (·.id = id) = l.filter (·.id = id) := by
  rw [filter_append, filter_cons_of_neg (by simpa using hne), filter_nil, append_nil]

/-- A write is sent, and joins the queue. -/
theorem Ledger.push (h : Ledger server others k f done waited q c) {id : UInt32} (hfree : Free id c)
    (req : Request) (f' : SftpFile) (hqueue : f'.writequeue = f.writequeue ++ [id]) :
    Ledger server others k f' done waited (q ++ [⟨c.serial, id, req⟩]) { c with
      outstanding := c.outstanding ++ [⟨c.serial, id, req⟩]
      serial := c.serial + 1
      log := .sent ⟨c.serial, id, req⟩ :: c.log
      files := c.files.set k (some f') } := by
  -- the id and the serial number are new to the queue
  have hne : ∀ p ∈ q, id ≠ p.id := by
    intro p hp he
    exact (h.due p hp).not_idle (he ▸ hfree.idle)
  have hnew : c.serial ∉ (done ++ q).map Pending.serial := by
    intro hm
    obtain ⟨p, hp, he⟩ := mem_map.mp hm
    have := h.bound p hp
    omega
  refine ⟨files_set h.file f', by rw [hqueue, h.queue, map_append]; rfl, ?_, fun p hp => ?_,
    fun p hp => ?_, ?_, fun p hp => ?_, ?_, ?_, ?_, fun id' ho hq => ?_⟩
  · rw [map_append, map_singleton, nodup_append]
    refine ⟨h.ids, nodup_singleton _, fun a ha b hb => ?_⟩
    obtain ⟨p, hp, rfl⟩ := mem_map.mp ha
    rw [mem_singleton.mp hb]
    exact Ne.symm (hne p hp)
  · rcases mem_append.mp hp with hp | hp
    · refine ⟨(h.due p hp).wanted, ?_⟩
      simp only [filter_append_ne (p := ⟨c.serial, id, req⟩) (hne p hp)]
      exact (h.due p hp).somewhere
    · rw [mem_singleton.mp hp]
      refine ⟨hfree.unwanted, .inl ⟨?_, hfree.idle.replies⟩⟩
      rw [filter_append, hfree.idle.outstanding, nil_append, filter_cons_of_pos (by simp),
        filter_nil]
  · rcases h.settled p hp with hm | hi
    · exact .inl (by rw [map_append]; exact mem_append_left _ hm)
    by_cases he : id = p.id
    · exact .inl (by rw [map_append, ← he]; simp)
    · exact .inr ⟨(filter_append_ne he _).trans hi.outstanding, hi.replies⟩
  · rw [← append_assoc, map_append, nodup_append]
    refine ⟨h.serials, nodup_singleton _, fun a ha b hb he => ?_⟩
    rw [map_singleton, mem_singleton] at hb
    rw [he, hb] at ha
    exact hnew ha
  · rw [← append_assoc] at hp
    rcases mem_append.mp hp with hp | hp
    · exact Nat.lt_succ_of_lt (h.bound p hp)
    · rw [mem_singleton.mp hp]
      exact Nat.lt_succ_self _
  · rw [← append_assoc, ← h.sent]
    simp [sentOf]
  · rw [← h.delivered]
    simp [deliveredOf]
  · rw [← h.awaited]
    simp [awaitedOf]
  · rw [map_append, mem_append, not_or] at hq
    have hi := h.free id' ho hq.1
    have hne' : id ≠ id' := fun he => hq.2 (he ▸ mem_singleton_self id)
    exact ⟨hi.unwanted, (filter_append_ne hne' _).trans hi.idle.outstanding, hi.idle.replies⟩

/-- The id that `newid` gives out next. -/
def Client.nextId (c : Client) : UInt32 := if c.id = 0 then 1 else c.id

/-- The file when it has sent a `WRITE` of `buf` under `id`. -/
def SftpFile.wrote (f : SftpFile) (id : UInt32) (buf : Bytes) : SftpFile :=
  { f with
    writeoffset := f.writeoffset + UInt64.ofNat buf.length
    writequeue := f.writequeue ++ [id] }

/-- **A write is sent**; what is left of `writebytes` is to collect replies. -/
theorem Ledger.wp_writebytes (h : Ledger server others k f done waited q c) {buf : Bytes}
    (hbuf : buf ≠ []) (hfree : Free c.nextId c) {Q : Unit → Client → Prop}
    {E : Stop → Client → Prop}
    (hreap : ∀ p c', p.req = .WRITE f.handle f.writeoffset buf → c'.id = c.nextId + 1 →
      Ledger server others k (f.wrote p.id buf) done waited (q ++ [p]) c' →
      wp (reapReady server k (q.length + 1)) Q E c') :
    wp (writebytes server k buf) Q E c := by
  rw [writebytes, wp_ite, if_neg (fun hl => hbuf (eq_nil_of_length_eq_zero hl)), wp_bind,
    wp_getFile h.file, wp_bind, newid, wp_bind, wp_get, wp_bind, wp_set, wp_pure, wp_bind]
  set id := c.nextId
  set c₀ : Client := { c with id := id + 1, log := .newid id (c.inUse id) :: c.log }
  have h₀ : Ledger server others k f done waited q c₀ :=
    h.aside rfl rfl (.newid _ _ _) (fun p hp => ⟨(h.due p hp).wanted, (h.due p hp).somewhere⟩)
      (fun _ hi => ⟨hi.outstanding, hi.replies⟩)
      fun _ hi => ⟨hi.unwanted, hi.idle.outstanding, hi.idle.replies⟩
  have hfree₀ : Free id c₀ := ⟨hfree.unwanted, hfree.idle.outstanding, hfree.idle.replies⟩
  have hreceives := (Ledger.receives server others k f done waited q (id + 1)).and
    (Free.receives id)
  refine wp_mono (hreceives.wp_send id _ (And.intro (And.intro h₀ rfl) hfree₀)) ?_
    (fun _ _ h => h.elim)
  rintro _ c' ⟨c₁, ⟨⟨h₁, hid⟩, hfree₁⟩, rfl⟩
  rw [wp_bind]
  refine (wp_getFile (f := f) (by exact h₁.file) _ _).mpr ?_
  have hlen : f.writequeue.length = q.length := by rw [h.queue, length_map]
  rw [wp_bind, wp_setFile, hlen]
  have h₂ := h₁.push hfree₁ (.WRITE f.handle f.writeoffset buf) (f.wrote id buf) rfl
  exact hreap ⟨c₁.serial, id, .WRITE f.handle f.writeoffset buf⟩ _ rfl hid h₂

/-! ### Collecting a reply -/

theorem Idle.after_collect {id : UInt32} (h : Idle id c) (id' : UInt32) (log : List Event) :
    Idle id { c with replies := c.otherReplies id', log } := by
  refine ⟨h.outstanding, ?_⟩
  change filter _ (filter _ c.replies) = []
  rw [filter_comm]
  have hrep : c.replies.filter (·.1 = id) = [] := h.replies
  rw [hrep, filter_nil]

/-- The reply to the first write in the queue is taken out of the map. -/
theorem Ledger.pop {p : Pending} (h : Ledger server others k f done waited (p :: q) c) {s : Nat}
    {r : Reply} (hl : c.replies.lookup p.id = some (s, r)) (f' : SftpFile)
    (hqueue : f'.writequeue = q.map Pending.id) :
    r = server p.serial p.req ∧ Ledger server others k f' (done ++ [p]) waited q { c with
      replies := c.otherReplies p.id
      log := .delivered s :: c.log
      files := c.files.set k (some f') } := by
  have hdue := h.due p mem_cons_self
  have hin : (p.id, s, r) ∈ c.repliesTo p.id :=
    mem_filter.mpr ⟨mem_of_lookup hl, by simp⟩
  -- the reply that has been found is the one to this request
  rcases hdue.somewhere with ⟨-, hrep⟩ | ⟨hout, hrep⟩
  · rw [hrep] at hin
    cases hin
  rw [hrep] at hin
  obtain ⟨-, rfl, rfl⟩ : p.id = p.id ∧ s = p.serial ∧ r = server p.serial p.req := by
    simpa using hin
  obtain ⟨hnew, hids⟩ := nodup_cons.mp h.ids
  have hne : ∀ p' ∈ q, p.id ≠ p'.id := fun p' hp' he => hnew (he ▸ mem_map_of_mem hp')
  have hother : ∀ {id : UInt32}, p.id ≠ id →
      filter (·.1 = id) (c.otherReplies p.id) = c.repliesTo id := fun hne =>
    filter_otherReplies hne c
  -- nothing is left that belongs to the id
  have hidle : Idle p.id { c with replies := c.otherReplies p.id } := by
    refine ⟨hout, filter_eq_nil_iff.mpr fun r hr => ?_⟩
    simpa using (mem_filter.mp hr).2
  refine ⟨rfl, files_set h.file f', hqueue, hids, fun p' hp' => ⟨?_, ?_⟩, fun p' hp' => ?_, ?_, ?_,
    ?_, ?_, ?_, fun id ho hq => ?_⟩
  · exact (h.due p' (mem_cons_of_mem p hp')).wanted
  · have hsome := (h.due p' (mem_cons_of_mem p hp')).somewhere
    rw [← hother (hne p' hp')] at hsome
    exact hsome
  · rcases mem_append.mp hp' with hp' | hp'
    · rcases h.settled p' hp' with hm | hi
      · rcases mem_cons.mp hm with he | hm
        · exact .inr (by rw [he]; exact ⟨hidle.outstanding, hidle.replies⟩)
        · exact .inl hm
      · have := hi.after_collect p.id c.log
        exact .inr ⟨this.outstanding, this.replies⟩
    · rw [mem_singleton.mp hp']
      exact .inr ⟨hidle.outstanding, hidle.replies⟩
  · rw [append_assoc]
    exact h.serials
  · rw [append_assoc]
    exact h.bound
  · rw [append_assoc]
    refine Eq.trans ?_ h.sent
    simp [sentOf]
  · rw [map_append, ← h.delivered]
    simp [deliveredOf]
  · rw [← h.awaited]
    simp [awaitedOf]
  · by_cases he : id = p.id
    · rw [he]
      exact ⟨hdue.wanted, hidle.outstanding, hidle.replies⟩
    · have hi := h.free id ho (by
        rw [map_cons, mem_cons, not_or]
        exact ⟨he, hq⟩)
      have hi' := hi.idle.after_collect p.id c.log
      exact ⟨hi.unwanted, hi'.outstanding, hi'.replies⟩

/-- `SSH_FX_OK`. -/
def Accepted (reply : Reply) : Prop := ∃ message, reply = .STATUS SSH_FX_OK message

/-- What stopped `synchronize_one`, when the reply to `p` was to be collected. -/
def Refused (server : Nat → Request → Reply) (p : Pending) (c : Client) : Stop → Prop
  | .blocked => p ∈ c.outstanding
  | .error _ _ status => status ≠ SSH_FX_OK ∧ ∃ m, server p.serial p.req = .STATUS status m
  | .fatal _ => ∀ status m, server p.serial p.req ≠ .STATUS status m

/-- **The reply to the first write is collected and checked.** -/
theorem Ledger.wp_reap {p : Pending} (h : Ledger server others k f done done (p :: q) c)
    {id : Option UInt32} (hid : id.getD p.id = p.id) {Q : Unit → Client → Prop}
    {E : Stop → Client → Prop}
    (hok : ∀ c', Accepted (server p.serial p.req) → c'.id = c.id →
      Ledger server others k { f with writequeue := q.map Pending.id } (done ++ [p]) (done ++ [p]) q c' →
      Q () c')
    (hstop : ∀ stop c', Refused server p c' stop → c'.id = c.id → (stop = .blocked →
        Ledger server others k f done (done ++ [p]) (p :: q) c') → (stop ≠ .blocked →
        Ledger server others k { f with writequeue := q.map Pending.id } (done ++ [p]) (done ++ [p]) q c') →
      E stop c') :
    wp (synchronize_one server k id) Q E c := by
  have hqueue : f.writequeue = p.id :: q.map Pending.id := h.queue
  rw [synchronize_one, wp_bind, wp_getFile h.file, hqueue]
  simp only
  rw [wp_bind, record, wp_modify, wp_bind, hid]
  have h₀ : Ledger server others k f done (done ++ [p]) (p :: q)
      { c with log := .reaped p.id p.id :: c.log } := by
    refine ⟨h.file, h.queue, h.ids, fun p hp => ⟨(h.due p hp).wanted, (h.due p hp).somewhere⟩,
      fun p hp => (h.settled p hp).imp_right fun hi => ⟨hi.outstanding, hi.replies⟩, h.serials,
      h.bound, ?_, ?_, ?_, fun id ho hq =>
        ⟨(h.free id ho hq).unwanted, (h.free id ho hq).idle.outstanding,
          (h.free id ho hq).idle.replies⟩⟩
    · rw [← h.sent]
      simp [sentOf]
    · rw [← h.delivered]
      simp [deliveredOf]
    · rw [map_append, ← h.awaited]
      simp [awaitedOf]
  refine wp_mono ((Ledger.receives server others k f done (done ++ [p]) (p :: q) c.id).wp_await p.id
    (And.intro h₀ rfl)) ?_ ?_
  · rintro r c' ⟨c₁, s, ⟨h₁, hid₁⟩, hl, rfl⟩
    obtain ⟨rfl, h₂⟩ := h₁.pop hl { f with writequeue := q.map Pending.id } rfl
    rw [wp_bind, wp_getFile (by exact h₁.file), wp_bind, wp_setFile, hqueue, erase_cons_head]
    unfold check
    split
    · rename_i status m hr
      by_cases hst : status = SSH_FX_OK
      · rw [wp_ite, if_neg (by simp [hst])]
        exact hok _ ⟨m, hst ▸ hr⟩ hid₁ h₂
      · rw [wp_ite, if_pos ⟨hst, .inr rfl⟩]
        exact hstop _ _ ⟨hst, m, hr⟩ hid₁ (fun hb => by cases hb) fun _ => h₂
    · rename_i hr
      exact hstop _ _ hr hid₁ (fun hb => by cases hb) fun _ => h₂
  · rintro stop c' ⟨rfl, ⟨-, hl⟩, h₁, hid₁⟩
    refine hstop _ _ ?_ hid₁ (fun _ => h₁) fun hb => absurd rfl hb
    -- the reply has not arrived, so the request is still on its way
    rcases (h₁.due p mem_cons_self).somewhere with ⟨hout, -⟩ | ⟨-, hrep⟩
    · exact mem_of_mem_filter (hout ▸ mem_singleton_self p)
    · have hm : (p.id, p.serial, server p.serial p.req) ∈ c'.replies :=
        mem_of_mem_filter (hrep ▸ mem_singleton_self _)
      rw [lookup_eq_none_iff] at hl
      exact absurd (hl _ hm) (by simp)

end Hbackup.Sftp
