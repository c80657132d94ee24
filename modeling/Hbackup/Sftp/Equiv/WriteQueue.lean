import Hbackup.Sftp.Equiv.Bookkeeping
import Hbackup.Sftp.Equiv.Ledger

/-!
# Writes under way together

With several writes in the queue, `synchronize_one` waits for the reply to the first of them and
takes the one it was called for off the queue.  As long as these are the same, and no id is given
out that is in use, the ledger of the writes is kept (`writes_settled`).  When the reply to a later
write is the first to be found, the reply to the first one is used up for it, and `synchronize`
waits for it again (`not_writes_settled`).
-/

namespace Hbackup.Sftp

open ProgramLogic List

variable {server : Nat → Request → Reply}

/-! ### The log only grows -/

/-- Nothing is ever taken out of the log. -/
def LogGrows (c c' : Client) : Prop := c.log <:+ c'.log

instance : Std.Refl LogGrows := ⟨fun c => suffix_refl c.log⟩

instance : IsTrans Client LogGrows := ⟨fun _ _ _ h h' => h.trans h'⟩

abbrev Grows {α : Type} (m : S α) : Prop := Frames LogGrows m

theorem receives_suffix (log : List Event) : Receives server fun c => log <:+ c.log where
  passes _ _ h := h
  files c p schedule h _ := by
    rw [stash, wp_bind, wp_get]
    split_ifs
    · exact h.trans (suffix_cons _ _)
    · exact h.trans (suffix_append _ _)

theorem grows_getFile (k : Nat) : Grows (getFile k) := by
  intro c
  rw [getFile, wp_bind, wp_get]
  split <;> exact suffix_refl _

theorem grows_setFile (k : Nat) (f : SftpFile) : Grows (setFile k f) := fun c => suffix_refl c.log

theorem grows_newid : Grows newid := by
  intro c
  rw [newid, wp_bind, wp_get]
  exact suffix_cons _ _

theorem grows_record (e : Event) : Grows (record e) := fun _ => suffix_cons _ _

theorem grows_await (id : UInt32) : Grows (await server id) := by
  intro c
  refine wp_mono ((receives_suffix c.log).wp_await id (suffix_refl _)) ?_ (fun _ _ h => h.2.2)
  rintro _ _ ⟨c₁, s, h₁, -, rfl⟩
  exact h₁.trans (suffix_cons _ _)

theorem grows_send (id : UInt32) (req : Request) : Grows (send server id req) := by
  intro c
  refine wp_mono ((receives_suffix c.log).wp_send id req (suffix_refl _)) ?_ (fun _ _ h => h.elim)
  rintro _ _ ⟨c₁, h₁, rfl⟩
  exact h₁.trans (suffix_cons _ _)

theorem grows_check (what : String) (path : Bytes) (reply : Reply) (allow_eof : Bool) :
    Grows (check what path reply allow_eof) := by
  intro c
  unfold check
  split
  · rw [wp_ite]
    split_ifs <;> exact suffix_refl _
  · exact suffix_refl _

theorem grows_synchronize_one (k : Nat) (id : Option UInt32) :
    Grows (synchronize_one server k id) := by
  refine (grows_getFile k).bind fun f => ?_
  split
  · exact .pure _
  · refine (grows_record _).bind fun _ => (grows_await _).bind fun reply => ?_
    exact (grows_getFile k).bind fun f => (grows_setFile k _).bind fun _ => grows_check _ _ _ _

theorem grows_reapReady (k : Nat) : ∀ turns, Grows (reapReady server k turns)
  | 0 => .pure _
  | turns + 1 => by
    refine (grows_getFile k).bind fun f c => ?_
    rw [wp_bind, wp_get]
    split
    · exact suffix_refl _
    · exact ((grows_synchronize_one k _).bind fun _ => grows_reapReady k turns) c

theorem grows_synchronizeLoop (k : Nat) : ∀ turns, Grows (synchronizeLoop server k turns)
  | 0 => .pure _
  | turns + 1 => by
    refine (grows_getFile k).bind fun f => ?_
    split_ifs
    · exact (grows_synchronize_one k _).bind fun _ => grows_synchronizeLoop k turns
    · exact .pure _

theorem grows_writebytes (k : Nat) (buf : Bytes) : Grows (writebytes server k buf) := by
  unfold writebytes
  split_ifs
  · exact .pure _
  · refine (grows_getFile k).bind fun f => grows_newid.bind fun id => (grows_send _ _).bind fun _ => ?_
    exact (grows_getFile k).bind fun f => (grows_setFile k _).bind fun _ => grows_reapReady k _

/-- What has upset the books is not forgotten. -/
theorem Grows.upset {α : Type} {m : S α} (hm : Grows m) {c : Client} (h : ¬ Harmless c.log)
    {Q : α → Client → Prop} {E : Stop → Client → Prop} :
    wp m (fun a c' => Harmless c'.log → Q a c') (fun stop c' => Harmless c'.log → E stop c') c :=
  wp_mono (hm c) (fun _ _ hs hl => absurd (fun e he => hl e (hs.mem he)) h)
    (fun _ _ hs hl => absurd (fun e he => hl e (hs.mem he)) h)

/-- One step after the other, while nothing upsets the books. -/
theorem wp_bind_harmless {α β : Type} {m : S α} {next : α → S β} {P : α → Client → Prop}
    {Q : β → Client → Prop} {E : Stop → Client → Prop} {c : Client}
    (hm : wp m (fun a c' => Harmless c'.log → P a c') (fun stop c' => Harmless c'.log → E stop c') c)
    (hgrows : ∀ a, Grows (next a))
    (hnext : ∀ a c', P a c' → wp (next a) (fun b c'' => Harmless c''.log → Q b c'')
      (fun stop c'' => Harmless c''.log → E stop c'') c') :
    wp (m >>= next) (fun b c' => Harmless c'.log → Q b c')
      (fun stop c' => Harmless c'.log → E stop c') c := by
  rw [wp_bind]
  refine wp_mono hm (fun a c₁ h₁ => ?_) (fun _ _ h => h)
  by_cases hl : Harmless c₁.log
  · exact hnext a c₁ (h₁ hl)
  · exact (hgrows a).upset hl

/-! ### Calls on the file -/

/-- The status that a write was refused with. -/
def refusal (server : Nat → Request → Reply) (p : Pending) : Option UInt32 :=
  match server p.serial p.req with
  | .STATUS status _ => if status = SSH_FX_OK then none else some status
  | _ => none

theorem Accepted.refusal {p : Pending} (h : Accepted (server p.serial p.req)) :
    Sftp.refusal server p = none := by
  obtain ⟨m, hm⟩ := h
  rw [Sftp.refusal, hm]
  exact if_pos rfl

theorem refusal_of_status {p : Pending} {status : UInt32} {m : Bytes}
    (hp : server p.serial p.req = .STATUS status m) (hst : status ≠ SSH_FX_OK) :
    refusal server p = some status := by
  rw [refusal, hp]
  exact if_neg hst

/-- The writes of the file are accounted for, and `thrown` are the statuses of those refused. -/
def Accounted (server : Nat → Request → Reply) (others : List UInt32) (k : Nat)
    (thrown : List UInt32) (q : List Pending) (c : Client) : Prop :=
  ∃ f done, Ledger server others k f done done q c ∧ done.filterMap (refusal server) = thrown

/-- The state in which a call was stopped. -/
def Interrupted (server : Nat → Request → Reply) (others : List UInt32) (k : Nat)
    (thrown : List UInt32) : Stop → Client → Prop
  | .blocked, c => ∃ f done p q, Ledger server others k f done (done ++ [p]) (p :: q) c ∧
      p ∈ c.outstanding
  | .error _ _ status, c => ∃ q, Accounted server others k (thrown ++ [status]) q c
  | .fatal _, _ => True

variable {others : List UInt32} {k : Nat} {thrown : List UInt32} {q : List Pending} {c : Client}

theorem Accounted.wp_synchronize_one (h : Accounted server others k thrown q c)
    (id : Option UInt32) :
    wp (synchronize_one server k id)
      (fun _ c' => Harmless c'.log → Accounted server others k thrown q.tail c')
      (fun stop c' => Harmless c'.log → Interrupted server others k thrown stop c') c := by
  obtain ⟨f, done, h, rfl⟩ := h
  cases q with
  | nil =>
    have hqueue : f.writequeue = [] := h.queue
    rw [synchronize_one, wp_bind, wp_getFile h.file, hqueue]
    exact fun _ => ⟨f, done, h, rfl⟩
  | cons p q =>
    by_cases hid : id.getD p.id = p.id
    · refine h.wp_reap hid (fun c' hok _ h' _ => ?_) fun stop c' hstop _ hb hs _ => ?_
      · refine ⟨_, _, h', ?_⟩
        rw [filterMap_append, filterMap_cons_none hok.refusal, filterMap_nil, append_nil]
      · cases stop with
        | blocked => exact ⟨f, done, p, q, hb rfl, hstop⟩
        | error what path status =>
          obtain ⟨hst, m, hm⟩ := hstop
          refine ⟨q, _, _, hs (by simp), ?_⟩
          rw [filterMap_append, filterMap_cons_some (refusal_of_status hm hst), filterMap_nil]
        | fatal => trivial
    · -- the reply to the first write is taken for another one
      have hqueue : f.writequeue = p.id :: q.map Pending.id := h.queue
      rw [synchronize_one, wp_bind, wp_getFile h.file, hqueue]
      simp only
      rw [wp_bind, record, wp_modify]
      refine Grows.upset ?_ fun hl => ?_
      swap
      · have he : (Event.reaped (id.getD p.id) p.id).Harmless := hl _ mem_cons_self
        exact hid he
      exact (grows_await _).bind fun reply => (grows_getFile k).bind fun f =>
        (grows_setFile k _).bind fun _ => grows_check _ _ _ _

theorem Accounted.wp_reapReady : ∀ (turns : Nat) {q : List Pending} {c : Client},
    Accounted server others k thrown q c →
    wp (reapReady server k turns)
      (fun _ c' => Harmless c'.log → ∃ q, Accounted server others k thrown q c')
      (fun stop c' => Harmless c'.log → Interrupted server others k thrown stop c') c
  | 0, q, c, h => fun _ => ⟨q, h⟩
  | turns + 1, q, c, h => by
    obtain ⟨f, done, hledger, hthrown⟩ := h
    rw [reapReady, wp_bind, wp_getFile hledger.file, wp_bind, wp_get]
    split
    · exact fun _ => ⟨q, f, done, hledger, hthrown⟩
    · exact wp_bind_harmless (Accounted.wp_synchronize_one ⟨f, done, hledger, hthrown⟩ _)
        (fun _ => grows_reapReady k turns) fun _ _ h' => h'.wp_reapReady turns

theorem Accounted.wp_writebytes (h : Accounted server others k thrown q c) (buf : Bytes) :
    wp (writebytes server k buf)
      (fun _ c' => Harmless c'.log → ∃ q, Accounted server others k thrown q c')
      (fun stop c' => Harmless c'.log → Interrupted server others k thrown stop c') c := by
  obtain ⟨f, done, h, rfl⟩ := h
  by_cases hbuf : buf = []
  · rw [writebytes, wp_ite, if_pos (by rw [hbuf]; rfl)]
    exact fun _ => ⟨q, f, done, h, rfl⟩
  cases huse : c.inUse c.nextId with
  | false =>
    refine h.wp_writebytes hbuf (.of_not_busy (not_busy_of_not_inUse huse)) fun p c' _ _ h' => ?_
    exact Accounted.wp_reapReady _ ⟨_, done, h', rfl⟩
  | true =>
    -- an id in use is given out
    rw [writebytes, wp_ite, if_neg (fun hl => hbuf (eq_nil_of_length_eq_zero hl)), wp_bind,
      wp_getFile h.file, wp_bind, newid, wp_bind, wp_get, wp_bind, wp_set, wp_pure]
    refine Grows.upset ?_ fun hl => ?_
    · exact (grows_send _ _).bind fun _ => (grows_getFile k).bind fun f =>
        (grows_setFile k _).bind fun _ => grows_reapReady k _
    · have hfree : c.inUse c.nextId = false := hl _ mem_cons_self
      rw [huse] at hfree
      cases hfree

theorem Accounted.wp_synchronizeLoop : ∀ (turns : Nat) {q : List Pending} {c : Client},
    q.length ≤ turns → Accounted server others k thrown q c →
    wp (synchronizeLoop server k turns)
      (fun _ c' => Harmless c'.log → Accounted server others k thrown [] c')
      (fun stop c' => Harmless c'.log → Interrupted server others k thrown stop c') c
  | 0, q, c, hq, h => by
    obtain rfl : q = [] := eq_nil_of_length_eq_zero (Nat.le_zero.mp hq)
    exact fun _ => h
  | turns + 1, q, c, hq, h => by
    obtain ⟨f, done, hledger, hthrown⟩ := h
    have hlen : f.writequeue.length = q.length := by rw [hledger.queue, length_map]
    rw [synchronizeLoop, wp_bind, wp_getFile hledger.file, hlen]
    split_ifs with hne
    · refine wp_bind_harmless (Accounted.wp_synchronize_one ⟨f, done, hledger, hthrown⟩ none)
        (fun _ => grows_synchronizeLoop k turns) fun _ _ h' => ?_
      refine Accounted.wp_synchronizeLoop turns ?_ h'
      rw [length_tail]
      omega
    · obtain rfl : q = [] := eq_nil_of_length_eq_zero (not_not.mp hne)
      exact fun _ => ⟨f, done, hledger, hthrown⟩

theorem Accounted.wp_synchronize (h : Accounted server others k thrown q c) :
    wp (synchronize server k)
      (fun _ c' => Harmless c'.log → Accounted server others k thrown [] c')
      (fun stop c' => Harmless c'.log → Interrupted server others k thrown stop c') c := by
  obtain ⟨f, done, hledger, hthrown⟩ := h
  rw [synchronize, wp_bind, wp_getFile hledger.file]
  exact Accounted.wp_synchronizeLoop _ (by rw [hledger.queue, length_map])
    ⟨f, done, hledger, hthrown⟩

/-! ### Any number of calls -/

/-- The operations that write to the `k`-th file. -/
def Operation.Writes (k : Nat) (op : Operation) : Prop :=
  (∃ buf, op = .writebytes k buf) ∨ op = .synchronize k

/-- The operations, and what each of them threw. -/
def attemptAll (server : Nat → Request → Reply) (ops : List Operation) : S (List (Option Stop)) :=
  ops.mapM fun op => attempt (perform server op)

/-- The status that was thrown. -/
def statusOf : Option Stop → Option UInt32
  | some (.error _ _ status) => some status
  | _ => none

/-- Every write has been collected once, and its status checked, or is still in the queue: `done`
and `q` are these. -/
structure Settled (server : Nat → Request → Reply) (k : Nat) (outcomes : List (Option Stop))
    (done q : List Pending) (c : Client) : Prop where
  sent : sentOf c.log = done ++ q
  once : ((done ++ q).map Pending.serial).Nodup
  collected : deliveredOf c.log = done.map Pending.serial
  checked : outcomes.filterMap statusOf = done.filterMap (refusal server)
  queue : ∃ f, c.files[k]? = some (some f) ∧ f.writequeue = q.map Pending.id
  due : ∀ p ∈ q, OnItsWay server p c

theorem wp_attempt {others : List UInt32} {op : Operation} (hop : op.Writes k)
    {outcomes : List (Option Stop)}
    (h : Accounted server others k (outcomes.filterMap statusOf) q c) :
    wp (attempt (perform server op))
      (fun o c' => Harmless c'.log → ∃ q',
        Accounted server others k ((outcomes ++ [o]).filterMap statusOf) q' c' ∧
        (op = .synchronize k → statusOf o = none → q' = []))
      (fun stop c' => Harmless c'.log →
        Interrupted server others k (outcomes.filterMap statusOf) stop c') c := by
  have hperform : wp (perform server op)
      (fun _ c' => Harmless c'.log → ∃ q',
        Accounted server others k (outcomes.filterMap statusOf) q' c' ∧
        (op = .synchronize k → q' = []))
      (fun stop c' => Harmless c'.log →
        Interrupted server others k (outcomes.filterMap statusOf) stop c') c := by
    rcases hop with ⟨buf, rfl⟩ | rfl
    · refine wp_mono (h.wp_writebytes buf) (fun _ c' h' hl => ?_) (fun _ _ h => h)
      obtain ⟨q', h'⟩ := h' hl
      exact ⟨q', h', fun he => by cases he⟩
    · exact wp_mono h.wp_synchronize (fun _ c' h' hl => ⟨[], h' hl, fun _ => rfl⟩) (fun _ _ h => h)
  rw [attempt, wp_tryCatch, wp_bind]
  refine wp_mono hperform (fun _ c' h' hl => ?_) fun stop c' h' => ?_
  · obtain ⟨q', h', hq⟩ := h' hl
    refine ⟨q', ?_, fun he _ => hq he⟩
    rw [filterMap_append, filterMap_cons_none rfl, filterMap_nil, append_nil]
    exact h'
  · cases stop with
    | error what path status =>
      intro hl
      obtain ⟨q', h'⟩ := h' hl
      refine ⟨q', ?_, fun _ hnone => by cases hnone⟩
      rw [filterMap_append]
      exact h'
    | blocked => exact h'
    | fatal => exact h'

theorem grows_attempt {op : Operation} (hop : op.Writes k) :
    Grows (attempt (perform server op)) := by
  have hperform : Grows (perform server op) := by
    rcases hop with ⟨buf, rfl⟩ | rfl
    · exact grows_writebytes k buf
    · exact (grows_getFile k).bind fun f => grows_synchronizeLoop k _
  intro c
  rw [attempt, wp_tryCatch, wp_bind]
  refine wp_mono (hperform c) (fun _ _ h => h) fun stop c' h' => ?_
  cases stop <;> exact h'

theorem grows_attemptAll : ∀ {ops : List Operation}, (∀ op ∈ ops, op.Writes k) →
    Grows (attemptAll server ops)
  | [], _ => .pure _
  | op :: ops, hops => by
    rw [attemptAll, mapM_cons]
    refine (grows_attempt (hops op mem_cons_self)).bind fun o => Frames.bind ?_ fun os => .pure _
    exact grows_attemptAll fun op' hop' => hops op' (mem_cons_of_mem op hop')

/-- The state between two calls; the queue is empty if the last one was `synchronize` and nothing
was thrown. -/
def Between (server : Nat → Request → Reply) (others : List UInt32) (k : Nat)
    (ops : List Operation) (outcomes : List (Option Stop)) (c : Client) : Prop :=
  ∃ q, Accounted server others k (outcomes.filterMap statusOf) q c ∧
    (ops.getLast? = some (.synchronize k) → outcomes.filterMap statusOf = [] → q = [])

theorem Between.wp_attemptAll {others : List UInt32} : ∀ {ops : List Operation}
    {ops₀ : List Operation} {outcomes : List (Option Stop)} {c : Client},
    (∀ op ∈ ops, op.Writes k) → Between server others k ops₀ outcomes c →
    wp (attemptAll server ops)
      (fun os c' => Harmless c'.log → Between server others k (ops₀ ++ ops) (outcomes ++ os) c')
      (fun stop c' => Harmless c'.log → ∃ thrown, Interrupted server others k thrown stop c') c
  | [], ops₀, outcomes, c, _, h => by
    rw [attemptAll, mapM_nil, wp_pure, append_nil, append_nil]
    exact fun _ => h
  | op :: ops, ops₀, outcomes, c, hops, h => by
    obtain ⟨q, h, -⟩ := h
    have hops' : ∀ op ∈ ops, op.Writes k := fun op' hop' => hops op' (mem_cons_of_mem op hop')
    have hop := hops op mem_cons_self
    rw [attemptAll, mapM_cons]
    refine wp_bind_harmless (wp_mono (wp_attempt hop h) (fun _ _ h => h)
      fun _ _ h hl => ⟨_, h hl⟩) (fun o => (grows_attemptAll hops').bind fun os => .pure _) ?_
    rintro o c₁ ⟨q₁, h₁, hq₁⟩
    have hbetween : Between server others k (ops₀ ++ [op]) (outcomes ++ [o]) c₁ := by
      refine ⟨q₁, h₁, fun hlast hnone => ?_⟩
      rw [getLast?_concat] at hlast
      rw [filterMap_append, append_eq_nil_iff] at hnone
      exact hq₁ (Option.some.inj hlast) (filterMap_eq_nil_iff.mp hnone.2 o (mem_singleton_self o))
    rw [wp_bind]
    refine wp_mono (hbetween.wp_attemptAll hops') (fun os c' h' => ?_) (fun _ _ h => h)
    rw [wp_pure]
    simpa using h'

/-- **The write queue, as long as nothing upsets the books.**  After any calls of `writebytes` and
`synchronize` in which the reply to a write is only ever collected for that write, and no id is
given out that is in use: every write has been collected once and its status checked, or is still
in the queue.  If the last call was `synchronize` and all writes were accepted, the queue is empty,
and no reply is left.  A call that does not return waits for a reply that has not arrived. -/
theorem writes_settled {path handle : Bytes} {ops : List Operation}
    (hops : ∀ op ∈ ops, op.Writes k) (hfile : c.files[k]? = some (some { path, handle }))
    (hlog : c.log = []) :
    (∀ outcomes c', attemptAll server ops c = .ok outcomes c' → Harmless c'.log →
      ∃ done q, Settled server k outcomes done q c' ∧
        (ops.getLast? = some (.synchronize k) →
          (∀ p ∈ sentOf c'.log, Accepted (server p.serial p.req)) →
          q = [] ∧ ∀ p ∈ sentOf c'.log, c'.repliesTo p.id = [])) ∧
    ∀ c', attemptAll server ops c = .error .blocked c' → Harmless c'.log →
      ∃ p ∈ c'.outstanding, p ∈ sentOf c'.log ∧ (awaitedOf c'.log).getLast? = some p.id ∧
        p.serial ∉ deliveredOf c'.log := by
  have h₀ : Between server c.busy k [] [] c :=
    ⟨[], ⟨_, [], .start hfile hlog, rfl⟩, fun h => by cases h⟩
  have hwp := h₀.wp_attemptAll hops
  constructor
  · intro outcomes c' hrun hl
    obtain ⟨q, ⟨f, done, h, hthrown⟩, hq⟩ := wp_elim_ok hwp hrun hl
    refine ⟨done, q, ⟨h.sent, h.serials, h.delivered, hthrown.symm, ⟨f, h.file, h.queue⟩, h.due⟩,
      fun hlast haccepted => ?_⟩
    rw [h.sent] at haccepted ⊢
    -- as nothing was refused, nothing was thrown
    have hnone : outcomes.filterMap statusOf = [] := by
      rw [nil_append] at hthrown
      rw [← hthrown, filterMap_eq_nil_iff]
      exact fun p hp => (haccepted p (mem_append_left q hp)).refusal
    obtain rfl := hq hlast hnone
    refine ⟨rfl, fun p hp => ?_⟩
    rw [append_nil] at hp
    exact ((h.settled p hp).resolve_left (by simp)).replies
  · intro c' hrun hl
    obtain ⟨thrown, f, done, p, q, h, hp⟩ := wp_elim_error hwp hrun hl
    refine ⟨p, hp, by rw [h.sent]; simp, ?_, ?_⟩
    · rw [h.awaited, map_append, map_singleton, getLast?_concat]
    · rw [h.delivered]
      intro hm
      have hnd := h.serials
      rw [map_append, map_cons] at hnd
      exact (nodup_append.mp hnd).2.2 _ hm _ mem_cons_self rfl

/-! ### Replies out of order -/

/-- A server that accepts everything. -/
def acceptsAll (_ : Nat) (_ : Request) : Reply := .STATUS SSH_FX_OK []

/-- A client that has opened one file. -/
def oneOpen (schedule : List (Option Nat)) : Client where
  files := [some { path := lit "f", handle := lit "h" }]
  schedule

/-- Three writes, and then `synchronize`. -/
def threeWrites : List Operation :=
  [.writebytes 0 (lit "a"), .writebytes 0 (lit "b"), .writebytes 0 (lit "c"), .synchronize 0]

theorem threeWrites_writes : ∀ op ∈ threeWrites, op.Writes 0 := by
  simp [threeWrites, Operation.Writes]

/-- The reply to the second write arrives before that to the first.  That to the first is collected
in its place, and `synchronize` waits for it a second time when nothing is unanswered. -/
theorem not_writes_settled :
    ¬ ∀ (server : Nat → Request → Reply) (k : Nat) (path handle : Bytes) (ops : List Operation)
      (c c' : Client), (∀ op ∈ ops, op.Writes k) →
        c.files[k]? = some (some { path, handle }) → c.log = [] →
        attemptAll server ops c = .error .blocked c' →
        ∃ p ∈ c'.outstanding, p ∈ sentOf c'.log ∧ (awaitedOf c'.log).getLast? = some p.id ∧
          p.serial ∉ deliveredOf c'.log := by
  intro h
  have hstop : stop? (attemptAll acceptsAll threeWrites)
      (oneOpen [none, none, some 1, none, some 0, some 0]) = some .blocked := by decide +kernel
  have hnone : (stateAfter (attemptAll acceptsAll threeWrites)
      (oneOpen [none, none, some 1, none, some 0, some 0])).outstanding = [] := by decide +kernel
  obtain ⟨p, hp, -⟩ := h acceptsAll 0 _ _ _ _ _ threeWrites_writes rfl rfl (error_of_stop? hstop)
  rw [hnone] at hp
  cases hp

/-- Replies in the order of the requests. -/
theorem threeWrites_settled :
    ∃ c' done q, attemptAll acceptsAll threeWrites (oneOpen [none, none, some 0, none, some 0, some 0]) =
      .ok [none, none, none, none] c' ∧
      Settled acceptsAll 0 [none, none, none, none] done q c' ∧ q = [] := by
  have hrun : value? (attemptAll acceptsAll threeWrites)
      (oneOpen [none, none, some 0, none, some 0, some 0]) = some [none, none, none, none] := by
    decide +kernel
  have hlog : Harmless (stateAfter (attemptAll acceptsAll threeWrites)
      (oneOpen [none, none, some 0, none, some 0, some 0])).log := by
    unfold Harmless
    decide +kernel
  obtain ⟨c', hrun, hlog⟩ : ∃ c', attemptAll acceptsAll threeWrites
      (oneOpen [none, none, some 0, none, some 0, some 0]) = .ok [none, none, none, none] c' ∧
        Harmless c'.log := ⟨_, ok_of_value? hrun, hlog⟩
  obtain ⟨done, q, hsettled, hlast⟩ := (writes_settled threeWrites_writes rfl rfl).1 _ _ hrun hlog
  exact ⟨c', done, q, hrun, hsettled, (hlast rfl fun p _ => ⟨[], rfl⟩).1⟩

end Hbackup.Sftp
