import Hbackup.Sftp.Equiv.Client
import Mathlib.Data.List.Nodup

/-!
# Replies reach the request they answer

`Matched` ties together the reply map, the ignored set and the requests in flight: every id has at
most one request whose reply is still to be collected, and the reply map holds the answer to it.
Sending, polling, awaiting and ignoring keep it (`Reachable.matched`), as long as fewer than `2^32`
requests are sent and an id is used again only when the reply to its last request has been
collected.
-/

namespace Hbackup.Sftp

open ProgramLogic

variable {server : Nat → Request → Reply}

/-! ### Runs -/

/-- What a user of the client may do. -/
inductive Op
  /-- A new id, and a request under it. -/
  | send (req : Request)
  /-- Another request under an id. -/
  | resend (id : UInt32) (req : Request)
  | poll
  | await (id : UInt32)
  | ignore (id : UInt32)

def exec (server : Nat → Request → Reply) : Op → S Unit
  | .send req => do
    let id ← newid
    send server id req
  | .resend id req => send server id req
  | .poll => poll server
  | .await id => do let _ ← await server id
  | .ignore id => ignore id

/-- The requests to ignore have been sent, and an id is used again one request at a time, and not
after it has been ignored. -/
def Op.Valid (c : Client) : Op → Prop
  | .send _ => c.serial + 1 < 2 ^ 32
  | .resend id _ => c.serial + 1 < 2 ^ 32 ∧
      (∃ s, lastSent id c.log = some s ∧ .delivered s ∈ c.log) ∧
      ∀ s arrived, .ignored id s arrived ∉ c.log
  | .ignore id => (lastSent id c.log).isSome
  | .poll => True
  | .await _ => True

/-- The states of runs that send fewer than `2^32` requests. -/
inductive Reachable (server : Nat → Request → Reply) : Client → Prop
  | start (schedule : List (Option Nat)) : Reachable server { schedule }
  | step {c : Client} (op : Op) (h : Reachable server c) (hop : op.Valid c) :
      Reachable server (stateAfter (exec server op) c)

/-! ### The invariant -/

/-- Request `s` was ignored. -/
def WasIgnored (log : List Event) (s : Nat) : Prop :=
  ∃ id arrived, .ignored id (some s) arrived ∈ log

/-- The last request under `id` is numbered `s`, and was answered with `r`. -/
structure Answered (server : Nat → Request → Reply) (log : List Event) (id : UInt32) (s : Nat)
    (r : Reply) : Prop where
  sent : ∃ req, .sent ⟨s, id, req⟩ ∈ log ∧ r = server s req
  last : lastSent id log = some s
  not_delivered : .delivered s ∉ log
  not_dropped : .dropped s ∉ log
  not_ignored : ¬ WasIgnored log s

/-- The requests in flight, the replies and the ignored ids agree with what has happened. -/
structure Matched (server : Nat → Request → Reply) (c : Client) : Prop where
  /-- The numbers in the log are those of requests already sent. -/
  below : ∀ s, (∃ p, .sent p ∈ c.log ∧ p.serial = s) ∨ .delivered s ∈ c.log ∨ .dropped s ∈ c.log ∨
    WasIgnored c.log s → s < c.serial
  sent_unique : ∀ p q, .sent p ∈ c.log → .sent q ∈ c.log → p.serial = q.serial → p = q
  outstanding_sent : ∀ p ∈ c.outstanding, .sent p ∈ c.log
  outstanding_last : ∀ p ∈ c.outstanding, lastSent p.id c.log = some p.serial
  outstanding_open : ∀ p ∈ c.outstanding, .delivered p.serial ∉ c.log ∧ .dropped p.serial ∉ c.log
  outstanding_ignored : ∀ p ∈ c.outstanding, p.id ∈ c.ignored ↔ WasIgnored c.log p.serial
  ids_nodup : (c.outstanding.map Pending.id).Nodup
  replies_answered : ∀ r ∈ c.replies, Answered server c.log r.1 r.2.1 r.2.2
  replies_arrived : ∀ r ∈ c.replies, r.1 ∉ c.outstanding.map Pending.id
  keys_nodup : (c.replies.map Prod.fst).Nodup
  ignored_logged : ∀ id ∈ c.ignored, ∃ s arrived, .ignored id (some s) arrived ∈ c.log
  ignored_sent : ∀ id s arrived, .ignored id (some s) arrived ∈ c.log →
    ∃ p, .sent p ∈ c.log ∧ p.id = id
  dropped_ignored : ∀ s, .dropped s ∈ c.log → WasIgnored c.log s

/-- `lastSent` finds a request that was sent. -/
theorem sent_of_lastSent {id : UInt32} {s : Nat} : ∀ {log : List Event},
    lastSent id log = some s → ∃ p, .sent p ∈ log ∧ p.id = id ∧ p.serial = s
  | [], h => by cases h
  | e :: log, h => by
    have later : lastSent id log = some s → ∃ p, .sent p ∈ e :: log ∧ p.id = id ∧ p.serial = s := by
      intro h
      obtain ⟨p, hp, hid⟩ := sent_of_lastSent h
      exact ⟨p, List.mem_cons_of_mem e hp, hid⟩
    cases e with
    | sent p =>
      rw [lastSent] at h
      split_ifs at h with hp
      · exact ⟨p, List.mem_cons_self, hp, Option.some.inj h⟩
      · exact later h
    | newid _ _ => exact later h
    | delivered _ => exact later h
    | dropped _ => exact later h
    | ignored _ _ _ => exact later h
    | reaped _ _ => exact later h
    | released _ => exact later h

/-- Under an id whose reply is to be collected there is no other one. -/
theorem Matched.drops_eq_nil {c : Client} (h : Matched server c) {p : Pending}
    (hp : p ∈ c.outstanding) : c.drops p.id = [] ∧ c.otherReplies p.id = c.replies := by
  have hne : ∀ r ∈ c.replies, r.1 ≠ p.id := by
    intro r hr e
    exact h.replies_arrived r hr (e ▸ List.mem_map_of_mem hp)
  constructor
  · rw [Client.drops, Client.repliesTo, List.filter_eq_nil_iff.mpr (by simpa using hne)]
    rfl
  · exact List.filter_eq_self.mpr (by simpa using hne)

/-! ### Polling -/

/-- Replies have been received, and some of them thrown away; nothing has been sent, delivered or
ignored. -/
structure Polled (c c' : Client) : Prop where
  log : ∃ ss : List Nat, c'.log = ss.map .dropped ++ c.log
  serial : c'.serial = c.serial
  id : c'.id = c.id

theorem Polled.refl (c : Client) : Polled c c := ⟨⟨[], rfl⟩, rfl, rfl⟩

theorem Polled.schedule (c : Client) (schedule : List (Option Nat)) :
    Polled c { c with schedule } := ⟨⟨[], rfl⟩, rfl, rfl⟩

theorem Polled.trans {c c' c'' : Client} (h : Polled c c') (h' : Polled c' c'') : Polled c c'' := by
  obtain ⟨ss, hs⟩ := h.log
  obtain ⟨ss', hs'⟩ := h'.log
  exact ⟨⟨ss' ++ ss, by rw [hs', hs, List.map_append, List.append_assoc]⟩,
    h'.serial.trans h.serial, h'.id.trans h.id⟩

theorem Polled.mem {c c' : Client} (h : Polled c c') {e : Event} (he : ∀ s, e ≠ .dropped s) :
    e ∈ c'.log ↔ e ∈ c.log := by
  obtain ⟨ss, hs⟩ := h.log
  rw [hs, List.mem_append]
  refine ⟨fun h => h.resolve_left fun hm => ?_, .inr⟩
  obtain ⟨s, -, rfl⟩ := List.mem_map.mp hm
  exact he s rfl

theorem lastSent_dropped (id : UInt32) (ss : List Nat) (log : List Event) :
    lastSent id (ss.map .dropped ++ log) = lastSent id log := by
  induction ss with
  | nil => rfl
  | cons s ss ih => exact ih

theorem Polled.lastSent {c c' : Client} (h : Polled c c') (id : UInt32) :
    lastSent id c'.log = lastSent id c.log := by
  obtain ⟨ss, hs⟩ := h.log
  rw [hs, lastSent_dropped]

theorem Polled.wasIgnored {c c' : Client} (h : Polled c c') (s : Nat) :
    WasIgnored c'.log s ↔ WasIgnored c.log s := by
  unfold WasIgnored
  simp only [h.mem (e := .ignored _ _ _) (by simp)]

/-- A reply that has arrived is filed, or thrown away because its request was ignored. -/
theorem Matched.wp_stash {c : Client} (h : Matched server c) {p : Pending}
    (hp : p ∈ c.outstanding) (schedule : List (Option Nat)) :
    wp (stash server p) (fun _ c' => Matched server c' ∧ Polled c c') (fun _ _ => False)
      { c with schedule, outstanding := c.outstanding.erase p } := by
  have hnd : c.outstanding.Nodup := List.Nodup.of_map _ h.ids_nodup
  have hmem : ∀ {q}, q ∈ c.outstanding.erase p → q ∈ c.outstanding ∧ q.id ≠ p.id := by
    intro q hq
    rw [hnd.mem_erase_iff] at hq
    refine ⟨hq.2, fun e => hq.1 ?_⟩
    exact List.inj_on_of_nodup_map h.ids_nodup hq.2 hp e
  have hserial : ∀ {q}, q ∈ c.outstanding → q.id ≠ p.id → q.serial ≠ p.serial := by
    intro q hq hne e
    exact hne (congrArg Pending.id (h.sent_unique q p (h.outstanding_sent q hq)
      (h.outstanding_sent p hp) e))
  -- what does not mention the ids
  have hnodup : ((c.outstanding.erase p).map Pending.id).Nodup :=
    (List.erase_sublist.map Pending.id).nodup h.ids_nodup
  rw [stash, wp_bind, wp_get]
  simp only
  split_ifs with hign
  · -- the request was ignored
    have hwas : WasIgnored c.log p.serial := (h.outstanding_ignored p hp).mp hign
    have hp' : Polled c { c with
        schedule, outstanding := c.outstanding.erase p, ignored := c.ignored.erase p.id
        log := .dropped p.serial :: c.log } := ⟨⟨[p.serial], rfl⟩, rfl, rfl⟩
    have hopen : ∀ q ∈ c.outstanding.erase p, .dropped q.serial ∉ Event.dropped p.serial :: c.log := by
      intro q hq
      have hq' := hmem hq
      simp [hserial hq'.1 hq'.2, (h.outstanding_open q hq'.1).2]
    refine ⟨?_, hp'⟩
    constructor <;> simp only [hp'.mem (e := .sent _) (by simp),
      hp'.mem (e := .delivered _) (by simp), hp'.mem (e := .ignored _ _ _) (by simp),
      hp'.wasIgnored, hp'.lastSent]
    · rintro s (hs | hs | hs | hs)
      · exact h.below s (.inl hs)
      · exact h.below s (.inr (.inl hs))
      · rcases List.mem_cons.mp hs with hs | hs
        · cases hs
          exact h.below _ (.inr (.inr (.inr hwas)))
        · exact h.below s (.inr (.inr (.inl hs)))
      · exact h.below s (.inr (.inr (.inr hs)))
    · exact h.sent_unique
    · exact fun q hq => h.outstanding_sent q (hmem hq).1
    · exact fun q hq => h.outstanding_last q (hmem hq).1
    · exact fun q hq => ⟨(h.outstanding_open q (hmem hq).1).1, hopen q hq⟩
    · intro q hq
      rw [← h.outstanding_ignored q (hmem hq).1, List.mem_erase_of_ne (hmem hq).2]
    · exact hnodup
    · intro r hr
      have ha := h.replies_answered r hr
      refine ⟨by simpa [hp'.mem (e := .sent _)] using ha.sent, by rw [hp'.lastSent]; exact ha.last,
        by simpa using ha.not_delivered, ?_, by rw [hp'.wasIgnored]; exact ha.not_ignored⟩
      have hne : r.2.1 ≠ p.serial := fun e => ha.not_ignored (e ▸ hwas)
      simp [hne, ha.not_dropped]
    · exact fun r hr hm => h.replies_arrived r hr ((List.erase_sublist.map Pending.id).mem hm)
    · exact h.keys_nodup
    · exact fun id hid => h.ignored_logged id (List.mem_of_mem_erase hid)
    · exact h.ignored_sent
    · intro s hs
      rcases List.mem_cons.mp hs with hs | hs
      · cases hs; exact hwas
      · exact h.dropped_ignored s hs
  · have hwas : ¬ WasIgnored c.log p.serial := fun hw => hign ((h.outstanding_ignored p hp).mpr hw)
    obtain ⟨hdrops, hothers⟩ := h.drops_eq_nil hp
    simp only [wp_set, Client.drops, Client.repliesTo, Client.otherReplies] at hdrops hothers ⊢
    rw [hdrops, hothers, List.nil_append]
    refine ⟨?_, ⟨⟨[], rfl⟩, rfl, rfl⟩⟩
    constructor
    · exact h.below
    · exact h.sent_unique
    · exact fun q hq => h.outstanding_sent q (hmem hq).1
    · exact fun q hq => h.outstanding_last q (hmem hq).1
    · exact fun q hq => h.outstanding_open q (hmem hq).1
    · exact fun q hq => h.outstanding_ignored q (hmem hq).1
    · exact hnodup
    · intro r hr
      rcases List.mem_cons.mp hr with rfl | hr
      · exact ⟨⟨p.req, h.outstanding_sent p hp, rfl⟩, h.outstanding_last p hp,
          (h.outstanding_open p hp).1, (h.outstanding_open p hp).2, hwas⟩
      · exact h.replies_answered r hr
    · intro r hr
      rcases List.mem_cons.mp hr with rfl | hr
      · intro hm
        obtain ⟨q, hq, e⟩ := List.mem_map.mp hm
        exact (hmem hq).2 e
      · exact fun hm => h.replies_arrived r hr ((List.erase_sublist.map Pending.id).mem hm)
    · rw [List.map_cons, List.nodup_cons]
      refine ⟨fun hm => ?_, h.keys_nodup⟩
      obtain ⟨r, hr, e⟩ := List.mem_map.mp hm
      exact h.replies_arrived r hr (e ▸ List.mem_map_of_mem hp)
    · exact h.ignored_logged
    · exact h.ignored_sent
    · exact h.dropped_ignored

/-- Looking at the schedule is no part of the invariant. -/
theorem Matched.schedule {c : Client} (h : Matched server c) (schedule : List (Option Nat)) :
    Matched server { c with schedule } :=
  ⟨h.below, h.sent_unique, h.outstanding_sent, h.outstanding_last, h.outstanding_open,
    h.outstanding_ignored, h.ids_nodup, h.replies_answered, h.replies_arrived, h.keys_nodup,
    h.ignored_logged, h.ignored_sent, h.dropped_ignored⟩

/-- Waiting keeps the invariant. -/
theorem Matched.receives (c : Client) :
    Receives server fun c' => Matched server c' ∧ Polled c c' where
  passes c' schedule h := ⟨h.1.schedule schedule, h.2.trans (.schedule c' schedule)⟩
  files _ _ schedule h hp := wp_mono (h.1.wp_stash hp schedule)
    (fun _ _ h' => ⟨h'.1, h.2.trans h'.2⟩) (fun _ _ h => h)

/-! ### Awaiting -/

/-- A reply is taken out of the map. -/
theorem Matched.deliver {c : Client} (h : Matched server c) {id : UInt32} {s : Nat} {r : Reply}
    (hr : (id, s, r) ∈ c.replies) :
    Matched server { c with replies := c.otherReplies id, log := .delivered s :: c.log } := by
  have ha := h.replies_answered _ hr
  obtain ⟨req, hsent, -⟩ := ha.sent
  have hmem : ∀ {r'}, r' ∈ c.otherReplies id → r' ∈ c.replies ∧ r'.1 ≠ id := by
    intro r' hr'
    simpa [Client.otherReplies] using hr'
  -- requests under other ids have other numbers
  have hother : ∀ {p}, .sent p ∈ c.log → p.id ≠ id → p.serial ≠ s := fun hp hne e =>
    hne (congrArg Pending.id (h.sent_unique _ _ hp hsent e))
  have hout : ∀ p ∈ c.outstanding, p.serial ≠ s := fun p hp =>
    hother (h.outstanding_sent p hp) fun e =>
      h.replies_arrived _ hr (e ▸ List.mem_map_of_mem hp)
  have hlast : ∀ i, lastSent i (.delivered s :: c.log) = lastSent i c.log := fun _ => rfl
  have hwas : ∀ n, WasIgnored (.delivered s :: c.log) n ↔ WasIgnored c.log n := fun n => by
    simp [WasIgnored]
  constructor
  · rintro n (⟨p, hp, rfl⟩ | hn | hn | hn)
    · exact h.below _ (.inl ⟨p, by simpa using hp, rfl⟩)
    · rcases List.mem_cons.mp hn with hn | hn
      · cases hn
        exact h.below _ (.inl ⟨_, hsent, rfl⟩)
      · exact h.below n (.inr (.inl hn))
    · exact h.below n (.inr (.inr (.inl (by simpa using hn))))
    · exact h.below n (.inr (.inr (.inr ((hwas n).mp hn))))
  · exact fun p q hp hq => h.sent_unique p q (by simpa using hp) (by simpa using hq)
  · exact fun p hp => List.mem_cons_of_mem _ (h.outstanding_sent p hp)
  · exact h.outstanding_last
  · exact fun p hp => by simpa [hout p hp] using h.outstanding_open p hp
  · exact fun p hp => (h.outstanding_ignored p hp).trans (hwas _).symm
  · exact h.ids_nodup
  · intro r' hr'
    obtain ⟨hr', hne⟩ := hmem hr'
    have ha' := h.replies_answered r' hr'
    obtain ⟨req', hsent', hreq'⟩ := ha'.sent
    have hs' : r'.2.1 ≠ s := hother hsent' hne
    exact ⟨⟨req', List.mem_cons_of_mem _ hsent', hreq'⟩, ha'.last,
      by simpa [hs'] using ha'.not_delivered, by simpa using ha'.not_dropped,
      fun hw => ha'.not_ignored ((hwas _).mp hw)⟩
  · exact fun r' hr' => h.replies_arrived r' (hmem hr').1
  · exact (List.filter_sublist.map Prod.fst).nodup h.keys_nodup
  · intro i hi
    obtain ⟨n, b, hn⟩ := h.ignored_logged i hi
    exact ⟨n, b, List.mem_cons_of_mem _ hn⟩
  · intro i n b hn
    obtain ⟨p, hp, hid⟩ := h.ignored_sent i n b (by simpa using hn)
    exact ⟨p, List.mem_cons_of_mem _ hp, hid⟩
  · exact fun n hn => (hwas n).mpr (h.dropped_ignored n (by simpa using hn))

/-- What is true when `await` returns: the reply is that of a request sent under `id`, neither
delivered before nor ignored. -/
theorem Matched.wp_await {c : Client} (h : Matched server c) (id : UInt32) :
    wp (await server id)
      (fun r c' => ∃ c₁ s, Polled c c₁ ∧ Answered server c₁.log id s r ∧
        c'.log = .delivered s :: c₁.log ∧ Matched server c' ∧ c'.serial = c.serial ∧ c'.id = c.id)
      (fun _ c' => Matched server c' ∧ Polled c c') c := by
  refine wp_mono ((Matched.receives c).wp_await id ⟨h, .refl c⟩) ?_ (fun _ _ h => h.2.2)
  rintro r c' ⟨c₁, s, ⟨hm, hp⟩, hl, rfl⟩
  have hr := mem_of_lookup hl
  exact ⟨c₁, s, hp, hm.replies_answered _ hr, rfl, hm.deliver hr, hp.serial, hp.id⟩

/-! ### Sending and ignoring -/

/-- A request is put on the wire, under an id that has no other one in flight. -/
theorem Matched.push {c : Client} (h : Matched server c) {id : UInt32} (req : Request)
    (hout : id ∉ c.outstanding.map Pending.id) (hrep : id ∉ c.replies.map Prod.fst)
    (hign : id ∉ c.ignored) :
    Matched server { c with
      outstanding := c.outstanding ++ [⟨c.serial, id, req⟩]
      serial := c.serial + 1
      log := .sent ⟨c.serial, id, req⟩ :: c.log } := by
  -- the serial number of the new request is greater than all that the log knows
  have hnew : ∀ {s}, s < c.serial → s ≠ c.serial := fun h => Nat.ne_of_lt h
  -- other ids were last sent with the request that they were last sent with before
  have hlast : ∀ {i}, i ≠ id → lastSent i (.sent ⟨c.serial, id, req⟩ :: c.log) = lastSent i c.log := by
    intro i hi
    rw [lastSent, if_neg fun e => hi e.symm]
  have hwas : ∀ n, WasIgnored (.sent ⟨c.serial, id, req⟩ :: c.log) n ↔ WasIgnored c.log n := fun n => by
    simp [WasIgnored]
  have hfresh : ¬ WasIgnored c.log c.serial ∧ .delivered c.serial ∉ c.log ∧
      .dropped c.serial ∉ c.log :=
    ⟨fun hw => hnew (h.below _ (.inr (.inr (.inr hw)))) rfl,
      fun hd => hnew (h.below _ (.inr (.inl hd))) rfl,
      fun hd => hnew (h.below _ (.inr (.inr (.inl hd)))) rfl⟩
  -- the fields of the invariant in their order; in each the new request is one more case
  constructor
  · intro n hn
    refine Nat.lt_succ_of_le ?_
    rcases hn with ⟨p, hp, rfl⟩ | hn | hn | hn
    · rcases List.mem_cons.mp hp with hp | hp
      · cases hp
        exact Nat.le_refl _
      · exact Nat.le_of_lt (h.below _ (.inl ⟨p, hp, rfl⟩))
    · exact Nat.le_of_lt (h.below n (.inr (.inl (by simpa using hn))))
    · exact Nat.le_of_lt (h.below n (.inr (.inr (.inl (by simpa using hn)))))
    · exact Nat.le_of_lt (h.below n (.inr (.inr (.inr ((hwas n).mp hn)))))
  · intro p q hp hq e
    rcases List.mem_cons.mp hp with hp | hp <;> rcases List.mem_cons.mp hq with hq | hq
    · cases hp; cases hq; rfl
    · cases hp
      exact absurd e.symm (hnew (h.below _ (.inl ⟨q, hq, rfl⟩)))
    · cases hq
      exact absurd e (hnew (h.below _ (.inl ⟨p, hp, rfl⟩)))
    · exact h.sent_unique p q hp hq e
  · intro p hp
    rcases List.mem_append.mp hp with hp | hp
    · exact List.mem_cons_of_mem _ (h.outstanding_sent p hp)
    · rw [List.mem_singleton.mp hp]; simp
  · intro p hp
    rcases List.mem_append.mp hp with hp | hp
    · rw [hlast fun e => hout (e ▸ List.mem_map_of_mem hp)]
      exact h.outstanding_last p hp
    · rw [List.mem_singleton.mp hp]; simp [lastSent]
  · intro p hp
    rcases List.mem_append.mp hp with hp | hp
    · simpa using h.outstanding_open p hp
    · rw [List.mem_singleton.mp hp]
      simpa using hfresh.2
  · intro p hp
    rw [hwas]
    rcases List.mem_append.mp hp with hp | hp
    · exact h.outstanding_ignored p hp
    · rw [List.mem_singleton.mp hp]
      exact ⟨fun hi => absurd hi hign, fun hw => absurd hw hfresh.1⟩
  · rw [List.map_append, List.nodup_append]
    refine ⟨h.ids_nodup, by simp, fun a ha b hb => ?_⟩
    rw [List.map_singleton, List.mem_singleton] at hb
    rintro rfl
    exact hout ((show a = id from hb) ▸ ha)
  · intro r hr
    have ha := h.replies_answered r hr
    obtain ⟨req', hsent', hreq'⟩ := ha.sent
    exact ⟨⟨req', List.mem_cons_of_mem _ hsent', hreq'⟩,
      (hlast fun e => hrep (e ▸ List.mem_map_of_mem hr)).trans ha.last,
      by simpa using ha.not_delivered, by simpa using ha.not_dropped,
      fun hw => ha.not_ignored ((hwas _).mp hw)⟩
  · intro r hr hm
    rw [List.map_append, List.mem_append] at hm
    rcases hm with hm | hm
    · exact h.replies_arrived r hr hm
    · rw [List.map_singleton, List.mem_singleton] at hm
      exact hrep ((show r.1 = id from hm) ▸ List.mem_map_of_mem hr)
  · exact h.keys_nodup
  · intro i hi
    obtain ⟨n, b, hn⟩ := h.ignored_logged i hi
    exact ⟨n, b, List.mem_cons_of_mem _ hn⟩
  · intro i n b hn
    obtain ⟨p, hp, hid⟩ := h.ignored_sent i n b (by simpa using hn)
    exact ⟨p, List.mem_cons_of_mem _ hp, hid⟩
  · exact fun n hn => (hwas n).mpr (h.dropped_ignored n (by simpa using hn))

/-- `send` polls first; the id must still be free then. -/
theorem Matched.wp_send {c : Client} (h : Matched server c) {id : UInt32} (req : Request)
    (hfree : ∀ c', Matched server c' → Polled c c' → id ∉ c'.outstanding.map Pending.id ∧
      id ∉ c'.replies.map Prod.fst ∧ id ∉ c'.ignored) :
    wp (send server id req)
      (fun _ c' => Matched server c' ∧ c'.serial = c.serial + 1 ∧ c'.id = c.id ∧
        ∀ p, .sent p ∈ c'.log ↔ p = ⟨c.serial, id, req⟩ ∨ .sent p ∈ c.log)
      (fun _ _ => False) c := by
  rw [send, wp_bind, wp_get, wp_bind]
  refine wp_mono ((Matched.receives c).wp_pollReady _ ⟨h, .refl c⟩) ?_ fun _ _ h => h
  rintro _ c' ⟨hm, hp⟩
  obtain ⟨h1, h2, h3⟩ := hfree c' hm hp
  rw [wp_modify]
  refine ⟨hm.push req h1 h2 h3, by rw [hp.serial], hp.id, fun p => ?_⟩
  simp only [List.mem_cons, Event.sent.injEq, hp.mem (e := .sent p) (by simp), hp.serial]

/-- The replies thrown away by `ignore` are those to the last request under the id. -/
theorem Matched.mem_drops {c : Client} (h : Matched server c) {id : UInt32} {s : Nat}
    (hs : lastSent id c.log = some s) {e : Event} :
    e ∈ c.drops id ↔ e = .dropped s ∧ ∃ r ∈ c.replies, r.1 = id := by
  simp only [Client.drops, Client.repliesTo, List.mem_map, List.mem_filter, decide_eq_true_eq]
  constructor
  · rintro ⟨r, ⟨hr, hid⟩, rfl⟩
    have := (h.replies_answered r hr).last
    rw [hid, hs] at this
    exact ⟨by rw [Option.some.inj this], r, hr, hid⟩
  · rintro ⟨rfl, r, hr, hid⟩
    have := (h.replies_answered r hr).last
    rw [hid, hs] at this
    exact ⟨r, ⟨hr, hid⟩, by rw [Option.some.inj this]⟩

theorem Matched.wp_ignore {c : Client} (h : Matched server c) {id : UInt32}
    (hsent : (lastSent id c.log).isSome) :
    wp (ignore id)
      (fun _ c' => Matched server c' ∧ c'.serial = c.serial ∧ c'.id = c.id ∧
        ∀ p, .sent p ∈ c'.log ↔ .sent p ∈ c.log) (fun _ _ => False) c := by
  obtain ⟨s, hs⟩ := Option.isSome_iff_exists.mp hsent
  obtain ⟨p₀, hp₀, rfl, rfl⟩ := sent_of_lastSent hs
  rw [ignore, wp_modify, hs]
  set log' := c.drops p₀.id ++ .ignored p₀.id (some p₀.serial) (c.ready p₀.id) :: c.log with hlog'
  -- what the log says now
  have hmem : ∀ e, e ∈ log' ↔ (e = .dropped p₀.serial ∧ ∃ r ∈ c.replies, r.1 = p₀.id) ∨
      e = .ignored p₀.id (some p₀.serial) (c.ready p₀.id) ∨ e ∈ c.log := by
    intro e
    rw [hlog', List.mem_append, h.mem_drops hs, List.mem_cons]
  have hsentmem : ∀ p, .sent p ∈ log' ↔ .sent p ∈ c.log := fun p => by simp [hmem]
  have hdel : ∀ n, .delivered n ∈ log' ↔ .delivered n ∈ c.log := fun n => by simp [hmem]
  have hdrop : ∀ n, .dropped n ∈ log' ↔
      (n = p₀.serial ∧ ∃ r ∈ c.replies, r.1 = p₀.id) ∨ .dropped n ∈ c.log := fun n => by
    simp [hmem]
  have hwas : ∀ n, WasIgnored log' n ↔ n = p₀.serial ∨ WasIgnored c.log n := by
    intro n
    unfold WasIgnored
    constructor
    · rintro ⟨i, b, hib⟩
      rcases (hmem _).mp hib with ⟨he, -⟩ | he | he
      · cases he
      · cases he; exact .inl rfl
      · exact .inr ⟨i, b, he⟩
    · rintro (rfl | ⟨i, b, hib⟩)
      · exact ⟨_, _, (hmem _).mpr (.inr (.inl rfl))⟩
      · exact ⟨i, b, (hmem _).mpr (.inr (.inr hib))⟩
  have hlast : ∀ i, lastSent i log' = lastSent i c.log := by
    intro i
    have : ∀ l : List (UInt32 × Nat × Reply), lastSent i
        (l.map (fun r => .dropped r.2.1) ++ .ignored p₀.id (some p₀.serial) (c.ready p₀.id) :: c.log) =
        lastSent i c.log := by
      intro l
      induction l with
      | nil => rfl
      | cons r l ih => exact ih
    exact this _
  have hsame : ∀ p ∈ c.outstanding, p.serial = p₀.serial ↔ p.id = p₀.id := by
    intro p hp
    constructor
    · intro e
      exact congrArg Pending.id (h.sent_unique p p₀ (h.outstanding_sent p hp) hp₀ e)
    · intro e
      have := h.outstanding_last p hp
      rw [e, hs] at this
      exact (Option.some.inj this).symm
  refine ⟨?_, rfl, rfl, hsentmem⟩
  constructor
  · rintro n (⟨p, hp, rfl⟩ | hn | hn | hn)
    · exact h.below _ (.inl ⟨p, (hsentmem p).mp hp, rfl⟩)
    · exact h.below n (.inr (.inl ((hdel n).mp hn)))
    · rcases (hdrop n).mp hn with ⟨rfl, -⟩ | hn
      · exact h.below _ (.inl ⟨p₀, hp₀, rfl⟩)
      · exact h.below n (.inr (.inr (.inl hn)))
    · rcases (hwas n).mp hn with rfl | hn
      · exact h.below _ (.inl ⟨p₀, hp₀, rfl⟩)
      · exact h.below n (.inr (.inr (.inr hn)))
  · exact fun p q hp hq => h.sent_unique p q ((hsentmem p).mp hp) ((hsentmem q).mp hq)
  · exact fun p hp => (hsentmem p).mpr (h.outstanding_sent p hp)
  · exact fun p hp => (hlast _).trans (h.outstanding_last p hp)
  · intro p hp
    refine ⟨fun hd => (h.outstanding_open p hp).1 ((hdel _).mp hd), fun hd => ?_⟩
    rcases (hdrop _).mp hd with ⟨he, r, hr, hid⟩ | hd
    · rw [← (hsame p hp).mp he] at hid
      exact h.replies_arrived r hr (hid ▸ List.mem_map_of_mem hp)
    · exact (h.outstanding_open p hp).2 hd
  · intro p hp
    rw [hwas, hsame p hp, ← h.outstanding_ignored p hp]
    simp only
    split_ifs with hi
    · exact ⟨.inr, fun e => e.elim (fun e => e ▸ hi) fun e => e⟩
    · exact List.mem_cons
  · exact h.ids_nodup
  · intro r hr
    obtain ⟨hr, hne⟩ : r ∈ c.replies ∧ r.1 ≠ p₀.id := by simpa [Client.otherReplies] using hr
    have ha := h.replies_answered r hr
    obtain ⟨req, hsent', hreq⟩ := ha.sent
    have hns : r.2.1 ≠ p₀.serial := fun e =>
      hne (congrArg Pending.id (h.sent_unique _ _ hsent' hp₀ e))
    refine ⟨⟨req, (hsentmem _).mpr hsent', hreq⟩, (hlast _).trans ha.last,
      fun hd => ha.not_delivered ((hdel _).mp hd), fun hd => ?_, fun hw => ?_⟩
    · exact ((hdrop _).mp hd).elim (fun hd => hns hd.1) ha.not_dropped
    · exact ((hwas _).mp hw).elim hns ha.not_ignored
  · exact fun r hr => h.replies_arrived r (List.mem_of_mem_filter hr)
  · exact (List.filter_sublist.map Prod.fst).nodup h.keys_nodup
  · intro i hi
    by_cases he : i = p₀.id
    · exact ⟨_, _, (hmem _).mpr (.inr (.inl (by rw [he])))⟩
    · have hi' : i ∈ c.ignored := by
        revert hi
        simp only
        split_ifs
        · exact id
        · exact fun hi => (List.mem_cons.mp hi).resolve_left he
      obtain ⟨n, b, hn⟩ := h.ignored_logged i hi'
      exact ⟨n, b, (hmem _).mpr (.inr (.inr hn))⟩
  · intro i n b hn
    rcases (hmem _).mp hn with ⟨he, -⟩ | he | he
    · cases he
    · cases he
      exact ⟨p₀, (hsentmem _).mpr hp₀, rfl⟩
    · obtain ⟨p, hp, hid⟩ := h.ignored_sent i n b he
      exact ⟨p, (hsentmem _).mpr hp, hid⟩
  · intro n hn
    rw [hwas]
    exact ((hdrop n).mp hn).imp And.left (h.dropped_ignored n)

/-! ### Ids -/

/-- `newid` has been called `k` times, and all ids in use are from these calls. -/
structure Ids (k : Nat) (c : Client) : Prop where
  next : c.id = if k = 0 then 0 else UInt32.ofNat (k + 1)
  bound : ∀ p, .sent p ∈ c.log → 1 ≤ p.id.toNat ∧ p.id.toNat ≤ k

/-- A new id is larger than all before it. -/
theorem Ids.wp_newid {k : Nat} {c : Client} (h : Ids k c) (hk : k + 1 < 2 ^ 32) :
    wp newid (fun id c' => id.toNat = k + 1 ∧
        c' = { c with id := UInt32.ofNat (k + 2), log := .newid id (c.inUse id) :: c.log })
      (fun _ _ => False) c := by
  have hid : (if c.id = 0 then 1 else c.id) = UInt32.ofNat (k + 1) := by
    rw [h.next]
    split_ifs with h0 h1 h1
    · rw [h0]; rfl
    · exact absurd rfl h1
    · have := congrArg UInt32.toNat h1
      rw [UInt32.toNat_ofNat_of_lt' hk] at this
      simp at this
    · rfl
  have hsucc : UInt32.ofNat (k + 1) + 1 = UInt32.ofNat (k + 2) := by
    rw [show k + 2 = (k + 1) + 1 from rfl, UInt32.ofNat_add (k + 1) 1]; rfl
  rw [newid, wp_bind, wp_get]
  simp only [wp_bind, wp_set, wp_pure, hid, hsucc]
  exact ⟨UInt32.toNat_ofNat_of_lt' hk, trivial⟩

/-- The log of new ids is no part of the invariant. -/
theorem Matched.newid {c : Client} (h : Matched server c) (i id : UInt32) (b : Bool) :
    Matched server { c with id := i, log := .newid id b :: c.log } := by
  have hwas : ∀ n, WasIgnored (.newid id b :: c.log) n ↔ WasIgnored c.log n := fun n => by
    simp [WasIgnored]
  constructor
  · exact fun n hn => h.below n (by simpa [hwas] using hn)
  · exact fun p q hp hq => h.sent_unique p q (by simpa using hp) (by simpa using hq)
  · exact fun p hp => List.mem_cons_of_mem _ (h.outstanding_sent p hp)
  · exact h.outstanding_last
  · exact fun p hp => by simpa using h.outstanding_open p hp
  · exact fun p hp => (h.outstanding_ignored p hp).trans (hwas _).symm
  · exact h.ids_nodup
  · intro r hr
    have ha := h.replies_answered r hr
    obtain ⟨req, hsent, hreq⟩ := ha.sent
    exact ⟨⟨req, List.mem_cons_of_mem _ hsent, hreq⟩, ha.last, by simpa using ha.not_delivered,
      by simpa using ha.not_dropped, fun hw => ha.not_ignored ((hwas _).mp hw)⟩
  · exact h.replies_arrived
  · exact h.keys_nodup
  · intro i hi
    obtain ⟨n, b, hn⟩ := h.ignored_logged i hi
    exact ⟨n, b, List.mem_cons_of_mem _ hn⟩
  · intro i n b hn
    obtain ⟨p, hp, hid⟩ := h.ignored_sent i n b (by simpa using hn)
    exact ⟨p, List.mem_cons_of_mem _ hp, hid⟩
  · exact fun n hn => (hwas n).mpr (h.dropped_ignored n (by simpa using hn))

/-- The invariant of a run. -/
def RunInvariant (server : Nat → Request → Reply) (c : Client) : Prop :=
  Matched server c ∧ ∃ k ≤ c.serial, Ids k c

/-- Polling sends nothing and gives out no id. -/
theorem RunInvariant.polled {c c' : Client} (h : RunInvariant server c) (hm : Matched server c')
    (hp : Polled c c') : RunInvariant server c' := by
  obtain ⟨-, k, hk, hids⟩ := h
  exact ⟨hm, k, by rw [hp.serial]; exact hk, by rw [hp.id]; exact hids.next,
    fun p hp' => hids.bound p ((hp.mem (by simp)).mp hp')⟩

theorem RunInvariant.exec {c : Client} (h : RunInvariant server c) {op : Op} (hop : op.Valid c) :
    wp (exec server op) (fun _ => RunInvariant server) (fun _ => RunInvariant server) c := by
  obtain ⟨hm, k, hk, hids⟩ := h
  cases op with
  | send req =>
    rw [Sftp.exec, wp_bind]
    refine wp_mono (hids.wp_newid (Nat.lt_of_le_of_lt (Nat.succ_le_succ hk) hop)) ?_
      (fun _ _ h => h.elim)
    rintro id c₁ ⟨hid, rfl⟩
    have hbig : ∀ p, .sent p ∈ c.log → p.id ≠ id := by
      rintro p hp rfl
      have := (hids.bound p hp).2
      omega
    -- no request was ever sent under the new id
    refine wp_mono ((hm.newid (UInt32.ofNat (k + 2)) id (c.inUse id)).wp_send req
      fun c' hm' hp => ?_) (fun _ c' h' => ⟨h'.1, k + 1, ?_, ?_, ?_⟩) (fun _ _ h => h.elim)
    · have hno : ∀ p, .sent p ∈ c'.log → p.id ≠ id := fun p hp' =>
        hbig p (by simpa using (hp.mem (by simp)).mp hp')
      refine ⟨fun hmem => ?_, fun hmem => ?_, fun hmem => ?_⟩
      · obtain ⟨p, hp', he⟩ := List.mem_map.mp hmem
        exact hno p (hm'.outstanding_sent p hp') he
      · obtain ⟨r, hr, he⟩ := List.mem_map.mp hmem
        obtain ⟨req', hs, -⟩ := (hm'.replies_answered r hr).sent
        exact hno _ hs he
      · obtain ⟨s, b, hs⟩ := hm'.ignored_logged id hmem
        obtain ⟨p, hp', he⟩ := hm'.ignored_sent id s b hs
        exact hno p hp' he
    · rw [h'.2.1]
      exact Nat.succ_le_succ hk
    · rw [h'.2.2.1]
      rfl
    · intro p hp
      rcases (h'.2.2.2 p).mp hp with rfl | hp
      · simp only
        omega
      · have := hids.bound p (by simpa using hp)
        omega
  | resend id req =>
    obtain ⟨-, ⟨s, hs, hdel⟩, hnot⟩ := hop
    rw [Sftp.exec]
    obtain ⟨p₀, hp₀, hid₀, -⟩ := sent_of_lastSent hs
    refine wp_mono (hm.wp_send req fun c' hm' hp => ?_)
      (fun _ c' h' => ⟨h'.1, k, ?_, ?_, ?_⟩) (fun _ _ h => h.elim)
    · -- the reply to the last request under the id has been collected, and it was not ignored
      have hs' : lastSent id c'.log = some s := (hp.lastSent id).trans hs
      have hdel' : .delivered s ∈ c'.log := (hp.mem (by simp)).mpr hdel
      refine ⟨fun hmem => ?_, fun hmem => ?_, fun hmem => ?_⟩
      · obtain ⟨p, hp', rfl⟩ := List.mem_map.mp hmem
        have := hm'.outstanding_last p hp'
        rw [hs'] at this
        rw [Option.some.inj this] at hdel'
        exact (hm'.outstanding_open p hp').1 hdel'
      · obtain ⟨r, hr, rfl⟩ := List.mem_map.mp hmem
        have ha := hm'.replies_answered r hr
        have := ha.last
        rw [hs'] at this
        rw [Option.some.inj this] at hdel'
        exact ha.not_delivered hdel'
      · obtain ⟨n, b, hn⟩ := hm'.ignored_logged id hmem
        exact hnot _ _ ((hp.mem (by simp)).mp hn)
    · rw [h'.2.1]
      exact Nat.le_succ_of_le hk
    · rw [h'.2.2.1]
      exact hids.next
    · intro p hp
      rcases (h'.2.2.2 p).mp hp with rfl | hp
      · rw [← hid₀]
        exact hids.bound p₀ hp₀
      · exact hids.bound p hp
  | poll =>
    refine wp_mono ((Matched.receives c).wp_poll ⟨hm, .refl c⟩) (fun _ c' h' => ?_)
      (fun _ c' h' => ?_)
    · exact RunInvariant.polled ⟨hm, k, hk, hids⟩ h'.1.1 h'.1.2
    · exact RunInvariant.polled ⟨hm, k, hk, hids⟩ h'.2.2.1 h'.2.2.2
  | await id =>
    rw [Sftp.exec, wp_bind]
    refine wp_mono (hm.wp_await id) (fun r c' h' => ?_)
      (fun _ c' h' => RunInvariant.polled ⟨hm, k, hk, hids⟩ h'.1 h'.2)
    obtain ⟨c₁, s, hp, -, hlog, hm', hserial, hid⟩ := h'
    refine ⟨hm', k, by rw [hserial]; exact hk, by rw [hid]; exact hids.next, fun p hp' => ?_⟩
    rw [hlog] at hp'
    exact hids.bound p ((hp.mem (by simp)).mp (by simpa using hp'))
  | ignore id =>
    refine wp_mono (hm.wp_ignore hop) (fun _ c' h' => ?_) (fun _ _ h => h.elim)
    exact ⟨h'.1, k, by rw [h'.2.1]; exact hk, by rw [h'.2.2.1]; exact hids.next,
      fun p hp => hids.bound p ((h'.2.2.2 p).mp hp)⟩

theorem Reachable.invariant {c : Client} (h : Reachable server c) : RunInvariant server c := by
  induction h with
  | start schedule =>
    refine ⟨?_, 0, Nat.le_refl _, rfl, fun p hp => by cases hp⟩
    constructor <;> simp [WasIgnored]
  | step op _ hop ih => exact (wp_stateAfter _ _ _).mp (ih.exec hop)

/-- **Replies reach the request they answer.**  In every reachable state an `await` that returns
gives the answer to a request sent under its id, which has neither been delivered before nor
ignored; and no reply has been thrown away but to requests that were ignored. -/
theorem Reachable.replies_matched {c : Client} (h : Reachable server c) :
    (∀ id r c', await server id c = .ok r c' → ∃ s req,
      .sent ⟨s, id, req⟩ ∈ c.log ∧ r = server s req ∧ .delivered s ∉ c.log ∧
        ¬ WasIgnored c.log s ∧ c'.log.head? = some (.delivered s)) ∧
    ∀ s, .dropped s ∈ c.log → WasIgnored c.log s := by
  obtain ⟨hm, -⟩ := h.invariant
  refine ⟨fun id r c' hrun => ?_, hm.dropped_ignored⟩
  obtain ⟨c₁, s, hp, ha, hlog, -⟩ := wp_elim_ok (hm.wp_await id) hrun
  obtain ⟨req, hsent, hreq⟩ := ha.sent
  refine ⟨s, req, (hp.mem (by simp)).mp hsent, hreq,
    fun hd => ha.not_delivered ((hp.mem (by simp)).mpr hd),
    fun hw => ha.not_ignored ((hp.wasIgnored s).mpr hw), by rw [hlog]; rfl⟩

/-- A server that answers everything in the same way. -/
def attrsServer : Nat → Request → Reply := fun _ _ => .ATTRS

/-- Two probes; the reply to the second has arrived, the first is ignored. -/
def twoProbes : Client :=
  stateAfter (exec attrsServer (.ignore 1)) (stateAfter (exec attrsServer .poll)
    (stateAfter (exec attrsServer (.send (.STAT (lit "b"))))
      (stateAfter (exec attrsServer (.send (.STAT (lit "a"))))
        { schedule := [none, none, some 1, some 0] })))

theorem twoProbes_reachable : Reachable attrsServer twoProbes :=
  .step (.ignore 1) (.step .poll (.step (.send (.STAT (lit "b"))) (.step (.send (.STAT (lit "a")))
    (.start _) (by change _ < _; decide)) (by change _ < _; decide)) trivial)
    (by change Option.isSome _ = true; decide)

theorem twoProbes_matched :
    (∀ id r c', await attrsServer id twoProbes = .ok r c' → ∃ s req,
      .sent ⟨s, id, req⟩ ∈ twoProbes.log ∧ r = attrsServer s req ∧ .delivered s ∉ twoProbes.log ∧
        ¬ WasIgnored twoProbes.log s ∧ c'.log.head? = some (.delivered s)) ∧
    ∀ s, .dropped s ∈ twoProbes.log → WasIgnored twoProbes.log s :=
  Reachable.replies_matched twoProbes_reachable

end Hbackup.Sftp
